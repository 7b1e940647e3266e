import EntropyCoding.Proofs.Segment.Payload

/-!
# Which tokens are refused, and what has been written then

A list of tokens is gone through more than once when it is written.  First the model of each token is
looked up, from the first token to the last.  With range coding the symbols are then pushed from the
last to the first, and nothing is written before all of them have been pushed; with prefix codes each
token is written before the next one is looked at.  So it depends on what is wrong which token is
refused, and only with prefix codes some tokens may have been written: `Refused` says which error there
is and where the writer is left, and `writeTokens_eq_error_iff` that there is no other error.
-/

namespace EntropyCoding

/-! ## The first and the last -/

section

variable {α β : Type}

/-- If not all elements have a property there is a first one that has it not. -/
theorem exists_first_not {p : α → Prop} {as : List α} (h : ¬ ∀ a ∈ as, p a) :
    ∃ before a after, as = before ++ a :: after ∧ (∀ b ∈ before, p b) ∧ ¬ p a := by
  induction as with
  | nil => exact absurd nofun h
  | cons a as ih =>
    by_cases ha : p a
    · have hrest : ¬ ∀ b ∈ as, p b := fun hall ↦ h (List.forall_mem_cons.2 ⟨ha, hall⟩)
      obtain ⟨before, b, after, rfl, hbefore, hb⟩ := ih hrest
      exact ⟨a :: before, b, after, rfl, List.forall_mem_cons.2 ⟨ha, hbefore⟩, hb⟩
    · exact ⟨[], a, as, rfl, nofun, ha⟩

theorem exists_last_not {p : α → Prop} {as : List α} (h : ¬ ∀ a ∈ as, p a) :
    ∃ before a after, as = before ++ a :: after ∧ (∀ b ∈ after, p b) ∧ ¬ p a := by
  have hreverse : ¬ ∀ a ∈ as.reverse, p a := by simpa using h
  obtain ⟨before, a, after, heq, hbefore, ha⟩ := exists_first_not hreverse
  refine ⟨after.reverse, a, before.reverse, ?_, by simpa using hbefore, ha⟩
  rw [← List.reverse_reverse as, heq]
  simp

/-- Results along a list are there if each of them is. -/
theorem Except.exists_mapM_eq_ok {f : α → Except Error β} {as : List α}
    (h : ∀ a ∈ as, ∃ b, f a = .ok b) : ∃ bs, as.mapM f = .ok bs := by
  induction as with
  | nil => exact ⟨[], rfl⟩
  | cons a as ih =>
    obtain ⟨⟨b, hb⟩, has⟩ := List.forall_mem_cons.1 h
    obtain ⟨bs, hbs⟩ := ih has
    exact ⟨b :: bs, Except.mapM_cons_eq_ok_iff.2 ⟨b, bs, hb, hbs, rfl⟩⟩

theorem Except.mapM_append_cons_of_error {f : α → Except Error β} {before : List α}
    (hbefore : ∀ b ∈ before, ∃ v, f b = .ok v) {a : α} {e : Error} (ha : f a = .error e)
    (after : List α) : (before ++ a :: after).mapM f = .error e := by
  obtain ⟨bs, hbs⟩ := Except.exists_mapM_eq_ok hbefore
  rw [List.mapM_append, hbs, List.mapM_cons, ha]
  rfl

/-- An action repeated along a list fails where it has got to the first element that it fails at. -/
theorem forM_append_cons_of_error {σ : Type} {f : α → EStateM Error σ Unit} {before : List α}
    {s s₁ s' : σ} (hbefore : before.forM f s = .ok () s₁) {a : α} {e : Error}
    (ha : f a s₁ = .error e s') (after : List α) :
    (before ++ a :: after).forM f s = .error e s' := by
  rw [List.forM_eq_forM, List.forM_append]
  exact (bind_of_ok hbefore _).trans (bind_of_error ha _)

end

/-! ## Tokens and models -/

/-- The model of a cluster codes a symbol: it gives it slots or a codeword, or it is degenerate and
stands for this symbol. -/
def ModelTable.Codes (table : ModelTable) (cluster symbol : Nat) : Prop :=
  match table with
  | .ans tables => ∃ t, tables[cluster]? = some t ∧ t.freq symbol ≠ 0
  | .prefixCodes codes =>
    ∃ c, codes[cluster]? = some c ∧ (0 < c.depth symbol ∨ c.single? = some symbol)

section

variable (models : SegmentModels) (map : ContextMap)

/-- The context of a token is in the map, and its cluster has a model. -/
def HasModel (token : Token) : Prop :=
  ∃ cluster, map.cluster token.context = .ok cluster ∧ cluster < models.table.size

/-- The model of a token codes its value. -/
def Codable (token : Token) : Prop :=
  ∃ cluster, map.cluster token.context = .ok cluster ∧
    models.table.Codes cluster (models.split.split token.value).token

/-- Why a token has no model. -/
inductive LacksModel (token : Token) : Error → Prop
  /-- Its context is not in the map. -/
  | context (h : map.contexts ≤ token.context) :
      LacksModel token (.contextOutOfRange token.context map.contexts)
  /-- Its cluster has no model. -/
  | cluster {cluster : Nat} (h : map.cluster token.context = .ok cluster)
      (hsize : models.table.size ≤ cluster) :
      LacksModel token (.contextOutOfRange cluster models.table.size)

/-- The error with which tokens are refused, and the writer that is left. -/
inductive Refused (w : BitWriter) : List Token → Error → BitWriter → Prop
  /-- The first token without a model is refused, and nothing is written. -/
  | noModel {before after : List Token} {token : Token} {e : Error}
      (hbefore : ∀ t ∈ before, HasModel models map t) (htoken : LacksModel models map token e) :
      Refused w (before ++ token :: after) e w
  /-- With range coding the last token that is not coded is refused, and nothing is written. -/
  | ans {tables : Array AnsTable} {before after : List Token} {token : Token}
      (htable : models.table = .ans tables)
      (hmodels : ∀ t ∈ before ++ token :: after, HasModel models map t)
      (htoken : ¬ Codable models map token) (hafter : ∀ t ∈ after, Codable models map t) :
      Refused w (before ++ token :: after)
        (.zeroFrequency (models.split.split token.value).token) w
  /-- With prefix codes the first token that is not coded is refused, and the tokens before it are
  written. -/
  | prefixCodes {codes : Array PrefixCode} {before after : List Token} {token : Token}
      {w' : BitWriter} (htable : models.table = .prefixCodes codes)
      (hmodels : ∀ t ∈ before ++ token :: after, HasModel models map t)
      (hbefore : ∀ t ∈ before, Codable models map t) (htoken : ¬ Codable models map token)
      (hwritten : writeTokens models map before w = .ok () w') :
      Refused w (before ++ token :: after)
        (.zeroFrequency (models.split.split token.value).token) w'

end

/-! ## Looking up models -/

section

variable {models : SegmentModels} {map : ContextMap} {token : Token} {tokens : List Token}

/-- A token that is coded has a model. -/
theorem Codable.hasModel (h : Codable models map token) : HasModel models map token := by
  obtain ⟨cluster, hcluster, hcodes⟩ := h
  obtain ⟨precision, split, table⟩ := models
  refine ⟨cluster, hcluster, ?_⟩
  cases table with
  | ans tables =>
    obtain ⟨t, hget, -⟩ := hcodes
    exact (Array.getElem?_eq_some_iff.1 hget).1
  | prefixCodes codes =>
    obtain ⟨c, hget, -⟩ := hcodes
    exact (Array.getElem?_eq_some_iff.1 hget).1

/-- A token has a model, or there is a reason why not. -/
theorem exists_lacksModel (h : ¬ HasModel models map token) : ∃ e, LacksModel models map token e := by
  cases hget : map.entries[token.context]? with
  | none =>
    exact ⟨_, .context (Array.getElem?_eq_none_iff.1 hget)⟩
  | some entry =>
    have hcluster : map.cluster token.context = .ok entry.toNat := by rw [ContextMap.cluster, hget]
    refine ⟨_, .cluster hcluster (Nat.not_lt.1 fun hlt ↦ h ⟨_, hcluster, hlt⟩)⟩

variable {α : Type} {ms : Array α}

/-- The model of a context in the map is that of its cluster, if this has one. -/
theorem modelOf_of_cluster {context cluster : Nat} (h : map.cluster context = .ok cluster) :
    modelOf ms map context =
      ms[cluster]?.elim (.error (.contextOutOfRange cluster ms.size)) .ok := by
  cases hget : ms[cluster]? with
  | none => simp only [modelOf, h, hget, bind, Except.bind, Option.elim]
  | some m => simp only [modelOf, h, hget, bind, Except.bind, Option.elim]

variable (hsize : ms.size = models.table.size)
include hsize

theorem HasModel.exists_modelOf (h : HasModel models map token) :
    ∃ m, modelOf ms map token.context = .ok m := by
  obtain ⟨cluster, hcluster, hlt⟩ := h
  exact ⟨_, modelOf_eq_ok_iff.2 ⟨cluster, hcluster, Array.getElem?_eq_getElem (hsize ▸ hlt)⟩⟩

/-- The reason why a token has no model is reported. -/
theorem LacksModel.modelOf_eq {e : Error} (h : LacksModel models map token e) :
    modelOf ms map token.context = .error e := by
  cases h with
  | context h =>
    have hget : map.entries[token.context]? = none := Array.getElem?_eq_none h
    rw [modelOf, ContextMap.cluster, hget]
    rfl
  | @cluster cluster h hle =>
    have hget : ms[cluster]? = none := Array.getElem?_eq_none (hsize ▸ hle)
    rw [modelOf_of_cluster h, hget, hsize]
    rfl

theorem exists_resolve (h : ∀ t ∈ tokens, HasModel models map t) (split : TokenSplit) :
    ∃ values, resolve ms map split tokens = .ok values := by
  refine Except.exists_mapM_eq_ok fun t ht ↦ ?_
  obtain ⟨m, hm⟩ := (h t ht).exists_modelOf hsize
  exact ⟨_, Except.map_eq_ok_iff.2 ⟨m, hm, rfl⟩⟩

/-- The first token that has none is reported. -/
theorem resolve_of_lacksModel {before after : List Token} {e : Error}
    (hbefore : ∀ t ∈ before, HasModel models map t) (htoken : LacksModel models map token e)
    (split : TokenSplit) : resolve ms map split (before ++ token :: after) = .error e := by
  refine Except.mapM_append_cons_of_error (fun t ht ↦ ?_) ?_ after
  · obtain ⟨m, hm⟩ := (hbefore t ht).exists_modelOf hsize
    exact ⟨_, Except.map_eq_ok_iff.2 ⟨m, hm, rfl⟩⟩
  · rw [htoken.modelOf_eq hsize]
    rfl

end

section

variable {α : Type} {ms : Array α} {map : ContextMap} {split : TokenSplit}

/-- What holds of the models and the values of all tokens holds of what they are resolved to. -/
theorem forall_of_resolve {Q : α → SplitValue → Prop} {tokens : List Token}
    (h : ∀ t ∈ tokens, ∀ cluster m, map.cluster t.context = .ok cluster → ms[cluster]? = some m →
      Q m (split.split t.value))
    {values : List (α × SplitValue)} (hresolve : resolve ms map split tokens = .ok values) :
    ∀ v ∈ values, Q v.1 v.2 := by
  induction tokens generalizing values with
  | nil =>
    cases hresolve
    exact nofun
  | cons token tokens ih =>
    obtain ⟨htoken, htokens⟩ := List.forall_mem_cons.1 h
    obtain ⟨cluster, m, rest, hcluster, hget, hrest, rfl⟩ := resolve_cons_eq_ok_iff.1 hresolve
    exact List.forall_mem_cons.2 ⟨htoken cluster m hcluster hget, ih htokens hrest⟩

/-- The tokens before one, the token and those behind it are resolved one after another. -/
theorem exists_of_resolve_append_cons {before after : List Token} {token : Token}
    {values : List (α × SplitValue)}
    (h : resolve ms map split (before ++ token :: after) = .ok values) :
    ∃ first cluster m rest, resolve ms map split before = .ok first ∧
      map.cluster token.context = .ok cluster ∧ ms[cluster]? = some m ∧
      resolve ms map split after = .ok rest ∧
      values = first ++ (m, split.split token.value) :: rest := by
  rw [resolve, List.mapM_append] at h
  obtain ⟨first, hfirst, h⟩ := Except.bind_eq_ok_iff.1 h
  obtain ⟨others, hothers, h⟩ := Except.bind_eq_ok_iff.1 h
  obtain ⟨cluster, m, rest, hcluster, hget, hrest, rfl⟩ := resolve_cons_eq_ok_iff.1 hothers
  cases h
  exact ⟨first, cluster, m, rest, hfirst, hcluster, hget, hrest, rfl⟩

end

/-- The model of a token has a property if the one that is found has it. -/
theorem exists_model_iff {α : Type} {ms : Array α} {Q : α → Prop} {map : ContextMap}
    {context cluster : Nat} {m : α} (hcluster : map.cluster context = .ok cluster)
    (hget : ms[cluster]? = some m) :
    (∃ cluster, map.cluster context = .ok cluster ∧ ∃ m, ms[cluster]? = some m ∧ Q m) ↔ Q m := by
  constructor
  · rintro ⟨cluster', hcluster', m', hget', hm⟩
    rw [hcluster] at hcluster'
    cases hcluster'
    rw [hget] at hget'
    cases hget'
    exact hm
  · exact fun hm ↦ ⟨cluster, hcluster, m, hget, hm⟩

/-! ## Range coding -/

/-- Symbols that have slots can be pushed. -/
theorem exists_pushAll {symbols : List (AnsTable × Nat)} (h : ∀ p ∈ symbols, p.1.freq p.2 ≠ 0) :
    ∃ chunks state, pushAll symbols = .ok (chunks, state) := by
  induction symbols with
  | nil => exact ⟨[], initialState, rfl⟩
  | cons p symbols ih =>
    obtain ⟨t, symbol⟩ := p
    obtain ⟨hfreq, hrest⟩ := List.forall_mem_cons.1 h
    obtain ⟨chunks, state, hpush⟩ := ih hrest
    exact ⟨_, _, pushAll_cons_eq_ok_iff.2 ⟨_, chunks, state, hpush, if_neg hfreq, rfl⟩⟩

/-- The last symbol without slots is refused. -/
theorem pushAll_of_freq_eq_zero {before after : List (AnsTable × Nat)} {t : AnsTable} {symbol : Nat}
    (hfreq : t.freq symbol = 0) (hafter : ∀ p ∈ after, p.1.freq p.2 ≠ 0) :
    pushAll (before ++ (t, symbol) :: after) = .error (.zeroFrequency symbol) := by
  induction before with
  | nil =>
    obtain ⟨chunks, state, hpush⟩ := exists_pushAll hafter
    rw [List.nil_append, pushAll_cons, hpush]
    show (t.push symbol state >>= _) = _
    rw [AnsTable.push, if_pos hfreq]
    rfl
  | cons p before ih =>
    rw [List.cons_append, pushAll_cons, ih]
    rfl

section

variable {precision : Nat} {split : TokenSplit} {tables : Array AnsTable} {map : ContextMap}
  {token : Token}

/-- A token is coded if its symbol has slots. -/
theorem codable_ans_iff {cluster : Nat} {t : AnsTable}
    (hcluster : map.cluster token.context = .ok cluster) (hget : tables[cluster]? = some t) :
    Codable ⟨precision, split, .ans tables⟩ map token ↔
      t.freq (split.split token.value).token ≠ 0 :=
  exists_model_iff hcluster hget

/-- The symbols of tokens that are coded have slots. -/
theorem freq_ne_zero_of_codable {tokens : List Token}
    (h : ∀ t ∈ tokens, Codable ⟨precision, split, .ans tables⟩ map t)
    {values : List (AnsTable × SplitValue)}
    (hresolve : resolve tables map split tokens = .ok values) :
    ∀ p ∈ values.map fun (table, value) ↦ (table, value.token), p.1.freq p.2 ≠ 0 := by
  have hvalues := forall_of_resolve (Q := fun t v ↦ t.freq v.token ≠ 0)
    (fun t ht cluster m hcluster hget ↦ (codable_ans_iff hcluster hget).1 (h t ht)) hresolve
  intro p hp
  obtain ⟨v, hv, rfl⟩ := List.mem_map.1 hp
  exact hvalues v hv

/-- If all tokens have models, the last one that is not coded is refused. -/
theorem ansFields_of_not_codable {before after : List Token}
    (htoken : ¬ Codable ⟨precision, split, .ans tables⟩ map token)
    (hafter : ∀ t ∈ after, Codable ⟨precision, split, .ans tables⟩ map t)
    {values : List (AnsTable × SplitValue)}
    (hresolve : resolve tables map split (before ++ token :: after) = .ok values) :
    ansFields values = .error (.zeroFrequency (split.split token.value).token) := by
  obtain ⟨first, cluster, t, rest, -, hcluster, hget, hrest, rfl⟩ :=
    exists_of_resolve_append_cons hresolve
  rw [codable_ans_iff hcluster hget, Decidable.not_not] at htoken
  rw [ansFields, List.map_append, List.map_cons,
    pushAll_of_freq_eq_zero htoken (freq_ne_zero_of_codable hafter hrest)]
  rfl

end

/-! ## Prefix codes -/

section

variable {precision : Nat} {split : TokenSplit} {codes : Array PrefixCode} {map : ContextMap}
  {token : Token}

/-- A code either has a codeword for a symbol or refuses it. -/
theorem PrefixCode.codeword_cases (c : PrefixCode) (symbol : Nat) :
    (0 < c.depth symbol ∨ c.single? = some symbol) ∧ (∃ f, c.codeword symbol = .ok f) ∨
      ¬ (0 < c.depth symbol ∨ c.single? = some symbol) ∧
        c.codeword symbol = .error (.zeroFrequency symbol) := by
  rw [codeword]
  by_cases hdepth : 0 < c.depth symbol
  · rw [if_pos hdepth]
    exact .inl ⟨.inl hdepth, _, rfl⟩
  · rw [if_neg hdepth]
    by_cases hsingle : c.single? = some symbol
    · rw [if_pos hsingle]
      exact .inl ⟨.inr hsingle, _, rfl⟩
    · rw [if_neg hsingle]
      exact .inr ⟨not_or.2 ⟨hdepth, hsingle⟩, rfl⟩

/-- A token is coded if its symbol has a codeword. -/
theorem codable_prefixCodes_iff {cluster : Nat} {c : PrefixCode}
    (hcluster : map.cluster token.context = .ok cluster) (hget : codes[cluster]? = some c) :
    Codable ⟨precision, split, .prefixCodes codes⟩ map token ↔
      0 < c.depth (split.split token.value).token ∨
        c.single? = some (split.split token.value).token :=
  exists_model_iff hcluster hget

/-- Values whose tokens have codewords can be written. -/
theorem exists_forM_writeCoded {values : List (PrefixCode × SplitValue)}
    (h : ∀ v ∈ values, ∃ f, v.1.codeword v.2.token = .ok f) (w : BitWriter) :
    ∃ w', values.forM writeCoded w = .ok () w' := by
  induction values generalizing w with
  | nil => exact ⟨w, rfl⟩
  | cons v values ih =>
    obtain ⟨⟨f, hf⟩, hrest⟩ := List.forall_mem_cons.1 h
    have hone : writeCoded v w = .ok () (w.writeFields [f, v.2.extra]) := by
      rw [writeCoded, hf]
      rfl
    obtain ⟨w', hwrite⟩ := ih hrest (w.writeFields [f, v.2.extra])
    exact ⟨w', forM_cons_eq_ok_iff.2 ⟨_, hone, hwrite⟩⟩

/-- The tokens that are coded have codewords. -/
theorem exists_codeword_of_codable {tokens : List Token}
    (h : ∀ t ∈ tokens, Codable ⟨precision, split, .prefixCodes codes⟩ map t)
    {values : List (PrefixCode × SplitValue)}
    (hresolve : resolve codes map split tokens = .ok values) :
    ∀ v ∈ values, ∃ f, v.1.codeword v.2.token = .ok f := by
  refine forall_of_resolve (Q := fun c v ↦ ∃ f, c.codeword v.token = .ok f) ?_ hresolve
  intro t ht cluster c hcluster hget
  have hcoded := (codable_prefixCodes_iff hcluster hget).1 (h t ht)
  rcases c.codeword_cases (split.split t.value).token with ⟨-, hword⟩ | ⟨hnot, -⟩
  · exact hword
  · exact absurd hcoded hnot

/-- The first token that is not coded is refused when those before it have been written. -/
theorem forM_writeCoded_of_not_codable {before after : List Token}
    (htoken : ¬ Codable ⟨precision, split, .prefixCodes codes⟩ map token)
    {values : List (PrefixCode × SplitValue)}
    (hresolve : resolve codes map split (before ++ token :: after) = .ok values)
    {w w' : BitWriter}
    (hwritten : writeTokens ⟨precision, split, .prefixCodes codes⟩ map before w = .ok () w') :
    values.forM writeCoded w = .error (.zeroFrequency (split.split token.value).token) w' := by
  obtain ⟨first, cluster, c, rest, hfirst, hcluster, hget, -, rfl⟩ :=
    exists_of_resolve_append_cons hresolve
  obtain ⟨values, w₁, htake, hwrite⟩ := bind_eq_ok_iff.1 hwritten
  obtain ⟨hvalues, rfl⟩ := ofExcept_eq_ok_iff.1 htake
  cases hfirst.symm.trans hvalues
  rw [codable_prefixCodes_iff hcluster hget] at htoken
  have hword : c.codeword (split.split token.value).token =
      .error (.zeroFrequency (split.split token.value).token) := by
    rcases c.codeword_cases (split.split token.value).token with ⟨hcoded, -⟩ | ⟨-, hword⟩
    · exact absurd hcoded htoken
    · exact hword
  have hone : writeCoded (c, split.split token.value) w' =
      .error (.zeroFrequency (split.split token.value).token) w' := by
    rw [writeCoded, hword]
    rfl
  exact forM_append_cons_of_error hwrite hone rest

end

/-! ## What is refused, and when -/

section

variable {models : SegmentModels} {map : ContextMap} {tokens : List Token}

/-- Tokens that are coded can be written. -/
theorem exists_writeTokens_of_codable (h : ∀ t ∈ tokens, Codable models map t) (w : BitWriter) :
    ∃ w', writeTokens models map tokens w = .ok () w' := by
  have hmodels : ∀ t ∈ tokens, HasModel models map t := fun t ht ↦ (h t ht).hasModel
  obtain ⟨precision, split, table⟩ := models
  cases table with
  | ans tables =>
    obtain ⟨values, hvalues⟩ := exists_resolve rfl hmodels split
    obtain ⟨chunks, state, hpush⟩ := exists_pushAll (freq_ne_zero_of_codable h hvalues)
    obtain ⟨fields, hfields⟩ : ∃ fields, ansFields values = .ok fields :=
      ⟨_, Except.bind_eq_ok_iff.2 ⟨_, hpush, rfl⟩⟩
    refine ⟨w.writeFields fields, bind_eq_ok_iff.2 ⟨values, w, ofExcept_eq_ok_iff.2 ⟨hvalues, rfl⟩, ?_⟩⟩
    exact bind_eq_ok_iff.2 ⟨fields, w, ofExcept_eq_ok_iff.2 ⟨hfields, rfl⟩, rfl⟩
  | prefixCodes codes =>
    obtain ⟨values, hvalues⟩ := exists_resolve rfl hmodels split
    obtain ⟨w', hwrite⟩ := exists_forM_writeCoded (exists_codeword_of_codable h hvalues) w
    exact ⟨w', bind_eq_ok_iff.2 ⟨values, w, ofExcept_eq_ok_iff.2 ⟨hvalues, rfl⟩, hwrite⟩⟩

/-- Tokens that are refused are not written, for the reason given. -/
theorem Refused.writeTokens_eq {w w' : BitWriter} {e : Error}
    (h : Refused models map w tokens e w') : writeTokens models map tokens w = .error e w' := by
  obtain ⟨precision, split, table⟩ := models
  cases h with
  | noModel hbefore htoken =>
    cases table <;> exact bind_of_error (ofExcept_eq_error_iff.2
      ⟨resolve_of_lacksModel rfl hbefore htoken split, rfl⟩) _
  | ans htable hmodels htoken hafter =>
    cases htable
    obtain ⟨values, hvalues⟩ := exists_resolve rfl hmodels split
    refine bind_eq_error_iff.2 (.inr ⟨values, w, ofExcept_eq_ok_iff.2 ⟨hvalues, rfl⟩, ?_⟩)
    exact bind_of_error
      (ofExcept_eq_error_iff.2 ⟨ansFields_of_not_codable htoken hafter hvalues, rfl⟩) _
  | prefixCodes htable hmodels hbefore htoken hwritten =>
    cases htable
    obtain ⟨values, hvalues⟩ := exists_resolve rfl hmodels split
    refine bind_eq_error_iff.2 (.inr ⟨values, w, ofExcept_eq_ok_iff.2 ⟨hvalues, rfl⟩, ?_⟩)
    exact forM_writeCoded_of_not_codable htoken hvalues hwritten

/-- Tokens that are not all coded are refused. -/
theorem exists_refused (h : ¬ ∀ t ∈ tokens, Codable models map t) (w : BitWriter) :
    ∃ e w', Refused models map w tokens e w' := by
  by_cases hmodels : ∀ t ∈ tokens, HasModel models map t
  · cases htable : models.table with
    | ans tables =>
      obtain ⟨before, token, after, rfl, hafter, htoken⟩ := exists_last_not h
      exact ⟨_, _, .ans htable hmodels htoken hafter⟩
    | prefixCodes codes =>
      obtain ⟨before, token, after, rfl, hbefore, htoken⟩ := exists_first_not h
      obtain ⟨w', hwritten⟩ := exists_writeTokens_of_codable hbefore w
      exact ⟨_, _, .prefixCodes htable hmodels hbefore htoken hwritten⟩
  · obtain ⟨before, token, after, rfl, hbefore, htoken⟩ := exists_first_not hmodels
    obtain ⟨e, he⟩ := exists_lacksModel htoken
    exact ⟨e, w, .noModel hbefore he⟩

/-- Tokens are written exactly if all of them are coded. -/
theorem exists_writeTokens_iff {w : BitWriter} :
    (∃ w', writeTokens models map tokens w = .ok () w') ↔ ∀ t ∈ tokens, Codable models map t := by
  constructor
  · rintro ⟨w', hok⟩
    by_cases hall : ∀ t ∈ tokens, Codable models map t
    · exact hall
    · obtain ⟨e, w'', hrefused⟩ := exists_refused hall w
      rw [hrefused.writeTokens_eq] at hok
      cases hok
  · exact fun h ↦ exists_writeTokens_of_codable h w

/-- There is an error exactly if tokens are refused for it, and the writer is left as is said then. -/
theorem writeTokens_eq_error_iff {w w' : BitWriter} {e : Error} :
    writeTokens models map tokens w = .error e w' ↔ Refused models map w tokens e w' := by
  constructor
  · intro herror
    by_cases hall : ∀ t ∈ tokens, Codable models map t
    · obtain ⟨w'', hok⟩ := exists_writeTokens_of_codable hall w
      rw [hok] at herror
      cases herror
    · obtain ⟨e', w'', hrefused⟩ := exists_refused hall w
      rw [hrefused.writeTokens_eq] at herror
      cases herror
      exact hrefused
  · exact Refused.writeTokens_eq

end

end EntropyCoding
