import EntropyCoding.Proofs.Ans.Inverse
import EntropyCoding.Proofs.Checked.Models
import EntropyCoding.Proofs.Checked.Split
import EntropyCoding.Proofs.Prefix.Extension
import EntropyCoding.Proofs.Segment.Models
import EntropyCoding.Proofs.Segment.Refusal
import Mathlib.Data.Fin.Tuple.Basic
import Mathlib.Data.List.Permutation

/-!
# Checked payloads

A payload is written with models that are kept with their families, one for each token, so that at each
token there could be a model of the wrong family.  Values are split and symbols pushed with 32 bits, the
stored codeword of a symbol is looked up by an index of its own, and no field may be wider than what a
writer takes at once.  With models that have been written or read none of this goes wrong,
`Checked.agrees_writeTokens`; so what there is to say about the errors of `EntropyCoding.writeTokens` is
all there is, `Checked.writeTokens_exact`.
-/

namespace EntropyCoding

namespace Checked

/-! ## Writing -/

/-- Writes a field, which may not be wider than a writer takes at once. -/
def put (f : Field) : Checked BitWriter Unit :=
  if f.width ≤ maxFieldWidth then modify (·.write f.value f.width) else fault .overflow

def putAll (fields : List Field) : Checked BitWriter Unit :=
  fields.forM put

def Models.model (models : Models) (cluster : Nat) : Except Stop Model :=
  match models.models[cluster]? with
  | some model => .ok model
  | none => .error (.error (.contextOutOfRange cluster models.models.size))

/-- Finds the model of a token and splits its value. -/
def resolveOne (models : Models) (map : ContextMap) (token : Token) :
    Except Stop (Model × SplitValue) := do
  let cluster ← embedExcept (map.cluster token.context)
  let model ← models.model cluster
  .ok (model, ← split models.split token.value)

def resolve (models : Models) (map : ContextMap) (tokens : List Token) :
    Except Stop (List (Model × SplitValue)) :=
  tokens.mapM (resolveOne models map)

def codeword (c : PrefixCode) (symbol : Nat) : Except Stop Field :=
  if 0 < c.depth symbol then do .ok ⟨← item c.codes symbol, c.depth symbol⟩
  else if c.single? = some symbol then .ok ⟨0, 0⟩
  else .error (.error (.zeroFrequency symbol))

def writeCoded : Model × SplitValue → Checked BitWriter Unit
  | (.ans _, _) => fault .familyMismatch
  | (.prefixCode c, value) => do putAll [← codeword c value.token, value.extra]

/-- Pushes the symbols of values from the last to the first; gives the chunk of each. -/
def pushValues : List (Model × SplitValue) → Checked Nat (List (Option Nat))
  | [] => pure []
  | (model, value) :: values => do
    let chunks ← pushValues values
    match model with
    | .ans t => return (← push t value.token) :: chunks
    | .prefixCode _ => fault .familyMismatch

/-- The result of an action from a state, with the state that it leaves. -/
def outcome {σ α : Type} (action : Checked σ α) (s : σ) : Except Stop (α × σ) :=
  match action s with
  | .ok a s' => .ok (a, s')
  | .error stop _ => .error stop

def ansFields (values : List (Model × SplitValue)) : Except Stop (List Field) := do
  let (chunks, state) ← outcome (pushValues values) initialState
  return ⟨state, 32⟩ :: (chunks.zip values).flatMap fun (chunk, _, value) ↦
    chunk.toList.map (fun chunk ↦ ⟨chunk, 16⟩) ++ [value.extra]

def writeTokens (models : Models) (map : ContextMap) (tokens : List Token) :
    Checked BitWriter Unit := do
  let values ← resolve models map tokens
  if models.usesPrefixCodes then values.forM writeCoded
  else putAll (← ansFields values)

/-- Fields that a writer takes are written. -/
theorem putAll_eq {fields : List Field} (h : Writable fields) (w : BitWriter) :
    putAll fields w = .ok () (w.writeFields fields) := by
  induction fields generalizing w with
  | nil => rfl
  | cons f fields ih =>
    obtain ⟨hf, hfields⟩ := writable_cons.1 h
    have hone : put f w = .ok () (w.write f.value f.width) := by
      rw [put, if_pos hf]
      rfl
    exact (bind_of_ok hone _).trans (ih hfields _)

theorem agrees_putAll {fields : List Field} (h : Writable fields) :
    Agrees (fun _ ↦ True) (putAll fields) (BitWrite.put fields) :=
  fun w _ ↦ agreesAt_of_ok (putAll_eq h w) rfl trivial

/-! ## Looking up models -/

/-- Results along a list, where each has another form. -/
theorem mapM_embedExcept {α β γ : Type} {f' : α → Except Stop γ} {f : α → Except Error β}
    {view : β → γ} {as : List α} (h : ∀ a ∈ as, f' a = embedExcept (view <$> f a)) :
    as.mapM f' = embedExcept (List.map view <$> as.mapM f) := by
  induction as with
  | nil => rfl
  | cons a as ih =>
    obtain ⟨ha, has⟩ := List.forall_mem_cons.1 h
    rw [List.mapM_cons, List.mapM_cons, ha, ih has]
    cases f a with
    | error e => rfl
    | ok b => cases as.mapM f <;> rfl

def withFamily {α : Type} (wrap : α → Model) (value : α × SplitValue) : Model × SplitValue :=
  (wrap value.1, value.2)

/-- The models of tokens are found as if there was only one family. -/
theorem resolve_eq {α : Type} {ms : Array α} {wrap : α → Model} {models : Models}
    (hmodels : models.models = ms.map wrap) (map : ContextMap) {tokens : List Token}
    (hvalues : ∀ t ∈ tokens, t.value < 2 ^ 32) :
    resolve models map tokens =
      embedExcept (List.map (withFamily wrap) <$>
        EntropyCoding.resolve ms map models.split tokens) := by
  refine mapM_embedExcept fun token htoken ↦ ?_
  cases hcluster : map.cluster token.context with
  | error e =>
    rw [resolveOne, modelOf, hcluster]
    rfl
  | ok cluster =>
    rw [resolveOne, modelOf_of_cluster hcluster, hcluster]
    show (models.model cluster >>= _) = _
    rw [Models.model, hmodels, Array.getElem?_map, Array.size_map, split_eq _ (hvalues token htoken)]
    cases ms[cluster]? <;> rfl

theorem map_ofExcept {σ α β : Type} (f : α → β) (x : Except Error α) :
    (f <$> ofExcept x : EStateM Error σ β) = ofExcept (f <$> x) := by
  cases x <;> rfl

theorem agrees_resolve {α : Type} {ms : Array α} {wrap : α → Model} {models : Models}
    (hmodels : models.models = ms.map wrap) (map : ContextMap) {tokens : List Token}
    (hvalues : ∀ t ∈ tokens, t.value < 2 ^ 32) {I : BitWriter → Prop} :
    Agrees I (liftM (resolve models map tokens))
      (List.map (withFamily wrap) <$>
        ofExcept (EntropyCoding.resolve ms map models.split tokens)) := by
  rw [map_ofExcept]
  exact agrees_liftM (resolve_eq hmodels map hvalues)

/-! ## Prefix codes -/

/-- There is a stored codeword for each symbol that has a depth. -/
theorem codeword_eq {c : PrefixCode} (hc : c.Shaped) (symbol : Nat) :
    codeword c symbol = embedExcept (c.codeword symbol) := by
  rw [codeword, PrefixCode.codeword]
  by_cases hdepth : 0 < c.depth symbol
  · have hlt : symbol < c.codes.size := by
      rw [hc.size_codes]
      rw [← PrefixCode.getD_depths] at hdepth
      exact lt_length_of_pos hdepth
    rw [if_pos hdepth, if_pos hdepth, bind_of_eq_ok (item_eq_getD hlt)]
    rfl
  · rw [if_neg hdepth, if_neg hdepth]
    split <;> rfl

/-- Values are written with prefix codes. -/
theorem agrees_forM_writeCoded {values : List (PrefixCode × SplitValue)}
    (h : ∀ v ∈ values, v.1.Accepted ∧ v.2.extra.width ≤ maxFieldWidth) :
    Agrees (fun _ ↦ True) ((values.map (withFamily .prefixCode)).forM writeCoded)
      (values.forM EntropyCoding.writeCoded) := by
  induction values with
  | nil => exact agrees_pure ()
  | cons v values ih =>
    obtain ⟨⟨hc, hextra⟩, hrest⟩ := List.forall_mem_cons.1 h
    have hone : Agrees (fun _ ↦ True) (writeCoded (withFamily .prefixCode v))
        (EntropyCoding.writeCoded v) := by
      refine (agrees_liftM (codeword_eq hc.shaped v.2.token)).bind fun f s s₁ _ hf ↦ ?_
      have hwidth := hc.width_codeword_le (ofExcept_eq_ok_iff.1 hf).1
      exact agrees_putAll
        (writable_cons.2 ⟨Nat.le_trans hwidth (by decide), writable_cons.2 ⟨hextra, writable_nil⟩⟩)
    exact hone.bind fun _ _ _ _ _ ↦ ih hrest

/-! ## Range coding -/

theorem pushValues_eq (values : List (AnsTable × SplitValue)) :
    pushValues (values.map (withFamily .ans)) =
      pushAll (values.map fun (table, value) ↦ (table, value.token)) := by
  induction values with
  | nil => rfl
  | cons v values ih =>
    rw [List.map_cons, List.map_cons, pushValues, pushAll, ih]
    rfl

/-- The two coders get along with symbols that have slots. -/
theorem exists_exchanges {symbols : List (AnsTable × Nat)} (hvalid : ∀ p ∈ symbols, p.1.Valid)
    (hfreq : ∀ p ∈ symbols, p.1.freq p.2 ≠ 0) : ∃ chunks z, Exchanges symbols chunks z := by
  have hpos : ∀ p ∈ symbols, 0 < p.1.freq p.2 := fun p hp ↦ Nat.pos_of_ne_zero (hfreq p hp)
  obtain ⟨chunks, z, -, hexchanges, -⟩ := exchanges_nil.exists_append hvalid hpos
  rw [List.append_nil, List.append_nil] at hexchanges
  exact ⟨chunks, z, hexchanges⟩

/-- If the symbols after some cannot be pushed, these are not looked at. -/
theorem pushAll_append_of_error {after : List (AnsTable × Nat)} {stop : Stop} {z : Nat}
    (h : pushAll after initialState = .error stop z) (before : List (AnsTable × Nat)) :
    pushAll (before ++ after) initialState = .error stop z := by
  induction before with
  | nil => exact h
  | cons p before ih => exact bind_of_error ih _

/-- Pushes with 32 bits give the same chunks and leave the same state, or they fail at the same
symbol. -/
theorem outcome_pushAll {symbols : List (AnsTable × Nat)} (hvalid : ∀ p ∈ symbols, p.1.Valid) :
    outcome (pushAll symbols) initialState = embedExcept (EntropyCoding.pushAll symbols) := by
  by_cases hfreq : ∀ p ∈ symbols, p.1.freq p.2 ≠ 0
  · obtain ⟨chunks, z, hexchanges⟩ := exists_exchanges hvalid hfreq
    rw [outcome, hexchanges.checked_pushAll_eq, hexchanges.pushAll_eq]
    rfl
  · obtain ⟨before, ⟨t, symbol⟩, after, rfl, hafter, hzero⟩ := exists_last_not hfreq
    rw [Decidable.not_not] at hzero
    obtain ⟨-, hrest⟩ := List.forall_mem_append.1 hvalid
    obtain ⟨chunks, z, hexchanges⟩ := exists_exchanges (List.forall_mem_cons.1 hrest).2 hafter
    have hlast : pushAll ((t, symbol) :: after) initialState =
        .error (.error (.zeroFrequency symbol)) z := by
      rw [pushAll, bind_of_ok hexchanges.checked_pushAll_eq,
        bind_of_error (push_of_freq_eq_zero hzero z)]
    rw [outcome, pushAll_append_of_error hlast, pushAll_of_freq_eq_zero hzero hafter]
    rfl

/-- The fields are those of the library. -/
theorem ansFields_eq {values : List (AnsTable × SplitValue)} (hvalid : ∀ v ∈ values, v.1.Valid) :
    ansFields (values.map (withFamily .ans)) = embedExcept (EntropyCoding.ansFields values) := by
  have hsymbols : ∀ p ∈ values.map fun (table, value) ↦ (table, value.token), p.1.Valid := by
    intro p hp
    obtain ⟨v, hv, rfl⟩ := List.mem_map.1 hp
    exact hvalid v hv
  rw [ansFields, EntropyCoding.ansFields, pushValues_eq, outcome_pushAll hsymbols]
  cases EntropyCoding.pushAll (values.map fun (table, value) ↦ (table, value.token)) with
  | error e => rfl
  | ok result =>
    obtain ⟨chunks, state⟩ := result
    show Except.ok _ = Except.ok _
    rw [List.zip_map_right, List.flatMap_map]
    rfl

/-- A writer takes the fields. -/
theorem writable_of_ansFields {split : TokenSplit} {tables : Array AnsTable}
    {map : ContextMap} {tokens : List Token} (hvalid : ∀ t ∈ tables, t.Valid)
    (hvalues : ∀ t ∈ tokens, t.value < 2 ^ 32) {values : List (AnsTable × SplitValue)}
    (hresolve : EntropyCoding.resolve tables map split tokens = .ok values) {fields : List Field}
    (h : EntropyCoding.ansFields values = .ok fields) : Writable fields := by
  obtain ⟨⟨chunks, state⟩, hpush, hfields⟩ := Except.bind_eq_ok_iff.1 h
  cases hfields
  have hcodes : CodesTokens ⟨0, split, .ans tables⟩ map tokens state (pushedFields chunks values)
      initialState := codesTokens_of_pushAll hvalues hvalid hresolve hpush
  exact writable_cons.2 ⟨(by decide : 32 ≤ maxFieldWidth), hcodes.writable hvalid⟩

/-! ## Payloads -/

/-- Payloads are written, or refused, without a fault, whatever the tokens and the map are. -/
theorem agrees_writeTokens {models : SegmentModels} (hvalid : models.table.Valid) (map : ContextMap)
    {tokens : List Token} (hvalues : ∀ t ∈ tokens, t.value < 2 ^ 32) :
    Agrees (fun _ ↦ True) (writeTokens (.ofSegment models) map tokens)
      (EntropyCoding.writeTokens models map tokens) := by
  obtain ⟨precision, split, table⟩ := models
  cases table with
  | ans tables =>
    have hmodels : (Models.ofSegment ⟨precision, split, .ans tables⟩).models = tables.map .ans := rfl
    refine (agrees_resolve hmodels map hvalues).bind_map fun values _ _ _ htake ↦ ?_
    have hresolve := (ofExcept_eq_ok_iff.1 htake).1
    have htables : ∀ v ∈ values, v.1.Valid :=
      forall_of_resolve (Q := fun t _ ↦ t.Valid)
        (fun _ _ _ t _ hget ↦ hvalid t (Array.mem_of_getElem? hget)) hresolve
    refine (agrees_liftM (ansFields_eq htables)).bind fun fields _ _ _ htake ↦ ?_
    have hfields := (ofExcept_eq_ok_iff.1 htake).1
    exact agrees_putAll (writable_of_ansFields hvalid hvalues hresolve hfields)
  | prefixCodes codes =>
    have hmodels : (Models.ofSegment ⟨precision, split, .prefixCodes codes⟩).models =
        codes.map .prefixCode := rfl
    refine (agrees_resolve hmodels map hvalues).bind_map fun values _ _ _ htake ↦ ?_
    have hresolve := (ofExcept_eq_ok_iff.1 htake).1
    refine agrees_forM_writeCoded (forall_of_resolve (Q := fun c v ↦
      c.Accepted ∧ v.extra.width ≤ maxFieldWidth) ?_ hresolve)
    intro t ht cluster c _ hget
    have hwidth := split.width_extra_split_lt (hvalues t ht)
    exact ⟨(hvalid c (Array.mem_of_getElem? hget)).accepted,
      Nat.le_trans (Nat.le_of_lt hwidth) (by decide)⟩

/-- With models that have been written or read, tokens are written exactly if the context of each is in
the map, its cluster has a model, and the model codes its value.  There is an error exactly if tokens are
refused for it: the first token without a model, or otherwise the last one that is not coded with range
coding, the first one with prefix codes.  The writer is then left as it was, except that with prefix
codes the tokens before the one refused have been written.  Nothing else goes wrong. -/
theorem writeTokens_exact {models : SegmentModels} (hmodels : models.Obtainable) (map : ContextMap)
    {tokens : List Token} (hvalues : ∀ t ∈ tokens, t.value < 2 ^ 32) (w : BitWriter) :
    writeTokens (.ofSegment models) map tokens w =
        embed (EntropyCoding.writeTokens models map tokens) w ∧
      ((∃ w', EntropyCoding.writeTokens models map tokens w = .ok () w') ↔
        ∀ t ∈ tokens, Codable models map t) ∧
      ∀ e w', EntropyCoding.writeTokens models map tokens w = .error e w' ↔
        Refused models map w tokens e w' :=
  ⟨(agrees_writeTokens hmodels.valid map hvalues trivial).eq, exists_writeTokens_iff,
    fun _ _ ↦ writeTokens_eq_error_iff⟩

/-- Of two values that are not coded, range coding refuses the second one before anything is written,
a prefix code the first one when what stands before it has been written. -/
theorem writeTokens_exact_two : ∃ ranges codes w w₁ w₂,
    writeModels { precision := 5 } [.ofCounts [3, 0, 1]] .empty = .ok ranges w ∧
      writeTokens (.ofSegment ranges) ⟨#[0], 1⟩ [⟨0, 2⟩, ⟨0, 1⟩, ⟨0, 5⟩, ⟨0, 0⟩] w =
        .error (.error (.zeroFrequency 5)) w ∧
      writeModels { usesPrefixCodes := true } [.ofCounts [3, 0, 1]] .empty = .ok codes w₁ ∧
      Refused codes ⟨#[0], 1⟩ w₁ [⟨0, 2⟩, ⟨0, 1⟩, ⟨0, 5⟩, ⟨0, 0⟩] (.zeroFrequency 1) w₂ ∧
      EntropyCoding.writeTokens codes ⟨#[0], 1⟩ [⟨0, 2⟩] w₁ = .ok () w₂ := by
  obtain ⟨ranges, w, hranges, hrefused⟩ : ∃ ranges w,
      writeModels { precision := 5 } [.ofCounts [3, 0, 1]] .empty = .ok ranges w ∧
        EntropyCoding.writeTokens ranges ⟨#[0], 1⟩ [⟨0, 2⟩, ⟨0, 1⟩, ⟨0, 5⟩, ⟨0, 0⟩] w =
          .error (.zeroFrequency 5) w := ⟨_, _, rfl, rfl⟩
  have hcode : PrefixCode.ofHistogram (.ofCounts [3, 0, 1]) = .ok (.canonical [1, 0, 1]) := by cbv
  obtain ⟨codes, w₁, w₂, hcodes, hrefused', hwritten⟩ : ∃ codes w₁ w₂,
      writeModels { usesPrefixCodes := true } [.ofCounts [3, 0, 1]] .empty = .ok codes w₁ ∧
        EntropyCoding.writeTokens codes ⟨#[0], 1⟩ [⟨0, 2⟩, ⟨0, 1⟩, ⟨0, 5⟩, ⟨0, 0⟩] w₁ =
          .error (.zeroFrequency 1) w₂ ∧
        EntropyCoding.writeTokens codes ⟨#[0], 1⟩ [⟨0, 2⟩] w₁ = .ok () w₂ :=
    ⟨_, _, _, writeModels_eq_ok_iff.2 ⟨rfl, _, map_eq_ok_iff.2 ⟨_, mapM_cons_eq_ok_iff.2
      ⟨_, _, _, writePrefixCode_eq_ok_iff.2 ⟨by decide, hcode, rfl⟩, rfl, rfl⟩, rfl⟩, rfl⟩, rfl, rfl⟩
  have hvalues : ∀ t ∈ [Token.mk 0 2, ⟨0, 1⟩, ⟨0, 5⟩, ⟨0, 0⟩], t.value < 2 ^ 32 := by decide
  have hsame := (writeTokens_exact (.inl ⟨_, _, _, _, hranges⟩) ⟨#[0], 1⟩ hvalues w).1
  have hexact := writeTokens_exact (.inl ⟨_, _, _, _, hcodes⟩) ⟨#[0], 1⟩ hvalues w₁
  exact ⟨ranges, codes, w, w₁, w₂, hranges, hsame.trans (embed_of_error hrefused), hcodes,
    (hexact.2.2 _ _).1 hrefused', hwritten⟩

end Checked

end EntropyCoding
