import EntropyCoding.Proofs.Ans.Decode
import EntropyCoding.Proofs.Prefix.Decoder
import EntropyCoding.Proofs.Token.Split
import EntropyCoding.Segment.Decode
import EntropyCoding.Segment.Payload

/-!
# What a payload consists of

`Payload models map tokens fields` says, without mention of a writer or a reader, which fields code
a list of tokens: for each token the fields of its symbol and its extra bits, where the state of a
range coder goes from one token to the next and ends at the empty stack.

The writer writes exactly such fields, `writeTokens_eq_ok_iff`.  The reader takes them,
`Payload.takes_readPayload`, and whatever it reads to the end consists of them,
`exists_payload_of_readPayload`.  So each direction of the round trip goes through this relation.
-/

namespace EntropyCoding

/-- Every model is one that can be built. -/
def ModelTable.Valid : ModelTable → Prop
  | ans tables => ∀ t ∈ tables, t.Valid
  | prefixCodes codes => ∀ c ∈ codes, c.Valid

/-! ## Symbols -/

/-- The model of a cluster codes `symbol` as `fields`, and takes a range coder from state `s` to
state `s'`. -/
inductive CodesSymbol : ModelTable → Nat → Nat → Nat → List Field → Nat → Prop
  /-- A range coder takes one step. -/
  | ans {tables : Array AnsTable} {t : AnsTable} {cluster symbol y : Nat} {chunk : Option Nat}
      (get : tables[cluster]? = some t) (step : t.Step symbol y chunk) :
      CodesSymbol (.ans tables) cluster symbol (t.cover symbol y) (chunkFields chunk)
        (refilled y chunk)
  /-- A prefix code has a codeword. -/
  | prefixCode {codes : Array PrefixCode} {c : PrefixCode} {cluster symbol : Nat} (s : Nat)
      {f : Field} (get : codes[cluster]? = some c) (codeword : c.codeword symbol = .ok f) :
      CodesSymbol (.prefixCodes codes) cluster symbol s [f] s

namespace CodesSymbol

variable {table : ModelTable} {cluster symbol s s' : Nat} {fields : List Field}
  (h : CodesSymbol table cluster symbol s fields s') (hv : table.Valid)
include h hv

/-- A symbol leads from a state to a state. -/
theorem isState_iff : IsState s ↔ IsState s' := by
  cases h with
  | ans get step =>
    have ht := hv _ (Array.mem_of_getElem? get)
    exact ⟨fun _ ↦ step.isState_refilled ht, fun _ ↦ step.toFits.isState_cover ht⟩
  | prefixCode => exact Iff.rfl

/-- A writer takes the fields of a symbol. -/
theorem writable : Writable fields := by
  cases h with
  | @ans _ _ _ _ _ chunk =>
    cases chunk with
    | none => exact writable_nil
    | some c => exact writable_cons.2 ⟨(by decide : 16 ≤ maxFieldWidth), writable_nil⟩
  | prefixCode _ get codeword =>
    have hwidth := (hv _ (Array.mem_of_getElem? get)).accepted.width_codeword_le codeword
    exact writable_cons.2 ⟨Nat.le_trans hwidth (by decide), writable_nil⟩

end CodesSymbol

/-! ## Tokens -/

/-- From state `s` on `fields` code the tokens, and state `s'` is left. -/
inductive CodesTokens (models : SegmentModels) (map : ContextMap) :
    List Token → Nat → List Field → Nat → Prop
  /-- No tokens. -/
  | nil (s : Nat) : CodesTokens models map [] s [] s
  /-- The symbol of a token, its extra bits, and the tokens after it. -/
  | cons {token : Token} {tokens : List Token} {cluster s s₁ s' : Nat} {fields rest : List Field}
      (cluster_eq : map.cluster token.context = .ok cluster) (value_lt : token.value < 2 ^ 32)
      (codes : CodesSymbol models.table cluster (models.split.split token.value).token s fields s₁)
      (tail : CodesTokens models map tokens s₁ rest s') :
      CodesTokens models map (token :: tokens) s
        (fields ++ (models.split.split token.value).extra :: rest) s'

/-- The fields before the first token: a range coder starts with its state. -/
def startFields : ModelTable → Nat → List Field
  | .ans _, s => [⟨s, 32⟩]
  | .prefixCodes _, _ => []

/-- The fields of a payload. -/
def Payload (models : SegmentModels) (map : ContextMap) (tokens : List Token)
    (fields : List Field) : Prop :=
  ∃ s rest, CodesTokens models map tokens s rest initialState ∧
    fields = startFields models.table s ++ rest

section

variable {models : SegmentModels} {map : ContextMap} {tokens : List Token} {s s' : Nat}
  {fields : List Field}

theorem CodesTokens.isState (h : CodesTokens models map tokens s fields s')
    (hv : models.table.Valid) (hs : IsState s') : IsState s := by
  induction h with
  | nil => exact hs
  | cons _ _ codes _ ih => exact (codes.isState_iff hv).2 (ih hs)

/-- A prefix code does not use the state. -/
theorem CodesTokens.eq_of_prefixCodes (h : CodesTokens models map tokens s fields s')
    {codes : Array PrefixCode} (hp : models.table = .prefixCodes codes) : s = s' := by
  induction h with
  | nil => rfl
  | cons _ _ hcodes _ ih =>
    rw [hp] at hcodes
    cases hcodes
    exact ih

/-- A writer takes the fields of tokens. -/
theorem CodesTokens.writable (h : CodesTokens models map tokens s fields s')
    (hv : models.table.Valid) : Writable fields := by
  induction h with
  | nil => exact writable_nil
  | cons _ value_lt codes _ ih =>
    have hwidth := models.split.width_extra_split_lt value_lt
    refine writable_append.2 ⟨codes.writable hv, writable_cons.2 ⟨?_, ih⟩⟩
    exact Nat.le_trans (Nat.le_of_lt hwidth) (by decide)

/-- Only values of 32 bits are coded. -/
theorem CodesTokens.value_lt (h : CodesTokens models map tokens s fields s') :
    ∀ t ∈ tokens, t.value < 2 ^ 32 := by
  induction h with
  | nil => nofun
  | cons _ value_lt _ _ ih => exact List.forall_mem_cons.2 ⟨value_lt, ih⟩

/-- A writer takes the fields of a payload. -/
theorem Payload.writable (h : Payload models map tokens fields) (hv : models.table.Valid) :
    Writable fields := by
  obtain ⟨s, rest, h, rfl⟩ := h
  refine writable_append.2 ⟨?_, h.writable hv⟩
  cases models.table with
  | ans => exact writable_cons.2 ⟨(by decide : 32 ≤ maxFieldWidth), writable_nil⟩
  | prefixCodes => exact writable_nil

end

/-! ## Writing -/

/-- The model of a context is that of its cluster. -/
theorem modelOf_eq_ok_iff {α : Type} {ms : Array α} {map : ContextMap} {context : Nat} {m : α} :
    modelOf ms map context = .ok m ↔
      ∃ cluster, map.cluster context = .ok cluster ∧ ms[cluster]? = some m := by
  rw [modelOf, Except.bind_eq_ok_iff]
  refine exists_congr fun cluster ↦ and_congr_right' ?_
  cases ms[cluster]? with
  | none =>
    constructor
    · intro h
      cases h
    · intro h
      cases h
  | some m' => exact (Except.ok.injEq m' m ▸ Option.some.injEq m' m ▸ Iff.rfl)

/-- Resolving one token more. -/
theorem resolve_cons_eq_ok_iff {α : Type} {ms : Array α} {map : ContextMap} {split : TokenSplit}
    {token : Token} {tokens : List Token} {values : List (α × SplitValue)} :
    resolve ms map split (token :: tokens) = .ok values ↔
      ∃ cluster m rest, map.cluster token.context = .ok cluster ∧ ms[cluster]? = some m ∧
        resolve ms map split tokens = .ok rest ∧
        values = (m, split.split token.value) :: rest := by
  rw [resolve, Except.mapM_cons_eq_ok_iff]
  constructor
  · rintro ⟨_, rest, hv, hrest, rfl⟩
    obtain ⟨m, hm, rfl⟩ := Except.map_eq_ok_iff.1 hv
    obtain ⟨cluster, hcluster, hget⟩ := modelOf_eq_ok_iff.1 hm
    exact ⟨cluster, m, rest, hcluster, hget, hrest, rfl⟩
  · rintro ⟨cluster, m, rest, hcluster, hget, hrest, rfl⟩
    refine ⟨_, rest, ?_, hrest, rfl⟩
    exact Except.map_eq_ok_iff.2 ⟨m, modelOf_eq_ok_iff.2 ⟨cluster, hcluster, hget⟩, rfl⟩

def pushedFields (chunks : List (Option Nat)) (values : List (AnsTable × SplitValue)) :
    List Field :=
  (chunks.zip values).flatMap fun (chunk, _, value) ↦ chunkFields chunk ++ [value.extra]

section

variable {precision : Nat} {split : TokenSplit} {map : ContextMap} {tokens : List Token}
  (hvalues : ∀ t ∈ tokens, t.value < 2 ^ 32)
include hvalues

/-- Symbols of tokens that have been pushed code the tokens. -/
theorem codesTokens_of_pushAll {tables : Array AnsTable} (hv : ∀ t ∈ tables, t.Valid) {s : Nat}
    {values : List (AnsTable × SplitValue)} {chunks : List (Option Nat)}
    (hresolve : resolve tables map split tokens = .ok values)
    (hpush : pushAll (values.map fun (table, value) ↦ (table, value.token)) = .ok (chunks, s)) :
    CodesTokens ⟨precision, split, .ans tables⟩ map tokens s (pushedFields chunks values)
      initialState := by
  induction tokens generalizing values chunks s with
  | nil =>
    cases hresolve
    cases hpush
    exact .nil initialState
  | cons token tokens ih =>
    obtain ⟨hvalue, hvalues⟩ := List.forall_mem_cons.1 hvalues
    obtain ⟨cluster, t, rest, hcluster, hget, hrest, rfl⟩ := resolve_cons_eq_ok_iff.1 hresolve
    obtain ⟨chunk, chunks', x, hall, hone, rfl⟩ := pushAll_cons_eq_ok_iff.1 hpush
    have htail := ih hvalues hrest hall
    have hx : IsState x := htail.isState hv isState_initialState
    obtain ⟨y, hstep, rfl, rfl⟩ :=
      AnsTable.exists_step_of_push_eq_ok (hv t (Array.mem_of_getElem? hget)) hx hone
    have hcons := CodesTokens.cons hcluster hvalue (.ans hget hstep) htail
    rw [List.append_cons] at hcons
    exact hcons

/-- Tokens that are coded have symbols that can be pushed. -/
theorem exists_pushAll_of_codesTokens {tables : Array AnsTable} (hv : ∀ t ∈ tables, t.Valid)
    {s : Nat} {fields : List Field}
    (h : CodesTokens ⟨precision, split, .ans tables⟩ map tokens s fields initialState) :
    ∃ values chunks, resolve tables map split tokens = .ok values ∧
      pushAll (values.map fun (table, value) ↦ (table, value.token)) = .ok (chunks, s) ∧
      fields = pushedFields chunks values := by
  generalize hend : initialState = final at h
  induction h with
  | nil =>
    subst hend
    exact ⟨[], [], rfl, rfl, rfl⟩
  | cons hcluster hvalue codes _ ih =>
    obtain ⟨-, hvalues⟩ := List.forall_mem_cons.1 hvalues
    obtain ⟨values, chunks, hresolve, hall, rfl⟩ := ih hvalues hend
    cases codes with
    | @ans _ t _ _ _ chunk hget hstep =>
      refine ⟨_, chunk :: chunks, resolve_cons_eq_ok_iff.2 ⟨_, t, values, hcluster, hget,
        hresolve, rfl⟩, ?_, ?_⟩
      · have hpush := hstep.push_eq (hv t (Array.mem_of_getElem? hget))
        exact pushAll_cons_eq_ok_iff.2 ⟨chunk, chunks, _, hall, hpush, rfl⟩
      · exact List.append_cons _ _ _

/-- Writing the codewords of tokens codes them. -/
theorem exists_writeCoded_iff {codes : Array PrefixCode} {w w' : BitWriter} (s : Nat) :
    (∃ values, resolve codes map split tokens = .ok values ∧
        values.forM writeCoded w = .ok () w') ↔
      ∃ fields s', CodesTokens ⟨precision, split, .prefixCodes codes⟩ map tokens s fields s' ∧
        w' = w.writeFields fields := by
  constructor
  · rintro ⟨values, hresolve, hwrite⟩
    induction tokens generalizing values w with
    | nil =>
      cases hresolve
      cases hwrite
      exact ⟨[], s, .nil s, rfl⟩
    | cons token tokens ih =>
      obtain ⟨hvalue, hvalues⟩ := List.forall_mem_cons.1 hvalues
      obtain ⟨cluster, c, rest, hcluster, hget, hrest, rfl⟩ := resolve_cons_eq_ok_iff.1 hresolve
      obtain ⟨w₁, hone, hwrite⟩ := forM_cons_eq_ok_iff.1 hwrite
      obtain ⟨f, _, hf, hput⟩ := bind_eq_ok_iff.1 hone
      obtain ⟨hword, rfl⟩ := ofExcept_eq_ok_iff.1 hf
      obtain rfl := BitWrite.put_eq_ok_iff.1 hput
      obtain ⟨fields, s', htail, rfl⟩ := ih hvalues rest hrest hwrite
      exact ⟨_, s', .cons hcluster hvalue (.prefixCode s hget hword) htail, rfl⟩
  · rintro ⟨fields, s', h, rfl⟩
    induction h generalizing w with
    | nil => exact ⟨[], rfl, rfl⟩
    | cons hcluster hvalue codes _ ih =>
      obtain ⟨-, hvalues⟩ := List.forall_mem_cons.1 hvalues
      cases codes with
      | prefixCode _ hget hword =>
        obtain ⟨values, hresolve, hwrite⟩ := ih (w := w.writeFields [_, _]) hvalues
        refine ⟨_, resolve_cons_eq_ok_iff.2 ⟨_, _, values, hcluster, hget, hresolve, rfl⟩, ?_⟩
        refine forM_cons_eq_ok_iff.2 ⟨_, bind_eq_ok_iff.2 ⟨_, _, ofExcept_eq_ok_iff.2 ⟨hword, rfl⟩,
          BitWrite.put_eq_ok_iff.2 rfl⟩, hwrite⟩

end

/-- What the writer writes is the payload of the tokens. -/
theorem writeTokens_eq_ok_iff {models : SegmentModels} (hv : models.table.Valid)
    {map : ContextMap} {tokens : List Token} (hvalues : ∀ t ∈ tokens, t.value < 2 ^ 32)
    {w w' : BitWriter} :
    writeTokens models map tokens w = .ok () w' ↔
      ∃ fields, Payload models map tokens fields ∧ w' = w.writeFields fields := by
  obtain ⟨precision, split, table⟩ := models
  cases table with
  | ans tables =>
    constructor
    · intro h
      obtain ⟨values, _, hvs, h⟩ := bind_eq_ok_iff.1 h
      obtain ⟨hresolve, rfl⟩ := ofExcept_eq_ok_iff.1 hvs
      obtain ⟨fields, _, hfs, h⟩ := bind_eq_ok_iff.1 h
      obtain ⟨hfields, rfl⟩ := ofExcept_eq_ok_iff.1 hfs
      obtain rfl := BitWrite.put_eq_ok_iff.1 h
      obtain ⟨⟨chunks, s⟩, hpush, hfields⟩ := Except.bind_eq_ok_iff.1 hfields
      cases hfields
      exact ⟨_, ⟨s, _, codesTokens_of_pushAll hvalues hv hresolve hpush, rfl⟩, rfl⟩
    · rintro ⟨_, ⟨s, rest, h, rfl⟩, rfl⟩
      obtain ⟨values, chunks, hresolve, hpush, rfl⟩ := exists_pushAll_of_codesTokens hvalues hv h
      refine bind_eq_ok_iff.2 ⟨values, w, ofExcept_eq_ok_iff.2 ⟨hresolve, rfl⟩, ?_⟩
      refine bind_eq_ok_iff.2 ⟨_, w, ofExcept_eq_ok_iff.2 ⟨?_, rfl⟩, BitWrite.put_eq_ok_iff.2 rfl⟩
      exact Except.bind_eq_ok_iff.2 ⟨(chunks, s), hpush, rfl⟩
  | prefixCodes codes =>
    constructor
    · intro h
      obtain ⟨values, _, hvs, h⟩ := bind_eq_ok_iff.1 h
      obtain ⟨hresolve, rfl⟩ := ofExcept_eq_ok_iff.1 hvs
      obtain ⟨fields, s', hcodes, rfl⟩ := (exists_writeCoded_iff hvalues initialState).1
        ⟨values, hresolve, h⟩
      obtain rfl := hcodes.eq_of_prefixCodes rfl
      exact ⟨fields, ⟨_, fields, hcodes, rfl⟩, rfl⟩
    · rintro ⟨_, ⟨s, rest, h, rfl⟩, rfl⟩
      obtain ⟨values, hresolve, hwrite⟩ := (exists_writeCoded_iff hvalues s).2 ⟨_, _, h, rfl⟩
      exact bind_eq_ok_iff.2 ⟨values, w, ofExcept_eq_ok_iff.2 ⟨hresolve, rfl⟩, hwrite⟩

/-! ## Reading what is there -/

theorem finish_initialState (d : Decoder) : d.finish initialState = .ok () := by
  unfold Decoder.finish
  split
  · exact if_pos rfl
  · rfl

section

variable {models : SegmentModels} {map : ContextMap} (hv : models.table.Valid)
include hv

/-- The reader takes the fields of a symbol. -/
theorem CodesSymbol.takes_readCoded {cluster symbol s s' : Nat} {fields : List Field}
    (h : CodesSymbol models.table cluster symbol s fields s') :
    Decode.Takes ((Decoder.ofModels map models).readCoded cluster) s (fieldBits fields) symbol
      s' := by
  obtain ⟨precision, split, table⟩ := models
  cases h with
  | ans get step =>
    simp only [Decoder.readCoded, Decoder.ofModels, get]
    exact Decode.takes_popSymbol (hv _ (Array.mem_of_getElem? get)) step
  | prefixCode s get codeword =>
    simp only [Decoder.readCoded, Decoder.ofModels, Array.getElem?_map, get, Option.map_some]
    rw [fieldBits_cons, fieldBits_nil, List.append_nil]
    exact Decode.takes_lift
      ((hv _ (Array.mem_of_getElem? get)).takes_readSymbol codeword) s

/-- The reader takes the fields of a symbol and the extra bits, and gives the value. -/
theorem CodesSymbol.takes_readValue {context cluster value s s' : Nat} {fields : List Field}
    (hcluster : map.cluster context = .ok cluster) (hvalue : value < 2 ^ 32)
    (h : CodesSymbol models.table cluster (models.split.split value).token s fields s') :
    Decode.Takes ((Decoder.ofModels map models).readValue context) s
      (fieldBits fields ++ (models.split.split value).extra.bits) value s' := by
  obtain ⟨hwidth, hextra⟩ := models.split.extra_split value
  have hlt := models.split.width_extra_split_lt hvalue
  have hbits := BitRead.takes_read_field hextra
  rw [hwidth] at hlt hbits
  rw [Decoder.readValue]
  refine (Decode.takes_ofExcept hcluster s).bind_nil ((h.takes_readCoded hv).bind ?_)
  show Decode.Takes (if 32 < models.split.extraWidth _ then _ else _) _ _ _ _
  rw [if_neg (by omega)]
  have hjoin := Decode.takes_ofExcept (models.split.join_split hvalue) s'
  have := (Decode.takes_lift hbits s').bind (f := fun bits ↦ ofExcept (models.split.join _ bits))
    hjoin
  rwa [List.append_nil] at this

/-- The reader takes the fields of tokens and gives their values. -/
theorem CodesTokens.takes_readValue {tokens : List Token} {s s' : Nat} {fields : List Field}
    (h : CodesTokens models map tokens s fields s') :
    Decode.Takes ((tokens.map Token.context).mapM (Decoder.ofModels map models).readValue) s
      (fieldBits fields) (tokens.map Token.value) s' := by
  induction h with
  | nil s => exact Decode.takes_pure [] s
  | cons hcluster hvalue codes _ ih =>
    rw [fieldBits_append, fieldBits_cons, ← List.append_assoc]
    exact (codes.takes_readValue hv hcluster hvalue).mapM_cons ih

/-- The reader takes the fields of tokens that end at the empty stack, and accepts them. -/
theorem CodesTokens.takes_readValues {tokens : List Token} {s : Nat} {fields : List Field}
    (h : CodesTokens models map tokens s fields initialState) :
    BitRead.Takes ((Decoder.ofModels map models).readValues s (tokens.map Token.context))
      (fieldBits fields) (tokens.map Token.value) := by
  rw [← List.append_nil (fieldBits fields)]
  refine (h.takes_readValue hv).runFrom.bind ?_
  exact (BitRead.takes_ofExcept (finish_initialState _)).bind_nil (BitRead.takes_pure _)

omit hv in
/-- The reader takes the fields before the first token. -/
theorem takes_start {s : Nat} (hmap : map.clusters ≤ models.table.size) (hs : IsState s)
    (hp : ∀ codes, models.table = .prefixCodes codes → s = initialState) :
    BitRead.Takes (Decoder.start map models) (fieldBits (startFields models.table s))
      (.ofModels map models, s) := by
  obtain ⟨precision, split, table⟩ := models
  refine (BitRead.takes_require (decide_eq_true hmap) _).bind_nil ?_
  cases table with
  | ans tables =>
    have hread : BitRead.Takes readState (fieldBits [⟨s, 32⟩]) s :=
      fun _ _ h ↦ (readState_eq_ok_iff h.start_le).2 ⟨hs, h⟩
    rw [← List.append_nil (fieldBits _)]
    exact hread.bind (BitRead.takes_pure _)
  | prefixCodes codes =>
    obtain rfl := hp codes rfl
    exact BitRead.takes_pure _

/-- The reader takes a payload and gives the values of its tokens. -/
theorem Payload.takes_readPayload {tokens : List Token} {fields : List Field}
    (hmap : map.clusters ≤ models.table.size) (h : Payload models map tokens fields) :
    BitRead.Takes (readPayload map models (tokens.map Token.context)) (fieldBits fields)
      (tokens.map Token.value) := by
  obtain ⟨s, rest, h, rfl⟩ := h
  have hs := h.isState hv isState_initialState
  rw [fieldBits_append]
  exact (takes_start hmap hs fun _ ↦ h.eq_of_prefixCodes).bind (h.takes_readValues hv)

end

/-! ## Reading whatever is there -/

section

variable {models : SegmentModels} {map : ContextMap} (hv : models.table.Valid)
include hv

/-- What the reader reads for a symbol are its fields. -/
theorem exists_codesSymbol_of_readCoded {cluster symbol : Nat} {c c' : Cursor}
    (hs : IsState c.state) (hr : c.reader.pos ≤ c.reader.length)
    (h : (Decoder.ofModels map models).readCoded cluster c = .ok symbol c') :
    ∃ fields, CodesSymbol models.table cluster symbol c.state fields c'.state ∧
      c.reader.Passes (fieldBits fields) c'.reader := by
  obtain ⟨precision, split, table⟩ := models
  cases table with
  | ans tables =>
    simp only [Decoder.readCoded, Decoder.ofModels] at h
    cases hget : tables[cluster]? with
    | none =>
      rw [hget] at h
      cases h
    | some t =>
      rw [hget] at h
      obtain ⟨y, chunk, hstep, hz, hx, hpass⟩ :=
        Decode.exists_step_of_popSymbol (hv t (Array.mem_of_getElem? hget)) hs hr h
      rw [hz, hx]
      exact ⟨_, .ans hget hstep, hpass⟩
  | prefixCodes codes =>
    simp only [Decoder.readCoded, Decoder.ofModels, Array.getElem?_map] at h
    cases hget : codes[cluster]? with
    | none =>
      rw [hget] at h
      cases h
    | some code =>
      rw [hget] at h
      obtain ⟨hread, hstate⟩ := Decode.lift_eq_ok_iff.1 h
      obtain ⟨f, hword, hpass⟩ :=
        (hv code (Array.mem_of_getElem? hget)).exists_codeword_of_readSymbol hr hread
      rw [hstate]
      refine ⟨[f], .prefixCode _ hget hword, ?_⟩
      rwa [fieldBits_cons, fieldBits_nil, List.append_nil]

/-- What the reader reads for a value are the fields of its symbol and its extra bits. -/
theorem exists_codesSymbol_of_readValue {context value : Nat} {c c' : Cursor}
    (hs : IsState c.state) (hr : c.reader.pos ≤ c.reader.length)
    (h : (Decoder.ofModels map models).readValue context c = .ok value c') :
    ∃ cluster fields, map.cluster context = .ok cluster ∧ value < 2 ^ 32 ∧
      CodesSymbol models.table cluster (models.split.split value).token c.state fields c'.state ∧
      c.reader.Passes (fieldBits fields ++ (models.split.split value).extra.bits) c'.reader := by
  obtain ⟨cluster, _, hlookup, h⟩ := bind_eq_ok_iff.1 h
  obtain ⟨hcluster, rfl⟩ := ofExcept_eq_ok_iff.1 hlookup
  obtain ⟨token, c₁, hcoded, h⟩ := bind_eq_ok_iff.1 h
  obtain ⟨fields, hcodes, hpass⟩ := exists_codesSymbol_of_readCoded hv hs hr hcoded
  change (ite (32 < models.split.extraWidth token) _ _ : Decode Nat) c₁ = _ at h
  by_cases hwide : 32 < models.split.extraWidth token
  · rw [if_pos hwide] at h
    cases h
  · rw [if_neg hwide] at h
    obtain ⟨bits, c₂, hlift, hvalue⟩ := bind_eq_ok_iff.1 h
    obtain ⟨hread, hstate⟩ := Decode.lift_eq_ok_iff.1 hlift
    obtain ⟨hbits, hpass'⟩ := (BitRead.read_eq_ok_iff hpass.pos_le).1 hread
    obtain ⟨hjoin, rfl⟩ := ofExcept_eq_ok_iff.1 hvalue
    obtain ⟨hvalue, hsplit⟩ := models.split.split_of_join hbits hjoin
    refine ⟨cluster, fields, hcluster, hvalue, ?_, ?_⟩
    · rwa [hsplit, hstate]
    · rw [hsplit]
      exact hpass.trans hpass'

/-- What the reader reads for values are the fields of tokens with those values. -/
theorem exists_codesTokens_of_readValue {contexts values : List Nat} {c c' : Cursor}
    (hs : IsState c.state) (hr : c.reader.pos ≤ c.reader.length)
    (h : contexts.mapM (Decoder.ofModels map models).readValue c = .ok values c') :
    ∃ fields, values.length = contexts.length ∧
      CodesTokens models map (contexts.zipWith Token.mk values) c.state fields c'.state ∧
      c.reader.Passes (fieldBits fields) c'.reader := by
  induction contexts generalizing values c with
  | nil =>
    obtain ⟨rfl, rfl⟩ := mapM_nil_eq_ok_iff.1 h
    exact ⟨[], rfl, .nil _, .refl hr⟩
  | cons context contexts ih =>
    obtain ⟨value, c₁, values, hvalue, hrest, rfl⟩ := mapM_cons_eq_ok_iff.1 h
    obtain ⟨cluster, fields, hcluster, hlt, hcodes, hpass⟩ :=
      exists_codesSymbol_of_readValue hv hs hr hvalue
    obtain ⟨rest, hlen, htail, hpass'⟩ := ih ((hcodes.isState_iff hv).1 hs) hpass.pos_le hrest
    refine ⟨_, congrArg (· + 1) hlen, .cons hcluster hlt hcodes htail, ?_⟩
    rw [fieldBits_append, fieldBits_cons, ← List.append_assoc]
    exact hpass.trans hpass'

omit hv in
/-- A reader starts from a state, and what it has read are the fields before the first token. -/
theorem start_eq_ok {d : Decoder} {s : Nat} {r r' : BitReader} (hr : r.pos ≤ r.length)
    (h : Decoder.start map models r = .ok (d, s) r') :
    d = .ofModels map models ∧ map.clusters ≤ models.table.size ∧ IsState s ∧
      (∀ codes, models.table = .prefixCodes codes → s = initialState) ∧
      r.Passes (fieldBits (startFields models.table s)) r' := by
  obtain ⟨precision, split, table⟩ := models
  obtain ⟨⟨⟩, r₀, hrequire, h⟩ := bind_eq_ok_iff.1 h
  obtain ⟨hmap, rfl⟩ := BitRead.require_eq_ok_iff.1 hrequire
  cases table with
  | ans tables =>
    obtain ⟨state, r₁, hstate, h⟩ := bind_eq_ok_iff.1 h
    obtain ⟨hs, hpass⟩ := (readState_eq_ok_iff hr).1 hstate
    cases h
    exact ⟨rfl, of_decide_eq_true hmap, hs, nofun, hpass⟩
  | prefixCodes codes =>
    cases h
    exact ⟨rfl, of_decide_eq_true hmap, isState_initialState, fun _ _ ↦ rfl, .refl hr⟩

omit hv in
/-- A segment ends with the empty stack. -/
theorem eq_initialState_of_finish {s : Nat} (h : (Decoder.ofModels map models).finish s = .ok ())
    (hp : ∀ codes, models.table = .prefixCodes codes → s = initialState) : s = initialState := by
  obtain ⟨precision, split, table⟩ := models
  cases table with
  | ans tables =>
    apply Decidable.byContradiction
    intro hs
    rw [show Decoder.finish _ s = checkFinalState s from rfl, checkFinalState, if_neg hs] at h
    cases h
  | prefixCodes codes => exact hp codes rfl

/-- What the reader reads to the end is the payload of tokens with the values it gives. -/
theorem exists_payload_of_readPayload {contexts values : List Nat} {r r' : BitReader}
    (hr : r.pos ≤ r.length) (h : readPayload map models contexts r = .ok values r') :
    ∃ fields, values.length = contexts.length ∧
      Payload models map (contexts.zipWith Token.mk values) fields ∧
      r.Passes (fieldBits fields) r' := by
  obtain ⟨⟨d, s⟩, r₁, hstart, h⟩ := bind_eq_ok_iff.1 h
  obtain ⟨rfl, -, hs, hp, hpass⟩ := start_eq_ok hr hstart
  obtain ⟨⟨values', s'⟩, r₂, hrun, h⟩ := bind_eq_ok_iff.1 h
  obtain ⟨⟨⟩, r₃, hchecked, h⟩ := bind_eq_ok_iff.1 h
  obtain ⟨hfinish, rfl⟩ := ofExcept_eq_ok_iff.1 hchecked
  obtain ⟨rfl, rfl⟩ := pure_eq_ok_iff.1 h
  obtain ⟨rest, hlen, hcodes, hpass'⟩ :=
    exists_codesTokens_of_readValue hv hs hpass.pos_le (Decode.runFrom_eq_ok_iff.1 hrun)
  obtain rfl : s' = initialState := eq_initialState_of_finish hfinish fun codes htable ↦
    (hcodes.eq_of_prefixCodes htable).symm.trans (hp codes htable)
  refine ⟨_, hlen, ⟨s, rest, hcodes, rfl⟩, ?_⟩
  rw [fieldBits_append]
  exact hpass.trans hpass'

end

end EntropyCoding
