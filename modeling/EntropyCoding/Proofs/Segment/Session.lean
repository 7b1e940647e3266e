import EntropyCoding.Proofs.Ans.Decode
import EntropyCoding.Proofs.Context.Map
import EntropyCoding.Proofs.Segment.Models

/-!
# Reading from arbitrary bytes

A session makes a decoder from bytes that need not come from a writer, reads values in contexts that
need not be in range, goes on when a value could not be read, and ends: `Decoder.session`.

What makes the calls of a session safe is established when the decoder is made, `Decoder.Sound`: the
map names no cluster without a model, and the models are valid.  So a call fails because of its
context only if the context is out of range, and otherwise because of the bits,
`Decoder.Sound.failsWith_readValue`.
-/

namespace EntropyCoding

/-- The action made to succeed, with its result or its error. -/
def attempt {σ α : Type} (action : EStateM Error σ α) : EStateM Error σ (Except Error α) := fun s ↦
  match action s with
  | .ok a s' => .ok (.ok a) s'
  | .error e s' => .ok (.error e) s'

/-- What an attempt gives is what the action does. -/
theorem attempt_eq_ok_iff {σ α : Type} {action : EStateM Error σ α} {result : Except Error α}
    {s s' : σ} : attempt action s = .ok result s' ↔
      (∃ a, result = .ok a ∧ action s = .ok a s') ∨ ∃ e, result = .error e ∧ action s = .error e s' := by
  unfold attempt
  cases action s with
  | ok a s₁ =>
    constructor
    · rintro ⟨⟩
      exact .inl ⟨a, rfl, rfl⟩
    · rintro (⟨_, rfl, ⟨⟩⟩ | ⟨_, -, h⟩)
      · rfl
      · cases h
  | error e s₁ =>
    constructor
    · rintro ⟨⟩
      exact .inr ⟨e, rfl, rfl⟩
    · rintro (⟨_, -, h⟩ | ⟨_, rfl, ⟨⟩⟩)
      · cases h
      · rfl

namespace Decoder

/-- Reads a value in each of the given contexts, whether or not those before it could be read. -/
def readEach (d : Decoder) (calls : List Nat) : Decode (List (Except Error Nat)) :=
  calls.mapM fun context ↦ attempt (d.readValue context)

/-- Makes a decoder, reads a value in each of the contexts `calls`, and ends; gives what each call has
given, and the end. -/
def session (contexts : Nat) (calls : List Nat) :
    BitRead (List (Except Error Nat) × Except Error Unit) := do
  let (decoder, state) ← read contexts
  let (results, state) ← Decode.runFrom state (decoder.readEach calls)
  return (results, decoder.finish state)

end Decoder

/-! ## Errors -/

/-- True for the errors that report what the bits are. -/
def Error.isOfStream : Error → Bool
  | unexpectedEof | invalidStream _ => true
  | _ => false

/-- Reading bits fails only at the end. -/
theorem BitRead.failsWith_read (n : Nat) : FailsWith (Error.isOfStream ·) (BitRead.read n) := by
  intro r e r' h
  unfold BitRead.read at h
  split at h
  · cases h
  · cases h
    rfl

/-- Reading a symbol fails only because of the bits. -/
theorem PrefixDecoder.failsWith_readSymbol (d : PrefixDecoder) :
    FailsWith (Error.isOfStream ·) d.readSymbol := by
  have hwalk : ∀ n depth code first index,
      FailsWith (Error.isOfStream ·) (d.walk n depth code first index) := by
    intro n
    induction n with
    | zero => exact fun _ _ _ _ ↦ failsWith_throw rfl
    | succ n ih =>
      intro depth code first index
      refine (BitRead.failsWith_read 1).bind fun bit _ _ _ ↦ ?_
      dsimp only
      split
      · split
        · exact failsWith_pure _
        · exact failsWith_throw rfl
      · exact ih _ _ _ _
  unfold readSymbol
  split
  · exact failsWith_pure _
  · exact hwalk _ _ _ _ _

namespace Decode

/-- Reading fails as the reader does. -/
theorem failsWith_lift {α : Type} {P : Error → Prop} {action : BitRead α} (h : FailsWith P action) :
    FailsWith P (lift action) := by
  intro c e c' hlift
  unfold lift at hlift
  cases haction : action c.reader with
  | ok a r =>
    rw [haction] at hlift
    cases hlift
  | error e r =>
    rw [haction] at hlift
    cases hlift
    exact h haction

/-- Taking off a symbol fails only at the end. -/
theorem failsWith_popSymbol (t : AnsTable) : FailsWith (Error.isOfStream ·) (popSymbol t) := by
  have hrefill : FailsWith (Error.isOfStream ·) refill := by
    intro c e c' h
    rw [refill_apply] at h
    split at h
    · refine (failsWith_lift (BitRead.failsWith_read 16)).bind (fun chunk _ _ _ ↦ ?_) h
      intro c e c' hmodify
      cases hmodify
    · cases h
  intro c e c' h
  exact hrefill.bind (fun _ _ _ _ ↦ failsWith_pure _) (popSymbol_apply t c.state c.reader ▸ h)

theorem lt_of_popSymbol {t : AnsTable} (ht : t.Valid) {symbol : Nat} {c c' : Cursor}
    (h : popSymbol t c = .ok symbol c') : symbol < t.alphabetSize := by
  rw [show c = ⟨c.state, c.reader⟩ from rfl, popSymbol_apply] at h
  obtain ⟨_, _, -, h⟩ := bind_eq_ok_iff.1 h
  obtain ⟨rfl, -⟩ := pure_eq_ok_iff.1 h
  exact ht.symbolAt_lt (Nat.mod_lt _ t.size_pos)

end Decode

/-- Joining a value fails only because of its token. -/
theorem TokenSplit.isOfStream_of_join {s : TokenSplit} {token bits : Nat} {e : Error}
    (h : s.join token bits = .error e) : e.isOfStream := by
  unfold join at h
  split at h
  · cases h
  · dsimp only at h
    split at h
    · cases h
    · cases h
      rfl

/-! ## Sound decoders -/

namespace DecodingTable

def size : DecodingTable → Nat
  | ans tables => tables.size
  | prefixCodes decoders => decoders.size

/-- Every distribution is valid, and every decoder is that of a valid code. -/
def Valid : DecodingTable → Prop
  | ans tables => ∀ t ∈ tables, t.Valid
  | prefixCodes decoders => ∀ d ∈ decoders, ∃ c : PrefixCode, c.Valid ∧ d = .ofCode c

end DecodingTable

/-- A map that has been read has the contexts asked for, and a cluster for every entry. -/
theorem ContextMap.mem_of_read {n : Nat} {m : ContextMap} {r r' : BitReader}
    (h : ContextMap.read n r = .ok m r') :
    m.contexts = n ∧ ∀ entry ∈ m.entries, entry.toNat < m.clusters := by
  obtain ⟨width, _, -, h⟩ := bind_eq_ok_iff.1 h
  obtain ⟨_, _, -, h⟩ := bind_eq_ok_iff.1 h
  obtain ⟨entries, _, hentries, h⟩ := bind_eq_ok_iff.1 h
  obtain ⟨rfl, -⟩ := pure_eq_ok_iff.1 h
  refine ⟨?_, fun entry hentry ↦ ?_⟩
  · simp [ofEntries, contexts, (BitRead.exists_of_many hentries).1]
  · rw [ofEntries, List.foldl_toArray]
    exact (foldl_max_entry (entries.map UInt8.ofNat) 0).2.1 entry (List.mem_toArray.1 hentry)

namespace Decoder

/-- What a decoder for a number of contexts relies on. -/
structure Sound (d : Decoder) (contexts : Nat) : Prop where
  /-- The map has the contexts announced. -/
  contexts_eq : d.map.contexts = contexts
  /-- Every cluster that the map names has a model. -/
  entry_lt : ∀ entry ∈ d.map.entries, entry.toNat < d.table.size
  /-- The models are valid. -/
  valid : d.table.Valid

/-- A decoder that has been read is sound, and starts from a state of 32 bits. -/
theorem sound_of_read {contexts state : Nat} {d : Decoder} {r r' : BitReader}
    (h : Decoder.read contexts r = .ok (d, state) r') : d.Sound contexts ∧ state < 2 ^ 32 := by
  obtain ⟨map, r₁, hmap, h⟩ := bind_eq_ok_iff.1 h
  obtain ⟨models, r₂, hmodels, h⟩ := bind_eq_ok_iff.1 h
  obtain ⟨hcontexts, hentries⟩ := ContextMap.mem_of_read hmap
  have hvalid := valid_of_readModels hmodels
  obtain ⟨_, r₃, hrequire, h⟩ := bind_eq_ok_iff.1 h
  have hclusters : map.clusters ≤ models.table.size :=
    of_decide_eq_true (BitRead.require_eq_ok_iff.1 hrequire).1
  obtain ⟨precision, split, table⟩ := models
  cases table with
  | ans tables =>
    obtain ⟨state, r₄, hstate, h⟩ := bind_eq_ok_iff.1 h
    obtain ⟨⟨⟩, -⟩ := pure_eq_ok_iff.1 h
    have hlt : state < 2 ^ 32 := by
      obtain ⟨read, _, hread, hstate⟩ := bind_eq_ok_iff.1 hstate
      split at hstate
      · cases hstate
      · obtain ⟨rfl, -⟩ := pure_eq_ok_iff.1 hstate
        exact BitRead.lt_of_read hread
    exact ⟨⟨hcontexts, fun entry hentry ↦ Nat.lt_of_lt_of_le (hentries entry hentry) hclusters,
      hvalid⟩, hlt⟩
  | prefixCodes codes =>
    obtain ⟨⟨⟩, -⟩ := pure_eq_ok_iff.1 h
    refine ⟨⟨hcontexts, fun entry hentry ↦ ?_, fun decoder hdecoder ↦ ?_⟩, by decide⟩
    · show entry.toNat < (codes.map PrefixDecoder.ofCode).size
      rw [Array.size_map]
      exact Nat.lt_of_lt_of_le (hentries entry hentry) hclusters
    · obtain ⟨c, hc, rfl⟩ := Array.mem_map.1 hdecoder
      exact ⟨c, hvalid c hc, rfl⟩

namespace Sound

variable {d : Decoder} {contexts : Nat} (hd : d.Sound contexts)
include hd

theorem cluster_lt {context cluster : Nat} (h : d.map.cluster context = .ok cluster) :
    cluster < d.table.size := by
  unfold ContextMap.cluster at h
  split at h
  · next entry hentry =>
    cases h
    exact hd.entry_lt entry (Array.mem_of_getElem? hentry)
  · cases h

theorem exists_cluster {context : Nat} (h : context < contexts) :
    ∃ cluster, d.map.cluster context = .ok cluster := by
  have hsize : context < d.map.contexts := hd.contexts_eq.symm ▸ h
  exact ⟨d.map.entries[context].toNat, by rw [ContextMap.cluster, Array.getElem?_eq_getElem hsize]⟩

/-- A token fails to be read only because of the bits. -/
theorem failsWith_readCoded {cluster : Nat} (h : cluster < d.table.size) :
    FailsWith (Error.isOfStream ·) (d.readCoded cluster) := by
  obtain ⟨map, split, table⟩ := d
  cases table with
  | ans tables =>
    have hget : tables[cluster]? = some tables[cluster] := Array.getElem?_eq_getElem h
    dsimp only [readCoded]
    rw [hget]
    exact Decode.failsWith_popSymbol _
  | prefixCodes decoders =>
    have hget : decoders[cluster]? = some decoders[cluster] := Array.getElem?_eq_getElem h
    dsimp only [readCoded]
    rw [hget]
    exact Decode.failsWith_lift (PrefixDecoder.failsWith_readSymbol _)

/-- In a context in range a value fails to be read only because of the bits. -/
theorem failsWith_readValue {context : Nat} (h : context < contexts) :
    FailsWith (Error.isOfStream ·) (d.readValue context) := by
  obtain ⟨cluster, hcluster⟩ := hd.exists_cluster h
  rw [readValue, hcluster]
  refine (hd.failsWith_readCoded (hd.cluster_lt hcluster)).bind fun token _ _ _ ↦ ?_
  dsimp only
  split
  · exact failsWith_throw rfl
  · exact (Decode.failsWith_lift (BitRead.failsWith_read _)).bind fun bits _ _ _ ↦
      failsWith_ofExcept fun _ ↦ TokenSplit.isOfStream_of_join

/-- A token that is read has 16 bits. -/
theorem lt_of_readCoded {cluster token : Nat} {c c' : Cursor} (hr : c.reader.pos ≤ c.reader.length)
    (h : d.readCoded cluster c = .ok token c') : token < 2 ^ 16 := by
  have hvalid := hd.valid
  obtain ⟨map, split, table⟩ := d
  cases table with
  | ans tables =>
    dsimp only [readCoded] at h
    cases hget : tables[cluster]? with
    | none =>
      rw [hget] at h
      cases h
    | some t =>
      rw [hget] at h
      have ht := hvalid t (Array.mem_of_getElem? hget)
      exact Nat.lt_of_lt_of_le (Decode.lt_of_popSymbol ht h) ht.alphabetSize_le
  | prefixCodes decoders =>
    dsimp only [readCoded] at h
    cases hget : decoders[cluster]? with
    | none =>
      rw [hget] at h
      cases h
    | some decoder =>
      rw [hget] at h
      obtain ⟨code, hcode, rfl⟩ := hvalid decoder (Array.mem_of_getElem? hget)
      obtain ⟨field, hfield, -⟩ :=
        hcode.exists_codeword_of_readSymbol hr (Decode.lift_eq_ok_iff.1 h).1
      exact Nat.lt_of_lt_of_le (PrefixCode.lt_alphabetSize_of_codeword hfield) hcode.alphabetSize_le

end Sound

/-- A value that is read has 32 bits. -/
theorem lt_of_readValue {d : Decoder} {context v : Nat} {c c' : Cursor}
    (h : d.readValue context c = .ok v c') : v < 2 ^ 32 := by
  obtain ⟨cluster, _, -, h⟩ := bind_eq_ok_iff.1 h
  obtain ⟨token, _, -, h⟩ := bind_eq_ok_iff.1 h
  dsimp only at h
  split at h
  · cases h
  · obtain ⟨bits, _, -, h⟩ := bind_eq_ok_iff.1 h
    exact TokenSplit.lt_of_join (ofExcept_eq_ok_iff.1 h).1

/-- Each call has a result. -/
theorem forall_mem_of_readEach {d : Decoder} {P : Nat → Except Error Nat → Prop}
    (hcall : ∀ ⦃context c result c'⦄, attempt (d.readValue context) c = .ok result c' →
      P context result) {calls : List Nat} {results : List (Except Error Nat)} {c c' : Cursor}
    (h : d.readEach calls c = .ok results c') :
    results.length = calls.length ∧ ∀ p ∈ calls.zip results, P p.1 p.2 := by
  induction calls generalizing results c with
  | nil =>
    obtain ⟨rfl, -⟩ := mapM_nil_eq_ok_iff.1 h
    exact ⟨rfl, nofun⟩
  | cons context calls ih =>
    obtain ⟨result, c₁, rest, hresult, hrest, rfl⟩ := mapM_cons_eq_ok_iff.1 h
    obtain ⟨hlength, hall⟩ := ih hrest
    refine ⟨congrArg (· + 1) hlength, ?_⟩
    rw [List.zip_cons_cons]
    exact List.forall_mem_cons.2 ⟨hcall hresult, hall⟩

end Decoder

end EntropyCoding
