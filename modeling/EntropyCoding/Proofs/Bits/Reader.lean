import EntropyCoding.Bits.Reader
import EntropyCoding.Proofs.Action
import EntropyCoding.Proofs.Bits.Writer

/-!
# What a reader passes

`r.Passes bits r'` says that from `r` to `r'` a reader passes exactly `bits`.  An action `Takes`
given bits if it succeeds wherever it finds them, passes exactly them, and gives the same result
everywhere.  Actions that take bits compose, `Takes.bind`, and the bits of a writer are found in
its bytes, `passes_toBytes`: so what has been written field by field is read back field by field.

In the other direction `read_eq_ok_iff` says which bits a successful read has passed.
-/

namespace EntropyCoding

namespace BitReader

/-! ## Passing bits -/

/-- From `r` to `r'` a reader passes exactly `bits`. -/
structure Passes (r : BitReader) (bits : List Bool) (r' : BitReader) : Prop where
  /-- The data are the same. -/
  data_eq : r'.data = r.data
  /-- The bits stand between the two positions. -/
  remaining_eq : r.remaining = bits ++ r'.remaining
  /-- The position moves by their number. -/
  pos_eq : r'.pos = r.pos + bits.length
  /-- The end is not passed. -/
  pos_le : r'.pos ≤ r'.length

@[simp] theorem length_remaining (r : BitReader) : r.remaining.length = r.length - r.pos := by
  simp [remaining, length]

theorem length_take_remaining {r : BitReader} {n : Nat} (h : r.pos + n ≤ r.length) :
    (r.remaining.take n).length = n := by
  rw [List.length_take, length_remaining]
  omega

def skip (r : BitReader) (n : Nat) : BitReader :=
  { r with pos := r.pos + n }

theorem remaining_skip (r : BitReader) (n : Nat) : (r.skip n).remaining = r.remaining.drop n := by
  simp [remaining, skip]

/-- A reader passes the bits it stands before. -/
theorem passes_skip {r : BitReader} (hr : r.pos ≤ r.length) {bits rest : List Bool}
    (h : r.remaining = bits ++ rest) : r.Passes bits (r.skip bits.length) where
  data_eq := rfl
  remaining_eq := by rw [remaining_skip, h, List.drop_left]
  pos_eq := rfl
  pos_le := by
    have hlen := congrArg List.length h
    rw [length_remaining, List.length_append] at hlen
    show r.pos + bits.length ≤ r.length
    omega

namespace Passes

variable {r r₁ r₂ : BitReader} {bits bits' : List Bool}

theorem length_eq (h : r.Passes bits r₁) : r₁.length = r.length := by
  rw [length, length, h.data_eq]

theorem start_le (h : r.Passes bits r₁) : r.pos ≤ r.length := by
  have := h.pos_le
  have := h.pos_eq
  have := h.length_eq
  omega

theorem refl (hr : r.pos ≤ r.length) : r.Passes [] r :=
  ⟨rfl, rfl, rfl, hr⟩

theorem trans (h : r.Passes bits r₁) (h' : r₁.Passes bits' r₂) : r.Passes (bits ++ bits') r₂ where
  data_eq := h'.data_eq.trans h.data_eq
  remaining_eq := by rw [h.remaining_eq, h'.remaining_eq, List.append_assoc]
  pos_eq := by rw [h'.pos_eq, h.pos_eq, List.length_append, Nat.add_assoc]
  pos_le := h'.pos_le

/-- The reader reached is the one as many bits on. -/
theorem eq_skip (h : r.Passes bits r₁) : r₁ = r.skip bits.length := by
  have hd := h.data_eq
  have hp := h.pos_eq
  cases r₁
  cases hd
  cases hp
  rfl

/-- The same bits lead to the same place. -/
theorem unique (h : r.Passes bits r₁) (h' : r.Passes bits r₂) : r₁ = r₂ :=
  h.eq_skip.trans h'.eq_skip.symm

theorem eq_of_nil (h : r.Passes [] r₁) : r₁ = r :=
  h.unique (refl h.start_le)

/-- Between two lists of bits there is a reader. -/
theorem split (h : r.Passes (bits ++ bits') r₂) :
    ∃ r₁, r.Passes bits r₁ ∧ r₁.Passes bits' r₂ := by
  have hrem : r.remaining = bits ++ (bits' ++ r₂.remaining) := by
    rw [h.remaining_eq, List.append_assoc]
  have h₁ := passes_skip h.start_le hrem
  have hrem₁ : (r.skip bits.length).remaining = bits' ++ r₂.remaining :=
    List.append_cancel_left (h₁.remaining_eq.symm.trans hrem)
  have h₂ := passes_skip h₁.pos_le hrem₁
  exact ⟨_, h₁, (h₁.trans h₂).unique h ▸ h₂⟩

theorem bits_eq (h : r.Passes bits r₁) : bits = r.remaining.take (r₁.pos - r.pos) := by
  rw [h.remaining_eq, h.pos_eq, Nat.add_sub_cancel_left, List.take_left]

end Passes

/-! ## Bits of the data -/

/-- The bits of bytes, by their places. -/
theorem getElem?_bytesToBits (bytes : List UInt8) (i : Nat) :
    (bytesToBits bytes)[i]? = bytes[i / 8]?.map fun b ↦ b.toNat.testBit (i % 8) := by
  induction bytes generalizing i with
  | nil => simp [bytesToBits]
  | cons b bytes ih =>
    rw [bytesToBits, List.flatMap_cons, ← bytesToBits]
    by_cases hi : i < 8
    · rw [List.getElem?_append_left (by simpa using hi), Nat.div_eq_of_lt hi, Nat.mod_eq_of_lt hi,
        byteBits, getElem?_lowBits hi]
      rfl
    · rw [List.getElem?_append_right (by simpa using hi), length_byteBits, ih,
        show i / 8 = (i - 8) / 8 + 1 by omega, show i % 8 = (i - 8) % 8 by omega,
        List.getElem?_cons_succ]

theorem getElem?_bytesToBits_of_lt {data : Array UInt8} {i : Nat} (h : i < 8 * data.size) :
    (bytesToBits data.toList)[i]? = some (bitAt data i) := by
  have hi : i / 8 < data.size := by omega
  rw [getElem?_bytesToBits, bitAt, Array.getElem?_toList, Array.getElem?_eq_getElem hi]
  rfl

/-- The bits at a place make the number found there. -/
theorem bitsAt_eq {data : Array UInt8} {i n : Nat} {bits rest : List Bool} (hn : bits.length = n)
    (h : (bytesToBits data.toList).drop i = bits ++ rest) : bitsAt data i n = ofBits bits := by
  induction bits generalizing i n with
  | nil => subst hn; rfl
  | cons b bits ih =>
    subst hn
    have hget : (bytesToBits data.toList)[i]? = some b := by
      rw [← List.head?_drop, h]
      rfl
    have hlt : i < 8 * data.size := by
      have := (List.getElem?_eq_some_iff.1 hget).1
      simpa using this
    have hb : bitAt data i = b :=
      Option.some_inj.1 ((getElem?_bytesToBits_of_lt hlt).symm.trans hget)
    have hdrop : (bytesToBits data.toList).drop (i + 1) = bits ++ rest := by
      rw [← List.drop_drop, h]
      rfl
    rw [List.length_cons, bitsAt, hb, ih rfl hdrop, ofBits_cons]

/-! ## The bytes of a writer -/

/-- The bits written between two states of a writer are found between the two positions in its
bytes, whatever is written later and whatever bytes follow. -/
theorem passes_toBytes {w : BitWriter} (hw : w.Valid) {before bits after : List Bool}
    (h : w.toBits = before ++ (bits ++ after)) (more : Array UInt8) :
    Passes ⟨w.toBytes ++ more, before.length⟩ bits
      ⟨w.toBytes ++ more, before.length + bits.length⟩ := by
  obtain ⟨n, -, hbytes⟩ := BitWriter.bytesToBits_toBytes hw
  let pad := List.replicate n false
  have hall : bytesToBits (w.toBytes ++ more).toList =
      before ++ (bits ++ (after ++ pad ++ bytesToBits more.toList)) := by
    rw [Array.toList_append, bytesToBits, List.flatMap_append, ← bytesToBits, hbytes, h]
    simp [pad, bytesToBits]
  have hlen := congrArg List.length hall
  simp only [length_bytesToBits, List.length_append, Array.length_toList] at hlen
  have hr : before.length ≤ (BitReader.mk (w.toBytes ++ more) before.length).length := by
    simp only [length, Array.size_append] at *
    omega
  have hrem : (BitReader.mk (w.toBytes ++ more) before.length).remaining =
      bits ++ (after ++ pad ++ bytesToBits more.toList) := by
    rw [remaining, hall, List.drop_left]
  exact passes_skip hr hrem

/-- The fields written by a writer are found in the bytes of every later writer. -/
theorem passes_writeFields {w later : BitWriter} (hw : w.Valid) {fields : List Field}
    (hf : Writable fields) (hlater : later.Valid)
    (h : (w.writeFields fields).toBits <+: later.toBits) (more : Array UInt8) :
    Passes ⟨later.toBytes ++ more, w.bitsWritten⟩ (fieldBits fields)
      ⟨later.toBytes ++ more, (w.writeFields fields).bitsWritten⟩ := by
  obtain ⟨after, hafter⟩ := h
  rw [BitWriter.toBits_writeFields hw hf, List.append_assoc] at hafter
  have hpass := passes_toBytes hlater hafter.symm more
  rwa [BitWriter.length_toBits, ← BitWriter.bitsWritten_writeFields hw hf] at hpass

end BitReader

namespace BitRead

open BitReader

variable {α β : Type}

/-! ## Taking bits -/

/-- The action succeeds wherever it finds `bits`, passes them and gives `a`. -/
def Takes (action : BitRead α) (bits : List Bool) (a : α) : Prop :=
  ∀ ⦃r r' : BitReader⦄, r.Passes bits r' → action r = .ok a r'

theorem takes_pure (a : α) : Takes (pure a) [] a := by
  intro r r' h
  rw [h.eq_of_nil]
  rfl

/-- One action after another takes the bits of both. -/
theorem Takes.bind {x : BitRead α} {f : α → BitRead β} {bits bits' : List Bool} {a : α} {b : β}
    (hx : Takes x bits a) (hf : Takes (f a) bits' b) : Takes (x >>= f) (bits ++ bits') b := by
  intro r r₂ h
  obtain ⟨r₁, h₁, h₂⟩ := h.split
  exact bind_eq_ok_iff.2 ⟨a, r₁, hx h₁, hf h₂⟩

theorem Takes.bind_nil {x : BitRead α} {f : α → BitRead β} {bits : List Bool} {a : α} {b : β}
    (hx : Takes x [] a) (hf : Takes (f a) bits b) : Takes (x >>= f) bits b :=
  hx.bind hf

theorem Takes.map {x : BitRead α} {bits : List Bool} {a : α} (hx : Takes x bits a) (f : α → β) :
    Takes (f <$> x) bits (f a) :=
  fun _ _ h ↦ map_eq_ok_iff.2 ⟨a, hx h, rfl⟩

theorem Takes.bind_pure {x : BitRead α} {bits : List Bool} {a : α} (hx : Takes x bits a)
    (f : α → β) : Takes (x >>= fun a ↦ pure (f a)) bits (f a) :=
  bind_pure_comp f x ▸ hx.map f

/-- A check succeeds if it holds. -/
theorem require_eq_ok_iff {ok : Bool} {fault : StreamFault} {r r' : BitReader} :
    require ok fault r = .ok () r' ↔ ok = true ∧ r = r' := by
  cases ok with
  | true => exact pure_eq_ok_iff.trans (and_congr_left' (iff_of_true rfl rfl))
  | false =>
    constructor
    · intro h
      cases h
    · rintro ⟨h, -⟩
      cases h

theorem takes_require {ok : Bool} (h : ok = true) (fault : StreamFault) :
    Takes (require ok fault) [] () := by
  subst h
  exact takes_pure ()

theorem takes_ofExcept {x : Except Error α} {a : α} (h : x = .ok a) :
    Takes (ofExcept x) [] a := by
  subst h
  exact takes_pure a

/-- A read gives the number made of the next bits, if there are enough. -/
theorem read_eq (n : Nat) (r : BitReader) :
    read n r =
      if r.pos + n ≤ r.length then .ok (ofBits (r.remaining.take n)) (r.skip n)
      else .error .unexpectedEof r := by
  unfold BitRead.read
  split
  · next hn =>
    rw [bitsAt_eq (length_take_remaining hn) (List.take_append_drop n r.remaining).symm]
    rfl
  · rfl

/-- A read succeeds exactly if the bits of a number stand there. -/
theorem read_eq_ok_iff {n v : Nat} {r r' : BitReader} (hr : r.pos ≤ r.length) :
    read n r = .ok v r' ↔ v < 2 ^ n ∧ r.Passes (lowBits n v) r' := by
  rw [read_eq]
  constructor
  · intro h
    split at h
    · next hn =>
      have hlen := length_take_remaining hn
      have hlow : lowBits n (ofBits (r.remaining.take n)) = r.remaining.take n := by
        have := lowBits_ofBits (r.remaining.take n)
        rwa [hlen] at this
      have hlt := ofBits_lt (r.remaining.take n)
      have hp := passes_skip hr (List.take_append_drop n r.remaining).symm
      rw [hlen] at hlt hp
      cases h
      exact ⟨hlt, hlow.symm ▸ hp⟩
    · cases h
  · rintro ⟨hv, h⟩
    have hpos := h.pos_eq
    have hend := h.pos_le
    have hlen := h.length_eq
    have htake : r.remaining.take n = lowBits n v := by
      rw [h.remaining_eq, List.take_left' (length_lowBits n v)]
    rw [length_lowBits] at hpos
    rw [if_pos (by omega), htake, ofBits_lowBits, Nat.mod_eq_of_lt hv, h.eq_skip, length_lowBits]

theorem lt_of_read {n v : Nat} {r r' : BitReader} (h : read n r = .ok v r') : v < 2 ^ n := by
  unfold read at h
  split at h
  · cases h
    exact bitsAt_lt _ _ _
  · cases h

theorem takes_read {n v : Nat} (h : v < 2 ^ n) : Takes (read n) (lowBits n v) v :=
  fun _ _ hp ↦ (read_eq_ok_iff hp.start_le).2 ⟨h, hp⟩

theorem takes_read_bit (k : Nat) : Takes (read 1) (lowBits 1 (k % 2)) (k % 2) :=
  takes_read (show k % 2 < 2 ^ 1 from Nat.mod_lt k Nat.zero_lt_two)

theorem takes_read_field {f : Field} (h : f.value < 2 ^ f.width) :
    Takes (read f.width) f.bits f.value :=
  takes_read h

theorem takes_readBool (b : Bool) : Takes readBool (Field.flag b).bits b := by
  have h : Takes readBool (Field.flag b).bits (b.toNat == 1) :=
    (takes_read_field (f := Field.flag b) (by cases b <;> decide)).bind_pure _
  cases b <;> exact h

/-- Items are taken one after another. -/
theorem takes_manyAfter {item : BitRead α} {bits : α → List Bool} {as : List α}
    (h : ∀ a ∈ as, Takes item (bits a) a) (done : List α) :
    Takes (manyAfter item as.length done) (as.flatMap bits) (done.reverse ++ as) := by
  induction as generalizing done with
  | nil => simpa using takes_pure done.reverse
  | cons a as ih =>
    obtain ⟨ha, has⟩ := List.forall_mem_cons.1 h
    have := ha.bind (f := fun a ↦ manyAfter item as.length (a :: done)) (ih has (a :: done))
    rwa [List.reverse_cons, List.append_assoc, List.singleton_append] at this

/-- Items read one after another come after those read before, and each has been read. -/
theorem exists_of_manyAfter {item : BitRead α} {n : Nat} {done as : List α} {r r' : BitReader}
    (h : manyAfter item n done r = .ok as r') :
    ∃ as', as = done.reverse ++ as' ∧ as'.length = n ∧
      ∀ a ∈ as', ∃ r₁ r₂, item r₁ = .ok a r₂ := by
  induction n generalizing done r with
  | zero =>
    obtain ⟨rfl, -⟩ := pure_eq_ok_iff.1 h
    exact ⟨[], (List.append_nil _).symm, rfl, nofun⟩
  | succ n ih =>
    obtain ⟨a, r₁, ha, h⟩ := bind_eq_ok_iff.1 h
    obtain ⟨as', rfl, hlen, has⟩ := ih h
    refine ⟨a :: as', ?_, congrArg (· + 1) hlen, List.forall_mem_cons.2 ⟨⟨r, r₁, ha⟩, has⟩⟩
    rw [List.reverse_cons, List.append_assoc]
    rfl

theorem exists_of_many {item : BitRead α} {n : Nat} {as : List α} {r r' : BitReader}
    (h : many n item r = .ok as r') :
    as.length = n ∧ ∀ a ∈ as, ∃ r₁ r₂, item r₁ = .ok a r₂ := by
  obtain ⟨as', rfl, hlen, has⟩ := exists_of_manyAfter h
  exact ⟨hlen, has⟩

theorem takes_many {item : BitRead α} {bits : α → List Bool} {as : List α}
    (h : ∀ a ∈ as, Takes item (bits a) a) : Takes (many as.length item) (as.flatMap bits) as :=
  takes_manyAfter h []

end BitRead

end EntropyCoding
