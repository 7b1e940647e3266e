import EntropyCoding.Bits.Number
import EntropyCoding.Proofs.Bits.Reader

/-!
# Reading from fewer bytes

A reader that is left only the first bytes of its data cannot tell so until it needs a bit beyond
them.  An action `Notices` missing bits if each of its successful runs, repeated on fewer bytes,
goes the same way up to there: it either succeeds with the same result, having passed the same bits,
or fails because the bits ran out.  No bits are made up, and the end is found by no other check.

A single read notices missing bits, `notices_read`, and actions one after another do if each of
them does, `NoticesAt.bind`.  If a run of such an action has passed bits that are missing, then the
bits run out, `Notices.exists_unexpectedEof`.
-/

namespace EntropyCoding

/-- The reader at the same position with only the first `n` bytes of its data. -/
def BitReader.truncate (n : Nat) (r : BitReader) : BitReader :=
  { r with data := r.data.take n }

namespace BitReader

@[simp] theorem pos_truncate (n : Nat) (r : BitReader) : (r.truncate n).pos = r.pos := rfl

theorem length_truncate (n : Nat) (r : BitReader) :
    (r.truncate n).length = 8 * min n r.data.size := by
  simp [truncate, length]

/-- The first bytes of some data are what truncation leaves of it. -/
theorem truncate_ofBytes {data left : Array UInt8} (h : left.toList <+: data.toList) :
    (ofBytes data).truncate left.size = ofBytes left := by
  have heq : data.take left.size = left := by
    apply Array.toList_inj.1
    rw [Array.take_eq_extract, Array.toList_extract, List.extract_eq_take_drop, List.drop_zero,
      Nat.sub_zero, ← Array.length_toList]
    exact (List.prefix_iff_eq_take.1 h).symm
  rw [truncate, ofBytes, heq]
  rfl

theorem bitAt_take {data : Array UInt8} {n i : Nat} (h : i < 8 * min n data.size) :
    bitAt (data.take n) i = bitAt data i := by
  have hi : i / 8 < min n data.size := by omega
  have hget : (data.take n)[i / 8]? = data[i / 8]? := by
    rw [Array.take_eq_extract, Array.getElem?_extract, if_pos (by omega), Nat.zero_add]
  rw [bitAt, bitAt, hget]

theorem bitsAt_take {data : Array UInt8} {n i k : Nat} (h : i + k ≤ 8 * min n data.size) :
    bitsAt (data.take n) i k = bitsAt data i k := by
  induction k generalizing i with
  | zero => rfl
  | succ k ih => rw [bitsAt, bitsAt, bitAt_take (by omega), ih (by omega)]

end BitReader

namespace BitRead

open BitReader

variable {α β : Type}

/-- On fewer bytes the action runs from `r` as it does on all of them, up to where bits are
missing. -/
def NoticesAt (action : BitRead α) (r : BitReader) : Prop :=
  ∀ ⦃n r' a⦄, r.pos ≤ (r.truncate n).length → action r = .ok a r' →
    r'.pos ≤ (r'.truncate n).length ∧ action (r.truncate n) = .ok a (r'.truncate n) ∨
      ∃ s, action (r.truncate n) = .error .unexpectedEof s

/-- On fewer bytes the action runs as it does on all of them, up to where bits are missing. -/
def Notices (action : BitRead α) : Prop :=
  ∀ r, NoticesAt action r

/-- If a run passes a bit beyond the first `n` bytes, the bits run out on them. -/
theorem Notices.exists_unexpectedEof {action : BitRead α} (h : Notices action) {r r' : BitReader}
    {a : α} (hok : action r = .ok a r') {n : Nat} (hstart : r.pos ≤ (r.truncate n).length)
    (hmissing : 8 * n < r'.pos) : ∃ s, action (r.truncate n) = .error .unexpectedEof s := by
  rcases h r hstart hok with ⟨hpos, -⟩ | herr
  · have := Nat.min_le_left n r'.data.size
    rw [length_truncate] at hpos
    omega
  · exact herr

/-! ## Composition -/

theorem notices_pure (a : α) : Notices (pure a : BitRead α) := by
  intro r n r' b hpos h
  obtain ⟨rfl, rfl⟩ := pure_eq_ok_iff.1 h
  exact .inl ⟨hpos, rfl⟩

theorem notices_throw (e : Error) : Notices (throw e : BitRead α) := by
  intro r n r' a _ h
  cases h

theorem notices_reject (fault : StreamFault) : Notices (reject fault : BitRead α) :=
  notices_throw _

/-- One action after another, the second where the first has brought the reader. -/
theorem NoticesAt.bind {x : BitRead α} {f : α → BitRead β} {r : BitReader} (hx : NoticesAt x r)
    (hf : ∀ ⦃a r₁⦄, x r = .ok a r₁ → NoticesAt (f a) r₁) : NoticesAt (x >>= f) r := by
  intro n r₂ b hpos h
  obtain ⟨a, r₁, hxr, hfr⟩ := bind_eq_ok_iff.1 h
  rcases hx hpos hxr with ⟨hpos₁, hok⟩ | ⟨s, herr⟩
  · rw [bind_of_ok hok]
    exact hf hxr hpos₁ hfr
  · exact .inr ⟨s, bind_of_error herr f⟩

/-- One action after another. -/
theorem Notices.bind {x : BitRead α} {f : α → BitRead β} (hx : Notices x)
    (hf : ∀ a, Notices (f a)) : Notices (x >>= f) :=
  fun r ↦ (hx r).bind fun a r₁ _ ↦ hf a r₁

theorem Notices.map {x : BitRead α} (hx : Notices x) (f : α → β) : Notices (f <$> x) :=
  bind_pure_comp f x ▸ hx.bind fun a ↦ notices_pure (f a)

theorem notices_ofExcept (x : Except Error α) : Notices (ofExcept x : BitRead α) := by
  cases x with
  | ok a => exact notices_pure a
  | error e => exact notices_throw e

theorem notices_require (ok : Bool) (fault : StreamFault) : Notices (require ok fault) := by
  cases ok with
  | true => exact notices_pure ()
  | false => exact notices_reject fault

/-! ## Bits -/

/-- A read finds the same bits, or too few. -/
theorem notices_read (k : Nat) : Notices (read k) := by
  intro r n r' v hpos h
  unfold BitRead.read at h ⊢
  by_cases hk : r.pos + k ≤ (r.truncate n).length
  · rw [length_truncate] at hk
    have hle : 8 * min n r.data.size ≤ r.length := Nat.mul_le_mul_left 8 (Nat.min_le_right _ _)
    rw [if_pos (Nat.le_trans hk hle)] at h
    cases h
    left
    refine ⟨?_, ?_⟩
    · rwa [length_truncate]
    · rw [if_pos (by rwa [length_truncate]), pos_truncate]
      exact congrArg (EStateM.Result.ok · _) (bitsAt_take hk)
  · exact .inr ⟨_, if_neg hk⟩

theorem notices_readBool : Notices readBool :=
  (notices_read 1).bind fun _ ↦ notices_pure _

theorem notices_many {item : BitRead α} (h : Notices item) (count : Nat) :
    Notices (many count item) := by
  have hafter : ∀ done, Notices (manyAfter item count done) := by
    induction count with
    | zero => exact fun done ↦ notices_pure done.reverse
    | succ count ih => exact fun done ↦ h.bind fun a ↦ ih (a :: done)
  exact hafter []

/-! ## Numbers -/

theorem notices_readBelowTop (len : Nat) : Notices (readBelowTop len) := by
  unfold readBelowTop
  split
  · exact notices_pure _
  · exact notices_pure _
  · exact (notices_read _).bind fun _ ↦ notices_pure _

theorem notices_readWord : Notices readWord :=
  (notices_read _).bind fun _ ↦ (notices_require _ _).bind fun _ ↦ notices_readBelowTop _

end BitRead

end EntropyCoding
