import EntropyCoding.Instances

/-!
# Fields of bits

A stream is a sequence of fields: a number and the count of low bits it is written with.  The
bits of a field go out least significant first, so `lowBits n v` lists them in stream order and
`ofBits` puts a number back together.  `ofBits_lowBits` and `lowBits_ofBits` say that the two
undo each other.

Two helpers size the fields: `bitLength`, the length of a number in binary, and `ceilLog2`, the
width that holds every number below a bound.
-/

namespace EntropyCoding

/-! ## Bits of a number -/

/-- The low `n` bits of `v`, least significant first. -/
def lowBits : Nat → Nat → List Bool
  | 0, _ => []
  | n + 1, v => (v % 2 == 1) :: lowBits n (v / 2)

@[simp] theorem lowBits_zero (v : Nat) : lowBits 0 v = [] := rfl

theorem lowBits_succ (n v : Nat) : lowBits (n + 1) v = (v % 2 == 1) :: lowBits n (v / 2) := rfl

@[simp] theorem length_lowBits (n v : Nat) : (lowBits n v).length = n := by
  induction n generalizing v with
  | zero => rfl
  | succ n ih => simp [lowBits_succ, ih]

/-- The number whose bits, least significant first, are given. -/
def ofBits : List Bool → Nat
  | [] => 0
  | b :: bits => b.toNat + 2 * ofBits bits

@[simp] theorem ofBits_nil : ofBits [] = 0 := rfl

@[simp] theorem ofBits_cons (b : Bool) (bits : List Bool) :
    ofBits (b :: bits) = b.toNat + 2 * ofBits bits := rfl

theorem ofBits_lt (bits : List Bool) : ofBits bits < 2 ^ bits.length := by
  induction bits with
  | nil => simp
  | cons b bits ih =>
    have := b.toNat_le
    simp only [ofBits_cons, List.length_cons, Nat.pow_succ]
    omega

/-- The low bits of a number make its remainder. -/
@[simp] theorem ofBits_lowBits (n v : Nat) : ofBits (lowBits n v) = v % 2 ^ n := by
  induction n generalizing v with
  | zero => simp [Nat.mod_one]
  | succ n ih =>
    rw [lowBits_succ, ofBits_cons, ih, Nat.pow_succ', Nat.mod_mul]
    rcases Nat.mod_two_eq_zero_or_one v with h | h <;> simp [h]

/-- Bits are recovered from the number they make. -/
@[simp] theorem lowBits_ofBits (bits : List Bool) : lowBits bits.length (ofBits bits) = bits := by
  induction bits with
  | nil => rfl
  | cons b bits ih =>
    rw [List.length_cons, lowBits_succ, ofBits_cons]
    have h : (b.toNat + 2 * ofBits bits) / 2 = ofBits bits := by
      have := b.toNat_le
      omega
    rw [h, ih]
    cases b <;> simp

theorem lowBits_add (m n v : Nat) : lowBits (m + n) v = lowBits m v ++ lowBits n (v / 2 ^ m) := by
  induction m generalizing v with
  | zero => simp
  | succ m ih =>
    rw [Nat.succ_add, lowBits_succ, lowBits_succ, ih, Nat.div_div_eq_div_mul, ← Nat.pow_succ',
      List.cons_append]

/-- What a number has above its low bits does not matter to them. -/
@[simp] theorem lowBits_mod (n v : Nat) : lowBits n (v % 2 ^ n) = lowBits n v := by
  have h := lowBits_ofBits (lowBits n v)
  rwa [length_lowBits, ofBits_lowBits] at h

@[simp] theorem lowBits_zero_right (n : Nat) : lowBits n 0 = List.replicate n false := by
  induction n with
  | zero => rfl
  | succ n ih => rw [lowBits_succ, Nat.zero_div, ih, List.replicate_succ]; rfl

theorem getElem?_lowBits {i n : Nat} (h : i < n) (v : Nat) :
    (lowBits n v)[i]? = some (v.testBit i) := by
  induction n generalizing i v with
  | zero => omega
  | succ n ih =>
    cases i with
    | zero => simp [lowBits_succ, Nat.testBit_zero]; rfl
    | succ i => rw [lowBits_succ, List.getElem?_cons_succ, ih (by omega), Nat.testBit_succ]

/-! ## Fields -/

/-- A number and the count of its low bits that go into a stream. -/
structure Field where
  /-- The number written. -/
  value : Nat
  /-- The count of low bits written. -/
  width : Nat
  deriving DecidableEq, Repr

/-- The bits a field puts into a stream, in stream order. -/
def Field.bits (f : Field) : List Bool :=
  lowBits f.width f.value

@[simp] theorem Field.length_bits (f : Field) : f.bits.length = f.width :=
  length_lowBits _ _

def Field.flag (b : Bool) : Field :=
  ⟨b.toNat, 1⟩

@[simp] theorem Field.bits_flag (b : Bool) : (Field.flag b).bits = [b] := by
  cases b <;> rfl

def fieldBits (fields : List Field) : List Bool :=
  fields.flatMap Field.bits

@[simp] theorem fieldBits_nil : fieldBits [] = [] := rfl

@[simp] theorem fieldBits_cons (f : Field) (fields : List Field) :
    fieldBits (f :: fields) = f.bits ++ fieldBits fields := rfl

@[simp] theorem fieldBits_append (fs gs : List Field) :
    fieldBits (fs ++ gs) = fieldBits fs ++ fieldBits gs :=
  List.flatMap_append

theorem fieldBits_flatMap {α : Type} (fields : α → List Field) (as : List α) :
    fieldBits (as.flatMap fields) = as.flatMap fun a ↦ fieldBits (fields a) :=
  List.flatMap_assoc

/-- The largest width of a field that a writer takes. -/
def maxFieldWidth : Nat := 56

/-- Fields that a writer takes. -/
def Writable (fields : List Field) : Prop :=
  ∀ f ∈ fields, f.width ≤ maxFieldWidth

/-- Whether a writer takes fields can be checked one by one. -/
instance (fields : List Field) : Decidable (Writable fields) :=
  inferInstanceAs (Decidable (∀ f ∈ fields, f.width ≤ maxFieldWidth))

theorem writable_nil : Writable [] := fun _ h ↦ by cases h

@[simp] theorem writable_cons {f : Field} {fields : List Field} :
    Writable (f :: fields) ↔ f.width ≤ maxFieldWidth ∧ Writable fields :=
  List.forall_mem_cons

@[simp] theorem writable_append {fs gs : List Field} :
    Writable (fs ++ gs) ↔ Writable fs ∧ Writable gs :=
  List.forall_mem_append

/-! ## Widths -/

/-- The length of `n` in binary; zero has none. -/
def bitLength (n : Nat) : Nat :=
  if n = 0 then 0 else n.log2 + 1

@[simp] theorem bitLength_zero : bitLength 0 = 0 := rfl

theorem lt_two_pow_bitLength (n : Nat) : n < 2 ^ bitLength n := by
  unfold bitLength
  split
  · omega
  · exact Nat.lt_log2_self

theorem bitLength_le_iff {n k : Nat} : bitLength n ≤ k ↔ n < 2 ^ k := by
  unfold bitLength
  split
  · next h =>
    subst h
    exact ⟨fun _ ↦ Nat.two_pow_pos k, fun _ ↦ Nat.zero_le k⟩
  · next h => rw [Nat.succ_le_iff, Nat.log2_lt h]

/-- The width that holds every number below `n`. -/
def ceilLog2 (n : Nat) : Nat :=
  bitLength (n - 1)

theorem lt_two_pow_ceilLog2 {m n : Nat} (h : m < n) : m < 2 ^ ceilLog2 n :=
  Nat.lt_of_le_of_lt (Nat.le_sub_one_of_lt h) (lt_two_pow_bitLength _)

theorem ceilLog2_le_iff {n k : Nat} : ceilLog2 n ≤ k ↔ n ≤ 2 ^ k := by
  have := Nat.two_pow_pos k
  rw [ceilLog2, bitLength_le_iff]
  omega

end EntropyCoding
