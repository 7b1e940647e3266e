import EntropyCoding.Ans.State

/-!
# Checked arithmetic

A program that computes with numbers of fixed width can go wrong where one that computes with natural
numbers cannot: a sum may not fit its width, a difference may fall below zero, a shift may be as wide
as the number, an index may lie beyond the end of its array.  The operations here are those of the
fixed-width program with each of these conditions tested, and what a failed test gives is a `Fault`,
which is no `Error` of the library.

So a program written with them has two ways to stop, `Stop`: with an error that it reports, or with
a fault that must not happen.  That it has no fault is shown by comparison with a program on natural
numbers, which has none to begin with.
-/

namespace EntropyCoding

/-- What must not happen in a program that computes with numbers of fixed width. -/
inductive Fault
  /-- An index lies beyond the end of its array. -/
  | index
  /-- A difference is below zero. -/
  | underflow
  /-- A number does not fit its width. -/
  | overflow
  /-- A shift is at least as wide as the number. -/
  | shift
  /-- A loop has not ended in the number of steps it is given. -/
  | endless
  /-- A model is not of the family that the segment announces. -/
  | familyMismatch
  /-- As many bits as the longest codeword has are none. -/
  | unknownCodeword
  /-- A code has not as many codewords as depths. -/
  | lengthMismatch (depths codewords : Nat)
  deriving DecidableEq, Repr

/-- Why a checked program stops. -/
inductive Stop
  /-- It reports an error. -/
  | error (e : Error)
  /-- Something has happened that must not. -/
  | fault (f : Fault)
  deriving DecidableEq, Repr

/-- An action of a checked program. -/
abbrev Checked (σ : Type) := EStateM Stop σ

namespace Checked

variable {σ α β : Type}

/-- A checked result is an action that leaves the state alone. -/
instance : MonadLift (Except Stop) (Checked σ) := ⟨ofExcept⟩

/-- Stops with a fault. -/
def fault (f : Fault) : Checked σ α := throw (.fault f)

theorem get_bind (f : σ → Checked σ α) (s : σ) : (get >>= f) s = f s s := rfl

theorem set_bind (s' : σ) (f : PUnit → Checked σ α) (s : σ) : (set s' >>= f) s = f () s' := rfl

theorem bind_of_eq_ok {x : Except Stop α} {a : α} (h : x = .ok a) (f : α → Except Stop β) :
    (x >>= f) = f a := by
  subst h
  rfl

theorem lift_bind {x : Except Stop α} {a : α} (h : x = .ok a) (f : α → Checked σ β) (s : σ) :
    ((liftM x : Checked σ α) >>= f) s = f a s := by
  subst h
  rfl

theorem lift_bind_of_error {x : Except Stop α} {stop : Stop} (h : x = .error stop)
    (f : α → Checked σ β) (s : σ) : ((liftM x : Checked σ α) >>= f) s = .error stop s := by
  subst h
  rfl

/-! ## Operations -/

/-- A number that has to fit `bits` bits. -/
def fit (bits v : Nat) : Except Stop Nat :=
  if v < 2 ^ bits then .ok v else .error (.fault .overflow)

def add (bits a b : Nat) : Except Stop Nat := fit bits (a + b)

/-- The product of two numbers of `bits` bits. -/
def mul (bits a b : Nat) : Except Stop Nat := fit bits (a * b)

def sub (a b : Nat) : Except Stop Nat :=
  if b ≤ a then .ok (a - b) else .error (.fault .underflow)

/-- A number of `bits` bits, shifted to the left by `n`.  No bit may get lost. -/
def shiftLeft (bits v n : Nat) : Except Stop Nat :=
  if n < bits then fit bits (v * 2 ^ n) else .error (.fault .shift)

/-- A number of `bits` bits, shifted to the right by `n`. -/
def shiftRight (bits v n : Nat) : Except Stop Nat :=
  if n < bits then .ok (v / 2 ^ n) else .error (.fault .shift)

/-- The element of an array at an index. -/
def item (as : Array α) (i : Nat) : Except Stop α :=
  match as[i]? with
  | some a => .ok a
  | none => .error (.fault .index)

def store (as : Array α) (i : Nat) (a : α) : Except Stop (Array α) :=
  if i < as.size then .ok (as.setIfInBounds i a) else .error (.fault .index)

/-- Adds one to the number at an index, which has `bits` bits. -/
def increment (bits : Nat) (as : Array Nat) (i : Nat) : Except Stop (Array Nat) := do
  store as i (← add bits (← item as i) 1)

theorem fit_eq_ok {bits v : Nat} (h : v < 2 ^ bits) : fit bits v = .ok v := if_pos h

theorem add_eq_ok {bits a b : Nat} (h : a + b < 2 ^ bits) : add bits a b = .ok (a + b) := if_pos h

/-- What is added up is the sum, if it fits. -/
theorem add_eq_ok_iff {bits a b c : Nat} :
    add bits a b = .ok c ↔ a + b < 2 ^ bits ∧ c = a + b := by
  rw [add, fit]
  split <;> simp [*, eq_comm]

theorem add_eq_error_iff {bits a b : Nat} {stop : Stop} :
    add bits a b = .error stop ↔ 2 ^ bits ≤ a + b ∧ stop = .fault .overflow := by
  rw [add, fit, ← Nat.not_lt]
  split <;> simp [*, eq_comm]

theorem mul_eq_ok {bits a b : Nat} (h : a * b < 2 ^ bits) : mul bits a b = .ok (a * b) := if_pos h

theorem sub_eq_ok {a b : Nat} (h : b ≤ a) : sub a b = .ok (a - b) := if_pos h

theorem shiftLeft_eq_ok {bits v n : Nat} (hn : n < bits) (h : v * 2 ^ n < 2 ^ bits) :
    shiftLeft bits v n = .ok (v * 2 ^ n) := by
  rw [shiftLeft, if_pos hn, fit_eq_ok h]

theorem shiftLeft_one {bits n : Nat} (hn : n < bits) : shiftLeft bits 1 n = .ok (2 ^ n) := by
  have h : 1 * 2 ^ n < 2 ^ bits := by
    rw [Nat.one_mul]
    exact Nat.pow_lt_pow_right (by decide) hn
  rw [shiftLeft_eq_ok hn h, Nat.one_mul]

theorem or_eq_add {n b : Nat} (h : b < 2 ^ n) (a : Nat) : a * 2 ^ n ||| b = a * 2 ^ n + b := by
  rw [Nat.mul_comm, Nat.two_pow_add_eq_or_of_lt h]

theorem shiftRight_eq_ok {bits n : Nat} (hn : n < bits) (v : Nat) :
    shiftRight bits v n = .ok (v / 2 ^ n) := if_pos hn

theorem item_eq_ok {as : Array α} {i : Nat} {a : α} (h : as[i]? = some a) : item as i = .ok a := by
  rw [item, h]

theorem item_eq_getD {as : Array Nat} {i : Nat} (h : i < as.size) : item as i = .ok (as.getD i 0) := by
  rw [item_eq_ok (Array.getElem?_eq_getElem h), Array.getD_eq_getD_getElem?,
    Array.getElem?_eq_getElem h]
  rfl

theorem item_eq_ok_iff {as : Array Nat} {i a : Nat} :
    item as i = .ok a ↔ i < as.size ∧ as.getD i 0 = a := by
  by_cases h : i < as.size
  · rw [item_eq_getD h, Except.ok.injEq, and_iff_right h]
  · rw [item, Array.getElem?_eq_none (Nat.not_lt.1 h)]
    exact iff_of_false nofun fun ⟨hlt, _⟩ ↦ h hlt

theorem store_eq_ok {as : Array α} {i : Nat} (h : i < as.size) (a : α) :
    store as i a = .ok (as.setIfInBounds i a) := if_pos h

/-- A number that is there and does not get too large. -/
theorem increment_eq_ok {bits : Nat} {as : Array Nat} {i : Nat} (hi : i < as.size)
    (h : as.getD i 0 + 1 < 2 ^ bits) : increment bits as i = .ok (as.modify i (· + 1)) := by
  rw [increment, bind_of_eq_ok (item_eq_getD hi), bind_of_eq_ok (add_eq_ok h), store_eq_ok hi]
  congr 1
  apply Array.ext_getElem?
  intro j
  rw [Array.getElem?_setIfInBounds, Array.getElem?_modify]
  split
  · next hij =>
    subst hij
    simp [hi]
  · rfl

/-! ## Along lists -/

/-- A fold each of whose steps is there, given what the steps before it have left. -/
theorem foldlM_eq_ok {f : β → α → Except Stop β} {g : β → α → β} {P : β → List α → Prop}
    (hstep : ∀ ⦃b a as⦄, P b (a :: as) → f b a = .ok (g b a) ∧ P (g b a) as) {as : List α} {b : β}
    (h : P b as) : as.foldlM f b = .ok (as.foldl g b) := by
  induction as generalizing b with
  | nil => rfl
  | cons a as ih =>
    obtain ⟨ha, has⟩ := hstep h
    rw [List.foldlM_cons, bind_of_eq_ok ha, ih has, List.foldl_cons]

/-- Results for all elements. -/
theorem mapM_eq_ok {f : α → Except Stop β} {g : α → β} {as : List α}
    (h : ∀ a ∈ as, f a = .ok (g a)) : as.mapM f = .ok (as.map g) := by
  induction as with
  | nil => rfl
  | cons a as ih =>
    obtain ⟨ha, has⟩ := List.forall_mem_cons.1 h
    rw [List.mapM_cons, bind_of_eq_ok ha, bind_of_eq_ok (ih has)]
    rfl

/-- The sum of numbers, none of the sums on the way having more than `bits` bits. -/
def total (bits : Nat) (as : List Nat) : Except Stop Nat :=
  as.foldlM (add bits) 0

/-- A sum that fits. -/
theorem total_eq_ok {bits : Nat} {as : List Nat} (h : as.sum < 2 ^ bits) :
    total bits as = .ok as.sum := by
  have hstep : ∀ ⦃sum a : Nat⦄ ⦃as : List Nat⦄, sum + (a :: as).sum < 2 ^ bits →
      add bits sum a = .ok (sum + a) ∧ sum + a + as.sum < 2 ^ bits := by
    intro sum a as h
    rw [List.sum_cons] at h
    exact ⟨add_eq_ok (by omega), by omega⟩
  rw [total, foldlM_eq_ok (P := fun sum as ↦ sum + as.sum < 2 ^ bits) hstep (by rwa [Nat.zero_add]),
    List.sum_eq_foldl]

/-- A sum of short numbers fits if there are not too many of them. -/
theorem sum_lt_two_pow {as : List Nat} (hlength : as.length ≤ 2 ^ 32) (h : ∀ a ∈ as, a < 2 ^ 32) :
    as.sum < 2 ^ 64 := by
  have hsum : as.sum ≤ as.length * (2 ^ 32 - 1) := by
    clear hlength
    induction as with
    | nil => exact Nat.zero_le _
    | cons a as ih =>
      obtain ⟨ha, has⟩ := List.forall_mem_cons.1 h
      have := ih has
      rw [List.sum_cons, List.length_cons]
      omega
  omega

end Checked

end EntropyCoding
