import EntropyCoding.Proofs.Histogram.Counts
import Mathlib.Algebra.BigOperators.Group.List.Basic

/-!
# Sums of histograms

Histograms form a commutative monoid: their sum is the sum symbol by symbol, with the longer storage of
the two, and the histogram without storage is its unit.

Counting a symbol is adding the histogram of that symbol alone, `Histogram.Aligned.add_eq`.  The storage
is the same only if it is in whole steps, as it is in every histogram that has grown by counting.
-/

namespace EntropyCoding

namespace Histogram

/-! ## The monoid -/

/-- Histograms are equal if they have the same storage, the same counts and the same total. -/
theorem ext_count {a b : Histogram} (hsize : a.counts.size = b.counts.size)
    (hcount : ∀ symbol, a.count symbol = b.count symbol) (htotal : a.total = b.total) : a = b := by
  have hcounts : a.counts = b.counts := by
    refine Array.ext hsize fun i ha hb ↦ ?_
    have hi := hcount i
    rwa [count, count, Array.getD_eq_getD_getElem?, Array.getD_eq_getD_getElem?,
      Array.getElem?_eq_getElem ha, Array.getElem?_eq_getElem hb] at hi
  cases a
  cases b
  exact congr (congrArg Histogram.mk hcounts) htotal

@[simp] theorem size_combine (a b : Histogram) :
    (a.combine b).counts.size = max a.counts.size b.counts.size :=
  Array.size_ofFn

@[simp] theorem count_empty (symbol : Nat) : empty.count symbol = 0 := rfl

theorem combine_comm (a b : Histogram) : a.combine b = b.combine a := by
  refine ext_count ?_ (fun symbol ↦ ?_) ?_
  · rw [size_combine, size_combine, Nat.max_comm]
  · rw [count_combine, count_combine, Nat.add_comm]
  · rw [total_combine, total_combine, Nat.add_comm]

/-- The order of additions does not matter. -/
theorem combine_assoc (a b c : Histogram) :
    (a.combine b).combine c = a.combine (b.combine c) := by
  refine ext_count ?_ (fun symbol ↦ ?_) ?_
  · simp only [size_combine, Nat.max_assoc]
  · simp only [count_combine, Nat.add_assoc]
  · simp only [total_combine, Nat.add_assoc]

/-- Adding to nothing changes nothing. -/
theorem empty_combine (h : Histogram) : empty.combine h = h := by
  refine ext_count ?_ (fun symbol ↦ ?_) ?_
  · rw [size_combine]
    exact Nat.zero_max _
  · rw [count_combine, count_empty, Nat.zero_add]
  · rw [total_combine]
    exact Nat.zero_add _

instance : Add Histogram := ⟨combine⟩

instance : Zero Histogram := ⟨empty⟩

instance : AddCommMonoid Histogram where
  add_assoc := combine_assoc
  add_comm := combine_comm
  zero_add := empty_combine
  add_zero h := (combine_comm h empty).trans (empty_combine h)
  nsmul := nsmulRec

theorem combine_eq_add (a b : Histogram) : a.combine b = a + b := rfl

@[simp] theorem isEmpty_add (a b : Histogram) : (a + b).isEmpty = (a.isEmpty && b.isEmpty) := by
  rw [← combine_eq_add, Bool.eq_iff_iff, Bool.and_eq_true]
  simp only [isEmpty, beq_iff_eq, total_combine, Nat.add_eq_zero_iff]

theorem isEmpty_sum (hs : List Histogram) : hs.sum.isEmpty = hs.all isEmpty := by
  induction hs with
  | nil => rfl
  | cons h hs ih => rw [List.sum_cons, isEmpty_add, ih, List.all_cons]

theorem sum_eq_zero_of_isEmpty {hs : List Histogram} (hall : ∀ h ∈ hs, h.isEmpty → h = 0)
    (hempty : hs.sum.isEmpty) : hs.sum = 0 := by
  rw [isEmpty_sum, List.all_eq_true] at hempty
  exact List.sum_eq_zero fun h hmem ↦ hall h hmem (hempty h hmem)

/-- Histograms that are empty add nothing to a sum if they have no storage. -/
theorem sum_filter_isEmpty {hs : List Histogram} (hall : ∀ h ∈ hs, h.isEmpty → h = 0) :
    (hs.filter (!·.isEmpty)).sum = hs.sum := by
  induction hs with
  | nil => rfl
  | cons h hs ih =>
    obtain ⟨hhead, htail⟩ := List.forall_mem_cons.1 hall
    rw [List.filter_cons, List.sum_cons, ← ih htail]
    cases hempty : h.isEmpty with
    | true => rw [hhead hempty, zero_add]; rfl
    | false => exact List.sum_cons

/-! ## Counting as a sum -/

/-- The histogram of one symbol that occurs once. -/
def single (symbol : Nat) : Histogram :=
  empty.add symbol

/-- The storage is in whole steps. -/
def Aligned (h : Histogram) : Prop :=
  storageStep ∣ h.counts.size

theorem aligned_zero : (0 : Histogram).Aligned :=
  Nat.dvd_zero _

theorem size_add (h : Histogram) (symbol : Nat) : (h.add symbol).counts.size =
    if symbol < h.counts.size then h.counts.size else storageFor symbol := by
  rw [add_eq, Array.size_modify, size_withRoom]

theorem size_single (symbol : Nat) : (single symbol).counts.size = storageFor symbol :=
  (size_add empty symbol).trans (if_neg (Nat.not_lt_zero symbol))

/-- Storage grows in whole steps. -/
theorem Aligned.add {h : Histogram} (ha : h.Aligned) (symbol : Nat) : (h.add symbol).Aligned := by
  unfold Aligned at *
  rw [size_add]
  split
  · exact ha
  · exact Nat.dvd_mul_left _ _

theorem Aligned.storageFor_le {h : Histogram} (ha : h.Aligned) {symbol : Nat}
    (hlt : symbol < h.counts.size) : storageFor symbol ≤ h.counts.size := by
  obtain ⟨steps, hsteps⟩ := ha
  unfold storageFor
  unfold storageStep at *
  omega

/-- Counting a symbol is adding the histogram of that symbol alone. -/
theorem Aligned.add_eq {h : Histogram} (ha : h.Aligned) (symbol : Nat) :
    h.add symbol = h + single symbol := by
  rw [← combine_eq_add]
  refine ext_count ?_ (fun symbol' ↦ ?_) ?_
  · rw [size_combine, size_single, size_add]
    split
    · next hlt => exact (Nat.max_eq_left (ha.storageFor_le hlt)).symm
    · next hge =>
      have := lt_storageFor symbol
      omega
  · rw [count_combine, single, count_add, count_add, count_empty, Nat.zero_add]
  · rw [total_combine, single, total_add, total_add]
    rfl

theorem isEmpty_single (symbol : Nat) : (single symbol).isEmpty = false :=
  (Counts.add_self empty symbol).isEmpty_eq_false

end Histogram

end EntropyCoding
