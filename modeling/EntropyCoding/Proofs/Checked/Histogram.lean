import EntropyCoding.Proofs.Checked.Arithmetic
import EntropyCoding.Proofs.Histogram.Changes

/-!
# Checked histograms

Counts have 32 bits, totals and sizes of storage have 64.  A histogram `Fits` if its counts do and there
is storage only for symbols of 32 bits.  Then there are at most `2 ^ 32` counts, and their total has 64
bits, `Histogram.Fits.total_lt`.

As long as the histograms along a run of changes fit, checked changes do what the changes do:
`Checked.changeAll_eq_ok`.  What holds of all histograms along such runs is summed up in
`HistogramChange.run_interchangeable`.
-/

namespace EntropyCoding

/-! ## Histograms that fit -/

/-- A histogram of counts of 32 bits for symbols of 32 bits. -/
structure Histogram.Fits (h : Histogram) : Prop where
  /-- There is no storage for more symbols than 32 bits can tell apart. -/
  size_le : h.counts.size ≤ 2 ^ 32
  /-- Each count has 32 bits. -/
  lt_of_mem : ∀ c ∈ h.counts.toList, c < 2 ^ 32

instance : DecidablePred Histogram.Fits := fun h ↦
  decidable_of_iff (h.counts.size ≤ 2 ^ 32 ∧ ∀ c ∈ h.counts.toList, c < 2 ^ 32)
    ⟨fun ⟨hsize, hcounts⟩ ↦ ⟨hsize, hcounts⟩, fun hfits ↦ ⟨hfits.size_le, hfits.lt_of_mem⟩⟩

namespace Histogram.Fits

variable {h : Histogram} (hfits : h.Fits)
include hfits

theorem count_lt (symbol : Nat) : h.count symbol < 2 ^ 32 := by
  by_cases hs : symbol < h.counts.size
  · rw [count, Array.getD_eq_getD_getElem?, Array.getElem?_eq_getElem hs]
    exact hfits.lt_of_mem _ (Array.mem_toList_iff.2 (Array.getElem_mem hs))
  · rw [count, Array.getD_eq_getD_getElem?, Array.getElem?_eq_none (Nat.not_lt.1 hs)]
    exact Nat.two_pow_pos 32

/-- The total has 64 bits. -/
theorem total_lt (hbalanced : h.Balanced) : h.total < 2 ^ 64 := by
  rw [hbalanced]
  exact Checked.sum_lt_two_pow (Array.length_toList ▸ hfits.size_le) hfits.lt_of_mem

end Histogram.Fits

/-- Every histogram that changes along a run fits afterwards. -/
def HistogramChange.AllFit (hs : Nat → Histogram) : List HistogramChange → Prop
  | [] => True
  | c :: changes => (c.result hs).Fits ∧ AllFit (c.apply hs) changes

/-- Whether all histograms fit is found out by making the changes. -/
instance HistogramChange.decidableAllFit :
    (hs : Nat → Histogram) → (changes : List HistogramChange) → Decidable (AllFit hs changes)
  | _, [] => inferInstanceAs (Decidable True)
  | hs, c :: changes =>
    have := decidableAllFit (c.apply hs) changes
    inferInstanceAs (Decidable (_ ∧ _))

namespace Checked

/-! ## Counting a symbol -/

def storageFor (symbol : Nat) : Except Stop Nat := do
  let least ← add 64 symbol 1
  let steps := least / Histogram.storageStep + if least % Histogram.storageStep = 0 then 0 else 1
  mul 64 steps Histogram.storageStep

def withRoom (h : Histogram) (symbol : Nat) : Except Stop Histogram :=
  if symbol < h.counts.size then .ok h else h.grow <$> storageFor symbol

def addSymbol (h : Histogram) (symbol : Nat) : Except Stop Histogram := do
  let grown ← withRoom h symbol
  let counts ← increment 32 grown.counts symbol
  let total ← add 64 grown.total 1
  return { counts, total }

/-- Storage that fits. -/
theorem storageFor_eq_ok {symbol : Nat} (h : Histogram.storageFor symbol < 2 ^ 64) :
    storageFor symbol = .ok (Histogram.storageFor symbol) := by
  have hlt := Histogram.lt_storageFor symbol
  have hsteps : (symbol + 1) / Histogram.storageStep +
      (if (symbol + 1) % Histogram.storageStep = 0 then 0 else 1) =
        symbol / Histogram.storageStep + 1 := by
    unfold Histogram.storageStep
    split <;> omega
  rw [storageFor, bind_of_eq_ok (add_eq_ok (by omega))]
  dsimp only
  rw [hsteps, mul_eq_ok h, Histogram.storageFor]

/-- Room is made if it fits. -/
theorem withRoom_eq_ok {h : Histogram} {symbol : Nat}
    (hsize : (h.withRoom symbol).counts.size < 2 ^ 64) :
    withRoom h symbol = .ok (h.withRoom symbol) := by
  rw [Histogram.size_withRoom] at hsize
  unfold withRoom Histogram.withRoom
  split
  · rfl
  · next hge =>
    rw [if_neg hge] at hsize
    rw [storageFor_eq_ok hsize]
    rfl

/-- A symbol is counted if the histogram fits afterwards. -/
theorem addSymbol_eq_ok {h : Histogram} (hbalanced : h.Balanced) {symbol : Nat}
    (hfits : (h.add symbol).Fits) : addSymbol h symbol = .ok (h.add symbol) := by
  have hsize : (h.withRoom symbol).counts.size < 2 ^ 64 := by
    have := hfits.size_le
    rw [h.add_eq, Array.size_modify] at this
    exact Nat.lt_of_le_of_lt this (by decide)
  have hcount : (h.withRoom symbol).count symbol + 1 < 2 ^ 32 := by
    have := hfits.count_lt symbol
    rwa [Histogram.count_add, if_pos rfl, ← h.count_withRoom symbol] at this
  have htotal : (h.withRoom symbol).total + 1 < 2 ^ 64 := by
    rw [Histogram.total_withRoom, ← Histogram.total_add]
    exact hfits.total_lt (hbalanced.add symbol)
  rw [addSymbol, bind_of_eq_ok (withRoom_eq_ok hsize),
    bind_of_eq_ok (increment_eq_ok (h.lt_size_withRoom symbol) hcount),
    bind_of_eq_ok (add_eq_ok htotal), h.add_eq, h.total_withRoom]
  rfl

/-! ## Adding histograms -/

def addCounts (own more : List Nat) : Except Stop (List Nat) := do
  let sums ← (own.zip more).mapM fun (count, extra) ↦ add 32 count extra
  return sums ++ own.drop more.length

def addHistogram (h other : Histogram) : Except Stop Histogram := do
  let sums ← addCounts (h.grow other.counts.size).counts.toList other.counts.toList
  let total ← add 64 h.total other.total
  return { counts := sums.toArray, total }

/-- Numbers are added where there are two of them. -/
theorem getD_zip_append_drop {own more : List Nat} (hle : more.length ≤ own.length) (i : Nat) :
    ((own.zip more).map (fun pair ↦ pair.1 + pair.2) ++ own.drop more.length).getD i 0 =
      own.getD i 0 + more.getD i 0 := by
  induction more generalizing own i with
  | nil =>
    rw [List.zip_nil_right]
    rfl
  | cons b more ih =>
    cases own with
    | nil => cases hle
    | cons a own =>
      cases i with
      | zero => rfl
      | succ i => exact ih (Nat.le_of_succ_le_succ hle) i

/-- Counts are added one by one if all sums fit. -/
theorem exists_addCounts {own more : List Nat} (hle : more.length ≤ own.length)
    (h : ∀ i, own.getD i 0 + more.getD i 0 < 2 ^ 32) : ∃ sums, addCounts own more = .ok sums ∧
      sums.length = own.length ∧ ∀ i, sums.getD i 0 = own.getD i 0 + more.getD i 0 := by
  have hsums : (own.zip more).mapM (fun pair ↦ add 32 pair.1 pair.2) =
      .ok ((own.zip more).map fun pair ↦ pair.1 + pair.2) := by
    refine mapM_eq_ok fun pair hpair ↦ add_eq_ok ?_
    obtain ⟨i, hi, rfl⟩ := List.mem_iff_getElem.1 hpair
    obtain ⟨hown, hmore⟩ := Nat.lt_min.1 (List.length_zip ▸ hi)
    have := h i
    rw [List.getD_eq_getElem?_getD, List.getD_eq_getElem?_getD, List.getElem?_eq_getElem hown,
      List.getElem?_eq_getElem hmore] at this
    rwa [List.getElem_zip]
  refine ⟨_, bind_of_eq_ok hsums _, ?_, getD_zip_append_drop hle⟩
  rw [List.length_append, List.length_map, List.length_zip, List.length_drop]
  omega

/-- Histograms are added if the sum fits. -/
theorem addHistogram_eq_ok {h other : Histogram} (hh : h.Balanced) (hother : other.Balanced)
    (hfits : (h.combine other).Fits) : addHistogram h other = .ok (h.combine other) := by
  have hlength : (h.grow other.counts.size).counts.toList.length =
      max h.counts.size other.counts.size :=
    Array.length_toList.trans (h.size_grow other.counts.size)
  have hgetD (symbol : Nat) : (h.grow other.counts.size).counts.toList.getD symbol 0 +
      other.counts.toList.getD symbol 0 = (h.combine other).count symbol := by
    rw [Histogram.getD_counts, Histogram.getD_counts, Histogram.count_grow, Histogram.count_combine]
  have hle : other.counts.toList.length ≤ (h.grow other.counts.size).counts.toList.length := by
    rw [hlength, Array.length_toList]
    exact Nat.le_max_right _ _
  obtain ⟨sums, hsums, hlength', hgetD'⟩ := exists_addCounts hle fun symbol ↦
    (hgetD symbol).trans_lt (hfits.count_lt symbol)
  have htotal := hfits.total_lt (hh.combine hother)
  rw [addHistogram, bind_of_eq_ok hsums, bind_of_eq_ok (add_eq_ok htotal)]
  refine congrArg Except.ok (Histogram.ext_count ?_ (fun symbol ↦ ?_) rfl)
  · rw [Histogram.size_combine, ← hlength, ← hlength', List.size_toArray]
  · rw [← hgetD, ← hgetD', ← Histogram.getD_counts]

/-! ## Runs -/

/-- What a histogram becomes. -/
def changed (hs : Nat → Histogram) : HistogramChange → Except Stop Histogram
  | .add i symbol => addSymbol (hs i) symbol
  | .addHistogram i other => addHistogram (hs i) (hs other)
  | .combine _ left right => addHistogram (hs left) (hs right)
  | .ofCounts _ counts => do return { counts := counts.toArray, total := ← total 64 counts }
  | .clear _ => .ok .empty

def change (hs : Nat → Histogram) (c : HistogramChange) : Except Stop (Nat → Histogram) := do
  return Function.update hs c.target (← changed hs c)

/-- The histograms after some changes, one after another. -/
def changeAll (hs : Nat → Histogram) (changes : List HistogramChange) :
    Except Stop (Nat → Histogram) :=
  changes.foldlM change hs

section

variable {hs : Nat → Histogram} (hbalanced : ∀ i, (hs i).Balanced)
include hbalanced

/-- A change is made if the histogram fits afterwards. -/
theorem changed_eq_ok {c : HistogramChange} (hfits : (c.result hs).Fits) :
    changed hs c = .ok (c.result hs) := by
  cases c with
  | add i symbol => exact addSymbol_eq_ok (hbalanced i) hfits
  | addHistogram i other => exact addHistogram_eq_ok (hbalanced i) (hbalanced other) hfits
  | combine i left right => exact addHistogram_eq_ok (hbalanced left) (hbalanced right) hfits
  | ofCounts i counts =>
    have htotal := hfits.total_lt (Histogram.balanced_ofCounts counts)
    exact bind_of_eq_ok (total_eq_ok htotal) _
  | clear i => rfl

/-- Changes are made one after another as long as the histograms fit. -/
theorem changeAll_eq_ok {changes : List HistogramChange}
    (hfit : HistogramChange.AllFit hs changes) :
    changeAll hs changes = .ok (HistogramChange.run hs changes) := by
  refine foldlM_eq_ok (P := fun hs changes ↦
    (∀ i, (hs i).Balanced) ∧ HistogramChange.AllFit hs changes) ?_ ⟨hbalanced, hfit⟩
  rintro hs c changes ⟨hbalanced, hresult, hrest⟩
  exact ⟨bind_of_eq_ok (changed_eq_ok hbalanced hresult) _,
    HistogramChange.balanced_apply hbalanced c, hrest⟩

end

end Checked

namespace HistogramChange

/-! ## Histograms along runs -/

/-- Along every run of changes the total of each histogram is the sum of its counts, and histograms from
any two runs are equal just if they count every symbol as often as each other.  Sums of histograms are
the same, down to their storage, in whatever order and with whatever parentheses they are taken, and
adding to the empty histogram changes nothing; the histogram of two lists of symbols, one behind the
other, is the sum of the histograms of the lists.  For histograms that are equal one by one the same
models are made and the same bits written, or there is the same error.  Nothing gets too large for its
width as long as each count has 32 bits, and so have the symbols. -/
theorem run_interchangeable (changes : List HistogramChange) :
    (∀ i, (run start changes i).total = (run start changes i).counts.toList.sum) ∧
      (∀ others i j, run start changes i == run start others j ↔
        ∀ symbol, (run start changes i).count symbol = (run start others j).count symbol) ∧
      (∀ a b c : Histogram, a.combine b = b.combine a ∧
        (a.combine b).combine c = a.combine (b.combine c) ∧ Histogram.empty.combine a = a) ∧
      (∀ i (xs ys : List Nat), run start ((xs ++ ys).map (.add i)) i =
        (run start (xs.map (.add i)) i).combine (run start (ys.map (.add i)) i)) ∧
      (∀ as bs, List.Forall₂ (fun a b ↦ a == b) as bs →
        ∀ config w, writeModels config as w = writeModels config bs w) ∧
      (AllFit start changes → Checked.changeAll start changes = .ok (run start changes)) :=
  ⟨balanced_run changes,
    fun others i j ↦ (balanced_run changes i).beq_iff (balanced_run others j),
    fun a b c ↦ ⟨a.combine_comm b, a.combine_assoc b c, a.empty_combine⟩,
    run_map_add_append,
    fun _ _ hequal config w ↦ congrFun (writeModels_congr hequal config) w,
    Checked.changeAll_eq_ok fun _ ↦ Histogram.balanced_empty⟩

/-- Two histograms of the symbols 1 and 9.  One has grown in steps when they were counted, the other one
is the sum of given counts. -/
theorem run_interchangeable_padded : ∃ hs : Nat → Histogram,
    Checked.changeAll start [.add 0 9, .add 0 1, .ofCounts 1 [0, 1],
        .ofCounts 2 [0, 0, 0, 0, 0, 0, 0, 0, 0, 1], .combine 3 1 2, .addHistogram 4 3, .clear 2] =
          .ok hs ∧
      (hs 0).counts.size = 16 ∧ (hs 4).counts.size = 10 ∧ hs 0 == hs 4 ∧
      ∀ w, writeModels {} [hs 0, hs 2] w = writeModels {} [hs 4, hs 2] w := by
  obtain ⟨-, -, -, -, hwrite, hchecked⟩ := run_interchangeable
    [.add 0 9, .add 0 1, .ofCounts 1 [0, 1], .ofCounts 2 [0, 0, 0, 0, 0, 0, 0, 0, 0, 1],
      .combine 3 1 2, .addHistogram 4 3, .clear 2]
  exact ⟨_, hchecked (by decide), rfl, rfl, rfl, hwrite _ _ (.cons rfl (.cons rfl .nil)) _⟩

end HistogramChange

end EntropyCoding
