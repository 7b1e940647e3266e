import EntropyCoding.Proofs.Ans.Normalize
import EntropyCoding.Segment.Models
import Mathlib.Data.List.Forall2

/-!
# Equal histograms

`==` compares totals and trimmed counts.  A histogram is `Balanced` if its total is the sum of its
counts, and balanced histograms are equal if they count every symbol as often as each other, however much
storage each of them has: `Histogram.Balanced.beq_iff`.

Whatever is built from a histogram is built from its trimmed counts.  So equal histograms have the same
models, and these are written in the same way: `writeModels_congr`.
-/

namespace EntropyCoding

namespace Histogram

variable {a b : Histogram}

/-! ## Trimmed counts -/

/-- The trimmed counts are determined by the count of each symbol. -/
theorem trimmed_congr (h : ∀ symbol, a.count symbol = b.count symbol) : a.trimmed = b.trimmed := by
  by_cases hb : b.trimmed = []
  · by_cases ha : a.trimmed = []
    · rw [ha, hb]
    · exact (trimmed_eq (endsPositive_trimmed ha) fun symbol ↦
        (h symbol).symm.trans (a.getD_trimmed symbol).symm).symm
  · exact trimmed_eq (endsPositive_trimmed hb) fun symbol ↦
      (h symbol).trans (b.getD_trimmed symbol).symm

/-! ## Equality -/

/-- The total is the sum of the counts. -/
def Balanced (h : Histogram) : Prop :=
  h.total = h.counts.toList.sum

theorem trimmed_eq_of_beq (h : a == b) : a.trimmed = b.trimmed :=
  beq_iff_eq.1 (Bool.and_eq_true_iff.1 h).2

/-- Balanced histograms are equal if they count the same. -/
theorem Balanced.beq_iff (ha : a.Balanced) (hb : b.Balanced) :
    a == b ↔ ∀ symbol, a.count symbol = b.count symbol := by
  constructor
  · intro h symbol
    rw [← getD_trimmed, ← getD_trimmed, trimmed_eq_of_beq h]
  · intro h
    have htrimmed := trimmed_congr h
    have htotal : a.total = b.total := by
      rw [ha, hb, ← sum_trimmed, ← sum_trimmed, htrimmed]
    exact Bool.and_eq_true_iff.2 ⟨beq_iff_eq.2 htotal, beq_iff_eq.2 htrimmed⟩

end Histogram

/-! ## What is built from histograms -/

theorem mapM_congr_of_forall₂ {α β : Type} {m : Type → Type} [Monad m] [LawfulMonad m]
    {R : α → α → Prop} {as bs : List α} (h : List.Forall₂ R as bs) (f : α → m β)
    (hf : ∀ ⦃a b⦄, R a b → f a = f b) : as.mapM f = bs.mapM f := by
  induction h with
  | nil => rfl
  | cons hone _ ih => rw [List.mapM_cons, List.mapM_cons, hf hone, ih]

section

variable {a b : Histogram} (h : a == b)
include h

/-- Equal histograms have the same distribution, which is written in the same way. -/
theorem writeAnsTable_congr (precision : Nat) :
    writeAnsTable precision a = writeAnsTable precision b := by
  unfold writeAnsTable AnsTable.ofHistogram
  rw [Histogram.trimmed_eq_of_beq h]

/-- Equal histograms have the same prefix code, which is written in the same way. -/
theorem writePrefixCode_congr : writePrefixCode a = writePrefixCode b := by
  unfold writePrefixCode PrefixCode.ofHistogram PrefixCode.countsOf Histogram.alphabetSize
  rw [Histogram.trimmed_eq_of_beq h]

end

/-- The models of histograms that are equal one by one are the same, with what is written for them; or
there is the same error. -/
theorem writeModels_congr {as bs : List Histogram} (h : List.Forall₂ (fun a b ↦ a == b) as bs)
    (config : SegmentConfig) : writeModels config as = writeModels config bs := by
  have hcodes := mapM_congr_of_forall₂ h writePrefixCode fun _ _ hone ↦ writePrefixCode_congr hone
  have htables := mapM_congr_of_forall₂ h (writeAnsTable config.precision) fun _ _ hone ↦
    writeAnsTable_congr hone config.precision
  unfold writeModels
  rw [hcodes, htables]

end EntropyCoding
