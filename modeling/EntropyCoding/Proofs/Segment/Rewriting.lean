import EntropyCoding.Proofs.Ans.Normalize
import EntropyCoding.Proofs.Segment.Models
import Mathlib.Data.List.Forall2

/-!
# Distributions that are written again

The reader accepts many forms of a distribution, and the writer has one for each.  Whatever form has been
read, the frequencies fill the table and end with one that is not zero: so normalizing does not change
them, and the histograms that count them have the same distributions,
`AnsTable.Valid.ofHistogram_eq`.  The models of a segment are therefore not changed by writing them
again, `writeModels_readModels`.
-/

namespace EntropyCoding

/-- The histogram counts the frequencies of the distribution. -/
def AnsTable.CountedBy (t : AnsTable) (h : Histogram) : Prop :=
  ∀ symbol, h.count symbol = t.freq symbol

/-- Distributions are built again from histograms that count their frequencies. -/
theorem exists_mapM_writeAnsTable {precision : Nat} {tables : List AnsTable}
    {histograms : List Histogram} (hcounts : List.Forall₂ AnsTable.CountedBy tables histograms)
    (htables : ∀ t ∈ tables, t.Valid ∧ t.precision = precision ∧ EndsPositive t.freqs.toList)
    (w : BitWriter) : ∃ w', histograms.mapM (writeAnsTable precision) w = .ok tables w' := by
  induction hcounts generalizing w with
  | nil => exact ⟨w, rfl⟩
  | @cons t h tables histograms hcount hcounts ih =>
    obtain ⟨⟨hvalid, rfl, hend⟩, htables⟩ := List.forall_mem_cons.1 htables
    have hone : writeAnsTable t.precision h w = .ok t (w.writeFields t.fields) :=
      writeAnsTable_eq_ok_iff.2 ⟨hvalid.ofHistogram_eq hend hcount, rfl⟩
    obtain ⟨w', hrest⟩ := ih htables (w.writeFields t.fields)
    exact ⟨w', mapM_cons_eq_ok_iff.2 ⟨t, _, tables, hone, hrest, rfl⟩⟩

/-- A configuration is valid if its precision can be announced and its budget is one of clusters. -/
theorem validate_eq_ok {config : SegmentConfig}
    (hprecision : leastStreamPrecision ≤ config.precision ∧
      config.precision ≤ largestStreamPrecision)
    (hbudget : isClusterBudget config.budget) : config.validate = .ok () := by
  rw [SegmentConfig.validate, if_pos hprecision, if_pos hbudget]

/-- Every distribution that has been read, in any of the forms that the reader accepts, fills its table,
is not too long, ends with a frequency that is not zero, and is what its frequencies are normalized to;
and histograms that count the frequencies read are written, at the same precision and with the same
split, as the very models that have been read. -/
theorem writeModels_readModels {count : Nat} {models : SegmentModels} {tables : Array AnsTable}
    {r r' : BitReader} (h : readModels count r = .ok models r') (htables : models.table = .ans tables) :
    (∀ t ∈ tables, t.freqs.toList.sum = 2 ^ models.precision ∧ t.freqs.toList.length ≤ 2 ^ 16 ∧
      EndsPositive t.freqs.toList ∧
        normalize t.freqs.toList models.precision = .ok t.freqs.toList) ∧
    ∀ (config : SegmentConfig) (histograms : List Histogram) (w : BitWriter),
      config.usesPrefixCodes = false → config.precision = models.precision →
      config.split = models.split → isClusterBudget config.budget →
      List.Forall₂ AnsTable.CountedBy tables.toList histograms →
        ∃ w', writeModels config histograms w = .ok models w' := by
  obtain ⟨hprecision, hvalid, hends⟩ := sendable_of_readModels h
  obtain ⟨precision, split, table⟩ := models
  subst htables
  have hall : ∀ t ∈ tables.toList,
      t.Valid ∧ t.precision = precision ∧ EndsPositive t.freqs.toList := by
    intro t ht
    have ht := Array.mem_toList_iff.1 ht
    exact ⟨hvalid t ht, hends tables rfl t ht⟩
  constructor
  · intro t ht
    obtain ⟨ht, rfl, hend⟩ := hall t (Array.mem_toList_iff.2 ht)
    obtain ⟨hisprecision, hlength, hsum, -⟩ := AnsTable.ofFrequencies_eq_ok_iff.1 ht
    exact ⟨hsum, hlength, hend, normalize_eq_self hisprecision hsum⟩
  · rintro ⟨usesPrefixCodes, _, _, clusterLimit?⟩ histograms w rfl rfl rfl hbudget hcounts
    obtain ⟨w', hwrite⟩ := exists_mapM_writeAnsTable hcounts hall _
    refine ⟨w', writeModels_eq_ok_iff.2 ⟨validate_eq_ok hprecision hbudget, _, ?_, rfl⟩⟩
    exact map_eq_ok_iff.2 ⟨tables.toList, hwrite, rfl⟩

/-- Two distributions in forms that are not written: two symbols with the larger one first, and
frequencies with an empty run. -/
theorem writeModels_readModels_two : ∃ models r' w',
    readModels 2 (.ofBytes #[64, 98, 97, 64, 9, 231, 7, 138, 0]) = .ok models r' ∧
      writeModels { precision := 5 } [.ofCounts [0, 12, 0, 20], .ofCounts [7, 20, 5]] .empty =
        .ok models w' := by
  let table (freqs : List Nat) : AnsTable :=
    { precision := 5
      freqs := freqs.toArray
      starts := AnsTable.startsOf freqs
      inverses := (freqs.map (AnsTable.reciprocal (AnsTable.reciprocalBits 5))).toArray
      slots := AnsTable.slotsOf freqs }
  let models : SegmentModels :=
    { precision := 5, split := default, table := .ans #[table [0, 12, 0, 20], table [7, 20, 5]] }
  have hrun : (readModels 2).run' (.ofBytes #[64, 98, 97, 64, 9, 231, 7, 138, 0]) = some models := by
    decide +kernel
  obtain ⟨r', hread⟩ : ∃ r',
      readModels 2 (.ofBytes #[64, 98, 97, 64, 9, 231, 7, 138, 0]) = .ok models r' := by
    unfold EStateM.run' at hrun
    split at hrun
    · next h =>
      cases hrun
      exact ⟨_, h⟩
    · cases hrun
  have hcounts : List.Forall₂ AnsTable.CountedBy [table [0, 12, 0, 20], table [7, 20, 5]]
      [.ofCounts [0, 12, 0, 20], .ofCounts [7, 20, 5]] :=
    .cons (fun _ ↦ rfl) (.cons (fun _ ↦ rfl) .nil)
  obtain ⟨w', hwrite⟩ := (writeModels_readModels hread rfl).2 { precision := 5 } _ .empty rfl rfl rfl
    (by decide) hcounts
  exact ⟨models, r', w', hread, hwrite⟩

end EntropyCoding
