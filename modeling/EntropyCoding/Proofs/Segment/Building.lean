import EntropyCoding.Proofs.Ans.Normalize
import EntropyCoding.Proofs.Prefix.Coverage
import EntropyCoding.Proofs.Segment.Models

/-!
# Which models can be built

A model can be built for a histogram if the alphabet can be described and the symbols in use have
room in the table or in the code, `SegmentConfig.Fits`.  Nothing else is in the way of writing models:
`fits_of_writeModels` and `exists_of_writeModels_eq_error`.

Whatever a histogram counts is coded by the model built for it, in every state that a range coder can
be in: `covers_of_writeModels`.
-/

namespace EntropyCoding

/-- True for the errors that refuse the alphabet of a histogram. -/
def Error.isOfAlphabet : Error → Bool
  | alphabetTooLarge _ _ | alphabetSizeExceeded _ _ => true
  | _ => false

/-- A model of the family of the configuration has room for the histogram. -/
structure SegmentConfig.Fits (config : SegmentConfig) (h : Histogram) : Prop where
  /-- The alphabet can be described. -/
  alphabetSize_le : h.alphabetSize ≤ maxAlphabet
  /-- A prefix code has room for as many symbols as its tree can have leaves, a distribution for as
  many as its table has slots. -/
  used_le : h.used ≤ if config.usesPrefixCodes then 2 ^ maxDepth else 2 ^ config.precision

/-! ## One model -/

/-- A distribution is refused only because of the alphabet. -/
theorem writeAnsTable_eq_error {precision : Nat} {h : Histogram} {w w' : BitWriter} {e : Error}
    (hprecision : isTablePrecision precision) (herror : writeAnsTable precision h w = .error e w') :
    e.isOfAlphabet ∧ ¬ (h.alphabetSize ≤ maxAlphabet ∧ h.used ≤ 2 ^ precision) := by
  rcases bind_eq_error_iff.1 herror with hbuild | ⟨t, _, -, hput⟩
  · obtain ⟨htable, -⟩ := ofExcept_eq_error_iff.1 hbuild
    rcases AnsTable.ofHistogram_eq_error hprecision htable with ⟨hused, rfl⟩ | ⟨hsize, rfl⟩
    · exact ⟨rfl, fun hfits ↦ absurd hused (Nat.not_lt.2 hfits.2)⟩
    · exact ⟨rfl, fun hfits ↦ absurd hsize (Nat.not_lt.2 hfits.1)⟩
  · cases hput

/-- A prefix code is refused only because of the alphabet. -/
theorem writePrefixCode_eq_error {h : Histogram} {w w' : BitWriter} {e : Error}
    (herror : writePrefixCode h w = .error e w') :
    e.isOfAlphabet ∧ ¬ (h.alphabetSize ≤ maxAlphabet ∧ h.used ≤ 2 ^ maxDepth) := by
  unfold writePrefixCode at herror
  by_cases hsize : maxAlphabet < h.alphabetSize
  · rw [if_pos hsize] at herror
    cases herror
    exact ⟨rfl, fun hfits ↦ absurd hsize (Nat.not_lt.2 hfits.1)⟩
  · rw [if_neg hsize] at herror
    rcases bind_eq_error_iff.1 herror with hbuild | ⟨c, _, -, hput⟩
    · obtain ⟨hcode, -⟩ := ofExcept_eq_error_iff.1 hbuild
      obtain ⟨hused, rfl⟩ := PrefixCode.ofHistogram_eq_error hcode
      exact ⟨rfl, fun hfits ↦ absurd hused (Nat.not_lt.2 hfits.2)⟩
    · cases hput

/-! ## The models of a segment -/

section

variable {config : SegmentConfig} {histograms : List Histogram}

/-- The tables of a configuration in range have a precision in range. -/
theorem isTablePrecision_of_validate (h : config.validate = .ok ()) :
    isTablePrecision config.precision := by
  obtain ⟨hleast, hlargest⟩ := precision_mem_of_validate h
  unfold leastStreamPrecision at hleast
  unfold largestStreamPrecision at hlargest
  rw [isTablePrecision, Bool.and_eq_true, decide_eq_true_eq, decide_eq_true_eq, maxPrecision]
  omega

/-- Models are built only for histograms that have room. -/
theorem fits_of_writeModels {models : SegmentModels} {w w' : BitWriter}
    (h : writeModels config histograms w = .ok models w') :
    ∀ hist ∈ histograms, config.Fits hist := by
  intro hist hmem
  obtain ⟨i, hget⟩ := List.mem_iff_getElem?.1 hmem
  obtain ⟨-, table, htable, -⟩ := writeModels_eq_ok_iff.1 h
  unfold writeTable at htable
  split at htable
  · next huses =>
    obtain ⟨codes, hcodes, -⟩ := map_eq_ok_iff.1 htable
    obtain ⟨c, _, _, -, hone⟩ := exists_of_mapM_eq_ok hcodes hget
    obtain ⟨hsize, hcode, -⟩ := writePrefixCode_eq_ok_iff.1 hone
    refine ⟨hsize, ?_⟩
    rw [if_pos huses]
    exact PrefixCode.used_le_of_ofHistogram hcode
  · next huses =>
    obtain ⟨tables, htables, -⟩ := map_eq_ok_iff.1 htable
    obtain ⟨t, _, _, -, hone⟩ := exists_of_mapM_eq_ok htables hget
    obtain ⟨hused, hsize⟩ := AnsTable.le_of_ofHistogram (writeAnsTable_eq_ok_iff.1 hone).1
    refine ⟨hsize, ?_⟩
    rwa [if_neg huses]

/-- Models are refused only because of the alphabet of a histogram that does not have room. -/
theorem exists_of_writeTable_eq_error {w w' : BitWriter} {e : Error}
    (hprecision : isTablePrecision config.precision)
    (h : writeTable config histograms w = .error e w') :
    e.isOfAlphabet ∧ ∃ hist ∈ histograms, ¬ config.Fits hist := by
  unfold writeTable at h
  split at h
  · next huses =>
    obtain ⟨hist, hmem, _, hone⟩ := exists_of_mapM_eq_error (map_eq_error_iff.1 h)
    obtain ⟨hkind, hroom⟩ := writePrefixCode_eq_error hone
    refine ⟨hkind, hist, hmem, fun ⟨hsize, hused⟩ ↦ hroom ⟨hsize, ?_⟩⟩
    rwa [if_pos huses] at hused
  · next huses =>
    obtain ⟨hist, hmem, _, hone⟩ := exists_of_mapM_eq_error (map_eq_error_iff.1 h)
    obtain ⟨hkind, hroom⟩ := writeAnsTable_eq_error hprecision hone
    refine ⟨hkind, hist, hmem, fun ⟨hsize, hused⟩ ↦ hroom ⟨hsize, ?_⟩⟩
    rwa [if_neg huses] at hused

/-- With a configuration in range nothing else can fail when models are written. -/
theorem exists_of_writeModels_eq_error {w w' : BitWriter} {e : Error}
    (hconfig : config.validate = .ok ()) (h : writeModels config histograms w = .error e w') :
    e.isOfAlphabet ∧ ∃ hist ∈ histograms, ¬ config.Fits hist := by
  rw [writeModels_eq, hconfig] at h
  rcases bind_eq_error_iff.1 h with hvalidate | ⟨_, _, -, h⟩
  · cases hvalidate
  rcases bind_eq_error_iff.1 h with hput | ⟨_, _, -, h⟩
  · cases hput
  rcases bind_eq_error_iff.1 h with htable | ⟨_, _, -, h⟩
  · exact exists_of_writeTable_eq_error (isTablePrecision_of_validate hconfig) htable
  · cases h

end

/-! ## What models code -/

/-- The model of a cluster codes the symbol, whatever state is to be reached. -/
def ModelTable.Covers (table : ModelTable) (cluster symbol : Nat) : Prop :=
  ∀ s', IsState s' → ∃ s fields, CodesSymbol table cluster symbol s fields s'

/-- The model built for a histogram codes every symbol that the histogram counts. -/
theorem covers_of_writeModels {config : SegmentConfig} {histograms : List Histogram}
    {models : SegmentModels} {w w' : BitWriter}
    (h : writeModels config histograms w = .ok models w') {cluster symbol : Nat} {hist : Histogram}
    (hget : histograms[cluster]? = some hist) (hcounts : hist.Counts symbol) :
    models.table.Covers cluster symbol := by
  obtain ⟨-, table, htable, rfl⟩ := writeModels_eq_ok_iff.1 h
  intro s' hs'
  unfold writeTable at htable
  split at htable
  · obtain ⟨codes, hcodes, rfl⟩ := map_eq_ok_iff.1 htable
    obtain ⟨c, _, _, hc, hone⟩ := exists_of_mapM_eq_ok hcodes hget
    obtain ⟨-, hcode, -⟩ := writePrefixCode_eq_ok_iff.1 hone
    obtain ⟨f, hword⟩ := PrefixCode.exists_codeword_of_counts hcode hcounts
    exact ⟨s', [f], .prefixCode s' (List.getElem?_toArray.trans hc) hword⟩
  · obtain ⟨tables, htables, rfl⟩ := map_eq_ok_iff.1 htable
    obtain ⟨t, _, _, ht, hone⟩ := exists_of_mapM_eq_ok htables hget
    obtain ⟨⟨hvalid, -⟩, -⟩ := writeAnsTable_eq_ok hone
    have hpos := AnsTable.freq_pos_of_counts (writeAnsTable_eq_ok_iff.1 hone).1 hcounts
    obtain ⟨y, chunk, hstep, rfl⟩ := AnsTable.exists_step_of_push hvalid hpos hs'
    exact ⟨_, _, .ans (List.getElem?_toArray.trans ht) hstep⟩

/-- Tokens are coded if each of them is covered by the model of its context. -/
theorem exists_codesTokens {models : SegmentModels} {map : ContextMap} {tokens : List Token}
    (hvalid : models.table.Valid) (hvalues : ∀ t ∈ tokens, t.value < 2 ^ 32)
    (hcovers : ∀ t ∈ tokens, ∃ cluster, map.cluster t.context = .ok cluster ∧
      models.table.Covers cluster (models.split.split t.value).token)
    {s' : Nat} (hs' : IsState s') : ∃ s fields, CodesTokens models map tokens s fields s' := by
  induction tokens with
  | nil => exact ⟨s', [], .nil s'⟩
  | cons token tokens ih =>
    obtain ⟨hvalue, hvalues⟩ := List.forall_mem_cons.1 hvalues
    obtain ⟨⟨cluster, hcluster, hcover⟩, hcovers⟩ := List.forall_mem_cons.1 hcovers
    -- the symbols after it decide which state this one has to reach
    obtain ⟨s₁, rest, htail⟩ := ih hvalues hcovers
    obtain ⟨s, fields, hcodes⟩ := hcover s₁ (htail.isState hvalid hs')
    exact ⟨s, _, .cons hcluster hvalue hcodes htail⟩

/-- Tokens can be written if each of them is covered by the model of its context. -/
theorem exists_writeTokens {models : SegmentModels} {map : ContextMap} {tokens : List Token}
    (hvalid : models.table.Valid) (hvalues : ∀ t ∈ tokens, t.value < 2 ^ 32)
    (hcovers : ∀ t ∈ tokens, ∃ cluster, map.cluster t.context = .ok cluster ∧
      models.table.Covers cluster (models.split.split t.value).token) (w : BitWriter) :
    ∃ w', writeTokens models map tokens w = .ok () w' := by
  obtain ⟨s, fields, hcodes⟩ := exists_codesTokens hvalid hvalues hcovers isState_initialState
  exact ⟨_, (writeTokens_eq_ok_iff hvalid hvalues).2 ⟨_, ⟨s, fields, hcodes, rfl⟩, rfl⟩⟩

end EntropyCoding
