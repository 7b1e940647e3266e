import EntropyCoding.Proofs.Context.Coverage
import EntropyCoding.Proofs.Segment.Building
import EntropyCoding.Proofs.Segment.RoundTrip

/-!
# When a segment can be encoded

Encoding succeeds exactly if the configuration and all contexts are in range and a model has room for
every histogram that is modelled, `encodeTokens_outcome`.

That it succeeds then is because every token has been counted in the histogram of its context, and
its symbol keeps a count in the cluster of the context, a probability in the model of the cluster and
so a code: `exists_counts_of_planModels`.  That nothing else goes wrong shows in the errors:
`EncodingFailure` lists them, with what is left of the writer.
-/

namespace EntropyCoding

/-- The histograms that the models of a segment are built from: those of the contexts or, if there
are more contexts than models allowed, those of the clusters. -/
def IsModelled (cost : CostEstimate) (config : SegmentConfig) (contexts : Nat)
    (tokens : List Token) (histograms : Array Histogram) : Prop :=
  ∃ raw, Tally.ofTokens none contexts config.split tokens = .ok raw ∧
    if config.budget < contexts then
      ∃ map, clusterHistograms cost config.budget raw.toList = .ok (map, histograms)
    else histograms = raw

/-- Why a segment is not encoded, and what is left of the writer. -/
inductive EncodingFailure (cost : CostEstimate) (config : SegmentConfig) (contexts : Nat)
    (tokens : List Token) (w : BitWriter) : Error → BitWriter → Prop
  /-- The configuration is refused, and nothing is written. -/
  | config {fault : ConfigFault} (refused : config.validate = .error (.invalidConfig fault)) :
      EncodingFailure cost config contexts tokens w (.invalidConfig fault) w
  /-- A context is out of range, and nothing is written. -/
  | context {token : Token} (valid : config.validate = .ok ()) (mem : token ∈ tokens)
      (le : contexts ≤ token.context) :
      EncodingFailure cost config contexts tokens w (.contextOutOfRange token.context contexts) w
  /-- A histogram has no room in a model. -/
  | alphabet {e : Error} {w' : BitWriter} {histograms : Array Histogram} {h : Histogram}
      (valid : config.validate = .ok ()) (contexts_lt : ∀ t ∈ tokens, t.context < contexts)
      (modelled : IsModelled cost config contexts tokens histograms) (mem : h ∈ histograms)
      (not_fits : ¬ config.Fits h) (kind : e.isOfAlphabet) :
      EncodingFailure cost config contexts tokens w e w'

section

variable {cost : CostEstimate} {config : SegmentConfig} {contexts : Nat} {tokens : List Token}

/-! ## What is modelled -/

/-- A configuration is refused as such. -/
theorem exists_fault_of_validate {e : Error} (h : config.validate = .error e) :
    ∃ fault, e = .invalidConfig fault := by
  unfold SegmentConfig.validate at h
  split at h
  · split at h
    · cases h
    · cases h
      exact ⟨_, rfl⟩
  · cases h
    exact ⟨_, rfl⟩

/-- Only one list of histograms is modelled. -/
theorem IsModelled.unique {histograms histograms' : Array Histogram}
    (h : IsModelled cost config contexts tokens histograms)
    (h' : IsModelled cost config contexts tokens histograms') : histograms = histograms' := by
  obtain ⟨raw, hraw, h⟩ := h
  obtain ⟨raw', hraw', h'⟩ := h'
  obtain rfl := Except.ok.inj (hraw.symm.trans hraw')
  split at h
  · next hmany =>
    rw [if_pos hmany] at h'
    obtain ⟨map, h⟩ := h
    obtain ⟨map', h'⟩ := h'
    cases h.symm.trans h'
    rfl
  · next hfew =>
    rw [if_neg hfew] at h'
    exact h.trans h'.symm

/-- What has been planned: the configuration and all contexts are in range, and the histograms are
those that are modelled. -/
theorem isModelled_of_planModels {map : ContextMap} {histograms : Array Histogram}
    (h : planModels cost config contexts tokens = .ok (map, histograms)) :
    config.validate = .ok () ∧ (∀ t ∈ tokens, t.context < contexts) ∧
      IsModelled cost config contexts tokens histograms := by
  obtain ⟨hconfig, raw, hraw, h⟩ := exists_raw_of_planModels h
  refine ⟨hconfig, Tally.context_lt_of_ofTokens hraw, raw, hraw, ?_⟩
  rcases h with ⟨hmany, rfl, rfl⟩ | ⟨hfew, -, rfl⟩
  · rw [if_pos hmany]
    exact ⟨_, clusterHistograms_of_validate hconfig _⟩
  · rw [if_neg (Nat.not_lt.2 hfew)]

/-- Planning fails only because of the configuration or of a context. -/
theorem planModels_eq_error {e : Error} (h : planModels cost config contexts tokens = .error e) :
    config.validate = .error e ∨
      config.validate = .ok () ∧
        ∃ t ∈ tokens, contexts ≤ t.context ∧ e = .contextOutOfRange t.context contexts := by
  rcases Except.bind_eq_error_iff.1 h with hconfig | ⟨⟨⟩, hconfig, h⟩
  · exact .inl hconfig
  refine .inr ⟨hconfig, ?_⟩
  rcases Except.bind_eq_error_iff.1 h with hraw | ⟨raw, -, h⟩
  · exact Tally.exists_of_ofTokens_eq_error hraw
  · split at h
    · rw [clusterHistograms_of_validate hconfig] at h
      cases h
    · next hfew =>
      have hle : contexts ≤ maxClusters :=
        Nat.le_trans (Nat.not_lt.1 hfew) (budget_mem_of_validate hconfig).2
      rw [ContextMap.identity, if_pos hle] at h
      cases h

/-- The symbol of every token is counted in the histogram that its context is modelled with. -/
theorem exists_counts_of_planModels {map : ContextMap} {histograms : Array Histogram}
    (hgrowth : ∀ raw, Tally.ofTokens none contexts config.split tokens = .ok raw →
      maxClusters < contexts → Clustering.GrowthBounded cost config.budget raw.toList)
    (h : planModels cost config contexts tokens = .ok (map, histograms)) :
    ∀ t ∈ tokens, ∃ cluster hist, map.cluster t.context = .ok cluster ∧
      histograms[cluster]? = some hist ∧ hist.Counts (config.split.split t.value).token := by
  obtain ⟨hconfig, raw, hraw, h⟩ := exists_raw_of_planModels h
  intro t ht
  obtain ⟨hist, hget, hcounts⟩ := Tally.counted_ofTokens hraw t ht
  rcases h with ⟨-, rfl, rfl⟩ | ⟨-, hidentity, rfl⟩
  · rw [← Array.getElem?_toList] at hget
    exact Clustering.exists_histogram_of_counts
      (staysWithin_of_growthBounded hconfig hraw (hgrowth raw hraw)) hget hcounts
  · have hlt := Tally.context_lt_of_ofTokens hraw t ht
    exact ⟨t.context, hist, ContextMap.cluster_of_identity hidentity hlt, hget, hcounts⟩

/-! ## The outcome -/

section

variable (hvalues : ∀ t ∈ tokens, t.value < 2 ^ 32)
  (hgrowth : ∀ raw, Tally.ofTokens none contexts config.split tokens = .ok raw →
    maxClusters < contexts → Clustering.GrowthBounded cost config.budget raw.toList)
include hvalues hgrowth

/-- The tokens can be written with the models that have been built for them. -/
theorem exists_writeTokens_of_planModels {map : ContextMap} {histograms : Array Histogram}
    {models : SegmentModels} {w w' : BitWriter}
    (hplan : planModels cost config contexts tokens = .ok (map, histograms))
    (hmodels : writeModels config histograms.toList w = .ok models w') :
    ∃ w'', writeTokens models map tokens w' = .ok () w'' := by
  refine exists_writeTokens (writeModels_eq_ok hmodels).1.valid hvalues (fun t ht ↦ ?_) w'
  obtain ⟨cluster, hist, hcluster, hget, hcounts⟩ := exists_counts_of_planModels hgrowth hplan t ht
  rw [← Array.getElem?_toList] at hget
  have hsplit : models.split = config.split := by
    obtain ⟨-, table, -, rfl⟩ := writeModels_eq_ok_iff.1 hmodels
    rfl
  rw [hsplit]
  exact ⟨cluster, hcluster, covers_of_writeModels hmodels hget hcounts⟩

/-- A segment that is not encoded has failed for one of the reasons listed. -/
theorem encodingFailure_of_encodeTokens {w w' : BitWriter} {e : Error}
    (h : encodeTokens cost config contexts tokens w = .error e w') :
    EncodingFailure cost config contexts tokens w e w' := by
  rcases bind_eq_error_iff.1 h with hplanned | ⟨⟨map, histograms⟩, _, hplanned, h⟩
  · obtain ⟨hplan, rfl⟩ := ofExcept_eq_error_iff.1 hplanned
    rcases planModels_eq_error hplan with hconfig | ⟨hconfig, t, ht, hle, rfl⟩
    · obtain ⟨fault, rfl⟩ := exists_fault_of_validate hconfig
      exact .config hconfig
    · exact .context hconfig ht hle
  obtain ⟨hplan, rfl⟩ := ofExcept_eq_ok_iff.1 hplanned
  obtain ⟨hconfig, hcontexts, hmodelled⟩ := isModelled_of_planModels hplan
  rcases bind_eq_error_iff.1 h with hput | ⟨⟨⟩, _, hput, h⟩
  · cases hput
  rcases bind_eq_error_iff.1 h with hmodels | ⟨models, w₂, hmodels, h⟩
  · obtain ⟨hkind, hist, hmem, hroom⟩ := exists_of_writeModels_eq_error hconfig hmodels
    exact .alphabet hconfig hcontexts hmodelled (Array.mem_toList_iff.1 hmem) hroom hkind
  obtain ⟨w₃, hwritten⟩ := exists_writeTokens_of_planModels hvalues hgrowth hplan hmodels
  rcases bind_eq_error_iff.1 h with htokens | ⟨⟨⟩, _, -, h⟩
  · rw [hwritten] at htokens
    cases htokens
  · cases h

/-- A segment can be encoded exactly if the configuration and all contexts are in range and there is
room for every histogram that is modelled.  An error is never that a symbol has no probability or that
a stream is not valid; it blames a context only if one is out of range; and if the configuration or a
context is refused, the writer is left as it was.  Estimates of cost may be any numbers; only where
there are more contexts than a map has numbers for clusters, their growth has to compare below the one
that is forbidden. -/
theorem encodeTokens_outcome (w : BitWriter) :
    ((∃ map models w', encodeTokens cost config contexts tokens w = .ok (map, models) w') ↔
      config.validate = .ok () ∧ (∀ t ∈ tokens, t.context < contexts) ∧
        ∃ histograms, IsModelled cost config contexts tokens histograms ∧
          ∀ h ∈ histograms, config.Fits h) ∧
    ∀ e w', encodeTokens cost config contexts tokens w = .error e w' →
      (∀ symbol, e ≠ .zeroFrequency symbol) ∧ (∀ fault, e ≠ .invalidStream fault) ∧
      ((∀ t ∈ tokens, t.context < contexts) → ∀ context n, e ≠ .contextOutOfRange context n) ∧
      (config.validate ≠ .ok () ∨ (∃ t ∈ tokens, contexts ≤ t.context) ∨
        (∃ fault, e = .invalidConfig fault) ∨ (∃ context n, e = .contextOutOfRange context n) →
        w' = w) := by
  refine ⟨⟨?_, ?_⟩, fun e w' h ↦ ?_⟩
  · rintro ⟨map, models, w', h⟩
    obtain ⟨histograms, w₂, hplan, hmodels, -⟩ := encodeTokens_eq_ok h
    obtain ⟨hconfig, hcontexts, hmodelled⟩ := isModelled_of_planModels hplan
    refine ⟨hconfig, hcontexts, histograms, hmodelled, fun hist hmem ↦ ?_⟩
    exact fits_of_writeModels hmodels hist (Array.mem_toList_iff.2 hmem)
  · rintro ⟨hconfig, hcontexts, histograms, hmodelled, hfits⟩
    cases h : encodeTokens cost config contexts tokens w with
    | ok result w' => exact ⟨result.1, result.2, w', rfl⟩
    | error e w' =>
      cases encodingFailure_of_encodeTokens hvalues hgrowth h with
      | config refused =>
        rw [hconfig] at refused
        cases refused
      | context _ mem le => exact absurd (hcontexts _ mem) (Nat.not_lt.2 le)
      | alphabet _ _ modelled mem not_fits _ =>
        obtain rfl := hmodelled.unique modelled
        exact absurd (hfits _ mem) not_fits
  · cases encodingFailure_of_encodeTokens hvalues hgrowth h with
    | config refused => exact ⟨nofun, nofun, fun _ ↦ nofun, fun _ ↦ rfl⟩
    | @context token valid mem le =>
      refine ⟨nofun, nofun, fun hcontexts ↦ ?_, fun _ ↦ rfl⟩
      exact absurd (hcontexts token mem) (Nat.not_lt.2 le)
    | alphabet valid contexts_lt modelled mem not_fits kind =>
      refine ⟨?_, ?_, fun _ ↦ ?_, ?_⟩
      · rintro _ rfl
        cases kind
      · rintro _ rfl
        cases kind
      · rintro _ _ rfl
        cases kind
      · rintro (hconfig | ⟨t, ht, hle⟩ | ⟨fault, rfl⟩ | ⟨context, n, rfl⟩)
        · exact absurd valid hconfig
        · exact absurd (contexts_lt t ht) (Nat.not_lt.2 hle)
        · cases kind
        · cases kind

end

end

/-- Two contexts that have to share a prefix code can be encoded. -/
theorem encodeTokens_outcome_shared : ∃ map models w',
    encodeTokens (fun h ↦ Histogram.toFloat h.used)
      { usesPrefixCodes := true, clusterLimit? := some 1 } 2 [⟨0, 3⟩, ⟨1, 18⟩] .empty =
        .ok (map, models) w' := by
  have htally : Tally.ofTokens none 2 default [⟨0, 3⟩, ⟨1, 18⟩] =
      .ok #[Histogram.empty.add 3, Histogram.empty.add 16] := rfl
  have hused : (Histogram.empty.add 3).isEmpty = false := rfl
  have hused' : (Histogram.empty.add 16).isEmpty = false := rfl
  have hlt : Histogram.toFloat ((Histogram.empty.add 3).combine (.add .empty 16)).used -
      Histogram.toFloat (Histogram.empty.add 3).used < Clustering.forbiddenGrowth := by
    decide +kernel
  have hpair := clusterHistograms_of_pair (fun h ↦ Histogram.toFloat h.used) hused hused' hlt
  refine (encodeTokens_outcome (by decide) ?_ .empty).1.2
    ⟨rfl, by decide, _, ⟨_, htally, _, hpair⟩, fun h hmem ↦ ?_⟩
  · rintro raw hraw -
    obtain rfl := Except.ok.inj (htally.symm.trans hraw)
    exact Clustering.growthBounded_pair hused hlt
  · obtain rfl := List.mem_singleton.1 (Array.mem_toList_iff.2 hmem)
    exact ⟨by decide, by decide⟩

end EntropyCoding
