import EntropyCoding.Proofs.Context.Clustering
import EntropyCoding.Proofs.Histogram.Tally
import EntropyCoding.Proofs.Segment.PayloadRoundTrip
import EntropyCoding.Segment.Encode

/-!
# Segments are read back

A segment is its context map, its models and its payload, and each of them is read back from where
the one before it ends.  So whatever the configuration, decoding gives the values that were encoded
and stops at the last bit that was written, `decodeTokens_encodeTokens`.

What holds the parts together is that the map, the models and the payload agree on the number of
clusters: `Planned`.
-/

namespace EntropyCoding

/-- A reader decodes the map and the models of a segment, and then the payload. -/
theorem decodeTokens_eq (contexts : Nat) (ofTokens : List Nat) :
    decodeTokens contexts ofTokens = (do
      let map ← ContextMap.read contexts
      let models ← readModels map.clusters
      readPayload map models ofTokens) := by
  rw [decodeTokens, Decoder.read]
  simp only [bind_assoc]
  rfl

/-- A map for `contexts` contexts that a reader can rebuild, and a histogram for each of its
clusters. -/
structure Planned (contexts : Nat) (map : ContextMap) (histograms : Array Histogram) : Prop where
  /-- A reader can rebuild the map. -/
  tight : map.Tight
  /-- The map has all contexts. -/
  contexts_eq : map.contexts = contexts
  /-- There is a histogram for each cluster. -/
  clusters_eq : map.clusters = histograms.size

/-- The budget of a configuration in range can be addressed. -/
theorem budget_mem_of_validate {config : SegmentConfig} (h : config.validate = .ok ()) :
    1 ≤ config.budget ∧ config.budget ≤ maxClusters := by
  unfold SegmentConfig.validate at h
  split at h
  · split at h
    · next hbudget => exact isClusterBudget_iff.1 hbudget
    · cases h
  · cases h

/-- Histograms can be clustered within the budget of a configuration in range. -/
theorem clusterHistograms_of_validate {cost : CostEstimate} {config : SegmentConfig}
    (hconfig : config.validate = .ok ())
    (histograms : List Histogram) :
    clusterHistograms cost config.budget histograms =
      .ok ((Clustering.ofHistograms cost config.budget histograms).map,
        (Clustering.ofHistograms cost config.budget histograms).histograms) :=
  clusterHistograms_eq_ok_iff.2 ⟨isClusterBudget_iff.2 (budget_mem_of_validate hconfig), rfl, rfl⟩

/-- What is planned for the models of a segment: each context has a model of its own or, if there are
more contexts than models allowed, contexts are clustered. -/
theorem exists_raw_of_planModels {cost : CostEstimate} {config : SegmentConfig} {contexts : Nat}
    {tokens : List Token} {map : ContextMap} {histograms : Array Histogram}
    (h : planModels cost config contexts tokens = .ok (map, histograms)) :
    config.validate = .ok () ∧
      ∃ raw, Tally.ofTokens none contexts config.split tokens = .ok raw ∧
        ((config.budget < contexts ∧
            map = (Clustering.ofHistograms cost config.budget raw.toList).map ∧
            histograms = (Clustering.ofHistograms cost config.budget raw.toList).histograms) ∨
          (contexts ≤ config.budget ∧ ContextMap.identity contexts = .ok map ∧
            histograms = raw)) := by
  obtain ⟨⟨⟩, hconfig, h⟩ := Except.bind_eq_ok_iff.1 h
  obtain ⟨raw, hraw, h⟩ := Except.bind_eq_ok_iff.1 h
  refine ⟨hconfig, raw, hraw, ?_⟩
  split at h
  · next hmany =>
    rw [clusterHistograms_of_validate hconfig] at h
    cases h
    exact .inl ⟨hmany, rfl, rfl⟩
  · next hfew =>
    obtain ⟨m, hidentity, h⟩ := Except.bind_eq_ok_iff.1 h
    cases h
    exact .inr ⟨Nat.not_lt.1 hfew, hidentity, rfl⟩

/-- A map can address the clusters of a configuration in range unless there are more contexts than it
has numbers and a growth does not compare below the one that is forbidden. -/
theorem staysWithin_of_growthBounded {cost : CostEstimate} {config : SegmentConfig} {contexts : Nat}
    {tokens : List Token} {raw : Array Histogram} (hconfig : config.validate = .ok ())
    (hraw : Tally.ofTokens none contexts config.split tokens = .ok raw)
    (hgrowth : maxClusters < contexts → Clustering.GrowthBounded cost config.budget raw.toList) :
    Clustering.StaysWithin cost config.budget maxClusters raw.toList := by
  obtain ⟨hleast, hmax⟩ := budget_mem_of_validate hconfig
  refine Clustering.staysWithin_maxClusters hleast hmax fun hmany ↦ hgrowth ?_
  rwa [Array.length_toList, Tally.size_ofTokens hraw] at hmany

/-- What is planned for the models of a segment fits together if a map can address the clusters. -/
theorem planned_of_staysWithin {cost : CostEstimate} {config : SegmentConfig} {contexts : Nat}
    {tokens : List Token} {map : ContextMap} {histograms : Array Histogram}
    (hwithin : ∀ raw, Tally.ofTokens none contexts config.split tokens = .ok raw →
      Clustering.StaysWithin cost config.budget maxClusters raw.toList)
    (h : planModels cost config contexts tokens = .ok (map, histograms)) :
    Planned contexts map histograms := by
  obtain ⟨-, raw, hraw, h⟩ := exists_raw_of_planModels h
  have hsize : raw.size = contexts := Tally.size_ofTokens hraw
  rcases h with ⟨hmany, rfl, rfl⟩ | ⟨-, hidentity, rfl⟩
  · have hne : raw.toList ≠ [] := by
      rw [Ne, ← List.length_eq_zero_iff, Array.length_toList]
      omega
    obtain ⟨htight, hcontexts⟩ := Clustering.tight_map_ofHistograms hne (hwithin raw hraw)
    exact ⟨htight, hcontexts.trans hsize, rfl⟩
  · obtain ⟨htight, hcontexts, hclusters⟩ := ContextMap.tight_of_identity hidentity
    exact ⟨htight, hcontexts, hclusters.trans hsize.symm⟩

/-- What is planned for the models of a segment fits together if the growth of the cost compares
below the one that is forbidden. -/
theorem planned_of_planModels {cost : CostEstimate} {config : SegmentConfig} {contexts : Nat}
    {tokens : List Token} {map : ContextMap} {histograms : Array Histogram}
    (hgrowth : ∀ raw, Tally.ofTokens none contexts config.split tokens = .ok raw →
      config.budget < contexts → Clustering.GrowthBounded cost config.budget raw.toList)
    (h : planModels cost config contexts tokens = .ok (map, histograms)) :
    Planned contexts map histograms := by
  obtain ⟨hconfig, -⟩ := exists_raw_of_planModels h
  have hmax := (budget_mem_of_validate hconfig).2
  refine planned_of_staysWithin (fun raw hraw ↦ ?_) h
  exact staysWithin_of_growthBounded hconfig hraw fun hmany ↦
    hgrowth raw hraw (Nat.lt_of_le_of_lt hmax hmany)

/-- A segment is a map, models and a payload. -/
theorem encodeTokens_eq_ok {cost : CostEstimate} {config : SegmentConfig} {contexts : Nat}
    {tokens : List Token} {map : ContextMap} {models : SegmentModels} {w w' : BitWriter}
    (h : encodeTokens cost config contexts tokens w = .ok (map, models) w') :
    ∃ histograms w₂, planModels cost config contexts tokens = .ok (map, histograms) ∧
      writeModels config histograms.toList (w.writeFields map.fields) = .ok models w₂ ∧
      writeTokens models map tokens w₂ = .ok () w' := by
  obtain ⟨⟨map', histograms⟩, _, hplan, h⟩ := bind_eq_ok_iff.1 h
  obtain ⟨hplanned, rfl⟩ := ofExcept_eq_ok_iff.1 hplan
  obtain ⟨⟨⟩, _, hput, h⟩ := bind_eq_ok_iff.1 h
  obtain rfl := BitWrite.put_eq_ok_iff.1 hput
  obtain ⟨models', w₂, hmodels, h⟩ := bind_eq_ok_iff.1 h
  obtain ⟨⟨⟩, w₃, htokens, h⟩ := bind_eq_ok_iff.1 h
  cases h
  exact ⟨histograms, w₂, hplanned, hmodels, htokens⟩

/-- A segment is encoded if what is planned can be written. -/
theorem encodeTokens_of_parts {cost : CostEstimate} {config : SegmentConfig} {contexts : Nat}
    {tokens : List Token} {map : ContextMap} {histograms : Array Histogram} {models : SegmentModels}
    {w w₂ w' : BitWriter} (hplan : planModels cost config contexts tokens = .ok (map, histograms))
    (hmodels : writeModels config histograms.toList (w.writeFields map.fields) = .ok models w₂)
    (htokens : writeTokens models map tokens w₂ = .ok () w') :
    encodeTokens cost config contexts tokens w = .ok (map, models) w' := by
  refine bind_eq_ok_iff.2 ⟨(map, histograms), w, ofExcept_eq_ok_iff.2 ⟨hplan, rfl⟩, ?_⟩
  refine bind_eq_ok_iff.2 ⟨(), _, BitWrite.put_eq_ok_iff.2 rfl, ?_⟩
  exact bind_eq_ok_iff.2 ⟨models, w₂, hmodels, bind_eq_ok_iff.2 ⟨(), w', htokens, rfl⟩⟩

section

variable {cost : CostEstimate} {config : SegmentConfig} {contexts : Nat} {tokens : List Token}
  {map : ContextMap} {models : SegmentModels} {w w' : BitWriter}
  (hvalues : ∀ t ∈ tokens, t.value < 2 ^ 32)
  (hgrowth : ∀ raw, Tally.ofTokens none contexts config.split tokens = .ok raw →
    config.budget < contexts → Clustering.GrowthBounded cost config.budget raw.toList)
  (hw : w.Valid) (h : encodeTokens cost config contexts tokens w = .ok (map, models) w')
include hvalues hgrowth hw h

/-- Writing a segment leaves a valid writer, which has its former bits first. -/
theorem valid_of_encodeTokens : w'.Valid ∧ w.toBits <+: w'.toBits := by
  obtain ⟨histograms, w₂, hplan, hmodels, htokens⟩ := encodeTokens_eq_ok h
  have hmap := (planned_of_planModels hgrowth hplan).tight.writable_fields
  obtain ⟨hw₂, hpre₂⟩ := valid_of_writeModels (hw.writeFields hmap) hmodels
  obtain ⟨hw', hpre'⟩ :=
    valid_of_writeTokens (writeModels_eq_ok hmodels).1.valid hvalues hw₂ htokens
  rw [BitWriter.toBits_writeFields hw hmap] at hpre₂
  exact ⟨hw', (List.prefix_append _ _).trans (hpre₂.trans hpre')⟩

/-- The values of a segment are read back, with any later content of the writer behind it and any
bytes behind that, and reading stops at the last bit of the segment.  Estimates of cost may be any
numbers; only where contexts have to be clustered, their growth has to compare below the one that
is forbidden. -/
theorem decodeTokens_encodeTokens {later : BitWriter} (hlater : later.Valid)
    (hpre : w'.toBits <+: later.toBits) (more : Array UInt8) :
    decodeTokens contexts (tokens.map Token.context) ⟨later.toBytes ++ more, w.bitsWritten⟩ =
      .ok (tokens.map Token.value) ⟨later.toBytes ++ more, w'.bitsWritten⟩ := by
  obtain ⟨histograms, w₂, hplan, hmodels, htokens⟩ := encodeTokens_eq_ok h
  obtain ⟨htight, hcontexts, hclusters⟩ := planned_of_planModels hgrowth hplan
  have hmap := htight.writable_fields
  have hw₁ := hw.writeFields hmap
  obtain ⟨hw₂, hgrow₂⟩ := valid_of_writeModels hw₁ hmodels
  obtain ⟨hsendable, hsize, rfl⟩ := writeModels_eq_ok hmodels
  have hpre₂ := (valid_of_writeTokens hsendable.valid hvalues hw₂ htokens).2.trans hpre
  have hpre₁ := hgrow₂.trans hpre₂
  -- each part is read from where the one before it ends
  have hread₁ := htight.takes_read (BitReader.passes_writeFields hw hmap hlater hpre₁ more)
  have hread₂ := hsendable.takes_readModels
    (BitReader.passes_writeFields hw₁ hsendable.writable_fields hlater hpre₂ more)
  have hcount : map.clusters = models.table.size := by
    rw [hclusters, hsize, Array.length_toList]
  rw [hcontexts] at hread₁
  rw [← hcount] at hread₂
  rw [decodeTokens_eq]
  refine bind_eq_ok_iff.2 ⟨map, _, hread₁, bind_eq_ok_iff.2 ⟨models, _, hread₂, ?_⟩⟩
  exact readPayload_of_writeTokens hsendable.valid (Nat.le_of_eq hcount) hvalues hw₂ htokens hlater
    hpre more

end

/-- Two contexts in use share a model if there may be only one. -/
theorem planModels_of_pair (cost : CostEstimate) {config : SegmentConfig} {contexts : Nat}
    {tokens : List Token} {h h' : Histogram} (hconfig : config.validate = .ok ())
    (hbudget : config.budget = 1) (hcontexts : 1 < contexts)
    (htally : Tally.ofTokens none contexts config.split tokens = .ok #[h, h'])
    (hused : h.isEmpty = false) (hused' : h'.isEmpty = false)
    (hlt : cost (h.combine h') - cost h < Clustering.forbiddenGrowth) :
    planModels cost config contexts tokens = .ok (⟨#[0, 0], 1⟩, #[h.combine h']) := by
  refine Except.bind_eq_ok_iff.2 ⟨(), hconfig, Except.bind_eq_ok_iff.2 ⟨_, htally, ?_⟩⟩
  rw [hbudget, if_pos hcontexts]
  exact clusterHistograms_of_pair cost hused hused' hlt

/-- A segment of two contexts that have to share a model. -/
theorem decodeTokens_encodeTokens_shared : ∃ map models w',
    encodeTokens (fun h ↦ Histogram.toFloat h.used) { precision := 5, clusterLimit? := some 1 } 2
        [⟨0, 3⟩, ⟨1, 18⟩, ⟨0, 3⟩] .empty = .ok (map, models) w' ∧
      decodeTokens 2 [0, 1, 0] ⟨w'.toBytes ++ #[255], 0⟩ =
        .ok [3, 18, 3] ⟨w'.toBytes ++ #[255], w'.bitsWritten⟩ := by
  have htally : Tally.ofTokens none 2 default [⟨0, 3⟩, ⟨1, 18⟩, ⟨0, 3⟩] =
      .ok #[(Histogram.empty.add 3).add 3, Histogram.empty.add 16] := rfl
  have hused : ((Histogram.empty.add 3).add 3).isEmpty = false := rfl
  have hused' : (Histogram.empty.add 16).isEmpty = false := rfl
  have hlt : Histogram.toFloat (((Histogram.empty.add 3).add 3).combine (.add .empty 16)).used -
      Histogram.toFloat ((Histogram.empty.add 3).add 3).used < Clustering.forbiddenGrowth := by
    decide +kernel
  have hvalues : ∀ t ∈ [Token.mk 0 3, ⟨1, 18⟩, ⟨0, 3⟩], t.value < 2 ^ 32 := by decide
  have hgrowth : ∀ raw, Tally.ofTokens none 2 default [⟨0, 3⟩, ⟨1, 18⟩, ⟨0, 3⟩] = .ok raw →
      1 < 2 → Clustering.GrowthBounded (fun h ↦ Histogram.toFloat h.used) 1 raw.toList := by
    rintro raw hraw -
    obtain rfl := Except.ok.inj (htally.symm.trans hraw)
    exact Clustering.growthBounded_pair hused hlt
  obtain ⟨map, models, w', h⟩ : ∃ map models w',
      encodeTokens (fun h ↦ Histogram.toFloat h.used) { precision := 5, clusterLimit? := some 1 } 2
        [⟨0, 3⟩, ⟨1, 18⟩, ⟨0, 3⟩] .empty = .ok (map, models) w' := by
    rw [encodeTokens, planModels_of_pair (fun h ↦ Histogram.toFloat h.used) rfl rfl Nat.one_lt_two
      htally hused hused' hlt]
    exact ⟨_, _, _, rfl⟩
  obtain ⟨hw', -⟩ := valid_of_encodeTokens hvalues hgrowth BitWriter.valid_empty h
  exact ⟨map, models, w', h, decodeTokens_encodeTokens hvalues hgrowth BitWriter.valid_empty h hw'
    (List.prefix_refl _) #[255]⟩

end EntropyCoding
