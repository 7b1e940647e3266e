import EntropyCoding.Proofs.Histogram.Routing
import EntropyCoding.Proofs.Segment.Success
import Mathlib.Data.Fin.Tuple.Basic
import Mathlib.Data.List.Permutation

/-!
# The order of tokens

The map and the models of a segment are made from histograms, and a histogram is a sum over the tokens,
storage included: `Tally.ofTokens_perm`.  So segments of the same tokens in different orders have the
same map and the same models, and differ in the payload only, `encodeTokens_perm`.

Whether a token can be coded depends on its model alone, and not on the tokens around it,
`CodesTokens.covers`.  With prefix codes not even its fields depend on them, so the payload consists of
the same fields in another order, `Payload.exists_perm`.
-/

namespace EntropyCoding

variable {tokens tokens' : List Token}

/-! ## Counting -/

namespace Tally

variable {contexts : Nat} {split : TokenSplit} {histograms : Array Histogram}

/-- The order in which tokens are counted does not matter. -/
theorem ofTokens_perm (hperm : tokens.Perm tokens')
    (h : ofTokens none contexts split tokens = .ok histograms) :
    ofTokens none contexts split tokens' = .ok histograms := by
  have hrange : ∀ t ∈ tokens', t.context < contexts := fun t ht ↦
    context_lt_of_ofTokens h t (hperm.mem_iff.2 ht)
  obtain ⟨histograms', h'⟩ := exists_ofTokens_none hrange split
  rw [h']
  refine congrArg Except.ok (Array.toList_inj.1 ?_)
  rw [toList_ofTokens h, toList_ofTokens h']
  exact List.map_congr_left fun k _ ↦ (hperm.symm.map _).sum_eq

/-- Every token counted adds one to the total of a histogram. -/
theorem sum_total_of_addTokens {t t' : Tally} (h : addTokens tokens t = .ok () t') :
    (t'.histograms.toList.map Histogram.total).sum =
      (t.histograms.toList.map Histogram.total).sum + tokens.length := by
  induction tokens generalizing t with
  | nil =>
    obtain ⟨-, rfl⟩ := pure_eq_ok_iff.1 h
    rfl
  | cons token tokens ih =>
    obtain ⟨t₁, hone, h⟩ := forM_cons_eq_ok_iff.1 h
    obtain ⟨slot, -, hlt, rfl⟩ := addToken_eq_ok_iff.1 hone
    rw [ih h, Array.toList_modify, Clustering.sum_map_modify (fun _ ↦ Histogram.total_add _ _)
      (by rwa [Array.length_toList]), List.length_cons]
    omega

theorem sum_total_ofTokens (h : ofTokens none contexts split tokens = .ok histograms) :
    (histograms.toList.map Histogram.total).sum = tokens.length := by
  have hsum := sum_total_of_addTokens (ofTokens_eq_ok_iff.1 h)
  have hzero : ((start none contexts split).histograms.toList.map Histogram.total).sum = 0 := by
    rw [start, Array.toList_replicate, List.map_replicate, List.sum_replicate_nat]
    exact Nat.mul_zero _
  rw [hsum, hzero, Nat.zero_add]

end Tally

/-! ## The map -/

namespace Clustering

variable (cost : CostEstimate) (budget : Nat)

/-- A context opens a cluster only if something has been counted in it. -/
theorem size_clusters_place_le_total (c : Clustering) (h : Histogram) :
    (c.place cost budget h).clusters.size ≤ c.clusters.size + h.total := by
  cases hempty : h.isEmpty with
  | true =>
    rw [place, if_pos hempty]
    exact Nat.le_add_right _ _
  | false =>
    have hpos : h.total ≠ 0 := beq_eq_false_iff_ne.1 hempty
    have hone := size_clusters_place_le cost budget c h
    omega

/-- There are no more clusters than tokens have been counted. -/
theorem size_clusters_le_sum_total (histograms : List Histogram) :
    (ofHistograms cost budget histograms).clusters.size ≤
      (histograms.map Histogram.total).sum := by
  have hrun : ∀ c : Clustering, (histograms.foldl (place cost budget) c).clusters.size ≤
      c.clusters.size + (histograms.map Histogram.total).sum := by
    induction histograms with
    | nil => exact fun c ↦ Nat.le_refl _
    | cons h histograms ih =>
      intro c
      have hone := size_clusters_place_le_total cost budget c h
      have hrest := ih (c.place cost budget h)
      rw [List.foldl_cons, List.map_cons, List.sum_cons]
      omega
  exact Nat.le_trans (hrun {}) (Nat.le_of_eq (Nat.zero_add _))

end Clustering

section

variable {cost : CostEstimate} {config : SegmentConfig} {contexts : Nat} {map : ContextMap}
  {histograms : Array Histogram}

/-- The order of the tokens does not matter for what is planned. -/
theorem planModels_perm (hperm : tokens.Perm tokens')
    (h : planModels cost config contexts tokens = .ok (map, histograms)) :
    planModels cost config contexts tokens' = .ok (map, histograms) := by
  obtain ⟨⟨⟩, hconfig, h⟩ := Except.bind_eq_ok_iff.1 h
  obtain ⟨raw, hraw, h⟩ := Except.bind_eq_ok_iff.1 h
  exact Except.bind_eq_ok_iff.2 ⟨(), hconfig,
    Except.bind_eq_ok_iff.2 ⟨raw, Tally.ofTokens_perm hperm hraw, h⟩⟩

/-- A writer takes the fields of a map that has been planned, whatever the estimates of cost are. -/
theorem writable_map_of_planModels (hcount : tokens.length < 2 ^ 32)
    (h : planModels cost config contexts tokens = .ok (map, histograms)) : Writable map.fields := by
  obtain ⟨hconfig, raw, hraw, h⟩ := exists_raw_of_planModels h
  have hwide : 2 ^ 32 ≤ 2 ^ maxFieldWidth := by decide
  refine ContextMap.writable_fields (Nat.le_trans ?_ hwide)
  rcases h with ⟨-, rfl, -⟩ | ⟨-, hidentity, -⟩
  · have hsize := Clustering.size_clusters_le_sum_total cost config.budget raw.toList
    rw [Tally.sum_total_ofTokens hraw] at hsize
    rw [Clustering.clusters_map]
    omega
  · obtain ⟨htight, -, -⟩ := ContextMap.tight_of_identity hidentity
    exact Nat.le_trans htight.clusters_le (by decide)

end

/-! ## Coding -/

/-- A model that codes a symbol somewhere codes it everywhere. -/
theorem CodesSymbol.covers {table : ModelTable} (hv : table.Valid) {cluster symbol s s' : Nat}
    {fields : List Field} (h : CodesSymbol table cluster symbol s fields s') :
    table.Covers cluster symbol := by
  intro x hx
  cases h with
  | ans get step =>
    obtain ⟨y, chunk, hstep, rfl⟩ :=
      AnsTable.exists_step_of_push (hv _ (Array.mem_of_getElem? get)) step.freq_pos hx
    exact ⟨_, _, .ans get hstep⟩
  | prefixCode s get codeword => exact ⟨x, _, .prefixCode x get codeword⟩

section

variable {models : SegmentModels} {map : ContextMap}

/-- Tokens that are coded are covered by their models, each for itself. -/
theorem CodesTokens.covers (hv : models.table.Valid) {s s' : Nat} {fields : List Field}
    (h : CodesTokens models map tokens s fields s') :
    ∀ t ∈ tokens, ∃ cluster, map.cluster t.context = .ok cluster ∧
      models.table.Covers cluster (models.split.split t.value).token := by
  induction h with
  | nil => nofun
  | cons hcluster _ codes _ ih =>
    exact List.forall_mem_cons.2 ⟨⟨_, hcluster, codes.covers hv⟩, ih⟩

/-- With prefix codes tokens in another order have the same fields in another order. -/
theorem CodesTokens.exists_perm {codes : Array PrefixCode} (htable : models.table = .prefixCodes codes)
    (hperm : tokens.Perm tokens') {s s' : Nat} {fields : List Field}
    (h : CodesTokens models map tokens s fields s') :
    ∃ fields', CodesTokens models map tokens' s fields' s' ∧ fields'.Perm fields := by
  obtain ⟨precision, split, table⟩ := models
  obtain rfl : table = .prefixCodes codes := htable
  induction hperm generalizing s fields with
  | nil => exact ⟨fields, h, .refl _⟩
  | cons token _ ih =>
    cases h with
    | cons hcluster hvalue hcodes htail =>
      obtain ⟨rest', htail', hrest⟩ := ih htail
      exact ⟨_, .cons hcluster hvalue hcodes htail', (hrest.cons _).append_left _⟩
  | swap token token' tokens =>
    cases h with
    | cons hcluster hvalue hcodes htail =>
      cases htail with
      | cons hcluster' hvalue' hcodes' htail' =>
        cases hcodes with
        | @prefixCode _ _ _ _ _ f hget hword =>
          cases hcodes' with
          | @prefixCode _ _ _ _ _ f' hget' hword' =>
            -- a prefix code leaves the state alone, so the first token may come second
            refine ⟨_, .cons hcluster' hvalue' (.prefixCode s hget' hword')
              (.cons hcluster hvalue (.prefixCode s hget hword) htail'), ?_⟩
            exact List.perm_append_comm_assoc [f', _] [f, _] _
  | trans _ _ ih ih' =>
    obtain ⟨fields₁, h₁, hfields₁⟩ := ih h
    obtain ⟨fields₂, h₂, hfields₂⟩ := ih' h₁
    exact ⟨fields₂, h₂, hfields₂.trans hfields₁⟩

/-- Tokens that have a payload have one in every order. -/
theorem Payload.exists_perm (hv : models.table.Valid) (hperm : tokens.Perm tokens')
    {payload : List Field} (h : Payload models map tokens payload) :
    ∃ payload', Payload models map tokens' payload' ∧
      (models.table.isPrefixCodes → payload'.Perm payload) := by
  obtain ⟨s, rest, hcodes, rfl⟩ := h
  cases htable : models.table with
  | ans tables =>
    have hvalues : ∀ t ∈ tokens', t.value < 2 ^ 32 := fun t ht ↦
      hcodes.value_lt t (hperm.mem_iff.2 ht)
    obtain ⟨s', rest', hcodes'⟩ := exists_codesTokens hv hvalues
      (fun t ht ↦ hcodes.covers hv t (hperm.mem_iff.2 ht)) isState_initialState
    exact ⟨_, ⟨s', rest', hcodes', rfl⟩, nofun⟩
  | prefixCodes codes =>
    obtain ⟨rest', hcodes', hrest⟩ := hcodes.exists_perm htable hperm
    refine ⟨_, ⟨s, rest', hcodes', rfl⟩, fun _ ↦ ?_⟩
    rw [htable]
    exact hrest

end

/-! ## Encoding -/

/-- A writer at the start of the payload, into which nothing but a segment is written. -/
def payloadStart (map : ContextMap) (models : SegmentModels) : BitWriter :=
  BitWriter.empty.writeFields (map.fields ++ models.fields)

theorem length_fieldBits_perm {fields fields' : List Field} (h : fields.Perm fields') :
    (fieldBits fields).length = (fieldBits fields').length :=
  (h.flatMap_right Field.bits).length_eq

/-- If tokens can be encoded they can be encoded in every order.  The map and the models are the same,
so that the bits are the same up to the start of the payload, and from there on they are the payloads
of the tokens in the two orders.  With prefix codes even the number of bits is the same. -/
theorem encodeTokens_perm {cost : CostEstimate} {config : SegmentConfig} {contexts : Nat}
    (hperm : tokens.Perm tokens') (hcount : tokens.length < 2 ^ 32)
    (hvalues : ∀ t ∈ tokens, t.value < 2 ^ 32) {map : ContextMap} {models : SegmentModels}
    {w : BitWriter} (h : encodeTokens cost config contexts tokens .empty = .ok (map, models) w) :
    ∃ w', encodeTokens cost config contexts tokens' .empty = .ok (map, models) w' ∧
      writeTokens models map tokens (payloadStart map models) = .ok () w ∧
      writeTokens models map tokens' (payloadStart map models) = .ok () w' ∧
      (payloadStart map models).toBits <+: w.toBits ∧
      (payloadStart map models).toBits <+: w'.toBits ∧
      (config.usesPrefixCodes → w'.bitsWritten = w.bitsWritten) := by
  obtain ⟨histograms, w₂, hplan, hmodels, htokens⟩ := encodeTokens_eq_ok h
  have hmap := writable_map_of_planModels hcount hplan
  obtain ⟨hsendable, -, rfl⟩ := writeModels_eq_ok hmodels
  have hstart : (BitWriter.empty.writeFields map.fields).writeFields models.fields =
      payloadStart map models := (BitWriter.writeFields_append _ _ _).symm
  rw [hstart] at hmodels htokens
  have hvalid : (payloadStart map models).Valid :=
    BitWriter.valid_empty.writeFields (writable_append.2 ⟨hmap, hsendable.writable_fields⟩)
  obtain ⟨payload, hpayload, rfl⟩ := (writeTokens_eq_ok_iff hsendable.valid hvalues).1 htokens
  obtain ⟨payload', hpayload', hsame⟩ := hpayload.exists_perm hsendable.valid hperm
  have hvalues' : ∀ t ∈ tokens', t.value < 2 ^ 32 := fun t ht ↦ hvalues t (hperm.mem_iff.2 ht)
  have htokens' := (writeTokens_eq_ok_iff hsendable.valid hvalues').2
    ⟨payload', hpayload', (rfl : (payloadStart map models).writeFields payload' = _)⟩
  have hwritable := hpayload.writable hsendable.valid
  have hwritable' := hpayload'.writable hsendable.valid
  refine ⟨_, encodeTokens_of_parts (planModels_perm hperm hplan) hmodels htokens', htokens, htokens',
    ?_, ?_, fun huses ↦ ?_⟩
  · rw [BitWriter.toBits_writeFields hvalid hwritable]
    exact List.prefix_append _ _
  · rw [BitWriter.toBits_writeFields hvalid hwritable']
    exact List.prefix_append _ _
  · have htable : models.table.isPrefixCodes := by
      obtain ⟨-, table, htable, rfl⟩ := writeModels_eq_ok_iff.1 hmodels
      rw [writeTable, if_pos huses] at htable
      obtain ⟨codes, -, rfl⟩ := map_eq_ok_iff.1 htable
      rfl
    rw [BitWriter.bitsWritten_writeFields hvalid hwritable,
      BitWriter.bitsWritten_writeFields hvalid hwritable', length_fieldBits_perm (hsame htable)]

/-- Three tokens of two contexts that have to share a prefix code. -/
theorem encodeTokens_perm_shared : ∃ map models w w',
    encodeTokens (fun h ↦ Histogram.toFloat h.used)
        { usesPrefixCodes := true, clusterLimit? := some 1 } 2 [⟨0, 3⟩, ⟨1, 18⟩, ⟨0, 5⟩] .empty =
          .ok (map, models) w ∧
      encodeTokens (fun h ↦ Histogram.toFloat h.used)
        { usesPrefixCodes := true, clusterLimit? := some 1 } 2 [⟨1, 18⟩, ⟨0, 5⟩, ⟨0, 3⟩] .empty =
          .ok (map, models) w' ∧
      (payloadStart map models).toBits <+: w.toBits ∧
      (payloadStart map models).toBits <+: w'.toBits ∧ w'.bitsWritten = w.bitsWritten := by
  have htally : Tally.ofTokens none 2 default [⟨0, 3⟩, ⟨1, 18⟩, ⟨0, 5⟩] =
      .ok #[(Histogram.empty.add 3).add 5, Histogram.empty.add 16] := rfl
  have hlt : Histogram.toFloat (((Histogram.empty.add 3).add 5).combine (.add .empty 16)).used -
      Histogram.toFloat ((Histogram.empty.add 3).add 5).used < Clustering.forbiddenGrowth := by
    decide +kernel
  have hconfig : SegmentConfig.validate { usesPrefixCodes := true, clusterLimit? := some 1 } =
      .ok () := rfl
  have hplan := planModels_of_pair (fun h ↦ Histogram.toFloat h.used) hconfig rfl Nat.one_lt_two
    htally rfl rfl hlt
  have hcode : PrefixCode.ofHistogram (((Histogram.empty.add 3).add 5).combine (.add .empty 16)) =
      .ok (.canonical [0, 0, 0, 2, 0, 2, 0, 0, 0, 0, 0, 0, 0, 0, 0, 0, 1]) := by cbv
  obtain ⟨models, w₂, hmodels⟩ : ∃ models w₂,
      writeModels { usesPrefixCodes := true, clusterLimit? := some 1 }
        [((Histogram.empty.add 3).add 5).combine (.add .empty 16)]
        (BitWriter.empty.writeFields (ContextMap.fields ⟨#[0, 0], 1⟩)) = .ok models w₂ :=
    ⟨_, _, writeModels_eq_ok_iff.2 ⟨rfl, _, map_eq_ok_iff.2 ⟨_, mapM_cons_eq_ok_iff.2
      ⟨_, _, _, writePrefixCode_eq_ok_iff.2 ⟨by decide, hcode, rfl⟩, rfl, rfl⟩, rfl⟩, rfl⟩⟩
  obtain ⟨w, htokens⟩ := exists_writeTokens_of_planModels (by decide)
    (fun raw hraw _ ↦ Except.ok.inj (htally.symm.trans hraw) ▸
      Clustering.growthBounded_pair rfl hlt) hplan hmodels
  have h := encodeTokens_of_parts hplan hmodels htokens
  have hperm : [Token.mk 0 3, ⟨1, 18⟩, ⟨0, 5⟩].Perm [⟨1, 18⟩, ⟨0, 5⟩, ⟨0, 3⟩] := by decide
  obtain ⟨w', h', -, -, hpre, hpre', hbits⟩ :=
    encodeTokens_perm hperm (by decide) (by decide) h
  exact ⟨_, models, w, w', h, h', hpre, hpre', hbits rfl⟩

end EntropyCoding
