import EntropyCoding.Context.Clustering
import EntropyCoding.Proofs.Context.Map

/-!
# The map that clustering gives

While contexts are placed every context has a cluster that there is and every cluster has a context,
`Clustering.Covered`; so the map that clustering ends with is one that a reader can rebuild,
`tight_map_ofHistograms`.

The estimates of cost are any numbers whatever.  All that is asked of them is that there are never
more clusters than a map can address, `Clustering.StaysWithin`.  That is so if there are no more
contexts than that, whatever the estimates; and if a growth always compares below the one that is
forbidden, `Clustering.GrowthBounded`, since then a spent budget is not exceeded.
-/

namespace EntropyCoding

namespace Clustering

variable (cost : CostEstimate) (budget : Nat)

/-- Whenever a histogram that is not empty is placed, its growth in each cluster compares below the
one that is forbidden. -/
def GrowthBounded (histograms : List Histogram) : Prop :=
  ∀ done h rest, histograms = done ++ h :: rest → h.isEmpty = false →
    ∀ cluster ∈ (ofHistograms cost budget done).clusters.toList,
      cost (cluster.histogram.combine h) - cluster.cost < forbiddenGrowth

/-- Growths can be compared one histogram after another. -/
theorem growthBounded_iff {histograms : List Histogram} :
    GrowthBounded cost budget histograms ↔ ∀ p ∈ histograms.zipIdx, p.1.isEmpty = false →
      ∀ cluster ∈ (ofHistograms cost budget (histograms.take p.2)).clusters.toList,
        cost (cluster.histogram.combine p.1) - cluster.cost < forbiddenGrowth := by
  constructor
  · rintro hgrowth ⟨h, i⟩ hp
    obtain ⟨hlt, rfl⟩ := List.getElem?_eq_some_iff.1 (List.mk_mem_zipIdx_iff_getElem?.1 hp)
    refine hgrowth _ _ (histograms.drop (i + 1)) ?_
    rw [← List.drop_eq_getElem_cons hlt, List.take_append_drop]
  · rintro hgrowth done h rest rfl
    have hmem : (h, done.length) ∈ (done ++ h :: rest).zipIdx :=
      List.mk_mem_zipIdx_iff_getElem?.2 (by simp)
    simpa using hgrowth _ hmem

instance (histograms : List Histogram) : Decidable (GrowthBounded cost budget histograms) :=
  decidable_of_iff' _ (growthBounded_iff cost budget)

/-- The cluster offered is there or, up to `limit` clusters, a new one. -/
def HasRoom (limit : Nat) (c : Clustering) (offer : Offer) : Prop :=
  offer.slot < c.clusters.size ∨ offer.slot = c.clusters.size ∧ c.clusters.size < limit

/-- Whenever a histogram that is not empty is placed, there is room for it within `limit` clusters. -/
def StaysWithin (limit : Nat) (histograms : List Histogram) : Prop :=
  ∀ done h rest, histograms = done ++ h :: rest → h.isEmpty = false →
    HasRoom limit (ofHistograms cost budget done) ((ofHistograms cost budget done).best cost budget h)

/-- Every context has a cluster, and every cluster a context. -/
structure Covered (limit : Nat) (c : Clustering) : Prop where
  /-- There are no more clusters than allowed. -/
  size_le : c.clusters.size ≤ limit
  /-- Every entry names a cluster, the first one if there are none yet. -/
  entry_lt : ∀ entry ∈ c.entries.toList, entry.toNat < max 1 c.clusters.size
  /-- Every cluster is named by an entry. -/
  exists_entry : ∀ k < c.clusters.size, ∃ entry ∈ c.entries.toList, entry.toNat = k

theorem covered_nil (limit : Nat) : Covered limit {} :=
  ⟨Nat.zero_le _, nofun, nofun⟩

variable {cost budget} {limit : Nat}

/-! ## The best offer -/

variable (cost) in
/-- The best offer is the one to start with or that of a cluster. -/
theorem slot_foldl_better (h : Histogram) (clusters : List (Cluster × Nat)) (best : Offer) :
    (clusters.foldl (better cost h) best).slot = best.slot ∨
      ∃ p ∈ clusters, (clusters.foldl (better cost h) best).slot = p.2 := by
  induction clusters generalizing best with
  | nil => exact .inl rfl
  | cons p clusters ih =>
    rw [List.foldl_cons]
    have hone : (better cost h best p).slot = best.slot ∨ (better cost h best p).slot = p.2 := by
      unfold better
      dsimp only
      split
      · exact .inr rfl
      · exact .inl rfl
    rcases ih (better cost h best p) with hslot | ⟨q, hq, hslot⟩
    · rcases hone with hbest | hp
      · exact .inl (hslot.trans hbest)
      · exact .inr ⟨p, List.mem_cons_self, hslot.trans hp⟩
    · exact .inr ⟨q, List.mem_cons_of_mem _ hq, hslot⟩

variable (cost) in
/-- The best offer beats the one to start with if that of the first cluster does. -/
theorem exists_slot_foldl_better (h : Histogram) {p : Cluster × Nat}
    (clusters : List (Cluster × Nat)) (best : Offer)
    (hlt : cost (p.1.histogram.combine h) - p.1.cost < best.growth) :
    ∃ q ∈ p :: clusters, ((p :: clusters).foldl (better cost h) best).slot = q.2 := by
  rw [List.foldl_cons]
  have hone : (better cost h best p).slot = p.2 := by
    unfold better
    dsimp only
    rw [if_pos hlt]
  rcases slot_foldl_better cost h clusters (better cost h best p) with hslot | ⟨q, hq, hslot⟩
  · exact ⟨p, List.mem_cons_self, hslot.trans hone⟩
  · exact ⟨q, List.mem_cons_of_mem _ hq, hslot⟩

/-- The clusters are numbered. -/
theorem snd_lt_of_mem_zipIdx (c : Clustering) :
    ∀ p ∈ c.clusters.toList.zipIdx, p.2 < c.clusters.size := by
  intro p hp
  have := List.snd_lt_of_mem_zipIdx hp
  rwa [Array.length_toList] at this

variable (cost budget) in
theorem slot_best_le (c : Clustering) (h : Histogram) :
    (c.best cost budget h).slot ≤ c.clusters.size := by
  rcases slot_foldl_better cost h c.clusters.toList.zipIdx
    (newCluster cost budget c h) with hslot | ⟨q, hq, hslot⟩
  · exact Nat.le_of_eq hslot
  · exact Nat.le_of_lt (hslot ▸ c.snd_lt_of_mem_zipIdx q hq)

theorem hasRoom_best_of_lt {c : Clustering} (hlt : c.clusters.size < limit) (h : Histogram) :
    c.HasRoom limit (c.best cost budget h) :=
  (Nat.lt_or_eq_of_le (slot_best_le cost budget c h)).imp_right fun hslot ↦ ⟨hslot, hlt⟩

/-- There is room for the best offer within the budget if a growth compares below the one that is
forbidden. -/
theorem hasRoom_best {c : Clustering} {h : Histogram} (hbudget : 1 ≤ budget)
    (hgrowth : ∀ cluster ∈ c.clusters.toList,
      cost (cluster.histogram.combine h) - cluster.cost < forbiddenGrowth) :
    c.HasRoom budget (c.best cost budget h) := by
  by_cases hspent : budget ≤ c.clusters.size
  · have hnew : (newCluster cost budget c h).growth = forbiddenGrowth := if_pos hspent
    have hplace := c.snd_lt_of_mem_zipIdx
    unfold best
    cases hlist : c.clusters.toList with
    | nil =>
      have : c.clusters.size = 0 := by rw [← Array.length_toList, hlist]; rfl
      omega
    | cons cluster clusters =>
      rw [hlist] at hplace hgrowth
      rw [List.zipIdx_cons] at hplace ⊢
      obtain ⟨q, hq, hslot⟩ := exists_slot_foldl_better cost h (p := (cluster, 0))
        (clusters.zipIdx (0 + 1)) (newCluster cost budget c h)
        (hnew ▸ hgrowth cluster List.mem_cons_self)
      exact .inl (hslot ▸ hplace q hq)
  · exact hasRoom_best_of_lt (Nat.not_le.1 hspent) h

/-! ## Placing a context -/

variable (cost) in
theorem size_clusters_join (c : Clustering) (h : Histogram) (offer : Offer) :
    (c.join cost h offer).clusters.size =
      if offer.slot = c.clusters.size then c.clusters.size + 1 else c.clusters.size := by
  unfold join
  dsimp only
  split
  · exact Array.size_push _
  · exact Array.size_modify

/-- A place that has room can be told by a byte. -/
theorem Covered.toNat_slot {c : Clustering} (hc : c.Covered limit) (hmax : limit ≤ maxClusters)
    {offer : Offer} (hroom : c.HasRoom limit offer) :
    (UInt8.ofNat offer.slot).toNat = offer.slot := by
  have hle := hc.size_le
  have hlt : offer.slot < limit := by
    unfold HasRoom at hroom
    omega
  exact UInt8.toNat_ofNat_of_lt' (Nat.lt_of_lt_of_le hlt hmax)

/-- Taking an offer for which there is room keeps contexts and clusters together. -/
theorem Covered.join {c : Clustering} (hc : c.Covered limit) (h : Histogram) {offer : Offer}
    (hmax : limit ≤ maxClusters) (hroom : c.HasRoom limit offer) :
    (c.join cost h offer).Covered limit := by
  have hsize := size_clusters_join cost c h offer
  have hle := hc.size_le
  have hentries : (c.join cost h offer).entries.toList =
      c.entries.toList ++ [UInt8.ofNat offer.slot] := Array.toList_push
  have hbyte := hc.toNat_slot hmax hroom
  have hgrows : c.clusters.size ≤ (c.join cost h offer).clusters.size ∧
      offer.slot < (c.join cost h offer).clusters.size ∧
      (c.join cost h offer).clusters.size ≤ limit := by
    unfold HasRoom at hroom
    rw [hsize]
    split <;> omega
  refine ⟨hgrows.2.2, ?_, fun k hk ↦ ?_⟩
  · rw [hentries]
    refine List.forall_mem_append.2 ⟨fun entry he ↦ ?_, List.forall_mem_singleton.2 ?_⟩
    · have := hc.entry_lt entry he
      omega
    · rw [hbyte]
      omega
  · rw [hentries]
    by_cases hlast : k = offer.slot
    · exact ⟨_, List.mem_append_right _ List.mem_cons_self, hbyte.trans hlast.symm⟩
    · have hold : k < c.clusters.size := by
        rw [hsize] at hk
        split at hk <;> omega
      obtain ⟨entry, he, hk⟩ := hc.exists_entry k hold
      exact ⟨entry, List.mem_append_left _ he, hk⟩

/-- Placing a context keeps contexts and clusters together. -/
theorem Covered.place {c : Clustering} (hc : c.Covered limit) {h : Histogram}
    (hmax : limit ≤ maxClusters)
    (hroom : h.isEmpty = false → c.HasRoom limit (c.best cost budget h)) :
    (c.place cost budget h).Covered limit := by
  unfold Clustering.place
  split
  · have hentries : (c.entries.push 0).toList = c.entries.toList ++ [0] := Array.toList_push
    refine ⟨hc.size_le, ?_, fun k hk ↦ ?_⟩
    · dsimp only
      rw [hentries]
      refine List.forall_mem_append.2 ⟨hc.entry_lt, List.forall_mem_singleton.2 ?_⟩
      exact Nat.lt_of_lt_of_le Nat.zero_lt_one (Nat.le_max_left _ _)
    · obtain ⟨entry, he, hk⟩ := hc.exists_entry k hk
      dsimp only
      rw [hentries]
      exact ⟨entry, List.mem_append_left _ he, hk⟩
  · next hne => exact hc.join h hmax (hroom (by simpa using hne))

variable (cost budget) in
theorem size_clusters_place_le (c : Clustering) (h : Histogram) :
    (c.place cost budget h).clusters.size ≤ c.clusters.size + 1 := by
  unfold Clustering.place
  split
  · exact Nat.le_succ _
  · rw [size_clusters_join]
    split <;> omega

theorem size_entries_place (c : Clustering) (h : Histogram) :
    (c.place cost budget h).entries.size = c.entries.size + 1 := by
  unfold Clustering.place
  split
  · exact Array.size_push _
  · exact Array.size_push _

/-! ## The whole list -/

variable (cost budget) in
theorem ofHistograms_append_singleton (done : List Histogram) (h : Histogram) :
    ofHistograms cost budget (done ++ [h]) =
      (ofHistograms cost budget done).place cost budget h := by
  rw [ofHistograms, List.foldl_append]
  rfl

/-- What holds before the first context is placed and is kept by placing one, for which there is room,
holds in the end. -/
theorem StaysWithin.induction {histograms : List Histogram}
    (hwithin : StaysWithin cost budget limit histograms) {P : List Histogram → Clustering → Prop}
    (hnil : P [] {})
    (hplace : ∀ done c h, P done c →
      (h.isEmpty = false → c.HasRoom limit (c.best cost budget h)) →
      P (done ++ [h]) (c.place cost budget h)) :
    P histograms (ofHistograms cost budget histograms) := by
  have hrun : ∀ rest done, histograms = done ++ rest → P done (ofHistograms cost budget done) →
      P histograms (ofHistograms cost budget histograms) := by
    intro rest
    induction rest with
    | nil =>
      rintro done rfl hdone
      rwa [List.append_nil]
    | cons h rest ih =>
      intro done heq hdone
      have hplaced := hplace done _ h hdone (hwithin done h rest heq)
      rw [← ofHistograms_append_singleton] at hplaced
      exact ih (done ++ [h]) (by rw [heq, List.append_assoc]; rfl) hplaced
  exact hrun histograms [] rfl hnil

variable (cost budget) in
/-- There are no more clusters than contexts. -/
theorem size_clusters_ofHistograms_le (histograms : List Histogram) :
    (ofHistograms cost budget histograms).clusters.size ≤ histograms.length := by
  have hrun : ∀ c : Clustering, (histograms.foldl (place cost budget) c).clusters.size ≤
      c.clusters.size + histograms.length := by
    induction histograms with
    | nil => exact fun c ↦ Nat.le_refl _
    | cons h histograms ih =>
      intro c
      have hone := size_clusters_place_le cost budget c h
      have hrest := ih (c.place cost budget h)
      rw [List.foldl_cons, List.length_cons]
      omega
  exact Nat.le_trans (hrun {}) (Nat.le_of_eq (Nat.zero_add _))

/-- There is room for all contexts if there are no more of them than clusters allowed. -/
theorem staysWithin_of_length_le {histograms : List Histogram} (hle : histograms.length ≤ limit) :
    StaysWithin cost budget limit histograms := by
  rintro done h rest rfl -
  have hsize := size_clusters_ofHistograms_le cost budget done
  rw [List.length_append, List.length_cons] at hle
  exact hasRoom_best_of_lt (by omega) h

/-- There is room within the budget if a growth always compares below the one that is forbidden. -/
theorem GrowthBounded.staysWithin {histograms : List Histogram} (hbudget : 1 ≤ budget)
    (hgrowth : GrowthBounded cost budget histograms) :
    StaysWithin cost budget budget histograms :=
  fun done h rest heq hused ↦ hasRoom_best hbudget (hgrowth done h rest heq hused)

theorem StaysWithin.mono {limit' : Nat} {histograms : List Histogram}
    (hwithin : StaysWithin cost budget limit histograms) (hle : limit ≤ limit') :
    StaysWithin cost budget limit' histograms :=
  fun done h rest heq hused ↦
    (hwithin done h rest heq hused).imp_right fun ⟨hslot, hlt⟩ ↦ ⟨hslot, Nat.lt_of_lt_of_le hlt hle⟩

/-- A map can address the clusters unless there are more contexts than it has numbers and a growth
does not compare below the one that is forbidden. -/
theorem staysWithin_maxClusters {histograms : List Histogram} (hbudget : 1 ≤ budget)
    (hmax : budget ≤ maxClusters)
    (hgrowth : maxClusters < histograms.length → GrowthBounded cost budget histograms) :
    StaysWithin cost budget maxClusters histograms := by
  by_cases hmany : maxClusters < histograms.length
  · exact ((hgrowth hmany).staysWithin hbudget).mono hmax
  · exact staysWithin_of_length_le (Nat.not_lt.1 hmany)

/-- In the end every context has a cluster and every cluster a context. -/
theorem covered_ofHistograms {histograms : List Histogram} (hmax : limit ≤ maxClusters)
    (hwithin : StaysWithin cost budget limit histograms) :
    (ofHistograms cost budget histograms).Covered limit ∧
      (ofHistograms cost budget histograms).entries.size = histograms.length := by
  refine hwithin.induction (P := fun done c ↦ c.Covered limit ∧ c.entries.size = done.length)
    ⟨covered_nil limit, rfl⟩ ?_
  rintro done c h ⟨hcovered, hsize⟩ hroom
  refine ⟨hcovered.place hmax hroom, ?_⟩
  rw [size_entries_place, hsize, List.length_append, List.length_singleton]

/-- There is a cluster even if no context has been in use. -/
theorem clusters_map (c : Clustering) : c.map.clusters = max 1 c.clusters.size := by
  show c.histograms.size = _
  unfold Clustering.histograms
  split
  · next hempty =>
    rw [Array.isEmpty_iff] at hempty
    rw [hempty]
    rfl
  · next hnonempty =>
    rw [Array.isEmpty_iff_size_eq_zero] at hnonempty
    rw [Array.size_map]
    omega

/-- The map that clustering some contexts gives is one that a reader can rebuild. -/
theorem tight_map_ofHistograms {histograms : List Histogram} (hne : histograms ≠ [])
    (hwithin : StaysWithin cost budget maxClusters histograms) :
    (ofHistograms cost budget histograms).map.Tight ∧
      (ofHistograms cost budget histograms).map.contexts = histograms.length := by
  obtain ⟨⟨hle, hlt, hexists⟩, hsize⟩ := covered_ofHistograms (Nat.le_refl _) hwithin
  generalize ofHistograms cost budget histograms = c at *
  refine ⟨⟨?_, fun _ ↦ ?_, ?_⟩, hsize⟩
  · rw [clusters_map]
    exact hlt
  · rw [clusters_map]
    rcases Nat.eq_zero_or_pos c.clusters.size with hzero | hpos
    · -- without clusters the only entry is that of the first one
      have hentries : c.entries.toList ≠ [] := by
        rw [Ne, ← List.length_eq_zero_iff, Array.length_toList, hsize, List.length_eq_zero_iff]
        exact hne
      obtain ⟨entry, he⟩ := List.exists_mem_of_ne_nil _ hentries
      have := hlt entry he
      exact ⟨entry, he, by omega⟩
    · obtain ⟨entry, he, hk⟩ := hexists (c.clusters.size - 1) (by omega)
      exact ⟨entry, he, by omega⟩
  · rw [clusters_map]
    unfold maxClusters at *
    omega

end Clustering

theorem isClusterBudget_iff {budget : Nat} :
    isClusterBudget budget ↔ 1 ≤ budget ∧ budget ≤ maxClusters := by
  rw [isClusterBudget, Bool.and_eq_true, decide_eq_true_eq, decide_eq_true_eq]

/-- What clustering gives, if the budget is accepted. -/
theorem clusterHistograms_eq_ok_iff {cost : CostEstimate} {budget : Nat}
    {histograms : List Histogram} {map : ContextMap} {clusters : Array Histogram} :
    clusterHistograms cost budget histograms = .ok (map, clusters) ↔
      isClusterBudget budget ∧ (Clustering.ofHistograms cost budget histograms).map = map ∧
        (Clustering.ofHistograms cost budget histograms).histograms = clusters := by
  unfold clusterHistograms
  split
  · next hbudget =>
    rw [Except.ok.injEq, Prod.mk.injEq]
    exact (and_iff_right hbudget).symm
  · next hbudget =>
    constructor
    · intro h
      cases h
    · rintro ⟨h, -⟩
      exact absurd h hbudget

namespace Clustering

variable {cost : CostEstimate} {budget : Nat}

/-! ## Two contexts -/

theorem ofHistograms_singleton {h : Histogram} (hused : h.isEmpty = false) :
    ofHistograms cost budget [h] = ⟨#[0], #[⟨h, cost h⟩]⟩ := by
  rw [ofHistograms, List.foldl_cons, List.foldl_nil, Clustering.place, hused, if_neg (by decide)]
  rfl

/-- For two contexts in use a single growth is compared. -/
theorem growthBounded_pair {h h' : Histogram} (hused : h.isEmpty = false)
    (hlt : cost (h.combine h') - cost h < forbiddenGrowth) : GrowthBounded cost budget [h, h'] := by
  intro done next rest heq _ cluster hcluster
  match done, heq with
  | [], _ => cases hcluster
  | [first], heq =>
    obtain ⟨hfirst, heq⟩ := List.cons.inj heq
    obtain ⟨hnext, -⟩ := List.cons.inj heq
    rw [← hfirst, ofHistograms_singleton hused] at hcluster
    obtain rfl := List.mem_singleton.1 hcluster
    rw [← hnext]
    exact hlt
  | _ :: _ :: done, heq =>
    have hlen := congrArg List.length heq
    simp at hlen

variable (cost) in
/-- Two contexts in use share the cluster if there may be only one. -/
theorem exists_ofHistograms_pair {h h' : Histogram} (hused : h.isEmpty = false)
    (hused' : h'.isEmpty = false) (hlt : cost (h.combine h') - cost h < forbiddenGrowth) :
    ∃ total, ofHistograms cost 1 [h, h'] = ⟨#[0, 0], #[⟨h.combine h', total⟩]⟩ := by
  have hroom := hasRoom_best (c := ⟨#[0], #[⟨h, cost h⟩]⟩) (h := h') (Nat.le_refl 1)
    fun cluster hcluster ↦ by
      obtain rfl := List.mem_singleton.1 hcluster
      exact hlt
  have hfirst : (best cost 1 ⟨#[0], #[⟨h, cost h⟩]⟩ h').slot = 0 := by
    rcases hroom with hold | ⟨-, hnew⟩
    · exact Nat.lt_one_iff.1 hold
    · exact absurd hnew (Nat.lt_irrefl 1)
  have happend := ofHistograms_append_singleton cost 1 [h] h'
  rw [ofHistograms_singleton hused, Clustering.place, hused', if_neg (by decide), Clustering.join,
    hfirst] at happend
  exact ⟨_, happend⟩

end Clustering

/-- Two contexts in use are merged if there may be only one cluster. -/
theorem clusterHistograms_of_pair (cost : CostEstimate) {h h' : Histogram}
    (hused : h.isEmpty = false) (hused' : h'.isEmpty = false)
    (hlt : cost (h.combine h') - cost h < Clustering.forbiddenGrowth) :
    clusterHistograms cost 1 [h, h'] = .ok (⟨#[0, 0], 1⟩, #[h.combine h']) := by
  obtain ⟨total, hpair⟩ := Clustering.exists_ofHistograms_pair cost hused hused' hlt
  rw [clusterHistograms, hpair]
  simp only [Clustering.map, Clustering.histograms, List.map_toArray]
  rfl

end EntropyCoding
