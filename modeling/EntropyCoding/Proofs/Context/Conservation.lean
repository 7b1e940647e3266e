import EntropyCoding.Proofs.Context.Clustering
import EntropyCoding.Proofs.Histogram.Sum

/-!
# Clustering loses no counts

Clustering splits the contexts in use among the clusters, and each cluster is the sum of the histograms
that are mapped to it: `IsClustering` says so, and `clusterHistograms_isClustering` that this is what
clustering gives, whatever the estimates of cost.  Clusters are numbered in the order in which contexts
first use them.

What is kept while contexts are placed is `Clustering.Conserves`: placing a context either opens the
next cluster with its histogram or adds the histogram to one of the clusters, and the entry of the
context names that cluster.
-/

namespace EntropyCoding

namespace ContextMap

variable (m : ContextMap)

/-- The map sends the context to cluster `k`. -/
def sends (k context : Nat) : Bool :=
  match m.cluster context with
  | .ok cluster => cluster == k
  | .error _ => false

/-- The histograms of the contexts that are sent to cluster `k`. -/
def members (histograms : List Histogram) (k : Nat) : List Histogram :=
  (histograms.zipIdx.filter fun p ↦ m.sends k p.2).map Prod.fst

/-- The clusters of the contexts in use, in the order of the contexts. -/
def uses (histograms : List Histogram) : List Nat :=
  (histograms.zipIdx.filter fun p ↦ !p.1.isEmpty).filterMap fun p ↦ (m.cluster p.2).toOption

/-- The sums of histograms, one for each cluster that contexts are sent to. -/
def merge (histograms : List Histogram) : Array Histogram :=
  ((List.range m.clusters).map fun k ↦ (m.members histograms k).sum).toArray

theorem mem_of_mem_members {m : ContextMap} {histograms : List Histogram} {k : Nat} {h : Histogram}
    (hmem : h ∈ m.members histograms k) : h ∈ histograms := by
  obtain ⟨p, hp, rfl⟩ := List.mem_map.1 hmem
  exact List.fst_mem_of_mem_zipIdx (List.mem_filter.1 hp).1

theorem members_map_range (n : Nat) (f : Nat → Histogram) (k : Nat) :
    m.members ((List.range n).map f) k = ((List.range n).filter (m.sends k)).map f := by
  have hzip : ((List.range n).map f).zipIdx = (List.range n).map fun context ↦ (f context, context) :=
    List.ext_getElem (by simp) fun i _ _ ↦ by simp
  rw [members, hzip, List.filter_map, List.map_map]
  rfl

/-! ## One context more -/

variable {m} {m' : ContextMap} {entry : UInt8} (hentries : m'.entries = m.entries.push entry)
include hentries

theorem cluster_contexts_of_push : m'.cluster m.contexts = .ok entry.toNat := by
  rw [cluster, hentries, contexts, Array.getElem?_push_size]

theorem cluster_of_push {context : Nat} (hlt : context < m.contexts) :
    m'.cluster context = m.cluster context := by
  have hne : context ≠ m.entries.size := Nat.ne_of_lt hlt
  have hget : m.entries[context]? = some m.entries[context] := Array.getElem?_eq_getElem hlt
  rw [cluster, cluster, hentries, Array.getElem?_push, if_neg hne, hget]

variable {done : List Histogram} (hlen : m.contexts = done.length) (h : Histogram)
include hlen

/-- The context of the last entry joins the others of its cluster. -/
theorem members_append_singleton (k : Nat) :
    m'.members (done ++ [h]) k = m.members done k ++ if entry.toNat = k then [h] else [] := by
  have hold : (done.zipIdx.filter fun p ↦ m'.sends k p.2) =
      done.zipIdx.filter fun p ↦ m.sends k p.2 := by
    refine List.filter_congr fun p hp ↦ ?_
    rw [sends, sends, cluster_of_push hentries (hlen ▸ List.snd_lt_of_mem_zipIdx hp)]
  have hnew : m'.sends k done.length = decide (entry.toNat = k) := by
    rw [sends, ← hlen, cluster_contexts_of_push hentries]
    exact beq_eq_decide _ _
  rw [members, members, List.zipIdx_append, List.filter_append, hold, List.map_append,
    Nat.zero_add, List.zipIdx_singleton]
  by_cases hk : entry.toNat = k
  · simp [hnew, hk]
  · simp [hnew, hk]

/-- The cluster of the last context comes last, if the context is in use. -/
theorem uses_append_singleton :
    m'.uses (done ++ [h]) = m.uses done ++ if h.isEmpty then [] else [entry.toNat] := by
  have hold : ((done.zipIdx.filter fun p ↦ !p.1.isEmpty).filterMap fun p ↦
      (m'.cluster p.2).toOption) = m.uses done := by
    refine List.filterMap_congr fun p hp ↦ ?_
    have hlt := List.snd_lt_of_mem_zipIdx (List.mem_filter.1 hp).1
    rw [cluster_of_push hentries (hlen ▸ hlt)]
  have hnew : m'.cluster done.length = .ok entry.toNat := by
    rw [← hlen, cluster_contexts_of_push hentries]
  rw [uses, List.zipIdx_append, List.filter_append, List.filterMap_append, hold, Nat.zero_add,
    List.zipIdx_singleton]
  cases hempty : h.isEmpty with
  | true => simp [hempty]
  | false => simp [hempty, hnew, Except.toOption]

end ContextMap

namespace Clustering

variable {cost : CostEstimate} {budget limit : Nat}

/-- The histogram of cluster `k`; a cluster that there is not yet has counted nothing. -/
def sumOf (c : Clustering) (k : Nat) : Histogram :=
  c.clusters[k]?.elim 0 Cluster.histogram

/-- The clusters so far are the sums of the contexts placed so far, numbered as they have been first
used. -/
structure Conserves (done : List Histogram) (c : Clustering) : Prop where
  /-- There is an entry for each context. -/
  contexts_eq : c.map.contexts = done.length
  /-- A cluster is the sum of the contexts in use that are sent to it. -/
  sumOf_eq : ∀ k, c.sumOf k = ((c.map.members done k).filter (!·.isEmpty)).sum
  /-- The clusters count just what the contexts in use count. -/
  sum_eq : (c.clusters.toList.map Cluster.histogram).sum = (done.filter (!·.isEmpty)).sum
  /-- No cluster is empty. -/
  used : ∀ k < c.clusters.size, (c.sumOf k).isEmpty = false
  /-- Clusters are numbered in the order of their first uses. -/
  eraseDups_uses : (c.map.uses done).eraseDups = List.range c.clusters.size

theorem conserves_nil : Conserves [] {} where
  contexts_eq := rfl
  sumOf_eq _ := rfl
  sum_eq := rfl
  used := nofun
  eraseDups_uses := rfl

/-! ## Placing a context -/

/-- The cluster offered grows by the histogram. -/
theorem sumOf_join (c : Clustering) (h : Histogram) {offer : Offer}
    (hslot : offer.slot ≤ c.clusters.size) (k : Nat) :
    (c.join cost h offer).sumOf k = c.sumOf k + if offer.slot = k then h else 0 := by
  unfold sumOf Clustering.join
  dsimp only
  split
  · next hnew =>
    rw [Array.getElem?_push, hnew]
    by_cases hk : k = c.clusters.size
    · rw [if_pos hk, if_pos hk.symm, hk, Array.getElem?_size]
      exact (zero_add h).symm
    · rw [if_neg hk, if_neg (Ne.symm hk), add_zero]
  · next hold =>
    rw [Array.getElem?_modify]
    split
    · next hk =>
      rw [← hk, Array.getElem?_eq_getElem (Nat.lt_of_le_of_ne hslot hold)]
      rfl
    · rw [add_zero]

/-- Adding to one item of a list adds to the sum. -/
theorem sum_map_modify {α M : Type} [AddCommMonoid M] {f : α → α} {g : α → M} {m : M}
    (hf : ∀ a, g (f a) = g a + m) {l : List α} {i : Nat} (hi : i < l.length) :
    ((l.modify i f).map g).sum = (l.map g).sum + m := by
  induction l generalizing i with
  | nil => cases hi
  | cons a l ih =>
    match i, hi with
    | 0, _ => rw [List.modify_zero_cons, List.map_cons, List.sum_cons, hf, List.map_cons,
        List.sum_cons, add_right_comm]
    | i + 1, hi => rw [List.modify_succ_cons, List.map_cons, List.sum_cons,
        ih (Nat.lt_of_succ_lt_succ hi), List.map_cons, List.sum_cons, add_assoc]

/-- All clusters together grow by the histogram. -/
theorem sum_clusters_join (c : Clustering) (h : Histogram) {offer : Offer}
    (hslot : offer.slot ≤ c.clusters.size) :
    ((c.join cost h offer).clusters.toList.map Cluster.histogram).sum =
      (c.clusters.toList.map Cluster.histogram).sum + h := by
  unfold Clustering.join
  dsimp only
  split
  · rw [Array.toList_push, List.map_append, List.sum_append]
    exact congrArg (_ + ·) (add_zero h)
  · next hold =>
    rw [Array.toList_modify]
    exact sum_map_modify (fun _ ↦ rfl) (Nat.lt_of_le_of_ne hslot hold)

/-- The next cluster is opened at its first use. -/
theorem eraseDups_append_singleton {l : List Nat} {n k : Nat} (hl : l.eraseDups = List.range n)
    (hk : k ≤ n) :
    (l ++ [k]).eraseDups = List.range (if k = n then n + 1 else n) := by
  have hmem : k ∈ l ↔ k < n := by
    rw [← List.mem_eraseDups, hl, List.mem_range]
  rw [List.eraseDups_append, hl]
  split
  · next hnew =>
    have hnot : k ∉ l := fun h ↦ Nat.ne_of_lt (hmem.1 h) hnew
    rw [List.removeAll, List.filter_cons_of_pos (by simpa using hnot), hnew, List.range_succ]
    rfl
  · next hold =>
    have hin : k ∈ l := hmem.2 (Nat.lt_of_le_of_ne hk hold)
    rw [List.removeAll, List.filter_cons_of_neg (by simpa using hin)]
    exact List.append_nil _

/-- Taking an offer keeps clusters the sums of their contexts. -/
theorem Conserves.join {done : List Histogram} {c : Clustering} (hc : c.Conserves done)
    {h : Histogram} (hused : h.isEmpty = false) {offer : Offer}
    (hslot : offer.slot ≤ c.clusters.size) (hbyte : (UInt8.ofNat offer.slot).toNat = offer.slot) :
    (c.join cost h offer).Conserves (done ++ [h]) := by
  have hentries : (c.join cost h offer).map.entries = c.map.entries.push (UInt8.ofNat offer.slot) :=
    rfl
  have hsize := size_clusters_join cost c h offer
  refine ⟨?_, fun k ↦ ?_, ?_, fun k hk ↦ ?_, ?_⟩
  · rw [ContextMap.contexts, hentries, Array.size_push, List.length_append, List.length_singleton]
    exact congrArg (· + 1) hc.contexts_eq
  · rw [sumOf_join c h hslot, hc.sumOf_eq,
      ContextMap.members_append_singleton hentries hc.contexts_eq, hbyte, List.filter_append,
      List.sum_append]
    split
    · simp [hused]
    · simp
  · rw [sum_clusters_join c h hslot, hc.sum_eq, List.filter_append, List.sum_append]
    simp [hused]
  · rw [sumOf_join c h hslot, Histogram.isEmpty_add]
    by_cases hnew : offer.slot = k
    · rw [if_pos hnew, hused, Bool.and_false]
    · rw [hc.used k (by split at hsize <;> omega), Bool.false_and]
  · rw [ContextMap.uses_append_singleton hentries hc.contexts_eq, hused, if_neg (by decide), hbyte,
      eraseDups_append_singleton hc.eraseDups_uses hslot, hsize]

/-- A context that is not in use changes no cluster. -/
theorem Conserves.push {done : List Histogram} {c : Clustering} (hc : c.Conserves done)
    {h : Histogram} (hempty : h.isEmpty) :
    Conserves (done ++ [h]) { c with entries := c.entries.push 0 } := by
  have hentries : (Clustering.map { c with entries := c.entries.push 0 }).entries =
      c.map.entries.push 0 := rfl
  refine ⟨?_, fun k ↦ ?_, ?_, hc.used, ?_⟩
  · rw [ContextMap.contexts, hentries, Array.size_push, List.length_append, List.length_singleton]
    exact congrArg (· + 1) hc.contexts_eq
  · rw [ContextMap.members_append_singleton hentries hc.contexts_eq, List.filter_append,
      List.sum_append, ← hc.sumOf_eq]
    split
    · simp [hempty, sumOf]
    · simp [sumOf]
  · rw [List.filter_append, List.sum_append, ← hc.sum_eq]
    simp [hempty]
  · rw [ContextMap.uses_append_singleton hentries hc.contexts_eq, if_pos hempty, List.append_nil,
      hc.eraseDups_uses]

/-- Placing a context keeps clusters the sums of their contexts. -/
theorem Conserves.place {done : List Histogram} {c : Clustering} (hc : c.Conserves done)
    (hcovered : c.Covered limit) {h : Histogram} (hmax : limit ≤ maxClusters)
    (hroom : h.isEmpty = false → c.HasRoom limit (c.best cost budget h)) :
    (c.place cost budget h).Conserves (done ++ [h]) := by
  unfold Clustering.place
  split
  · next hempty => exact hc.push hempty
  · next hne =>
    have hused : h.isEmpty = false := by simpa using hne
    exact hc.join hused (slot_best_le cost budget c h) (hcovered.toNat_slot hmax (hroom hused))

/-! ## The whole list -/

/-- In the end clusters are the sums of their contexts. -/
theorem conserves_ofHistograms {histograms : List Histogram} (hmax : limit ≤ maxClusters)
    (hwithin : StaysWithin cost budget limit histograms) :
    (ofHistograms cost budget histograms).Covered limit ∧
      (ofHistograms cost budget histograms).Conserves histograms :=
  hwithin.induction (P := fun done c ↦ c.Covered limit ∧ c.Conserves done)
    ⟨covered_nil limit, conserves_nil⟩ fun _ _ _ ⟨hcovered, hc⟩ hroom ↦
      ⟨hcovered.place hmax hroom, hc.place hcovered hmax hroom⟩

/-- The clusters given are those so far, or one that is empty. -/
theorem toList_histograms (c : Clustering) :
    c.histograms.toList = (List.range c.histograms.size).map c.sumOf := by
  unfold Clustering.histograms
  split
  · next hempty =>
    have hnone : c.sumOf 0 = Histogram.empty := by
      rw [sumOf, Array.isEmpty_iff.1 hempty]
      rfl
    exact (congrArg ([·]) hnone).symm
  · refine List.ext_getElem (by simp) fun k hk _ ↦ ?_
    have hlt : k < c.clusters.size := by simpa using hk
    simp [sumOf, Array.getElem?_eq_getElem hlt]

theorem sum_histograms (c : Clustering) :
    c.histograms.toList.sum = (c.clusters.toList.map Cluster.histogram).sum := by
  unfold Clustering.histograms
  split
  · next hempty =>
    rw [Array.isEmpty_iff.1 hempty]
    rfl
  · rw [Array.toList_map]

/-- There are clusters once a context is in use. -/
theorem Conserves.size_clusters_pos {done : List Histogram} {c : Clustering} (hc : c.Conserves done)
    (hused : ∃ h ∈ done, h.isEmpty = false) : 0 < c.clusters.size := by
  obtain ⟨h, hmem, hused⟩ := hused
  refine Nat.pos_of_ne_zero fun hzero ↦ ?_
  have hsum := hc.sum_eq
  rw [Array.eq_empty_of_size_eq_zero hzero] at hsum
  have hall := Histogram.isEmpty_sum (done.filter (!·.isEmpty))
  rw [← hsum] at hall
  have hin : h ∈ done.filter (!·.isEmpty) := List.mem_filter.2 ⟨hmem, by rw [hused]; rfl⟩
  rw [List.all_eq_true.1 hall.symm h hin] at hused
  cases hused

end Clustering

open Clustering

/-- The clusters are the sums of the contexts in use that the map sends to them. -/
structure IsClustering (limit : Nat) (histograms : List Histogram) (map : ContextMap)
    (clusters : Array Histogram) : Prop where
  /-- The map has an entry for each context. -/
  contexts_eq : map.contexts = histograms.length
  /-- There are no more clusters than allowed. -/
  size_le : clusters.size ≤ limit
  /-- The map has the number of clusters that there are. -/
  clusters_eq : map.clusters = clusters.size
  /-- Every entry of the map names a cluster. -/
  entry_lt : ∀ entry ∈ map.entries.toList, entry.toNat < clusters.size
  /-- Each cluster is the sum of the contexts in use that are sent to it. -/
  toList_eq : clusters.toList = (List.range clusters.size).map fun k ↦
    ((map.members histograms k).filter (!·.isEmpty)).sum
  /-- All clusters together are the sum of all contexts in use. -/
  sum_eq : clusters.toList.sum = (histograms.filter (!·.isEmpty)).sum
  /-- No cluster is empty, unless no context is in use. -/
  used : (∃ h ∈ histograms, h.isEmpty = false) → ∀ cluster ∈ clusters.toList,
    cluster.isEmpty = false
  /-- Clusters are numbered in the order in which contexts first use them, if any does. -/
  eraseDups_uses : (∃ h ∈ histograms, h.isEmpty = false) →
    (map.uses histograms).eraseDups = List.range clusters.size

/-- Clustering gives the sums of the contexts in use, whatever the estimates, as long as there is room
within the limit. -/
theorem isClustering_ofHistograms {cost : CostEstimate} {budget limit : Nat}
    {histograms : List Histogram} (hlimit : 1 ≤ limit) (hmax : limit ≤ maxClusters)
    (hwithin : StaysWithin cost budget limit histograms) :
    IsClustering limit histograms (ofHistograms cost budget histograms).map
      (ofHistograms cost budget histograms).histograms := by
  obtain ⟨hcovered, hc⟩ := conserves_ofHistograms hmax hwithin
  generalize ofHistograms cost budget histograms = c at *
  have hsize : c.histograms.size = max 1 c.clusters.size := clusters_map c
  have hle := hcovered.size_le
  have hinuse : (∃ h ∈ histograms, h.isEmpty = false) → c.histograms.size = c.clusters.size := by
    intro hused
    have := hc.size_clusters_pos hused
    omega
  refine ⟨hc.contexts_eq, by omega, rfl, fun entry hentry ↦ ?_, ?_, ?_, fun hused ↦ ?_, fun hused ↦ ?_⟩
  · rw [hsize]
    exact hcovered.entry_lt entry hentry
  · rw [toList_histograms]
    exact List.map_congr_left fun k _ ↦ hc.sumOf_eq k
  · rw [sum_histograms, hc.sum_eq]
  · intro cluster hcluster
    rw [toList_histograms, hinuse hused] at hcluster
    obtain ⟨k, hk, rfl⟩ := List.mem_map.1 hcluster
    exact hc.used k (List.mem_range.1 hk)
  · rw [hinuse hused, hc.eraseDups_uses]

/-- For a budget that is accepted clustering gives clusters within the budget that are the sums of the
contexts in use, whatever the estimates of cost, as long as a growth always compares below the one that
is forbidden. -/
theorem clusterHistograms_isClustering {cost : CostEstimate} {budget : Nat}
    {histograms : List Histogram} (hbudget : isClusterBudget budget)
    (hgrowth : GrowthBounded cost budget histograms) :
    ∃ map clusters, clusterHistograms cost budget histograms = .ok (map, clusters) ∧
      IsClustering budget histograms map clusters := by
  obtain ⟨hleast, hmax⟩ := isClusterBudget_iff.1 hbudget
  exact ⟨_, _, clusterHistograms_eq_ok_iff.2 ⟨hbudget, rfl, rfl⟩,
    isClustering_ofHistograms hleast hmax (hgrowth.staysWithin hleast)⟩

/-- Three contexts in use and one that is not, with estimates that say nothing: the last one has to
join another when there may be two clusters only. -/
theorem clusterHistograms_isClustering_four : ∃ map clusters,
    clusterHistograms (fun _ ↦ 0) 2 [.ofCounts [2, 1], .ofCounts [0, 0], .ofCounts [0, 3],
      .ofCounts [1]] = .ok (map, clusters) ∧
    IsClustering 2 [.ofCounts [2, 1], .ofCounts [0, 0], .ofCounts [0, 3], .ofCounts [1]] map
      clusters :=
  clusterHistograms_isClustering (by decide) (by decide +kernel)

end EntropyCoding
