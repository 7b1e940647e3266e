import EntropyCoding.Proofs.Context.Clustering
import EntropyCoding.Proofs.Histogram.Counts

/-!
# Clusters count what their contexts count

Joining a cluster adds counts and takes none away.  So every symbol that a context counts is counted
by the cluster that the context ends up in, `Clustering.exists_histogram_of_counts`, as long as a map
can address the clusters.
-/

namespace EntropyCoding

namespace Clustering

variable {cost : CostEstimate} {budget limit : Nat}

/-- Cluster `k` counts the symbol. -/
def CountsIn (c : Clustering) (k symbol : Nat) : Prop :=
  ∃ cluster, c.clusters[k]? = some cluster ∧ cluster.histogram.Counts symbol

/-- Every symbol of a context that has been placed is counted in the cluster of the context. -/
structure Gathers (done : List Histogram) (c : Clustering) : Prop where
  /-- There is an entry for each context. -/
  size_entries : c.entries.size = done.length
  /-- The cluster of the entry counts the symbol. -/
  counts : ∀ (i : Nat) (h : Histogram) (symbol : Nat), done[i]? = some h → h.Counts symbol →
    ∃ entry : UInt8, c.entries[i]? = some entry ∧ c.CountsIn entry.toNat symbol

/-! ## Placing a context -/

/-- A cluster keeps what it counts when an offer is taken. -/
theorem CountsIn.join {c : Clustering} {k symbol : Nat} (hc : c.CountsIn k symbol) (h : Histogram)
    (offer : Offer) : (c.join cost h offer).CountsIn k symbol := by
  obtain ⟨cluster, hget, hcounts⟩ := hc
  have hlt : k < c.clusters.size := (Array.getElem?_eq_some_iff.1 hget).1
  unfold CountsIn Clustering.join
  dsimp only
  split
  · refine ⟨cluster, ?_, hcounts⟩
    rw [Array.getElem?_push, if_neg (Nat.ne_of_lt hlt), hget]
  · rw [Array.getElem?_modify, hget]
    split
    · exact ⟨_, rfl, hcounts.combine_left h⟩
    · exact ⟨cluster, rfl, hcounts⟩

variable (cost) in
/-- The cluster offered counts the symbols of a context that has joined it. -/
theorem countsIn_join_slot {c : Clustering} {h : Histogram} {offer : Offer} {symbol : Nat}
    (hslot : offer.slot ≤ c.clusters.size) (hcounts : h.Counts symbol) :
    (c.join cost h offer).CountsIn offer.slot symbol := by
  unfold CountsIn join
  dsimp only
  split
  · next hnew =>
    refine ⟨⟨h, cost h⟩, ?_, hcounts⟩
    rw [hnew, Array.getElem?_push_size]
  · next hold =>
    have hlt : offer.slot < c.clusters.size := Nat.lt_of_le_of_ne hslot hold
    rw [Array.getElem?_modify, if_pos rfl, Array.getElem?_eq_getElem hlt]
    exact ⟨_, rfl, hcounts.combine_right c.clusters[offer.slot].histogram⟩

/-- One context more is placed if its entry names a cluster that counts its symbols, and no cluster
loses any. -/
theorem Gathers.push {done : List Histogram} {c c' : Clustering} (hc : c.Gathers done)
    {h : Histogram} {entry : UInt8} (hentries : c'.entries = c.entries.push entry)
    (hkeep : ∀ k symbol, c.CountsIn k symbol → c'.CountsIn k symbol)
    (hnew : ∀ symbol, h.Counts symbol → c'.CountsIn entry.toNat symbol) :
    c'.Gathers (done ++ [h]) where
  size_entries := by
    rw [hentries, Array.size_push, hc.size_entries, List.length_append, List.length_singleton]
  counts i h' symbol hget hcounts := by
    rw [hentries, Array.getElem?_push, hc.size_entries]
    rw [List.getElem?_append] at hget
    split at hget
    · next hold =>
      obtain ⟨entry', hentry, hin⟩ := hc.counts i h' symbol hget hcounts
      rw [if_neg (Nat.ne_of_lt hold)]
      exact ⟨entry', hentry, hkeep _ _ hin⟩
    · next hge =>
      rw [List.getElem?_singleton] at hget
      split at hget
      · cases hget
        rw [if_pos (by omega)]
        exact ⟨entry, rfl, hnew symbol hcounts⟩
      · cases hget

/-- Placing a context keeps the symbols of the others and adds its own. -/
theorem Gathers.place {done : List Histogram} {c : Clustering} (hc : c.Gathers done)
    (hcovered : c.Covered limit) {h : Histogram} (hmax : limit ≤ maxClusters)
    (hroom : h.isEmpty = false → c.HasRoom limit (c.best cost budget h)) :
    (c.place cost budget h).Gathers (done ++ [h]) := by
  unfold Clustering.place
  split
  · next hempty =>
    refine hc.push rfl (fun _ _ hin ↦ hin) fun symbol hcounts ↦ ?_
    rw [hcounts.isEmpty_eq_false] at hempty
    cases hempty
  · next hne =>
    refine hc.push rfl (fun k symbol hin ↦ hin.join h _) fun symbol hcounts ↦ ?_
    rw [hcovered.toNat_slot hmax (hroom (by simpa using hne))]
    exact countsIn_join_slot cost (slot_best_le cost budget c h) hcounts

/-! ## The whole list -/

/-- Each cluster gives its sum. -/
theorem getElem?_histograms {c : Clustering} {k : Nat} {cluster : Cluster}
    (h : c.clusters[k]? = some cluster) : c.histograms[k]? = some cluster.histogram := by
  unfold Clustering.histograms
  split
  · next hempty =>
    rw [Array.isEmpty_iff.1 hempty] at h
    cases h
  · rw [Array.getElem?_map, h]
    rfl

/-- In the end every symbol that a context counts is counted in its cluster. -/
theorem exists_histogram_of_counts {histograms : List Histogram}
    (hwithin : StaysWithin cost budget maxClusters histograms) {i symbol : Nat} {h : Histogram}
    (hget : histograms[i]? = some h) (hcounts : h.Counts symbol) :
    ∃ k sum, (ofHistograms cost budget histograms).map.cluster i = .ok k ∧
      (ofHistograms cost budget histograms).histograms[k]? = some sum ∧ sum.Counts symbol := by
  obtain ⟨-, hgathers⟩ : (ofHistograms cost budget histograms).Covered maxClusters ∧
      (ofHistograms cost budget histograms).Gathers histograms :=
    hwithin.induction (P := fun done c ↦ c.Covered maxClusters ∧ c.Gathers done)
      ⟨covered_nil maxClusters, rfl, nofun⟩ fun done c h ⟨hcovered, hc⟩ hroom ↦
        ⟨hcovered.place (Nat.le_refl _) hroom, hc.place hcovered (Nat.le_refl _) hroom⟩
  obtain ⟨entry, hentry, cluster, hcluster, hin⟩ := hgathers.counts i h symbol hget hcounts
  refine ⟨entry.toNat, cluster.histogram, ?_, getElem?_histograms hcluster, hin⟩
  rw [ContextMap.cluster, map, hentry]

end Clustering

end EntropyCoding
