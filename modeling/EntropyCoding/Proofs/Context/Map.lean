import EntropyCoding.Context.Map
import EntropyCoding.Proofs.Bits.Reader

/-!
# Context maps are read back

A reader counts as many clusters as the largest entry asks for.  So a map is read back exactly if
its last cluster is in use, `ContextMap.Tight`; in such a map every entry names a cluster.
-/

namespace EntropyCoding

namespace ContextMap

/-- The map has the clusters up to the largest one that an entry names, and no more than can be
addressed. -/
structure Tight (m : ContextMap) : Prop where
  /-- Every entry names a cluster. -/
  entry_lt : ∀ entry ∈ m.entries.toList, entry.toNat < m.clusters
  /-- The last cluster is named. -/
  exists_last : m.clusters ≠ 0 → ∃ entry ∈ m.entries.toList, entry.toNat + 1 = m.clusters
  /-- There are no more clusters than can be addressed. -/
  clusters_le : m.clusters ≤ maxClusters

theorem exists_entry_of_lt (m : ContextMap) {context : Nat} (hlt : context < m.contexts) :
    ∃ entry ∈ m.entries.toList, m.cluster context = .ok entry.toNat := by
  have hget : m.entries[context]? = some m.entries[context] := Array.getElem?_eq_getElem hlt
  exact ⟨_, Array.mem_toList_iff.2 (Array.getElem_mem hlt), by rw [cluster, hget]⟩

theorem cluster_of_le (m : ContextMap) {context : Nat} (hle : m.contexts ≤ context) :
    m.cluster context = .error (.contextOutOfRange context m.contexts) := by
  have hget : m.entries[context]? = none := Array.getElem?_eq_none hle
  rw [cluster, hget]

/-- The largest entry is found. -/
theorem foldl_max_entry (entries : List UInt8) (n : Nat) :
    n ≤ entries.foldl (fun n entry ↦ max n (entry.toNat + 1)) n ∧
      (∀ entry ∈ entries,
        entry.toNat + 1 ≤ entries.foldl (fun n entry ↦ max n (entry.toNat + 1)) n) ∧
      ∀ bound, n ≤ bound → (∀ entry ∈ entries, entry.toNat + 1 ≤ bound) →
        entries.foldl (fun n entry ↦ max n (entry.toNat + 1)) n ≤ bound := by
  induction entries generalizing n with
  | nil => exact ⟨Nat.le_refl n, nofun, fun _ h _ ↦ h⟩
  | cons entry entries ih =>
    obtain ⟨hle, hentries, hbound⟩ := ih (max n (entry.toNat + 1))
    rw [List.foldl_cons]
    refine ⟨by omega, List.forall_mem_cons.2 ⟨by omega, hentries⟩, fun bound hn hall ↦ ?_⟩
    obtain ⟨he, hes⟩ := List.forall_mem_cons.1 hall
    exact hbound bound (Nat.max_le.2 ⟨hn, he⟩) hes

/-- A tight map is determined by its entries. -/
theorem Tight.ofEntries_eq {m : ContextMap} (h : m.Tight) : ofEntries m.entries = m := by
  obtain ⟨entries, clusters⟩ := m
  obtain ⟨-, hentries, hbound⟩ := foldl_max_entry entries.toList 0
  have hle := hbound clusters (Nat.zero_le _) h.entry_lt
  have hge : clusters ≤ entries.toList.foldl (fun n entry ↦ max n (entry.toNat + 1)) 0 := by
    rcases Nat.eq_zero_or_pos clusters with rfl | hpos
    · exact Nat.zero_le _
    · obtain ⟨entry, hentry, rfl⟩ := h.exists_last (Nat.ne_of_gt hpos)
      exact hentries entry hentry
  have heq : entries.foldl (fun n entry ↦ max n (entry.toNat + 1)) 0 = clusters := by
    rw [← Array.foldl_toList]
    exact Nat.le_antisymm hle hge
  rw [ofEntries, heq]

/-! ## In a stream -/

theorem writable_fields {m : ContextMap} (h : m.clusters ≤ 2 ^ maxFieldWidth) :
    Writable m.fields := by
  refine writable_cons.2 ⟨(by decide : 4 ≤ maxFieldWidth), fun f hf ↦ ?_⟩
  obtain ⟨entry, -, rfl⟩ := List.mem_map.1 hf
  exact ceilLog2_le_iff.2 h

section

variable {m : ContextMap} (h : m.Tight)
include h

theorem Tight.entryWidth_le : m.entryWidth ≤ 8 :=
  ceilLog2_le_iff.2 h.clusters_le

theorem Tight.writable_fields : Writable m.fields :=
  ContextMap.writable_fields (Nat.le_trans h.clusters_le (by decide))

/-- A map is read back. -/
theorem Tight.takes_read : BitRead.Takes (read m.contexts) (fieldBits m.fields) m := by
  have hwidth := h.entryWidth_le
  have hentry : ∀ entry ∈ m.entries.toList.map UInt8.toNat,
      BitRead.Takes (BitRead.read m.entryWidth) (lowBits m.entryWidth entry) entry := by
    intro entry hentry
    obtain ⟨e, he, rfl⟩ := List.mem_map.1 hentry
    exact BitRead.takes_read (lt_two_pow_ceilLog2 (h.entry_lt e he))
  have hmany := BitRead.takes_many hentry
  rw [List.length_map] at hmany
  have hbits : fieldBits (m.entries.toList.map fun entry ↦ ⟨entry.toNat, m.entryWidth⟩) =
      (m.entries.toList.map UInt8.toNat).flatMap (lowBits m.entryWidth) := by
    rw [fieldBits, List.flatMap_map, List.flatMap_map]
    rfl
  have hback : ((m.entries.toList.map UInt8.toNat).map UInt8.ofNat).toArray = m.entries := by
    have hid : UInt8.ofNat ∘ UInt8.toNat = id := funext fun _ ↦ UInt8.ofNat_toNat
    rw [List.map_map, hid, List.map_id]
  have hofEntries : ofEntries ((m.entries.toList.map UInt8.toNat).map UInt8.ofNat).toArray = m := by
    rw [hback, h.ofEntries_eq]
  have hresult := hmany.bind_pure fun entries ↦ ofEntries (entries.map UInt8.ofNat).toArray
  rw [hofEntries] at hresult
  rw [fields, fieldBits_cons, hbits]
  refine (BitRead.takes_read (Nat.lt_of_le_of_lt hwidth (by decide))).bind ?_
  exact (BitRead.takes_require (decide_eq_true hwidth) _).bind_nil hresult

end

/-! ## The identity -/

/-- The identity is tight. -/
theorem tight_of_identity {n : Nat} {m : ContextMap} (h : identity n = .ok m) :
    m.Tight ∧ m.contexts = n ∧ m.clusters = n := by
  unfold identity at h
  split at h
  · next hn =>
    cases h
    have hlist : ((Array.range n).map UInt8.ofNat).toList = (List.range n).map UInt8.ofNat := by
      rw [Array.toList_map, Array.toList_range]
    have hnat : ∀ i < n, (UInt8.ofNat i).toNat = i := fun i hi ↦
      UInt8.toNat_ofNat_of_lt' (Nat.lt_of_lt_of_le hi hn)
    refine ⟨⟨?_, fun hpos ↦ ?_, hn⟩, by simp [contexts], rfl⟩
    · dsimp only
      rw [hlist]
      intro entry hentry
      obtain ⟨i, hi, rfl⟩ := List.mem_map.1 hentry
      rw [hnat i (List.mem_range.1 hi)]
      exact List.mem_range.1 hi
    · dsimp only at hpos ⊢
      have hlast : n - 1 < n := by omega
      rw [hlist]
      refine ⟨UInt8.ofNat (n - 1), List.mem_map_of_mem (List.mem_range.2 hlast), ?_⟩
      rw [hnat (n - 1) hlast]
      omega
  · cases h

/-- In the identity every context is its own cluster. -/
theorem cluster_of_identity {n : Nat} {m : ContextMap} (h : identity n = .ok m) {context : Nat}
    (hlt : context < n) : m.cluster context = .ok context := by
  unfold identity at h
  split at h
  · next hn =>
    cases h
    have hentry : ((Array.range n).map UInt8.ofNat)[context]? = some (UInt8.ofNat context) := by
      rw [Array.getElem?_map, Array.getElem?_range, if_pos hlt]
      rfl
    have hnat : (UInt8.ofNat context).toNat = context :=
      UInt8.toNat_ofNat_of_lt' (Nat.lt_of_lt_of_le hlt hn)
    rw [cluster, hentry]
    exact congrArg _ hnat
  · cases h

end ContextMap

end EntropyCoding
