import EntropyCoding.Proofs.Context.Clustering
import Mathlib.Data.Nat.Log

/-!
# Which context maps are read back

A reader takes the clusters up to the largest one that an entry names for all there are.  So it is with
every map that can be obtained, with one exception: clustering no contexts gives a map without entries
that has one cluster, and what is read back has none, `ContextMap.Obtainable.read_writeFields`.
-/

namespace EntropyCoding

theorem ceilLog2_eq_clog (n : Nat) : ceilLog2 n = Nat.clog 2 n :=
  eq_of_forall_ge_iff fun _ ↦ ceilLog2_le_iff.trans (Nat.clog_le_iff_le_pow Nat.one_lt_two).symm

namespace ContextMap

/-- Maps that can be obtained: from entries, as these are also read, the identity, or by clustering.
For more contexts than a map can tell apart, the estimates of cost have to be such that a growth
compares below the one that is forbidden. -/
inductive Obtainable : ContextMap → Prop
  /-- The map with given entries. -/
  | ofEntries (entries : Array UInt8) : Obtainable (ofEntries entries)
  /-- The identity of so many contexts. -/
  | identity {n : Nat} {m : ContextMap} (h : identity n = .ok m) : Obtainable m
  /-- The map that clustering gives. -/
  | clustering {cost : CostEstimate} {budget : Nat} {histograms : List Histogram} {m : ContextMap}
      {clusters : Array Histogram}
      (hgrowth : maxClusters < histograms.length →
        Clustering.GrowthBounded cost budget histograms)
      (h : clusterHistograms cost budget histograms = .ok (m, clusters)) : Obtainable m

/-! ## Maps that are tight -/

/-- A map made from its entries is tight. -/
theorem tight_ofEntries (entries : Array UInt8) : (ofEntries entries).Tight := by
  obtain ⟨-, hlt, hleast⟩ := foldl_max_entry entries.toList 0
  rw [Array.foldl_toList] at hlt hleast
  refine ⟨hlt, fun hpos ↦ ?_, hleast maxClusters (Nat.zero_le _) fun entry _ ↦ entry.toNat_lt⟩
  -- otherwise one cluster less would do
  by_contra hnone
  have hfewer := hleast ((ofEntries entries).clusters - 1) (Nat.zero_le _) fun entry hentry ↦ by
    have hle : entry.toNat + 1 ≤ (ofEntries entries).clusters := hlt entry hentry
    have hne : entry.toNat + 1 ≠ (ofEntries entries).clusters := fun h ↦ hnone ⟨entry, hentry, h⟩
    omega
  have hfewer : (ofEntries entries).clusters ≤ (ofEntries entries).clusters - 1 := hfewer
  omega

/-- A map that can be obtained is tight, or it is that of no contexts with a cluster that none uses. -/
theorem Obtainable.tight_or_eq {m : ContextMap} (hm : m.Obtainable) : m.Tight ∨ m = ⟨#[], 1⟩ := by
  cases hm with
  | ofEntries entries => exact .inl (tight_ofEntries entries)
  | identity h => exact .inl (tight_of_identity h).1
  | @clustering cost budget histograms _ clusters hgrowth h =>
    obtain ⟨hbudget, rfl, -⟩ := clusterHistograms_eq_ok_iff.1 h
    obtain ⟨hleast, hmax⟩ := isClusterBudget_iff.1 hbudget
    by_cases hnone : histograms = []
    · rw [hnone]
      exact .inr rfl
    · exact .inl (Clustering.tight_map_ofHistograms hnone
        (Clustering.staysWithin_maxClusters hleast hmax hgrowth)).1

/-- Every entry of a map that can be obtained names a cluster. -/
theorem Obtainable.entry_lt {m : ContextMap} (hm : m.Obtainable) :
    ∀ entry ∈ m.entries.toList, entry.toNat < m.clusters := by
  rcases hm.tight_or_eq with htight | rfl
  · exact htight.entry_lt
  · nofun

/-! ## Maps in a stream -/

/-- The bits of a map are the width and an entry of that width for each context. -/
theorem length_fieldBits_fields (m : ContextMap) :
    (fieldBits m.fields).length = 4 + m.contexts * Nat.clog 2 m.clusters := by
  rw [fields, fieldBits_cons, List.length_append, Field.length_bits, ← ceilLog2_eq_clog]
  have hentries : ∀ entries : List UInt8, (fieldBits (entries.map fun entry ↦
      ⟨entry.toNat, m.entryWidth⟩)).length = entries.length * m.entryWidth := by
    intro entries
    induction entries with
    | nil => exact (Nat.zero_mul _).symm
    | cons entry entries ih =>
      rw [List.map_cons, fieldBits_cons, List.length_append, Field.length_bits, ih,
        List.length_cons, Nat.succ_mul, Nat.add_comm]
  rw [hentries, Array.length_toList]
  rfl

/-- A map that can be obtained is read back from anywhere in a stream, except that the map of no
contexts is read without a cluster, and just its bits are read. -/
theorem Obtainable.read_writeFields {m : ContextMap} (hm : m.Obtainable) {w later : BitWriter}
    (hw : w.Valid) (hlater : later.Valid)
    (hpre : (w.writeFields m.fields).toBits <+: later.toBits) (more : Array UInt8) :
    read m.contexts ⟨later.toBytes ++ more, w.bitsWritten⟩ =
      .ok (if m = ⟨#[], 1⟩ then ⟨#[], 0⟩ else m)
        ⟨later.toBytes ++ more,
          w.bitsWritten + (4 + m.contexts * Nat.clog 2 m.clusters)⟩ := by
  have htakes : Writable m.fields ∧ BitRead.Takes (read m.contexts) (fieldBits m.fields)
      (if m = ⟨#[], 1⟩ then ⟨#[], 0⟩ else m) := by
    split
    · next hnone =>
      -- the fields are those of the map without a cluster
      rw [hnone]
      exact ⟨(tight_ofEntries #[]).writable_fields, (tight_ofEntries #[]).takes_read⟩
    · next hsome =>
      have htight := hm.tight_or_eq.resolve_right hsome
      exact ⟨htight.writable_fields, htight.takes_read⟩
  obtain ⟨hfields, htakes⟩ := htakes
  have hread := htakes (BitReader.passes_writeFields hw hfields hlater hpre more)
  rwa [BitWriter.bitsWritten_writeFields hw hfields, length_fieldBits_fields] at hread

/-- Three contexts that share clusters, behind a bit and before a byte. -/
theorem read_writeFields_three : ∃ m : ContextMap, m = ⟨#[2, 0, 2], 3⟩ ∧
    read 3 ⟨((BitWriter.empty.write 1 1).writeFields m.fields).toBytes ++ #[255], 1⟩ =
      .ok m ⟨((BitWriter.empty.write 1 1).writeFields m.fields).toBytes ++ #[255], 11⟩ := by
  have hm : Obtainable ⟨#[2, 0, 2], 3⟩ := .ofEntries #[2, 0, 2]
  have hw : (BitWriter.empty.write 1 1).Valid := BitWriter.valid_empty.write 1 (by decide)
  have hread := hm.read_writeFields hw (hw.writeFields (by decide)) (List.prefix_refl _) #[255]
  rw [← ceilLog2_eq_clog] at hread
  exact ⟨_, rfl, hread⟩

/-- The map that clustering no contexts gives is not read back. -/
theorem read_clusterHistograms_nil : ∃ m m' clusters r,
    clusterHistograms headerCost 1 [] = .ok (m, clusters) ∧
      read m.contexts ⟨(BitWriter.empty.writeFields m.fields).toBytes, 0⟩ = .ok m' r ∧
        m.clusters = 1 ∧ m'.clusters = 0 :=
  ⟨_, _, _, _, rfl, rfl, rfl, rfl⟩

end ContextMap

end EntropyCoding
