import EntropyCoding.Prefix.Extension
import EntropyCoding.Proofs.Prefix.RoundTrip
import Mathlib.Data.List.GetD
import Mathlib.Data.List.TakeWhile

/-!
# Extended codes

A code is extended to more symbols exactly if the populations of its symbols have all `2 ^ 15` members
and there are codewords for as many symbols, `PrefixCode.exists_extend_iff`.  All counts that the new
code is built from are positive, so every symbol gets a codeword, old or new, and the codewords fill the
code space, `PrefixCode.filled_of_extend`; so the code can be built from its depths like any other,
`PrefixCode.obtainable_of_extend`, and extended again.

A population is the share of the code space that a codeword takes, so the populations of a complete
code in which every symbol has a codeword have `2 ^ 15` members.  But depth zero, which is that of a
symbol without a codeword, stands for `2 ^ 15` members too, `PrefixCode.sum_population`.  Of the
complete codes just those in which every symbol has a codeword can be extended,
`PrefixCode.extend_of_isComplete`.
-/

namespace EntropyCoding

theorem length_usedSymbols_of_pos {counts : List Nat} (h : ∀ count ∈ counts, 0 < count) :
    (usedSymbols counts).length = counts.length := by
  rw [usedSymbols_eq, List.length_map, List.filter_eq_self.2, List.length_range]
  intro s hs
  have hlt := List.mem_range.1 hs
  rw [List.getD_eq_getElem _ _ hlt]
  exact decide_eq_true (h _ (List.getElem_mem hlt))

namespace PrefixCode

/-- What every code that can be built has: a codeword for each symbol of its alphabet, and no depth
above the largest. -/
structure Shaped (c : PrefixCode) : Prop where
  /-- There are as many codewords as depths. -/
  size_codes : c.codes.size = c.alphabetSize
  /-- No codeword is too long. -/
  depth_le : ∀ d ∈ c.depths.toList, d ≤ maxDepth

/-- A code in which every symbol has a codeword, and the codewords fill the code space. -/
structure Filled (c : PrefixCode) (size : Nat) : Prop where
  /-- The number of symbols. -/
  alphabetSize_eq : c.alphabetSize = size
  /-- Every symbol has a codeword, and none is too long. -/
  depth_mem : ∀ d ∈ c.depths.toList, 1 ≤ d ∧ d ≤ maxDepth
  /-- The codewords fill the code space. -/
  kraftSum_eq : kraftSum c.depths.toList = codeSpace
  /-- The codewords are assigned in order. -/
  codes_eq : c.codes = canonicalCodes c.depths.toList

theorem size_canonicalCodes (depths : List Nat) : (canonicalCodes depths).size = depths.length := by
  rw [← Array.length_toList, toList_canonicalCodes, List.length_map, List.length_range]

theorem Accepted.shaped {c : PrefixCode} (hc : c.Accepted) : c.Shaped where
  size_codes := by
    rw [hc.eq_canonical]
    exact size_canonicalCodes _
  depth_le := (ofDepths_eq_ok_iff.1 hc).2.1

theorem mem_depths_iff {c : PrefixCode} {d : Nat} :
    d ∈ c.depths.toList ↔ ∃ symbol < c.alphabetSize, c.depth symbol = d := by
  rw [List.mem_iff_getElem]
  refine exists_congr fun symbol ↦ ?_
  rw [← exists_prop]
  refine exists_congr fun hlt ↦ ?_
  rw [← getD_depths, List.getD_eq_getElem _ _ hlt]

/-! ## Populations -/

theorem population_mem (depth : Nat) : 1 ≤ population depth ∧ population depth ≤ codeSpace :=
  ⟨Nat.two_pow_pos _, Nat.pow_le_pow_right Nat.two_pos (Nat.sub_le _ _)⟩

/-- Populations are the shares of the codewords in the code space, and a whole code space for each
symbol without a codeword. -/
theorem sum_population {depths : List Nat} (h : ∀ d ∈ depths, d ≤ maxDepth) :
    (depths.map population).sum = kraftSum depths + codeSpace * depths.count 0 := by
  rw [kraftSum_eq_spaceOf h, spaceOf_eq_sum]
  clear h
  induction depths with
  | nil => rfl
  | cons d depths ih =>
    rw [List.map_cons, List.sum_cons, ih, List.map_cons, List.sum_cons]
    obtain rfl | hd := Nat.eq_zero_or_pos d
    · rw [List.count_cons_self, Nat.mul_add_one, if_neg (Nat.lt_irrefl 0),
        show population 0 = codeSpace from rfl]
      omega
    · rw [List.count_cons_of_ne (Nat.ne_of_gt hd), population, if_pos hd, Nat.add_assoc]

variable {c c' : PrefixCode} {size : Nat}

theorem populations_eq (h : ∀ d ∈ c.depths.toList, d ≤ maxDepth) :
    c.populations = c.depths.toList.map population := by
  rw [populations, List.takeWhile_eq_self_iff.2]
  simpa using h

/-- If not all depths are small enough, there is a first one that is too large, and the populations are
those before it. -/
theorem exists_deep (h : ¬ ∀ d ∈ c.depths.toList, d ≤ maxDepth) :
    ∃ shallow deep rest, c.depths.toList = shallow ++ deep :: rest ∧
      (∀ d ∈ shallow, d ≤ maxDepth) ∧ maxDepth < deep ∧ c.populations = shallow.map population := by
  have happend := List.takeWhile_append_dropWhile (p := (· ≤ maxDepth)) (l := c.depths.toList)
  have hshallow : ∀ d ∈ c.depths.toList.takeWhile (· ≤ maxDepth), d ≤ maxDepth := fun d hd ↦
    of_decide_eq_true (List.mem_takeWhile_imp (p := (· ≤ maxDepth)) hd)
  cases hrest : c.depths.toList.dropWhile (· ≤ maxDepth) with
  | nil =>
    rw [hrest, List.append_nil] at happend
    exact absurd (happend ▸ hshallow) h
  | cons deep rest =>
    have hdeep := List.head_dropWhile_not (· ≤ maxDepth) (hrest ▸ List.cons_ne_nil deep rest)
    simp only [hrest, List.head_cons, decide_eq_false_iff_not] at hdeep
    rw [hrest] at happend
    exact ⟨_, deep, rest, happend.symm, hshallow, Nat.not_le.1 hdeep, rfl⟩

/-- So all symbols have populations only then. -/
theorem length_populations_lt_iff :
    c.populations.length < c.alphabetSize ↔ ¬ ∀ d ∈ c.depths.toList, d ≤ maxDepth := by
  constructor
  · intro h hd
    rw [populations_eq hd, List.length_map] at h
    exact Nat.lt_irrefl _ h
  · intro h
    obtain ⟨shallow, deep, rest, hdepths, -, -, hpopulations⟩ := exists_deep h
    have hlen : c.alphabetSize = (shallow ++ deep :: rest).length := congrArg List.length hdepths
    rw [hlen, hpopulations, List.length_map, List.length_append, List.length_cons]
    omega

theorem mem_extendedCounts {count : Nat} (h : count ∈ c.extendedCounts size) :
    1 ≤ count ∧ count ≤ codeSpace := by
  rcases List.mem_append.1 h with h | h
  · obtain ⟨depth, -, rfl⟩ := List.mem_map.1 h
    exact population_mem depth
  · rw [(List.mem_replicate.1 h).2]
    decide

theorem length_extendedCounts (hd : ∀ d ∈ c.depths.toList, d ≤ maxDepth)
    (hsize : c.alphabetSize ≤ size) : (c.extendedCounts size).length = size := by
  rw [extendedCounts, populations_eq hd, List.length_append, List.length_map, List.length_replicate]
  exact Nat.add_sub_cancel' hsize

/-! ## Which codes are extended -/

section

variable (hd : ∀ d ∈ c.depths.toList, d ≤ maxDepth) (hlarger : c.alphabetSize < size)
include hd hlarger

theorem extendedCounts_ne_nil : c.extendedCounts size ≠ [] := by
  have hlen := length_extendedCounts hd (Nat.le_of_lt hlarger)
  exact List.ne_nil_of_length_pos (by omega)

theorem length_usedSymbols_extendedCounts :
    (usedSymbols (c.extendedCounts size)).length = size := by
  rw [length_usedSymbols_of_pos fun count h ↦ (mem_extendedCounts h).1,
    length_extendedCounts hd (Nat.le_of_lt hlarger)]

/-- Depths are found for them if there are enough codewords. -/
theorem exists_limitedDepths_extendedCounts (hroom : size ≤ codeCapacity maxDepth) :
    ∃ depths, limitedDepths (c.extendedCounts size) maxDepth = .ok depths := by
  rw [limitedDepths, length_usedSymbols_extendedCounts hd hlarger]
  split
  · exact ⟨_, rfl⟩
  · exact ⟨_, if_neg (Nat.not_lt.2 hroom)⟩

/-- A code whose populations have not `2 ^ 15` members is refused, with their total. -/
theorem extend_of_sum_population_ne (hsum : (c.depths.toList.map population).sum ≠ codeSpace) :
    c.extend size =
      .error (.invalidPopulation (c.depths.toList.map population).sum codeSpace) := by
  rw [extend, if_neg (Nat.not_le.2 hlarger), populations_eq hd, if_pos (.inr hsum)]

/-- Otherwise the result is that of the search for depths: it refuses as many symbols as there are no
codewords for. -/
theorem extend_of_sum_population (hsum : (c.depths.toList.map population).sum = codeSpace) :
    c.extend size = canonical <$> limitedDepths (c.extendedCounts size) maxDepth := by
  have hold : ¬ (c.populations.length < c.alphabetSize ∨ c.populations.sum ≠ codeSpace) := by
    rw [length_populations_lt_iff, populations_eq hd]
    exact fun h ↦ h.elim (absurd hd) (absurd hsum)
  rw [extend, if_neg (Nat.not_le.2 hlarger), if_neg hold]
  split
  · next hroom =>
    have hmany : ¬ size ≤ 1 := Nat.not_le.2 (Nat.lt_of_le_of_lt (by decide) hroom)
    rw [limitedDepths, length_usedSymbols_extendedCounts hd hlarger, if_neg hmany, if_pos hroom]
    rfl
  · rfl

end

/-- What extending a code checks, and what the extended code is. -/
theorem extend_eq_ok_iff : c.extend size = .ok c' ↔
    (∀ d ∈ c.depths.toList, d ≤ maxDepth) ∧ c.alphabetSize < size ∧
      (c.depths.toList.map population).sum = codeSpace ∧ size ≤ codeCapacity maxDepth ∧
      ∃ depths, limitedDepths (c.extendedCounts size) maxDepth = .ok depths ∧
        c' = canonical depths := by
  constructor
  · intro h
    rw [extend] at h
    split at h
    · cases h
    next hlarger =>
    split at h
    · cases h
    next hold =>
    split at h
    · cases h
    next hroom =>
    rw [not_or, length_populations_lt_iff, not_not, not_not] at hold
    obtain ⟨depths, hdepths, rfl⟩ := Except.map_eq_ok_iff.1 h
    exact ⟨hold.1, Nat.not_le.1 hlarger, populations_eq hold.1 ▸ hold.2, Nat.not_lt.1 hroom,
      depths, hdepths, rfl⟩
  · rintro ⟨hd, hlarger, hsum, -, depths, hdepths, rfl⟩
    rw [extend_of_sum_population hd hlarger hsum, hdepths]
    rfl

/-- A code can be extended exactly if the new alphabet is larger, the populations have `2 ^ 15` members,
and there are enough codewords. -/
theorem exists_extend_iff (hd : ∀ d ∈ c.depths.toList, d ≤ maxDepth) :
    (∃ c', c.extend size = .ok c') ↔ c.alphabetSize < size ∧
      (c.depths.toList.map population).sum = codeSpace ∧ size ≤ 2 ^ maxDepth := by
  constructor
  · rintro ⟨c', h⟩
    obtain ⟨-, hlarger, hsum, hroom, -⟩ := extend_eq_ok_iff.1 h
    exact ⟨hlarger, hsum, hroom⟩
  · rintro ⟨hlarger, hsum, hroom⟩
    obtain ⟨depths, hdepths⟩ := exists_limitedDepths_extendedCounts hd hlarger hroom
    exact ⟨_, extend_eq_ok_iff.2 ⟨hd, hlarger, hsum, hroom, depths, hdepths, rfl⟩⟩

theorem alphabetSize_pos_of_sum_population (h : (c.depths.toList.map population).sum = codeSpace) :
    0 < c.alphabetSize := by
  by_contra hzero
  have hnil : c.depths.toList = [] := List.length_eq_zero_iff.1 (Nat.eq_zero_of_not_pos hzero)
  rw [hnil] at h
  exact absurd h (by decide)

/-- In an extended code every symbol has a codeword, and the codewords fill the code space. -/
theorem filled_of_extend (h : c.extend size = .ok c') : c'.Filled size := by
  obtain ⟨hd, hlarger, hsum, -, depths, hdepths, rfl⟩ := extend_eq_ok_iff.1 h
  have hpos := alphabetSize_pos_of_sum_population hsum
  have hused := length_usedSymbols_extendedCounts hd hlarger
  have hlen := length_extendedCounts hd (Nat.le_of_lt hlarger)
  obtain ⟨hlength, hle, hcoded, hspace⟩ := limitedDepths_spec hdepths (by omega)
  refine ⟨hlength.trans hlen, fun d hmem ↦ ⟨?_, hle d hmem⟩, ?_, rfl⟩
  · obtain ⟨symbol, hlt, rfl⟩ := List.mem_iff_getElem.1 hmem
    have hlt' : symbol < (c.extendedCounts size).length := hlength ▸ hlt
    rw [← List.getD_eq_getElem _ 0 hlt]
    refine (hcoded symbol).2 ?_
    rw [List.getD_eq_getElem _ _ hlt']
    exact (mem_extendedCounts (List.getElem_mem hlt')).1
  · exact (kraftSum_eq_spaceOf hle).trans hspace

/-- An extended code can be built from its depths. -/
theorem obtainable_of_extend (h : c.extend size = .ok c') : c'.Obtainable := by
  obtain ⟨hd, hlarger, -, -, depths, hdepths, rfl⟩ := extend_eq_ok_iff.1 h
  exact .inl ⟨depths, (ofDepths_of_limitedDepths (extendedCounts_ne_nil hd hlarger) hdepths).1⟩

/-! ## Complete codes -/

/-- A filled code is complete. -/
theorem Filled.isComplete (h : c.Filled size) : c.isComplete := by
  rw [PrefixCode.isComplete, h.kraftSum_eq, beq_self_eq_true]

theorem Filled.depth_pos (h : c.Filled size) {symbol : Nat} (hlt : symbol < size) :
    0 < c.depth symbol := by
  rw [← h.alphabetSize_eq] at hlt
  exact (h.depth_mem _ (mem_depths_iff.2 ⟨symbol, hlt, rfl⟩)).1

/-- The populations of a complete code have `2 ^ 15` members, and as many for each symbol without a
codeword. -/
theorem sum_population_of_isComplete (hd : ∀ d ∈ c.depths.toList, d ≤ maxDepth)
    (hcomplete : c.isComplete) :
    (c.depths.toList.map population).sum = codeSpace * (1 + c.depths.toList.count 0) := by
  have hk : kraftSum c.depths.toList = codeSpace := by simpa [isComplete] using hcomplete
  rw [sum_population hd, hk, Nat.mul_add, Nat.mul_one]

/-- A complete code can be extended, to any larger number of symbols for which there are codewords, if
each of its symbols has a codeword.  The extended code is complete, and each of its symbols has a
codeword.  A complete code in which a symbol has no codeword cannot be extended, because the population
of such a symbol alone has as many members as those of all coded symbols together. -/
theorem extend_of_isComplete (hc : c.Obtainable) (hcomplete : c.isComplete)
    (hlarger : c.alphabetSize < size) (hroom : size ≤ 2 ^ maxDepth) :
    ((∀ symbol < c.alphabetSize, 0 < c.depth symbol) →
      ∃ c', c.extend size = .ok c' ∧ c'.isComplete ∧ ∀ symbol < size, 0 < c'.depth symbol) ∧
    ((∃ symbol < c.alphabetSize, c.depth symbol = 0) → c.extend size =
      .error (.invalidPopulation (codeSpace * (1 + c.depths.toList.count 0)) codeSpace)) := by
  have hd := hc.accepted.shaped.depth_le
  have hsum := sum_population_of_isComplete hd hcomplete
  constructor
  · intro hcoded
    have hzero : 0 ∉ c.depths.toList := by
      rw [mem_depths_iff]
      rintro ⟨symbol, hlt, hgap⟩
      exact Nat.ne_of_gt (hcoded symbol hlt) hgap
    rw [List.count_eq_zero.2 hzero, Nat.mul_one] at hsum
    obtain ⟨c', hok⟩ := (exists_extend_iff hd).2 ⟨hlarger, hsum, hroom⟩
    have hfilled := filled_of_extend hok
    exact ⟨c', hok, hfilled.isComplete, fun symbol hlt ↦ hfilled.depth_pos hlt⟩
  · intro hgap
    have hcount := List.count_pos_iff.2 (mem_depths_iff.2 hgap)
    have hmore : codeSpace < codeSpace * (1 + c.depths.toList.count 0) :=
      (Nat.lt_mul_iff_one_lt_right (Nat.two_pow_pos _)).2 (Nat.lt_add_of_pos_right hcount)
    rw [← hsum]
    exact extend_of_sum_population_ne hd hlarger (hsum ▸ Nat.ne_of_gt hmore)

/-- Three symbols with codewords are extended to five. -/
theorem extend_of_isComplete_three : ∃ c : PrefixCode, ofDepths [1, 2, 2] = .ok c ∧ c.isComplete ∧
    c.alphabetSize < 5 ∧ 5 ≤ 2 ^ maxDepth ∧ (∀ symbol < c.alphabetSize, 0 < c.depth symbol) ∧
      ∃ c', c.extend 5 = .ok c' ∧ c'.isComplete ∧ ∀ symbol < 5, 0 < c'.depth symbol := by
  have hc : ofDepths [1, 2, 2] = .ok (canonical [1, 2, 2]) := rfl
  have hcoded : ∀ symbol < (canonical [1, 2, 2]).alphabetSize,
      0 < (canonical [1, 2, 2]).depth symbol := by decide
  exact ⟨_, hc, by decide, by decide, by decide, hcoded,
    (extend_of_isComplete (.inl ⟨_, hc⟩) (by decide) (by decide) (by decide)).1 hcoded⟩

/-- Two symbols with codewords and one without, whose code is complete but is not extended. -/
theorem extend_gap : ∃ c : PrefixCode, ofDepths [1, 0, 1] = .ok c ∧ c.isComplete ∧
    c.alphabetSize < 4 ∧ 4 ≤ 2 ^ maxDepth ∧
      c.extend 4 = .error (.invalidPopulation (2 ^ 16) (2 ^ 15)) :=
  ⟨_, rfl, by decide, by decide, by decide, rfl⟩

end PrefixCode

end EntropyCoding
