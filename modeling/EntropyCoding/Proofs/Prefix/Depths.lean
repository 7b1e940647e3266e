import EntropyCoding.Proofs.Prefix.Decoder
import EntropyCoding.Proofs.Prefix.Forest

/-!
# The depths found within a limit

The search for a floor ends with depths within the limit, because at a floor that no weight exceeds
all weights are equal: `depthsWithin_spec`.  Spread over the alphabet the depths are those of a
complete code or, with at most one symbol in use, of a degenerate one: `limitedDepths_spec`.
-/

namespace EntropyCoding

/-! ## Symbols in use -/

/-- The symbols in use, by their places. -/
theorem usedSymbols_eq (counts : List Nat) :
    usedSymbols counts = ((List.range counts.length).filter fun s ↦ 0 < counts.getD s 0).map
      fun s ↦ (s, counts.getD s 0) := by
  have hzip : counts.zipIdx = (List.range counts.length).map fun s ↦ (counts.getD s 0, s) := by
    apply List.ext_getElem (by simp)
    intro i h h'
    have hi : i < counts.length := by simpa using h
    simp [hi]
  rw [usedSymbols, hzip, List.filter_map, List.map_map]
  rfl

theorem mem_map_fst_usedSymbols {counts : List Nat} {symbol : Nat} :
    symbol ∈ (usedSymbols counts).map Prod.fst ↔ 0 < counts.getD symbol 0 := by
  simp only [usedSymbols_eq, List.map_map, List.mem_map, List.mem_filter, List.mem_range,
    decide_eq_true_eq, Function.comp_apply]
  constructor
  · rintro ⟨s, ⟨-, hs⟩, rfl⟩
    exact hs
  · exact fun h ↦ ⟨symbol, ⟨lt_length_of_pos h, h⟩, rfl⟩

theorem nodup_map_fst_usedSymbols (counts : List Nat) :
    ((usedSymbols counts).map Prod.fst).Nodup := by
  rw [usedSymbols_eq, List.map_map]
  exact (List.map_id _).symm ▸ List.nodup_range.filter _

/-! ## The floor -/

/-- The largest is not exceeded. -/
theorem le_foldl_max (pairs : List (Nat × Nat)) (m : Nat) :
    m ≤ pairs.foldl (fun m p ↦ max m p.2) m ∧
      ∀ p ∈ pairs, p.2 ≤ pairs.foldl (fun m p ↦ max m p.2) m := by
  induction pairs generalizing m with
  | nil => exact ⟨Nat.le_refl m, nofun⟩
  | cons p pairs ih =>
    obtain ⟨hm, hps⟩ := ih (max m p.2)
    refine ⟨Nat.le_trans (Nat.le_max_left _ _) hm, List.forall_mem_cons.2 ⟨?_, hps⟩⟩
    exact Nat.le_trans (Nat.le_max_right _ _) hm

theorem le_largestSecond {pairs : List (Nat × Nat)} {p : Nat × Nat} (h : p ∈ pairs) :
    p.2 ≤ largestSecond pairs :=
  (le_foldl_max pairs 0).2 p h

/-- A bound on all second components is one on the largest. -/
theorem largestSecond_le {pairs : List (Nat × Nat)} {bound : Nat} (h : ∀ p ∈ pairs, p.2 ≤ bound) :
    largestSecond pairs ≤ bound := by
  have hfold : ∀ m ≤ bound, pairs.foldl (fun m p ↦ max m p.2) m ≤ bound := by
    induction pairs with
    | nil => exact fun m hm ↦ hm
    | cons p pairs ih =>
      obtain ⟨hp, hps⟩ := List.forall_mem_cons.1 h
      exact fun m hm ↦ ih hps _ (Nat.max_le.2 ⟨hm, hp⟩)
  exact hfold 0 (Nat.zero_le bound)

/-- The search ends at the latest at the first floor that no weight exceeds. -/
theorem floor_depthsFromFloor_le {used : List (Nat × Nat)} {bits : Nat}
    (hbits : largestSecond used ≤ 2 ^ bits) (limit : Nat) {k : Nat} (hk : k ≤ bits) :
    (depthsFromFloor used limit k).floor ≤ 2 ^ bits := by
  have hpow {k : Nat} (hk : k ≤ bits) : 2 ^ k ≤ 2 ^ bits := Nat.pow_le_pow_right Nat.two_pos hk
  fun_induction depthsFromFloor used limit k with
  | case1 k found _ => exact hpow hk
  | case2 k found _ _ => exact hpow hk
  | case3 k found _ hlarge ih =>
    refine ih (Nat.lt_of_le_of_ne hk fun heq ↦ ?_)
    subst heq
    exact hlarge hbits

section

variable {used : List (Nat × Nat)} {limit : Nat} (hne : used ≠ []) (hlen : used.length ≤ 2 ^ limit)
include hne hlen

/-- At a floor that no weight exceeds all weights are equal, and the depths fit. -/
theorem deepest_depthsWithFloor_le {k : Nat} (hflat : largestSecond used ≤ 2 ^ k) :
    (depthsWithFloor used k).deepest ≤ limit := by
  have hne' : flooredWeights (2 ^ k) used ≠ [] := by
    rwa [flooredWeights, Ne, List.map_eq_nil_iff]
  have hw : ∀ p ∈ flooredWeights (2 ^ k) used, p.2 = 2 ^ k := by
    intro p hp
    obtain ⟨q, hq, rfl⟩ := List.mem_map.1 hp
    exact Nat.max_eq_right (Nat.le_trans (le_largestSecond hq) hflat)
  refine largestSecond_le fun p hp ↦ depth_codeDepths_le hne' hw ?_ hp
  rwa [flooredWeights, List.length_map]

/-- The search ends at a floor where the depths fit. -/
theorem exists_floor (k : Nat) :
    ∃ k', depthsFromFloor used limit k = depthsWithFloor used k' ∧
      (depthsWithFloor used k').deepest ≤ limit := by
  fun_induction depthsFromFloor used limit k with
  | case1 k found h => exact ⟨k, rfl, h⟩
  | case2 k found _ h => exact ⟨k, rfl, deepest_depthsWithFloor_le hne hlen h⟩
  | case3 k found _ _ ih => exact ih

/-- The depths found are those of a tree of the symbols in use, and within the limit. -/
theorem depthsWithin_spec :
    ∃ t : CodeTree, (depthsWithin used limit).depths = t.depths 0 ∧
      t.symbols.Perm (used.map Prod.fst) ∧ ∀ p ∈ t.depths 0, p.2 ≤ limit := by
  obtain ⟨k, hfloor, hfit⟩ := exists_floor hne hlen 0
  have hne' : flooredWeights (2 ^ k) used ≠ [] := by
    rwa [flooredWeights, Ne, List.map_eq_nil_iff]
  obtain ⟨t, hdepths, hsymbols⟩ := codeDepths_eq hne'
  have hfst : (flooredWeights (2 ^ k) used).map Prod.fst = used.map Prod.fst := by
    rw [flooredWeights, List.map_map]
    rfl
  have hfound : (depthsWithFloor used k).depths = t.depths 0 := hdepths
  refine ⟨t, ?_, hfst ▸ hsymbols, fun p hp ↦ ?_⟩
  · rw [depthsWithin, hfloor, hfound]
  · refine Nat.le_trans (le_largestSecond ?_) hfit
    rwa [hfound]

end

/-! ## Spreading depths over an alphabet -/

theorem sum_map_set {l : List Nat} {i v : Nat} {f : Nat → Nat} (hi : i < l.length)
    (h : f l[i] = 0) : ((l.set i v).map f).sum = (l.map f).sum + f v := by
  have hl : l = l.take i ++ l[i] :: l.drop (i + 1) := by
    rw [← List.drop_eq_getElem_cons hi, List.take_append_drop]
  rw [List.set_eq_take_append_cons_drop, if_pos hi]
  conv => rhs; rw [hl]
  simp only [List.map_append, List.map_cons, List.sum_append, List.sum_cons, h]
  omega

/-- Depths are put in places that are free; sums and the other places stay. -/
theorem foldl_setIfInBounds {pairs : List (Nat × Nat)} (hnodup : (pairs.map Prod.fst).Nodup)
    {spread : Array Nat} (hfree : ∀ p ∈ pairs, spread[p.1]? = some 0) :
    let filled := pairs.foldl (fun spread p ↦ spread.setIfInBounds p.1 p.2) spread
    filled.size = spread.size ∧ (∀ p ∈ pairs, filled[p.1]? = some p.2) ∧
      (∀ i, i ∉ pairs.map Prod.fst → filled[i]? = spread[i]?) ∧
      ∀ f : Nat → Nat, f 0 = 0 → (filled.toList.map f).sum =
        (spread.toList.map f).sum + (pairs.map fun p ↦ f p.2).sum := by
  induction pairs generalizing spread with
  | nil => exact ⟨rfl, nofun, fun _ _ ↦ rfl, fun _ _ ↦ rfl⟩
  | cons p pairs ih =>
    obtain ⟨hp, hps⟩ := List.forall_mem_cons.1 hfree
    rw [List.map_cons, List.nodup_cons] at hnodup
    obtain ⟨hnot, hnodup⟩ := hnodup
    have hlt : p.1 < spread.size := (Array.getElem?_eq_some_iff.1 hp).1
    have hfree' : ∀ q ∈ pairs, (spread.setIfInBounds p.1 p.2)[q.1]? = some 0 := by
      intro q hq
      have hne : p.1 ≠ q.1 := fun h ↦ hnot (h ▸ List.mem_map_of_mem hq)
      rw [Array.getElem?_setIfInBounds_ne hne]
      exact hps q hq
    obtain ⟨hsize, hmem, hother, hsum⟩ := ih hnodup hfree'
    rw [List.foldl_cons]
    refine ⟨by rw [hsize, Array.size_setIfInBounds], ?_, ?_, ?_⟩
    · refine List.forall_mem_cons.2 ⟨?_, hmem⟩
      rw [hother p.1 hnot, Array.getElem?_setIfInBounds_self_of_lt hlt]
    · intro i hi
      rw [List.map_cons, List.mem_cons, not_or] at hi
      rw [hother i hi.2, Array.getElem?_setIfInBounds_ne (Ne.symm hi.1)]
    · intro f hf
      have hget : spread.toList[p.1] = 0 := (Array.getElem?_eq_some_iff.1 hp).2
      rw [hsum f hf, Array.toList_setIfInBounds, sum_map_set hlt (by rw [hget, hf]),
        List.map_cons, List.sum_cons, Nat.add_assoc]

section Spread

variable {n : Nat} {pairs : List (Nat × Nat)} (hnodup : (pairs.map Prod.fst).Nodup)
  (hlt : ∀ p ∈ pairs, p.1 < n)
include hnodup hlt

/-- Every depth is at the place of its symbol, and there is nothing elsewhere. -/
theorem spreadDepths_spec : (spreadDepths n pairs).length = n ∧
    (∀ p ∈ pairs, (spreadDepths n pairs)[p.1]? = some p.2) ∧
    (∀ i, i ∉ pairs.map Prod.fst → (spreadDepths n pairs).getD i 0 = 0) ∧
    ∀ f : Nat → Nat, f 0 = 0 →
      ((spreadDepths n pairs).map f).sum = (pairs.map fun p ↦ f p.2).sum := by
  have hfree : ∀ p ∈ pairs, (Array.replicate n 0)[p.1]? = some 0 := by
    intro p hp
    rw [Array.getElem?_replicate, if_pos (hlt p hp)]
  obtain ⟨hsize, hplace, hother, hsum⟩ := foldl_setIfInBounds hnodup hfree
  have hget : ∀ i : Nat, (spreadDepths n pairs)[i]? =
      (pairs.foldl (fun spread p ↦ spread.setIfInBounds p.1 p.2) (Array.replicate n 0))[i]? :=
    fun i ↦ Array.getElem?_toList
  refine ⟨hsize.trans Array.size_replicate, fun p hp ↦ (hget p.1).trans (hplace p hp), ?_, ?_⟩
  · intro i hi
    rw [List.getD_eq_getElem?_getD, hget, hother i hi, Array.getElem?_replicate]
    split <;> rfl
  · intro f hf
    refine (hsum f hf).trans ?_
    rw [Array.toList_replicate, List.map_replicate, List.sum_replicate_nat, hf, Nat.mul_zero,
      Nat.zero_add]

/-- What is spread is nothing or one of the depths. -/
theorem mem_spreadDepths {d : Nat} (hd : d ∈ spreadDepths n pairs) :
    d = 0 ∨ ∃ p ∈ pairs, p.2 = d := by
  obtain ⟨-, hplace, hother, -⟩ := spreadDepths_spec hnodup hlt
  obtain ⟨i, hi⟩ := List.mem_iff_getElem?.1 hd
  by_cases hmem : i ∈ pairs.map Prod.fst
  · obtain ⟨p, hp, rfl⟩ := List.mem_map.1 hmem
    exact .inr ⟨p, hp, Option.some_inj.1 ((hplace p hp).symm.trans hi)⟩
  · have := hother i hmem
    rw [List.getD_eq_getElem?_getD, hi] at this
    exact .inl this

/-- A symbol has a depth if one is given. -/
theorem getD_spreadDepths_pos_iff (hpos : ∀ p ∈ pairs, 0 < p.2) {symbol : Nat} :
    0 < (spreadDepths n pairs).getD symbol 0 ↔ symbol ∈ pairs.map Prod.fst := by
  obtain ⟨-, hplace, hother, -⟩ := spreadDepths_spec hnodup hlt
  constructor
  · intro hd
    apply Decidable.byContradiction
    intro hnot
    rw [hother symbol hnot] at hd
    cases hd
  · intro hsymbol
    obtain ⟨p, hp, rfl⟩ := List.mem_map.1 hsymbol
    rw [List.getD_eq_getElem?_getD, hplace p hp]
    exact hpos p hp

end Spread

/-- The part of the code space that codewords of given depths take, in units of `2 ^ -limit`. -/
def spaceOf (limit : Nat) (depths : List Nat) : Nat :=
  ((depths.filter (0 < ·)).map fun depth ↦ 2 ^ (limit - depth)).sum

/-- Within the largest depth this is the sum that is checked. -/
theorem kraftSum_eq_spaceOf {depths : List Nat} (h : ∀ d ∈ depths, d ≤ maxDepth) :
    kraftSum depths = spaceOf maxDepth depths := by
  rw [kraftSum, spaceOf]
  congr 2
  apply List.filter_congr
  intro d hd
  rw [isCodeDepth, decide_eq_true (h d hd), Bool.and_true]
  rfl

/-- The part that each depth contributes. -/
theorem spaceOf_eq_sum (limit : Nat) (depths : List Nat) :
    spaceOf limit depths = (depths.map fun d ↦ if 0 < d then 2 ^ (limit - d) else 0).sum := by
  induction depths with
  | nil => rfl
  | cons d depths ih =>
    rw [List.map_cons, List.sum_cons, ← ih, spaceOf, spaceOf, List.filter_cons]
    split
    · next h => rw [List.map_cons, List.sum_cons, if_pos (of_decide_eq_true h)]
    · next h => rw [if_neg (fun hd ↦ h (decide_eq_true hd)), Nat.zero_add]

section

variable {counts depths : List Nat} {limit : Nat} (h : limitedDepths counts limit = .ok depths)
include h

theorem eq_replicate_of_limitedDepths (hused : (usedSymbols counts).length ≤ 1) :
    depths = List.replicate counts.length 0 := by
  rw [limitedDepths, if_pos hused] at h
  exact (Except.ok.inj h).symm

/-- There is room for the symbols in use, and the depths found are put in their places. -/
theorem eq_spreadDepths_of_limitedDepths (hused : 2 ≤ (usedSymbols counts).length) :
    (usedSymbols counts).length ≤ 2 ^ limit ∧
      depths = spreadDepths counts.length (depthsWithin (usedSymbols counts) limit).depths := by
  rw [limitedDepths, if_neg (Nat.not_le.2 hused)] at h
  split at h
  · cases h
  · next hroom =>
    refine ⟨Nat.le_trans (Nat.not_lt.1 hroom) ?_, (Except.ok.inj h).symm⟩
    exact Nat.pow_le_pow_right Nat.two_pos (Nat.min_le_left _ _)

/-- With two symbols or more in use, the depths are those of a tree of these symbols. -/
theorem exists_tree_of_limitedDepths (hused : 2 ≤ (usedSymbols counts).length) :
    ∃ t : CodeTree, (depthsWithin (usedSymbols counts) limit).depths = t.depths 0 ∧
      depths = spreadDepths counts.length (t.depths 0) ∧
      t.symbols.Perm ((usedSymbols counts).map Prod.fst) ∧ ∀ p ∈ t.depths 0, p.2 ≤ limit := by
  obtain ⟨hlen, heq⟩ := eq_spreadDepths_of_limitedDepths h hused
  obtain ⟨t, hdepths, hsymbols, hlimit⟩ :=
    depthsWithin_spec (List.ne_nil_of_length_pos (Nat.zero_lt_of_lt hused)) hlen
  exact ⟨t, hdepths, hdepths ▸ heq, hsymbols, hlimit⟩

/-- With two symbols or more in use, exactly these have codewords, the depths are within the limit,
and the codewords fill the code space. -/
theorem limitedDepths_spec (hused : 2 ≤ (usedSymbols counts).length) :
    depths.length = counts.length ∧ (∀ d ∈ depths, d ≤ limit) ∧
      (∀ symbol, 0 < depths.getD symbol 0 ↔ 0 < counts.getD symbol 0) ∧
      spaceOf limit depths = 2 ^ limit := by
  obtain ⟨t, -, rfl, hsymbols, hlimit⟩ := exists_tree_of_limitedDepths h hused
  have hfst := CodeTree.map_fst_depths t 0
  have hmem : ∀ {symbol}, symbol ∈ (t.depths 0).map Prod.fst ↔ 0 < counts.getD symbol 0 := by
    intro symbol
    rw [hfst, hsymbols.mem_iff, mem_map_fst_usedSymbols]
  have hnodup : ((t.depths 0).map Prod.fst).Nodup :=
    hfst ▸ hsymbols.nodup_iff.2 (nodup_map_fst_usedSymbols counts)
  have hlt : ∀ p ∈ t.depths 0, p.1 < counts.length := by
    intro p hp
    exact lt_length_of_pos (hmem.1 (List.mem_map_of_mem hp))
  have hpos : ∀ p ∈ t.depths 0, 0 < p.2 := by
    intro p hp
    apply CodeTree.lt_depth_of_mem _ hp
    rw [hsymbols.length_eq, List.length_map]
    exact hused
  obtain ⟨hlength, -, -, hsum⟩ := spreadDepths_spec hnodup hlt
  refine ⟨hlength, ?_, ?_, ?_⟩
  · intro d hd
    rcases mem_spreadDepths hnodup hlt hd with rfl | ⟨p, hp, rfl⟩
    · exact Nat.zero_le limit
    · exact hlimit p hp
  · intro symbol
    rw [getD_spreadDepths_pos_iff hnodup hlt hpos, hmem]
  · rw [spaceOf_eq_sum, hsum _ rfl, ← Nat.sub_zero limit, ← CodeTree.sum_two_pow_depths hlimit,
      Nat.sub_zero]
    congr 1
    exact List.map_congr_left fun p hp ↦ if_pos (hpos p hp)

end

/-! ## The code of a histogram -/

namespace PrefixCode

theorem length_countsOf (h : Histogram) : (countsOf h).length = max 1 h.alphabetSize := by
  rw [countsOf, Histogram.alphabetSize]
  cases htrimmed : h.trimmed with
  | nil => rfl
  | cons count counts =>
    rw [if_neg (by simp), List.length_cons]
    omega

/-- The depths found for counts describe a complete or a degenerate code. -/
theorem ofDepths_of_limitedDepths {counts depths : List Nat} (hne : counts ≠ [])
    (h : limitedDepths counts maxDepth = .ok depths) :
    ofDepths depths = .ok (canonical depths) ∧ depths.length = counts.length := by
  rcases Nat.lt_or_ge 1 (usedSymbols counts).length with hused | hused
  · obtain ⟨hlength, hle, -, hspace⟩ := limitedDepths_spec h hused
    refine ⟨ofDepths_eq_ok_iff.2 ⟨?_, hle, fun _ ↦ ?_, rfl⟩, hlength⟩
    · rwa [Ne, ← List.length_eq_zero_iff, hlength, List.length_eq_zero_iff]
    · rw [kraftSum_eq_spaceOf hle, hspace]
      rfl
  · obtain rfl := eq_replicate_of_limitedDepths h hused
    have hzero : ∀ d ∈ List.replicate counts.length 0, d = 0 := fun d hd ↦
      (List.mem_replicate.1 hd).2
    refine ⟨ofDepths_eq_ok_iff.2 ⟨?_, fun d hd ↦ ?_, ?_, rfl⟩, List.length_replicate⟩
    · rwa [Ne, ← List.length_eq_zero_iff, List.length_replicate, List.length_eq_zero_iff]
    · rw [hzero d hd]
      exact Nat.zero_le _
    · rintro ⟨d, hd, hpos⟩
      rw [hzero d hd] at hpos
      cases hpos

/-- The code of a histogram is the one built from its depths. -/
theorem ofDepths_of_ofHistogram {h : Histogram} {c : PrefixCode} (hc : ofHistogram h = .ok c) :
    ofDepths c.depths.toList = .ok c ∧ c.alphabetSize = max 1 h.alphabetSize := by
  obtain ⟨depths, hdepths, rfl⟩ := Except.map_eq_ok_iff.1 hc
  have hlen := length_countsOf h
  have hne : countsOf h ≠ [] := by
    rw [Ne, ← List.length_eq_zero_iff]
    omega
  obtain ⟨hok, hlength⟩ := ofDepths_of_limitedDepths hne hdepths
  exact ⟨hok, hlength.trans hlen⟩

theorem valid_of_ofHistogram {h : Histogram} {c : PrefixCode} (hc : ofHistogram h = .ok c)
    (hsize : h.alphabetSize ≤ maxAlphabet) : c.Valid := by
  obtain ⟨hok, hlength⟩ := ofDepths_of_ofHistogram hc
  refine ⟨hok, ?_⟩
  have : 1 ≤ maxAlphabet := by decide
  omega

end PrefixCode

end EntropyCoding
