import EntropyCoding.Proofs.Checked.Extension
import EntropyCoding.Proofs.Prefix.Lightest
import Mathlib.Algebra.BigOperators.Ring.List

/-!
# Depths recovered from populations

The symbols of a complete code have populations that are powers of two and have `2 ^ 15` members
together.  Of such weights the two lightest are equal, whichever trees are chosen among those of one
weight: every other weight is a multiple of the second lightest, and so is the sum of all, so the
lightest is one too.  Joining two trees of equal weight puts both one level below the tree that they
become, `IsDyadic.joinLightest`, and in the end every symbol is as deep as its weight says,
`depth_eq_of_codeDepths`.  So the depths are found again from the populations,
`limitedDepths_countsOfDepths`.
-/

namespace EntropyCoding

/-! ## Trees of a dyadic code -/

/-- A tree that belongs at depth `r` of a code with the depths `e`: it has the weight of that depth, and
its symbols are as deep as they should be. -/
structure CodeTree.HangsAt (n : Nat) (e : Nat → Nat) (r : Nat) (t : CodeTree) : Prop where
  /-- The depth is within the limit. -/
  le_limit : r ≤ n
  /-- The weight is that of a codeword of this depth. -/
  weight_eq : t.weight = 2 ^ (n - r)
  /-- The symbols have the depths given. -/
  depth_eq : ∀ p ∈ t.depths r, p.2 = e p.1

/-- Two trees at one depth are joined above it. -/
theorem CodeTree.HangsAt.join {n r : Nat} {e : Nat → Nat} {a b : CodeTree} (ha : a.HangsAt n e (r + 1))
    (hb : b.HangsAt n e (r + 1)) : (a.join b).HangsAt n e r where
  le_limit := Nat.le_of_succ_le ha.le_limit
  weight_eq := by
    have hr : n - r = n - (r + 1) + 1 := by
      have := ha.le_limit
      omega
    rw [weight_join, ha.weight_eq, hb.weight_eq, ← Nat.two_mul, hr, Nat.pow_succ']
  depth_eq := by
    rw [depths_join]
    exact List.forall_mem_append.2 ⟨ha.depth_eq, hb.depth_eq⟩

namespace Forest

/-- The trees of a forest belong somewhere in a code with the depths `e`, and fill it. -/
structure IsDyadic (n : Nat) (e : Nat → Nat) (f : Forest) : Prop where
  /-- Every tree belongs at some depth. -/
  exists_hangsAt : ∀ t ∈ f.trees, ∃ r, t.HangsAt n e r
  /-- The weights are those of a whole code. -/
  sum_weight : (f.trees.map CodeTree.weight).sum = 2 ^ n

variable {n : Nat} {e : Nat → Nat} {f : Forest}

/-- The two lightest trees have the same weight: the second divides all others and their sum. -/
theorem weight_eq_of_lightest {a b : CodeTree} {rest : List CodeTree}
    (h : ∀ t ∈ a :: b :: rest, ∃ r, t.HangsAt n e r)
    (hsum : ((a :: b :: rest).map CodeTree.weight).sum = 2 ^ n) (hab : a.weight ≤ b.weight)
    (hrest : ∀ t ∈ rest, b.weight ≤ t.weight) : a.weight = b.weight := by
  obtain ⟨ra, ha⟩ := h a (.head _)
  obtain ⟨rb, hb⟩ := h b (.tail _ (.head _))
  have hdvd : ∀ t ∈ rest, b.weight ∣ t.weight := by
    intro t ht
    obtain ⟨r, hr⟩ := h t (.tail _ (.tail _ ht))
    have hle := hrest t ht
    rw [hb.weight_eq, hr.weight_eq] at hle ⊢
    exact Nat.pow_dvd_pow 2 ((Nat.pow_le_pow_iff_right (by decide)).1 hle)
  have hothers : b.weight ∣ (b.weight + (rest.map CodeTree.weight).sum) := by
    refine Nat.dvd_add (Nat.dvd_refl _) (List.dvd_sum ?_)
    intro w hw
    obtain ⟨t, ht, rfl⟩ := List.mem_map.1 hw
    exact hdvd t ht
  have hall : b.weight ∣ a.weight + (b.weight + (rest.map CodeTree.weight).sum) := by
    rw [List.map_cons, List.map_cons, List.sum_cons, List.sum_cons] at hsum
    rw [hsum, hb.weight_eq]
    exact Nat.pow_dvd_pow 2 (Nat.sub_le n rb)
  have hpos : 0 < a.weight := by
    rw [ha.weight_eq]
    exact Nat.two_pow_pos _
  exact Nat.le_antisymm hab (Nat.le_of_dvd hpos ((Nat.dvd_add_left hothers).1 hall))

/-- So they belong at the same depth, which is not that of the root. -/
theorem exists_hangsAt_of_lightest {a b : CodeTree} {rest : List CodeTree}
    (h : ∀ t ∈ a :: b :: rest, ∃ r, t.HangsAt n e r)
    (hsum : ((a :: b :: rest).map CodeTree.weight).sum = 2 ^ n) (hab : a.weight ≤ b.weight)
    (hrest : ∀ t ∈ rest, b.weight ≤ t.weight) :
    ∃ r, a.HangsAt n e (r + 1) ∧ b.HangsAt n e (r + 1) := by
  have hweight := weight_eq_of_lightest h hsum hab hrest
  obtain ⟨ra, ha⟩ := h a (.head _)
  obtain ⟨rb, hb⟩ := h b (.tail _ (.head _))
  have hle : a.weight + b.weight ≤ 2 ^ n := by
    rw [List.map_cons, List.map_cons, List.sum_cons, List.sum_cons] at hsum
    omega
  rw [ha.weight_eq, hb.weight_eq] at hweight
  have hsame : n - ra = n - rb := Nat.pow_right_injective (Nat.le_refl 2) hweight
  obtain rfl : ra = rb := by
    have := ha.le_limit
    have := hb.le_limit
    omega
  cases ra with
  | zero =>
    -- two trees with the weight of a whole code are too many
    rw [ha.weight_eq, hb.weight_eq, Nat.sub_zero] at hle
    have := Nat.two_pow_pos n
    omega
  | succ r => exact ⟨r, ha, hb⟩

/-- Joining the two lightest trees of a dyadic code leaves a dyadic code. -/
theorem IsDyadic.joinLightest {m : Nat} (hf : f.IsDyadic n e) (hm : f.Sorted m)
    (hlen : 2 ≤ f.trees.length) : f.joinLightest.IsDyadic n e := by
  obtain ⟨a, b, rest, hperm, hab, hrest, hjoin, -⟩ := hm.exists_joinLightest hlen
  have htrees : ∀ t ∈ a :: b :: rest.trees, ∃ r, t.HangsAt n e r :=
    fun t ht ↦ hf.exists_hangsAt t (hperm.mem_iff.2 ht)
  have hsum := (hperm.map CodeTree.weight).sum_eq.symm.trans hf.sum_weight
  obtain ⟨r, ha, hb⟩ := exists_hangsAt_of_lightest htrees hsum hab hrest
  constructor
  · rw [hjoin, trees_push]
    refine List.forall_mem_append.2 ⟨fun t ht ↦ htrees t (.tail _ (.tail _ ht)), ?_⟩
    exact List.forall_mem_singleton.2 ⟨r, ha.join hb⟩
  · rw [sum_weight_joinLightest hlen]
    exact hf.sum_weight

/-- A single tree belongs at the root. -/
theorem IsDyadic.hangsAt_zero {t : CodeTree} (hf : f.IsDyadic n e) (ht : f.trees = [t]) :
    t.HangsAt n e 0 := by
  obtain ⟨htrees, hsum⟩ := hf
  rw [ht] at htrees hsum
  obtain ⟨r, hr⟩ := htrees t (List.mem_singleton_self t)
  rw [List.map_singleton, List.sum_singleton, hr.weight_eq] at hsum
  have hdepth : n - r = n := Nat.pow_right_injective (Nat.le_refl 2) hsum
  obtain rfl : r = 0 := by
    have := hr.le_limit
    omega
  exact hr

/-- The leaves belong at the depths that their weights stand for. -/
theorem isDyadic_ofWeights {weights : List (Nat × Nat)}
    (hw : ∀ p ∈ weights, e p.1 ≤ n ∧ p.2 = 2 ^ (n - e p.1))
    (hsum : (weights.map Prod.snd).sum = 2 ^ n) : (ofWeights weights).IsDyadic n e := by
  have hperm := trees_ofWeights weights
  constructor
  · intro t ht
    obtain ⟨p, hp, rfl⟩ := List.mem_map.1 (hperm.mem_iff.1 ht)
    obtain ⟨hle, hweight⟩ := hw p hp
    exact ⟨e p.1, hle, hweight, List.forall_mem_singleton.2 rfl⟩
  · rw [(hperm.map CodeTree.weight).sum_eq, List.map_map, ← hsum]
    rfl

end Forest

/-- With weights that are powers of two and fill a code, every symbol is as deep as its weight says. -/
theorem depth_eq_of_codeDepths {n : Nat} {e : Nat → Nat} {weights : List (Nat × Nat)}
    (hw : ∀ p ∈ weights, e p.1 ≤ n ∧ p.2 = 2 ^ (n - e p.1))
    (hsum : (weights.map Prod.snd).sum = 2 ^ n) {p : Nat × Nat} (hp : p ∈ codeDepths weights) :
    p.2 = e p.1 := by
  have hne : weights ≠ [] := by
    rintro rfl
    exact absurd hsum (Nat.ne_of_lt (Nat.two_pow_pos n))
  obtain ⟨t, ⟨hdyadic, -⟩, ht, hdepths, -⟩ := exists_tree_of_codeDepths hne
    (P := fun f ↦ f.IsDyadic n e ∧ ∃ m, f.Sorted m)
    (fun f ⟨hf, m, hm⟩ hlen ↦ ⟨hf.joinLightest hm hlen, hm.joinLightest hlen⟩)
    ⟨Forest.isDyadic_ofWeights hw hsum, 0, Forest.sorted_ofWeights weights⟩
  rw [hdepths] at hp
  exact (hdyadic.hangsAt_zero ht).depth_eq p hp

/-! ## Populations of a complete code -/

/-- The count that a depth stands for: its population, and nothing without a codeword. -/
def countOfDepth (depth : Nat) : Nat :=
  if 0 < depth then PrefixCode.population depth else 0

theorem countOfDepth_of_pos {depth : Nat} (h : 0 < depth) :
    countOfDepth depth = PrefixCode.population depth :=
  if_pos h

@[simp] theorem countOfDepth_pos_iff {depth : Nat} : 0 < countOfDepth depth ↔ 0 < depth := by
  obtain rfl | h := Nat.eq_zero_or_pos depth
  · rfl
  · rw [countOfDepth_of_pos h]
    exact iff_of_true (PrefixCode.population_mem depth).1 h

def countsOfDepths (depths : List Nat) : List Nat :=
  depths.map countOfDepth

@[simp] theorem length_countsOfDepths (depths : List Nat) :
    (countsOfDepths depths).length = depths.length :=
  List.length_map _

theorem getD_countsOfDepths (depths : List Nat) (s : Nat) :
    (countsOfDepths depths).getD s 0 = countOfDepth (depths.getD s 0) :=
  List.getD_map depths 0 countOfDepth

theorem map_snd_usedSymbols (counts : List Nat) :
    (usedSymbols counts).map Prod.snd = counts.filter (0 < ·) := by
  have hzip := List.filter_map (p := (0 < ·)) (f := Prod.fst) (l := counts.zipIdx)
  rw [List.zipIdx_map_fst] at hzip
  rw [hzip, usedSymbols, List.map_map]
  rfl

/-- The counts of the symbols used are the populations of the codewords. -/
theorem map_snd_usedSymbols_countsOfDepths (depths : List Nat) :
    (usedSymbols (countsOfDepths depths)).map Prod.snd =
      (depths.filter (0 < ·)).map PrefixCode.population := by
  have hpos : (fun depth ↦ decide (0 < depth)) ∘ countOfDepth = fun depth ↦ decide (0 < depth) := by
    ext depth
    simp
  rw [map_snd_usedSymbols, countsOfDepths, List.filter_map, hpos]
  refine List.map_congr_left fun depth h ↦ countOfDepth_of_pos ?_
  exact of_decide_eq_true (List.mem_filter.1 h).2

/-- What is counted for a symbol used is the population of its depth. -/
theorem mem_usedSymbols_countsOfDepths {depths : List Nat} {p : Nat × Nat}
    (hp : p ∈ usedSymbols (countsOfDepths depths)) :
    0 < depths.getD p.1 0 ∧ p.2 = PrefixCode.population (depths.getD p.1 0) := by
  rw [usedSymbols_eq] at hp
  obtain ⟨s, hs, rfl⟩ := List.mem_map.1 hp
  have hcount := of_decide_eq_true (List.mem_filter.1 hs).2
  rw [getD_countsOfDepths, countOfDepth_pos_iff] at hcount
  refine ⟨hcount, ?_⟩
  rw [getD_countsOfDepths, countOfDepth_of_pos hcount]

/-! ## Depths of a complete code -/

section

variable {depths : List Nat} (hle : ∀ d ∈ depths, d ≤ maxDepth)
  (hk : kraftSum depths = codeSpace)
include hle hk

/-- The populations of a complete code fill the code space. -/
theorem sum_usedSymbols_countsOfDepths :
    ((usedSymbols (countsOfDepths depths)).map Prod.snd).sum = 2 ^ maxDepth := by
  rw [map_snd_usedSymbols_countsOfDepths]
  exact (kraftSum_eq_spaceOf hle).symm.trans hk

/-- So there are two symbols at least, and no more than there are codewords. -/
theorem length_usedSymbols_countsOfDepths :
    2 ≤ (usedSymbols (countsOfDepths depths)).length ∧
      (usedSymbols (countsOfDepths depths)).length ≤ codeCapacity maxDepth := by
  have hsum := sum_usedSymbols_countsOfDepths hle hk
  have hpos : ∀ w ∈ (usedSymbols (countsOfDepths depths)).map Prod.snd, 1 ≤ w ∧ w ≤ 2 ^ 14 := by
    intro w hw
    obtain ⟨p, hp, rfl⟩ := List.mem_map.1 hw
    obtain ⟨hd, hcount⟩ := mem_usedSymbols_countsOfDepths hp
    rw [hcount]
    exact ⟨(PrefixCode.population_mem _).1,
      Nat.pow_le_pow_right Nat.two_pos (Nat.sub_le_sub_left hd maxDepth)⟩
  have hupper := List.sum_le_card_nsmul _ _ fun w hw ↦ (hpos w hw).2
  have hlower := List.card_nsmul_le_sum _ _ fun w hw ↦ (hpos w hw).1
  rw [hsum, List.length_map, Nat.nsmul_eq_mul] at hupper hlower
  rw [Nat.mul_one] at hlower
  refine ⟨?_, hlower⟩
  rw [maxDepth] at hupper
  omega

/-- At the first floor the weights are the counts, and every symbol used is as deep as it was. -/
theorem exists_tree_of_countsOfDepths : ∃ t : CodeTree,
    (depthsWithFloor (usedSymbols (countsOfDepths depths)) 0).depths = t.depths 0 ∧
      t.symbols.Perm ((usedSymbols (countsOfDepths depths)).map Prod.fst) ∧
      ∀ p ∈ t.depths 0, p.2 = depths.getD p.1 0 := by
  have hfloor : flooredWeights (2 ^ 0) (usedSymbols (countsOfDepths depths)) =
      usedSymbols (countsOfDepths depths) := by
    refine (List.map_congr_left fun p hp ↦ ?_).trans (List.map_id _)
    obtain ⟨-, hcount⟩ := mem_usedSymbols_countsOfDepths hp
    have hpos : 2 ^ 0 ≤ p.2 := hcount ▸ (PrefixCode.population_mem _).1
    exact Prod.ext rfl (Nat.max_eq_left hpos)
  have hw : ∀ p ∈ usedSymbols (countsOfDepths depths),
      depths.getD p.1 0 ≤ maxDepth ∧ p.2 = 2 ^ (maxDepth - depths.getD p.1 0) := by
    intro p hp
    obtain ⟨hd, hcount⟩ := mem_usedSymbols_countsOfDepths hp
    rw [List.getD_eq_getElem _ _ (lt_length_of_pos hd)] at hcount ⊢
    exact ⟨hle _ (List.getElem_mem _), hcount⟩
  have hne : usedSymbols (countsOfDepths depths) ≠ [] :=
    List.ne_nil_of_length_pos (Nat.zero_lt_of_lt (length_usedSymbols_countsOfDepths hle hk).1)
  obtain ⟨t, ht, hsymbols⟩ := codeDepths_eq hne
  refine ⟨t, by rw [depthsWithFloor, hfloor, ht], hsymbols, fun p hp ↦ ?_⟩
  exact depth_eq_of_codeDepths (e := fun s ↦ depths.getD s 0) hw
    (sum_usedSymbols_countsOfDepths hle hk) (ht ▸ hp)

/-- The depths found at the first floor are the depths that were given. -/
theorem spreadDepths_countsOfDepths : spreadDepths depths.length
    (depthsWithFloor (usedSymbols (countsOfDepths depths)) 0).depths = depths := by
  obtain ⟨t, ht, hsymbols, hdepth⟩ := exists_tree_of_countsOfDepths hle hk
  have hmem {s : Nat} : s ∈ (t.depths 0).map Prod.fst ↔ 0 < depths.getD s 0 := by
    rw [t.map_fst_depths, hsymbols.mem_iff, mem_map_fst_usedSymbols, getD_countsOfDepths,
      countOfDepth_pos_iff]
  have hnodup : ((t.depths 0).map Prod.fst).Nodup := by
    rw [t.map_fst_depths]
    exact hsymbols.nodup_iff.2 (nodup_map_fst_usedSymbols _)
  have hlt : ∀ p ∈ t.depths 0, p.1 < depths.length := by
    intro p hp
    exact lt_length_of_pos (hmem.1 (List.mem_map_of_mem hp))
  obtain ⟨hlength, hplace, hother, -⟩ := spreadDepths_spec hnodup hlt
  rw [ht]
  apply List.ext_getElem hlength
  intro s hs hs'
  rw [← List.getD_eq_getElem _ 0 hs, ← List.getD_eq_getElem _ 0 hs']
  by_cases hcoded : s ∈ (t.depths 0).map Prod.fst
  · obtain ⟨p, hp, rfl⟩ := List.mem_map.1 hcoded
    rw [List.getD_eq_getElem?_getD, hplace p hp, ← hdepth p hp]
    rfl
  · rw [hother s hcoded]
    rw [hmem] at hcoded
    omega

/-- They are within the limit. -/
theorem deepest_countsOfDepths_le :
    (depthsWithFloor (usedSymbols (countsOfDepths depths)) 0).deepest ≤ maxDepth := by
  obtain ⟨t, ht, -, hdepth⟩ := exists_tree_of_countsOfDepths hle hk
  refine largestSecond_le fun p hp ↦ ?_
  rw [hdepth p (ht ▸ hp)]
  by_cases hs : p.1 < depths.length
  · rw [List.getD_eq_getElem _ _ hs]
    exact hle _ (List.getElem_mem hs)
  · rw [List.getD_eq_default _ _ (Nat.not_lt.1 hs)]
    exact Nat.zero_le _

/-- The search ends at the first floor. -/
theorem limitedDepths_countsOfDepths : limitedDepths (countsOfDepths depths) maxDepth = .ok depths := by
  obtain ⟨htwo, hroom⟩ := length_usedSymbols_countsOfDepths hle hk
  have hfound : (depthsWithin (usedSymbols (countsOfDepths depths)) maxDepth).depths =
      (depthsWithFloor (usedSymbols (countsOfDepths depths)) 0).depths := by
    rw [depthsWithin, depthsFromFloor, if_pos (deepest_countsOfDepths_le hle hk)]
  rw [limitedDepths, if_neg (Nat.not_le.2 htwo), if_neg (Nat.not_lt.2 hroom), hfound,
    length_countsOfDepths, spreadDepths_countsOfDepths hle hk]

end

/-- The counts of depths have 32 bits. -/
theorem lt_of_mem_countsOfDepths {depths : List Nat} {c : Nat} (hc : c ∈ countsOfDepths depths) :
    c < 2 ^ 32 := by
  obtain ⟨d, -, rfl⟩ := List.mem_map.1 hc
  obtain rfl | hd := Nat.eq_zero_or_pos d
  · decide
  · rw [countOfDepth_of_pos hd]
    exact Nat.lt_of_le_of_lt (PrefixCode.population_mem d).2 (by decide)

theorem countsOfDepths_of_pos {depths : List Nat} (h : ∀ d ∈ depths, 0 < d) :
    countsOfDepths depths = depths.map PrefixCode.population :=
  List.map_congr_left fun d hd ↦ countOfDepth_of_pos (h d hd)

namespace Checked

open PrefixCode

section

variable {depths : List Nat} (hle : ∀ d ∈ depths, d ≤ maxDepth)
  (hk : EntropyCoding.kraftSum depths = codeSpace)
include hle hk

/-- One floor is all that is tried. -/
theorem limitedDepths_countsOfDepths {tries : Nat} (htries : 0 < tries) :
    limitedDepths tries (countsOfDepths depths) maxDepth = .ok depths := by
  obtain ⟨htwo, hroom⟩ := length_usedSymbols_countsOfDepths hle hk
  have hne := List.ne_nil_of_length_pos (Nat.zero_lt_of_lt htwo)
  have hfit := deepest_countsOfDepths_le hle hk
  rw [codeCapacity] at hroom
  obtain ⟨found, -, hfound, htry⟩ := exists_attempt (fun c hc ↦ lt_of_mem_countsOfDepths hc) hne
    hroom (by decide) (Nat.zero_le 32) (isClean_replicate (countsOfDepths depths))
  obtain ⟨tries, rfl⟩ := Nat.exists_eq_add_one.2 htries
  have hfirst := (htry tries).trans (if_pos hfit)
  rw [Nat.pow_zero] at hfirst
  rw [limitedDepths, if_neg (Nat.not_le.2 htwo), bind_of_eq_ok (shiftLeft_one (by decide)),
    if_neg (Nat.not_lt.2 hroom), bind_of_eq_ok hfirst, hfound hfit, length_countsOfDepths,
    spreadDepths_countsOfDepths hle hk]

/-- The code that is built from the counts is the code with the depths given. -/
theorem install_countsOfDepths {tries : Nat} (htries : 0 < tries) (c : PrefixCode) :
    install tries (countsOfDepths depths) c = .ok () (canonical depths) := by
  obtain ⟨next, hassign⟩ := assignCodes_eq (Nat.le_of_eq hk)
  rw [install, lift_bind (limitedDepths_countsOfDepths hle hk htries),
    lift_bind (firstCodes_eq (Nat.le_of_eq hk) hle), lift_bind hassign]
  rfl

/-- If every symbol has a codeword the counts are the populations that a code is extended by. -/
theorem populate_countsOfDepths (hpos : ∀ d ∈ depths, 0 < d) :
    populate (List.replicate depths.length 1) depths 0 = .ok (countsOfDepths depths, codeSpace) := by
  have hsum : (depths.map population).sum = codeSpace := by
    rw [sum_population hle, hk, List.count_eq_zero_of_not_mem fun h ↦ Nat.lt_irrefl 0 (hpos 0 h)]
    rfl
  rw [populate_eq_ok hle (Nat.le_of_eq List.length_replicate.symm) (by rw [hsum]; decide), hsum,
    List.drop_replicate, Nat.sub_self, List.replicate_zero, List.append_nil,
    countsOfDepths_of_pos hpos, Nat.zero_add]

end

/-- The depths of a complete code are found again from the populations that they stand for, at the first
floor and without a fault, and so is the code: rebuilding it from its depths changes nothing.  If every
symbol has a codeword these are the populations that the code is extended by. -/
theorem depths_recovered {depths : List Nat} (hle : ∀ d ∈ depths, d ≤ maxDepth)
    (hk : EntropyCoding.kraftSum depths = codeSpace) :
    EntropyCoding.limitedDepths (countsOfDepths depths) maxDepth = .ok depths ∧
    (∀ tries, 0 < tries → limitedDepths tries (countsOfDepths depths) maxDepth = .ok depths) ∧
    (∃ c, PrefixCode.ofDepths depths = .ok c ∧ ∀ tries, 0 < tries →
      install tries (countsOfDepths c.depths.toList) c = .ok () c) ∧
    ((∀ d ∈ depths, 0 < d) → populate (List.replicate depths.length 1) depths 0 =
      .ok (countsOfDepths depths, codeSpace)) := by
  refine ⟨EntropyCoding.limitedDepths_countsOfDepths hle hk,
    fun tries htries ↦ limitedDepths_countsOfDepths hle hk htries, ⟨canonical depths, ?_,
    fun tries htries ↦ install_countsOfDepths hle hk htries _⟩, populate_countsOfDepths hle hk⟩
  refine ofDepths_eq_ok_iff.2 ⟨?_, hle, fun _ ↦ hk, rfl⟩
  rintro rfl
  exact absurd hk (by decide)

/-- Four symbols, two of them as deep as the other two together, and one without a codeword. -/
theorem depths_recovered_gap : (∀ d ∈ [2, 0, 1, 3, 3], d ≤ maxDepth) ∧
    EntropyCoding.kraftSum [2, 0, 1, 3, 3] = codeSpace ∧
    countsOfDepths [2, 0, 1, 3, 3] = [8192, 0, 16384, 4096, 4096] ∧
    limitedDepths 1 (countsOfDepths [2, 0, 1, 3, 3]) maxDepth = .ok [2, 0, 1, 3, 3] := by
  have hle : ∀ d ∈ [2, 0, 1, 3, 3], d ≤ maxDepth := by decide
  have hk : EntropyCoding.kraftSum [2, 0, 1, 3, 3] = codeSpace := by decide
  exact ⟨hle, hk, by decide, (depths_recovered hle hk).2.1 1 Nat.one_pos⟩

end Checked

end EntropyCoding
