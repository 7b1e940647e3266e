import EntropyCoding.Proofs.Checked.Agreement
import EntropyCoding.Proofs.Checked.Queue
import EntropyCoding.Proofs.Prefix.Complete

/-!
# Checked depths

The depths of a code are searched with one floor after another.  For each floor the leaves are joined
with a priority queue, and the leaves of the tree that is left are visited with a stack; their depths go
into an array, 255 standing for all larger ones, also if they exceed the limit and the next floor is
tried.  So the array has the depths of an attempt that failed when the next one begins.

Every attempt writes to the places of all symbols used, `foldl_setIfInBounds_congr`, and what the last
one writes is within the limit.  The last floor is at most the first power of two that no count
exceeds, because at that floor all weights are equal.
-/

namespace EntropyCoding

namespace CodeTree

def size : CodeTree → Nat
  | leaf _ _ => 1
  | node _ left right => left.size + right.size + 1

theorem size_add_one (t : CodeTree) : t.size + 1 = 2 * t.symbols.length := by
  induction t with
  | leaf symbol weight => rfl
  | node weight left right ihl ihr =>
    rw [size, symbols, List.length_append]
    omega

end CodeTree

namespace Checked

/-! ## The attempts -/

/-- What is found by visiting leaves. -/
structure Visited where
  /-- The depth of each symbol. -/
  depths : Array Nat
  /-- The deepest level. -/
  deepest : Nat

/-- Visits the leaves of the trees on a stack, from left to right.  Depths have 8 bits. -/
def visit : Nat → List (CodeTree × Nat) → Visited → Except Stop Visited
  | 0, _, _ => .error (.fault .endless)
  | _ + 1, [], found => .ok found
  | steps + 1, (.leaf symbol _, depth) :: stack, found => do
    let depths ← store found.depths symbol (min depth 255)
    visit steps stack ⟨depths, max found.deepest depth⟩
  | steps + 1, (.node _ left right, depth) :: stack, found =>
    visit steps ((left, depth + 1) :: (right, depth + 1) :: stack) found

/-- Tries one floor after another, up to `tries`.  The depths of each attempt go into the same array. -/
def tryFloors (n : Nat) (used : List (Nat × Nat)) (limit : Nat) :
    Nat → Nat → Array Nat → Except Stop (Array Nat)
  | 0, _, _ => .error (.fault .endless)
  | tries + 1, floor, depths => do
    let queue ← joinAll used.length n (leafQueue (flooredWeights floor used))
    match popFirst? queue with
    | none => .ok depths
    | some (root, _) => do
      let found ← visit (2 * used.length) [(root.tree, 0)] ⟨depths, 0⟩
      if found.deepest ≤ limit then .ok found.depths
      else tryFloors n used limit tries (← mul 64 floor 2) found.depths

/-- The depths of codewords for `counts`, none deeper than `limit`, found with `tries` floors at
most. -/
def limitedDepths (tries : Nat) (counts : List Nat) (limit : Nat) : Except Stop (List Nat) :=
  let depths := Array.replicate counts.length 0
  let used := usedSymbols counts
  if used.length ≤ 1 then .ok depths.toList
  else do
    let capacity ← shiftLeft 64 1 (min limit 31)
    if capacity < used.length then .error (.error (.alphabetTooLarge used.length capacity))
    else do
      let depths ← tryFloors counts.length used limit tries 1 depths
      .ok depths.toList

/-! ## Visiting leaves -/

def Visited.put (found : Visited) (p : Nat × Nat) : Visited where
  depths := found.depths.setIfInBounds p.1 (min p.2 255)
  deepest := max found.deepest p.2

theorem Visited.size_foldl_put (pairs : List (Nat × Nat)) (found : Visited) :
    (pairs.foldl put found).depths.size = found.depths.size := by
  induction pairs generalizing found with
  | nil => rfl
  | cons p pairs ih => rw [List.foldl_cons, ih, put, Array.size_setIfInBounds]

/-- A tree on the stack is replaced by what is found at its leaves. -/
theorem visit_tree {t : CodeTree} {found : Visited}
    (hlt : ∀ s ∈ t.symbols, s < found.depths.size) (d steps : Nat) (stack : List (CodeTree × Nat)) :
    visit (t.size + steps) ((t, d) :: stack) found =
      visit steps stack ((t.depths d).foldl Visited.put found) := by
  induction t generalizing found d steps stack with
  | leaf symbol weight =>
    have hs := hlt symbol (List.mem_singleton_self symbol)
    rw [CodeTree.size, Nat.add_comm, visit, bind_of_eq_ok (store_eq_ok hs _)]
    rfl
  | node weight left right ihl ihr =>
    obtain ⟨hl, hr⟩ := List.forall_mem_append.1 hlt
    rw [CodeTree.size, Nat.add_right_comm, visit, Nat.add_assoc, ihl hl,
      ihr (by rwa [Visited.size_foldl_put]), CodeTree.depths, List.foldl_append]

theorem visit_eq_ok {t : CodeTree} {depths : Array Nat} (hlt : ∀ s ∈ t.symbols, s < depths.size) :
    visit (2 * t.symbols.length) [(t, 0)] ⟨depths, 0⟩ =
      .ok ((t.depths 0).foldl Visited.put ⟨depths, 0⟩) := by
  rw [← t.size_add_one, visit_tree hlt, visit]

/-- The deepest level is that of the leaves. -/
theorem Visited.deepest_foldl_put (pairs : List (Nat × Nat)) (depths : Array Nat) :
    (pairs.foldl put ⟨depths, 0⟩).deepest = largestSecond pairs := by
  rw [largestSecond]
  generalize 0 = m
  induction pairs generalizing depths m with
  | nil => rfl
  | cons p pairs ih =>
    rw [List.foldl_cons, List.foldl_cons, put, ih]

/-- Depths of 8 bits are stored as they are. -/
theorem Visited.depths_foldl_put {pairs : List (Nat × Nat)} (h : ∀ p ∈ pairs, p.2 ≤ 255)
    (found : Visited) : (pairs.foldl put found).depths =
      pairs.foldl (fun spread p ↦ spread.setIfInBounds p.1 p.2) found.depths := by
  induction pairs generalizing found with
  | nil => rfl
  | cons p pairs ih =>
    obtain ⟨hp, hps⟩ := List.forall_mem_cons.1 h
    rw [List.foldl_cons, List.foldl_cons, ih hps, put, Nat.min_eq_left hp]

/-! ## The array -/

/-- Two arrays that differ only at places that are written to become equal. -/
theorem foldl_setIfInBounds_congr {pairs : List (Nat × Nat)} {as bs : Array Nat}
    (hsize : as.size = bs.size) (h : ∀ i, i ∉ pairs.map Prod.fst → as[i]? = bs[i]?) :
    pairs.foldl (fun spread p ↦ spread.setIfInBounds p.1 p.2) as =
      pairs.foldl (fun spread p ↦ spread.setIfInBounds p.1 p.2) bs := by
  induction pairs generalizing as bs with
  | nil => exact Array.ext_getElem? fun i ↦ h i List.not_mem_nil
  | cons p pairs ih =>
    rw [List.foldl_cons, List.foldl_cons]
    refine ih (by simpa using hsize) fun i hi ↦ ?_
    rw [Array.getElem?_setIfInBounds, Array.getElem?_setIfInBounds, hsize]
    split
    · rfl
    · next hne => exact h i (List.not_mem_cons_of_ne_of_not_mem (Ne.symm hne) hi)

theorem Visited.getElem?_foldl_put {pairs : List (Nat × Nat)} {i : Nat}
    (hi : i ∉ pairs.map Prod.fst) (found : Visited) :
    (pairs.foldl put found).depths[i]? = found.depths[i]? := by
  induction pairs generalizing found with
  | nil => rfl
  | cons p pairs ih =>
    rw [List.map_cons, List.mem_cons, not_or] at hi
    rw [List.foldl_cons, ih hi.2, put, Array.getElem?_setIfInBounds_ne (Ne.symm hi.1)]

/-- An array of depths for counts in which only symbols used have depths. -/
structure IsClean (counts : List Nat) (depths : Array Nat) : Prop where
  /-- There is a place for each symbol. -/
  size_eq : depths.size = counts.length
  /-- The other symbols have no depth. -/
  getElem?_eq : ∀ i, i ∉ (usedSymbols counts).map Prod.fst →
    depths[i]? = (Array.replicate counts.length 0)[i]?

section

variable {counts : List Nat} {depths : Array Nat} (h : IsClean counts depths) {t : CodeTree}
  (hsymbols : t.symbols.Perm ((usedSymbols counts).map Prod.fst))
include h hsymbols

/-- An array stays clean when the leaves of a tree of the symbols used are visited. -/
theorem IsClean.visit :
    IsClean counts ((t.depths 0).foldl Visited.put ⟨depths, 0⟩).depths where
  size_eq := (Visited.size_foldl_put _ _).trans h.size_eq
  getElem?_eq i hi := by
    rw [← hsymbols.mem_iff, ← t.map_fst_depths 0] at hi
    rw [Visited.getElem?_foldl_put hi]
    rw [t.map_fst_depths, hsymbols.mem_iff] at hi
    exact h.getElem?_eq i hi

/-- It then has the depths of the tree, whatever it had before. -/
theorem IsClean.toList_visit (hle : ∀ p ∈ t.depths 0, p.2 ≤ 255) :
    ((t.depths 0).foldl Visited.put ⟨depths, 0⟩).depths.toList =
      spreadDepths counts.length (t.depths 0) := by
  have hsize : depths.size = (Array.replicate counts.length 0).size := by
    rw [h.size_eq, Array.size_replicate]
  rw [Visited.depths_foldl_put hle, foldl_setIfInBounds_congr hsize fun i hi ↦ ?_]
  · rfl
  · rw [t.map_fst_depths, hsymbols.mem_iff] at hi
    exact h.getElem?_eq i hi

end

/-! ## The floors -/

theorem pairwise_usedSymbols (counts : List Nat) :
    (usedSymbols counts).Pairwise fun p q ↦ p.1 < q.1 := by
  rw [usedSymbols_eq]
  exact List.pairwise_map.2 (List.pairwise_lt_range.filter _)

/-- Every symbol used has one of the counts. -/
theorem snd_mem_of_mem_usedSymbols {counts : List Nat} {p : Nat × Nat} (hp : p ∈ usedSymbols counts) :
    p.1 < counts.length ∧ p.2 ∈ counts := by
  rw [usedSymbols_eq] at hp
  obtain ⟨s, hs, rfl⟩ := List.mem_map.1 hp
  have hlt := List.mem_range.1 (List.mem_filter.1 hs).1
  refine ⟨hlt, ?_⟩
  rw [List.getD_eq_getElem?_getD, List.getElem?_eq_getElem hlt]
  exact List.getElem_mem hlt

theorem lt_of_not_largestSecond_le {counts : List Nat} {k bits : Nat}
    (hlarge : ¬ largestSecond (usedSymbols counts) ≤ 2 ^ k) (hbits : ∀ c ∈ counts, c ≤ 2 ^ bits) :
    k < bits := by
  refine Nat.lt_of_not_le fun hle ↦ hlarge (largestSecond_le fun p hp ↦ ?_)
  exact (hbits _ (snd_mem_of_mem_usedSymbols hp).2).trans (Nat.pow_le_pow_right Nat.two_pos hle)

section

variable {counts : List Nat} {limit : Nat} (hcounts : ∀ c ∈ counts, c < 2 ^ 32)
  (hne : usedSymbols counts ≠ []) (hroom : (usedSymbols counts).length ≤ 2 ^ min limit 31)
include hcounts hne hroom

/-- One tree is left at every floor of at most 32 bits. -/
theorem exists_root_of_floor {k : Nat} (hk : k ≤ 32) :
    ∃ root, joinAll (usedSymbols counts).length counts.length
        (leafQueue (flooredWeights (2 ^ k) (usedSymbols counts))) = .ok [root] ∧
      (depthsWithFloor (usedSymbols counts) k).depths = root.tree.depths 0 ∧
      root.tree.symbols.Perm ((usedSymbols counts).map Prod.fst) := by
  have hlength : (flooredWeights (2 ^ k) (usedSymbols counts)).length =
      (usedSymbols counts).length := List.length_map _
  have hfst : (flooredWeights (2 ^ k) (usedSymbols counts)).map Prod.fst =
      (usedSymbols counts).map Prod.fst := by
    rw [flooredWeights, List.map_map]
    rfl
  have hsum : ((flooredWeights (2 ^ k) (usedSymbols counts)).map Prod.snd).sum ≤
      (usedSymbols counts).length * 2 ^ 32 := by
    rw [← hlength, ← List.length_map Prod.snd, ← Nat.nsmul_eq_mul]
    refine List.sum_le_card_nsmul _ _ fun w hw ↦ ?_
    obtain ⟨p, hp, rfl⟩ := List.mem_map.1 hw
    obtain ⟨q, hq, rfl⟩ := List.mem_map.1 hp
    have hcount := hcounts _ (snd_mem_of_mem_usedSymbols hq).2
    exact Nat.max_le.2 ⟨Nat.le_of_lt hcount, Nat.pow_le_pow_right Nat.two_pos hk⟩
  have hfew : (usedSymbols counts).length ≤ 2 ^ 31 :=
    hroom.trans (Nat.pow_le_pow_right Nat.two_pos (Nat.min_le_right _ _))
  rw [← hfst, ← hlength]
  refine exists_root (by rwa [flooredWeights, Ne, List.map_eq_nil_iff])
    (List.pairwise_map.2 (pairwise_usedSymbols counts)) (fun p hp ↦ ?_) (by omega)
  obtain ⟨q, hq, rfl⟩ := List.mem_map.1 hp
  exact (snd_mem_of_mem_usedSymbols hq).1

/-- What one attempt finds is the depths for its floor, and they stay unless they exceed the limit. -/
theorem exists_attempt (hlimit : limit < 2 ^ 8) {k : Nat} (hk : k ≤ 32) {depths : Array Nat}
    (hclean : IsClean counts depths) :
    ∃ found, IsClean counts found ∧
      ((depthsWithFloor (usedSymbols counts) k).deepest ≤ limit → found.toList =
        spreadDepths counts.length (depthsWithFloor (usedSymbols counts) k).depths) ∧
      ∀ tries, tryFloors counts.length (usedSymbols counts) limit (tries + 1) (2 ^ k) depths =
        if (depthsWithFloor (usedSymbols counts) k).deepest ≤ limit then .ok found
        else mul 64 (2 ^ k) 2 >>= fun floor ↦
          tryFloors counts.length (usedSymbols counts) limit tries floor found := by
  obtain ⟨root, hjoin, hdepths, hsymbols⟩ := exists_root_of_floor hcounts hne hroom hk
  have hlt : ∀ s ∈ root.tree.symbols, s < depths.size := by
    intro s hs
    obtain ⟨p, hp, rfl⟩ := List.mem_map.1 (hsymbols.mem_iff.1 hs)
    exact hclean.size_eq ▸ (snd_mem_of_mem_usedSymbols hp).1
  have hsteps : (usedSymbols counts).length = root.tree.symbols.length := by
    rw [hsymbols.length_eq, List.length_map]
  have hdeepest : (depthsWithFloor (usedSymbols counts) k).deepest =
      ((root.tree.depths 0).foldl Visited.put ⟨depths, 0⟩).deepest := by
    rw [Visited.deepest_foldl_put, FlooredDepths.deepest, hdepths]
  refine ⟨_, hclean.visit hsymbols, fun hfit ↦ ?_, fun tries ↦ ?_⟩
  · have hle : ∀ p ∈ root.tree.depths 0, p.2 ≤ 255 := fun p hp ↦
      ((le_largestSecond (hdepths ▸ hp)).trans hfit).trans (Nat.le_of_lt_succ hlimit)
    rw [hdepths]
    exact hclean.toList_visit hsymbols hle
  · rw [tryFloors, bind_of_eq_ok hjoin, popFirst?_singleton]
    dsimp only
    rw [hsteps, bind_of_eq_ok (visit_eq_ok hlt), hdeepest]

/-- The search ends with the depths within the limit, at a floor of at most `2 ^ bits`. -/
theorem exists_tryFloors (hlimit : limit < 2 ^ 8) {bits k tries : Nat}
    (hbits : ∀ c ∈ counts, c ≤ 2 ^ bits) (hk : k ≤ min bits 32) (htries : bits < tries + k)
    {depths : Array Nat} (hclean : IsClean counts depths) :
    ∃ final, tryFloors counts.length (usedSymbols counts) limit tries (2 ^ k) depths = .ok final ∧
      final.toList =
        spreadDepths counts.length (depthsFromFloor (usedSymbols counts) limit k).depths := by
  induction tries generalizing k depths with
  | zero => omega
  | succ tries ih =>
    obtain ⟨hkb, hk32⟩ := Nat.le_min.1 hk
    obtain ⟨found, hfound, hspread, htry⟩ :=
      exists_attempt hcounts hne hroom hlimit hk32 hclean
    rw [htry, depthsFromFloor]
    by_cases hfit : (depthsWithFloor (usedSymbols counts) k).deepest ≤ limit
    · rw [if_pos hfit, if_pos hfit]
      exact ⟨found, rfl, hspread hfit⟩
    · -- the next floor is needed only if some count exceeds this one
      have hlen := hroom.trans (Nat.pow_le_pow_right Nat.two_pos (Nat.min_le_left limit 31))
      have hlarge : ¬ largestSecond (usedSymbols counts) ≤ 2 ^ k := fun hflat ↦
        hfit (deepest_depthsWithFloor_le hne hlen hflat)
      have hltb := lt_of_not_largestSecond_le hlarge hbits
      have hlt32 := lt_of_not_largestSecond_le hlarge fun c hc ↦ Nat.le_of_lt (hcounts c hc)
      have hpow : 2 ^ (k + 1) ≤ 2 ^ 32 := Nat.pow_le_pow_right Nat.two_pos hlt32
      rw [if_neg hfit, if_neg hfit, if_neg hlarge, bind_of_eq_ok (mul_eq_ok (by omega))]
      exact ih (k := k + 1) (Nat.le_min.2 ⟨hltb, hlt32⟩) (by omega) hfound

end

theorem isClean_replicate (counts : List Nat) :
    IsClean counts (Array.replicate counts.length 0) where
  size_eq := Array.size_replicate
  getElem?_eq _ _ := rfl

/-- Depths are found without a fault. -/
theorem limitedDepths_eq {counts : List Nat} {limit bits tries : Nat}
    (hcounts : ∀ c ∈ counts, c < 2 ^ 32) (hlimit : limit < 2 ^ 8)
    (hbits : ∀ c ∈ counts, c ≤ 2 ^ bits) (htries : bits < tries) :
    limitedDepths tries counts limit = embedExcept (EntropyCoding.limitedDepths counts limit) := by
  rw [limitedDepths, EntropyCoding.limitedDepths]
  split
  · rw [Array.toList_replicate]
    rfl
  · next hused =>
    have hmin := Nat.min_le_right limit 31
    rw [bind_of_eq_ok (shiftLeft_one (by omega)), codeCapacity]
    split
    · rfl
    · next hroom =>
      have hne := List.ne_nil_of_length_pos (l := usedSymbols counts) (by omega)
      obtain ⟨final, hok, hfinal⟩ := exists_tryFloors hcounts hne (Nat.not_lt.1 hroom) hlimit hbits
        (Nat.zero_le _) htries (isClean_replicate counts)
      rw [Nat.pow_zero] at hok
      rw [bind_of_eq_ok hok, hfinal]
      rfl

/-- The search for depths ends without a fault: no weight is too large for 64 bits, and no floor above
the first power of two that no count exceeds is needed.  Counts are refused exactly if two symbols or
more are used and there is no room for them; otherwise the depths are within the limit, and those of a
complete code if two symbols or more are used. -/
theorem limitedDepths_exact {counts : List Nat} {limit bits tries : Nat}
    (hcounts : ∀ c ∈ counts, c < 2 ^ 32) (hlimit : limit < 2 ^ 8)
    (hbits : ∀ c ∈ counts, c ≤ 2 ^ bits) (htries : bits < tries) :
    limitedDepths tries counts limit =
      embedExcept (EntropyCoding.limitedDepths counts limit) ∧
    (depthsWithin (usedSymbols counts) limit).floor ≤ 2 ^ bits ∧
    (limitedDepths tries counts limit =
        .error (.error (.alphabetTooLarge (usedSet counts).card (2 ^ min limit 31))) ↔
      2 ≤ (usedSet counts).card ∧ 2 ^ min limit 31 < (usedSet counts).card) ∧
    (¬ (2 ≤ (usedSet counts).card ∧ 2 ^ min limit 31 < (usedSet counts).card) →
      ∃ depths, limitedDepths tries counts limit = .ok depths ∧ IsLimited counts limit depths) := by
  rw [limitedDepths_eq hcounts hlimit hbits htries]
  refine ⟨rfl, ?_, ?_⟩
  · refine floor_depthsFromFloor_le (largestSecond_le fun p hp ↦ ?_) limit (Nat.zero_le bits)
    exact hbits _ (snd_mem_of_mem_usedSymbols hp).2
  · by_cases hlarge : 2 ≤ (usedSet counts).card ∧ 2 ^ min limit 31 < (usedSet counts).card
    · rw [limitedDepths_of_lt hlarge.1 hlarge.2]
      exact ⟨iff_of_true rfl hlarge, fun h ↦ absurd hlarge h⟩
    · obtain ⟨depths, hok, hlimited⟩ := exists_isLimited hlarge
      rw [hok]
      exact ⟨iff_of_false (fun h ↦ by cases h) hlarge, fun _ ↦ ⟨depths, rfl, hlimited⟩⟩

/-- Four symbols whose depths exceed the limit until all weights but one are equal. -/
theorem limitedDepths_exact_four :
    (∀ c ∈ [1, 2, 4, 0, 8], c < 2 ^ 32) ∧ 2 < 2 ^ 8 ∧ (∀ c ∈ [1, 2, 4, 0, 8], c ≤ 2 ^ 3) ∧ 3 < 4 ∧
      limitedDepths 4 [1, 2, 4, 0, 8] 2 = .ok [2, 2, 2, 0, 2] ∧
      ∃ depths, limitedDepths 4 [1, 2, 4, 0, 8] 2 = .ok depths ∧
        IsLimited [1, 2, 4, 0, 8] 2 depths := by
  have hcounts : ∀ c ∈ [1, 2, 4, 0, 8], c < 2 ^ 32 := by decide
  have hlimit : 2 < 2 ^ 8 := by decide
  have hbits : ∀ c ∈ [1, 2, 4, 0, 8], c ≤ 2 ^ 3 := by decide
  have htries : 3 < 4 := by decide
  exact ⟨hcounts, hlimit, hbits, htries, by cbv,
    (limitedDepths_exact hcounts hlimit hbits htries).2.2.2 (by decide)⟩

end Checked

end EntropyCoding
