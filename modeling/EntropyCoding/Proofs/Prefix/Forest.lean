import EntropyCoding.Prefix.Forest

/-!
# Joining the trees of a forest

Joining keeps the symbols and leaves one tree less: `codeDepths_eq` says that the depths come from a
single tree with the given symbols, and is all that later modules need to know.  The leaves of a
tree fill the code space, `CodeTree.sum_two_pow_depths`.

If all weights are equal the lightest tree is always the one that has waited longest, so the trees
are joined level by level.  `Level` is what then holds between two joins; it bounds the depths by
the logarithm of the number of symbols, `depth_codeDepths_le`.
-/

namespace EntropyCoding

namespace CodeTree

/-! ## Trees -/

def symbols : CodeTree → List Nat
  | leaf symbol _ => [symbol]
  | node _ left right => left.symbols ++ right.symbols

/-- The number of levels below the root. -/
def height : CodeTree → Nat
  | leaf _ _ => 0
  | node _ left right => max left.height right.height + 1

@[simp] theorem symbols_join (left right : CodeTree) :
    (join left right).symbols = left.symbols ++ right.symbols := rfl

@[simp] theorem height_join (left right : CodeTree) :
    (join left right).height = max left.height right.height + 1 := rfl

theorem map_fst_depths (t : CodeTree) (d : Nat) : (t.depths d).map Prod.fst = t.symbols := by
  induction t generalizing d with
  | leaf symbol weight => rfl
  | node weight left right ihl ihr =>
    rw [depths, List.map_append, ihl, ihr, symbols]

theorem depths_ne_nil (t : CodeTree) (d : Nat) : t.depths d ≠ [] := by
  induction t generalizing d with
  | leaf symbol weight => nofun
  | node weight left right ihl _ => exact List.append_ne_nil_of_left_ne_nil (ihl (d + 1)) _

/-- Depths lie between that of the root and that of the lowest level. -/
theorem depth_mem {t : CodeTree} {d : Nat} {p : Nat × Nat} (h : p ∈ t.depths d) :
    d ≤ p.2 ∧ p.2 ≤ d + t.height := by
  induction t generalizing d with
  | leaf symbol weight =>
    rw [depths, List.mem_singleton] at h
    subst h
    exact ⟨Nat.le_refl d, Nat.le_refl d⟩
  | node weight left right ihl ihr =>
    rw [height]
    rcases List.mem_append.1 h with h | h
    · have := ihl h
      omega
    · have := ihr h
      omega

/-- A tree of two symbols or more has no symbol at its root. -/
theorem lt_depth_of_mem {t : CodeTree} (ht : 2 ≤ t.symbols.length) {d : Nat} {p : Nat × Nat}
    (h : p ∈ t.depths d) : d < p.2 := by
  cases t with
  | leaf symbol weight => exact absurd ht (by decide : ¬ 2 ≤ 1)
  | node weight left right =>
    rcases List.mem_append.1 h with h | h
    · exact (depth_mem h).1
    · exact (depth_mem h).1

/-- The leaves of a tree fill the part of the code space that belongs to its root. -/
theorem sum_two_pow_depths {t : CodeTree} {d limit : Nat} (h : ∀ p ∈ t.depths d, p.2 ≤ limit) :
    ((t.depths d).map fun p ↦ 2 ^ (limit - p.2)).sum = 2 ^ (limit - d) := by
  induction t generalizing d with
  | leaf symbol weight => exact Nat.add_zero _
  | node weight left right ihl ihr =>
    obtain ⟨hl, hr⟩ := List.forall_mem_append.1 h
    have hd : d + 1 ≤ limit := by
      obtain ⟨p, hp⟩ := List.exists_mem_of_ne_nil _ (depths_ne_nil left (d + 1))
      exact Nat.le_trans (depth_mem hp).1 (hl p hp)
    rw [depths, List.map_append, List.sum_append, ihl hl, ihr hr, ← Nat.two_mul, ← Nat.pow_succ']
    congr 1
    omega

end CodeTree

namespace Forest

/-! ## Taking trees -/

@[simp] theorem leaves_settle (f : Forest) : f.settle.leaves = f.leaves := by
  unfold settle
  split <;> rfl

/-- A settled forest has a joined tree in front if it has any. -/
theorem joined_eq_nil_of_front {f : Forest} (h : f.settle.front = []) : f.joined = [] := by
  unfold settle at h
  split at h
  · next hf =>
    rw [joined, List.isEmpty_iff.1 hf, List.nil_append]
    exact h
  · next hf => exact absurd (List.isEmpty_iff.2 h) hf

/-- What is taken is the first leaf or the first joined tree, whichever is lighter. -/
theorem takeLightest?_eq (f : Forest) :
    (f.takeLightest? = none ∧ f.trees = []) ∨
      ∃ t rest, f.takeLightest? = some (t, rest) ∧
        ((f.leaves = t :: rest.leaves ∧ f.joined = rest.joined ∧
            ∀ u ∈ f.joined.head?, t.weight ≤ u.weight) ∨
          (f.leaves = rest.leaves ∧ f.joined = t :: rest.joined ∧
            ∀ u ∈ f.leaves.head?, t.weight < u.weight)) := by
  have hleaves := leaves_settle f
  have hjoined := joined_settle f
  have hnone := joined_eq_nil_of_front (f := f)
  rw [takeLightest?, trees]
  generalize f.settle = g at *
  obtain ⟨leaves, front, back⟩ := g
  rw [← hleaves, ← hjoined]
  rw [← hjoined] at hnone
  dsimp only [joined] at hnone ⊢
  cases leaves with
  | nil =>
    cases front with
    | nil => exact .inl ⟨rfl, hnone rfl⟩
    | cons tree front => exact .inr ⟨tree, _, rfl, .inr ⟨rfl, rfl, nofun⟩⟩
  | cons leaf leaves =>
    cases front with
    | nil =>
      refine .inr ⟨leaf, _, rfl, .inl ⟨rfl, rfl, ?_⟩⟩
      rw [hnone rfl]
      nofun
    | cons tree front =>
      dsimp only
      split
      · next hle =>
        refine .inr ⟨leaf, _, rfl, .inl ⟨rfl, rfl, ?_⟩⟩
        rintro _ ⟨⟩
        exact hle
      · next hlt =>
        refine .inr ⟨tree, _, rfl, .inr ⟨rfl, rfl, ?_⟩⟩
        rintro _ ⟨⟩
        exact Nat.not_le.1 hlt

/-- Nothing is taken from an empty forest only. -/
theorem trees_eq_nil_of_takeLightest? {f : Forest} (h : f.takeLightest? = none) : f.trees = [] := by
  rcases takeLightest?_eq f with ⟨-, hnil⟩ | ⟨t, rest, hsome, -⟩
  · exact hnil
  · rw [hsome] at h
    cases h

/-- What is taken and what is left are the trees of the forest. -/
theorem perm_of_takeLightest? {f rest : Forest} {t : CodeTree}
    (h : f.takeLightest? = some (t, rest)) : f.trees.Perm (t :: rest.trees) := by
  rcases takeLightest?_eq f with ⟨hnone, -⟩ | ⟨t', rest', hsome, hcase⟩
  · rw [hnone] at h
    cases h
  · rw [hsome] at h
    cases h
    rcases hcase with ⟨hl, hj, -⟩ | ⟨hl, hj, -⟩
    · rw [trees, hl, hj]
      exact .refl _
    · rw [trees, hl, hj]
      exact List.perm_middle

/-! ## Joining trees -/

@[simp] theorem trees_push (f : Forest) (t : CodeTree) : (f.push t).trees = f.trees ++ [t] := by
  rw [trees, joined_push, trees, List.append_assoc]
  rfl

/-- Two trees are taken from a forest of two or more, and joined. -/
theorem exists_joinLightest {f : Forest} (h : 2 ≤ f.trees.length) :
    ∃ a b rest rest', f.takeLightest? = some (a, rest) ∧ rest.takeLightest? = some (b, rest') ∧
      f.joinLightest = rest'.push (a.join b) := by
  cases hfirst : f.takeLightest? with
  | none =>
    rw [trees_eq_nil_of_takeLightest? hfirst] at h
    cases h
  | some first =>
    obtain ⟨a, rest⟩ := first
    have hlen := (perm_of_takeLightest? hfirst).length_eq
    cases hsecond : rest.takeLightest? with
    | none =>
      rw [List.length_cons, trees_eq_nil_of_takeLightest? hsecond] at hlen
      exact absurd h (by rw [hlen]; decide)
    | some second =>
      obtain ⟨b, rest'⟩ := second
      refine ⟨a, b, rest, rest', rfl, hsecond, ?_⟩
      rw [joinLightest, hfirst]
      dsimp only
      rw [hsecond]

def symbols (f : Forest) : List Nat :=
  f.trees.flatMap CodeTree.symbols

/-- Joining leaves one tree less, and the same symbols. -/
theorem joinLightest_spec {f : Forest} (h : 2 ≤ f.trees.length) :
    f.joinLightest.trees.length + 1 = f.trees.length ∧ f.joinLightest.symbols.Perm f.symbols := by
  obtain ⟨a, b, rest, rest', hfirst, hsecond, hjoin⟩ := exists_joinLightest h
  have hperm : f.trees.Perm (a :: b :: rest'.trees) :=
    (perm_of_takeLightest? hfirst).trans (.cons a (perm_of_takeLightest? hsecond))
  rw [hjoin, symbols, trees_push]
  constructor
  · rw [hperm.length_eq, List.length_append, List.length_cons, List.length_cons]
    rfl
  · refine .trans ?_ (hperm.symm.flatMap_right _)
    have hlast : (rest'.trees ++ [a.join b]).Perm (a.join b :: rest'.trees) :=
      List.perm_append_singleton _ _
    refine (hlast.flatMap_right _).trans (.of_eq ?_)
    rw [List.flatMap_cons, CodeTree.symbols_join, List.append_assoc]
    rfl

/-- An invariant of joining holds after any number of joins that leaves one tree at least. -/
theorem joinTimes_induction {P : Forest → Prop}
    (step : ∀ f, P f → 2 ≤ f.trees.length → P f.joinLightest) {n : Nat} {f : Forest}
    (hn : n < f.trees.length) (hf : P f) :
    P (f.joinTimes n) ∧ (f.joinTimes n).trees.length + n = f.trees.length ∧
      (f.joinTimes n).symbols.Perm f.symbols := by
  induction n generalizing f with
  | zero => exact ⟨hf, rfl, .refl _⟩
  | succ n ih =>
    obtain ⟨hlen, hperm⟩ := joinLightest_spec (f := f) (by omega)
    obtain ⟨hp, hlen', hperm'⟩ := ih (f := f.joinLightest) (by omega) (step f hf (by omega))
    exact ⟨hp, by rw [joinTimes]; omega, hperm'.trans hperm⟩

theorem trees_ofWeights (weights : List (Nat × Nat)) :
    (ofWeights weights).trees.Perm
      (weights.map fun (symbol, weight) ↦ CodeTree.leaf symbol weight) := by
  have h : (ofWeights weights).trees = (ofWeights weights).leaves := List.append_nil _
  rw [h]
  exact List.mergeSort_perm _ _

/-! ## Equal weights -/

/-- All leaves have the weight `w`, and no joined tree has less. -/
structure Flat (w : Nat) (f : Forest) : Prop where
  /-- All leaves have the same weight. -/
  leaf_weight : ∀ t ∈ f.leaves, t.weight = w
  /-- No joined tree has less. -/
  le_weight : ∀ t ∈ f.joined, w ≤ t.weight

/-- If all weights are equal the first tree of all is taken. -/
theorem Flat.takeLightest? {w : Nat} {f rest : Forest} {t : CodeTree} (hf : f.Flat w)
    (h : f.takeLightest? = some (t, rest)) :
    f.trees = t :: rest.trees ∧ w ≤ t.weight ∧ rest.Flat w := by
  obtain ⟨hleaf, hjoined⟩ := hf
  rcases takeLightest?_eq f with ⟨hnone, -⟩ | ⟨t', rest', hsome, hcase⟩
  · rw [hnone] at h
    cases h
  · rw [hsome] at h
    cases h
    rcases hcase with ⟨hl, hj, -⟩ | ⟨hl, hj, hlt⟩
    · rw [hl] at hleaf
      rw [hj] at hjoined
      obtain ⟨ht, hrest⟩ := List.forall_mem_cons.1 hleaf
      refine ⟨?_, Nat.le_of_eq ht.symm, hrest, hjoined⟩
      rw [trees, hl, hj]
      rfl
    · rw [hj] at hjoined
      obtain ⟨ht, hrest⟩ := List.forall_mem_cons.1 hjoined
      have hnil : f.leaves = [] := by
        apply List.eq_nil_iff_forall_not_mem.2
        intro u hu
        obtain ⟨leaf, hhead⟩ : ∃ leaf, f.leaves.head? = some leaf :=
          ⟨_, List.head?_eq_some_head (List.ne_nil_of_mem hu)⟩
        have := hlt leaf hhead
        have := hleaf leaf (List.mem_of_head? hhead)
        omega
      refine ⟨?_, ht, hl ▸ hleaf, hrest⟩
      rw [trees, hj, hnil, trees, ← hl, hnil]
      rfl

/-- What waits to be joined while all weights are equal: trees of at most `height` levels, and
behind them trees of one level more, all of which together become a tree of at most `limit`
levels. -/
structure Level (limit height : Nat) (now next : List CodeTree) : Prop where
  /-- The trees of this level come first. -/
  height_now : ∀ t ∈ now, t.height ≤ height
  /-- Those of the next level follow. -/
  height_next : ∀ t ∈ next, t.height ≤ height + 1
  /-- The limit has not been passed. -/
  height_le : height ≤ limit
  /-- There is room for all of them. -/
  length_le : now.length + 2 * next.length ≤ 2 ^ (limit - height)

theorem two_pow_sub_succ {limit height : Nat} (h : height < limit) :
    2 ^ (limit - height) = 2 * 2 ^ (limit - (height + 1)) := by
  rw [← Nat.pow_succ']
  congr 1
  omega

theorem lt_of_two_le_two_pow {limit height : Nat} (h : 2 ≤ 2 ^ (limit - height)) :
    height < limit := by
  refine Nat.lt_of_sub_pos (Nat.pos_of_ne_zero fun h0 ↦ ?_)
  rw [h0] at h
  exact absurd h (by decide)

/-- Joining the first two trees stays on the level or begins the next one. -/
theorem Level.join {limit height : Nat} {now next rest : List CodeTree} {a b : CodeTree}
    (h : Level limit height now next) (heq : now ++ next = a :: b :: rest) :
    ∃ height' now' next', Level limit height' now' next' ∧
      rest ++ [a.join b] = now' ++ next' := by
  obtain ⟨hnow, hnext, hle, hroom⟩ := h
  match now with
  | a' :: b' :: now =>
    obtain ⟨rfl, rfl, rfl⟩ : a' = a ∧ b' = b ∧ now ++ next = rest := by simpa using heq
    obtain ⟨ha, hnow⟩ := List.forall_mem_cons.1 hnow
    obtain ⟨hb, hnow⟩ := List.forall_mem_cons.1 hnow
    refine ⟨height, now, next ++ [a'.join b'], ⟨hnow, ?_, hle, ?_⟩, List.append_assoc _ _ _⟩
    · refine List.forall_mem_append.2 ⟨hnext, List.forall_mem_singleton.2 ?_⟩
      rw [CodeTree.height_join]
      omega
    · simp only [List.length_cons, List.length_append, List.length_nil] at hroom ⊢
      omega
  | [a'] =>
    obtain ⟨rfl, rfl⟩ : a' = a ∧ next = b :: rest := by simpa using heq
    have ha := List.forall_mem_singleton.1 hnow
    obtain ⟨hb, hnext⟩ := List.forall_mem_cons.1 hnext
    simp only [List.length_cons, List.length_nil] at hroom
    have hlt : height < limit := lt_of_two_le_two_pow (by omega)
    rw [two_pow_sub_succ hlt] at hroom
    refine ⟨height + 1, rest, [a'.join b], ⟨hnext, List.forall_mem_singleton.2 ?_, hlt, ?_⟩, rfl⟩
    · rw [CodeTree.height_join]
      omega
    · simp only [List.length_cons, List.length_nil]
      omega
  | [] =>
    obtain rfl : next = a :: b :: rest := heq
    obtain ⟨ha, hnext⟩ := List.forall_mem_cons.1 hnext
    obtain ⟨hb, hnext⟩ := List.forall_mem_cons.1 hnext
    simp only [List.length_cons, List.length_nil] at hroom
    have hlt : height < limit := lt_of_two_le_two_pow (by omega)
    rw [two_pow_sub_succ hlt] at hroom
    refine ⟨height + 1, rest, [a.join b], ⟨hnext, List.forall_mem_singleton.2 ?_, hlt, ?_⟩, rfl⟩
    · rw [CodeTree.height_join]
      omega
    · simp only [List.length_cons, List.length_nil]
      omega

/-- The last tree has at most as many levels as the limit. -/
theorem Level.height_le_of_singleton {limit height : Nat} {now next : List CodeTree} {t : CodeTree}
    (h : Level limit height now next) (heq : now ++ next = [t]) : t.height ≤ limit := by
  obtain ⟨hnow, hnext, hle, hroom⟩ := h
  match now with
  | t' :: now =>
    obtain ⟨rfl, -⟩ : t' = t ∧ now ++ next = [] := by simpa using heq
    exact Nat.le_trans (hnow t' List.mem_cons_self) hle
  | [] =>
    obtain rfl : next = [t] := heq
    have hlt : height < limit := lt_of_two_le_two_pow hroom
    exact Nat.le_trans (hnext t List.mem_cons_self) hlt

/-- All weights are equal, and what waits to be joined is on one level. -/
def OnLevel (limit w : Nat) (f : Forest) : Prop :=
  f.Flat w ∧ ∃ height now next, Level limit height now next ∧ f.trees = now ++ next

/-- Joining the two lightest trees of equal weights keeps to the levels. -/
theorem OnLevel.joinLightest {limit w : Nat} {f : Forest} (hf : f.OnLevel limit w)
    (h : 2 ≤ f.trees.length) : f.joinLightest.OnLevel limit w := by
  obtain ⟨hflat, height, now, next, hlevel, htrees⟩ := hf
  obtain ⟨a, b, rest, rest', hfirst, hsecond, hjoin⟩ := exists_joinLightest h
  obtain ⟨ha, hwa, hflat₁⟩ := hflat.takeLightest? hfirst
  obtain ⟨hb, -, hflat₂⟩ := hflat₁.takeLightest? hsecond
  obtain ⟨height', now', next', hlevel', heq⟩ :=
    hlevel.join (show now ++ next = a :: b :: rest'.trees by rw [← htrees, ha, hb])
  rw [hjoin]
  refine ⟨⟨hflat₂.leaf_weight, ?_⟩, height', now', next', hlevel', by rw [trees_push, heq]⟩
  rw [joined_push]
  refine List.forall_mem_append.2 ⟨hflat₂.le_weight, List.forall_mem_singleton.2 ?_⟩
  rw [CodeTree.weight_join]
  omega

/-- The leaves of equal weight are on one level. -/
theorem onLevel_ofWeights {limit w : Nat} {weights : List (Nat × Nat)}
    (hw : ∀ p ∈ weights, p.2 = w) (hlen : weights.length ≤ 2 ^ limit) :
    (ofWeights weights).OnLevel limit w := by
  have hperm := trees_ofWeights weights
  have htrees : (ofWeights weights).trees = (ofWeights weights).leaves := List.append_nil _
  have hleaf : ∀ t ∈ (ofWeights weights).trees, t.weight = w ∧ t.height ≤ 0 := by
    intro t ht
    obtain ⟨p, hp, rfl⟩ := List.mem_map.1 (hperm.mem_iff.1 ht)
    exact ⟨hw p hp, Nat.le_refl 0⟩
  refine ⟨⟨fun t ht ↦ (hleaf t (htrees ▸ ht)).1, nofun⟩, 0, (ofWeights weights).trees, [], ?_, ?_⟩
  · refine ⟨fun t ht ↦ (hleaf t ht).2, nofun, Nat.zero_le _, ?_⟩
    rw [hperm.length_eq, List.length_map]
    exact hlen
  · rw [List.append_nil]

end Forest

/-! ## The depths of a code -/

section

variable {weights : List (Nat × Nat)} (hne : weights ≠ [])
include hne

/-- One tree is left in the end, and it has the symbols given; what holds of the leaves and is kept
by joining holds of it. -/
theorem exists_tree_of_codeDepths {P : Forest → Prop}
    (step : ∀ f, P f → 2 ≤ f.trees.length → P f.joinLightest)
    (start : P (Forest.ofWeights weights)) :
    ∃ t, P ((Forest.ofWeights weights).joinTimes (weights.length - 1)) ∧
      ((Forest.ofWeights weights).joinTimes (weights.length - 1)).trees = [t] ∧
      codeDepths weights = t.depths 0 ∧ t.symbols.Perm (weights.map Prod.fst) := by
  have hpos := List.length_pos_iff.2 hne
  have hperm := Forest.trees_ofWeights weights
  have hlen := hperm.length_eq
  rw [List.length_map] at hlen
  obtain ⟨hp, hone, hsymbols⟩ := Forest.joinTimes_induction step
    (n := weights.length - 1) (f := .ofWeights weights) (by omega) start
  obtain ⟨t, ht⟩ := List.length_eq_one_iff.1
    (show ((Forest.ofWeights weights).joinTimes (weights.length - 1)).trees.length = 1 by omega)
  refine ⟨t, hp, ht, ?_, ?_⟩
  · rw [codeDepths, Forest.depths, ht, List.flatMap_singleton]
  · have hleaves : (Forest.ofWeights weights).symbols.Perm (weights.map Prod.fst) := by
      refine (hperm.flatMap_right _).trans (.of_eq ?_)
      rw [List.flatMap_map]
      exact List.map_eq_flatMap.symm
    rw [Forest.symbols, ht, List.flatMap_singleton] at hsymbols
    exact hsymbols.trans hleaves

/-- The depths are those of a tree that has the symbols given. -/
theorem codeDepths_eq : ∃ t : CodeTree, codeDepths weights = t.depths 0 ∧
    t.symbols.Perm (weights.map Prod.fst) := by
  obtain ⟨t, -, -, hdepths, hsymbols⟩ := exists_tree_of_codeDepths hne
    (P := fun _ ↦ True) (fun _ _ _ ↦ trivial) trivial
  exact ⟨t, hdepths, hsymbols⟩

/-- Symbols of equal weight have depths of at most the logarithm of their number. -/
theorem depth_codeDepths_le {w limit : Nat} (hw : ∀ p ∈ weights, p.2 = w)
    (hlen : weights.length ≤ 2 ^ limit) {p : Nat × Nat} (hp : p ∈ codeDepths weights) :
    p.2 ≤ limit := by
  obtain ⟨t, ⟨-, height, now, next, hlevel, heq⟩, ht, hdepths, -⟩ :=
    exists_tree_of_codeDepths hne (P := Forest.OnLevel limit w)
      (fun _ hf h ↦ hf.joinLightest h) (Forest.onLevel_ofWeights hw hlen)
  have hheight := hlevel.height_le_of_singleton (heq.symm.trans ht)
  rw [hdepths] at hp
  have := (CodeTree.depth_mem hp).2
  omega

end

end EntropyCoding
