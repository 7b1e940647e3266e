import EntropyCoding.Proofs.Prefix.Forest
import EntropyCoding.Proofs.Prefix.SymbolOrder
import Mathlib.Algebra.BigOperators.Group.List.Basic

/-!
# The lightest trees of a forest

A forest has its lightest tree at the head of one of two queues, and this is right only as long as both
queues are sorted.  The leaves are sorted once.  A joined tree is the heaviest of those joined so far,
because it has twice the weight of the lighter of its parts at least, and no tree joined before weighs
more than twice as much as what was the lightest tree then.  `Sorted` is the invariant,
`Sorted.joinLightest` its preservation.
-/

namespace EntropyCoding

namespace Forest

/-- Both queues go from light to heavy; every tree has the weight `m` at least, and every joined tree
twice that at most. -/
structure Sorted (m : Nat) (f : Forest) : Prop where
  /-- The leaves are sorted. -/
  pairwise_leaves : f.leaves.Pairwise fun a b ↦ a.weight ≤ b.weight
  /-- The joined trees are sorted. -/
  pairwise_joined : f.joined.Pairwise fun a b ↦ a.weight ≤ b.weight
  /-- No tree is too light. -/
  le_weight : ∀ t ∈ f.trees, m ≤ t.weight
  /-- No joined tree is too heavy. -/
  joined_le : ∀ t ∈ f.joined, t.weight ≤ 2 * m

theorem sorted_ofWeights (weights : List (Nat × Nat)) : (ofWeights weights).Sorted 0 where
  pairwise_leaves := pairwise_sortBy CodeTree.weight _
  pairwise_joined := List.Pairwise.nil
  le_weight _ _ := Nat.zero_le _
  joined_le := nofun

theorem sum_weight_joinLightest {f : Forest} (h : 2 ≤ f.trees.length) :
    (f.joinLightest.trees.map CodeTree.weight).sum = (f.trees.map CodeTree.weight).sum := by
  obtain ⟨a, b, rest, rest', hfirst, hsecond, hjoin⟩ := Forest.exists_joinLightest h
  have hperm : f.trees.Perm (a :: b :: rest'.trees) :=
    (perm_of_takeLightest? hfirst).trans (.cons a (perm_of_takeLightest? hsecond))
  rw [hjoin, trees_push, (hperm.map CodeTree.weight).sum_eq, List.map_append, List.sum_append,
    List.map_singleton, List.sum_singleton, CodeTree.weight_join, List.map_cons, List.map_cons,
    List.sum_cons, List.sum_cons, Nat.add_comm, Nat.add_assoc]

namespace Sorted

variable {m : Nat} {f rest : Forest} {t : CodeTree}

/-- A sorted queue whose head is not too light has no tree that is. -/
theorem le_of_head {w : Nat} {l : List CodeTree} (hl : l.Pairwise fun a b ↦ a.weight ≤ b.weight)
    (h : ∀ u ∈ l.head?, w ≤ u.weight) : ∀ u ∈ l, w ≤ u.weight := by
  cases hl with
  | nil => nofun
  | @cons a l ha =>
    have hw := h a rfl
    exact List.forall_mem_cons.2 ⟨hw, fun u hu ↦ Nat.le_trans hw (ha u hu)⟩

/-- What is taken is not heavier than what is left, which is sorted. -/
theorem takeLightest? (hf : f.Sorted m) (h : f.takeLightest? = some (t, rest)) :
    (∀ u ∈ rest.trees, t.weight ≤ u.weight) ∧ rest.Sorted m := by
  have hperm := perm_of_takeLightest? h
  obtain ⟨hleaves, hjoined, hle, hge⟩ := hf
  have hle' : ∀ u ∈ rest.trees, m ≤ u.weight := fun u hu ↦ hle u (hperm.mem_iff.2 (.tail _ hu))
  rcases takeLightest?_eq f with ⟨hnone, -⟩ | ⟨t', rest', hsome, hcase⟩
  · rw [hnone] at h
    cases h
  · rw [hsome] at h
    cases h
    rcases hcase with ⟨hl, hj, hhead⟩ | ⟨hl, hj, hhead⟩
    · have hall := le_of_head hjoined hhead
      rw [hl, List.pairwise_cons] at hleaves
      rw [hj] at hjoined hge hall
      exact ⟨List.forall_mem_append.2 ⟨hleaves.1, hall⟩, hleaves.2, hjoined, hle', hge⟩
    · have hall := le_of_head hleaves fun u hu ↦ Nat.le_of_lt (hhead u hu)
      rw [hj, List.pairwise_cons] at hjoined
      rw [hl] at hleaves hall
      rw [hj] at hge
      exact ⟨List.forall_mem_append.2 ⟨hall, hjoined.1⟩, hleaves, hjoined.2, hle',
        (List.forall_mem_cons.1 hge).2⟩

/-- The two lightest trees are joined, and what comes out is sorted. -/
theorem exists_joinLightest (hf : f.Sorted m) (h : 2 ≤ f.trees.length) :
    ∃ (a b : CodeTree) (rest : Forest), f.trees.Perm (a :: b :: rest.trees) ∧ a.weight ≤ b.weight ∧
      (∀ u ∈ rest.trees, b.weight ≤ u.weight) ∧ f.joinLightest = rest.push (a.join b) ∧
      (rest.push (a.join b)).Sorted b.weight := by
  obtain ⟨a, b, rest, rest', hfirst, hsecond, hjoin⟩ := Forest.exists_joinLightest h
  obtain ⟨ha, hrest⟩ := hf.takeLightest? hfirst
  obtain ⟨hb, hrest'⟩ := hrest.takeLightest? hsecond
  have hperm := perm_of_takeLightest? hsecond
  have hab := ha b (hperm.mem_iff.2 (.head _))
  have hma := hf.le_weight a ((perm_of_takeLightest? hfirst).mem_iff.2 (.head _))
  refine ⟨a, b, rest', (perm_of_takeLightest? hfirst).trans (.cons a hperm), hab, hb, hjoin,
    hrest'.pairwise_leaves, ?_, ?_, ?_⟩
  · rw [joined_push, List.pairwise_append]
    refine ⟨hrest'.pairwise_joined, List.pairwise_singleton _ _, fun u hu v hv ↦ ?_⟩
    rw [List.mem_singleton.1 hv, CodeTree.weight_join]
    have := hrest'.joined_le u hu
    omega
  · rw [trees_push]
    refine List.forall_mem_append.2 ⟨hb, List.forall_mem_singleton.2 ?_⟩
    rw [CodeTree.weight_join]
    exact Nat.le_add_left _ _
  · rw [joined_push]
    refine List.forall_mem_append.2 ⟨fun u hu ↦ ?_, List.forall_mem_singleton.2 ?_⟩
    · have := hrest'.joined_le u hu
      omega
    · rw [CodeTree.weight_join]
      omega

/-- Joining the two lightest trees keeps a forest sorted. -/
theorem joinLightest (hf : f.Sorted m) (h : 2 ≤ f.trees.length) :
    ∃ m', f.joinLightest.Sorted m' := by
  obtain ⟨a, b, rest, -, -, -, hjoin, hsorted⟩ := hf.exists_joinLightest h
  exact ⟨b.weight, hjoin ▸ hsorted⟩

end Sorted

end Forest

end EntropyCoding
