import EntropyCoding.Proofs.Checked.Arithmetic
import EntropyCoding.Proofs.Prefix.Lightest
import Mathlib.Algebra.Order.BigOperators.Group.List
import Mathlib.Algebra.Order.Group.Nat

/-!
# Joining trees with a priority queue

The trees of a forest can wait in one priority queue instead of two sorted ones.  Each has a number,
leaves the number of their symbol and joined trees higher ones in the order in which they were joined,
and of the trees of least weight the one with the least number comes first, `Ticket.Before`.

Two sorted queues are enough because joined trees are joined in order of their weights, `Forest.Sorted`.
So the priority queue gives the trees in the same order, `Mirrors.popFirst?`, and joins the same trees,
`Mirrors.exists_joinAll`.  Weights have 64 bits in the priority queue; they fit if the sum of all does.
-/

namespace EntropyCoding

namespace Checked

/-! ## The queue -/

/-- A tree that waits in the queue. -/
structure Ticket where
  /-- Decides between trees of equal weight. -/
  number : Nat
  /-- The tree. -/
  tree : CodeTree
  deriving DecidableEq, Repr

/-- The lighter tree comes first, and of trees of equal weight the one with the smaller number. -/
def Ticket.Before (a b : Ticket) : Prop :=
  a.tree.weight < b.tree.weight ∨ a.tree.weight = b.tree.weight ∧ a.number < b.number

/-- Weights and numbers can be compared. -/
instance (a b : Ticket) : Decidable (a.Before b) :=
  inferInstanceAs (Decidable (_ ∨ _))

/-- What comes first in a queue, and the others. -/
def popFirst? : List Ticket → Option (Ticket × List Ticket)
  | [] => none
  | ticket :: queue =>
    match popFirst? queue with
    | none => some (ticket, [])
    | some (first, others) =>
      if ticket.Before first then some (ticket, queue) else some (first, ticket :: others)

@[simp] theorem popFirst?_singleton (ticket : Ticket) : popFirst? [ticket] = some (ticket, []) := rfl

/-- Joins the first two trees until one is left.  The tree joined next gets `number`. -/
def joinAll : Nat → Nat → List Ticket → Except Stop (List Ticket)
  | 0, _, _ => .error (.fault .endless)
  | rounds + 1, number, queue =>
    if 1 < queue.length then
      match popFirst? queue with
      | none => .ok queue
      | some (left, queue) =>
        match popFirst? queue with
        | none => .ok queue
        | some (right, queue) => do
          let weight ← add 64 left.tree.weight right.tree.weight
          joinAll rounds (number + 1) (⟨number, .node weight left.tree right.tree⟩ :: queue)
    else .ok queue

def leafQueue (weights : List (Nat × Nat)) : List Ticket :=
  weights.map fun (symbol, weight) ↦ ⟨symbol, .leaf symbol weight⟩

/-! ## What comes first -/

section Pop

variable {a b c : Ticket} {queue rest : List Ticket}

theorem Ticket.Before.of_le (hw : a.tree.weight ≤ b.tree.weight) (hn : a.number < b.number) :
    a.Before b := by
  unfold Before
  omega

theorem Ticket.Before.trans (hab : a.Before b) (hbc : b.Before c) : a.Before c := by
  unfold Before at *
  omega

theorem Ticket.Before.asymm (hab : a.Before b) : ¬ b.Before a := by
  unfold Before at *
  omega

/-- Nothing is left in a queue from which nothing can be taken. -/
theorem eq_nil_of_popFirst? (h : popFirst? queue = none) : queue = [] := by
  cases queue with
  | nil => rfl
  | cons ticket queue =>
    rw [popFirst?] at h
    split at h
    · cases h
    · split at h <;> cases h

/-- Nothing comes before what is taken. -/
theorem popFirst?_spec (h : popFirst? queue = some (a, rest)) :
    queue.Perm (a :: rest) ∧ ∀ b ∈ rest, ¬ b.Before a := by
  induction queue generalizing a rest with
  | nil => cases h
  | cons ticket queue ih =>
    rw [popFirst?] at h
    split at h
    · next hnone =>
      cases h
      rw [eq_nil_of_popFirst? hnone]
      exact ⟨.refl _, nofun⟩
    · next first others hfirst =>
      obtain ⟨hperm, hothers⟩ := ih hfirst
      split at h
      · next hbefore =>
        cases h
        refine ⟨.refl _, fun b hb ↦ ?_⟩
        rcases List.mem_cons.1 (hperm.mem_iff.1 hb) with rfl | hb
        · exact hbefore.asymm
        · exact fun hba ↦ hothers b hb (hba.trans hbefore)
      · next hnot =>
        cases h
        exact ⟨(hperm.cons ticket).trans (List.Perm.swap _ _ _),
          List.forall_mem_cons.2 ⟨hnot, hothers⟩⟩

/-- What comes before all others is taken. -/
theorem popFirst?_of_before (hperm : queue.Perm (a :: rest)) (hbefore : ∀ b ∈ rest, a.Before b) :
    ∃ others, popFirst? queue = some (a, others) ∧ others.Perm rest := by
  cases h : popFirst? queue with
  | none =>
    rw [eq_nil_of_popFirst? h] at hperm
    cases hperm.nil_eq
  | some p =>
    obtain ⟨first, others⟩ := p
    obtain ⟨hqueue, hothers⟩ := popFirst?_spec h
    have hboth : (first :: others).Perm (a :: rest) := hqueue.symm.trans hperm
    have heq : first = a := by
      apply Decidable.byContradiction
      intro hne
      have ha : a ∈ others := List.mem_of_ne_of_mem (Ne.symm hne) (hboth.mem_iff.2 (.head _))
      have hfirst : first ∈ rest := List.mem_of_ne_of_mem hne (hboth.mem_iff.1 (.head _))
      exact hothers a ha (hbefore first hfirst)
    subst heq
    exact ⟨others, rfl, hboth.cons_inv⟩

end Pop

/-! ## The queue and the forest -/

/-- The two queues of a forest, with tickets: symbols have numbers below `n`, joined trees have those
from `n` up to `next`, in order. -/
structure Lines (n next : Nat) (f : Forest) (leaves joined : List Ticket) : Prop where
  /-- The leaves are those of the forest. -/
  leaves_eq : f.leaves = leaves.map Ticket.tree
  /-- The joined trees too. -/
  joined_eq : f.joined = joined.map Ticket.tree
  /-- The leaves are in the order in which they come. -/
  pairwise_leaves : leaves.Pairwise Ticket.Before
  /-- The joined trees are in the order in which they were joined. -/
  pairwise_joined : joined.Pairwise fun a b ↦ a.number < b.number
  /-- Leaves have small numbers. -/
  leaf_number : ∀ ticket ∈ leaves, ticket.number < n
  /-- Joined trees have larger ones. -/
  joined_number : ∀ ticket ∈ joined, n ≤ ticket.number ∧ ticket.number < next

/-- A priority queue has the trees of a forest. -/
def Mirrors (n next : Nat) (queue : List Ticket) (f : Forest) : Prop :=
  ∃ leaves joined, Lines n next f leaves joined ∧ queue.Perm (leaves ++ joined)

namespace Mirrors

variable {n next : Nat} {queue : List Ticket} {f : Forest} (h : Mirrors n next queue f)
include h

theorem length_eq : queue.length = f.trees.length := by
  obtain ⟨leaves, joined, hlines, hperm⟩ := h
  rw [hperm.length_eq, Forest.trees, hlines.leaves_eq, hlines.joined_eq, ← List.map_append,
    List.length_map]

/-- The first tree of the queue is the lightest tree of the forest. -/
theorem popFirst? {m : Nat} (hf : f.Sorted m) {t : CodeTree} {rest : Forest}
    (htake : f.takeLightest? = some (t, rest)) :
    ∃ ticket queue', Checked.popFirst? queue = some (ticket, queue') ∧ ticket.tree = t ∧
      Mirrors n next queue' rest := by
  obtain ⟨leaves, joined, ⟨hleaves, hjoined, hpl, hpj, hnl, hnj⟩, hperm⟩ := h
  have hle := (hf.takeLightest? htake).1
  rcases Forest.takeLightest?_eq f with ⟨hnone, -⟩ | ⟨t', rest', hsome, hcase⟩
  · rw [hnone] at htake
    cases htake
  · rw [hsome] at htake
    cases htake
    rcases hcase with ⟨hl, hj, -⟩ | ⟨hl, hj, hlt⟩
    · obtain ⟨first, leaves, rfl, rfl, hrest⟩ := List.map_eq_cons_iff.1 (hleaves.symm.trans hl)
      rw [List.pairwise_cons] at hpl
      obtain ⟨hfirst, hnl⟩ := List.forall_mem_cons.1 hnl
      have hbefore : ∀ b ∈ leaves ++ joined, first.Before b := by
        refine List.forall_mem_append.2 ⟨hpl.1, fun b hb ↦ ?_⟩
        have hmem : b.tree ∈ rest.trees :=
          List.mem_append_right _ (hj ▸ hjoined ▸ List.mem_map_of_mem hb)
        exact .of_le (hle _ hmem) (Nat.lt_of_lt_of_le hfirst (hnj b hb).1)
      obtain ⟨others, hpop, hothers⟩ := popFirst?_of_before hperm hbefore
      exact ⟨first, others, hpop, rfl, leaves, joined,
        ⟨hrest.symm, hj.symm.trans hjoined, hpl.2, hpj, hnl, hnj⟩, hothers⟩
    · obtain ⟨first, joined, rfl, rfl, hrest⟩ := List.map_eq_cons_iff.1 (hjoined.symm.trans hj)
      rw [List.pairwise_cons] at hpj
      have hnj := (List.forall_mem_cons.1 hnj).2
      have hheavier := Forest.Sorted.le_of_head hf.pairwise_leaves hlt
      have hbefore : ∀ b ∈ leaves ++ joined, first.Before b := by
        refine List.forall_mem_append.2 ⟨fun b hb ↦ ?_, fun b hb ↦ ?_⟩
        · exact .inl (hheavier b.tree (hleaves ▸ List.mem_map_of_mem hb))
        · have hmem : b.tree ∈ rest.trees :=
            List.mem_append_right _ (hrest ▸ List.mem_map_of_mem hb)
          exact .of_le (hle _ hmem) (hpj.1 b hb)
      obtain ⟨others, hpop, hothers⟩ :=
        popFirst?_of_before (hperm.trans List.perm_middle) hbefore
      exact ⟨first, others, hpop, rfl, leaves, joined,
        ⟨hl.symm.trans hleaves, hrest.symm, hpl, hpj.2, hnl, hnj⟩, hothers⟩

/-- A tree joined is put at the end. -/
theorem push (hn : n ≤ next) (t : CodeTree) :
    Mirrors n (next + 1) (⟨next, t⟩ :: queue) (f.push t) := by
  obtain ⟨leaves, joined, ⟨hleaves, hjoined, hpl, hpj, hnl, hnj⟩, hperm⟩ := h
  refine ⟨leaves, joined ++ [⟨next, t⟩], ⟨hleaves, ?_, hpl, ?_, hnl, ?_⟩, ?_⟩
  · rw [Forest.joined_push, hjoined, List.map_append]
    rfl
  · refine List.pairwise_append.2 ⟨hpj, List.pairwise_singleton _ _, fun a ha b hb ↦ ?_⟩
    rw [List.mem_singleton.1 hb]
    exact (hnj a ha).2
  · refine List.forall_mem_append.2 ⟨fun a ha ↦ ?_, List.forall_mem_singleton.2 ?_⟩
    · exact ⟨(hnj a ha).1, Nat.lt_succ_of_lt (hnj a ha).2⟩
    · exact ⟨hn, Nat.lt_succ_self next⟩
  · rw [← List.append_assoc]
    exact (hperm.cons _).trans (List.perm_append_singleton _ _).symm

/-- The same trees are joined, as long as all weights together have 64 bits. -/
theorem exists_joinAll {m count rounds : Nat} (hf : f.Sorted m) (hn : n ≤ next)
    (hcount : f.trees.length = count + 1) (hrounds : count < rounds)
    (hweight : (f.trees.map CodeTree.weight).sum < 2 ^ 64) :
    ∃ queue' next', joinAll rounds next queue = .ok queue' ∧
      Mirrors n next' queue' (f.joinTimes count) := by
  obtain ⟨rounds, rfl⟩ := Nat.exists_eq_add_one_of_ne_zero (Nat.ne_zero_of_lt hrounds)
  have hlength := h.length_eq
  induction count generalizing queue f next m rounds with
  | zero =>
    rw [joinAll, if_neg (by omega)]
    exact ⟨queue, next, rfl, h⟩
  | succ count ih =>
    obtain ⟨a, b, rest, rest', hfirst, hsecond, hjoin⟩ :=
      Forest.exists_joinLightest (f := f) (by omega)
    obtain ⟨left, queue₁, hleft, rfl, h₁⟩ := h.popFirst? hf hfirst
    obtain ⟨right, queue₂, hright, rfl, h₂⟩ := h₁.popFirst? (hf.takeLightest? hfirst).2 hsecond
    obtain ⟨m', hsorted⟩ := hf.joinLightest (by omega)
    have hlen := (Forest.joinLightest_spec (f := f) (by omega)).1
    rw [← Forest.sum_weight_joinLightest (by omega)] at hweight
    rw [hjoin] at hsorted hlen hweight
    have hfits : (left.tree.join right.tree).weight < 2 ^ 64 := by
      refine Nat.lt_of_le_of_lt (List.le_sum_of_mem (List.mem_map_of_mem ?_)) hweight
      rw [Forest.trees_push]
      exact List.mem_append_right _ (List.mem_singleton_self _)
    have hpush := h₂.push hn (left.tree.join right.tree)
    obtain ⟨rounds, rfl⟩ := Nat.exists_eq_add_one_of_ne_zero (n := rounds) (by omega)
    obtain ⟨queue', next', hok, hmirrors⟩ := ih hpush hsorted (Nat.le_succ_of_le hn) (by omega)
      hweight rounds (by omega) hpush.length_eq
    rw [joinAll, if_pos (by omega), hleft, Forest.joinTimes, hjoin]
    dsimp only
    rw [hright]
    dsimp only
    rw [bind_of_eq_ok (add_eq_ok hfits)]
    exact ⟨queue', next', hok, hmirrors⟩

end Mirrors

/-- The leaves of ascending symbols mirror the forest of these leaves. -/
theorem mirrors_leafQueue {n : Nat} {weights : List (Nat × Nat)}
    (hsymbols : weights.Pairwise fun p q ↦ p.1 < q.1) (hn : ∀ p ∈ weights, p.1 < n) :
    Mirrors n n (leafQueue weights) (.ofWeights weights) := by
  have hperm := sortBy_perm (fun ticket : Ticket ↦ ticket.tree.weight) (leafQueue weights)
  have hnumbers : (leafQueue weights).Pairwise fun a b ↦ a.number < b.number :=
    List.pairwise_map.2 hsymbols
  refine ⟨sortBy (fun ticket : Ticket ↦ ticket.tree.weight) (leafQueue weights), [],
    ⟨?_, rfl, ?_, List.Pairwise.nil, ?_, nofun⟩, ?_⟩
  · have hsort := List.map_mergeSort (f := Ticket.tree) (l := leafQueue weights)
      (r := fun a b ↦ a.tree.weight ≤ b.tree.weight) (s := fun a b ↦ a.weight ≤ b.weight)
      fun _ _ _ _ ↦ rfl
    rw [sortBy, hsort, leafQueue, List.map_map]
    rfl
  · -- tickets of equal weight are still in the order of their numbers
    apply List.pairwise_iff_forall_sublist.2
    intro a b hab
    have hle : a.tree.weight ≤ b.tree.weight :=
      List.rel_of_pairwise_cons ((pairwise_sortBy _ _).sublist hab) List.mem_cons_self
    rcases Nat.lt_or_eq_of_le hle with hlt | heq
    · exact .inl hlt
    · have hsub := hab.filter fun ticket ↦ decide (ticket.tree.weight = b.tree.weight)
      have hself : [a, b].filter (fun ticket ↦ ticket.tree.weight = b.tree.weight) = [a, b] :=
        List.filter_eq_self.2 (by simp [heq])
      rw [filter_sortBy, hself] at hsub
      exact .inr ⟨heq, List.rel_of_pairwise_cons
        (hnumbers.sublist (hsub.trans List.filter_sublist)) List.mem_cons_self⟩
  · intro ticket hticket
    obtain ⟨p, hp, rfl⟩ := List.mem_map.1 (hperm.mem_iff.1 hticket)
    exact hn p hp
  · rw [List.append_nil]
    exact hperm.symm

/-- The tree that is left in the queue is that of a code of least cost. -/
theorem exists_root {n : Nat} {weights : List (Nat × Nat)} (hne : weights ≠ [])
    (hsymbols : weights.Pairwise fun p q ↦ p.1 < q.1) (hn : ∀ p ∈ weights, p.1 < n)
    (hsum : (weights.map Prod.snd).sum < 2 ^ 64) :
    ∃ root, joinAll weights.length n (leafQueue weights) = .ok [root] ∧
      codeDepths weights = root.tree.depths 0 ∧
      root.tree.symbols.Perm (weights.map Prod.fst) := by
  obtain ⟨t, -, htrees, hdepths, hperm⟩ := exists_tree_of_codeDepths hne
    (P := fun _ ↦ True) (fun _ _ _ ↦ trivial) trivial
  have hpos := List.length_pos_iff.2 hne
  have hleaves := Forest.trees_ofWeights weights
  have hcount : (Forest.ofWeights weights).trees.length = weights.length - 1 + 1 := by
    rw [hleaves.length_eq, List.length_map]
    omega
  have hweight : ((Forest.ofWeights weights).trees.map CodeTree.weight).sum < 2 ^ 64 := by
    rw [(hleaves.map CodeTree.weight).sum_eq, List.map_map]
    exact hsum
  have hrounds : weights.length - 1 < weights.length := by omega
  obtain ⟨queue, next, hok, leaves, joined, hlines, hqueue⟩ :=
    (mirrors_leafQueue hsymbols hn).exists_joinAll (Forest.sorted_ofWeights weights)
      (Nat.le_refl n) hcount hrounds hweight
  rw [Forest.trees, hlines.leaves_eq, hlines.joined_eq, ← List.map_append,
    List.map_eq_singleton_iff] at htrees
  obtain ⟨root, hroot, rfl⟩ := htrees
  rw [hroot, List.perm_singleton] at hqueue
  subst hqueue
  exact ⟨root, hok, hdepths, hperm⟩

end Checked

end EntropyCoding
