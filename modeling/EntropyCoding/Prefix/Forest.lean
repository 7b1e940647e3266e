import EntropyCoding.Instances

/-!
# Code trees and forests

A prefix code of least cost comes from joining the two lightest trees of a forest until one tree
is left.  Among trees of equal weight a leaf goes before a joined tree, a leaf of a smaller
symbol before that of a larger one, and an earlier join before a later one.

If the leaves are sorted, joined trees come into being in order of weight.  So a forest is two
queues, the leaves not used yet and the trees joined so far, and the lightest tree is at the head
of one of them.
-/

namespace EntropyCoding

/-! ## Trees -/

/-- A binary tree with symbols at its leaves, each subtree with its weight. -/
inductive CodeTree
  /-- A symbol. -/
  | leaf (symbol weight : Nat)
  /-- Two trees joined. -/
  | node (weight : Nat) (left right : CodeTree)
  deriving DecidableEq, Repr

namespace CodeTree

def weight : CodeTree → Nat
  | leaf _ w => w
  | node w _ _ => w

/-- Two trees under a common root. -/
def join (left right : CodeTree) : CodeTree :=
  node (left.weight + right.weight) left right

@[simp] theorem weight_join (left right : CodeTree) :
    (join left right).weight = left.weight + right.weight := rfl

def depths : CodeTree → Nat → List (Nat × Nat)
  | leaf symbol _, d => [(symbol, d)]
  | node _ left right, d => left.depths (d + 1) ++ right.depths (d + 1)

@[simp] theorem depths_join (left right : CodeTree) (d : Nat) :
    (join left right).depths d = left.depths (d + 1) ++ right.depths (d + 1) := rfl

end CodeTree

/-! ## Forests -/

/-- Trees in two queues, both from light to heavy. -/
structure Forest where
  /-- The leaves that have not been joined. -/
  leaves : List CodeTree
  /-- The head of the queue of joined trees. -/
  front : List CodeTree := []
  /-- The rest of that queue, the tree joined last coming first. -/
  back : List CodeTree := []
  deriving DecidableEq, Repr

namespace Forest

def joined (f : Forest) : List CodeTree :=
  f.front ++ f.back.reverse

def trees (f : Forest) : List CodeTree :=
  f.leaves ++ f.joined

/-- Puts a joined tree at the end of its queue. -/
def push (f : Forest) (t : CodeTree) : Forest :=
  { f with back := t :: f.back }

@[simp] theorem joined_push (f : Forest) (t : CodeTree) : (f.push t).joined = f.joined ++ [t] := by
  simp [push, joined]

/-- The same forest, with a tree in front unless none has been joined. -/
def settle (f : Forest) : Forest :=
  if f.front.isEmpty then { f with front := f.back.reverse, back := [] } else f

@[simp] theorem joined_settle (f : Forest) : f.settle.joined = f.joined := by
  unfold settle
  split
  · next h => simp [joined, List.isEmpty_iff.1 h]
  · rfl

/-- The lightest tree, a leaf if there is a choice, and the others. -/
def takeLightest? (f : Forest) : Option (CodeTree × Forest) :=
  let f := f.settle
  match f.leaves, f.front with
  | [], [] => none
  | leaf :: leaves, [] => some (leaf, { f with leaves })
  | [], tree :: front => some (tree, { f with front })
  | leaf :: leaves, tree :: front =>
    if leaf.weight ≤ tree.weight then some (leaf, { f with leaves })
    else some (tree, { f with front })

/-- Joins the two lightest trees; a single tree is left alone. -/
def joinLightest (f : Forest) : Forest :=
  match f.takeLightest? with
  | none => f
  | some (first, rest) =>
    match rest.takeLightest? with
    | none => f
    | some (second, rest) => rest.push (first.join second)

def joinTimes : Nat → Forest → Forest
  | 0, f => f
  | n + 1, f => joinTimes n f.joinLightest

/-- The forest of leaves for symbols with weights, sorted by weight and otherwise in the order
given. -/
def ofWeights (weights : List (Nat × Nat)) : Forest where
  leaves := (weights.map fun (symbol, weight) ↦ CodeTree.leaf symbol weight).mergeSort
    fun a b ↦ a.weight ≤ b.weight

def depths (f : Forest) : List (Nat × Nat) :=
  f.trees.flatMap (·.depths 0)

end Forest

/-- The symbols of a code of least cost, with the depths of their codewords. -/
def codeDepths (weights : List (Nat × Nat)) : List (Nat × Nat) :=
  ((Forest.ofWeights weights).joinTimes (weights.length - 1)).depths

end EntropyCoding
