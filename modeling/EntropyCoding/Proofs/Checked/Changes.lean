import EntropyCoding.Proofs.Checked.Grid
import EntropyCoding.Proofs.Image.Changes

/-!
# Checked changes of a grid

Changes are made one after another, with transforms placed block by block.  An error that a change
reports is passed over; a fault is not, it ends the run.

A run makes the same changes as `GridChange.run`, up to the first one that overflows:
`Checked.runChanges_eq`.
-/

namespace EntropyCoding

/-- The place of the transform that a change places overflows. -/
def GridChange.Overflows (width : Nat) : GridChange → Prop
  | place t => Checked.Overflows width t
  | placeFree t => Checked.Overflows width t
  | fillPlain => False
  | clear => False

instance (width : Nat) : ∀ c : GridChange, Decidable (c.Overflows width)
  | .place t => inferInstanceAs (Decidable (Checked.Overflows width t))
  | .placeFree t => inferInstanceAs (Decidable (Checked.Overflows width t))
  | .fillPlain => isFalse id
  | .clear => isFalse id

namespace Checked

/-- Makes a change. -/
def changeGrid : GridChange → Checked TransformGrid Unit
  | .place t => place t.x t.y t.kind
  | .placeFree t => placeFree t.x t.y t.kind
  | .fillPlain => modify TransformGrid.fillPlain
  | .clear => modify TransformGrid.clear

/-- Makes a change, or none if it is refused. -/
def tryChange (c : GridChange) : Checked TransformGrid Unit :=
  tryCatch (changeGrid c) fun
    | .error _ => pure ()
    | .fault f => fault f

/-- Makes changes one after another. -/
def runChanges (changes : List GridChange) : Checked TransformGrid Unit :=
  changes.forM tryChange

variable {width height : Nat} {g : TransformGrid}

/-- A change gives its result in place of the grid. -/
theorem changeGrid_eq (hsize : g.width * g.height < 2 ^ 64) (hg : g.Shaped) (c : GridChange) :
    changeGrid c g = if c.Overflows g.width then .error (.fault .overflow) g
      else inPlace g (c.result g) := by
  cases c with
  | place t => exact place_eq hsize hg t
  | placeFree t => exact placeFree_eq hsize hg t
  | fillPlain => rfl
  | clear => rfl

/-- A change that is refused is passed over. -/
theorem tryChange_eq (hsize : g.width * g.height < 2 ^ 64) (hg : g.Shaped) (c : GridChange) :
    tryChange c g = if c.Overflows g.width then .error (.fault .overflow) g
      else .ok () (c.apply g) := by
  have hchange := changeGrid_eq hsize hg c
  show EStateM.tryCatch (changeGrid c) _ g = _
  rw [EStateM.tryCatch, hchange]
  by_cases hoverflow : c.Overflows g.width
  · rw [if_pos hoverflow, if_pos hoverflow]
    rfl
  · rw [if_neg hoverflow, if_neg hoverflow, GridChange.apply]
    cases c.result g with
    | ok g' => rfl
    | error e => rfl

/-- A run makes all changes if none overflows.  Otherwise it ends with the fault of the first one that
does, and the changes before it have been made. -/
theorem runChanges_eq (hsize : width * height < 2 ^ 64) (hf : g.Framed width height)
    (changes : List GridChange) : runChanges changes g =
      if ∀ c ∈ changes, ¬ c.Overflows width then .ok () (GridChange.run g changes)
      else .error (.fault .overflow)
        (GridChange.run g (changes.takeWhile fun c ↦ ¬ c.Overflows width)) := by
  induction changes generalizing g with
  | nil => rfl
  | cons c changes ih =>
    obtain ⟨rfl, rfl⟩ := And.intro hf.width_eq hf.height_eq
    have hchange := tryChange_eq hsize hf.shaped c
    change (tryChange c >>= fun _ ↦ runChanges changes) g = _
    by_cases hoverflow : c.Overflows g.width
    · rw [if_pos hoverflow] at hchange
      rw [bind_of_error hchange, if_neg fun h ↦ h c List.mem_cons_self hoverflow,
        List.takeWhile_cons_of_neg (by simpa using hoverflow)]
      rfl
    · rw [if_neg hoverflow] at hchange
      rw [bind_of_ok hchange, ih (GridChange.framed_apply hf c),
        List.takeWhile_cons_of_pos (by simpa using hoverflow)]
      simp only [List.forall_mem_cons, hoverflow, not_false_eq_true, true_and]
      rfl

end Checked

end EntropyCoding
