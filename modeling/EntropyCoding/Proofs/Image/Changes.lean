import EntropyCoding.Proofs.Image.Whole

/-!
# Changes of a grid

A grid is changed by placing transforms and by filling or clearing it as a whole; a change that is
refused leaves it as it was.  A property survives a change if it survives the storing of a transform,
`GridChange.apply_cases`: the size, the number of blocks and that transforms begin only where they
fit do, whatever the transform is stored over.

That the transforms are whole need not survive `place`.  It does if no transform is cut, and then only:
all grids along a run of changes are whole exactly if none of the changes cuts a transform,
`GridChange.forall_whole_iff`.
-/

namespace EntropyCoding

/-- A change of a grid. -/
inductive GridChange
  /-- A transform is placed, whatever was there. -/
  | place (t : PlacedTransform)
  /-- A transform is placed where no block has been assigned. -/
  | placeFree (t : PlacedTransform)
  /-- Every block is given the plain transform. -/
  | fillPlain
  /-- Every transform is taken away. -/
  | clear
  deriving DecidableEq, Repr

namespace GridChange

/-- The grid that a change gives, or the error that it reports. -/
def result (g : TransformGrid) : GridChange → Except Error TransformGrid
  | place t => g.place t.x t.y t.kind
  | placeFree t => g.placeFree t.x t.y t.kind
  | fillPlain => .ok g.fillPlain
  | clear => .ok g.clear

/-- The grid after a change.  One that is refused leaves the grid as it was. -/
def apply (g : TransformGrid) (c : GridChange) : TransformGrid :=
  match c.result g with
  | .ok g' => g'
  | .error _ => g

/-- The grid after some changes, one after another. -/
def run (g : TransformGrid) (changes : List GridChange) : TransformGrid :=
  changes.foldl apply g

/-- A change cuts no transform.  Only one that places a transform over others may do so. -/
def Spares (g : TransformGrid) : GridChange → Prop
  | place t => t.tile ⊆ g.positions → g.Spares t
  | _ => True

/-- None of some changes cuts a transform that is there when its turn comes. -/
def AllSpare (g : TransformGrid) : List GridChange → Prop
  | [] => True
  | c :: changes => c.Spares g ∧ AllSpare (c.apply g) changes

/-! ## One change -/

section Change

variable {g g' : TransformGrid} {c : GridChange}

theorem apply_of_error {e : Error} (h : c.result g = .error e) : c.apply g = g := by
  rw [apply, h]

theorem apply_of_ok (h : c.result g = .ok g') : c.apply g = g' := by
  rw [apply, h]

/-- What a property of grids has to survive so that every change keeps it. -/
theorem apply_cases {P : TransformGrid → Prop} (hg : P g)
    (hstore : ∀ t : PlacedTransform, (c = .place t ∨ c = .placeFree t ∧
      ∀ p ∈ t.tile, g.at? p.1 p.2 = none) → t.tile ⊆ g.positions → P (g.store t.x t.y t.kind))
    (hclear : P g.clear) (hfill : P g.fillPlain) : P (c.apply g) := by
  cases h : c.result g with
  | error e =>
    rw [apply_of_error h]
    exact hg
  | ok g' =>
    rw [apply_of_ok h]
    cases c with
    | place t =>
      obtain ⟨ht, rfl⟩ := TransformGrid.place_eq_ok_iff.1 h
      exact hstore t (.inl rfl) ht
    | placeFree t =>
      obtain ⟨ht, hfree, rfl⟩ := TransformGrid.placeFree_eq_ok_iff.1 h
      exact hstore t (.inr ⟨rfl, hfree⟩) ht
    | fillPlain => exact Except.ok.inj h ▸ hfill
    | clear => exact Except.ok.inj h ▸ hclear

/-- A change leaves a whole grid whole just if it cuts no transform. -/
theorem whole_apply_iff (hg : g.Shaped) (hw : g.Whole) : (c.apply g).Whole ↔ c.Spares g := by
  constructor
  · intro h
    cases c with
    | place t =>
      intro ht
      have hok : (place t).result g = .ok (g.store t.x t.y t.kind) :=
        TransformGrid.place_eq_ok_iff.2 ⟨ht, rfl⟩
      rw [apply_of_ok hok] at h
      exact TransformGrid.spares_of_whole_store hg hw ht h
    | placeFree t => trivial
    | fillPlain => trivial
    | clear => trivial
  · intro h
    refine apply_cases hw ?_ (TransformGrid.whole_clear hg) (TransformGrid.whole_fillPlain hg)
    rintro t (rfl | ⟨rfl, hfree⟩) ht
    · exact (h ht).whole_store hg hw ht
    · exact (hw.spares_of_unassigned hfree).whole_store hg hw ht

end Change

/-! ## Many changes -/

variable {width height : Nat} {g : TransformGrid}

/-- Every change keeps the frame. -/
theorem framed_apply (hf : g.Framed width height) (c : GridChange) :
    (c.apply g).Framed width height := by
  obtain ⟨rfl, rfl, hg, hinside⟩ := hf
  refine apply_cases ⟨rfl, rfl, hg, hinside⟩ ?_ ?_ ?_
  · intro t _ ht
    refine ⟨rfl, rfl, hg.store t.x t.y t.kind, fun s hs ↦ ?_⟩
    rcases (TransformGrid.has_store hg ht).1 hs with rfl | ⟨-, hs⟩
    · exact ht
    · exact hinside hs
  · exact ⟨rfl, rfl, hg.map _, fun _ ↦ (TransformGrid.whole_clear hg).tile_subset⟩
  · exact ⟨rfl, rfl, hg.map _, fun _ ↦ (TransformGrid.whole_fillPlain hg).tile_subset⟩

theorem framed_run (hf : g.Framed width height) (changes : List GridChange) :
    (run g changes).Framed width height :=
  changes.foldlRecOn apply hf fun _ hf c _ ↦ framed_apply hf c

/-- All grids along a run are whole just if no change cuts a transform. -/
theorem forall_whole_iff (hf : g.Framed width height) (hw : g.Whole) (changes : List GridChange) :
    (∀ before, before <+: changes → (run g before).Whole) ↔ AllSpare g changes := by
  induction changes generalizing g with
  | nil =>
    refine ⟨fun _ ↦ trivial, fun _ before hbefore ↦ ?_⟩
    rw [List.prefix_nil.1 hbefore]
    exact hw
  | cons c changes ih =>
    have hf' := framed_apply hf c
    constructor
    · intro h
      have hc : (c.apply g).Whole := h [c] (List.prefix_append [c] changes)
      refine ⟨(whole_apply_iff hf.shaped hw).1 hc, (ih hf' hc).1 fun before hbefore ↦ ?_⟩
      exact h (c :: before) (List.cons_prefix_cons.2 ⟨rfl, hbefore⟩)
    · rintro ⟨hc, hchanges⟩ before hbefore
      rcases List.prefix_cons_iff.1 hbefore with rfl | ⟨before', rfl, hbefore'⟩
      · exact hw
      · exact (ih hf' ((whole_apply_iff hf.shaped hw).2 hc)).2 hchanges before' hbefore'

end GridChange

end EntropyCoding
