import EntropyCoding.Proofs.Checked.Arithmetic
import EntropyCoding.Proofs.Action
import EntropyCoding.Proofs.Image.Whole

/-!
# Checked grids

A transform is placed in the blocks of a grid one after another, at indices that are computed from
columns and rows of 64 bits.  Where no block may have been assigned, they are all looked at before the
first one is written.  No index lies beyond the end.

What can go wrong is that the column or the row behind a transform has no 64 bits,
`Checked.Overflows`.  Then there is a fault before a block has been looked at, and the grid is as it
was.  Otherwise a transform is placed as it is at once, or refused with the same error:
`Checked.place_eq` and `Checked.placeFree_eq`.
-/

namespace EntropyCoding

namespace Checked

open TransformGrid

/-- A grid whose blocks are all unassigned, if their number has 64 bits. -/
def unassigned (width height : Nat) : Except Stop TransformGrid := do
  let size ← mul 64 width height
  .ok { width, height, blocks := .replicate size none }

/-- The blocks of a transform, counted from the first, row by row. -/
def offsets (kind : TransformKind) : List (Nat × Nat) :=
  (List.range kind.height).flatMap fun dy ↦ (List.range kind.width).map fun dx ↦ (dx, dy)

def blockIndex (g : TransformGrid) (x y : Nat) (d : Nat × Nat) : Except Stop Nat := do
  let row ← add 64 y d.2
  let start ← mul 64 row g.width
  add 64 (← add 64 start x) d.1

/-- Stops if a transform at `(x, y)` does not lie inside the grid. -/
def checkBounds (x y : Nat) (kind : TransformKind) : Checked TransformGrid Unit := do
  let g ← get
  let right ← add 64 x kind.width
  if g.width < right then throw (.error (g.outOfBounds x y))
  else
    let bottom ← add 64 y kind.height
    if g.height < bottom then throw (.error (g.outOfBounds x y))

/-- Stops if a block of a transform at `(x, y)` has been assigned. -/
def checkFree (x y : Nat) (d : Nat × Nat) : Checked TransformGrid Unit := do
  let g ← get
  let i ← blockIndex g x y d
  let block ← item g.blocks i
  if block.isSome then throw (.error (.blockOverlap (x + d.1) (y + d.2)))

/-- Writes a block of a transform at `(x, y)`. -/
def writeBlock (x y : Nat) (kind : TransformKind) (d : Nat × Nat) : Checked TransformGrid Unit := do
  let g ← get
  let i ← blockIndex g x y d
  let blocks ← store g.blocks i (some { kind, isFirst := d.1 == 0 && d.2 == 0 })
  set { g with blocks }

/-- Places a transform, whatever was there, block by block. -/
def place (x y : Nat) (kind : TransformKind) : Checked TransformGrid Unit := do
  checkBounds x y kind
  (offsets kind).forM (writeBlock x y kind)

/-- Places a transform where no block has been assigned, block by block. -/
def placeFree (x y : Nat) (kind : TransformKind) : Checked TransformGrid Unit := do
  checkBounds x y kind
  (offsets kind).forM (checkFree x y)
  (offsets kind).forM (writeBlock x y kind)

/-- The grid that an operation gives takes the place of the one it is given, an error does not. -/
def inPlace (g : TransformGrid) : Except Error TransformGrid → EStateM.Result Stop TransformGrid Unit
  | .ok g' => .ok () g'
  | .error e => .error (.error e) g

/-- The column behind a transform has no 64 bits.  If it has, and lies inside a grid of the given width,
the row behind the transform is asked for, and may have none. -/
def Overflows (width : Nat) (t : PlacedTransform) : Prop :=
  2 ^ 64 ≤ t.x + t.kind.width ∨ t.x + t.kind.width ≤ width ∧ 2 ^ 64 ≤ t.y + t.kind.height

instance (width : Nat) (t : PlacedTransform) : Decidable (Overflows width t) :=
  inferInstanceAs (Decidable (_ ∨ _))

theorem map_offsets (x y : Nat) (kind : TransformKind) :
    (offsets kind).map (fun d ↦ (x + d.1, y + d.2)) = rectangle x y kind := by
  simp only [offsets, rectangle, List.map_flatMap, List.map_map, Function.comp_def]

variable {g : TransformGrid} {x y : Nat} {kind : TransformKind} {d : Nat × Nat}

/-! ## One block -/

section Block

variable (hsize : g.width * g.height < 2 ^ 64)
include hsize

theorem blockIndex_eq (hd : (x + d.1, y + d.2) ∈ g.positions) :
    blockIndex g x y d = .ok (g.index (x + d.1) (y + d.2)) := by
  have hi : (y + d.2) * g.width + (x + d.1) < g.width * g.height := index_lt hd
  have hwidth : 0 < g.width := Nat.zero_lt_of_lt (mem_positions.1 hd).1
  have hrow : y + d.2 ≤ (y + d.2) * g.width := Nat.le_mul_of_pos_right _ hwidth
  rw [blockIndex, bind_of_eq_ok (add_eq_ok (by omega)), bind_of_eq_ok (mul_eq_ok (by omega)),
    bind_of_eq_ok (add_eq_ok (by omega)), add_eq_ok (by omega), Nat.add_assoc]
  rfl

variable (hg : g.Shaped)
include hg

theorem checkFree_eq (hd : (x + d.1, y + d.2) ∈ g.positions) : checkFree x y d g =
    if (g.at? (x + d.1) (y + d.2)).isSome then
      .error (.error (.blockOverlap (x + d.1) (y + d.2))) g
    else .ok () g := by
  rw [checkFree, get_bind, lift_bind (blockIndex_eq hsize hd),
    lift_bind (item_eq_ok (hg.getElem?_index hd))]
  split <;> rfl

theorem writeBlock_eq (hd : (x + d.1, y + d.2) ∈ g.positions) : writeBlock x y kind d g =
    .ok () { g with
      blocks := g.blocks.setIfInBounds (g.index (x + d.1) (y + d.2))
        (some { kind, isFirst := x + d.1 == x && y + d.2 == y }) } := by
  have hi : g.index (x + d.1) (y + d.2) < g.blocks.size := hg ▸ index_lt hd
  rw [writeBlock, get_bind, lift_bind (blockIndex_eq hsize hd), lift_bind (store_eq_ok hi _)]
  simp only [Nat.add_eq_left, beq_eq_decide]
  rfl

end Block

/-! ## All blocks -/

section Blocks

variable (hsize : g.width * g.height < 2 ^ 64) (hg : g.Shaped) {ds : List (Nat × Nat)}
  (hds : ∀ d ∈ ds, (x + d.1, y + d.2) ∈ g.positions)
include hsize hg hds

/-- The first block that has been assigned stops the search, and the grid is as it was. -/
theorem forM_checkFree_eq : ds.forM (checkFree x y) g =
    match (ds.map fun d ↦ (x + d.1, y + d.2)).find? fun (cx, cy) ↦ (g.at? cx cy).isSome with
    | some (cx, cy) => .error (.error (.blockOverlap cx cy)) g
    | none => .ok () g := by
  induction ds with
  | nil => rfl
  | cons d ds ih =>
    obtain ⟨hd, hds⟩ := List.forall_mem_cons.1 hds
    have hcheck := checkFree_eq hsize hg hd
    change (checkFree x y d >>= fun _ ↦ ds.forM (checkFree x y)) g = _
    rw [List.map_cons]
    by_cases hassigned : (g.at? (x + d.1) (y + d.2)).isSome
    · rw [if_pos hassigned] at hcheck
      rw [bind_of_error hcheck]
      simp only [List.find?_cons, hassigned]
    · rw [if_neg hassigned] at hcheck
      rw [bind_of_ok hcheck]
      simp only [List.find?_cons, hassigned]
      exact ih hds

/-- The blocks are written. -/
theorem forM_writeBlock_eq (kind : TransformKind) : ds.forM (writeBlock x y kind) g =
    .ok () { g with
      blocks := (ds.map fun d ↦ (x + d.1, y + d.2)).foldl (fun blocks (cx, cy) ↦
        blocks.setIfInBounds (g.index cx cy) (some { kind, isFirst := cx == x && cy == y }))
        g.blocks } := by
  induction ds generalizing g with
  | nil => rfl
  | cons d ds ih =>
    obtain ⟨hd, hds⟩ := List.forall_mem_cons.1 hds
    change (writeBlock x y kind d >>= fun _ ↦ ds.forM (writeBlock x y kind)) g = _
    rw [bind_of_ok (writeBlock_eq hsize hg hd)]
    exact ih hsize (Array.size_setIfInBounds.trans hg) hds

end Blocks

/-! ## A transform -/

/-- A grid is there just if the number of its blocks fits. -/
theorem unassigned_eq_ok_iff {width height : Nat} : unassigned width height = .ok g ↔
    width * height < 2 ^ 64 ∧ g = TransformGrid.unassigned width height := by
  by_cases hsize : width * height < 2 ^ 64
  · rw [unassigned, bind_of_eq_ok (mul_eq_ok hsize), Except.ok.injEq, and_iff_right hsize, eq_comm]
    rfl
  · rw [unassigned, mul, fit, if_neg hsize]
    refine iff_of_false (fun h ↦ ?_) fun h ↦ hsize h.1
    cases h

theorem inPlace_eq_ok_iff {x : Except Error TransformGrid} {g' : TransformGrid} :
    inPlace g x = .ok () g' ↔ x = .ok g' := by
  cases x <;> simp [inPlace]

theorem eq_of_inPlace_eq_error {x : Except Error TransformGrid} {stop : Stop} {g' : TransformGrid}
    (h : inPlace g x = .error stop g') : g' = g := by
  cases x with
  | ok g'' => cases h
  | error e => exact (EStateM.Result.error.inj h).2.symm

/-- The place of a transform is checked: a sum that does not fit is a fault, a transform that does not
an error. -/
theorem checkBounds_eq (t : PlacedTransform) : checkBounds t.x t.y t.kind g =
    if Overflows g.width t then .error (.fault .overflow) g
    else if g.fits t.x t.y t.kind then .ok () g
    else .error (.error (g.outOfBounds t.x t.y)) g := by
  simp only [fits, Bool.and_eq_true, decide_eq_true_eq]
  rw [checkBounds, get_bind]
  by_cases hx : t.x + t.kind.width < 2 ^ 64
  · rw [lift_bind (add_eq_ok hx)]
    by_cases hright : t.x + t.kind.width ≤ g.width
    · rw [if_neg (Nat.not_lt.2 hright)]
      by_cases hy : t.y + t.kind.height < 2 ^ 64
      · have hsums : ¬ Overflows g.width t := by
          rintro (h | ⟨-, h⟩) <;> omega
        rw [lift_bind (add_eq_ok hy), if_neg hsums]
        by_cases hbottom : t.y + t.kind.height ≤ g.height
        · rw [if_neg (Nat.not_lt.2 hbottom), if_pos ⟨hright, hbottom⟩]
          rfl
        · rw [if_pos (Nat.not_le.1 hbottom), if_neg fun h ↦ hbottom h.2]
          rfl
      · have hy := Nat.not_lt.1 hy
        rw [if_pos (.inr ⟨hright, hy⟩)]
        exact lift_bind_of_error (add_eq_error_iff.2 ⟨hy, rfl⟩) _ g
    · -- the row is not asked for
      have hsums : ¬ Overflows g.width t := by
        rintro (h | ⟨h, -⟩) <;> omega
      rw [if_pos (Nat.not_le.1 hright), if_neg hsums, if_neg fun h ↦ hright h.1]
      rfl
  · have hx := Nat.not_lt.1 hx
    rw [if_pos (.inl hx)]
    exact lift_bind_of_error (add_eq_error_iff.2 ⟨hx, rfl⟩) _ g

/-- What follows on the check of a place need only be known for transforms inside the grid. -/
theorem checkBounds_bind_eq {t : PlacedTransform} {next : Checked TransformGrid Unit}
    {x : Except Error TransformGrid} (h : t.tile ⊆ g.positions → next g = inPlace g x) :
    (checkBounds t.x t.y t.kind >>= fun _ ↦ next) g =
      if Overflows g.width t then .error (.fault .overflow) g
      else inPlace g (if g.fits t.x t.y t.kind then x else .error (g.outOfBounds t.x t.y)) := by
  have hbounds := checkBounds_eq (g := g) t
  by_cases hoverflow : Overflows g.width t
  · rw [if_pos hoverflow] at hbounds ⊢
    exact bind_of_error hbounds _
  rw [if_neg hoverflow] at hbounds ⊢
  by_cases ht : t.tile ⊆ g.positions
  · rw [if_pos (fits_iff.2 ht)] at hbounds ⊢
    rw [bind_of_ok hbounds, h ht]
  · rw [if_neg (mt fits_iff.1 ht)] at hbounds ⊢
    exact bind_of_error hbounds _

section Inside

variable {t : PlacedTransform} (ht : t.tile ⊆ g.positions)
include ht

theorem mem_positions_of_mem_offsets :
    ∀ d ∈ offsets t.kind, (t.x + d.1, t.y + d.2) ∈ g.positions := by
  intro d hd
  refine ht (PlacedTransform.mem_rectangle.1 ?_)
  rw [← map_offsets]
  exact List.mem_map_of_mem hd

variable (hsize : g.width * g.height < 2 ^ 64)
include hsize

/-- No sum overflows for a transform that lies inside the grid. -/
theorem not_overflows : ¬ Overflows g.width t := by
  have hfits := fits_iff.2 ht
  rw [fits, Bool.and_eq_true, decide_eq_true_eq, decide_eq_true_eq] at hfits
  have hcorner := mem_positions.1 (ht t.corner_mem_tile)
  have hwidth : g.width ≤ g.width * g.height :=
    Nat.le_mul_of_pos_right _ (Nat.zero_lt_of_lt hcorner.2)
  have hheight : g.height ≤ g.width * g.height :=
    Nat.le_mul_of_pos_left _ (Nat.zero_lt_of_lt hcorner.1)
  rintro (h | ⟨-, h⟩) <;> omega

/-- All blocks of such a transform are written. -/
theorem forM_writeBlock_offsets (hg : g.Shaped) :
    (offsets t.kind).forM (writeBlock t.x t.y t.kind) g = .ok () (g.store t.x t.y t.kind) := by
  rw [forM_writeBlock_eq hsize hg (mem_positions_of_mem_offsets ht), map_offsets]
  rfl

end Inside

section Transform

variable (hsize : g.width * g.height < 2 ^ 64) (hg : g.Shaped) (t : PlacedTransform)
include hsize hg

/-- Block by block a transform is placed where it would be placed at once, or refused with the same
error, unless there is an overflow. -/
theorem place_eq : place t.x t.y t.kind g =
    if Overflows g.width t then .error (.fault .overflow) g
    else inPlace g (g.place t.x t.y t.kind) :=
  checkBounds_bind_eq fun ht ↦ forM_writeBlock_offsets ht hsize hg

/-- The same where no block may have been assigned. -/
theorem placeFree_eq : placeFree t.x t.y t.kind g =
    if Overflows g.width t then .error (.fault .overflow) g
    else inPlace g (g.placeFree t.x t.y t.kind) := by
  refine checkBounds_bind_eq fun ht ↦ ?_
  have hcheck := forM_checkFree_eq hsize hg (mem_positions_of_mem_offsets ht)
  rw [map_offsets] at hcheck
  cases hfind : (rectangle t.x t.y t.kind).find? fun (cx, cy) ↦ (g.at? cx cy).isSome with
  | some p =>
    rw [hfind] at hcheck
    exact bind_of_error hcheck _
  | none =>
    rw [hfind] at hcheck
    rw [bind_of_ok hcheck, forM_writeBlock_offsets ht hsize hg]
    rfl

/-- A transform is placed where no block has been assigned, block by block, if it is placed at once. -/
theorem placeFree_eq_ok_iff {g' : TransformGrid} :
    placeFree t.x t.y t.kind g = .ok () g' ↔ g.placeFree t.x t.y t.kind = .ok g' := by
  rw [placeFree_eq hsize hg t]
  split
  · next hoverflow =>
    exact iff_of_false nofun fun h ↦
      not_overflows (TransformGrid.placeFree_eq_ok_iff.1 h).1 hsize hoverflow
  · exact inPlace_eq_ok_iff

/-- If it is not, the grid is as it was. -/
theorem eq_of_placeFree_eq_error {stop : Stop} {g' : TransformGrid}
    (h : placeFree t.x t.y t.kind g = .error stop g') : g' = g := by
  rw [placeFree_eq hsize hg t] at h
  split at h
  · exact (EStateM.Result.error.inj h).2.symm
  · exact eq_of_inPlace_eq_error h

end Transform

end Checked

end EntropyCoding
