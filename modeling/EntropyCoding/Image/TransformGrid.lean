import EntropyCoding.Image.Transform
import EntropyCoding.Token.Basic

/-!
# Grids of block transforms

A grid assigns transforms to the blocks of a frame.  A transform is placed by its top left block
and has to lie inside the grid.  `place` overwrites what was there, `placeFree` refuses to.  The
kinds of the first blocks, in raster order, are the tokens of a grid.
-/

namespace EntropyCoding

/-- A grid of blocks, each with its transform or not assigned. -/
structure TransformGrid where
  /-- The number of columns. -/
  width : Nat
  /-- The number of rows. -/
  height : Nat
  /-- The blocks, row by row. -/
  blocks : Array (Option BlockTransform)
  deriving DecidableEq, Repr

def unassignedByte : Nat := 0xFF

namespace TransformGrid

/-- A grid without any transforms. -/
def unassigned (width height : Nat) : TransformGrid where
  width
  height
  blocks := Array.replicate (width * height) none

variable (g : TransformGrid)

/-- Takes every transform away. -/
def clear : TransformGrid :=
  { g with blocks := g.blocks.map fun _ ↦ none }

def fillPlain : TransformGrid :=
  { g with blocks := g.blocks.map fun _ ↦ some { kind := .dct, isFirst := true } }

/-- The place of a block among the blocks. -/
def index (x y : Nat) : Nat := y * g.width + x

/-- What is stored for a block. -/
def at? (x y : Nat) : Option BlockTransform :=
  (g.blocks[g.index x y]?).join

/-- The error for a position that a transform does not fit in. -/
def outOfBounds (x y : Nat) : Error :=
  .blockOutOfBounds x y g.width g.height

/-! ## Placing transforms -/

/-- The blocks of a transform at `(x, y)`, row by row. -/
def rectangle (x y : Nat) (kind : TransformKind) : List (Nat × Nat) :=
  (List.range kind.height).flatMap fun dy ↦
    (List.range kind.width).map fun dx ↦ (x + dx, y + dy)

/-- True if a transform at `(x, y)` lies inside the grid.  The column and the row behind it have no
width here; `Checked.checkBounds` computes them with 64 bits. -/
def fits (x y : Nat) (kind : TransformKind) : Bool :=
  x + kind.width ≤ g.width && y + kind.height ≤ g.height

/-- Stores a transform at `(x, y)`. -/
def store (x y : Nat) (kind : TransformKind) : TransformGrid :=
  { g with
    blocks := (rectangle x y kind).foldl (fun blocks (cx, cy) ↦
      blocks.setIfInBounds (g.index cx cy) (some { kind, isFirst := cx == x && cy == y }))
      g.blocks }

/-- Places a transform, overwriting what was there. -/
def place (x y : Nat) (kind : TransformKind) : Except Error TransformGrid :=
  if g.fits x y kind then .ok (g.store x y kind) else .error (g.outOfBounds x y)

/-- Places a transform where no block has been assigned. -/
def placeFree (x y : Nat) (kind : TransformKind) : Except Error TransformGrid :=
  if g.fits x y kind then
    match (rectangle x y kind).find? fun (cx, cy) ↦ (g.at? cx cy).isSome with
    | some (cx, cy) => .error (.blockOverlap cx cy)
    | none => .ok (g.store x y kind)
  else .error (g.outOfBounds x y)

/-! ## Looking at a grid -/

def isAssigned (x y : Nat) : Bool :=
  x < g.width && y < g.height && (g.at? x y).isSome

/-- The transform of a block. -/
def get (x y : Nat) : Except Error BlockTransform :=
  if x < g.width ∧ y < g.height then
    match g.at? x y with
    | some b => .ok b
    | none => .error (.invalidStrategy unassignedByte)
  else .error (g.outOfBounds x y)

def row (y : Nat) : Except Error (List Nat) :=
  if y < g.height then
    .ok ((List.range g.width).map fun x ↦ (g.at? x y).elim unassignedByte BlockTransform.packed)
  else .error (g.outOfBounds 0 y)

def count (kind : TransformKind) : Nat :=
  g.blocks.countP (· == some { kind, isFirst := true })

/-- One token for each transform, in raster order of the first blocks, all in one context. -/
def tokens (context : Nat) : List Token :=
  g.blocks.toList.filterMap fun
    | some { kind, isFirst := true } => some { context, value := kind.number }
    | _ => none

end TransformGrid

end EntropyCoding
