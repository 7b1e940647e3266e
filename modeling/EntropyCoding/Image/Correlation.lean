import EntropyCoding.Error
import EntropyCoding.Token.Basic
import EntropyCoding.Token.Signed

/-!
# Correlation of colours with luma

The two colour channels X and B are predicted from luma as a ratio times luma.  The ratio of a
channel is a base plus `factor / 84`, where each tile of 64 by 64 pixels has a factor of its own
and another pair of factors applies to the averages of blocks.
-/

namespace EntropyCoding

def tileSide : Nat := 64

def factorUnit : Float32 := 1 / 84

def factorToFloat (factor : Int) : Float32 :=
  (Int32.ofInt factor).toFloat32

/-- A channel that is predicted from luma. -/
structure ColourChannel where
  /-- The ratio at factor zero. -/
  base : Float32
  /-- The factor for averages. -/
  average : Int
  /-- The factor of each tile, row by row. -/
  tiles : Array Int

namespace ColourChannel

/-- A channel of `n` tiles whose factors are all zero. -/
def neutral (base : Float32) (n : Nat) : ColourChannel where
  base
  average := 0
  tiles := Array.replicate n 0

variable (c : ColourChannel)

def ratio (factor : Int) : Float32 :=
  c.base + factorToFloat factor * factorUnit

def averageRatio : Float32 :=
  c.ratio c.average

def tokens (context : Nat) : List Token :=
  c.tiles.toList.map fun factor ↦ { context, value := zigzag factor }

end ColourChannel

/-- The factors of both channels. -/
structure CorrelationMap where
  /-- The number of columns of tiles. -/
  width : Nat
  /-- The number of rows of tiles. -/
  height : Nat
  /-- The X channel. -/
  x : ColourChannel
  /-- The B channel. -/
  b : ColourChannel

/-- The number of tiles that cover a side, at least one. -/
def tilesFor (pixels : Nat) : Nat :=
  max 1 ((pixels + tileSide - 1) / tileSide)

namespace CorrelationMap

/-- The map of an image whose factors are all zero.  In the XYB colour space B follows luma. -/
def neutral (width height : Nat) (isXyb : Bool) : CorrelationMap :=
  let n := tilesFor width * tilesFor height
  { width := tilesFor width
    height := tilesFor height
    x := ColourChannel.neutral 0 n
    b := ColourChannel.neutral (if isXyb then 1 else 0) n }

/-- A single tile of an image in the XYB colour space. -/
instance : Inhabited CorrelationMap where
  default := neutral tileSide tileSide true

variable (m : CorrelationMap)

/-- The place of a tile among the tiles. -/
def index (tx ty : Nat) : Except Error Nat :=
  if tx < m.width ∧ ty < m.height then .ok (ty * m.width + tx)
  else .error (.blockOutOfBounds tx ty m.width m.height)

def factor (channel : CorrelationMap → ColourChannel) (tx ty : Nat) : Except Error Int := do
  return (channel m).tiles.getD (← m.index tx ty) 0

def setX (tx ty : Nat) (factor : Int) : Except Error CorrelationMap := do
  let i ← m.index tx ty
  return { m with x := { m.x with tiles := m.x.tiles.setIfInBounds i factor } }

def setB (tx ty : Nat) (factor : Int) : Except Error CorrelationMap := do
  let i ← m.index tx ty
  return { m with b := { m.b with tiles := m.b.tiles.setIfInBounds i factor } }

def setAverageX (factor : Int) : CorrelationMap :=
  { m with x := { m.x with average := factor } }

def setAverageB (factor : Int) : CorrelationMap :=
  { m with b := { m.b with average := factor } }

/-- The ratios for averages of the X, luma and B channels, and one unused. -/
def averageRatios : List Float32 :=
  [m.x.averageRatio, 0, m.b.averageRatio, 0]

/-- The factors as tokens: those of X in one context, then those of B in another. -/
def tokens (xContext bContext : Nat) : List Token :=
  m.x.tokens xContext ++ m.b.tokens bContext

end CorrelationMap

/-- A ratio with 11 fractional bits, rounded to the nearest integer with halves away from zero. -/
def fixedRatio (ratio : Float32) : Int :=
  (ratio * 2048).round.toInt32.toInt

end EntropyCoding
