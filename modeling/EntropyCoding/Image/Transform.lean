import EntropyCoding.Error

/-!
# Block transforms

A frame is a grid of blocks of 8 by 8 pixels, and each block is coded with some transform.  Some
transforms span a rectangle of several blocks.  What a grid stores for a block is the kind of its
transform and whether the block is the first, that is the top left one, of its rectangle; packed
into a byte this is twice the number of the kind, plus one for a first block.
-/

namespace EntropyCoding

/-- The kinds of transforms; `dctHxW` is a cosine transform of `H` rows and `W` columns. -/
inductive TransformKind
  /-- The plain transform of one block. -/
  | dct
  /-- Pixels as they are. -/
  | identity
  /-- Transforms of parts of one block. -/
  | dct2x2 | dct4x4
  /-- Square transforms of several blocks. -/
  | dct16x16 | dct32x32
  /-- Oblong transforms, each followed by its transpose. -/
  | dct16x8 | dct8x16 | dct32x8 | dct8x32 | dct32x16 | dct16x32
  /-- Transforms of the halves of one block. -/
  | dct4x8 | dct8x4
  /-- Transforms that treat one corner of a block apart, a kind for each corner. -/
  | afv0 | afv1 | afv2 | afv3
  deriving DecidableEq, Repr

namespace TransformKind

/-- Every kind, in the order of their numbers. -/
def all : List TransformKind :=
  [dct, identity, dct2x2, dct4x4, dct16x16, dct32x32, dct16x8, dct8x16, dct32x8, dct8x32,
    dct32x16, dct16x32, dct4x8, dct8x4, afv0, afv1, afv2, afv3]

def number (k : TransformKind) : Nat :=
  all.idxOf k

def ofNumber (n : Nat) : Except Error TransformKind :=
  match all[n]? with
  | some k => .ok k
  | none => .error (.invalidStrategy n)

/-- A kind is recovered from its number. -/
@[simp] theorem ofNumber_number (k : TransformKind) : ofNumber k.number = .ok k := by
  cases k <;> rfl

/-- The number of columns of blocks that a transform spans. -/
def width : TransformKind → Nat
  | dct16x16 | dct8x16 | dct32x16 => 2
  | dct32x32 | dct8x32 | dct16x32 => 4
  | _ => 1

/-- The number of rows of blocks that a transform spans. -/
def height : TransformKind → Nat
  | dct16x16 | dct16x8 | dct16x32 => 2
  | dct32x32 | dct32x8 | dct32x16 => 4
  | _ => 1

/-- The binary logarithm of the number of blocks that a transform spans. -/
def logArea (k : TransformKind) : Nat :=
  (k.width * k.height).log2

/-- The blocks of a transform are a power of two in number. -/
theorem two_pow_logArea (k : TransformKind) : 2 ^ k.logArea = k.width * k.height := by
  cases k <;> decide

/-- True if a transform spans more than one block. -/
def isMultiblock (k : TransformKind) : Bool :=
  0 < k.logArea

end TransformKind

/-- What a grid stores for a block. -/
structure BlockTransform where
  /-- The transform of the block. -/
  kind : TransformKind
  /-- True for the top left block of the transform. -/
  isFirst : Bool
  deriving DecidableEq, Repr

namespace BlockTransform

def ofNumber (n : Nat) : Except Error BlockTransform :=
  (fun kind ↦ { kind, isFirst := true }) <$> TransformKind.ofNumber n

/-- The byte that stands for a block. -/
def packed (b : BlockTransform) : Nat :=
  2 * b.kind.number + b.isFirst.toNat

/-- The block that a byte stands for.  A transform of one block has no other than its first. -/
def ofPacked (byte : Nat) : Except Error BlockTransform :=
  match TransformKind.ofNumber (byte / 2) with
  | .error _ => .error (.invalidStrategy byte)
  | .ok kind =>
    if byte % 2 = 1 then .ok { kind, isFirst := true }
    else if kind.isMultiblock then .ok { kind, isFirst := false }
    else .error (.invalidStrategy byte)

/-- A block is recovered from its byte, if it is first or one of many. -/
theorem ofPacked_packed (b : BlockTransform) (h : b.isFirst ∨ b.kind.isMultiblock) :
    ofPacked b.packed = .ok b := by
  obtain ⟨kind, isFirst⟩ := b
  have hdiv : (2 * kind.number + isFirst.toNat) / 2 = kind.number := by
    have := isFirst.toNat_lt
    omega
  simp only [ofPacked, packed, hdiv, TransformKind.ofNumber_number]
  cases isFirst <;> simp_all

end BlockTransform

end EntropyCoding
