import EntropyCoding.Error
import EntropyCoding.Listing.Rows

/-!
# The context table of AC coefficients

The context map of the AC coefficients has two parts.  The first gives the context of the number
of nonzero coefficients of a block: 37 predicted numbers, with an entry for each of 4 kinds of
blocks.  The second gives, for each kind of block, the contexts of its coefficients: they depend on
the number of nonzero coefficients left, in 8 buckets, and on the position `k` in the block, and
come in pairs.

The table is listed as source text, with comments that say what each line is for.
-/

namespace EntropyCoding

def blockKinds : Nat := 4

def predictedCounts : Nat := 37

def entriesPerKind : Nat := 458

def contextTableSize : Nat :=
  predictedCounts * blockKinds + blockKinds * entriesPerKind

/-! ## Numbers of nonzero coefficients -/

def predictionComment (predicted : Nat) : String :=
  if predicted ≤ 7 then decimalColumn 2 predicted
  else if predicted ≤ 35 then
    decimalColumn 2 (2 * predicted - 8) ++ " - " ++ decimalColumn 2 (2 * predicted - 7)
  else "64 -"

def predictionLine (entries : List Nat) (predicted : Nat) : String :=
  "      " ++ String.join (entries.map fun entry ↦ " " ++ decimalColumn 4 entry ++ ",")
    ++ "    // pred: " ++ predictionComment predicted ++ "\n"

def predictionLines (entries : List Nat) : String :=
  String.join ((rowsOf (blockKinds - 1) entries).zipIdx.map fun (row, predicted) ↦
    predictionLine row predicted)

/-! ## Contexts of coefficients -/

/-- A bucket of numbers of nonzero coefficients left. -/
structure NonzeroBucket where
  /-- The number of pairs of entries. -/
  pairs : Nat
  /-- The smallest number of nonzero coefficients left. -/
  least : Nat
  /-- The largest number of nonzero coefficients left. -/
  most : Nat
  /-- The last position that occurs. -/
  lastPosition : Nat

def nonzeroBuckets : List NonzeroBucket :=
  [⟨31, 1, 1, 63⟩, ⟨31, 2, 2, 63⟩, ⟨31, 3, 4, 63⟩, ⟨30, 5, 8, 59⟩,
    ⟨29, 9, 12, 55⟩, ⟨28, 13, 20, 51⟩, ⟨26, 21, 32, 43⟩, ⟨23, 33, 63, 31⟩]

def linePositions : List (Nat × Nat) :=
  [(1, 3), (4, 7), (8, 11), (12, 15), (16, 23), (24, 31), (32, 47), (48, 63)]

/-- A place in a line that holds no pair. -/
def blankCell : String := "        "

def pairCell (pair : List Nat) : String :=
  String.join (pair.map fun entry ↦ " " ++ decimalColumn 2 entry ++ ",")

/-- The cells of a bucket in lines of four.  There is no pair for position 0, and the last line
is filled up. -/
def bucketRows (pairs : List (List Nat)) : List (List String) :=
  let cells := blankCell :: pairs.map pairCell
  rowsOf 3 (cells ++ List.replicate ((4 - cells.length % 4) % 4) blankCell)

def bucketLine (cells : List String) (first last : Nat) : String :=
  "   " ++ "  ".intercalate cells ++ "  // k: " ++ decimalColumn 2 first ++ " - "
    ++ decimalColumn 2 last ++ "\n"

def bucketLines (bucket : NonzeroBucket) (pairs : List (List Nat)) : String :=
  let rows := bucketRows pairs
  String.join ((rows.zip linePositions).zipIdx.map fun ((cells, first, last), i) ↦
    bucketLine cells first (if i + 1 = rows.length then bucket.lastPosition else last))

def bucketHeading (bucket : NonzeroBucket) : String :=
  "    // Nonzeros left: " ++ toString bucket.least
    ++ (if bucket.least = bucket.most then "" else " - " ++ toString bucket.most) ++ "\n"

def bucketsLines : List NonzeroBucket → List (List Nat) → String
  | [], _ => ""
  | bucket :: buckets, pairs =>
    bucketHeading bucket ++ bucketLines bucket (pairs.take bucket.pairs)
      ++ bucketsLines buckets (pairs.drop bucket.pairs)

def kindLines (name : String) (entries : List Nat) : String :=
  "\n    //\n    // Zero density context map for " ++ name ++ " blocks\n    //\n"
    ++ bucketsLines nonzeroBuckets (rowsOf 1 entries)

def blockKindNames : List String :=
  ["8x8 Y", "8x16 and 16x8 Y", "8x8 X and B", "8x16 and 16x8 X and B"]

/-! ## The whole table -/

/-- The source text of a table of the right size. -/
def contextTableText (entries : List Nat) : String :=
  let (predictions, contexts) := entries.splitAt (predictedCounts * blockKinds)
  "static constexpr uint8_t kACContextMap[] = \x7b\n"
    ++ "    // Context map for number of nonzeros\n"
    ++ "    //   8x8   8x16  8x8   8x16\n"
    ++ "    //    Y     Y    X,B   X,B\n"
    ++ predictionLines predictions
    ++ String.join (((rowsOf (entriesPerKind - 1) contexts).zip blockKindNames).map
        fun (entries, name) ↦ kindLines name entries)
    ++ "\x7d;\n"

/-- The source text of a context map; it lists the entries that belong to the table. -/
def listContextTable (map : List Nat) : Except Error String :=
  if map.length < contextTableSize then
    .error (.contextMapTooShort map.length contextTableSize)
  else .ok (contextTableText (map.take contextTableSize))

/-- Writes the source text of a context map into a buffer, given how many bytes it has room for.
A text that does not fit fills the buffer. -/
def writeContextTable (map : List Nat) : EStateM Error Nat Unit := do
  let text ← ofExcept (listContextTable map)
  let room ← get
  set (room - text.utf8ByteSize)
  if room < text.utf8ByteSize then throw .bufferFull

end EntropyCoding
