import EntropyCoding.Instances

/-!
# Histograms

A histogram counts how often each symbol occurs in one context, or in one cluster of contexts.
Its storage grows in steps of eight symbols, so a count may be followed by zeros that mean
nothing: `Histogram.trimmed` is the count list without them, and `==` compares histograms by it.
-/

namespace EntropyCoding

/-- Counts of symbols. -/
structure Histogram where
  /-- The count of each symbol that has storage. -/
  counts : Array Nat := #[]
  /-- The sum of the counts. -/
  total : Nat := 0
  deriving Repr

namespace Histogram

/-- Nothing counted, nothing stored. -/
def empty : Histogram := {}

/-- The histogram with the given counts, stored as given. -/
def ofCounts (counts : List Nat) : Histogram :=
  { counts := counts.toArray, total := counts.sum }

/-- Storage grows in steps of this many symbols. -/
def storageStep : Nat := 8

def storageFor (symbol : Nat) : Nat :=
  (symbol / storageStep + 1) * storageStep

/-- Gives the storage at least `size` symbols. -/
def grow (h : Histogram) (size : Nat) : Histogram :=
  { h with counts := h.counts ++ Array.replicate (size - h.counts.size) 0 }

/-- Counts one occurrence of `symbol`. -/
def add (h : Histogram) (symbol : Nat) : Histogram :=
  let grown := if symbol < h.counts.size then h else h.grow (storageFor symbol)
  { counts := grown.counts.modify symbol (· + 1), total := grown.total + 1 }

/-- The count of a symbol; a symbol without storage has none. -/
def count (h : Histogram) (symbol : Nat) : Nat :=
  h.counts.getD symbol 0

/-- The sum of two histograms, symbol by symbol. -/
def combine (a b : Histogram) : Histogram :=
  { counts := Array.ofFn fun i : Fin (max a.counts.size b.counts.size) ↦ a.count i + b.count i
    total := a.total + b.total }

def isEmpty (h : Histogram) : Bool :=
  h.total == 0

/-- The counts without the zeros behind the last symbol used. -/
def trimmed (h : Histogram) : List Nat :=
  (h.counts.toList.reverse.dropWhile (· == 0)).reverse

/-- One past the last symbol used. -/
def alphabetSize (h : Histogram) : Nat :=
  h.trimmed.length

def used (h : Histogram) : Nat :=
  h.counts.countP (0 < ·)

/-- Histograms are equal if they count the same, whatever their storage. -/
instance : BEq Histogram where
  beq a b := a.total == b.total && a.trimmed == b.trimmed

@[simp] theorem total_ofCounts (counts : List Nat) : (ofCounts counts).total = counts.sum := rfl

@[simp] theorem total_add (h : Histogram) (symbol : Nat) :
    (h.add symbol).total = h.total + 1 := by
  unfold add
  split <;> rfl

@[simp] theorem total_combine (a b : Histogram) : (a.combine b).total = a.total + b.total := rfl

@[simp] theorem count_combine (a b : Histogram) (symbol : Nat) :
    (a.combine b).count symbol = a.count symbol + b.count symbol := by
  by_cases h : symbol < max a.counts.size b.counts.size
  · simp [combine, count, Array.getD, h]
  · have ha : ¬ symbol < a.counts.size := by omega
    have hb : ¬ symbol < b.counts.size := by omega
    simp [combine, count, Array.getD, h, ha, hb]

/-! ## Information -/

def toFloat (count : Nat) : Float :=
  count.toUInt64.toFloat

/-- The information in the counted data, in bits. -/
def entropy (h : Histogram) : Float :=
  if h.total = 0 then 0
  else
    let total := toFloat h.total
    h.counts.foldl (fun sum count ↦
      if count = 0 then sum
      else sum + -toFloat count * (toFloat count / total).log2) 0

end Histogram

end EntropyCoding
