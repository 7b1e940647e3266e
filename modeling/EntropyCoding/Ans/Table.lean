import EntropyCoding.Ans.Frequencies
import EntropyCoding.Histogram.Basic

/-!
# Tables of a range coder

The slots `0 … 2 ^ precision - 1` of a table are dealt out to the symbols in order, to each as
many as its frequency.  A table keeps, for each symbol, its first slot and a reciprocal of its
frequency that turns a division into a multiplication, and for each slot the symbol that owns it.
-/

namespace EntropyCoding

/-- The largest alphabet a model can have. -/
def maxAlphabet : Nat := 2 ^ 16

/-- A distribution, ready for coding. -/
structure AnsTable where
  /-- The table has two to this power slots. -/
  precision : Nat
  /-- The number of slots of each symbol. -/
  freqs : Array Nat
  /-- The first slot of each symbol. -/
  starts : Array Nat
  /-- The reciprocal of each frequency. -/
  inverses : Array Nat
  /-- The symbol of each slot. -/
  slots : Array Nat
  deriving DecidableEq, Repr

namespace AnsTable

/-! ## Building a table -/

/-- The sums of the frequencies before each symbol. -/
def startsOf (freqs : List Nat) : Array Nat :=
  (freqs.foldl (fun (starts, next) f ↦ (starts.push next, next + f)) (#[], 0)).1

/-- `2 ^ bits / f`, rounded up; zero for a symbol without slots. -/
def reciprocal (bits f : Nat) : Nat :=
  if f = 0 then 0 else (2 ^ bits + f - 1) / f

def slotsOf (freqs : List Nat) : Array Nat :=
  (freqs.zipIdx.flatMap fun (f, symbol) ↦ List.replicate f symbol).toArray

/-- The fractional bits of a reciprocal in a table of the given precision. -/
def reciprocalBits (precision : Nat) : Nat := 32 + precision

/-- The table of frequencies that fill it. -/
def ofFrequencies (freqs : List Nat) (precision : Nat) : Except Error AnsTable :=
  if isTablePrecision precision then
    if freqs.length ≤ maxAlphabet then
      if freqs.sum = 2 ^ precision then
        .ok
          { precision
            freqs := freqs.toArray
            starts := startsOf freqs
            inverses := (freqs.map (reciprocal (reciprocalBits precision))).toArray
            slots := slotsOf freqs }
      else .error (.invalidStream .frequencySum)
    else .error (.alphabetSizeExceeded freqs.length maxAlphabet)
  else .error (.invalidConfig .tablePrecision)

/-- The table of the distribution closest to a histogram. -/
def ofHistogram (h : Histogram) (precision : Nat) : Except Error AnsTable := do
  ofFrequencies (← normalize h.trimmed precision) precision

/-! ## Looking things up -/

variable (t : AnsTable)

def size : Nat := 2 ^ t.precision

def alphabetSize : Nat := t.freqs.size

def freq (symbol : Nat) : Nat := t.freqs.getD symbol 0

def start (symbol : Nat) : Nat := t.starts.getD symbol 0

def inverse (symbol : Nat) : Nat := t.inverses.getD symbol 0

def symbolAt (slot : Nat) : Nat := t.slots.getD slot 0

/-- The quotient of a 32-bit number and the frequency of a symbol, by its reciprocal. -/
def divide (x symbol : Nat) : Nat :=
  x * t.inverse symbol / 2 ^ reciprocalBits t.precision % 2 ^ 32

/-- The symbol that owns the whole table, if there is one. -/
def single? : Option Nat :=
  t.freqs.findIdx? (· == t.size)

/-- The estimated bits that the data of a histogram takes with this table. -/
def estimateBits (h : Histogram) : Float :=
  h.counts.toList.zipIdx.foldl (fun sum (count, symbol) ↦
    if count = 0 then sum
    else if t.freq symbol = 0 then sum + 1 / 0
    else sum + Histogram.toFloat count
      * (Histogram.toFloat t.precision - (Histogram.toFloat (t.freq symbol)).log2)) 0

end AnsTable

end EntropyCoding
