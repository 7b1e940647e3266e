import EntropyCoding.Ans.Table
import EntropyCoding.Bits.Number
import EntropyCoding.Prefix.Code

/-!
# Models in a stream

Models of one or two symbols have a short form.  A larger distribution sends its frequencies in
order, each as its length and the bits below its top bit; four or more repetitions of a frequency
are sent as an escape and their number, and the last frequency is left out because it follows
from the others.  A larger prefix code sends its depths, 4 bits each.
-/

namespace EntropyCoding

def frequencyLengthWidth : Nat := 4

/-- The length that announces repetitions of the last frequency. -/
def runEscape : Nat := 15

/-- The least number of repetitions that is sent as a run. -/
def leastRun : Nat := 4

def frequencyFields (f : Nat) : List Field :=
  numberFields frequencyLengthWidth f

/-- The fields of frequencies, with repetitions sent as runs. -/
def runFields : List Nat → List Field
  | [] => []
  | f :: rest =>
    let run := (rest.takeWhile (· == f)).length
    if leastRun ≤ run then
      frequencyFields f ++ ⟨runEscape, frequencyLengthWidth⟩ :: wordFields run
        ++ runFields (rest.drop run)
    else frequencyFields f ++ runFields rest
termination_by freqs => freqs.length
decreasing_by
  · simp only [List.length_drop, List.length_cons]; omega
  · simp

def AnsTable.usedSymbols (t : AnsTable) : List Nat :=
  (List.range t.alphabetSize).filter fun symbol ↦ 0 < t.freq symbol

def AnsTable.fields (t : AnsTable) : List Field :=
  match t.usedSymbols with
  | [symbol] => [Field.flag true, Field.flag false] ++ wordFields symbol
  | [first, second] =>
    [Field.flag true, Field.flag true] ++ wordFields first ++ wordFields second
      ++ [⟨t.freq first, t.precision⟩]
  | _ => Field.flag false :: wordFields t.alphabetSize ++ runFields t.freqs.toList.dropLast

def PrefixCode.fields (c : PrefixCode) : List Field :=
  match c.single? with
  | some symbol => Field.flag true :: wordFields symbol
  | none =>
    Field.flag false :: wordFields c.alphabetSize ++ c.depths.toList.map fun depth ↦ ⟨depth, 4⟩

end EntropyCoding
