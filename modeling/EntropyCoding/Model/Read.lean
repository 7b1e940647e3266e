import EntropyCoding.Model.Fields

/-!
# Reading models

The reader accepts every form that describes a model, whether or not a writer would choose it,
and rejects what describes none.
-/

namespace EntropyCoding

open BitRead

def readSymbolId : BitRead Nat := do
  let symbol ← readWord
  require (symbol < maxAlphabet) .symbolId
  return symbol

def readAlphabetSize (fault : StreamFault) : BitRead Nat := do
  let size ← readWord
  require (2 ≤ size && size ≤ maxAlphabet) fault
  return size

/-! ## Distributions -/

/-- Reads what follows the length of a frequency: a frequency, or the number of times that the
last one is repeated, at most `left`.  Gives the number of symbols and their frequency. -/
def readRepeated (precision left : Nat) (last? : Option Nat) (len : Nat) : BitRead (Nat × Nat) :=
  if len = runEscape then
    match last? with
    | none => reject .runWithoutStart
    | some last => do
      let run ← readWord
      require (run ≤ left) .runTooLong
      return (run, last)
  else do
    require (len ≤ precision) .frequencyWidth
    return (1, ← readBelowTop len)

/-- Reading a frequency or a run does not move back. -/
theorem forward_readRepeated (precision left : Nat) (last? : Option Nat) (len : Nat) :
    Forward (readRepeated precision left last? len) := by
  unfold readRepeated
  split
  · split
    · exact forward_reject _
    · exact forward_bind forward_readWord fun _ ↦
        forward_bind (forward_require _ _) fun _ ↦ forward_pure _
  · exact forward_bind (forward_require _ _) fun _ ↦
      forward_bind (forward_readBelowTop _) fun _ ↦ forward_pure _

/-- Reading the length of a frequency and what follows it leaves fewer bits. -/
theorem bitsLeft_readRepeated_lt {precision left len : Nat} {last? : Option Nat}
    {r r₁ r₂ : BitReader} {a : Nat × Nat} (h : read frequencyLengthWidth r = .ok len r₁)
    (h' : readRepeated precision left last? len r₁ = .ok a r₂) :
    r₂.length - r₂.pos < r.length - r.pos := by
  unfold BitRead.read at h
  split at h
  · next hn =>
    cases h
    have hf := forward_readRepeated _ _ _ _ h'
    have hp := hf.pos_le
    simp only [BitReader.length, hf.data_eq, frequencyLengthWidth] at *
    omega
  · cases h

/-- Reads the frequencies of `left` symbols after those in `done`, which is in the opposite
order.  A run may be empty, so it is the bits that get fewer with each step. -/
def readFrequenciesAfter (precision left : Nat) (done : List Nat) (r : BitReader) :
    EStateM.Result Error BitReader (List Nat) :=
  if left = 0 then .ok done.reverse r
  else
    match h : read frequencyLengthWidth r with
    | .error e r₁ => .error e r₁
    | .ok len r₁ =>
      match h' : readRepeated precision left done.head? len r₁ with
      | .error e r₂ => .error e r₂
      | .ok (run, f) r₂ =>
        have := bitsLeft_readRepeated_lt h h'
        readFrequenciesAfter precision (left - run) (List.replicate run f ++ done) r₂
termination_by r.length - r.pos

/-- Reads the frequencies of `count` symbols. -/
def readFrequencies (precision count : Nat) : BitRead (List Nat) :=
  readFrequenciesAfter precision count []

def singleFrequencies (precision symbol : Nat) : List Nat :=
  List.replicate symbol 0 ++ [2 ^ precision]

/-- The frequencies of a distribution of two symbols, `f` of the first. -/
def pairFrequencies (precision first second f : Nat) : List Nat :=
  (List.range (max first second + 1)).map fun symbol ↦
    if symbol = first then f else if symbol = second then 2 ^ precision - f else 0

/-- Reads a distribution. -/
def readAnsTable (precision : Nat) : BitRead AnsTable := do
  let freqs ←
    if ← readBool then
      if ← readBool then do
        let first ← readSymbolId
        let second ← readSymbolId
        let f ← read precision
        require (first ≠ second && f ≠ 0) .symbolPair
        pure (pairFrequencies precision first second f)
      else singleFrequencies precision <$> readSymbolId
    else do
      let size ← readAlphabetSize .distributionAlphabet
      let freqs ← readFrequencies precision (size - 1)
      require (freqs.sum < 2 ^ precision) .frequencyExcess
      pure (freqs ++ [2 ^ precision - freqs.sum])
  ofExcept (AnsTable.ofFrequencies freqs precision)

/-! ## Prefix codes -/

def readPrefixCode : BitRead PrefixCode := do
  let depths ←
    if ← readBool then (fun symbol ↦ List.replicate (symbol + 1) 0) <$> readSymbolId
    else do
      let size ← readAlphabetSize .codeAlphabet
      many size (read 4)
  ofExcept (PrefixCode.ofDepths depths)

end EntropyCoding
