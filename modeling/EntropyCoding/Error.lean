import EntropyCoding.Text.Column

/-!
# Errors

Every failure of the library is one cause out of `Error`.  The causes that blame a
configuration or a bit stream carry a second cause, `ConfigFault` or `StreamFault`, which says
what is wrong with it.  The wording of a cause is in one place, `Error.message`.
-/

namespace EntropyCoding

/-- What is wrong with a configuration value. -/
inductive ConfigFault
  /-- A token split keeps more than `2 ^ 15` values whole. -/
  | splitExponent
  /-- A token split carries more bits in its tokens than it has. -/
  | splitCarry
  /-- The precision of a table is outside `1..=15`. -/
  | tablePrecision
  /-- The precision of a stream is outside `5..=12`. -/
  | streamPrecision
  /-- The cluster budget is outside `1..=256`. -/
  | clusterBudget
  /-- An identity map would need more than 256 clusters. -/
  | identityTooLarge
  /-- The frequencies have no symbol whose share could be changed. -/
  | nothingToAdjust
  /-- The kind of a static code is neither `DC` nor `AC`. -/
  | codeKind
  deriving DecidableEq, Repr

/-- What is wrong with a bit stream, or with the tables it describes. -/
inductive StreamFault
  /-- The length field of a number is above 32. -/
  | numberLength
  /-- A token stands for a value of more than 32 bits. -/
  | valueTooWide
  /-- A token split carries more high bits than its exponent. -/
  | splitHighBits
  /-- The fields of a token split do not fit together. -/
  | splitFields
  /-- The entries of a context map are wider than a byte. -/
  | entryWidth
  /-- The entries of a context map address a model the segment does not have. -/
  | missingModel
  /-- The frequencies of a table do not add up to its size. -/
  | frequencySum
  /-- A symbol id is beyond every alphabet. -/
  | symbolId
  /-- A two-symbol distribution repeats its symbol, or gives one of them nothing. -/
  | symbolPair
  /-- The alphabet of a distribution is empty, single or too large. -/
  | distributionAlphabet
  /-- A run of frequencies has no frequency to repeat. -/
  | runWithoutStart
  /-- A run of frequencies leaves the alphabet. -/
  | runTooLong
  /-- A frequency has more bits than the table size allows. -/
  | frequencyWidth
  /-- The frequencies sent leave nothing for the last symbol. -/
  | frequencyExcess
  /-- The alphabet of a prefix code is empty, single or too large. -/
  | codeAlphabet
  /-- A prefix code describes no symbol. -/
  | emptyCode
  /-- A codeword is longer than 15 bits. -/
  | codeDepth
  /-- The codewords do not fill the code space. -/
  | incompleteCode
  /-- The bits read match no codeword. -/
  | unknownCodeword
  deriving DecidableEq, Repr

/-- Why an operation failed. -/
inductive Error
  /-- A token or symbol names a context outside the configured range. -/
  | contextOutOfRange (context numContexts : Nat)
  /-- The populations a prefix code stands for do not add up to a full code. -/
  | invalidPopulation (total expected : Nat)
  /-- The requested alphabet is not larger than the current one. -/
  | alphabetNotLarger (requested current : Nat)
  /-- More symbols are in use than there are slots. -/
  | alphabetTooLarge (used slots : Nat)
  /-- An alphabet is longer than a serialized model can describe. -/
  | alphabetSizeExceeded (size limit : Nat)
  /-- A symbol was coded with a model that gives it no probability. -/
  | zeroFrequency (symbol : Nat)
  /-- A configuration value is outside its range. -/
  | invalidConfig (fault : ConfigFault)
  /-- A transform would overlap an assigned block. -/
  | blockOverlap (x y : Nat)
  /-- A position, or the transform placed there, leaves the grid. -/
  | blockOutOfBounds (x y width height : Nat)
  /-- A byte names no transform. -/
  | invalidStrategy (byte : Nat)
  /-- The bits ran out. -/
  | unexpectedEof
  /-- The bit stream describes no valid model or token. -/
  | invalidStream (fault : StreamFault)
  /-- The state of a range decoder is not the one expected. -/
  | corruptState (state : Nat)
  /-- A context map is too short to be listed. -/
  | contextMapTooShort (length required : Nat)
  /-- The receiver of a text has no room left. -/
  | bufferFull
  deriving DecidableEq, Repr

/-! ## Wording -/

/-- The text of a configuration fault. -/
def ConfigFault.message : ConfigFault → String
  | splitExponent => "split exponent above 15"
  | splitCarry => "msb_in_token + lsb_in_token exceeds split exponent"
  | tablePrecision => "ANS precision must be in 1..=15"
  | streamPrecision => "log_tab_size must be in 5..=12"
  | clusterBudget => "max_clusters must be in 1..=256"
  | identityTooLarge => "identity context map limited to 256 contexts"
  | nothingToAdjust => "no symbol to adjust"
  | codeKind => "code type must be DC or AC"

/-- The text of a stream fault. -/
def StreamFault.message : StreamFault → String
  | numberLength => "varint length above 32"
  | valueTooWide => "hybrid token exceeds 32-bit range"
  | splitHighBits => "msb_in_token above split exponent"
  | splitFields => "invalid hybrid uint config"
  | entryWidth => "context map entry width above 8 bits"
  | missingModel => "context map addresses a missing model"
  | frequencySum => "frequencies do not sum to table size"
  | symbolId => "symbol id above alphabet limit"
  | symbolPair => "malformed two-symbol distribution"
  | distributionAlphabet => "distribution alphabet size out of range"
  | runWithoutStart => "run escape before any frequency"
  | runTooLong => "frequency run past alphabet end"
  | frequencyWidth => "frequency above table size"
  | frequencyExcess => "frequencies exceed table size"
  | codeAlphabet => "prefix alphabet size out of range"
  | emptyCode => "empty prefix code"
  | codeDepth => "prefix code depth above 15"
  | incompleteCode => "incomplete prefix code"
  | unknownCodeword => "prefix codeword longer than 15 bits"

/-- The text of an error. -/
def Error.message : Error → String
  | contextOutOfRange context numContexts =>
    s!"context {context} out of range (num_contexts = {numContexts})"
  | invalidPopulation total expected =>
    s!"invalid population: counts sum to {total}, expected {expected}"
  | alphabetNotLarger requested current =>
    s!"new alphabet size {requested} must be greater than current size {current}"
  | alphabetTooLarge used slots => s!"{used} symbols do not fit in a table of {slots} slots"
  | alphabetSizeExceeded size limit => s!"alphabet of {size} symbols exceeds the limit of {limit}"
  | zeroFrequency symbol => s!"symbol {symbol} has zero frequency"
  | invalidConfig fault => "invalid configuration: " ++ fault.message
  | blockOverlap x y => s!"block overlap at ({x}, {y})"
  | blockOutOfBounds x y width height =>
    s!"strategy at ({x}, {y}) does not fit in a {width}x{height} block image"
  | invalidStrategy byte => s!"invalid raw strategy {byte}"
  | unexpectedEof => "unexpected end of bitstream"
  | invalidStream fault => "invalid bitstream: " ++ fault.message
  | corruptState state => "ANS state mismatch: got 0x" ++ hexDigits 8 state
  | contextMapTooShort length required =>
    s!"context map has {length} entries, need at least {required}"
  | bufferFull => "io error: failed to write whole buffer"

end EntropyCoding
