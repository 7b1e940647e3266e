import EntropyCoding.Log.Event
import EntropyCoding.Prefix.Extension
import EntropyCoding.Segment.Encode

/-!
# Traces

The events of each operation, in order.  An operation that fails reports what it did before; the
event that reports the operation itself comes last and only if it succeeds.
-/

namespace EntropyCoding

/-! ## Prefix codes -/

/-- The events of finding depths for counts.  Where no tree is built there is nothing to report. -/
def depthsTrace (counts : List Nat) (limit : Nat) : List Event :=
  let used := usedSymbols counts
  if 2 ≤ used.length ∧ used.length ≤ codeCapacity limit then
    let found := depthsWithin used limit
    [.builtPrefixCode used.length found.deepest found.floor]
  else []

def codeTrace (h : Histogram) : List Event :=
  depthsTrace (PrefixCode.countsOf h) maxDepth

/-- The events of extending a code. -/
def extensionTrace (c : PrefixCode) (size : Nat) : List Event :=
  match c.extend size with
  | .ok extended =>
    depthsTrace (c.extendedCounts size) maxDepth
      ++ [.extendedCode c.alphabetSize size (extended.depths.foldl max 0)]
  | .error _ => []

/-- The events of extending codes, up to the first that cannot be extended. -/
def extensionsTrace (size : Nat) : List PrefixCode → List Event
  | [] => []
  | c :: codes =>
    match c.extend size with
    | .ok _ => extensionTrace c size ++ extensionsTrace size codes
    | .error _ => []

/-! ## Statistics -/

/-- The events of counting tokens. -/
def tallyTrace (map? : Option ContextMap) (contexts : Nat) (split : TokenSplit)
    (tokens : List Token) : List Event :=
  match Tally.ofTokens map? contexts split tokens with
  | .ok histograms => [.builtHistograms tokens.length histograms.size]
  | .error _ => []

def clusteringTrace (cost : CostEstimate) (budget : Nat) (histograms : List Histogram) :
    List Event :=
  match clusterHistograms cost budget histograms with
  | .ok (map, _) => [.clusteredHistograms histograms.length map.clusters]
  | .error _ => []

/-! ## Segments -/

/-- The events of building models for histograms, up to the first without a model. -/
def modelsTrace (config : SegmentConfig) : List Histogram → List Event
  | [] => []
  | h :: histograms =>
    if config.usesPrefixCodes then
      match writePrefixCode h BitWriter.empty with
      | .ok _ _ => codeTrace h ++ modelsTrace config histograms
      | .error _ _ => []
    else []

def fieldsWidth (fields : List Field) : Nat :=
  (fields.map Field.width).sum

/-- The events of writing models. -/
def writeModelsTrace (config : SegmentConfig) (histograms : List Histogram) (w : BitWriter) :
    List Event :=
  match config.validate with
  | .error _ => []
  | .ok () =>
    modelsTrace config histograms ++
      match writeModels config histograms w with
      | .ok models w' =>
        let header := fieldsWidth (headerFields config.usesPrefixCodes config.precision config.split)
        [.wroteModels models.table.size config.usesPrefixCodes
          (w'.bitsWritten - w.bitsWritten - header)
          ((models.table.estimates histograms).foldl (· + ·) 0)]
      | .error _ _ => []

/-- The events of writing a payload. -/
def writeTokensTrace (models : SegmentModels) (map : ContextMap) (tokens : List Token)
    (w : BitWriter) : List Event :=
  match writeTokens models map tokens w with
  | .ok () w' => [.wroteTokens tokens.length (w'.bitsWritten - w.bitsWritten)]
  | .error _ _ => []

/-- The events of planning the models of a segment. -/
def planTrace (cost : CostEstimate) (config : SegmentConfig) (contexts : Nat)
    (tokens : List Token) : List Event :=
  match config.validate, Tally.ofTokens none contexts config.split tokens with
  | .ok (), .ok histograms =>
    tallyTrace none contexts config.split tokens
      ++ if config.budget < contexts then clusteringTrace cost config.budget histograms.toList
        else []
  | _, _ => []

/-- The events of encoding a segment. -/
def encodeTrace (cost : CostEstimate) (config : SegmentConfig) (contexts : Nat)
    (tokens : List Token) (w : BitWriter) : List Event :=
  planTrace cost config contexts tokens ++
    match planModels cost config contexts tokens with
    | .error _ => []
    | .ok (map, histograms) =>
      let w := w.writeFields map.fields
      writeModelsTrace config histograms.toList w ++
        match writeModels config histograms.toList w with
        | .error _ _ => []
        | .ok models w =>
          writeTokensTrace models map tokens w ++
            match writeTokens models map tokens w with
            | .error _ _ => []
            | .ok () w => [.encodedTokens tokens.length contexts map.clusters w.bitsWritten]

end EntropyCoding
