import EntropyCoding.Histogram.Tally
import EntropyCoding.Segment.Payload

/-!
# Encoding a segment

A segment consists of a context map, the models and the payload.  If there are more contexts than
models allowed, contexts are clustered; otherwise each context has its own model.
-/

namespace EntropyCoding

/-- What the models of a segment are to be: the map of its contexts, and the statistics of each
cluster. -/
def planModels (cost : CostEstimate) (config : SegmentConfig) (contexts : Nat)
    (tokens : List Token) : Except Error (ContextMap × Array Histogram) := do
  config.validate
  let histograms ← Tally.ofTokens none contexts config.split tokens
  if config.budget < contexts then clusterHistograms cost config.budget histograms.toList
  else return (← ContextMap.identity contexts, histograms)

/-- Models, clusters and writes tokens; gives the map and the models. -/
def encodeTokens (cost : CostEstimate) (config : SegmentConfig) (contexts : Nat)
    (tokens : List Token) : BitWrite (ContextMap × SegmentModels) := do
  let (map, histograms) ← ofExcept (planModels cost config contexts tokens)
  BitWrite.put map.fields
  let models ← writeModels config histograms.toList
  writeTokens models map tokens
  return (map, models)

end EntropyCoding
