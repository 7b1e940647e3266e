import EntropyCoding.Context.Map
import EntropyCoding.Histogram.Basic

/-!
# Clustering contexts

Contexts are taken in order.  Each joins the cluster whose estimated cost grows the least, unless
a cluster of its own is cheaper and the budget has room for one.  A context without tokens costs
nothing anywhere and goes to cluster 0.

The cost of a histogram is an estimate in floating point, so the procedure is given any estimate
whatever: what it guarantees about the clusters does not depend on the numbers.
-/

namespace EntropyCoding

/-- An estimate of the bits that a histogram takes with a model of its own. -/
abbrev CostEstimate := Histogram → Float

/-- The information in the data, 16 bits for a model, and 6 bits for each of its symbols. -/
def headerCost : CostEstimate := fun h ↦
  if h.isEmpty then 0 else h.entropy + 16 + 6 * Histogram.toFloat h.used

/-- Contexts that share a model. -/
structure Cluster where
  /-- The sum of their histograms. -/
  histogram : Histogram
  /-- The estimated cost of that sum. -/
  cost : Float

/-- A clustering in progress. -/
structure Clustering where
  /-- The cluster of each context taken so far. -/
  entries : Array UInt8 := #[]
  /-- The clusters so far. -/
  clusters : Array Cluster := #[]

namespace Clustering

variable (cost : CostEstimate) (budget : Nat)

/-- A place for a histogram, and the growth of the cost if it is put there. -/
structure Offer where
  /-- The number of the cluster. -/
  slot : Nat
  /-- The growth of the cost. -/
  growth : Float

/-- A growth that no estimate reaches, the largest number that a float can hold. -/
def forbiddenGrowth : Float := 1.7976931348623157e308

/-- The offer of a new cluster, which any other offer beats when the budget is spent. -/
def newCluster (c : Clustering) (h : Histogram) : Offer where
  slot := c.clusters.size
  growth := if budget ≤ c.clusters.size then forbiddenGrowth else cost h

/-- The better of an offer and that of cluster `slot`; the earlier one if they are equal. -/
def better (h : Histogram) (best : Offer) (cluster : Cluster × Nat) : Offer :=
  let growth := cost (cluster.1.histogram.combine h) - cluster.1.cost
  if growth < best.growth then ⟨cluster.2, growth⟩ else best

def best (c : Clustering) (h : Histogram) : Offer :=
  c.clusters.toList.zipIdx.foldl (better cost h) (newCluster cost budget c h)

/-- Puts a histogram into a cluster, a new one if `slot` is the number of clusters. -/
def join (c : Clustering) (h : Histogram) (offer : Offer) : Clustering where
  entries := c.entries.push (UInt8.ofNat offer.slot)
  clusters :=
    if offer.slot = c.clusters.size then c.clusters.push ⟨h, cost h⟩
    else c.clusters.modify offer.slot fun cluster ↦
      ⟨cluster.histogram.combine h, cluster.cost + offer.growth⟩

/-- Takes the next context. -/
def place (c : Clustering) (h : Histogram) : Clustering :=
  if h.isEmpty then { c with entries := c.entries.push 0 }
  else c.join cost h (c.best cost budget h)

/-- The clustering of a list of histograms. -/
def ofHistograms (histograms : List Histogram) : Clustering :=
  histograms.foldl (place cost budget) {}

/-- The sums, one per cluster; without any tokens there is one empty cluster. -/
def histograms (c : Clustering) : Array Histogram :=
  if c.clusters.isEmpty then #[Histogram.empty] else c.clusters.map Cluster.histogram

def map (c : Clustering) : ContextMap where
  entries := c.entries
  clusters := c.histograms.size

end Clustering

/-- True if a map can address that many clusters, and there is at least one. -/
def isClusterBudget (budget : Nat) : Bool :=
  1 ≤ budget && budget ≤ maxClusters

/-- Merges histograms into at most `budget` clusters. -/
def clusterHistograms (cost : CostEstimate) (budget : Nat) (histograms : List Histogram) :
    Except Error (ContextMap × Array Histogram) :=
  if isClusterBudget budget then
    let c := Clustering.ofHistograms cost budget histograms
    .ok (c.map, c.histograms)
  else .error (.invalidConfig .clusterBudget)

end EntropyCoding
