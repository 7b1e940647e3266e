import EntropyCoding.Bits.Number

/-!
# Context maps

Many contexts have much the same statistics.  A context map sends each context to a cluster, and
a segment carries one model per cluster.  In a stream the map is the width of its entries
followed by the entries.
-/

namespace EntropyCoding

/-- The largest number of clusters a map can address. -/
def maxClusters : Nat := 256

/-- A cluster for each context. -/
structure ContextMap where
  /-- The cluster of each context. -/
  entries : Array UInt8
  /-- The number of clusters. -/
  clusters : Nat
  deriving DecidableEq, Repr

namespace ContextMap

/-- The map with the given entries; it has the clusters up to the largest one named. -/
def ofEntries (entries : Array UInt8) : ContextMap :=
  { entries, clusters := entries.foldl (fun n entry ↦ max n (entry.toNat + 1)) 0 }

/-- The map that gives each of `n` contexts a cluster of its own. -/
def identity (n : Nat) : Except Error ContextMap :=
  if n ≤ maxClusters then
    .ok { entries := (Array.range n).map UInt8.ofNat, clusters := n }
  else .error (.invalidConfig .identityTooLarge)

variable (m : ContextMap)

def contexts : Nat := m.entries.size

def cluster (context : Nat) : Except Error Nat :=
  match m.entries[context]? with
  | some entry => .ok entry.toNat
  | none => .error (.contextOutOfRange context m.contexts)

def isIdentity : Bool :=
  m.entries.toList.map UInt8.toNat == List.range m.contexts

/-! ## In a stream -/

def entryWidth : Nat := ceilLog2 m.clusters

/-- The fields of a map: the width of an entry, then the entries. -/
def fields : List Field :=
  ⟨m.entryWidth, 4⟩ :: m.entries.toList.map fun entry ↦ ⟨entry.toNat, m.entryWidth⟩

def read (n : Nat) : BitRead ContextMap := do
  let width ← BitRead.read 4
  BitRead.require (width ≤ 8) .entryWidth
  let entries ← BitRead.many n (BitRead.read width)
  return ofEntries (entries.map UInt8.ofNat).toArray

end ContextMap

end EntropyCoding
