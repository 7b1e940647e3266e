import EntropyCoding.Ans.State
import EntropyCoding.Prefix.Decoder
import EntropyCoding.Segment.Models

/-!
# Decoding a segment

A decoder is made from a map and models.  It reads one value at a time, given its context.  A
range-coded segment that has been read to its end leaves the state it started from, and `finish`
checks that.
-/

namespace EntropyCoding

/-- The models of a segment in the form a reader needs. -/
inductive DecodingTable
  /-- Distributions for range coding. -/
  | ans (tables : Array AnsTable)
  /-- Decoders of prefix codes. -/
  | prefixCodes (decoders : Array PrefixDecoder)

/-- What a reader of tokens has to know. -/
structure Decoder where
  /-- The map of contexts. -/
  map : ContextMap
  /-- How values are split. -/
  split : TokenSplit
  /-- The models. -/
  table : DecodingTable

namespace Decoder

def ofModels (map : ContextMap) (models : SegmentModels) : Decoder where
  map
  split := models.split
  table := match models.table with
    | .ans tables => .ans tables
    | .prefixCodes codes => .prefixCodes (codes.map PrefixDecoder.ofCode)

/-- Makes a decoder at the start of a payload; gives it with the state to start from. -/
def start (map : ContextMap) (models : SegmentModels) : BitRead (Decoder × Nat) := do
  BitRead.require (map.clusters ≤ models.table.size) .missingModel
  let state ← match models.table with
    | .ans _ => readState
    | .prefixCodes _ => pure initialState
  return (ofModels map models, state)

/-- Reads the map and the models of a segment, and makes its decoder. -/
def read (contexts : Nat) : BitRead (Decoder × Nat) := do
  let map ← ContextMap.read contexts
  let models ← readModels map.clusters
  start map models

variable (d : Decoder)

/-- Reads the token of a value, with the model of a cluster. -/
def readCoded (cluster : Nat) : Decode Nat :=
  match d.table with
  | .ans tables =>
    match tables[cluster]? with
    | some table => Decode.popSymbol table
    | none => throw (.contextOutOfRange cluster tables.size)
  | .prefixCodes decoders =>
    match decoders[cluster]? with
    | some decoder => Decode.lift decoder.readSymbol
    | none => throw (.contextOutOfRange cluster decoders.size)

/-- Reads the next value, which is in the given context. -/
def readValue (context : Nat) : Decode Nat := do
  let cluster ← ofExcept (d.map.cluster context)
  let token ← d.readCoded cluster
  let width := d.split.extraWidth token
  if 32 < width then throw (.invalidStream .valueTooWide)
  let bits ← Decode.lift (BitRead.read width)
  ofExcept (d.split.join token bits)

/-- Fails unless a segment that is read to the end has left the state it must leave. -/
def finish (state : Nat) : Except Error Unit :=
  match d.table with
  | .ans _ => checkFinalState state
  | .prefixCodes _ => .ok ()

/-- Reads values from a state on to the end of a segment, given their contexts. -/
def readValues (state : Nat) (ofTokens : List Nat) : BitRead (List Nat) := do
  let (values, state) ← Decode.runFrom state (ofTokens.mapM d.readValue)
  ofExcept (d.finish state)
  return values

end Decoder

/-- Reads a payload with a map and models that are known: its values, given their contexts. -/
def readPayload (map : ContextMap) (models : SegmentModels) (ofTokens : List Nat) :
    BitRead (List Nat) := do
  let (decoder, state) ← Decoder.start map models
  decoder.readValues state ofTokens

/-- Reads the values of a segment, given their contexts. -/
def decodeTokens (contexts : Nat) (ofTokens : List Nat) : BitRead (List Nat) := do
  let (decoder, state) ← Decoder.read contexts
  decoder.readValues state ofTokens

end EntropyCoding
