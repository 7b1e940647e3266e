import EntropyCoding.Context.Map
import EntropyCoding.Histogram.Basic
import EntropyCoding.Token.Basic
import EntropyCoding.Token.Split

/-!
# Tallies

A tally splits the values of tokens and counts the resulting symbols, one histogram per context
or, through a context map, one per cluster.  Counting is an action on the tally: a token without
a histogram is refused and leaves the tally as it was.
-/

namespace EntropyCoding

/-- Histograms that are being filled. -/
structure Tally where
  /-- The map contexts go through, if there is one. -/
  map? : Option ContextMap
  /-- How values are split. -/
  split : TokenSplit
  /-- The histograms. -/
  histograms : Array Histogram

/-- An action that counts. -/
abbrev Count := EStateM Error Tally

namespace Tally

/-- Empty histograms: one per cluster of the map if there is one, else one per context. -/
def start (map? : Option ContextMap) (contexts : Nat) (split : TokenSplit) : Tally where
  map?
  split
  histograms := Array.replicate (map?.elim contexts ContextMap.clusters) Histogram.empty

def addSymbol (symbol slot : Nat) : Count Unit := fun t ↦
  if slot < t.histograms.size then
    .ok () { t with histograms := t.histograms.modify slot (·.add symbol) }
  else .error (.contextOutOfRange slot t.histograms.size) t

/-- The histogram that a context is counted in. -/
def slot (t : Tally) (context : Nat) : Except Error Nat :=
  match t.map? with
  | some map => map.cluster context
  | none => .ok context

/-- Splits the value of a token and counts the token it leads to. -/
def addToken (token : Token) : Count Unit := fun t ↦
  match t.slot token.context with
  | .ok slot => addSymbol (t.split.split token.value).token slot t
  | .error e => .error e t

/-- Counts tokens in order, up to the first that is refused. -/
def addTokens (tokens : List Token) : Count Unit :=
  tokens.forM addToken

def ofTokens (map? : Option ContextMap) (contexts : Nat) (split : TokenSplit)
    (tokens : List Token) : Except Error (Array Histogram) :=
  match addTokens tokens (start map? contexts split) with
  | .ok () t => .ok t.histograms
  | .error e _ => .error e

end Tally

end EntropyCoding
