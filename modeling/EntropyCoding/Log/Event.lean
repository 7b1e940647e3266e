/-!
# Log events

What an operation reports about its work: an event has a level, a text and a few numbers.
-/

namespace EntropyCoding

/-- The importance of an event. -/
inductive LogLevel
  /-- A failure. -/
  | error
  /-- Something that deserves attention. -/
  | warn
  /-- The course of the work. -/
  | info
  /-- What an operation came to. -/
  | debug
  /-- What each step of an operation came to. -/
  | trace
  deriving DecidableEq, Repr

namespace LogLevel

def rank : LogLevel → Nat
  | error => 0
  | warn => 1
  | info => 2
  | debug => 3
  | trace => 4

def name : LogLevel → String
  | error => "ERROR"
  | warn => "WARN"
  | info => "INFO"
  | debug => "DEBUG"
  | trace => "TRACE"

/-- The level of the given name in any case; an unknown name stands for `warn`. -/
def ofName (name : String) : LogLevel :=
  match name.toLower with
  | "trace" => trace
  | "debug" => debug
  | "info" => info
  | "error" => error
  | _ => warn

/-- True if events of level `l` are shown at a threshold. -/
def isShownAt (l threshold : LogLevel) : Bool :=
  l.rank ≤ threshold.rank

end LogLevel

/-- What an operation reports. -/
inductive Event
  /-- Tokens were counted. -/
  | builtHistograms (tokens histograms : Nat)
  /-- Contexts were clustered. -/
  | clusteredHistograms (contexts clusters : Nat)
  /-- The depths of a code were found, with the deepest level and the floor of the weights. -/
  | builtPrefixCode (symbols deepest floor : Nat)
  /-- Models were written; the payload is an estimate. -/
  | wroteModels (models : Nat) (arePrefixCodes : Bool) (bits : Nat) (payload : Float)
  /-- A payload was written. -/
  | wroteTokens (tokens bits : Nat)
  /-- A segment was written; the bits are those in the writer. -/
  | encodedTokens (tokens contexts clusters bits : Nat)
  /-- A code was extended. -/
  | extendedCode (oldSize newSize deepest : Nat)
  /-- The static codes of a kind were extended. -/
  | extendedFamily (kind : String) (codes size : Nat)
  /-- The static codes of a kind could not be extended. -/
  | extensionFailed (reason : String)

namespace Event

def level : Event → LogLevel
  | builtHistograms .. | builtPrefixCode .. | wroteTokens .. => .trace
  | clusteredHistograms .. | wroteModels .. | encodedTokens .. | extendedCode .. => .debug
  | extendedFamily .. => .info
  | extensionFailed .. => .error

/-- The text of an event. -/
def message : Event → String
  | builtHistograms .. => "built histograms"
  | clusteredHistograms .. => "clustered histograms"
  | builtPrefixCode .. => "built length-limited prefix code"
  | wroteModels .. => "wrote entropy models"
  | wroteTokens .. => "wrote tokens"
  | encodedTokens .. => "encoded token stream"
  | extendedCode .. => "extended prefix code"
  | extendedFamily .. => "extended static codes"
  | extensionFailed .. => "failed to extend prefix codes"

end Event

end EntropyCoding
