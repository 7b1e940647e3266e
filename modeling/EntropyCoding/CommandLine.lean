import EntropyCoding.Listing.StaticCodes
import EntropyCoding.Log.Trace

/-!
# The command line

The program prints a family of static codes, extended to a larger alphabet.  Its arguments are
the family, `DC` or `AC`, and the size of the new alphabet.  The option `--log-level` may stand
anywhere before a `--`, which ends the options.
-/

namespace EntropyCoding

/-! ## Arguments -/

/-- What the program is asked to do. -/
structure Arguments where
  /-- The family of codes. -/
  kind : StaticCodeKind
  /-- The size of the new alphabet. -/
  size : Nat
  /-- The least important level of events to show. -/
  logLevel : LogLevel

/-- The arguments sorted by what they are. -/
structure SortedArguments where
  /-- The positional arguments. -/
  positionals : List String := []
  /-- The value of the option, if it was given. -/
  logLevel? : Option String := none

def logLevelOption : String := "--log-level"

def looksLikeOption (arg : String) : Bool :=
  arg.startsWith "-" && arg != "-"

def SortedArguments.addPositional (arg : String) (sorted : SortedArguments) : SortedArguments :=
  { sorted with positionals := arg :: sorted.positionals }

/-- Adds the value of the option, which can be given only once. -/
def SortedArguments.addLogLevel (value : String) (sorted : SortedArguments) :
    Option SortedArguments :=
  match sorted.logLevel? with
  | none => some { sorted with logLevel? := some value }
  | some _ => none

/-- Sorts arguments; there is none for an unknown option, a repeated one or one without its
value. -/
def sortArguments : List String → Option SortedArguments
  | [] => some {}
  | "--" :: args => some { positionals := args }
  | [arg] => sortSingle arg {}
  | arg :: value :: args =>
    if arg = logLevelOption then
      if looksLikeOption value then none
      else (sortArguments args).bind (·.addLogLevel value)
    else (sortArguments (value :: args)).bind (sortSingle arg)
where
  /-- Adds an argument that does not take its value from the next one. -/
  sortSingle (arg : String) (sorted : SortedArguments) : Option SortedArguments :=
    if arg.startsWith (logLevelOption ++ "=") then
      sorted.addLogLevel (arg.drop (logLevelOption.length + 1)).toString
    else if looksLikeOption arg then none
    else some (sorted.addPositional arg)

/-- The number that a string of decimal digits stands for, with an optional plus sign; there is
none if it is `2 ^ 64` or more. -/
def readSize (text : String) : Option Nat :=
  let digits := match text.toList with
    | '+' :: digits => digits
    | digits => digits
  if digits ≠ [] ∧ digits.all Char.isDigit then
    let n := digits.foldl (fun n c ↦ 10 * n + (c.toNat - '0'.toNat)) 0
    if n < 2 ^ 64 then some n else none
  else none

/-- Reads the arguments; there are none if they do not follow the usage. -/
def readArguments (args : List String) : Option Arguments := do
  let sorted ← sortArguments args
  match sorted.positionals with
  | [kind, size] =>
    let kind ← (StaticCodeKind.ofName kind).toOption
    let size ← readSize size
    return { kind, size, logLevel := LogLevel.ofName (sorted.logLevel?.getD "warn") }
  | _ => none

/-! ## Running -/

/-- What the program leaves behind. -/
structure Outcome where
  /-- The exit code. -/
  exit : Nat
  /-- What it prints. -/
  output : String := ""
  /-- The events it reports. -/
  events : List Event := []
  /-- Why it failed, in one line. -/
  failure? : Option String := none

def usage : String :=
  "usage: static-codes [--log-level LEVEL] [--] CODE_TYPE NEW_ALPHABET_SIZE"

def Arguments.shown (args : Arguments) (events : List Event) : List Event :=
  events.filter (·.level.isShownAt args.logLevel)

/-- Prints the codes asked for. -/
def Arguments.run (args : Arguments) : Outcome :=
  if args.size ≤ staticAlphabetSize then
    { exit := 1
      failure? := some ("New alphabet size must be greater than current alphabet size, which is "
        ++ toString staticAlphabetSize ++ ".") }
  else
    let events := extensionsTrace args.size args.kind.codes
    match args.kind.extendedCodes args.size with
    | .ok codes =>
      { exit := 0
        output := listCodes args.kind codes
        events := args.shown
          (events ++ [.extendedFamily args.kind.name codes.length args.size]) }
    | .error e =>
      { exit := 1
        events := args.shown (events ++ [.extensionFailed e.message])
        failure? := some ("Failed to extend prefix codes: " ++ e.message) }

def runCommandLine (args : List String) : Outcome :=
  match readArguments args with
  | some args => args.run
  | none => { exit := 2, failure? := some usage }

end EntropyCoding
