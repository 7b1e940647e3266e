import EntropyCoding.Ans.Table
import EntropyCoding.Bits.Reader

/-!
# The state of a range coder

A range coder keeps a number between `2 ^ 16` and `2 ^ 32`, which it uses as a stack of symbols:
`push` puts a symbol on top, `pop` takes it off again.  A push that would make the number too
large first moves its low 16 bits out, as a chunk that goes into the stream; a pop that makes it
too small takes the chunk back.

Symbols come off in the opposite order, so they are pushed from the last to the first.  An empty
stack is `initialState`, and decoding has to end there.
-/

namespace EntropyCoding

def initialState : Nat := 0x13 * 2 ^ 16

/-- Every state between two symbols is at least this. -/
def leastState : Nat := 2 ^ 16

/-! ## Encoding -/

/-- The state that a symbol can be pushed on, and the chunk moved out to get there. -/
def AnsTable.makeRoom (t : AnsTable) (symbol state : Nat) : Option Nat × Nat :=
  if t.freq symbol ≤ state / 2 ^ (32 - t.precision) then
    (some (state % 2 ^ 16), state / 2 ^ 16)
  else (none, state)

/-- Pushes a symbol; gives the chunk moved out, if any, and the new state. -/
def AnsTable.push (t : AnsTable) (symbol state : Nat) : Except Error (Option Nat × Nat) :=
  if t.freq symbol = 0 then .error (.zeroFrequency symbol)
  else
    let (chunk, x) := t.makeRoom symbol state
    let quotient := t.divide x symbol
    .ok (chunk, quotient * t.size + (x - quotient * t.freq symbol) + t.start symbol)

/-- Pushes symbols from the last to the first; gives the chunk of each, in the order of the
symbols, and the final state. -/
def pushAll (symbols : List (AnsTable × Nat)) : Except Error (List (Option Nat) × Nat) :=
  symbols.foldr (fun (table, symbol) pushed ↦ do
    let (chunks, state) ← pushed
    let (chunk, state) ← table.push symbol state
    return (chunk :: chunks, state)) (.ok ([], initialState))

@[simp] theorem pushAll_nil : pushAll [] = .ok ([], initialState) := rfl

theorem pushAll_cons (table : AnsTable) (symbol : Nat) (symbols : List (AnsTable × Nat)) :
    pushAll ((table, symbol) :: symbols) = (do
      let (chunks, state) ← pushAll symbols
      let (chunk, state) ← table.push symbol state
      return (chunk :: chunks, state)) := rfl

/-! ## Decoding -/

/-- The symbol on top of a state, and the state below it before a chunk is taken back. -/
def AnsTable.pop (t : AnsTable) (state : Nat) : Nat × Nat :=
  let slot := state % t.size
  let symbol := t.symbolAt slot
  (symbol, t.freq symbol * (state / t.size) + slot - t.start symbol)

/-- The place of a decoder in its segment. -/
structure Cursor where
  /-- The state of the range decoder. -/
  state : Nat
  /-- The position in the stream. -/
  reader : BitReader

/-- An action that decodes. -/
abbrev Decode := EStateM Error Cursor

namespace Decode

/-- Reads bits, leaving the state alone. -/
def lift {α : Type} (action : BitRead α) : Decode α := fun c ↦
  match action c.reader with
  | .ok a reader => .ok a { c with reader }
  | .error e reader => .error e { c with reader }

/-- Decodes from a given state; gives the result with the state left. -/
def runFrom {α : Type} (state : Nat) (action : Decode α) : BitRead (α × Nat) := fun reader ↦
  match action { state, reader } with
  | .ok a c => .ok (a, c.state) c.reader
  | .error e c => .error e c.reader

/-- Takes a chunk back if the state has become too small. -/
def refill : Decode Unit := do
  let c ← get
  if c.state < leastState then
    let chunk ← lift (BitRead.read 16)
    modify fun c ↦ { c with state := c.state * 2 ^ 16 + chunk }

/-- Takes the top symbol off the state. -/
def popSymbol (t : AnsTable) : Decode Nat := do
  let (symbol, state) := t.pop (← get).state
  modify fun c ↦ { c with state }
  refill
  return symbol

end Decode

def readState : BitRead Nat := do
  let state ← BitRead.read 32
  if state < leastState then throw (.corruptState state)
  return state

/-- Fails unless the stack is empty. -/
def checkFinalState (state : Nat) : Except Error Unit :=
  if state = initialState then .ok () else .error (.corruptState state)

end EntropyCoding
