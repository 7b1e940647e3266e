import EntropyCoding.Bits.Number

/-!
# Splitting values into tokens and extra bits

Large values are split into a *token*, which is entropy coded, and *extra bits*, which are sent
as they are.  Values below `2 ^ exponent` are their own token.  A larger value is

```
1 | high bits | extra bits | low bits
```

in binary, and its token counts the position of the top bit and carries the `high` bits below it
and the `low` bits at the other end:

```
token = 2 ^ exponent + (top - exponent) * 2 ^ (high + low) + (high bits) * 2 ^ low + low bits
```

The number of extra bits is determined by the token alone, see `TokenSplit.extraWidth`, so a
reader knows how many bits to take as soon as it has the token.
-/

namespace EntropyCoding

/-- The parameters of a split. -/
structure TokenSplit where
  /-- Values below two to this power are their own token. -/
  exponent : Nat
  /-- The number of bits below the top bit that a token carries. -/
  high : Nat
  /-- The number of lowest bits that a token carries. -/
  low : Nat
  /-- Small values take at most 15 bits. -/
  exponent_le : exponent ≤ 15 := by decide
  /-- A value that is split has the bits its token carries. -/
  carried_le : high + low ≤ exponent := by decide
  deriving DecidableEq, Repr

/-- A value that has been split. -/
structure SplitValue where
  /-- The token. -/
  token : Nat
  /-- The extra bits. -/
  extra : Field
  deriving DecidableEq, Repr

namespace TokenSplit

/-- Sixteen whole values, then two high bits in a token. -/
instance : Inhabited TokenSplit where
  default := { exponent := 4, high := 2, low := 0 }

/-- The split with the given parameters, if they are in range.  Their sum has no width here;
`Checked.ofParameters` computes it with 32 bits. -/
def ofParameters (exponent high low : Nat) : Except Error TokenSplit :=
  if h : exponent ≤ 15 then
    if h' : high + low ≤ exponent then .ok ⟨exponent, high, low, h, h'⟩
    else .error (.invalidConfig .splitCarry)
  else .error (.invalidConfig .splitExponent)

variable (s : TokenSplit)

/-- The number of bits a token carries besides the position of the top bit. -/
def carried : Nat := s.high + s.low

/-- The first value that is not its own token. -/
def threshold : Nat := 2 ^ s.exponent

/-- Splits a value. -/
def split (v : Nat) : SplitValue :=
  if v < s.threshold then ⟨v, ⟨0, 0⟩⟩
  else
    let top := v.log2
    let rest := v - 2 ^ top
    let width := top - s.carried
    { token := s.threshold + (top - s.exponent) * 2 ^ s.carried
        + rest / 2 ^ (top - s.high) * 2 ^ s.low + rest % 2 ^ s.low
      extra := ⟨v / 2 ^ s.low % 2 ^ width, width⟩ }

/-- The number of extra bits that follow a token. -/
def extraWidth (token : Nat) : Nat :=
  if token < s.threshold then 0
  else s.exponent - s.carried + (token - s.threshold) / 2 ^ s.carried

/-- The value with the given token and extra bits, if it has at most 32 bits. -/
def join (token bits : Nat) : Except Error Nat :=
  if token < s.threshold then .ok token
  else
    let width := s.extraWidth token
    if 1 + s.high + width + s.low ≤ 32 then
      let top := 2 ^ s.high + token / 2 ^ s.low % 2 ^ s.high
      .ok ((top * 2 ^ width + bits % 2 ^ width) * 2 ^ s.low + token % 2 ^ s.low)
    else .error (.invalidStream .valueTooWide)

/-- The value with the given token whose extra bits are all zero. -/
def base (token : Nat) : Except Error Nat :=
  s.join token 0

theorem split_of_lt {v : Nat} (h : v < s.threshold) : s.split v = ⟨v, ⟨0, 0⟩⟩ :=
  if_pos h

theorem join_of_lt {token : Nat} (h : token < s.threshold) (bits : Nat) :
    s.join token bits = .ok token :=
  if_pos h

theorem extraWidth_of_lt {token : Nat} (h : token < s.threshold) : s.extraWidth token = 0 :=
  if_pos h

/-! ## In a stream -/

/-- The fields of a split: the exponent in 4 bits, then each of the other two parameters in the
width that its bound needs. -/
def fields : List Field :=
  [⟨s.exponent, 4⟩, ⟨s.high, ceilLog2 (s.exponent + 1)⟩,
    ⟨s.low, ceilLog2 (s.exponent - s.high + 1)⟩]

def read : BitRead TokenSplit := do
  let exponent ← BitRead.read 4
  let high ← BitRead.read (ceilLog2 (exponent + 1))
  BitRead.require (high ≤ exponent) .splitHighBits
  let low ← BitRead.read (ceilLog2 (exponent - high + 1))
  match ofParameters exponent high low with
  | .ok s => pure s
  | .error _ => BitRead.reject .splitFields

end TokenSplit

end EntropyCoding
