import EntropyCoding.Error

/-!
# Frequencies that fill a table

A range coder needs frequencies that add up to a power of two, the size of its table.
`normalize` finds those closest to the counts observed: every count is scaled and rounded, a
symbol that occurs keeps a frequency of at least one, and what is then missing or in excess goes,
one slot at a time, to or from the symbol whose rounding error is largest.
-/

namespace EntropyCoding

/-- The largest precision of a table. -/
def maxPrecision : Nat := 15

/-- True if a table can have `2 ^ precision` slots. -/
def isTablePrecision (precision : Nat) : Bool :=
  1 ≤ precision && precision ≤ maxPrecision

/-! ## Shares of a table -/

/-- What a symbol counts and the frequency it has been given. -/
structure Share where
  /-- The count of the symbol. -/
  count : Nat
  /-- Its frequency. -/
  freq : Nat
  deriving DecidableEq, Repr

namespace Share

variable (slots total : Nat)

/-- What a share falls short of its exact size, in units of one `total`-th of a slot. -/
def shortfall (s : Share) : Int :=
  (s.count * slots : Nat) - (s.freq * total : Nat)

def isLessShort (a b : Share) : Bool :=
  a.count * slots + b.freq * total < b.count * slots + a.freq * total

/-- Falling less short is a matter of the shortfall. -/
theorem isLessShort_iff {slots total : Nat} {a b : Share} :
    a.isLessShort slots total b ↔ a.shortfall slots total < b.shortfall slots total := by
  simp only [isLessShort, shortfall, decide_eq_true_eq]
  omega

/-- The share of a count: scaled, rounded to the nearest integer with halves going up, and at
least one if the symbol occurs at all. -/
def round (count : Nat) : Share where
  count
  freq := if count = 0 then 0 else max 1 ((2 * count * slots + total) / (2 * total))

def raise (s : Share) : Share := { s with freq := s.freq + 1 }

def lower (s : Share) : Share := { s with freq := s.freq - 1 }

end Share

/-- The place of the best of some shares, of which `best` is at `place` and the eligible ones of
the list have places from `i` on; the first one if several are equally good. -/
@[specialize]
def bestPlace (better : Share → Share → Bool) (eligible : Share → Bool) (best : Share)
    (place : Nat) : Nat → List Share → Nat
  | _, [] => place
  | i, s :: shares =>
    if eligible s && better s best then bestPlace better eligible s i (i + 1) shares
    else bestPlace better eligible best place (i + 1) shares

/-- The place of the best of the eligible shares of a list, whose places count from `i`; the
first one if several are equally good. -/
@[specialize]
def bestPlace? (better : Share → Share → Bool) (eligible : Share → Bool) :
    Nat → List Share → Option Nat
  | _, [] => none
  | i, s :: shares =>
    if eligible s then some (bestPlace better eligible s i (i + 1) shares)
    else bestPlace? better eligible (i + 1) shares

/-- Hands out `n` slots, each to the symbol that falls short most. -/
def handOut (slots total : Nat) : Nat → List Share → Except Error (List Share)
  | 0, shares => .ok shares
  | n + 1, shares =>
    match bestPlace? (fun a b ↦ b.isLessShort slots total a) (0 < ·.count) 0 shares with
    | some i => handOut slots total n (shares.modify i Share.raise)
    | none => .error (.invalidConfig .nothingToAdjust)

/-- Takes back `n` slots, each from the symbol that exceeds most and has more than one. -/
def takeBack (slots total : Nat) : Nat → List Share → Except Error (List Share)
  | 0, shares => .ok shares
  | n + 1, shares =>
    match bestPlace? (fun a b ↦ a.isLessShort slots total b) (1 < ·.freq) 0 shares with
    | some i => takeBack slots total n (shares.modify i Share.lower)
    | none => .error (.alphabetTooLarge (shares.countP (0 < ·.count)) slots)

def frequencies (shares : List Share) : List Nat :=
  shares.map Share.freq

/-! ## Normalization -/

/-- The frequencies closest to `counts` that add up to `2 ^ precision`.  Without any counts,
symbol 0 gets the whole table. -/
def normalize (counts : List Nat) (precision : Nat) : Except Error (List Nat) :=
  let slots := 2 ^ precision
  let total := counts.sum
  let used := counts.countP (0 < ·)
  if isTablePrecision precision then
    if total = 0 then .ok (slots :: List.replicate (counts.length - 1) 0)
    else if slots < used then .error (.alphabetTooLarge used slots)
    else
      let shares := counts.map (Share.round slots total)
      let given := (frequencies shares).sum
      if given ≤ slots then frequencies <$> handOut slots total (slots - given) shares
      else frequencies <$> takeBack slots total (given - slots) shares
  else .error (.invalidConfig .tablePrecision)

end EntropyCoding
