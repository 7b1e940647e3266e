import EntropyCoding.Instances

/-!
# Columns of digits

Numbers in a listing are right-aligned: short ones get a filling in front, long ones keep all
their digits.  The main facts are `length_padLeft`, the width of a padded text, and
`padLeft_of_le`, which says that a text that is wide enough is left alone.
-/

namespace EntropyCoding

/-- `digits` padded on the left with `fill` to at least `width` characters. -/
def padLeft (width : Nat) (fill : Char) (digits : String) : String :=
  String.ofList (List.replicate (width - digits.length) fill) ++ digits

/-- A padded text is as wide as its column, or as the text itself if that is wider. -/
@[simp] theorem length_padLeft (width : Nat) (fill : Char) (digits : String) :
    (padLeft width fill digits).length = max width digits.length := by
  simp only [padLeft, String.length_append, String.length_ofList, List.length_replicate]
  omega

/-- A text that fills its column is left alone. -/
theorem padLeft_of_le {width : Nat} {digits : String} (h : width ≤ digits.length) (fill : Char) :
    padLeft width fill digits = digits := by
  simp [padLeft, Nat.sub_eq_zero_of_le h]

def decimalColumn (width n : Nat) : String :=
  padLeft width ' ' (toString n)

/-- `n` in lowercase hexadecimal, with zeros in front up to `width` digits. -/
def hexDigits (width n : Nat) : String :=
  padLeft width '0' (String.ofList (Nat.toDigits 16 n))

end EntropyCoding
