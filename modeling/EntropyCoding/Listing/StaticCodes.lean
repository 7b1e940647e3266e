import EntropyCoding.Listing.Rows
import EntropyCoding.Prefix.Extension

/-!
# Static prefix codes

Two families of prefix codes for 16 symbols are built in, one for DC and one for AC coefficients.
They can be extended to larger alphabets and listed as tables of source text.
-/

namespace EntropyCoding

/-- A family of static codes. -/
inductive StaticCodeKind
  /-- Codes for DC coefficients. -/
  | dc
  /-- Codes for AC coefficients. -/
  | ac
  deriving DecidableEq, Repr

def staticAlphabetSize : Nat := 16

namespace StaticCodeKind

def name : StaticCodeKind → String
  | dc => "DC"
  | ac => "AC"

def ofName (name : String) : Except Error StaticCodeKind :=
  if name = "DC" then .ok dc
  else if name = "AC" then .ok ac
  else .error (.invalidConfig .codeKind)

/-- A family is recovered from its name. -/
@[simp] theorem ofName_name (k : StaticCodeKind) : ofName k.name = .ok k := by
  cases k <;> rfl

def depths : StaticCodeKind → List (List Nat)
  | dc =>
    [[2, 2, 3, 3, 4, 4, 5, 5, 6, 6, 7, 7, 8, 8, 8, 8],
      [2, 3, 3, 4, 4, 4, 4, 5, 5, 5, 5, 5, 5, 5, 6, 6]]
  | ac =>
    [[1, 2, 4, 4, 5, 5, 6, 6, 7, 7, 8, 8, 9, 9, 9, 9],
      List.replicate staticAlphabetSize 4,
      [1, 2, 3, 4, 5, 6, 7, 8, 9, 10, 11, 12, 13, 14, 15, 15]]

def codes (kind : StaticCodeKind) : List PrefixCode :=
  kind.depths.map PrefixCode.canonical

def extendedCodes (kind : StaticCodeKind) (size : Nat) : Except Error (List PrefixCode) :=
  kind.codes.mapM (·.extend size)

end StaticCodeKind

/-! ## Listing -/

def cellLines (extra : Nat) (cells : List String) : String :=
  String.join ((rowsOf extra cells).map fun row ↦ "         " ++ " ".intercalate row ++ "\n")

/-- A prefix code as a braced pair of arrays: depths, 16 in a line, and codewords, 8 in a line. -/
def listCode (code : PrefixCode) : String :=
  "    \x7b\x7b\n"
    ++ cellLines 15 (code.depths.toList.map fun depth ↦ decimalColumn 2 depth ++ ",")
    ++ "     \x7d,\n     \x7b\n"
    ++ cellLines 7 (code.codes.toList.map fun bits ↦ "0x" ++ hexDigits 4 bits ++ ",")
    ++ "     \x7d\x7d,\n"

/-- The source text of a table of codes. -/
def listCodes (kind : StaticCodeKind) (codes : List PrefixCode) : String :=
  let count := "kNum" ++ kind.name ++ "PrefixCodes"
  let table := "k" ++ kind.name ++ "PrefixCodes"
  "static constexpr size_t " ++ count ++ " = " ++ toString codes.length ++ ";\n"
    ++ "static constexpr PrefixCode " ++ table ++ "[" ++ count ++ "] = \x7b\n"
    ++ String.join (codes.map listCode) ++ "\x7d;\n"

end EntropyCoding
