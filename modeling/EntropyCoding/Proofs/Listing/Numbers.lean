import EntropyCoding.Text.Column

/-!
# The numbers of a listing

A listing is source text: what stands between two slashes and the end of the line is a comment, and
outside comments each number of the listed table stands before a comma.  `listedNumbers` reads these
numbers back.  It knows nothing of how a listing is laid out, so a number that is left out, written
twice or moved into a comment shows.

A listing is put together from short texts.  `Lists text numbers` says that a text lists some numbers
whatever comes after it; so the numbers of a whole listing are those of its parts one after another.
-/

namespace EntropyCoding

/-! ## Reading numbers back -/

/-- The text outside comments, from a place that is in a comment or is not.  The end of the line
does not belong to the comment. -/
def withoutComments : Bool → List Char → List Char
  | _, [] => []
  | true, c :: cs => if c = '\n' then c :: withoutComments false cs else withoutComments true cs
  | false, '/' :: '/' :: cs => withoutComments true cs
  | false, c :: cs => c :: withoutComments false cs

/-- The numbers that stand before commas, given the number whose digits have just been read. -/
def numbersBeforeCommas : Option Nat → List Char → List Nat
  | _, [] => []
  | seen, c :: cs =>
    if c = ',' then seen.toList ++ numbersBeforeCommas none cs
    else if c.isDigit then
      numbersBeforeCommas (some (10 * seen.getD 0 + (c.toNat - '0'.toNat))) cs
    else numbersBeforeCommas none cs

/-- The numbers that stand before commas outside comments. -/
def listedNumbers (text : String) : List Nat :=
  numbersBeforeCommas none (withoutComments false text.toList)

theorem withoutComments_append {cs : List Char} (h : '/' ∉ cs) (rest : List Char) :
    withoutComments false (cs ++ rest) = cs ++ withoutComments false rest := by
  induction cs with
  | nil => rfl
  | cons c cs ih =>
    obtain ⟨hc, hcs⟩ := not_or.1 (mt List.mem_cons.2 h)
    rw [List.cons_append, withoutComments, ih hcs, List.cons_append]
    exact fun _ hslash ↦ absurd hslash.symm hc

/-- A comment goes up to the end of its line. -/
theorem withoutComments_of_comment {cs : List Char} (h : '\n' ∉ cs) (rest : List Char) :
    withoutComments true (cs ++ '\n' :: rest) = '\n' :: withoutComments false rest := by
  induction cs with
  | nil => rfl
  | cons c cs ih =>
    obtain ⟨hc, hcs⟩ := not_or.1 (mt List.mem_cons.2 h)
    rw [List.cons_append, withoutComments, if_neg (Ne.symm hc), ih hcs]

/-- Text without commas lists nothing, if it does not end in the middle of a number. -/
theorem numbersBeforeCommas_append {cs : List Char} (h : ',' ∉ cs) {c : Char} (hc : c ≠ ',')
    (hdigit : c.isDigit = false) (seen : Option Nat) (rest : List Char) :
    numbersBeforeCommas seen (cs ++ c :: rest) = numbersBeforeCommas none rest := by
  induction cs generalizing seen with
  | nil => simp [numbersBeforeCommas, hc, hdigit]
  | cons d cs ih =>
    obtain ⟨hd, hcs⟩ := not_or.1 (mt List.mem_cons.2 h)
    rw [List.cons_append, numbersBeforeCommas, if_neg (Ne.symm hd)]
    split <;> exact ih hcs _

/-- A digit belongs to the number that is being read. -/
theorem numbersBeforeCommas_digit {d : Char} (hd : d.isDigit) (seen : Option Nat) (cs : List Char) :
    numbersBeforeCommas seen (d :: cs) =
      numbersBeforeCommas (some (10 * seen.getD 0 + (d.toNat - '0'.toNat))) cs := by
  have hcomma : d ≠ ',' := by
    rintro rfl
    exact absurd hd (by decide)
  rw [numbersBeforeCommas, if_neg hcomma, if_pos hd]

/-- The last digits of a number before a comma. -/
theorem numbersBeforeCommas_digits {digits : List Char} (h : ∀ d ∈ digits, d.isDigit) (n : Nat)
    (rest : List Char) :
    numbersBeforeCommas (some n) (digits ++ ',' :: rest) =
      Nat.ofDigitChars 10 digits n :: numbersBeforeCommas none rest := by
  induction digits generalizing n with
  | nil => rfl
  | cons d digits ih =>
    obtain ⟨hd, hdigits⟩ := List.forall_mem_cons.1 h
    rw [List.cons_append, numbersBeforeCommas_digit hd, ih hdigits, Nat.ofDigitChars_cons]
    rfl

/-- A number before a comma. -/
theorem numbersBeforeCommas_toDigits (n : Nat) (rest : List Char) :
    numbersBeforeCommas none (Nat.toDigits 10 n ++ ',' :: rest) =
      n :: numbersBeforeCommas none rest := by
  have hdigits : ∀ d ∈ Nat.toDigits 10 n, d.isDigit := fun d hd ↦
    Nat.isDigit_of_mem_toDigits (by decide) (by decide) hd
  have hvalue : Nat.ofDigitChars 10 (Nat.toDigits 10 n) 0 = n := Nat.ofDigitChars_ten_toDigits
  obtain ⟨d, digits, hcons⟩ := List.exists_cons_of_ne_nil (Nat.toDigits_ne_nil (n := n) (b := 10))
  rw [hcons] at hdigits hvalue ⊢
  obtain ⟨hd, htail⟩ := List.forall_mem_cons.1 hdigits
  rw [List.cons_append, numbersBeforeCommas_digit hd, numbersBeforeCommas_digits htail]
  rw [Nat.ofDigitChars_cons] at hvalue
  rw [Option.getD_none, hvalue]

/-! ## Texts that list numbers -/

/-- A text lists some numbers, whatever comes after it. -/
def Lists (text : String) (numbers : List Nat) : Prop :=
  ∀ rest : String, listedNumbers (text ++ rest) = numbers ++ listedNumbers rest

theorem Lists.listedNumbers_eq {text : String} {numbers : List Nat} (h : Lists text numbers) :
    listedNumbers text = numbers := by
  have hempty := h ""
  rwa [String.append_empty, show listedNumbers "" = [] from rfl, List.append_nil] at hempty

theorem lists_empty : Lists "" [] := by
  intro rest
  rw [String.empty_append, List.nil_append]

theorem Lists.append {text text' : String} {numbers numbers' : List Nat} (h : Lists text numbers)
    (h' : Lists text' numbers') : Lists (text ++ text') (numbers ++ numbers') := by
  intro rest
  rw [String.append_assoc, h, h', List.append_assoc]

theorem Lists.of_append {text text' : String} {numbers : List Nat} (h : Lists text [])
    (h' : Lists text' numbers) : Lists (text ++ text') numbers :=
  h.append h'

theorem Lists.append_of {text text' : String} {numbers : List Nat} (h : Lists text numbers)
    (h' : Lists text' []) : Lists (text ++ text') numbers := by
  simpa using h.append h'

/-- Texts that are joined list their numbers one after another. -/
theorem lists_join {α : Type} {text : α → String} {numbers : α → List Nat} {as : List α}
    (h : ∀ a ∈ as, Lists (text a) (numbers a)) :
    Lists (String.join (as.map text)) (as.flatMap numbers) := by
  induction as with
  | nil => exact lists_empty
  | cons a as ih =>
    obtain ⟨ha, has⟩ := List.forall_mem_cons.1 h
    rw [List.map_cons, String.join_cons, List.flatMap_cons]
    exact ha.append (ih has)

/-- Texts with others between them that list nothing. -/
theorem lists_intercalate {separator : String} (hseparator : Lists separator [])
    {texts : List String} (h : ∀ text ∈ texts, Lists text (listedNumbers text)) :
    Lists (separator.intercalate texts) (texts.flatMap listedNumbers) := by
  induction texts with
  | nil => exact lists_empty
  | cons text texts ih =>
    obtain ⟨htext, htexts⟩ := List.forall_mem_cons.1 h
    cases texts with
    | nil => simpa using htext
    | cons next texts =>
      rw [String.intercalate_cons_cons, List.flatMap_cons]
      exact (htext.append_of hseparator).append (ih htexts)

/-- Text without slashes and commas lists nothing, if it does not end in the middle of a number. -/
theorem lists_of_quiet {text : String} (hslash : '/' ∉ text.toList) (hcomma : ',' ∉ text.toList)
    (hlast : text.toList.getLast?.any Char.isDigit = false) : Lists text [] := by
  intro rest
  rw [listedNumbers, String.toList_append, withoutComments_append hslash, List.nil_append, listedNumbers]
  obtain hnil | ⟨cs, c, hconcat⟩ := List.eq_nil_or_concat text.toList
  · rw [hnil, List.nil_append]
  · rw [hconcat, List.concat_eq_append, List.mem_append, not_or, List.mem_singleton] at hcomma
    rw [hconcat, List.concat_eq_append, List.getLast?_concat] at hlast
    rw [hconcat, List.concat_eq_append, List.append_assoc]
    exact numbersBeforeCommas_append hcomma.1 (Ne.symm hcomma.2) hlast none _

theorem lists_blanks (n : Nat) : Lists (String.ofList (List.replicate n ' ')) [] := by
  have hblank {c : Char} (hc : c ∈ (String.ofList (List.replicate n ' ')).toList) : c = ' ' := by
    rw [String.toList_ofList] at hc
    exact List.eq_of_mem_replicate hc
  refine lists_of_quiet (fun h ↦ absurd (hblank h) (by decide))
    (fun h ↦ absurd (hblank h) (by decide)) ?_
  rw [String.toList_ofList, List.getLast?_replicate]
  split <;> rfl

/-- A text on one line. -/
def OneLine (text : String) : Prop := '\n' ∉ text.toList

instance (text : String) : Decidable (OneLine text) :=
  inferInstanceAs (Decidable ('\n' ∉ text.toList))

theorem OneLine.append {text text' : String} (h : OneLine text) (h' : OneLine text') :
    OneLine (text ++ text') := by
  intro hbreak
  rw [String.toList_append, List.mem_append] at hbreak
  exact hbreak.elim h h'

theorem lists_comment (blanks : Nat) {text : String} (h : OneLine text) :
    Lists (String.ofList (List.replicate blanks ' ') ++ ("//" ++ text ++ "\n")) [] := by
  refine (lists_blanks blanks).of_append fun rest ↦ ?_
  have hlist : ("//" ++ text ++ "\n" ++ rest).toList =
      '/' :: '/' :: (text.toList ++ '\n' :: rest.toList) := by
    simp
  rw [listedNumbers, hlist, withoutComments, withoutComments_of_comment h]
  rfl

/-! ## Columns -/

/-- A column of digits is on one line. -/
theorem oneLine_decimalColumn (width n : Nat) : OneLine (decimalColumn width n) := by
  rw [decimalColumn, padLeft, Nat.toString_eq_ofList_toDigits]
  apply OneLine.append
  · intro hbreak
    rw [String.toList_ofList] at hbreak
    exact absurd (List.eq_of_mem_replicate hbreak) (by decide)
  · intro hbreak
    rw [String.toList_ofList] at hbreak
    exact absurd (Nat.isDigit_of_mem_toDigits (by decide) (by decide) hbreak) (by decide)

theorem oneLine_toString (n : Nat) : OneLine (toString n) := by
  have h := oneLine_decimalColumn 0 n
  rwa [decimalColumn, padLeft_of_le (Nat.zero_le _)] at h

/-- The digits of a number before a comma are read back. -/
theorem lists_toString (n : Nat) : Lists (toString n ++ ",") [n] := by
  intro rest
  have hslash : '/' ∉ Nat.toDigits 10 n := fun hd ↦
    absurd (Nat.isDigit_of_mem_toDigits (by decide) (by decide) hd) (by decide)
  have hlist : (toString n ++ "," ++ rest).toList = Nat.toDigits 10 n ++ ',' :: rest.toList := by
    simp
  calc listedNumbers (toString n ++ "," ++ rest)
    _ = numbersBeforeCommas none
          (Nat.toDigits 10 n ++ ',' :: withoutComments false rest.toList) := by
        rw [listedNumbers, hlist, withoutComments_append hslash]
        rfl
    _ = [n] ++ listedNumbers rest := numbersBeforeCommas_toDigits n _

/-- A number before a comma is read back, however wide its column is. -/
theorem lists_decimalColumn (width n : Nat) : Lists (decimalColumn width n ++ ",") [n] := by
  rw [decimalColumn, padLeft, String.append_assoc]
  exact .of_append (lists_blanks _) (lists_toString n)

end EntropyCoding
