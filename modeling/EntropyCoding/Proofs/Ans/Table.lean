import EntropyCoding.Ans.Table

/-!
# What a table holds

A table is `Valid` if it is the one built from its own frequencies; this is so for every table that
`AnsTable.ofFrequencies` gives.  In a valid table the frequencies fill the slots, the first slot of
a symbol is the sum of the frequencies before it, and a slot belongs to a symbol exactly if it is
one of those dealt out to the symbol: `AnsTable.Valid.symbolAt_eq_iff`.

The reciprocals are exact: `AnsTable.Valid.divide_eq` says that multiplying by the reciprocal of a
frequency and dropping the fractional bits is division by the frequency, for every 32-bit number.
-/

namespace EntropyCoding

namespace AnsTable

/-! ## Sums of frequencies -/

theorem sum_take_succ (freqs : List Nat) (i : Nat) :
    (freqs.take (i + 1)).sum = (freqs.take i).sum + freqs.getD i 0 := by
  induction freqs generalizing i with
  | nil => simp
  | cons f freqs ih =>
    cases i with
    | zero => simp
    | succ i => simp [ih, Nat.add_assoc]

theorem sum_take_le (freqs : List Nat) (i : Nat) : (freqs.take i).sum ≤ freqs.sum := by
  conv => rhs; rw [← List.take_append_drop i freqs, List.sum_append]
  exact Nat.le_add_right _ _

theorem toList_foldl_starts (freqs : List Nat) (starts : Array Nat) (next : Nat) :
    (freqs.foldl (fun (starts, next) f ↦ (starts.push next, next + f)) (starts, next)).1.toList =
      starts.toList ++ (List.range freqs.length).map fun i ↦ next + (freqs.take i).sum := by
  induction freqs generalizing starts next with
  | nil => simp
  | cons f freqs ih =>
    rw [List.foldl_cons, ih, List.length_cons, List.range_succ_eq_map]
    simp [Nat.add_assoc]

theorem toList_startsOf (freqs : List Nat) :
    (startsOf freqs).toList = (List.range freqs.length).map fun i ↦ (freqs.take i).sum := by
  rw [startsOf, toList_foldl_starts]
  simp

/-! ## Slots -/

/-- The slots dealt out to symbols from `k` on. -/
def dealtSlots (freqs : List Nat) (k : Nat) : List Nat :=
  (freqs.zipIdx k).flatMap fun (f, symbol) ↦ List.replicate f symbol

theorem dealtSlots_cons (f : Nat) (freqs : List Nat) (k : Nat) :
    dealtSlots (f :: freqs) k = List.replicate f k ++ dealtSlots freqs (k + 1) := rfl

theorem length_dealtSlots (freqs : List Nat) (k : Nat) :
    (dealtSlots freqs k).length = freqs.sum := by
  induction freqs generalizing k with
  | nil => rfl
  | cons f freqs ih => rw [dealtSlots_cons, List.length_append, ih, List.length_replicate,
      List.sum_cons]

/-- A slot between two sums belongs to the symbol between them. -/
theorem getElem?_dealtSlots {freqs : List Nat} {i slot : Nat} (h : (freqs.take i).sum ≤ slot)
    (h' : slot < (freqs.take (i + 1)).sum) (k : Nat) :
    (dealtSlots freqs k)[slot]? = some (k + i) := by
  induction freqs generalizing i slot k with
  | nil => simp at h'
  | cons f freqs ih =>
    rw [dealtSlots_cons]
    cases i with
    | zero =>
      have hf : slot < f := by simpa using h'
      rw [List.getElem?_append_left (by simpa using hf), List.getElem?_replicate_of_lt hf,
        Nat.add_zero]
    | succ i =>
      rw [List.take_succ_cons, List.sum_cons] at h h'
      rw [List.getElem?_append_right (by simp; omega), List.length_replicate,
        ih (show (freqs.take i).sum ≤ slot - f by omega) (by omega), Nat.add_right_comm,
        Nat.add_assoc]

/-- Every slot lies between two sums. -/
theorem exists_sum_take_le_lt {freqs : List Nat} {slot : Nat} (h : slot < freqs.sum) :
    ∃ i < freqs.length, (freqs.take i).sum ≤ slot ∧ slot < (freqs.take (i + 1)).sum := by
  induction freqs generalizing slot with
  | nil => simp at h
  | cons f freqs ih =>
    by_cases hf : slot < f
    · exact ⟨0, by simp, by simp, by simpa using hf⟩
    · rw [List.sum_cons] at h
      obtain ⟨i, hi, hle, hlt⟩ := ih (show slot - f < freqs.sum by omega)
      refine ⟨i + 1, by simpa using hi, ?_, ?_⟩
      · rw [List.take_succ_cons, List.sum_cons]
        omega
      · rw [List.take_succ_cons, List.sum_cons]
        omega

/-! ## Valid tables -/

/-- The table is the one built from its own frequencies. -/
def Valid (t : AnsTable) : Prop :=
  ofFrequencies t.freqs.toList t.precision = .ok t

/-- What building a table checks, and what the table holds. -/
theorem ofFrequencies_eq_ok_iff {freqs : List Nat} {precision : Nat} {t : AnsTable} :
    ofFrequencies freqs precision = .ok t ↔
      isTablePrecision precision ∧ freqs.length ≤ maxAlphabet ∧ freqs.sum = 2 ^ precision ∧
        t =
          { precision
            freqs := freqs.toArray
            starts := startsOf freqs
            inverses := (freqs.map (reciprocal (reciprocalBits precision))).toArray
            slots := slotsOf freqs } := by
  unfold ofFrequencies
  constructor
  · intro h
    split at h
    · next hp =>
      split at h
      · next hl =>
        split at h
        · next hs => exact ⟨hp, hl, hs, (Except.ok.inj h).symm⟩
        · cases h
      · cases h
    · cases h
  · rintro ⟨hp, hl, hs, rfl⟩
    rw [if_pos hp, if_pos hl, if_pos hs]

theorem valid_of_ofFrequencies {freqs : List Nat} {precision : Nat} {t : AnsTable}
    (h : ofFrequencies freqs precision = .ok t) : t.Valid := by
  have ht := (ofFrequencies_eq_ok_iff.1 h).2.2.2
  unfold Valid
  rw [← h, ht]

theorem toList_freqs {freqs : List Nat} {precision : Nat} {t : AnsTable}
    (h : ofFrequencies freqs precision = .ok t) : t.freqs.toList = freqs := by
  rw [(ofFrequencies_eq_ok_iff.1 h).2.2.2]

theorem precision_eq {freqs : List Nat} {precision : Nat} {t : AnsTable}
    (h : ofFrequencies freqs precision = .ok t) : t.precision = precision := by
  rw [(ofFrequencies_eq_ok_iff.1 h).2.2.2]

namespace Valid

variable {t : AnsTable} (ht : t.Valid)
include ht

theorem precision_mem : 1 ≤ t.precision ∧ t.precision ≤ maxPrecision := by
  have h := (ofFrequencies_eq_ok_iff.1 ht).1
  simpa only [isTablePrecision, Bool.and_eq_true, decide_eq_true_eq] using h

theorem alphabetSize_le : t.alphabetSize ≤ maxAlphabet :=
  (ofFrequencies_eq_ok_iff.1 ht).2.1

theorem sum_freqs : t.freqs.toList.sum = t.size :=
  (ofFrequencies_eq_ok_iff.1 ht).2.2.1

theorem start_eq {symbol : Nat} (hs : symbol < t.alphabetSize) :
    t.start symbol = (t.freqs.toList.take symbol).sum := by
  have hstarts := congrArg AnsTable.starts (ofFrequencies_eq_ok_iff.1 ht).2.2.2
  have hlist : t.starts.toList = _ := congrArg Array.toList hstarts |>.trans (toList_startsOf _)
  have hs' : symbol < t.freqs.toList.length := hs
  rw [start, Array.getD_eq_getD_getElem?, ← Array.getElem?_toList, hlist, List.getElem?_map,
    List.getElem?_range hs']
  rfl

theorem size_starts : t.starts.size = t.alphabetSize := by
  have hstarts := congrArg AnsTable.starts (ofFrequencies_eq_ok_iff.1 ht).2.2.2
  have hlist : t.starts.toList = _ := congrArg Array.toList hstarts |>.trans (toList_startsOf _)
  rw [← Array.length_toList, hlist, List.length_map, List.length_range, Array.length_toList,
    alphabetSize]

theorem size_inverses : t.inverses.size = t.alphabetSize := by
  have hinv := congrArg AnsTable.inverses (ofFrequencies_eq_ok_iff.1 ht).2.2.2
  rw [hinv, List.size_toArray, List.length_map, Array.length_toList, alphabetSize]

theorem size_slots : t.slots.size = t.size := by
  have hslots := congrArg AnsTable.slots (ofFrequencies_eq_ok_iff.1 ht).2.2.2
  rw [hslots, ← sum_freqs ht, ← length_dealtSlots _ 0]
  rfl

theorem inverse_eq (symbol : Nat) :
    t.inverse symbol = reciprocal (reciprocalBits t.precision) (t.freq symbol) := by
  have hinv := congrArg AnsTable.inverses (ofFrequencies_eq_ok_iff.1 ht).2.2.2
  rw [inverse, hinv, freq, Array.getD_eq_getD_getElem?, Array.getD_eq_getD_getElem?]
  cases h : t.freqs[symbol]? <;> simp [h, reciprocal]

theorem symbolAt_eq_getD (slot : Nat) :
    t.symbolAt slot = (dealtSlots t.freqs.toList 0).getD slot 0 := by
  have hslots := congrArg AnsTable.slots (ofFrequencies_eq_ok_iff.1 ht).2.2.2
  rw [symbolAt, hslots, Array.getD_eq_getD_getElem?, List.getD_eq_getElem?_getD]
  simp [slotsOf, dealtSlots]

end Valid

theorem lt_alphabetSize_of_freq_pos {t : AnsTable} {symbol : Nat} (h : 0 < t.freq symbol) :
    symbol < t.alphabetSize := by
  apply Decidable.byContradiction
  intro hs
  rw [freq, Array.getD_eq_getD_getElem?, Array.getElem?_eq_none (Nat.not_lt.1 hs)] at h
  exact Nat.lt_irrefl 0 h

theorem getD_freqs (t : AnsTable) (symbol : Nat) :
    t.freqs.toList.getD symbol 0 = t.freq symbol := by
  rw [freq, Array.getD_eq_getD_getElem?, List.getD_eq_getElem?_getD, Array.getElem?_toList]

namespace Valid

variable {t : AnsTable} (ht : t.Valid)
include ht

theorem start_add_freq {symbol : Nat} (hs : symbol < t.alphabetSize) :
    t.start symbol + t.freq symbol = (t.freqs.toList.take (symbol + 1)).sum := by
  rw [sum_take_succ, ← start_eq ht hs, getD_freqs]

theorem start_add_freq_le {symbol : Nat} (hs : symbol < t.alphabetSize) :
    t.start symbol + t.freq symbol ≤ t.size := by
  rw [start_add_freq ht hs, ← sum_freqs ht]
  exact sum_take_le _ _

theorem freq_le (symbol : Nat) : t.freq symbol ≤ t.size := by
  rcases Nat.eq_zero_or_pos (t.freq symbol) with h | h
  · omega
  · have := start_add_freq_le ht (lt_alphabetSize_of_freq_pos h)
    omega

/-- The slots dealt out to a symbol are its own. -/
theorem symbolAt_eq {symbol slot : Nat} (h : t.start symbol ≤ slot)
    (h' : slot < t.start symbol + t.freq symbol) : t.symbolAt slot = symbol := by
  have hs : symbol < t.alphabetSize := lt_alphabetSize_of_freq_pos (by omega)
  rw [start_add_freq ht hs] at h'
  rw [start_eq ht hs] at h
  rw [symbolAt_eq_getD ht, List.getD_eq_getElem?_getD, getElem?_dealtSlots h h']
  simp

/-- Every slot is one of those dealt out to the symbol that owns it. -/
theorem start_le_lt {slot : Nat} (h : slot < t.size) :
    t.start (t.symbolAt slot) ≤ slot ∧
      slot < t.start (t.symbolAt slot) + t.freq (t.symbolAt slot) := by
  rw [← sum_freqs ht] at h
  obtain ⟨symbol, hs, hle, hlt⟩ := exists_sum_take_le_lt h
  rw [← start_eq ht hs] at hle
  rw [← start_add_freq ht hs] at hlt
  rw [symbolAt_eq ht hle hlt]
  exact ⟨hle, hlt⟩

theorem symbolAt_lt {slot : Nat} (h : slot < t.size) : t.symbolAt slot < t.alphabetSize := by
  have := start_le_lt ht h
  exact lt_alphabetSize_of_freq_pos (by omega)

theorem freq_lt : ∀ f ∈ t.freqs.toList, f < 2 ^ 16 := by
  intro f hf
  obtain ⟨symbol, hs, rfl⟩ := List.mem_iff_getElem.1 hf
  rw [List.getElem_eq_getD 0, getD_freqs]
  exact Nat.lt_of_le_of_lt (freq_le ht symbol)
    (Nat.pow_lt_pow_right (by decide) (Nat.lt_succ_of_le (precision_mem ht).2))

theorem slot_lt : ∀ symbol ∈ t.slots.toList, symbol < 2 ^ 16 := by
  intro symbol hsymbol
  obtain ⟨slot, hslot, rfl⟩ := List.mem_iff_getElem.1 hsymbol
  rw [Array.length_toList, size_slots ht] at hslot
  have hlt := Nat.lt_of_lt_of_le (symbolAt_lt ht hslot) (alphabetSize_le ht)
  rwa [symbolAt, Array.getD_eq_getD_getElem?, Array.getElem?_eq_getElem] at hlt

/-- A slot belongs to a symbol exactly if it is one of those dealt out to it. -/
theorem symbolAt_eq_iff {symbol slot : Nat} (h : slot < t.size) :
    t.symbolAt slot = symbol ↔
      t.start symbol ≤ slot ∧ slot < t.start symbol + t.freq symbol := by
  constructor
  · rintro rfl
    exact start_le_lt ht h
  · rintro ⟨hle, hlt⟩
    exact symbolAt_eq ht hle hlt

/-- If a symbol owns the whole table no other symbol has slots. -/
theorem eq_of_freq_eq_size {symbol symbol' : Nat} (hwhole : t.freq symbol = t.size)
    (hpos : 0 < t.freq symbol') : symbol' = symbol := by
  have hs : symbol < t.alphabetSize := lt_alphabetSize_of_freq_pos (hwhole ▸ Nat.two_pow_pos _)
  have hend := start_add_freq_le ht hs
  have hend' := start_add_freq_le ht (lt_alphabetSize_of_freq_pos hpos)
  have howner : t.symbolAt (t.start symbol') = symbol := symbolAt_eq ht (by omega) (by omega)
  exact (symbolAt_eq ht (Nat.le_refl _) (Nat.lt_add_of_pos_right hpos)).symm.trans howner

end Valid

/-! ## Division by reciprocals -/

/-- The reciprocal of `f` with `bits` fractional bits, times `f`, exceeds one by less than `f` units
of the last bit. -/
theorem reciprocal_mul (bits : Nat) {f : Nat} (hf : 0 < f) :
    2 ^ bits ≤ reciprocal bits f * f ∧ reciprocal bits f * f < 2 ^ bits + f := by
  rw [reciprocal, if_neg (by omega)]
  have hle := Nat.div_mul_le_self (2 ^ bits + f - 1) f
  have hlt := Nat.lt_div_mul_add hf (a := 2 ^ bits + f - 1)
  have := Nat.two_pow_pos bits
  omega

/-- A reciprocal is not above one. -/
theorem reciprocal_le (bits f : Nat) : reciprocal bits f ≤ 2 ^ bits := by
  rcases Nat.eq_zero_or_pos f with rfl | hf
  · exact Nat.zero_le _
  · have hlt := (reciprocal_mul bits hf).2
    apply Nat.le_of_not_lt
    intro h
    have := Nat.mul_le_mul_right f (Nat.succ_le_of_lt h)
    have := Nat.le_mul_of_pos_right (2 ^ bits) hf
    rw [Nat.succ_mul] at *
    omega

/-- The error of a reciprocal is too small to change a quotient. -/
theorem mul_reciprocal_div {bits x f : Nat} (hf : 0 < f) (h : x * f ≤ 2 ^ bits) :
    x * reciprocal bits f / 2 ^ bits = x / f := by
  obtain ⟨hle, hlt⟩ := reciprocal_mul bits hf
  have hpos := Nat.two_pow_pos bits
  refine Nat.div_eq_of_lt_le ?_ ?_
  · refine Nat.le_of_mul_le_mul_right ?_ hf
    calc x / f * 2 ^ bits * f = x / f * f * 2 ^ bits := Nat.mul_right_comm _ _ _
      _ ≤ x * (reciprocal bits f * f) := Nat.mul_le_mul (Nat.div_mul_le_self x f) hle
      _ = x * reciprocal bits f * f := (Nat.mul_assoc _ _ _).symm
  · refine Nat.lt_of_mul_lt_mul_right (a := f) ?_
    rcases Nat.eq_zero_or_pos x with rfl | hx
    · simpa using Nat.mul_pos hpos hf
    · calc x * reciprocal bits f * f = x * (reciprocal bits f * f) := Nat.mul_assoc _ _ _
        _ < x * (2 ^ bits + f) := Nat.mul_lt_mul_of_pos_left hlt hx
        _ = x * 2 ^ bits + x * f := Nat.mul_add _ _ _
        _ ≤ x * 2 ^ bits + 2 ^ bits := Nat.add_le_add_left h _
        _ = (x + 1) * 2 ^ bits := (Nat.succ_mul _ _).symm
        _ ≤ (x / f + 1) * f * 2 ^ bits :=
          Nat.mul_le_mul_right _ (Nat.succ_le_of_lt (Nat.lt_mul_of_div_lt (Nat.lt_succ_self _) hf))
        _ = (x / f + 1) * 2 ^ bits * f := Nat.mul_right_comm _ _ _

/-- A 32-bit number times a reciprocal is the quotient. -/
theorem Valid.divide_eq {t : AnsTable} (ht : t.Valid) {x symbol : Nat} (hx : x < 2 ^ 32)
    (hs : 0 < t.freq symbol) : t.divide x symbol = x / t.freq symbol := by
  have hfit : x * t.freq symbol ≤ 2 ^ reciprocalBits t.precision := by
    rw [reciprocalBits, Nat.pow_add]
    exact Nat.mul_le_mul (Nat.le_of_lt hx) (ht.freq_le symbol)
  rw [divide, ht.inverse_eq, mul_reciprocal_div hs hfit,
    Nat.mod_eq_of_lt (Nat.lt_of_le_of_lt (Nat.div_le_self _ _) hx)]

/-- The reciprocals of a table have up to 47 bits and are not above one. -/
theorem Valid.inverse_le {t : AnsTable} (ht : t.Valid) (symbol : Nat) :
    t.inverse symbol ≤ 2 ^ 47 := by
  have hp : t.precision ≤ 15 := ht.precision_mem.2
  rw [ht.inverse_eq]
  refine Nat.le_trans (reciprocal_le _ _) (Nat.pow_le_pow_right (by decide) ?_)
  unfold reciprocalBits
  omega

end AnsTable

end EntropyCoding
