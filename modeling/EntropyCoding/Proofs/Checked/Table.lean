import EntropyCoding.Proofs.Ans.Inverse
import EntropyCoding.Proofs.Checked.Agreement

/-!
# Checked tables

A table is built in one pass over its frequencies, which keeps the number of the symbol and the slots
dealt out so far.  Frequencies and symbols are stored in 16 bits each, slots are numbered in 32 bits,
and reciprocals have 64.  For frequencies of 32 bits all of this fits: `Checked.ofFrequencies_eq`.
Every slot of the table belongs to one symbol: `Checked.slots_partition`.

A reciprocal is kept for every symbol with slots, and stands in for the division by its frequency:
`Checked.divide_exact`.
-/

namespace EntropyCoding

namespace Checked

/-- `2 ^ (32 + precision) / f`, rounded up, in 64 bits; zero for a symbol without slots. -/
def reciprocal (precision f : Nat) : Except Stop Nat :=
  if f = 0 then .ok 0
  else do
    let one ← shiftLeft 64 1 (← add 32 32 precision)
    let top ← sub (← add 64 one f) 1
    .ok (top / f)

/-- What a table keeps about symbols. -/
structure TableParts where
  /-- The first slot of each symbol. -/
  starts : List Nat
  /-- The reciprocal of each frequency. -/
  inverses : List Nat
  /-- The symbol of each slot. -/
  slots : List Nat

/-- The parts for the frequencies of symbols from `symbol` on, whose slots begin at `start`. -/
def tableParts (precision : Nat) : List Nat → Nat → Nat → Except Stop TableParts
  | [], _, _ => .ok ⟨[], [], []⟩
  | f :: freqs, symbol, start => do
    let inverse ← reciprocal precision f
    let stored ← fit 16 symbol
    let next ← add 32 start f
    let parts ← tableParts precision freqs (symbol + 1) next
    .ok ⟨start :: parts.starts, inverse :: parts.inverses, List.replicate f stored ++ parts.slots⟩

/-- The table of frequencies that fill it. -/
def ofFrequencies (freqs : List Nat) (precision : Nat) : Except Stop AnsTable :=
  if isTablePrecision precision then
    if freqs.length ≤ maxAlphabet then do
      let size ← shiftLeft 32 1 precision
      let sum ← total 64 freqs
      if sum = size then do
        let parts ← tableParts precision freqs 0 0
        let stored ← freqs.mapM (fit 16)
        .ok
          { precision
            freqs := stored.toArray
            starts := parts.starts.toArray
            inverses := parts.inverses.toArray
            slots := parts.slots.toArray }
      else .error (.error (.invalidStream .frequencySum))
    else .error (.error (.alphabetSizeExceeded freqs.length maxAlphabet))
  else .error (.error (.invalidConfig .tablePrecision))

/-- A reciprocal fits 64 bits. -/
theorem reciprocal_eq {precision f : Nat} (hp : precision ≤ 15) (hf : f ≤ 2 ^ 32) :
    reciprocal precision f = .ok (AnsTable.reciprocal (AnsTable.reciprocalBits precision) f) := by
  rw [reciprocal, AnsTable.reciprocal, AnsTable.reciprocalBits]
  by_cases hzero : f = 0
  · rw [if_pos hzero, if_pos hzero]
  · have hpow : 2 ^ (32 + precision) ≤ 2 ^ 47 := Nat.pow_le_pow_right (by decide) (by omega)
    have hpos : 0 < 2 ^ (32 + precision) := Nat.two_pow_pos _
    rw [if_neg hzero, if_neg hzero, bind_of_eq_ok (add_eq_ok (by omega)),
      bind_of_eq_ok (shiftLeft_one (by omega)), bind_of_eq_ok (add_eq_ok (by omega)),
      bind_of_eq_ok (sub_eq_ok (by omega))]

/-- The parts are those that a table keeps. -/
theorem tableParts_eq {precision : Nat} (hp : precision ≤ 15) {freqs : List Nat} {symbol start : Nat}
    (hsymbol : symbol + freqs.length ≤ 2 ^ 16) (hstart : start + freqs.sum ≤ 2 ^ 15) :
    tableParts precision freqs symbol start = .ok
      { starts := (List.range freqs.length).map fun i ↦ start + (freqs.take i).sum
        inverses := freqs.map (AnsTable.reciprocal (AnsTable.reciprocalBits precision))
        slots := AnsTable.dealtSlots freqs symbol } := by
  induction freqs generalizing symbol start with
  | nil => rfl
  | cons f freqs ih =>
    rw [List.sum_cons] at hstart
    rw [List.length_cons] at hsymbol
    rw [tableParts, bind_of_eq_ok (reciprocal_eq hp (by omega)),
      bind_of_eq_ok (fit_eq_ok (by omega)), bind_of_eq_ok (add_eq_ok (by omega)),
      bind_of_eq_ok (ih (by omega) (by omega)), List.length_cons, List.range_succ_eq_map]
    simp [AnsTable.dealtSlots_cons, Nat.add_assoc]

/-- A table of frequencies of 32 bits is built without a fault. -/
theorem ofFrequencies_eq {freqs : List Nat} (precision : Nat) (h : ∀ f ∈ freqs, f < 2 ^ 32) :
    ofFrequencies freqs precision = embedExcept (AnsTable.ofFrequencies freqs precision) := by
  rw [ofFrequencies, AnsTable.ofFrequencies]
  by_cases hprecision : isTablePrecision precision
  · have hp : precision ≤ 15 := by
      rw [isTablePrecision, Bool.and_eq_true, decide_eq_true_eq, decide_eq_true_eq] at hprecision
      exact hprecision.2
    rw [if_pos hprecision, if_pos hprecision]
    by_cases hlength : freqs.length ≤ maxAlphabet
    · have hshort : freqs.length ≤ 2 ^ 32 := Nat.le_trans hlength (by decide)
      rw [if_pos hlength, if_pos hlength, bind_of_eq_ok (shiftLeft_one (by omega)),
        bind_of_eq_ok (total_eq_ok (sum_lt_two_pow hshort h))]
      by_cases hsum : freqs.sum = 2 ^ precision
      · have hfull : freqs.sum ≤ 2 ^ 15 := hsum ▸ Nat.pow_le_pow_right (by decide) hp
        have hstored : ∀ f ∈ freqs, f < 2 ^ 16 := by
          intro f hf
          obtain ⟨before, behind, rfl⟩ := List.append_of_mem hf
          rw [List.sum_append, List.sum_cons] at hfull
          omega
        rw [if_pos hsum, if_pos hsum,
          bind_of_eq_ok (tableParts_eq hp (by rwa [Nat.zero_add]) (by rwa [Nat.zero_add])),
          bind_of_eq_ok (mapM_eq_ok fun f hf ↦ fit_eq_ok (hstored f hf)), List.map_id']
        have hstarts : ((List.range freqs.length).map fun i ↦ 0 + (freqs.take i).sum).toArray =
            AnsTable.startsOf freqs := by
          apply Array.toList_inj.1
          rw [AnsTable.toList_startsOf]
          simp
        rw [hstarts]
        rfl
      · rw [if_neg hsum, if_neg hsum]
        rfl
    · rw [if_neg hlength, if_neg hlength]
      rfl
  · rw [if_neg hprecision, if_neg hprecision]
    rfl

/-! ## Slots -/

/-- A table of frequencies of 32 bits is built exactly if they fill it and there is room for the ids of
their symbols; what stops it otherwise is an error and no fault.  The table has every frequency and
every symbol as it was, although these are stored in 16 bits.  It has an entry for every slot, and the
entry is a symbol exactly if the slot is one of those dealt out to that symbol. -/
theorem slots_partition {freqs : List Nat} (hfreqs : ∀ f ∈ freqs, f < 2 ^ 32) (precision : Nat) :
    ((∃ t, ofFrequencies freqs precision = .ok t) ↔ (1 ≤ precision ∧ precision ≤ 15) ∧
      freqs.length ≤ 2 ^ 16 ∧ freqs.sum = 2 ^ precision) ∧
    (∀ stop, ofFrequencies freqs precision = .error stop → ∃ e, stop = .error e) ∧
    ∀ t, ofFrequencies freqs precision = .ok t →
      t.precision = precision ∧ t.freqs.toList = freqs ∧ t.slots.size = 2 ^ precision ∧
      (∀ f ∈ t.freqs.toList, f < 2 ^ 16) ∧ (∀ symbol ∈ t.slots.toList, symbol < 2 ^ 16) ∧
      ∀ slot < 2 ^ precision, ∀ symbol, item t.slots slot = .ok symbol ↔
        ∃ start, item t.starts symbol = .ok start ∧ start ≤ slot ∧
          slot < start + t.freq symbol := by
  rw [ofFrequencies_eq precision hfreqs]
  simp only [embedExcept_eq_ok_iff]
  refine ⟨?_, fun stop ↦ exists_of_embedExcept_eq_error, fun t ht ↦ ?_⟩
  · simp only [AnsTable.ofFrequencies_eq_ok_iff, exists_and_left, exists_eq, and_true,
      isTablePrecision, Bool.and_eq_true, decide_eq_true_eq]
    rfl
  · have hvalid := AnsTable.valid_of_ofFrequencies ht
    obtain rfl := AnsTable.precision_eq ht
    refine ⟨rfl, AnsTable.toList_freqs ht, hvalid.size_slots, hvalid.freq_lt, hvalid.slot_lt, ?_⟩
    intro slot hslot symbol
    constructor
    · intro hitem
      obtain ⟨-, rfl⟩ := item_eq_ok_iff.1 hitem
      have hs := hvalid.symbolAt_lt hslot
      exact ⟨_, item_eq_getD (hvalid.size_starts.symm ▸ hs), hvalid.start_le_lt hslot⟩
    · rintro ⟨start, hitem, hle, hlt⟩
      obtain ⟨-, rfl⟩ := item_eq_ok_iff.1 hitem
      exact item_eq_ok_iff.2 ⟨hvalid.size_slots.symm ▸ hslot, hvalid.symbolAt_eq hle hlt⟩

/-- Slot 8 of 16 is the first one of symbol 2, since symbol 0 has eight and symbol 1 has none. -/
theorem slots_partition_gap : (∀ f ∈ [8, 0, 5, 3], f < 2 ^ 32) ∧
    ∃ t, ofFrequencies [8, 0, 5, 3] 4 = .ok t ∧ 8 < 2 ^ 4 ∧ item t.starts 2 = .ok 8 ∧
      8 < 8 + t.freq 2 ∧ item t.slots 8 = .ok 2 := by
  have hfreqs : ∀ f ∈ [8, 0, 5, 3], f < 2 ^ 32 := by decide
  obtain ⟨hbuilt, -, hpartition⟩ := slots_partition hfreqs 4
  obtain ⟨t, ht⟩ := hbuilt.2 (by decide)
  obtain ⟨-, -, -, -, -, hslots⟩ := hpartition t ht
  have hstart : item t.starts 2 = .ok 8 := by
    cases ht
    rfl
  have hlt : 8 < 8 + t.freq 2 := by
    cases ht
    decide
  exact ⟨hfreqs, t, ht, by decide, hstart, hlt, (hslots 8 (by decide) 2).2 ⟨8, hstart, Nat.le_refl 8, hlt⟩⟩

/-! ## Division -/

/-- A table of frequencies of 32 bits keeps a reciprocal of 64 bits for each of them.  For a symbol with
slots the reciprocal gives the quotient of every number of 32 bits by the frequency, rounded down, and
no number on the way is too large for its width. -/
theorem divide_exact {freqs : List Nat} (hfreqs : ∀ f ∈ freqs, f < 2 ^ 32) {precision : Nat}
    {t : AnsTable} (ht : AnsTable.ofFrequencies freqs precision = .ok t) {symbol : Nat}
    (hs : 0 < freqs.getD symbol 0) :
    ofFrequencies freqs precision = .ok t ∧ t.freq symbol = freqs.getD symbol 0 ∧
      t.inverse symbol < 2 ^ 64 ∧ ∀ x < 2 ^ 32,
        t.divide x symbol = x / freqs.getD symbol 0 ∧
          divide t x symbol = .ok (x / freqs.getD symbol 0) := by
  have hvalid := AnsTable.valid_of_ofFrequencies ht
  have hfreq : t.freq symbol = freqs.getD symbol 0 := by
    rw [← t.getD_freqs symbol, AnsTable.toList_freqs ht]
  have hchecked : ofFrequencies freqs precision = .ok t := by
    rw [ofFrequencies_eq precision hfreqs, ht]
    rfl
  have hinverse : t.inverse symbol < 2 ^ 64 :=
    Nat.lt_of_le_of_lt (hvalid.inverse_le symbol) (by decide)
  rw [← hfreq] at hs ⊢
  exact ⟨hchecked, rfl, hinverse, fun x hx ↦ ⟨hvalid.divide_eq hx hs, divide_eq hvalid hs hx⟩⟩

/-- The largest number of 32 bits that is one less than a multiple of a frequency. -/
theorem divide_exact_below_multiple : ∃ t, AnsTable.ofFrequencies [3, 2 ^ 15 - 3] 15 = .ok t ∧
    131084 * (2 ^ 15 - 3) - 1 < 2 ^ 32 ∧ 2 ^ 32 ≤ 131085 * (2 ^ 15 - 3) - 1 ∧
      divide t (131084 * (2 ^ 15 - 3) - 1) 1 = .ok 131083 := by
  obtain ⟨t, ht⟩ : ∃ t, AnsTable.ofFrequencies [3, 2 ^ 15 - 3] 15 = .ok t := ⟨_, rfl⟩
  have hfreqs : ∀ f ∈ [3, 2 ^ 15 - 3], f < 2 ^ 32 := by decide
  have hs : 0 < [3, 2 ^ 15 - 3].getD 1 0 := by decide
  have hx : 131084 * (2 ^ 15 - 3) - 1 < 2 ^ 32 := by decide
  obtain ⟨-, -, -, hdivide⟩ := divide_exact hfreqs ht hs
  exact ⟨t, ht, hx, by decide, (hdivide _ hx).2⟩

end Checked

end EntropyCoding
