import EntropyCoding.Proofs.Checked.Code
import EntropyCoding.Proofs.Checked.Split
import EntropyCoding.Proofs.Checked.Table
import EntropyCoding.Segment.Decode

/-!
# Checked models

The readers of distributions, prefix codes and the header of a segment, with checked operations.  The
loop that reads frequencies has no bound of its own: a run may be empty, so it need not come nearer
to the end of the alphabet.  It is given as many steps as there are bits left, and one more, and ends
before they are used up because each step reads bits, `Checked.agreesAt_readFrequenciesAfter`.

Each model of a segment is kept with its family, `Checked.Model`, and the header says once more which
family it is; that the two never contradict each other is part of what is shown about a decoder.
-/

namespace EntropyCoding

namespace Checked

open BitReader

def readBool : Checked BitReader Bool :=
  return (← read 1) == 1

/-- Reads a number of at most 8 bits, stored in 8 bits. -/
def readByte (width : Nat) : Checked BitReader Nat := do
  fit 8 (← read width)

def readSymbolId : Checked BitReader Nat := do
  let symbol ← readWord
  require (symbol < maxAlphabet) .symbolId
  return symbol

def readAlphabetSize (fault : StreamFault) : Checked BitReader Nat := do
  let size ← readWord
  require (2 ≤ size && size ≤ maxAlphabet) fault
  return size

theorem agrees_readBool : Agrees Inside readBool BitRead.readBool :=
  (agrees_read (by decide)).bind fun _ _ _ _ _ ↦ agrees_pure _

theorem agrees_readByte {width : Nat} (h : width ≤ 8) :
    Agrees Inside (readByte width) (BitRead.read width) := by
  rw [← bind_pure (BitRead.read width)]
  refine (agrees_read (Nat.le_trans h (by decide))).bind fun v _ _ _ hread ↦ ?_
  have hv : v < 2 ^ 8 :=
    Nat.lt_of_lt_of_le (BitRead.lt_of_read hread) (Nat.pow_le_pow_right (by decide) h)
  rw [fit_eq_ok hv]
  exact agrees_pure v

theorem agrees_readSymbolId : Agrees Inside readSymbolId EntropyCoding.readSymbolId :=
  agrees_readWord.bind fun _ _ _ _ _ ↦ agrees_require fun _ ↦ agrees_pure _

theorem agrees_readAlphabetSize (fault : StreamFault) :
    Agrees Inside (readAlphabetSize fault) (EntropyCoding.readAlphabetSize fault) :=
  agrees_readWord.bind fun _ _ _ _ _ ↦ agrees_require fun _ ↦ agrees_pure _

/-! ## Distributions -/

/-- Reads what follows the length of a frequency, after `got` frequencies of `count`. -/
def readRepeated (precision count got : Nat) (last? : Option Nat) (len : Nat) :
    Checked BitReader (Nat × Nat) :=
  if len = runEscape then
    match last? with
    | none => throw (.error (.invalidStream .runWithoutStart))
    | some last => do
      let run ← readWord
      let filled ← add 64 got run
      require (filled ≤ count) .runTooLong
      return (run, last)
  else do
    require (len ≤ precision) .frequencyWidth
    return (1, ← readBelowTop len)

/-- Reads frequencies after those in `done`, which is in the opposite order, until there are `count`
of them, in less than `fuel` steps. -/
def readFrequenciesAfter (precision count : Nat) : Nat → List Nat → Checked BitReader (List Nat)
  | 0, _ => fault .endless
  | fuel + 1, done =>
    if done.length < count then do
      let len ← read frequencyLengthWidth
      let (run, f) ← readRepeated precision count done.length done.head? len
      readFrequenciesAfter precision count fuel (List.replicate run f ++ done)
    else pure done.reverse

/-- Reads the frequencies of `count` symbols; takes no more steps than there are bits left. -/
def readFrequencies (precision count : Nat) : Checked BitReader (List Nat) := do
  let r ← get
  readFrequenciesAfter precision count (r.length - r.pos + 1) []

def singleFrequencies (size symbol : Nat) : Except Stop (List Nat) := do
  let freqs ← store (Array.replicate (symbol + 1) 0) symbol size
  .ok freqs.toList

def pairFrequencies (size first second f : Nat) : Except Stop (List Nat) := do
  let freqs ← store (Array.replicate (max first second + 1) 0) first f
  let freqs ← store freqs second (← sub size f)
  .ok freqs.toList

/-- Frequencies with the last one, which fills the table. -/
def withLast (size sum : Nat) (freqs : List Nat) : Except Stop (List Nat) := do
  .ok (freqs ++ [← sub size (← fit 32 sum)])

def readAnsTable (precision : Nat) : Checked BitReader AnsTable := do
  let size ← shiftLeft 32 1 precision
  let freqs ←
    if ← readBool then
      if ← readBool then do
        let first ← readSymbolId
        let second ← readSymbolId
        let f ← read precision
        require (first ≠ second && f ≠ 0) .symbolPair
        pairFrequencies size first second f
      else do singleFrequencies size (← readSymbolId)
    else do
      let alphabet ← readAlphabetSize .distributionAlphabet
      let freqs ← readFrequencies precision (← sub alphabet 1)
      let sum ← total 64 freqs
      require (sum < size) .frequencyExcess
      withLast size sum freqs
  ofFrequencies freqs precision

/-- A frequency or a run. -/
theorem agrees_readRepeated {precision count got : Nat} (hgot : got < count) (hcount : count ≤ 2 ^ 16)
    (hp : precision ≤ 32) (last? : Option Nat) (len : Nat) :
    Agrees Inside (readRepeated precision count got last? len)
      (EntropyCoding.readRepeated precision (count - got) last? len) := by
  unfold readRepeated EntropyCoding.readRepeated
  split
  · cases last? with
    | none => exact agrees_throw _
    | some last =>
      refine agrees_readWord.bind fun run _ _ _ hword ↦ ?_
      have hrun := BitRead.lt_of_readWord hword
      have hfits : decide (got + run ≤ count) = decide (run ≤ count - got) :=
        decide_eq_decide.2 (by omega)
      refine .step (add_eq_ok (by omega)) ?_
      rw [hfits]
      exact agrees_require fun _ ↦ agrees_pure _
  · refine agrees_require fun hrequire ↦ ?_
    have hlen : len ≤ precision := of_decide_eq_true hrequire
    exact (agrees_readBelowTop (Nat.le_trans hlen hp)).bind fun _ _ _ _ _ ↦ agrees_pure _

/-- Reading frequencies ends.  The induction is on the steps that are left; each takes a bit at
least. -/
theorem agreesAt_readFrequenciesAfter {precision count fuel : Nat} (hcount : count ≤ 2 ^ 16)
    (hp : precision ≤ 32) {done : List Nat} (hdone : done.length ≤ count) {r : BitReader}
    (hr : r.Inside) (hfuel : r.length - r.pos < fuel) :
    AgreesAt Inside (readFrequenciesAfter precision count fuel done)
      (EntropyCoding.readFrequenciesAfter precision (count - done.length) done) r := by
  induction fuel generalizing done r with
  | zero => omega
  | succ fuel ih =>
    rw [readFrequenciesAfter]
    by_cases hlt : done.length < count
    · rw [if_pos hlt, readFrequenciesAfter_eq (by omega)]
      refine (agrees_read (by decide) hr).bind fun len r₁ hlen h₁ ↦ ?_
      refine (agrees_readRepeated hlt hcount hp _ len h₁).bind fun ⟨run, f⟩ r₂ hrepeated h₂ ↦ ?_
      have hrun := (mem_of_readRepeated hp (by omega) hrepeated).1
      have hless := bitsLeft_readRepeated_lt hlen hrepeated
      have hlength : (List.replicate run f ++ done).length = run + done.length := by
        rw [List.length_append, List.length_replicate]
      have hnext := ih (show (List.replicate run f ++ done).length ≤ count by omega) h₂ (by omega)
      rwa [hlength, Nat.add_comm, Nat.sub_add_eq] at hnext
    · have hleft : count - done.length = 0 := by omega
      rw [if_neg hlt, hleft, readFrequenciesAfter_zero]
      exact agrees_pure _ hr

theorem agrees_readFrequencies {precision count : Nat} (hcount : count ≤ 2 ^ 16)
    (hp : precision ≤ 32) :
    Agrees Inside (readFrequencies precision count)
      (EntropyCoding.readFrequencies precision count) := by
  intro r hr
  have h := agreesAt_readFrequenciesAfter hcount hp (show [].length ≤ count from Nat.zero_le _) hr
    (Nat.lt_succ_self (r.length - r.pos))
  exact .of_eq (get_bind _ r) rfl h

theorem singleFrequencies_eq (precision symbol : Nat) :
    singleFrequencies (2 ^ precision) symbol =
      .ok (EntropyCoding.singleFrequencies precision symbol) := by
  have hsymbol : symbol < (Array.replicate (symbol + 1) 0).size := by simp
  rw [singleFrequencies, bind_of_eq_ok (store_eq_ok hsymbol _), Array.toList_setIfInBounds,
    Array.toList_replicate, List.replicate_succ', List.set_append_right _ _ (by simp),
    List.length_replicate, Nat.sub_self]
  rfl

/-- Two symbols share the slots. -/
theorem pairFrequencies_eq {precision first second f : Nat} (hne : first ≠ second)
    (hf : f ≤ 2 ^ precision) :
    pairFrequencies (2 ^ precision) first second f =
      .ok (EntropyCoding.pairFrequencies precision first second f) := by
  have hfirst : first < (Array.replicate (max first second + 1) 0).size := by
    rw [Array.size_replicate]
    omega
  have hsecond : second < ((Array.replicate (max first second + 1) 0).setIfInBounds first f).size := by
    rw [Array.size_setIfInBounds, Array.size_replicate]
    omega
  rw [pairFrequencies, bind_of_eq_ok (store_eq_ok hfirst f), bind_of_eq_ok (sub_eq_ok hf),
    bind_of_eq_ok (store_eq_ok hsecond _), Array.toList_setIfInBounds, Array.toList_setIfInBounds,
    Array.toList_replicate]
  congr 1
  apply List.ext_getElem (by simp [EntropyCoding.pairFrequencies])
  intro symbol h h'
  simp only [EntropyCoding.pairFrequencies, List.getElem_set, List.getElem_replicate,
    List.getElem_map, List.getElem_range]
  by_cases hs : second = symbol
  · subst hs
    rw [if_pos rfl, if_neg hne.symm, if_pos rfl]
  · rw [if_neg hs, if_neg (Ne.symm hs)]
    by_cases hs' : first = symbol
    · rw [if_pos hs', if_pos hs'.symm]
    · rw [if_neg hs', if_neg (Ne.symm hs')]

theorem withLast_eq {precision : Nat} (hp : precision < 32) {freqs : List Nat}
    (h : freqs.sum < 2 ^ precision) :
    withLast (2 ^ precision) freqs.sum freqs = .ok (freqs ++ [2 ^ precision - freqs.sum]) := by
  have hfit := Nat.lt_trans h (Nat.pow_lt_pow_right (by decide) hp)
  rw [withLast, bind_of_eq_ok (fit_eq_ok hfit), bind_of_eq_ok (sub_eq_ok (Nat.le_of_lt h))]

/-- A distribution, in any of its forms. -/
theorem agrees_readAnsTable {precision : Nat} (hp : precision < 32) :
    Agrees Inside (readAnsTable precision) (EntropyCoding.readAnsTable precision) := by
  have hpow : 2 ^ precision < 2 ^ 32 := Nat.pow_lt_pow_right (by decide) hp
  have hbuild : ∀ freqs : List Nat, (∀ f ∈ freqs, f < 2 ^ 32) →
      Agrees Inside (liftM (ofFrequencies freqs precision))
        (ofExcept (AnsTable.ofFrequencies freqs precision)) :=
    fun freqs h ↦ agrees_liftM (ofFrequencies_eq precision h)
  refine .step (shiftLeft_one hp) (agrees_readBool.bind fun short _ _ _ _ ↦ ?_)
  cases short with
  | true =>
    refine agrees_readBool.bind fun pair _ _ _ _ ↦ ?_
    cases pair with
    | true =>
      refine agrees_readSymbolId.bind fun first _ _ _ _ ↦ ?_
      refine agrees_readSymbolId.bind fun second _ _ _ _ ↦ ?_
      refine (agrees_read (Nat.le_of_lt hp)).bind fun f _ _ _ hf ↦ ?_
      refine agrees_require fun hok ↦ ?_
      rw [Bool.and_eq_true, decide_eq_true_eq, decide_eq_true_eq] at hok
      have hlt := BitRead.lt_of_read hf
      refine .step (pairFrequencies_eq hok.1 (Nat.le_of_lt hlt)) (hbuild _ ?_)
      intro g hg
      obtain ⟨symbol, -, rfl⟩ := List.mem_map.1 hg
      split
      · omega
      · split <;> omega
    | false =>
      rw [map_eq_pure_bind, bind_assoc]
      refine agrees_readSymbolId.bind fun symbol _ _ _ _ ↦ ?_
      refine .step (singleFrequencies_eq precision symbol) (hbuild _ ?_)
      intro g hg
      rcases List.mem_append.1 hg with hg | hg
      · rw [(List.mem_replicate.1 hg).2]
        decide
      · rw [List.mem_singleton.1 hg]
        exact hpow
  | false =>
    refine (agrees_readAlphabetSize _).bind fun alphabet _ _ _ halphabet ↦ ?_
    obtain ⟨htwo, hmax⟩ := mem_of_readAlphabetSize halphabet
    have hmax : alphabet ≤ 2 ^ 16 := hmax
    refine .step (sub_eq_ok (by omega)) ?_
    refine (agrees_readFrequencies (by omega) (Nat.le_of_lt hp)).bind fun freqs _ _ _ hfreqs ↦ ?_
    obtain ⟨hlength, hall⟩ := mem_of_readFrequencies (Nat.le_of_lt hp) hfreqs
    refine .step (total_eq_ok (sum_lt_two_pow (by omega) hall)) ?_
    refine agrees_require fun hrequire ↦ ?_
    have hsum := of_decide_eq_true hrequire
    refine .step (withLast_eq hp hsum) (hbuild _ ?_)
    intro g hg
    rcases List.mem_append.1 hg with hg | hg
    · exact hall g hg
    · rw [List.mem_singleton.1 hg]
      omega

/-! ## Prefix codes -/

def readPrefixCode : Checked BitReader PrefixCode := do
  let depths ←
    if ← readBool then (fun symbol ↦ List.replicate (symbol + 1) 0) <$> readSymbolId
    else do
      let size ← readAlphabetSize .codeAlphabet
      manyAfter (readByte 4) size []
  ofDepths depths

/-- A prefix code, in either of its forms. -/
theorem agrees_readPrefixCode : Agrees Inside readPrefixCode EntropyCoding.readPrefixCode := by
  have hbuild : ∀ depths : List Nat, depths.length ≤ 2 ^ 16 →
      Agrees Inside (liftM (ofDepths depths)) (ofExcept (PrefixCode.ofDepths depths)) :=
    fun depths h ↦ agrees_liftM (ofDepths_eq h)
  refine agrees_readBool.bind fun short _ _ _ _ ↦ ?_
  cases short with
  | true =>
    refine (agrees_readSymbolId.map _).bind fun depths _ _ _ hdepths ↦ hbuild depths ?_
    obtain ⟨symbol, hsymbol, rfl⟩ := map_eq_ok_iff.1 hdepths
    rw [List.length_replicate]
    exact lt_of_readSymbolId hsymbol
  | false =>
    refine (agrees_readAlphabetSize _).bind fun size _ _ _ hsize ↦ ?_
    refine (agrees_manyAfter (agrees_readByte (by decide)) size []).bind fun depths _ _ _ hdepths ↦ ?_
    refine hbuild depths ?_
    rw [(BitRead.exists_of_many hdepths).1]
    exact (mem_of_readAlphabetSize hsize).2

/-! ## The header -/

def readSplit : Checked BitReader TokenSplit := do
  let exponent ← read 4
  let high ← read (ceilLog2 (← add 32 exponent 1))
  require (high ≤ exponent) .splitHighBits
  let low ← read (ceilLog2 (← add 32 (← sub exponent high) 1))
  match ofParameters exponent high low with
  | .ok s => pure s
  | .error (.error _) => throw (.error (.invalidStream .splitFields))
  | .error (.fault f) => fault f

def readMap (n : Nat) : Checked BitReader ContextMap := do
  let width ← read 4
  require (width ≤ 8) .entryWidth
  let entries ← manyAfter (readByte width) n []
  return .ofEntries (entries.map UInt8.ofNat).toArray

/-- A model of either family. -/
inductive Model
  /-- A distribution for range coding. -/
  | ans (table : AnsTable)
  /-- A prefix code. -/
  | prefixCode (code : PrefixCode)

/-- Models, with what their header says of them. -/
structure Models where
  /-- Whether the header announces prefix codes. -/
  usesPrefixCodes : Bool
  /-- The split announced in the header. -/
  split : TokenSplit
  /-- The models, each with its family. -/
  models : Array Model

def Models.ofSegment (models : SegmentModels) : Models where
  usesPrefixCodes := models.table.isPrefixCodes
  split := models.split
  models := match models.table with
    | .ans tables => tables.map .ans
    | .prefixCodes codes => codes.map .prefixCode

def readModels (count : Nat) : Checked BitReader Models := do
  let usesPrefixCodes ← readBool
  let precision ← add 32 (← read 3) leastStreamPrecision
  let split ← readSplit
  let item :=
    if usesPrefixCodes then Model.prefixCode <$> readPrefixCode
    else Model.ans <$> readAnsTable precision
  let models ← manyAfter item count []
  return { usesPrefixCodes, split, models := models.toArray }

/-- Items that are kept in another form are read one after another. -/
theorem agrees_manyAfter_map {α β : Type} {item' : Checked BitReader α} {item : BitRead α}
    (h : Agrees Inside item' item) (f : α → β) (n : Nat) (done : List α) :
    Agrees Inside (manyAfter (f <$> item') n (done.map f))
      (List.map f <$> BitRead.manyAfter item n done) := by
  induction n generalizing done with
  | zero =>
    rw [manyAfter, BitRead.manyAfter_zero, map_pure, List.map_reverse]
    exact agrees_pure _
  | succ n ih =>
    rw [manyAfter, BitRead.manyAfter_succ, bind_map_left, map_bind]
    exact h.bind fun a _ _ _ _ ↦ ih (a :: done)

theorem ceilLog2_le_four {n : Nat} (h : n ≤ 16) : ceilLog2 n ≤ 4 :=
  ceilLog2_le_iff.2 h

/-- The split of values. -/
theorem agrees_readSplit : Agrees Inside readSplit TokenSplit.read := by
  refine (agrees_read (by decide)).bind fun exponent _ _ _ hexponent ↦ ?_
  have hexponent : exponent < 2 ^ 4 := BitRead.lt_of_read hexponent
  refine .step (add_eq_ok (by omega)) ?_
  have hwidth : ceilLog2 (exponent + 1) ≤ 32 :=
    Nat.le_trans (ceilLog2_le_four (by omega)) (by decide)
  refine (agrees_read hwidth).bind fun high _ _ _ _ ↦ ?_
  refine agrees_require fun hrequire ↦ ?_
  have hhigh : high ≤ exponent := of_decide_eq_true hrequire
  refine .step (sub_eq_ok hhigh) (.step (add_eq_ok (by omega)) ?_)
  have hwidth' : ceilLog2 (exponent - high + 1) ≤ 4 := ceilLog2_le_four (by omega)
  refine (agrees_read (Nat.le_trans hwidth' (by decide))).bind fun low _ _ _ hlow ↦ ?_
  have hlow : low < 2 ^ 4 :=
    Nat.lt_of_lt_of_le (BitRead.lt_of_read hlow) (Nat.pow_le_pow_right (by decide) hwidth')
  rw [ofParameters_eq, if_neg (by omega)]
  cases TokenSplit.ofParameters exponent high low with
  | ok s => exact agrees_pure s
  | error e => exact agrees_throw _

theorem agrees_readMap (n : Nat) : Agrees Inside (readMap n) (ContextMap.read n) := by
  refine (agrees_read (by decide)).bind fun width _ _ _ _ ↦ ?_
  refine agrees_require fun hrequire ↦ ?_
  have hwidth : width ≤ 8 := of_decide_eq_true hrequire
  exact (agrees_manyAfter (agrees_readByte hwidth) n []).bind fun _ _ _ _ _ ↦ agrees_pure _

/-- The header and the models. -/
theorem agrees_readModels (count : Nat) :
    Agrees Inside (readModels count) (Models.ofSegment <$> EntropyCoding.readModels count) := by
  rw [EntropyCoding.readModels, map_bind]
  refine agrees_readBool.bind fun usesPrefixCodes _ _ _ _ ↦ ?_
  rw [map_bind]
  refine (agrees_read (by decide)).bind fun excess _ _ _ hexcess ↦ ?_
  have hexcess : excess < 2 ^ 3 := BitRead.lt_of_read hexcess
  have hprecision : excess + leastStreamPrecision < 32 := Nat.lt_of_lt_of_le
    (Nat.add_lt_add_right hexcess _) (by decide)
  refine .step (add_eq_ok (Nat.lt_trans hprecision (by decide))) ?_
  dsimp only
  rw [map_bind]
  refine agrees_readSplit.bind fun split _ _ _ _ ↦ ?_
  cases usesPrefixCodes with
  | true =>
    rw [if_pos rfl, if_pos rfl, map_bind]
    refine (agrees_manyAfter_map agrees_readPrefixCode Model.prefixCode count []).bind_map
      fun codes _ _ _ _ ↦ ?_
    rw [← List.map_toArray]
    exact agrees_pure _
  | false =>
    rw [if_neg Bool.false_ne_true, if_neg Bool.false_ne_true, map_bind]
    refine (agrees_manyAfter_map (agrees_readAnsTable hprecision) Model.ans count []).bind_map
      fun tables _ _ _ _ ↦ ?_
    rw [← List.map_toArray]
    exact agrees_pure _

end Checked

end EntropyCoding
