import EntropyCoding.Model.Read
import EntropyCoding.Proofs.Ans.Frequencies
import EntropyCoding.Proofs.Ans.Table
import EntropyCoding.Proofs.Bits.Number

/-!
# Distributions are read back

A distribution is sent in one of three forms, depending on how many symbols have slots.  In the
forms of one and of two symbols the alphabet ends with the last of them; the longest form leaves out
the last frequency.  So a table can be told from its fields if its alphabet ends with a symbol that
has slots, `takes_readAnsTable`.

Frequencies are read along the runs that the writer made of them, `takes_readFrequenciesAfter`: the
frequency that a run repeats is the one read last.

The reader accepts other forms of a distribution too, but whichever it has read, the table is valid and
ends with a symbol that has slots, `exists_freqs_of_readAnsTable`.
-/

namespace EntropyCoding

open BitRead

/-! ## Runs -/

/-- Reading frequencies, one step at a time. -/
theorem readFrequenciesAfter_eq {precision left : Nat} (hleft : left ≠ 0) (done : List Nat) :
    readFrequenciesAfter precision left done = (do
      let len ← read frequencyLengthWidth
      let (run, f) ← readRepeated precision left done.head? len
      readFrequenciesAfter precision (left - run) (List.replicate run f ++ done) :
        BitRead (List Nat)) := by
  funext r
  rw [readFrequenciesAfter, if_neg hleft]
  split
  · next h => exact (bind_of_error h _).symm
  · next len r₁ h =>
    refine Eq.trans ?_ (bind_of_ok h _).symm
    split
    · next h' => exact (bind_of_error h' _).symm
    · next run f r₂ h' => rw [bind_of_ok h']

theorem readFrequenciesAfter_zero (precision : Nat) (done : List Nat) :
    readFrequenciesAfter precision 0 done = (pure done.reverse : BitRead (List Nat)) := by
  funext r
  rw [readFrequenciesAfter, if_pos rfl]
  rfl

section Runs

variable {precision left : Nat} {done freqs : List Nat} {bits : List Bool} (hleft : left ≠ 0)
include hleft

/-- A frequency is taken before the others. -/
theorem takes_readFrequency {f : Nat} (hp : precision < runEscape) (hf : bitLength f ≤ precision)
    (h : Takes (readFrequenciesAfter precision (left - 1) (f :: done)) bits freqs) :
    Takes (readFrequenciesAfter precision left done) (fieldBits (frequencyFields f) ++ bits)
      freqs := by
  have hlen : bitLength f < 2 ^ frequencyLengthWidth :=
    Nat.lt_trans (Nat.lt_of_le_of_lt hf hp) (by decide)
  have hrepeated : Takes (readRepeated precision left done.head? (bitLength f))
      (fieldBits (belowTopFields f)) (1, f) := by
    unfold readRepeated
    rw [if_neg (Nat.ne_of_lt (Nat.lt_of_le_of_lt hf hp))]
    exact (takes_require (decide_eq_true hf) _).bind_nil ((takes_readBelowTop f).bind_pure _)
  rw [readFrequenciesAfter_eq hleft, frequencyFields, numberFields_eq, fieldBits_cons,
    List.append_assoc]
  refine (takes_read hlen).bind ?_
  exact hrepeated.bind h

/-- A run is taken before the others. -/
theorem takes_readRun {run last : Nat} (hrun : run ≤ left) (hword : run < 2 ^ 32)
    (h : Takes (readFrequenciesAfter precision (left - run)
      (List.replicate run last ++ last :: done)) bits freqs) :
    Takes (readFrequenciesAfter precision left (last :: done))
      (fieldBits (⟨runEscape, frequencyLengthWidth⟩ :: wordFields run) ++ bits) freqs := by
  have hrepeated : Takes (readRepeated precision left (some last) runEscape)
      (fieldBits (wordFields run)) (run, last) := by
    unfold readRepeated
    rw [if_pos rfl, ← List.append_nil (fieldBits _)]
    exact (takes_readWord hword).bind
      ((takes_require (decide_eq_true hrun) _).bind_nil (takes_pure _))
  rw [readFrequenciesAfter_eq hleft, fieldBits_cons, List.append_assoc]
  refine (takes_read (by decide : runEscape < 2 ^ frequencyLengthWidth)).bind ?_
  exact hrepeated.bind h

end Runs

/-- What a run stands for is that many repetitions. -/
theorem replicate_append_drop (f : Nat) (freqs : List Nat) :
    List.replicate (freqs.takeWhile (· == f)).length f
      ++ freqs.drop (freqs.takeWhile (· == f)).length = freqs := by
  induction freqs with
  | nil => rfl
  | cons g freqs ih =>
    by_cases h : (g == f) = true
    · rw [List.takeWhile_cons_of_pos (p := (· == f)) h, List.length_cons, List.replicate_succ,
        List.cons_append, List.drop_succ_cons, ih, eq_of_beq h]
    · rw [List.takeWhile_cons_of_neg (p := (· == f)) h]
      rfl

/-- Frequencies are read back along their runs. -/
theorem takes_readFrequenciesAfter {precision : Nat} {freqs : List Nat} (hp : precision < runEscape)
    (hlen : freqs.length < 2 ^ 32) (hf : ∀ f ∈ freqs, bitLength f ≤ precision) (done : List Nat) :
    Takes (readFrequenciesAfter precision freqs.length done) (fieldBits (runFields freqs))
      (done.reverse ++ freqs) := by
  fun_induction runFields freqs generalizing done with
  | case1 =>
    rw [List.length_nil, readFrequenciesAfter_zero, List.append_nil]
    exact takes_pure _
  | case2 f rest run hrun ih =>
    obtain ⟨hf, hrest⟩ := List.forall_mem_cons.1 hf
    rw [List.length_cons] at hlen
    have hle : run ≤ rest.length := (List.takeWhile_sublist _).length_le
    have hpos : 0 < run := Nat.lt_of_lt_of_le (by decide) hrun
    have htail := ih (by rw [List.length_drop]; omega)
      (fun g hg ↦ hrest g (List.mem_of_mem_drop hg))
      (List.replicate run f ++ f :: done)
    rw [List.length_drop, List.reverse_append, List.reverse_replicate, List.reverse_cons,
      List.append_assoc, List.append_assoc, replicate_append_drop] at htail
    rw [List.append_assoc, List.cons_append, fieldBits_append]
    refine takes_readFrequency (Nat.succ_ne_zero _) hp hf ?_
    rw [← List.cons_append, fieldBits_append]
    exact takes_readRun (Nat.ne_of_gt (Nat.lt_of_lt_of_le hpos hle)) hle (by omega) htail
  | case3 f rest run hrun ih =>
    obtain ⟨hf, hrest⟩ := List.forall_mem_cons.1 hf
    rw [List.length_cons] at hlen
    have htail := ih (by omega) hrest (f :: done)
    rw [List.reverse_cons, List.append_assoc] at htail
    rw [fieldBits_append]
    exact takes_readFrequency (Nat.succ_ne_zero _) hp hf htail

/-- Writers take the fields of frequencies. -/
theorem writable_runFields {freqs : List Nat} (hlen : freqs.length < 2 ^ 32)
    (hf : ∀ f ∈ freqs, f < 2 ^ 32) : Writable (runFields freqs) := by
  have hfreq : ∀ f < 2 ^ 32, Writable (frequencyFields f) := fun f hf ↦
    writable_numberFields (by decide) (Nat.le_trans (bitLength_le_iff.2 hf) (by decide))
  fun_induction runFields freqs with
  | case1 => exact writable_nil
  | case2 f rest run hrun ih =>
    obtain ⟨hf, hrest⟩ := List.forall_mem_cons.1 hf
    rw [List.length_cons] at hlen
    have hle : run ≤ rest.length := (List.takeWhile_sublist _).length_le
    have htail := ih (by rw [List.length_drop]; omega) fun g hg ↦ hrest g (List.mem_of_mem_drop hg)
    refine writable_append.2
      ⟨writable_append.2 ⟨hfreq f hf, writable_cons.2 ⟨by decide, ?_⟩⟩, htail⟩
    exact writable_wordFields (by omega)
  | case3 f rest run hrun ih =>
    obtain ⟨hf, hrest⟩ := List.forall_mem_cons.1 hf
    rw [List.length_cons] at hlen
    exact writable_append.2 ⟨hfreq f hf, ih (by omega) hrest⟩

namespace AnsTable

/-! ## Symbols with slots -/

section

variable (t : AnsTable)

theorem mem_usedSymbols {symbol : Nat} : symbol ∈ t.usedSymbols ↔ 0 < t.freq symbol := by
  rw [usedSymbols, List.mem_filter, List.mem_range, decide_eq_true_eq]
  exact and_iff_right_of_imp lt_alphabetSize_of_freq_pos

theorem pairwise_usedSymbols : t.usedSymbols.Pairwise (· < ·) :=
  List.pairwise_lt_range.filter _

theorem map_freq_range : (List.range t.alphabetSize).map t.freq = t.freqs.toList := by
  apply List.ext_getElem (by simp [alphabetSize])
  intro i h h'
  have hi : i < t.freqs.size := h'
  simp [freq, hi]

/-- Symbols without slots do not count. -/
theorem sum_map_filter_pos (f : Nat → Nat) (l : List Nat) :
    ((l.filter fun s ↦ 0 < f s).map f).sum = (l.map f).sum := by
  induction l with
  | nil => rfl
  | cons s l ih =>
    rw [List.map_cons, List.sum_cons, ← ih]
    rw [List.filter_cons]
    split
    · rw [List.map_cons, List.sum_cons]
    · next h =>
      have : f s = 0 := by simpa using h
      omega

theorem sum_map_freq_usedSymbols {t : AnsTable} (ht : t.Valid) :
    (t.usedSymbols.map t.freq).sum = t.size := by
  rw [usedSymbols, sum_map_filter_pos, map_freq_range, ht.sum_freqs]

theorem toList_freqs_eq {t : AnsTable} {l : List Nat} (hlen : t.alphabetSize = l.length)
    (h : ∀ symbol < t.alphabetSize, t.freq symbol = l.getD symbol 0) : t.freqs.toList = l := by
  rw [← map_freq_range]
  apply List.ext_getElem (by simpa using hlen)
  intro i hi hi'
  have := h i (by omega)
  simpa [hi'] using this

end

section

variable {t : AnsTable} (ht : t.Valid) (hend : EndsPositive t.freqs.toList)
include ht hend

omit ht in
/-- The last symbol has slots. -/
theorem exists_last_mem_usedSymbols :
    ∃ last, t.alphabetSize = last + 1 ∧ last ∈ t.usedSymbols := by
  obtain ⟨init, f, heq, hf⟩ := hend
  have hlen : t.alphabetSize = init.length + 1 := by
    rw [alphabetSize, ← Array.length_toList, heq, List.length_append]
    rfl
  refine ⟨init.length, hlen, (mem_usedSymbols t).2 ?_⟩
  rw [← getD_freqs, heq]
  simpa using hf

/-- The frequencies of a distribution of one symbol. -/
theorem eq_singleFrequencies {symbol : Nat} (h : t.usedSymbols = [symbol]) :
    t.freqs.toList = singleFrequencies t.precision symbol := by
  obtain ⟨last, hsize, hlast⟩ := exists_last_mem_usedSymbols hend
  have hsum := sum_map_freq_usedSymbols ht
  rw [h] at hlast hsum
  obtain rfl := List.mem_singleton.1 hlast
  rw [List.map_singleton, List.sum_singleton] at hsum
  apply toList_freqs_eq (by simpa [singleFrequencies] using hsize)
  intro s hs
  rw [singleFrequencies]
  rcases Nat.lt_succ_iff_lt_or_eq.1 (hsize ▸ hs) with hlt | rfl
  · have hnot : ¬ 0 < t.freq s := by
      rw [← mem_usedSymbols, h, List.mem_singleton]
      omega
    simp [List.getD_eq_getElem?_getD, List.getElem?_append_left, hlt]
    omega
  · rw [hsum]
    simp [size]

/-- The frequencies of a distribution of two symbols. -/
theorem eq_pairFrequencies {first second : Nat} (h : t.usedSymbols = [first, second]) :
    first < second ∧ t.freq first < 2 ^ t.precision ∧
      t.freqs.toList = pairFrequencies t.precision first second (t.freq first) := by
  obtain ⟨last, hsize, hlast⟩ := exists_last_mem_usedSymbols hend
  have hsum := sum_map_freq_usedSymbols ht
  have hlt : first < second := by
    have := pairwise_usedSymbols t
    rw [h] at this
    simpa using this
  have hmem : ∀ s, 0 < t.freq s ↔ s = first ∨ s = second := by
    intro s
    rw [← mem_usedSymbols, h, List.mem_cons, List.mem_singleton]
  rw [h, List.map_cons, List.map_singleton, List.sum_cons, List.sum_singleton, size] at hsum
  have hpos : 0 < t.freq second := (hmem second).2 (.inr rfl)
  have hsecond : second < t.alphabetSize := lt_alphabetSize_of_freq_pos hpos
  have hor := (hmem last).1 ((mem_usedSymbols t).1 hlast)
  refine ⟨hlt, by omega, toList_freqs_eq ?_ fun s hs ↦ ?_⟩
  · rw [pairFrequencies, List.length_map, List.length_range]
    omega
  · have hs' : s < max first second + 1 := by omega
    rw [pairFrequencies, List.getD_eq_getElem?_getD, List.getElem?_map, List.getElem?_range hs',
      Option.map_some, Option.getD_some]
    split
    · next heq => rw [heq]
    · next hne =>
      split
      · next heq =>
        rw [heq]
        omega
      · next hne' =>
        have := hmem s
        omega

end

end AnsTable

/-! ## The forms of a distribution -/

theorem takes_readSymbolId {symbol : Nat} (h : symbol < maxAlphabet) :
    Takes readSymbolId (fieldBits (wordFields symbol)) symbol := by
  have hword : symbol < 2 ^ 32 := Nat.lt_trans h (by decide)
  rw [readSymbolId, ← List.append_nil (fieldBits _)]
  exact (takes_readWord hword).bind ((takes_require (decide_eq_true h) _).bind_nil (takes_pure _))

/-- The size of an alphabet is read back. -/
theorem takes_readAlphabetSize {size : Nat} (h : 2 ≤ size) (h' : size ≤ maxAlphabet)
    (fault : StreamFault) :
    Takes (readAlphabetSize fault) (fieldBits (wordFields size)) size := by
  have hword : size < 2 ^ 32 := Nat.lt_of_le_of_lt h' (by decide)
  have hok : (decide (2 ≤ size) && decide (size ≤ maxAlphabet)) = true := by
    rw [decide_eq_true h, decide_eq_true h']
    rfl
  rw [readAlphabetSize, ← List.append_nil (fieldBits _)]
  exact (takes_readWord hword).bind ((takes_require hok _).bind_nil (takes_pure _))

section

variable {precision : Nat} {t : AnsTable}

theorem takes_readAnsTable_single {symbol : Nat} (hs : symbol < maxAlphabet)
    (h : AnsTable.ofFrequencies (singleFrequencies precision symbol) precision = .ok t) :
    Takes (readAnsTable precision)
      (fieldBits ([Field.flag true, Field.flag false] ++ wordFields symbol)) t := by
  rw [List.cons_append, List.cons_append, List.nil_append, fieldBits_cons, fieldBits_cons,
    ← List.append_nil (fieldBits _)]
  refine (takes_readBool true).bind ((takes_readBool false).bind ?_)
  exact ((takes_readSymbolId hs).map _).bind (takes_ofExcept h)

/-- A distribution of two symbols is read back. -/
theorem takes_readAnsTable_pair {first second f : Nat} (hne : first ≠ second)
    (hfirst : first < maxAlphabet) (hsecond : second < maxAlphabet) (hf : f < 2 ^ precision)
    (hpos : f ≠ 0)
    (h : AnsTable.ofFrequencies (pairFrequencies precision first second f) precision = .ok t) :
    Takes (readAnsTable precision)
      (fieldBits ([Field.flag true, Field.flag true] ++ wordFields first ++ wordFields second
        ++ [⟨f, precision⟩])) t := by
  have hok : (decide (first ≠ second) && decide (f ≠ 0)) = true := by
    rw [decide_eq_true hne, decide_eq_true hpos]
    rfl
  simp only [fieldBits_append, fieldBits_cons, fieldBits_nil, List.append_assoc, List.append_nil]
  rw [← List.append_nil (Field.bits ⟨f, precision⟩)]
  refine (takes_readBool true).bind ((takes_readBool true).bind ?_)
  refine (takes_readSymbolId hfirst).bind ((takes_readSymbolId hsecond).bind ?_)
  refine (takes_read hf).bind ((takes_require hok _).bind_nil ?_)
  exact (takes_pure _).bind_nil (takes_ofExcept h)

/-- A distribution of more symbols is read back. -/
theorem takes_readAnsTable_many {size : Nat} {init : List Nat} (hsize : init.length = size - 1)
    (htwo : 2 ≤ size) (hmax : size ≤ maxAlphabet) (hp : precision < runEscape)
    (hsum : init.sum < 2 ^ precision)
    (h : AnsTable.ofFrequencies (init ++ [2 ^ precision - init.sum]) precision = .ok t) :
    Takes (readAnsTable precision)
      (fieldBits (Field.flag false :: wordFields size ++ runFields init)) t := by
  have hlen : init.length < 2 ^ 32 := by
    unfold maxAlphabet at hmax
    omega
  have hf : ∀ f ∈ init, bitLength f ≤ precision := by
    intro f hf
    obtain ⟨fs, gs, rfl⟩ := List.append_of_mem hf
    rw [List.sum_append, List.sum_cons] at hsum
    exact bitLength_le_iff.2 (by omega)
  have hfreqs := takes_readFrequenciesAfter hp hlen hf []
  rw [hsize] at hfreqs
  simp only [fieldBits_append, fieldBits_cons, List.cons_append]
  rw [← List.append_nil (fieldBits (runFields init))]
  refine (takes_readBool false).bind ((takes_readAlphabetSize htwo hmax _).bind ?_)
  refine hfreqs.bind ((takes_require (decide_eq_true hsum) _).bind_nil ?_)
  exact (takes_pure _).bind_nil (takes_ofExcept h)

end

section

variable {t : AnsTable} (ht : t.Valid) (hend : EndsPositive t.freqs.toList)
  (hp : t.precision < runEscape)
include ht hend hp

omit hp in
/-- A longer distribution without its last frequency, which follows from the others. -/
theorem exists_init_freqs (hused : 3 ≤ t.usedSymbols.length) :
    ∃ init, t.freqs.toList.dropLast = init ∧ init.length = t.alphabetSize - 1 ∧
      2 ≤ t.alphabetSize ∧ init.sum < 2 ^ t.precision ∧
      t.freqs.toList = init ++ [2 ^ t.precision - init.sum] := by
  obtain ⟨init, last, heq, hlast⟩ := hend
  have hsum := ht.sum_freqs
  rw [heq, List.sum_append, List.sum_singleton, AnsTable.size] at hsum
  have hsize : t.alphabetSize = init.length + 1 := by
    rw [AnsTable.alphabetSize, ← Array.length_toList, heq, List.length_append]
    rfl
  have hle : t.usedSymbols.length ≤ t.alphabetSize := by
    have := List.length_filter_le (fun s ↦ decide (0 < t.freq s)) (List.range t.alphabetSize)
    rwa [List.length_range] at this
  refine ⟨init, ?_, by omega, by omega, by omega, ?_⟩
  · rw [heq, List.dropLast_concat]
  · rw [heq, show 2 ^ t.precision - init.sum = last by omega]

/-- A distribution is read back. -/
theorem takes_readAnsTable : Takes (readAnsTable t.precision) (fieldBits t.fields) t := by
  have hvalid : AnsTable.ofFrequencies t.freqs.toList t.precision = .ok t := ht
  have hused : ∀ symbol, symbol ∈ t.usedSymbols ↔ 0 < t.freq symbol := fun _ ↦ t.mem_usedSymbols
  have hid : ∀ symbol ∈ t.usedSymbols, symbol < maxAlphabet := fun symbol hs ↦
    Nat.lt_of_lt_of_le (AnsTable.lt_alphabetSize_of_freq_pos ((hused symbol).1 hs))
      ht.alphabetSize_le
  unfold AnsTable.fields
  split
  · next symbol hsymbols =>
    rw [AnsTable.eq_singleFrequencies ht hend hsymbols] at hvalid
    rw [hsymbols] at hid
    exact takes_readAnsTable_single (hid symbol List.mem_cons_self) hvalid
  · next first second hsymbols =>
    obtain ⟨hlt, hf, heq⟩ := AnsTable.eq_pairFrequencies ht hend hsymbols
    rw [heq] at hvalid
    rw [hsymbols] at hid hused
    have hpos : 0 < t.freq first := (hused first).1 List.mem_cons_self
    exact takes_readAnsTable_pair (Nat.ne_of_lt hlt) (hid first List.mem_cons_self)
      (hid second (List.mem_cons_of_mem _ List.mem_cons_self)) hf (Nat.ne_of_gt hpos) hvalid
  · next hone htwo =>
    obtain ⟨last, -, hlast⟩ := AnsTable.exists_last_mem_usedSymbols hend
    have hthree : 3 ≤ t.usedSymbols.length := by
      match hsymbols : t.usedSymbols with
      | [] => rw [hsymbols] at hlast; cases hlast
      | [a] => exact absurd hsymbols (hone a)
      | [a, b] => exact absurd hsymbols (htwo a b)
      | _ :: _ :: _ :: _ => exact Nat.le_add_left 3 _
    obtain ⟨init, hinit, hlen, hsize, hsum, heq⟩ := exists_init_freqs ht hend hthree
    rw [heq] at hvalid
    rw [hinit]
    exact takes_readAnsTable_many hlen hsize ht.alphabetSize_le hp hsum hvalid

end

/-- A writer takes the fields of a distribution. -/
theorem AnsTable.Valid.writable_fields {t : AnsTable} (ht : t.Valid) : Writable t.fields := by
  have hmax : maxAlphabet < 2 ^ 32 := by decide
  have hsize := ht.alphabetSize_le
  have hword : ∀ symbol ∈ t.usedSymbols, Writable (wordFields symbol) := by
    intro symbol hs
    have := lt_alphabetSize_of_freq_pos (t.mem_usedSymbols.1 hs)
    exact writable_wordFields (by omega)
  have hprecision : t.precision ≤ maxFieldWidth := Nat.le_trans ht.precision_mem.2 (by decide)
  unfold fields
  split
  · next symbol hsymbols =>
    rw [hsymbols] at hword
    exact writable_append.2 ⟨by decide, hword symbol List.mem_cons_self⟩
  · next first second hsymbols =>
    rw [hsymbols] at hword
    refine writable_append.2 ⟨writable_append.2 ⟨writable_append.2 ⟨by decide, ?_⟩, ?_⟩, ?_⟩
    · exact hword first List.mem_cons_self
    · exact hword second (List.mem_cons_of_mem _ List.mem_cons_self)
    · exact writable_cons.2 ⟨hprecision, writable_nil⟩
  · refine writable_append.2 ⟨writable_cons.2 ⟨by decide, writable_wordFields (by omega)⟩, ?_⟩
    refine writable_runFields ?_ fun f hf ↦ ?_
    · rw [List.length_dropLast]
      exact Nat.lt_of_le_of_lt (Nat.sub_le _ 1) (Nat.lt_of_le_of_lt hsize hmax)
    · have hsum := ht.sum_freqs
      obtain ⟨fs, gs, heq⟩ := List.append_of_mem (List.dropLast_subset _ hf)
      rw [heq, List.sum_append, List.sum_cons, size] at hsum
      have : 2 ^ t.precision ≤ 2 ^ maxPrecision :=
        Nat.pow_le_pow_right (by decide) ht.precision_mem.2
      have : 2 ^ maxPrecision < 2 ^ 32 := by decide
      omega

/-- A run that has been read is not too long, and its frequency is one that has been read before it or
one of 32 bits. -/
theorem mem_of_readRepeated {precision left len run f : Nat} {last? : Option Nat}
    (hp : precision ≤ 32) (hleft : 0 < left) {r r' : BitReader}
    (h : readRepeated precision left last? len r = .ok (run, f) r') :
    run ≤ left ∧ (last? = some f ∨ f < 2 ^ 32) := by
  unfold readRepeated at h
  split at h
  · split at h
    · cases h
    · obtain ⟨run, _, -, h⟩ := bind_eq_ok_iff.1 h
      obtain ⟨_, _, hrequire, h⟩ := bind_eq_ok_iff.1 h
      obtain ⟨⟨⟩, -⟩ := pure_eq_ok_iff.1 h
      exact ⟨of_decide_eq_true (require_eq_ok_iff.1 hrequire).1, .inl rfl⟩
  · obtain ⟨_, _, hrequire, h⟩ := bind_eq_ok_iff.1 h
    obtain ⟨f, _, hf, h⟩ := bind_eq_ok_iff.1 h
    obtain ⟨⟨⟩, -⟩ := pure_eq_ok_iff.1 h
    have hlen : len ≤ 32 :=
      Nat.le_trans (of_decide_eq_true (require_eq_ok_iff.1 hrequire).1) hp
    exact ⟨hleft, .inr (Nat.lt_of_lt_of_le (lt_of_readBelowTop hf)
      (Nat.pow_le_pow_right (by decide) hlen))⟩

/-- As many frequencies are read as asked for, and they have 32 bits at most. -/
theorem mem_of_readFrequencies {precision count : Nat} (hp : precision ≤ 32) {freqs : List Nat}
    {r r' : BitReader} (h : readFrequencies precision count r = .ok freqs r') :
    freqs.length = count ∧ ∀ f ∈ freqs, f < 2 ^ 32 := by
  have hafter : ∀ (size left : Nat) (done : List Nat) (r : BitReader), r.length - r.pos = size →
      (∀ f ∈ done, f < 2 ^ 32) → readFrequenciesAfter precision left done r = .ok freqs r' →
        freqs.length = done.length + left ∧ ∀ f ∈ freqs, f < 2 ^ 32 := by
    intro size
    induction size using Nat.strongRecOn with
    | ind size ih =>
      rintro left done r rfl hdone h
      rcases Nat.eq_zero_or_pos left with rfl | hleft
      · rw [readFrequenciesAfter_zero] at h
        obtain ⟨rfl, -⟩ := pure_eq_ok_iff.1 h
        exact ⟨List.length_reverse, fun f hf ↦ hdone f (List.mem_reverse.1 hf)⟩
      · rw [readFrequenciesAfter_eq (Nat.ne_of_gt hleft)] at h
        obtain ⟨len, r₁, hlen, h⟩ := bind_eq_ok_iff.1 h
        obtain ⟨⟨run, f⟩, r₂, hrepeated, h⟩ := bind_eq_ok_iff.1 h
        obtain ⟨hrun, hlast⟩ := mem_of_readRepeated hp hleft hrepeated
        have hf : f < 2 ^ 32 :=
          hlast.elim (fun hlast ↦ hdone f (List.mem_of_mem_head? hlast)) id
        have hmore : ∀ g ∈ List.replicate run f ++ done, g < 2 ^ 32 := by
          intro g hg
          rcases List.mem_append.1 hg with hg | hg
          · exact (List.mem_replicate.1 hg).2 ▸ hf
          · exact hdone g hg
        obtain ⟨hlength, hall⟩ := ih _ (bitsLeft_readRepeated_lt hlen hrepeated) _ _ _ rfl hmore h
        rw [List.length_append, List.length_replicate] at hlength
        exact ⟨by omega, hall⟩
  obtain ⟨hlength, hall⟩ := hafter _ count [] r rfl nofun h
  exact ⟨hlength.trans (Nat.zero_add count), hall⟩

theorem endsPositive_singleFrequencies (precision symbol : Nat) :
    EndsPositive (singleFrequencies precision symbol) :=
  ⟨_, _, rfl, Nat.two_pow_pos precision⟩

/-- The frequencies of two symbols, both of which have slots, end with one of them. -/
theorem endsPositive_pairFrequencies {precision first second f : Nat} (hpos : f ≠ 0)
    (hlt : f < 2 ^ precision) : EndsPositive (pairFrequencies precision first second f) := by
  unfold pairFrequencies
  rw [List.range_succ, List.map_append, List.map_singleton]
  refine ⟨_, _, rfl, ?_⟩
  split
  · exact Nat.pos_of_ne_zero hpos
  · next hfirst =>
    have hsecond : max first second = second := by omega
    rw [if_pos hsecond]
    exact Nat.sub_pos_of_lt hlt

/-- A table that has been read is built from frequencies that end with a symbol that has slots,
whatever its form. -/
theorem exists_freqs_of_readAnsTable {precision : Nat} {t : AnsTable} {r r' : BitReader}
    (h : readAnsTable precision r = .ok t r') :
    ∃ freqs, EndsPositive freqs ∧ AnsTable.ofFrequencies freqs precision = .ok t := by
  obtain ⟨short, r₁, -, h⟩ := bind_eq_ok_iff.1 h
  cases short with
  | true =>
    obtain ⟨pair, r₂, -, h⟩ := bind_eq_ok_iff.1 h
    cases pair with
    | true =>
      obtain ⟨first, _, -, h⟩ := bind_eq_ok_iff.1 h
      obtain ⟨second, _, -, h⟩ := bind_eq_ok_iff.1 h
      obtain ⟨f, _, hf, h⟩ := bind_eq_ok_iff.1 h
      obtain ⟨_, _, hrequire, h⟩ := bind_eq_ok_iff.1 h
      obtain ⟨freqs, _, hfreqs, h⟩ := bind_eq_ok_iff.1 h
      obtain ⟨rfl, -⟩ := pure_eq_ok_iff.1 hfreqs
      have hok := (require_eq_ok_iff.1 hrequire).1
      rw [Bool.and_eq_true, decide_eq_true_eq, decide_eq_true_eq] at hok
      exact ⟨_, endsPositive_pairFrequencies hok.2 (lt_of_read hf), (ofExcept_eq_ok_iff.1 h).1⟩
    | false =>
      obtain ⟨freqs, _, hfreqs, h⟩ := bind_eq_ok_iff.1 h
      obtain ⟨symbol, -, rfl⟩ := map_eq_ok_iff.1 hfreqs
      exact ⟨_, endsPositive_singleFrequencies precision symbol, (ofExcept_eq_ok_iff.1 h).1⟩
  | false =>
    obtain ⟨size, _, -, h⟩ := bind_eq_ok_iff.1 h
    obtain ⟨init, _, -, h⟩ := bind_eq_ok_iff.1 h
    obtain ⟨_, _, hrequire, h⟩ := bind_eq_ok_iff.1 h
    obtain ⟨freqs, _, hfreqs, h⟩ := bind_eq_ok_iff.1 h
    obtain ⟨rfl, -⟩ := pure_eq_ok_iff.1 hfreqs
    have hlt := of_decide_eq_true (require_eq_ok_iff.1 hrequire).1
    exact ⟨_, ⟨init, _, rfl, Nat.sub_pos_of_lt hlt⟩, (ofExcept_eq_ok_iff.1 h).1⟩

/-- A table that has been read is valid. -/
theorem valid_of_readAnsTable {precision : Nat} {t : AnsTable} {r r' : BitReader}
    (h : readAnsTable precision r = .ok t r') : t.Valid := by
  obtain ⟨freqs, -, hbuilt⟩ := exists_freqs_of_readAnsTable h
  exact AnsTable.valid_of_ofFrequencies hbuilt

/-- A table that has been read has the precision asked for, and ends with a symbol that has slots. -/
theorem ends_of_readAnsTable {precision : Nat} {t : AnsTable} {r r' : BitReader}
    (h : readAnsTable precision r = .ok t r') :
    t.precision = precision ∧ EndsPositive t.freqs.toList := by
  obtain ⟨freqs, hends, hbuilt⟩ := exists_freqs_of_readAnsTable h
  exact ⟨AnsTable.precision_eq hbuilt, (AnsTable.toList_freqs hbuilt).symm ▸ hends⟩

end EntropyCoding
