import EntropyCoding.Proofs.Ans.Frequencies
import EntropyCoding.Proofs.Ans.Table
import EntropyCoding.Proofs.Histogram.Counts

/-!
# Counts that can be normalized

Handing out slots always finds a symbol that occurs, and taking back slots one that has more than
one: as long as more slots are in use than symbols, not every symbol can be down to its last slot.
So counts can be normalized exactly if no more symbols occur than there are slots,
`exists_normalize` and `normalize_of_lt`, and the frequencies then fill the table.  Counts that fill it
from the start stay as they are, `normalize_eq_self`.

A distribution can be built for a histogram if its alphabet is not too large either,
`AnsTable.exists_ofHistogram`, and it gives slots to every symbol counted,
`AnsTable.freq_pos_of_counts`.
-/

namespace EntropyCoding

/-! ## Shares -/

/-- A place is found if there is an eligible share. -/
theorem exists_bestPlace? (better : Share → Share → Bool) (eligible : Share → Bool)
    {shares : List Share} {s : Share} (hs : s ∈ shares) (h : eligible s) (i : Nat) :
    ∃ k, bestPlace? better eligible i shares = some k := by
  induction shares generalizing i with
  | nil => cases hs
  | cons s' shares ih =>
    rw [bestPlace?]
    split
    · exact ⟨_, rfl⟩
    · next hs' =>
      rcases List.mem_cons.1 hs with rfl | hs
      · exact absurd h hs'
      · exact ih hs (i + 1)

/-- Changing one share changes the sum by what the share changes. -/
theorem sum_frequencies_modify {shares : List Share} {i : Nat} {s : Share}
    (hi : shares[i]? = some s) (f : Share → Share) :
    (frequencies (shares.modify i f)).sum + s.freq = (frequencies shares).sum + (f s).freq := by
  induction shares generalizing i with
  | nil => cases hi
  | cons s' shares ih =>
    cases i with
    | zero =>
      cases hi
      simp only [frequencies, List.modify_zero_cons, List.map_cons, List.sum_cons]
      omega
    | succ i =>
      have := ih hi
      simp only [frequencies, List.modify_succ_cons, List.map_cons, List.sum_cons] at this ⊢
      omega

/-- Shares of one slot at most add up to the number of shares with slots. -/
theorem sum_frequencies_le {shares : List Share} (h : ∀ s ∈ shares, s.freq ≤ 1) :
    (frequencies shares).sum ≤ shares.countP (0 < ·.freq) := by
  induction shares with
  | nil => exact Nat.le_refl 0
  | cons s shares ih =>
    obtain ⟨hs, hshares⟩ := List.forall_mem_cons.1 h
    have := ih hshares
    simp only [frequencies, List.map_cons, List.sum_cons, List.countP_cons, decide_eq_true_eq]
      at this ⊢
    split <;> omega

namespace FairShares

variable {counts : List Nat} {shares : List Share} (hs : FairShares counts shares)
include hs

theorem length_frequencies : (frequencies shares).length = counts.length := by
  rw [← hs.map_count, frequencies, List.length_map, List.length_map]

theorem countP_freq : shares.countP (0 < ·.freq) = counts.countP (0 < ·) := by
  rw [← hs.map_count, List.countP_map]
  refine List.countP_congr fun s hmem ↦ ?_
  rw [Function.comp_apply, decide_eq_true_eq, decide_eq_true_eq]
  exact hs.fair s hmem

/-- Some symbol occurs if the counts are not all zero. -/
theorem exists_count_pos (hsum : counts.sum ≠ 0) : ∃ s ∈ shares, 0 < s.count := by
  obtain ⟨c, hc, hpos⟩ := List.sum_pos_iff_exists_pos_nat.1 (Nat.pos_of_ne_zero hsum)
  rw [← hs.map_count] at hc
  obtain ⟨s, hmem, rfl⟩ := List.mem_map.1 hc
  exact ⟨s, hmem, hpos⟩

/-- Some symbol has a second slot if more slots are in use than symbols. -/
theorem exists_one_lt_freq (hlt : counts.countP (0 < ·) < (frequencies shares).sum) :
    ∃ s ∈ shares, 1 < s.freq := by
  apply Decidable.byContradiction
  intro hnone
  have hle : ∀ s ∈ shares, s.freq ≤ 1 := fun s hmem ↦ Nat.not_lt.1 fun h ↦ hnone ⟨s, hmem, h⟩
  have := sum_frequencies_le hle
  rw [hs.countP_freq] at this
  exact absurd hlt (Nat.not_lt.2 this)

/-- Slots can be handed out as long as some symbol occurs. -/
theorem exists_handOut (hsum : counts.sum ≠ 0) (slots total n : Nat) :
    ∃ shares', EntropyCoding.handOut slots total n shares = .ok shares' ∧
      (frequencies shares').sum = (frequencies shares).sum + n := by
  induction n generalizing shares with
  | zero => exact ⟨shares, rfl, rfl⟩
  | succ n ih =>
    obtain ⟨s, hmem, hpos⟩ := hs.exists_count_pos hsum
    obtain ⟨k, hk⟩ := exists_bestPlace? (fun a b ↦ b.isLessShort slots total a)
      (fun s ↦ 0 < s.count) hmem (decide_eq_true hpos) 0
    obtain ⟨j, s', rfl, hget, hpos'⟩ := exists_of_bestPlace? hk
    rw [Nat.zero_add] at hk
    have hraised := hs.modify hget (f := Share.raise) (fun _ ↦ rfl) (.raise (of_decide_eq_true hpos'))
    obtain ⟨shares', hok, hsum'⟩ := ih hraised
    have hone := sum_frequencies_modify hget Share.raise
    refine ⟨shares', ?_, ?_⟩
    · rw [EntropyCoding.handOut, hk]
      exact hok
    · dsimp only [Share.raise] at hone
      omega

/-- Slots can be taken back as long as more are in use than symbols occur. -/
theorem exists_takeBack {n : Nat} (hle : counts.countP (0 < ·) + n ≤ (frequencies shares).sum)
    (slots total : Nat) :
    ∃ shares', EntropyCoding.takeBack slots total n shares = .ok shares' ∧
      (frequencies shares').sum + n = (frequencies shares).sum := by
  induction n generalizing shares with
  | zero => exact ⟨shares, rfl, rfl⟩
  | succ n ih =>
    obtain ⟨s, hmem, hmore⟩ := hs.exists_one_lt_freq (by omega)
    obtain ⟨k, hk⟩ := exists_bestPlace? (fun a b ↦ a.isLessShort slots total b)
      (fun s ↦ 1 < s.freq) hmem (decide_eq_true hmore) 0
    obtain ⟨j, s', rfl, hget, hmore'⟩ := exists_of_bestPlace? hk
    have hmore' : 1 < s'.freq := of_decide_eq_true hmore'
    rw [Nat.zero_add] at hk
    have hlowered := hs.modify hget (f := Share.lower) (fun _ ↦ rfl)
      ((hs.fair s' (List.mem_of_getElem? hget)).lower hmore')
    have hone := sum_frequencies_modify hget Share.lower
    dsimp only [Share.lower] at hone
    obtain ⟨shares', hok, hsum'⟩ := ih hlowered (by omega)
    refine ⟨shares', ?_, ?_⟩
    · rw [EntropyCoding.takeBack, hk]
      exact hok
    · omega

end FairShares

/-! ## Normalization -/

/-- Counts can be normalized if no more symbols occur than there are slots, and the frequencies
then fill the table. -/
theorem exists_normalize {counts : List Nat} {precision : Nat}
    (hprecision : isTablePrecision precision) (hused : counts.countP (0 < ·) ≤ 2 ^ precision) :
    ∃ freqs, normalize counts precision = .ok freqs ∧ freqs.sum = 2 ^ precision ∧
      freqs.length = max 1 counts.length := by
  unfold normalize
  dsimp only
  rw [if_pos hprecision]
  by_cases htotal : counts.sum = 0
  · rw [if_pos htotal]
    refine ⟨_, rfl, ?_, ?_⟩
    · rw [List.sum_cons, List.sum_replicate_nat, Nat.mul_zero, Nat.add_zero]
    · rw [List.length_cons, List.length_replicate]
      omega
  · rw [if_neg htotal, if_neg (Nat.not_lt.2 hused)]
    have hround := FairShares.round (2 ^ precision) counts.sum counts
    have hlength : max 1 counts.length = counts.length := by
      cases counts with
      | nil => exact absurd rfl htotal
      | cons count counts =>
        rw [List.length_cons]
        omega
    rw [hlength]
    split
    · next hle =>
      obtain ⟨shares, hok, hsum⟩ := hround.exists_handOut htotal (2 ^ precision) counts.sum
        (2 ^ precision - (frequencies (counts.map (Share.round (2 ^ precision) counts.sum))).sum)
      exact ⟨_, Except.map_eq_ok_iff.2 ⟨shares, hok, rfl⟩, by omega,
        (hround.handOut hok).length_frequencies⟩
    · next hgt =>
      obtain ⟨shares, hok, hsum⟩ := hround.exists_takeBack
        (n := (frequencies (counts.map (Share.round (2 ^ precision) counts.sum))).sum -
          2 ^ precision) (by omega) (2 ^ precision) counts.sum
      exact ⟨_, Except.map_eq_ok_iff.2 ⟨shares, hok, rfl⟩, by omega,
        (hround.takeBack hok).length_frequencies⟩

/-- Counts of more symbols than there are slots are refused. -/
theorem normalize_of_lt {counts : List Nat} {precision : Nat}
    (hprecision : isTablePrecision precision) (hused : 2 ^ precision < counts.countP (0 < ·)) :
    normalize counts precision =
      .error (.alphabetTooLarge (counts.countP (0 < ·)) (2 ^ precision)) := by
  have htotal : counts.sum ≠ 0 := by
    obtain ⟨c, hc, hpos⟩ := List.countP_pos_iff.1 (Nat.zero_lt_of_lt hused)
    exact Nat.ne_of_gt (List.sum_pos_iff_exists_pos_nat.2 ⟨c, hc, of_decide_eq_true hpos⟩)
  unfold normalize
  dsimp only
  rw [if_pos hprecision, if_neg htotal, if_pos hused]

/-- A count that is already its share of the slots is rounded to itself. -/
theorem freq_round_self {slots : Nat} (hslots : 0 < slots) (count : Nat) :
    (Share.round slots slots count).freq = count := by
  unfold Share.round
  dsimp only
  split
  · next hzero => exact hzero.symm
  · next hpos =>
    have hdiv : (2 * count * slots + slots) / (2 * slots) = count := by
      rw [Nat.mul_right_comm, Nat.add_comm, Nat.add_mul_div_left _ _ (by omega),
        Nat.div_eq_of_lt (by omega), Nat.zero_add]
    rw [hdiv]
    omega

/-- No more symbols occur than are counted. -/
theorem countP_pos_le_sum (counts : List Nat) : counts.countP (0 < ·) ≤ counts.sum := by
  induction counts with
  | nil => exact Nat.le_refl 0
  | cons c counts ih =>
    rw [List.countP_cons, List.sum_cons]
    split
    · next hpos =>
      have := of_decide_eq_true hpos
      omega
    · omega

/-- Counts that fill the table are its frequencies. -/
theorem normalize_eq_self {freqs : List Nat} {precision : Nat}
    (hprecision : isTablePrecision precision) (hsum : freqs.sum = 2 ^ precision) :
    normalize freqs precision = .ok freqs := by
  have hpos : 0 < 2 ^ precision := Nat.two_pow_pos precision
  have hused := countP_pos_le_sum freqs
  rw [hsum] at hused
  have hround : frequencies (freqs.map (Share.round (2 ^ precision) (2 ^ precision))) = freqs := by
    rw [frequencies, List.map_map]
    exact (List.map_congr_left fun c _ ↦ freq_round_self hpos c).trans (List.map_id freqs)
  unfold normalize
  dsimp only
  rw [if_pos hprecision, hsum, if_neg (Nat.ne_of_gt hpos), if_neg (Nat.not_lt.2 hused), hround, hsum,
    if_pos (Nat.le_refl _), Nat.sub_self]
  exact congrArg Except.ok hround

/-! ## Counts that end with a symbol that occurs -/

namespace EndsPositive

variable {l l' : List Nat} (hl : EndsPositive l) (h : ∀ i, l.getD i 0 = l'.getD i 0)
include hl h

/-- A list that goes on to a number that is not zero is no longer than any with the same numbers. -/
theorem length_le : l.length ≤ l'.length := by
  obtain ⟨init, last, rfl, hlast⟩ := hl
  have hget : (init ++ [last]).getD init.length 0 = last := by simp
  rw [List.length_append]
  apply lt_length_of_pos
  rwa [← h, hget]

/-- Lists that end with numbers that are not zero are equal if they have the same numbers. -/
theorem ext (hl' : EndsPositive l') : l = l' := by
  have hlen : l.length = l'.length :=
    Nat.le_antisymm (hl.length_le h) (hl'.length_le fun i ↦ (h i).symm)
  refine List.ext_getElem hlen fun i hi hi' ↦ ?_
  have := h i
  rwa [List.getD_eq_getElem?_getD, List.getD_eq_getElem?_getD, List.getElem?_eq_getElem hi,
    List.getElem?_eq_getElem hi'] at this

end EndsPositive

/-- The trimmed counts of a histogram are the one list with its counts that ends with a symbol that
occurs. -/
theorem Histogram.trimmed_eq {h : Histogram} {counts : List Nat} (hend : EndsPositive counts)
    (hcounts : ∀ symbol, h.count symbol = counts.getD symbol 0) : h.trimmed = counts := by
  have hget : ∀ symbol, counts.getD symbol 0 = h.trimmed.getD symbol 0 := fun symbol ↦
    (hcounts symbol).symm.trans (h.getD_trimmed symbol).symm
  have hne : h.trimmed ≠ [] := by
    have hlen := hend.length_le hget
    obtain ⟨init, last, rfl, -⟩ := hend
    rw [List.length_append, List.length_singleton] at hlen
    exact List.ne_nil_of_length_pos (Nat.lt_of_lt_of_le (Nat.succ_pos _) hlen)
  exact (hend.ext hget (Histogram.endsPositive_trimmed hne)).symm

/-! ## The distribution of a histogram -/

namespace AnsTable

variable {h : Histogram} {precision : Nat}

/-- A histogram without a distribution has too many symbols in use, or too large an alphabet. -/
theorem ofHistogram_eq_error {e : Error} (hprecision : isTablePrecision precision)
    (herror : ofHistogram h precision = .error e) :
    (2 ^ precision < h.used ∧ e = .alphabetTooLarge h.used (2 ^ precision)) ∨
      (maxAlphabet < h.alphabetSize ∧ e = .alphabetSizeExceeded h.alphabetSize maxAlphabet) := by
  rw [ofHistogram] at herror
  rw [← h.countP_trimmed]
  rcases Nat.lt_or_ge (2 ^ precision) (h.trimmed.countP (0 < ·)) with hused | hused
  · rw [normalize_of_lt hprecision hused] at herror
    cases herror
    exact .inl ⟨hused, rfl⟩
  · obtain ⟨freqs, hfreqs, hsum, hlength⟩ := exists_normalize hprecision hused
    rw [hfreqs] at herror
    replace herror : ofFrequencies freqs precision = .error e := herror
    rw [ofFrequencies, if_pos hprecision, if_pos hsum] at herror
    split at herror
    · cases herror
    · next hlong =>
      have : 1 ≤ maxAlphabet := by decide
      have hsize : freqs.length = h.alphabetSize := by
        rw [Histogram.alphabetSize]
        omega
      cases herror
      exact .inr ⟨by omega, by rw [hsize]⟩

/-- A histogram with a distribution has neither too many symbols in use nor too large an alphabet. -/
theorem le_of_ofHistogram {t : AnsTable} (hok : ofHistogram h precision = .ok t) :
    h.used ≤ 2 ^ precision ∧ h.alphabetSize ≤ maxAlphabet := by
  obtain ⟨freqs, hfreqs, htable⟩ := Except.bind_eq_ok_iff.1 hok
  obtain ⟨hprecision, hlong, -, -⟩ := ofFrequencies_eq_ok_iff.1 htable
  rw [← h.countP_trimmed]
  rcases Nat.lt_or_ge (2 ^ precision) (h.trimmed.countP (0 < ·)) with hused | hused
  · rw [normalize_of_lt hprecision hused] at hfreqs
    cases hfreqs
  · obtain ⟨freqs', hfreqs', -, hlength⟩ := exists_normalize hprecision hused
    obtain rfl := Except.ok.inj (hfreqs.symm.trans hfreqs')
    rw [Histogram.alphabetSize]
    exact ⟨hused, by omega⟩

/-- A distribution gives slots to every symbol that has been counted. -/
theorem freq_pos_of_counts {t : AnsTable} (hok : ofHistogram h precision = .ok t) {symbol : Nat}
    (hc : h.Counts symbol) : 0 < t.freq symbol := by
  obtain ⟨freqs, hfreqs, htable⟩ := Except.bind_eq_ok_iff.1 hok
  have hcount : 0 < h.trimmed.getD symbol 0 := by
    rw [h.getD_trimmed]
    exact hc.count_pos
  have htotal : h.trimmed.sum ≠ 0 := by
    have hmem := Histogram.count_mem_trimmed hc.count_pos
    exact Nat.ne_of_gt (List.sum_pos_iff_exists_pos_nat.2 ⟨_, hmem, hc.count_pos⟩)
  obtain ⟨shares, hshares, rfl⟩ := exists_fairShares_of_normalize hfreqs htotal
  rw [← getD_freqs, toList_freqs htable, hshares.getD_frequencies_pos_iff]
  exact hcount

/-- A valid table is the distribution of every histogram that counts its frequencies. -/
theorem Valid.ofHistogram_eq {t : AnsTable} (ht : t.Valid) (hend : EndsPositive t.freqs.toList)
    (hcounts : ∀ symbol, h.count symbol = t.freq symbol) : ofHistogram h t.precision = .ok t := by
  have hprecision : isTablePrecision t.precision := (ofFrequencies_eq_ok_iff.1 ht).1
  have htrimmed : h.trimmed = t.freqs.toList :=
    Histogram.trimmed_eq hend fun symbol ↦ (hcounts symbol).trans (t.getD_freqs symbol).symm
  rw [ofHistogram, htrimmed, normalize_eq_self hprecision ht.sum_freqs]
  exact ht

end AnsTable

end EntropyCoding
