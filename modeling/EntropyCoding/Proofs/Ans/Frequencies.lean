import EntropyCoding.Ans.Table
import EntropyCoding.Proofs.Action

/-!
# Which symbols get slots

Normalizing counts gives slots exactly to the symbols that occur: rounding leaves each of them one
slot at least, slots are handed out only to symbols that occur, and the last slot of a symbol is
never taken back.  So the frequencies of a histogram end with one that is not zero,
`endsPositive_of_normalize`, and the alphabet can be told from them.
-/

namespace EntropyCoding

namespace Share

/-- A share has slots exactly if its symbol occurs. -/
def Fair (s : Share) : Prop :=
  0 < s.freq ↔ 0 < s.count

/-- Rounding is fair. -/
theorem fair_round (slots total count : Nat) : (round slots total count).Fair := by
  unfold Fair round
  dsimp only
  split
  · next h => simp [h]
  · next h =>
    have := Nat.le_max_left 1 ((2 * count * slots + total) / (2 * total))
    omega

theorem Fair.raise {s : Share} (h : 0 < s.count) : s.raise.Fair :=
  iff_of_true (Nat.succ_pos _) h

theorem Fair.lower {s : Share} (hs : s.Fair) (h : 1 < s.freq) : s.lower.Fair :=
  iff_of_true (Nat.sub_pos_of_lt h) (hs.1 (Nat.lt_of_succ_lt h))

end Share

/-- Fair shares of given counts. -/
structure FairShares (counts : List Nat) (shares : List Share) : Prop where
  /-- The shares are those of the counts. -/
  map_count : shares.map Share.count = counts
  /-- Every share is fair. -/
  fair : ∀ s ∈ shares, s.Fair

namespace FairShares

variable {counts : List Nat} {shares : List Share}

/-- Rounding makes fair shares. -/
theorem round (slots total : Nat) (counts : List Nat) :
    FairShares counts (counts.map (Share.round slots total)) where
  map_count := by
    rw [List.map_map]
    exact List.map_id _
  fair s hs := by
    obtain ⟨count, -, rfl⟩ := List.mem_map.1 hs
    exact Share.fair_round slots total count

/-- Changing the slots of one share keeps fair shares if it keeps that share fair. -/
theorem modify (h : FairShares counts shares) {f : Share → Share} {i : Nat} {s : Share}
    (hi : shares[i]? = some s) (hcount : ∀ s, (f s).count = s.count) (hf : (f s).Fair) :
    FairShares counts (shares.modify i f) where
  map_count := by
    rw [← h.map_count]
    apply List.ext_getElem?
    intro j
    rw [List.getElem?_map, List.getElem?_map, List.getElem?_modify]
    cases shares[j]? with
    | none => rfl
    | some s =>
      refine congrArg some ?_
      dsimp only
      split
      · exact hcount s
      · rfl
  fair s' hs' := by
    obtain ⟨j, hj⟩ := List.mem_iff_getElem?.1 hs'
    rw [List.getElem?_modify] at hj
    split at hj
    · next hij =>
      rw [← hij, hi] at hj
      cases hj
      exact hf
    · rw [id_map'] at hj
      exact h.fair s' (List.mem_of_getElem? hj)

theorem getD_frequencies_pos_iff (h : FairShares counts shares) {i : Nat} :
    0 < (frequencies shares).getD i 0 ↔ 0 < counts.getD i 0 := by
  rw [← h.map_count, frequencies, List.getD_eq_getElem?_getD, List.getD_eq_getElem?_getD,
    List.getElem?_map, List.getElem?_map]
  cases hs : shares[i]? with
  | none => exact Iff.rfl
  | some s => exact h.fair s (List.mem_of_getElem? hs)

end FairShares

/-! ## Slots handed out and taken back -/

section BestPlace

variable {better : Share → Share → Bool} {eligible : Share → Bool}

/-- The place found is the one to start with, or that of an eligible share. -/
theorem bestPlace_spec (best : Share) (place i : Nat) (shares : List Share) :
    bestPlace better eligible best place i shares = place ∨
      ∃ j s, bestPlace better eligible best place i shares = i + j ∧ shares[j]? = some s ∧
        eligible s := by
  induction shares generalizing best place i with
  | nil => exact .inl rfl
  | cons s shares ih =>
    rw [bestPlace]
    split
    · next h =>
      rcases ih s i (i + 1) with hplace | ⟨j, s', hplace, hget, hs'⟩
      · exact .inr ⟨0, s, hplace, rfl, (Bool.and_eq_true_iff.1 h).1⟩
      · exact .inr ⟨j + 1, s', by rw [hplace]; omega, hget, hs'⟩
    · rcases ih best place (i + 1) with hplace | ⟨j, s', hplace, hget, hs'⟩
      · exact .inl hplace
      · exact .inr ⟨j + 1, s', by rw [hplace]; omega, hget, hs'⟩

/-- The place found is that of an eligible share, counted from `i`. -/
theorem exists_of_bestPlace? {shares : List Share} {i k : Nat}
    (h : bestPlace? better eligible i shares = some k) :
    ∃ j s, k = i + j ∧ shares[j]? = some s ∧ eligible s := by
  induction shares generalizing i with
  | nil => cases h
  | cons s shares ih =>
    rw [bestPlace?] at h
    split at h
    · next hs =>
      cases h
      rcases bestPlace_spec s i (i + 1) shares with hplace | ⟨j, s', hplace, hget, hs'⟩
      · exact ⟨0, s, hplace, rfl, hs⟩
      · exact ⟨j + 1, s', by rw [hplace]; omega, hget, hs'⟩
    · obtain ⟨j, s', rfl, hget, hs'⟩ := ih h
      exact ⟨j + 1, s', by omega, hget, hs'⟩

end BestPlace

/-- Slots are handed out to symbols that occur. -/
theorem FairShares.handOut {counts : List Nat} {slots total n : Nat} {shares shares' : List Share}
    (hs : FairShares counts shares) (h : handOut slots total n shares = .ok shares') :
    FairShares counts shares' := by
  induction n generalizing shares with
  | zero =>
    cases h
    exact hs
  | succ n ih =>
    rw [EntropyCoding.handOut] at h
    split at h
    · next i hi =>
      obtain ⟨j, s, rfl, hget, hpos⟩ := exists_of_bestPlace? hi
      rw [Nat.zero_add] at h
      exact ih (hs.modify hget (f := Share.raise) (fun _ ↦ rfl) (.raise (of_decide_eq_true hpos))) h
    · cases h

/-- The last slot of a symbol is not taken back. -/
theorem FairShares.takeBack {counts : List Nat} {slots total n : Nat} {shares shares' : List Share}
    (hs : FairShares counts shares) (h : takeBack slots total n shares = .ok shares') :
    FairShares counts shares' := by
  induction n generalizing shares with
  | zero =>
    cases h
    exact hs
  | succ n ih =>
    rw [EntropyCoding.takeBack] at h
    split at h
    · next i hi =>
      obtain ⟨j, s, rfl, hget, hmore⟩ := exists_of_bestPlace? hi
      rw [Nat.zero_add] at h
      have hfair := hs.fair s (List.mem_of_getElem? hget)
      exact ih (hs.modify hget (f := Share.lower) (fun _ ↦ rfl)
        (hfair.lower (of_decide_eq_true hmore))) h
    · cases h

/-! ## Normalization -/

/-- Normalizing hands out or takes back slots after rounding, if any symbols occur. -/
theorem exists_shares_of_normalize {counts freqs : List Nat} {precision : Nat}
    (h : normalize counts precision = .ok freqs) (htotal : counts.sum ≠ 0) :
    ∃ shares n, freqs = frequencies shares ∧
      (handOut (2 ^ precision) counts.sum n (counts.map (Share.round (2 ^ precision) counts.sum)) =
          .ok shares ∨
        takeBack (2 ^ precision) counts.sum n
            (counts.map (Share.round (2 ^ precision) counts.sum)) = .ok shares) := by
  unfold normalize at h
  dsimp only at h
  rw [if_neg htotal] at h
  split at h
  · split at h
    · cases h
    · split at h
      · obtain ⟨shares, hshares, rfl⟩ := Except.map_eq_ok_iff.1 h
        exact ⟨shares, _, rfl, .inl hshares⟩
      · obtain ⟨shares, hshares, rfl⟩ := Except.map_eq_ok_iff.1 h
        exact ⟨shares, _, rfl, .inr hshares⟩
  · cases h

/-- Normalizing gives slots exactly to the symbols that occur, if any do. -/
theorem exists_fairShares_of_normalize {counts freqs : List Nat} {precision : Nat}
    (h : normalize counts precision = .ok freqs) (htotal : counts.sum ≠ 0) :
    ∃ shares, FairShares counts shares ∧ freqs = frequencies shares := by
  have hround := FairShares.round (2 ^ precision) counts.sum counts
  obtain ⟨shares, n, rfl, hshares | hshares⟩ := exists_shares_of_normalize h htotal
  · exact ⟨shares, hround.handOut hshares, rfl⟩
  · exact ⟨shares, hround.takeBack hshares, rfl⟩

/-- Without any counts symbol 0 gets all slots. -/
theorem eq_of_normalize_of_sum_eq_zero {counts freqs : List Nat} {precision : Nat}
    (h : normalize counts precision = .ok freqs) (htotal : counts.sum = 0) :
    freqs = 2 ^ precision :: List.replicate (counts.length - 1) 0 := by
  unfold normalize at h
  dsimp only at h
  rw [if_pos htotal] at h
  split at h
  · exact (Except.ok.inj h).symm
  · cases h

/-! ## The last symbol -/

/-- A list ends with a number that is not zero. -/
def EndsPositive (l : List Nat) : Prop :=
  ∃ init last, l = init ++ [last] ∧ 0 < last

/-- Trimmed counts end with one that is not zero. -/
theorem Histogram.endsPositive_trimmed {h : Histogram} (hne : h.trimmed ≠ []) :
    EndsPositive h.trimmed := by
  have hhead := List.head?_dropWhile_not (· == 0) h.counts.toList.reverse
  unfold trimmed at *
  cases hdrop : h.counts.toList.reverse.dropWhile (· == 0) with
  | nil =>
    rw [hdrop] at hne
    exact absurd rfl hne
  | cons last init =>
    rw [hdrop] at hhead
    refine ⟨init.reverse, last, List.reverse_cons, Nat.pos_of_ne_zero ?_⟩
    simpa using hhead

/-- Fair shares of counts whose last one is not zero end with a symbol that has slots. -/
theorem FairShares.endsPositive {counts : List Nat} {shares : List Share}
    (h : FairShares counts shares) (hc : EndsPositive counts) :
    EndsPositive (frequencies shares) := by
  obtain ⟨init, last, rfl, hlast⟩ := hc
  obtain ⟨shares, last', rfl, -, hmap⟩ := List.map_eq_append_iff.1 h.map_count
  obtain ⟨s, rfl, rfl⟩ := List.map_eq_singleton_iff.1 hmap
  refine ⟨shares.map Share.freq, s.freq, List.map_append, ?_⟩
  exact (h.fair s (List.mem_append_right _ List.mem_cons_self)).2 hlast

/-- The frequencies of a histogram end with a symbol that has slots. -/
theorem endsPositive_of_normalize {h : Histogram} {freqs : List Nat} {precision : Nat}
    (hf : normalize h.trimmed precision = .ok freqs) : EndsPositive freqs := by
  by_cases hne : h.trimmed = []
  · have := eq_of_normalize_of_sum_eq_zero hf (by rw [hne]; rfl)
    rw [hne] at this
    exact ⟨[], 2 ^ precision, this, Nat.two_pow_pos _⟩
  · have hend := Histogram.endsPositive_trimmed hne
    have htotal : h.trimmed.sum ≠ 0 := by
      obtain ⟨init, last, heq, hlast⟩ := hend
      rw [heq, List.sum_append, List.sum_singleton]
      omega
    obtain ⟨shares, hshares, rfl⟩ := exists_fairShares_of_normalize hf htotal
    exact hshares.endsPositive hend

end EntropyCoding
