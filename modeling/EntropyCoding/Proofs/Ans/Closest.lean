import EntropyCoding.Proofs.Ans.Normalize
import Mathlib.Algebra.BigOperators.Ring.Finset
import Mathlib.Algebra.Order.BigOperators.Group.Finset
import Mathlib.Tactic.Linarith
import Mathlib.Tactic.Ring

/-!
# The closest frequencies

Normalized frequencies are as close to the exact shares of the counts as whole numbers that fill the
table can be, where the distance is the sum of the squared shortfalls: `normalize_closest`.

Nobody falls short by more than one slot beyond a symbol that has a slot to give, `BalancedShares`.
Rounding starts with such shares, and they stay balanced because a slot is handed out to the symbol
that falls short most, and taken back from the one that falls short least.  In the end the largest
shortfall is a price for slots at which no symbol gains by a trade, `Share.sq_shortfall_le`: what
other frequencies improve on some symbols is paid for by others, because all of them use the same
number of slots.
-/

namespace EntropyCoding

namespace Share

variable {slots total : Nat} {s : Share}

/-! ## One share -/

@[simp] theorem shortfall_raise : s.raise.shortfall slots total = s.shortfall slots total - total := by
  simp only [shortfall, raise, Nat.add_mul, Nat.one_mul]
  omega

theorem shortfall_lower (h : 0 < s.freq) :
    s.lower.shortfall slots total = s.shortfall slots total + total := by
  obtain ⟨freq, hfreq⟩ := Nat.exists_eq_add_one_of_ne_zero (Nat.ne_of_gt h)
  simp only [shortfall, lower, hfreq, Nat.add_sub_cancel, Nat.add_mul, Nat.one_mul]
  omega

/-- A rounded share falls short by less than half a slot. -/
theorem two_mul_shortfall_round_lt (htotal : 0 < total) (slots count : Nat) :
    2 * (round slots total count).shortfall slots total < total := by
  unfold round shortfall
  dsimp only
  split
  · next hzero =>
    rw [hzero, Nat.zero_mul, Nat.zero_mul]
    omega
  · have hquotient := Nat.lt_div_mul_add (a := 2 * count * slots + total) (b := 2 * total) (by omega)
    generalize (2 * count * slots + total) / (2 * total) = quotient at hquotient ⊢
    have hmax := Nat.mul_le_mul_right total (Nat.le_max_right 1 quotient)
    rw [Nat.mul_left_comm, Nat.mul_assoc] at hquotient
    omega

/-- It exceeds its exact size by half a slot at most, unless that is its only slot. -/
theorem le_two_mul_shortfall_round {count : Nat} (h : 1 < (round slots total count).freq) :
    -total ≤ 2 * (round slots total count).shortfall slots total := by
  unfold round at h ⊢
  unfold shortfall
  dsimp only at h ⊢
  split at h
  · cases h
  · next hzero =>
    rw [if_neg hzero]
    have hquotient := Nat.div_mul_le_self (2 * count * slots + total) (2 * total)
    generalize (2 * count * slots + total) / (2 * total) = quotient at h hquotient ⊢
    have hmax : max 1 quotient = quotient := by omega
    rw [Nat.mul_left_comm, Nat.mul_assoc] at hquotient
    rw [hmax]
    omega

/-- If slots have a price at which a symbol does not gain by taking more of them, nor by giving any
away if it has any to give, then no other frequency is closer than its own by more than the price of
the difference. -/
theorem sq_shortfall_le {price : Int} (hmore : s.shortfall slots total ≤ price)
    (hless : 1 < s.freq → price ≤ s.shortfall slots total + total) {g : Int} (hg : 1 ≤ g) :
    s.shortfall slots total ^ 2 + (g - s.freq) * (total * (total - 2 * price)) ≤
      ((s.count * slots : Nat) - g * total) ^ 2 := by
  have htotal : (0 : Int) ≤ total := Int.natCast_nonneg total
  have hexact : ((s.count * slots : Nat) : Int) - g * total =
      s.shortfall slots total - (g - s.freq) * total := by
    rw [shortfall, Nat.cast_mul s.freq]
    ring
  rw [hexact]
  generalize s.shortfall slots total = x at hmore hless
  rcases lt_trichotomy g s.freq with hlt | heq | hgt
  · have hgain := hless (by omega)
    nlinarith [mul_nonneg (mul_nonneg (show (0 : Int) ≤ s.freq - g by omega) htotal)
      (show (0 : Int) ≤ (s.freq - g - 1) * total + 2 * (x + total - price) from
        add_nonneg (mul_nonneg (by omega) htotal) (by omega))]
  · rw [heq, sub_self, zero_mul, zero_mul, add_zero, sub_zero]
  · nlinarith [mul_nonneg (mul_nonneg (show (0 : Int) ≤ g - s.freq by omega) htotal)
      (show (0 : Int) ≤ (g - s.freq - 1) * total + 2 * (price - x) from
        add_nonneg (mul_nonneg (by omega) htotal) (by omega))]

end Share

/-! ## The best share -/

section BestPlace

variable {better : Share → Share → Bool} {eligible : Share → Bool} {key : Share → Int}
  (hbetter : ∀ a b, better a b ↔ key b < key a)
include hbetter

/-- What is found has the largest key, if shares are better if they have a larger key. -/
theorem exists_largest_of_bestPlace (best : Share) (place i : Nat) (shares : List Share) :
    ∃ s, (bestPlace better eligible best place i shares = place ∧ s = best ∨
        ∃ j, bestPlace better eligible best place i shares = i + j ∧ shares[j]? = some s ∧
          eligible s) ∧
      key best ≤ key s ∧ ∀ a ∈ shares, eligible a → key a ≤ key s := by
  induction shares generalizing best place i with
  | nil => exact ⟨best, .inl ⟨rfl, rfl⟩, le_rfl, nofun⟩
  | cons a shares ih =>
    rw [bestPlace]
    split
    · next h =>
      obtain ⟨ha, hlt⟩ := Bool.and_eq_true_iff.1 h
      have hlt := (hbetter a best).1 hlt
      obtain ⟨s, hfound, hle, hall⟩ := ih a i (i + 1)
      refine ⟨s, .inr ?_, hlt.le.trans hle, List.forall_mem_cons.2 ⟨fun _ ↦ hle, hall⟩⟩
      rcases hfound with ⟨hplace, rfl⟩ | ⟨j, hplace, hget, hs⟩
      · exact ⟨0, hplace, rfl, ha⟩
      · exact ⟨j + 1, by rw [hplace]; omega, hget, hs⟩
    · next h =>
      obtain ⟨s, hfound, hle, hall⟩ := ih best place (i + 1)
      refine ⟨s, ?_, hle, List.forall_mem_cons.2 ⟨fun ha ↦ ?_, hall⟩⟩
      · rcases hfound with hfound | ⟨j, hplace, hget, hs⟩
        · exact .inl hfound
        · exact .inr ⟨j + 1, by rw [hplace]; omega, hget, hs⟩
      · refine le_trans (not_lt.1 fun hlt ↦ h ?_) hle
        exact Bool.and_eq_true_iff.2 ⟨ha, (hbetter a best).2 hlt⟩

/-- Of the eligible shares, too. -/
theorem exists_largest_of_bestPlace? {shares : List Share} {i k : Nat}
    (h : bestPlace? better eligible i shares = some k) :
    ∃ j s, k = i + j ∧ shares[j]? = some s ∧ eligible s ∧
      ∀ a ∈ shares, eligible a → key a ≤ key s := by
  induction shares generalizing i with
  | nil => cases h
  | cons a shares ih =>
    rw [bestPlace?] at h
    split at h
    · next ha =>
      cases h
      obtain ⟨s, hfound, hle, hall⟩ := exists_largest_of_bestPlace hbetter a i (i + 1) shares
      rcases hfound with ⟨hplace, rfl⟩ | ⟨j, hplace, hget, hs⟩
      · exact ⟨0, s, hplace, rfl, ha, List.forall_mem_cons.2 ⟨fun _ ↦ le_rfl, hall⟩⟩
      · exact ⟨j + 1, s, by rw [hplace]; omega, hget, hs, List.forall_mem_cons.2 ⟨fun _ ↦ hle, hall⟩⟩
    · next ha =>
      obtain ⟨j, s, rfl, hget, hs, hall⟩ := ih h
      exact ⟨j + 1, s, by omega, hget, hs, List.forall_mem_cons.2 ⟨fun ha' ↦ absurd ha' ha, hall⟩⟩

end BestPlace

section

variable {slots total i : Nat} {shares : List Share}

/-- A slot is handed out to a symbol that occurs and falls short most. -/
theorem exists_neediest
    (h : bestPlace? (fun a b ↦ b.isLessShort slots total a) (0 < ·.count) 0 shares = some i) :
    ∃ s, shares[i]? = some s ∧ 0 < s.count ∧
      ∀ a ∈ shares, 0 < a.count → a.shortfall slots total ≤ s.shortfall slots total := by
  have hbetter (a b : Share) : b.isLessShort slots total a ↔
      b.shortfall slots total < a.shortfall slots total := Share.isLessShort_iff
  obtain ⟨j, s, rfl, hget, hs, hall⟩ := exists_largest_of_bestPlace? hbetter h
  rw [Nat.zero_add]
  exact ⟨s, hget, of_decide_eq_true hs, fun a ha hpos ↦ hall a ha (decide_eq_true hpos)⟩

/-- A slot is taken back from a symbol that has more than one and falls short least. -/
theorem exists_most_generous
    (h : bestPlace? (fun a b ↦ a.isLessShort slots total b) (1 < ·.freq) 0 shares = some i) :
    ∃ s, shares[i]? = some s ∧ 1 < s.freq ∧
      ∀ a ∈ shares, 1 < a.freq → s.shortfall slots total ≤ a.shortfall slots total := by
  have hbetter (a b : Share) : a.isLessShort slots total b ↔
      -b.shortfall slots total < -a.shortfall slots total :=
    Share.isLessShort_iff.trans neg_lt_neg_iff.symm
  obtain ⟨j, s, rfl, hget, hs, hall⟩ := exists_largest_of_bestPlace? hbetter h
  rw [Nat.zero_add]
  exact ⟨s, hget, of_decide_eq_true hs, fun a ha hmore ↦
    neg_le_neg_iff.1 (hall a ha (decide_eq_true hmore))⟩

end

/-! ## Balanced shares -/

/-- Fair shares of which none falls short by more than one slot beyond a share that has a slot to
give. -/
structure BalancedShares (slots total : Nat) (counts : List Nat) (shares : List Share) : Prop
    extends FairShares counts shares where
  /-- A slot that is given away would be missed as much as it is needed. -/
  shortfall_le : ∀ a ∈ shares, ∀ b ∈ shares, 0 < a.count → 1 < b.freq →
    a.shortfall slots total ≤ b.shortfall slots total + total

/-- The members of a list in which one place is changed. -/
theorem mem_modify {α : Type} {l : List α} {i : Nat} {a b : α} {f : α → α} (hi : l[i]? = some a)
    (hb : b ∈ l.modify i f) : b = f a ∨ b ∈ l := by
  obtain ⟨j, hj⟩ := List.mem_iff_getElem?.1 hb
  rw [List.getElem?_modify] at hj
  split at hj
  · next hij =>
    rw [← hij, hi] at hj
    exact .inl (Option.some.inj hj).symm
  · rw [id_map'] at hj
    exact .inr (List.mem_of_getElem? hj)

namespace BalancedShares

variable {slots total n : Nat} {counts : List Nat} {shares shares' : List Share}

/-- Rounded shares are balanced: none falls short by half a slot, and one that has a slot to give
exceeds its exact size by half a slot at most. -/
theorem round (htotal : 0 < total) (slots : Nat) (counts : List Nat) :
    BalancedShares slots total counts (counts.map (Share.round slots total)) where
  toFairShares := .round slots total counts
  shortfall_le a ha b hb _ hmore := by
    obtain ⟨count, -, rfl⟩ := List.mem_map.1 ha
    obtain ⟨count', -, rfl⟩ := List.mem_map.1 hb
    have hshort := Share.two_mul_shortfall_round_lt htotal slots count
    have hlong := Share.le_two_mul_shortfall_round hmore
    omega

section

variable (h : BalancedShares slots total counts shares) {i : Nat} {s : Share}
  (hi : shares[i]? = some s)
include h hi

/-- Shares stay balanced if the one that falls short most gets a slot. -/
theorem raise (hpos : 0 < s.count)
    (hmost : ∀ a ∈ shares, 0 < a.count → a.shortfall slots total ≤ s.shortfall slots total) :
    BalancedShares slots total counts (shares.modify i Share.raise) where
  toFairShares := h.toFairShares.modify hi (fun _ ↦ rfl) (.raise hpos)
  shortfall_le a ha b hb hapos hmore := by
    have hs := List.mem_of_getElem? hi
    rcases mem_modify hi ha with rfl | ha
    · rcases mem_modify hi hb with rfl | hb
      · omega
      · have := h.shortfall_le s hs b hb hpos hmore
        rw [Share.shortfall_raise]
        omega
    · rcases mem_modify hi hb with rfl | hb
      · have := hmost a ha hapos
        rw [Share.shortfall_raise]
        omega
      · exact h.shortfall_le a ha b hb hapos hmore

/-- Shares stay balanced if the one that falls short least loses a slot. -/
theorem lower (hmore : 1 < s.freq)
    (hleast : ∀ a ∈ shares, 1 < a.freq → s.shortfall slots total ≤ a.shortfall slots total) :
    BalancedShares slots total counts (shares.modify i Share.lower) where
  toFairShares := h.toFairShares.modify hi (fun _ ↦ rfl)
    ((h.fair s (List.mem_of_getElem? hi)).lower hmore)
  shortfall_le a ha b hb hapos hbmore := by
    have hs := List.mem_of_getElem? hi
    have hlower : s.lower.shortfall slots total = s.shortfall slots total + total :=
      Share.shortfall_lower (Nat.zero_lt_of_lt hmore)
    rcases mem_modify hi ha with rfl | ha
    · rcases mem_modify hi hb with rfl | hb
      · omega
      · have := hleast b hb hbmore
        omega
    · rcases mem_modify hi hb with rfl | hb
      · have := h.shortfall_le a ha s hs hapos hmore
        omega
      · exact h.shortfall_le a ha b hb hapos hbmore

end

/-- Shares stay balanced while slots are handed out. -/
theorem handOut (h : BalancedShares slots total counts shares)
    (hok : handOut slots total n shares = .ok shares') :
    BalancedShares slots total counts shares' := by
  induction n generalizing shares with
  | zero =>
    cases hok
    exact h
  | succ n ih =>
    rw [EntropyCoding.handOut] at hok
    split at hok
    · next i hi =>
      obtain ⟨s, hget, hpos, hmost⟩ := exists_neediest hi
      exact ih (h.raise hget hpos hmost) hok
    · cases hok

/-- Shares stay balanced while slots are taken back. -/
theorem takeBack (h : BalancedShares slots total counts shares)
    (hok : takeBack slots total n shares = .ok shares') :
    BalancedShares slots total counts shares' := by
  induction n generalizing shares with
  | zero =>
    cases hok
    exact h
  | succ n ih =>
    rw [EntropyCoding.takeBack] at hok
    split at hok
    · next i hi =>
      obtain ⟨s, hget, hmore, hleast⟩ := exists_most_generous hi
      exact ih (h.lower hget hmore hleast) hok
    · cases hok

end BalancedShares

/-- Normalized frequencies are those of balanced shares, if any symbols occur. -/
theorem exists_balancedShares_of_normalize {counts freqs : List Nat} {precision : Nat}
    (h : normalize counts precision = .ok freqs) (htotal : counts.sum ≠ 0) :
    ∃ shares, BalancedShares (2 ^ precision) counts.sum counts shares ∧
      freqs = frequencies shares := by
  have hround := BalancedShares.round (Nat.pos_of_ne_zero htotal) (2 ^ precision) counts
  obtain ⟨shares, n, rfl, hshares | hshares⟩ := exists_shares_of_normalize h htotal
  · exact ⟨shares, hround.handOut hshares, rfl⟩
  · exact ⟨shares, hround.takeBack hshares, rfl⟩

/-! ## Frequencies that fill a table -/

/-- Whole numbers of slots that make up a table and of which every symbol has some if it occurs, and
none if it does not. -/
structure FillsTable (counts : List Nat) (slots : Nat) (freqs : Nat → Int) : Prop where
  /-- A symbol that occurs has a slot. -/
  one_le : ∀ s, 0 < counts.getD s 0 → 1 ≤ freqs s
  /-- A symbol of the alphabet that does not occur has none. -/
  eq_zero : ∀ s < counts.length, counts.getD s 0 = 0 → freqs s = 0
  /-- All slots are used. -/
  sum_eq : ∑ s ∈ Finset.range counts.length, freqs s = slots

/-- How far frequencies are from the exact shares of the counts: the sum of the squared differences,
in units of one `counts.sum`-th of a slot. -/
def deviation (counts : List Nat) (slots : Nat) (freqs : Nat → Int) : Int :=
  ∑ s ∈ Finset.range counts.length,
    ((counts.getD s 0 * slots : Nat) - freqs s * (counts.sum : Nat)) ^ 2

theorem sum_range_getD (l : List Nat) :
    ∑ s ∈ Finset.range l.length, (l.getD s 0 : Int) = l.sum := by
  rw [sum_eq_sum_range (Nat.le_refl l.length), Nat.cast_sum]

namespace BalancedShares

variable {slots total : Nat} {counts : List Nat} {shares : List Share}
  (h : BalancedShares slots total counts shares)
include h

/-- The share of a symbol of the alphabet. -/
theorem exists_share {s : Nat} (hs : s < counts.length) :
    ∃ a ∈ shares, a.count = counts.getD s 0 ∧ a.freq = (frequencies shares).getD s 0 := by
  have hlt : s < shares.length := by
    rwa [← h.map_count, List.length_map] at hs
  refine ⟨shares[s], List.getElem_mem hlt, ?_, ?_⟩
  · rw [← h.map_count, List.getD_eq_getElem?_getD, List.getElem?_map, List.getElem?_eq_getElem hlt]
    rfl
  · rw [frequencies, List.getD_eq_getElem?_getD, List.getElem?_map, List.getElem?_eq_getElem hlt]
    rfl

/-- There is a price for slots at which no symbol gains by a trade, if any symbols occur. -/
theorem exists_price (hsum : counts.sum ≠ 0) : ∃ price : Int, ∀ a ∈ shares, 0 < a.count →
    a.shortfall slots total ≤ price ∧ (1 < a.freq → price ≤ a.shortfall slots total + total) := by
  obtain ⟨a, ha, hpos⟩ := h.exists_count_pos hsum
  obtain ⟨i, hi⟩ := exists_bestPlace? (fun a b ↦ b.isLessShort slots total a) (0 < ·.count) ha
    (decide_eq_true hpos) 0
  obtain ⟨s, hget, hspos, hmost⟩ := exists_neediest hi
  exact ⟨s.shortfall slots total, fun b hb hbpos ↦
    ⟨hmost b hb hbpos, h.shortfall_le s (List.mem_of_getElem? hget) b hb hspos⟩⟩

/-- Balanced shares are at least as close as other frequencies that use as many slots. -/
theorem deviation_le (htotal : counts.sum = total) (hsum : counts.sum ≠ 0) {g : Nat → Int}
    (hfill : (frequencies shares).sum = slots) (hg : FillsTable counts slots g) :
    deviation counts slots (fun s ↦ (frequencies shares).getD s 0) ≤ deviation counts slots g := by
  subst htotal
  obtain ⟨price, hprice⟩ := h.exists_price hsum
  have hsame : ∑ s ∈ Finset.range counts.length, (g s - ((frequencies shares).getD s 0 : Nat)) = 0 := by
    rw [Finset.sum_sub_distrib, hg.sum_eq, ← h.length_frequencies, sum_range_getD, hfill, sub_self]
  calc deviation counts slots (fun s ↦ (frequencies shares).getD s 0)
      = ∑ s ∈ Finset.range counts.length,
          (((counts.getD s 0 * slots : Nat) -
              ((frequencies shares).getD s 0 : Nat) * (counts.sum : Nat)) ^ 2 +
            (g s - ((frequencies shares).getD s 0 : Nat)) *
              (counts.sum * (counts.sum - 2 * price))) := by
        rw [Finset.sum_add_distrib, ← Finset.sum_mul, hsame, zero_mul, add_zero, deviation]
    _ ≤ deviation counts slots g := by
        refine Finset.sum_le_sum fun s hs ↦ ?_
        have hs := Finset.mem_range.1 hs
        obtain ⟨a, ha, hcount, hfreq⟩ := h.exists_share hs
        rw [← hcount, ← hfreq, ← Nat.cast_mul a.freq]
        rcases Nat.eq_zero_or_pos a.count with hzero | hpos
        · -- a symbol that does not occur has no slots on either side
          have hnone : a.freq = 0 := by
            have := (h.fair a ha).1
            omega
          rw [hg.eq_zero s hs (hcount ▸ hzero), hnone]
          simp
        · obtain ⟨hmore, hless⟩ := hprice a ha hpos
          exact Share.sq_shortfall_le hmore hless (hg.one_le s (hcount ▸ hpos))

/-- A symbol that occurs more often has at least as many slots. -/
theorem getD_frequencies_le (hslots : 0 < slots) {i j : Nat}
    (hlt : counts.getD j 0 < counts.getD i 0) :
    (frequencies shares).getD j 0 ≤ (frequencies shares).getD i 0 := by
  apply Decidable.byContradiction
  intro hnot
  have hfreq := Nat.not_le.1 hnot
  have hjpos := h.getD_frequencies_pos_iff.1 (Nat.zero_lt_of_lt hfreq)
  have hipos := h.getD_frequencies_pos_iff.2 (Nat.zero_lt_of_lt hlt)
  obtain ⟨a, ha, hacount, hafreq⟩ := h.exists_share (lt_length_of_pos (Nat.zero_lt_of_lt hlt))
  obtain ⟨b, hb, hbcount, hbfreq⟩ := h.exists_share (lt_length_of_pos hjpos)
  rw [← hacount, ← hbcount] at hlt
  rw [← hafreq] at hfreq hipos
  rw [← hbfreq] at hfreq
  -- the rarer symbol could give a slot to the other
  have hshort := h.shortfall_le a ha b hb (Nat.zero_lt_of_lt hlt) (by omega)
  have hcounts : (b.count + 1) * slots ≤ a.count * slots := Nat.mul_le_mul_right _ hlt
  have hfreqs : (a.freq + 1) * total ≤ b.freq * total := Nat.mul_le_mul_right _ hfreq
  rw [Nat.succ_mul] at hcounts hfreqs
  unfold Share.shortfall at hshort
  omega

end BalancedShares

/-! ## Normalization -/

/-- Counts that have been normalized fill the table. -/
theorem sum_eq_of_normalize {counts freqs : List Nat} {precision : Nat}
    (h : normalize counts precision = .ok freqs) :
    freqs.sum = 2 ^ precision ∧ freqs.length = max 1 counts.length := by
  have hprecision : isTablePrecision precision := by
    apply Decidable.byContradiction
    intro hnot
    rw [normalize] at h
    dsimp only at h
    rw [if_neg hnot] at h
    cases h
  rcases Nat.lt_or_ge (2 ^ precision) (counts.countP (0 < ·)) with hused | hused
  · rw [normalize_of_lt hprecision hused] at h
    cases h
  · obtain ⟨freqs', hok, hspec⟩ := exists_normalize hprecision hused
    obtain rfl := Except.ok.inj (h.symm.trans hok)
    exact hspec

/-- Among all whole numbers of slots that fill the table, the frequencies of counts are as close to
their exact shares as any; so a symbol that occurs more often than another has no fewer slots. -/
theorem normalize_closest {counts freqs : List Nat} {precision : Nat}
    (h : normalize counts precision = .ok freqs) (htotal : 0 < counts.sum) :
    freqs.length = counts.length ∧
    FillsTable counts (2 ^ precision) (fun s ↦ freqs.getD s 0) ∧
    (∀ g, FillsTable counts (2 ^ precision) g →
      deviation counts (2 ^ precision) (fun s ↦ freqs.getD s 0) ≤
        deviation counts (2 ^ precision) g) ∧
    ∀ i j, counts.getD j 0 < counts.getD i 0 → freqs.getD j 0 ≤ freqs.getD i 0 := by
  obtain ⟨hsum, -⟩ := sum_eq_of_normalize h
  obtain ⟨shares, hs, rfl⟩ := exists_balancedShares_of_normalize h (Nat.ne_of_gt htotal)
  refine ⟨hs.length_frequencies, ⟨fun s hpos ↦ ?_, fun s _ hzero ↦ ?_, ?_⟩, fun g hg ↦ ?_,
    fun i j hlt ↦ ?_⟩
  · exact Int.natCast_pos.2 (hs.getD_frequencies_pos_iff.2 hpos)
  · have := hs.getD_frequencies_pos_iff (i := s)
    omega
  · rw [← hs.length_frequencies, sum_range_getD, hsum]
  · exact hs.deviation_le rfl (Nat.ne_of_gt htotal) hsum hg
  · exact hs.getD_frequencies_le (Nat.two_pow_pos precision) hlt

/-- Three symbols tie for the two slots that rounding gives out too many; to take them from the same
symbol, and give another one to the rarest, would not be closer. -/
theorem normalize_closest_tied :
    normalize [1, 0, 9, 9, 9] 3 = .ok [1, 0, 2, 2, 3] ∧ 0 < [1, 0, 9, 9, 9].sum ∧
      FillsTable [1, 0, 9, 9, 9] (2 ^ 3) (fun s ↦ [2, 0, 1, 2, 3].getD s 0) ∧
      deviation [1, 0, 9, 9, 9] (2 ^ 3) (fun s ↦ ([1, 0, 2, 2, 3].getD s 0 : Nat)) ≤
        deviation [1, 0, 9, 9, 9] (2 ^ 3) (fun s ↦ [2, 0, 1, 2, 3].getD s 0) ∧
      [1, 0, 9, 9, 9].getD 0 0 < [1, 0, 9, 9, 9].getD 4 0 ∧
      [1, 0, 2, 2, 3].getD 0 0 ≤ [1, 0, 2, 2, 3].getD 4 0 := by
  have hok : normalize [1, 0, 9, 9, 9] 3 = .ok [1, 0, 2, 2, 3] := by decide
  have htotal : 0 < [1, 0, 9, 9, 9].sum := by decide
  have hlt : [1, 0, 9, 9, 9].getD 0 0 < [1, 0, 9, 9, 9].getD 4 0 := by decide
  have hfill : FillsTable [1, 0, 9, 9, 9] (2 ^ 3) (fun s ↦ [2, 0, 1, 2, 3].getD s 0) := by
    refine ⟨fun s hpos ↦ ?_, by decide, by decide⟩
    have hall : ∀ s < 5, 0 < [1, 0, 9, 9, 9].getD s 0 → (1 : Int) ≤ [2, 0, 1, 2, 3].getD s 0 := by
      decide
    exact hall s (lt_length_of_pos hpos) hpos
  obtain ⟨-, -, hclosest, hmonotone⟩ := normalize_closest hok htotal
  exact ⟨hok, htotal, hfill, hclosest _ hfill, hlt, hmonotone 4 0 hlt⟩

end EntropyCoding
