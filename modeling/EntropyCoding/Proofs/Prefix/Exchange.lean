import EntropyCoding.Proofs.Prefix.Optimality

/-!
# Exchanges in codes of least cost

If some symbols of a code get codewords that are one bit longer, there is room for others to get
codewords that are one bit shorter.  In a code of least cost nothing is gained by that: symbols that need
no more room than others give are not heavier, `CostsLeast.sum_le_of_space`.  So a heavier symbol has no
longer codeword, `CostsLeast.depth_le_of_lt`, and the codeword of a lightest symbol is shorter than
another one by a bit at most, `CostsLeast.depth_le_succ`.

Among powers of two there are always some that add up to a given one, `exists_subset_sum_two_pow`.  If all
of them are multiples of it but one is odd, there are some for every even number below it that is
by two less than a power, `exists_subset_sum_two_pow_sub_two`.
-/

namespace EntropyCoding

/-- The depths of a complete code for the symbols of a set that costs least for their weights: no depths
that respect the code space cost less. -/
structure CostsLeast (S : Finset Nat) (w e : Nat → Nat) : Prop where
  /-- The codewords take all of the code space. -/
  sum_eq_one : ∑ s ∈ S, (1 / 2 : ℚ) ^ e s = 1
  /-- Depths that respect the code space do not cost less. -/
  cost_le : ∀ e' : Nat → Nat, ∑ s ∈ S, (1 / 2 : ℚ) ^ e' s ≤ 1 →
    ∑ s ∈ S, w s * e s ≤ ∑ s ∈ S, w s * e' s

/-- The depths found for counts cost least for the weights at the floor where the search ends. -/
theorem costsLeast_limitedDepths {counts depths : List Nat} {limit : Nat}
    (h : limitedDepths counts limit = .ok depths) (hused : 2 ≤ (usedSet counts).card) :
    CostsLeast (usedSet counts)
      (fun s ↦ max (counts.getD s 0) (depthsWithin (usedSymbols counts) limit).floor)
      fun s ↦ depths.getD s 0 where
  sum_eq_one := sum_half_pow_depths h hused
  cost_le _ he := cost_limitedDepths_le h hused he

namespace CostsLeast

variable {S : Finset Nat} {w e : Nat → Nat} (h : CostsLeast S w e)

/-- The depths when the symbols of one set have come up by a level and those of another one have gone
down. -/
def exchanged (e : Nat → Nat) (up down : Finset Nat) (s : Nat) : Nat :=
  if s ∈ up then e s - 1 else if s ∈ down then e s + 1 else e s

include h

/-- Symbols that come up by a level take no more of the code space than others leave that go down by one;
then they are not heavier. -/
theorem sum_le_of_space {up down : Finset Nat} (hup : up ⊆ S) (hdown : down ⊆ S)
    (hdisjoint : Disjoint up down)
    (hspace : 2 * ∑ s ∈ up, (1 / 2 : ℚ) ^ e s ≤ ∑ s ∈ down, (1 / 2 : ℚ) ^ e s) :
    ∑ s ∈ up, w s ≤ ∑ s ∈ down, w s := by
  have hnonneg (s : Nat) : (0 : ℚ) ≤ (1 / 2) ^ e s := by positivity
  have hdown_le : ∑ s ∈ down, (1 / 2 : ℚ) ^ e s ≤ 1 :=
    (Finset.sum_le_sum_of_subset_of_nonneg hdown fun s _ _ ↦ hnonneg s).trans_eq h.sum_eq_one
  -- a symbol at the root takes all of the code space, and nothing could make room for it
  have hpos : ∀ s ∈ up, 0 < e s := by
    intro s hs
    by_contra hzero
    have hle := Finset.single_le_sum (fun s _ ↦ hnonneg s) hs
    rw [Nat.eq_zero_of_not_pos hzero, pow_zero] at hle
    linarith
  have hnot : ∀ s ∈ up, s ∉ down := fun s hs ↦ Finset.disjoint_left.1 hdisjoint hs
  have hterm (s : Nat) : (1 / 2 : ℚ) ^ exchanged e up down s = (1 / 2) ^ e s +
      (if s ∈ up then (1 / 2 : ℚ) ^ e s else 0) -
        if s ∈ down then (1 / 2 : ℚ) ^ e s * (1 / 2) else 0 := by
    by_cases hs : s ∈ up
    · obtain ⟨d, hd⟩ := Nat.exists_eq_succ_of_ne_zero (Nat.ne_of_gt (hpos s hs))
      rw [exchanged, if_pos hs, if_pos hs, if_neg (hnot s hs), hd, Nat.succ_sub_one, pow_succ]
      ring
    · by_cases hs' : s ∈ down
      · rw [exchanged, if_neg hs, if_neg hs, if_pos hs', if_pos hs', pow_succ]
        ring
      · rw [exchanged, if_neg hs, if_neg hs, if_neg hs', if_neg hs', add_zero, sub_zero]
  have hcost (s : Nat) : w s * exchanged e up down s + (if s ∈ up then w s else 0) =
      w s * e s + if s ∈ down then w s else 0 := by
    by_cases hs : s ∈ up
    · obtain ⟨d, hd⟩ := Nat.exists_eq_succ_of_ne_zero (Nat.ne_of_gt (hpos s hs))
      rw [exchanged, if_pos hs, if_pos hs, if_neg (hnot s hs), hd, Nat.succ_sub_one, Nat.mul_succ,
        add_zero]
    · by_cases hs' : s ∈ down
      · rw [exchanged, if_neg hs, if_neg hs, if_pos hs', if_pos hs', Nat.mul_succ, add_zero]
      · rw [exchanged, if_neg hs, if_neg hs, if_neg hs', if_neg hs']
  have hle := h.cost_le (exchanged e up down) (by
    simp only [hterm, Finset.sum_add_distrib, Finset.sum_sub_distrib, Finset.sum_ite_mem, h.sum_eq_one,
      Finset.inter_eq_right.2 hup, Finset.inter_eq_right.2 hdown, ← Finset.sum_mul]
    linarith)
  have hsum := Finset.sum_congr (rfl : S = S) fun s _ ↦ hcost s
  simp only [Finset.sum_add_distrib, Finset.sum_ite_mem, Finset.inter_eq_right.2 hup,
    Finset.inter_eq_right.2 hdown] at hsum
  omega

/-- The codewords take all of the code space, also in units of `2 ^ -n`. -/
theorem sum_two_pow_eq {n : Nat} (hn : ∀ s ∈ S, e s ≤ n) : ∑ s ∈ S, 2 ^ (n - e s) = 2 ^ n := by
  have hcast := cast_sum_two_pow_sub hn
  rw [h.sum_eq_one, mul_one] at hcast
  exact_mod_cast hcast

/-- Symbols that come up are not heavier than those that go down, with the code space in units of
`2 ^ -n`. -/
theorem sum_le_of_two_pow {n : Nat} (hn : ∀ s ∈ S, e s ≤ n) {up down : Finset Nat} (hup : up ⊆ S)
    (hdown : down ⊆ S) (hdisjoint : Disjoint up down)
    (hspace : 2 * ∑ s ∈ up, 2 ^ (n - e s) ≤ ∑ s ∈ down, 2 ^ (n - e s)) :
    ∑ s ∈ up, w s ≤ ∑ s ∈ down, w s := by
  refine h.sum_le_of_space hup hdown hdisjoint ?_
  have hcast : 2 * ((∑ s ∈ up, 2 ^ (n - e s) : Nat) : ℚ) ≤ (∑ s ∈ down, 2 ^ (n - e s) : Nat) := by
    exact_mod_cast hspace
  rw [cast_sum_two_pow_sub fun s hs ↦ hn s (hup hs), cast_sum_two_pow_sub fun s hs ↦ hn s (hdown hs),
    mul_left_comm] at hcast
  exact le_of_mul_le_mul_left hcast (by positivity)

/-- A heavier symbol has no longer codeword. -/
theorem depth_le_of_lt {a b : Nat} (ha : a ∈ S) (hb : b ∈ S) (hlt : w b < w a) : e a ≤ e b := by
  by_contra hdeep
  have hn : ∀ s ∈ S, e s ≤ S.sup e := fun s hs ↦ Finset.le_sup hs
  have hne : a ≠ b := fun hab ↦ Nat.lt_irrefl _ (hab ▸ hlt)
  have hspace : 2 * 2 ^ (S.sup e - e a) ≤ 2 ^ (S.sup e - e b) := by
    have := hn a ha
    rw [← Nat.pow_succ']
    exact Nat.pow_le_pow_right Nat.two_pos (by omega)
  have hle := h.sum_le_of_two_pow hn (Finset.singleton_subset_iff.2 ha)
    (Finset.singleton_subset_iff.2 hb) (Finset.disjoint_singleton.2 hne)
    (by rwa [Finset.sum_singleton, Finset.sum_singleton])
  rw [Finset.sum_singleton, Finset.sum_singleton] at hle
  exact Nat.not_le.2 hlt hle

/-- No symbol is the only one below a level. -/
theorem exists_ne_of_lt {a d : Nat} (ha : a ∈ S) (hd : d < e a) : ∃ c ∈ S, c ≠ a ∧ d < e c := by
  by_contra hnone
  have hn : ∀ s ∈ S, e s ≤ S.sup e := fun s hs ↦ Finset.le_sup hs
  have hna := hn a ha
  have hsum := h.sum_two_pow_eq hn
  rw [← Finset.add_sum_erase S _ ha] at hsum
  -- what the others take of the code space is a multiple of the part that belongs to the level
  have hothers : 2 ^ (S.sup e - d) ∣ ∑ s ∈ S.erase a, 2 ^ (S.sup e - e s) := by
    refine Finset.dvd_sum fun s hs ↦ Nat.pow_dvd_pow 2 (Nat.sub_le_sub_left ?_ _)
    obtain ⟨hne, hmem⟩ := Finset.mem_erase.1 hs
    exact Nat.not_lt.1 fun hlt ↦ hnone ⟨s, hmem, hne, hlt⟩
  have hpart : 2 ^ (S.sup e - d) ∣ 2 ^ (S.sup e - e a) :=
    (Nat.dvd_add_left hothers).1 (hsum ▸ Nat.pow_dvd_pow 2 (Nat.sub_le _ d))
  have := (Nat.pow_dvd_pow_iff_le_right Nat.one_lt_two).1 hpart
  omega

/-- The codeword of a lightest symbol is shorter than another one by a bit at most. -/
theorem depth_le_succ {a b : Nat} (ha : a ∈ S) (hb : b ∈ S) (hpos : 0 < w b)
    (hmin : ∀ s ∈ S, w b ≤ w s) : e a ≤ e b + 1 := by
  by_contra hdeep
  have hn : ∀ s ∈ S, e s ≤ S.sup e := fun s hs ↦ Finset.le_sup hs
  obtain ⟨c, hc, hca, hdeep'⟩ := h.exists_ne_of_lt ha (Nat.not_le.1 hdeep)
  have hpair : ({a, c} : Finset Nat) ⊆ S := Finset.insert_subset ha (Finset.singleton_subset_iff.2 hc)
  have hdisjoint : Disjoint ({a, c} : Finset Nat) {b} := by
    rw [Finset.disjoint_singleton_right, Finset.mem_insert, Finset.mem_singleton]
    rintro (rfl | rfl) <;> omega
  -- two symbols that are deeper by two levels have together room a level below the lightest one
  have hroom {s : Nat} (hs : s ∈ S) (hlt : e b + 1 < e s) :
      4 * 2 ^ (S.sup e - e s) ≤ 2 ^ (S.sup e - e b) := by
    have := hn s hs
    calc 4 * 2 ^ (S.sup e - e s) = 2 ^ (S.sup e - e s + 2) := by rw [Nat.pow_add, Nat.mul_comm]
      _ ≤ 2 ^ (S.sup e - e b) := Nat.pow_le_pow_right Nat.two_pos (by omega)
  have hle := h.sum_le_of_two_pow hn hpair (Finset.singleton_subset_iff.2 hb) hdisjoint (by
    have := hroom ha (Nat.not_le.1 hdeep)
    have := hroom hc hdeep'
    rw [Finset.sum_pair hca.symm, Finset.sum_singleton]
    omega)
  rw [Finset.sum_pair hca.symm, Finset.sum_singleton] at hle
  have := hmin a ha
  have := hmin c hc
  omega

end CostsLeast

/-! ## Powers of two -/

/-- Of powers of two that are not above `2 ^ t` and add up to at least that, some add up to exactly
that. -/
theorem exists_subset_sum_two_pow {k : Nat → Nat} {t : Nat} {T : Finset Nat} (hk : ∀ s ∈ T, k s ≤ t)
    (h : 2 ^ t ≤ ∑ s ∈ T, 2 ^ k s) : ∃ H ⊆ T, ∑ s ∈ H, 2 ^ k s = 2 ^ t := by
  -- of those that are enough a smallest one, from which the least power cannot be left out
  obtain ⟨H, hH, hmin⟩ := Finset.exists_min_image
    (T.powerset.filter fun H ↦ 2 ^ t ≤ ∑ s ∈ H, 2 ^ k s) Finset.card
    ⟨T, Finset.mem_filter.2 ⟨Finset.mem_powerset_self T, h⟩⟩
  rw [Finset.mem_filter, Finset.mem_powerset] at hH
  obtain ⟨hsub, henough⟩ := hH
  refine ⟨H, hsub, Nat.le_antisymm ?_ henough⟩
  have hne : H.Nonempty := by
    rw [Finset.nonempty_iff_ne_empty]
    rintro rfl
    exact Nat.not_le.2 (Nat.two_pow_pos t) henough
  obtain ⟨a, ha, hleast⟩ := Finset.exists_min_image H k hne
  have hless : ∑ s ∈ H.erase a, 2 ^ k s < 2 ^ t := by
    by_contra hstill
    have hcard := hmin (H.erase a) (Finset.mem_filter.2
      ⟨Finset.mem_powerset.2 ((Finset.erase_subset a H).trans hsub), Nat.not_lt.1 hstill⟩)
    exact Nat.not_le.2 (Finset.card_erase_lt_of_mem ha) hcard
  have hdvd : 2 ^ k a ∣ ∑ s ∈ H.erase a, 2 ^ k s :=
    Finset.dvd_sum fun s hs ↦ Nat.pow_dvd_pow 2 (hleast s (Finset.mem_of_mem_erase hs))
  have hdvd' : 2 ^ k a ∣ 2 ^ t := Nat.pow_dvd_pow 2 (hk a (hsub ha))
  rw [← Finset.add_sum_erase H _ ha]
  have hgap := Nat.le_of_dvd (Nat.sub_pos_of_lt hless) (Nat.dvd_sub hdvd' hdvd)
  omega

/-- Of powers of two with a sum of `2 ^ n`, one of which is odd, some below `2 ^ r` add up to
`2 ^ r - 2`. -/
theorem exists_subset_sum_two_pow_sub_two {k : Nat → Nat} {n : Nat} {T : Finset Nat}
    (hsum : ∑ s ∈ T, 2 ^ k s = 2 ^ n) {a : Nat} (ha : a ∈ T) (hka : k a = 0) {r : Nat} (hr : 1 ≤ r)
    (hrn : r ≤ n) : ∃ H ⊆ T.filter (k · < r), ∑ s ∈ H, 2 ^ k s = 2 ^ r - 2 := by
  induction r, hr using Nat.le_induction with
  | base => exact ⟨∅, Finset.empty_subset _, rfl⟩
  | succ r hr ih =>
    obtain ⟨H, hH, hHsum⟩ := ih (Nat.le_of_succ_le hrn)
    -- those below `2 ^ (r + 1)` have a multiple of it as their sum, since the others have one
    have hsplit := Finset.sum_filter_add_sum_filter_not T (k · < r + 1) fun s ↦ 2 ^ k s
    have hlarge : 2 ^ (r + 1) ∣ ∑ s ∈ T.filter (¬ k · < r + 1), 2 ^ k s :=
      Finset.dvd_sum fun s hs ↦ Nat.pow_dvd_pow 2 (Nat.not_lt.1 (Finset.mem_filter.1 hs).2)
    have hsmall : 2 ^ (r + 1) ∣ ∑ s ∈ T.filter (k · < r + 1), 2 ^ k s := by
      rw [hsum] at hsplit
      exact (Nat.dvd_add_left hlarge).1 (hsplit ▸ Nat.pow_dvd_pow 2 hrn)
    have hmem : a ∈ T.filter (k · < r + 1) := Finset.mem_filter.2 ⟨ha, by omega⟩
    have hpos : 0 < ∑ s ∈ T.filter (k · < r + 1), 2 ^ k s :=
      Finset.sum_pos (fun s _ ↦ Nat.two_pow_pos _) ⟨a, hmem⟩
    have hmany := Nat.le_of_dvd hpos hsmall
    have hsub : H ⊆ T.filter (k · < r + 1) := hH.trans
      (Finset.monotone_filter_right T fun s _ hs ↦ Nat.lt_succ_of_lt hs)
    have hrest := Finset.sum_sdiff (f := fun s ↦ 2 ^ k s) hsub
    obtain ⟨H', hH', hHsum'⟩ := exists_subset_sum_two_pow (k := k) (t := r)
      (T := T.filter (k · < r + 1) \ H)
      (fun s hs ↦ Nat.le_of_lt_succ (Finset.mem_filter.1 (Finset.mem_sdiff.1 hs).1).2)
      (by rw [Nat.pow_succ] at hmany; omega)
    have hdisjoint : Disjoint H H' := Finset.disjoint_sdiff.mono_right hH'
    refine ⟨H ∪ H', Finset.union_subset hsub (hH'.trans Finset.sdiff_subset), ?_⟩
    have := Nat.pow_le_pow_right Nat.two_pos hr
    rw [Finset.sum_union hdisjoint, hHsum, hHsum', Nat.pow_succ]
    omega

end EntropyCoding
