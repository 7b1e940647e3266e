import EntropyCoding.Proofs.Ans.Normalize
import EntropyCoding.Proofs.Checked.Agreement
import Mathlib.Algebra.Order.BigOperators.Group.List
import Mathlib.Algebra.Order.Group.Nat

/-!
# Checked normalization

Counts of 32 bits are rounded in 64 bits, and the rounding errors that decide which symbol gets or
loses a slot have 128 bits and a sign.  Two loops hand out slots until enough are in use and take slots
back until not too many are; nothing but the sum that they count tells them when to stop.

Rounding gives out at most one slot for each symbol too many, `sum_frequencies_round_le`.  So if no more
symbols occur than there are slots, the sum is at most twice the size of the table, every number on the
way is small, `FitShares`, and neither loop takes more rounds than there are slots.  That the loops find
a symbol in each of these rounds is `exists_normalize`, and a checked normalization does what
`normalize` does: `Checked.normalize_eq`.
-/

namespace EntropyCoding

/-! ## Rounding -/

/-- Rounding gives a symbol at most one slot more than its exact share, and none if it does not
occur. -/
theorem freq_round_mul_le (slots total count : Nat) :
    (Share.round slots total count).freq * total ≤
      count * slots + (if 0 < count then 1 else 0) * total := by
  unfold Share.round
  dsimp only
  by_cases hzero : count = 0
  · rw [if_pos hzero, Nat.zero_mul]
    exact Nat.zero_le _
  · rw [if_neg hzero, if_pos (Nat.pos_of_ne_zero hzero), Nat.one_mul]
    have hdiv := Nat.div_mul_le_self (2 * count * slots + total) (2 * total)
    generalize (2 * count * slots + total) / (2 * total) = quotient at hdiv ⊢
    rcases Nat.le_total quotient 1 with hle | hge
    · rw [Nat.max_eq_left hle, Nat.one_mul]
      exact Nat.le_add_left _ _
    · rw [Nat.mul_left_comm, Nat.mul_assoc 2] at hdiv
      rw [Nat.max_eq_right hge]
      omega

/-- Rounding gives out at most one slot for each symbol that occurs too many. -/
theorem sum_frequencies_round_le {counts : List Nat} (htotal : counts.sum ≠ 0) (slots : Nat) :
    (frequencies (counts.map (Share.round slots counts.sum))).sum ≤
      slots + counts.countP (0 < ·) := by
  have hmul (total : Nat) (counts : List Nat) :
      (frequencies (counts.map (Share.round slots total))).sum * total ≤
        counts.sum * slots + counts.countP (0 < ·) * total := by
    induction counts with
    | nil => exact (Nat.zero_mul total).trans_le (Nat.zero_le _)
    | cons c counts ih =>
      have hc := freq_round_mul_le slots total c
      simp only [frequencies, List.map_cons, List.sum_cons, List.countP_cons, Nat.add_mul,
        decide_eq_true_eq] at ih ⊢
      omega
  apply Nat.le_of_mul_le_mul_right _ (Nat.pos_of_ne_zero htotal)
  rw [Nat.add_mul, Nat.mul_comm slots]
  exact hmul counts.sum counts

/-! ## Normalized frequencies -/

/-- What normalized frequencies of counts are. -/
structure IsNormalized (counts : List Nat) (precision : Nat) (freqs : List Nat) : Prop where
  /-- There is a frequency for each count, and at least one. -/
  length_eq : freqs.length = max 1 counts.length
  /-- They fill the table exactly. -/
  sum_eq : freqs.sum = 2 ^ precision
  /-- Without any counts symbol 0 gets all slots. -/
  eq_of_unused : (∀ c ∈ counts, c = 0) →
    freqs = 2 ^ precision :: List.replicate (counts.length - 1) 0
  /-- With some, the symbols with slots are those that occur. -/
  pos_iff : (∃ c ∈ counts, c ≠ 0) → ∀ i, 0 < freqs.getD i 0 ↔ 0 < counts.getD i 0

/-- Counts are normalized if no more symbols occur than there are slots. -/
theorem exists_isNormalized {counts : List Nat} {precision : Nat}
    (hprecision : isTablePrecision precision) (hused : counts.countP (0 < ·) ≤ 2 ^ precision) :
    ∃ freqs, normalize counts precision = .ok freqs ∧ IsNormalized counts precision freqs := by
  obtain ⟨freqs, hok, hsum, hlength⟩ := exists_normalize hprecision hused
  refine ⟨freqs, hok, hlength, hsum, fun hzero ↦ ?_, fun hsome i ↦ ?_⟩
  · exact eq_of_normalize_of_sum_eq_zero hok (List.sum_eq_zero hzero)
  · obtain ⟨c, hc, hne⟩ := hsome
    have htotal := List.sum_pos_iff_exists_pos_nat.2 ⟨c, hc, Nat.pos_of_ne_zero hne⟩
    obtain ⟨shares, hshares, rfl⟩ := exists_fairShares_of_normalize hok (Nat.ne_of_gt htotal)
    exact hshares.getD_frequencies_pos_iff

namespace Checked

/-! ## Shares -/

/-- A number that has to fit `bits` bits, one of which is its sign. -/
def fitSigned (bits : Nat) (v : Int) : Except Stop Int :=
  if -2 ^ (bits - 1) ≤ v ∧ v < 2 ^ (bits - 1) then .ok v else .error (.fault .overflow)

/-- What a share falls short of its exact size, in 128 bits with a sign. -/
def shortfall (slots total : Nat) (s : Share) : Except Stop Int := do
  let exact ← fitSigned 128 (s.count * slots : Nat)
  let given ← fitSigned 128 (s.freq * total : Nat)
  fitSigned 128 (exact - given)

def isLessShort (slots total : Nat) (a b : Share) : Except Stop Bool := do
  .ok ((← shortfall slots total a) < (← shortfall slots total b))

/-- The share of a count, rounded in 64 bits and stored in 32. -/
def round (slots total count : Nat) : Except Stop Share :=
  if count = 0 then .ok { count, freq := 0 }
  else do
    let double ← mul 64 2 count
    let top ← add 64 (← mul 64 double slots) total
    let bottom ← mul 64 2 total
    .ok { count, freq := ← fit 32 (max 1 (top / bottom)) }

def raise (s : Share) : Except Stop Share := do
  .ok { s with freq := ← add 32 s.freq 1 }

def lower (s : Share) : Except Stop Share := do
  .ok { s with freq := ← sub s.freq 1 }

/-- The place of the best of some shares, of which `best` is at `place` and the eligible ones of
the list have places from `i` on. -/
def bestPlace (better : Share → Share → Except Stop Bool) (eligible : Share → Bool) (best : Share)
    (place : Nat) : Nat → List Share → Except Stop Nat
  | _, [] => .ok place
  | i, s :: shares =>
    if eligible s then do
      if ← better s best then bestPlace better eligible s i (i + 1) shares
      else bestPlace better eligible best place (i + 1) shares
    else bestPlace better eligible best place (i + 1) shares

/-- The place of the best of the eligible shares of a list, whose places count from `i`. -/
def bestPlace? (better : Share → Share → Except Stop Bool) (eligible : Share → Bool) :
    Nat → List Share → Except Stop (Option Nat)
  | _, [] => .ok none
  | i, s :: shares =>
    if eligible s then do .ok (some (← bestPlace better eligible s i (i + 1) shares))
    else bestPlace? better eligible (i + 1) shares

/-- Changes the best of the eligible shares; `failure` is the error if there are none. -/
def changeBest (better : Share → Share → Except Stop Bool) (eligible : Share → Bool)
    (change : Share → Except Stop Share) (failure : Error) (shares : List Share) :
    Except Stop (List Share) := do
  match ← bestPlace? better eligible 0 shares with
  | none => .error (.error failure)
  | some i =>
    match shares[i]? with
    | none => .error (.fault .index)
    | some s => .ok (shares.set i (← change s))

/-! ## The loops -/

/-- Hands out slots, each to the symbol that falls short most, until the sum reaches `slots`. -/
def handOut (slots total : Nat) : Nat → Nat → List Share → Except Stop (Nat × List Share)
  | 0, _, _ => .error (.fault .endless)
  | tries + 1, sum, shares =>
    if sum < slots then do
      let shares ← changeBest (fun a b ↦ isLessShort slots total b a) (0 < ·.count) raise
        (.invalidConfig .nothingToAdjust) shares
      handOut slots total tries (← add 64 sum 1) shares
    else .ok (sum, shares)

/-- Takes back slots, each from the symbol that exceeds most and has more than one, until the sum is
down to `slots`. -/
def takeBack (slots total used : Nat) : Nat → Nat → List Share → Except Stop (Nat × List Share)
  | 0, _, _ => .error (.fault .endless)
  | tries + 1, sum, shares =>
    if slots < sum then do
      let shares ← changeBest (isLessShort slots total) (1 < ·.freq) lower
        (.alphabetTooLarge used slots) shares
      takeBack slots total used tries (← sub sum 1) shares
    else .ok (sum, shares)

/-- The frequencies closest to `counts` that add up to `2 ^ precision`.  Each of the loops may take
up to `tries` rounds, the one in which it stops included. -/
def normalize (tries : Nat) (counts : List Nat) (precision : Nat) : Except Stop (List Nat) :=
  if isTablePrecision precision then do
    let slots ← shiftLeft 32 1 precision
    let total ← total 64 counts
    if total = 0 then .ok (slots :: List.replicate (counts.length - 1) 0)
    else do
      let used := counts.countP (0 < ·)
      if slots < used then .error (.error (.alphabetTooLarge used slots))
      else do
        let shares ← counts.mapM (round slots total)
        let sum ← Checked.total 64 (frequencies shares)
        let (sum, shares) ← handOut slots total tries sum shares
        let (_, shares) ← takeBack slots total used tries sum shares
        .ok (frequencies shares)
  else .error (.error (.invalidConfig .tablePrecision))

/-! ## What fits -/

/-- Fair shares whose numbers are so small that everything computed with them fits. -/
structure FitShares (slots total : Nat) (counts : List Nat) (shares : List Share) : Prop
    extends FairShares counts shares where
  /-- The table has at most the largest precision. -/
  slots_le : slots ≤ 2 ^ 15
  /-- The total is below `2 ^ 62`. -/
  total_lt : total < 2 ^ 62
  /-- Every count has 32 bits. -/
  count_lt : ∀ c ∈ counts, c < 2 ^ 32
  /-- At most twice as many slots are in use as there are. -/
  sum_le : (frequencies shares).sum ≤ 2 * slots

theorem fitSigned_eq_ok {bits : Nat} {v : Int} (hlow : -2 ^ (bits - 1) ≤ v)
    (hhigh : v < 2 ^ (bits - 1)) : fitSigned bits v = .ok v := if_pos ⟨hlow, hhigh⟩

namespace FitShares

variable {slots total : Nat} {counts : List Nat} {shares : List Share}
variable (h : FitShares slots total counts shares)
include h

theorem freq_le {s : Share} (hs : s ∈ shares) : s.freq ≤ 2 ^ 16 := by
  have hsum : s.freq ≤ (frequencies shares).sum := List.le_sum_of_mem (List.mem_map_of_mem hs)
  have := h.sum_le
  have := h.slots_le
  omega

/-- A rounding error fits 128 bits. -/
theorem shortfall_eq_ok {s : Share} (hs : s ∈ shares) :
    shortfall slots total s = .ok (s.shortfall slots total) := by
  have hcount : s.count < 2 ^ 32 := h.count_lt _ (h.map_count ▸ List.mem_map_of_mem hs)
  have hexact : s.count * slots ≤ 2 ^ 32 * 2 ^ 15 :=
    Nat.mul_le_mul (Nat.le_of_lt hcount) h.slots_le
  have hgiven : s.freq * total ≤ 2 ^ 16 * 2 ^ 62 :=
    Nat.mul_le_mul (h.freq_le hs) (Nat.le_of_lt h.total_lt)
  have hfit {v : Int} (hlow : -2 ^ 78 ≤ v) (hhigh : v ≤ 2 ^ 78) : fitSigned 128 v = .ok v :=
    fitSigned_eq_ok (by omega) (by omega)
  rw [shortfall, bind_of_eq_ok (hfit (by omega) (by omega)),
    bind_of_eq_ok (hfit (by omega) (by omega)), hfit (by omega) (by omega)]
  rfl

theorem isLessShort_eq_ok {a b : Share} (ha : a ∈ shares) (hb : b ∈ shares) :
    isLessShort slots total a b = .ok (a.isLessShort slots total b) := by
  rw [isLessShort, bind_of_eq_ok (h.shortfall_eq_ok ha), bind_of_eq_ok (h.shortfall_eq_ok hb)]
  congr 1
  rw [Bool.eq_iff_iff, decide_eq_true_eq, Share.isLessShort_iff]

/-- Changing the slots of one share keeps the numbers small if it does not use up too many slots. -/
theorem modify {f : Share → Share} {i : Nat} {s : Share} (hi : shares[i]? = some s)
    (hcount : ∀ s, (f s).count = s.count) (hf : (f s).Fair)
    (hsum : (frequencies (shares.modify i f)).sum ≤ 2 * slots) :
    FitShares slots total counts (shares.modify i f) :=
  { h with toFairShares := h.toFairShares.modify hi hcount hf, sum_le := hsum }

end FitShares

/-! ## The search for the best share -/

section BestPlace

variable {better : Share → Share → Except Stop Bool} {better' : Share → Share → Bool}
  {eligible : Share → Bool} {shares : List Share}

/-- The best share is found if all can be compared. -/
theorem bestPlace_eq_ok (best : Share)
    (h : ∀ a ∈ best :: shares, ∀ b ∈ best :: shares, better a b = .ok (better' a b))
    (place i : Nat) :
    bestPlace better eligible best place i shares =
      .ok (EntropyCoding.bestPlace better' eligible best place i shares) := by
  induction shares generalizing best place i with
  | nil => rfl
  | cons s shares ih =>
    have hnew := ih s (fun a ha b hb ↦
      h a (List.mem_cons_of_mem _ ha) b (List.mem_cons_of_mem _ hb))
    have hold := ih best (fun a ha b hb ↦
      h a (List.cons_subset_cons _ (List.subset_cons_self s shares) ha)
        b (List.cons_subset_cons _ (List.subset_cons_self s shares) hb))
    rw [bestPlace, EntropyCoding.bestPlace]
    cases eligible s with
    | false => exact hold place (i + 1)
    | true =>
      rw [if_pos rfl, Bool.true_and, bind_of_eq_ok (h s (.tail _ (.head _)) best (.head _))]
      split
      · exact hnew i (i + 1)
      · exact hold place (i + 1)

/-- The best of the eligible shares too, if there are any. -/
theorem bestPlace?_eq_ok (h : ∀ a ∈ shares, ∀ b ∈ shares, better a b = .ok (better' a b)) (i : Nat) :
    bestPlace? better eligible i shares =
      .ok (EntropyCoding.bestPlace? better' eligible i shares) := by
  induction shares generalizing i with
  | nil => rfl
  | cons s shares ih =>
    rw [bestPlace?, EntropyCoding.bestPlace?]
    split
    · rw [bind_of_eq_ok (bestPlace_eq_ok s h i (i + 1))]
    · exact ih (fun a ha b hb ↦ h a (.tail _ ha) b (.tail _ hb)) (i + 1)

/-- The best of the eligible shares is changed. -/
theorem changeBest_eq_ok {change : Share → Except Stop Share} {f : Share → Share} {i : Nat} {s : Share}
    (h : ∀ a ∈ shares, ∀ b ∈ shares, better a b = .ok (better' a b))
    (hi : EntropyCoding.bestPlace? better' eligible 0 shares = some i) (hget : shares[i]? = some s)
    (hchange : change s = .ok (f s)) (failure : Error) :
    changeBest better eligible change failure shares = .ok (shares.modify i f) := by
  rw [changeBest, bind_of_eq_ok (bestPlace?_eq_ok h 0), hi]
  dsimp only
  rw [hget]
  dsimp only
  rw [bind_of_eq_ok hchange, List.modify_eq_set_getElem?, hget]
  rfl

end BestPlace

/-! ## The loops end -/

section Loops

variable {slots total n tries : Nat} {counts : List Nat} {shares shares' : List Share}

theorem handOut_of_le {sum : Nat} (h : slots ≤ sum) (htries : 0 < tries) (total : Nat)
    (shares : List Share) : handOut slots total tries sum shares = .ok (sum, shares) := by
  obtain ⟨tries, rfl⟩ := Nat.exists_eq_add_one_of_ne_zero (Nat.ne_of_gt htries)
  rw [handOut, if_neg (Nat.not_lt.2 h)]

theorem takeBack_of_le {sum : Nat} (h : sum ≤ slots) (htries : 0 < tries) (total used : Nat)
    (shares : List Share) : takeBack slots total used tries sum shares = .ok (sum, shares) := by
  obtain ⟨tries, rfl⟩ := Nat.exists_eq_add_one_of_ne_zero (Nat.ne_of_gt htries)
  rw [takeBack, if_neg (Nat.not_lt.2 h)]

/-- One slot is handed out, as long as not all are in use. -/
theorem FitShares.changeBest_raise {i : Nat} (h : FitShares slots total counts shares)
    (hsum : (frequencies shares).sum < slots)
    (hi : EntropyCoding.bestPlace? (fun a b ↦ b.isLessShort slots total a) (0 < ·.count) 0 shares =
      some i) (failure : Error) :
    changeBest (fun a b ↦ isLessShort slots total b a) (0 < ·.count) raise failure shares =
        .ok (shares.modify i Share.raise) ∧
      FitShares slots total counts (shares.modify i Share.raise) ∧
      (frequencies (shares.modify i Share.raise)).sum = (frequencies shares).sum + 1 := by
  obtain ⟨j, s, hj, hget, hpos⟩ := exists_of_bestPlace? hi
  obtain rfl : i = j := hj.trans (Nat.zero_add j)
  have hone := sum_frequencies_modify hget Share.raise
  dsimp only [Share.raise] at hone
  have hfreq := h.freq_le (List.mem_of_getElem? hget)
  have hslots := h.slots_le
  have hraise : raise s = .ok s.raise := by
    rw [raise, bind_of_eq_ok (add_eq_ok (by omega))]
    rfl
  refine ⟨changeBest_eq_ok (fun a ha b hb ↦ h.isLessShort_eq_ok hb ha) hi hget hraise failure, ?_,
    by omega⟩
  exact h.modify hget (f := Share.raise) (fun _ ↦ rfl) (.raise (of_decide_eq_true hpos)) (by omega)

/-- One slot is taken back. -/
theorem FitShares.changeBest_lower {i : Nat} (h : FitShares slots total counts shares)
    (hi : EntropyCoding.bestPlace? (fun a b ↦ a.isLessShort slots total b) (1 < ·.freq) 0 shares =
      some i) (failure : Error) :
    changeBest (isLessShort slots total) (1 < ·.freq) lower failure shares =
        .ok (shares.modify i Share.lower) ∧
      FitShares slots total counts (shares.modify i Share.lower) ∧
      (frequencies (shares.modify i Share.lower)).sum + 1 = (frequencies shares).sum := by
  obtain ⟨j, s, hj, hget, hmore⟩ := exists_of_bestPlace? hi
  obtain rfl : i = j := hj.trans (Nat.zero_add j)
  have hmore : 1 < s.freq := of_decide_eq_true hmore
  have hone := sum_frequencies_modify hget Share.lower
  dsimp only [Share.lower] at hone
  have hsum := h.sum_le
  have hlower : lower s = .ok s.lower := by
    rw [lower, bind_of_eq_ok (sub_eq_ok (Nat.le_of_lt hmore))]
    rfl
  refine ⟨changeBest_eq_ok (fun a ha b hb ↦ h.isLessShort_eq_ok ha hb) hi hget hlower failure, ?_,
    by omega⟩
  exact h.modify hget (f := Share.lower) (fun _ ↦ rfl)
    ((h.fair s (List.mem_of_getElem? hget)).lower hmore) (by omega)

/-- Slots are handed out in as many rounds as there are slots missing. -/
theorem handOut_eq_ok (h : FitShares slots total counts shares)
    (hok : EntropyCoding.handOut slots total n shares = .ok shares')
    (hn : (frequencies shares).sum + n = slots) (htries : n < tries) :
    handOut slots total tries (frequencies shares).sum shares = .ok (slots, shares') := by
  induction n generalizing shares tries with
  | zero =>
    cases hok
    rw [Nat.add_zero] at hn
    rw [handOut_of_le hn.ge htries, hn]
  | succ n ih =>
    rw [EntropyCoding.handOut] at hok
    split at hok
    · next i hi =>
      have hlt : (frequencies shares).sum < slots := by omega
      have hslots := h.slots_le
      obtain ⟨hchange, hraised, hsum⟩ :=
        h.changeBest_raise hlt hi (.invalidConfig .nothingToAdjust)
      obtain ⟨tries, rfl⟩ := Nat.exists_eq_add_one_of_ne_zero (Nat.ne_zero_of_lt htries)
      rw [handOut, if_pos hlt, bind_of_eq_ok hchange, bind_of_eq_ok (add_eq_ok (by omega)), ← hsum]
      exact ih hraised hok (by omega) (Nat.lt_of_succ_lt_succ htries)
    · cases hok

/-- Slots are taken back in as many rounds as there are slots too many. -/
theorem takeBack_eq_ok (h : FitShares slots total counts shares)
    (hok : EntropyCoding.takeBack slots total n shares = .ok shares')
    (hn : (frequencies shares).sum = slots + n) (htries : n < tries) (used : Nat) :
    takeBack slots total used tries (frequencies shares).sum shares = .ok (slots, shares') := by
  induction n generalizing shares tries with
  | zero =>
    cases hok
    rw [Nat.add_zero] at hn
    rw [takeBack_of_le hn.le htries, hn]
  | succ n ih =>
    rw [EntropyCoding.takeBack] at hok
    split at hok
    · next i hi =>
      obtain ⟨hchange, hlowered, hsum⟩ := h.changeBest_lower hi (.alphabetTooLarge used slots)
      obtain ⟨tries, rfl⟩ := Nat.exists_eq_add_one_of_ne_zero (Nat.ne_zero_of_lt htries)
      rw [takeBack, if_pos (by omega), bind_of_eq_ok hchange, ← hsum,
        bind_of_eq_ok (sub_eq_ok (Nat.le_add_left 1 _)), Nat.add_sub_cancel]
      exact ih hlowered hok (by omega) (Nat.lt_of_succ_lt_succ htries)
    · cases hok

end Loops

/-! ## Normalization -/

/-- A count of 32 bits is rounded if what comes out fits 32 bits. -/
theorem round_eq_ok {slots total count : Nat} (hslots : slots ≤ 2 ^ 15) (htotal : total < 2 ^ 62)
    (hcount : count < 2 ^ 32) (hfreq : (Share.round slots total count).freq < 2 ^ 32) :
    round slots total count = .ok (Share.round slots total count) := by
  unfold Share.round at hfreq ⊢
  rw [round]
  by_cases hzero : count = 0
  · rw [if_pos hzero, if_pos hzero]
  · dsimp only at hfreq
    rw [if_neg hzero] at hfreq ⊢
    have hscaled : 2 * count * slots ≤ 2 ^ 33 * 2 ^ 15 :=
      Nat.mul_le_mul (by omega) hslots
    rw [if_neg hzero, bind_of_eq_ok (mul_eq_ok (by omega)), bind_of_eq_ok (mul_eq_ok (by omega)),
      bind_of_eq_ok (add_eq_ok (by omega)), bind_of_eq_ok (mul_eq_ok (by omega)),
      bind_of_eq_ok (fit_eq_ok hfreq)]

theorem le_of_isTablePrecision {precision : Nat} (h : isTablePrecision precision) :
    precision ≤ 15 := by
  rw [isTablePrecision, Bool.and_eq_true, decide_eq_true_eq, decide_eq_true_eq] at h
  exact h.2

section

variable {counts : List Nat} (hcounts : ∀ c ∈ counts, c < 2 ^ 32) (hsum : counts.sum < 2 ^ 62)
  {precision : Nat} (hprecision : isTablePrecision precision)
  (hused : counts.countP (0 < ·) ≤ 2 ^ precision) (htotal : counts.sum ≠ 0)
include hcounts hsum hprecision hused htotal

/-- Rounded shares are small. -/
theorem fitShares_round :
    FitShares (2 ^ precision) counts.sum counts
      (counts.map (Share.round (2 ^ precision) counts.sum)) where
  toFairShares := .round _ _ _
  slots_le := Nat.pow_le_pow_right Nat.two_pos (le_of_isTablePrecision hprecision)
  total_lt := hsum
  count_lt := hcounts
  sum_le := by
    have := sum_frequencies_round_le htotal (2 ^ precision)
    omega

/-- All counts are rounded. -/
theorem mapM_round_eq_ok :
    counts.mapM (round (2 ^ precision) counts.sum) =
      .ok (counts.map (Share.round (2 ^ precision) counts.sum)) := by
  have hfit := fitShares_round hcounts hsum hprecision hused htotal
  refine mapM_eq_ok fun c hc ↦ round_eq_ok hfit.slots_le hsum (hcounts c hc) ?_
  have := hfit.freq_le (List.mem_map_of_mem hc)
  omega

end

/-- Counts are normalized without a fault, and the loops end. -/
theorem normalize_eq {counts : List Nat} (hcounts : ∀ c ∈ counts, c < 2 ^ 32)
    (hsum : counts.sum < 2 ^ 62) {precision tries : Nat} (htries : 2 ^ precision < tries) :
    normalize tries counts precision =
      embedExcept (EntropyCoding.normalize counts precision) := by
  rw [normalize]
  by_cases hprecision : isTablePrecision precision
  · have hp := le_of_isTablePrecision hprecision
    rw [if_pos hprecision, bind_of_eq_ok (shiftLeft_one (by omega)),
      bind_of_eq_ok (total_eq_ok (by omega))]
    rcases Nat.lt_or_ge (2 ^ precision) (counts.countP (0 < ·)) with hused | hused
    · have htotal : counts.sum ≠ 0 :=
        Nat.ne_of_gt ((Nat.zero_lt_of_lt hused).trans_le (countP_pos_le_sum counts))
      rw [normalize_of_lt hprecision hused, if_neg htotal]
      dsimp only
      rw [if_pos hused]
      rfl
    · rw [EntropyCoding.normalize]
      dsimp only
      rw [if_pos hprecision]
      by_cases htotal : counts.sum = 0
      · rw [if_pos htotal, if_pos htotal]
        rfl
      · have hfit := fitShares_round hcounts hsum hprecision hused htotal
        have hgiven := hfit.sum_le
        have hslots := hfit.slots_le
        have hround := sum_frequencies_round_le htotal (2 ^ precision)
        rw [if_neg htotal, if_neg (Nat.not_lt.2 hused), if_neg htotal, if_neg (Nat.not_lt.2 hused),
          bind_of_eq_ok (mapM_round_eq_ok hcounts hsum hprecision hused htotal),
          bind_of_eq_ok (total_eq_ok (by omega))]
        generalize counts.map (Share.round (2 ^ precision) counts.sum) = shares at *
        have hpos : 0 < tries := Nat.zero_lt_of_lt htries
        split
        · next hle =>
          obtain ⟨shares', hok, -⟩ := hfit.exists_handOut htotal (2 ^ precision) counts.sum
            (2 ^ precision - (frequencies shares).sum)
          rw [bind_of_eq_ok (handOut_eq_ok hfit hok (by omega) (by omega)), hok]
          dsimp only
          rw [bind_of_eq_ok (takeBack_of_le (Nat.le_refl _) hpos _ _ _)]
          rfl
        · next hgt =>
          obtain ⟨shares', hok, -⟩ := hfit.exists_takeBack
            (n := (frequencies shares).sum - 2 ^ precision) (by omega) (2 ^ precision) counts.sum
          rw [bind_of_eq_ok (handOut_of_le (by omega) hpos _ _), hok]
          dsimp only
          rw [bind_of_eq_ok (takeBack_eq_ok hfit hok (by omega) (by omega) _)]
          rfl
  · rw [if_neg hprecision, EntropyCoding.normalize]
    dsimp only
    rw [if_neg hprecision]
    rfl

/-- Counts are normalized as by `EntropyCoding.normalize`, without a fault: neither is a number too
large for its width, nor does a loop take more than `2 ^ precision` rounds.  They are refused exactly if
more symbols occur than there are slots; otherwise no error can come up, and the frequencies are
normalized. -/
theorem normalize_exact {counts : List Nat} {precision tries : Nat}
    (hprecision : isTablePrecision precision) (hcounts : ∀ c ∈ counts, c < 2 ^ 32)
    (hsum : counts.sum < 2 ^ 62) (htries : 2 ^ precision < tries) :
    normalize tries counts precision =
      embedExcept (EntropyCoding.normalize counts precision) ∧
    (normalize tries counts precision =
        .error (.error (.alphabetTooLarge (counts.countP (0 < ·)) (2 ^ precision))) ↔
      (∃ c ∈ counts, c ≠ 0) ∧ 2 ^ precision < counts.countP (0 < ·)) ∧
    (¬ ((∃ c ∈ counts, c ≠ 0) ∧ 2 ^ precision < counts.countP (0 < ·)) →
      ∃ freqs, normalize tries counts precision = .ok freqs ∧
        IsNormalized counts precision freqs) := by
  rw [normalize_eq hcounts hsum htries]
  refine ⟨rfl, ?_⟩
  rcases Nat.lt_or_ge (2 ^ precision) (counts.countP (0 < ·)) with hused | hused
  · obtain ⟨c, hc, hpos⟩ := List.countP_pos_iff.1 (Nat.zero_lt_of_lt hused)
    have hlarge : (∃ c ∈ counts, c ≠ 0) ∧ 2 ^ precision < counts.countP (0 < ·) :=
      ⟨⟨c, hc, Nat.ne_of_gt (of_decide_eq_true hpos)⟩, hused⟩
    rw [normalize_of_lt hprecision hused]
    exact ⟨iff_of_true rfl hlarge, fun h ↦ absurd hlarge h⟩
  · have hsmall : ¬ ((∃ c ∈ counts, c ≠ 0) ∧ 2 ^ precision < counts.countP (0 < ·)) :=
      fun h ↦ Nat.not_lt.2 hused h.2
    obtain ⟨freqs, hok, hfreqs⟩ := exists_isNormalized hprecision hused
    rw [hok]
    exact ⟨iff_of_false (fun h ↦ by cases h) hsmall, fun _ ↦ ⟨freqs, rfl, hfreqs⟩⟩

/-- Two symbols that occur once beside one that occurs a thousand times keep a slot each. -/
theorem normalize_exact_skewed :
    isTablePrecision 3 ∧ (∀ c ∈ [1, 0, 1, 1000], c < 2 ^ 32) ∧ [1, 0, 1, 1000].sum < 2 ^ 62 ∧
      2 ^ 3 < 9 ∧ normalize 9 [1, 0, 1, 1000] 3 = .ok [1, 0, 1, 6] ∧
      ∃ freqs, normalize 9 [1, 0, 1, 1000] 3 = .ok freqs ∧
        IsNormalized [1, 0, 1, 1000] 3 freqs := by
  have hprecision : isTablePrecision 3 := by decide
  have hcounts : ∀ c ∈ [1, 0, 1, 1000], c < 2 ^ 32 := by decide
  have hsum : [1, 0, 1, 1000].sum < 2 ^ 62 := by decide
  have htries : 2 ^ 3 < 9 := by decide
  exact ⟨hprecision, hcounts, hsum, htries, by decide,
    (normalize_exact hprecision hcounts hsum htries).2.2 (by decide)⟩

end Checked

end EntropyCoding
