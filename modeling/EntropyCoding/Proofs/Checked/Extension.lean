import EntropyCoding.Proofs.Checked.Code
import EntropyCoding.Proofs.Checked.Depths
import EntropyCoding.Proofs.Prefix.Extension

/-!
# Checked extension of codes

A code is extended in place.  Its populations, which have 32 bits, are put before the counts of the new
symbols and added up in 64 bits, depths are searched for the counts and codewords assigned to them, and
only then the new code takes the place of the old one.

So a code is extended in place as `PrefixCode.extend` says, `Checked.extend_eq`; only a sum of
populations that does not fit 64 bits makes a difference, and it takes `2 ^ 49` symbols.  In any case
the code is either replaced by the extended one or left as it was, `Checked.extend_cases`.
-/

namespace EntropyCoding

namespace Checked

open PrefixCode

/-- Replaces counts by the populations of depths, one after another, and adds these to a total. -/
def populate : List Nat → List Nat → Nat → Except Stop (List Nat × Nat)
  | _ :: counts, depth :: depths, total =>
    if maxDepth < depth then .error (.error (.invalidPopulation total codeSpace))
    else do
      let count ← shiftLeft 32 1 (← sub maxDepth depth)
      let (counts, total) ← populate counts depths (← add 64 total count)
      .ok (count :: counts, total)
  | counts, _, total => .ok (counts, total)

/-- Puts the code for counts in the place of another; depths are searched with `tries` floors at
most. -/
def install (tries : Nat) (counts : List Nat) : Checked PrefixCode Unit := do
  let depths ← limitedDepths tries counts maxDepth
  let next ← firstCodes depths
  let (_, codes) ← assignCodes next depths
  set { depths := depths.toArray, codes : PrefixCode }

/-- Extends a code to `size` symbols. -/
def extend (tries size : Nat) : Checked PrefixCode Unit := do
  let c ← get
  if c.codes.size ≠ c.alphabetSize then fault (.lengthMismatch c.alphabetSize c.codes.size)
  else if size ≤ c.alphabetSize then throw (.error (.alphabetNotLarger size c.alphabetSize))
  else do
    let (counts, total) ← populate (List.replicate size 1) c.depths.toList 0
    if total ≠ codeSpace then throw (.error (.invalidPopulation total codeSpace))
    else install tries counts

/-! ## Populations -/

theorem populate_nil (counts : List Nat) (total : Nat) :
    populate counts [] total = .ok (counts, total) := by
  cases counts <;> rfl

/-- A depth that is too large has no population. -/
theorem populate_of_lt {depth : Nat} (h : maxDepth < depth) (count : Nat)
    (counts depths : List Nat) (total : Nat) : populate (count :: counts) (depth :: depths) total =
      .error (.error (.invalidPopulation total codeSpace)) :=
  if_pos h

/-- A population takes the place of a count if it can be added. -/
theorem populate_cons {depth : Nat} (h : depth ≤ maxDepth) (count : Nat)
    (counts depths : List Nat) (total : Nat) : populate (count :: counts) (depth :: depths) total =
      (do
        let (counts, total) ← populate counts depths (← add 64 total (population depth))
        .ok (population depth :: counts, total)) := by
  have hmax : maxDepth - depth < 32 := Nat.lt_of_le_of_lt (Nat.sub_le _ _) (by decide)
  rw [populate, if_neg (Nat.not_lt.2 h), bind_of_eq_ok (sub_eq_ok h),
    bind_of_eq_ok (shiftLeft_one hmax)]
  rfl

/-- The populations of the first depths take the place of the first counts if they can be added. -/
theorem populate_append {depths : List Nat} (hd : ∀ d ∈ depths, d ≤ maxDepth) {counts : List Nat}
    (hlen : depths.length ≤ counts.length) {total : Nat}
    (hfit : total + (depths.map population).sum < 2 ^ 64) (rest : List Nat) :
    populate counts (depths ++ rest) total = (do
      let (counts, total) ← populate (counts.drop depths.length) rest
        (total + (depths.map population).sum)
      .ok (depths.map population ++ counts, total)) := by
  induction depths generalizing counts total with
  | nil =>
    change populate counts rest total = populate counts rest total >>= pure
    rw [bind_pure]
  | cons depth depths ih =>
    obtain ⟨hmax, hd⟩ := List.forall_mem_cons.1 hd
    obtain ⟨count, counts, rfl⟩ := List.exists_cons_of_length_pos (Nat.zero_lt_of_lt hlen)
    rw [List.map_cons, List.sum_cons, ← Nat.add_assoc] at hfit
    rw [List.cons_append, populate_cons hmax, bind_of_eq_ok (add_eq_ok (by omega)),
      ih hd (Nat.le_of_succ_le_succ hlen) hfit, bind_assoc, List.map_cons, List.sum_cons,
      ← Nat.add_assoc]
    rfl

/-- All populations take the place of counts if they can be added. -/
theorem populate_eq_ok {depths : List Nat} (hd : ∀ d ∈ depths, d ≤ maxDepth) {counts : List Nat}
    (hlen : depths.length ≤ counts.length) {total : Nat}
    (hfit : total + (depths.map population).sum < 2 ^ 64) : populate counts depths total =
      .ok (depths.map population ++ counts.drop depths.length,
        total + (depths.map population).sum) := by
  have happend := populate_append hd hlen hfit []
  rwa [List.append_nil, populate_nil] at happend

/-- The first depth that is too large stops, with the total of the populations before it. -/
theorem populate_eq_error {depths : List Nat} (hd : ∀ d ∈ depths, d ≤ maxDepth) {counts : List Nat}
    (hlen : depths.length < counts.length) {total : Nat}
    (hfit : total + (depths.map population).sum < 2 ^ 64) {depth : Nat} (hdeep : maxDepth < depth)
    (rest : List Nat) : populate counts (depths ++ depth :: rest) total =
      .error (.error (.invalidPopulation (total + (depths.map population).sum) codeSpace)) := by
  rw [populate_append hd (Nat.le_of_lt hlen) hfit, List.drop_eq_getElem_cons hlen,
    populate_of_lt hdeep]
  rfl

/-- If populations take the place of counts then no depth was too large, and the total fits 64
bits. -/
theorem le_of_populate {counts depths : List Nat} (hlen : depths.length ≤ counts.length)
    {total : Nat} (htotal : total < 2 ^ 64) {result : List Nat × Nat}
    (h : populate counts depths total = .ok result) :
    (∀ d ∈ depths, d ≤ maxDepth) ∧ total + (depths.map population).sum < 2 ^ 64 := by
  induction depths generalizing counts total result with
  | nil => exact ⟨nofun, htotal⟩
  | cons depth depths ih =>
    obtain ⟨count, counts, rfl⟩ := List.exists_cons_of_length_pos (Nat.zero_lt_of_lt hlen)
    by_cases hdeep : maxDepth < depth
    · rw [populate_of_lt hdeep] at h
      cases h
    have hmax := Nat.not_lt.1 hdeep
    rw [populate_cons hmax] at h
    by_cases hfit : total + population depth < 2 ^ 64
    · rw [bind_of_eq_ok (add_eq_ok hfit)] at h
      cases hrest : populate counts depths (total + population depth) with
      | error stop =>
        rw [hrest] at h
        cases h
      | ok rest =>
        obtain ⟨hd, hsum⟩ := ih (Nat.le_of_succ_le_succ hlen) hfit hrest
        rw [List.map_cons, List.sum_cons, ← Nat.add_assoc]
        exact ⟨List.forall_mem_cons.2 ⟨hmax, hd⟩, hsum⟩
    · rw [add, fit, if_neg hfit] at h
      cases h

variable {c c' : PrefixCode} {size tries : Nat}

section

variable (hlarger : c.alphabetSize < size)
include hlarger

theorem populate_replicate (hd : ∀ d ∈ c.depths.toList, d ≤ maxDepth)
    (hfit : (c.depths.toList.map population).sum < 2 ^ 64) :
    populate (List.replicate size 1) c.depths.toList 0 =
      .ok (c.extendedCounts size, (c.depths.toList.map population).sum) := by
  have hlen := Nat.le_of_lt hlarger
  rw [populate_eq_ok hd (by rwa [List.length_replicate]) (by rwa [Nat.zero_add]), Nat.zero_add,
    List.drop_replicate, extendedCounts, populations_eq hd]
  rfl

/-- There are no populations if a depth is too large. -/
theorem populate_replicate_of_deep (hd : ¬ ∀ d ∈ c.depths.toList, d ≤ maxDepth)
    (hfit : c.populations.sum < 2 ^ 64) :
    populate (List.replicate size 1) c.depths.toList 0 =
      .error (.error (.invalidPopulation c.populations.sum codeSpace)) := by
  obtain ⟨shallow, deep, rest, hdepths, hshallow, hdeep, hpopulations⟩ := exists_deep hd
  have hlen : shallow.length < (List.replicate size 1).length := by
    have hall : (shallow ++ deep :: rest).length < size := hdepths ▸ hlarger
    rw [List.length_append, List.length_cons] at hall
    rw [List.length_replicate]
    omega
  rw [hpopulations] at hfit ⊢
  rw [hdepths, populate_eq_error hshallow hlen (by rwa [Nat.zero_add]) hdeep, Nat.zero_add]

/-- Nor are there any if the populations do not fit 64 bits. -/
theorem exists_populate_error (hfit : ¬ c.populations.sum < 2 ^ 64) :
    ∃ stop, populate (List.replicate size 1) c.depths.toList 0 = .error stop := by
  have hlen : c.depths.toList.length ≤ (List.replicate size 1).length := by
    rw [List.length_replicate]
    exact Nat.le_of_lt hlarger
  cases hpopulate : populate (List.replicate size 1) c.depths.toList 0 with
  | error stop => exact ⟨stop, rfl⟩
  | ok result =>
    obtain ⟨hd, hsum⟩ := le_of_populate hlen (by decide) hpopulate
    rw [Nat.zero_add, ← populations_eq hd] at hsum
    exact absurd hsum hfit

end

/-! ## Extension -/

/-- The code for counts is put in the place of another if depths are found, and otherwise that one
stays. -/
theorem install_eq (htries : maxDepth < tries) {counts : List Nat} (hne : counts ≠ [])
    (hcounts : ∀ count ∈ counts, count ≤ codeSpace) : install tries counts c =
      match EntropyCoding.limitedDepths counts maxDepth with
      | .ok depths => .ok () (canonical depths)
      | .error e => .error (.error e) c := by
  have hsearch : limitedDepths tries counts maxDepth =
      embedExcept (EntropyCoding.limitedDepths counts maxDepth) :=
    limitedDepths_eq (fun count h ↦ Nat.lt_of_le_of_lt (hcounts count h) (by decide)) (by decide)
      hcounts htries
  cases hdepths : EntropyCoding.limitedDepths counts maxDepth with
  | error e =>
    rw [hdepths] at hsearch
    exact lift_bind_of_error hsearch _ _
  | ok depths =>
    rw [hdepths] at hsearch
    have hc := accepted_of_ofDepths (ofDepths_of_limitedDepths hne hdepths).1
    have hk : EntropyCoding.kraftSum depths ≤ codeSpace := hc.kraftSum_le
    obtain ⟨next, hassign⟩ := assignCodes_eq hk
    rw [install, lift_bind hsearch, lift_bind (firstCodes_eq hk hc.shaped.depth_le),
      lift_bind hassign]
    rfl

theorem extend_of_size_ne (h : c.codes.size ≠ c.alphabetSize) : extend tries size c =
    .error (.fault (.lengthMismatch c.alphabetSize c.codes.size)) c := by
  rw [extend, get_bind, if_pos h]
  rfl

section

variable (hcodes : c.codes.size = c.alphabetSize)
include hcodes

theorem extend_of_size_le (h : size ≤ c.alphabetSize) : extend tries size c =
    .error (.error (.alphabetNotLarger size c.alphabetSize)) c := by
  rw [extend, get_bind, if_neg (not_not.2 hcodes), if_pos h]
  rfl

section

variable (hlarger : c.alphabetSize < size)
include hlarger

theorem extend_of_populate_eq_error {stop : Stop}
    (h : populate (List.replicate size 1) c.depths.toList 0 = .error stop) :
    extend tries size c = .error stop c := by
  rw [extend, get_bind, if_neg (not_not.2 hcodes), if_neg (Nat.not_le.2 hlarger)]
  exact lift_bind_of_error h _ _

/-- Populations that can be added decide whether there is a new code. -/
theorem extend_of_depth_le (hd : ∀ d ∈ c.depths.toList, d ≤ maxDepth)
    (hfit : (c.depths.toList.map population).sum < 2 ^ 64) : extend tries size c =
      if (c.depths.toList.map population).sum ≠ codeSpace then
        .error (.error (.invalidPopulation (c.depths.toList.map population).sum codeSpace)) c
      else install tries (c.extendedCounts size) c := by
  rw [extend, get_bind, if_neg (not_not.2 hcodes), if_neg (Nat.not_le.2 hlarger),
    lift_bind (populate_replicate hlarger hd hfit)]
  dsimp only
  split <;> rfl

end

variable (htries : maxDepth < tries)
include htries

/-- A code is extended in place as `PrefixCode.extend` says, if its populations can be added. -/
theorem extend_eq (hfit : c.populations.sum < 2 ^ 64) : extend tries size c =
    match c.extend size with
    | .ok c' => .ok () c'
    | .error e => .error (.error e) c := by
  by_cases hlarger : c.alphabetSize < size
  swap
  · have hle := Nat.not_lt.1 hlarger
    rw [extend_of_size_le hcodes hle, PrefixCode.extend, if_pos hle]
  by_cases hd : ∀ d ∈ c.depths.toList, d ≤ maxDepth
  swap
  · rw [extend_of_populate_eq_error hcodes hlarger (populate_replicate_of_deep hlarger hd hfit),
      PrefixCode.extend, if_neg (Nat.not_le.2 hlarger),
      if_pos (.inl (length_populations_lt_iff.2 hd))]
  rw [populations_eq hd] at hfit
  rw [extend_of_depth_le hcodes hlarger hd hfit]
  by_cases hsum : (c.depths.toList.map population).sum = codeSpace
  · have hne := extendedCounts_ne_nil hd hlarger
    rw [if_neg (not_not.2 hsum), install_eq htries hne fun count h ↦ (mem_extendedCounts h).2,
      extend_of_sum_population hd hlarger hsum]
    cases EntropyCoding.limitedDepths (c.extendedCounts size) maxDepth <;> rfl
  · rw [if_pos hsum, extend_of_sum_population_ne hd hlarger hsum]

theorem extend_of_ok (h : c.extend size = .ok c') : extend tries size c = .ok () c' := by
  obtain ⟨hd, -, hsum, -⟩ := PrefixCode.extend_eq_ok_iff.1 h
  have hfit : c.populations.sum < 2 ^ 64 := by
    rw [populations_eq hd, hsum]
    decide
  rw [extend_eq hcodes htries hfit, h]

end

/-- Either there is an extended code, which takes the place of the code, or that stays as it was. -/
theorem extend_cases (htries : maxDepth < tries) (c : PrefixCode) (size : Nat) :
    (∃ c', extend tries size c = .ok () c' ∧ c.codes.size = c.alphabetSize ∧
      c.extend size = .ok c') ∨ ∃ stop, extend tries size c = .error stop c := by
  by_cases hcodes : c.codes.size = c.alphabetSize
  swap
  · exact .inr ⟨_, extend_of_size_ne hcodes⟩
  by_cases hfit : c.populations.sum < 2 ^ 64
  · rw [extend_eq hcodes htries hfit]
    cases c.extend size with
    | ok c' => exact .inl ⟨c', rfl, hcodes, rfl⟩
    | error e => exact .inr ⟨_, rfl⟩
  by_cases hlarger : c.alphabetSize < size
  · obtain ⟨stop, hstop⟩ := exists_populate_error hlarger hfit
    exact .inr ⟨stop, extend_of_populate_eq_error hcodes hlarger hstop⟩
  · exact .inr ⟨_, extend_of_size_le hcodes (Nat.not_lt.1 hlarger)⟩

/-- A code is extended in place exactly if there is an extended code, and a codeword for each depth. -/
theorem extend_eq_ok_iff (htries : maxDepth < tries) : extend tries size c = .ok () c' ↔
    c.codes.size = c.alphabetSize ∧ c.extend size = .ok c' := by
  refine ⟨fun h ↦ ?_, fun ⟨hcodes, h⟩ ↦ extend_of_ok hcodes htries h⟩
  rcases extend_cases htries c size with ⟨c'', hok, hcodes, hextend⟩ | ⟨stop, hstop⟩
  · cases h.symm.trans hok
    exact ⟨hcodes, hextend⟩
  · cases h.symm.trans hstop

/-- If a code is not extended in place it is as it was. -/
theorem eq_of_extend_eq_error (htries : maxDepth < tries) {stop : Stop}
    (h : extend tries size c = .error stop c') : c' = c := by
  rcases extend_cases htries c size with ⟨c'', hok, -⟩ | ⟨stop', hstop⟩
  · cases h.symm.trans hok
  · cases h.symm.trans hstop
    rfl

/-- A code is extended in place exactly if it is shaped, as every code that can be built is, the new
alphabet is larger, the populations have `2 ^ 15` members, and there are enough codewords.  Then every
symbol has a codeword, and the codewords fill the code space.  Otherwise the code is as it was, and an
error is reported, unless the populations of a shaped code cannot be added. -/
theorem extend_exact (htries : maxDepth < tries) (c : PrefixCode) (size : Nat) :
    ((∃ c', extend tries size c = .ok () c') ↔ c.Shaped ∧ c.alphabetSize < size ∧
      (c.depths.toList.map population).sum = codeSpace ∧ size ≤ 2 ^ maxDepth) ∧
    (c.Obtainable → c.Shaped) ∧
    (∀ c', extend tries size c = .ok () c' → c'.Filled size) ∧
    (∀ stop c', extend tries size c = .error stop c' → c' = c ∧
      (c.Shaped → (c.depths.toList.map population).sum < 2 ^ 64 → ∃ e, stop = .error e)) := by
  refine ⟨?_, fun hc ↦ hc.accepted.shaped, fun c' h ↦ ?_, fun stop c' h ↦ ⟨?_, fun hc hfit ↦ ?_⟩⟩
  · simp only [extend_eq_ok_iff htries, exists_and_left]
    constructor
    · rintro ⟨hcodes, c', h⟩
      have hd := (PrefixCode.extend_eq_ok_iff.1 h).1
      exact ⟨⟨hcodes, hd⟩, (exists_extend_iff hd).1 ⟨c', h⟩⟩
    · rintro ⟨hc, h⟩
      exact ⟨hc.size_codes, (exists_extend_iff hc.depth_le).2 h⟩
  · exact filled_of_extend ((extend_eq_ok_iff htries).1 h).2
  · exact eq_of_extend_eq_error htries h
  · rw [← populations_eq hc.depth_le] at hfit
    rw [extend_eq hc.size_codes htries hfit] at h
    split at h
    · cases h
    · cases h
      exact ⟨_, rfl⟩

/-- Three symbols are extended to five, and their code stays if no more than three are wanted. -/
theorem extend_exact_three : maxDepth < 16 ∧
    (∃ c', extend 16 5 (canonical [1, 2, 2]) = .ok () c' ∧ c'.Filled 5) ∧
      extend 16 3 (canonical [1, 2, 2]) =
        .error (.error (.alphabetNotLarger 3 3)) (canonical [1, 2, 2]) := by
  have htries : maxDepth < 16 := by decide
  have hshaped : (canonical [1, 2, 2]).Shaped := ⟨rfl, by decide⟩
  obtain ⟨haccepted, -, hfilled, -⟩ := extend_exact htries (canonical [1, 2, 2]) 5
  obtain ⟨c', h⟩ := haccepted.2 ⟨hshaped, by decide, by decide, by decide⟩
  exact ⟨htries, ⟨c', h, hfilled c' h⟩, rfl⟩

end Checked

end EntropyCoding
