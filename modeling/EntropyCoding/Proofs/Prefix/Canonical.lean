import EntropyCoding.Prefix.Canonical
import EntropyCoding.Proofs.Histogram.Counts

/-!
# Canonical codewords in closed form

The codeword of a symbol is the first codeword of its depth plus the number of symbols before it
with the same depth, `codeNumber`; this is what assigning codewords in order comes to,
`getD_canonicalCodes`.  The first codewords are sums over the shorter ones, scaled to the depth:
`firstCode_mul` relates them to the code space used up.  So if the depths do not exceed the code
space, every codeword fits its depth, `codeNumber_lt`, and is beyond all shorter codewords,
`firstCode_add_mul_le`.
-/

namespace EntropyCoding

def codeCount (depths : List Nat) (depth : Nat) : Nat :=
  if isCodeDepth depth then depths.count depth else 0

def codeNumber (depths : List Nat) (symbol : Nat) : Nat :=
  firstCode (codeCount depths) (depths.getD symbol 0)
    + (depths.take symbol).count (depths.getD symbol 0)

theorem isCodeDepth_iff {depth : Nat} : isCodeDepth depth ↔ 1 ≤ depth ∧ depth ≤ maxDepth := by
  simp only [isCodeDepth, Bool.and_eq_true, decide_eq_true_eq]

theorem lt_of_isCodeDepth {depth : Nat} (h : isCodeDepth depth) : depth < maxDepth + 1 :=
  Nat.lt_succ_of_le (isCodeDepth_iff.1 h).2

theorem isCodeDepth_of_pos {depth : Nat} (h : 0 < depth) (h' : depth ≤ maxDepth) :
    isCodeDepth depth :=
  isCodeDepth_iff.2 ⟨h, h'⟩

/-! ## Tables of depths -/

/-- One symbol more is counted at its depth, if that is one of a coded symbol. -/
theorem codeCount_cons (d : Nat) (depths : List Nat) (depth : Nat) :
    codeCount (d :: depths) depth =
      codeCount depths depth + if isCodeDepth d ∧ d = depth then 1 else 0 := by
  by_cases h : d = depth
  · subst h
    rw [codeCount, codeCount, List.count_cons_self]
    split <;> simp [*]
  · have hne : ¬ (isCodeDepth d ∧ d = depth) := fun h' ↦ h h'.2
    rw [codeCount, codeCount, List.count_cons_of_ne h, if_neg hne, Nat.add_zero]

theorem getD_modify_add_codeCount {counts : Array Nat} (hsize : counts.size = maxDepth + 1) {d : Nat}
    (hd : isCodeDepth d) (depths : List Nat) (depth : Nat) :
    (counts.modify d (· + 1)).getD depth 0 + codeCount depths depth =
      counts.getD depth 0 + codeCount (d :: depths) depth := by
  rw [getD_modify_succ (hsize ▸ lt_of_isCodeDepth hd), codeCount_cons, Nat.add_assoc,
    Nat.add_comm (codeCount _ _)]
  simp [hd]

theorem codeCount_cons_of_not_isCodeDepth {d : Nat} (hd : ¬ isCodeDepth d) (depths : List Nat)
    (depth : Nat) : codeCount (d :: depths) depth = codeCount depths depth := by
  rw [codeCount_cons, if_neg fun h ↦ hd h.1, Nat.add_zero]

/-- Counting depths adds to the counts of a table. -/
theorem getD_foldl_depthCounts (depths : List Nat) {counts : Array Nat}
    (hsize : counts.size = maxDepth + 1) (depth : Nat) :
    (depths.foldl (fun counts depth ↦
      if isCodeDepth depth then counts.modify depth (· + 1) else counts) counts).getD depth 0 =
        counts.getD depth 0 + codeCount depths depth := by
  induction depths generalizing counts with
  | nil => simp [codeCount]
  | cons d depths ih =>
    rw [List.foldl_cons]
    by_cases hd : isCodeDepth d
    · rw [if_pos hd, ih (by rw [Array.size_modify, hsize]), getD_modify_add_codeCount hsize hd]
    · rw [if_neg hd, ih hsize, codeCount_cons_of_not_isCodeDepth hd]

theorem getD_depthCounts (depths : List Nat) (depth : Nat) :
    (depthCounts depths).getD depth 0 = codeCount depths depth := by
  rw [depthCounts, getD_foldl_depthCounts depths (by simp)]
  have hzero : (Array.replicate (maxDepth + 1) 0).getD depth 0 = 0 := by
    rw [Array.getD_eq_getD_getElem?, Array.getElem?_replicate]
    split <;> rfl
  rw [hzero, Nat.zero_add]

theorem getD_firstCodes (depths : List Nat) {depth : Nat} (h : depth < maxDepth + 1) :
    (firstCodes depths).getD depth 0 = firstCode (codeCount depths) depth := by
  have hcount : (fun depth ↦ (depthCounts depths).getD depth 0) = codeCount depths := by
    funext depth
    exact getD_depthCounts depths depth
  rw [firstCodes, hcount, Array.getD_eq_getD_getElem?]
  simp [h]

/-! ## Assigning codewords -/

/-- The codeword of a symbol, bit-reversed, if `next` has the first one of each depth. -/
def assignedCode (next : Array Nat) (depths : List Nat) (symbol : Nat) : Nat :=
  if isCodeDepth (depths.getD symbol 0) then
    reverseBits (depths.getD symbol 0)
      (next.getD (depths.getD symbol 0) 0 + (depths.take symbol).count (depths.getD symbol 0))
  else 0

/-- A coded symbol takes a codeword of its depth from those behind it. -/
theorem assignedCode_cons_of_isCodeDepth {next : Array Nat} (hsize : next.size = maxDepth + 1)
    {d : Nat} (hd : isCodeDepth d) (depths : List Nat) (symbol : Nat) :
    assignedCode next (d :: depths) (symbol + 1) =
      assignedCode (next.modify d (· + 1)) depths symbol := by
  rw [assignedCode, assignedCode, List.getD_cons_succ, List.take_succ_cons,
    getD_modify_succ (hsize ▸ lt_of_isCodeDepth hd), List.count_cons]
  simp only [beq_iff_eq]
  rw [Nat.add_assoc, Nat.add_comm (List.count _ _)]

/-- A symbol without a codeword takes none. -/
theorem assignedCode_cons_of_not_isCodeDepth {next : Array Nat} {d : Nat} (hd : ¬ isCodeDepth d)
    (depths : List Nat) (symbol : Nat) :
    assignedCode next (d :: depths) (symbol + 1) = assignedCode next depths symbol := by
  rw [assignedCode, assignedCode, List.getD_cons_succ, List.take_succ_cons]
  split
  · next h =>
    have hne : d ≠ depths.getD symbol 0 := fun he ↦ hd (he ▸ h)
    rw [List.count_cons_of_ne hne]
  · rfl

/-- Codewords assigned in order, after those in `codes`. -/
theorem toList_foldl_assignCodes (depths : List Nat) {next : Array Nat}
    (hsize : next.size = maxDepth + 1) (codes : Array Nat) :
    (depths.foldl (fun (next, codes) depth ↦
      if isCodeDepth depth then
        (next.modify depth (· + 1), codes.push (reverseBits depth (next.getD depth 0)))
      else (next, codes.push 0)) (next, codes)).2.toList =
        codes.toList ++ (List.range depths.length).map (assignedCode next depths) := by
  induction depths generalizing next codes with
  | nil => simp
  | cons d depths ih =>
    rw [List.foldl_cons, List.length_cons, List.range_succ_eq_map, List.map_cons, List.map_map]
    dsimp only
    by_cases hd : isCodeDepth d
    · have hrest : assignedCode next (d :: depths) ∘ Nat.succ =
          assignedCode (next.modify d (· + 1)) depths :=
        funext (assignedCode_cons_of_isCodeDepth hsize hd depths)
      have hfirst : assignedCode next (d :: depths) 0 = reverseBits d (next.getD d 0) := if_pos hd
      rw [if_pos hd, ih (by rw [Array.size_modify, hsize]), Array.toList_push, List.append_assoc,
        hrest, hfirst, List.singleton_append]
    · have hrest : assignedCode next (d :: depths) ∘ Nat.succ = assignedCode next depths :=
        funext (assignedCode_cons_of_not_isCodeDepth hd depths)
      have hfirst : assignedCode next (d :: depths) 0 = 0 := if_neg hd
      rw [if_neg hd, ih hsize, Array.toList_push, List.append_assoc, hrest, hfirst,
        List.singleton_append]

/-- The codewords of all symbols, bit-reversed. -/
theorem toList_canonicalCodes (depths : List Nat) :
    (canonicalCodes depths).toList = (List.range depths.length).map fun symbol ↦
      if isCodeDepth (depths.getD symbol 0) then
        reverseBits (depths.getD symbol 0) (codeNumber depths symbol)
      else 0 := by
  rw [canonicalCodes, assignCodes, toList_foldl_assignCodes depths (by simp [firstCodes]),
    List.nil_append]
  apply List.map_congr_left
  intro symbol _
  rw [assignedCode]
  split
  · next h => rw [getD_firstCodes depths (lt_of_isCodeDepth h), codeNumber]
  · rfl

theorem lt_length_of_isCodeDepth {depths : List Nat} {symbol : Nat}
    (h : isCodeDepth (depths.getD symbol 0)) : symbol < depths.length :=
  lt_length_of_pos (isCodeDepth_iff.1 h).1

/-- The codeword of a symbol, bit-reversed. -/
theorem getD_canonicalCodes {depths : List Nat} {symbol : Nat}
    (h : isCodeDepth (depths.getD symbol 0)) :
    (canonicalCodes depths).getD symbol 0 =
      reverseBits (depths.getD symbol 0) (codeNumber depths symbol) := by
  rw [Array.getD_eq_getD_getElem?, ← Array.getElem?_toList, toList_canonicalCodes,
    List.getElem?_map, List.getElem?_range (lt_length_of_isCodeDepth h)]
  exact if_pos h

/-- The bits of a reversed codeword, in stream order, are those of the codeword from the top. -/
theorem lowBits_reverseBits (n code : Nat) :
    lowBits n (reverseBits n code) = (lowBits n code).reverse := by
  have h := lowBits_ofBits (lowBits n code).reverse
  rwa [List.length_reverse, length_lowBits] at h

/-! ## The code space -/

/-- The part of the code space that the codewords of less than a depth take, in units of
`2 ^ -15`. -/
def spaceBelow (count : Nat → Nat) : Nat → Nat
  | 0 => 0
  | depth + 1 => spaceBelow count depth + count depth * 2 ^ (maxDepth - depth)

/-- The first codeword of a depth comes after all shorter codewords. -/
theorem firstCode_mul (count : Nat → Nat) {depth : Nat} (h : depth ≤ maxDepth) :
    firstCode count depth * 2 ^ (maxDepth - depth) = spaceBelow count depth := by
  induction depth with
  | zero => simp [firstCode, spaceBelow]
  | succ depth ih =>
    have hpow : 2 ^ (maxDepth - depth) = 2 * 2 ^ (maxDepth - (depth + 1)) := by
      rw [← Nat.pow_succ']
      congr 1
      omega
    rw [spaceBelow, ← ih (by omega), ← Nat.add_mul, hpow, firstCode, Nat.mul_comm 2 (_ + _),
      Nat.mul_assoc]

/-- Deeper codewords take more space. -/
theorem spaceBelow_le (count : Nat → Nat) {a b : Nat} (h : a ≤ b) :
    spaceBelow count a ≤ spaceBelow count b := by
  induction h with
  | refl => exact Nat.le_refl _
  | step _ ih => exact Nat.le_trans ih (Nat.le_add_right _ _)

/-- The first codeword of a depth is beyond all codewords of a smaller depth. -/
theorem firstCode_add_mul_le (count : Nat → Nat) {a b : Nat} (h : a < b) :
    (firstCode count a + count a) * 2 ^ (b - a) ≤ firstCode count b := by
  induction h with
  | refl => simp [firstCode, Nat.mul_comm]
  | step hab ih =>
    rw [Nat.succ_sub (Nat.le_of_lt hab), Nat.pow_succ, ← Nat.mul_assoc, firstCode]
    have := Nat.mul_le_mul_right 2 ih
    omega

/-- One symbol more takes its part of the code space. -/
theorem spaceBelow_codeCount_cons (d : Nat) (depths : List Nat) (depth : Nat) :
    spaceBelow (codeCount (d :: depths)) depth =
      (if isCodeDepth d ∧ d < depth then 2 ^ (maxDepth - d) else 0)
        + spaceBelow (codeCount depths) depth := by
  induction depth with
  | zero => simp [spaceBelow]
  | succ depth ih =>
    rw [spaceBelow, spaceBelow, ih, codeCount_cons]
    by_cases hd : isCodeDepth d
    · rcases Nat.lt_trichotomy d depth with hlt | rfl | hgt
      · simp [hd, hlt, Nat.ne_of_lt hlt, Nat.lt_succ_of_lt hlt, Nat.add_assoc]
      · simp [hd, Nat.add_mul]
        omega
      · have hge : ¬ d < depth + 1 := Nat.not_lt.2 hgt
        simp [hge, Nat.not_lt.2 (Nat.le_of_lt hgt), Nat.ne_of_gt hgt]
    · simp [hd]

/-- All codewords together take the space that the depths add up to. -/
theorem spaceBelow_codeCount (depths : List Nat) :
    spaceBelow (codeCount depths) (maxDepth + 1) = kraftSum depths := by
  induction depths with
  | nil => decide
  | cons d depths ih =>
    rw [spaceBelow_codeCount_cons, ih, kraftSum, kraftSum, List.filter_cons]
    by_cases hd : isCodeDepth d
    · rw [if_pos ⟨hd, lt_of_isCodeDepth hd⟩, if_pos hd, List.map_cons, List.sum_cons]
    · rw [if_neg (fun h ↦ hd h.1), if_neg hd, Nat.zero_add]

/-- If the depths do not exceed the code space, neither do the codewords of a depth. -/
theorem firstCode_add_le {depths : List Nat} (hk : kraftSum depths ≤ codeSpace) {depth : Nat}
    (hd : depth ≤ maxDepth) :
    firstCode (codeCount depths) depth + codeCount depths depth ≤ 2 ^ depth := by
  have hspace : spaceBelow (codeCount depths) (depth + 1) ≤ codeSpace :=
    Nat.le_trans (spaceBelow_le _ (Nat.succ_le_succ hd)) (spaceBelow_codeCount depths ▸ hk)
  rw [spaceBelow, ← firstCode_mul _ hd, ← Nat.add_mul] at hspace
  have hpow : codeSpace = 2 ^ depth * 2 ^ (maxDepth - depth) := by
    rw [← Nat.pow_add, Nat.add_sub_cancel' hd, codeSpace]
  rw [hpow] at hspace
  exact Nat.le_of_mul_le_mul_right hspace (Nat.two_pow_pos _)

theorem count_take_lt {l : List Nat} {i : Nat} (hi : i < l.length) :
    (l.take i).count (l.getD i 0) < l.count (l.getD i 0) := by
  have hget : l.getD i 0 = l[i] := by simp [hi]
  have hsplit : l.count l[i] = (l.take i).count l[i] + ((l.drop (i + 1)).count l[i] + 1) := by
    rw [← List.count_cons_self, ← List.drop_eq_getElem_cons hi, ← List.count_append,
      List.take_append_drop]
  rw [hget]
  omega

section

variable {depths : List Nat} {symbol : Nat} (h : isCodeDepth (depths.getD symbol 0))
include h

theorem codeNumber_lt_firstCode_add : codeNumber depths symbol <
    firstCode (codeCount depths) (depths.getD symbol 0)
      + codeCount depths (depths.getD symbol 0) := by
  have := count_take_lt (lt_length_of_isCodeDepth h)
  rw [codeNumber, codeCount, if_pos h]
  omega

/-- A codeword fits its depth. -/
theorem codeNumber_lt (hk : kraftSum depths ≤ codeSpace) :
    codeNumber depths symbol < 2 ^ depths.getD symbol 0 :=
  Nat.lt_of_lt_of_le (codeNumber_lt_firstCode_add h)
    (firstCode_add_le hk (isCodeDepth_iff.1 h).2)

end

end EntropyCoding
