import EntropyCoding.Prefix.Decoder
import EntropyCoding.Proofs.Prefix.Canonical

/-!
# The symbols in the order of their codewords

A decoder sorts the coded symbols by depth and leaves those of equal depth in the order of their
ids.  So the symbols of a depth stand one after another, behind all symbols of less:
`getElem?_symbols`.  Symbols are stored in 16 bits, and all this needs is that those with a codeword
fit there, `StoresAll`.
-/

namespace EntropyCoding

/-! ## Sorting by a key -/

section SortBy

variable {α : Type} (key : α → Nat)

/-- A list sorted by a key is what is below a bound, and then the rest. -/
theorem filter_append_filter_of_sorted {l : List α} (h : l.Pairwise fun a b ↦ key a ≤ key b)
    (bound : Nat) :
    l = l.filter (fun a ↦ key a < bound) ++ l.filter fun a ↦ bound ≤ key a := by
  induction h with
  | nil => rfl
  | @cons a l ha _ ih =>
    by_cases hlt : key a < bound
    · have hge : ¬ bound ≤ key a := Nat.not_le.2 hlt
      simp only [List.filter_cons, hlt, hge, decide_true, decide_false, if_true, List.cons_append]
      exact congrArg (a :: ·) ih
    · have hge : bound ≤ key a := Nat.not_lt.1 hlt
      have hnone : l.filter (fun b ↦ key b < bound) = [] := by
        apply List.filter_eq_nil_iff.2
        intro b hb
        have := ha b hb
        simp only [decide_eq_true_eq]
        omega
      have hall : l.filter (fun b ↦ bound ≤ key b) = l := by
        apply List.filter_eq_self.2
        intro b hb
        have := ha b hb
        simp only [decide_eq_true_eq]
        omega
      simp only [List.filter_cons, hlt, hge, decide_true, decide_false, if_true, hnone, hall]
      rfl

/-- The list sorted by a key, equal keys in the order given. -/
def sortBy (l : List α) : List α :=
  l.mergeSort fun a b ↦ key a ≤ key b

theorem sortBy_perm (l : List α) : (sortBy key l).Perm l :=
  List.mergeSort_perm l _

theorem key_le_trans (a b c : α) (h : decide (key a ≤ key b) = true)
    (h' : decide (key b ≤ key c) = true) : decide (key a ≤ key c) = true := by
  rw [decide_eq_true_eq] at *
  exact Nat.le_trans h h'

theorem key_le_total (a b : α) : (decide (key a ≤ key b) || decide (key b ≤ key a)) = true := by
  rw [Bool.or_eq_true, decide_eq_true_eq, decide_eq_true_eq]
  exact Nat.le_total _ _

theorem pairwise_sortBy (l : List α) : (sortBy key l).Pairwise fun a b ↦ key a ≤ key b := by
  have h := List.pairwise_mergeSort (key_le_trans key) (key_le_total key) l
  exact h.imp fun hab ↦ of_decide_eq_true hab

/-- Elements of equal key keep their order. -/
theorem filter_sortBy (l : List α) (k : Nat) :
    (sortBy key l).filter (fun a ↦ key a = k) = l.filter fun a ↦ key a = k := by
  have hsorted : (l.filter fun a ↦ key a = k).Pairwise fun a b ↦ decide (key a ≤ key b) = true := by
    apply List.pairwise_iff_getElem.2
    intro i j hi hj _
    have ha := (List.mem_filter.1 (List.getElem_mem hi)).2
    have hb := (List.mem_filter.1 (List.getElem_mem hj)).2
    rw [decide_eq_true_eq] at *
    omega
  have hsub := List.sublist_mergeSort (key_le_trans key) (key_le_total key) hsorted
    List.filter_sublist
  have hsub' := hsub.filter fun a ↦ decide (key a = k)
  simp only [List.filter_filter, Bool.and_self] at hsub'
  refine (hsub'.eq_of_length ?_).symm
  exact ((sortBy_perm key l).filter _).length_eq.symm

/-- A sorted list, from the first element of a key on. -/
theorem getElem?_sortBy (l : List α) (k : Nat) {j : Nat}
    (hj : j < (l.filter fun a ↦ key a = k).length) :
    (sortBy key l)[l.countP (fun a ↦ key a < k) + j]? = (l.filter fun a ↦ key a = k)[j]? := by
  have hcount : ((sortBy key l).filter fun a ↦ key a < k).length = l.countP fun a ↦ key a < k := by
    rw [← List.countP_eq_length_filter]
    exact (sortBy_perm key l).countP_eq _
  have hequal : (((sortBy key l).filter fun a ↦ k ≤ key a).filter fun a ↦ key a < k + 1) =
      l.filter fun a ↦ key a = k := by
    rw [List.filter_filter, ← filter_sortBy]
    apply List.filter_congr
    intro a _
    rw [← Bool.decide_and]
    exact decide_eq_decide.2 (by omega)
  have hupper := filter_append_filter_of_sorted key
    ((pairwise_sortBy key l).filter fun a ↦ k ≤ key a) (k + 1)
  rw [filter_append_filter_of_sorted key (pairwise_sortBy key l) k,
    List.getElem?_append_right (by omega), hcount, Nat.add_sub_cancel_left, hupper, hequal,
    List.getElem?_append_left hj]

end SortBy

/-! ## Symbols of one depth -/

/-- The depths of the first symbols. -/
theorem map_getD_range (depths : List Nat) {n : Nat} (hn : n ≤ depths.length) :
    (List.range n).map (fun symbol ↦ depths.getD symbol 0) = depths.take n := by
  apply List.ext_getElem?
  intro i
  by_cases hi : i < n
  · have hget : depths[i]? = some (depths.getD i 0) := by
      rw [List.getD_eq_getElem?_getD, List.getElem?_eq_getElem (by omega)]
      rfl
    rw [List.getElem?_map, List.getElem?_range hi, List.getElem?_take_of_lt hi, hget]
    rfl
  · rw [List.getElem?_eq_none (by simp; omega), List.getElem?_eq_none (by simp; omega)]

theorem countP_range_getD (depths : List Nat) {n : Nat} (hn : n ≤ depths.length)
    (p : Nat → Bool) :
    (List.range n).countP (fun symbol ↦ p (depths.getD symbol 0)) = (depths.take n).countP p := by
  rw [← map_getD_range depths hn, List.countP_map]
  rfl

def symbolsOf (depths : List Nat) (depth : Nat) : List Nat :=
  (List.range depths.length).filter fun symbol ↦ depths.getD symbol 0 = depth

theorem length_symbolsOf (depths : List Nat) (depth : Nat) :
    (symbolsOf depths depth).length = depths.count depth := by
  have h := countP_range_getD depths (Nat.le_refl _) fun d ↦ decide (d = depth)
  rw [List.take_length] at h
  rw [symbolsOf, ← List.countP_eq_length_filter, h, List.count]
  apply List.countP_congr
  intro d _
  simp

/-- A symbol comes after those of the same depth before it. -/
theorem getElem?_symbolsOf {depths : List Nat} {symbol : Nat} (hs : symbol < depths.length) :
    (symbolsOf depths (depths.getD symbol 0))[(depths.take symbol).count
      (depths.getD symbol 0)]? = some symbol := by
  have hrange : List.range depths.length =
      List.range symbol ++ (symbol :: List.range' (symbol + 1) (depths.length - symbol - 1)) := by
    rw [List.range_eq_range', List.range_eq_range', ← List.range'_succ,
      show depths.length - symbol - 1 + 1 = depths.length - symbol by omega]
    have : List.range' 0 symbol ++ List.range' (0 + 1 * symbol) (depths.length - symbol) =
        List.range' 0 (symbol + (depths.length - symbol)) := List.range'_append
    simpa [Nat.add_sub_cancel' (Nat.le_of_lt hs)] using this.symm
  have hlen : ((List.range symbol).filter fun s ↦
      decide (depths.getD s 0 = depths.getD symbol 0)).length =
        (depths.take symbol).count (depths.getD symbol 0) := by
    rw [← List.countP_eq_length_filter,
      countP_range_getD depths (Nat.le_of_lt hs) fun d ↦ decide (d = depths.getD symbol 0),
      List.count]
    apply List.countP_congr
    intro d _
    simp
  rw [symbolsOf, hrange, List.filter_append, List.getElem?_append_right (by omega), hlen,
    Nat.sub_self, List.filter_cons_of_pos (by simp)]
  rfl

/-- Every place in the list of symbols of a depth has a symbol, with as many before it. -/
theorem exists_symbol_of_lt {depths : List Nat} {depth j : Nat} (hj : j < depths.count depth) :
    ∃ symbol < depths.length, depths.getD symbol 0 = depth ∧
      (depths.take symbol).count depth = j ∧ (symbolsOf depths depth)[j]? = some symbol := by
  have hlen : j < (symbolsOf depths depth).length := length_symbolsOf depths depth ▸ hj
  obtain ⟨symbol, hget⟩ : ∃ symbol, (symbolsOf depths depth)[j]? = some symbol :=
    ⟨_, List.getElem?_eq_getElem hlen⟩
  have hmem := List.mem_of_getElem? hget
  simp only [symbolsOf, List.mem_filter, List.mem_range, decide_eq_true_eq] at hmem
  obtain ⟨hs, rfl⟩ := hmem
  have hself := getElem?_symbolsOf hs
  have hnodup : (symbolsOf depths (depths.getD symbol 0)).Nodup := List.nodup_range.filter _
  exact ⟨symbol, hs, rfl, ((List.getElem?_inj hlen hnodup).1 (hget.trans hself.symm)).symm, hget⟩

/-! ## The table of a decoder -/

/-- The number of symbols of less than a depth. -/
def codesBelow (count : Nat → Nat) : Nat → Nat
  | 0 => 0
  | depth + 1 => codesBelow count depth + count depth

/-- The coded symbols up to a depth are those of less, and those of the depth. -/
theorem countP_lt_succ (depths : List Nat) {depth : Nat} (h : depth ≤ maxDepth) :
    (depths.countP fun d ↦ 0 < d && d < depth + 1) =
      (depths.countP fun d ↦ 0 < d && d < depth) + codeCount depths depth := by
  induction depths with
  | nil => simp [codeCount]
  | cons d depths ih =>
    rw [List.countP_cons, List.countP_cons, ih, codeCount_cons]
    by_cases hd : d = depth
    · subst hd
      have hcode : isCodeDepth d ↔ 0 < d := isCodeDepth_iff.trans (and_iff_left h)
      simp [hcode, Nat.add_assoc]
    · have hlt : (0 < d && d < depth + 1) = (0 < d && d < depth) := by
        congr 1
        exact decide_eq_decide.2 (by omega)
      have hne : ¬ (isCodeDepth d ∧ d = depth) := fun h' ↦ hd h'.2
      rw [hlt, if_neg hne]
      omega

/-- The coded symbols of less than a depth, counted depth by depth. -/
theorem codesBelow_codeCount (depths : List Nat) {depth : Nat} (h : depth ≤ maxDepth + 1) :
    codesBelow (codeCount depths) depth = depths.countP fun d ↦ 0 < d && d < depth := by
  induction depth with
  | zero =>
    rw [codesBelow, eq_comm, List.countP_eq_zero]
    simp
  | succ depth ih =>
    rw [codesBelow, ih (Nat.le_of_succ_le h), countP_lt_succ depths (Nat.le_of_succ_le_succ h)]

namespace PrefixDecoder

open PrefixCode

variable (depths : List Nat)

theorem depth_canonical : (canonical depths).depth = fun symbol ↦ depths.getD symbol 0 := by
  funext symbol
  simp [depth, canonical, Array.getD_eq_getD_getElem?]

/-- Every symbol with a codeword fits the 16 bits that it is stored in. -/
def StoresAll (depths : List Nat) : Prop :=
  ∀ symbol, 0 < depths.getD symbol 0 → symbol < 2 ^ 16

variable {depths}

theorem storesAll_of_length_le (hlen : depths.length ≤ 2 ^ 16) : StoresAll depths :=
  fun _ hpos ↦ Nat.lt_of_lt_of_le (lt_length_of_pos hpos) hlen

variable (hids : StoresAll depths)
include hids

/-- The coded symbols of a canonical code; all of them are stored as they are. -/
theorem storedSymbols_canonical : storedSymbols (canonical depths) =
    (List.range depths.length).filter fun symbol ↦ 0 < depths.getD symbol 0 := by
  have hsize : (canonical depths).alphabetSize = depths.length := List.size_toArray
  rw [storedSymbols, depth_canonical, hsize]
  conv => rhs; rw [← List.map_id ((List.range depths.length).filter _)]
  apply List.map_congr_left
  intro symbol hs
  exact Nat.mod_eq_of_lt (hids symbol (of_decide_eq_true (List.mem_filter.1 hs).2))

/-- The symbols of a depth are found in their order after those of less. -/
theorem getElem?_symbols {depth j : Nat} (hd : isCodeDepth depth) (hj : j < depths.count depth) :
    (ofCode (canonical depths)).symbols[codesBelow (codeCount depths) depth + j]? =
      (symbolsOf depths depth)[j]? := by
  have hpos : 0 < depth := (isCodeDepth_iff.1 hd).1
  have hequal : (storedSymbols (canonical depths)).filter
      (fun symbol ↦ depths.getD symbol 0 = depth) = symbolsOf depths depth := by
    rw [storedSymbols_canonical hids, List.filter_filter, symbolsOf]
    apply List.filter_congr
    intro symbol _
    rw [← Bool.decide_and]
    exact decide_eq_decide.2 (by omega)
  have hbelow : (storedSymbols (canonical depths)).countP
      (fun symbol ↦ depths.getD symbol 0 < depth) = codesBelow (codeCount depths) depth := by
    have hcount := countP_range_getD depths (Nat.le_refl _) fun d ↦ 0 < d && d < depth
    rw [List.take_length, ← codesBelow_codeCount depths (Nat.le_of_lt (lt_of_isCodeDepth hd))]
      at hcount
    rw [storedSymbols_canonical hids, List.countP_filter, ← hcount]
    apply List.countP_congr
    intro symbol _
    rw [Bool.and_comm]
  have hsort := getElem?_sortBy (fun symbol ↦ depths.getD symbol 0)
    (storedSymbols (canonical depths)) depth (j := j)
    (by rw [hequal, length_symbolsOf]; exact hj)
  rw [hequal, hbelow] at hsort
  rw [ofCode, depth_canonical, List.getElem?_toArray]
  exact hsort

end PrefixDecoder

end EntropyCoding
