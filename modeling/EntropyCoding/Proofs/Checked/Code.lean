import EntropyCoding.Proofs.Checked.Reader
import EntropyCoding.Proofs.Model.Code

/-!
# Checked prefix codes

Codewords are assigned from counts of depths, and a decoder is made of such counts and of the symbols
sorted by their depths; codewords and counts have 32 bits while this is done, and 16 where they are
stored.  All of it fits if the depths do not exceed the code space.

A decoder goes through the depths with an index into the symbols, `Checked.walk`.  The index lies
within the symbols because there are as many of them as are counted.  A decoder of a complete code
finds a codeword before it runs out of depths: the first number behind the codewords of the largest
depth is `2 ^ 15`, and no 15 bits make that number.  This is `Checked.agrees_readSymbol`.
-/

namespace EntropyCoding

namespace Checked

/-! ## Building a code -/

def countDepths (bits : Nat) (depths : List Nat) : Except Stop (Array Nat) :=
  depths.foldlM (fun counts depth ↦ if 0 < depth then increment bits counts depth else .ok counts)
    (Array.replicate (maxDepth + 1) 0)

/-- Stores the first codewords of the `n` depths behind `depth`, whose own first codeword is
`code`. -/
def storeFirstCodes (counts : Array Nat) : Nat → Nat → Nat → Array Nat → Except Stop (Array Nat)
  | 0, _, _, next => .ok next
  | n + 1, depth, code, next => do
    let count ← item counts depth
    let code ← shiftLeft 32 (← add 32 code count) 1
    storeFirstCodes counts n (depth + 1) code (← store next (depth + 1) code)

def firstCodes (depths : List Nat) : Except Stop (Array Nat) := do
  let counts ← countDepths 32 depths
  storeFirstCodes counts maxDepth 0 0 (Array.replicate (maxDepth + 1) 0)

/-- A codeword in the opposite order, stored in 16 bits. -/
def reverseCode (depth code : Nat) : Except Stop Nat := do
  let spare ← sub 32 depth
  fit 16 (← shiftRight 32 (reverseBits 32 code) spare)

/-- Assigns codewords in order; `next` has the codeword to assign next of each depth. -/
def assignCodes (next : Array Nat) (depths : List Nat) : Except Stop (Array Nat × Array Nat) :=
  depths.foldlM (fun (next, codes) depth ↦
    if isCodeDepth depth then do
      let code ← item next depth
      let next ← increment 32 next depth
      .ok (next, codes.push (← reverseCode depth code))
    else .ok (next, codes.push 0)) (next, #[])

/-- The part of the code space that the codewords take. -/
def kraftSum (depths : List Nat) : Except Stop Nat := do
  let parts ← (depths.filter isCodeDepth).mapM fun depth ↦ do
    shiftLeft 64 1 (← sub maxDepth depth)
  total 64 parts

/-- The canonical code with the given depths, if they describe a complete or a degenerate code. -/
def ofDepths (depths : List Nat) : Except Stop PrefixCode :=
  if depths.isEmpty then .error (.error (.invalidStream .emptyCode))
  else if depths.any (maxDepth < ·) then .error (.error (.invalidStream .codeDepth))
  else do
    let space ← kraftSum depths
    if depths.any (0 < ·) && space != codeSpace then
      .error (.error (.invalidStream .incompleteCode))
    else do
      let (_, codes) ← assignCodes (← firstCodes depths) depths
      .ok { depths := depths.toArray, codes }

/-- Depths are counted if there are not too many of any. -/
theorem countDepths_eq {bits : Nat} {depths : List Nat} (hd : ∀ d ∈ depths, d ≤ maxDepth)
    (h : ∀ depth, codeCount depths depth < 2 ^ bits) :
    countDepths bits depths = .ok (depthCounts depths) := by
  have hzero (depth : Nat) : (Array.replicate (maxDepth + 1) 0).getD depth 0 = 0 := by
    rw [Array.getD_eq_getD_getElem?, Array.getElem?_replicate]
    split <;> rfl
  refine foldlM_eq_ok (P := fun counts depths ↦ counts.size = maxDepth + 1 ∧
    (∀ d ∈ depths, d ≤ maxDepth) ∧
      ∀ depth, counts.getD depth 0 + codeCount depths depth < 2 ^ bits) ?_
    ⟨Array.size_replicate, hd, fun depth ↦ by rw [hzero, Nat.zero_add]; exact h depth⟩
  rintro counts d depths ⟨hsize, hd, hfit⟩
  obtain ⟨hmax, hds⟩ := List.forall_mem_cons.1 hd
  by_cases hpos : 0 < d
  · have hcode := isCodeDepth_of_pos hpos hmax
    have hlt : d < counts.size := hsize ▸ lt_of_isCodeDepth hcode
    have hone := hfit d
    rw [codeCount_cons, if_pos ⟨hcode, rfl⟩] at hone
    rw [if_pos hpos, if_pos hcode, increment_eq_ok hlt (by omega)]
    refine ⟨rfl, by rw [Array.size_modify, hsize], hds, fun depth ↦ ?_⟩
    rw [getD_modify_add_codeCount hsize hcode]
    exact hfit depth
  · have hcode : ¬ isCodeDepth d := fun h ↦ hpos (isCodeDepth_iff.1 h).1
    rw [if_neg hpos, if_neg hcode]
    refine ⟨rfl, hsize, hds, fun depth ↦ ?_⟩
    rw [← codeCount_cons_of_not_isCodeDepth hcode]
    exact hfit depth

/-- The table of depths has a place for each depth. -/
theorem size_depthCounts (depths : List Nat) : (depthCounts depths).size = maxDepth + 1 := by
  have hsize : ∀ counts : Array Nat, (depths.foldl (fun counts depth ↦
      if isCodeDepth depth then counts.modify depth (· + 1) else counts) counts).size =
        counts.size := by
    intro counts
    induction depths generalizing counts with
    | nil => rfl
    | cons d depths ih =>
      rw [List.foldl_cons, ih]
      split
      · rw [Array.size_modify]
      · rfl
  rw [depthCounts, hsize, Array.size_replicate]

/-- The upper bits of a reversed number are the lower ones, reversed. -/
theorem reverseBits_div {n depth : Nat} (h : depth ≤ n) (code : Nat) :
    reverseBits n code / 2 ^ (n - depth) = reverseBits depth code := by
  obtain ⟨spare, rfl⟩ : ∃ spare, n = depth + spare := ⟨n - depth, by omega⟩
  rw [Nat.add_sub_cancel_left]
  have hbits := lowBits_reverseBits (depth + spare) code
  rw [Nat.add_comm depth spare, lowBits_add, Nat.add_comm spare depth, lowBits_add,
    List.reverse_append] at hbits
  have hupper := (List.append_inj hbits (by simp)).2
  have hlt : reverseBits (depth + spare) code / 2 ^ spare < 2 ^ depth := by
    have hall := ofBits_lt (lowBits (depth + spare) code).reverse
    rw [List.length_reverse, length_lowBits, Nat.pow_add] at hall
    exact Nat.div_lt_of_lt_mul (Nat.mul_comm _ _ ▸ hall)
  rw [← Nat.mod_eq_of_lt hlt, ← ofBits_lowBits, hupper, reverseBits]

/-- A codeword of a depth that there is can be reversed. -/
theorem reverseCode_eq {depth : Nat} (h : isCodeDepth depth) (code : Nat) :
    reverseCode depth code = .ok (reverseBits depth code) := by
  obtain ⟨hpos, hmax⟩ := isCodeDepth_iff.1 h
  have hmax : depth ≤ 15 := hmax
  have hfit : reverseBits depth code < 2 ^ 16 := by
    have hlt := ofBits_lt (lowBits depth code).reverse
    rw [List.length_reverse, length_lowBits] at hlt
    exact Nat.lt_of_lt_of_le hlt (Nat.pow_le_pow_right (by decide) (by omega))
  rw [reverseCode, bind_of_eq_ok (sub_eq_ok (by omega)),
    bind_of_eq_ok (shiftRight_eq_ok (by omega) _), reverseBits_div (by omega), fit_eq_ok hfit]

section

variable {depths : List Nat} (hk : EntropyCoding.kraftSum depths ≤ codeSpace)
include hk

/-- There are not more codewords of a depth than fit the code space, nor numbers before them. -/
theorem firstCode_add_le_two_pow (depth : Nat) (hd : depth ≤ maxDepth) :
    firstCode (codeCount depths) depth + codeCount depths depth ≤ 2 ^ 15 :=
  Nat.le_trans (firstCode_add_le hk hd) (Nat.pow_le_pow_right (by decide) hd)

theorem codeCount_le (depth : Nat) : codeCount depths depth ≤ 2 ^ 15 := by
  by_cases hd : isCodeDepth depth
  · have := firstCode_add_le_two_pow hk depth (isCodeDepth_iff.1 hd).2
    omega
  · rw [codeCount, if_neg hd]
    exact Nat.zero_le _

/-- The first codewords of the depths behind one. -/
theorem storeFirstCodes_eq {n depth : Nat} (hn : n + depth = maxDepth) {next : Array Nat}
    (hsize : next.size = maxDepth + 1)
    (hnext : ∀ d ≤ depth, next.getD d 0 = firstCode (codeCount depths) d) :
    storeFirstCodes (depthCounts depths) n depth (firstCode (codeCount depths) depth) next =
      .ok (EntropyCoding.firstCodes depths) := by
  induction n generalizing depth next with
  | zero =>
    obtain rfl : depth = maxDepth := by omega
    rw [storeFirstCodes]
    congr 1
    apply Array.ext (by simp [EntropyCoding.firstCodes, hsize])
    intro d hd hd'
    have hlt : d < maxDepth + 1 := hsize ▸ hd
    have heq := (hnext d (Nat.le_of_lt_succ hlt)).trans (getD_firstCodes depths hlt).symm
    simpa [Array.getD_eq_getD_getElem?, hd, hd'] using heq
  | succ n ih =>
    have hcount : item (depthCounts depths) depth = .ok (codeCount depths depth) := by
      rw [item_eq_getD (by rw [size_depthCounts]; omega), getD_depthCounts]
    have hle := firstCode_add_le_two_pow hk depth (by omega)
    have hcode : (firstCode (codeCount depths) depth + codeCount depths depth) * 2 ^ 1 =
        firstCode (codeCount depths) (depth + 1) := Nat.mul_comm _ _
    rw [storeFirstCodes, bind_of_eq_ok hcount, bind_of_eq_ok (add_eq_ok (by omega)),
      bind_of_eq_ok (shiftLeft_eq_ok (by decide) (by omega)), hcode,
      bind_of_eq_ok (store_eq_ok (by omega) _)]
    refine ih (by omega) (by rw [Array.size_setIfInBounds, hsize]) fun d hd ↦ ?_
    rw [Array.getD_eq_getD_getElem?, Array.getElem?_setIfInBounds]
    split
    · next h =>
      subst h
      rw [if_pos (by omega)]
      rfl
    · rw [← Array.getD_eq_getD_getElem?]
      exact hnext d (by omega)

theorem firstCodes_eq (hd : ∀ d ∈ depths, d ≤ maxDepth) :
    firstCodes depths = .ok (EntropyCoding.firstCodes depths) := by
  have hcounts : countDepths 32 depths = .ok (depthCounts depths) := countDepths_eq hd fun depth ↦
    Nat.lt_of_le_of_lt (codeCount_le hk depth) (by decide)
  rw [firstCodes, bind_of_eq_ok hcounts]
  refine storeFirstCodes_eq hk rfl Array.size_replicate fun d hd ↦ ?_
  obtain rfl := Nat.le_zero.1 hd
  rfl

/-- Codewords are assigned. -/
theorem assignCodes_eq :
    ∃ next, assignCodes (EntropyCoding.firstCodes depths) depths = .ok (next, canonicalCodes depths) := by
  refine ⟨_, foldlM_eq_ok (P := fun state depths ↦ state.1.size = maxDepth + 1 ∧
    ∀ depth ≤ maxDepth, state.1.getD depth 0 + codeCount depths depth ≤ 2 ^ 15) ?_
      ⟨by simp [EntropyCoding.firstCodes], fun depth hdepth ↦ ?_⟩⟩
  · rintro ⟨next, codes⟩ d depths ⟨hsize, hfit⟩
    dsimp only at hsize hfit ⊢
    by_cases hcode : isCodeDepth d
    · have hlt : d < next.size := hsize ▸ lt_of_isCodeDepth hcode
      have hone := hfit d (isCodeDepth_iff.1 hcode).2
      rw [codeCount_cons, if_pos ⟨hcode, rfl⟩] at hone
      rw [if_pos hcode, if_pos hcode, bind_of_eq_ok (item_eq_getD hlt),
        bind_of_eq_ok (increment_eq_ok hlt (by omega)), bind_of_eq_ok (reverseCode_eq hcode _)]
      refine ⟨rfl, by rw [Array.size_modify, hsize], fun depth hdepth ↦ ?_⟩
      rw [getD_modify_add_codeCount hsize hcode]
      exact hfit depth hdepth
    · rw [if_neg hcode, if_neg hcode]
      refine ⟨rfl, hsize, fun depth hdepth ↦ ?_⟩
      rw [← codeCount_cons_of_not_isCodeDepth hcode]
      exact hfit depth hdepth
  · rw [getD_firstCodes depths (Nat.lt_succ_of_le hdepth)]
    exact firstCode_add_le_two_pow hk depth hdepth

end

/-- The part of the code space fits 64 bits. -/
theorem kraftSum_eq {depths : List Nat} (hlength : depths.length ≤ 2 ^ 16) :
    kraftSum depths = .ok (EntropyCoding.kraftSum depths) := by
  have hparts : (depths.filter isCodeDepth).mapM (fun depth ↦ do
      shiftLeft 64 1 (← sub maxDepth depth)) =
        .ok ((depths.filter isCodeDepth).map fun depth ↦ 2 ^ (maxDepth - depth)) := by
    refine mapM_eq_ok fun depth hdepth ↦ ?_
    have hle := (isCodeDepth_iff.1 (List.mem_filter.1 hdepth).2).2
    rw [bind_of_eq_ok (sub_eq_ok hle), shiftLeft_one]
    exact Nat.lt_of_le_of_lt (Nat.sub_le _ _) (by decide)
  rw [kraftSum, bind_of_eq_ok hparts, total_eq_ok, EntropyCoding.kraftSum]
  refine sum_lt_two_pow ?_ fun part hpart ↦ ?_
  · rw [List.length_map]
    have hcodes := Nat.le_trans (List.length_filter_le isCodeDepth depths) hlength
    exact Nat.le_trans hcodes (by decide)
  · obtain ⟨depth, -, rfl⟩ := List.mem_map.1 hpart
    exact Nat.pow_lt_pow_right (by decide) (Nat.lt_of_le_of_lt (Nat.sub_le _ _) (by decide))

/-- A code is built without a fault. -/
theorem ofDepths_eq {depths : List Nat} (hlength : depths.length ≤ 2 ^ 16) :
    ofDepths depths = embedExcept (PrefixCode.ofDepths depths) := by
  rw [ofDepths, PrefixCode.ofDepths]
  by_cases hempty : depths.isEmpty
  · rw [if_pos hempty, if_pos hempty]
    rfl
  rw [if_neg hempty, if_neg hempty]
  by_cases hdeep : depths.any (maxDepth < ·)
  · rw [if_pos hdeep, if_pos hdeep]
    rfl
  rw [if_neg hdeep, if_neg hdeep, bind_of_eq_ok (kraftSum_eq hlength)]
  by_cases hsum : depths.any (0 < ·) && EntropyCoding.kraftSum depths != codeSpace
  · rw [if_pos hsum, if_pos hsum]
    rfl
  have hcode : PrefixCode.ofDepths depths = .ok (.canonical depths) := by
    rw [PrefixCode.ofDepths, if_neg hempty, if_neg hdeep, if_neg hsum]
  have hk : EntropyCoding.kraftSum depths ≤ codeSpace :=
    (PrefixCode.accepted_of_ofDepths hcode).kraftSum_le
  have hd := (PrefixCode.ofDepths_eq_ok_iff.1 hcode).2.1
  obtain ⟨next, hcodes⟩ := assignCodes_eq hk
  rw [if_neg hsum, if_neg hsum, bind_of_eq_ok (firstCodes_eq hk hd), bind_of_eq_ok hcodes]
  rfl

/-! ## Decoders -/

def withDepths (depths : Array Nat) (symbols : List Nat) : Except Stop (List (Nat × Nat)) :=
  symbols.mapM fun symbol ↦ do .ok (symbol, ← item depths symbol)

def sortedSymbols (depths : Array Nat) : Except Stop (List Nat) := do
  let all ← withDepths depths (List.range depths.size)
  let stored ← (all.filter fun p ↦ 0 < p.2).mapM fun p ↦ fit 16 p.1
  let sorted := (← withDepths depths stored).mergeSort fun a b ↦ a.2 ≤ b.2
  .ok (sorted.map Prod.fst)

def ofCode (c : PrefixCode) : Except Stop PrefixDecoder := do
  let counts ← countDepths 16 c.depths.toList
  let symbols ← sortedSymbols c.depths
  .ok { single? := c.single?, counts, symbols := symbols.toArray }

/-- Reads on, for at most `n` bits, towards a codeword of `depth` bits or more. -/
def walk (d : PrefixDecoder) : Nat → Nat → Nat → Nat → Nat → Checked BitReader Nat
  | 0, _, _, _, _ => fault .unknownCodeword
  | n + 1, depth, code, first, index => do
    let code := code ||| (← read 1)
    let count ← item d.counts depth
    let behind ← add 32 first count
    if code < behind then do
      let place ← sub (← add 32 index code) first
      item d.symbols place
    else do
      let index ← add 32 index count
      let first ← shiftLeft 32 behind 1
      let code ← shiftLeft 32 code 1
      walk d n (depth + 1) code first index

def readSymbol (d : PrefixDecoder) : Checked BitReader Nat :=
  match d.single? with
  | some symbol => pure symbol
  | none => walk d maxDepth 1 0 0 0

theorem withDepths_eq {c : PrefixCode} {symbols : List Nat}
    (h : ∀ symbol ∈ symbols, symbol < c.alphabetSize) :
    withDepths c.depths symbols = .ok (symbols.map fun symbol ↦ (symbol, c.depth symbol)) :=
  mapM_eq_ok fun symbol hsymbol ↦ by rw [bind_of_eq_ok (item_eq_getD (h symbol hsymbol))]; rfl

/-- The symbols are those that a decoder stores. -/
theorem sortedSymbols_eq {c : PrefixCode} (h : c.alphabetSize ≤ 2 ^ 16) :
    sortedSymbols c.depths = .ok
      ((PrefixDecoder.storedSymbols c).mergeSort fun a b ↦ c.depth a ≤ c.depth b) := by
  have hall := withDepths_eq (c := c) fun symbol (hs : symbol ∈ List.range c.alphabetSize) ↦
    List.mem_range.1 hs
  have hstored : (((List.range c.alphabetSize).map fun symbol ↦ (symbol, c.depth symbol)).filter
      fun p ↦ 0 < p.2).mapM (fun p ↦ fit 16 p.1) = .ok (PrefixDecoder.storedSymbols c) := by
    rw [List.filter_map, mapM_eq_ok (g := fun p ↦ p.1 % 2 ^ 16), List.map_map]
    · rfl
    · intro p hp
      obtain ⟨symbol, hs, rfl⟩ := List.mem_map.1 hp
      have hlt := List.mem_range.1 (List.mem_filter.1 hs).1
      rw [Nat.mod_eq_of_lt (by omega), fit_eq_ok (by omega)]
  have hsymbols : ∀ symbol ∈ PrefixDecoder.storedSymbols c, symbol < c.alphabetSize := by
    intro symbol hsymbol
    obtain ⟨s, hs, rfl⟩ := List.mem_map.1 hsymbol
    exact Nat.lt_of_le_of_lt (Nat.mod_le _ _) (List.mem_range.1 (List.mem_filter.1 hs).1)
  rw [sortedSymbols, show c.depths.size = c.alphabetSize from rfl, bind_of_eq_ok hall,
    bind_of_eq_ok hstored, bind_of_eq_ok (withDepths_eq hsymbols),
    ← List.map_mergeSort (r := fun a b ↦ c.depth a ≤ c.depth b) fun _ _ _ _ ↦ rfl]
  dsimp only
  rw [List.map_map]
  exact congrArg Except.ok (List.map_id _)

theorem ofCode_eq {c : PrefixCode} (hc : c.Valid) : ofCode c = .ok (PrefixDecoder.ofCode c) := by
  have hd := (PrefixCode.ofDepths_eq_ok_iff.1 hc.ofDepths_eq).2.1
  have hcounts : countDepths 16 c.depths.toList = .ok (depthCounts c.depths.toList) :=
    countDepths_eq hd fun depth ↦
      Nat.lt_of_le_of_lt (codeCount_le hc.accepted.kraftSum_le depth) (by decide)
  rw [ofCode, bind_of_eq_ok hcounts, bind_of_eq_ok (sortedSymbols_eq hc.alphabetSize_le)]
  rfl

/-- The first number behind the codewords of a complete code. -/
theorem firstCode_of_complete {depths : List Nat}
    (hk : EntropyCoding.kraftSum depths = codeSpace) :
    firstCode (codeCount depths) (maxDepth + 1) = 2 ^ (maxDepth + 1) := by
  have hspace := spaceBelow_codeCount depths
  have hfirst := firstCode_mul (codeCount depths) (Nat.le_refl maxDepth)
  rw [hk, spaceBelow, ← hfirst, Nat.sub_self, Nat.pow_zero, Nat.mul_one, Nat.mul_one] at hspace
  rw [firstCode, hspace, codeSpace, Nat.pow_succ']

/-- A decoder of a complete code finds a codeword, and its symbol is stored. -/
theorem agrees_walk {depths : List Nat} (hlen : depths.length ≤ 2 ^ 16)
    (hk : EntropyCoding.kraftSum depths = codeSpace) {n depth acc : Nat}
    (hn : n + depth = maxDepth + 1) (hdepth : 1 ≤ depth)
    (hfirst : firstCode (codeCount depths) depth ≤ 2 * acc) (hacc : 2 * acc + 1 < 2 ^ depth) :
    Agrees BitReader.Inside
      (walk (.ofCode (.canonical depths)) n depth (2 * acc)
        (firstCode (codeCount depths) depth) (codesBelow (codeCount depths) depth))
      ((PrefixDecoder.ofCode (.canonical depths)).walk n depth (2 * acc)
        (firstCode (codeCount depths) depth) (codesBelow (codeCount depths) depth)) := by
  induction n generalizing depth acc with
  | zero =>
    obtain rfl : depth = maxDepth + 1 := by omega
    rw [firstCode_of_complete hk] at hfirst
    omega
  | succ n ih =>
    have hmax : depth ≤ maxDepth := by omega
    have hcode := isCodeDepth_of_pos hdepth hmax
    have hbits : 2 ^ depth ≤ 2 ^ 15 := Nat.pow_le_pow_right (by decide) hmax
    have hcount := codeCount_le (Nat.le_of_eq hk) depth
    have hbelow : codesBelow (codeCount depths) (depth + 1) ≤ 2 ^ 16 := by
      rw [codesBelow_codeCount depths (by omega)]
      exact Nat.le_trans List.countP_le_length hlen
    rw [codesBelow] at hbelow
    have hitem : item (PrefixDecoder.ofCode (.canonical depths)).counts depth =
        .ok (codeCount depths depth) := by
      rw [item_eq_getD, PrefixDecoder.getD_counts]
      exact (size_depthCounts depths).symm ▸ lt_of_isCodeDepth hcode
    refine (agrees_read (by decide)).bind fun bit r r₁ hr hread ↦ ?_
    have hbit : bit < 2 := ((BitRead.read_eq_ok_iff hr).1 hread).1
    have hor : 2 * acc ||| bit = 2 * acc + bit := (Nat.two_pow_add_eq_or_of_lt (i := 1) hbit acc).symm
    dsimp only
    rw [hor, PrefixDecoder.getD_counts]
    refine .step hitem (.step (add_eq_ok (by omega)) ?_)
    by_cases hlt : 2 * acc + bit < firstCode (codeCount depths) depth + codeCount depths depth
    · have hplace : codesBelow (codeCount depths) depth + (2 * acc + bit) -
          firstCode (codeCount depths) depth = codesBelow (codeCount depths) depth +
            (2 * acc + bit - firstCode (codeCount depths) depth) := by omega
      have hrank : 2 * acc + bit - firstCode (codeCount depths) depth < depths.count depth := by
        rw [codeCount, if_pos hcode] at hlt
        omega
      have hids := PrefixDecoder.storesAll_of_length_le hlen
      obtain ⟨symbol, -, -, -, hget⟩ := exists_symbol_of_lt hrank
      rw [← PrefixDecoder.getElem?_symbols hids hcode hrank] at hget
      rw [if_pos hlt, if_pos hlt, hget]
      refine .step (add_eq_ok (by omega)) (.step (sub_eq_ok (by omega)) ?_)
      rw [hplace, item_eq_ok hget]
      exact agrees_pure symbol
    · have hnext : 2 * (2 * acc + bit) + 1 < 2 ^ (depth + 1) := by
        rw [Nat.pow_succ]
        omega
      have hfirst' : firstCode (codeCount depths) (depth + 1) ≤ 2 * (2 * acc + bit) := by
        rw [firstCode]
        omega
      have hih := ih (show n + (depth + 1) = maxDepth + 1 by omega) (by omega) hfirst' hnext
      rw [if_neg hlt, if_neg hlt]
      refine .step (add_eq_ok (by omega)) (.step (shiftLeft_eq_ok (by decide) (by omega))
        (.step (shiftLeft_eq_ok (by decide) (by omega)) ?_))
      rw [Nat.pow_one, Nat.mul_comm _ 2, Nat.mul_comm _ 2]
      exact hih

/-- Reading a symbol of a valid code has no fault. -/
theorem agrees_readSymbol {c : PrefixCode} (hc : c.Valid) :
    Agrees BitReader.Inside (readSymbol (.ofCode c)) (PrefixDecoder.ofCode c).readSymbol := by
  rw [readSymbol, PrefixDecoder.readSymbol, show (PrefixDecoder.ofCode c).single? = c.single? from rfl]
  cases hs : c.single? with
  | some symbol => exact agrees_pure symbol
  | none =>
    have hk : EntropyCoding.kraftSum c.depths.toList = codeSpace :=
      (PrefixCode.ofDepths_eq_ok_iff.1 hc.ofDepths_eq).2.2.1
        (PrefixCode.exists_depth_pos_of_single? hs hc.accepted.alphabetSize_pos)
    rw [hc.accepted.ofCode_eq]
    exact agrees_walk hc.length_depths_le hk rfl (Nat.le_refl 1) (show 0 ≤ 2 * 0 from Nat.zero_le _)
      (by decide)

end Checked

end EntropyCoding
