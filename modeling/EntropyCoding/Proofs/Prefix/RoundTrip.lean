import EntropyCoding.Proofs.Prefix.Depths

/-!
# Which prefix codes are read back

What is written with a prefix code is read back exactly if the decoder can store every symbol that has
a codeword, `PrefixCode.readsBack_iff`: symbols are stored in 16 bits.  So it is for every code whose
alphabet is not too large, and for every degenerate code, of which no symbol is stored.

The alphabet of a code is not limited where the code is built.  A symbol that does not fit has a
codeword all the same, but a decoder gives another symbol for it, `PrefixCode.readSymbol_two_pow`.
-/

namespace EntropyCoding

namespace PrefixCode

/-- Codes that can be built, from depths or for a histogram. -/
def Obtainable (c : PrefixCode) : Prop :=
  (∃ depths, ofDepths depths = .ok c) ∨ ∃ h, ofHistogram h = .ok c

theorem Obtainable.accepted {c : PrefixCode} (h : c.Obtainable) : c.Accepted := by
  rcases h with ⟨depths, h⟩ | ⟨hist, h⟩
  · exact accepted_of_ofDepths h
  · exact (ofDepths_of_ofHistogram h).1

/-- What is written with the code is read back: symbols that have codewords, after any earlier content
of the writer, with any later content behind them and any bytes behind that; and just their bits are
read. -/
def ReadsBack (c : PrefixCode) : Prop :=
  ∀ ⦃symbols fields⦄, symbols.mapM c.codeword = .ok fields →
    ∀ ⦃w later : BitWriter⦄, w.Valid → later.Valid →
      (w.writeFields fields).toBits <+: later.toBits → ∀ more : Array UInt8,
        BitRead.many symbols.length (PrefixDecoder.ofCode c).readSymbol
            ⟨later.toBytes ++ more, w.bitsWritten⟩ =
          .ok symbols ⟨later.toBytes ++ more, (w.writeFields fields).bitsWritten⟩

/-! ## Symbols that are stored -/

def codewordBits (c : PrefixCode) (symbol : Nat) : List Bool :=
  match c.codeword symbol with
  | .ok f => f.bits
  | .error _ => []

/-- The bits of the codewords of symbols, each of which has one. -/
theorem fieldBits_codewords {c : PrefixCode} {symbols : List Nat} {fields : List Field}
    (h : symbols.mapM c.codeword = .ok fields) :
    fieldBits fields = symbols.flatMap c.codewordBits ∧
      ∀ symbol ∈ symbols, ∃ f, c.codeword symbol = .ok f := by
  induction symbols generalizing fields with
  | nil =>
    cases h
    exact ⟨rfl, nofun⟩
  | cons symbol symbols ih =>
    obtain ⟨f, fs, hf, hfs, rfl⟩ := Except.mapM_cons_eq_ok_iff.1 h
    obtain ⟨hrest, hcoded⟩ := ih hfs
    rw [fieldBits_cons, List.flatMap_cons, hrest, codewordBits, hf]
    exact ⟨rfl, List.forall_mem_cons.2 ⟨⟨f, hf⟩, hcoded⟩⟩

namespace Accepted

open PrefixDecoder

variable {c : PrefixCode} (hc : c.Accepted)
include hc

/-- The codewords of symbols are fields that can be written. -/
theorem writable_codewords {symbols : List Nat} {fields : List Field}
    (h : symbols.mapM c.codeword = .ok fields) : Writable fields := by
  induction symbols generalizing fields with
  | nil =>
    cases h
    exact writable_nil
  | cons symbol symbols ih =>
    obtain ⟨f, fs, hf, hfs, rfl⟩ := Except.mapM_cons_eq_ok_iff.1 h
    exact writable_cons.2 ⟨Nat.le_trans (hc.width_codeword_le hf) (by decide), ih hfs⟩

/-- A decoder takes the codewords of symbols, one after another. -/
theorem takes_many_readSymbol (hids : StoresAll c.depths.toList) {symbols : List Nat}
    {fields : List Field} (h : symbols.mapM c.codeword = .ok fields) :
    BitRead.Takes (BitRead.many symbols.length (ofCode c).readSymbol) (fieldBits fields)
      symbols := by
  obtain ⟨hbits, hcoded⟩ := fieldBits_codewords h
  rw [hbits]
  refine BitRead.takes_many fun symbol hmem ↦ ?_
  obtain ⟨f, hf⟩ := hcoded symbol hmem
  rw [codewordBits, hf]
  exact hc.takes_readSymbol hids hf

/-- What is written with a code is read back if every symbol with a codeword can be stored. -/
theorem readsBack (hids : StoresAll c.depths.toList) : c.ReadsBack := by
  intro symbols fields h w later hw hlater hpre more
  exact hc.takes_many_readSymbol hids h
    (BitReader.passes_writeFields hw (hc.writable_codewords h) hlater hpre more)

end Accepted

end PrefixCode

/-! ## Symbols that are not stored -/

namespace PrefixDecoder

theorem lt_of_mem_symbols {c : PrefixCode} {symbol : Nat} (h : symbol ∈ (ofCode c).symbols) :
    symbol < 2 ^ 16 := by
  have hstored : symbol ∈ storedSymbols c := by
    rwa [ofCode, List.mem_toArray, List.mem_mergeSort] at h
  obtain ⟨id, -, rfl⟩ := List.mem_map.1 hstored
  exact Nat.mod_lt id (Nat.two_pow_pos 16)

/-- A decoder finds a symbol that it stores. -/
theorem mem_symbols_of_walk {d : PrefixDecoder} {symbol n depth code first index : Nat}
    {r r' : BitReader} (h : d.walk n depth code first index r = .ok symbol r') :
    symbol ∈ d.symbols := by
  induction n generalizing depth code first index r with
  | zero => cases h
  | succ n ih =>
    obtain ⟨bit, r₁, -, h⟩ := bind_eq_ok_iff.1 h
    split at h
    · cases hget : d.symbols[index + (code + bit - first)]? with
      | none =>
        rw [hget] at h
        cases h
      | some found =>
        rw [hget] at h
        obtain ⟨rfl, -⟩ := pure_eq_ok_iff.1 h
        exact Array.mem_of_getElem? hget
    · exact ih h

/-- A symbol that is read with a code that is not degenerate has 16 bits. -/
theorem lt_of_readSymbol {c : PrefixCode} (hsingle : c.single? = none) {symbol : Nat}
    {r r' : BitReader} (h : (ofCode c).readSymbol r = .ok symbol r') : symbol < 2 ^ 16 := by
  rw [readSymbol, show (ofCode c).single? = none from hsingle] at h
  exact lt_of_mem_symbols (mem_symbols_of_walk h)

end PrefixDecoder

namespace PrefixCode

open PrefixDecoder

/-- If what is written with a code is read back, every symbol with a codeword can be stored. -/
theorem Accepted.storesAll {c : PrefixCode} (hc : c.Accepted) (h : c.ReadsBack) :
    StoresAll c.depths.toList := by
  intro symbol hpos
  rw [getD_depths] at hpos
  -- the symbol is written alone
  have hcodeword : [symbol].mapM c.codeword = .ok [⟨c.codes.getD symbol 0, c.depth symbol⟩] :=
    Except.mapM_cons_eq_ok_iff.2 ⟨_, [], codeword_eq_ok_iff.2 (.inl ⟨hpos, rfl⟩), rfl, rfl⟩
  have hwritten := BitWriter.valid_empty.writeFields (hc.writable_codewords hcodeword)
  have hread := h hcodeword BitWriter.valid_empty hwritten (List.prefix_refl _) #[]
  obtain ⟨r, r', hone⟩ := (BitRead.exists_of_many hread).2 symbol List.mem_cons_self
  exact lt_of_readSymbol (single?_of_depth_pos hpos) hone

/-- What is written with a code is read back exactly if every symbol with a codeword has 16 bits. -/
theorem readsBack_iff {c : PrefixCode} (hc : c.Obtainable) :
    c.ReadsBack ↔ ∀ symbol, 0 < c.depth symbol → symbol < 2 ^ 16 := by
  have hstores : StoresAll c.depths.toList ↔ ∀ symbol, 0 < c.depth symbol → symbol < 2 ^ 16 :=
    forall_congr' fun symbol ↦ by rw [getD_depths]
  rw [← hstores]
  exact ⟨hc.accepted.storesAll, hc.accepted.readsBack⟩

/-- Three symbols of a code with a gap, behind a bit and before a byte. -/
theorem readsBack_iff_gap : ∃ c fields, ofDepths [1, 0, 2, 2] = .ok c ∧
    [3, 0, 2].mapM c.codeword = .ok fields ∧
      BitRead.many 3 (ofCode c).readSymbol
          ⟨((BitWriter.empty.write 1 1).writeFields fields).toBytes ++ #[255], 1⟩ =
        .ok [3, 0, 2] ⟨((BitWriter.empty.write 1 1).writeFields fields).toBytes ++ #[255], 6⟩ := by
  have hc : ofDepths [1, 0, 2, 2] = .ok (canonical [1, 0, 2, 2]) := rfl
  have hfields : [3, 0, 2].mapM (canonical [1, 0, 2, 2]).codeword =
      .ok [⟨3, 2⟩, ⟨0, 1⟩, ⟨1, 2⟩] := by
    have hcodes : (canonical [1, 0, 2, 2]).codes = #[0, 0, 1, 3] := by decide +kernel
    simp only [List.mapM_cons, List.mapM_nil, codeword, hcodes]
    rfl
  have hids : ∀ symbol, 0 < (canonical [1, 0, 2, 2]).depth symbol → symbol < 2 ^ 16 := by
    intro symbol hpos
    rw [← getD_depths] at hpos
    exact storesAll_of_length_le (by decide) symbol hpos
  have hw : (BitWriter.empty.write 1 1).Valid := BitWriter.valid_empty.write 1 (by decide)
  exact ⟨_, _, hc, hfields, (readsBack_iff (.inl ⟨_, hc⟩)).2 hids hfields hw
    (hw.writeFields (by decide)) (List.prefix_refl _) #[255]⟩

/-! ## A symbol of 17 bits -/

/-- The depths of a code of two symbols behind `n` that have no codeword. -/
def lastTwo (n : Nat) : List Nat :=
  List.replicate n 0 ++ [1, 1]

theorem depth_lastTwo_add (n : Nat) {i : Nat} (hi : i < 2) :
    (canonical (lastTwo n)).depth (n + i) = 1 := by
  change (canonical (List.replicate n 0 ++ [1, 1])).depth (n + i) = 1
  rw [← getD_depths, canonical, List.getD_eq_getElem?_getD, List.getElem?_append_right (by simp),
    List.length_replicate, Nat.add_sub_cancel_left]
  obtain rfl | rfl : i = 0 ∨ i = 1 := by omega
  · rfl
  · rfl

theorem depth_lastTwo_of_lt {n symbol : Nat} (h : symbol < n) :
    (canonical (lastTwo n)).depth symbol = 0 := by
  change (canonical (List.replicate n 0 ++ [1, 1])).depth symbol = 0
  rw [← getD_depths, canonical, List.getD_eq_getElem?_getD,
    List.getElem?_append_left (by rwa [List.length_replicate]), List.getElem?_replicate, if_pos h]
  rfl

/-- The depths of such a code are accepted. -/
theorem ofDepths_lastTwo (n : Nat) : ofDepths (lastTwo n) = .ok (canonical (lastTwo n)) := by
  refine ofDepths_eq_ok_iff.2 ⟨by simp [lastTwo], ?_, fun _ ↦ ?_, rfl⟩
  · intro d hd
    rcases List.mem_append.1 hd with hd | hd
    · rw [List.eq_of_mem_replicate hd]
      exact Nat.zero_le _
    · have hall : ∀ d ∈ [1, 1], d ≤ maxDepth := by decide
      exact hall d hd
  · rw [kraftSum, lastTwo, List.filter_append, List.filter_replicate_of_neg (by decide)]
    rfl

/-- The first of the two symbols has the codeword of one zero. -/
theorem codeword_lastTwo (n : Nat) : (canonical (lastTwo n)).codeword n = .ok ⟨0, 1⟩ := by
  have hdepth : (canonical (lastTwo n)).depth n = 1 := depth_lastTwo_add n Nat.two_pos
  have hpos : 0 < (canonical (lastTwo n)).depth n := by omega
  -- no codeword of one bit stands before it
  have hnumber : codeNumber (lastTwo n) n = 0 := by
    rw [codeNumber, show (lastTwo n).getD n 0 = 1 from (getD_depths ..).trans hdepth, lastTwo,
      List.take_left' List.length_replicate, List.count_replicate]
    rfl
  refine codeword_eq_ok_iff.2 (.inl ⟨hpos, ?_⟩)
  rw [(accepted_of_ofDepths (ofDepths_lastTwo n)).getD_codes hpos, hdepth]
  change _ = Field.mk (reverseBits 1 (codeNumber (lastTwo n) n)) 1
  rw [hnumber]
  rfl

/-- The two symbols, as they are stored. -/
theorem storedSymbols_lastTwo (n : Nat) :
    storedSymbols (canonical (lastTwo n)) = [n % 2 ^ 16, (n + 1) % 2 ^ 16] := by
  have hsize : (canonical (lastTwo n)).alphabetSize = n + 2 := by
    simp [alphabetSize, canonical, lastTwo]
  have hgap : (List.range n).filter (fun symbol ↦ 0 < (canonical (lastTwo n)).depth symbol) = [] := by
    refine List.filter_eq_nil_iff.2 fun symbol hmem ↦ ?_
    rw [depth_lastTwo_of_lt (List.mem_range.1 hmem)]
    decide
  have htwo : (canonical (lastTwo n)).depth n = 1 ∧ (canonical (lastTwo n)).depth (n + 1) = 1 :=
    ⟨depth_lastTwo_add n Nat.two_pos, depth_lastTwo_add n Nat.one_lt_two⟩
  rw [storedSymbols, hsize, List.range_succ, List.range_succ, List.append_assoc,
    List.filter_append, hgap]
  simp [htwo]

/-- If the first of the two symbols is stored as zero, a decoder takes its codeword for zero. -/
theorem takes_readSymbol_lastTwo {n : Nat} (hpos : 0 < n) (hmod : n % 2 ^ 16 = 0) :
    BitRead.Takes (ofCode (canonical (lastTwo n))).readSymbol [false] 0 := by
  have hcoded : 0 < (canonical (lastTwo n)).depth n :=
    Nat.lt_of_lt_of_eq Nat.one_pos (depth_lastTwo_add n Nat.two_pos).symm
  have hsingle : (ofCode (canonical (lastTwo n))).single? = none := single?_of_depth_pos hcoded
  have hcount : (ofCode (canonical (lastTwo n))).counts.getD 1 0 = 2 := by
    rw [getD_counts, codeCount, if_pos (by decide), lastTwo, List.count_append,
      List.count_replicate]
    rfl
  have hsymbols : (ofCode (canonical (lastTwo n))).symbols[0]? = some 0 := by
    have hsorted : ([0, (n + 1) % 2 ^ 16] : List Nat).Pairwise fun a b ↦
        (decide ((canonical (lastTwo n)).depth a ≤ (canonical (lastTwo n)).depth b)) = true := by
      rw [List.pairwise_pair, depth_lastTwo_of_lt hpos]
      exact decide_eq_true (Nat.zero_le _)
    rw [ofCode, storedSymbols_lastTwo, hmod, List.mergeSort_of_pairwise hsorted]
    rfl
  have hwalk : BitRead.Takes ((ofCode (canonical (lastTwo n))).walk maxDepth 1 0 0 0)
      ([false] ++ []) 0 := by
    refine (BitRead.takes_read_bit 0).bind ?_
    rw [hcount, if_pos (by decide), hsymbols]
    exact BitRead.takes_pure 0
  rw [readSymbol, hsingle]
  exact hwalk

/-- A decoder of a code with a symbol of 17 bits gives another symbol for its codeword. -/
theorem readSymbol_two_pow : ∃ c f r, ofDepths (List.replicate (2 ^ 16) 0 ++ [1, 1]) = .ok c ∧
    c.codeword (2 ^ 16) = .ok f ∧
      (ofCode c).readSymbol ⟨(BitWriter.empty.writeFields [f]).toBytes, 0⟩ = .ok 0 r := by
  have hread := takes_readSymbol_lastTwo (Nat.two_pow_pos 16) (Nat.mod_self _)
  have hfield : Writable [⟨0, 1⟩] := by decide
  have hpass := BitReader.passes_writeFields BitWriter.valid_empty hfield
    (BitWriter.valid_empty.writeFields hfield) (List.prefix_refl _) #[]
  exact ⟨_, _, _, ofDepths_lastTwo (2 ^ 16), codeword_lastTwo (2 ^ 16), hread hpass⟩

end PrefixCode

end EntropyCoding
