import EntropyCoding.Proofs.Checked.Code
import EntropyCoding.Proofs.Prefix.RoundTrip
import EntropyCoding.Segment.Payload

/-!
# Complete codes read any bits

A decoder of a complete code stops at a codeword or where the bits end.  While it goes on, the number
made of the bits read so far is beyond all codewords of the depths that it has left behind, and below
the powers of two of their lengths; at the largest depth of a complete code both bounds are the same,
so there is no number left to go on with, `PrefixDecoder.walk_of_complete`.  What has been read is the
codeword of a symbol, and just what is written for that symbol, `Checked.readSymbol_total`.
-/

namespace EntropyCoding

/-! ## Reading -/

namespace PrefixDecoder

/-- A symbol of a complete code is found unless the bits end before. -/
theorem walk_of_complete {depths : List Nat} (hids : StoresAll depths)
    (hk : kraftSum depths = codeSpace) {n depth acc : Nat} (hn : n + depth = maxDepth + 1)
    (hdepth : 1 ≤ depth) (hfirst : firstCode (codeCount depths) depth ≤ 2 * acc)
    (hacc : 2 * acc + 1 < 2 ^ depth) (r : BitReader) :
    (∃ symbol r', (ofCode (.canonical depths)).walk n depth (2 * acc)
        (firstCode (codeCount depths) depth) (codesBelow (codeCount depths) depth) r =
          .ok symbol r') ∨
      r.length < r.pos + n ∧ ∃ r', (ofCode (.canonical depths)).walk n depth (2 * acc)
        (firstCode (codeCount depths) depth) (codesBelow (codeCount depths) depth) r =
          .error .unexpectedEof r' := by
  induction n generalizing depth acc r with
  | zero =>
    -- no number is left beyond the codewords of the largest depth
    obtain rfl : depth = maxDepth + 1 := by omega
    rw [Checked.firstCode_of_complete hk] at hfirst
    omega
  | succ n ih =>
    have hcode : isCodeDepth depth := isCodeDepth_of_pos hdepth (by omega)
    rw [walk]
    by_cases hone : r.pos + 1 ≤ r.length
    · have hread : BitRead.read 1 r = .ok (BitReader.bitsAt r.data r.pos 1) (r.skip 1) := if_pos hone
      have hbit := BitReader.bitsAt_lt r.data r.pos 1
      generalize BitReader.bitsAt r.data r.pos 1 = bit at hread hbit
      rw [bind_of_ok hread, getD_counts]
      split
      · next hlt =>
        have hcount : codeCount depths depth = depths.count depth := if_pos hcode
        have hrank : 2 * acc + bit - firstCode (codeCount depths) depth < depths.count depth := by
          omega
        obtain ⟨symbol, -, -, -, hget⟩ := exists_symbol_of_lt hrank
        rw [getElem?_symbols hids hcode hrank, hget]
        exact .inl ⟨symbol, _, rfl⟩
      · next hge =>
        have hfirst' : firstCode (codeCount depths) (depth + 1) ≤ 2 * (2 * acc + bit) := by
          rw [firstCode]
          omega
        have hacc' : 2 * (2 * acc + bit) + 1 < 2 ^ (depth + 1) := by
          rw [Nat.pow_succ]
          omega
        rcases ih (by omega) (by omega) hfirst' hacc' (r.skip 1) with hok | ⟨hshort, heof⟩
        · exact .inl hok
        · refine .inr ⟨?_, heof⟩
          change r.length < r.pos + 1 + n at hshort
          omega
    · have hread : BitRead.read 1 r = .error .unexpectedEof r := if_neg hone
      rw [bind_of_error hread]
      exact .inr ⟨by omega, r, rfl⟩

end PrefixDecoder

/-! ## Writing -/

namespace PrefixCode

def writeSymbol (c : PrefixCode) (symbol : Nat) : BitWrite Unit := do
  BitWrite.put [← ofExcept (c.codeword symbol)]

/-- A value is its token, written with the code, and the extra bits. -/
theorem writeCoded_eq (coded : PrefixCode × SplitValue) : writeCoded coded =
    (do
      coded.1.writeSymbol coded.2.token
      BitWrite.put [coded.2.extra]) := by
  rw [writeCoded, writeSymbol]
  cases coded.1.codeword coded.2.token <;> rfl

/-- A code whose codewords fill the code space is not degenerate. -/
theorem single?_of_isComplete {c : PrefixCode} (h : c.isComplete) : c.single? = none := by
  have hk : kraftSum c.depths.toList = codeSpace := beq_iff_eq.1 h
  apply if_neg
  rintro ⟨hcoded, -⟩
  have hnone : c.depths.toList.filter isCodeDepth = [] := by
    refine List.filter_eq_nil_iff.2 fun d hd hcode ↦ ?_
    rw [(coded_eq_zero_iff c).1 hcoded d hd] at hcode
    cases hcode
  rw [kraftSum, hnone] at hk
  exact absurd hk (Nat.ne_of_lt (Nat.two_pow_pos maxDepth))

namespace Accepted

variable {c : PrefixCode} (hc : c.Accepted)
include hc

/-- A symbol that has a codeword can be written, and the bits of the codeword go out. -/
theorem exists_writeSymbol {symbol : Nat} {f : Field} (h : c.codeword symbol = .ok f)
    {w : BitWriter} (hw : w.Valid) :
    ∃ w', c.writeSymbol symbol w = .ok () w' ∧ w'.toBits = w.toBits ++ f.bits := by
  have hwritable : Writable [f] := by
    refine writable_cons.2 ⟨?_, writable_nil⟩
    exact Nat.le_trans (hc.width_codeword_le h) (by decide)
  refine ⟨w.writeFields [f], ?_, ?_⟩
  · rw [writeSymbol, h]
    rfl
  · rw [BitWriter.toBits_writeFields hw hwritable, fieldBits_cons, fieldBits_nil, List.append_nil]

/-- From a complete code a symbol is read unless the bits end before. -/
theorem readSymbol_of_isComplete (hcomplete : c.isComplete)
    (hids : PrefixDecoder.StoresAll c.depths.toList) (r : BitReader) :
    (∃ symbol r', (PrefixDecoder.ofCode c).readSymbol r = .ok symbol r') ∨
      r.length < r.pos + maxDepth ∧
        ∃ r', (PrefixDecoder.ofCode c).readSymbol r = .error .unexpectedEof r' := by
  have hk : kraftSum c.depths.toList = codeSpace := beq_iff_eq.1 hcomplete
  have hsingle : (PrefixDecoder.ofCode c).single? = none := single?_of_isComplete hcomplete
  rw [PrefixDecoder.readSymbol, hsingle, hc.ofCode_eq]
  exact PrefixDecoder.walk_of_complete hids hk (Eq.refl (maxDepth + 1)) (Nat.le_refl 1)
    (Nat.zero_le _) (by decide : 2 * 0 + 1 < 2 ^ 1) r

end Accepted

end PrefixCode

/-! ## Checked reading -/

namespace Checked

/-- The decoder of a complete code is built without a fault, and reads a symbol from any bits without
one.  What is read has a codeword, and the bits passed are those written for it; only where fewer bits
are left than the largest depth it may be that they end before a codeword does. -/
theorem readSymbol_total {c : PrefixCode} (hc : c.Obtainable) (hcomplete : c.isComplete)
    (hsize : c.alphabetSize ≤ 2 ^ 16) :
    ∃ d, ofCode c = .ok d ∧ ∀ r : BitReader, r.pos ≤ r.length →
      (∃ symbol bits r', readSymbol d r = .ok symbol r' ∧ 0 < c.depth symbol ∧ r.Passes bits r' ∧
        ∀ w : BitWriter, w.Valid →
          ∃ w', c.writeSymbol symbol w = .ok () w' ∧ w'.toBits = w.toBits ++ bits) ∨
      (r.length < r.pos + maxDepth ∧ ∃ r', readSymbol d r = .error (.error .unexpectedEof) r') := by
  have hvalid : c.Valid := ⟨hc.accepted, hsize⟩
  have hids := PrefixDecoder.storesAll_of_length_le hvalid.length_depths_le
  refine ⟨_, ofCode_eq hvalid, fun r hr ↦ ?_⟩
  have hagrees := (agrees_readSymbol hvalid hr).eq
  rcases hc.accepted.readSymbol_of_isComplete hcomplete hids r with
    ⟨symbol, r', hread⟩ | ⟨hshort, r', hread⟩
  · obtain ⟨f, hf, hpasses⟩ := hvalid.exists_codeword_of_readSymbol hr hread
    have hdepth : 0 < c.depth symbol := by
      rcases PrefixCode.codeword_eq_ok_iff.1 hf with ⟨hpos, -⟩ | ⟨hsingle, -⟩
      · exact hpos
      · rw [PrefixCode.single?_of_isComplete hcomplete] at hsingle
        cases hsingle
    exact .inl ⟨symbol, f.bits, r', hagrees.trans (embed_of_ok hread), hdepth, hpasses,
      fun w hw ↦ hc.accepted.exists_writeSymbol hf hw⟩
  · exact .inr ⟨hshort, r', hagrees.trans (embed_of_error hread)⟩

/-- Any two bytes begin with one of three codewords. -/
theorem readSymbol_total_three : ∃ c d, PrefixCode.ofDepths [1, 2, 2] = .ok c ∧ c.isComplete ∧
    c.alphabetSize ≤ 2 ^ 16 ∧ ofCode c = .ok d ∧
    ∀ a b, ∃ symbol r', readSymbol d ⟨#[a, b], 0⟩ = .ok symbol r' ∧ 0 < c.depth symbol := by
  have hok : PrefixCode.ofDepths [1, 2, 2] = .ok (.canonical [1, 2, 2]) :=
    PrefixCode.ofDepths_eq_ok_iff.2 ⟨by decide, by decide, fun _ ↦ by decide, rfl⟩
  have hcomplete : (PrefixCode.canonical [1, 2, 2]).isComplete := by decide
  have hsize : (PrefixCode.canonical [1, 2, 2]).alphabetSize ≤ 2 ^ 16 := by decide
  obtain ⟨d, hd, hread⟩ := readSymbol_total (.inl ⟨_, hok⟩) hcomplete hsize
  refine ⟨_, d, hok, hcomplete, hsize, hd, fun a b ↦ ?_⟩
  rcases hread ⟨#[a, b], 0⟩ (Nat.zero_le _) with
    ⟨symbol, bits, r', hread, hdepth, -⟩ | ⟨hshort, -⟩
  · exact ⟨symbol, r', hread, hdepth⟩
  · change 16 < 0 + 15 at hshort
    omega

end Checked

end EntropyCoding
