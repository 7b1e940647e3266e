import EntropyCoding.Proofs.Segment.Models
import Mathlib.Data.Fin.Tuple.Basic
import Mathlib.Data.List.Permutation

/-!
# Tokens that cost nothing

A model is degenerate if it leaves no choice: a distribution of which one symbol owns the whole table, or
a prefix code without codewords.  Its symbol takes no fields with a prefix code.  With range coding it
takes none either, and it leaves the state of the coder as it was, so that nothing changes for the
symbols before it and behind it: `CodesSymbol.eq_of_degenerate`.

If such a symbol has no extra bits, its token is `Costless`.  What is written for a list of tokens is
written, to the last bit, for the list without some of its costless tokens: `writeTokens_without`.
-/

namespace EntropyCoding

/-! ## Lists without some of their elements -/

section Without

variable {α : Type} {P : α → Prop}

/-- The second list is the first one without some of its elements, all of which have the property. -/
inductive Without (P : α → Prop) : List α → List α → Prop
  /-- Nothing is left of nothing. -/
  | nil : Without P [] []
  /-- An element may stay. -/
  | keep (a : α) {as bs : List α} (rest : Without P as bs) : Without P (a :: as) (a :: bs)
  /-- An element that has the property may go. -/
  | drop {a : α} {as bs : List α} (ha : P a) (rest : Without P as bs) : Without P (a :: as) bs

theorem Without.keepAll {as bs : List α} (first : List α) (h : Without P as bs) :
    Without P (first ++ as) (first ++ bs) := by
  induction first with
  | nil => exact h
  | cons a first ih => exact .keep a ih

/-- First elements may go if they all have the property. -/
theorem Without.dropAll {first as bs : List α} (hfirst : ∀ a ∈ first, P a) (h : Without P as bs) :
    Without P (first ++ as) bs := by
  induction first with
  | nil => exact h
  | cons a first ih =>
    obtain ⟨ha, hrest⟩ := List.forall_mem_cons.1 hfirst
    exact .drop ha (ih hrest)

end Without

/-- The writer holds the same without fields that have no bits. -/
theorem BitWriter.writeFields_without {fields fields' : List Field}
    (h : Without (·.width = 0) fields fields') (hfields : Writable fields) {w : BitWriter}
    (hw : w.Valid) : w.writeFields fields' = w.writeFields fields := by
  induction h generalizing w with
  | nil => rfl
  | keep f _ ih =>
    obtain ⟨hf, hrest⟩ := writable_cons.1 hfields
    exact ih hrest (hw.write f.value hf)
  | drop hf _ ih =>
    obtain ⟨-, hrest⟩ := writable_cons.1 hfields
    rw [writeFields_cons, hf, hw.write_zero]
    exact ih hrest hw

/-! ## Degenerate models -/

/-- The model of a cluster gives one symbol the whole table, or is a degenerate prefix code. -/
def ModelTable.IsDegenerate (table : ModelTable) (cluster : Nat) : Prop :=
  match table with
  | .ans tables => ∃ t symbol, tables[cluster]? = some t ∧ t.freq symbol = t.size
  | .prefixCodes codes => ∃ c, codes[cluster]? = some c ∧ c.single?.isSome

/-- The symbol of a degenerate model leaves the state as it is, and its fields have no bits. -/
theorem CodesSymbol.eq_of_degenerate {table : ModelTable} (hv : table.Valid)
    {cluster symbol s s' : Nat} {fields : List Field} (hdegenerate : table.IsDegenerate cluster)
    (h : CodesSymbol table cluster symbol s fields s') :
    s = s' ∧ ∀ f ∈ fields, f.width = 0 := by
  cases h with
  | ans get step =>
    obtain ⟨_, owner, hget, hwhole⟩ := hdegenerate
    cases get.symm.trans hget
    have ht := hv _ (Array.mem_of_getElem? get)
    obtain rfl := ht.eq_of_freq_eq_size hwhole step.freq_pos
    obtain ⟨rfl, hcover⟩ := step.eq_self_of_whole ht hwhole
    exact ⟨hcover, nofun⟩
  | prefixCode s get codeword =>
    obtain ⟨_, hget, hsingle⟩ := hdegenerate
    cases get.symm.trans hget
    refine ⟨rfl, fun f hf ↦ ?_⟩
    obtain rfl := List.mem_singleton.1 hf
    rcases PrefixCode.codeword_eq_ok_iff.1 codeword with ⟨hdepth, -⟩ | ⟨-, rfl⟩
    · rw [PrefixCode.single?_of_depth_pos hdepth] at hsingle
      cases hsingle
    · rfl

/-! ## Costless tokens -/

section

variable {models : SegmentModels} {map : ContextMap} {tokens tokens' : List Token}

/-- The model of a token is degenerate, and its value has no extra bits. -/
def Costless (models : SegmentModels) (map : ContextMap) (token : Token) : Prop :=
  ∃ cluster, map.cluster token.context = .ok cluster ∧ models.table.IsDegenerate cluster ∧
    (models.split.split token.value).extra.width = 0

/-- Tokens are coded by the same fields, up to some without bits, if costless ones are left out; and the
coder goes from the same state to the same state. -/
theorem CodesTokens.exists_without (hv : models.table.Valid) {s s' : Nat} {fields : List Field}
    (h : CodesTokens models map tokens s fields s')
    (hwithout : Without (Costless models map) tokens tokens') :
    ∃ fields', CodesTokens models map tokens' s fields' s' ∧
      Without (·.width = 0) fields fields' := by
  induction hwithout generalizing s fields with
  | nil =>
    cases h
    exact ⟨[], .nil _, .nil⟩
  | keep token _ ih =>
    cases h with
    | cons hcluster hvalue hcodes htail =>
      obtain ⟨_, htail', hrest⟩ := ih htail
      exact ⟨_, .cons hcluster hvalue hcodes htail', (hrest.keep _).keepAll _⟩
  | drop hcostless _ ih =>
    cases h with
    | cons hcluster hvalue hcodes htail =>
      obtain ⟨cluster, hcluster', hdegenerate, hextra⟩ := hcostless
      cases hcluster.symm.trans hcluster'
      -- the tokens behind it start from the state that this one started from
      obtain ⟨rfl, hfields⟩ := hcodes.eq_of_degenerate hv hdegenerate
      obtain ⟨rest', htail', hrest⟩ := ih htail
      exact ⟨rest', htail', .dropAll hfields (.drop hextra hrest)⟩

/-- If tokens can be written, what is left when some of those that cost nothing are taken out can be
written too, and the writer holds the same. -/
theorem writeTokens_without (hmodels : models.Obtainable) (hvalues : ∀ t ∈ tokens, t.value < 2 ^ 32)
    {w w' : BitWriter} (hw : w.Valid) (h : writeTokens models map tokens w = .ok () w')
    (hwithout : Without (Costless models map) tokens tokens') :
    writeTokens models map tokens' w = .ok () w' := by
  have hvalid := hmodels.valid
  obtain ⟨payload, hpayload, rfl⟩ := (writeTokens_eq_ok_iff hvalid hvalues).1 h
  have hwritable := hpayload.writable hvalid
  obtain ⟨s, fields, hcodes, rfl⟩ := hpayload
  obtain ⟨fields', hcodes', hfields⟩ := hcodes.exists_without hvalid hwithout
  have hpayload' : Payload models map tokens' (startFields models.table s ++ fields') :=
    ⟨s, fields', hcodes', rfl⟩
  refine (writeTokens_eq_ok_iff hvalid hcodes'.value_lt).2 ⟨_, hpayload', ?_⟩
  exact (BitWriter.writeFields_without (hfields.keepAll _) hwritable hw).symm

/-- Of three tokens whose distribution is a single symbol, two stand between others and go; with prefix
codes there is one, and it goes. -/
theorem writeTokens_without_mixed : ∃ ranges codes w w₁ w' w₁',
    writeModels { precision := 5 } [.ofCounts [0, 3], .ofCounts [2, 1]] .empty = .ok ranges w ∧
      writeTokens ranges ⟨#[0, 1], 2⟩ [⟨1, 1⟩, ⟨0, 1⟩, ⟨1, 0⟩, ⟨0, 1⟩, ⟨0, 1⟩] w = .ok () w' ∧
      writeTokens ranges ⟨#[0, 1], 2⟩ [⟨1, 1⟩, ⟨1, 0⟩, ⟨0, 1⟩] w = .ok () w' ∧
      writeModels { usesPrefixCodes := true } [.ofCounts [0, 3], .ofCounts [2, 1]] .empty =
        .ok codes w₁ ∧
      writeTokens codes ⟨#[0, 1], 2⟩ [⟨1, 1⟩, ⟨0, 1⟩, ⟨1, 0⟩] w₁ = .ok () w₁' ∧
      writeTokens codes ⟨#[0, 1], 2⟩ [⟨1, 1⟩, ⟨1, 0⟩] w₁ = .ok () w₁' := by
  obtain ⟨ranges, w, w', hranges, hwrite, hcost⟩ : ∃ ranges w w',
      writeModels { precision := 5 } [.ofCounts [0, 3], .ofCounts [2, 1]] .empty = .ok ranges w ∧
        writeTokens ranges ⟨#[0, 1], 2⟩ [⟨1, 1⟩, ⟨0, 1⟩, ⟨1, 0⟩, ⟨0, 1⟩, ⟨0, 1⟩] w = .ok () w' ∧
        Costless ranges ⟨#[0, 1], 2⟩ ⟨0, 1⟩ :=
    ⟨_, _, _, rfl, rfl, 0, rfl, ⟨_, 1, rfl, rfl⟩, rfl⟩
  have hone : PrefixCode.ofHistogram (.ofCounts [0, 3]) = .ok (.canonical [0, 0]) := by cbv
  have htwo : PrefixCode.ofHistogram (.ofCounts [2, 1]) = .ok (.canonical [1, 1]) := by cbv
  obtain ⟨codes, w₁, w₁', hcodes, hwrite₁, hcost₁⟩ : ∃ codes w₁ w₁',
      writeModels { usesPrefixCodes := true } [.ofCounts [0, 3], .ofCounts [2, 1]] .empty =
          .ok codes w₁ ∧
        writeTokens codes ⟨#[0, 1], 2⟩ [⟨1, 1⟩, ⟨0, 1⟩, ⟨1, 0⟩] w₁ = .ok () w₁' ∧
        Costless codes ⟨#[0, 1], 2⟩ ⟨0, 1⟩ :=
    ⟨_, _, _, writeModels_eq_ok_iff.2 ⟨rfl, _, map_eq_ok_iff.2 ⟨_, mapM_cons_eq_ok_iff.2
      ⟨_, _, _, writePrefixCode_eq_ok_iff.2 ⟨by decide, hone, rfl⟩, mapM_cons_eq_ok_iff.2
        ⟨_, _, _, writePrefixCode_eq_ok_iff.2 ⟨by decide, htwo, rfl⟩, rfl, rfl⟩, rfl⟩, rfl⟩, rfl⟩,
      rfl, 0, rfl, ⟨_, rfl, rfl⟩, rfl⟩
  have hw := (valid_of_writeModels BitWriter.valid_empty hranges).1
  have hw₁ := (valid_of_writeModels BitWriter.valid_empty hcodes).1
  have hranges' : ranges.Obtainable := .inl ⟨_, _, _, _, hranges⟩
  have hcodes' : codes.Obtainable := .inl ⟨_, _, _, _, hcodes⟩
  refine ⟨ranges, codes, w, w₁, w', w₁', hranges, hwrite, ?_, hcodes, hwrite₁, ?_⟩
  · exact writeTokens_without hranges' (by decide) hw hwrite
      (.keep _ (.drop hcost (.keep _ (.drop hcost (.keep _ .nil)))))
  · exact writeTokens_without hcodes' (by decide) hw₁ hwrite₁
      (.keep _ (.drop hcost₁ (.keep _ .nil)))

end

end EntropyCoding
