import EntropyCoding.Proofs.Checked.Grid
import EntropyCoding.Proofs.Image.Changes

/-!
# The layout of a grid

The tokens of a grid say where the transforms are, although they only name the kinds: in raster order,
a block that is not the first of its transform lies on the tile of one that begins before it, and so
is known when the transforms before it are, `TransformGrid.Whole.holds_of_agree`.  The next token
belongs to the first block that is not.  So whole grids of one size, all of whose blocks have been
assigned, are equal if their tokens are, `TransformGrid.Whole.eq_of_tokens_eq`.

Grids that come from a run without `place` are whole: `GridChange.layout_of_tokens`.
-/

namespace EntropyCoding

namespace TransformGrid

/-- Every block has been assigned. -/
def Full (g : TransformGrid) : Prop :=
  ∀ p ∈ g.positions, g.isAssigned p.1 p.2

instance (g : TransformGrid) : Decidable g.Full :=
  inferInstanceAs (Decidable (∀ p ∈ g.positions, g.isAssigned p.1 p.2))

def tokenOf? (context : Nat) : Option BlockTransform → Option Token
  | some { kind, isFirst := true } => some { context, value := kind.number }
  | _ => none

/-- The tokens of a grid are those of its blocks. -/
theorem tokens_eq (g : TransformGrid) (context : Nat) :
    g.tokens context = g.blocks.toList.filterMap (tokenOf? context) := rfl

variable {g g' : TransformGrid} {t : PlacedTransform} {p : Nat × Nat} {b : BlockTransform}

theorem Full.exists_holds (h : g.Full) (hp : p ∈ g.positions) : ∃ b, g.Holds p b := by
  have hassigned := h p hp
  rw [isAssigned, Bool.and_eq_true] at hassigned
  obtain ⟨b, hb⟩ := Option.isSome_iff_exists.1 hassigned.2
  exact ⟨b, hp, hb⟩

/-- A transform begins before its other blocks. -/
theorem index_corner_lt (hp : p ∈ g.positions) (hmem : p ∈ t.tile) (hne : p ≠ t.corner) :
    g.index t.x t.y < g.index p.1 p.2 := by
  obtain ⟨⟨hx, -⟩, hy, -⟩ := PlacedTransform.mem_tile.1 hmem
  have hrow : t.y * g.width ≤ p.2 * g.width := Nat.mul_le_mul_right _ hy
  refine Nat.lt_of_le_of_ne (Nat.add_le_add hrow hx) fun h ↦ hne ?_
  have hcorner : t.corner ∈ g.positions := by
    obtain ⟨hpx, hpy⟩ := mem_positions.1 hp
    exact mem_positions.2 ⟨hx.trans_lt hpx, hy.trans_lt hpy⟩
  exact (index_injOn hcorner hp h).symm

/-- A block that is not the first of its transform is known from the blocks before it. -/
theorem Whole.holds_of_agree (hw : g.Whole) (hw' : g'.Whole) (hpositions : g'.positions = g.positions)
    (hp : g.Holds p b) (hfirst : ¬ b.isFirst)
    (hagree : ∀ q ∈ g.positions, g.index q.1 q.2 < g.index p.1 p.2 →
      g.at? q.1 q.2 = g'.at? q.1 q.2) : g'.Holds p b := by
  obtain ⟨t, ⟨ht, hpt⟩, -⟩ := hw.covered hp
  obtain rfl := hp.unique (hw.intact ht p hpt)
  have hne : p ≠ t.corner := by
    rintro rfl
    exact hfirst (congrArg BlockTransform.isFirst t.stored_corner)
  have hbefore := hagree t.corner ht.1 (index_corner_lt hp.1 hpt hne)
  have ht' : g'.Has t := ⟨hpositions ▸ ht.1, hbefore.symm.trans ht.2⟩
  exact hw'.intact ht' p hpt

/-! ## Tokens -/

/-- Lists of blocks that agree before two first blocks have another token there if these are of
different kinds. -/
theorem kind_eq_of_tokens_eq {context n : Nat} {l l' : List (Option BlockTransform)}
    {k k' : TransformKind} (htake : l.take n = l'.take n) (hk : l[n]? = some (some ⟨k, true⟩))
    (hk' : l'[n]? = some (some ⟨k', true⟩))
    (h : l.filterMap (tokenOf? context) = l'.filterMap (tokenOf? context)) : k = k' := by
  obtain ⟨hn, hk⟩ := List.getElem?_eq_some_iff.1 hk
  obtain ⟨hn', hk'⟩ := List.getElem?_eq_some_iff.1 hk'
  have hsplit : l = l.take n ++ some ⟨k, true⟩ :: l.drop (n + 1) := by
    rw [← hk, ← List.drop_eq_getElem_cons hn, List.take_append_drop]
  have hsplit' : l' = l.take n ++ some ⟨k', true⟩ :: l'.drop (n + 1) := by
    rw [htake, ← hk', ← List.drop_eq_getElem_cons hn', List.take_append_drop]
  rw [hsplit, hsplit', List.filterMap_append, List.filterMap_append] at h
  obtain ⟨htoken, -⟩ := List.cons.inj (List.append_cancel_left h)
  exact TransformKind.number_injective (congrArg Token.value htoken)

section Tokens

variable {width height : Nat} (hf : g.Framed width height) (hf' : g'.Framed width height)
include hf hf'

/-- Grids of one size have the same addresses. -/
theorem Framed.positions_eq : g'.positions = g.positions := by
  rw [positions, positions, hf.width_eq, hf.height_eq, hf'.width_eq, hf'.height_eq]

theorem Framed.index_eq : g'.index = g.index := by
  funext x y
  rw [index, index, hf.width_eq, hf'.width_eq]

variable {context : Nat} (htokens : g.tokens context = g'.tokens context)
include htokens

/-- First blocks are of the same kind if all blocks before them are the same and so are all tokens. -/
theorem Framed.kind_eq_of_agree {k k' : TransformKind} (hp : g.Holds p ⟨k, true⟩)
    (hp' : g'.Holds p ⟨k', true⟩)
    (hagree : ∀ n < g.index p.1 p.2, g.blocks[n]? = g'.blocks[n]?) : k = k' := by
  have hk := hf.shaped.getElem?_index hp.1
  have hk' := hf'.shaped.getElem?_index hp'.1
  rw [hp.2, ← Array.getElem?_toList] at hk
  rw [hp'.2, hf.index_eq hf', ← Array.getElem?_toList] at hk'
  have htake : g.blocks.toList.take (g.index p.1 p.2) =
      g'.blocks.toList.take (g.index p.1 p.2) := by
    apply List.ext_getElem?
    intro n
    rw [List.getElem?_take, List.getElem?_take]
    split
    · next hn => rw [Array.getElem?_toList, Array.getElem?_toList, hagree n hn]
    · rfl
  rw [tokens_eq, tokens_eq] at htokens
  exact kind_eq_of_tokens_eq htake hk hk' htokens

variable (hw : g.Whole) (hw' : g'.Whole)
include hw hw'

/-- Blocks are the same if all blocks before them are and so are all tokens. -/
theorem Whole.eq_of_agree {b' : BlockTransform} (hp : g.Holds p b) (hp' : g'.Holds p b')
    (hagree : ∀ n < g.index p.1 p.2, g.blocks[n]? = g'.blocks[n]?) : b = b' := by
  have hpositions := hf.positions_eq hf'
  have hindex := hf.index_eq hf'
  have hbefore : ∀ q ∈ g.positions, g.index q.1 q.2 < g.index p.1 p.2 →
      g.at? q.1 q.2 = g'.at? q.1 q.2 := by
    intro q _ hlt
    rw [at?, at?, hindex, hagree _ hlt]
  by_cases hb : b.isFirst
  · by_cases hb' : b'.isFirst
    · -- both begin a transform, which the next token names
      obtain ⟨k, first⟩ := b
      obtain ⟨k', first'⟩ := b'
      obtain rfl : first = true := hb
      obtain rfl : first' = true := hb'
      exact congrArg (BlockTransform.mk · true) (hf.kind_eq_of_agree hf' htokens hp hp' hagree)
    · refine hp.unique (hw'.holds_of_agree hw hpositions.symm hp' hb' fun q hq hlt ↦ ?_)
      rw [hindex] at hlt
      exact (hbefore q (hpositions ▸ hq) hlt).symm
  · exact (hw.holds_of_agree hw' hpositions hp hb hbefore).unique hp'

/-- Whole grids of one size that have all their blocks assigned are equal if their tokens are. -/
theorem Whole.eq_of_tokens_eq (hfull : g.Full) (hfull' : g'.Full) : g = g' := by
  have hpositions := hf.positions_eq hf'
  have hindex := hf.index_eq hf'
  -- block by block in raster order
  have hblocks : ∀ n : Nat, g.blocks[n]? = g'.blocks[n]? := by
    intro n
    induction n using Nat.strong_induction_on with
    | _ n ih =>
    by_cases hn : n < g.width * g.height
    · obtain ⟨p, hp, rfl⟩ := exists_index_eq hn
      have hp' : p ∈ g'.positions := hpositions ▸ hp
      obtain ⟨b, hb⟩ := hfull.exists_holds hp
      obtain ⟨b', hb'⟩ := hfull'.exists_holds hp'
      have hblock := hf'.shaped.getElem?_index hp'
      rw [hindex] at hblock
      rw [hf.shaped.getElem?_index hp, hblock, hb.2, hb'.2,
        Whole.eq_of_agree hf hf' htokens hw hw' hb hb' ih]
    · have hn' : ¬ n < g'.width * g'.height := by
        rwa [hf'.width_eq, hf'.height_eq, ← hf.width_eq, ← hf.height_eq]
      rw [Array.getElem?_eq_none (Nat.le_of_not_lt (hf.shaped ▸ hn)),
        Array.getElem?_eq_none (Nat.le_of_not_lt (hf'.shaped ▸ hn'))]
  have hwidth : g.width = g'.width := hf.width_eq.trans hf'.width_eq.symm
  have hheight : g.height = g'.height := hf.height_eq.trans hf'.height_eq.symm
  cases g
  cases g'
  cases hwidth
  cases hheight
  cases Array.ext_getElem? hblocks
  rfl

end Tokens

end TransformGrid

/-! ## Runs that place nothing over others -/

namespace GridChange

open TransformGrid (unassigned)

/-- A change that places no transform over others. -/
def isGuarded : GridChange → Bool
  | place _ => false
  | placeFree _ | fillPlain | clear => true

/-- Such changes cut no transform. -/
theorem allSpare_of_isGuarded {g : TransformGrid} {changes : List GridChange}
    (h : ∀ c ∈ changes, c.isGuarded) : AllSpare g changes := by
  induction changes generalizing g with
  | nil => trivial
  | cons c changes ih =>
    obtain ⟨hc, hchanges⟩ := List.forall_mem_cons.1 h
    refine ⟨?_, ih hchanges⟩
    cases c with
    | place t => cases hc
    | placeFree t => trivial
    | fillPlain => trivial
    | clear => trivial

/-- A run that places no transform over others gives a whole grid. -/
theorem whole_of_isGuarded {width height : Nat} {changes : List GridChange}
    (h : ∀ c ∈ changes, c.isGuarded) :
    (run (unassigned width height) changes).Whole :=
  (forall_whole_iff (TransformGrid.framed_unassigned width height)
    (TransformGrid.whole_unassigned width height) changes).2 (allSpare_of_isGuarded h) changes
    (List.prefix_refl changes)

/-- A run that places no transform over others gives a whole grid, and a transform that is then placed
block by block, but refused, leaves it as it is.  Two such runs that give grids of one size with
all blocks assigned and with the same tokens give the same grid. -/
theorem layout_of_tokens (width height : Nat) {changes changes' : List GridChange}
    (h : ∀ c ∈ changes, c.isGuarded) (h' : ∀ c ∈ changes', c.isGuarded) :
    let g := run (unassigned width height) changes
    let g' := run (unassigned width height) changes'
    g.Framed width height ∧ g.Whole ∧
      (width * height < 2 ^ 64 → ∀ t : PlacedTransform,
        (∀ g₁, Checked.placeFree t.x t.y t.kind g = .ok () g₁ ↔
          g.placeFree t.x t.y t.kind = .ok g₁) ∧
        ∀ stop g₁, Checked.placeFree t.x t.y t.kind g = .error stop g₁ → g₁ = g) ∧
      ∀ context, g.Full → g'.Full → g.tokens context = g'.tokens context → g = g' := by
  intro g g'
  have hf : g.Framed width height := framed_run (TransformGrid.framed_unassigned width height) changes
  have hf' : g'.Framed width height :=
    framed_run (TransformGrid.framed_unassigned width height) changes'
  have hw : g.Whole := whole_of_isGuarded h
  refine ⟨hf, hw, fun hsize t ↦ ?_, fun context hfull hfull' htokens ↦ ?_⟩
  · rw [← hf.width_eq, ← hf.height_eq] at hsize
    exact ⟨fun _ ↦ Checked.placeFree_eq_ok_iff hsize hf.shaped t,
      fun _ _ ↦ Checked.eq_of_placeFree_eq_error hsize hf.shaped t⟩
  · exact TransformGrid.Whole.eq_of_tokens_eq hf hf' htokens hw (whole_of_isGuarded h') hfull hfull'

/-- The same layout, placed in another order, with other changes refused, and after another one has
been cleared. -/
theorem layout_of_tokens_four :
    let changes := [placeFree ⟨0, 0, .dct16x16⟩, placeFree ⟨1, 1, .dct⟩, placeFree ⟨2, 0, .afv2⟩,
      placeFree ⟨2, 1, .identity⟩]
    let changes' := [fillPlain, placeFree ⟨0, 0, .dct⟩, clear, placeFree ⟨2, 1, .identity⟩,
      placeFree ⟨2, 0, .dct16x16⟩, placeFree ⟨2, 0, .afv2⟩, placeFree ⟨0, 0, .dct16x16⟩]
    let g := run (unassigned 3 2) changes
    let g' := run (unassigned 3 2) changes'
    (∀ c ∈ changes, c.isGuarded) ∧ (∀ c ∈ changes', c.isGuarded) ∧ g.Full ∧ g'.Full ∧
      g.tokens 7 = g'.tokens 7 ∧ g = g' ∧ g.Whole ∧
      ∀ stop g₁, Checked.placeFree 1 1 .dct g = .error stop g₁ → g₁ = g := by
  intro changes changes' g g'
  have h : ∀ c ∈ changes, c.isGuarded := by decide
  have h' : ∀ c ∈ changes', c.isGuarded := by decide
  have hfull : g.Full := by decide +kernel
  have hfull' : g'.Full := by decide +kernel
  have htokens : g.tokens 7 = g'.tokens 7 := by decide +kernel
  obtain ⟨-, hw, hplace, heq⟩ := layout_of_tokens 3 2 h h'
  exact ⟨h, h', hfull, hfull', htokens, heq 7 hfull hfull' htokens, hw,
    (hplace (by decide) ⟨1, 1, .dct⟩).2⟩

end GridChange

end EntropyCoding
