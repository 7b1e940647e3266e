import EntropyCoding.Proofs.Image.Placement

/-!
# Whole transforms

A grid is whole if each of its transforms has all the blocks of its tile, and each assigned block
lies on the tile of just one transform.  Storing a transform keeps a grid whole if, and only if, it
cuts none of the transforms that are there: each of them lies on the new tile or beside it,
`TransformGrid.whole_store_iff`.

A transform that is placed where no block has been assigned cuts nothing, and grids that have been
cleared or filled are whole.
-/

namespace EntropyCoding

namespace TransformGrid

/-- Each transform has all its blocks, and each assigned block is one of just one transform. -/
structure Whole (g : TransformGrid) : Prop where
  /-- A transform lies inside the grid and has all its blocks, only the first of them as first. -/
  intact : ∀ ⦃t⦄, g.Has t → ∀ p ∈ t.tile, g.Holds p (t.stored p)
  /-- An assigned block lies on the tile of just one transform. -/
  covered : ∀ ⦃p b⦄, g.Holds p b → ∃! t, g.Has t ∧ p ∈ t.tile

/-- A tile cuts no transform: it has all the blocks of a transform or none. -/
def Spares (g : TransformGrid) (t : PlacedTransform) : Prop :=
  ∀ ⦃s⦄, g.Has s → s.tile ⊆ t.tile ∨ Disjoint s.tile t.tile

variable {g : TransformGrid} {s t : PlacedTransform} {p : Nat × Nat}

/-- A transform that begins beside a tile that cuts none lies beside it. -/
theorem Spares.disjoint (hspares : g.Spares t) (hs : g.Has s) (hcorner : s.corner ∉ t.tile) :
    Disjoint s.tile t.tile :=
  (hspares hs).resolve_left fun h ↦ hcorner (h s.corner_mem_tile)

namespace Whole

variable (hw : g.Whole)
include hw

/-- The tiles of transforms that share a block are the same. -/
theorem eq_of_mem (hs : g.Has s) (ht : g.Has t) (hps : p ∈ s.tile) (hpt : p ∈ t.tile) : s = t :=
  (hw.covered (hw.intact hs p hps)).unique ⟨hs, hps⟩ ⟨ht, hpt⟩

theorem tile_subset (ht : g.Has t) : t.tile ⊆ g.positions :=
  fun p hp ↦ (hw.intact ht p hp).1

/-- Where no block has been assigned there is no transform to cut. -/
theorem spares_of_unassigned (hfree : ∀ p ∈ t.tile, g.at? p.1 p.2 = none) : g.Spares t := by
  intro s hs
  refine .inr (Finset.disjoint_left.2 fun p hps hpt ↦ ?_)
  have hp := (hw.intact hs p hps).2
  rw [hfree p hpt] at hp
  cases hp

end Whole

/-! ## Storing a transform -/

section Store

variable (hg : g.Shaped) (hw : g.Whole) (ht : t.tile ⊆ g.positions)
include hg hw ht

/-- If the grid is whole after a transform is stored then this transform has cut none. -/
theorem spares_of_whole_store (hw' : (g.store t.x t.y t.kind).Whole) : g.Spares t := by
  intro s hs
  by_cases hcorner : s.corner ∈ t.tile
  · -- the first block of `s` is gone, so no other of its blocks may be left
    refine .inl fun p hps ↦ ?_
    by_contra hpt
    have hp := (holds_store hg ht).2 (.inr ⟨hpt, hw.intact hs p hps⟩)
    obtain ⟨u, ⟨hu, hpu⟩, -⟩ := hw'.covered hp
    rcases (has_store hg ht).1 hu with rfl | ⟨hu', hu⟩
    · exact hpt hpu
    · obtain rfl := hw.eq_of_mem hu hs hpu hps
      exact hu' hcorner
  · -- `s` is still there, and so is not on the tile of `t`
    refine .inr (Finset.disjoint_left.2 fun p hps hpt ↦ hcorner ?_)
    have hs' := (has_store hg ht).2 (.inr ⟨hcorner, hs⟩)
    have ht' := (has_store hg ht).2 (.inl rfl)
    obtain rfl := hw'.eq_of_mem hs' ht' hps hpt
    exact s.corner_mem_tile

/-- If a transform that is stored cuts none then the grid is whole afterwards. -/
theorem Spares.whole_store (hspares : g.Spares t) : (g.store t.x t.y t.kind).Whole where
  intact u hu p hp := by
    rcases (has_store hg ht).1 hu with rfl | ⟨hcorner, hu⟩
    · exact (holds_store hg ht).2 (.inl ⟨hp, rfl⟩)
    · have hdisjoint := hspares.disjoint hu hcorner
      exact (holds_store hg ht).2
        (.inr ⟨Finset.disjoint_left.1 hdisjoint hp, hw.intact hu p hp⟩)
  covered p b hp := by
    rcases (holds_store hg ht).1 hp with ⟨hpt, -⟩ | ⟨hpt, hp⟩
    · refine ⟨t, ⟨(has_store hg ht).2 (.inl rfl), hpt⟩, ?_⟩
      rintro u ⟨hu, hpu⟩
      rcases (has_store hg ht).1 hu with rfl | ⟨hcorner, hu⟩
      · rfl
      · exact absurd hpt (Finset.disjoint_left.1 (hspares.disjoint hu hcorner) hpu)
    · obtain ⟨s, ⟨hs, hps⟩, hunique⟩ := hw.covered hp
      have hcorner : s.corner ∉ t.tile := by
        intro h
        rcases hspares hs with hsubset | hdisjoint
        · exact hpt (hsubset hps)
        · exact Finset.disjoint_left.1 hdisjoint s.corner_mem_tile h
      refine ⟨s, ⟨(has_store hg ht).2 (.inr ⟨hcorner, hs⟩), hps⟩, ?_⟩
      rintro u ⟨hu, hpu⟩
      rcases (has_store hg ht).1 hu with rfl | ⟨-, hu⟩
      · exact absurd hpu hpt
      · exact hunique u ⟨hu, hpu⟩

/-- Storing a transform keeps a grid whole just if it cuts none. -/
theorem whole_store_iff : (g.store t.x t.y t.kind).Whole ↔ g.Spares t :=
  ⟨spares_of_whole_store hg hw ht, fun hspares ↦ hspares.whole_store hg hw ht⟩

end Store

/-! ## Placing a transform -/

/-- A transform is placed if it lies inside the grid. -/
theorem place_eq_ok_iff {g' : TransformGrid} : g.place t.x t.y t.kind = .ok g' ↔
    t.tile ⊆ g.positions ∧ g.store t.x t.y t.kind = g' := by
  rw [place, ← fits_iff]
  by_cases hfits : g.fits t.x t.y t.kind
  · rw [if_pos hfits]
    exact ⟨fun h ↦ ⟨hfits, Except.ok.inj h⟩, fun h ↦ congrArg Except.ok h.2⟩
  · rw [if_neg hfits]
    exact ⟨fun h ↦ (nomatch h), fun h ↦ absurd h.1 hfits⟩

/-- A transform is placed on free blocks if it lies inside the grid and they are free. -/
theorem placeFree_eq_ok_iff {g' : TransformGrid} : g.placeFree t.x t.y t.kind = .ok g' ↔
    t.tile ⊆ g.positions ∧ (∀ p ∈ t.tile, g.at? p.1 p.2 = none) ∧
      g.store t.x t.y t.kind = g' := by
  rw [placeFree, ← fits_iff]
  by_cases hfits : g.fits t.x t.y t.kind
  · rw [if_pos hfits]
    split
    · next cx cy hfind =>
      refine ⟨fun h ↦ (by cases h), fun h ↦ ?_⟩
      have hp := List.find?_some hfind
      have hmem := PlacedTransform.mem_rectangle.1 (List.mem_of_find?_eq_some hfind)
      change (g.at? cx cy).isSome at hp
      rw [h.2.1 (cx, cy) hmem] at hp
      cases hp
    · next hfind =>
      have hfree : ∀ p ∈ t.tile, g.at? p.1 p.2 = none := fun p hp ↦
        Option.not_isSome_iff_eq_none.1
          (List.find?_eq_none.1 hfind p (PlacedTransform.mem_rectangle.2 hp))
      exact ⟨fun h ↦ ⟨hfits, hfree, Except.ok.inj h⟩, fun h ↦ congrArg Except.ok h.2.2⟩
  · rw [if_neg hfits]
    exact ⟨fun h ↦ (by cases h), fun h ↦ absurd h.1 hfits⟩

/-! ## Filling a grid -/

theorem whole_of_unassigned (h : ∀ p ∈ g.positions, g.at? p.1 p.2 = none) : g.Whole := by
  have hfree : ∀ ⦃p b⦄, ¬ g.Holds p b := by
    rintro p b ⟨hp, hb⟩
    rw [h p hp] at hb
    cases hb
  exact ⟨fun t ht ↦ absurd ht (@hfree _ _), fun p b hp ↦ absurd hp (@hfree _ _)⟩

theorem mem_tile_dct {x y : Nat} : p ∈ (PlacedTransform.mk x y .dct).tile ↔ p = (x, y) := by
  rw [PlacedTransform.mem_tile, Prod.ext_iff]
  simp only [TransformKind.width, TransformKind.height, Nat.lt_add_one_iff]
  omega

/-- A grid in which each block has the plain transform is whole. -/
theorem whole_of_plain (h : ∀ p ∈ g.positions, g.at? p.1 p.2 = some ⟨.dct, true⟩) : g.Whole := by
  have hholds : ∀ ⦃p b⦄, g.Holds p b → b = ⟨.dct, true⟩ := by
    rintro p b ⟨hp, hb⟩
    exact Option.some_injective _ (hb.symm.trans (h p hp))
  have hhas : ∀ ⦃t⦄, g.Has t → t.kind = .dct :=
    fun t ht ↦ congrArg BlockTransform.kind (hholds ht)
  constructor
  · intro t ht p hp
    obtain ⟨x, y, kind⟩ := t
    obtain rfl : kind = .dct := hhas ht
    obtain rfl := mem_tile_dct.1 hp
    exact (PlacedTransform.stored_corner _).symm ▸ ht
  · intro p b hp
    obtain rfl := hholds hp
    refine ⟨⟨p.1, p.2, .dct⟩, ⟨hp, mem_tile_dct.2 rfl⟩, ?_⟩
    rintro ⟨x, y, kind⟩ ⟨ht, hmem⟩
    obtain rfl : kind = .dct := hhas ht
    obtain rfl := mem_tile_dct.1 hmem
    rfl

theorem at?_map_const (hg : g.Shaped) (hp : p ∈ g.positions) (b : Option BlockTransform) :
    { g with blocks := g.blocks.map fun _ ↦ b }.at? p.1 p.2 = b := by
  have hblock : (g.blocks.map fun _ ↦ b)[g.index p.1 p.2]? = some b := by
    rw [Array.getElem?_map, hg.getElem?_index hp]
    rfl
  exact congrArg Option.join hblock

theorem shaped_unassigned (width height : Nat) : (unassigned width height).Shaped :=
  Array.size_replicate

theorem whole_unassigned (width height : Nat) : (unassigned width height).Whole := by
  apply whole_of_unassigned
  intro p hp
  have hblock := (shaped_unassigned width height).getElem?_index hp
  exact (Array.mem_replicate.1 (Array.mem_of_getElem? hblock)).2

/-- What every change of a grid keeps: the size, a block for each address, and that a transform
begins only where it lies inside the grid. -/
structure Framed (width height : Nat) (g : TransformGrid) : Prop where
  /-- The number of columns. -/
  width_eq : g.width = width
  /-- The number of rows. -/
  height_eq : g.height = height
  /-- There is a block for each address. -/
  shaped : g.Shaped
  /-- A transform lies inside the grid. -/
  inside : ∀ ⦃t⦄, g.Has t → t.tile ⊆ g.positions

theorem framed_unassigned (width height : Nat) : (unassigned width height).Framed width height :=
  ⟨rfl, rfl, shaped_unassigned width height, fun _ ↦ (whole_unassigned width height).tile_subset⟩

variable (hg : g.Shaped)
include hg

theorem Shaped.map (f : Option BlockTransform → Option BlockTransform) :
    Shaped { g with blocks := g.blocks.map f } :=
  Array.size_map.trans hg

theorem whole_clear : g.clear.Whole :=
  whole_of_unassigned fun _ hp ↦ at?_map_const hg hp none

theorem whole_fillPlain : g.fillPlain.Whole :=
  whole_of_plain fun _ hp ↦ at?_map_const hg hp (some ⟨.dct, true⟩)

end TransformGrid

end EntropyCoding
