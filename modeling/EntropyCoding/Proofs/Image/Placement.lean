import EntropyCoding.Image.TransformGrid
import Mathlib.Data.Finset.Prod
import Mathlib.Order.Interval.Finset.Nat

/-!
# Placed transforms

A transform at a place covers a rectangle of blocks, its tile.  Storing it changes the blocks of the
tile and no other block, `TransformGrid.at?_store`: so a grid is looked at block by block from here
on, and the order in which the blocks are written no longer matters.

The blocks of a grid are addressed by a column and a row.  For a grid of the right number of blocks
these addresses and the indices of the blocks are the same thing, `TransformGrid.exists_index_eq`.
-/

namespace EntropyCoding

/-! ## Tiles -/

namespace TransformKind

theorem width_pos (k : TransformKind) : 0 < k.width := by
  cases k <;> decide

theorem height_pos (k : TransformKind) : 0 < k.height := by
  cases k <;> decide

theorem number_injective : Function.Injective number := by
  intro k k' h
  have hk := ofNumber_number k
  rw [h, ofNumber_number] at hk
  exact (Except.ok.inj hk).symm

end TransformKind

/-- A transform at the place of its first block. -/
structure PlacedTransform where
  /-- The column of the first block. -/
  x : Nat
  /-- The row of the first block. -/
  y : Nat
  /-- The kind of the transform. -/
  kind : TransformKind
  deriving DecidableEq, Repr

namespace PlacedTransform

def corner (t : PlacedTransform) : Nat × Nat := (t.x, t.y)

/-- The blocks that a transform covers. -/
def tile (t : PlacedTransform) : Finset (Nat × Nat) :=
  Finset.Ico t.x (t.x + t.kind.width) ×ˢ Finset.Ico t.y (t.y + t.kind.height)

def stored (t : PlacedTransform) (p : Nat × Nat) : BlockTransform where
  kind := t.kind
  isFirst := p == t.corner

variable {t : PlacedTransform} {p : Nat × Nat}

theorem mem_tile : p ∈ t.tile ↔
    (t.x ≤ p.1 ∧ p.1 < t.x + t.kind.width) ∧ t.y ≤ p.2 ∧ p.2 < t.y + t.kind.height := by
  rw [tile, Finset.mem_product, Finset.mem_Ico, Finset.mem_Ico]

theorem corner_mem_tile (t : PlacedTransform) : t.corner ∈ t.tile :=
  mem_tile.2 ⟨⟨le_rfl, Nat.lt_add_of_pos_right t.kind.width_pos⟩,
    le_rfl, Nat.lt_add_of_pos_right t.kind.height_pos⟩

theorem card_tile (t : PlacedTransform) : t.tile.card = t.kind.width * t.kind.height := by
  rw [tile, Finset.card_product, Nat.card_Ico, Nat.card_Ico, Nat.add_sub_cancel_left,
    Nat.add_sub_cancel_left]

theorem mem_rectangle : p ∈ TransformGrid.rectangle t.x t.y t.kind ↔ p ∈ t.tile := by
  simp only [TransformGrid.rectangle, List.mem_flatMap, List.mem_map, List.mem_range, mem_tile]
  constructor
  · rintro ⟨dy, hdy, dx, hdx, rfl⟩
    exact ⟨⟨Nat.le_add_right _ _, Nat.add_lt_add_left hdx _⟩,
      Nat.le_add_right _ _, Nat.add_lt_add_left hdy _⟩
  · rintro ⟨⟨hx, hx'⟩, hy, hy'⟩
    exact ⟨p.2 - t.y, by omega, p.1 - t.x, by omega, by ext <;> simp [hx, hy]⟩

@[simp] theorem stored_corner (t : PlacedTransform) : t.stored t.corner = ⟨t.kind, true⟩ := by
  simp [stored]

/-- The first block is the only one that is stored as first. -/
theorem eq_of_stored_eq_first {s : PlacedTransform} (h : t.stored s.corner = ⟨s.kind, true⟩) :
    s = t := by
  obtain ⟨hkind, hfirst⟩ := BlockTransform.mk.inj h
  obtain ⟨hx, hy⟩ := Prod.mk.inj (eq_of_beq hfirst)
  cases s
  cases t
  cases hkind
  cases hx
  cases hy
  rfl

end PlacedTransform

/-! ## Blocks of a grid -/

namespace TransformGrid

def positions (g : TransformGrid) : Finset (Nat × Nat) :=
  Finset.range g.width ×ˢ Finset.range g.height

/-- A grid has a block for each address. -/
def Shaped (g : TransformGrid) : Prop :=
  g.blocks.size = g.width * g.height

variable {g g' : TransformGrid} {p q : Nat × Nat} {t : PlacedTransform}

theorem mem_positions : p ∈ g.positions ↔ p.1 < g.width ∧ p.2 < g.height := by
  rw [positions, Finset.mem_product, Finset.mem_range, Finset.mem_range]

theorem index_lt (hp : p ∈ g.positions) : g.index p.1 p.2 < g.width * g.height := by
  obtain ⟨hx, hy⟩ := mem_positions.1 hp
  calc p.2 * g.width + p.1 < p.2 * g.width + g.width := Nat.add_lt_add_left hx _
    _ = (p.2 + 1) * g.width := (Nat.succ_mul _ _).symm
    _ ≤ g.height * g.width := Nat.mul_le_mul_right _ hy
    _ = g.width * g.height := Nat.mul_comm _ _

/-- The address is found in its index. -/
theorem mod_div_index (hp : p ∈ g.positions) :
    (g.index p.1 p.2 % g.width, g.index p.1 p.2 / g.width) = p := by
  obtain ⟨hx, -⟩ := mem_positions.1 hp
  have hwidth : 0 < g.width := Nat.zero_lt_of_lt hx
  ext
  · rw [index, Nat.mul_add_mod_self_right, Nat.mod_eq_of_lt hx]
  · rw [index, Nat.mul_comm, Nat.mul_add_div hwidth, Nat.div_eq_of_lt hx, Nat.add_zero]

theorem index_injOn (hp : p ∈ g.positions) (hq : q ∈ g.positions)
    (h : g.index p.1 p.2 = g.index q.1 q.2) : p = q := by
  rw [← mod_div_index hp, h, mod_div_index hq]

/-- Every index of a block is that of an address. -/
theorem exists_index_eq {i : Nat} (hi : i < g.width * g.height) :
    ∃ p ∈ g.positions, g.index p.1 p.2 = i := by
  have hwidth : 0 < g.width := Nat.pos_of_mul_pos_right (Nat.zero_lt_of_lt hi)
  refine ⟨(i % g.width, i / g.width), mem_positions.2 ⟨Nat.mod_lt _ hwidth, ?_⟩, ?_⟩
  · exact Nat.div_lt_of_lt_mul hi
  · exact Nat.div_add_mod' i g.width

theorem Shaped.getElem?_index (hg : g.Shaped) (hp : p ∈ g.positions) :
    g.blocks[g.index p.1 p.2]? = some (g.at? p.1 p.2) := by
  have hi : g.index p.1 p.2 < g.blocks.size := hg ▸ index_lt hp
  rw [at?, Array.getElem?_eq_getElem hi]
  rfl

/-! ## Storing a transform -/

/-- Writing blocks at some addresses changes the blocks at these addresses. -/
theorem getElem?_foldl_setIfInBounds (f : Nat × Nat → Option BlockTransform)
    {ps : List (Nat × Nat)} (hps : ∀ q ∈ ps, q ∈ g.positions) (hp : p ∈ g.positions)
    {blocks : Array (Option BlockTransform)} (hsize : blocks.size = g.width * g.height) :
    (ps.foldl (fun blocks q ↦ blocks.setIfInBounds (g.index q.1 q.2) (f q)) blocks)[
        g.index p.1 p.2]? =
      if p ∈ ps then some (f p) else blocks[g.index p.1 p.2]? := by
  induction ps generalizing blocks with
  | nil => rfl
  | cons q ps ih =>
    obtain ⟨hq, hps⟩ := List.forall_mem_cons.1 hps
    rw [List.foldl_cons, ih hps (by rwa [Array.size_setIfInBounds])]
    by_cases hmem : p ∈ ps
    · rw [if_pos hmem, if_pos (List.mem_cons_of_mem q hmem)]
    · rw [if_neg hmem, Array.getElem?_setIfInBounds, hsize]
      by_cases hpq : p = q
      · subst hpq
        rw [if_pos rfl, if_pos (index_lt hp), if_pos List.mem_cons_self]
      · rw [if_neg fun h ↦ hpq (index_injOn hq hp h).symm,
          if_neg fun h ↦ (List.mem_cons.1 h).elim hpq hmem]

/-- A transform lies inside the grid if its tile does. -/
theorem fits_iff : g.fits t.x t.y t.kind ↔ t.tile ⊆ g.positions := by
  rw [fits, Bool.and_eq_true, decide_eq_true_eq, decide_eq_true_eq]
  constructor
  · rintro ⟨hx, hy⟩ p hp
    obtain ⟨⟨-, hpx⟩, -, hpy⟩ := PlacedTransform.mem_tile.1 hp
    exact mem_positions.2 ⟨hpx.trans_le hx, hpy.trans_le hy⟩
  · intro h
    have hwidth := t.kind.width_pos
    have hheight := t.kind.height_pos
    have hlast : (t.x + t.kind.width - 1, t.y + t.kind.height - 1) ∈ t.tile :=
      PlacedTransform.mem_tile.2 ⟨⟨by omega, by omega⟩, by omega, by omega⟩
    obtain ⟨hx, hy⟩ := mem_positions.1 (h hlast)
    exact ⟨by omega, by omega⟩

/-- Storing a transform leaves the right number of blocks. -/
theorem Shaped.store (hg : g.Shaped) (x y : Nat) (kind : TransformKind) :
    (g.store x y kind).Shaped := by
  have hsize : ∀ (ps : List (Nat × Nat)) (blocks : Array (Option BlockTransform)),
      (ps.foldl (fun blocks p ↦ blocks.setIfInBounds (g.index p.1 p.2)
        (some { kind, isFirst := p.1 == x && p.2 == y })) blocks).size = blocks.size := by
    intro ps
    induction ps with
    | nil => exact fun _ ↦ rfl
    | cons q ps ih => exact fun blocks ↦ (ih _).trans (Array.size_setIfInBounds ..)
  exact (hsize _ _).trans hg

/-- Storing a transform changes the blocks of its tile and no others. -/
theorem at?_store (hg : g.Shaped) (ht : t.tile ⊆ g.positions) (hp : p ∈ g.positions) :
    (g.store t.x t.y t.kind).at? p.1 p.2 =
      if p ∈ t.tile then some (t.stored p) else g.at? p.1 p.2 := by
  have hps : ∀ q ∈ rectangle t.x t.y t.kind, q ∈ g.positions :=
    fun q hq ↦ ht (PlacedTransform.mem_rectangle.1 hq)
  have hblock := getElem?_foldl_setIfInBounds (fun q ↦ some (t.stored q)) hps hp hg
  rw [hg.getElem?_index hp] at hblock
  have hstore := (hg.store t.x t.y t.kind).getElem?_index hp
  apply Option.some_injective
  rw [← hstore]
  refine hblock.trans ?_
  simp only [PlacedTransform.mem_rectangle]
  split <;> rfl

/-! ## What a grid holds -/

/-- The grid has the block `b` at an address. -/
def Holds (g : TransformGrid) (p : Nat × Nat) (b : BlockTransform) : Prop :=
  p ∈ g.positions ∧ g.at? p.1 p.2 = some b

/-- The grid has the first block of a transform at its place. -/
def Has (g : TransformGrid) (t : PlacedTransform) : Prop :=
  g.Holds t.corner ⟨t.kind, true⟩

theorem Holds.unique {b b' : BlockTransform} (h : g.Holds p b) (h' : g.Holds p b') : b = b' :=
  Option.some_injective _ (h.2.symm.trans h'.2)

variable (hg : g.Shaped) (ht : t.tile ⊆ g.positions)
include hg ht

/-- After a transform is stored its tile holds its blocks, and what lies outside is as before. -/
theorem holds_store {b : BlockTransform} : (g.store t.x t.y t.kind).Holds p b ↔
    p ∈ t.tile ∧ t.stored p = b ∨ p ∉ t.tile ∧ g.Holds p b := by
  by_cases hp : p ∈ g.positions
  · have hstore := at?_store hg ht hp
    by_cases hmem : p ∈ t.tile
    · rw [if_pos hmem] at hstore
      simp [Holds, hstore, hmem, show p ∈ (g.store t.x t.y t.kind).positions from hp]
    · rw [if_neg hmem] at hstore
      simp [Holds, hstore, hmem, hp, show p ∈ (g.store t.x t.y t.kind).positions from hp]
  · constructor
    · exact fun h ↦ absurd h.1 hp
    · rintro (⟨hmem, -⟩ | ⟨-, h⟩)
      · exact absurd (ht hmem) hp
      · exact absurd h.1 hp

/-- The grid then has this transform and those that do not begin on its tile. -/
theorem has_store {s : PlacedTransform} : (g.store t.x t.y t.kind).Has s ↔
    s = t ∨ s.corner ∉ t.tile ∧ g.Has s := by
  refine (holds_store hg ht).trans (or_congr_left ?_)
  constructor
  · rintro ⟨-, hstored⟩
    exact PlacedTransform.eq_of_stored_eq_first hstored
  · rintro rfl
    exact ⟨s.corner_mem_tile, s.stored_corner⟩

end TransformGrid

end EntropyCoding
