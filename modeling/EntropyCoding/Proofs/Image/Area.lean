import EntropyCoding.Proofs.Checked.Changes
import Mathlib.Algebra.BigOperators.Group.Finset.Basic

/-!
# The area of the transforms

In a whole grid the tiles of the transforms are the assigned blocks, and no two of them overlap.  So
the number of transforms of each kind times the number of blocks that one covers add up to the number
of assigned blocks, `TransformGrid.sum_area`.

`GridChange.whole_run` puts this together with what a run of changes keeps, and with what the run of a
program does that computes columns, rows and indices with 64 bits.
-/

namespace EntropyCoding

theorem TransformKind.mem_all (k : TransformKind) : k ∈ all := by
  cases k <;> decide

namespace TransformGrid

def firsts (g : TransformGrid) (k : TransformKind) : Finset (Nat × Nat) :=
  g.positions.filter fun p ↦ g.at? p.1 p.2 = some ⟨k, true⟩

def coveredBy (g : TransformGrid) (k : TransformKind) : Finset (Nat × Nat) :=
  (g.firsts k).biUnion fun p ↦ PlacedTransform.tile ⟨p.1, p.2, k⟩

def countAssigned (g : TransformGrid) : Nat :=
  g.blocks.countP Option.isSome

/-- The number of blocks that the transforms cover, if no two of them overlap. -/
def totalArea (g : TransformGrid) : Nat :=
  (TransformKind.all.map fun k ↦ g.count k * (k.width * k.height)).sum

variable {g : TransformGrid} {t : PlacedTransform} {k : TransformKind} {p : Nat × Nat}

theorem mem_firsts : p ∈ g.firsts k ↔ g.Has ⟨p.1, p.2, k⟩ :=
  Finset.mem_filter

/-- A block is covered by a kind if it lies on the tile of a transform of this kind. -/
theorem mem_coveredBy : p ∈ g.coveredBy k ↔ ∃ t, g.Has t ∧ t.kind = k ∧ p ∈ t.tile := by
  rw [coveredBy, Finset.mem_biUnion]
  constructor
  · rintro ⟨q, hq, hp⟩
    exact ⟨⟨q.1, q.2, k⟩, mem_firsts.1 hq, rfl, hp⟩
  · rintro ⟨t, ht, rfl, hp⟩
    exact ⟨t.corner, mem_firsts.2 ht, hp⟩

/-- Whether a tile cuts no transform can be decided from the first blocks. -/
theorem spares_iff : g.Spares t ↔ ∀ k ∈ TransformKind.all, ∀ p ∈ g.firsts k,
    PlacedTransform.tile ⟨p.1, p.2, k⟩ ⊆ t.tile ∨
      Disjoint (PlacedTransform.tile ⟨p.1, p.2, k⟩) t.tile := by
  constructor
  · exact fun h k _ p hp ↦ h (mem_firsts.1 hp)
  · exact fun h s hs ↦ h s.kind s.kind.mem_all s.corner (mem_firsts.2 hs)

instance : Decidable (g.Spares t) :=
  decidable_of_iff _ spares_iff.symm

/-! ## Counting blocks -/

/-- Blocks are counted by index or by address. -/
theorem countP_blocks (hg : g.Shaped) (P : Option BlockTransform → Bool) :
    g.blocks.countP P = (g.positions.filter fun p ↦ P (g.at? p.1 p.2)).card := by
  have hlist : g.blocks.toList =
      (List.range (g.width * g.height)).map fun i ↦ (g.blocks[i]?).join := by
    apply List.ext_getElem
    · rw [Array.length_toList, List.length_map, List.length_range]
      exact hg
    · intro i hi _
      rw [Array.length_toList] at hi
      simp [hi]
  calc g.blocks.countP P
      = ((List.range (g.width * g.height)).map fun i ↦ (g.blocks[i]?).join).countP P := by
        rw [← hlist, Array.countP_toList]
    _ = ((Finset.range (g.width * g.height)).filter fun i ↦ P (g.blocks[i]?).join).card := by
        rw [List.countP_map, List.countP_eq_length_filter]
        simp only [Finset.card, Finset.filter_val, Finset.range_val, Multiset.range,
          Multiset.filter_coe, Multiset.coe_card, Bool.decide_eq_true]
        rfl
    _ = (g.positions.filter fun p ↦ P (g.at? p.1 p.2)).card := by
        symm
        refine Finset.card_nbij (fun p ↦ g.index p.1 p.2) ?_ ?_ ?_
        · intro p hp
          obtain ⟨hp, hP⟩ := Finset.mem_filter.1 hp
          exact Finset.mem_filter.2 ⟨Finset.mem_range.2 (index_lt hp), hP⟩
        · intro p hp q hq
          exact index_injOn (Finset.mem_filter.1 hp).1 (Finset.mem_filter.1 hq).1
        · intro i hi
          obtain ⟨hi, hP⟩ := Finset.mem_filter.1 hi
          obtain ⟨p, hp, rfl⟩ := exists_index_eq (Finset.mem_range.1 hi)
          exact ⟨p, Finset.mem_filter.2 ⟨hp, hP⟩, rfl⟩

theorem card_firsts (hg : g.Shaped) (k : TransformKind) : (g.firsts k).card = g.count k := by
  rw [count, countP_blocks hg]
  simp only [firsts, beq_iff_eq]

/-! ## Adding up areas -/

variable (hw : g.Whole)
include hw

/-- Transforms of a kind cover as many blocks as one does, times their number. -/
theorem Whole.card_coveredBy (hg : g.Shaped) (k : TransformKind) :
    (g.coveredBy k).card = g.count k * (k.width * k.height) := by
  have hdisjoint : (g.firsts k : Set (Nat × Nat)).PairwiseDisjoint
      fun p ↦ PlacedTransform.tile ⟨p.1, p.2, k⟩ := by
    intro p hp q hq hpq
    refine Finset.disjoint_left.2 fun a hap haq ↦ hpq ?_
    have h := hw.eq_of_mem (mem_firsts.1 hp) (mem_firsts.1 hq) hap haq
    exact congrArg PlacedTransform.corner h
  rw [coveredBy, Finset.card_biUnion hdisjoint, ← card_firsts hg]
  exact Finset.sum_const_nat fun p _ ↦ PlacedTransform.card_tile ⟨p.1, p.2, k⟩

/-- The assigned blocks are those that some kind covers. -/
theorem Whole.biUnion_coveredBy :
    (TransformKind.all.toFinset).biUnion g.coveredBy =
      g.positions.filter fun p ↦ (g.at? p.1 p.2).isSome := by
  ext p
  rw [Finset.mem_biUnion, Finset.mem_filter]
  constructor
  · rintro ⟨k, -, hp⟩
    obtain ⟨t, ht, -, hp⟩ := mem_coveredBy.1 hp
    obtain ⟨hp, hstored⟩ := hw.intact ht p hp
    exact ⟨hp, hstored ▸ rfl⟩
  · rintro ⟨hp, hassigned⟩
    obtain ⟨b, hb⟩ := Option.isSome_iff_exists.1 hassigned
    obtain ⟨t, ⟨ht, hpt⟩, -⟩ := hw.covered ⟨hp, hb⟩
    exact ⟨t.kind, List.mem_toFinset.2 t.kind.mem_all, mem_coveredBy.2 ⟨t, ht, rfl, hpt⟩⟩

/-- The areas of all transforms add up to the number of assigned blocks. -/
theorem Whole.totalArea_eq (hg : g.Shaped) : g.totalArea = g.countAssigned := by
  have hdisjoint : (TransformKind.all.toFinset : Set TransformKind).PairwiseDisjoint g.coveredBy := by
    intro k _ k' _ hne
    refine Finset.disjoint_left.2 fun p hp hp' ↦ hne ?_
    obtain ⟨t, ht, rfl, hpt⟩ := mem_coveredBy.1 hp
    obtain ⟨t', ht', rfl, hpt'⟩ := mem_coveredBy.1 hp'
    exact congrArg PlacedTransform.kind (hw.eq_of_mem ht ht' hpt hpt')
  have hnodup : TransformKind.all.Nodup := by decide
  calc g.totalArea
      = ∑ k ∈ TransformKind.all.toFinset, g.count k * (k.width * k.height) :=
        (List.sum_toFinset _ hnodup).symm
    _ = ∑ k ∈ TransformKind.all.toFinset, (g.coveredBy k).card :=
        Finset.sum_congr rfl fun k _ ↦ (hw.card_coveredBy hg k).symm
    _ = (TransformKind.all.toFinset.biUnion g.coveredBy).card :=
        (Finset.card_biUnion hdisjoint).symm
    _ = g.countAssigned := by
        rw [hw.biUnion_coveredBy, countAssigned, countP_blocks hg]

end TransformGrid

/-! ## Runs of changes -/

namespace GridChange

open TransformGrid (unassigned)

instance (g : TransformGrid) : ∀ c : GridChange, Decidable (c.Spares g)
  | place t => inferInstanceAs (Decidable (t.tile ⊆ g.positions → g.Spares t))
  | placeFree _ | fillPlain | clear => isTrue trivial

instance decidableAllSpare (g : TransformGrid) : ∀ changes, Decidable (AllSpare g changes)
  | [] => isTrue trivial
  | c :: changes =>
    have := decidableAllSpare (c.apply g) changes
    inferInstanceAs (Decidable (c.Spares g ∧ AllSpare (c.apply g) changes))

/-- Whatever the changes, a transform lies inside the grid.  All grids along a run are whole just if
no transform that is placed over others cuts one of them, and then the areas of the transforms add up
to the number of assigned blocks.  With numbers of 64 bits this is the run that a program makes, if
none of its changes overflows; otherwise the changes before the first one that does have been made. -/
theorem whole_run (width height : Nat) (changes : List GridChange) :
    let start := unassigned width height
    (run start changes).Framed width height ∧
      ((∀ before, before <+: changes → (run start before).Whole) ↔ AllSpare start changes) ∧
      (AllSpare start changes → (run start changes).Whole ∧
        (run start changes).totalArea = (run start changes).countAssigned) ∧
      (width * height < 2 ^ 64 → Checked.unassigned width height = .ok start ∧
        Checked.runChanges changes start =
          if ∀ c ∈ changes, ¬ c.Overflows width then .ok () (run start changes)
          else .error (.fault .overflow)
            (run start (changes.takeWhile fun c ↦ ¬ c.Overflows width))) := by
  intro start
  have hframed : start.Framed width height := TransformGrid.framed_unassigned width height
  have hwhole := forall_whole_iff hframed (TransformGrid.whole_unassigned width height) changes
  refine ⟨framed_run hframed changes, hwhole, fun hspare ↦ ?_, fun hsize ↦ ?_⟩
  · have hw := hwhole.2 hspare changes (List.prefix_refl changes)
    exact ⟨hw, hw.totalArea_eq (framed_run hframed changes).shaped⟩
  · exact ⟨Checked.unassigned_eq_ok_iff.2 ⟨hsize, rfl⟩, Checked.runChanges_eq hsize hframed changes⟩

/-- Transforms are placed over the whole of others; one change meets an assigned block and another
does not fit.  The column behind a last one has no 64 bits. -/
theorem whole_run_covering :
    let changes := [placeFree ⟨1, 1, .dct⟩, placeFree ⟨0, 0, .dct16x16⟩, placeFree ⟨2, 0, .dct⟩,
      place ⟨0, 0, .dct16x16⟩, placeFree ⟨2, 1, .afv0⟩, place ⟨2, 0, .dct16x8⟩, place ⟨2, 1, .dct16x8⟩]
    let last := place ⟨2 ^ 64 - 1, 1, .dct8x16⟩
    let g := run (unassigned 3 2) changes
    AllSpare (unassigned 3 2) changes ∧ g.Whole ∧ g.totalArea = g.countAssigned ∧
      g.countAssigned = 6 ∧ 3 * 2 < 2 ^ 64 ∧
      Checked.runChanges changes (unassigned 3 2) = .ok () g ∧
      Checked.runChanges (changes ++ [last]) (unassigned 3 2) = .error (.fault .overflow) g := by
  intro changes last g
  have hspare : AllSpare (unassigned 3 2) changes := by decide +kernel
  obtain ⟨-, -, hwhole, hrun⟩ := whole_run 3 2 changes
  obtain ⟨-, -, -, hstop⟩ := whole_run 3 2 (changes ++ [last])
  obtain ⟨hw, harea⟩ := hwhole hspare
  refine ⟨hspare, hw, harea, by decide +kernel, by decide, ?_, ?_⟩
  · rw [(hrun (by decide)).2, if_pos (by decide)]
  · have hmade : (changes ++ [last]).takeWhile (fun c ↦ ¬ c.Overflows 3) = changes := by decide
    rw [(hstop (by decide)).2, if_neg (by decide), hmade]

/-- A transform that is placed over the second block of another leaves the first one behind, and the
areas no longer add up. -/
theorem not_whole_run_cut :
    let g := run (unassigned 2 1) [placeFree ⟨0, 0, .dct8x16⟩, place ⟨1, 0, .dct⟩]
    ¬ (∀ t, g.Has t → ∀ p ∈ t.tile, g.Holds p (t.stored p)) ∧ g.totalArea ≠ g.countAssigned := by
  intro g
  refine ⟨fun h ↦ ?_, by decide +kernel⟩
  have hhas : g.Has ⟨0, 0, .dct8x16⟩ := ⟨by decide +kernel, by decide +kernel⟩
  have hlast := (h _ hhas (1, 0) (by decide +kernel)).2
  exact absurd hlast (by decide +kernel)

end GridChange

end EntropyCoding
