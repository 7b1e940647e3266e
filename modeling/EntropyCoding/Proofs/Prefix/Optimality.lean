import EntropyCoding.Proofs.Prefix.Complete
import EntropyCoding.Proofs.Prefix.Lightest
import Mathlib.Algebra.BigOperators.Ring.List
import Mathlib.InformationTheory.Coding.KraftMcMillan

/-!
# Codes of least cost

Joining the two lightest trees again and again gives a code of least cost.  The proof compares it with
an assignment of depths to symbols that respects the code space, and turns the assignment into the
code.  Between two joins the trees of the forest are placed at depths that respect the code space, and
the cost is that of the assignment at most, `Affords`.

Before a join the lightest tree is moved to the deepest place and the second lightest to the deepest
one of the others, `exists_two_deepest`; both moves exchange a tree with one that is not lighter.  The
two trees can then be brought to the same depth, because what the others leave of the code space is a
multiple of the part that belongs to that depth, `exists_space_join`.  There they are joined.

That a prefix code respects the code space is the inequality of Kraft and McMillan.  So no prefix code
takes fewer bits than the depths found, if these are within the limit from the start,
`limitedDepths_optimal`.
-/

namespace EntropyCoding

/-! ## The cost of a tree -/

namespace CodeTree

variable (w : Nat → Nat)

/-- What the symbols of a tree cost whose root is at depth `d`, if each has a weight. -/
def cost (t : CodeTree) (d : Nat) : Nat :=
  ((t.depths d).map fun p ↦ w p.1 * p.2).sum

/-- The weight of a tree is that of its symbols. -/
def Weighs (t : CodeTree) : Prop :=
  (t.symbols.map w).sum = t.weight

variable {w}

theorem cost_join (a b : CodeTree) (d : Nat) :
    (a.join b).cost w d = a.cost w (d + 1) + b.cost w (d + 1) := by
  rw [cost, depths_join, List.map_append, List.sum_append]
  rfl

/-- A joined tree has the weight of its parts. -/
theorem Weighs.join {a b : CodeTree} (ha : a.Weighs w) (hb : b.Weighs w) : (a.join b).Weighs w := by
  unfold Weighs at *
  rw [symbols_join, List.map_append, List.sum_append, ha, hb, weight_join]

/-- Each level costs the weight of the tree. -/
theorem Weighs.cost_eq {t : CodeTree} (ht : t.Weighs w) (d : Nat) :
    t.cost w d = t.cost w 0 + t.weight * d := by
  rw [← ht]
  clear ht
  induction t generalizing d with
  | leaf symbol weight => simp [cost, depths, symbols]
  | node weight left right ihl ihr =>
    have hnode (d : Nat) : (node weight left right).cost w d =
        left.cost w (d + 1) + right.cost w (d + 1) := cost_join left right d
    rw [hnode, hnode, ihl (d + 1), ihr (d + 1), ihl (0 + 1), ihr (0 + 1), symbols, List.map_append,
      List.sum_append]
    ring

theorem Weighs.cost_mono {t : CodeTree} (ht : t.Weighs w) {d d' : Nat} (h : d ≤ d') :
    t.cost w d ≤ t.cost w d' := by
  rw [ht.cost_eq d, ht.cost_eq d']
  exact Nat.add_le_add_left (Nat.mul_le_mul_left _ h) _

end CodeTree

/-! ## The code space -/

/-- The part of the code space that codewords of given depths take, in units of `2 ^ -n`. -/
def spaceTaken (n : Nat) (depths : List Nat) : Nat :=
  (depths.map fun d ↦ 2 ^ (n - d)).sum

/-- Two codewords of which the second is as deep as all others can be replaced by a single one that is
one bit shorter than the second. -/
theorem exists_space_join {n d₁ d₂ : Nat} {depths : List Nat} (hn : d₂ ≤ n)
    (hle : ∀ d ∈ depths, d ≤ d₂) (h : spaceTaken n (d₁ :: d₂ :: depths) ≤ 2 ^ n) :
    ∃ d, d₂ = d + 1 ∧ spaceTaken n (d :: depths) ≤ 2 ^ n := by
  simp only [spaceTaken, List.map_cons, List.sum_cons] at h ⊢
  have hpart : 2 ^ (n - d₂) ∣ 2 ^ (n - d₂) + (depths.map fun d ↦ 2 ^ (n - d)).sum := by
    refine Nat.dvd_add (Nat.dvd_refl _) (List.dvd_sum fun x hx ↦ ?_)
    obtain ⟨d, hd, rfl⟩ := List.mem_map.1 hx
    exact Nat.pow_dvd_pow 2 (Nat.sub_le_sub_left (hle d hd) n)
  have hall : 2 ^ (n - d₂) ∣ 2 ^ n := Nat.pow_dvd_pow 2 (Nat.sub_le n d₂)
  have hpos : 0 < 2 ^ (n - d₁) := Nat.two_pow_pos _
  -- the rest of the code space is not empty, so there is room for a second codeword of depth `d₂`
  have hroom : 2 ^ (n - d₂) ≤
      2 ^ n - (2 ^ (n - d₂) + (depths.map fun d ↦ 2 ^ (n - d)).sum) :=
    Nat.le_of_dvd (by omega) (Nat.dvd_sub hall hpart)
  cases d₂ with
  | zero =>
    rw [Nat.sub_zero] at hroom
    omega
  | succ d =>
    refine ⟨d, rfl, ?_⟩
    have hdouble : 2 ^ (n - d) = 2 * 2 ^ (n - (d + 1)) := by
      rw [← Nat.pow_succ']
      congr 1
      omega
    omega

/-! ## Trees at depths -/

/-- What trees cost whose roots are at given depths. -/
def placedCost (w : Nat → Nat) (ps : List (CodeTree × Nat)) : Nat :=
  (ps.map fun p ↦ p.1.cost w p.2).sum

/-- The same trees at the same depths, exchanged so that the cost has not become larger. -/
structure Rearranges (w : Nat → Nat) (ps' ps : List (CodeTree × Nat)) : Prop where
  /-- The trees are the same. -/
  trees : (ps'.map Prod.fst).Perm (ps.map Prod.fst)
  /-- The depths are the same. -/
  depths : (ps'.map Prod.snd).Perm (ps.map Prod.snd)
  /-- The cost is not larger. -/
  cost_le : placedCost w ps' ≤ placedCost w ps

namespace Rearranges

variable {w : Nat → Nat} {ps ps' ps'' : List (CodeTree × Nat)}

theorem of_perm (h : ps'.Perm ps) : Rearranges w ps' ps where
  trees := h.map _
  depths := h.map _
  cost_le := Nat.le_of_eq (h.map _).sum_eq

theorem trans (h : Rearranges w ps'' ps') (h' : Rearranges w ps' ps) : Rearranges w ps'' ps where
  trees := h.trees.trans h'.trees
  depths := h.depths.trans h'.depths
  cost_le := Nat.le_trans h.cost_le h'.cost_le

theorem cons (h : Rearranges w ps' ps) (p : CodeTree × Nat) : Rearranges w (p :: ps') (p :: ps) where
  trees := h.trees.cons _
  depths := h.depths.cons _
  cost_le := by
    simp only [placedCost, List.map_cons, List.sum_cons]
    exact Nat.add_le_add_left h.cost_le _

/-- A tree goes to a deeper place, and one that is not lighter comes up from there. -/
theorem exchange {a b : CodeTree} (ha : a.Weighs w) (hb : b.Weighs w) (hab : a.weight ≤ b.weight)
    {d d' : Nat} (hd : d ≤ d') (ps : List (CodeTree × Nat)) :
    Rearranges w ((a, d') :: (b, d) :: ps) ((a, d) :: (b, d') :: ps) where
  trees := .refl _
  depths := .swap d d' _
  cost_le := by
    obtain ⟨k, rfl⟩ := Nat.exists_eq_add_of_le hd
    have hk : a.weight * k ≤ b.weight * k := Nat.mul_le_mul_right k hab
    simp only [placedCost, List.map_cons, List.sum_cons, ha.cost_eq d, ha.cost_eq (d + k),
      hb.cost_eq d, hb.cost_eq (d + k), Nat.mul_add]
    omega

end Rearranges

section

variable {w : Nat → Nat} {a b : CodeTree} {ps : List (CodeTree × Nat)}
  (hps : ∀ p ∈ ps, p.1.Weighs w)
include hps

/-- The lightest tree may be the deepest. -/
theorem exists_deepest (ha : a.Weighs w) (hle : ∀ p ∈ ps, a.weight ≤ p.1.weight) (d : Nat) :
    ∃ d' ps', Rearranges w ((a, d') :: ps') ((a, d) :: ps) ∧ ∀ p ∈ ps', p.2 ≤ d' := by
  induction ps with
  | nil => exact ⟨d, [], .of_perm (.refl _), nofun⟩
  | cons p ps ih =>
    obtain ⟨hp, hps⟩ := List.forall_mem_cons.1 hps
    obtain ⟨hap, hle⟩ := List.forall_mem_cons.1 hle
    obtain ⟨d', ps', hrest, hdeep⟩ := ih hps hle
    have hfirst : Rearranges w ((a, d') :: p :: ps') ((a, d) :: p :: ps) :=
      ((Rearranges.of_perm (.swap _ _ _)).trans (hrest.cons p)).trans (.of_perm (.swap _ _ _))
    rcases Nat.le_total p.2 d' with hshallow | hdeeper
    · exact ⟨d', p :: ps', hfirst, List.forall_mem_cons.2 ⟨hshallow, hdeep⟩⟩
    · refine ⟨p.2, (p.1, d') :: ps', (Rearranges.exchange ha hp hap hdeeper ps').trans hfirst, ?_⟩
      exact List.forall_mem_cons.2 ⟨hdeeper, fun q hq ↦ (hdeep q hq).trans hdeeper⟩

end

theorem exists_perm_cons {a : CodeTree} {ts : List CodeTree} {ps : List (CodeTree × Nat)}
    (h : (ps.map Prod.fst).Perm (a :: ts)) :
    ∃ d ps', ps.Perm ((a, d) :: ps') ∧ (ps'.map Prod.fst).Perm ts := by
  obtain ⟨⟨a', d⟩, hmem, rfl⟩ := List.mem_map.1 (h.mem_iff.2 List.mem_cons_self)
  obtain ⟨before, behind, rfl⟩ := List.append_of_mem hmem
  have hperm : (before ++ (a', d) :: behind).Perm ((a', d) :: (before ++ behind)) :=
    List.perm_middle
  exact ⟨d, before ++ behind, hperm, ((hperm.map Prod.fst).symm.trans h).cons_inv⟩

/-- The two lightest trees may be the deepest. -/
theorem exists_two_deepest {w : Nat → Nat} {a b : CodeTree} {ts : List CodeTree}
    {ps : List (CodeTree × Nat)} (htrees : (ps.map Prod.fst).Perm (a :: b :: ts))
    (hw : ∀ t ∈ a :: b :: ts, t.Weighs w) (hab : a.weight ≤ b.weight)
    (hb : ∀ t ∈ ts, b.weight ≤ t.weight) :
    ∃ d₁ d₂ ps', Rearranges w ((a, d₁) :: (b, d₂) :: ps') ps ∧ (ps'.map Prod.fst).Perm ts ∧
      d₂ ≤ d₁ ∧ ∀ p ∈ ps', p.2 ≤ d₂ := by
  obtain ⟨hwa, hwrest⟩ := List.forall_mem_cons.1 hw
  obtain ⟨hwb, hwts⟩ := List.forall_mem_cons.1 hwrest
  have ha : ∀ t ∈ b :: ts, a.weight ≤ t.weight :=
    List.forall_mem_cons.2 ⟨hab, fun t ht ↦ hab.trans (hb t ht)⟩
  -- the lightest tree goes to the deepest place
  obtain ⟨d₁, qs, hqs, hqtrees⟩ := exists_perm_cons htrees
  have hmem : ∀ q ∈ qs, q.1 ∈ b :: ts := fun q hq ↦ hqtrees.mem_iff.1 (List.mem_map_of_mem hq)
  have hwqs : ∀ q ∈ qs, q.1.Weighs w := fun q hq ↦ hwrest _ (hmem q hq)
  obtain ⟨d₁, qs', hfirst, hdeep⟩ := exists_deepest hwqs hwa (fun q hq ↦ ha _ (hmem q hq)) d₁
  -- the second lightest goes to the deepest of the others
  obtain ⟨d₂, rs, hrs, hrtrees⟩ := exists_perm_cons (hfirst.trees.cons_inv.trans hqtrees)
  have hmem' : ∀ r ∈ rs, r.1 ∈ ts := fun r hr ↦ hrtrees.mem_iff.1 (List.mem_map_of_mem hr)
  have hwrs : ∀ r ∈ rs, r.1.Weighs w := fun r hr ↦ hwts _ (hmem' r hr)
  obtain ⟨d₂, rs', hsecond, hdeep'⟩ := exists_deepest hwrs hwb (fun r hr ↦ hb _ (hmem' r hr)) d₂
  refine ⟨d₁, d₂, rs', ?_, hsecond.trees.cons_inv.trans hrtrees, ?_, hdeep'⟩
  · have hboth := (hsecond.trans (.of_perm hrs.symm)).cons (a, d₁)
    exact hboth.trans (hfirst.trans (.of_perm hqs.symm))
  · obtain ⟨q, hq, hd₂⟩ := List.mem_map.1
      ((hsecond.depths.trans (hrs.map Prod.snd).symm).mem_iff.1 List.mem_cons_self)
    exact hd₂.symm.trans_le (hdeep q hq)

/-- The trees of a forest can be placed at depths that respect the code space, at a cost of at most
`c`. -/
structure Affords (w : Nat → Nat) (n c : Nat) (ts : List CodeTree) (ps : List (CodeTree × Nat)) :
    Prop where
  /-- All trees are placed. -/
  trees : (ps.map Prod.fst).Perm ts
  /-- The weights are those of the symbols. -/
  weighs : ∀ t ∈ ts, t.Weighs w
  /-- The depths are bounded. -/
  depth_le : ∀ d ∈ ps.map Prod.snd, d ≤ n
  /-- They respect the code space. -/
  space_le : spaceTaken n (ps.map Prod.snd) ≤ 2 ^ n
  /-- The cost is not too large. -/
  cost_le : placedCost w ps ≤ c

namespace Affords

variable {w : Nat → Nat} {n c : Nat} {ts ts' : List CodeTree} {ps ps' : List (CodeTree × Nat)}

theorem rearrange (h : Affords w n c ts ps) (hr : Rearranges w ps' ps) : Affords w n c ts ps' where
  trees := hr.trees.trans h.trees
  weighs := h.weighs
  depth_le d hd := h.depth_le d (hr.depths.mem_iff.1 hd)
  space_le := ((hr.depths.map _).sum_eq).trans_le h.space_le
  cost_le := hr.cost_le.trans h.cost_le

theorem perm (h : Affords w n c ts ps) (hts : ts.Perm ts') : Affords w n c ts' ps :=
  { h with trees := h.trees.trans hts, weighs := fun t ht ↦ h.weighs t (hts.mem_iff.2 ht) }

/-- The two lightest trees can be joined. -/
theorem join {a b : CodeTree} (h : Affords w n c (a :: b :: ts) ps) (hab : a.weight ≤ b.weight)
    (hb : ∀ t ∈ ts, b.weight ≤ t.weight) : ∃ ps', Affords w n c (a.join b :: ts) ps' := by
  obtain ⟨hwa, hwrest⟩ := List.forall_mem_cons.1 h.weighs
  obtain ⟨hwb, hwts⟩ := List.forall_mem_cons.1 hwrest
  obtain ⟨d₁, d₂, ps', hplaced, htrees, hle, hdeep⟩ := exists_two_deepest h.trees h.weighs hab hb
  obtain ⟨-, -, hdepth, hspace, hcost⟩ := h.rearrange hplaced
  simp only [List.map_cons] at hdepth hspace
  have hdeep' : ∀ d ∈ ps'.map Prod.snd, d ≤ d₂ := List.forall_mem_map.2 hdeep
  -- the lightest tree comes up to the second lightest, and both are joined there
  obtain ⟨d, rfl, hspace'⟩ := exists_space_join (hdepth d₂ (.tail _ (.head _))) hdeep' hspace
  refine ⟨(a.join b, d) :: ps', htrees.cons _, ?_, ?_, hspace', ?_⟩
  · exact List.forall_mem_cons.2 ⟨hwa.join hwb, hwts⟩
  · refine List.forall_mem_cons.2 ⟨?_, fun x hx ↦ hdepth x (.tail _ (.tail _ hx))⟩
    exact Nat.le_of_succ_le (hdepth (d + 1) (.tail _ (.head _)))
  · have hmono := hwa.cost_mono hle
    simp only [placedCost, List.map_cons, List.sum_cons, CodeTree.cost_join] at hcost ⊢
    omega

end Affords

/-! ## The code of least cost -/

/-- Joining the two lightest trees of a forest keeps the cost. -/
theorem Forest.Sorted.affords {w : Nat → Nat} {n c m : Nat} {f : Forest} (hf : f.Sorted m)
    (hlen : 2 ≤ f.trees.length) {ps : List (CodeTree × Nat)} (h : Affords w n c f.trees ps) :
    ∃ ps', Affords w n c f.joinLightest.trees ps' := by
  obtain ⟨a, b, rest, hperm, hab, hb, hjoin, -⟩ := hf.exists_joinLightest hlen
  obtain ⟨ps', h'⟩ := (h.perm hperm).join hab hb
  rw [hjoin, trees_push]
  exact ⟨ps', h'.perm (List.perm_append_singleton _ _).symm⟩

/-- No depths that respect the code space cost less than those of the code. -/
theorem cost_codeDepths_le {weights : List (Nat × Nat)} (hne : weights ≠ []) {w e : Nat → Nat}
    {n : Nat} (hw : ∀ p ∈ weights, w p.1 = p.2) (hn : ∀ p ∈ weights, e p.1 ≤ n)
    (hspace : spaceTaken n (weights.map fun p ↦ e p.1) ≤ 2 ^ n) :
    ((codeDepths weights).map fun p ↦ w p.1 * p.2).sum ≤
      (weights.map fun p ↦ w p.1 * e p.1).sum := by
  -- the leaves are placed at the depths given
  have hleaves : Affords w n (weights.map fun p ↦ w p.1 * e p.1).sum
      (weights.map fun p ↦ CodeTree.leaf p.1 p.2)
      (weights.map fun p ↦ (CodeTree.leaf p.1 p.2, e p.1)) := by
    refine ⟨?_, ?_, ?_, ?_, ?_⟩
    · rw [List.map_map]
      rfl
    · intro t ht
      obtain ⟨p, hp, rfl⟩ := List.mem_map.1 ht
      exact (Nat.add_zero _).trans (hw p hp)
    · intro d hd
      rw [List.map_map] at hd
      obtain ⟨p, hp, rfl⟩ := List.mem_map.1 hd
      exact hn p hp
    · rwa [List.map_map]
    · rw [placedCost, List.map_map]
      exact Nat.le_refl _
  generalize (weights.map fun p ↦ w p.1 * e p.1).sum = c at hleaves ⊢
  obtain ⟨t, ⟨-, ps, htrees, hweighs, -, -, hcost⟩, hone, hdepths, -⟩ :=
    exists_tree_of_codeDepths hne
      (P := fun f ↦ (∃ m, f.Sorted m) ∧ ∃ ps, Affords w n c f.trees ps)
      (fun f ⟨⟨m, hm⟩, ps, hps⟩ hlen ↦ ⟨hm.joinLightest hlen, hm.affords hlen hps⟩)
      ⟨⟨0, Forest.sorted_ofWeights weights⟩, _,
        hleaves.perm (Forest.trees_ofWeights weights).symm⟩
  rw [hone] at htrees hweighs
  obtain ⟨⟨t', d⟩, rfl, rfl⟩ := List.map_eq_singleton_iff.1 (List.perm_singleton.1 htrees)
  rw [hdepths]
  exact ((hweighs _ (List.mem_singleton_self _)).cost_mono (Nat.zero_le d)).trans hcost

/-! ## Prefix codes -/

/-- Codewords of which none begins with another can be told apart. -/
theorem uniquelyDecodable_of_prefixFree {α : Type} {S : Set (List α)} (hnil : [] ∉ S)
    (h : ∀ u ∈ S, ∀ v ∈ S, u <+: v → u = v) : InformationTheory.UniquelyDecodable S := by
  have hne {words : List (List α)} (hwords : ∀ u ∈ words, u ∈ S) (hflat : words.flatten = []) :
      words = [] := by
    cases words with
    | nil => rfl
    | cons u words =>
      rw [List.flatten_cons, List.append_eq_nil_iff] at hflat
      exact absurd (hflat.1 ▸ hwords u List.mem_cons_self) hnil
  intro words words' hwords hwords' hflat
  induction words generalizing words' with
  | nil => exact (hne hwords' hflat.symm).symm
  | cons u words ih =>
    cases words' with
    | nil => exact hne hwords hflat
    | cons v words' =>
      obtain ⟨hu, htail⟩ := List.forall_mem_cons.1 hwords
      obtain ⟨hv, htail'⟩ := List.forall_mem_cons.1 hwords'
      rw [List.flatten_cons, List.flatten_cons] at hflat
      have huv : u = v := by
        rcases List.prefix_or_prefix_of_prefix (List.prefix_append u words.flatten)
          (hflat ▸ List.prefix_append v words'.flatten) with hpre | hpre
        · exact h u hu v hv hpre
        · exact (h v hv u hu hpre).symm
      subst huv
      rw [ih words' htail htail' (List.append_cancel_left hflat)]

/-- The codewords of a prefix code for two symbols or more respect the code space. -/
theorem sum_half_pow_length_le {S : Finset Nat} (hS : 2 ≤ S.card) {code : Nat → List Bool}
    (hcode : ∀ s ∈ S, ∀ t ∈ S, code s <+: code t → s = t) :
    ∑ s ∈ S, (1 / 2 : ℚ) ^ (code s).length ≤ 1 := by
  have hinj : Set.InjOn code S := fun s hs t ht hst ↦
    hcode s hs t ht (hst ▸ List.prefix_refl _)
  have hnil : [] ∉ (S.image code : Set (List Bool)) := by
    intro hmem
    obtain ⟨s, hs, heq⟩ := Finset.mem_image.1 (Finset.mem_coe.1 hmem)
    have hall : ∀ t ∈ S, s = t := fun t ht ↦ hcode s hs t ht (heq ▸ List.nil_prefix)
    have hone : S.card ≤ 1 := Finset.card_le_one.2 fun t ht u hu ↦
      (hall t ht).symm.trans (hall u hu)
    exact absurd hS (Nat.not_le.2 (Nat.lt_succ_of_le hone))
  have hunique : InformationTheory.UniquelyDecodable (S.image code : Set (List Bool)) := by
    refine uniquelyDecodable_of_prefixFree hnil fun u hu v hv hpre ↦ ?_
    obtain ⟨s, hs, rfl⟩ := Finset.mem_image.1 (Finset.mem_coe.1 hu)
    obtain ⟨t, ht, rfl⟩ := Finset.mem_image.1 (Finset.mem_coe.1 hv)
    rw [hcode s hs t ht hpre]
  have hkraft := InformationTheory.kraft_mcmillan_inequality hunique
  rw [Finset.sum_image hinj, Fintype.card_bool] at hkraft
  have hreal : ((∑ s ∈ S, (1 / 2 : ℚ) ^ (code s).length : ℚ) : ℝ) ≤ 1 := by
    push_cast
    exact hkraft
  exact_mod_cast hreal

/-! ## Depths within a limit -/

theorem cast_sum_two_pow_sub {S : Finset Nat} {e : Nat → Nat} {n : Nat} (hn : ∀ s ∈ S, e s ≤ n) :
    ((∑ s ∈ S, 2 ^ (n - e s) : Nat) : ℚ) = 2 ^ n * ∑ s ∈ S, (1 / 2 : ℚ) ^ e s := by
  rw [Finset.mul_sum, Nat.cast_sum]
  refine Finset.sum_congr rfl fun s hs ↦ ?_
  rw [Nat.cast_pow, Nat.cast_ofNat, pow_sub₀ _ two_ne_zero (hn s hs), one_div, inv_pow]

/-- The part of the code space, in units of `2 ^ -n`. -/
theorem sum_two_pow_sub_le {S : Finset Nat} {e : Nat → Nat} {n : Nat} (hn : ∀ s ∈ S, e s ≤ n)
    (h : ∑ s ∈ S, (1 / 2 : ℚ) ^ e s ≤ 1) : ∑ s ∈ S, 2 ^ (n - e s) ≤ 2 ^ n := by
  have hle : ((∑ s ∈ S, 2 ^ (n - e s) : Nat) : ℚ) ≤ 2 ^ n := by
    rw [cast_sum_two_pow_sub hn]
    exact mul_le_of_le_one_right (by positivity) h
  exact_mod_cast hle

section

variable {counts depths : List Nat} {limit : Nat} (h : limitedDepths counts limit = .ok depths)
  (hused : 2 ≤ (usedSet counts).card)
include h hused

/-- The search ends at a power of two. -/
theorem exists_floor_eq :
    ∃ k, depthsWithin (usedSymbols counts) limit = depthsWithFloor (usedSymbols counts) k := by
  rw [card_usedSet] at hused
  obtain ⟨k, hk, -⟩ := exists_floor (List.ne_nil_of_length_pos (Nat.zero_lt_of_lt hused))
    (eq_spreadDepths_of_limitedDepths h hused).1 0
  exact ⟨k, hk⟩

/-- No depths that respect the code space cost less than those found, for the weights lifted to the
floor. -/
theorem cost_limitedDepths_le {e : Nat → Nat} (he : ∑ s ∈ usedSet counts, (1 / 2 : ℚ) ^ e s ≤ 1) :
    ∑ s ∈ usedSet counts,
        max (counts.getD s 0) (depthsWithin (usedSymbols counts) limit).floor * depths.getD s 0 ≤
      ∑ s ∈ usedSet counts,
        max (counts.getD s 0) (depthsWithin (usedSymbols counts) limit).floor * e s := by
  obtain ⟨k, hk⟩ := exists_floor_eq h hused
  rw [sum_usedSet_depths h hused fun s d ↦
    max (counts.getD s 0) (depthsWithin (usedSymbols counts) limit).floor * d, hk]
  have hfst : (flooredWeights (2 ^ k) (usedSymbols counts)).map Prod.fst =
      (usedSymbols counts).map Prod.fst := by
    rw [flooredWeights, List.map_map]
    rfl
  have hsum (g : Nat → Nat) : ((flooredWeights (2 ^ k) (usedSymbols counts)).map fun p ↦ g p.1).sum =
      ∑ s ∈ usedSet counts, g s := by
    rw [sum_usedSet, ← hfst, List.map_map]
    rfl
  have hmem : ∀ p ∈ flooredWeights (2 ^ k) (usedSymbols counts),
      p.1 ∈ usedSet counts ∧ max (counts.getD p.1 0) (2 ^ k) = p.2 := by
    intro p hp
    obtain ⟨q, hq, rfl⟩ := List.mem_map.1 hp
    have hused : q.1 ∈ (usedSymbols counts).map Prod.fst := List.mem_map_of_mem hq
    refine ⟨mem_usedSet.2 (mem_map_fst_usedSymbols.1 hused), ?_⟩
    rw [usedSymbols_eq] at hq
    obtain ⟨s, -, rfl⟩ := List.mem_map.1 hq
    rfl
  have hn : ∀ s ∈ usedSet counts, e s ≤ (usedSet counts).sup e := fun s hs ↦ Finset.le_sup hs
  refine (cost_codeDepths_le (w := fun s ↦ max (counts.getD s 0) (2 ^ k)) ?_
    (fun p hp ↦ (hmem p hp).2) (fun p hp ↦ hn _ (hmem p hp).1) ?_).trans_eq
    (hsum fun s ↦ max (counts.getD s 0) (2 ^ k) * e s)
  · have hpos : 0 < (usedSymbols counts).length := by
      rw [← card_usedSet]
      exact Nat.zero_lt_of_lt hused
    rw [flooredWeights, Ne, List.map_eq_nil_iff]
    exact List.ne_nil_of_length_pos hpos
  · rw [spaceTaken, List.map_map]
    exact (hsum fun s ↦ 2 ^ ((usedSet counts).sup e - e s)).trans_le (sum_two_pow_sub_le hn he)

/-- The depths found cost least for the weights lifted to the floor at which the search ends: no depths
that respect the code space cost less.  If it ends at the first floor, no prefix code for the symbols
used takes fewer bits. -/
theorem limitedDepths_optimal :
    (∃ k, (depthsWithin (usedSymbols counts) limit).floor = 2 ^ k) ∧
    (∀ e : Nat → Nat, ∑ s ∈ usedSet counts, (1 / 2 : ℚ) ^ e s ≤ 1 →
      ∑ s ∈ usedSet counts,
          max (counts.getD s 0) (depthsWithin (usedSymbols counts) limit).floor * depths.getD s 0 ≤
        ∑ s ∈ usedSet counts,
          max (counts.getD s 0) (depthsWithin (usedSymbols counts) limit).floor * e s) ∧
    ((depthsWithin (usedSymbols counts) limit).floor = 1 → ∀ code : Nat → List Bool,
      (∀ s ∈ usedSet counts, ∀ t ∈ usedSet counts, code s <+: code t → s = t) →
      ∑ s ∈ usedSet counts, counts.getD s 0 * depths.getD s 0 ≤
        ∑ s ∈ usedSet counts, counts.getD s 0 * (code s).length) := by
  refine ⟨?_, fun e he ↦ cost_limitedDepths_le h hused he, fun hfloor code hcode ↦ ?_⟩
  · obtain ⟨k, hk⟩ := exists_floor_eq h hused
    exact ⟨k, by rw [hk]; rfl⟩
  · have hcost := cost_limitedDepths_le h hused (sum_half_pow_length_le hused hcode)
    rw [hfloor] at hcost
    have hcount (g : Nat → Nat) : ∑ s ∈ usedSet counts, max (counts.getD s 0) 1 * g s =
        ∑ s ∈ usedSet counts, counts.getD s 0 * g s := by
      refine Finset.sum_congr rfl fun s hs ↦ ?_
      rw [Nat.max_eq_left (mem_usedSet.1 hs)]
    rwa [hcount, hcount] at hcost

end

/-- Three symbols cost less than with codewords of two bits for each. -/
theorem limitedDepths_optimal_three :
    limitedDepths [5, 0, 1, 2] 15 = .ok [1, 0, 2, 2] ∧ 2 ≤ (usedSet [5, 0, 1, 2]).card ∧
      (depthsWithin (usedSymbols [5, 0, 1, 2]) 15).floor = 1 ∧
      ∑ _s ∈ usedSet [5, 0, 1, 2], (1 / 2 : ℚ) ^ 2 ≤ 1 ∧
      ∑ s ∈ usedSet [5, 0, 1, 2],
          max ([5, 0, 1, 2].getD s 0) (depthsWithin (usedSymbols [5, 0, 1, 2]) 15).floor *
            [1, 0, 2, 2].getD s 0 ≤
        ∑ s ∈ usedSet [5, 0, 1, 2],
          max ([5, 0, 1, 2].getD s 0) (depthsWithin (usedSymbols [5, 0, 1, 2]) 15).floor * 2 := by
  have hok : limitedDepths [5, 0, 1, 2] 15 = .ok [1, 0, 2, 2] := by cbv
  have hcard : (usedSet [5, 0, 1, 2]).card = 3 := by decide
  have hused : 2 ≤ (usedSet [5, 0, 1, 2]).card := by omega
  have hspace : ∑ _s ∈ usedSet [5, 0, 1, 2], (1 / 2 : ℚ) ^ 2 ≤ 1 := by
    rw [Finset.sum_const, hcard]
    norm_num
  exact ⟨hok, hused, by cbv, hspace, (limitedDepths_optimal hok hused).2.1 (fun _ ↦ 2) hspace⟩

end EntropyCoding
