import EntropyCoding.Proofs.Context.Conservation
import EntropyCoding.Proofs.Context.RoundTrip
import EntropyCoding.Proofs.Histogram.Tally
import Mathlib.Algebra.BigOperators.Group.Finset.Piecewise

/-!
# Counting through a map

Tokens are counted per context and the histograms merged, or counted per cluster straight away: the
result is the same, `Tally.ofTokens_agree`.

Both come from what a run of a tally does, `Tally.getElem?_addTokens`: it adds to each histogram the sum
of the symbols that are routed to it.  A run fails only for a context out of range, and then it stops at
the first such token with what has been counted so far, `Tally.exists_first_of_addTokens`.
-/

namespace EntropyCoding

/-- Summing the items of a list key by key, over some of the keys, sums the items with these keys. -/
theorem sum_map_sum_fiber {α M : Type} [AddCommMonoid M] (l : List α) (key : α → Nat) (g : α → M)
    {keys : List Nat} (hkeys : keys.Nodup) :
    (keys.map fun k ↦ (l.map fun a ↦ if key a = k then g a else 0).sum).sum =
      (l.map fun a ↦ if key a ∈ keys then g a else 0).sum := by
  rw [← List.sum_toFinset _ hkeys]
  induction l with
  | nil => simp
  | cons a l ih => simp only [List.map_cons, List.sum_cons, Finset.sum_add_distrib, ih,
      Finset.sum_ite_eq, List.mem_toFinset]

namespace Tally

/-! ## What a run adds -/

/-- The token is counted in histogram `k`. -/
def routes (t : Tally) (k : Nat) (token : Token) : Bool :=
  match t.slot token.context with
  | .ok slot => slot == k
  | .error _ => false

/-- What a token adds to histogram `k`. -/
def share (t : Tally) (k : Nat) (token : Token) : Histogram :=
  if t.routes k token then Histogram.single (t.split.split token.value).token else 0

/-- The storage of every histogram is in whole steps. -/
def Aligned (t : Tally) : Prop :=
  ∀ (k : Nat) (h : Histogram), t.histograms[k]? = some h → h.Aligned

/-- Nothing is stored at the start. -/
theorem aligned_start (map? : Option ContextMap) (contexts : Nat) (split : TokenSplit) :
    (start map? contexts split).Aligned := by
  intro k h hget
  rw [start, Array.getElem?_replicate] at hget
  split at hget
  · cases hget
    exact Histogram.aligned_zero
  · cases hget

/-- A token adds to each histogram its share. -/
theorem getElem?_of_addToken {token : Token} {t t' : Tally} (ht : t.Aligned)
    (h : addToken token t = .ok () t') (k : Nat) :
    t'.histograms[k]? = t.histograms[k]?.map (· + t.share k token) := by
  obtain ⟨slot, hslot, hlt, rfl⟩ := addToken_eq_ok_iff.1 h
  have hroutes : t.routes k token = (slot == k) := by rw [routes, hslot]
  rw [share, hroutes]
  dsimp only
  rw [Array.getElem?_modify]
  by_cases hk : slot = k
  · subst hk
    rw [if_pos rfl, if_pos (beq_self_eq_true slot), Array.getElem?_eq_getElem hlt]
    exact congrArg some ((ht slot _ (Array.getElem?_eq_getElem hlt)).add_eq _)
  · rw [if_neg hk, if_neg (by simpa using hk)]
    simp

/-- Counting a token keeps storage in whole steps. -/
theorem Aligned.of_addToken {token : Token} {t t' : Tally} (ht : t.Aligned)
    (h : addToken token t = .ok () t') : t'.Aligned := by
  obtain ⟨slot, -, -, rfl⟩ := addToken_eq_ok_iff.1 h
  intro k hist hget
  rw [Array.getElem?_modify] at hget
  split at hget
  · obtain ⟨hist, hold, rfl⟩ := Option.map_eq_some_iff.1 hget
    exact (ht k hist hold).add _
  · exact ht k hist hget

/-- The shares of tokens do not depend on what has been counted. -/
theorem share_of_addToken {token : Token} {t t' : Tally} (h : addToken token t = .ok () t') :
    t'.share = t.share := by
  obtain ⟨slot, -, -, rfl⟩ := addToken_eq_ok_iff.1 h
  rfl

/-- A run adds to each histogram the shares of the tokens. -/
theorem getElem?_addTokens {tokens : List Token} {t t' : Tally} (ht : t.Aligned)
    (h : addTokens tokens t = .ok () t') (k : Nat) :
    t'.histograms[k]? = t.histograms[k]?.map (· + (tokens.map (t.share k)).sum) := by
  induction tokens generalizing t with
  | nil =>
    obtain ⟨-, rfl⟩ := pure_eq_ok_iff.1 h
    simp
  | cons token tokens ih =>
    obtain ⟨t₁, hone, h⟩ := forM_cons_eq_ok_iff.1 h
    rw [ih (ht.of_addToken hone) h, getElem?_of_addToken ht hone, share_of_addToken hone,
      Option.map_map, List.map_cons, List.sum_cons]
    exact congrArg (Option.map · _) (funext fun hist ↦ add_assoc hist _ _)

/-! ## Where a run stops -/

/-- If contexts go through a map, it is one that can be obtained, and there is a histogram for each of
its clusters. -/
def Consistent (t : Tally) : Prop :=
  ∀ map ∈ t.map?, map.Obtainable ∧ t.histograms.size = map.clusters

theorem consistent_start_none (contexts : Nat) (split : TokenSplit) :
    (start none contexts split).Consistent :=
  nofun

theorem consistent_start_some {map : ContextMap} (hmap : map.Obtainable) (contexts : Nat)
    (split : TokenSplit) : (start (some map) contexts split).Consistent := by
  rintro _ ⟨⟩
  exact ⟨hmap, Array.size_replicate⟩

/-- Counting a token keeps a tally consistent, with as many contexts. -/
theorem Consistent.of_addToken {token : Token} {t t' : Tally} (ht : t.Consistent)
    (h : addToken token t = .ok () t') : t'.Consistent ∧ t'.contexts = t.contexts := by
  obtain ⟨slot, -, -, rfl⟩ := addToken_eq_ok_iff.1 h
  unfold Consistent contexts
  dsimp only
  rw [Array.size_modify]
  exact ⟨ht, rfl⟩

/-- A token is counted if its context is in range. -/
theorem Consistent.exists_addToken {token : Token} {t : Tally} (ht : t.Consistent)
    (hlt : token.context < t.contexts) : ∃ t', addToken token t = .ok () t' := by
  have hslot : ∃ slot, t.slot token.context = .ok slot ∧ slot < t.histograms.size := by
    unfold contexts at hlt
    unfold slot
    cases hmap : t.map? with
    | none =>
      rw [hmap] at hlt
      exact ⟨_, rfl, hlt⟩
    | some map =>
      rw [hmap] at hlt
      obtain ⟨hobtainable, hsize⟩ := ht map hmap
      obtain ⟨entry, hmem, hcluster⟩ := map.exists_entry_of_lt hlt
      exact ⟨_, hcluster, hsize ▸ hobtainable.entry_lt entry hmem⟩
  obtain ⟨slot, hslot, hlt⟩ := hslot
  exact ⟨_, addToken_eq_ok_iff.2 ⟨slot, hslot, hlt, rfl⟩⟩

/-- Tokens are counted if their contexts are in range. -/
theorem Consistent.exists_addTokens {tokens : List Token} {t : Tally} (ht : t.Consistent)
    (hlt : ∀ token ∈ tokens, token.context < t.contexts) :
    ∃ t', addTokens tokens t = .ok () t' := by
  induction tokens generalizing t with
  | nil => exact ⟨t, rfl⟩
  | cons token tokens ih =>
    obtain ⟨hhead, htail⟩ := List.forall_mem_cons.1 hlt
    obtain ⟨t₁, hone⟩ := ht.exists_addToken hhead
    obtain ⟨ht₁, hcontexts⟩ := ht.of_addToken hone
    obtain ⟨t', hrest⟩ := ih ht₁ (hcontexts ▸ htail)
    exact ⟨t', forM_cons_eq_ok_iff.2 ⟨t₁, hone, hrest⟩⟩

/-- A run stops at the first token with a context out of range, with the tokens before it counted. -/
theorem Consistent.exists_first_of_addTokens {tokens : List Token} {t : Tally} (ht : t.Consistent)
    (hbad : ∃ token ∈ tokens, t.contexts ≤ token.context) : ∃ before bad after t',
      tokens = before ++ bad :: after ∧ (∀ token ∈ before, token.context < t.contexts) ∧
        t.contexts ≤ bad.context ∧ addTokens before t = .ok () t' ∧
          addTokens tokens t = .error (.contextOutOfRange bad.context t.contexts) t' := by
  induction tokens generalizing t with
  | nil =>
    obtain ⟨_, h, -⟩ := hbad
    cases h
  | cons token tokens ih =>
    by_cases hle : t.contexts ≤ token.context
    · exact ⟨[], token, tokens, t, rfl, nofun, hle, rfl, bind_of_error (addToken_of_le hle) _⟩
    · obtain ⟨t₁, hone⟩ := ht.exists_addToken (Nat.not_le.1 hle)
      obtain ⟨ht₁, hcontexts⟩ := ht.of_addToken hone
      have hrest : ∃ token ∈ tokens, t₁.contexts ≤ token.context := by
        obtain ⟨bad, hmem, hbad⟩ := hbad
        rcases List.mem_cons.1 hmem with rfl | hmem
        · exact absurd hbad hle
        · exact ⟨bad, hmem, hcontexts ▸ hbad⟩
      obtain ⟨before, bad, after, t', rfl, hbefore, hlast, hok, herror⟩ := ih ht₁ hrest
      rw [hcontexts] at hbefore hlast herror
      exact ⟨token :: before, bad, after, t', rfl,
        List.forall_mem_cons.2 ⟨Nat.not_le.1 hle, hbefore⟩, hlast,
        forM_cons_eq_ok_iff.2 ⟨t₁, hone, hok⟩, (bind_of_ok hone _).trans herror⟩

/-! ## Counting and merging -/

section

variable {map? : Option ContextMap} {contexts : Nat} {split : TokenSplit} {tokens : List Token}
  {histograms : Array Histogram}

theorem share_start_none (contexts : Nat) (split : TokenSplit) (k : Nat) :
    (start none contexts split).share k = fun token ↦
      if token.context = k then Histogram.single (split.split token.value).token else 0 := by
  funext token
  simp [share, routes, slot, start]

/-- Each histogram of a list of tokens is the sum of their shares. -/
theorem toList_ofTokens (h : ofTokens map? contexts split tokens = .ok histograms) :
    histograms.toList = (List.range (map?.elim contexts ContextMap.clusters)).map fun k ↦
      (tokens.map ((start map? contexts split).share k)).sum := by
  have hget := getElem?_addTokens (aligned_start map? contexts split) (ofTokens_eq_ok_iff.1 h)
  refine List.ext_getElem? fun k ↦ ?_
  rw [Array.getElem?_toList, hget, start, Array.getElem?_replicate, List.getElem?_map]
  split
  · next hk =>
    rw [List.getElem?_range hk]
    exact congrArg some (zero_add _)
  · next hk =>
    rw [List.getElem?_eq_none (by rw [List.length_range]; exact Nat.not_lt.1 hk)]
    rfl

theorem exists_ofTokens (hstart : (start map? contexts split).Consistent)
    (hlt : ∀ token ∈ tokens, token.context < (start map? contexts split).contexts) :
    ∃ histograms, ofTokens map? contexts split tokens = .ok histograms := by
  obtain ⟨t, hrun⟩ := hstart.exists_addTokens hlt
  exact ⟨t.histograms, by rw [ofTokens, hrun]⟩

/-- A histogram that counts nothing has no storage. -/
theorem eq_zero_of_isEmpty (h : ofTokens map? contexts split tokens = .ok histograms) :
    ∀ hist ∈ histograms.toList, hist.isEmpty → hist = 0 := by
  rw [toList_ofTokens h]
  intro hist hmem
  obtain ⟨k, -, rfl⟩ := List.mem_map.1 hmem
  refine Histogram.sum_eq_zero_of_isEmpty fun part hpart hempty ↦ ?_
  obtain ⟨token, -, rfl⟩ := List.mem_map.1 hpart
  unfold share at hempty ⊢
  split at hempty
  · rw [Histogram.isEmpty_single] at hempty
    cases hempty
  · next hroutes => exact if_neg hroutes

end

section

variable {contexts : Nat} {split : TokenSplit} {tokens : List Token}
  (hlt : ∀ token ∈ tokens, token.context < contexts)
include hlt

theorem exists_ofTokens_none (split : TokenSplit) :
    ∃ raw, ofTokens none contexts split tokens = .ok raw := by
  have hcontexts : (start none contexts split).contexts = contexts := Array.size_replicate
  exact exists_ofTokens (consistent_start_none contexts split) (hcontexts.symm ▸ hlt)

/-- Counting through a map gives the sums of the raw histograms, cluster by cluster. -/
theorem ofTokens_some {map : ContextMap} (hmap : map.Obtainable) (hcontexts : map.contexts = contexts)
    {raw : Array Histogram} (hraw : ofTokens none contexts split tokens = .ok raw) :
    ofTokens (some map) contexts split tokens = .ok (map.merge raw.toList) := by
  have hrange : ∀ token ∈ tokens, token.context < (start (some map) contexts split).contexts :=
    hcontexts.symm ▸ hlt
  obtain ⟨routed, hrouted⟩ := exists_ofTokens (consistent_start_some hmap contexts split) hrange
  rw [hrouted, ContextMap.merge, toList_ofTokens hraw]
  refine congrArg Except.ok (Array.toList_inj.1 ((toList_ofTokens hrouted).trans ?_))
  refine List.map_congr_left fun k _ ↦ ?_
  -- a token reaches cluster `k` from one context only, its own, and does so if that is sent there
  have hkeys : ((List.range contexts).filter (map.sends k)).Nodup := List.nodup_range.filter _
  have hmem : ∀ token ∈ tokens, token.context ∈ (List.range contexts).filter (map.sends k) ↔
      map.sends k token.context := by
    intro token htoken
    rw [List.mem_filter, List.mem_range, and_iff_right (hlt token htoken)]
  rw [ContextMap.members_map_range]
  simp only [share_start_none, Option.elim_none]
  rw [sum_map_sum_fiber tokens Token.context _ hkeys]
  refine congrArg List.sum (List.map_congr_left fun token htoken ↦ ?_)
  exact if_congr (hmem token htoken).symm rfl rfl

/-- Counting through the map that clustering gives for the raw histograms gives the clusters. -/
theorem ofTokens_clusterHistograms {cost : CostEstimate} {budget : Nat} {map : ContextMap}
    {raw clusters : Array Histogram} (hraw : ofTokens none contexts split tokens = .ok raw)
    (hgrowth : maxClusters < contexts → Clustering.GrowthBounded cost budget raw.toList)
    (h : clusterHistograms cost budget raw.toList = .ok (map, clusters)) :
    ofTokens (some map) contexts split tokens = .ok clusters := by
  have hlength : raw.toList.length = contexts := size_ofTokens hraw
  rw [← hlength] at hgrowth
  obtain ⟨hbudget, rfl, rfl⟩ := clusterHistograms_eq_ok_iff.1 h
  obtain ⟨hleast, hmax⟩ := isClusterBudget_iff.1 hbudget
  have hclustering := isClustering_ofHistograms (by decide) (Nat.le_refl maxClusters)
    (Clustering.staysWithin_maxClusters hleast hmax hgrowth)
  rw [ofTokens_some hlt (.clustering hgrowth h) (hclustering.contexts_eq.trans hlength) hraw]
  refine congrArg Except.ok (Array.toList_inj.1 ?_)
  rw [hclustering.toList_eq]
  refine List.map_congr_left fun k _ ↦ (Histogram.sum_filter_isEmpty fun hist hmem ↦ ?_).symm
  exact eq_zero_of_isEmpty hraw hist (ContextMap.mem_of_mem_members hmem)

end

/-- If all contexts are in range, counting through a map gives what counting per context gives, merged
cluster by cluster, and counting through the map that clustering gives for the raw histograms gives the
clusters.  If a context is out of range, counting stops at the first such token, and what has been
counted are the tokens before it. -/
theorem ofTokens_agree (contexts : Nat) (split : TokenSplit) (tokens : List Token) :
    ((∀ token ∈ tokens, token.context < contexts) →
      ∃ raw, ofTokens none contexts split tokens = .ok raw ∧
        (∀ map : ContextMap, map.Obtainable → map.contexts = contexts →
          ofTokens (some map) contexts split tokens = .ok (map.merge raw.toList)) ∧
        ∀ (cost : CostEstimate) (budget : Nat) (map : ContextMap) (clusters : Array Histogram),
          (maxClusters < contexts → Clustering.GrowthBounded cost budget raw.toList) →
          clusterHistograms cost budget raw.toList = .ok (map, clusters) →
            ofTokens (some map) contexts split tokens = .ok clusters) ∧
    ∀ t : Tally, t.Consistent → (∃ token ∈ tokens, t.contexts ≤ token.context) →
      ∃ before bad after t', tokens = before ++ bad :: after ∧
        (∀ token ∈ before, token.context < t.contexts) ∧ t.contexts ≤ bad.context ∧
          addTokens before t = .ok () t' ∧
            addTokens tokens t = .error (.contextOutOfRange bad.context t.contexts) t' := by
  refine ⟨fun hlt ↦ ?_, fun t ht hbad ↦ ht.exists_first_of_addTokens hbad⟩
  obtain ⟨raw, hraw⟩ := exists_ofTokens_none hlt split
  exact ⟨raw, hraw, fun map hmap hcontexts ↦ ofTokens_some hlt hmap hcontexts hraw,
    fun cost budget map clusters hgrowth h ↦ ofTokens_clusterHistograms hlt hraw hgrowth h⟩

/-- Three contexts, counted through a map in which two of them share a cluster and through the one that
clustering gives; and a token with a context out of range behind one that is counted. -/
theorem ofTokens_agree_three :
    (∃ raw, ofTokens none 3 default [⟨0, 5⟩, ⟨2, 900⟩, ⟨1, 7⟩] = .ok raw ∧
      ofTokens (some (.ofEntries #[0, 1, 0])) 3 default [⟨0, 5⟩, ⟨2, 900⟩, ⟨1, 7⟩] =
        .ok ((ContextMap.ofEntries #[0, 1, 0]).merge raw.toList) ∧
      ∃ map clusters, clusterHistograms headerCost 1 raw.toList = .ok (map, clusters) ∧
        ofTokens (some map) 3 default [⟨0, 5⟩, ⟨2, 900⟩, ⟨1, 7⟩] = .ok clusters) ∧
    ∃ before bad after t', [⟨0, 5⟩, ⟨3, 900⟩, ⟨1, 7⟩] = before ++ bad :: after ∧
      (∀ token ∈ before, token.context < 3) ∧ 3 ≤ bad.context ∧
        addTokens before (start (some (.ofEntries #[0, 1, 0])) 3 default) = .ok () t' ∧
          addTokens [⟨0, 5⟩, ⟨3, 900⟩, ⟨1, 7⟩] (start (some (.ofEntries #[0, 1, 0])) 3 default) =
            .error (.contextOutOfRange bad.context 3) t' := by
  obtain ⟨raw, hraw, hmap, hclusters⟩ :=
    (ofTokens_agree 3 default [⟨0, 5⟩, ⟨2, 900⟩, ⟨1, 7⟩]).1 (by decide)
  have hfew : ¬ maxClusters < 3 := by decide
  have hmap' : (ContextMap.ofEntries #[0, 1, 0]).Obtainable := .ofEntries _
  have hconsistent := consistent_start_some hmap' 3 default
  have hbad : ∃ token ∈ [Token.mk 0 5, ⟨3, 900⟩, ⟨1, 7⟩],
      (start (some (.ofEntries #[0, 1, 0])) 3 default).contexts ≤ token.context := by decide
  exact ⟨⟨raw, hraw, hmap _ hmap' rfl, _, _, rfl,
      hclusters headerCost 1 _ _ (fun hmany ↦ absurd hmany hfew) rfl⟩,
    (ofTokens_agree 3 default [⟨0, 5⟩, ⟨3, 900⟩, ⟨1, 7⟩]).2 _ hconsistent hbad⟩

end Tally

end EntropyCoding
