import EntropyCoding.Histogram.Tally
import EntropyCoding.Proofs.Action
import EntropyCoding.Proofs.Context.Map
import EntropyCoding.Proofs.Histogram.Counts

/-!
# The histograms of a tally

Counting a token adds its symbol to one histogram, `addToken_eq_ok_iff`, or changes nothing if its
context is out of range, `addToken_of_le`.  Counting changes histograms but not how many there are:
`size_ofTokens`.  In the end every token has been counted in the histogram of its context,
`counted_ofTokens`.

Without a map counting fails only for a context out of range, `exists_of_ofTokens_eq_error`, and
does not succeed if there is one, `context_lt_of_ofTokens`.
-/

namespace EntropyCoding

namespace Tally

/-- What counting a token does. -/
theorem addToken_eq_ok_iff {token : Token} {t t' : Tally} :
    addToken token t = .ok () t' ↔
      ∃ slot, t.slot token.context = .ok slot ∧ slot < t.histograms.size ∧
        t' = { t with
          histograms := t.histograms.modify slot (·.add (t.split.split token.value).token) } := by
  unfold addToken
  cases t.slot token.context with
  | error e =>
    constructor
    · intro h
      cases h
    · rintro ⟨_, h, -⟩
      cases h
  | ok slot =>
    dsimp only
    unfold addSymbol
    constructor
    · intro h
      split at h
      · next hlt =>
        cases h
        exact ⟨slot, rfl, hlt, rfl⟩
      · cases h
    · rintro ⟨_, ⟨⟩, hlt, rfl⟩
      rw [if_pos hlt]

def contexts (t : Tally) : Nat :=
  t.map?.elim t.histograms.size ContextMap.contexts

/-- A token is refused if its context is out of range. -/
theorem addToken_of_le {token : Token} {t : Tally} (hle : t.contexts ≤ token.context) :
    addToken token t = .error (.contextOutOfRange token.context t.contexts) t := by
  unfold addToken slot
  unfold contexts at hle ⊢
  cases hmap : t.map? with
  | none =>
    rw [hmap] at hle
    exact if_neg (Nat.not_lt.2 hle)
  | some map =>
    rw [hmap] at hle
    dsimp only
    rw [map.cluster_of_le hle]
    rfl

/-- Counting tokens changes nothing but the histograms, and keeps their number. -/
theorem frame_of_addTokens {tokens : List Token} {t t' : Tally}
    (h : addTokens tokens t = .ok () t') :
    t'.map? = t.map? ∧ t'.split = t.split ∧ t'.histograms.size = t.histograms.size := by
  induction tokens generalizing t with
  | nil =>
    obtain ⟨-, rfl⟩ := pure_eq_ok_iff.1 h
    exact ⟨rfl, rfl, rfl⟩
  | cons token tokens ih =>
    obtain ⟨t₁, hone, h⟩ := forM_cons_eq_ok_iff.1 h
    obtain ⟨slot, -, -, rfl⟩ := addToken_eq_ok_iff.1 hone
    obtain ⟨hmap, hsplit, hsize⟩ := ih h
    exact ⟨hmap, hsplit, hsize.trans Array.size_modify⟩

section

variable {map? : Option ContextMap} {contexts : Nat} {split : TokenSplit} {tokens : List Token}
  {histograms : Array Histogram}

/-- The histograms are those of the tally that has counted the tokens. -/
theorem ofTokens_eq_ok_iff : ofTokens map? contexts split tokens = .ok histograms ↔
    addTokens tokens (start map? contexts split) = .ok () ⟨map?, split, histograms⟩ := by
  unfold ofTokens
  cases h : addTokens tokens (start map? contexts split) with
  | error e t =>
    constructor
    · intro h
      cases h
    · intro h
      cases h
  | ok _ t =>
    obtain ⟨hmap, hsplit, -⟩ := frame_of_addTokens h
    obtain ⟨map?', split', histograms'⟩ := t
    obtain rfl : map?' = map? := hmap
    obtain rfl : split' = split := hsplit
    constructor
    · rintro ⟨⟩
      rfl
    · rintro ⟨⟩
      rfl

/-- There is one histogram per cluster if there is a map, else one per context. -/
theorem size_ofTokens (h : ofTokens map? contexts split tokens = .ok histograms) :
    histograms.size = map?.elim contexts ContextMap.clusters :=
  (frame_of_addTokens (ofTokens_eq_ok_iff.1 h)).2.2.trans Array.size_replicate

end

/-! ## Tokens that have been counted -/

/-- The histogram of the context of a token counts its symbol. -/
def Counted (t : Tally) (token : Token) : Prop :=
  ∃ slot h, t.slot token.context = .ok slot ∧ t.histograms[slot]? = some h ∧
    h.Counts (t.split.split token.value).token

theorem counted_of_addToken {token : Token} {t t' : Tally} (h : addToken token t = .ok () t') :
    t'.Counted token := by
  obtain ⟨slot, hslot, hlt, rfl⟩ := addToken_eq_ok_iff.1 h
  refine ⟨slot, _, hslot, ?_, .add_self t.histograms[slot] _⟩
  rw [Array.getElem?_modify, if_pos rfl, Array.getElem?_eq_getElem hlt]
  rfl

/-- A token stays counted when another one is added. -/
theorem Counted.of_addToken {token token' : Token} {t t' : Tally} (hc : t.Counted token)
    (h : addToken token' t = .ok () t') : t'.Counted token := by
  obtain ⟨slot, hist, hslot, hget, hcounts⟩ := hc
  obtain ⟨slot', -, -, rfl⟩ := addToken_eq_ok_iff.1 h
  by_cases hsame : slot' = slot
  · refine ⟨slot, _, hslot, ?_, hcounts.add (t.split.split token'.value).token⟩
    rw [Array.getElem?_modify, if_pos hsame, hget]
    rfl
  · refine ⟨slot, hist, hslot, ?_, hcounts⟩
    rw [Array.getElem?_modify, if_neg hsame, hget]

/-- A token stays counted when others are added. -/
theorem Counted.of_addTokens {token : Token} {tokens : List Token} {t t' : Tally}
    (hc : t.Counted token) (h : addTokens tokens t = .ok () t') : t'.Counted token := by
  induction tokens generalizing t with
  | nil =>
    obtain ⟨-, rfl⟩ := pure_eq_ok_iff.1 h
    exact hc
  | cons token' tokens ih =>
    obtain ⟨t₁, hone, h⟩ := forM_cons_eq_ok_iff.1 h
    exact ih (hc.of_addToken hone) h

/-- All tokens that are added are counted. -/
theorem counted_of_addTokens {tokens : List Token} {t t' : Tally}
    (h : addTokens tokens t = .ok () t') : ∀ token ∈ tokens, t'.Counted token := by
  induction tokens generalizing t with
  | nil => nofun
  | cons token tokens ih =>
    obtain ⟨t₁, hone, h⟩ := forM_cons_eq_ok_iff.1 h
    exact List.forall_mem_cons.2 ⟨(counted_of_addToken hone).of_addTokens h, ih h⟩

/-! ## Without a map -/

section

variable {contexts : Nat} {split : TokenSplit} {tokens : List Token}

/-- Every token has been counted in the histogram of its context. -/
theorem counted_ofTokens {raw : Array Histogram}
    (h : ofTokens none contexts split tokens = .ok raw) :
    ∀ token ∈ tokens, ∃ hist, raw[token.context]? = some hist ∧
      hist.Counts (split.split token.value).token := by
  intro token hmem
  obtain ⟨_, hist, ⟨⟩, hget, hcounts⟩ := counted_of_addTokens (ofTokens_eq_ok_iff.1 h) token hmem
  exact ⟨hist, hget, hcounts⟩

/-- Counting succeeds only if all contexts are in range. -/
theorem context_lt_of_ofTokens {raw : Array Histogram}
    (h : ofTokens none contexts split tokens = .ok raw) :
    ∀ token ∈ tokens, token.context < contexts := by
  intro token hmem
  obtain ⟨hist, hget, -⟩ := counted_ofTokens h token hmem
  obtain ⟨hlt, -⟩ := Array.getElem?_eq_some_iff.1 hget
  exact Nat.lt_of_lt_of_eq hlt (size_ofTokens h)

/-- Counting into one histogram per context fails only for a context out of range. -/
theorem exists_of_addTokens_eq_error {t t' : Tally} {e : Error} (hmap : t.map? = none)
    (h : addTokens tokens t = .error e t') : ∃ token ∈ tokens,
      t.histograms.size ≤ token.context ∧
        e = .contextOutOfRange token.context t.histograms.size := by
  induction tokens generalizing t with
  | nil => cases h
  | cons token tokens ih =>
    replace h : (addToken token >>= fun _ ↦ addTokens tokens) t = .error e t' := h
    by_cases hlt : token.context < t.histograms.size
    · have hslot : t.slot token.context = .ok token.context := by rw [slot, hmap]
      rw [bind_of_ok (addToken_eq_ok_iff.2 ⟨_, hslot, hlt, rfl⟩)] at h
      have herror := ih (by exact hmap) h
      rw [Array.size_modify] at herror
      obtain ⟨token', hmem, hle, rfl⟩ := herror
      exact ⟨token', List.mem_cons_of_mem _ hmem, hle, rfl⟩
    · have hcontexts : t.contexts = t.histograms.size := by
        rw [contexts, hmap]
        rfl
      have hle : t.histograms.size ≤ token.context := Nat.not_lt.1 hlt
      rw [bind_of_error (addToken_of_le (hcontexts ▸ hle)), hcontexts] at h
      cases h
      exact ⟨token, List.mem_cons_self, hle, rfl⟩

/-- Without histograms there is a context out of range. -/
theorem exists_of_ofTokens_eq_error {e : Error}
    (h : ofTokens none contexts split tokens = .error e) :
    ∃ token ∈ tokens, contexts ≤ token.context ∧ e = .contextOutOfRange token.context contexts := by
  unfold ofTokens at h
  split at h
  · cases h
  · next e' t herror =>
    cases h
    have hsize : (start none contexts split).histograms.size = contexts := Array.size_replicate
    rw [← hsize]
    exact exists_of_addTokens_eq_error rfl herror

end

end Tally

end EntropyCoding
