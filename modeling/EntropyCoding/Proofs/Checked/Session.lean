import EntropyCoding.Proofs.Checked.Decode
import EntropyCoding.Proofs.Checked.Models
import EntropyCoding.Proofs.Segment.Session

/-!
# Checked sessions

A session on arbitrary bytes, with checked operations from the first bit of the map to the last call.
A model keeps its family, and a decoder has a range decoder or has none; a model of the wrong family is
a fault.

The session does what it does without the checks, `Checked.agrees_session`, so it has no fault: no
index is beyond its array, no difference below zero, no number too large for its width, no shift too
wide, no loop endless, no model of the wrong family, and there are no 15 bits without a codeword.  What
changes from call to call is the state and the position, and `Checked.Bounded` holds of them also after
a call that has failed.
-/

namespace EntropyCoding

namespace Checked

/-! ## Attempts -/

section

variable {σ α β : Type} {I : σ → Prop}

/-- The action made to succeed with its result or its error, but not if it has a fault. -/
def attempt (action : Checked σ α) : Checked σ (Except Error α) := fun s ↦
  match action s with
  | .ok a s' => .ok (.ok a) s'
  | .error (.error e) s' => .ok (.error e) s'
  | .error (.fault f) s' => .error (.fault f) s'

/-- An attempt at actions that agree leaves the invariant whether or not they fail. -/
theorem Agrees.attempt {x' : Checked σ α} {x : EStateM Error σ α} (h : Agrees I x' x) :
    Agrees I (attempt x') (EntropyCoding.attempt x) := by
  intro s hs
  have hx := h hs
  cases hrun : x s with
  | ok a s₁ =>
    have hattempt : EntropyCoding.attempt x s = .ok (.ok a) s₁ := by
      rw [EntropyCoding.attempt, hrun]
    refine agreesAt_of_ok ?_ hattempt (hx.of_ok hrun)
    rw [Checked.attempt, hx.eq, embed_of_ok hrun]
  | error e s₁ =>
    have hattempt : EntropyCoding.attempt x s = .ok (.error e) s₁ := by
      rw [EntropyCoding.attempt, hrun]
    refine agreesAt_of_ok ?_ hattempt (hx.of_error hrun)
    rw [Checked.attempt, hx.eq, embed_of_error hrun]

theorem agrees_mapM {f' : α → Checked σ β} {f : α → EStateM Error σ β}
    (h : ∀ a, Agrees I (f' a) (f a)) (as : List α) : Agrees I (as.mapM f') (as.mapM f) := by
  induction as with
  | nil => exact agrees_pure []
  | cons a as ih =>
    rw [List.mapM_cons, List.mapM_cons]
    exact (h a).bind fun b _ _ _ _ ↦ ih.bind fun bs _ _ _ _ ↦ agrees_pure (b :: bs)

end

/-! ## Decoders -/

/-- A model in the form a reader needs, of either family. -/
inductive DecodingModel
  /-- A distribution for range coding. -/
  | ans (table : AnsTable)
  /-- The decoder of a prefix code. -/
  | prefixCode (decoder : PrefixDecoder)

/-- What a reader of tokens has to know. -/
structure Decoder where
  /-- The map of contexts. -/
  map : ContextMap
  /-- How values are split. -/
  split : TokenSplit
  /-- The models, each with its family. -/
  models : Array DecodingModel
  /-- Whether there is a range decoder. -/
  ranged : Bool

namespace Decoder

def ofSegment (d : EntropyCoding.Decoder) : Decoder where
  map := d.map
  split := d.split
  models := match d.table with
    | .ans tables => tables.map .ans
    | .prefixCodes decoders => decoders.map .prefixCode
  ranged := match d.table with
    | .ans _ => true
    | .prefixCodes _ => false

variable (d : Decoder)

def readCoded (cluster : Nat) : Checked Cursor Nat := do
  match ← item d.models cluster, d.ranged with
  | .ans table, true => popSymbol table
  | .prefixCode decoder, false => lift (readSymbol decoder)
  | _, _ => fault .familyMismatch

/-- Reads the next value, which is in the given context. -/
def readValue (context : Nat) : Checked Cursor Nat := do
  let cluster ← embedExcept (d.map.cluster context)
  let token ← fit 32 (← d.readCoded cluster)
  let width ← extraWidth d.split token
  if 32 < width then throw (.error (.invalidStream .valueTooWide))
  let bits ← lift (read width)
  join d.split token bits

/-- Fails unless a segment that is read to the end has left the state it must leave. -/
def finish (state : Nat) : Except Error Unit :=
  if d.ranged then checkFinalState state else .ok ()

end Decoder

def decodingModel : Model → Except Stop DecodingModel
  | .ans table => .ok (.ans table)
  | .prefixCode code => do .ok (.prefixCode (← ofCode code))

def decodingModels (models : Array Model) : Except Stop (Array DecodingModel) := do
  .ok (← models.toList.mapM decodingModel).toArray

def start (map : ContextMap) (models : Models) : Checked BitReader (Decoder × Nat) := do
  require (map.clusters ≤ models.models.size) .missingModel
  let decoding ← decodingModels models.models
  let state ← if models.usesPrefixCodes then pure initialState else readState
  return ({ map, split := models.split, models := decoding, ranged := !models.usesPrefixCodes }, state)

def readDecoder (contexts : Nat) : Checked BitReader (Decoder × Nat) := do
  let map ← readMap contexts
  let models ← readModels map.clusters
  start map models

/-- Makes a decoder, reads a value in each of the contexts `calls`, whether or not those before it
could be read, and ends. -/
def session (contexts : Nat) (calls : List Nat) :
    Checked BitReader (List (Except Error Nat) × Except Error Unit) := do
  let (decoder, state) ← readDecoder contexts
  let (results, state) ← runFrom state (calls.mapM fun context ↦ attempt (decoder.readValue context))
  return (results, decoder.finish state)

/-! ## Agreement -/

theorem size_ofSegment (models : SegmentModels) :
    (Models.ofSegment models).models.size = models.table.size := by
  obtain ⟨precision, split, table⟩ := models
  cases table with
  | ans tables => exact Array.size_map
  | prefixCodes codes => exact Array.size_map

/-- Valid models are brought into the form a reader needs. -/
theorem decodingModels_eq (map : ContextMap) {models : SegmentModels} (hv : models.table.Valid) :
    decodingModels (Models.ofSegment models).models =
      .ok (Decoder.ofSegment (.ofModels map models)).models := by
  obtain ⟨precision, split, table⟩ := models
  cases table with
  | ans tables =>
    have hlist : ((tables.map Model.ans).toList.mapM decodingModel) =
        .ok (tables.toList.map DecodingModel.ans) := by
      rw [Array.toList_map, List.mapM_map]
      exact mapM_eq_ok fun _ _ ↦ rfl
    refine (bind_of_eq_ok hlist _).trans (congrArg Except.ok ?_)
    rw [← List.map_toArray, Array.toArray_toList]
    rfl
  | prefixCodes codes =>
    have hlist : ((codes.map Model.prefixCode).toList.mapM decodingModel) =
        .ok (codes.toList.map fun c ↦ DecodingModel.prefixCode (.ofCode c)) := by
      rw [Array.toList_map, List.mapM_map]
      refine mapM_eq_ok fun c hc ↦ ?_
      exact bind_of_eq_ok (ofCode_eq (hv c (Array.mem_toList_iff.1 hc))) _
    refine (bind_of_eq_ok hlist _).trans (congrArg Except.ok ?_)
    rw [← List.map_toArray, Array.toArray_toList]
    exact Array.map_map.symm

/-- The decoder at the start of a payload. -/
theorem agrees_start (map : ContextMap) {models : SegmentModels} (hv : models.table.Valid) :
    Agrees BitReader.Inside (start map (.ofSegment models))
      ((fun p ↦ (Decoder.ofSegment p.1, p.2)) <$> EntropyCoding.Decoder.start map models) := by
  have hfits : decide (map.clusters ≤ (Models.ofSegment models).models.size) =
      decide (map.clusters ≤ models.table.size) :=
    decide_eq_decide.2 (size_ofSegment models ▸ Iff.rfl)
  rw [start, EntropyCoding.Decoder.start, map_bind, hfits]
  refine agrees_require fun _ ↦ .step (decodingModels_eq map hv) ?_
  obtain ⟨precision, split, table⟩ := models
  cases table with
  | ans tables =>
    rw [map_bind]
    exact agrees_readState.bind fun state _ _ _ _ ↦ agrees_pure _
  | prefixCodes codes => exact agrees_pure _

theorem agrees_readDecoder (contexts : Nat) :
    Agrees BitReader.Inside (readDecoder contexts)
      ((fun p ↦ (Decoder.ofSegment p.1, p.2)) <$> EntropyCoding.Decoder.read contexts) := by
  rw [EntropyCoding.Decoder.read, map_bind]
  refine (agrees_readMap contexts).bind fun map _ _ _ _ ↦ ?_
  rw [map_bind]
  exact (agrees_readModels map.clusters).bind_map fun models _ _ _ hmodels ↦
    agrees_start map (valid_of_readModels hmodels)

section

variable {d : EntropyCoding.Decoder} {contexts : Nat} (hd : d.Sound contexts)
include hd

/-- A token is read with a model that is there, and of the right family. -/
theorem agrees_readCoded {cluster : Nat} (h : cluster < d.table.size) :
    Agrees Bounded ((Decoder.ofSegment d).readCoded cluster) (d.readCoded cluster) := by
  have hvalid := hd.valid
  obtain ⟨map, split, table⟩ := d
  cases table with
  | ans tables =>
    have hget : tables[cluster]? = some tables[cluster] := Array.getElem?_eq_getElem h
    have hitem : item (tables.map DecodingModel.ans) cluster = .ok (.ans tables[cluster]) :=
      item_eq_ok (by rw [Array.getElem?_map, hget]; rfl)
    dsimp only [EntropyCoding.Decoder.readCoded]
    rw [hget]
    exact .step hitem (agrees_popSymbol (hvalid _ (Array.getElem_mem h)))
  | prefixCodes decoders =>
    have hget : decoders[cluster]? = some decoders[cluster] := Array.getElem?_eq_getElem h
    have hitem : item (decoders.map DecodingModel.prefixCode) cluster =
        .ok (.prefixCode decoders[cluster]) :=
      item_eq_ok (by rw [Array.getElem?_map, hget]; rfl)
    obtain ⟨c, hc, hdecoder⟩ := hvalid _ (Array.getElem_mem h)
    dsimp only [EntropyCoding.Decoder.readCoded]
    rw [hget]
    refine .step hitem ?_
    rw [hdecoder]
    exact agrees_lift (agrees_readSymbol hc)

/-- A value, in whatever context. -/
theorem agrees_readValue (context : Nat) :
    Agrees Bounded ((Decoder.ofSegment d).readValue context) (d.readValue context) := by
  refine (agrees_liftM rfl).bind fun cluster c _ hc hcluster ↦ ?_
  have hlt := hd.cluster_lt (ofExcept_eq_ok_iff.1 hcluster).1
  refine (agrees_readCoded hd hlt).bind fun token c _ hc htoken ↦ ?_
  have htoken := Nat.lt_trans (hd.lt_of_readCoded hc.inside htoken) (by decide : 2 ^ 16 < 2 ^ 32)
  refine .step (fit_eq_ok htoken) (.step (extraWidth_eq _ htoken) ?_)
  rw [show (Decoder.ofSegment d).split = d.split from rfl]
  by_cases hwidth : 32 < d.split.extraWidth token
  · rw [if_pos hwidth]
    dsimp only
    rw [if_pos hwidth]
    exact (agrees_throw _).bind fun _ _ _ _ h ↦ nomatch h
  · rw [if_neg hwidth]
    dsimp only
    rw [if_neg hwidth]
    refine (agrees_lift (agrees_read (Nat.not_lt.1 hwidth))).bind fun bits _ _ _ _ ↦ ?_
    exact agrees_liftM (join_eq _ htoken bits)

end

/-- The end of a segment is checked if there is a range decoder. -/
theorem finish_ofSegment (d : EntropyCoding.Decoder) (state : Nat) :
    (Decoder.ofSegment d).finish state = d.finish state := by
  obtain ⟨map, split, table⟩ := d
  cases table with
  | ans tables => rfl
  | prefixCodes decoders => rfl

/-- A session does what it does without the checks. -/
theorem agrees_session (contexts : Nat) (calls : List Nat) :
    Agrees BitReader.Inside (session contexts calls)
      (EntropyCoding.Decoder.session contexts calls) := by
  refine (agrees_readDecoder contexts).bind_map fun ⟨d, state⟩ _ _ _ hread ↦ ?_
  obtain ⟨hd, hstate⟩ := Decoder.sound_of_read hread
  have hcalls := agrees_mapM (fun context ↦ (agrees_readValue hd context).attempt) calls
  refine (agrees_runFrom hcalls hstate).bind fun ⟨results, state⟩ _ _ _ _ ↦ ?_
  dsimp only
  rw [finish_ofSegment]
  exact agrees_pure _

/-- On arbitrary bytes a session has no fault, and it does what it does without the checks.  Each of its
calls gives a value of 32 bits or an error, and in a context in range the error is not that the context
is out of range. -/
theorem session_safe (data : Array UInt8) (contexts : Nat) (calls : List Nat) :
    (∀ f r, session contexts calls (.ofBytes data) ≠ .error (.fault f) r) ∧
      session contexts calls (.ofBytes data) =
        embed (EntropyCoding.Decoder.session contexts calls) (.ofBytes data) ∧
      ∀ results finished r,
        EntropyCoding.Decoder.session contexts calls (.ofBytes data) = .ok (results, finished) r →
          results.length = calls.length ∧ ∀ p ∈ calls.zip results,
            (∀ v, p.2 = .ok v → v < 2 ^ 32) ∧
              (p.1 < contexts → ∀ context bound, p.2 ≠ .error (.contextOutOfRange context bound)) := by
  have hagrees := agrees_session contexts calls (s := .ofBytes data) (Nat.zero_le _)
  refine ⟨fun f r hfault ↦ ?_, hagrees.eq, fun results finished r h ↦ ?_⟩
  · rw [hagrees.eq, embed] at hfault
    split at hfault <;> cases hfault
  · obtain ⟨⟨d, state⟩, _, hread, h⟩ := bind_eq_ok_iff.1 h
    obtain ⟨⟨results, state⟩, _, hrun, h⟩ := bind_eq_ok_iff.1 h
    obtain ⟨⟨⟩, -⟩ := pure_eq_ok_iff.1 h
    have hd := (Decoder.sound_of_read hread).1
    have hcall : ∀ ⦃context c result c'⦄,
        EntropyCoding.attempt (d.readValue context) c = .ok result c' →
          (∀ v, result = .ok v → v < 2 ^ 32) ∧
            (context < contexts → ∀ other bound, result ≠ .error (.contextOutOfRange other bound)) := by
      intro context c result c' hattempt
      rcases attempt_eq_ok_iff.1 hattempt with ⟨v, rfl, hok⟩ | ⟨e, rfl, herror⟩
      · constructor
        · rintro _ ⟨⟩
          exact Decoder.lt_of_readValue hok
        · rintro - _ _ ⟨⟩
      · constructor
        · rintro _ ⟨⟩
        · rintro hcontext _ _ ⟨⟩
          cases hd.failsWith_readValue hcontext herror
    exact Decoder.forall_mem_of_readEach hcall (Decode.runFrom_eq_ok_iff.1 hrun)

/-- A session that goes on after a call in a context that there is not. -/
theorem session_safe_three : ∃ results finished r,
    EntropyCoding.Decoder.session 1 [0, 5, 0] (.ofBytes #[0x10, 0x10, 0]) =
        .ok (results, finished) r ∧
      results = [.ok 0, .error (.contextOutOfRange 5 1), .ok 0] ∧ results.length = 3 := by
  let d : EntropyCoding.Decoder :=
    ⟨⟨#[0], 1⟩, ⟨0, 0, 0, by decide, by decide⟩, .prefixCodes #[.ofCode (.canonical [0])]⟩
  -- The map takes four bits, and the header with a code for the symbol zero alone fifteen.
  have hmap : ContextMap.read 1 (.ofBytes #[0x10, 0x10, 0]) =
      .ok ⟨#[0], 1⟩ ⟨#[0x10, 0x10, 0], 4⟩ := rfl
  have hmodels : EntropyCoding.readModels 1 ⟨#[0x10, 0x10, 0], 4⟩ =
      .ok ⟨5, d.split, .prefixCodes #[.canonical [0]]⟩ ⟨#[0x10, 0x10, 0], 19⟩ := rfl
  have hstart : EntropyCoding.Decoder.start d.map ⟨5, d.split, .prefixCodes #[.canonical [0]]⟩
      ⟨#[0x10, 0x10, 0], 19⟩ = .ok (d, initialState) ⟨#[0x10, 0x10, 0], 19⟩ := by
    rw [show d = .ofModels d.map ⟨5, d.split, .prefixCodes #[.canonical [0]]⟩ by
      simp [EntropyCoding.Decoder.ofModels, d]]
    rfl
  have hread : EntropyCoding.Decoder.read 1 (.ofBytes #[0x10, 0x10, 0]) =
      .ok (d, initialState) ⟨#[0x10, 0x10, 0], 19⟩ :=
    bind_eq_ok_iff.2 ⟨_, _, hmap, bind_eq_ok_iff.2 ⟨_, _, hmodels, hstart⟩⟩
  have hrun : Decode.runFrom initialState (d.readEach [0, 5, 0]) ⟨#[0x10, 0x10, 0], 19⟩ =
      .ok ([.ok 0, .error (.contextOutOfRange 5 1), .ok 0], initialState)
        ⟨#[0x10, 0x10, 0], 19⟩ := rfl
  have h : EntropyCoding.Decoder.session 1 [0, 5, 0] (.ofBytes #[0x10, 0x10, 0]) =
      .ok ([.ok 0, .error (.contextOutOfRange 5 1), .ok 0], .ok ()) ⟨#[0x10, 0x10, 0], 19⟩ :=
    bind_eq_ok_iff.2 ⟨_, _, hread, bind_eq_ok_iff.2 ⟨_, _, hrun, rfl⟩⟩
  exact ⟨_, _, _, h, rfl, ((session_safe _ 1 [0, 5, 0]).2.2 _ _ _ h).1⟩

end Checked

end EntropyCoding
