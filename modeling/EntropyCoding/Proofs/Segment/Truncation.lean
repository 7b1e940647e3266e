import EntropyCoding.Proofs.Bits.Truncation
import EntropyCoding.Proofs.Segment.RoundTrip

/-!
# Truncated segments

A decoder notices missing bits, wherever they are missing: in the map, in the header, in a model, in
the state, in a chunk or in extra bits, `notices_decodeTokens`.  A segment that has been written is
decoded to its last bit, so what is decoded from fewer bytes is the same up to the first missing bit
and ends there: `decodeTokens_truncate_eq_unexpectedEof`.
-/

namespace EntropyCoding

open BitRead

/-! ## Models -/

theorem notices_readSymbolId : Notices readSymbolId :=
  notices_readWord.bind fun _ ↦ (notices_require _ _).bind fun _ ↦ notices_pure _

theorem notices_readAlphabetSize (fault : StreamFault) : Notices (readAlphabetSize fault) :=
  notices_readWord.bind fun _ ↦ (notices_require _ _).bind fun _ ↦ notices_pure _

/-- A frequency or a run. -/
theorem notices_readRepeated (precision left : Nat) (last? : Option Nat) (len : Nat) :
    Notices (readRepeated precision left last? len) := by
  unfold readRepeated
  split
  · split
    · exact notices_reject _
    · exact notices_readWord.bind fun _ ↦ (notices_require _ _).bind fun _ ↦ notices_pure _
  · exact (notices_require _ _).bind fun _ ↦
      (notices_readBelowTop _).bind fun _ ↦ notices_pure _

/-- The frequencies of a distribution.  A run may be empty, so the induction is on the bits left. -/
theorem notices_readFrequencies (precision count : Nat) :
    Notices (readFrequencies precision count) := by
  have hafter : ∀ (size left : Nat) (done : List Nat) (r : BitReader), r.length - r.pos = size →
      NoticesAt (readFrequenciesAfter precision left done) r := by
    intro size
    induction size using Nat.strongRecOn with
    | ind size ih =>
      rintro left done r rfl
      by_cases hleft : left = 0
      · rw [hleft, readFrequenciesAfter_zero]
        exact notices_pure _ r
      · rw [readFrequenciesAfter_eq hleft]
        refine (notices_read _ r).bind fun len r₁ hlen ↦ ?_
        refine (notices_readRepeated _ _ _ _ r₁).bind fun ⟨run, f⟩ r₂ hrepeated ↦ ?_
        exact ih _ (bitsLeft_readRepeated_lt hlen hrepeated) _ _ _ rfl
  exact fun r ↦ hafter _ _ _ r rfl

/-- A distribution, in any of its forms. -/
theorem notices_readAnsTable (precision : Nat) : Notices (readAnsTable precision) := by
  have hbuild : ∀ freqs, Notices (ofExcept (AnsTable.ofFrequencies freqs precision)) :=
    fun freqs ↦ notices_ofExcept _
  refine notices_readBool.bind fun short ↦ ?_
  cases short with
  | true =>
    refine notices_readBool.bind fun pair ↦ ?_
    cases pair with
    | true =>
      refine notices_readSymbolId.bind fun first ↦ notices_readSymbolId.bind fun second ↦ ?_
      refine (notices_read precision).bind fun f ↦ (notices_require _ _).bind fun _ ↦ ?_
      exact hbuild _
    | false => exact (notices_readSymbolId.map _).bind hbuild
  | false =>
    refine (notices_readAlphabetSize _).bind fun size ↦ ?_
    refine (notices_readFrequencies precision _).bind fun freqs ↦ ?_
    exact (notices_require _ _).bind fun _ ↦ hbuild _

/-- A prefix code, in either of its forms. -/
theorem notices_readPrefixCode : Notices readPrefixCode := by
  have hbuild : ∀ depths, Notices (ofExcept (PrefixCode.ofDepths depths)) :=
    fun depths ↦ notices_ofExcept _
  refine notices_readBool.bind fun short ↦ ?_
  cases short with
  | true => exact (notices_readSymbolId.map _).bind hbuild
  | false =>
    refine (notices_readAlphabetSize _).bind fun size ↦ ?_
    exact (notices_many (notices_read 4) size).bind hbuild

/-! ## The header -/

theorem notices_readSplit : Notices TokenSplit.read := by
  refine (notices_read 4).bind fun exponent ↦ (notices_read _).bind fun high ↦ ?_
  refine (notices_require _ _).bind fun _ ↦ (notices_read _).bind fun low ↦ ?_
  split
  · exact notices_pure _
  · exact notices_reject _

theorem notices_readMap (contexts : Nat) : Notices (ContextMap.read contexts) := by
  refine (notices_read 4).bind fun width ↦ (notices_require _ _).bind fun _ ↦ ?_
  exact (notices_many (notices_read width) contexts).bind fun _ ↦ notices_pure _

theorem notices_readModels (count : Nat) : Notices (readModels count) := by
  refine notices_readBool.bind fun usesPrefixCodes ↦ (notices_read 3).bind fun precision ↦ ?_
  refine notices_readSplit.bind fun split ↦ ?_
  cases usesPrefixCodes with
  | true => exact (notices_many notices_readPrefixCode count).bind fun _ ↦ notices_pure _
  | false => exact (notices_many (notices_readAnsTable _) count).bind fun _ ↦ notices_pure _

theorem notices_readState : Notices readState := by
  refine (notices_read 32).bind fun state ↦ ?_
  split
  · exact notices_throw _
  · exact notices_pure _

theorem notices_start (map : ContextMap) (models : SegmentModels) :
    Notices (Decoder.start map models) := by
  obtain ⟨precision, split, table⟩ := models
  refine (notices_require _ _).bind fun _ ↦ ?_
  cases table with
  | ans tables => exact notices_readState.bind fun _ ↦ notices_pure _
  | prefixCodes codes => exact notices_pure _

/-- A codeword. -/
theorem notices_readSymbol (d : PrefixDecoder) : Notices d.readSymbol := by
  have hwalk : ∀ n depth code first index, Notices (d.walk n depth code first index) := by
    intro n
    induction n with
    | zero => exact fun _ _ _ _ ↦ notices_reject _
    | succ n ih =>
      intro depth code first index
      refine (notices_read 1).bind fun bit ↦ ?_
      dsimp only
      split
      · split
        · exact notices_pure _
        · exact notices_reject _
      · exact ih _ _ _ _
  unfold PrefixDecoder.readSymbol
  split
  · exact notices_pure _
  · exact hwalk _ _ _ _ _

/-! ## Decoding -/

namespace Decode

variable {α β : Type}

/-- From every state, on fewer bytes the action runs as it does on all of them, up to where bits are
missing. -/
def Notices (action : Decode α) : Prop :=
  ∀ s, BitRead.Notices (runFrom s action)

theorem notices_pure (a : α) : Notices (pure a) :=
  fun s ↦ BitRead.notices_pure (a, s)

theorem notices_throw (e : Error) : Notices (throw e : Decode α) :=
  fun _ ↦ BitRead.notices_throw e

/-- Decoding in steps is decoding from state to state. -/
theorem runFrom_bind (s : Nat) (x : Decode α) (f : α → Decode β) :
    runFrom s (x >>= f) = runFrom s x >>= fun p ↦ runFrom p.2 (f p.1) := by
  funext r
  cases h : x ⟨s, r⟩ with
  | ok a c =>
    have hx : runFrom s x r = .ok (a, c.state) c.reader := by rw [runFrom, h]
    rw [bind_of_ok hx, runFrom, bind_of_ok h]
    rfl
  | error e c =>
    have hx : runFrom s x r = .error e c.reader := by rw [runFrom, h]
    rw [bind_of_error hx, runFrom, bind_of_error h]

theorem Notices.bind {x : Decode α} {f : α → Decode β} (hx : Notices x)
    (hf : ∀ a, Notices (f a)) : Notices (x >>= f) :=
  fun s ↦ runFrom_bind s x f ▸ BitRead.Notices.bind (hx s) fun p ↦ hf p.1 p.2

theorem notices_ofExcept (x : Except Error α) : Notices (ofExcept x) := by
  cases x with
  | ok a => exact notices_pure a
  | error e => exact notices_throw e

/-- What is read leaves the state alone. -/
theorem notices_lift {action : BitRead α} (h : BitRead.Notices action) : Notices (lift action) := by
  intro s
  have heq : runFrom s (lift action) = (fun a ↦ (a, s)) <$> action := by
    funext r
    show _ = EStateM.map _ action r
    rw [runFrom, lift, EStateM.map]
    cases action r <;> rfl
  rw [heq]
  exact h.map _

theorem notices_modify (f : Nat → Nat) :
    Notices (modify fun c ↦ { c with state := f c.state } : Decode Unit) :=
  fun s ↦ BitRead.notices_pure ((), f s)

/-- The chunk that is due. -/
theorem notices_refill : Notices refill := by
  intro s
  by_cases hs : s < leastState
  · have heq : runFrom s refill = runFrom s (lift (BitRead.read 16) >>= fun chunk ↦
        modify fun c ↦ { c with state := c.state * 2 ^ 16 + chunk }) := by
      funext r
      rw [runFrom, refill_apply, if_pos hs]
      rfl
    rw [heq]
    refine (notices_lift (BitRead.notices_read 16)).bind (fun chunk ↦ ?_) s
    exact notices_modify fun state ↦ state * 2 ^ 16 + chunk
  · have heq : runFrom s refill = pure ((), s) := by
      funext r
      rw [runFrom, refill_apply, if_neg hs]
      rfl
    rw [heq]
    exact BitRead.notices_pure _

/-- The symbol on top of a state is known without any bits; only the refill needs them. -/
theorem notices_popSymbol (t : AnsTable) : Notices (popSymbol t) := by
  intro s
  have heq : runFrom s (popSymbol t) =
      runFrom (t.pop s).2 (refill >>= fun _ ↦ pure (t.pop s).1) := rfl
  rw [heq]
  exact notices_refill.bind (fun _ ↦ notices_pure _) _

theorem notices_mapM {f : α → Decode β} (h : ∀ a, Notices (f a)) (as : List α) :
    Notices (as.mapM f) := by
  induction as with
  | nil => exact notices_pure []
  | cons a as ih =>
    rw [List.mapM_cons]
    exact (h a).bind fun b ↦ ih.bind fun bs ↦ notices_pure (b :: bs)

end Decode

namespace Decoder

/-- The token of a value. -/
theorem notices_readCoded (d : Decoder) (cluster : Nat) : (d.readCoded cluster).Notices := by
  unfold readCoded
  split
  · split
    · exact Decode.notices_popSymbol _
    · exact Decode.notices_throw _
  · split
    · exact Decode.notices_lift (notices_readSymbol _)
    · exact Decode.notices_throw _

/-- A value. -/
theorem notices_readValue (d : Decoder) (context : Nat) : (d.readValue context).Notices := by
  refine (Decode.notices_ofExcept _).bind fun cluster ↦ ?_
  refine (d.notices_readCoded cluster).bind fun token ↦ ?_
  dsimp only
  split
  · exact (Decode.notices_throw _).bind fun _ ↦
      (Decode.notices_lift (notices_read _)).bind fun _ ↦ Decode.notices_ofExcept _
  · exact (Decode.notices_pure _).bind fun _ ↦
      (Decode.notices_lift (notices_read _)).bind fun _ ↦ Decode.notices_ofExcept _

theorem notices_readValues (d : Decoder) (state : Nat) (ofTokens : List Nat) :
    Notices (d.readValues state ofTokens) := by
  refine (Decode.notices_mapM d.notices_readValue ofTokens state).bind fun p ↦ ?_
  exact (notices_ofExcept _).bind fun _ ↦ notices_pure _

end Decoder

/-- A decoder of segments notices missing bits, wherever they are missing. -/
theorem notices_decodeTokens (contexts : Nat) (ofTokens : List Nat) :
    Notices (decodeTokens contexts ofTokens) := by
  rw [decodeTokens_eq]
  refine (notices_readMap contexts).bind fun map ↦ ?_
  refine (notices_readModels map.clusters).bind fun models ↦ ?_
  exact (notices_start map models).bind fun p ↦ p.1.notices_readValues p.2 ofTokens

/-! ## Segments that have been written -/

/-- What has been written for a segment are fields that a decoder takes to the last bit. -/
theorem exists_fields_of_encodeTokens {cost : CostEstimate} {config : SegmentConfig}
    {contexts : Nat} {tokens : List Token} {map : ContextMap} {models : SegmentModels}
    {w w' : BitWriter} (hvalues : ∀ t ∈ tokens, t.value < 2 ^ 32)
    (hgrowth : ∀ raw, Tally.ofTokens none contexts config.split tokens = .ok raw →
      maxClusters < contexts → Clustering.GrowthBounded cost config.budget raw.toList)
    (h : encodeTokens cost config contexts tokens w = .ok (map, models) w') :
    ∃ fields, Writable fields ∧ w' = w.writeFields fields ∧
      Takes (decodeTokens contexts (tokens.map Token.context)) (fieldBits fields)
        (tokens.map Token.value) := by
  obtain ⟨histograms, w₂, hplan, hmodels, htokens⟩ := encodeTokens_eq_ok h
  obtain ⟨hconfig, -⟩ := exists_raw_of_planModels hplan
  obtain ⟨htight, hcontexts, hclusters⟩ := planned_of_staysWithin (fun raw hraw ↦
    staysWithin_of_growthBounded hconfig hraw (hgrowth raw hraw)) hplan
  obtain ⟨hsendable, hsize, rfl⟩ := writeModels_eq_ok hmodels
  obtain ⟨payload, hpayload, rfl⟩ := (writeTokens_eq_ok_iff hsendable.valid hvalues).1 htokens
  have hcount : map.clusters = models.table.size := by
    rw [hclusters, hsize, Array.length_toList]
  have hmap := htight.takes_read
  have hread := hsendable.takes_readModels
  rw [hcontexts] at hmap
  rw [← hcount] at hread
  refine ⟨map.fields ++ models.fields ++ payload, ?_, ?_, ?_⟩
  · exact writable_append.2 ⟨writable_append.2 ⟨htight.writable_fields, hsendable.writable_fields⟩,
      hpayload.writable hsendable.valid⟩
  · rw [BitWriter.writeFields_append, BitWriter.writeFields_append]
  · rw [decodeTokens_eq, fieldBits_append, fieldBits_append, List.append_assoc]
    exact hmap.bind (hread.bind
      (hpayload.takes_readPayload hsendable.valid (Nat.le_of_eq hcount)))

/-- A segment of which at least one bit is missing is never decoded: whatever bytes are left of it,
the decoder finds that the bits run out, and it fails for no other reason.  The estimates of cost
may be any numbers; only where there are more contexts than a map has numbers for clusters, their
growth has to compare below the one that is forbidden. -/
theorem decodeTokens_truncate_eq_unexpectedEof {cost : CostEstimate} {config : SegmentConfig}
    {contexts : Nat} {tokens : List Token} {map : ContextMap} {models : SegmentModels}
    {w' : BitWriter} (hvalues : ∀ t ∈ tokens, t.value < 2 ^ 32)
    (hgrowth : ∀ raw, Tally.ofTokens none contexts config.split tokens = .ok raw →
      maxClusters < contexts → Clustering.GrowthBounded cost config.budget raw.toList)
    (h : encodeTokens cost config contexts tokens .empty = .ok (map, models) w')
    {left : Array UInt8} (hleft : left.toList <+: w'.toBytes.toList)
    (hmissing : 8 * left.size < w'.bitsWritten) :
    ∃ r, decodeTokens contexts (tokens.map Token.context) (.ofBytes left) =
      .error .unexpectedEof r := by
  obtain ⟨fields, hwritable, rfl, htakes⟩ := exists_fields_of_encodeTokens hvalues hgrowth h
  have hvalid := BitWriter.valid_empty
  -- all bytes are decoded to the last bit written
  have hfull := htakes (BitReader.passes_writeFields hvalid hwritable (hvalid.writeFields hwritable)
    (List.prefix_refl _) #[])
  rw [Array.append_empty] at hfull
  rw [← BitReader.truncate_ofBytes hleft]
  exact (notices_decodeTokens _ _).exists_unexpectedEof hfull (Nat.zero_le _) hmissing

/-- A segment of three values, of which only the last 3 bits are missing. -/
theorem decodeTokens_truncate_three : ∃ map models w' r,
    encodeTokens headerCost { precision := 5 } 1 [⟨0, 3⟩, ⟨0, 18⟩, ⟨0, 3⟩] .empty =
        .ok (map, models) w' ∧
      w'.toBytes.toList = [0, 36, 22, 22, 80, 139, 175, 0, 1] ++ [4] ∧
      decodeTokens 1 [0, 0, 0] (.ofBytes #[0, 36, 22, 22, 80, 139, 175, 0, 1]) =
        .error .unexpectedEof r := by
  obtain ⟨map, models, w', h, hbytes, hbits⟩ : ∃ map models w',
      encodeTokens headerCost { precision := 5 } 1 [⟨0, 3⟩, ⟨0, 18⟩, ⟨0, 3⟩] .empty =
          .ok (map, models) w' ∧
        w'.toBytes.toList = [0, 36, 22, 22, 80, 139, 175, 0, 1] ++ [4] ∧ 72 < w'.bitsWritten := by
    have hplan : planModels headerCost { precision := 5 } 1 [⟨0, 3⟩, ⟨0, 18⟩, ⟨0, 3⟩] =
        .ok (⟨#[0], 1⟩, #[((Histogram.empty.add 3).add 16).add 3]) := by cbv
    rw [encodeTokens, hplan]
    exact ⟨_, _, _, rfl, rfl, by decide⟩
  have hvalues : ∀ t ∈ [Token.mk 0 3, ⟨0, 18⟩, ⟨0, 3⟩], t.value < 2 ^ 32 := by decide
  have hleft : #[0, 36, 22, 22, 80, 139, 175, 0, 1].toList <+: w'.toBytes.toList :=
    ⟨[4], hbytes.symm⟩
  obtain ⟨r, hr⟩ := decodeTokens_truncate_eq_unexpectedEof hvalues
    (fun _ _ hmany ↦ absurd hmany (by decide)) h hleft hbits
  exact ⟨map, models, w', r, h, hbytes, hr⟩

end EntropyCoding
