import EntropyCoding.Proofs.Segment.Models

/-!
# Payloads are read back, and written back

A payload is read back as the values that it was written for, whatever models it was written with,
and segments that follow each other are read one after another: `readPayload_writeTokens`.
A range coder asks for each chunk just where the writer put it, because both sides take the same
steps of the coder in opposite order.

The other direction is `writeTokens_readPayload`: if a reader accepts some bits as a payload,
then the writer writes just these bits for the values read.  So no two payloads mean the same.
-/

namespace EntropyCoding

/-! ## From values to bits and back -/

section

variable {models : SegmentModels} {map : ContextMap} (hv : models.table.Valid)
include hv

theorem valid_of_writeTokens {tokens : List Token} (hvalues : ∀ t ∈ tokens, t.value < 2 ^ 32)
    {w w' : BitWriter} (hw : w.Valid) (h : writeTokens models map tokens w = .ok () w') :
    w'.Valid ∧ w.toBits <+: w'.toBits := by
  obtain ⟨fields, hfields, rfl⟩ := (writeTokens_eq_ok_iff hv hvalues).1 h
  have hwritable := hfields.writable hv
  rw [BitWriter.toBits_writeFields hw hwritable]
  exact ⟨hw.writeFields hwritable, List.prefix_append _ _⟩

/-- Writing segments leaves a valid writer, which has its former bits first. -/
theorem valid_of_forM_writeTokens {segments : List (List Token)}
    (hvalues : ∀ tokens ∈ segments, ∀ t ∈ tokens, t.value < 2 ^ 32) {w w' : BitWriter}
    (hw : w.Valid) (h : segments.forM (writeTokens models map) w = .ok () w') :
    w'.Valid ∧ w.toBits <+: w'.toBits := by
  induction segments generalizing w with
  | nil =>
    obtain ⟨-, rfl⟩ := pure_eq_ok_iff.1 h
    exact ⟨hw, List.prefix_refl _⟩
  | cons tokens segments ih =>
    obtain ⟨hone, hrest⟩ := List.forall_mem_cons.1 hvalues
    obtain ⟨w₁, hwrite, h⟩ := forM_cons_eq_ok_iff.1 h
    obtain ⟨hw₁, hpre⟩ := valid_of_writeTokens hv hone hw hwrite
    obtain ⟨hw', hpre'⟩ := ih hrest hw₁ h
    exact ⟨hw', hpre.trans hpre'⟩

variable (hmap : map.clusters ≤ models.table.size)
include hmap

/-- A payload is read back from the bytes of every later writer. -/
theorem readPayload_of_writeTokens {tokens : List Token} {w w' later : BitWriter}
    (hvalues : ∀ t ∈ tokens, t.value < 2 ^ 32) (hw : w.Valid)
    (h : writeTokens models map tokens w = .ok () w') (hlater : later.Valid)
    (hpre : w'.toBits <+: later.toBits) (more : Array UInt8) :
    readPayload map models (tokens.map Token.context) ⟨later.toBytes ++ more, w.bitsWritten⟩ =
      .ok (tokens.map Token.value) ⟨later.toBytes ++ more, w'.bitsWritten⟩ := by
  obtain ⟨fields, hfields, rfl⟩ := (writeTokens_eq_ok_iff hv hvalues).1 h
  exact hfields.takes_readPayload hv hmap
    (BitReader.passes_writeFields hw (hfields.writable hv) hlater hpre more)

/-- Segments are read back one after another. -/
theorem mapM_readPayload_of_forM_writeTokens {segments : List (List Token)}
    {w w' later : BitWriter} (hvalues : ∀ tokens ∈ segments, ∀ t ∈ tokens, t.value < 2 ^ 32)
    (hw : w.Valid) (h : segments.forM (writeTokens models map) w = .ok () w')
    (hlater : later.Valid) (hpre : w'.toBits <+: later.toBits) (more : Array UInt8) :
    segments.mapM (fun tokens ↦ readPayload map models (tokens.map Token.context))
        ⟨later.toBytes ++ more, w.bitsWritten⟩ =
      .ok (segments.map fun tokens ↦ tokens.map Token.value)
        ⟨later.toBytes ++ more, w'.bitsWritten⟩ := by
  induction segments generalizing w with
  | nil =>
    obtain ⟨-, rfl⟩ := pure_eq_ok_iff.1 h
    rfl
  | cons tokens segments ih =>
    obtain ⟨hone, hrest⟩ := List.forall_mem_cons.1 hvalues
    obtain ⟨w₁, hwrite, h⟩ := forM_cons_eq_ok_iff.1 h
    obtain ⟨hw₁, -⟩ := valid_of_writeTokens hv hone hw hwrite
    obtain ⟨-, hpre₁⟩ := valid_of_forM_writeTokens hv hrest hw₁ h
    exact mapM_cons_eq_ok_iff.2 ⟨_, _, _,
      readPayload_of_writeTokens hv hmap hone hw hwrite hlater (hpre₁.trans hpre) more,
      ih hrest hw₁ h, rfl⟩

end

/-- Segments that have been written with the same models, one after another, are read back one after
another.  Each is read from its own first bit up to the first bit of the next one, whatever stands
before and behind them. -/
theorem readPayload_writeTokens {models : SegmentModels} (hmodels : models.Obtainable)
    {map : ContextMap} (hmap : map.clusters ≤ models.table.size) {segments : List (List Token)}
    (hvalues : ∀ tokens ∈ segments, ∀ t ∈ tokens, t.value < 2 ^ 32) {w w' later : BitWriter}
    (hw : w.Valid) (h : segments.forM (writeTokens models map) w = .ok () w')
    (hlater : later.Valid) (hpre : w'.toBits <+: later.toBits) (more : Array UInt8) :
    (∀ before tokens after, segments = before ++ tokens :: after →
      ∃ w₁ w₂, before.forM (writeTokens models map) w = .ok () w₁ ∧
        writeTokens models map tokens w₁ = .ok () w₂ ∧
        after.forM (writeTokens models map) w₂ = .ok () w' ∧
        readPayload map models (tokens.map Token.context)
            ⟨later.toBytes ++ more, w₁.bitsWritten⟩ =
          .ok (tokens.map Token.value) ⟨later.toBytes ++ more, w₂.bitsWritten⟩) ∧
      segments.mapM (fun tokens ↦ readPayload map models (tokens.map Token.context))
          ⟨later.toBytes ++ more, w.bitsWritten⟩ =
        .ok (segments.map fun tokens ↦ tokens.map Token.value)
          ⟨later.toBytes ++ more, w'.bitsWritten⟩ := by
  have hv := hmodels.valid
  constructor
  · rintro before tokens after rfl
    obtain ⟨hbefore, hothers⟩ := List.forall_mem_append.1 hvalues
    obtain ⟨hone, hafter⟩ := List.forall_mem_cons.1 hothers
    obtain ⟨w₁, hwrite₁, h⟩ := forM_append_eq_ok_iff.1 h
    obtain ⟨w₂, hwrite₂, h⟩ := forM_cons_eq_ok_iff.1 h
    obtain ⟨hw₁, -⟩ := valid_of_forM_writeTokens hv hbefore hw hwrite₁
    obtain ⟨hw₂, -⟩ := valid_of_writeTokens hv hone hw₁ hwrite₂
    obtain ⟨-, hpre₂⟩ := valid_of_forM_writeTokens hv hafter hw₂ h
    exact ⟨w₁, w₂, hwrite₁, hwrite₂, h, readPayload_of_writeTokens hv hmap hone hw₁ hwrite₂ hlater
      (hpre₂.trans hpre) more⟩
  · exact mapM_readPayload_of_forM_writeTokens hv hmap hvalues hw h hlater hpre more

/-- Two segments with one model, the second of which starts where the first one ends. -/
theorem readPayload_writeTokens_two : ∃ models w w',
    writeModels { precision := 5 } [.ofCounts [3, 0, 1]] .empty = .ok models w ∧
      [[⟨0, 0⟩, ⟨0, 2⟩], [⟨0, 2⟩]].forM (writeTokens models ⟨#[0], 1⟩) w = .ok () w' ∧
      [[0, 0], [0]].mapM (readPayload ⟨#[0], 1⟩ models) ⟨w'.toBytes ++ #[1], w.bitsWritten⟩ =
        .ok [[0, 2], [2]] ⟨w'.toBytes ++ #[1], w'.bitsWritten⟩ := by
  obtain ⟨models, w, w', h, hmap, hwrite⟩ : ∃ models w w',
      writeModels { precision := 5 } [.ofCounts [3, 0, 1]] .empty = .ok models w ∧
        1 ≤ models.table.size ∧
        [[⟨0, 0⟩, ⟨0, 2⟩], [⟨0, 2⟩]].forM (writeTokens models ⟨#[0], 1⟩) w = .ok () w' :=
    ⟨_, _, _, rfl, Nat.le_refl _, rfl⟩
  have hmodels : models.Obtainable := .inl ⟨_, _, _, _, h⟩
  have hvalues : ∀ tokens ∈ [[Token.mk 0 0, ⟨0, 2⟩], [⟨0, 2⟩]],
      ∀ t ∈ tokens, t.value < 2 ^ 32 := by decide
  have hw := (valid_of_writeModels BitWriter.valid_empty h).1
  have hw' := (valid_of_forM_writeTokens hmodels.valid hvalues hw hwrite).1
  have hread := readPayload_writeTokens hmodels hmap hvalues hw hwrite hw' (List.prefix_refl _) #[1]
  exact ⟨models, w, w', h, hwrite, hread.2⟩

/-! ## From bits to values and back -/

section

variable {models : SegmentModels} {map : ContextMap} (hv : models.table.Valid)
include hv

/-- The bits that a reader accepts as a payload are those that are written for the values read. -/
theorem exists_writeTokens_of_readPayload {contexts values : List Nat} {r r' : BitReader}
    (hr : r.pos ≤ r.length) (h : readPayload map models contexts r = .ok values r') :
    values.length = contexts.length ∧ ∃ bits, r.Passes bits r' ∧
      ∀ w : BitWriter, w.Valid → ∃ w',
        writeTokens models map (contexts.zipWith Token.mk values) w = .ok () w' ∧
          w'.toBits = w.toBits ++ bits := by
  obtain ⟨fields, hlen, hfields, hpass⟩ := exists_payload_of_readPayload hv hr h
  refine ⟨hlen, fieldBits fields, hpass, fun w hw ↦ ⟨w.writeFields fields, ?_, ?_⟩⟩
  · have hvalues : ∀ t ∈ contexts.zipWith Token.mk values, t.value < 2 ^ 32 := by
      obtain ⟨s, rest, hcodes, -⟩ := hfields
      exact hcodes.value_lt
    exact (writeTokens_eq_ok_iff hv hvalues).2 ⟨fields, hfields, rfl⟩
  · exact BitWriter.toBits_writeFields hw (hfields.writable hv)

/-- Payloads with the same values consist of the same bits. -/
theorem passes_of_readPayload {contexts values : List Nat} {r r' other other' : BitReader}
    (hr : r.pos ≤ r.length) (h : readPayload map models contexts r = .ok values r')
    (hother : other.pos ≤ other.length)
    (h' : readPayload map models contexts other = .ok values other') {bits : List Bool}
    (hpass : r.Passes bits r') : other.Passes bits other' := by
  obtain ⟨-, bits₁, hpass₁, hwrite₁⟩ := exists_writeTokens_of_readPayload hv hr h
  obtain ⟨-, bits₂, hpass₂, hwrite₂⟩ := exists_writeTokens_of_readPayload hv hother h'
  obtain ⟨w₁, hok₁, hbits₁⟩ := hwrite₁ .empty BitWriter.valid_empty
  obtain ⟨w₂, hok₂, hbits₂⟩ := hwrite₂ .empty BitWriter.valid_empty
  obtain rfl : w₁ = w₂ := by
    rw [hok₁] at hok₂
    cases hok₂
    rfl
  have hbits : bits₁ = bits₂ := List.append_cancel_left (hbits₁.symm.trans hbits₂)
  rw [hpass.bits_eq, ← hpass₁.bits_eq, hbits]
  exact hpass₂

end

/-- Whatever a reader accepts as a payload, with models that have been read, is what the writer
writes for the values read, bit for bit.  So two payloads with the same values are the same bits. -/
theorem writeTokens_readPayload {count : Nat} {models : SegmentModels} {r₀ r₁ : BitReader}
    (hmodels : readModels count r₀ = .ok models r₁) {map : ContextMap} {contexts values : List Nat}
    {r r' : BitReader} (hr : r.pos ≤ r.length)
    (h : readPayload map models contexts r = .ok values r') :
    values.length = contexts.length ∧
      ∃ bits, r.Passes bits r' ∧
        (∀ w : BitWriter, w.Valid → ∃ w',
          writeTokens models map (contexts.zipWith Token.mk values) w = .ok () w' ∧
            w'.toBits = w.toBits ++ bits) ∧
        ∀ other other' : BitReader, other.pos ≤ other.length →
          readPayload map models contexts other = .ok values other' →
            other.Passes bits other' := by
  have hv := valid_of_readModels hmodels
  obtain ⟨hlen, bits, hpass, hwrite⟩ := exists_writeTokens_of_readPayload hv hr h
  refine ⟨hlen, bits, hpass, hwrite, fun other other' hother h' ↦ ?_⟩
  exact passes_of_readPayload hv hr h hother h' hpass

/-- A model and the payload of the values 0 and 2 that is read with it. -/
theorem writeTokens_readPayload_two : ∃ models r r' bits w',
    readModels 1 ⟨#[64, 98, 64, 128, 225, 170, 202, 0, 0, 255], 0⟩ = .ok models r ∧
      readPayload ⟨#[0], 1⟩ models [0, 0] r = .ok [0, 2] r' ∧ r.Passes bits r' ∧
      writeTokens models ⟨#[0], 1⟩ [⟨0, 0⟩, ⟨0, 2⟩] .empty = .ok () w' ∧ w'.toBits = bits := by
  obtain ⟨models, w, w', h₁, h₂, hmap, hpos, hbytes⟩ : ∃ models w w',
      writeModels { precision := 5 } [.ofCounts [3, 0, 1]] .empty = .ok models w ∧
        writeTokens models ⟨#[0], 1⟩ [⟨0, 0⟩, ⟨0, 2⟩] w = .ok () w' ∧ 1 ≤ models.table.size ∧
        w.bitsWritten ≤ 80 ∧
        w'.toBytes ++ #[255] = #[64, 98, 64, 128, 225, 170, 202, 0, 0, 255] :=
    ⟨_, _, _, rfl, rfl, Nat.le_refl _, by decide, rfl⟩
  have hvalues : ∀ t ∈ [Token.mk 0 0, ⟨0, 2⟩], t.value < 2 ^ 32 := by decide
  obtain ⟨hw, -⟩ := valid_of_writeModels BitWriter.valid_empty h₁
  obtain ⟨hsendable, hsize, rfl⟩ := writeModels_eq_ok h₁
  obtain ⟨hw', hpre⟩ := valid_of_writeTokens hsendable.valid hvalues hw h₂
  -- the bytes are those that are written for these values
  have hmodels := hsendable.takes_readModels (BitReader.passes_writeFields BitWriter.valid_empty
    hsendable.writable_fields hw' hpre #[255])
  have h := readPayload_of_writeTokens hsendable.valid hmap hvalues hw h₂ hw' (List.prefix_refl _)
    #[255]
  rw [hbytes] at hmodels h
  rw [hsize] at hmodels
  obtain ⟨-, bits, hpass, hwrite, -⟩ := writeTokens_readPayload hmodels hpos h
  obtain ⟨v, hok, hbits⟩ := hwrite .empty BitWriter.valid_empty
  exact ⟨models, _, _, bits, v, hmodels, h, hpass, hok, hbits⟩

end EntropyCoding
