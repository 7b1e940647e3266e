import EntropyCoding.Proofs.Model.Code
import EntropyCoding.Proofs.Prefix.Depths
import EntropyCoding.Proofs.Segment.Payload
import EntropyCoding.Proofs.Token.Split

/-!
# The models of a segment are read back

What the writer writes for its models are the fields of a header and of each model,
`writeModels_eq_ok`, and from these fields the reader rebuilds the same models,
`SegmentModels.takes_readModels`.  The round trip, `readModels_writeModels`, puts the two together:
nothing in the stream but the fields themselves tells the reader where a model ends.

Models are valid no matter whether they have been written or read.
-/

namespace EntropyCoding

/-! ## Fields -/

def ModelTable.fields : ModelTable → List Field
  | ans tables => tables.toList.flatMap AnsTable.fields
  | prefixCodes codes => codes.toList.flatMap PrefixCode.fields

def SegmentModels.fields (models : SegmentModels) : List Field :=
  headerFields models.table.isPrefixCodes models.precision models.split ++ models.table.fields

/-- Models that can be told from their fields. -/
structure SegmentModels.Sendable (models : SegmentModels) : Prop where
  /-- The precision can be announced. -/
  precision_mem : leastStreamPrecision ≤ models.precision ∧
    models.precision ≤ largestStreamPrecision
  /-- Every model is valid. -/
  valid : models.table.Valid
  /-- Every distribution has the precision announced, and ends with a symbol that has slots. -/
  ends : ∀ tables, models.table = .ans tables → ∀ t ∈ tables,
    t.precision = models.precision ∧ EndsPositive t.freqs.toList

/-! ## Writing -/

/-- The distribution of a histogram is built and its fields are written. -/
theorem writeAnsTable_eq_ok_iff {precision : Nat} {h : Histogram} {t : AnsTable} {w w' : BitWriter} :
    writeAnsTable precision h w = .ok t w' ↔
      AnsTable.ofHistogram h precision = .ok t ∧ w' = w.writeFields t.fields := by
  constructor
  · intro hok
    obtain ⟨t', _, hbuilt, hok⟩ := bind_eq_ok_iff.1 hok
    obtain ⟨htable, rfl⟩ := ofExcept_eq_ok_iff.1 hbuilt
    obtain ⟨⟨⟩, _, hput, hok⟩ := bind_eq_ok_iff.1 hok
    obtain rfl := BitWrite.put_eq_ok_iff.1 hput
    obtain ⟨rfl, rfl⟩ := pure_eq_ok_iff.1 hok
    exact ⟨htable, rfl⟩
  · rintro ⟨htable, rfl⟩
    refine bind_eq_ok_iff.2 ⟨t, w, ofExcept_eq_ok_iff.2 ⟨htable, rfl⟩, ?_⟩
    exact bind_eq_ok_iff.2 ⟨(), _, BitWrite.put_eq_ok_iff.2 rfl, rfl⟩

/-- The distribution of a histogram can be told from the fields that are written for it. -/
theorem writeAnsTable_eq_ok {precision : Nat} {h : Histogram} {t : AnsTable} {w w' : BitWriter}
    (hok : writeAnsTable precision h w = .ok t w') :
    (t.Valid ∧ t.precision = precision ∧ EndsPositive t.freqs.toList) ∧
      w' = w.writeFields t.fields := by
  obtain ⟨htable, rfl⟩ := writeAnsTable_eq_ok_iff.1 hok
  obtain ⟨freqs, hfreqs, htable⟩ := Except.bind_eq_ok_iff.1 htable
  refine ⟨⟨AnsTable.valid_of_ofFrequencies htable, AnsTable.precision_eq htable, ?_⟩, rfl⟩
  rw [AnsTable.toList_freqs htable]
  exact endsPositive_of_normalize hfreqs

/-- The prefix code of a histogram is built, if the alphabet is not too large, and its fields are
written. -/
theorem writePrefixCode_eq_ok_iff {h : Histogram} {c : PrefixCode} {w w' : BitWriter} :
    writePrefixCode h w = .ok c w' ↔
      h.alphabetSize ≤ maxAlphabet ∧ PrefixCode.ofHistogram h = .ok c ∧
        w' = w.writeFields c.fields := by
  unfold writePrefixCode
  by_cases hsize : maxAlphabet < h.alphabetSize
  · rw [if_pos hsize]
    constructor
    · intro hok
      cases hok
    · rintro ⟨hle, -⟩
      exact absurd hsize (Nat.not_lt.2 hle)
  · rw [if_neg hsize]
    constructor
    · intro hok
      obtain ⟨c', _, hbuilt, hok⟩ := bind_eq_ok_iff.1 hok
      obtain ⟨hcode, rfl⟩ := ofExcept_eq_ok_iff.1 hbuilt
      obtain ⟨⟨⟩, _, hput, hok⟩ := bind_eq_ok_iff.1 hok
      obtain rfl := BitWrite.put_eq_ok_iff.1 hput
      obtain ⟨rfl, rfl⟩ := pure_eq_ok_iff.1 hok
      exact ⟨Nat.not_lt.1 hsize, hcode, rfl⟩
    · rintro ⟨-, hcode, rfl⟩
      refine bind_eq_ok_iff.2 ⟨c, w, ofExcept_eq_ok_iff.2 ⟨hcode, rfl⟩, ?_⟩
      exact bind_eq_ok_iff.2 ⟨(), _, BitWrite.put_eq_ok_iff.2 rfl, rfl⟩

theorem writePrefixCode_eq_ok {h : Histogram} {c : PrefixCode} {w w' : BitWriter}
    (hok : writePrefixCode h w = .ok c w') : c.Valid ∧ w' = w.writeFields c.fields := by
  obtain ⟨hsize, hcode, rfl⟩ := writePrefixCode_eq_ok_iff.1 hok
  exact ⟨PrefixCode.valid_of_ofHistogram hcode hsize, rfl⟩

/-- If each item writes its fields, a list of items writes their fields in order. -/
theorem mapM_write_eq_ok {α β : Type} {item : α → BitWrite β} {fields : β → List Field}
    {P : β → Prop}
    (hitem : ∀ a b w w', item a w = .ok b w' → P b ∧ w' = w.writeFields (fields b))
    {as : List α} {bs : List β} {w w' : BitWriter} (h : as.mapM item w = .ok bs w') :
    bs.length = as.length ∧ (∀ b ∈ bs, P b) ∧ w' = w.writeFields (bs.flatMap fields) := by
  induction as generalizing bs w with
  | nil =>
    obtain ⟨rfl, rfl⟩ := mapM_nil_eq_ok_iff.1 h
    exact ⟨rfl, nofun, rfl⟩
  | cons a as ih =>
    obtain ⟨b, w₁, bs, hb, hbs, rfl⟩ := mapM_cons_eq_ok_iff.1 h
    obtain ⟨hP, rfl⟩ := hitem a b w w₁ hb
    obtain ⟨hlen, hPs, rfl⟩ := ih hbs
    refine ⟨congrArg (· + 1) hlen, List.forall_mem_cons.2 ⟨hP, hPs⟩, ?_⟩
    rw [List.flatMap_cons, BitWriter.writeFields_append]

/-- A configuration in range has a precision that can be announced. -/
theorem precision_mem_of_validate {config : SegmentConfig} (h : config.validate = .ok ()) :
    leastStreamPrecision ≤ config.precision ∧ config.precision ≤ largestStreamPrecision := by
  unfold SegmentConfig.validate at h
  split at h
  · next hprecision => exact hprecision
  · cases h

/-- Builds and writes models of the family of the configuration. -/
def writeTable (config : SegmentConfig) (histograms : List Histogram) : BitWrite ModelTable :=
  if config.usesPrefixCodes then
    (fun codes ↦ .prefixCodes codes.toArray) <$> histograms.mapM writePrefixCode
  else (fun tables ↦ .ans tables.toArray) <$> histograms.mapM (writeAnsTable config.precision)

/-- The models come after a header. -/
theorem writeModels_eq (config : SegmentConfig) (histograms : List Histogram) :
    writeModels config histograms = (do
      ofExcept config.validate
      BitWrite.put (headerFields config.usesPrefixCodes config.precision config.split)
      let table ← writeTable config histograms
      return { precision := config.precision, split := config.split, table }) := by
  unfold writeModels writeTable
  split
  · simp only [map_eq_pure_bind, bind_assoc, pure_bind]
  · simp only [map_eq_pure_bind, bind_assoc, pure_bind]

/-- Models are built for the histograms and written after a header. -/
theorem writeModels_eq_ok_iff {config : SegmentConfig} {histograms : List Histogram}
    {models : SegmentModels} {w w' : BitWriter} :
    writeModels config histograms w = .ok models w' ↔
      config.validate = .ok () ∧ ∃ table,
        writeTable config histograms (w.writeFields
          (headerFields config.usesPrefixCodes config.precision config.split)) = .ok table w' ∧
        models = { precision := config.precision, split := config.split, table } := by
  rw [writeModels_eq]
  constructor
  · intro h
    obtain ⟨⟨⟩, _, hvalidate, h⟩ := bind_eq_ok_iff.1 h
    obtain ⟨hconfig, rfl⟩ := ofExcept_eq_ok_iff.1 hvalidate
    obtain ⟨⟨⟩, _, hput, h⟩ := bind_eq_ok_iff.1 h
    obtain rfl := BitWrite.put_eq_ok_iff.1 hput
    obtain ⟨table, _, htable, h⟩ := bind_eq_ok_iff.1 h
    obtain ⟨rfl, rfl⟩ := pure_eq_ok_iff.1 h
    exact ⟨hconfig, table, htable, rfl⟩
  · rintro ⟨hconfig, table, htable, rfl⟩
    refine bind_eq_ok_iff.2 ⟨(), w, ofExcept_eq_ok_iff.2 ⟨hconfig, rfl⟩, ?_⟩
    refine bind_eq_ok_iff.2 ⟨(), _, BitWrite.put_eq_ok_iff.2 rfl, ?_⟩
    exact bind_eq_ok_iff.2 ⟨table, w', htable, rfl⟩

/-- What is written for models are their fields, and the models can be told from them. -/
theorem writeModels_eq_ok {config : SegmentConfig} {histograms : List Histogram}
    {models : SegmentModels} {w w' : BitWriter}
    (h : writeModels config histograms w = .ok models w') :
    models.Sendable ∧ models.table.size = histograms.length ∧
      w' = w.writeFields models.fields := by
  obtain ⟨hconfig, table, htable, rfl⟩ := writeModels_eq_ok_iff.1 h
  have hprecision := precision_mem_of_validate hconfig
  unfold writeTable at htable
  split at htable
  · next huses =>
    obtain ⟨codes, hcodes, rfl⟩ := map_eq_ok_iff.1 htable
    obtain ⟨hlen, hvalid, rfl⟩ := mapM_write_eq_ok (fun _ _ _ _ ↦ writePrefixCode_eq_ok) hcodes
    refine ⟨⟨hprecision, fun c hc ↦ hvalid c (List.mem_toArray.1 hc), nofun⟩, hlen, ?_⟩
    rw [← BitWriter.writeFields_append, huses]
    rfl
  · next huses =>
    obtain ⟨tables, htables, rfl⟩ := map_eq_ok_iff.1 htable
    obtain ⟨hlen, hvalid, rfl⟩ := mapM_write_eq_ok (fun _ _ _ _ ↦ writeAnsTable_eq_ok) htables
    refine ⟨⟨hprecision, fun t ht ↦ (hvalid t (List.mem_toArray.1 ht)).1, ?_⟩, hlen, ?_⟩
    · rintro _ ⟨⟩ t ht
      exact (hvalid t (List.mem_toArray.1 ht)).2
    · rw [← BitWriter.writeFields_append, (Bool.not_eq_true _).mp huses]
      rfl

/-! ## Reading back -/

section

variable {models : SegmentModels} (h : models.Sendable)
include h

/-- A writer takes the fields of models. -/
theorem SegmentModels.Sendable.writable_fields : Writable models.fields := by
  obtain ⟨-, hvalid, -⟩ := h
  obtain ⟨precision, split, table⟩ := models
  refine writable_append.2 ⟨writable_append.2 ⟨?_, split.writable_fields⟩, ?_⟩
  · exact writable_cons.2 ⟨(by decide : 1 ≤ maxFieldWidth),
      writable_cons.2 ⟨(by decide : 3 ≤ maxFieldWidth), writable_nil⟩⟩
  · intro f hf
    cases table with
    | ans tables =>
      obtain ⟨t, ht, hf⟩ := List.mem_flatMap.1 hf
      exact (hvalid t (Array.mem_toList_iff.1 ht)).writable_fields f hf
    | prefixCodes codes =>
      obtain ⟨c, hc, hf⟩ := List.mem_flatMap.1 hf
      exact (hvalid c (Array.mem_toList_iff.1 hc)).writable_fields f hf

/-- Models are read back. -/
theorem SegmentModels.Sendable.takes_readModels :
    BitRead.Takes (readModels models.table.size) (fieldBits models.fields) models := by
  obtain ⟨⟨hleast, hlargest⟩, hvalid, hends⟩ := h
  obtain ⟨precision, split, table⟩ := models
  have hread : BitRead.Takes (BitRead.read 3) (lowBits 3 (precision - leastStreamPrecision))
      (precision - leastStreamPrecision) := by
    refine BitRead.takes_read ?_
    have : precision - leastStreamPrecision ≤ largestStreamPrecision - leastStreamPrecision :=
      Nat.sub_le_sub_right hlargest _
    exact Nat.lt_of_le_of_lt this (by decide)
  have hadd : precision - leastStreamPrecision + leastStreamPrecision = precision :=
    Nat.sub_add_cancel hleast
  unfold readModels SegmentModels.fields headerFields
  rw [List.append_assoc, fieldBits_append, fieldBits_append, fieldBits_cons, fieldBits_cons,
    fieldBits_nil, List.append_nil, List.append_assoc]
  refine (BitRead.takes_readBool _).bind (hread.bind (split.takes_read.bind ?_))
  dsimp only
  rw [hadd, ← List.append_nil (fieldBits _)]
  cases table with
  | ans tables =>
    have htable : ∀ t ∈ tables.toList,
        BitRead.Takes (readAnsTable precision) (fieldBits t.fields) t := by
      intro t ht
      have ht := Array.mem_toList_iff.1 ht
      obtain ⟨rfl, hend⟩ := hends tables rfl t ht
      exact takes_readAnsTable (hvalid t ht) hend (Nat.lt_of_le_of_lt hlargest (by decide))
    have hmany := BitRead.takes_many htable
    rw [← fieldBits_flatMap] at hmany
    exact hmany.bind ((BitRead.takes_pure _).bind_nil (BitRead.takes_pure _))
  | prefixCodes codes =>
    have hcode : ∀ c ∈ codes.toList, BitRead.Takes readPrefixCode (fieldBits c.fields) c :=
      fun c hc ↦ takes_readPrefixCode (hvalid c (Array.mem_toList_iff.1 hc))
    have hmany := BitRead.takes_many hcode
    rw [← fieldBits_flatMap] at hmany
    exact hmany.bind ((BitRead.takes_pure _).bind_nil (BitRead.takes_pure _))

end

/-- Writing models leaves a valid writer, which has its former bits first. -/
theorem valid_of_writeModels {config : SegmentConfig} {histograms : List Histogram}
    {models : SegmentModels} {w w' : BitWriter} (hw : w.Valid)
    (h : writeModels config histograms w = .ok models w') :
    w'.Valid ∧ w.toBits <+: w'.toBits := by
  obtain ⟨hmodels, -, rfl⟩ := writeModels_eq_ok h
  rw [BitWriter.toBits_writeFields hw hmodels.writable_fields]
  exact ⟨hw.writeFields hmodels.writable_fields, List.prefix_append _ _⟩

/-- The models that have been written are read back, with any later content of the writer behind
them and any bytes behind that; and just their bits are read. -/
theorem readModels_writeModels {config : SegmentConfig} {histograms : List Histogram}
    {models : SegmentModels} {w w' later : BitWriter} (hw : w.Valid)
    (h : writeModels config histograms w = .ok models w') (hlater : later.Valid)
    (hpre : w'.toBits <+: later.toBits) (more : Array UInt8) :
    readModels histograms.length ⟨later.toBytes ++ more, w.bitsWritten⟩ =
      .ok models ⟨later.toBytes ++ more, w'.bitsWritten⟩ := by
  obtain ⟨hmodels, hsize, rfl⟩ := writeModels_eq_ok h
  rw [← hsize]
  exact hmodels.takes_readModels
    (BitReader.passes_writeFields hw hmodels.writable_fields hlater hpre more)

/-- Two distributions, one of them of two symbols and one of none that occur. -/
theorem readModels_writeModels_two : ∃ models w',
    writeModels { precision := 5 } [.ofCounts [3, 0, 1], .ofCounts []] .empty = .ok models w' ∧
      readModels 2 ⟨w'.toBytes ++ #[7], 0⟩ = .ok models ⟨w'.toBytes ++ #[7], w'.bitsWritten⟩ := by
  obtain ⟨models, w', h⟩ : ∃ models w', writeModels { precision := 5 }
      [.ofCounts [3, 0, 1], .ofCounts []] .empty = .ok models w' := ⟨_, _, rfl⟩
  have hw' := (valid_of_writeModels BitWriter.valid_empty h).1
  exact ⟨models, w', h,
    readModels_writeModels BitWriter.valid_empty h hw' (List.prefix_refl _) #[7]⟩

/-! ## Reading -/

/-- Models that have been read, in whatever form, can be told from their fields. -/
theorem sendable_of_readModels {count : Nat} {models : SegmentModels} {r r' : BitReader}
    (h : readModels count r = .ok models r') : models.Sendable := by
  obtain ⟨usesPrefixCodes, _, -, h⟩ := bind_eq_ok_iff.1 h
  obtain ⟨excess, _, hexcess, h⟩ := bind_eq_ok_iff.1 h
  obtain ⟨split, _, -, h⟩ := bind_eq_ok_iff.1 h
  have hprecision : leastStreamPrecision ≤ excess + leastStreamPrecision ∧
      excess + leastStreamPrecision ≤ largestStreamPrecision := by
    have : excess < 8 := BitRead.lt_of_read hexcess
    unfold leastStreamPrecision largestStreamPrecision
    omega
  cases usesPrefixCodes with
  | true =>
    obtain ⟨codes, _, hcodes, h⟩ := bind_eq_ok_iff.1 h
    obtain ⟨rfl, -⟩ := pure_eq_ok_iff.1 h
    refine ⟨hprecision, ?_, nofun⟩
    intro c hc
    obtain ⟨_, _, hread⟩ := (BitRead.exists_of_many hcodes).2 c (List.mem_toArray.1 hc)
    exact valid_of_readPrefixCode hread
  | false =>
    obtain ⟨tables, _, htables, h⟩ := bind_eq_ok_iff.1 h
    obtain ⟨rfl, -⟩ := pure_eq_ok_iff.1 h
    have hread : ∀ t ∈ tables.toArray, ∃ r₁ r₂,
        readAnsTable (excess + leastStreamPrecision) r₁ = .ok t r₂ :=
      fun t ht ↦ (BitRead.exists_of_many htables).2 t (List.mem_toArray.1 ht)
    refine ⟨hprecision, ?_, ?_⟩
    · intro t ht
      obtain ⟨_, _, hone⟩ := hread t ht
      exact valid_of_readAnsTable hone
    · rintro _ ⟨⟩ t ht
      obtain ⟨_, _, hone⟩ := hread t ht
      exact ends_of_readAnsTable hone

theorem valid_of_readModels {count : Nat} {models : SegmentModels} {r r' : BitReader}
    (h : readModels count r = .ok models r') : models.table.Valid :=
  (sendable_of_readModels h).valid

/-- Models that a writer or a reader can give. -/
def SegmentModels.Obtainable (models : SegmentModels) : Prop :=
  (∃ config histograms w w', writeModels config histograms w = .ok models w') ∨
    ∃ count r r', readModels count r = .ok models r'

/-- Models are valid however they have been obtained. -/
theorem SegmentModels.Obtainable.valid {models : SegmentModels} (h : models.Obtainable) :
    models.table.Valid := by
  rcases h with ⟨config, histograms, w, w', h⟩ | ⟨count, r, r', h⟩
  · exact (writeModels_eq_ok h).1.valid
  · exact valid_of_readModels h

end EntropyCoding
