import EntropyCoding.Proofs.Checked.Agreement
import EntropyCoding.Proofs.Listing.ContextTable

/-!
# Checked listings

A context table is written entry by entry.  In the first part the index of the entry says where in
its line it stands.  In the second part a loop goes over the places of a bucket: it skips place 0,
after the last pair it fills the line up, and it counts the pairs of a kind of block through all
buckets, since the index of an entry comes from that count.  Every index is tested, and an entry
beyond the table is not to be read even if the map has one.

The loops write the listing of the table, `Checked.listContextTable_eq`, so they read the entries of
the table and no others, and each is written where it can be read back: `Checked.contextTable_faithful`.
-/

namespace EntropyCoding

namespace Checked

/-! ## Writing entries -/

def write (text : String) : Checked String Unit :=
  modify (· ++ text)

/-- An entry of the table.  What a map has beyond the table is not to be read. -/
def tableEntry (map : Array Nat) (i : Nat) : Except Stop Nat :=
  if i < contextTableSize then item map i else .error (.fault .index)

def writeEntry (map : Array Nat) (width i : Nat) : Checked String Unit := do
  let entry ← tableEntry map i
  write (" " ++ decimalColumn width entry ++ ",")

/-! ## Numbers of nonzero coefficients -/

def predictionComment (predicted : Nat) : Except Stop String :=
  if predicted ≤ 7 then .ok (decimalColumn 2 predicted)
  else if predicted ≤ 35 then do
    let first ← sub (← mul 64 2 predicted) 8
    let last ← sub (← mul 64 2 predicted) 7
    .ok (decimalColumn 2 first ++ " - " ++ decimalColumn 2 last)
  else .ok "64 -"

/-- Writes what comes after an entry of the first part. -/
def endPrediction (i : Nat) : Checked String Unit :=
  if i % blockKinds + 1 = blockKinds then do
    let comment ← predictionComment (i / blockKinds)
    write ("    // pred: " ++ comment ++ "\n")
  else pure ()

/-- Writes an entry of the first part. -/
def writePrediction (map : Array Nat) (i : Nat) : Checked String Unit := do
  write (if i % blockKinds = 0 then "      " else "")
  writeEntry map 4 i
  endPrediction i

/-! ## Contexts of coefficients -/

/-- The smallest number of nonzero coefficients left, for each bucket and behind the last one. -/
def nonzerosLeft : Array Nat := #[1, 2, 3, 5, 9, 13, 21, 33, 64]

def pairsPerBucket : Array Nat := #[31, 31, 31, 30, 29, 28, 26, 23]

def lastLineFirst : Array Nat := #[48, 48, 48, 48, 48, 48, 32, 24]

def lastLineLast : Array Nat := #[63, 63, 63, 59, 55, 51, 43, 31]

def lineComments : Array String :=
  #["  // k:  1 -  3\n", "  // k:  4 -  7\n", "  // k:  8 - 11\n", "  // k: 12 - 15\n",
    "  // k: 16 - 23\n", "  // k: 24 - 31\n", "  // k: 32 - 47\n", "  // k: 48 - 63\n"]

/-- The index of an entry of a pair, given the number of pairs before it for the same kind of block. -/
def contextIndex (kind count entry : Nat) : Except Stop Nat := do
  let kinds ← add 64 (predictedCounts * blockKinds) (← mul 64 kind entriesPerKind)
  let pairs ← add 64 kinds (← mul 64 count 2)
  add 64 pairs entry

def writePair (map : Array Nat) (kind count : Nat) : Checked String Unit := do
  writeEntry map 2 (← contextIndex kind count 0)
  writeEntry map 2 (← contextIndex kind count 1)

/-- Opens the line that begins at a place, and leaves place 0 blank; gives the place of the next
pair. -/
def openPlace (place : Nat) : Checked String Nat := do
  write (if place % 4 = 0 then "   " else "")
  if place = 0 then do
    write "          "
    add 64 place 1
  else pure place

/-- Fills a line up after the pair at a place; gives the last place of the line. -/
def fillLine : Nat → Nat → Checked String Nat
  | 0, _ => fault .endless
  | tries + 1, place =>
    if place % 4 = 3 then pure place
    else do
      write "          "
      fillLine tries (← add 64 place 1)

/-- Writes what comes after the pair at a place; gives the place that is reached. -/
def endPlace (bucket last place : Nat) : Checked String Nat :=
  if place = last then do
    let place ← fillLine 4 place
    let first ← item lastLineFirst bucket
    let last ← item lastLineLast bucket
    write ("  // k: " ++ decimalColumn 2 first ++ " - " ++ decimalColumn 2 last ++ "\n")
    pure place
  else if place % 4 = 3 then do
    write (← item lineComments (place / 4))
    pure place
  else do
    write "  "
    pure place

/-- Writes the pairs of a bucket from a place on; gives the number of pairs so far. -/
def writePairs (map : Array Nat) (kind bucket last : Nat) : Nat → Nat → Nat → Checked String Nat
  | 0, _, _ => fault .endless
  | tries + 1, place, count =>
    if place ≤ last then do
      let place ← openPlace place
      writePair map kind count
      let place ← endPlace bucket last place
      writePairs map kind bucket last tries (← add 64 place 1) (← add 64 count 1)
    else pure count

/-- Writes a bucket; gives the number of pairs so far. -/
def writeBucket (map : Array Nat) (kind count bucket : Nat) : Checked String Nat := do
  let least ← item nonzerosLeft bucket
  let most ← sub (← item nonzerosLeft (← add 64 bucket 1)) 1
  write ("    // Nonzeros left: " ++ toString least
    ++ (if least = most then "" else " - " ++ toString most) ++ "\n")
  let last ← item pairsPerBucket bucket
  writePairs map kind bucket last (last + 1) 0 count

def writeKind (map : Array Nat) (kind : String × Nat) : Checked String Unit := do
  write ("\n    //\n    // Zero density context map for " ++ kind.1 ++ " blocks\n    //\n")
  let _ ← (List.range pairsPerBucket.size).foldlM (writeBucket map kind.2) 0

/-! ## The whole table -/

def writeContextTable (map : Array Nat) : Checked String Unit := do
  write "static constexpr uint8_t kACContextMap[] = \x7b\n"
  write "    // Context map for number of nonzeros\n"
  write "    //   8x8   8x16  8x8   8x16\n"
  write "    //    Y     Y    X,B   X,B\n"
  (List.range (predictedCounts * blockKinds)).forM (writePrediction map)
  blockKindNames.zipIdx.forM (writeKind map)
  write "\x7d;\n"

def listContextTable (map : Array Nat) : Except Stop String :=
  if map.size < contextTableSize then
    .error (.error (.contextMapTooShort map.size contextTableSize))
  else match writeContextTable map "" with
    | .ok _ text => .ok text
    | .error stop _ => .error stop

/-! ## What is written -/

/-- An action appends a text to whatever has been written, and gives a result. -/
def Writes {α : Type} (action : Checked String α) (text : String) (a : α) : Prop :=
  ∀ written, action written = .ok a (written ++ text)

variable {α β : Type}

theorem writes_write (text : String) : Writes (write text) text () :=
  fun _ ↦ rfl

theorem writes_write_pure (text : String) (a : α) :
    Writes (write text >>= fun _ ↦ pure a) text a :=
  fun _ ↦ rfl

theorem writes_pure (a : α) : Writes (pure a) "" a := by
  intro written
  rw [String.append_empty]
  rfl

theorem writes_lift {x : Except Stop α} {a : α} (h : x = .ok a) :
    Writes (liftM x : Checked String α) "" a := by
  subst h
  exact writes_pure a

theorem Writes.bind {x : Checked String α} {f : α → Checked String β} {text text' : String} {a : α}
    {b : β} (hx : Writes x text a) (hf : Writes (f a) text' b) :
    Writes (x >>= f) (text ++ text') b := by
  intro written
  rw [bind_of_ok (hx written), hf, String.append_assoc]

theorem Writes.step {x : Except Stop α} {a : α} (h : x = .ok a) {f : α → Checked String β}
    {text : String} {b : β} (hf : Writes (f a) text b) :
    Writes ((liftM x : Checked String α) >>= f) text b := by
  intro written
  rw [lift_bind h]
  exact hf written

theorem Writes.of_bind {x : Checked String α} {f : α → Checked String β} {text : String} {a : α}
    {b : β} (hx : Writes x "" a) (h : Writes (x >>= f) text b) : Writes (f a) text b := by
  intro written
  have hwritten := h written
  rwa [bind_of_ok (hx written), String.append_empty] at hwritten

theorem Writes.of_eq {action : Checked String α} {text text' : String} {a : α}
    (h : Writes action text a) (htext : text = text') : Writes action text' a :=
  htext ▸ h

theorem writes_forM {f : α → Checked String Unit} {text : α → String} {as : List α}
    (h : ∀ a ∈ as, Writes (f a) (text a) ()) : Writes (as.forM f) (String.join (as.map text)) () := by
  induction as with
  | nil => exact writes_pure ()
  | cons a as ih =>
    obtain ⟨ha, has⟩ := List.forall_mem_cons.1 h
    rw [List.map_cons, String.join_cons]
    exact ha.bind (ih has)

/-! ## Entries -/

/-- What holds of numbers and elements holds of those of a list, numbered from `i` on. -/
def HoldsFrom (P : Nat → α → Prop) (i : Nat) (as : List α) : Prop :=
  ∀ ⦃j a⦄, as[j]? = some a → P (i + j) a

section HoldsFrom

variable {P : Nat → α → Prop} {i : Nat} {as : List α}

theorem HoldsFrom.of_cons {a : α} (h : HoldsFrom P i (a :: as)) : P i a ∧ HoldsFrom P (i + 1) as := by
  refine ⟨h (j := 0) rfl, fun j b hb ↦ ?_⟩
  rw [Nat.add_assoc, Nat.add_comm 1 j]
  exact h (j := j + 1) hb

theorem HoldsFrom.take (h : HoldsFrom P i as) (n : Nat) : HoldsFrom P i (as.take n) := by
  intro j a hj
  rw [List.getElem?_take] at hj
  split at hj
  · exact h hj
  · cases hj

theorem HoldsFrom.drop (h : HoldsFrom P i as) (n : Nat) : HoldsFrom P (i + n) (as.drop n) := by
  intro j a hj
  rw [List.getElem?_drop] at hj
  rw [Nat.add_assoc]
  exact h hj

end HoldsFrom

/-- Entries stand in the table from an index on. -/
def StandsAt (map : Array Nat) : Nat → List Nat → Prop :=
  HoldsFrom fun i entry ↦ tableEntry map i = .ok entry

variable {map : Array Nat}

/-- The entries of the table stand in it. -/
theorem standsAt_take (map : Array Nat) : StandsAt map 0 (map.toList.take contextTableSize) := by
  intro j entry h
  rw [List.getElem?_take] at h
  split at h
  · next hlt =>
    rw [Nat.zero_add, tableEntry, if_pos hlt]
    exact item_eq_ok (by rwa [Array.getElem?_toList] at h)
  · cases h

theorem writes_writeEntry {i entry : Nat} (h : tableEntry map i = .ok entry) (width : Nat) :
    Writes (writeEntry map width i) (" " ++ decimalColumn width entry ++ ",") () :=
  .step h (writes_write _)

/-! ## The first part -/

/-- The comment of a predicted number. -/
theorem predictionComment_eq (predicted : Nat) :
    predictionComment predicted = .ok (EntropyCoding.predictionComment predicted) := by
  rw [predictionComment, EntropyCoding.predictionComment]
  split
  · rfl
  · split
    · have hmul : mul 64 2 predicted = .ok (2 * predicted) := mul_eq_ok (by omega)
      rw [hmul, bind_of_eq_ok rfl, bind_of_eq_ok (sub_eq_ok (by omega)), bind_of_eq_ok rfl,
        bind_of_eq_ok (sub_eq_ok (by omega))]
    · rfl

/-- What comes after an entry of the first part. -/
theorem writes_endPrediction (i : Nat) :
    Writes (endPrediction i) (if i % 4 = 3 then predictionEnd (i / 4) else "") () := by
  have hkinds : i % blockKinds + 1 = blockKinds ↔ i % 4 = 3 := by
    rw [blockKinds]
    omega
  rw [endPrediction]
  by_cases hlast : i % 4 = 3
  · rw [if_pos (hkinds.2 hlast), if_pos hlast]
    exact .step (predictionComment_eq _) (writes_write _)
  · rw [if_neg (mt hkinds.1 hlast), if_neg hlast]
    exact writes_pure ()

/-- The entries of the first part from an index on. -/
theorem writes_predictions {i : Nat} {entries : List Nat} (h : StandsAt map i entries) :
    Writes ((List.range' i entries.length).forM (writePrediction map))
      (placesText "      " "" predictionEnd i (entries.map predictionCell)) () := by
  induction entries generalizing i with
  | nil => exact writes_pure ()
  | cons entry entries ih =>
    obtain ⟨hentry, hentries⟩ := h.of_cons
    have hone : Writes (writePrediction map i) _ () := (writes_write _).bind
      ((writes_writeEntry hentry 4).bind (writes_endPrediction i))
    rw [List.length_cons, List.range'_succ]
    refine (hone.bind (ih hentries)).of_eq ?_
    rw [List.map_cons, placesText, predictionCell]
    simp only [String.append_assoc]
    rfl

/-! ## The pairs of a bucket -/

/-- The index of an entry, if the table goes on to it. -/
theorem contextIndex_eq_ok {kind count entry : Nat}
    (h : predictedCounts * blockKinds + kind * entriesPerKind + count * 2 + entry < 2 ^ 64) :
    contextIndex kind count entry =
      .ok (predictedCounts * blockKinds + kind * entriesPerKind + count * 2 + entry) := by
  rw [contextIndex, bind_of_eq_ok (mul_eq_ok (by omega)), bind_of_eq_ok (add_eq_ok (by omega)),
    bind_of_eq_ok (mul_eq_ok (by omega)), bind_of_eq_ok (add_eq_ok (by omega)), add_eq_ok h]

/-- The pairs of a kind of block are written from a count on. -/
def WritesPairs (map : Array Nat) (kind : Nat) : Nat → List (List Nat) → Prop :=
  HoldsFrom fun count pair ↦ Writes (writePair map kind count) (pairCell pair) ()

variable {kind : Nat}

/-- A pair whose entries stand in the table. -/
theorem writes_writePair {count : Nat} {pair : List Nat} (hpair : pair.length = 2)
    (hkind : kind < 2 ^ 32) (hcount : count < 2 ^ 32)
    (h : StandsAt map (predictedCounts * blockKinds + kind * entriesPerKind + count * 2) pair) :
    Writes (writePair map kind count) (pairCell pair) () := by
  have hindex (entry : Nat) (hentry : entry < 2) : contextIndex kind count entry = .ok
      (predictedCounts * blockKinds + kind * entriesPerKind + count * 2 + entry) := by
    apply contextIndex_eq_ok
    rw [predictedCounts, blockKinds, entriesPerKind]
    omega
  match pair, hpair with
  | [first, second], _ =>
    obtain ⟨hfirst, hrest⟩ := h.of_cons
    obtain ⟨hsecond, -⟩ := hrest.of_cons
    have hwrites : Writes (writePair map kind count) _ () :=
      .step (hindex 0 (by decide)) ((writes_writeEntry hfirst 2).bind
        (.step (hindex 1 (by decide)) (writes_writeEntry hsecond 2)))
    refine hwrites.of_eq ?_
    rw [pairCell, List.map_cons, List.map_cons, List.map_nil, String.join_cons, String.join_cons,
      String.join_nil, String.append_empty]

/-- The entries of a kind of block, in pairs. -/
theorem writesPairs_rowsOf {n : Nat} {entries : List Nat} (hlength : entries.length = n * 2)
    (hkind : kind < 2 ^ 32) (hn : n ≤ 2 ^ 32)
    (h : StandsAt map (predictedCounts * blockKinds + kind * entriesPerKind) entries) :
    WritesPairs map kind 0 (rowsOf 1 entries) := by
  intro j pair hpair
  have hj : j < n := by
    have hlt := (List.getElem?_eq_some_iff.1 hpair).1
    rw [length_rowsOf, hlength] at hlt
    omega
  have htwo : pair.length = 2 := length_of_mem_rowsOf hlength (List.mem_of_getElem? hpair)
  obtain rfl := eq_of_getElem?_rowsOf hpair
  rw [Nat.zero_add]
  exact writes_writePair htwo hkind (by omega) ((h.drop _).take _)

/-- A line is filled up with blank cells. -/
theorem writes_fillLine {tries place k : Nat} (h : place % 4 + k = 3) (htries : k < tries)
    (hplace : place + k < 2 ^ 64) :
    Writes (fillLine tries place) (String.join (List.replicate k ("  " ++ blankCell))) (place + k) := by
  induction k generalizing tries place with
  | zero =>
    obtain ⟨tries, rfl⟩ := Nat.exists_eq_add_one.2 htries
    rw [Nat.add_zero] at h ⊢
    rw [fillLine, if_pos h]
    exact writes_pure place
  | succ k ih =>
    obtain ⟨tries, rfl⟩ := Nat.exists_eq_add_one.2 (Nat.lt_of_le_of_lt (Nat.zero_le _) htries)
    have hnext : (place + 1) % 4 + k = 3 := by omega
    have hrest := ih hnext (Nat.lt_of_succ_lt_succ htries) (by omega)
    rw [fillLine, if_neg (by omega), List.replicate_succ, String.join_cons,
      show place + (k + 1) = place + 1 + k by omega]
    exact (writes_write _).bind (.step (add_eq_ok (by omega)) hrest)

/-- What the arrays of the loops have for a bucket. -/
structure IsBucket (index : Nat) (bucket : NonzeroBucket) : Prop where
  /-- The smallest number of nonzero coefficients left. -/
  least : item nonzerosLeft index = .ok bucket.least
  /-- The largest one comes before the smallest one of the next bucket. -/
  most : item nonzerosLeft (index + 1) = .ok (bucket.most + 1)
  /-- The number of pairs. -/
  pairs : item pairsPerBucket index = .ok bucket.pairs
  /-- The first position of the last line. -/
  first : item lastLineFirst index = .ok (linePositions.getD (bucket.pairs / 4) (0, 0)).1
  /-- The last position of the last line. -/
  last : item lastLineLast index = .ok bucket.lastPosition
  /-- There is a pair. -/
  pairs_pos : 0 < bucket.pairs
  /-- There are no more lines than comments. -/
  pairs_lt : bucket.pairs < 32
  /-- There are only a few buckets. -/
  index_lt : index < 8

/-- The arrays have what the buckets have. -/
theorem isBucket_of_mem : ∀ p ∈ nonzeroBuckets.zipIdx, IsBucket p.2 p.1 := by
  have hall : ∀ p ∈ nonzeroBuckets.zipIdx, nonzerosLeft[p.2]? = some p.1.least ∧
      nonzerosLeft[p.2 + 1]? = some (p.1.most + 1) ∧ pairsPerBucket[p.2]? = some p.1.pairs ∧
      lastLineFirst[p.2]? = some (linePositions.getD (p.1.pairs / 4) (0, 0)).1 ∧
      lastLineLast[p.2]? = some p.1.lastPosition ∧ 0 < p.1.pairs ∧ p.1.pairs < 32 ∧ p.2 < 8 := by
    decide
  intro p hp
  obtain ⟨hleast, hmost, hpairs, hfirst, hlast, pairs_pos, pairs_lt, index_lt⟩ := hall p hp
  exact
    { least := item_eq_ok hleast, most := item_eq_ok hmost, pairs := item_eq_ok hpairs
      first := item_eq_ok hfirst, last := item_eq_ok hlast, pairs_pos, pairs_lt, index_lt }

/-- The comments of lines have their positions. -/
theorem item_lineComments {row : Nat} (h : row < 8) : item lineComments row = .ok
    ("  // k: " ++ decimalColumn 2 (linePositions.getD row (0, 0)).1 ++ " - "
      ++ decimalColumn 2 (linePositions.getD row (0, 0)).2 ++ "\n") := by
  have hall : ∀ row < 8, lineComments[row]? = some
      ("  // k: " ++ decimalColumn 2 (linePositions.getD row (0, 0)).1 ++ " - "
        ++ decimalColumn 2 (linePositions.getD row (0, 0)).2 ++ "\n") := by
    decide
  exact item_eq_ok (hall row h)

variable {index : Nat} {bucket : NonzeroBucket}

/-- After the last pair of a bucket the line is filled up, and it ends with its own comment. -/
theorem IsBucket.writes_endPlace_last (h : IsBucket index bucket) :
    Writes (endPlace index bucket.pairs bucket.pairs)
      ((if bucket.pairs % 4 = 3 then lineComment bucket (bucket.pairs / 4) else "  ")
        ++ placesText "   " "  " (lineComment bucket) (bucket.pairs + 1)
          (List.replicate (3 - bucket.pairs % 4) blankCell))
      (bucket.pairs + (3 - bucket.pairs % 4)) := by
  have hpairs := h.pairs_lt
  have hfill : bucket.pairs % 4 + (3 - bucket.pairs % 4) = 3 := by omega
  rw [placesText_replicate hfill, endPlace, if_pos rfl, lineComment, if_pos rfl]
  refine (writes_fillLine hfill (by omega) (by omega)).bind ?_
  refine .step h.first (.step h.last ?_)
  exact writes_write_pure _ _

/-- After another pair the line goes on, or it ends with the next comment. -/
theorem IsBucket.writes_endPlace (h : IsBucket index bucket) {place : Nat}
    (hplace : place < bucket.pairs) :
    Writes (endPlace index bucket.pairs place)
      (if place % 4 = 3 then lineComment bucket (place / 4) else "  ") place := by
  have hpairs := h.pairs_lt
  rw [endPlace, if_neg (by omega)]
  by_cases hlast : place % 4 = 3
  · rw [if_pos hlast, if_pos hlast, lineComment, if_neg (by omega)]
    exact .step (item_lineComments (by omega)) (writes_write_pure _ _)
  · rw [if_neg hlast, if_neg hlast]
    exact writes_write_pure _ _

theorem writes_openPlace_zero : Writes (openPlace 0) ("   " ++ "          ") 1 :=
  (writes_write _).bind
    (((writes_write _).bind (writes_lift (add_eq_ok (by decide)))).of_eq String.append_empty)

theorem writes_openPlace {place : Nat} (h : 0 < place) :
    Writes (openPlace place) (if place % 4 = 0 then "   " else "") place := by
  rw [openPlace, if_neg (show ¬place = 0 by omega)]
  exact writes_write_pure _ _

/-- From a place on the loop writes the pairs that are left, and fills up the last line. -/
theorem IsBucket.writes_writePairs (h : IsBucket index bucket) {pairs : List (List Nat)}
    {tries place count : Nat} (hpairs : WritesPairs map kind count pairs) (hne : pairs ≠ [])
    (hpos : 0 < place) (hplace : place + pairs.length = bucket.pairs + 1)
    (htries : pairs.length < tries) (hcount : count + pairs.length < 2 ^ 64) :
    Writes (writePairs map kind index bucket.pairs tries place count)
      (placesText "   " "  " (lineComment bucket) place
        (pairs.map pairCell ++ List.replicate (3 - bucket.pairs % 4) blankCell))
      (count + pairs.length) := by
  have hbucket := h.pairs_lt
  induction pairs generalizing tries place count with
  | nil => exact absurd rfl hne
  | cons pair pairs ih =>
    obtain ⟨hpair, hrest⟩ := hpairs.of_cons
    rw [List.length_cons] at hplace htries hcount ⊢
    obtain ⟨tries, rfl⟩ := Nat.exists_eq_add_one.2 (Nat.lt_of_le_of_lt (Nat.zero_le _) htries)
    rw [writePairs, if_pos (by omega)]
    have hadd : add 64 count 1 = .ok (count + 1) := add_eq_ok (by omega)
    -- after the last pair the loop has gone past the last place, wherever its line ends
    cases pairs with
    | nil =>
      obtain rfl : place = bucket.pairs := by
        rw [List.length_nil] at hplace
        omega
      have hend : Writes (writePairs map kind index bucket.pairs tries
          (bucket.pairs + (3 - bucket.pairs % 4) + 1) (count + 1)) "" (count + 1) := by
        obtain ⟨tries, rfl⟩ := Nat.exists_eq_add_one.2 (Nat.lt_of_succ_lt_succ htries)
        rw [writePairs, if_neg (by omega)]
        exact writes_pure _
      refine ((writes_openPlace hpos).bind (hpair.bind (h.writes_endPlace_last.bind
        (.step (add_eq_ok (by omega)) (.step hadd hend))))).of_eq ?_
      rw [List.map_cons, List.map_nil, List.cons_append, List.nil_append, placesText]
      simp only [String.append_assoc, String.append_empty]
    | cons next pairs =>
      have hlt : place < bucket.pairs := by
        rw [List.length_cons] at hplace
        omega
      have hloop := ih hrest (List.cons_ne_nil _ _) (Nat.succ_pos place)
        (show place + 1 + (next :: pairs).length = bucket.pairs + 1 by omega)
        (Nat.lt_of_succ_lt_succ htries) (by omega)
      rw [show count + ((next :: pairs).length + 1) = count + 1 + (next :: pairs).length by omega]
      refine ((writes_openPlace hpos).bind (hpair.bind ((h.writes_endPlace hlt).bind
        (.step (add_eq_ok (by omega)) (.step hadd hloop))))).of_eq ?_
      simp only [List.map_cons, List.cons_append, placesText, String.append_assoc]

/-- A bucket is written with its heading. -/
theorem IsBucket.writes_writeBucket (h : IsBucket index bucket) {pairs : List (List Nat)}
    {count : Nat} (hpairs : WritesPairs map kind count pairs) (hlength : pairs.length = bucket.pairs)
    (hcount : count + pairs.length < 2 ^ 64) :
    Writes (writeBucket map kind count index) (bucketHeading bucket ++ bucketLines bucket pairs)
      (count + pairs.length) := by
  have hpos := h.pairs_pos
  have hne : pairs ≠ [] := by
    rintro rfl
    rw [List.length_nil] at hlength
    omega
  have hloop := h.writes_writePairs hpairs hne Nat.zero_lt_one
    (show 1 + pairs.length = bucket.pairs + 1 by omega)
    (show pairs.length < bucket.pairs + 1 by omega) hcount
  rw [writePairs, if_pos (by omega)] at hloop
  have hlines : Writes (writePairs map kind index bucket.pairs (bucket.pairs + 1) 0 count)
      (bucketLines bucket pairs) (count + pairs.length) := by
    -- at place 0 the loop leaves a blank and goes on as from place 1, which opens no line
    rw [writePairs, if_pos (Nat.zero_le _)]
    refine (writes_openPlace_zero.bind ((writes_openPlace Nat.zero_lt_one).of_bind hloop)).of_eq ?_
    rw [bucketLines_eq hlength h.pairs_lt, bucketCells, List.cons_append, placesText, hlength]
    rfl
  have hmost : sub (bucket.most + 1) 1 = .ok bucket.most := sub_eq_ok (Nat.le_add_left _ _)
  have hindex := h.index_lt
  exact .step h.least (.step (add_eq_ok (by omega)) (.step h.most (.step hmost
    ((writes_write _).bind (.step h.pairs hlines)))))

/-- Buckets take as many pairs as they have, one after another. -/
theorem writes_buckets {buckets : List (NonzeroBucket × Nat)}
    (hbuckets : ∀ p ∈ buckets, IsBucket p.2 p.1) {pairs : List (List Nat)} {count : Nat}
    (hpairs : WritesPairs map kind count pairs)
    (hlength : pairs.length = (buckets.map (·.1.pairs)).sum) (hcount : count + pairs.length < 2 ^ 64) :
    Writes ((buckets.map (·.2)).foldlM (writeBucket map kind) count)
      (bucketsLines (buckets.map (·.1)) pairs) (count + pairs.length) := by
  induction buckets generalizing pairs count with
  | nil =>
    rw [List.map_nil, List.sum_nil] at hlength
    rw [hlength]
    exact writes_pure count
  | cons p buckets ih =>
    obtain ⟨hp, hrest⟩ := List.forall_mem_cons.1 hbuckets
    rw [List.map_cons, List.sum_cons] at hlength
    have htake : (pairs.take p.1.pairs).length = p.1.pairs := by
      rw [List.length_take]
      omega
    have hdrop : (pairs.drop p.1.pairs).length = (buckets.map (·.1.pairs)).sum := by
      rw [List.length_drop]
      omega
    have hone := hp.writes_writeBucket (hpairs.take p.1.pairs) htake (by omega)
    have hothers := ih hrest (hpairs.drop p.1.pairs) hdrop (by omega)
    rw [htake] at hone
    rw [hdrop, show count + p.1.pairs + (buckets.map (·.1.pairs)).sum = count + pairs.length by
      omega] at hothers
    rw [List.map_cons, List.foldlM_cons]
    exact hone.bind hothers

/-- The entries of a kind of block are written. -/
theorem writes_writeKind {entries : List Nat} (hlength : entries.length = entriesPerKind)
    (hkind : kind < 2 ^ 32)
    (h : StandsAt map (predictedCounts * blockKinds + kind * entriesPerKind) entries) (name : String) :
    Writes (writeKind map (name, kind)) (kindLines name entries) () := by
  have hrows : (rowsOf 1 entries).length = (nonzeroBuckets.zipIdx.map (·.1.pairs)).sum := by
    rw [length_rowsOf, hlength]
    rfl
  have hbuckets := writes_buckets isBucket_of_mem
    (writesPairs_rowsOf (n := 229) hlength hkind (by decide) h) hrows (by rw [hrows]; decide)
  exact (writes_write _).bind ((hbuckets.bind (writes_pure ())).of_eq String.append_empty)

/-! ## The whole table -/

/-- All kinds of blocks are written, one after another. -/
theorem writes_kinds {entries : List Nat} (hlength : entries.length = blockKinds * entriesPerKind)
    (h : StandsAt map (predictedCounts * blockKinds) entries) :
    Writes (blockKindNames.zipIdx.forM (writeKind map))
      (String.join (((rowsOf (entriesPerKind - 1) entries).zip blockKindNames).map
        fun (entries, name) ↦ kindLines name entries)) () := by
  have hcount : (rowsOf (entriesPerKind - 1) entries).length = blockKindNames.length := by
    rw [length_rowsOf, hlength]
    rfl
  have hrow : ∀ p ∈ blockKindNames.zipIdx, Writes (writeKind map p)
      (kindLines p.1 ((rowsOf (entriesPerKind - 1) entries).getD p.2 [])) () := by
    rintro ⟨name, kind⟩ hp
    have hkind : kind < blockKindNames.length := (List.mem_zipIdx' hp).1
    have hget : (rowsOf (entriesPerKind - 1) entries)[kind]? =
        some ((rowsOf (entriesPerKind - 1) entries).getD kind []) := by
      rw [List.getElem?_eq_getElem (hcount ▸ hkind), List.getElem_eq_getD []]
    have hfull := length_of_mem_rowsOf hlength (List.mem_of_getElem? hget)
    refine writes_writeKind hfull (Nat.lt_trans hkind (by decide)) ?_ name
    rw [eq_of_getElem?_rowsOf hget]
    exact (h.drop _).take _
  refine (writes_forM hrow).of_eq (congrArg String.join (List.ext_getElem ?_ ?_))
  · simp [hcount]
  · intro i hi hi'
    rw [List.length_map, List.length_zip] at hi'
    have hi : i < (rowsOf (entriesPerKind - 1) entries).length := by omega
    simp [List.getElem?_eq_getElem hi]

/-- The loops write the listing of the table. -/
theorem writes_writeContextTable (h : contextTableSize ≤ map.size) :
    Writes (writeContextTable map) (contextTableText (map.toList.take contextTableSize)) () := by
  have hstands := standsAt_take map
  have hlength : (map.toList.take contextTableSize).length = contextTableSize := by
    rw [List.length_take, Array.length_toList, Nat.min_eq_left h]
  generalize map.toList.take contextTableSize = entries at hstands hlength
  have hpredictions : (entries.take (predictedCounts * blockKinds)).length =
      predictedCounts * blockKinds := by
    rw [List.length_take, hlength]
    rfl
  have hcontexts : (entries.drop (predictedCounts * blockKinds)).length =
      blockKinds * entriesPerKind := by
    rw [List.length_drop, hlength]
    rfl
  have hfirst := writes_predictions (hstands.take (predictedCounts * blockKinds))
  rw [hpredictions, ← Nat.zero_mul 4, ← predictionLines_eq (n := 37) hpredictions,
    ← List.range_eq_range'] at hfirst
  have hdrop := hstands.drop (predictedCounts * blockKinds)
  rw [Nat.zero_add] at hdrop
  have hsecond := writes_kinds hcontexts hdrop
  have hwrites : Writes (writeContextTable map) _ () :=
    (writes_write _).bind ((writes_write _).bind ((writes_write _).bind ((writes_write _).bind
      (hfirst.bind (hsecond.bind (writes_write _))))))
  refine hwrites.of_eq ?_
  unfold contextTableText
  rw [List.splitAt_eq]
  simp only [String.append_assoc]

/-- The checked program lists a context map as the library does. -/
theorem listContextTable_eq (map : Array Nat) :
    listContextTable map = embedExcept (EntropyCoding.listContextTable map.toList) := by
  rw [listContextTable, EntropyCoding.listContextTable, Array.length_toList]
  by_cases h : map.size < contextTableSize
  · rw [if_pos h, if_pos h]
    rfl
  · rw [if_neg h, if_neg h, writes_writeContextTable (Nat.not_lt.1 h), String.empty_append]
    rfl

/-- Every map that has the 1980 entries of the table is listed, and no entry beyond them is read.  The
numbers before commas outside comments are these entries, in order and each once; so two maps have the
same listing exactly if they have the same entries there. -/
theorem contextTable_faithful {map : Array Nat} (h : 1980 ≤ map.size) :
    (∃ text, listContextTable map = .ok text ∧ EntropyCoding.listContextTable map.toList = .ok text ∧
      listedNumbers text = map.toList.take 1980) ∧
    ∀ map' : Array Nat, 1980 ≤ map'.size →
      (listContextTable map = listContextTable map' ↔
        map.toList.take 1980 = map'.toList.take 1980) := by
  have hlisted {map : Array Nat} (h : 1980 ≤ map.size) : ∃ text, listContextTable map = .ok text ∧
      text = contextTableText (map.toList.take 1980) ∧
      EntropyCoding.listContextTable map.toList = .ok text ∧
      listedNumbers text = map.toList.take 1980 := by
    have hlength : (map.toList.take 1980).length = contextTableSize := by
      rw [List.length_take, Array.length_toList, Nat.min_eq_left h]
      rfl
    have htext : EntropyCoding.listContextTable map.toList =
        .ok (contextTableText (map.toList.take 1980)) := by
      rw [EntropyCoding.listContextTable, Array.length_toList]
      exact if_neg (Nat.not_lt.2 h)
    have hchecked := (listContextTable_eq map).trans (embedExcept_eq_ok_iff.2 htext)
    exact ⟨_, hchecked, rfl, htext, (lists_contextTableText hlength).listedNumbers_eq⟩
  obtain ⟨text, htext, hform, hnumbers⟩ := hlisted h
  refine ⟨⟨text, htext, hnumbers⟩, fun map' h' ↦ ?_⟩
  obtain ⟨text', htext', hform', -, hnumbers'⟩ := hlisted h'
  constructor
  · intro heq
    rw [htext, htext', Except.ok.injEq] at heq
    rw [← hnumbers.2, heq, hnumbers']
  · intro heq
    rw [htext, htext', hform, hform', heq]

/-- A map of 1981 bytes has the listing of a longer one that goes on in the same way, but not that of a
map that differs in the last entry of the table. -/
theorem contextTable_faithful_long :
    1980 ≤ ((Array.range 1981).map (· % 251)).size ∧
    1980 ≤ ((Array.range 2000).map (· % 251)).size ∧
    1980 ≤ ((Array.range 1981).map fun i ↦ i % 251 + i / 1979).size ∧
    (∃ text, listContextTable ((Array.range 1981).map (· % 251)) = .ok text ∧
      listedNumbers text = (List.range 1980).map (· % 251) ∧
      listContextTable ((Array.range 2000).map (· % 251)) = .ok text) ∧
    listContextTable ((Array.range 1981).map (· % 251)) ≠
      listContextTable ((Array.range 1981).map fun i ↦ i % 251 + i / 1979) := by
  have htake (n : Nat) (hn : 1980 ≤ n) (f : Nat → Nat) :
      ((Array.range n).map f).toList.take 1980 = (List.range 1980).map f := by
    rw [Array.toList_map, Array.toList_range, ← List.map_take, List.take_range, Nat.min_eq_left hn]
  have hsize (n : Nat) (hn : 1980 ≤ n) (f : Nat → Nat) : 1980 ≤ ((Array.range n).map f).size := by
    rwa [Array.size_map, Array.size_range]
  have h := hsize 1981 (by decide) (· % 251)
  have hlong := hsize 2000 (by decide) (· % 251)
  have hother := hsize 1981 (by decide) fun i ↦ i % 251 + i / 1979
  obtain ⟨⟨text, htext, -, hnumbers⟩, hsame⟩ := contextTable_faithful h
  rw [htake 1981 (by decide)] at hnumbers
  refine ⟨h, hlong, hother, ⟨text, htext, hnumbers, ?_⟩, fun heq ↦ ?_⟩
  · rw [← htext, (hsame _ hlong).2 ((htake 1981 (by decide) _).trans (htake 2000 (by decide) _).symm)]
  · have hentries := (hsame _ hother).1 heq
    rw [htake 1981 (by decide), htake 1981 (by decide)] at hentries
    have hlast := congrArg (·[1979]?) hentries
    simp at hlast

end Checked

end EntropyCoding
