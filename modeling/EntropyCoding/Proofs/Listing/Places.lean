import EntropyCoding.Listing.ContextTable

/-!
# Listings place by place

The text of a listing is given row by row; a program that writes it goes from place to place and asks
at each whether a line begins or ends there.  `placesText` is the text it writes for cells from a place
on.  It is the text of the rows, `join_rows`, if every row is full; the lines of a bucket have a blank
cell at place 0 and further ones at the end of the last line, `bucketLines_eq`.
-/

namespace EntropyCoding

section Places

variable (opening between : String) (comment : Nat → String)

/-- The text of cells from a place on, with four cells in a line. -/
def placesText : Nat → List String → String
  | _, [] => ""
  | place, cell :: cells =>
    (if place % 4 = 0 then opening else "") ++ cell
      ++ (if place % 4 = 3 then comment (place / 4) else between)
      ++ placesText (place + 1) cells

/-- A whole line. -/
theorem placesText_line (row : Nat) (a b c d : String) (cells : List String) :
    placesText opening between comment (row * 4) (a :: b :: c :: d :: cells) =
      opening ++ a ++ between ++ b ++ between ++ c ++ between ++ d ++ comment row
        ++ placesText opening between comment ((row + 1) * 4) cells := by
  have hdiv : (row * 4 + 1 + 1 + 1) / 4 = row := by omega
  have hmod₁ : (row * 4 + 1) % 4 = 1 := by omega
  have hmod₂ : (row * 4 + 1 + 1) % 4 = 2 := by omega
  have hmod₃ : (row * 4 + 1 + 1 + 1) % 4 = 3 := by omega
  have hnext : row * 4 + 1 + 1 + 1 + 1 = (row + 1) * 4 := by omega
  simp [placesText, hdiv, hmod₁, hmod₂, hmod₃, hnext, String.append_assoc]

variable {opening between comment}

/-- Rows of four cells, one after another. -/
theorem join_rows {α : Type} (cell : α → String) (line : List α → Nat → String)
    (hline : ∀ a b c d row, line [a, b, c, d] row = opening ++ cell a ++ between ++ cell b ++ between
      ++ cell c ++ between ++ cell d ++ comment row)
    {n : Nat} {cells : List α} (h : cells.length = n * 4) (row : Nat) :
    String.join (((rowsOf 3 cells).zipIdx row).map fun p ↦ line p.1 p.2) =
      placesText opening between comment (row * 4) (cells.map cell) := by
  induction n generalizing cells row with
  | zero =>
    rw [Nat.zero_mul, List.length_eq_zero_iff] at h
    rw [h, rowsOf]
    rfl
  | succ n ih =>
    have hlength : cells.length = n * 4 + 3 + 1 := by omega
    obtain ⟨a, cells, rfl⟩ := List.exists_cons_of_length_eq_add_one hlength
    obtain ⟨b, cells, rfl⟩ := List.exists_cons_of_length_eq_add_one (Nat.succ.inj hlength)
    obtain ⟨c, cells, rfl⟩ :=
      List.exists_cons_of_length_eq_add_one (Nat.succ.inj (Nat.succ.inj hlength))
    obtain ⟨d, cells, rfl⟩ :=
      List.exists_cons_of_length_eq_add_one (Nat.succ.inj (Nat.succ.inj (Nat.succ.inj hlength)))
    have hcells : cells.length = n * 4 := by
      simp only [List.length_cons] at h
      omega
    rw [show a :: b :: c :: d :: cells = [a, b, c, d] ++ cells from rfl, rowsOf_append rfl,
      List.zipIdx_cons, List.map_cons, String.join_cons, ih hcells, hline]
    exact (placesText_line opening between comment row _ _ _ _ _).symm

/-- The last line is filled up with blank cells. -/
theorem placesText_replicate {blank : String} {place k : Nat} (h : place % 4 + k = 3) :
    (if place % 4 = 3 then comment (place / 4) else between)
        ++ placesText opening between comment (place + 1) (List.replicate k blank) =
      String.join (List.replicate k (between ++ blank)) ++ comment (place / 4) := by
  induction k generalizing place with
  | zero =>
    rw [Nat.add_zero] at h
    rw [if_pos h, List.replicate_zero, List.replicate_zero, placesText, String.append_empty,
      String.join_nil, String.empty_append]
  | succ k ih =>
    have hdiv : (place + 1) / 4 = place / 4 := by omega
    have hnext : (place + 1) % 4 + k = 3 := by omega
    have hrest := ih hnext
    rw [hdiv] at hrest
    rw [if_neg (by omega), List.replicate_succ, List.replicate_succ, placesText, if_neg (by omega),
      String.empty_append, String.join_cons]
    simp only [String.append_assoc] at hrest ⊢
    rw [hdiv, hrest]

end Places

/-! ## The context table -/

/-- An entry of the first part. -/
def predictionCell (entry : Nat) : String := " " ++ decimalColumn 4 entry ++ ","

def predictionEnd (predicted : Nat) : String :=
  "    // pred: " ++ predictionComment predicted ++ "\n"

/-- The lines of the first part, place by place. -/
theorem predictionLines_eq {n : Nat} {entries : List Nat} (h : entries.length = n * 4) :
    predictionLines entries =
      placesText "      " "" predictionEnd (0 * 4) (entries.map predictionCell) := by
  have hline (a b c d row : Nat) : predictionLine [a, b, c, d] row =
      "      " ++ predictionCell a ++ "" ++ predictionCell b ++ "" ++ predictionCell c ++ ""
        ++ predictionCell d ++ predictionEnd row := by
    unfold predictionLine predictionEnd predictionCell
    simp only [List.map_cons, List.map_nil, String.join_cons, String.join_nil, String.append_assoc,
      String.empty_append]
  exact join_rows predictionCell predictionLine hline h 0

def lineComment (bucket : NonzeroBucket) (row : Nat) : String :=
  "  // k: " ++ decimalColumn 2 (linePositions.getD row (0, 0)).1 ++ " - "
    ++ decimalColumn 2 (if row = bucket.pairs / 4 then bucket.lastPosition
      else (linePositions.getD row (0, 0)).2) ++ "\n"

def numberedLine (bucket : NonzeroBucket) (cells : List String) (row : Nat) : String :=
  bucketLine cells (linePositions.getD row (0, 0)).1
    (if row = bucket.pairs / 4 then bucket.lastPosition else (linePositions.getD row (0, 0)).2)

/-- Rows with what belongs to them and their numbers. -/
theorem map_zipIdx_zip {α β γ : Type} {as : List α} {bs : List β} (h : as.length ≤ bs.length) (b : β)
    (f : (α × β) × Nat → γ) :
    (as.zip bs).zipIdx.map f = as.zipIdx.map fun p ↦ f ((p.1, bs.getD p.2 b), p.2) := by
  apply List.ext_getElem
  · simp [Nat.min_eq_left h]
  · intro i hi hi'
    have hbs : i < bs.length := by
      simp only [List.length_map, List.length_zipIdx] at hi'
      omega
    simp [hbs]

/-- The cells of a bucket, with the blank one at place 0 and those that fill up the last line. -/
def bucketCells (pairs : List (List Nat)) : List String :=
  blankCell :: pairs.map pairCell ++ List.replicate (3 - pairs.length % 4) blankCell

theorem bucketRows_eq (pairs : List (List Nat)) : bucketRows pairs = rowsOf 3 (bucketCells pairs) := by
  have hblanks : (4 - (pairs.length + 1) % 4) % 4 = 3 - pairs.length % 4 := by omega
  rw [bucketRows, List.length_cons, List.length_map, hblanks, bucketCells]

theorem length_bucketCells (pairs : List (List Nat)) :
    (bucketCells pairs).length = (pairs.length / 4 + 1) * 4 := by
  rw [bucketCells, List.length_append, List.length_replicate, List.length_cons, List.length_map]
  omega

theorem length_bucketRows (pairs : List (List Nat)) :
    (bucketRows pairs).length = pairs.length / 4 + 1 := by
  rw [bucketRows_eq, length_rowsOf, length_bucketCells]
  omega

/-- There is a comment for each row of a bucket, so no row gets lost. -/
theorem bucketLines_eq_join {bucket : NonzeroBucket} {pairs : List (List Nat)}
    (h : pairs.length = bucket.pairs) (hbucket : bucket.pairs < 32) :
    bucketLines bucket pairs =
      String.join ((bucketRows pairs).zipIdx.map fun p ↦ numberedLine bucket p.1 p.2) := by
  have hrows : (bucketRows pairs).length = bucket.pairs / 4 + 1 := h ▸ length_bucketRows pairs
  have hle : (bucketRows pairs).length ≤ linePositions.length := by
    rw [hrows, show linePositions.length = 8 from rfl]
    omega
  unfold bucketLines
  dsimp only
  rw [map_zipIdx_zip hle (0, 0), hrows]
  simp only [Nat.add_right_cancel_iff, numberedLine]

/-- The lines of a bucket, place by place. -/
theorem bucketLines_eq {bucket : NonzeroBucket} {pairs : List (List Nat)}
    (h : pairs.length = bucket.pairs) (hbucket : bucket.pairs < 32) :
    bucketLines bucket pairs =
      placesText "   " "  " (lineComment bucket) (0 * 4) (bucketCells pairs) := by
  have hline (a b c d : String) (row : Nat) : numberedLine bucket [a, b, c, d] row =
      "   " ++ a ++ "  " ++ b ++ "  " ++ c ++ "  " ++ d ++ lineComment bucket row := by
    unfold numberedLine bucketLine lineComment
    simp only [String.intercalate_cons_cons, String.intercalate_singleton, String.append_assoc]
  have hjoin := join_rows id (numberedLine bucket) hline (length_bucketCells pairs) 0
  rw [List.map_id, ← bucketRows_eq] at hjoin
  rw [bucketLines_eq_join h hbucket, hjoin]

end EntropyCoding
