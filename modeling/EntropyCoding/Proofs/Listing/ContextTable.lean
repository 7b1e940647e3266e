import EntropyCoding.Proofs.Listing.Numbers
import EntropyCoding.Proofs.Listing.Places

/-!
# The numbers of the context table

The listing of a context table lists the entries of the table, in order and each once,
`lists_contextTableText`.  What could go wrong is that a row is dropped because there are fewer
comments than rows or fewer names than kinds of blocks, or that the buckets take more or fewer pairs
than there are; so the sizes are looked at: the rows of a bucket are at most as many as the comments,
and the pairs of the buckets are the pairs of a kind of block.
-/

namespace EntropyCoding

theorem flatMap_zipIdx {α β : Type} (f : α → List β) (as : List α) (i : Nat) :
    ((as.zipIdx i).flatMap fun p ↦ f p.1) = as.flatMap f := by
  induction as generalizing i with
  | nil => rfl
  | cons a as ih => rw [List.zipIdx_cons, List.flatMap_cons, ih, List.flatMap_cons]

theorem flatMap_zip {α β γ : Type} (f : α → List γ) {as : List α} {bs : List β}
    (h : as.length ≤ bs.length) : ((as.zip bs).flatMap fun p ↦ f p.1) = as.flatMap f := by
  rw [← List.flatMap_map, List.map_fst_zip h]

/-! ## Cells -/

theorem lists_entry (width entry : Nat) :
    Lists (" " ++ decimalColumn width entry ++ ",") [entry] := by
  rw [String.append_assoc]
  exact .of_append (lists_blanks 1) (lists_decimalColumn width entry)

theorem lists_entries (width : Nat) (entries : List Nat) :
    Lists (String.join (entries.map fun entry ↦ " " ++ decimalColumn width entry ++ ",")) entries := by
  have h : Lists _ (entries.flatMap fun entry ↦ [entry]) :=
    lists_join fun entry _ ↦ lists_entry width entry
  rwa [List.flatMap_singleton'] at h

/-! ## Numbers of nonzero coefficients -/

theorem oneLine_predictionComment (predicted : Nat) : OneLine (predictionComment predicted) := by
  rw [predictionComment]
  split
  · exact oneLine_decimalColumn _ _
  · split
    · exact ((oneLine_decimalColumn _ _).append (by decide)).append (oneLine_decimalColumn _ _)
    · decide

/-- The line of a predicted number lists its entries. -/
theorem lists_predictionLine (entries : List Nat) (predicted : Nat) :
    Lists (predictionLine entries predicted) entries := by
  have hcomment : Lists ("    " ++ ("//" ++ (" pred: " ++ predictionComment predicted) ++ "\n")) [] :=
    lists_comment 4 ((by decide : OneLine " pred: ").append (oneLine_predictionComment predicted))
  have htext : predictionLine entries predicted =
      "      " ++ String.join (entries.map fun entry ↦ " " ++ decimalColumn 4 entry ++ ",")
        ++ ("    " ++ ("//" ++ (" pred: " ++ predictionComment predicted) ++ "\n")) := by
    rw [predictionLine, show "    // pred: " = "    " ++ ("//" ++ " pred: ") from rfl]
    simp only [String.append_assoc]
  rw [htext]
  exact ((lists_blanks 6).of_append (lists_entries 4 entries)).append_of hcomment

theorem lists_predictionLines (entries : List Nat) : Lists (predictionLines entries) entries := by
  have h : Lists _ ((rowsOf (blockKinds - 1) entries).zipIdx.flatMap fun p ↦ id p.1) :=
    lists_join fun p _ ↦ lists_predictionLine p.1 p.2
  rwa [flatMap_zipIdx, ← List.flatten_eq_flatMap, flatten_rowsOf] at h

/-! ## Contexts of coefficients -/

theorem lists_pairCell (pair : List Nat) : Lists (pairCell pair) pair :=
  lists_entries 2 pair

/-- Each cell of a bucket lists its numbers, whatever comes after it. -/
theorem lists_of_mem_bucketRows {pairs : List (List Nat)} {cells : List String}
    (hcells : cells ∈ bucketRows pairs) {cell : String} (hcell : cell ∈ cells) :
    Lists cell (listedNumbers cell) := by
  have hblank : Lists blankCell (listedNumbers blankCell) := lists_blanks 8
  have hmem : cell ∈ (bucketRows pairs).flatten := List.mem_flatten_of_mem hcells hcell
  rw [bucketRows_eq, flatten_rowsOf, bucketCells, List.mem_append, List.mem_cons, List.mem_map] at hmem
  obtain (rfl | ⟨pair, -, rfl⟩) | hmem := hmem
  · exact hblank
  · rw [(lists_pairCell pair).listedNumbers_eq]
    exact lists_pairCell pair
  · rwa [List.eq_of_mem_replicate hmem]

/-- The numbers of the cells of a bucket are those of its pairs. -/
theorem flatMap_bucketRows (pairs : List (List Nat)) :
    ((bucketRows pairs).flatMap fun cells ↦ cells.flatMap listedNumbers) = pairs.flatten := by
  have hblank : listedNumbers blankCell = [] := (lists_blanks 8).listedNumbers_eq
  have hpairs : (pairs.map pairCell).flatMap listedNumbers = pairs.flatten := by
    rw [List.flatMap_map, List.flatten_eq_flatMap]
    congr 1
    funext pair
    exact (lists_pairCell pair).listedNumbers_eq
  have hblanks (n : Nat) : (List.replicate n blankCell).flatMap listedNumbers = [] := by
    rw [List.flatMap_eq_nil_iff]
    intro cell hcell
    rw [List.eq_of_mem_replicate hcell, hblank]
  calc ((bucketRows pairs).flatMap fun cells ↦ cells.flatMap listedNumbers)
    _ = (bucketRows pairs).flatten.flatMap listedNumbers := by
        rw [List.flatten_eq_flatMap, List.flatMap_assoc]
        rfl
    _ = pairs.flatten := by
        rw [bucketRows_eq, flatten_rowsOf, bucketCells, List.flatMap_append, List.flatMap_cons, hblank,
          hpairs, hblanks, List.nil_append, List.append_nil]

/-- A line of a bucket lists the numbers of its cells. -/
theorem lists_bucketLine {cells : List String} (h : ∀ cell ∈ cells, Lists cell (listedNumbers cell))
    (first last : Nat) : Lists (bucketLine cells first last) (cells.flatMap listedNumbers) := by
  have hcomment : Lists ("  " ++
      ("//" ++ (" k: " ++ decimalColumn 2 first ++ " - " ++ decimalColumn 2 last) ++ "\n")) [] :=
    lists_comment 2 ((((by decide : OneLine " k: ").append (oneLine_decimalColumn 2 first)).append
      (by decide)).append (oneLine_decimalColumn 2 last))
  have htext : bucketLine cells first last = "   " ++ "  ".intercalate cells ++ ("  " ++
      ("//" ++ (" k: " ++ decimalColumn 2 first ++ " - " ++ decimalColumn 2 last) ++ "\n")) := by
    rw [bucketLine, show "  // k: " = "  " ++ ("//" ++ " k: ") from rfl]
    simp only [String.append_assoc]
  rw [htext]
  exact ((lists_blanks 3).of_append (lists_intercalate (lists_blanks 2) h)).append_of hcomment

/-- The lines of a bucket list its pairs. -/
theorem lists_bucketLines {bucket : NonzeroBucket} {pairs : List (List Nat)}
    (h : pairs.length = bucket.pairs) (hbucket : bucket.pairs < 32) :
    Lists (bucketLines bucket pairs) pairs.flatten := by
  have hlines : Lists (bucketLines bucket pairs)
      ((bucketRows pairs).zipIdx.flatMap fun p ↦ p.1.flatMap listedNumbers) := by
    rw [bucketLines_eq_join h hbucket]
    refine lists_join fun p hp ↦ lists_bucketLine (fun cell hcell ↦ ?_) _ _
    exact lists_of_mem_bucketRows (List.fst_mem_of_mem_zipIdx hp) hcell
  rwa [flatMap_zipIdx fun cells : List String ↦ cells.flatMap listedNumbers, flatMap_bucketRows] at hlines

/-- The heading of a bucket lists nothing. -/
theorem lists_bucketHeading (bucket : NonzeroBucket) : Lists (bucketHeading bucket) [] := by
  have hmost : OneLine (if bucket.least = bucket.most then "" else " - " ++ toString bucket.most) := by
    split
    · decide
    · exact (by decide : OneLine " - ").append (oneLine_toString bucket.most)
  have hcomment := lists_comment 4
    (((by decide : OneLine " Nonzeros left: ").append (oneLine_toString bucket.least)).append hmost)
  have htext : bucketHeading bucket = "    " ++ ("//" ++ (" Nonzeros left: " ++ toString bucket.least
      ++ (if bucket.least = bucket.most then "" else " - " ++ toString bucket.most)) ++ "\n") := by
    unfold bucketHeading
    rw [show "    // Nonzeros left: " = "    " ++ ("//" ++ " Nonzeros left: ") from rfl]
    simp only [String.append_assoc]
  rw [htext]
  exact hcomment

/-- Buckets list as many pairs as they have. -/
theorem lists_bucketsLines {buckets : List NonzeroBucket} (hbuckets : ∀ b ∈ buckets, b.pairs < 32)
    {pairs : List (List Nat)} (h : pairs.length = (buckets.map (·.pairs)).sum) :
    Lists (bucketsLines buckets pairs) pairs.flatten := by
  induction buckets generalizing pairs with
  | nil =>
    rw [List.length_eq_zero_iff.1 h]
    exact lists_empty
  | cons bucket buckets ih =>
    obtain ⟨hbucket, hrest⟩ := List.forall_mem_cons.1 hbuckets
    rw [List.map_cons, List.sum_cons] at h
    have htake : (pairs.take bucket.pairs).length = bucket.pairs := by
      rw [List.length_take]
      omega
    have hdrop : (pairs.drop bucket.pairs).length = (buckets.map (·.pairs)).sum := by
      rw [List.length_drop]
      omega
    have hsplit : pairs.flatten =
        (pairs.take bucket.pairs).flatten ++ (pairs.drop bucket.pairs).flatten := by
      rw [← List.flatten_append, List.take_append_drop]
    rw [hsplit]
    exact ((lists_bucketHeading bucket).of_append (lists_bucketLines htake hbucket)).append
      (ih hrest hdrop)

/-- The heading of a kind of block lists nothing. -/
theorem lists_kindHeading {name : String} (hname : OneLine name) :
    Lists ("\n    //\n    // Zero density context map for " ++ name ++ " blocks\n    //\n") [] := by
  have hempty : Lists ("    " ++ ("//" ++ "" ++ "\n")) [] := lists_comment 4 (by decide)
  have hcomment := lists_comment 4
    (((by decide : OneLine " Zero density context map for ").append hname).append
      (by decide : OneLine " blocks"))
  have hbreak : Lists "\n" [] := lists_of_quiet (by decide) (by decide) rfl
  have htext := (hbreak.append hempty).append (hcomment.append hempty)
  rw [show "\n    //\n    // Zero density context map for " = "\n" ++ ("    " ++ ("//" ++ "" ++ "\n"))
      ++ ("    " ++ ("//" ++ " Zero density context map for ")) from rfl,
    show " blocks\n    //\n" = " blocks" ++ "\n" ++ ("    " ++ ("//" ++ "" ++ "\n")) from rfl]
  simp only [String.append_assoc] at htext ⊢
  exact htext

theorem lists_kindLines {name : String} (hname : OneLine name) {entries : List Nat}
    (h : entries.length = entriesPerKind) : Lists (kindLines name entries) entries := by
  have hlength : (rowsOf 1 entries).length = (nonzeroBuckets.map (·.pairs)).sum := by
    rw [length_rowsOf, h]
    rfl
  have hpairs := lists_bucketsLines (by decide) hlength
  rw [flatten_rowsOf] at hpairs
  exact (lists_kindHeading hname).of_append hpairs

/-- The lines of all kinds of blocks list their entries one after another. -/
theorem lists_contextLines {entries : List Nat} (h : entries.length = blockKinds * entriesPerKind) :
    Lists (String.join (((rowsOf (entriesPerKind - 1) entries).zip blockKindNames).map
      fun (entries, name) ↦ kindLines name entries)) entries := by
  have hnames : ∀ name ∈ blockKindNames, OneLine name := by decide
  have hrows : (rowsOf (entriesPerKind - 1) entries).length ≤ blockKindNames.length := by
    rw [length_rowsOf, h]
    decide
  have hlists : Lists _ (((rowsOf (entriesPerKind - 1) entries).zip blockKindNames).flatMap
      fun p ↦ id p.1) := lists_join fun p hp ↦
    lists_kindLines (hnames _ (List.of_mem_zip hp).2) (length_of_mem_rowsOf h (List.of_mem_zip hp).1)
  rwa [flatMap_zip id hrows, ← List.flatten_eq_flatMap, flatten_rowsOf] at hlists

/-! ## The whole table -/

/-- What comes before the entries lists nothing. -/
theorem lists_contextTableHeading : Lists ("static constexpr uint8_t kACContextMap[] = \x7b\n"
    ++ "    // Context map for number of nonzeros\n" ++ "    //   8x8   8x16  8x8   8x16\n"
    ++ "    //    Y     Y    X,B   X,B\n") [] := by
  have hopening : Lists "static constexpr uint8_t kACContextMap[] = \x7b\n" [] :=
    lists_of_quiet (by decide) (by decide) rfl
  have hcomment {line : String} (text : String) (hline : line = "    " ++ ("//" ++ text ++ "\n"))
      (htext : OneLine text) : Lists line [] := by
    rw [hline]
    exact lists_comment 4 htext
  exact ((hopening.append (hcomment " Context map for number of nonzeros" rfl (by decide))).append
    (hcomment "   8x8   8x16  8x8   8x16" rfl (by decide))).append
    (hcomment "    Y     Y    X,B   X,B" rfl (by decide))

/-- The listing of a context table lists its entries, in order and each once. -/
theorem lists_contextTableText {entries : List Nat} (h : entries.length = contextTableSize) :
    Lists (contextTableText entries) entries := by
  have hcontexts : (entries.drop (predictedCounts * blockKinds)).length =
      blockKinds * entriesPerKind := by
    rw [List.length_drop, h]
    rfl
  have hclosing : Lists "\x7d;\n" [] := lists_of_quiet (by decide) (by decide) rfl
  have hlists := (lists_contextTableHeading.of_append
    ((lists_predictionLines (entries.take (predictedCounts * blockKinds))).append
      (lists_contextLines hcontexts))).append_of hclosing
  rw [List.take_append_drop, ← String.append_assoc] at hlists
  unfold contextTableText
  rwa [List.splitAt_eq]

end EntropyCoding
