/-!
# Rows of a listing

A listing sets its cells in rows of a fixed length; the last row may be shorter.  `flatten_rowsOf`
says that no cell is lost or moved, `length_rowsOf` how many rows there are, and
`eq_of_getElem?_rowsOf` which cells a row has.
-/

namespace EntropyCoding

/-- Splits a list into rows of `extra + 1` cells. -/
def rowsOf {α : Type} (extra : Nat) : List α → List (List α)
  | [] => []
  | cell :: cells => (cell :: cells.take extra) :: rowsOf extra (cells.drop extra)
termination_by cells => cells.length
decreasing_by simp only [List.length_drop, List.length_cons]; omega

/-- The rows hold the cells in order. -/
@[simp] theorem flatten_rowsOf {α : Type} (extra : Nat) (cells : List α) :
    (rowsOf extra cells).flatten = cells := by
  fun_induction rowsOf extra cells with
  | case1 => rfl
  | case2 cell cells ih => simp [ih]

/-- There is a row for every `extra + 1` cells that have been begun. -/
@[simp] theorem length_rowsOf {α : Type} (extra : Nat) (cells : List α) :
    (rowsOf extra cells).length = (cells.length + extra) / (extra + 1) := by
  fun_induction rowsOf extra cells with
  | case1 => exact (Nat.div_eq_of_lt (by simp)).symm
  | case2 cell cells ih =>
    rw [List.length_cons, ih, List.length_drop, List.length_cons]
    by_cases hlength : extra ≤ cells.length
    · rw [show cells.length + 1 + extra = cells.length - extra + extra + (extra + 1) by omega,
        Nat.add_div_right _ (Nat.succ_pos extra)]
    · rw [Nat.sub_eq_zero_of_le (by omega), Nat.zero_add, Nat.div_eq_of_lt (Nat.lt_succ_self extra),
        show cells.length + 1 + extra = cells.length + (extra + 1) by omega,
        Nat.add_div_right _ (Nat.succ_pos extra), Nat.div_eq_of_lt (by omega)]

theorem rowsOf_append {α : Type} {extra : Nat} {row : List α} (h : row.length = extra + 1)
    (cells : List α) : rowsOf extra (row ++ cells) = row :: rowsOf extra cells := by
  obtain ⟨cell, others, rfl⟩ := List.exists_cons_of_length_eq_add_one h
  have hothers : others.length = extra := Nat.succ.inj h
  rw [List.cons_append, rowsOf, List.take_left' hothers, List.drop_left' hothers]

/-- If the last row is full too, all rows have the same length. -/
theorem length_of_mem_rowsOf {α : Type} {extra n : Nat} {cells : List α}
    (h : cells.length = n * (extra + 1)) {row : List α} (hrow : row ∈ rowsOf extra cells) :
    row.length = extra + 1 := by
  induction n generalizing cells with
  | zero =>
    rw [Nat.zero_mul] at h
    rw [List.length_eq_zero_iff.1 h, rowsOf] at hrow
    cases hrow
  | succ n ih =>
    rw [Nat.succ_mul] at h
    have htake : (cells.take (extra + 1)).length = extra + 1 := by
      rw [List.length_take]
      omega
    rw [← List.take_append_drop (extra + 1) cells, rowsOf_append htake, List.mem_cons] at hrow
    obtain rfl | hrow := hrow
    · exact htake
    · exact ih (by rw [List.length_drop]; omega) hrow

/-- A row begins where the rows before it end. -/
theorem eq_of_getElem?_rowsOf {α : Type} {extra j : Nat} {cells row : List α}
    (h : (rowsOf extra cells)[j]? = some row) :
    row = (cells.drop (j * (extra + 1))).take (extra + 1) := by
  fun_induction rowsOf extra cells generalizing j with
  | case1 => cases h
  | case2 cell cells ih =>
    cases j with
    | zero =>
      rw [List.getElem?_cons_zero, Option.some.injEq] at h
      rw [← h, Nat.zero_mul, List.drop_zero, List.take_succ_cons]
    | succ j =>
      rw [List.getElem?_cons_succ] at h
      rw [ih h, List.drop_drop, show (j + 1) * (extra + 1) = extra + j * (extra + 1) + 1 by
        rw [Nat.succ_mul]; omega, List.drop_succ_cons]

end EntropyCoding
