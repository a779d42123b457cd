import Mathlib.Data.List.Basic

/-! Texts that are read line by line, each line with the newline that ends it. -/
namespace StorageServer.Library.Lines
variable {α : Type*} [DecidableEq α] {newline : α} {xs : List α}

/-- The lines of a text. The last one may have no newline. -/
def lines (newline : α) : List α → List (List α)
  | [] => []
  | x::xs =>
    if x = newline then [x] :: lines newline xs
    else match lines newline xs with
      | [] => [[x]]
      | line::more => (x::line) :: more

theorem lines_append (h : newline ∉ xs) (more : List α) :
    lines newline (xs ++ newline :: more) = (xs ++ [newline]) :: lines newline more := by
  induction xs with
  | nil => exact if_pos rfl
  | cons x xs ih =>
    obtain ⟨hx, hxs⟩ := not_or.mp (mt List.mem_cons.mpr h)
    rw [List.cons_append, lines, if_neg (Ne.symm hx), ih hxs]
    rfl

theorem lines_of_notMem (h : newline ∉ xs) (hne : xs ≠ []) : lines newline xs = [xs] := by
  induction xs with
  | nil => exact absurd rfl hne
  | cons x xs ih =>
    obtain ⟨hx, hxs⟩ := not_or.mp (mt List.mem_cons.mpr h)
    rw [lines, if_neg (Ne.symm hx)]
    cases xs with
    | nil => rfl
    | cons y ys => rw [ih hxs (List.cons_ne_nil y ys)]

end StorageServer.Library.Lines
