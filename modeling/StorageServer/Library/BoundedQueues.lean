import Mathlib.Data.List.Basic

/-! First-in-first-out queues with room for a fixed number of items, and what comes out of them. -/
namespace StorageServer.Library.BoundedQueues
variable {α : Type*} {bound : ℕ}

inductive Operation (α : Type*)
  | push (item : α)
  | pop

/-- Whether an item has been stored, or the item that has been taken. -/
inductive Answer (α : Type*)
  | pushed (stored : Bool)
  | popped (item : Option α)
  deriving DecidableEq

def apply (bound : ℕ) (items : List α) : Operation α → Answer α × List α
  | .push item =>
    if items.length < bound then (.pushed true, items ++ [item]) else (.pushed false, items)
  | .pop =>
    match items with
    | [] => (.popped none, [])
    | item::items => (.popped (some item), items)

/-- The answers of a sequence of operations, and the items that remain. -/
def run (bound : ℕ) (items : List α) : List (Operation α) → List (Answer α) × List α
  | [] => ([], items)
  | op::ops =>
    let (answer, items) := apply bound items op
    let (answers, items) := run bound items ops
    (answer::answers, items)

/-- The items that have been stored, in order. -/
def stored : List (Operation α) → List (Answer α) → List α
  | .push item :: ops, .pushed true :: answers => item :: stored ops answers
  | _::ops, _::answers => stored ops answers
  | _, _ => []

/-- The items that have been taken, in order. -/
def taken (answers : List (Answer α)) : List α :=
  answers.filterMap fun
    | .popped item => item
    | .pushed _ => none

/-- Nothing is lost, doubled or overtaken: what was there and what has been stored is what has been
taken and what remains. -/
theorem stored_eq_taken (bound : ℕ) (items : List α) (ops : List (Operation α)) :
    items ++ stored ops (run bound items ops).1 =
      taken (run bound items ops).1 ++ (run bound items ops).2 := by
  induction ops generalizing items with
  | nil => exact List.append_nil items
  | cons op ops ih =>
    cases op with
    | push item =>
      rw [run, apply]
      split_ifs with hlt
      · have h := ih (items ++ [item])
        rw [List.append_assoc] at h
        exact h
      · exact ih items
    | pop =>
      cases items with
      | nil => exact ih []
      | cons item items => exact congrArg (item :: ·) (ih items)

end StorageServer.Library.BoundedQueues
