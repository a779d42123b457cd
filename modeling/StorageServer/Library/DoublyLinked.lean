import Mathlib.Logic.Function.Basic
import Mathlib.Data.List.Basic
import Mathlib.Data.List.Nodup
import Mathlib.Data.List.Induction

/-! Doubly linked lists whose links are two partial functions on an arbitrary type of
addresses. `none` is the null link. Following one link function from one end and the other
from the opposite end visits the same addresses in opposite orders. -/
namespace StorageServer.Library.DoublyLinked
variable {α : Type*}

/-- Following `next` from `start` visits exactly the listed addresses and then meets null. -/
def Visits (next : α → Option α) : Option α → List α → Prop
  | start, [] => start = none
  | start, x::xs => start = some x ∧ Visits next (next x) xs

/-- The addresses met in at most `fuel` steps along `next`. -/
def walk (next : α → Option α) : ℕ → Option α → List α
  | 0, _ => []
  | _+1, none => []
  | fuel+1, some x => x :: walk next fuel (next x)

theorem walk_of_visits {next : α → Option α} {start : Option α} {xs : List α}
    (h : Visits next start xs) (fuel : ℕ) : walk next fuel start = xs.take fuel := by
  induction xs generalizing start fuel with
  | nil =>
    obtain rfl : start = none := h
    cases fuel <;> rfl
  | cons x xs ih =>
    obtain ⟨rfl, ht⟩ := h
    cases fuel with
    | zero => rfl
    | succ fuel => simp only [walk, List.take_succ_cons, ih ht]

theorem Visits.unique {next : α → Option α} {start : Option α} {xs ys : List α}
    (hx : Visits next start xs) (hy : Visits next start ys) : xs = ys := by
  have hwx := walk_of_visits hx (xs.length + ys.length)
  have hwy := walk_of_visits hy (xs.length + ys.length)
  rw [List.take_of_length_le (by omega)] at hwx hwy
  exact hwx.symm.trans hwy

/-- The links of a list segment: `pred` precedes its first cell and `succ` follows its last. -/
def Linked (nex pre : α → Option α) : Option α → List α → Option α → Prop
  | _, [], _ => True
  | pred, x::xs, succ =>
    pre x = pred ∧ nex x = xs.head?.or succ ∧ Linked nex pre (some x) xs succ

variable {nex pre nex' pre' : α → Option α} {pred succ : Option α} {xs ys : List α}

theorem linked_append : Linked nex pre pred (xs ++ ys) succ ↔
    Linked nex pre pred xs (ys.head?.or succ) ∧ Linked nex pre (xs.getLast?.or pred) ys succ := by
  induction xs generalizing pred with
  | nil => simp [Linked]
  | cons x xs ih =>
    have hl : (x::xs).getLast?.or pred = xs.getLast?.or (some x) := by
      cases xs using List.reverseRecOn <;> simp [List.getLast?_cons]
    simp only [List.cons_append, Linked, ih, hl, List.head?_append, Option.or_assoc, and_assoc]

/-- A segment only depends on the links of its own cells. -/
theorem Linked.congr (h : Linked nex pre pred xs succ)
    (hn : ∀ x ∈ xs, nex' x = nex x) (hp : ∀ x ∈ xs, pre' x = pre x) :
    Linked nex' pre' pred xs succ := by
  induction xs generalizing pred with
  | nil => trivial
  | cons x xs ih =>
    obtain ⟨h1, h2, h3⟩ := h
    refine ⟨(hp x (by simp)).trans h1, (hn x (by simp)).trans h2, ?_⟩
    exact ih h3 (fun y hy => hn y (by simp [hy])) (fun y hy => hp y (by simp [hy]))

theorem Linked.visits_nex (h : Linked nex pre pred xs none) : Visits nex xs.head? xs := by
  induction xs generalizing pred with
  | nil => rfl
  | cons x xs ih =>
    obtain ⟨-, h2, h3⟩ := h
    refine ⟨rfl, ?_⟩
    rw [h2, Option.or_none]
    exact ih h3

theorem Linked.visits_pre (h : Linked nex pre none xs succ) :
    Visits pre xs.getLast? xs.reverse := by
  induction xs using List.reverseRecOn generalizing succ with
  | nil => rfl
  | append_singleton xs x ih =>
    obtain ⟨h1, h2, -⟩ := linked_append.mp h
    simp only [List.reverse_append, List.reverse_cons, List.reverse_nil, List.nil_append,
      List.singleton_append, List.getLast?_append, List.getLast?_singleton, Option.some_or]
    refine ⟨rfl, ?_⟩
    rw [h2, Option.or_none]
    exact ih h1

/-- The link of a cell, found by splitting the list at it. -/
theorem Linked.at (h : Linked nex pre pred (xs ++ x :: ys) succ) :
    pre x = xs.getLast?.or pred ∧ nex x = ys.head?.or succ := by
  obtain ⟨-, h1, h2, -⟩ := linked_append.mp h
  exact ⟨h1, h2⟩

section Update
variable [DecidableEq α] {x : α}

/-- Store a link in the cell at an address that may be null. -/
def setLink (links : α → Option α) (at? value : Option α) : α → Option α :=
  match at? with
  | none => links
  | some x => Function.update links x value

@[simp] theorem setLink_none (links : α → Option α) (v : Option α) :
    setLink links none v = links := rfl

theorem setLink_of_ne (links : α → Option α) {p v : Option α} (h : p ≠ some x) :
    setLink links p v x = links x := by
  cases p with
  | none => rfl
  | some y => exact Function.update_of_ne (by rintro rfl; exact h rfl) _ _

theorem setLink_some_self (links : α → Option α) (v : Option α) :
    setLink links (some x) v x = v := Function.update_self _ _ _

/-- Changing the successor of the last cell of a segment. -/
theorem Linked.setLast (h : Linked nex pre none xs succ) (hd : xs.Nodup) (v : Option α) :
    Linked (setLink nex xs.getLast? v) pre none xs v := by
  induction xs using List.reverseRecOn with
  | nil => trivial
  | append_singleton xs x _ =>
    have hx : x ∉ xs := fun hm => (List.disjoint_of_nodup_append hd) hm (by simp)
    obtain ⟨h1, h2, -, -⟩ := linked_append.mp h
    simp only [List.getLast?_append, List.getLast?_singleton, Option.some_or]
    refine linked_append.mpr ⟨h1.congr ?_ (fun _ _ => rfl), h2, ?_, trivial⟩
    · intro y hy
      exact setLink_of_ne _ (by rintro ⟨⟩; exact hx hy)
    · simpa using setLink_some_self nex v

/-- Changing the predecessor of the first cell of a segment. -/
theorem Linked.setHead (h : Linked nex pre pred xs succ) (hd : xs.Nodup) (v : Option α) :
    Linked nex (setLink pre xs.head? v) v xs succ := by
  cases xs with
  | nil => trivial
  | cons x xs =>
    obtain ⟨-, h2, h3⟩ := h
    have hx : x ∉ xs := (List.nodup_cons.mp hd).1
    refine ⟨setLink_some_self _ _, h2, h3.congr (fun _ _ => rfl) ?_⟩
    intro y hy
    exact setLink_of_ne _ (by rintro ⟨⟩; exact hx hy)

/-- Linking the two neighbours of a cell to each other takes the cell out of the list. -/
theorem Linked.unlink (h : Linked nex pre none (xs ++ x :: ys) none)
    (hd : (xs ++ x :: ys).Nodup) :
    Linked (setLink nex (pre x) (nex x)) (setLink pre (nex x) (pre x)) none (xs ++ ys) none := by
  obtain ⟨hpre, hnex⟩ := h.at
  simp only [Option.or_none] at hpre hnex
  obtain ⟨hx, -, -, hy⟩ := linked_append.mp h
  obtain ⟨hdx, hdy, hdisj⟩ := List.nodup_append.mp hd
  have hdy' := (List.nodup_cons.mp hdy).2
  rw [hpre, hnex]
  refine linked_append.mpr ⟨?_, ?_⟩
  · rw [Option.or_none]
    refine (hx.setLast hdx ys.head?).congr (fun _ _ => rfl) ?_
    intro z hz
    refine setLink_of_ne _ (fun he => ?_)
    exact hdisj z hz z (List.mem_cons_of_mem _ (List.mem_of_mem_head? he)) rfl
  · rw [Option.or_none]
    refine (hy.setHead hdy' xs.getLast?).congr ?_ (fun _ _ => rfl)
    intro z hz
    refine setLink_of_ne _ (fun he => ?_)
    exact hdisj z (List.mem_of_getLast? he) z (List.mem_cons_of_mem _ hz) rfl

/-- A fresh cell linked after the last one. -/
theorem Linked.pushBack (h : Linked nex pre none xs none) (hd : xs.Nodup) (hx : x ∉ xs) :
    Linked (setLink (Function.update nex x none) xs.getLast? (some x))
      (Function.update pre x xs.getLast?) none (xs ++ [x]) none := by
  have hne : ∀ y ∈ xs, y ≠ x := fun y hy he => hx (he ▸ hy)
  have h' : Linked (Function.update nex x none) (Function.update pre x xs.getLast?) none xs none :=
    h.congr (fun y hy => Function.update_of_ne (hne y hy) _ _)
      (fun y hy => Function.update_of_ne (hne y hy) _ _)
  refine linked_append.mpr ⟨by simpa using h'.setLast hd (some x), ?_, ?_, trivial⟩
  · simp
  · rw [setLink_of_ne _ (fun he => hx (List.mem_of_getLast? he))]
    simp

end Update
end StorageServer.Library.DoublyLinked
