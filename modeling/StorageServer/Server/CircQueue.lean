import Mathlib.Data.List.Basic
import Mathlib.Data.Nat.ModEq
import Mathlib.Logic.Function.Basic

/-! The ring buffer of the server. `head` is the next slot to write and `tail` the oldest
stored one; both wrap around, and `size` tells an empty buffer from a full one. -/
namespace StorageServer.Server

/-- A circular queue of fixed capacity; the fields tie the three counters together. -/
structure CircQueue (α : Type*) (capacity : ℕ) where
  data : ℕ → α
  head : ℕ
  tail : ℕ
  size : ℕ
  tail_lt : tail < capacity
  size_le : size ≤ capacity
  head_eq : head = (tail + size) % capacity

namespace CircQueue
variable {α : Type*} {capacity : ℕ}

/-- A freshly allocated queue: zeroed slots and counters. -/
def createQueue [Inhabited α] (capacity : ℕ) (h : 0 < capacity) : CircQueue α capacity where
  data _ := default
  head := 0
  tail := 0
  size := 0
  tail_lt := h
  size_le := Nat.zero_le _
  head_eq := (Nat.mod_eq_of_lt h).symm

/-- `none` is the return value 0 of an empty queue. -/
def tryPop (queue : CircQueue α capacity) : Option (α × CircQueue α capacity) :=
  if h : queue.size > 0 then
    some (queue.data queue.tail,
      { queue with
        tail := (queue.tail + 1) % capacity
        size := queue.size - 1
        tail_lt := Nat.mod_lt _ (Nat.zero_lt_of_lt queue.tail_lt)
        size_le := (Nat.sub_le _ _).trans queue.size_le
        head_eq := by
          rw [queue.head_eq, Nat.mod_add_mod]
          congr 1
          omega })
  else none

/-- `none` is the return value 0 of a full queue. -/
def tryPush (queue : CircQueue α capacity) (item : α) : Option (CircQueue α capacity) :=
  if h : queue.size < capacity then
    some { queue with
      data := Function.update queue.data queue.head item
      head := (queue.head + 1) % capacity
      size := queue.size + 1
      size_le := h
      head_eq := by rw [queue.head_eq, Nat.mod_add_mod, Nat.add_assoc] }
  else none

theorem head_lt (queue : CircQueue α capacity) : queue.head < capacity := by
  rw [queue.head_eq]
  exact Nat.mod_lt _ (Nat.zero_lt_of_lt queue.tail_lt)

/-- The stored items, oldest first. -/
def toList (queue : CircQueue α capacity) : List α :=
  (List.range queue.size).map (fun i => queue.data ((queue.tail + i) % capacity))

@[simp] theorem toList_length (queue : CircQueue α capacity) :
    queue.toList.length = queue.size := by simp [toList]

theorem toList_length_le (queue : CircQueue α capacity) : queue.toList.length ≤ capacity := by
  simpa using queue.size_le

@[simp] theorem toList_createQueue [Inhabited α] (h : 0 < capacity) :
    (createQueue capacity h : CircQueue α capacity).toList = [] := rfl

lemma slot_ne_head (queue : CircQueue α capacity) {i : ℕ} (hi : i < queue.size)
    (hc : queue.size < capacity) : (queue.tail + i) % capacity ≠ queue.head := by
  rw [queue.head_eq]
  intro h
  have hm : i ≡ queue.size [MOD capacity] := Nat.ModEq.add_left_cancel' queue.tail h
  rw [Nat.ModEq, Nat.mod_eq_of_lt (hi.trans hc), Nat.mod_eq_of_lt hc] at hm
  omega

theorem tryPush_eq_none {queue : CircQueue α capacity} {item : α} :
    queue.tryPush item = none ↔ capacity ≤ queue.toList.length := by
  simp [tryPush]

/-- A successful push appends the item. -/
theorem tryPush_toList {queue queue' : CircQueue α capacity} {item : α}
    (h : queue.tryPush item = some queue') : queue'.toList = queue.toList ++ [item] := by
  unfold tryPush at h
  split at h
  next hc =>
    cases h
    simp only [toList, List.range_succ, List.map_append, List.map_cons, List.map_nil]
    congr 1
    · apply List.map_congr_left
      intro i hi
      exact Function.update_of_ne (slot_ne_head queue (List.mem_range.mp hi) hc) _ _
    · rw [← queue.head_eq, Function.update_self]
  next => cases h

theorem tryPop_eq_none {queue : CircQueue α capacity} :
    queue.tryPop = none ↔ queue.toList = [] := by
  rw [← List.length_eq_zero_iff, toList_length]
  simp [tryPop]

/-- A successful pop removes the oldest item. -/
theorem tryPop_toList {queue queue' : CircQueue α capacity} {item : α}
    (h : queue.tryPop = some (item, queue')) : queue.toList = item :: queue'.toList := by
  unfold tryPop at h
  split at h
  next hs =>
    cases h
    obtain ⟨n, hn⟩ : ∃ n, queue.size = n+1 := ⟨queue.size-1, by omega⟩
    simp only [toList, hn, List.range_succ_eq_map, List.map_cons, List.map_map, Nat.add_zero,
      Nat.mod_eq_of_lt queue.tail_lt, Nat.add_sub_cancel]
    congr 1
    apply List.map_congr_left
    intro i _
    simp only [Function.comp_apply, Nat.mod_add_mod]
    congr 2
    omega
  next => cases h

/-- What is pushed into an empty queue is popped next. -/
theorem exists_pop {queue : CircQueue α capacity} (hc : 0 < capacity) (he : queue.toList = [])
    (item : α) : ∃ queue₁ queue₂, queue.tryPush item = some queue₁ ∧
      queue₁.tryPop = some (item, queue₂) ∧ queue₂.toList = [] := by
  cases hpush : queue.tryPush item with
  | none =>
    have hfull := tryPush_eq_none.mp hpush
    rw [he] at hfull
    exact absurd hc (not_lt.mpr hfull)
  | some queue₁ =>
    have hone : queue₁.toList = [item] := by rw [tryPush_toList hpush, he, List.nil_append]
    cases hpop : queue₁.tryPop with
    | none =>
      rw [tryPop_eq_none.mp hpop] at hone
      cases hone
    | some r =>
      obtain ⟨first, queue₂⟩ := r
      have hcons : first :: queue₂.toList = [item] := (tryPop_toList hpop).symm.trans hone
      obtain ⟨rfl, hnil⟩ := List.cons.inj hcons
      exact ⟨queue₁, queue₂, rfl, hpop, hnil⟩


/-- The loop `while (tryPop(queue, &item) == 1)`: the popped items in order. -/
def popAll : ℕ → CircQueue α capacity → List α
  | 0, _ => []
  | fuel+1, queue =>
    match queue.tryPop with
    | none => []
    | some (item, queue') => item :: popAll fuel queue'

/-- As many rounds as stored items empty the queue. -/
theorem popAll_eq_toList {fuel : ℕ} {queue : CircQueue α capacity} (h : queue.size ≤ fuel) :
    popAll fuel queue = queue.toList := by
  induction fuel generalizing queue with
  | zero =>
    rw [← toList_length] at h
    exact (List.eq_nil_of_length_eq_zero (by omega)).symm
  | succ fuel ih =>
    unfold popAll
    split
    next hp => exact (tryPop_eq_none.mp hp).symm
    next item queue' hp =>
      have ht := tryPop_toList hp
      have hl := congrArg List.length ht
      simp only [toList_length, List.length_cons] at hl
      rw [ht, ih (by omega)]

end CircQueue
end StorageServer.Server
