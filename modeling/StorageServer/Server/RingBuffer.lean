import StorageServer.Library.BoundedQueues
import StorageServer.Server.CircQueue

/-! The ring buffer as it lies in memory: an array of slots and three counters with nothing that
ties them together. An access outside of the array is `none`. The mutex of a buffer makes every
call one step. -/
namespace StorageServer.Server
open Library Library.BoundedQueues

structure RingBuffer (α : Type*) where
  data : List α
  head : ℕ
  tail : ℕ
  size : ℕ
  capacity : ℕ

namespace RingBuffer
variable {α : Type*} {capacity : ℕ} {queue : RingBuffer α} {q q' : CircQueue α capacity} {item : α}

def createQueue [Inhabited α] (size : ℕ) : RingBuffer α where
  data := List.replicate size default
  head := 0
  tail := 0
  size := 0
  capacity := size

/-- No item is the return value 0. -/
def tryPop (queue : RingBuffer α) : Option (Option α × RingBuffer α) :=
  if queue.size > 0 then do
    let item ← queue.data[queue.tail]?
    return (some item, { queue with
      tail := (queue.tail + 1) % queue.capacity
      size := queue.size - 1 })
  else some (none, queue)

def tryPush (queue : RingBuffer α) (item : α) : Option (Bool × RingBuffer α) :=
  if queue.size < queue.capacity then
    if queue.head < queue.data.length then
      some (true, { queue with
        data := queue.data.set queue.head item
        head := (queue.head + 1) % queue.capacity
        size := queue.size + 1 })
    else none
  else some (false, queue)

def apply (queue : RingBuffer α) : Operation α → Option (Answer α × RingBuffer α)
  | .push item => do
    let (stored, queue) ← queue.tryPush item
    return (.pushed stored, queue)
  | .pop => do
    let (item, queue) ← queue.tryPop
    return (.popped item, queue)

/-- Call one operation after another. -/
def run (queue : RingBuffer α) : List (Operation α) → Option (List (Answer α) × RingBuffer α)
  | [] => some ([], queue)
  | op::ops => do
    let (answer, queue) ← queue.apply op
    let (answers, queue) ← run queue ops
    return (answer::answers, queue)

/-! ### The counters are tied together -/

/-- The array and the counters are those of a circular queue. -/
structure Holds (queue : RingBuffer α) (q : CircQueue α capacity) : Prop where
  capacity_eq : queue.capacity = capacity
  length_data : queue.data.length = capacity
  slot : ∀ i < capacity, queue.data[i]? = some (q.data i)
  head : queue.head = q.head
  tail : queue.tail = q.tail
  size : queue.size = q.size

theorem holds_createQueue [Inhabited α] (h : 0 < capacity) :
    (createQueue capacity : RingBuffer α).Holds (CircQueue.createQueue capacity h) where
  capacity_eq := rfl
  length_data := List.length_replicate
  slot i hi := by rw [createQueue, List.getElem?_replicate, if_pos hi]; rfl
  head := rfl
  tail := rfl
  size := rfl

theorem Holds.tryPop_none (h : queue.Holds q) (hp : q.tryPop = none) :
    queue.tryPop = some (none, queue) := by
  have hsize : ¬ queue.size > 0 := by
    rw [h.size, ← q.toList_length, CircQueue.tryPop_eq_none.mp hp]
    exact Nat.lt_irrefl 0
  rw [tryPop, if_neg hsize]

theorem Holds.tryPop_some (h : queue.Holds q) (hp : q.tryPop = some (item, q')) :
    ∃ queue', queue.tryPop = some (some item, queue') ∧ queue'.Holds q' := by
  unfold CircQueue.tryPop at hp
  split at hp
  next hs =>
    cases hp
    have hslot : queue.data[queue.tail]? = some (q.data q.tail) := by
      rw [h.tail]
      exact h.slot q.tail q.tail_lt
    refine ⟨{ queue with
      tail := (queue.tail + 1) % queue.capacity
      size := queue.size - 1 }, ?_, h.capacity_eq, h.length_data, h.slot, h.head, ?_, ?_⟩
    · rw [tryPop, if_pos (h.size ▸ hs), hslot]
      rfl
    · rw [h.tail, h.capacity_eq]
    · rw [h.size]
  next => cases hp

theorem Holds.tryPush_none (h : queue.Holds q) (hp : q.tryPush item = none) :
    queue.tryPush item = some (false, queue) := by
  have hsize : ¬ queue.size < queue.capacity := by
    rw [h.size, h.capacity_eq, ← q.toList_length]
    exact not_lt.mpr (CircQueue.tryPush_eq_none.mp hp)
  rw [tryPush, if_neg hsize]

theorem Holds.tryPush_some (h : queue.Holds q) (hp : q.tryPush item = some q') :
    ∃ queue', queue.tryPush item = some (true, queue') ∧ queue'.Holds q' := by
  unfold CircQueue.tryPush at hp
  split at hp
  next hs =>
    cases hp
    have hhead : queue.head < queue.data.length := by
      rw [h.head, h.length_data]
      exact q.head_lt
    refine ⟨{ queue with
      data := queue.data.set queue.head item
      head := (queue.head + 1) % queue.capacity
      size := queue.size + 1 }, ?_, h.capacity_eq, ?_, fun i hi => ?_, ?_, h.tail, ?_⟩
    · rw [tryPush, if_pos (by rwa [h.size, h.capacity_eq]), if_pos hhead]
    · rw [List.length_set, h.length_data]
    · dsimp only
      by_cases he : i = q.head
      · rw [he, ← h.head, List.getElem?_set_self hhead, h.head, Function.update_self]
      · rw [List.getElem?_set_ne (by rw [h.head]; exact Ne.symm he), Function.update_of_ne he]
        exact h.slot i hi
    · rw [h.head, h.capacity_eq]
    · rw [h.size]
  next => cases hp

/-- A call answers as the bounded queue of the stored items does. -/
theorem Holds.apply (h : queue.Holds q) (op : Operation α) : ∃ queue', ∃ q' : CircQueue α capacity,
    queue.apply op = some ((BoundedQueues.apply capacity q.toList op).1, queue') ∧
      queue'.Holds q' ∧ q'.toList = (BoundedQueues.apply capacity q.toList op).2 := by
  cases op with
  | push item =>
    cases hp : q.tryPush item with
    | none =>
      refine ⟨queue, q, ?_, h, ?_⟩
      · rw [RingBuffer.apply, h.tryPush_none hp, BoundedQueues.apply,
          if_neg (not_lt.mpr (CircQueue.tryPush_eq_none.mp hp))]
        rfl
      · rw [BoundedQueues.apply, if_neg (not_lt.mpr (CircQueue.tryPush_eq_none.mp hp))]
    | some q' =>
      have hroom : q.toList.length < capacity := by
        by_contra hfull
        rw [CircQueue.tryPush_eq_none.mpr (not_lt.mp hfull)] at hp
        cases hp
      obtain ⟨queue', hpush, h'⟩ := h.tryPush_some hp
      refine ⟨queue', q', ?_, h', ?_⟩
      · rw [RingBuffer.apply, hpush, BoundedQueues.apply, if_pos hroom]
        rfl
      · rw [BoundedQueues.apply, if_pos hroom, CircQueue.tryPush_toList hp]
  | pop =>
    cases hp : q.tryPop with
    | none =>
      refine ⟨queue, q, ?_, h, ?_⟩
      · rw [RingBuffer.apply, h.tryPop_none hp, CircQueue.tryPop_eq_none.mp hp]
        rfl
      · rw [CircQueue.tryPop_eq_none.mp hp]
        rfl
    | some popped =>
      obtain ⟨item, q'⟩ := popped
      obtain ⟨queue', hpop, h'⟩ := h.tryPop_some hp
      refine ⟨queue', q', ?_, h', ?_⟩
      · rw [RingBuffer.apply, hpop, CircQueue.tryPop_toList hp]
        rfl
      · rw [CircQueue.tryPop_toList hp]
        rfl

theorem Holds.run (h : queue.Holds q) (ops : List (Operation α)) :
    ∃ queue', ∃ q' : CircQueue α capacity,
      queue.run ops = some ((BoundedQueues.run capacity q.toList ops).1, queue') ∧
      queue'.Holds q' ∧ q'.toList = (BoundedQueues.run capacity q.toList ops).2 := by
  induction ops generalizing queue q with
  | nil => exact ⟨queue, q, rfl, h, rfl⟩
  | cons op ops ih =>
    obtain ⟨queue₁, q₁, happly, h₁, hitems₁⟩ := h.apply op
    obtain ⟨queue', q', hrun, h', hitems⟩ := ih h₁
    rw [hitems₁] at hrun hitems
    refine ⟨queue', q', ?_, h', hitems⟩
    rw [RingBuffer.run, happly, Option.bind_eq_bind, Option.bind_some]
    dsimp only
    rw [hrun]
    rfl

/-- The stored items, oldest first. -/
def contents (queue : RingBuffer α) : List (Option α) :=
  (List.range queue.size).map fun i => queue.data[(queue.tail + i) % queue.capacity]?

theorem Holds.contents_eq (h : queue.Holds q) : queue.contents = q.toList.map some := by
  rw [contents, CircQueue.toList, List.map_map, h.size]
  refine List.map_congr_left fun i _ => ?_
  rw [h.capacity_eq, h.tail]
  exact h.slot _ (Nat.mod_lt _ (Nat.zero_lt_of_lt q.tail_lt))

/-- Whatever is called, a ring buffer stays within its array and answers as a queue with room for
`n` items does, which loses, doubles and overtakes nothing, and its counters stay tied together. -/
theorem ring_buffer_is_fifo [Inhabited α] {n : ℕ} (hn : 0 < n) (ops : List (Operation α)) :
    ∃ queue answers items, (createQueue n).run ops = some (answers, queue) ∧
      BoundedQueues.run n [] ops = (answers, items) ∧ queue.contents = items.map some ∧
      stored ops answers = taken answers ++ items ∧
      queue.size = items.length ∧ queue.size ≤ n ∧
      queue.head = (queue.tail + queue.size) % n ∧ queue.head < n ∧ queue.tail < n := by
  obtain ⟨queue, q, hrun, h, hitems⟩ := (holds_createQueue hn).run ops
  rw [CircQueue.toList_createQueue] at hrun hitems
  refine ⟨queue, _, _, hrun, rfl, ?_, stored_eq_taken n [] ops, ?_, ?_, ?_, ?_, ?_⟩
  · rw [h.contents_eq, hitems]
  · rw [h.size, ← q.toList_length, hitems]
  · exact h.size ▸ q.size_le
  · rw [h.head, h.tail, h.size]
    exact q.head_eq
  · exact h.head ▸ q.head_lt
  · exact h.tail ▸ q.tail_lt

/-- Both slots are filled, refused to a third item, and used again. -/
theorem ring_buffer_is_fifo_two : ∃ queue, (createQueue 2).run
    [.push 1, .push 2, .push 3, .pop, .push 4, .pop, .pop, .pop] =
      some ([.pushed true, .pushed true, .pushed false, .popped (some 1), .pushed true,
        .popped (some 2), .popped (some 4), .popped none], queue) ∧ queue.head < 2 := by
  obtain ⟨queue, answers, items, hrun, hfifo, -, -, -, -, -, hhead, -⟩ :=
    ring_buffer_is_fifo (n := 2) (by decide)
      [.push 1, .push 2, .push 3, .pop, .push 4, .pop, .pop, .pop]
  obtain ⟨rfl, rfl⟩ := Prod.mk.inj hfifo
  exact ⟨queue, hrun, hhead⟩

end RingBuffer
end StorageServer.Server
