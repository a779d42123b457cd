import Mathlib.Data.Finset.Max
import Mathlib.Data.Fintype.Defs
import Mathlib.Logic.Function.Basic

/-! Threads that take and give back mutexes. A thread follows a script; scripts that take mutexes
in the order of a rank never make threads wait for each other in a circle. -/
namespace StorageServer.Library.Mutexes
variable {M T A : Type}

/-- Take a mutex, give it back, or do something else. -/
inductive Instruction (M A : Type)
  | acquire (m : M)
  | release (m : M)
  | act (a : A)

/-- Who holds each mutex and what each thread still has to do. -/
structure Locks (M T A : Type) where
  holder : M → Option T
  todo : T → List (Instruction M A)

/-- With the mutexes `held`, the last one taken first, the script takes a mutex only after those
that are `below` it, gives mutexes back in reverse order and ends without any. -/
def Ordered (below : M → M → Prop) : List M → List (Instruction M A) → Prop
  | held, [] => held = []
  | held, .acquire m :: rest => (∀ m' ∈ held, below m' m) ∧ Ordered below (m::held) rest
  | held, .release m :: rest => ∃ held', held = m::held' ∧ Ordered below held' rest
  | held, .act _ :: rest => Ordered below held rest

section Ordered
variable {below : M → M → Prop} {held : List M} {m : M} {script rest : List (Instruction M A)}

theorem Ordered.mono {below' : M → M → Prop} (h : Ordered below held script)
    (hb : ∀ m m', below m m' → below' m m') : Ordered below' held script := by
  induction script generalizing held with
  | nil => exact h
  | cons i script ih =>
    cases i with
    | acquire m => exact ⟨fun m' hm' => hb _ _ (h.1 m' hm'), ih h.2⟩
    | act a => exact ih h
    | release m =>
      obtain ⟨held', rfl, h⟩ := h
      exact ⟨held', rfl, ih h⟩

/-- What is held is given back. -/
theorem Ordered.release_mem (h : Ordered below held script) (hm : m ∈ held) :
    .release m ∈ script := by
  induction script generalizing held with
  | nil => exact absurd (h ▸ hm) List.not_mem_nil
  | cons i script ih =>
    cases i with
    | acquire m' => exact List.mem_cons_of_mem _ (ih h.2 (List.mem_cons_of_mem _ hm))
    | act a => exact List.mem_cons_of_mem _ (ih h hm)
    | release m' =>
      obtain ⟨held', rfl, h⟩ := h
      rcases List.mem_cons.mp hm with rfl | hm
      · exact List.mem_cons_self
      · exact List.mem_cons_of_mem _ (ih h hm)

/-- What is given back before it is taken is held. -/
theorem Ordered.mem_held (h : Ordered below held (script ++ .release m :: rest))
    (hm : .acquire m ∉ script) : m ∈ held := by
  induction script generalizing held with
  | nil =>
    obtain ⟨held', rfl, -⟩ := h
    exact List.mem_cons_self
  | cons i script ih =>
    have hm' : .acquire m ∉ script := fun h => hm (List.mem_cons_of_mem _ h)
    cases i with
    | acquire m' =>
      refine (List.mem_cons.mp (ih h.2 hm')).resolve_left ?_
      rintro rfl
      exact hm List.mem_cons_self
    | act a => exact ih h hm'
    | release m' =>
      obtain ⟨held', rfl, h⟩ := h
      exact List.mem_cons_of_mem _ (ih h hm')

/-- What is taken before it is given back is not held. -/
theorem Ordered.notMem_held (hb : ∀ m, ¬ below m m)
    (h : Ordered below held (script ++ .acquire m :: rest)) (hm : .release m ∉ script) :
    m ∉ held := by
  induction script generalizing held with
  | nil => exact fun hmem => hb m (h.1 m hmem)
  | cons i script ih =>
    have hm' : .release m ∉ script := fun h => hm (List.mem_cons_of_mem _ h)
    cases i with
    | acquire m' => exact fun hmem => ih h.2 hm' (List.mem_cons_of_mem _ hmem)
    | act a => exact ih h hm'
    | release m' =>
      obtain ⟨held', rfl, h⟩ := h
      intro hmem
      rcases List.mem_cons.mp hmem with rfl | hmem
      · exact hm List.mem_cons_self
      · exact ih h hm' hmem

/-- What is held can be read off the script. -/
theorem Ordered.unique {held' : List M} (h : Ordered below held script)
    (h' : Ordered below held' script) : held = held' := by
  induction script generalizing held held' with
  | nil => exact Eq.trans h (Eq.symm h')
  | cons i script ih =>
    cases i with
    | acquire m => exact (List.cons.inj (ih h.2 h'.2)).2
    | act a => exact ih h h'
    | release m =>
      obtain ⟨rest, rfl, h⟩ := h
      obtain ⟨rest', rfl, h'⟩ := h'
      exact congrArg (m :: ·) (ih h h')

/-- A script that takes only mutexes that are above those held and gives all of them back may be
put in front of another one. -/
theorem Ordered.append {script' : List (Instruction M A)} {inner : List M}
    (h : Ordered below inner script)
    (hb : ∀ m, .acquire m ∈ script → ∀ m' ∈ held, below m' m)
    (h' : Ordered below held script') : Ordered below (inner ++ held) (script ++ script') := by
  induction script generalizing inner with
  | nil =>
    obtain rfl : inner = [] := h
    exact h'
  | cons i script ih =>
    have hb' : ∀ m, .acquire m ∈ script → ∀ m' ∈ held, below m' m :=
      fun m hm => hb m (List.mem_cons_of_mem _ hm)
    cases i with
    | acquire m =>
      refine ⟨fun m' hm' => ?_, ih h.2 hb'⟩
      rcases List.mem_append.mp hm' with hm' | hm'
      · exact h.1 m' hm'
      · exact hb m List.mem_cons_self m' hm'
    | act a => exact ih h hb'
    | release m =>
      obtain ⟨inner', rfl, h⟩ := h
      exact ⟨inner' ++ held, rfl, ih h hb'⟩

end Ordered

namespace Locks
variable {s : Locks M T A} {t : T} {m : M}
  {script rest : List (Instruction M A)} {below : M → M → Prop} {rank : M → ℕ}

def unlocked : Locks M T A := ⟨fun _ => none, fun _ => []⟩

/-- The next thing that the thread does is to take the mutex. -/
def Awaits (s : Locks M T A) (t : T) (m : M) : Prop := ∃ rest, s.todo t = .acquire m :: rest

/-- Each of the threads holds a mutex and waits for one that another of them holds. -/
structure Circular (s : Locks M T A) (ts : Finset T) : Prop where
  nonempty : ts.Nonempty
  holds : ∀ t ∈ ts, ∃ m, s.holder m = some t
  awaits : ∀ t ∈ ts, ∃ m, s.Awaits t m ∧ ∃ t' ∈ ts, t' ≠ t ∧ s.holder m = some t'

/-- Every thread goes on in order with the mutexes that it holds. -/
def Disciplined (below : M → M → Prop) (s : Locks M T A) : Prop :=
  ∀ t, ∃ held : List M, held.Pairwise (fun m m' => below m' m) ∧
    (∀ m, s.holder m = some t ↔ m ∈ held) ∧ Ordered below held (s.todo t)

theorem disciplined_unlocked : Disciplined below (unlocked : Locks M T A) :=
  fun _ => ⟨[], List.Pairwise.nil, by simp [unlocked], rfl⟩

theorem Disciplined.holder_of_release (h : s.Disciplined below)
    (ht : s.todo t = script ++ .release m :: rest) (hm : .acquire m ∉ script) :
    s.holder m = some t := by
  obtain ⟨held, -, hh, ho⟩ := h t
  rw [ht] at ho
  exact (hh m).mpr (ho.mem_held hm)

/-- Who holds what is read off the scripts. -/
theorem Disciplined.holder_iff (h : s.Disciplined below) {held : List M}
    (ho : Ordered below held (s.todo t)) (m : M) : s.holder m = some t ↔ m ∈ held := by
  obtain ⟨held', -, hh, ho'⟩ := h t
  rw [hh, ho.unique ho']

theorem Disciplined.release_mem (h : s.Disciplined below) (hm : s.holder m = some t) :
    .release m ∈ s.todo t := by
  obtain ⟨held, -, hh, ho⟩ := h t
  exact ho.release_mem ((hh m).mp hm)

theorem Disciplined.holder_ne (h : s.Disciplined below) (hb : ∀ m, ¬ below m m)
    (ht : s.todo t = script ++ .acquire m :: rest) (hm : .release m ∉ script) :
    s.holder m ≠ some t := by
  obtain ⟨held, -, hh, ho⟩ := h t
  rw [ht] at ho
  exact fun heq => ho.notMem_held hb hm ((hh m).mp heq)

/-- Whoever waits for a mutex holds only mutexes that are below it. -/
theorem Disciplined.below_of_awaits (h : s.Disciplined below) (ht : s.Awaits t m) {m' : M}
    (hm : s.holder m' = some t) : below m' m := by
  obtain ⟨held, -, hh, ho⟩ := h t
  obtain ⟨rest, hr⟩ := ht
  rw [hr] at ho
  exact ho.1 m' ((hh m').mp hm)

/-- The rank of the mutex that a thread waits for, if any. -/
def awaitedRank (rank : M → ℕ) (s : Locks M T A) (t : T) : ℕ :=
  match s.todo t with
  | .acquire m :: _ => rank m
  | _ => 0

theorem Awaits.awaitedRank_eq (h : s.Awaits t m) : s.awaitedRank rank t = rank m := by
  obtain ⟨rest, hr⟩ := h
  rw [awaitedRank, hr]

/-- The thread that waits for the mutex of the highest rank would wait for a thread that waits for
one of a higher rank. -/
theorem Disciplined.not_circular (h : s.Disciplined below)
    (hr : ∀ m m', below m m' → rank m < rank m') (ts : Finset T) : ¬ s.Circular ts := by
  intro hc
  obtain ⟨t, ht, hmax⟩ := ts.exists_max_image (s.awaitedRank rank) hc.nonempty
  obtain ⟨m, hm, t', ht', -, hheld⟩ := hc.awaits t ht
  obtain ⟨m', hm', -⟩ := hc.awaits t' ht'
  have hlt := hr _ _ (h.below_of_awaits hm' hheld)
  have hle := hmax t' ht'
  rw [hm.awaitedRank_eq, hm'.awaitedRank_eq] at hle
  omega

/-! ### Steps -/

section Steps
variable [DecidableEq T]

/-- Continue a thread with another script. -/
def load (s : Locks M T A) (t : T) (script : List (Instruction M A)) : Locks M T A :=
  { s with todo := Function.update s.todo t script }

@[simp] theorem todo_load (s : Locks M T A) (t : T) (script : List (Instruction M A)) :
    (s.load t script).todo t = script := Function.update_self _ _ _

theorem todo_load_of_ne {t' : T} (h : t' ≠ t) : (s.load t script).todo t' = s.todo t' :=
  Function.update_of_ne h _ _

@[simp] theorem holder_load (s : Locks M T A) (t : T) (script : List (Instruction M A)) :
    (s.load t script).holder = s.holder := rfl

@[simp] theorem load_load (s : Locks M T A) (t : T) (script script' : List (Instruction M A)) :
    (s.load t script).load t script' = s.load t script' := by simp [load]

theorem load_self (h : s.todo t = script) : s.load t script = s := by
  subst h
  simp [load]

theorem Disciplined.load (h : s.Disciplined below)
    (hs : ∀ held : List M, held.Pairwise (fun m m' => below m' m) →
      Ordered below held (s.todo t) → Ordered below held script) :
    (s.load t script).Disciplined below := by
  intro t'
  obtain ⟨held, hn, hh, ho⟩ := h t'
  refine ⟨held, hn, hh, ?_⟩
  by_cases ht : t' = t
  · subst ht
    change Ordered below held (Function.update s.todo t' script t')
    rw [Function.update_self]
    exact hs held hn ho
  · change Ordered below held (Function.update s.todo t script t')
    rwa [Function.update_of_ne ht]

variable [DecidableEq M]

def acquire (s : Locks M T A) (t : T) (m : M) (rest : List (Instruction M A)) : Locks M T A :=
  { s.load t rest with holder := Function.update s.holder m (some t) }

def release (s : Locks M T A) (t : T) (m : M) (rest : List (Instruction M A)) : Locks M T A :=
  { s.load t rest with holder := Function.update s.holder m none }

@[simp] theorem todo_acquire (s : Locks M T A) (t : T) (m : M) (rest : List (Instruction M A)) :
    (s.acquire t m rest).todo t = rest := Function.update_self _ _ _

theorem todo_acquire_of_ne {t' : T} (h : t' ≠ t) :
    (s.acquire t m rest).todo t' = s.todo t' := Function.update_of_ne h _ _

@[simp] theorem todo_release (s : Locks M T A) (t : T) (m : M) (rest : List (Instruction M A)) :
    (s.release t m rest).todo t = rest := Function.update_self _ _ _

theorem todo_release_of_ne {t' : T} (h : t' ≠ t) :
    (s.release t m rest).todo t' = s.todo t' := Function.update_of_ne h _ _

@[simp] theorem holder_acquire (s : Locks M T A) (t : T) (m : M) (rest : List (Instruction M A)) :
    (s.acquire t m rest).holder m = some t := Function.update_self _ _ _

theorem holder_acquire_of_ne {m' : M} (h : m' ≠ m) :
    (s.acquire t m rest).holder m' = s.holder m' := Function.update_of_ne h _ _

@[simp] theorem load_acquire (s : Locks M T A) (t : T) (m : M)
    (script rest : List (Instruction M A)) :
    (s.load t script).acquire t m rest = s.acquire t m rest := by simp [acquire, load]

@[simp] theorem acquire_load (s : Locks M T A) (t : T) (m : M)
    (rest script : List (Instruction M A)) :
    (s.acquire t m rest).load t script = s.acquire t m script := by simp [acquire, load]

/-- Taking a free mutex and giving it back changes nothing but the script. -/
theorem acquire_release (hm : s.holder m = none) (script rest : List (Instruction M A)) :
    (s.acquire t m script).release t m rest = s.load t rest := by
  have hh : Function.update s.holder m none = s.holder := by
    rw [← hm, Function.update_eq_self]
  simp [acquire, release, load, hh]

theorem Disciplined.acquire (h : s.Disciplined below) (ht : s.todo t = .acquire m :: rest)
    (hfree : s.holder m = none) : (s.acquire t m rest).Disciplined below := by
  intro t'
  obtain ⟨held, hn, hh, ho⟩ := h t'
  have hnot : m ∉ held := fun hm => by
    rw [(hh m).mpr hm] at hfree
    cases hfree
  by_cases htt : t' = t
  · subst htt
    rw [ht] at ho
    refine ⟨m::held, List.pairwise_cons.mpr ⟨ho.1, hn⟩, fun m' => ?_, ?_⟩
    · change Function.update s.holder m (some t') m' = some t' ↔ m' ∈ m::held
      by_cases hm : m' = m
      · subst hm
        simp
      · rw [Function.update_of_ne hm, hh, List.mem_cons]
        exact (or_iff_right hm).symm
    · change Ordered below (m::held) (Function.update s.todo t' rest t')
      rw [Function.update_self]
      exact ho.2
  · refine ⟨held, hn, fun m' => ?_, ?_⟩
    · change Function.update s.holder m (some t) m' = some t' ↔ m' ∈ held
      by_cases hm : m' = m
      · subst hm
        rw [Function.update_self]
        exact ⟨fun h => absurd (Option.some.inj h).symm htt, fun h => absurd h hnot⟩
      · rw [Function.update_of_ne hm]
        exact hh m'
    · change Ordered below held (Function.update s.todo t rest t')
      rwa [Function.update_of_ne htt]

theorem Disciplined.release (h : s.Disciplined below) (hb : ∀ m, ¬ below m m)
    (ht : s.todo t = .release m :: rest) : (s.release t m rest).Disciplined below := by
  have hheld : s.holder m = some t := by
    obtain ⟨held, -, hh, ho⟩ := h t
    rw [ht] at ho
    obtain ⟨held', rfl, -⟩ := ho
    exact (hh m).mpr List.mem_cons_self
  intro t'
  obtain ⟨held, hn, hh, ho⟩ := h t'
  by_cases htt : t' = t
  · subst htt
    rw [ht] at ho
    obtain ⟨held', rfl, ho⟩ := ho
    obtain ⟨hbelow, hn⟩ := List.pairwise_cons.mp hn
    have hnot : m ∉ held' := fun hm => hb m (hbelow m hm)
    refine ⟨held', hn, fun m' => ?_, ?_⟩
    · change Function.update s.holder m none m' = some t' ↔ m' ∈ held'
      by_cases hm : m' = m
      · subst hm
        rw [Function.update_self]
        exact ⟨fun h => absurd h (by simp), fun h => absurd h hnot⟩
      · rw [Function.update_of_ne hm, hh, List.mem_cons]
        exact or_iff_right hm
    · change Ordered below held' (Function.update s.todo t' rest t')
      rwa [Function.update_self]
  · refine ⟨held, hn, fun m' => ?_, ?_⟩
    · change Function.update s.holder m none m' = some t' ↔ m' ∈ held
      by_cases hm : m' = m
      · subst hm
        rw [Function.update_self, ← hh, hheld]
        exact ⟨fun h => absurd h (by simp), fun h => absurd (Option.some.inj h).symm htt⟩
      · rw [Function.update_of_ne hm]
        exact hh m'
    · change Ordered below held (Function.update s.todo t rest t')
      rwa [Function.update_of_ne htt]

end Steps
end Locks
end StorageServer.Library.Mutexes
