import StorageServer.Library.Runs
import Mathlib.Data.Nat.Notation
import Mathlib.Logic.Function.Basic

/-! A queue with a mutex and a condition variable. Consumers wait as long as the queue is empty;
producers push without the mutex and take it afterwards to notify. Every thread stands at a point of
its program, which tells whether it holds the mutex. -/
namespace StorageServer.Library
open Runs

/-- A consumer takes the mutex and looks into the queue. If there is nothing it waits, which blocks
it and gives the mutex back; once it is woken it takes the mutex again. Otherwise it leaves. -/
inductive Consumer
  | away
  | checking
  | waiting
  | blocked
  | woken
  | leaving
  deriving DecidableEq

/-- A producer has pushed, takes the mutex to notify one consumer or all of them, and gives it
back. -/
inductive Producer
  | away
  | pushed (all : Bool)
  | notifying (all : Bool)
  | notified
  deriving DecidableEq

def Consumer.Holds : Consumer → Prop
  | checking | waiting | leaving => True
  | away | blocked | woken => False

/-- A consumer neither is blocked nor stands where it may become so. -/
def Consumer.Up (c : Consumer) : Prop := c ≠ .blocked ∧ ¬ c.Holds

def Producer.Holds : Producer → Prop
  | notifying _ | notified => True
  | away | pushed _ => False

/-- A producer that has notified, or has nothing to notify of. -/
def Producer.Past : Producer → Prop
  | away | notified => True
  | pushed _ | notifying _ => False

/-- A notification of all wakes whoever is blocked. -/
def Consumer.roused : Consumer → Consumer
  | blocked => woken
  | c => c

structure Monitor (C P : Type*) where
  consumer : C → Consumer
  producer : P → Producer

namespace Monitor
variable {C P : Type*} {k k' : ℕ} {m m' : Monitor C P}

def start : Monitor C P := ⟨fun _ => .away, fun _ => .away⟩

/-- Nobody holds the mutex. -/
def Free (m : Monitor C P) : Prop :=
  (∀ c, ¬ (m.consumer c).Holds) ∧ ∀ p, ¬ (m.producer p).Holds

theorem free_start : (start : Monitor C P).Free := ⟨fun _ => id, fun _ => id⟩

/-- There are items, every consumer is blocked, and no producer is going to notify. -/
def Lost (items : ℕ) (m : Monitor C P) : Prop :=
  0 < items ∧ (∀ c, m.consumer c = .blocked) ∧ ∀ p, (m.producer p).Past

/-- As long as there are items, a consumer is awake or a producer is going to notify. A consumer
that is about to wait has been overtaken by a push, whose notification has to wait for it. -/
structure Watched (items : ℕ) (m : Monitor C P) : Prop where
  awake : 0 < items → (∃ c, m.consumer c ≠ .blocked) ∨ ∃ p, ¬ (m.producer p).Past
  overtaken : ∀ c, m.consumer c = .waiting → 0 < items → ∃ p all, m.producer p = .pushed all

theorem Watched.not_lost (h : Watched k m) : ¬ Lost k m := by
  rintro ⟨hitems, hblocked, hpast⟩
  rcases h.awake hitems with ⟨c, hc⟩ | ⟨p, hp⟩
  · exact hc (hblocked c)
  · exact hp (hpast p)

theorem watched_start [Nonempty C] (k : ℕ) : Watched k (start : Monitor C P) where
  awake _ := .inl ⟨Classical.arbitrary C, nofun⟩
  overtaken _ h := nomatch h

theorem Watched.mono (h : Watched k m) (hk : k' ≤ k) : Watched k' m where
  awake h0 := h.awake (Nat.lt_of_lt_of_le h0 hk)
  overtaken c hc h0 := h.overtaken c hc (Nat.lt_of_lt_of_le h0 hk)

/-! ### What the threads do -/

def rouse (m : Monitor C P) : Monitor C P := { m with consumer := fun c => (m.consumer c).roused }

@[simp] theorem producer_rouse (m : Monitor C P) : m.rouse.producer = m.producer := rfl

/-- Who is about to wait stays so under the notification of all. -/
theorem consumer_rouse (m : Monitor C P) (c : C) : m.rouse.consumer c ≠ .blocked ∧
    (m.rouse.consumer c = .waiting → m.consumer c = .waiting) := by
  unfold rouse
  dsimp only
  cases m.consumer c with
  | waiting => exact ⟨nofun, fun _ => rfl⟩
  | _ => exact ⟨nofun, fun h => nomatch h⟩

theorem checking_of_rouse {c : C} (h : m.rouse.consumer c = .checking) :
    m.consumer c = .checking := by
  change (m.consumer c).roused = .checking at h
  cases hc : m.consumer c with
  | checking => rfl
  | _ =>
    rw [hc] at h
    cases h

theorem Watched.rouse [Nonempty C] (h : Watched k m) : Watched k m.rouse where
  awake _ := .inl ⟨Classical.arbitrary C, (consumer_rouse m _).1⟩
  overtaken c hc h0 := h.overtaken c ((consumer_rouse m c).2 hc) h0

theorem Free.up_rouse (h : m.Free) (c : C) : (m.rouse.consumer c).Up := by
  refine ⟨(consumer_rouse m c).1, ?_⟩
  have hfree := h.1 c
  change ¬ (m.consumer c).roused.Holds
  cases hc : m.consumer c with
  | blocked => exact id
  | _ =>
    rw [hc] at hfree
    exact hfree

/-- A consumer and a producer do not hold the mutex at the same time. -/
def Exclusive (m : Monitor C P) : Prop := ∀ c p, ¬ ((m.consumer c).Holds ∧ (m.producer p).Holds)

theorem exclusive_start : (start : Monitor C P).Exclusive := fun _ _ h => h.1

theorem Exclusive.rouse (h : m.Exclusive) : m.rouse.Exclusive := by
  rintro c p ⟨hc, hp⟩
  refine h c p ⟨?_, hp⟩
  change (m.consumer c).roused.Holds at hc
  cases hx : m.consumer c with
  | blocked =>
    rw [hx] at hc
    exact hc.elim
  | _ =>
    rw [hx] at hc
    exact hc

section
variable [DecidableEq C] {c c' : C} {x : Consumer}

def setConsumer (m : Monitor C P) (c : C) (x : Consumer) : Monitor C P :=
  { m with consumer := Function.update m.consumer c x }

@[simp] theorem consumer_setConsumer (m : Monitor C P) (c : C) (x : Consumer) :
    (m.setConsumer c x).consumer c = x := Function.update_self ..

@[simp] theorem producer_setConsumer (m : Monitor C P) (c : C) (x : Consumer) :
    (m.setConsumer c x).producer = m.producer := rfl

@[simp] theorem setConsumer_setConsumer (m : Monitor C P) (c : C) (x x' : Consumer) :
    (m.setConsumer c x).setConsumer c x' = m.setConsumer c x' :=
  congrArg (Monitor.mk · m.producer) (Function.update_idem ..)

theorem setConsumer_start (c : C) : (start : Monitor C P).setConsumer c .away = start :=
  congrArg (Monitor.mk · fun _ => .away) (Function.update_eq_self c _)

theorem consumer_of_ne (h : c' ≠ c) :
    (m.setConsumer c x).consumer c' = m.consumer c' := Function.update_of_ne h ..

/-- A consumer that goes on is awake. -/
theorem Watched.setConsumer (h : Watched k m) (hw : x ≠ .waiting) (hb : x ≠ .blocked) :
    Watched k (m.setConsumer c x) where
  awake _ := .inl ⟨c, by rwa [consumer_setConsumer]⟩
  overtaken c' hc' h0 := by
    rcases eq_or_ne c' c with rfl | hne
    · rw [consumer_setConsumer] at hc'
      exact absurd hc' hw
    · rw [consumer_of_ne hne] at hc'
      exact h.overtaken c' hc' h0

/-- A consumer that is blocked from now on has found the queue empty, or a producer is going to
notify of what it has not seen. -/
theorem Watched.wait (h : Watched k m) (hc : m.consumer c = .waiting) :
    Watched k (m.setConsumer c .blocked) where
  awake h0 := by
    obtain ⟨p, all, hp⟩ := h.overtaken c hc h0
    refine .inr ⟨p, ?_⟩
    rw [producer_setConsumer, hp]
    exact not_false
  overtaken c' hc' h0 := by
    rcases eq_or_ne c' c with rfl | hne
    · rw [consumer_setConsumer] at hc'
      cases hc'
    · rw [consumer_of_ne hne] at hc'
      exact h.overtaken c' hc' h0

/-- A consumer that does not find the queue empty makes nobody wait. -/
theorem consumer_of_setConsumer (m : Monitor C P) (c' : C) (x : Consumer) (hw : x ≠ .waiting)
    (hb : x = .blocked → m.consumer c' = .waiting) (c : C) :
    ((m.setConsumer c' x).consumer c = .blocked →
      m.consumer c = .blocked ∨ m.consumer c = .waiting) ∧
    ((m.setConsumer c' x).consumer c = .waiting → m.consumer c = .waiting) ∧
    ((m.setConsumer c' x).consumer c = .checking →
      m.consumer c = .checking ∨ x = .checking ∧ c' = c) := by
  rcases eq_or_ne c c' with rfl | hne
  · rw [consumer_setConsumer]
    exact ⟨fun h => .inr (hb h), fun h => absurd h hw, fun h => .inr ⟨h, rfl⟩⟩
  · rw [consumer_of_ne hne]
    exact ⟨Or.inl, id, Or.inl⟩

theorem consumer_setConsumer_of {c' : C} {x : Consumer}
    (h : (Sum.inl c' : C ⊕ P) ≠ .inl c) : (m.setConsumer c' x).consumer c = m.consumer c :=
  consumer_of_ne fun he => h (congrArg Sum.inl he.symm)

/-- Who holds the mutex has held it before, or finds that no producer does. -/
theorem Exclusive.setConsumer (h : m.Exclusive) {x : Consumer}
    (hx : x.Holds → (m.consumer c).Holds ∨ ∀ p, ¬ (m.producer p).Holds) :
    (m.setConsumer c x).Exclusive := by
  rintro c' p ⟨hc, hp⟩
  rw [producer_setConsumer] at hp
  rcases eq_or_ne c' c with rfl | hne
  · rw [consumer_setConsumer] at hc
    exact (hx hc).elim (fun hc => h c' p ⟨hc, hp⟩) fun hnone => hnone p hp
  · rw [consumer_of_ne hne] at hc
    exact h c' p ⟨hc, hp⟩

end

section
variable [DecidableEq P] {p p' : P} {y : Producer}

def setProducer (m : Monitor C P) (p : P) (y : Producer) : Monitor C P :=
  { m with producer := Function.update m.producer p y }

@[simp] theorem producer_setProducer (m : Monitor C P) (p : P) (y : Producer) :
    (m.setProducer p y).producer p = y := Function.update_self ..

@[simp] theorem consumer_setProducer (m : Monitor C P) (p : P) (y : Producer) :
    (m.setProducer p y).consumer = m.consumer := rfl

@[simp] theorem setProducer_setProducer (m : Monitor C P) (p : P) (y y' : Producer) :
    (m.setProducer p y).setProducer p y' = m.setProducer p y' :=
  congrArg (Monitor.mk m.consumer) (Function.update_idem ..)

theorem setProducer_start (p : P) : (start : Monitor C P).setProducer p .away = start :=
  congrArg (Monitor.mk fun _ => .away) (Function.update_eq_self p _)

theorem producer_of_ne (h : p' ≠ p) :
    (m.setProducer p y).producer p' = m.producer p' := Function.update_of_ne h ..

theorem watched_push (k : ℕ) (m : Monitor C P) (p : P) (all : Bool) :
    Watched k (m.setProducer p (.pushed all)) where
  awake _ := .inr ⟨p, by rw [producer_setProducer]; exact not_false⟩
  overtaken _ _ _ := ⟨p, all, producer_setProducer ..⟩

/-- A producer that gets the mutex knows that no consumer is about to wait. -/
theorem watched_acquire (hfree : m.Free) (all : Bool) :
    Watched k (m.setProducer p (.notifying all)) where
  awake _ := .inr ⟨p, by rw [producer_setProducer]; exact not_false⟩
  overtaken c hc _ := by
    have hholds := hfree.1 c
    rw [consumer_setProducer] at hc
    rw [hc] at hholds
    exact absurd trivial hholds

/-- A producer that has notified is not needed if a consumer is awake or another producer is going
to notify. -/
theorem Watched.setProducer (h : Watched k m) (hp : ∀ all, m.producer p ≠ .pushed all)
    (hawake : 0 < k → (∃ c, m.consumer c ≠ .blocked) ∨ ∃ q ≠ p, ¬ (m.producer q).Past) :
    Watched k (m.setProducer p y) where
  awake h0 := by
    refine (hawake h0).imp id fun ⟨q, hne, hq⟩ => ⟨q, ?_⟩
    rwa [producer_of_ne hne]
  overtaken c hc h0 := by
    obtain ⟨q, all, hq⟩ := h.overtaken c hc h0
    have hne : q ≠ p := by
      rintro rfl
      exact hp all hq
    exact ⟨q, all, by rwa [producer_of_ne hne]⟩

theorem Exclusive.setProducer (h : m.Exclusive) {y : Producer}
    (hy : y.Holds → (m.producer p).Holds ∨ ∀ c, ¬ (m.consumer c).Holds) :
    (m.setProducer p y).Exclusive := by
  rintro c p' ⟨hc, hp⟩
  rw [consumer_setProducer] at hc
  rcases eq_or_ne p' p with rfl | hne
  · rw [producer_setProducer] at hp
    exact (hy hp).elim (fun hp => h c p' ⟨hc, hp⟩) fun hnone => hnone c hc
  · rw [producer_of_ne hne] at hp
    exact h c p' ⟨hc, hp⟩

end

variable [DecidableEq C] [DecidableEq P]

/-- A thread takes or gives back the mutex, waits or notifies. Waiting may fail and may end without
a notification; a notification of one wakes a blocked consumer if there is one. -/
inductive Sync : Monitor C P → C ⊕ P → Monitor C P → Prop
  | enter {m c} (hc : m.consumer c = .away) (hfree : m.Free) :
    Sync m (.inl c) (m.setConsumer c .checking)
  | wait {m c} (hc : m.consumer c = .waiting) : Sync m (.inl c) (m.setConsumer c .blocked)
  | fail {m c} (hc : m.consumer c = .waiting) : Sync m (.inl c) (m.setConsumer c .checking)
  | wake {m c} (hc : m.consumer c = .blocked) : Sync m (.inl c) (m.setConsumer c .woken)
  | reenter {m c} (hc : m.consumer c = .woken) (hfree : m.Free) :
    Sync m (.inl c) (m.setConsumer c .checking)
  | leave {m c} (hc : m.consumer c = .leaving) : Sync m (.inl c) (m.setConsumer c .away)
  | acquire {m p all} (hp : m.producer p = .pushed all) (hfree : m.Free) :
    Sync m (.inr p) (m.setProducer p (.notifying all))
  | notifyOne {m p c} (hp : m.producer p = .notifying false) (hc : m.consumer c = .blocked) :
    Sync m (.inr p) ((m.setConsumer c .woken).setProducer p .notified)
  | notifyNobody {m p} (hp : m.producer p = .notifying false)
      (hnone : ∀ c, m.consumer c ≠ .blocked) : Sync m (.inr p) (m.setProducer p .notified)
  | notifyAll {m p} (hp : m.producer p = .notifying true) :
    Sync m (.inr p) (m.rouse.setProducer p .notified)
  | release {m p} (hp : m.producer p = .notified) : Sync m (.inr p) (m.setProducer p .away)

/-- The steps with the number of the items in the queue. A producer may notify without an item. -/
inductive Step : ℕ → Monitor C P → ℕ → Monitor C P → Prop
  | sync {k m t m'} (h : Sync m t m') : Step k m k m'
  | take {k m c} (hc : m.consumer c = .checking) : Step (k + 1) m k (m.setConsumer c .leaving)
  | empty {m c} (hc : m.consumer c = .checking) : Step 0 m 0 (m.setConsumer c .waiting)
  | push {k m p} (hp : m.producer p = .away) (all : Bool) :
    Step k m (k + 1) (m.setProducer p (.pushed all))
  | skip {k m p} (hp : m.producer p = .away) (all : Bool) :
    Step k m k (m.setProducer p (.pushed all))

variable {t : C ⊕ P}

theorem Watched.sync [Nonempty C] (h : Watched k m) (hs : Sync m t m') : Watched k m' := by
  cases hs with
  | enter | fail | wake | reenter | leave => exact h.setConsumer nofun nofun
  | wait hc => exact h.wait hc
  | acquire hp hfree => exact watched_acquire hfree _
  | @notifyOne p c hp hc =>
    have hawake : (m.setConsumer c .woken).consumer c ≠ .blocked := by
      rw [consumer_setConsumer]
      exact nofun
    have hw : Watched k (m.setConsumer c .woken) := h.setConsumer nofun nofun
    refine hw.setProducer (fun all he => ?_) fun _ => .inl ⟨c, hawake⟩
    rw [producer_setConsumer, hp] at he
    cases he
  | notifyNobody hp hnone =>
    refine h.setProducer (fun all he => ?_) fun _ => .inl ⟨Classical.arbitrary C, hnone _⟩
    rw [hp] at he
    cases he
  | notifyAll hp =>
    refine h.rouse.setProducer (fun all he => ?_)
      fun _ => .inl ⟨Classical.arbitrary C, (consumer_rouse m _).1⟩
    rw [producer_rouse, hp] at he
    cases he
  | release hp =>
    refine h.setProducer (fun all he => ?_) fun h0 => ?_
    · rw [hp] at he
      cases he
    · refine (h.awake h0).imp id fun ⟨q, hq⟩ => ⟨q, ?_, hq⟩
      rintro rfl
      rw [hp] at hq
      exact hq trivial

theorem Watched.step [Nonempty C] (h : Watched k m) (hs : Step k m k' m') : Watched k' m' := by
  cases hs with
  | sync hs => exact h.sync hs
  | take hc => exact (h.mono (Nat.le_succ k')).setConsumer nofun nofun
  | empty hc =>
    exact ⟨fun h0 => absurd h0 (Nat.lt_irrefl 0), fun _ _ h0 => absurd h0 (Nat.lt_irrefl 0)⟩
  | push hp all | skip hp all => exact watched_push _ _ _ _

/-- Only who waits is blocked, and only who takes the mutex looks into the queue. -/
theorem Sync.consumer (hs : Sync m t m') (c : C) :
    (m'.consumer c = .blocked → m.consumer c = .blocked ∨ m.consumer c = .waiting) ∧
    (m'.consumer c = .waiting → m.consumer c = .waiting) ∧
    (m'.consumer c = .checking → m.consumer c = .checking ∨ t = .inl c) := by
  have himp : ∀ {c' : C} {x : Consumer}, ((m.setConsumer c' x).consumer c = .checking →
      m.consumer c = .checking ∨ x = .checking ∧ c' = c) →
      (m.setConsumer c' x).consumer c = .checking →
      m.consumer c = .checking ∨ (Sum.inl c' : C ⊕ P) = .inl c :=
    fun h hc => (h hc).imp id fun h => congrArg _ h.2
  cases hs with
  | @enter c' hc | @fail c' hc | @reenter c' hc =>
    have h := consumer_of_setConsumer m c' .checking nofun nofun c
    exact ⟨h.1, h.2.1, himp h.2.2⟩
  | @wait c' hc =>
    have h := consumer_of_setConsumer m c' .blocked nofun (fun _ => hc) c
    exact ⟨h.1, h.2.1, himp h.2.2⟩
  | @wake c' hc =>
    have h := consumer_of_setConsumer m c' .woken nofun nofun c
    exact ⟨h.1, h.2.1, himp h.2.2⟩
  | @leave c' hc =>
    have h := consumer_of_setConsumer m c' .away nofun nofun c
    exact ⟨h.1, h.2.1, himp h.2.2⟩
  | @notifyOne p c' hp hc =>
    have h := consumer_of_setConsumer m c' .woken nofun nofun c
    exact ⟨h.1, h.2.1, fun hx => (h.2.2 hx).imp id fun h => nomatch h.1⟩
  | acquire | notifyNobody | release => exact ⟨Or.inl, id, Or.inl⟩
  | notifyAll =>
    exact ⟨fun h => absurd h (consumer_rouse m c).1, (consumer_rouse m c).2,
      fun h => .inl (checking_of_rouse h)⟩

/-- What the others do wakes a blocked consumer at most. -/
theorem Sync.consumer_eq (hs : Sync m t m') (h : t ≠ .inl c) :
    m'.consumer c = m.consumer c ∨ t.isRight ∧ m.consumer c = .blocked := by
  cases hs with
  | enter | wait | fail | wake | reenter | leave => exact .inl (consumer_setConsumer_of h)
  | acquire | notifyNobody | release => exact .inl rfl
  | @notifyOne p c' _ hc' =>
    rcases eq_or_ne c c' with rfl | hne
    · exact .inr ⟨rfl, hc'⟩
    · exact .inl (consumer_of_ne hne)
  | notifyAll =>
    cases hc : m.consumer c with
    | blocked => exact .inr ⟨rfl, rfl⟩
    | _ =>
      refine .inl ?_
      change (m.consumer c).roused = _
      rw [hc]
      rfl

theorem Sync.producer_eq (hs : Sync m t m') {p : P} (h : t ≠ .inr p) :
    m'.producer p = m.producer p := by
  cases hs with
  | enter | wait | fail | wake | reenter | leave => rfl
  | acquire | notifyOne | notifyNobody | notifyAll | release =>
    exact producer_of_ne fun he => h (congrArg Sum.inr he.symm)

/-! ### The mutex -/

theorem Exclusive.sync (h : m.Exclusive) (hs : Sync m t m') : m'.Exclusive := by
  cases hs with
  | enter _ hfree | reenter _ hfree => exact h.setConsumer fun _ => .inr hfree.2
  | wait | wake | leave => exact h.setConsumer False.elim
  | fail hc => exact h.setConsumer fun _ => .inl (hc ▸ trivial)
  | acquire _ hfree => exact h.setProducer fun _ => .inr hfree.1
  | notifyOne hp =>
    refine Exclusive.setProducer (h.setConsumer False.elim) fun _ => .inl ?_
    rw [producer_setConsumer, hp]
    trivial
  | notifyNobody hp => exact h.setProducer fun _ => .inl (hp ▸ trivial)
  | notifyAll hp =>
    refine h.rouse.setProducer fun _ => .inl ?_
    rw [producer_rouse, hp]
    trivial
  | release => exact h.setProducer False.elim

/-- A notification of all is on its way. -/
def Alarmed (m : Monitor C P) (p : P) : Prop :=
  m.producer p = .pushed true ∨ m.producer p = .notifying true

/-- It arrives, and then every consumer is up. -/
theorem Exclusive.alarmed_sync (h : m.Exclusive) (hs : Sync m t m') {p : P} (hp : m.Alarmed p) :
    m'.Alarmed p ∨ ∀ c, (m'.consumer c).Up := by
  have hkeeps : ∀ {q : P} {y : Producer}, q ≠ p → (m.setProducer q y).Alarmed p := by
    intro q y hne
    rwa [Alarmed, producer_of_ne hne.symm]
  cases hs with
  | enter | wait | fail | wake | reenter | leave => exact .inl hp
  | @acquire q all hq =>
    rcases eq_or_ne q p with rfl | hne
    · rw [Alarmed, hq] at hp
      obtain rfl : all = true := by simpa using hp
      exact .inl (.inr (producer_setProducer ..))
    · exact .inl (hkeeps hne)
  | @notifyOne q c hq =>
    have hne : p ≠ q := by
      rintro rfl
      simp [Alarmed, hq] at hp
    exact .inl (by rwa [Alarmed, producer_of_ne hne])
  | @notifyNobody q hq =>
    refine .inl (hkeeps ?_)
    rintro rfl
    simp [Alarmed, hq] at hp
  | @notifyAll q hq =>
    rcases eq_or_ne q p with rfl | hne
    · refine .inr fun c => ?_
      have hholds : ¬ (m.consumer c).Holds := fun hc => h c q ⟨hc, hq ▸ trivial⟩
      change (m.consumer c).roused.Up
      cases hc : m.consumer c with
      | away | blocked | woken => exact ⟨nofun, id⟩
      | checking | waiting | leaving =>
        rw [hc] at hholds
        exact absurd trivial hholds
    · exact .inl (by rwa [Alarmed, producer_of_ne hne.symm])
  | @release q hq =>
    refine .inl (hkeeps ?_)
    rintro rfl
    simp [Alarmed, hq] at hp

/-! ### Undisturbed threads -/

theorem sync_leave (c : C) :
    Sync ((start : Monitor C P).setConsumer c .leaving) (.inl c) start := by
  have h := Sync.leave (consumer_setConsumer (start : Monitor C P) c .leaving)
  rwa [setConsumer_setConsumer, setConsumer_start] at h

/-- A producer that has pushed is free again after it has notified. -/
theorem run_notify (p : P) (all : Bool) : Run Sync
    ((start : Monitor C P).setProducer p (.pushed all)) [.inr p, .inr p, .inr p] start := by
  have hfree : ((start : Monitor C P).setProducer p (.pushed all)).Free := by
    refine ⟨fun _ => id, fun q => ?_⟩
    rcases eq_or_ne q p with rfl | hne
    · rw [producer_setProducer]
      exact id
    · rw [producer_of_ne hne]
      exact id
  have hacquire := Sync.acquire (producer_setProducer start p (.pushed all)) hfree
  rw [setProducer_setProducer] at hacquire
  have hnotify : Sync ((start : Monitor C P).setProducer p (.notifying all)) (.inr p)
      (start.setProducer p .notified) := by
    cases all with
    | false =>
      have h := Sync.notifyNobody (producer_setProducer (start : Monitor C P) p (.notifying false))
        fun _ => nofun
      rwa [setProducer_setProducer] at h
    | true =>
      have h := Sync.notifyAll (producer_setProducer (start : Monitor C P) p (.notifying true))
      have hrouse : ((start : Monitor C P).setProducer p (.notifying true)).rouse =
          start.setProducer p (.notifying true) := rfl
      rwa [hrouse, setProducer_setProducer] at h
  have hrelease := Sync.release (producer_setProducer (start : Monitor C P) p .notified)
  rw [setProducer_setProducer, setProducer_start] at hrelease
  exact ((Run.start.next hacquire).next hnotify).next hrelease

end Monitor
end StorageServer.Library
