import StorageServer.Server.Places
import StorageServer.Server.WakeUps
import Mathlib.Data.Finset.Card

/-! How the server stops. The signals set flags; the main thread leaves its loop, wakes the workers,
joins them, stops the lock thread, joins it, asks the select thread to exit and joins it before it
frees what they have shared. The other threads look at the flags in their loops, outside of the
mutexes on which they wait and while they hold them. -/
namespace StorageServer.Server
open Library Library.Runs

/-- A thread that waits for the items of a queue. -/
inductive Waiter (n : ℕ)
  | worker (c : Fin n)
  | lock

def Waiter.thread {n : ℕ} : Waiter n → ThreadId
  | worker c => .worker c
  | lock => .lock

namespace WaitingThreads
variable {n : ℕ} {s s' : WaitingThreads n} {th : ThreadId}

theorem Step.threads_of (h : Step s th s') :
    (∃ e, e.thread = th ∧ Threads.Step s.threads e s'.threads) ∨ s'.threads = s.threads := by
  cases h with
  | run h => exact .inl ⟨_, rfl, h⟩
  | takeWork h he | pushWork h he | closeConnection h he | takeNotification h he | issue h he =>
    exact .inl ⟨_, he, h⟩
  | noWork | workSync | noNotification | lockSync => exact .inr rfl

/-- Where a thread that waits is. -/
def consumer (s : WaitingThreads n) : Waiter n → Consumer
  | .worker c => s.work.consumer c
  | .lock => s.lock.consumer ()

/-- Only a thread that has found its queue empty waits, and only one that takes the mutex looks into
the queue. -/
theorem Step.consumer (h : Step s th s') (w : Waiter n) :
    (s'.consumer w = .blocked → s.consumer w = .blocked ∨ s.consumer w = .waiting) ∧
    (s'.consumer w = .waiting →
      s.consumer w = .waiting ∨ s.consumer w = .checking ∧ th = w.thread) ∧
    (s'.consumer w = .checking → s.consumer w = .checking ∨ th = w.thread) := by
  cases w with
  | worker c =>
    unfold WaitingThreads.consumer
    cases h with
    | @takeWork e τ c' =>
      obtain ⟨h1, h2, h3⟩ := s.work.consumer_of_setConsumer c' .leaving nofun nofun c
      exact ⟨h1, fun h => .inl (h2 h), fun h => (h3 h).imp id fun h => nomatch h.1⟩
    | @noWork c' hc =>
      rcases eq_or_ne c c' with rfl | hne
      · dsimp only
        rw [Monitor.consumer_setConsumer]
        exact ⟨nofun, fun _ => .inr ⟨hc, rfl⟩, nofun⟩
      · dsimp only
        rw [Monitor.consumer_of_ne hne]
        exact ⟨Or.inl, Or.inl, Or.inl⟩
    | workSync h =>
      obtain ⟨h1, h2, h3⟩ := h.consumer c
      exact ⟨h1, fun h => .inl (h2 h), fun h => (h3 h).imp id fun he => by rw [he]; rfl⟩
    | run | pushWork | closeConnection | takeNotification | noNotification | issue | lockSync =>
      exact ⟨Or.inl, Or.inl, Or.inl⟩
  | lock =>
    unfold WaitingThreads.consumer
    cases h with
    | takeNotification =>
      obtain ⟨h1, h2, h3⟩ := s.lock.consumer_of_setConsumer () .leaving nofun nofun ()
      exact ⟨h1, fun h => .inl (h2 h), fun h => (h3 h).imp id fun _ => rfl⟩
    | noNotification hc =>
      dsimp only
      rw [Monitor.consumer_setConsumer]
      exact ⟨nofun, fun _ => .inr ⟨hc, rfl⟩, nofun⟩
    | lockSync h =>
      obtain ⟨h1, h2, h3⟩ := h.consumer ()
      exact ⟨h1, fun h => .inl (h2 h), fun h => (h3 h).imp id fun he => by rw [he]; rfl⟩
    | run | takeWork | noWork | pushWork | closeConnection | workSync | issue =>
      exact ⟨Or.inl, Or.inl, Or.inl⟩

theorem Step.exclusive (hx : s.work.Exclusive) (h : Step s th s') : s'.work.Exclusive := by
  cases h with
  | takeWork _ _ _ hc | noWork hc => exact hx.setConsumer fun _ => .inl (hc ▸ trivial)
  | pushWork | closeConnection => exact hx.setProducer False.elim
  | workSync h => exact hx.sync h
  | run | takeNotification | noNotification | issue | lockSync => exact hx

end WaitingThreads

inductive Signal
  | sigInt
  | sigQuit
  | sigHup
  deriving DecidableEq

/-- Where the main thread is in `runServer` and in `terminateSever`. -/
inductive MainPoint
  | testing
  | accepting
  | notifyingWorkers
  | joiningWorkers
  | stopping
  | notifyingLock
  | joiningLock
  | requestingExit
  | joiningSelect
  | freeing
  | freed
  deriving DecidableEq

/-- The main thread has left the loop in which it accepts clients and has notified the workers. -/
def MainPoint.Notified : MainPoint → Prop
  | testing | accepting | notifyingWorkers => False
  | joiningWorkers | stopping | notifyingLock | joiningLock | requestingExit | joiningSelect
  | freeing | freed => True

/-- It has notified the lock thread as well. -/
def MainPoint.LockNotified : MainPoint → Prop
  | testing | accepting | notifyingWorkers | joiningWorkers | stopping | notifyingLock => False
  | joiningLock | requestingExit | joiningSelect | freeing | freed => True

/-- How a message changes the number of connected clients. -/
def PipeMessage.counts : PipeMessage → ℤ
  | newConnection _ => 1
  | remConnection _ => -1
  | setConnection _ => 0

/-- The threads with the signals. A thread has `tested` the condition of a loop if it is going to
do what the loop does. -/
structure ServerProcess (n : ℕ) where
  waiting : WaitingThreads n
  gSigIntReceived : Bool
  gSigQuitReceived : Bool
  gSigHupReceived : Bool
  gShouldStopWorking : Bool
  gNumClientConnected : ℤ
  main : MainPoint
  tested : ThreadId → Bool
  exited : ThreadId → Bool
  exitRequested : Bool

namespace ServerProcess
variable {n : ℕ}

def initializeServer (configs : FSConfig) (pipeFd : ℤ) (n : ℕ) : ServerProcess n where
  waiting := .initializeServer configs pipeFd n
  gSigIntReceived := false
  gSigQuitReceived := false
  gSigHupReceived := false
  gShouldStopWorking := false
  gNumClientConnected := 0
  main := .testing
  tested _ := false
  exited _ := false
  exitRequested := false

abbrev threads (s : ServerProcess n) : Threads := s.waiting.threads

def signalHandlerCallback (s : ServerProcess n) (signum : Signal) : ServerProcess n :=
  { s with
    gSigIntReceived := s.gSigIntReceived || signum = .sigInt
    gSigQuitReceived := s.gSigQuitReceived || signum = .sigQuit
    gSigHupReceived := s.gSigHupReceived || signum = .sigHup }

/-- The condition on which a thread leaves its loop. -/
def Stops (s : ServerProcess n) : ThreadId → Prop
  | .main => s.gSigIntReceived ∨ s.gSigQuitReceived ∨ s.gSigHupReceived
  | .select => s.gSigIntReceived ∨ s.gSigQuitReceived
  | .lock => s.gSigIntReceived ∨ s.gSigQuitReceived ∨ s.gShouldStopWorking
  | .worker _ =>
    s.gSigIntReceived ∨ s.gSigQuitReceived ∨ s.gSigHupReceived ∧ s.gNumClientConnected = 0

instance (s : ServerProcess n) : (th : ThreadId) → Decidable (s.Stops th)
  | .main | .lock => inferInstanceAs (Decidable (_ ∨ _ ∨ _))
  | .select => inferInstanceAs (Decidable (_ ∨ _))
  | .worker _ => inferInstanceAs (Decidable (_ ∨ _ ∨ _ ∧ _))

/-- A thread is at the condition of its outer loop. -/
def AtLoop (s : ServerProcess n) : ThreadId → Prop
  | .main => False
  | .select => s.threads.select = .copying ∧ s.waiting.work.producer () = .away
  | .lock => s.threads.lock = .idle ∧ s.waiting.lock.consumer () = .away
  | .worker id => s.threads.Seeking id ∧
    ∃ c : Fin n, c = id ∧ s.waiting.work.consumer c = .away ∧ s.waiting.lock.producer c = .away

/-- A thread is at the condition of the loop in which it waits. -/
def AtQueueLoop (s : ServerProcess n) : ThreadId → Prop
  | .main | .select => False
  | .lock => s.waiting.lock.consumer () = .checking
  | .worker id => ∃ c : Fin n, c = id ∧ s.waiting.work.consumer c = .checking

inductive Action
  | thread (th : ThreadId)
  | signal (signum : Signal)
  | overflow (fd : ℤ)

/-- One step of one thread or a signal. The main thread notifies in one step; nobody else gets on
while it holds the mutex. -/
inductive Step : ServerProcess n → Action → ServerProcess n → Prop
  | signal {s} (signum : Signal) : Step s (.signal signum) (s.signalHandlerCallback signum)
  | enterLoop {s} (hm : s.main = .testing) (hgo : ¬ s.Stops .main) :
    Step s (.thread .main) { s with main := .accepting }
  /-- A client is accepted, or announced to the select thread, or rejected. -/
  | accept {s t} (hm : s.main = .accepting) (h : WaitingThreads.Step s.waiting .main t) :
    Step s (.thread .main)
      { s with waiting := t, main := if t.threads.main = none then .testing else .accepting }
  /-- The call of `accept` is interrupted or fails. -/
  | interrupted {s} (hm : s.main = .accepting) (hnone : s.threads.main = none) :
    Step s (.thread .main) { s with main := .testing }
  | leaveLoop {s} (hm : s.main = .testing) (hstop : s.Stops .main) :
    Step s (.thread .main) { s with main := .notifyingWorkers }
  | notifyWorkers {s} (hm : s.main = .notifyingWorkers) (hfree : s.waiting.work.Free) :
    Step s (.thread .main)
      { s with waiting := { s.waiting with work := s.waiting.work.rouse }, main := .joiningWorkers }
  | joinWorkers {s} (hm : s.main = .joiningWorkers) (hw : ∀ c : Fin n, s.exited (.worker c)) :
    Step s (.thread .main) { s with main := .stopping }
  | stop {s} (hm : s.main = .stopping) :
    Step s (.thread .main) { s with gShouldStopWorking := true, main := .notifyingLock }
  /-- Only one thread can be blocked. -/
  | notifyLock {s} (hm : s.main = .notifyingLock) (hfree : s.waiting.lock.Free) :
    Step s (.thread .main)
      { s with waiting := { s.waiting with lock := s.waiting.lock.rouse }, main := .joiningLock }
  | joinLock {s} (hm : s.main = .joiningLock) (hl : s.exited .lock) :
    Step s (.thread .main) { s with main := .requestingExit }
  | requestExit {s} (hm : s.main = .requestingExit) :
    Step s (.thread .main) { s with exitRequested := true, main := .joiningSelect }
  | joinSelect {s} (hm : s.main = .joiningSelect) (hs : s.exited .select) :
    Step s (.thread .main) { s with main := .freeing }
  | free {s} (hm : s.main = .freeing) : Step s (.thread .main) { s with main := .freed }
  | test {s th} (h : s.AtLoop th ∨ s.AtQueueLoop th) (halive : s.exited th = false)
      (htested : s.tested th = false) (hgo : ¬ s.Stops th) :
    Step s (.thread th) { s with tested := Function.update s.tested th true }
  | exit {s th} (h : s.AtLoop th) (halive : s.exited th = false) (htested : s.tested th = false)
      (hstop : s.Stops th) :
    Step s (.thread th) { s with exited := Function.update s.exited th true }
  /-- The loop in which a worker waits ends without a descriptor. -/
  | giveUp {s} {c : Fin n} (hc : s.waiting.work.consumer c = .checking)
      (halive : s.exited (.worker c) = false) (htested : s.tested (.worker c) = false)
      (hstop : s.Stops (.worker c)) :
    Step s (.thread (.worker c))
      { s with waiting := { s.waiting with work := s.waiting.work.setConsumer c .leaving } }
  | giveUpLock {s} (hc : s.waiting.lock.consumer () = .checking) (halive : s.exited .lock = false)
      (htested : s.tested .lock = false) (hstop : s.Stops .lock) :
    Step s (.thread .lock)
      { s with waiting := { s.waiting with lock := s.waiting.lock.setConsumer () .leaving } }
  /-- Whatever else a thread does. -/
  | run {s th t} (h : WaitingThreads.Step s.waiting th t) (hth : th ≠ .main)
      (halive : s.exited th = false) (htested : s.AtLoop th ∨ s.AtQueueLoop th → s.tested th)
      (hselect : th = .select →
        t.threads.pipe = s.threads.pipe ∧ t.threads.opened = s.threads.opened) :
    Step s (.thread th) { s with waiting := t, tested := Function.update s.tested th false }
  /-- The select thread handles a message: it closes a connection and counts it down at once. -/
  | message {s m t} (h : WaitingThreads.Step s.waiting .select t)
      (halive : s.exited .select = false) (hm : s.threads.pipe = m :: t.threads.pipe) :
    Step s (.thread .select)
      { s with waiting := t, gNumClientConnected := s.gNumClientConnected + m.counts }
  /-- The select thread disconnects a client for whom there is no room in the work queue. -/
  | overflow {s fd t} (h : WaitingThreads.Step s.waiting .select t)
      (halive : s.exited .select = false) (hfd : fd ∈ s.threads.opened)
      (hpipe : t.threads.pipe = s.threads.pipe)
      (hopened : t.threads.opened = s.threads.opened.erase fd) :
    Step s (.overflow fd) { s with waiting := t }
  /-- The select thread reads that it has to exit. -/
  | exitRequested {s fdsCpy} (hs : s.threads.select = .selected fdsCpy)
      (hp : s.threads.pipeFd ∈ fdsCpy) (hpipe : s.threads.pipe = [])
      (haway : s.waiting.work.producer () = .away) (halive : s.exited .select = false)
      (hrequest : s.exitRequested = true) :
    Step s (.thread .select) { s with exited := Function.update s.exited .select true }

/-! ### Who sleeps -/

/-- A thread is blocked, or it is going to be without looking at the flags again. -/
def Sleeps (s : ServerProcess n) (w : Waiter n) : Prop :=
  s.waiting.consumer w = .blocked ∨ s.waiting.consumer w = .waiting ∨
    s.waiting.consumer w = .checking ∧ s.tested w.thread = true

section Steps
variable {s t : ServerProcess n} {a : Action}

theorem Step.threads (h : Step s a t) :
    (∃ e, Threads.Step s.threads e t.threads) ∨ t.threads = s.threads := by
  cases h with
  | accept _ h | run h | message h | overflow h => exact h.threads
  | _ => exact .inr rfl

/-- Nothing takes a flag back. -/
theorem Step.flags (h : Step s a t) :
    (s.gSigIntReceived → t.gSigIntReceived) ∧ (s.gSigQuitReceived → t.gSigQuitReceived) ∧
      (s.gSigHupReceived → t.gSigHupReceived) ∧
      (s.gShouldStopWorking → t.gShouldStopWorking) := by
  cases h with
  | signal signum =>
    simp only [signalHandlerCallback, Bool.or_eq_true]
    exact ⟨Or.inl, Or.inl, Or.inl, id⟩
  | stop => exact ⟨id, id, id, fun _ => rfl⟩
  | _ => exact ⟨id, id, id, id⟩

theorem Sleeps.before {w : Waiter n} (ht : t.Sleeps w)
    (h : (t.waiting.consumer w = .blocked →
        s.waiting.consumer w = .blocked ∨ s.waiting.consumer w = .waiting) ∧
      (t.waiting.consumer w = .waiting → s.waiting.consumer w = .waiting) ∧
      (t.waiting.consumer w = .checking → s.waiting.consumer w = .checking))
    (htested : t.tested w.thread = s.tested w.thread) : s.Sleeps w := by
  rcases ht with hb | hw | ⟨hc, ht⟩
  · exact (h.1 hb).imp id Or.inl
  · exact .inr (.inl (h.2.1 hw))
  · exact .inr (.inr ⟨h.2.2 hc, htested ▸ ht⟩)

/-- Nobody goes to sleep who has to stop. -/
theorem Step.sleeps {w : Waiter n} (h : Step s a t) (ht : t.Sleeps w) :
    s.Sleeps w ∨ ¬ s.Stops w.thread := by
  cases h with
  | @test th _ _ _ hgo =>
    rcases ht with hb | hw | ⟨hc, htested⟩
    · exact .inl (.inl hb)
    · exact .inl (.inr (.inl hw))
    · rcases eq_or_ne w.thread th with rfl | hne
      · exact .inr hgo
      · dsimp only at htested
        rw [Function.update_of_ne hne] at htested
        exact .inl (.inr (.inr ⟨hc, htested⟩))
  | @run th t h _ _ htest =>
    obtain ⟨h1, h2, h3⟩ := h.consumer w
    rcases ht with hb | hw | ⟨hc, htested⟩
    · exact .inl ((h1 hb).imp id Or.inl)
    · rcases h2 hw with hw | ⟨hc, rfl⟩
      · exact .inl (.inr (.inl hw))
      · refine .inl (.inr (.inr ⟨hc, htest (.inr ?_)⟩))
        cases w with
        | worker c => exact ⟨c, rfl, hc⟩
        | lock => exact hc
    · have hne : w.thread ≠ th := by
        rintro rfl
        dsimp only at htested
        rw [Function.update_self] at htested
        cases htested
      dsimp only at htested
      rw [Function.update_of_ne hne] at htested
      exact .inl (.inr (.inr ⟨(h3 hc).resolve_right hne.symm, htested⟩))
  | message h | overflow h =>
    obtain ⟨h1, h2, h3⟩ := h.consumer w
    have hne : ThreadId.select ≠ w.thread := by cases w <;> exact nofun
    exact .inl (ht.before ⟨h1, fun h => (h2 h).resolve_right fun h => hne h.2,
      fun h => (h3 h).resolve_right hne⟩ rfl)
  | accept _ h =>
    obtain ⟨h1, h2, h3⟩ := h.consumer w
    have hne : ThreadId.main ≠ w.thread := by cases w <;> exact nofun
    exact .inl (ht.before ⟨h1, fun h => (h2 h).resolve_right fun h => hne h.2,
      fun h => (h3 h).resolve_right hne⟩ rfl)
  | notifyWorkers =>
    cases w with
    | worker c =>
      obtain ⟨hb, hw⟩ := s.waiting.work.consumer_rouse c
      exact .inl (ht.before ⟨fun h => absurd h hb, hw, Monitor.checking_of_rouse⟩ rfl)
    | lock => exact .inl ht
  | notifyLock =>
    cases w with
    | worker c => exact .inl ht
    | lock =>
      obtain ⟨hb, hw⟩ := s.waiting.lock.consumer_rouse ()
      exact .inl (ht.before ⟨fun h => absurd h hb, hw, Monitor.checking_of_rouse⟩ rfl)
  | @giveUp c' =>
    cases w with
    | worker c =>
      obtain ⟨h1, h2, h3⟩ := s.waiting.work.consumer_of_setConsumer c' .leaving nofun nofun c
      exact .inl (ht.before ⟨h1, h2, fun h => (h3 h).resolve_right fun h => nomatch h.1⟩ rfl)
    | lock => exact .inl ht
  | giveUpLock =>
    cases w with
    | worker c => exact .inl ht
    | lock =>
      obtain ⟨h1, h2, h3⟩ := s.waiting.lock.consumer_of_setConsumer () .leaving nofun nofun ()
      exact .inl (ht.before ⟨h1, h2, fun h => (h3 h).resolve_right fun h => nomatch h.1⟩ rfl)
  | _ => exact .inl ht

end Steps

/-! ### Who is connected -/

end ServerProcess

/-- The client whom a message announces. -/
def PipeMessage.announces : PipeMessage → Option ℤ
  | newConnection value => some value
  | setConnection _ | remConnection _ => none

namespace Threads
variable {σ τ : Threads} {e : ThreadEvent}

/-- The clients who have been accepted and of whom the select thread does not know yet. -/
def unannounced (σ : Threads) : List ℤ :=
  σ.main.toList ++ σ.pipe.filterMap PipeMessage.announces

theorem count_unannounced_le (σ : Threads) (fd : ℤ) : σ.unannounced.count fd ≤ σ.places fd := by
  have hsub : ∀ pipe : List PipeMessage,
      (pipe.filterMap PipeMessage.announces).Sublist (pipe.map PipeMessage.value) := by
    intro pipe
    induction pipe with
    | nil => exact .slnil
    | cons m pipe ih =>
      cases m with
      | newConnection => exact ih.cons_cons _
      | setConnection | remConnection => exact ih.cons _
  have hpipe := (hsub σ.pipe).count_le fd
  rw [unannounced, List.count_append, places]
  omega

/-- They are connected, and each of them is announced once. -/
theorem Inv.length_unannounced_le (hi : σ.Inv) : σ.unannounced.length ≤ σ.opened.card := by
  have hnodup : σ.unannounced.Nodup := by
    refine List.nodup_iff_count_le_one.mpr fun fd => ?_
    have hle := σ.count_unannounced_le fd
    have hplaced := hi.placed fd
    split_ifs at hplaced <;> omega
  have hsub : σ.unannounced.toFinset ⊆ σ.opened := by
    intro fd hfd
    have hpos := List.count_pos_iff.mpr (List.mem_toFinset.mp hfd)
    exact hi.mem_opened (hpos.trans_le (σ.count_unannounced_le fd))
  rw [← List.toFinset_card_of_nodup hnodup]
  exact Finset.card_le_card hsub

/-- The number of the clients of whom the select thread knows. -/
def announced (σ : Threads) : ℤ := σ.opened.card - σ.unannounced.length

theorem Step.announced_main (hi : σ.Inv) (h : Step σ e τ) (he : e.thread = .main) :
    τ.announced = σ.announced := by
  cases h with
  | accept hm hopen =>
    have hcard := Finset.card_insert_of_notMem hopen
    simp only [announced, unannounced, hm, hcard]
    simp
  | announce hm =>
    simp only [announced, unannounced, send, hm, List.filterMap_append]
    simp [PipeMessage.announces]
  | @reject fd hm =>
    have hfd : fd ∈ σ.opened := by
      refine hi.mem_opened (Nat.lt_of_lt_of_le Nat.zero_lt_one ?_)
      refine le_trans ?_ (σ.count_unannounced_le fd)
      rw [unannounced, hm]
      simp
    have hcard := Finset.card_erase_add_one hfd
    simp only [announced, unannounced, close, hm]
    simp
    omega
  | _ => cases he

theorem Step.announced_other (h : Step σ e τ) (hm : e.thread ≠ .main) (hs : e.thread ≠ .select) :
    τ.announced = σ.announced := by
  cases h with
  | accept | announce | reject => exact absurd rfl hm
  | select | noMessage | message | notReady | skipPipe | clear | push | overflow | scanned =>
    exact absurd rfl hs
  | giveBack | remove | lockGiveBack =>
    simp [announced, unannounced, send, PipeMessage.announces]
  | _ => rfl

theorem Step.main_of_ne (h : Step σ e τ) (hm : e.thread ≠ .main) : τ.main = σ.main := by
  cases h with
  | accept | announce | reject => exact absurd rfl hm
  | @message _ m => cases m <;> rfl
  | _ => rfl

/-- A message that the select thread handles. -/
theorem Step.announced_message (hi : σ.Inv) (h : Step σ e τ) (he : e.thread = .select)
    {m : PipeMessage} (hm : σ.pipe = m :: τ.pipe) : τ.announced = σ.announced + m.counts := by
  have hne : σ.pipe ≠ τ.pipe := fun h => by
    rw [h] at hm
    exact absurd (congrArg List.length hm) (by simp)
  cases h with
  | @message fdsCpy m' messages _ _ hpipe =>
    rw [hpipe] at hm
    obtain ⟨rfl, -⟩ := List.cons.inj hm
    cases m' with
    | newConnection value =>
      simp only [announced, unannounced, receive, hpipe, PipeMessage.counts]
      simp [PipeMessage.announces]
      omega
    | setConnection value =>
      have hnone : (PipeMessage.setConnection value).announces = none := rfl
      simp only [announced, unannounced, receive, hpipe, PipeMessage.counts,
        List.filterMap_cons_none hnone, add_zero]
    | remConnection value =>
      have hfd : value ∈ σ.opened := by
        refine hi.mem_opened ?_
        rw [places, hpipe]
        simp [PipeMessage.value]
      have hcard := Finset.card_erase_add_one hfd
      have hnone : (PipeMessage.remConnection value).announces = none := rfl
      simp only [announced, unannounced, receive, close, hpipe, PipeMessage.counts,
        List.filterMap_cons_none hnone]
      omega
  | select | noMessage | notReady | skipPipe | clear | push | overflow | scanned =>
    exact absurd rfl hne
  | _ => cases he

end Threads

namespace ServerProcess

variable {configs : FSConfig} {pipeFd : ℤ} {tr tr' : List Action} {s t : ServerProcess n}
  {a : Action}

/-- The steps in which files are opened with documented flags only. -/
def DocumentedStep (s : ServerProcess n) (a : Action) (t : ServerProcess n) : Prop :=
  Step s a t ∧
    (t.threads = s.threads ∨ ∃ e, e.Documented ∧ Threads.Step s.threads e t.threads)

theorem inv_of_run (h : Run DocumentedStep (initializeServer configs pipeFd n) tr s) :
    s.threads.Inv := by
  refine h.invariant (I := fun s => s.threads.Inv) (Threads.inv_initializeServer ..) ?_
  rintro s a t hi ⟨-, hsame | ⟨e, hd, hs⟩⟩
  · exact hsame ▸ hi
  · exact hi.step hd hs

/-- A client has been disconnected because the work queue was full. -/
def Action.isOverflow : Action → Bool
  | overflow _ => true
  | thread _ | signal _ => false

theorem Step.counted (hi : s.threads.Inv) (h : Step s a t) :
    t.gNumClientConnected - t.threads.announced =
      s.gNumClientConnected - s.threads.announced + if a.isOverflow then 1 else 0 := by
  have hkeeps : ∀ {th t'}, WaitingThreads.Step s.waiting th t' → th ≠ .main →
      t'.threads.main = s.threads.main := by
    intro th t' h hth
    rcases h.threads_of with ⟨e, rfl, he⟩ | hsame
    · exact he.main_of_ne hth
    · exact congrArg Threads.main hsame
  cases h with
  | @accept t' _ h =>
    have hann : t'.threads.announced = s.threads.announced := by
      rcases h.threads_of with ⟨e, hth, he⟩ | hsame
      · exact he.announced_main hi hth
      · exact congrArg Threads.announced hsame
    change s.gNumClientConnected - t'.threads.announced = _
    rw [hann]
    exact (add_zero _).symm
  | @run th t' h hth _ _ hselect =>
    have hann : t'.threads.announced = s.threads.announced := by
      by_cases hs : th = .select
      · obtain ⟨hpipe, hopened⟩ := hselect hs
        rw [Threads.announced, Threads.unannounced, hkeeps h hth, hpipe, hopened]
        rfl
      · rcases h.threads_of with ⟨e, rfl, he⟩ | hsame
        · exact he.announced_other hth hs
        · exact congrArg Threads.announced hsame
    change s.gNumClientConnected - t'.threads.announced = _
    rw [hann]
    exact (add_zero _).symm
  | @message m t' h _ hm =>
    have hann : t'.threads.announced = s.threads.announced + m.counts := by
      rcases h.threads_of with ⟨e, hth, he⟩ | hsame
      · exact he.announced_message hi hth hm
      · rw [hsame] at hm
        exact absurd (congrArg List.length hm) (by simp)
    change s.gNumClientConnected + m.counts - t'.threads.announced = _ + 0
    omega
  | @overflow fd t' h _ hfd hpipe hopened =>
    have hcard := Finset.card_erase_add_one hfd
    have hann : t'.threads.announced = s.threads.announced - 1 := by
      rw [Threads.announced, Threads.unannounced, hkeeps h nofun, hpipe, hopened]
      change _ = (s.threads.opened.card - s.threads.unannounced.length : ℤ) - 1
      rw [Threads.unannounced]
      omega
    change s.gNumClientConnected - t'.threads.announced = _ + 1
    omega
  | _ => exact (add_zero _).symm

theorem run_counted (h : Run DocumentedStep (initializeServer configs pipeFd n) tr s) :
    s.gNumClientConnected - s.threads.announced = tr.countP Action.isOverflow := by
  induction h with
  | start => rfl
  | @next tr s a t before last ih =>
    have hstep := last.1.counted (inv_of_run before)
    rw [List.countP_append, List.countP_singleton]
    push_cast
    split_ifs at hstep ⊢ <;> omega

/-- The number of connected clients, as far as the select thread knows them, and of those that it
has disconnected itself, which nobody counts down. -/
theorem numClientConnected_eq (h : Run DocumentedStep (initializeServer configs pipeFd n) tr s) :
    s.gNumClientConnected = s.threads.announced + tr.countP Action.isOverflow := by
  have hcount := run_counted h
  omega

/-- Client 4 has connected, and the select thread has not read so. -/
def withClient : ServerProcess 1 :=
  { initializeServer FileSystem.defaultConfigs 3 1 with
    waiting := { WaitingThreads.initializeServer FileSystem.defaultConfigs 3 1 with
      threads := { Threads.initializeServer FileSystem.defaultConfigs 3 1 with
        opened := {4}
        pipe := [.newConnection 4] } } }

theorem run_withClient : ∃ tr,
    Run DocumentedStep (initializeServer FileSystem.defaultConfigs 3 1) tr withClient := by
  have hdoc : ThreadEvent.Documented ⟨.main, .internal⟩ := trivial
  have haccept : Threads.Step (.initializeServer FileSystem.defaultConfigs 3 1)
      ⟨.main, .internal⟩ _ := @Threads.Step.accept _ 4 rfl (by decide) (by decide) (by decide)
  have hannounce : Threads.Step
      { Threads.initializeServer FileSystem.defaultConfigs 3 1 with
        main := some 4
        opened := {4} } ⟨.main, .internal⟩ withClient.threads := .announce rfl
  have h : Run DocumentedStep (initializeServer FileSystem.defaultConfigs 3 1) _ _ :=
    Run.start.next ⟨.enterLoop rfl (by decide), .inl rfl⟩
  have h := h.next ⟨.accept rfl (@WaitingThreads.Step.run 1
    (.initializeServer FileSystem.defaultConfigs 3 1) _ _ haccept trivial id),
      .inr ⟨_, hdoc, haccept⟩⟩
  have h := h.next ⟨.accept rfl (@WaitingThreads.Step.run 1
    ⟨_, Monitor.start, Monitor.start⟩ _ _ hannounce trivial id), .inr ⟨_, hdoc, hannounce⟩⟩
  exact ⟨_, h⟩

/-- The select thread reads of the client and counts it. -/
theorem numClientConnected_eq_connected : ∃ tr, ∃ s : ServerProcess 1,
    Run DocumentedStep (initializeServer FileSystem.defaultConfigs 3 1) tr s ∧
    s.gNumClientConnected = 1 ∧ s.threads.opened = {4} ∧
    s.gNumClientConnected = s.threads.announced + tr.countP Action.isOverflow := by
  obtain ⟨tr, h⟩ := run_withClient
  have hdoc : ThreadEvent.Documented ⟨.select, .internal⟩ := trivial
  have hselect := @Threads.Step.select withClient.threads {3} rfl (by decide) (by decide)
  have hread : Threads.Step { withClient.threads with select := .selected {3} }
      ⟨.select, .internal⟩ _ := .message rfl (by decide) rfl
  have h := h.next ⟨@Step.test 1 _ .select (.inl ⟨rfl, rfl⟩) rfl rfl (by decide), .inl rfl⟩
  have h := h.next ⟨.run (@WaitingThreads.Step.run 1 ⟨_, Monitor.start, Monitor.start⟩ _ _ hselect
    rfl (by rintro (⟨_, _, _, h⟩ | ⟨_, _, _, h, -⟩) <;> cases h)) nofun rfl (fun _ => rfl)
      fun _ => ⟨rfl, rfl⟩, .inr ⟨_, hdoc, hselect⟩⟩
  have h := h.next ⟨.message (@WaitingThreads.Step.run 1 ⟨_, Monitor.start, Monitor.start⟩ _ _ hread
    rfl (by rintro (⟨_, _, _, h⟩ | ⟨_, _, _, -, -, h⟩) <;> cases h)) rfl rfl,
      .inr ⟨_, hdoc, hread⟩⟩
  exact ⟨_, _, h, rfl, rfl, numClientConnected_eq h⟩

theorem zero_le_announced (h : Run DocumentedStep (initializeServer configs pipeFd n) tr s) :
    0 ≤ s.threads.announced := by
  have hle := (inv_of_run h).length_unannounced_le
  rw [Threads.announced]
  omega

theorem zero_le_numClientConnected
    (h : Run DocumentedStep (initializeServer configs pipeFd n) tr s) :
    0 ≤ s.gNumClientConnected := by
  have hann := zero_le_announced h
  have hcount := run_counted h
  omega

end ServerProcess
end StorageServer.Server
