import StorageServer.Server.Shutdown

/-! What the flags lead to. A worker whom the main thread has notified does not sleep any more when
it has to stop, who is joined has returned, and nobody uses what is freed. -/
namespace StorageServer.Server
open Library Library.Runs

theorem Threads.Step.closing {σ τ : Threads} {e : ThreadEvent} {value : ℤ} (h : Step σ e τ)
    (he : e.thread = .select) (hm : σ.pipe = .remConnection value :: τ.pipe) : σ.Closing := by
  have hne : σ.pipe ≠ τ.pipe := fun h => by
    rw [h] at hm
    exact absurd (congrArg List.length hm) (by simp)
  cases h with
  | message hs hp hpipe =>
    rw [hpipe] at hm
    exact ⟨_, value, _, hs, hp, hpipe.trans hm⟩
  | select | noMessage | notReady | skipPipe | clear | push | overflow | scanned =>
    exact absurd rfl hne
  | _ => cases he

namespace WaitingThreads
variable {n : ℕ} {s s' : WaitingThreads n} {th : ThreadId}

/-- The select thread that closes a connection is going to notify all workers. -/
theorem Step.closes {value : ℤ} (h : Step s .select s')
    (hm : s.threads.pipe = .remConnection value :: s'.threads.pipe) : s'.work.Alarmed () := by
  have hne : s.threads.pipe ≠ s'.threads.pipe := fun h => by
    rw [h] at hm
    exact absurd (congrArg List.length hm) (by simp)
  generalize hth : ThreadId.select = th at h
  cases h with
  | run h _ hother =>
    rw [← hth] at hother
    exact absurd (Or.inr (h.closing hth.symm hm)) hother
  | pushWork h he hpush =>
    obtain ⟨_, _, _, hpush⟩ := hpush
    obtain ⟨_, _, _, hs, -⟩ := h.closing he hm
    rw [hpush] at hs
    cases hs
  | closeConnection => exact .inl (Monitor.producer_setProducer ..)
  | workSync | lockSync => exact absurd rfl hne
  | _ => cases hth

theorem Step.alarmed (hx : s.work.Exclusive) (h : Step s th s') (hs : s.work.Alarmed ()) :
    s'.work.Alarmed () ∨ ∀ c, (s'.work.consumer c).Up := by
  have hbusy : s.work.producer () ≠ .away := by
    intro haway
    simp [Monitor.Alarmed, haway] at hs
  cases h with
  | pushWork _ _ _ hp | closeConnection _ _ _ hp => exact absurd hp hbusy
  | workSync h => exact hx.alarmed_sync h hs
  | run | takeWork | noWork | takeNotification | noNotification | issue | lockSync => exact .inl hs

/-- Only the select thread wakes a worker that sleeps. -/
theorem Step.consumer_eq {c : Fin n} (h : Step s th s') (hother : th ≠ .worker c) :
    s'.work.consumer c = s.work.consumer c ∨ th = .select ∧ s.work.consumer c = .blocked := by
  cases h with
  | takeWork | noWork => exact .inl (Monitor.consumer_of_ne fun h => hother (h ▸ rfl))
  | @workSync t _ h =>
    have hne : t ≠ .inl c := by
      rintro rfl
      exact hother rfl
    refine (h.consumer_eq hne).imp id fun ⟨hright, hb⟩ => ⟨?_, hb⟩
    cases t with
    | inl => cases hright
    | inr => rfl
  | run | pushWork | closeConnection | takeNotification | noNotification | issue | lockSync =>
    exact .inl rfl

theorem Step.producer_eq (h : Step s th s') (hother : th ≠ .select) :
    s'.work.producer () = s.work.producer () := by
  cases h with
  | pushWork | closeConnection => exact absurd rfl hother
  | @workSync t _ h =>
    refine h.producer_eq ?_
    rintro rfl
    exact hother rfl
  | run | takeWork | noWork | takeNotification | noNotification | issue | lockSync => rfl

theorem Step.length_workers (h : Step s th s') :
    s'.threads.workers.length = s.threads.workers.length := by
  rcases h.threads with ⟨e, he⟩ | hsame
  · exact he.length_workers
  · rw [hsame]

/-- There are only the workers that have been spawned. -/
theorem Step.worker_lt {id : ℕ} (h : Step s (.worker id) s')
    (hn : s.threads.workers.length = n) : id < n := by
  generalize hth : ThreadId.worker id = th at h
  cases h with
  | run h =>
    have hlt : id < s.threads.workers.length := by
      cases h with
      | take hw | request hw | endOfFile hw | readError hw | sessionCall hw | fsCall hw | notify hw
      | respond hw | forget hw | giveBack hw | remove hw =>
        cases hth
        rw [hw, List.length_append, List.length_cons]
        omega
      | _ => cases hth
    exact hn ▸ hlt
  | takeWork | noWork | issue =>
    cases hth
    exact Fin.is_lt _
  | @workSync t =>
    cases t with
    | inl c =>
      cases hth
      exact c.is_lt
    | inr => cases hth
  | @lockSync t =>
    cases t with
    | inl => cases hth
    | inr c =>
      cases hth
      exact c.is_lt
  | _ => cases hth

end WaitingThreads

namespace MainPoint

/-- The workers have been joined. -/
def PastWorkers : MainPoint → Prop
  | testing | accepting | notifyingWorkers | joiningWorkers => False
  | stopping | notifyingLock | joiningLock | requestingExit | joiningSelect | freeing
  | freed => True

def PastLock : MainPoint → Prop
  | testing | accepting | notifyingWorkers | joiningWorkers | stopping | notifyingLock
  | joiningLock => False
  | requestingExit | joiningSelect | freeing | freed => True

def PastSelect : MainPoint → Prop
  | testing | accepting | notifyingWorkers | joiningWorkers | stopping | notifyingLock
  | joiningLock | requestingExit | joiningSelect => False
  | freeing | freed => True

/-- The main thread has left the loop in which it accepts clients. -/
def Leaving : MainPoint → Prop
  | testing | accepting => False
  | notifyingWorkers | joiningWorkers | stopping | notifyingLock | joiningLock | requestingExit
  | joiningSelect | freeing | freed => True

/-- The lock thread has been told to stop. -/
def Stopped : MainPoint → Prop
  | testing | accepting | notifyingWorkers | joiningWorkers | stopping => False
  | notifyingLock | joiningLock | requestingExit | joiningSelect | freeing | freed => True

theorem Notified.leaving {m : MainPoint} (h : m.Notified) : m.Leaving := by
  cases m with
  | testing | accepting | notifyingWorkers => exact h.elim
  | _ => trivial

theorem LockNotified.stopped {m : MainPoint} (h : m.LockNotified) : m.Stopped := by
  cases m with
  | joiningLock | requestingExit | joiningSelect | freeing | freed => trivial
  | _ => exact h.elim

theorem PastSelect.earlier {m : MainPoint} (h : m.PastSelect) : m.PastLock ∧ m.PastWorkers := by
  cases m with
  | freeing | freed => exact ⟨trivial, trivial⟩
  | _ => exact h.elim

end MainPoint

namespace ServerProcess
variable {n : ℕ} {configs : FSConfig} {pipeFd : ℤ} {tr tr' : List Action} {s t : ServerProcess n}
  {a : Action} {c : Fin n}

theorem Step.exclusive (hx : s.waiting.work.Exclusive) (h : Step s a t) :
    t.waiting.work.Exclusive := by
  cases h with
  | accept _ h | run h | message h | overflow h => exact h.exclusive hx
  | notifyWorkers => exact hx.rouse
  | giveUp hc => exact hx.setConsumer fun _ => .inl (hc ▸ trivial)
  | _ => exact hx

theorem not_sleeps_of_up (h : (s.waiting.work.consumer c).Up) : ¬ s.Sleeps (.worker c) := by
  rintro (hb | (hw : s.waiting.work.consumer c = .waiting) |
    ⟨(hc : s.waiting.work.consumer c = .checking), -⟩)
  · exact h.1 hb
  · exact h.2 (hw ▸ trivial)
  · exact h.2 (hc ▸ trivial)

theorem Step.alarmed (hx : s.waiting.work.Exclusive) (h : Step s a t)
    (hs : s.waiting.work.Alarmed ()) :
    t.waiting.work.Alarmed () ∨ ∀ c, ¬ t.Sleeps (.worker c) := by
  cases h with
  | accept _ h | run h | message h | overflow h =>
    exact (h.alarmed hx hs).imp id fun hup c => not_sleeps_of_up (hup c)
  | _ => exact .inl hs

/-! ### Nobody is left asleep -/

/-- The main thread stops, and makes the lock thread stop, for a reason. -/
structure Told (s : ServerProcess n) : Prop where
  leaving : s.main.Leaving → s.Stops .main
  stopped : s.main.Stopped → s.gShouldStopWorking

theorem Step.stops_main (h : Step s a t) (hs : s.Stops .main) : t.Stops .main := by
  obtain ⟨hint, hquit, hhup, -⟩ := h.flags
  exact hs.imp hint fun hs => hs.imp hquit hhup

theorem Told.step (hs : s.Told) (h : Step s a t) : t.Told where
  leaving hm := by
    by_cases hleft : s.main.Leaving
    · exact h.stops_main (hs.leaving hleft)
    · cases h with
      | leaveLoop _ hstop => exact hstop
      | enterLoop => exact hm.elim
      | accept hacc =>
        dsimp only at hm
        split_ifs at hm <;> exact hm.elim
      | interrupted => exact hm.elim
      | notifyWorkers hat | joinWorkers hat | stop hat | notifyLock hat | joinLock hat
      | requestExit hat | joinSelect hat | free hat => exact absurd (hat ▸ trivial) hleft
      | _ => exact absurd hm hleft
  stopped hm := by
    by_cases hstop : s.main.Stopped
    · exact h.flags.2.2.2 (hs.stopped hstop)
    · cases h with
      | stop => rfl
      | enterLoop | interrupted | leaveLoop | notifyWorkers | joinWorkers => exact hm.elim
      | accept hacc =>
        dsimp only at hm
        split_ifs at hm <;> exact hm.elim
      | notifyLock hat | joinLock hat | requestExit hat | joinSelect hat | free hat =>
        exact absurd (hat ▸ trivial) hstop
      | _ => exact absurd hm hstop

/-- At the notification nobody is on the way to sleep, because the main thread has the mutex. -/
theorem Step.notified (h : Step s a t) (hm : t.main.Notified) :
    s.main.Notified ∨ ∀ c, ¬ t.Sleeps (.worker c) := by
  cases h with
  | notifyWorkers _ hfree => exact .inr fun c => not_sleeps_of_up (hfree.up_rouse c)
  | enterLoop | interrupted | leaveLoop => exact hm.elim
  | accept =>
    dsimp only at hm
    split_ifs at hm <;> exact hm.elim
  | joinWorkers hat | stop hat | notifyLock hat | joinLock hat | requestExit hat | joinSelect hat
  | free hat => exact .inl (hat ▸ trivial)
  | _ => exact .inl hm

theorem Step.lockNotified (h : Step s a t) (hm : t.main.LockNotified) :
    s.main.LockNotified ∨ ¬ t.Sleeps .lock := by
  cases h with
  | notifyLock _ hfree =>
    obtain ⟨hb, hholds⟩ := hfree.up_rouse ()
    refine .inr ?_
    rintro (hb' | (hw : s.waiting.lock.rouse.consumer () = .waiting) |
      ⟨(hc : s.waiting.lock.rouse.consumer () = .checking), -⟩)
    · exact hb hb'
    · exact hholds (hw ▸ trivial)
    · exact hholds (hc ▸ trivial)
  | enterLoop | interrupted | leaveLoop | notifyWorkers | joinWorkers | stop => exact hm.elim
  | accept =>
    dsimp only at hm
    split_ifs at hm <;> exact hm.elim
  | joinLock hat | requestExit hat | joinSelect hat | free hat => exact .inl (hat ▸ trivial)
  | _ => exact .inl hm

/-- The last client leaves with a notification of all workers. -/
theorem Step.alarmed_of_last (h : Step s a t) (hle : 0 ≤ s.gNumClientConnected)
    (hne : s.gNumClientConnected ≠ 0) (h0 : t.gNumClientConnected = 0) :
    t.waiting.work.Alarmed () := by
  cases h with
  | @message m t h _ hm =>
    change s.gNumClientConnected + m.counts = 0 at h0
    cases m with
    | newConnection =>
      change s.gNumClientConnected + 1 = 0 at h0
      omega
    | remConnection => exact h.closes hm
    | setConnection => exact absurd ((add_zero _).symm.trans h0) hne
  | _ => exact absurd h0 hne

/-- Without clients a worker sleeps at most until a notification arrives. -/
def Settled (s : ServerProcess n) : Prop :=
  s.main.Notified → s.gNumClientConnected = 0 → ∀ c, s.Sleeps (.worker c) →
    s.waiting.work.Alarmed ()

theorem Settled.step (hs : s.Settled) (hx : s.waiting.work.Exclusive) (htold : s.Told)
    (hle : 0 ≤ s.gNumClientConnected) (h : Step s a t) : t.Settled := by
  intro hm h0 c hsleeps
  by_cases hnum : s.gNumClientConnected = 0
  · have hm := (h.notified hm).resolve_right fun hnone => hnone c hsleeps
    rcases h.sleeps hsleeps with hslept | hgo
    · exact (h.alarmed hx (hs hm hnum c hslept)).resolve_right fun hnone => hnone c hsleeps
    · rcases htold.leaving hm.leaving with hint | hquit | hhup
      · exact absurd (.inl hint) hgo
      · exact absurd (.inr (.inl hquit)) hgo
      · exact absurd (.inr (.inr ⟨hhup, hnum⟩)) hgo
  · exact h.alarmed_of_last hle hnum h0

theorem run_exclusive (h : Run Step (initializeServer configs pipeFd n) tr s) :
    s.waiting.work.Exclusive :=
  h.invariant (I := fun s => s.waiting.work.Exclusive) Monitor.exclusive_start
    fun hx hs => hs.exclusive hx

theorem run_told (h : Run Step (initializeServer configs pipeFd n) tr s) : s.Told :=
  h.invariant (I := Told) ⟨False.elim, False.elim⟩ fun ht hs => ht.step hs

theorem run_of_documented {s₀ : ServerProcess n} (h : Run DocumentedStep s₀ tr s) :
    Run Step s₀ tr s := h.mono And.left

theorem run_settled (h : Run DocumentedStep (initializeServer configs pipeFd n) tr s) :
    s.Settled := by
  induction h with
  | start => exact False.elim
  | next before last ih =>
    have hrun := run_of_documented before
    exact ih.step (run_exclusive hrun) (run_told hrun) (zero_le_numClientConnected before) last.1

theorem run_flags (h : Run Step s tr t) :
    (s.gSigIntReceived → t.gSigIntReceived) ∧ (s.gSigQuitReceived → t.gSigQuitReceived) :=
  h.invariant (I := fun t => (s.gSigIntReceived → t.gSigIntReceived) ∧
    (s.gSigQuitReceived → t.gSigQuitReceived)) ⟨id, id⟩ fun ⟨hint, hquit⟩ hs =>
    ⟨fun h => hs.flags.1 (hint h), fun h => hs.flags.2.1 (hquit h)⟩

/-- A worker that sleeps after the notification has seen neither of the two signals that stop it at
once. -/
theorem run_sleeps (hm : ¬ s.main.Notified) (h : Run Step s tr t) (hm' : t.main.Notified)
    (hs : t.Sleeps (.worker c)) : ¬ (s.gSigIntReceived ∨ s.gSigQuitReceived) := by
  induction h with
  | start => exact absurd hm' hm
  | @next tr u a t before last ih =>
    have hm : u.main.Notified := (last.notified hm').resolve_right fun hnone => hnone c hs
    rcases last.sleeps hs with hslept | hgo
    · exact ih hm hslept
    · obtain ⟨hint, hquit⟩ := run_flags before
      rintro (h | h)
      · exact hgo (.inl (hint h))
      · exact hgo (.inr (.inl (hquit h)))

theorem run_lock (h : Run Step (initializeServer configs pipeFd n) tr s)
    (hm : s.main.LockNotified) : ¬ s.Sleeps .lock := by
  induction h with
  | start => exact hm.elim
  | @next tr u a t before last ih =>
    intro hs
    have hm : u.main.LockNotified := (last.lockNotified hm).resolve_right fun hnone => hnone hs
    rcases last.sleeps hs with hslept | hgo
    · exact ih hm hslept
    · exact hgo (.inr (.inr ((run_told before).stopped hm.stopped)))

/-- The notification is not lost. Once it is made, no worker sleeps if `SIGINT` or `SIGQUIT` had
arrived before it; after `SIGHUP` a worker sleeps as long as there are clients, and when the last
one leaves it is notified again. The lock thread does not sleep once it is notified. -/
theorem nobody_left_asleep (h : Run DocumentedStep (initializeServer configs pipeFd n) tr s)
    (hm : ¬ s.main.Notified) (h' : Run DocumentedStep s tr' t) :
    (t.main.Notified → ∀ c, t.Sleeps (.worker c) →
      ¬ (s.gSigIntReceived ∨ s.gSigQuitReceived) ∧
        (t.gNumClientConnected = 0 → t.waiting.work.Alarmed ())) ∧
    (t.main.LockNotified → ¬ t.Sleeps .lock) := by
  have hrun := h.trans h'
  refine ⟨fun hm' c hs => ⟨run_sleeps hm (run_of_documented h') hm' hs, fun h0 => ?_⟩,
    run_lock (run_of_documented hrun)⟩
  exact run_settled hrun hm' h0 c hs

/-- A worker that finds nothing to do goes to sleep. -/
theorem run_wait (hc : s.waiting.work.consumer c = .checking)
    (halive : s.exited (.worker c) = false) (htested : s.tested = fun _ => false)
    (hgo : ¬ s.Stops (.worker c)) (hq : s.threads.gWorkQueue.tryPop = none) :
    ∃ tr, Run DocumentedStep s tr
      { s with waiting := { s.waiting with work := s.waiting.work.setConsumer c .blocked } } := by
  have htest : Run DocumentedStep s _ _ := Run.start.next
    ⟨@Step.test n s (.worker c) (.inr ⟨c, rfl, hc⟩) halive (by rw [htested]) hgo, .inl rfl⟩
  have hempty := htest.next
    ⟨.run (.noWork hc hq) nofun halive (fun _ => Function.update_self ..) nofun, .inl rfl⟩
  have hw := Monitor.consumer_setConsumer s.waiting.work c .waiting
  have hwait := hempty.next
    ⟨.run (.workSync (t := .inl c) (.wait hw) fun c' hc' haway => by
        obtain rfl := Sum.inl.inj hc'
        exact nomatch hw.symm.trans haway) nofun halive (by
        rintro (⟨-, c', hc', haway, -⟩ | ⟨c', hc', hchecking⟩) <;> obtain rfl := Fin.ext hc'
        · exact nomatch hw.symm.trans haway
        · exact nomatch hw.symm.trans hchecking) nofun, .inl rfl⟩
  dsimp only [Sum.elim_inl] at hwait
  rw [Monitor.setConsumer_setConsumer, Function.update_idem, Function.update_idem, htested,
    Function.update_eq_self (ThreadId.worker c) fun _ => false] at hwait
  rw [htested]
  exact ⟨_, hwait⟩

/-- A server with one worker, which stands at a point of its loop. -/
def loneWorker (x : Consumer) : ServerProcess 1 :=
  { initializeServer ⟨1048576, 32, 16⟩ 3 1 with
    waiting :=
      { WaitingThreads.initializeServer ⟨1048576, 32, 16⟩ 3 1 with
        work := Monitor.start.setConsumer 0 x } }

theorem run_loneWorker :
    ∃ tr, Run DocumentedStep (initializeServer ⟨1048576, 32, 16⟩ 3 1) tr (loneWorker .blocked) := by
  have htest : Run DocumentedStep (initializeServer ⟨1048576, 32, 16⟩ 3 1) _ _ := Run.start.next
    ⟨@Step.test 1 _ (.worker (0 : Fin 1)) (.inl ⟨rfl, (0 : Fin 1), rfl, rfl, rfl⟩) rfl rfl
      (by decide), .inl rfl⟩
  have henter := htest.next
    ⟨.run (.workSync (t := .inl 0) (.enter rfl Monitor.free_start) fun c hc _ => by
      cases hc
      exact ⟨rfl, rfl⟩) nofun rfl (fun _ => rfl) nofun, .inl rfl⟩
  have htested : Function.update (Function.update (fun _ => false) (ThreadId.worker (0 : Fin 1))
      true) (ThreadId.worker (0 : Fin 1)) false = fun _ => false :=
    (Function.update_idem ..).trans (Function.update_eq_self ..)
  dsimp only [Sum.elim_inl, initializeServer] at henter
  rw [htested] at henter
  obtain ⟨tr, hwait⟩ := run_wait (s := loneWorker .checking) (Monitor.consumer_setConsumer ..) rfl
    rfl (by decide) (CircQueue.tryPop_eq_none.mpr rfl)
  have hblocked : (loneWorker .checking).waiting.work.setConsumer 0 .blocked =
      Monitor.start.setConsumer 0 .blocked := Monitor.setConsumer_setConsumer ..
  rw [hblocked] at hwait
  exact ⟨_, henter.trans hwait⟩

/-- `SIGINT` finds the worker asleep. -/
theorem nobody_left_asleep_sigInt : ∃ tr, ∃ s : ServerProcess 1, ∃ tr' t,
    Run DocumentedStep (initializeServer ⟨1048576, 32, 16⟩ 3 1) tr s ∧ s.Sleeps (.worker 0) ∧
    s.gSigIntReceived = true ∧ Run DocumentedStep s tr' t ∧ t.main.Notified ∧
    ((t.main.Notified → ∀ c, t.Sleeps (.worker c) →
      ¬ (s.gSigIntReceived ∨ s.gSigQuitReceived) ∧
        (t.gNumClientConnected = 0 → t.waiting.work.Alarmed ())) ∧
    (t.main.LockNotified → ¬ t.Sleeps .lock)) := by
  obtain ⟨tr, hasleep⟩ := run_loneWorker
  have hsignal := hasleep.next ⟨.signal .sigInt, .inl rfl⟩
  have hfree : (Monitor.start.setConsumer 0 .blocked : Monitor (Fin 1) Unit).Free := by
    refine ⟨fun c => ?_, fun _ => id⟩
    rw [Subsingleton.elim c 0, Monitor.consumer_setConsumer]
    exact id
  have hnotified : Run DocumentedStep ((loneWorker .blocked).signalHandlerCallback .sigInt) _ _ :=
    (Run.start.next ⟨.leaveLoop rfl (.inl rfl), .inl rfl⟩).next ⟨.notifyWorkers rfl hfree, .inl rfl⟩
  exact ⟨_, _, _, _, hsignal, .inl (Monitor.consumer_setConsumer ..), rfl, hnotified, trivial,
    nobody_left_asleep hsignal id hnotified⟩

/-! ### Who is joined -/

/-- The threads that have been joined have returned. -/
structure Joined (s : ServerProcess n) : Prop where
  workers : s.main.PastWorkers → ∀ c : Fin n, s.exited (.worker c) = true
  lock : s.main.PastLock → s.exited .lock = true
  select : s.main.PastSelect → s.exited .select = true

theorem Step.exited {th : ThreadId} (h : Step s a t) (hs : s.exited th = true) :
    t.exited th = true := by
  cases h with
  | exit | exitRequested =>
    change Function.update s.exited _ true th = true
    rw [Function.update_apply, hs, ite_self]
  | _ => exact hs

theorem Joined.keep (hj : s.Joined) (hm : t.main = s.main)
    (hexited : ∀ th, s.exited th = true → t.exited th = true) : t.Joined where
  workers h c := hexited _ (hj.workers (hm ▸ h) c)
  lock h := hexited _ (hj.lock (hm ▸ h))
  select h := hexited _ (hj.select (hm ▸ h))

theorem Joined.step (hj : s.Joined) (h : Step s a t) : t.Joined := by
  have hexited : ∀ th, s.exited th = true → t.exited th = true := fun _ => h.exited
  cases h with
  | enterLoop | interrupted | leaveLoop | notifyWorkers =>
    exact ⟨False.elim, False.elim, False.elim⟩
  | @accept t =>
    have hearly : ∀ m : MainPoint, m = .testing ∨ m = .accepting →
        ¬ m.PastWorkers ∧ ¬ m.PastLock ∧ ¬ m.PastSelect := by
      rintro m (rfl | rfl) <;> exact ⟨id, id, id⟩
    obtain ⟨hw, hl, hs⟩ := hearly (if t.threads.main = none then .testing else .accepting)
      (by split_ifs <;> simp)
    exact ⟨fun h => absurd h hw, fun h => absurd h hl, fun h => absurd h hs⟩
  | joinWorkers _ hw => exact ⟨fun _ => hw, False.elim, False.elim⟩
  | stop hm | notifyLock hm =>
    exact ⟨fun _ => hj.workers (hm ▸ trivial), False.elim, False.elim⟩
  | joinLock hm hl => exact ⟨fun _ => hj.workers (hm ▸ trivial), fun _ => hl, False.elim⟩
  | requestExit hm =>
    exact ⟨fun _ => hj.workers (hm ▸ trivial), fun _ => hj.lock (hm ▸ trivial), False.elim⟩
  | joinSelect hm hs =>
    exact ⟨fun _ => hj.workers (hm ▸ trivial), fun _ => hj.lock (hm ▸ trivial), fun _ => hs⟩
  | free hm =>
    exact ⟨fun _ => hj.workers (hm ▸ trivial), fun _ => hj.lock (hm ▸ trivial),
      fun _ => hj.select (hm ▸ trivial)⟩
  | _ => exact hj.keep rfl hexited

theorem run_joined (h : Run Step (initializeServer configs pipeFd n) tr s) : s.Joined :=
  h.invariant (I := Joined) ⟨False.elim, False.elim, False.elim⟩ fun hj hs => hj.step hs

theorem Step.length_workers (h : Step s a t) :
    t.threads.workers.length = s.threads.workers.length := by
  rcases h.threads with ⟨e, he⟩ | hsame
  · exact he.length_workers
  · rw [hsame]

theorem run_length_workers (h : Run Step (initializeServer configs pipeFd n) tr s) :
    s.threads.workers.length = n :=
  h.invariant (I := fun s => s.threads.workers.length = n) List.length_replicate
    fun hn hs => hs.length_workers.trans hn

/-- When every other thread has been joined only the main thread and signals are left. -/
theorem Step.frozen (hj : s.Joined) (hn : s.threads.workers.length = n)
    (hm : s.main.PastSelect) (h : Step s a t) :
    t.waiting = s.waiting ∧ t.main.PastSelect := by
  have hlock : s.main.PastLock ∧ s.main.PastWorkers := hm.earlier
  have hselect := hj.select hm
  cases h with
  | @run th t h hth halive =>
    have hexited : s.exited th = true := by
      cases th with
      | main => exact absurd rfl hth
      | select => exact hselect
      | lock => exact hj.lock hlock.1
      | worker id => exact hj.workers hlock.2 ⟨id, h.worker_lt hn⟩
    rw [hexited] at halive
    cases halive
  | message _ halive | overflow _ halive =>
    rw [hselect] at halive
    cases halive
  | giveUp _ halive =>
    rw [hj.workers hlock.2] at halive
    cases halive
  | giveUpLock _ halive =>
    rw [hj.lock hlock.1] at halive
    cases halive
  | enterLoop hat | accept hat | interrupted hat | leaveLoop hat | notifyWorkers hat
  | joinWorkers hat | stop hat | notifyLock hat | joinLock hat | requestExit hat | joinSelect hat =>
    rw [hat] at hm
    exact hm.elim
  | free => exact ⟨rfl, trivial⟩
  | _ => exact ⟨rfl, hm⟩

/-- When the main thread frees the queues, the sessions and the files every other thread has
returned, and nothing is done to them any more. -/
theorem nothing_after_free (h : Run Step (initializeServer configs pipeFd n) tr s)
    (hm : s.main.PastSelect) (h' : Run Step s tr' t) :
    t.waiting = s.waiting ∧ (∀ c : Fin n, t.exited (.worker c) = true) ∧ t.exited .lock = true ∧
      t.exited .select = true := by
  have hfrozen : t.waiting = s.waiting ∧ t.main.PastSelect := by
    induction h' with
    | start => exact ⟨rfl, hm⟩
    | next before last ih =>
      have hrun := h.trans before
      obtain ⟨hsame, hpast⟩ := last.frozen (run_joined hrun) (run_length_workers hrun) ih.2
      exact ⟨hsame.trans ih.1, hpast⟩
  have hj := run_joined (h.trans h')
  have hlock : t.main.PastLock ∧ t.main.PastWorkers := hfrozen.2.earlier
  exact ⟨hfrozen.1, hj.workers hlock.2, hj.lock hlock.1, hj.select hfrozen.2⟩

/-- The server is interrupted at once. -/
theorem nothing_after_free_sigInt : ∃ tr, ∃ s : ServerProcess 1, ∃ tr' t,
    Run Step (initializeServer ⟨1048576, 32, 16⟩ 3 1) tr s ∧ s.main = .freeing ∧
    Run Step s tr' t ∧ t.main = .freed ∧ t.waiting = s.waiting ∧
    (∀ c : Fin 1, t.exited (.worker c) = true) ∧ t.exited .lock = true ∧
    t.exited .select = true := by
  have hsignal : Run Step (initializeServer ⟨1048576, 32, 16⟩ 3 1) _ _ :=
    Run.start.next (.signal .sigInt)
  have hnotified := (hsignal.next (.leaveLoop rfl (.inl rfl))).next
    (.notifyWorkers rfl Monitor.free_start)
  have hworker := hnotified.next
    (@Step.exit 1 _ (.worker 0) ⟨rfl, (0 : Fin 1), rfl, rfl, rfl⟩ rfl rfl (.inl rfl))
  have hjoined := hworker.next (.joinWorkers rfl fun c => by rw [Subsingleton.elim c 0]; rfl)
  have hlock := ((hjoined.next (.stop rfl)).next (.notifyLock rfl Monitor.free_start)).next
    (@Step.exit 1 _ .lock ⟨rfl, rfl⟩ rfl rfl (.inl rfl))
  have hselect := ((hlock.next (.joinLock rfl rfl)).next (.requestExit rfl)).next
    (@Step.exit 1 _ .select ⟨rfl, rfl⟩ rfl rfl (.inl rfl))
  have hfreeing := hselect.next (.joinSelect rfl rfl)
  exact ⟨_, _, _, _, hfreeing, rfl, Run.start.next (.free rfl), rfl,
    nothing_after_free hfreeing trivial (Run.start.next (.free rfl))⟩

theorem Step.stops_of_exited (h : Step s a t) (hs : s.exited (.worker c) = false)
    (ht : t.exited (.worker c) = true) : s.Stops (.worker c) := by
  cases h with
  | @exit th _ _ _ hstop =>
    rcases eq_or_ne (ThreadId.worker c) th with rfl | hne
    · exact hstop
    · change Function.update s.exited th true _ = true at ht
      rw [Function.update_of_ne hne, hs] at ht
      cases ht
  | exitRequested =>
    have hne : ThreadId.worker c ≠ .select := nofun
    change Function.update s.exited .select true (.worker c) = true at ht
    rw [Function.update_of_ne hne] at ht
    exact absurd (hs.symm.trans ht) Bool.false_ne_true
  | _ => exact absurd (hs.symm.trans ht) Bool.false_ne_true

/-- With `SIGHUP` alone a worker returns only if no client has ever been disconnected for want of
room in the work queue, and at a moment at which every connected client is unannounced. A client
that has been disconnected so is never counted down, and the server does not end. -/
theorem exited_of_sigHup (h : Run DocumentedStep (initializeServer configs pipeFd n) tr s)
    (hint : s.gSigIntReceived = false) (hquit : s.gSigQuitReceived = false)
    (hexited : s.exited (.worker c) = true) :
    ∃ tr₁ tr₂ u, tr = tr₁ ++ tr₂ ∧
      Run DocumentedStep (initializeServer configs pipeFd n) tr₁ u ∧ Run DocumentedStep u tr₂ s ∧
      u.gSigHupReceived = true ∧ (∀ a ∈ tr₁, a.isOverflow = false) ∧
      u.threads.opened.card = u.threads.unannounced.length := by
  induction h with
  | start => cases hexited
  | @next tr u a t before last ih =>
    obtain ⟨hints, hquits, -⟩ := last.1.flags
    have hint' : u.gSigIntReceived = false := by
      by_contra h
      rw [hints (Bool.not_eq_false _ ▸ h)] at hint
      cases hint
    have hquit' : u.gSigQuitReceived = false := by
      by_contra h
      rw [hquits (Bool.not_eq_false _ ▸ h)] at hquit
      cases hquit
    cases hu : u.exited (.worker c) with
    | true =>
      obtain ⟨tr₁, tr₂, v, rfl, h₁, h₂, hv⟩ := ih hint' hquit' hu
      exact ⟨tr₁, tr₂ ++ [a], v, List.append_assoc .., h₁, h₂.next last, hv⟩
    | false =>
      rcases last.1.stops_of_exited hu hexited with h | h | ⟨hhup, h0⟩
      · rw [hint'] at h
        cases h
      · rw [hquit'] at h
        cases h
      · have hle := zero_le_announced before
        have hnum := run_counted before
        have hann : u.threads.announced = 0 := by omega
        have hcount : tr.countP Action.isOverflow = 0 := by omega
        refine ⟨tr, [a], u, rfl, before, Run.start.next last, hhup, fun a ha => ?_, ?_⟩
        · exact Bool.eq_false_iff.mpr (List.countP_eq_zero.mp hcount a ha)
        · rw [Threads.announced] at hann
          omega

/-- A client has connected when `SIGHUP` comes, but the select thread has not read so. -/
theorem exited_of_sigHup_client : ∃ tr, ∃ s : ServerProcess 1,
    Run DocumentedStep (initializeServer FileSystem.defaultConfigs 3 1) tr s ∧
    s.exited (.worker 0) = true ∧ s.threads.opened = {4} ∧ ∃ tr₁ tr₂ u, tr = tr₁ ++ tr₂ ∧
      Run DocumentedStep (initializeServer FileSystem.defaultConfigs 3 1) tr₁ u ∧
      Run DocumentedStep u tr₂ s ∧ u.gSigHupReceived = true ∧
      (∀ a ∈ tr₁, a.isOverflow = false) ∧
      u.threads.opened.card = u.threads.unannounced.length := by
  obtain ⟨tr, h⟩ := run_withClient
  have hsignal := h.next ⟨.signal .sigHup, .inl rfl⟩
  have hrun := hsignal.next
    ⟨@Step.exit 1 _ (.worker 0) ⟨rfl, (0 : Fin 1), rfl, rfl, rfl⟩ rfl rfl (.inr (.inr ⟨rfl, rfl⟩)),
      .inl rfl⟩
  exact ⟨_, _, hrun, rfl, rfl, exited_of_sigHup (c := 0) hrun rfl rfl rfl⟩

/-! ### A second signal -/

/-- Who has returned stands at no mutex. -/
structure Gone (s : ServerProcess n) : Prop where
  select : s.exited .select = true → s.waiting.work.producer () = .away
  worker : ∀ c : Fin n, s.exited (.worker c) = true → s.waiting.work.consumer c = .away

theorem Gone.waiting_step {u : WaitingThreads n} {th : ThreadId} (hs : s.Gone)
    (h : WaitingThreads.Step s.waiting th u) (halive : th = .main ∨ s.exited th = false) :
    (s.exited .select = true → u.work.producer () = .away) ∧
      ∀ c : Fin n, s.exited (.worker c) = true → u.work.consumer c = .away := by
  have hne : ∀ {th'}, th' ≠ .main → s.exited th' = true → th ≠ th' := by
    rintro th' hmain hexited rfl
    exact Bool.false_ne_true ((halive.resolve_left hmain).symm.trans hexited)
  refine ⟨fun hexited => (h.producer_eq (hne nofun hexited)).trans (hs.select hexited),
    fun c hexited => ?_⟩
  have haway := hs.worker c hexited
  rcases h.consumer_eq (hne nofun hexited) with hsame | ⟨-, hb⟩
  · exact hsame.trans haway
  · rw [haway] at hb
    cases hb

theorem Gone.step (hs : s.Gone) (h : Step s a t) : t.Gone := by
  cases h with
  | accept _ h =>
    obtain ⟨hselect, hworker⟩ := hs.waiting_step h (.inl rfl)
    exact ⟨hselect, hworker⟩
  | run h _ halive | message h halive | overflow h halive =>
    obtain ⟨hselect, hworker⟩ := hs.waiting_step h (.inr halive)
    exact ⟨hselect, hworker⟩
  | notifyWorkers =>
    refine ⟨hs.select, fun c hexited => ?_⟩
    change (s.waiting.work.consumer c).roused = .away
    rw [hs.worker c hexited]
    rfl
  | @exit th hat =>
    refine ⟨fun hexited => ?_, fun c hexited => ?_⟩
    · rcases eq_or_ne .select th with rfl | hne
      · exact hat.2
      · exact hs.select ((Function.update_of_ne hne ..).symm.trans hexited)
    · rcases eq_or_ne (ThreadId.worker c) th with rfl | hne
      · obtain ⟨-, c', hc, haway, -⟩ := hat
        rwa [Fin.ext hc] at haway
      · exact hs.worker c ((Function.update_of_ne hne ..).symm.trans hexited)
  | exitRequested _ _ _ haway =>
    have hne : ∀ {c : Fin n}, ThreadId.worker c ≠ .select := nofun
    exact ⟨fun _ => haway, fun c hexited =>
      hs.worker c ((Function.update_of_ne hne true s.exited).symm.trans hexited)⟩
  | @giveUp c' hc =>
    refine ⟨hs.select, fun c hexited => ?_⟩
    have hne : c ≠ c' := by
      rintro rfl
      exact nomatch hc.symm.trans (hs.worker c hexited)
    exact (Monitor.consumer_of_ne hne).trans (hs.worker c hexited)
  | _ => exact ⟨hs.select, hs.worker⟩

theorem run_gone (h : Run Step (initializeServer configs pipeFd n) tr s) : s.Gone :=
  h.invariant (I := Gone) ⟨nofun, fun _ => nofun⟩ fun hg hs => hg.step hs

/-- The main thread waits for a worker whom nobody notifies any more. -/
structure Hung (s : ServerProcess n) (c : Fin n) : Prop where
  main : s.main = .joiningWorkers
  select : s.exited .select = true
  away : s.waiting.work.producer () = .away
  blocked : s.waiting.work.consumer c = .blocked
  alive : s.exited (.worker c) = false

theorem Hung.step (hs : s.Hung c) (h : Step s a t) (hother : a ≠ .thread (.worker c)) :
    t.Hung c := by
  have hselect : ∀ {th}, s.exited th = false → th ≠ .select := by
    rintro th halive rfl
    exact Bool.false_ne_true (halive.symm.trans hs.select)
  cases h with
  | signal | test | giveUpLock => exact ⟨hs.main, hs.select, hs.away, hs.blocked, hs.alive⟩
  | enterLoop hm | accept hm | interrupted hm | leaveLoop hm | notifyWorkers hm | stop hm
  | notifyLock hm | joinLock hm | requestExit hm | joinSelect hm | free hm =>
    exact nomatch hm.symm.trans hs.main
  | joinWorkers _ hw => exact absurd (hs.alive.symm.trans (hw c)) Bool.false_ne_true
  | @exit th =>
    have hne : ThreadId.worker c ≠ th := fun h => hother (h ▸ rfl)
    refine ⟨hs.main, ?_, hs.away, hs.blocked, (Function.update_of_ne hne ..).trans hs.alive⟩
    change Function.update s.exited th true .select = true
    rw [Function.update_apply, hs.select, ite_self]
  | @giveUp c' =>
    have hne : c ≠ c' := fun h => hother (h ▸ rfl)
    exact ⟨hs.main, hs.select, hs.away, (Monitor.consumer_of_ne hne).trans hs.blocked, hs.alive⟩
  | @run th t h _ halive =>
    have hsame := h.consumer_eq (c := c) fun h => hother (h ▸ rfl)
    exact ⟨hs.main, hs.select, (h.producer_eq (hselect halive)).trans hs.away,
      (hsame.resolve_right fun h => hselect halive h.1).trans hs.blocked, hs.alive⟩
  | message _ halive | overflow _ halive | exitRequested _ _ _ _ halive =>
    exact absurd rfl (hselect halive)

/-- If the select thread returns while the main thread waits for a blocked worker, nobody notifies
that worker any more, and the server does not end. So it may go if `SIGINT` follows `SIGHUP`. -/
theorem hangs (h : Run Step (initializeServer configs pipeFd n) tr s)
    (hm : s.main = .joiningWorkers) (hselect : s.exited .select = true)
    (hb : s.waiting.work.consumer c = .blocked) (h' : Run Step s tr' t)
    (hother : .thread (.worker c) ∉ tr') :
    t.main = .joiningWorkers ∧ t.waiting.work.consumer c = .blocked := by
  have hgone := run_gone h
  have halive : s.exited (.worker c) = false := by
    by_contra hexited
    exact nomatch hb.symm.trans (hgone.worker c (Bool.not_eq_false _ ▸ hexited))
  have hung : t.Hung c := by
    induction h' with
    | start => exact ⟨hm, hselect, hgone.select hselect, hb, halive⟩
    | next _ last ih =>
      rw [List.mem_append, List.mem_singleton, not_or] at hother
      exact (ih hother.1).step last fun h => hother.2 h.symm
  exact ⟨hung.main, hung.blocked⟩

/-- A step of the select thread in its scan. -/
theorem Step.scan {τ : Threads} {fdsCpy : Finset ℤ} {fd newMaxFd : ℤ}
    (hs : s.threads.select = .scanning fdsCpy fd newMaxFd)
    (h : Threads.Step s.threads ⟨.select, .internal⟩ τ)
    (haway : s.waiting.work.producer () = .away) (halive : s.exited .select = false)
    (hpipe : τ.pipe = s.threads.pipe) (hopened : τ.opened = s.threads.opened) :
    Step s (.thread .select)
      { s with
        waiting := { s.waiting with threads := τ }
        tested := Function.update s.tested .select false } := by
  have hother : ¬ s.threads.AtQueue .select := by
    rintro (⟨_, _, _, hpushing⟩ | ⟨_, _, _, hselected, -⟩)
    · exact nomatch hs.symm.trans hpushing
    · exact nomatch hs.symm.trans hselected
  refine .run (.run h haway hother) nofun halive ?_ fun _ => ⟨hpipe, hopened⟩
  rintro (⟨hcopying, -⟩ | hfalse)
  · exact nomatch hs.symm.trans hcopying
  · exact hfalse.elim

/-- A client connects before `SIGHUP`, and the worker is notified and looks for work again. -/
theorem run_sigHup : ∃ tr, ∃ s : ServerProcess 1,
    Run Step (initializeServer ⟨1048576, 32, 16⟩ 3 1) tr s ∧ s.main = .joiningWorkers ∧
    s.waiting.work.consumer 0 = .checking ∧ s.waiting.work.producer () = .away ∧
    s.threads.select = .copying ∧ s.threads.gWorkQueue.tryPop = none ∧
    s.tested = (fun _ => false) ∧ s.exited = (fun _ => false) ∧ ¬ s.Stops (.worker 0) := by
  obtain ⟨tr, hasleep⟩ := run_loneWorker
  have haccepted := ((run_of_documented hasleep).next (.enterLoop rfl (by decide))).next
    (.accept rfl (.run (@Threads.Step.accept _ 4 rfl (by decide) (by decide) (by decide))
      trivial id))
  have hannounced := haccepted.next (.accept rfl (.run (.announce rfl) trivial id))
  have htested := hannounced.next
    (@Step.test 1 _ .select (.inl ⟨rfl, rfl⟩) rfl rfl (by decide))
  have hselected := htested.next
    (.run (.run (@Threads.Step.select _ {3} rfl (by decide) (by decide)) rfl
      (by rintro (⟨_, _, _, h⟩ | ⟨_, _, _, h, -⟩) <;> cases h)) nofun rfl (fun _ => rfl)
      fun _ => ⟨rfl, rfl⟩)
  have hreceived := hselected.next
    (.message (.run (.message rfl (by decide) rfl) rfl
      (by rintro (⟨_, _, _, h⟩ | ⟨_, _, _, -, -, h⟩) <;> cases h)) rfl rfl)
  have hscanning := ((hreceived.next (.scan rfl (.notReady rfl (by decide) (by decide)) rfl rfl rfl
    rfl)).next (.scan rfl (.notReady rfl (by decide) (by decide)) rfl rfl rfl rfl)).next
    (.scan rfl (.notReady rfl (by decide) (by decide)) rfl rfl rfl rfl)
  have hscanned := ((hscanning.next (.scan rfl (.skipPipe rfl (by decide) (by decide) rfl) rfl rfl
    rfl rfl)).next (.scan rfl (.notReady rfl (by decide) (by decide)) rfl rfl rfl rfl)).next
    (.scan rfl (.scanned rfl (by decide)) rfl rfl rfl rfl)
  have hfree : (Monitor.start.setConsumer 0 .blocked : Monitor (Fin 1) Unit).Free := by
    refine ⟨fun c => ?_, fun _ => id⟩
    rw [Subsingleton.elim c 0, Monitor.consumer_setConsumer]
    exact id
  have hnotified := ((hscanned.next (.signal .sigHup)).next
    (.leaveLoop rfl (.inr (.inr rfl)))).next (.notifyWorkers rfl hfree)
  have hwoken : (Monitor.start.setConsumer 0 .blocked : Monitor (Fin 1) Unit).rouse.Free := by
    refine ⟨fun c => ?_, fun _ => id⟩
    rw [Subsingleton.elim c 0]
    exact (hfree.up_rouse 0).2
  have hreentered := hnotified.next
    (.run (.workSync (t := .inl 0) (.reenter rfl hwoken) fun c hc haway => by
      cases hc
      cases haway) nofun rfl (by
        rintro (⟨-, c, -, haway, -⟩ | ⟨c, -, hchecking⟩)
        · rw [Subsingleton.elim c 0] at haway
          cases haway
        · rw [Subsingleton.elim c 0] at hchecking
          cases hchecking) nofun)
  refine ⟨_, _, hreentered, rfl, rfl, rfl, rfl, CircQueue.tryPop_eq_none.mpr rfl, ?_, rfl,
    by decide⟩
  funext th
  dsimp only [signalHandlerCallback]
  simp only [Function.update_apply]
  split_ifs <;> rfl

/-- While the worker waits for requests of the client, `SIGINT` comes. -/
theorem hangs_sigInt : ∃ tr, ∃ s : ServerProcess 1,
    Run Step (initializeServer ⟨1048576, 32, 16⟩ 3 1) tr s ∧ s.gSigIntReceived = true ∧
    ∀ tr' t, Run Step s tr' t → .thread (.worker (0 : Fin 1)) ∉ tr' →
      t.main = .joiningWorkers ∧ t.waiting.work.consumer 0 = .blocked := by
  obtain ⟨tr, s, hrun, hmain, hc, hp, hselect, hq, htested, hexited, hgo⟩ := run_sigHup
  obtain ⟨tr', hwait⟩ := run_wait (c := 0) hc (by rw [hexited]) htested hgo hq
  have hblocked := (hrun.trans (run_of_documented hwait)).next (.signal .sigInt)
  have hexit := hblocked.next
    (@Step.exit 1 _ .select ⟨hselect, hp⟩ (congrFun hexited _) (congrFun htested _)
      (.inl (Bool.or_true _)))
  exact ⟨_, _, hexit, Bool.or_true _, fun tr' t h hother =>
    hangs hexit hmain rfl (Monitor.consumer_setConsumer ..) h hother⟩

end ServerProcess
end StorageServer.Server
