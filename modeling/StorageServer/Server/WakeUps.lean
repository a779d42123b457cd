import StorageServer.Library.Monitors
import StorageServer.Server.Threads

/-! The threads with the mutexes and condition variables on which they wait for work and for
notifications. What was a single step on one of the two queues is taken apart: a worker or the lock
thread looks into its queue in a loop and waits in between, and whoever has pushed takes the mutex
to notify. -/
namespace StorageServer.Server
open Library Library.Runs

namespace Threads

/-- A worker that looks for work. -/
def Seeking (σ : Threads) (id : ℕ) : Prop := σ.workers[id]? = some ⟨.idle, []⟩

/-- A worker that has to push a notification. -/
def Issuing (σ : Threads) (id : ℕ) : Prop :=
  ∃ state n ns, σ.workers[id]? = some ⟨state, n::ns⟩

/-- The select thread has to push a descriptor. -/
def Pushing (σ : Threads) : Prop := ∃ fdsCpy fd newMaxFd, σ.select = .pushing fdsCpy fd newMaxFd

/-- The select thread has to close a connection, of which it notifies all workers. -/
def Closing (σ : Threads) : Prop :=
  ∃ fdsCpy value messages, σ.select = .selected fdsCpy ∧ σ.pipeFd ∈ fdsCpy ∧
    σ.pipe = .remConnection value :: messages

/-- A thread whose next step concerns a queue. -/
def AtQueue (σ : Threads) : ThreadId → Prop
  | .main => False
  | .select => σ.Pushing ∨ σ.Closing
  | .lock => σ.lock = .idle
  | .worker id => σ.Seeking id ∨ σ.Issuing id

/-- What the step of a thread does to the two queues. -/
inductive QueueStep (σ τ : Threads) : ThreadId → Prop
  | main (hw : τ.gWorkQueue = σ.gWorkQueue) (hl : τ.gLockQueue = σ.gLockQueue) :
    QueueStep σ τ .main
  | select (hw : τ.gWorkQueue = σ.gWorkQueue) (hl : τ.gLockQueue = σ.gLockQueue) :
    QueueStep σ τ .select
  | push {fd} (hs : σ.Pushing) (hw : σ.gWorkQueue.tryPush fd = some τ.gWorkQueue)
      (hl : τ.gLockQueue = σ.gLockQueue) : QueueStep σ τ .select
  | seek {id fd} (hs : σ.Seeking id) (hw : σ.gWorkQueue.tryPop = some (fd, τ.gWorkQueue))
      (hl : τ.gLockQueue = σ.gLockQueue) : QueueStep σ τ (.worker id)
  | issue {id n} (hi : σ.Issuing id) (hl : σ.gLockQueue.tryPush n = some τ.gLockQueue)
      (hw : τ.gWorkQueue = σ.gWorkQueue) : QueueStep σ τ (.worker id)
  | work {id} (hs : ¬ σ.Seeking id) (hi : ¬ σ.Issuing id) (hw : τ.gWorkQueue = σ.gWorkQueue)
      (hl : τ.gLockQueue = σ.gLockQueue) : QueueStep σ τ (.worker id)
  | take {n} (hi : σ.lock = .idle) (hl : σ.gLockQueue.tryPop = some (n, τ.gLockQueue))
      (hw : τ.gWorkQueue = σ.gWorkQueue) : QueueStep σ τ .lock
  | answer (hi : σ.lock ≠ .idle) (hw : τ.gWorkQueue = σ.gWorkQueue)
      (hl : τ.gLockQueue = σ.gLockQueue) : QueueStep σ τ .lock

section
variable {σ τ : Threads} {e : ThreadEvent} {l r : List Worker} {w : Worker} {id : ℕ}

theorem worker_at (hw : σ.workers = l ++ w :: r) : σ.workers[l.length]? = some w := by
  rw [hw, List.getElem?_append_right le_rfl, Nat.sub_self]
  rfl

/-- A worker with something to do and nothing to push is not at a queue. -/
theorem not_atQueue {state : WorkerState} (hw : σ.workers = l ++ ⟨state, []⟩ :: r)
    (hs : state ≠ .idle) : ¬ σ.Seeking l.length ∧ ¬ σ.Issuing l.length := by
  have hat := worker_at hw
  constructor
  · intro h
    exact hs (congrArg Worker.state (Option.some.inj (hat.symm.trans h)))
  · rintro ⟨state', n, ns, h⟩
    exact nomatch congrArg Worker.pending (Option.some.inj (hat.symm.trans h))

theorem Seeking.not_issuing (h : σ.Seeking id) : ¬ σ.Issuing id := by
  rintro ⟨state, n, ns, h'⟩
  exact nomatch congrArg Worker.pending (Option.some.inj (h.symm.trans h'))

theorem Step.queues (h : Step σ e τ) : QueueStep σ τ e.thread := by
  cases h with
  | accept | announce | reject => exact .main rfl rfl
  | @message _ message => cases message <;> exact .select rfl rfl
  | select | noMessage | notReady | skipPipe | clear | overflow | scanned => exact .select rfl rfl
  | push hs hq => exact .push ⟨_, _, _, hs⟩ hq rfl
  | take hw hq => exact .seek (worker_at hw) hq rfl
  | notify hw hq => exact .issue ⟨_, _, _, worker_at hw⟩ hq rfl
  | request hw | endOfFile hw | readError hw | sessionCall hw | fsCall hw | respond hw | forget hw
  | giveBack hw | remove hw =>
    obtain ⟨hs, hi⟩ := not_atQueue hw nofun
    exact .work hs hi rfl rfl
  | takeNotification hl hq => exact .take hl hq rfl
  | answer hl | lockGiveBack hl => exact .answer (by rw [hl]; exact nofun) rfl rfl

theorem Step.queues_of {th : ThreadId} (h : Step σ e τ) (he : e.thread = th) : QueueStep σ τ th :=
  he ▸ h.queues

theorem Step.length_workers (h : Step σ e τ) : τ.workers.length = σ.workers.length := by
  cases h with
  | @message _ message => cases message <;> rfl
  | take hw | request hw | endOfFile hw | readError hw | sessionCall hw | fsCall hw | notify hw
  | respond hw | forget hw | giveBack hw | remove hw =>
    rw [hw]
    simp only [List.length_append, List.length_cons]
  | _ => rfl

end
end Threads

/-- The workers and the select thread meet at `gWorkMutex` and `gWorkCond`, the lock thread and the
workers at `gLockMutex` and `gLockCond`. -/
structure WaitingThreads (n : ℕ) where
  threads : Threads
  work : Monitor (Fin n) Unit
  lock : Monitor Unit (Fin n)

namespace WaitingThreads
variable {n : ℕ}

def initializeServer (configs : FSConfig) (pipeFd : ℤ) (n : ℕ) : WaitingThreads n where
  threads := .initializeServer configs pipeFd n
  work := .start
  lock := .start

/-- A thread that stands at neither of the mutexes. -/
def Away (s : WaitingThreads n) : ThreadId → Prop
  | .main => True
  | .select => s.work.producer () = .away
  | .lock => s.lock.consumer () = .away
  | .worker id => ∀ c : Fin n, c = id → s.work.consumer c = .away ∧ s.lock.producer c = .away

/-- One step of one thread, in its program or at a mutex. -/
inductive Step : WaitingThreads n → ThreadId → WaitingThreads n → Prop
  /-- A step that is not at a queue. -/
  | run {s e τ} (h : Threads.Step s.threads e τ) (haway : s.Away e.thread)
      (hother : ¬ s.threads.AtQueue e.thread) : Step s e.thread { s with threads := τ }
  /-- The loop of a worker pops a descriptor and ends. -/
  | takeWork {s e τ} {c : Fin n} (h : Threads.Step s.threads e τ) (he : e.thread = .worker c)
      (hseek : s.threads.Seeking c) (hc : s.work.consumer c = .checking) :
    Step s (.worker c) { s with threads := τ, work := s.work.setConsumer c .leaving }
  /-- The loop of a worker finds the queue empty. -/
  | noWork {s} {c : Fin n} (hc : s.work.consumer c = .checking)
      (hq : s.threads.gWorkQueue.tryPop = none) :
    Step s (.worker c) { s with work := s.work.setConsumer c .waiting }
  /-- The descriptor is pushed, or the queue is full and its client disconnected. -/
  | pushWork {s e τ} (h : Threads.Step s.threads e τ) (he : e.thread = .select)
      (hpush : s.threads.Pushing) (hp : s.work.producer () = .away) :
    Step s .select { s with threads := τ, work := s.work.setProducer () (.pushed false) }
  | closeConnection {s e τ} (h : Threads.Step s.threads e τ) (he : e.thread = .select)
      (hclose : s.threads.Closing) (hp : s.work.producer () = .away) :
    Step s .select { s with threads := τ, work := s.work.setProducer () (.pushed true) }
  /-- A worker enters its loop when it has nothing else to do. -/
  | workSync {s t m} (h : s.work.Sync t m) (henter : ∀ c, t = .inl c →
      s.work.consumer c = .away → s.threads.Seeking c ∧ s.lock.producer c = .away) :
    Step s (t.elim (fun c => .worker c.val) fun _ => .select) { s with work := m }
  | takeNotification {s e τ} (h : Threads.Step s.threads e τ) (he : e.thread = .lock)
      (hidle : s.threads.lock = .idle) (hc : s.lock.consumer () = .checking) :
    Step s .lock { s with threads := τ, lock := s.lock.setConsumer () .leaving }
  | noNotification {s} (hc : s.lock.consumer () = .checking)
      (hq : s.threads.gLockQueue.tryPop = none) :
    Step s .lock { s with lock := s.lock.setConsumer () .waiting }
  /-- A worker pushes a notification. It keeps the mutex of the file system until it has notified;
  here others may go on before, which only allows more runs. -/
  | issue {s e τ} {c : Fin n} (h : Threads.Step s.threads e τ) (he : e.thread = .worker c)
      (hissue : s.threads.Issuing c) (haway : s.Away (.worker c)) :
    Step s (.worker c) { s with threads := τ, lock := s.lock.setProducer c (.pushed false) }
  | lockSync {s t m} (h : s.lock.Sync t m) (henter : ∀ c, t = .inl c →
      s.lock.consumer c = .away → s.threads.lock = .idle) :
    Step s (t.elim (fun _ => .lock) fun c => .worker c.val) { s with lock := m }

/-- How many descriptors and notifications are in the queues. -/
def workItems (s : WaitingThreads n) : ℕ := s.threads.gWorkQueue.toList.length

def lockItems (s : WaitingThreads n) : ℕ := s.threads.gLockQueue.toList.length

variable {s s' : WaitingThreads n} {th : ThreadId} {configs : FSConfig} {pipeFd : ℤ}
  {tr : List ThreadId}

/-- A step of the threads, or one of a thread at a mutex. -/
theorem Step.threads (h : Step s th s') :
    (∃ e, Threads.Step s.threads e s'.threads) ∨ s'.threads = s.threads := by
  cases h with
  | run h | takeWork h | pushWork h | closeConnection h | takeNotification h | issue h =>
    exact .inl ⟨_, h⟩
  | noWork | workSync | noNotification | lockSync => exact .inr rfl

/-- The runs are runs of the threads. -/
theorem run_threads (h : Run Step (initializeServer configs pipeFd n) tr s) :
    ∃ tr', Run Threads.Step (.initializeServer configs pipeFd n) tr' s.threads := by
  induction h with
  | start => exact ⟨[], .start⟩
  | next _ last ih =>
    obtain ⟨tr', hrun⟩ := ih
    rcases last.threads with ⟨e, he⟩ | he
    · exact ⟨_, hrun.next he⟩
    · exact ⟨tr', he ▸ hrun⟩

theorem length_tryPop {α : Type*} {capacity : ℕ} {queue queue' : CircQueue α capacity} {item : α}
    (h : queue.tryPop = some (item, queue')) :
    queue.toList.length = queue'.toList.length + 1 := by
  rw [CircQueue.tryPop_toList h, List.length_cons]

theorem length_tryPush {α : Type*} {capacity : ℕ} {queue queue' : CircQueue α capacity} {item : α}
    (h : queue.tryPush item = some queue') :
    queue'.toList.length = queue.toList.length + 1 := by
  rw [CircQueue.tryPush_toList h, List.length_append, List.length_singleton]

/-- A thread that is not at a queue leaves both as they are. -/
theorem run_items {e : ThreadEvent} {σ τ : Threads} (h : Threads.Step σ e τ)
    (hother : ¬ σ.AtQueue e.thread) :
    τ.gWorkQueue = σ.gWorkQueue ∧ τ.gLockQueue = σ.gLockQueue := by
  have hq := h.queues
  generalize e.thread = th at hq hother
  cases hq with
  | main hw hl | select hw hl | work _ _ hw hl | answer _ hw hl => exact ⟨hw, hl⟩
  | push hs => exact absurd (Or.inl hs) hother
  | seek hs => exact absurd (Or.inl hs) hother
  | issue hi => exact absurd (Or.inr hi) hother
  | take hi => exact absurd hi hother

/-- The work queue and its monitor step together. -/
theorem Step.work (h : Step s th s') :
    Monitor.Step s.workItems s.work s'.workItems s'.work ∨
      s'.work = s.work ∧ s'.workItems = s.workItems := by
  unfold workItems
  cases h with
  | run h _ hother => exact .inr ⟨rfl, by rw [(run_items h hother).1]⟩
  | takeWork h he hseek hc =>
    cases h.queues_of he with
    | seek _ hw _ => exact .inl (length_tryPop hw ▸ .take hc)
    | issue hi => exact absurd hi hseek.not_issuing
    | work hs => exact absurd hseek hs
  | noWork hc hq =>
    rw [CircQueue.tryPop_eq_none.mp hq]
    exact .inl (.empty hc)
  | pushWork h he _ hp | closeConnection h he _ hp =>
    cases h.queues_of he with
    | select hw => exact .inl (hw ▸ .skip hp _)
    | push _ hw => exact .inl (length_tryPush hw ▸ .push hp _)
  | workSync h => exact .inl (.sync h)
  | takeNotification h he =>
    cases h.queues_of he with
    | take _ _ hw | answer _ hw => exact .inr ⟨rfl, by rw [hw]⟩
  | issue h he hissue =>
    cases h.queues_of he with
    | seek hs => exact absurd hissue hs.not_issuing
    | issue _ _ hw | work _ _ hw => exact .inr ⟨rfl, by rw [hw]⟩
  | noNotification | lockSync => exact .inr ⟨rfl, rfl⟩

theorem Step.lock (h : Step s th s') :
    Monitor.Step s.lockItems s.lock s'.lockItems s'.lock ∨
      s'.lock = s.lock ∧ s'.lockItems = s.lockItems := by
  unfold lockItems
  cases h with
  | run h _ hother => exact .inr ⟨rfl, by rw [(run_items h hother).2]⟩
  | takeWork h he hseek =>
    cases h.queues_of he with
    | issue hi => exact absurd hi hseek.not_issuing
    | seek _ _ hl | work _ _ _ hl => exact .inr ⟨rfl, by rw [hl]⟩
  | pushWork h he | closeConnection h he =>
    cases h.queues_of he with
    | select _ hl | push _ _ hl => exact .inr ⟨rfl, by rw [hl]⟩
  | takeNotification h he hidle hc =>
    cases h.queues_of he with
    | take _ hl => exact .inl (length_tryPop hl ▸ .take hc)
    | answer hi => exact absurd hidle hi
  | noNotification hc hq =>
    rw [CircQueue.tryPop_eq_none.mp hq]
    exact .inl (.empty hc)
  | issue h he hissue haway =>
    cases h.queues_of he with
    | seek hs => exact absurd hissue hs.not_issuing
    | issue _ hl => exact .inl (length_tryPush hl ▸ .push (haway _ rfl).2 _)
    | work _ hi => exact absurd hissue hi
  | lockSync h => exact .inl (.sync h)
  | noWork | workSync => exact .inr ⟨rfl, rfl⟩

/-! ### Undisturbed threads -/

section
variable {σ τ : Threads} {e : ThreadEvent} {trace : List ThreadEvent}

/-- Nobody is at a mutex. -/
def quiet (σ : Threads) : WaitingThreads n := ⟨σ, .start, .start⟩

/-- Producers take the mutex and give it back whatever the threads do. -/
theorem run_workSync (σ : Threads) (lock : Monitor Unit (Fin n)) {m m' : Monitor (Fin n) Unit}
    {trace : List (Fin n ⊕ Unit)} (h : Run Monitor.Sync m trace m') (hp : ∀ t ∈ trace, t.isRight) :
    ∃ tr, Run Step ⟨σ, m, lock⟩ tr ⟨σ, m', lock⟩ := by
  induction h with
  | start => exact ⟨[], .start⟩
  | @next trace m₁ t m₂ _ last ih =>
    obtain ⟨tr, hrun⟩ := ih fun t ht => hp t (List.mem_append_left _ ht)
    have hright := hp t (List.mem_append_right _ List.mem_cons_self)
    refine ⟨_, hrun.next (.workSync last fun c hc => ?_)⟩
    rw [hc] at hright
    exact nomatch hright

theorem run_lockSync (σ : Threads) (work : Monitor (Fin n) Unit) {m m' : Monitor Unit (Fin n)}
    {trace : List (Unit ⊕ Fin n)} (h : Run Monitor.Sync m trace m') (hp : ∀ t ∈ trace, t.isRight) :
    ∃ tr, Run Step ⟨σ, work, m⟩ tr ⟨σ, work, m'⟩ := by
  induction h with
  | start => exact ⟨[], .start⟩
  | @next trace m₁ t m₂ _ last ih =>
    obtain ⟨tr, hrun⟩ := ih fun t ht => hp t (List.mem_append_left _ ht)
    have hright := hp t (List.mem_append_right _ List.mem_cons_self)
    refine ⟨_, hrun.next (.lockSync last fun c hc => ?_)⟩
    rw [hc] at hright
    exact nomatch hright

/-- A worker enters its loop, finds a descriptor at once and leaves. -/
theorem run_seek {c : Fin n} (h : Threads.Step σ e τ) (he : e.thread = .worker c)
    (hseek : σ.Seeking c) : ∃ tr, Run Step (quiet σ : WaitingThreads n) tr (quiet τ) := by
  have henter : Step (quiet σ : WaitingThreads n) (.worker c)
      ⟨σ, Monitor.start.setConsumer c .checking, .start⟩ :=
    .workSync (t := .inl c) (.enter rfl Monitor.free_start) fun c' hc _ => by
      cases hc
      exact ⟨hseek, rfl⟩
  have htake : Step (⟨σ, Monitor.start.setConsumer c .checking, .start⟩ : WaitingThreads n)
      (.worker c) ⟨τ, Monitor.start.setConsumer c .leaving, .start⟩ := by
    rw [← Monitor.setConsumer_setConsumer Monitor.start c .checking .leaving]
    exact .takeWork h he hseek (Monitor.consumer_setConsumer ..)
  have hleave : Step (⟨τ, Monitor.start.setConsumer c .leaving, .start⟩ : WaitingThreads n)
      (.worker c) (quiet τ) := by
    refine .workSync (t := .inl c) (Monitor.sync_leave c) fun c' hc haway => ?_
    cases hc
    rw [Monitor.consumer_setConsumer] at haway
    cases haway
  exact ⟨_, ((Run.start.next henter).next htake).next hleave⟩

/-- So does the lock thread with a notification. -/
theorem run_take (h : Threads.Step σ e τ) (he : e.thread = .lock) (hidle : σ.lock = .idle) :
    ∃ tr, Run Step (quiet σ : WaitingThreads n) tr (quiet τ) := by
  have henter : Step (quiet σ : WaitingThreads n) .lock
      ⟨σ, .start, Monitor.start.setConsumer () .checking⟩ :=
    .lockSync (t := .inl ()) (.enter rfl Monitor.free_start) fun _ _ _ => hidle
  have htake : Step (⟨σ, .start, Monitor.start.setConsumer () .checking⟩ : WaitingThreads n)
      .lock ⟨τ, .start, Monitor.start.setConsumer () .leaving⟩ := by
    rw [← Monitor.setConsumer_setConsumer Monitor.start () .checking .leaving]
    exact .takeNotification h he hidle (Monitor.consumer_setConsumer ..)
  have hleave : Step (⟨τ, .start, Monitor.start.setConsumer () .leaving⟩ : WaitingThreads n)
      .lock (quiet τ) := by
    refine .lockSync (t := .inl ()) (Monitor.sync_leave ()) fun c hc haway => ?_
    rw [Monitor.consumer_setConsumer] at haway
    cases haway
  exact ⟨_, ((Run.start.next henter).next htake).next hleave⟩

theorem lt_of_getElem? {id : ℕ} {w : Worker} (h : σ.workers[id]? = some w)
    (hlen : σ.workers.length = n) : id < n :=
  hlen ▸ (List.getElem?_eq_some_iff.mp h).1

/-- Every step of the threads is possible with the mutexes. -/
theorem exists_run_of_step (h : Threads.Step σ e τ) (hlen : σ.workers.length = n) :
    ∃ tr, Run Step (quiet σ : WaitingThreads n) tr (quiet τ) := by
  by_cases hq : σ.AtQueue e.thread
  · generalize he : e.thread = th at hq
    cases th with
    | main => exact hq.elim
    | select =>
      rcases hq with hpush | hclose
      · obtain ⟨tr, hrun⟩ := run_workSync τ .start (Monitor.run_notify () false) (by simp)
        exact ⟨_, (Run.start.next (.pushWork h he hpush rfl)).trans hrun⟩
      · obtain ⟨tr, hrun⟩ := run_workSync τ .start (Monitor.run_notify () true) (by simp)
        exact ⟨_, (Run.start.next (.closeConnection h he hclose rfl)).trans hrun⟩
    | lock => exact run_take h he hq
    | worker id =>
      rcases hq with hseek | hissue
      · exact run_seek (c := ⟨id, lt_of_getElem? hseek hlen⟩) h he hseek
      · have hlt : id < n := by
          obtain ⟨state, notification, rest, hw⟩ := hissue
          exact lt_of_getElem? hw hlen
        obtain ⟨tr, hrun⟩ := run_lockSync τ .start
          (Monitor.run_notify (⟨id, hlt⟩ : Fin n) false) (by simp)
        exact ⟨_, (Run.start.next
          (.issue (c := ⟨id, hlt⟩) h he hissue fun _ _ => ⟨rfl, rfl⟩)).trans hrun⟩
  · refine ⟨_, Run.start.next (.run h ?_ hq)⟩
    cases e.thread with
    | main => trivial
    | select | lock => rfl
    | worker id => exact fun _ _ => ⟨rfl, rfl⟩

/-- And so is every run. -/
theorem exists_run {configs : FSConfig} {pipeFd : ℤ}
    (h : Run Threads.Step (.initializeServer configs pipeFd n) trace σ) :
    ∃ tr, Run Step (initializeServer configs pipeFd n) tr (quiet σ) := by
  have hruns := h.invariant
    (I := fun σ => σ.workers.length = n ∧
      ∃ tr, Run Step (initializeServer configs pipeFd n) tr (quiet σ))
    ⟨List.length_replicate, [], .start⟩ fun {σ e τ} ⟨hlen, tr, hrun⟩ hstep => by
      obtain ⟨tr', hrun'⟩ := exists_run_of_step hstep hlen
      exact ⟨hstep.length_workers.trans hlen, _, hrun.trans hrun'⟩
  exact hruns.2

end

/-- Both queues are watched in every state that is reached. -/
theorem run_watched (hn : 0 < n) (h : Run Step (initializeServer configs pipeFd n) tr s) :
    s.work.Watched s.workItems ∧ s.lock.Watched s.lockItems := by
  have : Nonempty (Fin n) := ⟨⟨0, hn⟩⟩
  refine h.invariant (I := fun s => s.work.Watched s.workItems ∧ s.lock.Watched s.lockItems)
    ⟨Monitor.watched_start _, Monitor.watched_start _⟩ fun {s l t} ⟨hwork, hlock⟩ hstep => ⟨?_, ?_⟩
  · rcases hstep.work with hw | ⟨hw, hi⟩
    · exact hwork.step hw
    · rw [hw, hi]
      exact hwork
  · rcases hstep.lock with hl | ⟨hl, hi⟩
    · exact hlock.step hl
    · rw [hl, hi]
      exact hlock

/-- No wake-up is lost. With work in the queue a worker is awake or the select thread is going to
notify one, and with a notification in the queue the lock thread is awake or a worker is going to
notify it. -/
theorem no_lost_wake_up (hn : 0 < n) (h : Run Step (initializeServer configs pipeFd n) tr s) :
    ¬ (s.threads.gWorkQueue.toList ≠ [] ∧ (∀ c, s.work.consumer c = .blocked) ∧
      (s.work.producer ()).Past) ∧
    ¬ (s.threads.gLockQueue.toList ≠ [] ∧ s.lock.consumer () = .blocked ∧
      ∀ c, (s.lock.producer c).Past) := by
  obtain ⟨hwork, hlock⟩ := run_watched hn h
  constructor
  · rintro ⟨hne, hblocked, hpast⟩
    exact hwork.not_lost ⟨List.length_pos_iff.mpr hne, hblocked, fun _ => hpast⟩
  · rintro ⟨hne, hblocked, hpast⟩
    exact hlock.not_lost ⟨List.length_pos_iff.mpr hne, fun _ => hblocked, hpast⟩

/-! ### An item for a worker that is blocked -/

theorem away_start (th : ThreadId) {σ : Threads} :
    Away (⟨σ, .start, .start⟩ : WaitingThreads n) th := by
  cases th with
  | main => trivial
  | select | lock => rfl
  | worker id => exact fun _ _ => ⟨rfl, rfl⟩

/-- Steps that are not at a queue need no mutex. -/
theorem run_away {σ₀ σ : Threads} {tr : List ThreadEvent}
    (h : Run (Guarded (fun σ e => ¬ σ.AtQueue e.thread) Threads.Step) σ₀ tr σ) :
    Run Step (⟨σ₀, .start, .start⟩ : WaitingThreads n) (tr.map ThreadEvent.thread)
      ⟨σ, .start, .start⟩ := by
  induction h with
  | start => exact .start
  | next _ last ih =>
    rw [List.map_append]
    exact ih.next (.run last.2 (away_start _) last.1)

theorem not_atQueue_select {σ : Threads} (hs : (σ.select matches .pushing ..) = false)
    (hp : (σ.pipe.all fun message => message matches .newConnection _) = true) :
    ¬ σ.AtQueue .select := by
  rintro (⟨fdsCpy, fd, newMaxFd, h⟩ | ⟨fdsCpy, value, messages, -, -, h⟩)
  · rw [h] at hs
    cases hs
  · rw [h] at hp
    cases hp

/-- Client 2 is ready and the select thread is going to push it. -/
theorem run_pushing : ∃ tr σ queue, σ.select = .pushing {2} 2 1 ∧
    Run Step (initializeServer FileSystem.defaultConfigs 1 1) tr ⟨σ, .start, .start⟩ ∧
    σ.workers = [⟨.idle, []⟩] ∧ σ.gWorkQueue.tryPop = none ∧
    σ.gWorkQueue.tryPush 2 = some queue ∧ queue.toList = [2] := by
  have h : Run (Guarded (fun σ e => ¬ σ.AtQueue e.thread) Threads.Step)
    (.initializeServer FileSystem.defaultConfigs 1 1) [] _ := .start
  have h := h.next ⟨id, @Threads.Step.accept _ 2 rfl (by decide) (by decide) (by decide)⟩
  have h := h.next ⟨id, .announce rfl⟩
  have h := h.next ⟨not_atQueue_select rfl rfl,
    @Threads.Step.select _ {1} rfl (by decide) (by decide)⟩
  have h := h.next ⟨not_atQueue_select rfl rfl, .message rfl (by decide) rfl⟩
  have h := h.next ⟨not_atQueue_select rfl rfl, .notReady rfl (by decide) (by decide)⟩
  have h := h.next ⟨not_atQueue_select rfl rfl, .skipPipe rfl (by decide) (by decide) rfl⟩
  have h := h.next ⟨not_atQueue_select rfl rfl, .notReady rfl (by decide) (by decide)⟩
  have h := h.next ⟨not_atQueue_select rfl rfl, .scanned rfl (by decide)⟩
  have h := h.next ⟨not_atQueue_select rfl rfl,
    @Threads.Step.select _ {2} rfl (by decide) (by decide)⟩
  have h := h.next ⟨not_atQueue_select rfl rfl, .noMessage rfl (by decide)⟩
  have h := h.next ⟨not_atQueue_select rfl rfl, .notReady rfl (by decide) (by decide)⟩
  have h := h.next ⟨not_atQueue_select rfl rfl, .notReady rfl (by decide) (by decide)⟩
  have h := h.next ⟨not_atQueue_select rfl rfl,
    .clear rfl (by decide) (by decide) (by decide)⟩
  exact ⟨_, _, _, rfl, run_away h, rfl, rfl, rfl, rfl⟩

/-- The only worker finds no work and is blocked when the select thread pushes client 2, of which
it still has to notify. -/
theorem no_lost_wake_up_one : ∃ tr, ∃ s : WaitingThreads 1,
    Run Step (initializeServer FileSystem.defaultConfigs 1 1) tr s ∧
    s.work.consumer 0 = .blocked ∧ s.threads.gWorkQueue.toList = [2] ∧
    ¬ (s.work.producer ()).Past := by
  obtain ⟨tr, σ, queue, hselect, h, hworkers, hempty, hpush, hitems⟩ := run_pushing
  have hseek : σ.Seeking 0 := congrArg (·[0]?) hworkers
  have h := h.next (.workSync (t := .inl (0 : Fin 1)) (.enter rfl Monitor.free_start)
    fun c hc _ => by
      cases hc
      exact ⟨hseek, rfl⟩)
  have h := h.next (.noWork (c := 0) (Monitor.consumer_setConsumer ..) hempty)
  have h := h.next (.workSync (t := .inl (0 : Fin 1)) (.wait (Monitor.consumer_setConsumer ..))
    fun c hc haway => by
      cases hc
      rw [Monitor.consumer_setConsumer] at haway
      cases haway)
  have h := h.next (.pushWork (.push hselect hpush) rfl ⟨_, _, _, hselect⟩ rfl)
  have hblocked := Monitor.consumer_setConsumer (P := Unit)
    ((Monitor.start.setConsumer (0 : Fin 1) .checking).setConsumer 0 .waiting) 0 .blocked
  refine ⟨_, _, h, hblocked, hitems, fun hpast => (no_lost_wake_up Nat.one_pos h).1 ⟨?_, ?_, hpast⟩⟩
  · exact hitems ▸ List.cons_ne_nil _ _
  · intro c
    rw [Subsingleton.elim c 0]
    exact hblocked

end WaitingThreads
end StorageServer.Server
