import StorageServer.Library.Mutexes
import StorageServer.Server.Threads
import StorageServer.Server.StoreSteps

/-! The mutexes of the server. Printing takes `gLogMutex`, every operation on the files takes
`gFSMutex` and every ring buffer has a mutex of its own. The mutexes of the sessions and of the
counter of the clients are left out: nobody takes another one while holding them. Messages of the
level `LOG_LEVEL_VERBOSE` are not printed. -/
namespace StorageServer.Server
open Common Library.Runs Library.Mutexes

/-- `waitingLockQueue key` belongs to the ring buffer of the entry under a key. -/
inductive Mutex
  | gWorkMutex
  | gLogMutex
  | gFSMutex
  | gLockMutex
  | gWorkQueue
  | gLockQueue
  | waitingLockQueue (key : ℕ)
  deriving DecidableEq

/-- What threads do to shared data while they hold mutexes. -/
inductive LockAction
  | call (op : FsOperation)
  | tryPush (notification : FSLockNotification)
  | tryPop
  | exit

abbrev Script := List (Instruction Mutex LockAction)

/-! ### The functions that take mutexes -/

def customFormattedLog : Script := [.acquire .gLogMutex, .release .gLogMutex]

def fsGetInfos : Script := [.acquire .gFSMutex, .release .gFSMutex]

def logIntoFile : Script := .acquire .gLogMutex :: fsGetInfos ++ [.release .gLogMutex]

/-- One of the `fs_` operations; what it does inside is known only when it runs. -/
def fsOperation (op : FsOperation) : Script :=
  [.acquire .gFSMutex, .act (.call op), .release .gFSMutex]

/-- A worker looks for work. -/
def popWork : Script :=
  [.acquire .gWorkMutex, .acquire .gWorkQueue, .release .gWorkQueue, .release .gWorkMutex]

/-- The select thread pushes work and signals it. -/
def pushWork : Script :=
  [.acquire .gWorkQueue, .release .gWorkQueue, .acquire .gWorkMutex, .release .gWorkMutex]

/-- The lock thread looks for a notification. -/
def popNotification : Script :=
  [.acquire .gLockMutex, .acquire .gLockQueue, .act .tryPop, .release .gLockQueue,
    .release .gLockMutex]

/-- A notification is pushed and signalled. -/
def pushNotification (notification : FSLockNotification) : Script :=
  [.acquire .gLockQueue, .act (.tryPush notification), .release .gLockQueue,
    .acquire .gLockMutex, .release .gLockMutex]

/-- An operation on the queue of a file. -/
def useWaitingQueue (key : ℕ) : Script :=
  [.acquire (.waitingLockQueue key), .release (.waitingLockQueue key)]

/-- The rest of an operation that pushes the notifications. How often it looks into the queues of
the files is left open. -/
inductive Notifying : List FSLockNotification → Script → Prop
  | done : Notifying [] []
  | look {ns script} (key : ℕ) (h : Notifying ns script) :
    Notifying ns (useWaitingQueue key ++ script)
  | push {ns script} (n : FSLockNotification) (h : Notifying ns script) :
    Notifying (n::ns) (pushNotification n ++ script)

/-- The warning of `fs_insert` about a file that exists. -/
def warning : FsOperation → FSOutcome → Script
  | .insert .., out => if out.res = fsFileAlreadyExists then customFormattedLog else []
  | .remove .., _ | .obtain .., _ | .obtainN .., _ | .modify .., _ | .append .., _ | .trylock .., _
  | .exist .., _ | .unlock .., _ | .clean .., _ => []

/-- What a thread without mutexes may go on with. Only the lock thread prints in one place. -/
inductive Begins : ThreadId → Script → Prop
  | prints {t} (ht : t ≠ .lock) : Begins t customFormattedLog
  | pushes : Begins .select pushWork
  | pops (id : ℕ) : Begins (.worker id) popWork
  | calls (id : ℕ) (op : FsOperation) : Begins (.worker id) (fsOperation op)
  | logs (id : ℕ) : Begins (.worker id) logIntoFile
  | notified : Begins .lock popNotification

/-! ### Steps -/

inductive LockEvent
  | internal (t : ThreadId)
  | call (t : ThreadId) (op : FsOperation)

/-- The files, the notifications to deliver and the mutexes. -/
structure LockedServer where
  fs : FileSystem
  gLockQueue : CircQueue FSLockNotification lockQueueSize
  locks : Locks Mutex ThreadId LockAction

namespace LockedServer

def start (configs : FSConfig) : LockedServer where
  fs := .initializeFileSystem configs
  gLockQueue := CircQueue.createQueue lockQueueSize lockQueueSize_pos
  locks := .unlocked

def load (s : LockedServer) (t : ThreadId) (script : Script) : LockedServer :=
  { s with locks := s.locks.load t script }

inductive Step : LockedServer → LockEvent → LockedServer → Prop
  | begin {s t script} (ht : s.locks.todo t = []) (hb : Begins t script) :
    Step s (.internal t) (s.load t script)
  | acquire {s t m rest} (ht : s.locks.todo t = .acquire m :: rest) (hm : s.locks.holder m = none) :
    Step s (.internal t) { s with locks := s.locks.acquire t m rest }
  | release {s t m rest} (ht : s.locks.todo t = .release m :: rest) :
    Step s (.internal t) { s with locks := s.locks.release t m rest }
  | call {s t op out fs script} (ht : s.locks.todo t = [.act (.call op), .release .gFSMutex])
      (ho : FileSystem.Step s.fs (op,out) fs) (hn : Notifying out.issued script) :
    Step s (.call t op)
      { s.load t (warning op out ++ script ++ [.release .gFSMutex]) with fs := fs }
  /-- An allocation fails. The message is printed and the process ends, so that the thread never
  gets beyond `exit`. -/
  | fail {s t op} (ht : s.locks.todo t = [.act (.call op), .release .gFSMutex])
      (hf : s.fs.AllocationFails op) :
    Step s (.call t op) (s.load t (customFormattedLog ++ [.act .exit, .release .gFSMutex]))
  | push {s t n rest queue} (ht : s.locks.todo t = .act (.tryPush n) :: rest)
      (hq : s.gLockQueue.tryPush n = some queue) :
    Step s (.internal t) { s.load t rest with gLockQueue := queue }
  /-- The queue is full and the push is tried again. -/
  | retry {s t n rest} (ht : s.locks.todo t = .act (.tryPush n) :: .release .gLockQueue :: rest)
      (hq : s.gLockQueue.tryPush n = none) :
    Step s (.internal t)
      (s.load t (.release .gLockQueue :: .acquire .gLockQueue :: .act (.tryPush n) ::
        .release .gLockQueue :: rest))
  /-- The response is written, which may fail with a message, and then logged. -/
  | pop {s n queue} (failed : Bool)
      (ht : s.locks.todo .lock =
        [.act .tryPop, .release .gLockQueue, .release .gLockMutex])
      (hq : s.gLockQueue.tryPop = some (n, queue)) :
    Step s (.internal .lock)
      { s.load .lock ([.release .gLockQueue, .release .gLockMutex] ++
          ((if failed then customFormattedLog else []) ++ logIntoFile)) with gLockQueue := queue }
  /-- The lock thread sleeps until it is signalled. -/
  | sleep {s} (ht : s.locks.todo .lock =
        [.act .tryPop, .release .gLockQueue, .release .gLockMutex])
      (hq : s.gLockQueue.tryPop = none) :
    Step s (.internal .lock) (s.load .lock [.release .gLockQueue, .release .gLockMutex])

end LockedServer

/-! ### The order of the mutexes -/

/-- The order in which mutexes are taken when one is already held. -/
def Mutex.rank : Mutex → ℕ
  | gWorkMutex | gLogMutex => 0
  | gFSMutex => 1
  | gLockMutex => 2
  | gWorkQueue | gLockQueue | waitingLockQueue _ => 3

/-- A mutex comes before another one if it has a lower rank. -/
def Mutex.Before (m m' : Mutex) : Prop := m.rank < m'.rank

instance (m m' : Mutex) : Decidable (m.Before m') := inferInstanceAs (Decidable (_ < _))

theorem Notifying.ordered {ns : List FSLockNotification} {script : Script}
    (h : Notifying ns script) : Ordered Mutex.Before [] script := by
  induction h with
  | done => rfl
  | look key h ih => exact ⟨by simp, [], rfl, ih⟩
  | push n h ih => exact ⟨by simp, [], rfl, by simp, [], rfl, ih⟩

theorem Notifying.rank_lt {ns : List FSLockNotification} {script : Script}
    (h : Notifying ns script) {m : Mutex} (hm : .acquire m ∈ script) :
    Mutex.gFSMutex.Before m := by
  induction h with
  | done => exact absurd hm List.not_mem_nil
  | look key h ih =>
    rcases List.mem_append.mp hm with hm | hm
    · obtain rfl : m = .waitingLockQueue key := by simpa [useWaitingQueue] using hm
      exact Nat.lt_of_sub_eq_succ rfl
    · exact ih hm
  | push n h ih =>
    rcases List.mem_append.mp hm with hm | hm
    · obtain rfl | rfl : m = .gLockQueue ∨ m = .gLockMutex := by simpa [pushNotification] using hm
      · decide
      · decide
    · exact ih hm

theorem Begins.ordered {t : ThreadId} {script : Script} (h : Begins t script) :
    Ordered Mutex.Before [] script := by
  cases h with
  | prints => simp [customFormattedLog, Ordered]
  | pushes => simp [pushWork, Ordered]
  | pops => simp [popWork, Ordered, Mutex.Before, Mutex.rank]
  | calls => simp [fsOperation, Ordered]
  | logs => simp [logIntoFile, fsGetInfos, Ordered, Mutex.Before, Mutex.rank]
  | notified => simp [popNotification, Ordered, Mutex.Before, Mutex.rank]

namespace LockedServer
variable {configs : FSConfig} {tr : List LockEvent} {s s' : LockedServer} {e : LockEvent}

/-- No operation prints: one that creates a file finds its key free, and no allocation fails. -/
def Quiet (s : LockedServer) : LockEvent → Prop
  | .call _ op => ¬ s.fs.AllocationFails op ∧ ∀ client file lock,
      op = .insert client file lock → s.fs.getValueFromKey (s.fs.getKey file) = none
  | .internal _ => True

theorem warning_eq_nil {t : ThreadId} {op : FsOperation} {out : FSOutcome} {fs : FileSystem}
    (hf : s.Quiet (.call t op)) (ho : FileSystem.Step s.fs (op,out) fs) :
    warning op out = [] := by
  cases op with
  | insert client file lock =>
    have hfree : (s.fs.createEmptyCacheEntry file
        (if lock then client else emptyOwner)).getValueFromKey (s.fs.getKey file) = none :=
      hf.2 client file lock rfl
    change s.fs.fsInsert client file lock = some (fs,out) at ho
    unfold FileSystem.fsInsert at ho
    dsimp only at ho
    rw [hfree] at ho
    obtain ⟨r, -, hr⟩ := Option.bind_eq_some_iff.mp ho
    cases hr
    rfl
  | remove | obtain | obtainN | modify | append | trylock | exist | unlock | clean => rfl

theorem warning_cases (op : FsOperation) (out : FSOutcome) :
    warning op out = [] ∨ warning op out = customFormattedLog := by
  cases op with
  | insert client file lock =>
    by_cases h : out.res = fsFileAlreadyExists
    · exact Or.inr (if_pos h)
    · exact Or.inl (if_neg h)
  | remove | obtain | obtainN | modify | append | trylock | exist | unlock | clean =>
    exact Or.inl rfl

/-- Every step keeps to an order that contains the order of the mutexes, and in which a message may
be printed while `gFSMutex` is held unless no operation does so. -/
theorem Step.disciplined {below : Mutex → Mutex → Prop} (hirr : ∀ m, ¬ below m m)
    (hb : ∀ m m', Mutex.Before m m' → below m m') (h : s.locks.Disciplined below)
    (hw : s.Quiet e ∨ below .gFSMutex .gLogMutex)
    (hs : Step s e s') : s'.locks.Disciplined below := by
  cases hs with
  | begin ht hbegin =>
    refine h.load fun held _ ho => ?_
    rw [ht] at ho
    obtain rfl : held = [] := ho
    exact hbegin.ordered.mono hb
  | acquire ht hm => exact h.acquire ht hm
  | release ht => exact h.release hirr ht
  | @call t op out fs script ht ho hn =>
    refine h.load fun held _ hord => ?_
    rw [ht] at hord
    obtain ⟨_, rfl, rfl⟩ := hord
    have hrest : Ordered below [.gFSMutex] (script ++ [.release .gFSMutex]) := by
      refine (hn.ordered.mono hb).append (fun m hm m' hm' => ?_) ⟨[], rfl, rfl⟩
      obtain rfl := List.mem_singleton.mp hm'
      exact hb _ _ (hn.rank_lt hm)
    rw [List.append_assoc]
    rcases warning_cases op out with hnil | hlog
    · rwa [hnil, List.nil_append]
    · rcases hw with hquiet | hbelow
      · rwa [warning_eq_nil hquiet ho, List.nil_append]
      · rw [hlog]
        refine ⟨fun m hm => ?_, _, rfl, hrest⟩
        obtain rfl := List.mem_singleton.mp hm
        exact hbelow
  | fail ht hf =>
    refine h.load fun held _ ho => ?_
    rw [ht] at ho
    obtain ⟨_, rfl, rfl⟩ := ho
    rcases hw with hquiet | hbelow
    · exact absurd hf hquiet.1
    · simp [customFormattedLog, Ordered, hbelow]
  | push ht hq =>
    refine h.load fun held _ ho => ?_
    rw [ht] at ho
    exact ho
  | retry ht hq =>
    refine h.load fun held hpair ho => ?_
    rw [ht] at ho
    obtain ⟨held', rfl, ho⟩ := ho
    exact ⟨held', rfl, (List.pairwise_cons.mp hpair).1, held', rfl, ho⟩
  | pop failed ht hq =>
    refine h.load fun held _ ho => ?_
    rw [ht] at ho
    obtain ⟨_, rfl, _, rfl, rfl⟩ := ho
    refine ⟨_, rfl, _, rfl, ?_⟩
    have hlog : below .gLogMutex .gFSMutex := hb _ _ (by decide)
    cases failed <;> simp [customFormattedLog, logIntoFile, fsGetInfos, Ordered, hlog]
  | sleep ht hq =>
    refine h.load fun held _ ho => ?_
    rw [ht] at ho
    exact ho

theorem disciplined_of_run (h : Run (Guarded Quiet Step) (start configs) tr s) :
    s.locks.Disciplined Mutex.Before :=
  h.invariant (I := fun s => s.locks.Disciplined Mutex.Before) Locks.disciplined_unlocked
    fun hd hs => hs.2.disciplined (fun m => lt_irrefl m.rank) (fun _ _ => id) hd
      (Or.inl hs.1)

/-- As long as no file is created where one exists and no allocation fails, no threads ever wait
for each other in a circle. -/
theorem no_mutex_cycle (h : Run (Guarded Quiet Step) (start configs) tr s)
    (ts : Finset ThreadId) : ¬ s.locks.Circular ts :=
  (disciplined_of_run h).not_circular (fun _ _ => id) ts

/-! ### A worker that runs alone -/

section Alone
variable {t : ThreadId} {G : LockedServer → LockEvent → Prop} {rest : Script}

theorem run_push (hG : ∀ s t, G s (.internal t)) {n : FSLockNotification}
    {queue : CircQueue FSLockNotification lockQueueSize}
    (ht : s.locks.todo t = pushNotification n ++ rest)
    (hqueue : s.locks.holder .gLockQueue = none) (hlock : s.locks.holder .gLockMutex = none)
    (hq : s.gLockQueue.tryPush n = some queue) :
    ∃ tr, Run (Guarded G Step) s tr { s.load t rest with gLockQueue := queue } := by
  have h : Run (Guarded G Step) s [] s := .start
  have h := h.next ⟨hG s t, .acquire ht hqueue⟩
  have h := h.next ⟨hG _ t, .push (Locks.todo_acquire _ _ _ _) hq⟩
  have h := h.next ⟨hG _ t, .release (Locks.todo_load _ _ _)⟩
  simp only [load, Locks.acquire_load, Locks.acquire_release hqueue] at h
  have h := h.next ⟨hG _ t, .acquire (Locks.todo_load _ _ _) hlock⟩
  simp only [Locks.load_acquire] at h
  have h := h.next ⟨hG _ t, .release (Locks.todo_acquire _ _ _ _)⟩
  simp only [Locks.acquire_release hlock] at h
  exact ⟨_, h⟩

/-- The notifications of an operation are pushed as long as there is room. -/
theorem run_pushes (hG : ∀ s t, G s (.internal t)) {ns : List FSLockNotification}
    (ht : s.locks.todo t = ns.flatMap pushNotification ++ rest)
    (hqueue : s.locks.holder .gLockQueue = none) (hlock : s.locks.holder .gLockMutex = none)
    (hroom : s.gLockQueue.toList.length + ns.length ≤ lockQueueSize) :
    ∃ tr queue, Run (Guarded G Step) s tr { s.load t rest with gLockQueue := queue } ∧
      queue.toList = s.gLockQueue.toList ++ ns := by
  induction ns generalizing s with
  | nil =>
    refine ⟨[], s.gLockQueue, ?_, (List.append_nil _).symm⟩
    have hself : s.load t rest = s := congrArg (fun l => { s with locks := l }) (Locks.load_self ht)
    rw [hself]
    exact .start
  | cons n ns ih =>
    have hsome : s.gLockQueue.tryPush n ≠ none := by
      rw [Ne, CircQueue.tryPush_eq_none]
      simp only [List.length_cons] at hroom
      omega
    obtain ⟨queue, hq⟩ := Option.ne_none_iff_exists'.mp hsome
    have hlist := CircQueue.tryPush_toList hq
    have htodo : s.locks.todo t = pushNotification n ++ (ns.flatMap pushNotification ++ rest) := by
      rw [ht, List.flatMap_cons, List.append_assoc]
    obtain ⟨tr, h⟩ := run_push hG htodo hqueue hlock hq
    obtain ⟨tr', queue', h', hlist'⟩ := @ih
      { s.load t (ns.flatMap pushNotification ++ rest) with gLockQueue := queue }
      (Locks.todo_load _ _ _) hqueue hlock (by
        change queue.toList.length + ns.length ≤ _
        rw [hlist, List.length_append, List.length_singleton]
        rwa [List.length_cons, ← Nat.add_assoc, Nat.add_right_comm] at hroom)
    refine ⟨tr ++ tr', queue', ?_, ?_⟩
    · simp only [load, Locks.load_load] at h' ⊢
      exact h.trans h'
    · rw [hlist', hlist]
      simp

theorem notifying_pushes (ns : List FSLockNotification) :
    Notifying ns (ns.flatMap pushNotification) := by
  induction ns with
  | nil => exact .done
  | cons n ns ih => exact .push n ih

/-- A worker makes a call from beginning to end. -/
theorem run_fsOperation (hG : ∀ s t, G s (.internal t)) {op : FsOperation} {out : FSOutcome}
    {fs : FileSystem} (id : ℕ)
    (hcall : ∀ s' : LockedServer, s'.fs = s.fs → s'.gLockQueue = s.gLockQueue →
      G s' (.call (.worker id) op))
    (ht : s.locks.todo (.worker id) = []) (hfree : ∀ m, s.locks.holder m = none)
    (ho : FileSystem.Step s.fs (op,out) fs) (hw : warning op out = [])
    (hroom : s.gLockQueue.toList.length + out.issued.length ≤ lockQueueSize) :
    ∃ tr queue, Run (Guarded G Step) s tr { s with fs := fs, gLockQueue := queue } ∧
      queue.toList = s.gLockQueue.toList ++ out.issued := by
  have h : Run (Guarded G Step) s [] s := .start
  have h := h.next ⟨hG s _, .begin ht (.calls id op)⟩
  have h := h.next ⟨hG _ _, .acquire (Locks.todo_load _ _ _) (hfree _)⟩
  simp only [load, Locks.load_acquire] at h
  have h := h.next ⟨hcall _ rfl rfl, .call (Locks.todo_acquire _ _ _ _) ho (notifying_pushes _)⟩
  simp only [load, Locks.acquire_load, hw, List.nil_append] at h
  obtain ⟨tr, queue, h', hlist⟩ := run_pushes (s := { s with
      locks := s.locks.acquire (.worker id) .gFSMutex
        (out.issued.flatMap pushNotification ++ [.release .gFSMutex])
      fs := fs }) hG (Locks.todo_acquire _ _ _ _)
    ((Locks.holder_acquire_of_ne (by decide)).trans (hfree _))
    ((Locks.holder_acquire_of_ne (by decide)).trans (hfree _)) hroom
  have h := (h.trans h').next ⟨hG _ _, .release (Locks.todo_load _ _ _)⟩
  simp only [load, Locks.acquire_load, Locks.acquire_release (hfree _), Locks.load_self ht] at h
  exact ⟨_, _, h, hlist⟩

end Alone

/-- Worker 0 creates the file `a` for client 4. -/
theorem run_createA : ∃ tr s, Run (Guarded Quiet Step) (start FileSystem.defaultConfigs) tr s ∧
    s.locks = .unlocked ∧ s.fs = (FileSystem.initializeFileSystem
      FileSystem.defaultConfigs).after FileSystem.createA := by
  have ho := FileSystem.step_after (FileSystem.initializeFileSystem FileSystem.defaultConfigs)
    FileSystem.createA (by decide +kernel)
  obtain ⟨tr, queue, h, -⟩ := run_fsOperation (s := start FileSystem.defaultConfigs)
    (G := Quiet) (fun _ _ => trivial) 0
    (fun s' h _ => ⟨id, fun client file lock _ => by
      rw [h]
      rfl⟩)
    rfl (fun _ => rfl) ho (by decide +kernel) (by decide +kernel)
  exact ⟨tr, _, h, rfl, rfl⟩

theorem no_mutex_cycle_createA : ∃ tr s, Run (Guarded Quiet Step)
    (start FileSystem.defaultConfigs) tr s ∧ (∃ e, e ∈ s.fs.view.entries) ∧
    ∀ ts, ¬ s.locks.Circular ts := by
  obtain ⟨tr, s, h, -, hfs⟩ := run_createA
  refine ⟨tr, s, h, ?_, no_mutex_cycle h⟩
  rw [hfs]
  exact ⟨⟨4, ⟨[97], []⟩, false, []⟩, by decide +kernel⟩

theorem step_insert_present {fs : FileSystem} {file : FSFile} {entry : Ptr}
    (hp : fs.getValueFromKey (fs.getKey file) = some entry) (client : ℤ) (lock : Bool) :
    ∃ fs', FileSystem.Step fs (.insert client file lock, { res := fsFileAlreadyExists }) fs' := by
  have hpresent : (fs.createEmptyCacheEntry file
      (if lock then client else emptyOwner)).getValueFromKey (fs.getKey file) = some entry := hp
  refine ⟨(fs.createEmptyCacheEntry file
    (if lock then client else emptyOwner)).increaseQueryCount, ?_⟩
  change fs.fsInsert client file lock = _
  unfold FileSystem.fsInsert
  dsimp only
  rw [hpresent]

/-- Whenever an operation of one worker prints while another one logs, the two may wait for each
other. -/
theorem cycle_of_print {i j : ℕ} (hij : i ≠ j) (hi : s.locks.todo (.worker i) = [])
    (hj : s.locks.todo (.worker j) = []) (hlog : s.locks.holder .gLogMutex = none)
    (hfs : s.locks.holder .gFSMutex = none) {op : FsOperation} {fs : FileSystem} {rest : Script}
    (hcall : ∀ locks, locks.todo (.worker j) = [.act (.call op), .release .gFSMutex] →
      Step ⟨s.fs,s.gLockQueue,locks⟩ (.call (.worker j) op)
        ⟨fs, s.gLockQueue, locks.load (.worker j) (.acquire .gLogMutex :: rest)⟩) :
    ∃ tr s', Run Step s tr s' ∧ s'.locks.Circular {.worker i, .worker j} := by
  have hne : ThreadId.worker j ≠ .worker i := fun h => hij (ThreadId.worker.inj h).symm
  have h : Run Step s [] s := .start
  have h := h.next (.begin hi (.logs i))
  have h := h.next (.acquire (Locks.todo_load _ _ _) hlog)
  simp only [load, Locks.load_acquire] at h
  have h := h.next (.begin ((Locks.todo_acquire_of_ne hne).trans hj) (.calls j op))
  have hfs' : (s.locks.acquire (.worker i) .gLogMutex
      (fsGetInfos ++ [.release .gLogMutex])).holder .gFSMutex = none :=
    (Locks.holder_acquire_of_ne (by decide)).trans hfs
  have h := h.next (.acquire (Locks.todo_load _ _ _) hfs')
  simp only [load, Locks.load_acquire] at h
  have h := h.next (hcall _ (Locks.todo_acquire _ _ _ _))
  simp only [Locks.acquire_load] at h
  refine ⟨_, _, h, ⟨by simp, fun t ht => ?_, fun t ht => ?_⟩⟩
  · rcases Finset.mem_insert.mp ht with rfl | ht
    · refine ⟨.gLogMutex, (Locks.holder_acquire_of_ne (by decide)).trans ?_⟩
      exact Locks.holder_acquire _ _ _ _
    · obtain rfl := Finset.mem_singleton.mp ht
      exact ⟨.gFSMutex, Locks.holder_acquire _ _ _ _⟩
  · rcases Finset.mem_insert.mp ht with rfl | ht
    · refine ⟨.gFSMutex, ⟨[.release .gFSMutex, .release .gLogMutex], ?_⟩, .worker j, by simp, hne,
        Locks.holder_acquire _ _ _ _⟩
      exact (Locks.todo_acquire_of_ne hne.symm).trans (Locks.todo_acquire _ _ _ _)
    · obtain rfl := Finset.mem_singleton.mp ht
      refine ⟨.gLogMutex, ⟨_, Locks.todo_acquire _ _ _ _⟩, .worker i, by simp, hne.symm, ?_⟩
      exact (Locks.holder_acquire_of_ne (by decide)).trans (Locks.holder_acquire _ _ _ _)

/-- So it is for a file that is created where one exists, -/
theorem cycle_of_present {i j : ℕ} (hij : i ≠ j) (hi : s.locks.todo (.worker i) = [])
    (hj : s.locks.todo (.worker j) = []) (hlog : s.locks.holder .gLogMutex = none)
    (hfs : s.locks.holder .gFSMutex = none) {file : FSFile} {entry : Ptr}
    (hp : s.fs.getValueFromKey (s.fs.getKey file) = some entry) (client : ℤ) (lock : Bool) :
    ∃ tr s', Run Step s tr s' ∧ s'.locks.Circular {.worker i, .worker j} := by
  obtain ⟨fs, ho⟩ := step_insert_present hp client lock
  have hcall (locks : Locks Mutex ThreadId LockAction)
      (ht : locks.todo (.worker j) = [.act (.call (.insert client file lock)),
        .release .gFSMutex]) :
      Step ⟨s.fs,s.gLockQueue,locks⟩ (.call (.worker j) (.insert client file lock))
        ⟨fs, s.gLockQueue, locks.load (.worker j)
          [.acquire .gLogMutex, .release .gLogMutex, .release .gFSMutex]⟩ :=
    Step.call (s := ⟨s.fs,s.gLockQueue,locks⟩) ht ho .done
  exact cycle_of_print hij hi hj hlog hfs hcall

/-- and for an allocation that fails. -/
theorem cycle_of_failure {i j : ℕ} (hij : i ≠ j) (hi : s.locks.todo (.worker i) = [])
    (hj : s.locks.todo (.worker j) = []) (hlog : s.locks.holder .gLogMutex = none)
    (hfs : s.locks.holder .gFSMutex = none) {op : FsOperation} (hf : s.fs.AllocationFails op) :
    ∃ tr s', Run Step s tr s' ∧ s'.locks.Circular {.worker i, .worker j} :=
  cycle_of_print hij hi hj hlog hfs fun locks ht => .fail (s := ⟨s.fs,s.gLockQueue,locks⟩) ht hf

theorem mutex_cycle : ¬ ∀ (configs : FSConfig) (tr : List LockEvent) (s : LockedServer),
    Run Step (start configs) tr s → ∀ ts, ¬ s.locks.Circular ts := by
  intro hall
  obtain ⟨tr, s, h, hlocks, hfs⟩ := run_createA
  have hp : s.fs.getValueFromKey (s.fs.getKey ⟨[97], []⟩) = some 0 := by
    rw [hfs]
    decide +kernel
  obtain ⟨tr', s', h', hc⟩ := cycle_of_present (i := 0) (j := 1) (by decide) (by rw [hlocks]; rfl)
    (by rw [hlocks]; rfl) (by rw [hlocks]; rfl) (by rw [hlocks]; rfl) hp 5 true
  exact hall _ _ _ ((h.mono fun hs => hs.2).trans h') _ hc

end LockedServer
end StorageServer.Server
