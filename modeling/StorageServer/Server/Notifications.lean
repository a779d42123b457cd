import StorageServer.Server.Locking
import StorageServer.Server.Postponed

/-! The loop that pushes notifications. A worker keeps `gFSMutex` until it has pushed all of them,
and the lock thread, which makes room, needs that mutex after each one to log it. -/
namespace StorageServer.Server
open Common Library.KeyedList Library.Runs Library.Mutexes

namespace Store
variable {s s' : Store} {op : FsOperation} {out : FSOutcome}

/-- The clients waiting for the files that leave when the store is brought within its limits. -/
def leaving (s : Store) : List ℤ :=
  ((s.reclaim true).elim [] Prod.snd).flatMap StoreEntry.waiting

/-- The clients that an operation notifies: who waits for a file that goes away, and who has waited
longest for one that is unlocked. -/
def told (s : Store) : FsOperation → List ℤ
  | .insert client file lock =>
    if (s.find (s.keyOf file.name)).isSome then []
    else ((s.put ⟨if lock then client else emptyOwner, file, false, []⟩).charge file.size 1).leaving
  | .remove client file =>
    (s.find (s.keyOf file.name)).elim [] fun e => if e.owner = client then e.waiting else []
  | .unlock client file =>
    (s.find (s.keyOf file.name)).elim [] fun e =>
      if e.owner = client then e.waiting.head?.toList else []
  | .clean client filenames => (cleanFiles client filenames s).2.map FSLockNotification.fd
  | .modify client file =>
    (s.find (s.keyOf file.name)).elim [] fun e =>
      if e.owner = client ∧ file.size ≤ toSize s.bytesMax then
        ((s.put (e.rewritten file)).charge (file.size - e.file.size) 0).leaving
      else []
  | .append client file =>
    (s.find (s.keyOf file.name)).elim [] fun e =>
      if (e.owner = client ∨ e.owner = emptyOwner) ∧
          file.size + e.file.contentLen ≤ toSize s.bytesMax then
        ((s.put (e.extended file)).charge
          (file.size - (appended e.file file).contentLen) 0).leaving
      else []
  | .obtain .. | .obtainN .. | .trylock .. | .exist .. => []

theorem leaving_eq {gone : List StoreEntry} (h : s.reclaim true = some (s', gone)) :
    s.leaving = gone.flatMap StoreEntry.waiting := by
  simp [leaving, h]

theorem Effect.told_eq (h : s.Effect op out s') :
    out.issued.map FSLockNotification.fd = s.told op := by
  cases h with
  | present he => simp [told, he]
  | listed | obtained | existing | locked | queued | cleaned => rfl
  | @missing op file hf hi he =>
    cases op <;> cases hf
    · exact absurd rfl (hi _ _)
    all_goals simp [told, he]
  | @refused op file e r hf he hr =>
    cases op <;> cases hf
    · exact hr.elim
    · simp [told, he, hr.1]
    · rfl
    · rcases hr with ⟨ho, -⟩ | ⟨-, hb, -⟩
      · simp [told, he, ho]
      · simp [told, he, not_le.mpr hb]
    · rcases hr with ⟨ho, ho', -⟩ | ⟨-, hb, -⟩
      · simp [told, he, ho, ho']
      · simp [told, he, not_le.mpr hb]
    · rfl
    · rfl
    · simp [told, he, hr.1]
  | @unlocked client file e he ho =>
    have htold : s.told (.unlock client file) = e.waiting.head?.toList := by simp [told, he, ho]
    rw [htold]
    simp [granted, Function.comp_def]
  | removed he ho hr => simp [told, he, ho, fd_farewell]
  | inserted he hr => simp [told, he, leaving_eq hr, fd_ejected]
  | modified he ho hb hr =>
    subst ho
    simp [told, he, hb, leaving_eq hr, fd_ejected]
  | appended he ho hb hr => simp [told, he, ho, hb, leaving_eq hr, fd_ejected]

end Store

/-! ### What is left of an operation -/

/-- The notifications that a script still has to push. -/
def pushes (script : Script) : List FSLockNotification :=
  script.filterMap fun
    | .act (.tryPush n) => some n
    | .act (.call _) | .act .tryPop | .act .exit | .acquire _ | .release _ => none

@[simp] theorem pushes_append (script script' : Script) :
    pushes (script ++ script') = pushes script ++ pushes script' := List.filterMap_append

/-- The mutexes that are taken on behalf of a notification. -/
def Mutex.notifies : Mutex → Bool
  | gLockMutex | gLockQueue | waitingLockQueue _ => true
  | gWorkMutex | gLogMutex | gFSMutex | gWorkQueue => false

/-- The rest of an operation while it holds `gFSMutex`, with the notifications that are left and
the other mutexes that are held. -/
inductive Remaining : List Mutex → List FSLockNotification → Script → Prop
  | between {ns script} (h : Notifying ns script) :
    Remaining [] ns (script ++ [.release .gFSMutex])
  | looking {ns script} (key : ℕ) (h : Notifying ns script) :
    Remaining [.waitingLockQueue key] ns
      (.release (.waitingLockQueue key) :: script ++ [.release .gFSMutex])
  | pushing {ns script} (n : FSLockNotification) (h : Notifying ns script) :
    Remaining [.gLockQueue] (n::ns) (.act (.tryPush n) :: .release .gLockQueue ::
      .acquire .gLockMutex :: .release .gLockMutex :: script ++ [.release .gFSMutex])
  | retrying {ns script} (n : FSLockNotification) (h : Notifying ns script) :
    Remaining [.gLockQueue] (n::ns)
      (.release .gLockQueue :: pushNotification n ++ script ++ [.release .gFSMutex])
  | pushed {ns script} (h : Notifying ns script) :
    Remaining [.gLockQueue] ns (.release .gLockQueue :: .acquire .gLockMutex ::
      .release .gLockMutex :: script ++ [.release .gFSMutex])
  | signalling {ns script} (h : Notifying ns script) :
    Remaining [] ns (.acquire .gLockMutex :: .release .gLockMutex :: script ++
      [.release .gFSMutex])
  | signalled {ns script} (h : Notifying ns script) :
    Remaining [.gLockMutex] ns (.release .gLockMutex :: script ++ [.release .gFSMutex])
  | warning {script} (h : Notifying [] script) :
    Remaining [] [] (.acquire .gLogMutex :: .release .gLogMutex :: script ++
      [.release .gFSMutex])
  | warned {script} (h : Notifying [] script) :
    Remaining [.gLogMutex] [] (.release .gLogMutex :: script ++ [.release .gFSMutex])

section Remaining
variable {held : List Mutex} {ns : List FSLockNotification} {script : Script}

theorem Notifying.pushes_eq (h : Notifying ns script) : pushes script = ns := by
  induction h with
  | done => rfl
  | look key h ih => exact ih
  | push n h ih => exact congrArg (n :: ·) ih

theorem Remaining.pushes_eq (h : Remaining held ns script) : pushes script = ns := by
  cases h with
  | between h | looking key h | pushing n h | retrying n h | pushed h | signalling h | signalled h
  | warning h | warned h =>
    simp [pushes, pushNotification, ← h.pushes_eq]

theorem Remaining.ordered (h : Remaining held ns script) :
    Ordered (· ≠ ·) (held ++ [.gFSMutex]) script := by
  have hrest : ∀ {ns script}, Notifying ns script →
      Ordered (· ≠ ·) [Mutex.gFSMutex] (script ++ [.release .gFSMutex]) := by
    intro ns script h
    refine (h.ordered.mono fun m m' hm => ?_).append (fun m hm m' hm' => ?_) ⟨[], rfl, rfl⟩
    · rintro rfl
      exact lt_irrefl _ hm
    · rintro rfl
      obtain rfl := List.mem_singleton.mp hm'
      exact lt_irrefl _ (h.rank_lt hm)
  cases h with
  | between h => exact hrest h
  | looking key h => exact ⟨_, rfl, hrest h⟩
  | pushing n h | pushed h => exact ⟨_, rfl, by simp, _, rfl, hrest h⟩
  | retrying n h => exact ⟨_, rfl, by simp, _, rfl, by simp, _, rfl, hrest h⟩
  | signalling h | warning h => exact ⟨by simp, _, rfl, hrest h⟩
  | signalled h | warned h => exact ⟨_, rfl, hrest h⟩

theorem Remaining.acquire {m : Mutex} {rest : Script}
    (h : Remaining held ns (.acquire m :: rest)) :
    held = [] ∧ Remaining [m] ns rest ∧ (ns ≠ [] → m.notifies = true) := by
  generalize hs : (Instruction.acquire m :: rest : Script) = script at h
  cases h with
  | between h =>
    cases h with
    | done => cases hs
    | look key h =>
      cases hs
      exact ⟨rfl, .looking key h, fun _ => rfl⟩
    | push n h =>
      cases hs
      exact ⟨rfl, .pushing n h, fun _ => rfl⟩
  | signalling h =>
    cases hs
    exact ⟨rfl, .signalled h, fun _ => rfl⟩
  | warning h =>
    cases hs
    exact ⟨rfl, .warned h, fun hne => absurd rfl hne⟩
  | looking | pushing | retrying | pushed | signalled | warned => cases hs

theorem Remaining.release {m : Mutex} {rest : Script}
    (h : Remaining held ns (.release m :: rest)) :
    m = .gFSMutex ∧ ns = [] ∧ rest = [] ∨ held = [m] ∧ Remaining [] ns rest := by
  generalize hs : (Instruction.release m :: rest : Script) = script at h
  cases h with
  | between h =>
    cases h with
    | done =>
      cases hs
      exact Or.inl ⟨rfl, rfl, rfl⟩
    | look | push => cases hs
  | looking key h | signalled h | warned h =>
    cases hs
    exact Or.inr ⟨rfl, .between h⟩
  | retrying n h =>
    cases hs
    exact Or.inr ⟨rfl, .between (.push n h)⟩
  | pushed h =>
    cases hs
    exact Or.inr ⟨rfl, .signalling h⟩
  | pushing | signalling | warning => cases hs

theorem Remaining.act {a : LockAction} {rest : Script}
    (h : Remaining held ns (.act a :: rest)) :
    ∃ n ns' rest', a = .tryPush n ∧ ns = n::ns' ∧ held = [.gLockQueue] ∧
      rest = .release .gLockQueue :: rest' ∧ Remaining [.gLockQueue] ns' rest ∧
      Remaining [.gLockQueue] ns
        (.release .gLockQueue :: .acquire .gLockQueue :: .act a :: rest) := by
  generalize hs : (Instruction.act a :: rest : Script) = script at h
  cases h with
  | between h => cases h <;> cases hs
  | pushing n h =>
    cases hs
    exact ⟨n, _, _, rfl, rfl, rfl, rfl, .pushed h, .retrying n h⟩
  | looking | retrying | pushed | signalling | signalled | warning | warned => cases hs

end Remaining

/-! ### The scripts of the threads -/

/-- An instruction that has nothing to do with notifications. -/
def Outer : Instruction Mutex LockAction → Prop
  | .acquire m | .release m => m.notifies = false
  | .act (.call _) | .act .exit => True
  | .act (.tryPush _) | .act .tryPop => False

/-- A thread other than the lock thread pushes notifications or has nothing to do with them. -/
def Works (script : Script) : Prop :=
  (∀ i ∈ script, Outer i) ∨ ∃ held ns, Remaining held ns script

/-- What the lock thread does after it has taken a notification. -/
def logging : Script := customFormattedLog ++ logIntoFile

/-- The lock thread looks for a notification, has just looked for one, or logs one. -/
inductive Listening : Script → Prop
  | started : Listening (.acquire .gLockMutex :: .acquire .gLockQueue :: .act .tryPop ::
      [.release .gLockQueue, .release .gLockMutex])
  | locked : Listening (.acquire .gLockQueue :: .act .tryPop ::
      [.release .gLockQueue, .release .gLockMutex])
  | looking : Listening (.act .tryPop :: [.release .gLockQueue, .release .gLockMutex])
  | looked {rest} (h : rest <:+ logging) :
    Listening (.release .gLockQueue :: .release .gLockMutex :: rest)
  | unlocked {rest} (h : rest <:+ logging) : Listening (.release .gLockMutex :: rest)
  | logging {rest} (h : rest <:+ logging) : Listening rest

theorem suffix_logging {rest : Script} (h : rest <:+ logging) :
    rest = logging ∨ rest = .release .gLogMutex :: logIntoFile ∨ rest = logIntoFile ∨
      rest = fsGetInfos ++ [.release .gLogMutex] ∨
      rest = [.release .gFSMutex, .release .gLogMutex] ∨ rest = [.release .gLogMutex] ∨
      rest = [] := by
  simpa [logging, customFormattedLog, logIntoFile, fsGetInfos, List.suffix_cons_iff] using h

theorem outer_of_suffix {rest : Script} (h : rest <:+ logging) : ∀ i ∈ rest, Outer i := by
  have hall : ∀ i ∈ logging, Outer i := by
    simp [logging, customFormattedLog, logIntoFile, fsGetInfos, Outer, Mutex.notifies]
  exact fun i hi => hall i (h.subset hi)

theorem pushes_of_outer {script : Script} (h : ∀ i ∈ script, Outer i) : pushes script = [] := by
  rw [pushes, List.filterMap_eq_nil_iff]
  intro i hi
  have ho := h i hi
  match i with
  | .acquire m | .release m | .act (.call _) | .act .exit => rfl
  | .act (.tryPush _) | .act .tryPop => exact ho.elim

theorem Listening.pushes_eq {script : Script} (h : Listening script) : pushes script = [] := by
  cases h with
  | started | locked | looking => rfl
  | looked h | unlocked h | logging h => exact (pushes_of_outer (outer_of_suffix h) :)

theorem Begins.outer {t : ThreadId} {script : Script} (h : Begins t script) (ht : t ≠ .lock) :
    ∀ i ∈ script, Outer i := by
  cases h with
  | prints | pushes | pops | calls | logs =>
    simp [customFormattedLog, pushWork, popWork, fsOperation, logIntoFile, fsGetInfos, Outer,
      Mutex.notifies]
  | notified => exact absurd rfl ht

theorem Listening.tail {i : Instruction Mutex LockAction} {rest : Script}
    (h : Listening (i::rest)) (hi : ∀ a, i ≠ .act a) : Listening rest := by
  cases h with
  | started => exact .locked
  | locked => exact .looking
  | looking => exact absurd rfl (hi _)
  | looked h => exact .unlocked h
  | unlocked h => exact .logging h
  | logging h => exact .logging ((List.suffix_cons i rest).trans h)

theorem Works.acquire {m : Mutex} {rest : Script} (h : Works (.acquire m :: rest)) :
    Works rest := by
  rcases h with h | ⟨held, ns, h⟩
  · exact Or.inl fun i hi => h i (List.mem_cons_of_mem _ hi)
  · exact Or.inr ⟨_, _, h.acquire.2.1⟩

theorem Works.release {m : Mutex} {rest : Script} (h : Works (.release m :: rest)) :
    Works rest := by
  rcases h with h | ⟨held, ns, h⟩
  · exact Or.inl fun i hi => h i (List.mem_cons_of_mem _ hi)
  · rcases h.release with ⟨-, -, rfl⟩ | ⟨-, h⟩
    · exact Or.inl fun i hi => absurd hi List.not_mem_nil
    · exact Or.inr ⟨_, _, h⟩

/-- What is left of an operation right after its call. -/
theorem works_of_call {op : FsOperation} {out : FSOutcome} {script : Script}
    (hn : Notifying out.issued script) (hw : warning op out ≠ [] → out.issued = []) :
    Works (warning op out ++ script ++ [.release .gFSMutex]) := by
  rcases LockedServer.warning_cases op out with h | h
  · rw [h]
    exact Or.inr ⟨_, _, .between hn⟩
  · have hnil := hw (by simp [h, customFormattedLog])
    rw [hnil] at hn
    rw [h]
    exact Or.inr ⟨_, _, .warning hn⟩

theorem Store.Effect.issued_of_warning {s s' : Store} {op : FsOperation} {out : FSOutcome}
    (h : s.Effect op out s') (hw : warning op out ≠ []) : out.issued = [] := by
  cases h with
  | present | missing | refused | listed | obtained | existing | locked | queued => rfl
  | unlocked | removed | modified | appended | cleaned | inserted => exact absurd rfl hw

/-! ### How far a thread has come -/

/-- How far the lock thread is from taking a notification. -/
def toPop : Script → ℕ
  | .act .tryPop :: _ => 1
  | .acquire .gLockQueue :: _ => 2
  | .acquire .gLockMutex :: _ => 3
  | script => 4 + script.length

/-- How far the lock thread is from giving back the mutexes of the notifications. -/
def giveBack : Script → ℕ
  | .acquire .gLockQueue :: _ => 4
  | .act .tryPop :: _ => 3
  | .release .gLockQueue :: _ => 2
  | .release .gLockMutex :: _ => 1
  | _ => 0

theorem toPop_le (script : Script) : toPop script ≤ 4 + script.length := by
  unfold toPop
  split <;> omega

theorem toPop_release (m : Mutex) (rest : Script) :
    toPop rest < toPop (.release m :: rest) := by
  have h := toPop_le rest
  change toPop rest < 4 + (rest.length+1)
  omega

theorem giveBack_le (script : Script) : giveBack script ≤ 4 := by
  unfold giveBack
  split <;> omega

theorem giveBack_logging {rest : Script} (h : rest <:+ logging) : giveBack rest = 0 := by
  rcases suffix_logging h with rfl | rfl | rfl | rfl | rfl | rfl | rfl <;> rfl

theorem Listening.length_le {script : Script} (h : Listening script) : script.length ≤ 8 := by
  have hle : ∀ {rest : Script}, rest <:+ Server.logging → rest.length ≤ 6 := fun h => h.length_le
  cases h with
  | started | locked | looking => simp
  | looked h => exact Nat.add_le_add_right (hle h) 2
  | unlocked h => exact (Nat.add_le_add_right (hle h) 1).trans (by decide)
  | logging h => exact (hle h).trans (by decide)

/-- A push into a full queue is given up and tried again. -/
def givenUp : Script → ℕ
  | .act (.tryPush _) :: _ => 3
  | _ => 0

theorem Remaining.givenUp_eq {ns : List FSLockNotification} {script : Script}
    (hr : Remaining [] ns script) : givenUp script = 0 := by
  unfold givenUp
  split
  · obtain ⟨-, -, -, -, -, hheld, -⟩ := hr.act
    cases hheld
  · rfl

/-! ### Room for the notifications -/

namespace LockedServer
variable {configs : FSConfig} {tr : List LockEvent} {s s' : LockedServer} {e : LockEvent}
  {t : ThreadId} {k : ℕ}

/-- The lock thread takes another notification before it takes `gFSMutex`. -/
def Idle (s : LockedServer) : Prop := .acquire .gFSMutex ∉ s.locks.todo .lock

/-- There is room for so many notifications, at the latest when the lock thread has taken one. -/
def HasSlots (s : LockedServer) (k : ℕ) : Prop :=
  s.gLockQueue.toList.length + k ≤ lockQueueSize ∨
    s.Idle ∧ s.gLockQueue.toList.length + k ≤ lockQueueSize+1

/-- When an operation begins there is room for its notifications. -/
def HasRoom (s : LockedServer) : LockEvent → Prop
  | .call _ op => s.HasSlots (s.fs.view.told op).length
  | .internal _ => True

theorem guarded_internal (h : Step s (.internal t) s') :
    Guarded HasRoom Step s (.internal t) s' := ⟨trivial, h⟩

theorem HasSlots.mono (h : s.HasSlots k) (hi : s.Idle → s'.Idle)
    (hq : s'.gLockQueue.toList.length ≤ s.gLockQueue.toList.length) : s'.HasSlots k := by
  rcases h with h | ⟨hidle, h⟩
  · exact Or.inl ((Nat.add_le_add_right hq k).trans h)
  · exact Or.inr ⟨hi hidle, (Nat.add_le_add_right hq k).trans h⟩

/-- The notifications that are still to be pushed have room. -/
structure Notifies (s : LockedServer) : Prop where
  valid : s.fs.Valid
  disciplined : s.locks.Disciplined (· ≠ ·)
  listens : Listening (s.locks.todo .lock)
  works : ∀ t, t ≠ .lock → Works (s.locks.todo t)
  hasSlots : ∀ t, pushes (s.locks.todo t) ≠ [] → s.HasSlots (pushes (s.locks.todo t)).length

theorem Notifies.remaining (h : s.Notifies) (hp : pushes (s.locks.todo t) ≠ []) :
    t ≠ .lock ∧ ∃ held, Remaining held (pushes (s.locks.todo t)) (s.locks.todo t) := by
  have ht : t ≠ .lock := by
    rintro rfl
    exact hp h.listens.pushes_eq
  rcases h.works t ht with ho | ⟨held, ns, hr⟩
  · exact absurd (pushes_of_outer ho) hp
  · exact ⟨ht, held, hr.pushes_eq ▸ hr⟩

theorem Notifies.holder_iff (h : s.Notifies) {held : List Mutex} {ns : List FSLockNotification}
    (hr : Remaining held ns (s.locks.todo t)) (m : Mutex) :
    s.locks.holder m = some t ↔ m ∈ held ++ [.gFSMutex] :=
  h.disciplined.holder_iff hr.ordered m

/-- Whoever still has notifications to push holds `gFSMutex`. -/
theorem Notifies.holder_gFSMutex (h : s.Notifies) (hp : pushes (s.locks.todo t) ≠ []) :
    s.locks.holder .gFSMutex = some t := by
  obtain ⟨-, held, hr⟩ := h.remaining hp
  exact (h.holder_iff hr _).mpr (by simp)

theorem Notifies.pushes_of_ne (h : s.Notifies) (ht : s.locks.holder .gFSMutex = some t)
    {t' : ThreadId} (hne : t' ≠ t) : pushes (s.locks.todo t') = [] := by
  by_contra hp
  exact hne (Option.some.inj ((h.holder_gFSMutex hp).symm.trans ht))

/-- A step gives one thread another script. -/
theorem Notifies.next (h : s.Notifies) {script : Script} (hv : s'.fs.Valid)
    (hd : s'.locks.Disciplined (· ≠ ·)) (ht : s'.locks.todo = Function.update s.locks.todo t script)
    (hl : t = .lock → Listening script) (hw : t ≠ .lock → Works script)
    (hself : pushes script ≠ [] → s'.HasSlots (pushes script).length)
    (hother : ∀ t', t' ≠ t → pushes (s.locks.todo t') ≠ [] →
      s.HasSlots (pushes (s.locks.todo t')).length →
      s'.HasSlots (pushes (s.locks.todo t')).length) : s'.Notifies := by
  have hto : ∀ t', t' = t ∧ s'.locks.todo t' = script ∨
      t' ≠ t ∧ s'.locks.todo t' = s.locks.todo t' := by
    intro t'
    rw [ht]
    by_cases htt : t' = t
    · subst htt
      exact Or.inl ⟨rfl, Function.update_self _ _ _⟩
    · exact Or.inr ⟨htt, Function.update_of_ne htt _ _⟩
  refine ⟨hv, hd, ?_, fun t' ht' => ?_, fun t' hp => ?_⟩
  · obtain ⟨heq, hs⟩ | ⟨-, hs⟩ := hto .lock
    · rw [hs]
      exact hl heq.symm
    · rw [hs]
      exact h.listens
  · obtain ⟨rfl, hs⟩ | ⟨-, hs⟩ := hto t'
    · rw [hs]
      exact hw ht'
    · rw [hs]
      exact h.works t' ht'
  · obtain ⟨-, hs⟩ | ⟨hne, hs⟩ := hto t'
    · rw [hs] at hp ⊢
      exact hself hp
    · rw [hs] at hp ⊢
      exact hother t' hne hp (h.hasSlots t' hp)

/-- Nobody else keeps the lock thread from taking another notification. -/
theorem Idle.next {script : Script} (h : s.Idle)
    (ht : s'.locks.todo = Function.update s.locks.todo t script)
    (hs : t = .lock → .acquire .gFSMutex ∈ script → .acquire .gFSMutex ∈ s.locks.todo .lock) :
    s'.Idle := by
  unfold Idle
  rw [ht]
  by_cases htl : .lock = t
  · subst htl
    rw [Function.update_self]
    exact fun hm => h (hs rfl hm)
  · rw [Function.update_of_ne htl]
    exact h

/-- A thread goes on with the next instruction, which is not about a notification. -/
theorem Notifies.advance (h : s.Notifies) {i : Instruction Mutex LockAction} {rest : Script}
    (hs : s.locks.todo t = i::rest) (hi : ∀ a, i ≠ .act a) (hf : s'.fs = s.fs)
    (hq : s'.gLockQueue = s.gLockQueue) (hd : s'.locks.Disciplined (· ≠ ·))
    (ht : s'.locks.todo = Function.update s.locks.todo t rest)
    (hw : Works (i::rest) → Works rest) : s'.Notifies := by
  have hmono : ∀ k, s.HasSlots k → s'.HasSlots k := fun k hk =>
    hk.mono (fun hidle => hidle.next ht fun htl hm => by
      subst htl
      rw [hs]
      exact List.mem_cons_of_mem _ hm) (by rw [hq])
  have hpush : pushes (s.locks.todo t) = pushes rest := by
    rw [hs]
    match i with
    | .acquire m | .release m => rfl
    | .act a => exact absurd rfl (hi a)
  refine h.next (hf ▸ h.valid) hd ht (fun htl => ?_) (fun htl => ?_) (fun hp => ?_)
    fun t' _ _ hk => hmono _ hk
  · subst htl
    exact (hs ▸ h.listens).tail hi
  · exact hw (hs ▸ h.works t htl)
  · rw [← hpush] at hp ⊢
    exact hmono _ (h.hasSlots t hp)

theorem Notifies.start : (start configs).Notifies where
  valid := .start configs
  disciplined := Locks.disciplined_unlocked
  listens := .logging (List.nil_suffix)
  works _ _ := Or.inl fun _ hi => absurd hi List.not_mem_nil
  hasSlots _ hp := absurd rfl hp

/-- The lock thread makes no calls. -/
theorem Notifies.ne_lock (h : s.Notifies) {op : FsOperation} {rest : Script}
    (ht : s.locks.todo t = .act (.call op) :: rest) : t ≠ .lock := by
  rintro rfl
  have hl := h.listens
  rw [ht] at hl
  cases hl with
  | logging hl => rcases suffix_logging hl with hl | hl | hl | hl | hl | hl | hl <;> cases hl

theorem idle_popNotification : .acquire .gFSMutex ∉ popNotification := by simp [popNotification]

theorem Notifies.step (h : s.Notifies) (hs : Guarded HasRoom Step s e s') : s'.Notifies := by
  obtain ⟨hroom, hs⟩ := hs
  have hd : s'.locks.Disciplined (· ≠ ·) := by
    refine hs.disciplined (fun m hm => hm rfl) (fun m m' hm => ?_) h.disciplined
      (Or.inr (by decide))
    rintro rfl
    exact lt_irrefl _ hm
  cases hs with
  | @begin t script ht hb =>
    refine h.next h.valid hd rfl (fun htl => ?_) (fun htl => Or.inl (hb.outer htl))
      (fun hp => ?_) fun t' _ _ hk => hk.mono (fun hidle => hidle.next rfl fun htl => ?_) le_rfl
    · subst htl
      cases hb with
      | prints htl => exact absurd rfl htl
      | notified => exact .started
    · cases hb with
      | prints | pushes | pops | calls | logs | notified => exact absurd rfl hp
    · subst htl
      cases hb with
      | prints htl => exact absurd rfl htl
      | notified => exact fun hm => absurd hm idle_popNotification
  | acquire ht hm => exact h.advance ht (by simp) rfl rfl hd rfl Works.acquire
  | release ht => exact h.advance ht (by simp) rfl rfl hd rfl Works.release
  | @call t op out fs script ht ho hn =>
    have heff := ho.effect h.valid.wf
    have hworks := works_of_call hn heff.issued_of_warning
    have htl := h.ne_lock ht
    have htodo : s.locks.todo t = [.act (.call op)] ++ .release .gFSMutex :: [] := ht
    have hheld : s.locks.holder .gFSMutex = some t :=
      h.disciplined.holder_of_release htodo (by simp)
    refine h.next (h.valid.step ho) hd rfl (fun hl => absurd hl htl) (fun _ => hworks)
      (fun _ => ?_) fun t' hne hp _ => absurd (h.pushes_of_ne hheld hne) hp
    have hlen : (pushes (warning op out ++ script ++ [.release .gFSMutex])).length =
        (s.fs.view.told op).length := by
      have hwarn : pushes (warning op out) = [] := by
        rcases warning_cases op out with hw | hw <;> rw [hw] <;> rfl
      rw [pushes_append, pushes_append, hwarn, hn.pushes_eq, ← heff.told_eq, List.length_map]
      simp [pushes]
    rw [hlen]
    exact hroom.mono (fun hidle => hidle.next rfl fun hl => absurd hl htl) le_rfl
  | @fail t op ht hf =>
    have htl := h.ne_lock ht
    refine h.next h.valid hd rfl (fun hl => absurd hl htl) (fun _ => Or.inl ?_)
      (fun hp => absurd rfl hp) fun t' _ _ hk =>
        hk.mono (fun hidle => hidle.next rfl fun hl => absurd hl htl) le_rfl
    simp [customFormattedLog, Outer, Mutex.notifies]
  | @push t n rest queue ht hq =>
    have hp : pushes (s.locks.todo t) = n :: pushes rest := by
      rw [ht]
      rfl
    have hne : pushes (s.locks.todo t) ≠ [] := by simp [hp]
    obtain ⟨htl, held, hr⟩ := h.remaining hne
    rw [ht] at hr
    obtain ⟨_, ns, _, -, -, -, -, hr, -⟩ := hr.act
    refine h.next h.valid hd rfl (fun hl => absurd hl htl) (fun _ => Or.inr ⟨_, _, hr⟩)
      (fun _ => ?_) fun t' hne' hp' _ => absurd (h.pushes_of_ne (h.holder_gFSMutex hne) hne') hp'
    have hlen := congrArg List.length (CircQueue.tryPush_toList hq)
    have hslots := h.hasSlots t hne
    rw [hp, List.length_cons] at hslots
    rw [List.length_append, List.length_singleton] at hlen
    refine hslots.imp (fun hle => ?_) fun hbusy =>
      ⟨hbusy.1.next rfl fun hl => absurd hl htl, ?_⟩
    · change queue.toList.length + _ ≤ _
      omega
    · have hle := hbusy.2
      change queue.toList.length + _ ≤ _
      omega
  | @retry t n rest ht hq =>
    have hp : pushes (s.locks.todo t) = n :: pushes rest := by
      rw [ht]
      rfl
    have hne : pushes (s.locks.todo t) ≠ [] := by simp [hp]
    obtain ⟨htl, held, hr⟩ := h.remaining hne
    rw [ht] at hr
    obtain ⟨_, ns, _, -, -, -, -, -, hr⟩ := hr.act
    have hslots := h.hasSlots t hne
    rw [hp] at hslots
    exact h.next h.valid hd rfl (fun hl => absurd hl htl) (fun _ => Or.inr ⟨_, _, hr⟩)
      (fun _ => hslots.mono (fun hidle => hidle.next rfl fun hl => absurd hl htl) le_rfl)
      fun t' hne' hp' _ => absurd (h.pushes_of_ne (h.holder_gFSMutex hne) hne') hp'
  | @pop n queue failed ht hq =>
    have hlog : (if failed then customFormattedLog else []) ++ logIntoFile <:+ logging := by
      cases failed
      · exact ⟨customFormattedLog, rfl⟩
      · exact List.suffix_rfl
    have hl := Listening.looked hlog
    refine h.next h.valid hd rfl (fun _ => hl) (fun hne => absurd rfl hne)
      (fun hp => absurd hl.pushes_eq hp) fun t' _ _ hk => Or.inl ?_
    have hlen := congrArg List.length (CircQueue.tryPop_toList hq)
    rw [List.length_cons] at hlen
    change queue.toList.length + _ ≤ _
    rcases hk with hk | ⟨-, hk⟩ <;> omega
  | sleep ht hq =>
    have hl : Listening [.release .gLockQueue, .release .gLockMutex] :=
      .looked List.nil_suffix
    exact h.next h.valid hd rfl (fun _ => hl) (fun hne => absurd rfl hne)
      (fun hp => absurd hl.pushes_eq hp) fun t' _ _ hk =>
        hk.mono (fun hidle => hidle.next rfl fun _ hm => absurd hm (by simp)) le_rfl

theorem notifies_of_run (h : Run (Guarded HasRoom Step) (start configs) tr s) : s.Notifies :=
  h.invariant (I := Notifies) .start fun hn hs => hn.step hs

/-! ### Going on until the notifications are pushed -/

/-- Whoever pushes leaves the mutexes of the notifications to the lock thread only. -/
theorem Notifies.free (h : s.Notifies) {ns : List FSLockNotification}
    (hr : Remaining [] ns (s.locks.todo t)) {m : Mutex} (hm : m.notifies = true)
    (hl : s.locks.holder m ≠ some .lock) : s.locks.holder m = none := by
  cases hh : s.locks.holder m with
  | none => rfl
  | some t' =>
    exfalso
    have htl : t' ≠ .lock := by
      rintro rfl
      exact hl hh
    rcases h.works t' htl with ho | ⟨held, ns', hr'⟩
    · have hout : m.notifies = false := ho _ (h.disciplined.release_mem hh)
      exact absurd (hm.symm.trans hout) (by decide)
    · have ht : s.locks.holder .gFSMutex = some t := (h.holder_iff hr _).mpr (by simp)
      have ht' : s.locks.holder .gFSMutex = some t' := (h.holder_iff hr' _).mpr (by simp)
      obtain rfl := Option.some.inj (ht.symm.trans ht')
      obtain rfl : m = .gFSMutex := by simpa using (h.holder_iff hr m).mp hh
      exact absurd hm (by decide)

theorem step_release (ht : t ≠ .lock) {m : Mutex} {rest : Script}
    (hs : s.locks.todo .lock = .release m :: rest) :
    ∃ s', Step s (.internal .lock) s' ∧ s'.locks.todo t = s.locks.todo t ∧
      s'.gLockQueue = s.gLockQueue ∧ s'.locks.todo .lock = rest :=
  ⟨_, .release hs, Locks.todo_release_of_ne ht, rfl, Locks.todo_release _ _ _ _⟩

theorem Notifies.step_acquire (h : s.Notifies) {ns : List FSLockNotification} (ht : t ≠ .lock)
    (hr : Remaining [] ns (s.locks.todo t)) {m : Mutex} {rest : Script} (hm : m.notifies = true)
    (hs : s.locks.todo .lock = .acquire m :: rest) :
    ∃ s', Step s (.internal .lock) s' ∧ s'.locks.todo t = s.locks.todo t ∧
      s'.gLockQueue = s.gLockQueue ∧ s'.locks.todo .lock = rest := by
  have htodo : s.locks.todo .lock = [] ++ .acquire m :: rest := hs
  have hne := h.disciplined.holder_ne (fun m hm => hm rfl) htodo List.not_mem_nil
  exact ⟨_, .acquire hs (h.free hr hm hne), Locks.todo_acquire_of_ne ht, rfl,
    Locks.todo_acquire _ _ _ _⟩

/-- While the queue is not empty the lock thread gets closer to the next notification, unless it
takes `gFSMutex` before. -/
theorem Notifies.step_toPop (h : s.Notifies) {ns : List FSLockNotification} (ht : t ≠ .lock)
    (hr : Remaining [] ns (s.locks.todo t)) (hidle : s.Idle)
    (hq : s.gLockQueue.tryPop ≠ none) :
    ∃ s', Step s (.internal .lock) s' ∧ s'.locks.todo t = s.locks.todo t ∧
      (s'.gLockQueue = s.gLockQueue ∧ toPop (s'.locks.todo .lock) < toPop (s.locks.todo .lock) ∨
        s'.gLockQueue.toList.length < s.gLockQueue.toList.length ∧
          giveBack (s'.locks.todo .lock) = 2) := by
  have hl := h.listens
  generalize hs : s.locks.todo .lock = script at hl
  cases hl with
  | started | locked =>
    obtain ⟨s', hstep, ht', hq', hs'⟩ := h.step_acquire ht hr rfl hs
    exact ⟨s', hstep, ht', Or.inl ⟨hq', by rw [hs']; decide⟩⟩
  | looking =>
    obtain ⟨⟨n, queue⟩, hpop⟩ := Option.ne_none_iff_exists'.mp hq
    refine ⟨_, .pop false hs hpop, Locks.todo_load_of_ne ht, Or.inr ⟨?_, ?_⟩⟩
    · change queue.toList.length < _
      rw [CircQueue.tryPop_toList hpop]
      exact Nat.lt_succ_self _
    · change giveBack ((s.locks.load _ _).todo _) = 2
      rw [Locks.todo_load]
      rfl
  | looked | unlocked =>
    obtain ⟨s', hstep, ht', hq', hs'⟩ := step_release ht hs
    exact ⟨s', hstep, ht', Or.inl ⟨hq', by rw [hs']; exact toPop_release _ _⟩⟩
  | logging hsuffix =>
    rcases suffix_logging hsuffix with rfl | rfl | rfl | rfl | rfl | rfl | rfl
    · exact absurd (hs ▸ by simp [logging, logIntoFile, fsGetInfos]) hidle
    · exact absurd (hs ▸ by simp [logIntoFile, fsGetInfos]) hidle
    · exact absurd (hs ▸ by simp [logIntoFile, fsGetInfos]) hidle
    · exact absurd (hs ▸ by simp [fsGetInfos]) hidle
    · obtain ⟨s', hstep, ht', hq', hs'⟩ := step_release ht hs
      exact ⟨s', hstep, ht', Or.inl ⟨hq', by rw [hs']; exact toPop_release _ _⟩⟩
    · obtain ⟨s', hstep, ht', hq', hs'⟩ := step_release ht hs
      exact ⟨s', hstep, ht', Or.inl ⟨hq', by rw [hs']; exact toPop_release _ _⟩⟩
    · refine ⟨_, .begin hs .notified, Locks.todo_load_of_ne ht, Or.inl ⟨rfl, ?_⟩⟩
      change toPop ((s.locks.load _ _).todo _) < _
      rw [Locks.todo_load]
      decide

/-- The lock thread gives back a mutex that somebody needs to push a notification. -/
theorem Notifies.step_giveBack (h : s.Notifies) {ns : List FSLockNotification} (ht : t ≠ .lock)
    (hr : Remaining [] ns (s.locks.todo t)) {m : Mutex} (hm : m.notifies = true)
    (hh : s.locks.holder m = some .lock) :
    ∃ s', Step s (.internal .lock) s' ∧ s'.locks.todo t = s.locks.todo t ∧
      s'.gLockQueue.toList.length ≤ s.gLockQueue.toList.length ∧
      giveBack (s'.locks.todo .lock) < giveBack (s.locks.todo .lock) := by
  have hirr : ∀ m : Mutex, ¬ m ≠ m := fun m hm => hm rfl
  have hrel := h.disciplined.release_mem hh
  have hl := h.listens
  generalize hs : s.locks.todo .lock = script at hl hrel
  cases hl with
  | started =>
    exfalso
    obtain rfl | rfl : m = .gLockQueue ∨ m = .gLockMutex := by simpa using hrel
    · have htodo : s.locks.todo .lock = [.acquire .gLockMutex] ++ .acquire .gLockQueue :: _ := hs
      exact h.disciplined.holder_ne hirr htodo (by simp) hh
    · have htodo : s.locks.todo .lock = [] ++ .acquire .gLockMutex :: _ := hs
      exact h.disciplined.holder_ne hirr htodo List.not_mem_nil hh
  | locked =>
    obtain ⟨s', hstep, ht', hq', hs'⟩ := h.step_acquire ht hr rfl hs
    exact ⟨s', hstep, ht', by rw [hq'], by rw [hs']; decide⟩
  | looking =>
    cases hpop : s.gLockQueue.tryPop with
    | none =>
      refine ⟨_, .sleep hs hpop, Locks.todo_load_of_ne ht, le_rfl, ?_⟩
      change giveBack ((s.locks.load _ _).todo _) < _
      rw [Locks.todo_load]
      decide
    | some r =>
      obtain ⟨n, queue⟩ := r
      refine ⟨_, .pop false hs hpop, Locks.todo_load_of_ne ht, ?_, ?_⟩
      · change queue.toList.length ≤ _
        rw [CircQueue.tryPop_toList hpop]
        exact Nat.le_succ _
      · change giveBack ((s.locks.load _ _).todo _) < _
        rw [Locks.todo_load]
        decide
  | looked =>
    obtain ⟨s', hstep, ht', hq', hs'⟩ := step_release ht hs
    exact ⟨s', hstep, ht', by rw [hq'], by rw [hs']; exact Nat.one_lt_two⟩
  | unlocked hsuffix =>
    obtain ⟨s', hstep, ht', hq', hs'⟩ := step_release ht hs
    refine ⟨s', hstep, ht', by rw [hq'], ?_⟩
    rw [hs', giveBack_logging hsuffix]
    exact Nat.zero_lt_one
  | logging hsuffix =>
    have hout : m.notifies = false := outer_of_suffix hsuffix _ hrel
    exact absurd (hm.symm.trans hout) (by decide)

/-- How far a thread is from having pushed all notifications. A full queue has to become shorter
before. -/
def distance (t : ThreadId) (s : LockedServer) : ℕ :=
  if s.gLockQueue.toList.length < lockQueueSize then
    32*(s.locks.todo t).length + giveBack (s.locks.todo .lock)
  else
    32*((s.locks.todo t).length + givenUp (s.locks.todo t)) + (5 + toPop (s.locks.todo .lock))

theorem distance_of_lt (hq : s.gLockQueue.toList.length < lockQueueSize) :
    s.distance t = 32*(s.locks.todo t).length + giveBack (s.locks.todo .lock) := if_pos hq

theorem distance_of_le (hq : lockQueueSize ≤ s.gLockQueue.toList.length) :
    s.distance t = 32*((s.locks.todo t).length + givenUp (s.locks.todo t)) +
      (5 + toPop (s.locks.todo .lock)) := if_neg hq.not_gt

/-- What is left for a thread decides, whatever the lock thread does. -/
theorem distance_lt (hl : Listening (s'.locks.todo .lock)) (hg : givenUp (s'.locks.todo t) = 0)
    (hlt : (s'.locks.todo t).length < (s.locks.todo t).length) :
    s'.distance t < s.distance t := by
  have hpop := toPop_le (s'.locks.todo .lock)
  have hback := giveBack_le (s'.locks.todo .lock)
  have hlen := hl.length_le
  unfold distance
  rw [hg]
  split_ifs <;> omega

/-- Some thread may always bring a thread that pushes notifications closer to the end. -/
theorem Notifies.progress (h : s.Notifies) (hp : pushes (s.locks.todo t) ≠ []) :
    ∃ e s', Guarded HasRoom Step s e s' ∧ s'.Notifies ∧ s'.distance t < s.distance t := by
  have hkeep : ∀ {t' s'}, Step s (.internal t') s' → s'.distance t < s.distance t →
      ∃ e s', Guarded HasRoom Step s e s' ∧ s'.Notifies ∧ s'.distance t < s.distance t :=
    fun hs hlt => ⟨_, _, guarded_internal hs, h.step (guarded_internal hs), hlt⟩
  obtain ⟨htl, held, hr⟩ := h.remaining hp
  generalize hns : pushes (s.locks.todo t) = ns at hr hp
  cases hs : s.locks.todo t with
  | nil => exact absurd (hns.symm.trans (congrArg pushes hs)) hp
  | cons i rest =>
    rw [hs] at hr
    cases i with
    | release m =>
      obtain ⟨-, hnil, -⟩ | ⟨-, hr'⟩ := hr.release
      · exact absurd hnil hp
      · have hstep := Step.release hs
        have htodo := Locks.todo_release s.locks t m rest
        refine hkeep hstep (distance_lt (h.step (guarded_internal hstep)).listens ?_ ?_)
        · change givenUp ((s.locks.release t m rest).todo t) = 0
          rw [htodo]
          exact hr'.givenUp_eq
        · change ((s.locks.release t m rest).todo t).length < _
          rw [htodo, hs]
          exact Nat.lt_succ_self _
    | act a =>
      obtain ⟨n, ns', rest', rfl, -, -, rfl, -, -⟩ := hr.act
      cases hq : s.gLockQueue.tryPush n with
      | some queue =>
        have hstep := Step.push hs hq
        have htodo := Locks.todo_load s.locks t (.release .gLockQueue :: rest')
        refine hkeep hstep (distance_lt (h.step (guarded_internal hstep)).listens ?_ ?_)
        · change givenUp ((s.locks.load t _).todo t) = 0
          rw [htodo]
          rfl
        · change ((s.locks.load t _).todo t).length < _
          rw [htodo, hs]
          exact Nat.lt_succ_self _
      | none =>
        have hfull := CircQueue.tryPush_eq_none.mp hq
        have hload : ∀ script, (s.load t script).distance t =
            32*(script.length + givenUp script) + (5 + toPop (s.locks.todo .lock)) := by
          intro script
          have hdist : (s.load t script).distance t = _ := distance_of_le hfull
          rw [hdist]
          simp only [load, Locks.todo_load, Locks.todo_load_of_ne (Ne.symm htl)]
        refine hkeep (Step.retry hs hq) ?_
        rw [distance_of_le hfull, hload, hs]
        simp only [List.length_cons, givenUp]
        omega
    | acquire m =>
      obtain ⟨rfl, hr', hm⟩ := hr.acquire
      have hr0 := hs ▸ hr
      rcases le_or_gt lockQueueSize s.gLockQueue.toList.length with hfull | hlt
      · have hslots := h.hasSlots t (hns ▸ hp)
        have hpos := List.length_pos_of_ne_nil (hns ▸ hp)
        have hidle : s.Idle := by
          rcases hslots with hle | ⟨hidle, -⟩
          · omega
          · exact hidle
        have hpop : s.gLockQueue.tryPop ≠ none := by
          rw [Ne, CircQueue.tryPop_eq_none, ← List.length_eq_zero_iff]
          simp only [lockQueueSize] at hfull
          omega
        obtain ⟨s', hstep, ht', hcase⟩ := h.step_toPop htl hr0 hidle hpop
        refine hkeep hstep ?_
        rcases hcase with ⟨hq, hlt⟩ | ⟨hlt, hback⟩
        · rw [distance_of_le hfull, distance_of_le (hq ▸ hfull), ht']
          omega
        · have hlen := s.gLockQueue.toList_length_le
          rw [distance_of_le hfull, distance_of_lt (hlt.trans_le hlen), ht']
          omega
      · cases hh : s.locks.holder m with
        | none =>
          have htodo := Locks.todo_acquire s.locks t m rest
          have hacq : distance t { s with locks := s.locks.acquire t m rest } = _ :=
            distance_of_lt hlt
          refine hkeep (Step.acquire hs hh) ?_
          rw [distance_of_lt hlt, hacq, htodo, Locks.todo_acquire_of_ne (Ne.symm htl), hs]
          simp only [List.length_cons]
          omega
        | some t' =>
          have hheld : s.locks.holder m = some .lock := by
            by_contra hne
            rw [h.free hr0 (hm hp) hne] at hh
            cases hh
          obtain ⟨s', hstep, ht', hq, hback⟩ := h.step_giveBack htl hr0 (hm hp) hheld
          refine hkeep hstep ?_
          rw [distance_of_lt hlt, distance_of_lt (hq.trans_lt hlt), ht']
          omega

/-- The loops of a thread that pushes notifications may end. -/
theorem Notifies.ends (h : s.Notifies) (t : ThreadId) :
    ∃ tr s', Run (Guarded HasRoom Step) s tr s' ∧ pushes (s'.locks.todo t) = [] := by
  obtain ⟨tr, s', hr, -, hp⟩ := exists_run_of_measure (distance t) h
    (G := fun s => pushes (s.locks.todo t) = []) fun s hs hp => hs.progress hp
  exact ⟨tr, s', hr, hp⟩

/-- A thread finds the queue full when it pushes a notification. -/
def Spins (s : LockedServer) (t : ThreadId) : Prop :=
  ∃ n rest, s.locks.todo t = .act (.tryPush n) :: rest ∧ s.gLockQueue.tryPush n = none

theorem Notifies.not_awaits (h : s.Notifies) (hs : s.Spins t) :
    ¬ s.locks.Awaits .lock .gFSMutex := by
  obtain ⟨n, rest, ht, hq⟩ := hs
  rintro ⟨rest', hl⟩
  have hp : pushes (s.locks.todo t) = n :: pushes rest := by
    rw [ht]
    rfl
  have hslots := h.hasSlots t (by simp [hp])
  have hfull := CircQueue.tryPush_eq_none.mp hq
  rcases hslots with hle | ⟨hidle, -⟩
  · rw [hp, List.length_cons] at hle
    omega
  · exact hidle (hl ▸ List.mem_cons_self)

/-! ### Calls one after another -/

/-- Several operations after one another and what they notify. Nothing is created twice. -/
def applyAll : List FsOperation → Store → Option (Store × List FSLockNotification)
  | [], s => some (s, [])
  | op::ops, s => (s.apply op).bind fun r =>
    if r.2.res = fsFileAlreadyExists then none
    else (applyAll ops r.1).map fun x => (x.1, r.2.issued ++ x.2)

theorem warning_of_ne {op : FsOperation} {out : FSOutcome} (h : out.res ≠ fsFileAlreadyExists) :
    warning op out = [] := by
  cases op with
  | insert => exact if_neg h
  | remove | obtain | obtainN | modify | append | trylock | exist | unlock | clean => rfl

/-- One worker makes several calls. -/
theorem run_applyAll {ops : List FsOperation} {st : Store} {ns : List FSLockNotification}
    (hv : s.fs.Valid) (ht : s.locks.todo (.worker 0) = []) (hfree : ∀ m, s.locks.holder m = none)
    (h : applyAll ops s.fs.view = some (st, ns))
    (hroom : s.gLockQueue.toList.length + ns.length ≤ lockQueueSize) :
    ∃ tr s', Run (Guarded HasRoom Step) s tr s' ∧ s'.locks = s.locks ∧ s'.fs.Valid ∧
      s'.fs.view = st ∧ s'.gLockQueue.toList = s.gLockQueue.toList ++ ns := by
  induction ops generalizing s ns with
  | nil =>
    cases h
    exact ⟨[], s, .start, rfl, hv, rfl, (List.append_nil _).symm⟩
  | cons op ops ih =>
    obtain ⟨⟨st₁, out⟩, ho, h⟩ := Option.bind_eq_some_iff.mp h
    dsimp only at h
    split_ifs at h with hres
    obtain ⟨⟨st₂, ns'⟩, hrest, heq⟩ := Option.map_eq_some_iff.mp h
    cases heq
    obtain ⟨fs, hstep, rfl⟩ := FileSystem.step_of_view hv ho
    rw [List.length_append, ← Nat.add_assoc] at hroom
    have hfirst : s.gLockQueue.toList.length + out.issued.length ≤ lockQueueSize :=
      (Nat.le_add_right _ _).trans hroom
    have hcall : ∀ s' : LockedServer, s'.fs = s.fs → s'.gLockQueue = s.gLockQueue →
        s'.HasRoom (.call (.worker 0) op) := by
      intro s' hf hq
      change s'.HasSlots (s'.fs.view.told op).length
      rw [hf, ← (hstep.effect hv.wf).told_eq, List.length_map]
      exact Or.inl (hq ▸ hfirst)
    obtain ⟨tr, queue, hr, hq⟩ := run_fsOperation (G := HasRoom) (fun _ _ => trivial) 0 hcall ht
      hfree hstep (warning_of_ne hres) hfirst
    obtain ⟨tr', s', hr', hl, hv', hst, hq'⟩ := @ih { s with fs := fs, gLockQueue := queue } ns'
      (hv.step hstep) ht hfree hrest (by
        change queue.toList.length + ns'.length ≤ _
        rwa [hq, List.length_append])
    refine ⟨_, s', hr.trans hr', hl, hv', hst, ?_⟩
    rw [hq', hq, List.append_assoc]

/-- As long as every operation finds room for its notifications, the loop that pushes them may
always end, and it never waits for a lock thread that waits for `gFSMutex`. -/
theorem notifications_end (h : Run (Guarded HasRoom Step) (start configs) tr s) (t : ThreadId) :
    (∃ tr' s', Run Step s tr' s' ∧ pushes (s'.locks.todo t) = []) ∧
      (s.Spins t → ¬ s.locks.Awaits .lock .gFSMutex) := by
  have hn := notifies_of_run h
  refine ⟨?_, hn.not_awaits⟩
  obtain ⟨tr', s', hr, hp⟩ := hn.ends t
  exact ⟨tr', s', hr.mono fun hs => hs.2, hp⟩

/-- Client 5 waits for the file `a` when client 4 removes it. -/
theorem notifications_end_removeA : ∃ tr s,
    Run (Guarded HasRoom Step) (start FileSystem.defaultConfigs) tr s ∧
      pushes (s.locks.todo (.worker 0)) = [⟨5, fsFileNotExists⟩] ∧
      (∃ tr' s', Run Step s tr' s' ∧ pushes (s'.locks.todo (.worker 0)) = []) ∧
      (s.Spins (.worker 0) → ¬ s.locks.Awaits .lock .gFSMutex) := by
  have hissued : ((applyAll [FileSystem.createA, .trylock 5 ⟨[97], []⟩]
      (FileSystem.initializeFileSystem FileSystem.defaultConfigs).view).bind fun r =>
        (r.1.apply (.remove 4 ⟨[97], []⟩)).map fun r' => (r.2, r'.2.issued)) =
          some ([], [⟨5, fsFileNotExists⟩]) := by decide +kernel
  obtain ⟨⟨st, ns⟩, happly, hlast⟩ := Option.bind_eq_some_iff.mp hissued
  obtain ⟨⟨st', out⟩, hremove, heq⟩ := Option.map_eq_some_iff.mp hlast
  obtain ⟨rfl, hout⟩ : ns = [] ∧ out.issued = [⟨5, fsFileNotExists⟩] := Prod.mk.inj heq
  obtain ⟨tr, s, hr, hlocks, hv, rfl, hq⟩ := run_applyAll (.start _) rfl (fun _ => rfl) happly
    (s := start FileSystem.defaultConfigs) (by decide)
  obtain ⟨fs, ho, -⟩ := FileSystem.step_of_view hv hremove
  have htold := congrArg List.length (ho.effect hv.wf).told_eq
  have hroom : ∀ locks, HasRoom ⟨s.fs, s.gLockQueue, locks⟩
      (.call (.worker 0) (.remove 4 ⟨[97], []⟩)) := fun _ => Or.inl (by
    rw [← htold, hq, hout]
    decide)
  have hr := hr.next (guarded_internal (.begin (by rw [hlocks]; rfl)
    (.calls 0 (.remove 4 ⟨[97], []⟩))))
  have hr := hr.next (guarded_internal (.acquire (Locks.todo_load _ _ _) (by
    change s.locks.holder _ = none
    rw [hlocks]
    rfl)))
  have hr := hr.next ⟨hroom _, .call (Locks.todo_acquire _ _ _ _) ho (notifying_pushes _)⟩
  refine ⟨_, _, hr, ?_, notifications_end hr _⟩
  change pushes ((Locks.load _ _ _).todo _) = _
  rw [Locks.todo_load, hout]
  rfl

/-! ### A full queue -/

/-- The lock thread takes a notification and `gLogMutex`, and then needs `gFSMutex`. -/
theorem run_pop (hl : s.locks.todo .lock = []) (hfree : ∀ m, s.locks.holder m = none)
    {n : FSLockNotification} {queue : CircQueue FSLockNotification lockQueueSize}
    (hq : s.gLockQueue.tryPop = some (n, queue)) :
    ∃ tr, Run Step s tr ⟨s.fs, queue,
      s.locks.acquire .lock .gLogMutex (fsGetInfos ++ [.release .gLogMutex])⟩ := by
  have hqueue : ∀ rest, (s.locks.acquire .lock .gLockMutex rest).holder .gLockQueue = none :=
    fun rest => (Locks.holder_acquire_of_ne (by decide)).trans (hfree _)
  have h : Run Step s [] s := .start
  have h := h.next (.begin hl .notified)
  have h := h.next (.acquire (Locks.todo_load _ _ _) (hfree _))
  simp only [load, Locks.load_acquire] at h
  have h := h.next (.acquire (Locks.todo_acquire _ _ _ _) (hqueue _))
  have h := h.next (.pop false (Locks.todo_acquire _ _ _ _) hq)
  have h := h.next (.release (Locks.todo_load _ _ _))
  simp only [load, Locks.acquire_load, Locks.acquire_release (hqueue _)] at h
  have h := h.next (.release (Locks.todo_acquire _ _ _ _))
  simp only [Locks.acquire_release (hfree _)] at h
  have h := h.next (.acquire (Locks.todo_load _ _ _) (hfree _))
  simp only [Locks.load_acquire] at h
  exact ⟨_, h⟩

/-- Whenever the queue is full, a worker that notifies two clients and the lock thread may wait for
each other. -/
theorem spins_of_full {id : ℕ} (ht : s.locks.todo (.worker id) = [])
    (hl : s.locks.todo .lock = []) (hfree : ∀ m, s.locks.holder m = none)
    (hfull : lockQueueSize ≤ s.gLockQueue.toList.length) {op : FsOperation} {out : FSOutcome}
    {fs : FileSystem} (ho : FileSystem.Step s.fs (op,out) fs) (hw : warning op out = [])
    {n n' : FSLockNotification} {ns : List FSLockNotification} (hn : out.issued = n::n'::ns) :
    ∃ tr s', Run Step s tr s' ∧ s'.Spins (.worker id) ∧ s'.locks.Awaits .lock .gFSMutex := by
  have hpop : s.gLockQueue.tryPop ≠ none := by
    rw [Ne, CircQueue.tryPop_eq_none, ← List.length_eq_zero_iff]
    simp only [lockQueueSize] at hfull
    omega
  obtain ⟨⟨first, queue⟩, hq⟩ := Option.ne_none_iff_exists'.mp hpop
  have hlen := congrArg List.length (CircQueue.tryPop_toList hq)
  rw [List.length_cons] at hlen
  have hle := s.gLockQueue.toList_length_le
  obtain ⟨queue', hq'⟩ := Option.ne_none_iff_exists'.mp (fun hnone : queue.tryPush n = none => by
    have := CircQueue.tryPush_eq_none.mp hnone
    omega)
  have hlen' := congrArg List.length (CircQueue.tryPush_toList hq')
  rw [List.length_append, List.length_singleton] at hlen'
  obtain ⟨tr, h⟩ := run_pop hl hfree hq
  generalize hlocks : s.locks.acquire .lock .gLogMutex (fsGetInfos ++ [.release .gLogMutex]) =
    locks at h
  have ht' : locks.todo (.worker id) = [] := by
    rw [← hlocks, Locks.todo_acquire_of_ne (by simp)]
    exact ht
  have hl' : locks.todo .lock = fsGetInfos ++ [.release .gLogMutex] := by
    rw [← hlocks, Locks.todo_acquire]
  have hfree' : ∀ m, m ≠ .gLogMutex → locks.holder m = none := fun m hm => by
    rw [← hlocks, Locks.holder_acquire_of_ne hm, hfree]
  have hinner : ∀ rest m, m ≠ .gLogMutex → m ≠ .gFSMutex →
      (locks.acquire (.worker id) .gFSMutex rest).holder m = none := fun rest m hm hm' => by
    rw [Locks.holder_acquire_of_ne hm', hfree' m hm]
  -- The worker pushes the first notification and fills the queue again.
  have h := h.next (.begin ht' (.calls id op))
  have h := h.next (.acquire (Locks.todo_load _ _ _) (hfree' _ (by decide)))
  simp only [load, Locks.load_acquire] at h
  have h := h.next (.call (Locks.todo_acquire _ _ _ _) ho (notifying_pushes _))
  simp only [load, Locks.acquire_load, hw, hn, List.nil_append, List.flatMap_cons,
    List.append_assoc] at h
  obtain ⟨tr', h'⟩ := run_push (G := fun _ _ => True)
    (s := ⟨fs, queue, locks.acquire (.worker id) .gFSMutex _⟩) (fun _ _ => trivial)
    (Locks.todo_acquire _ _ _ _) (hinner _ .gLockQueue (by decide) (by decide))
    (hinner _ .gLockMutex (by decide) (by decide)) hq'
  have h := h.trans (h'.mono fun hs => hs.2)
  simp only [load, Locks.acquire_load] at h
  have h := h.next (.acquire (Locks.todo_acquire _ _ _ _)
    (hinner _ .gLockQueue (by decide) (by decide)))
  refine ⟨_, _, h, ⟨n', _, Locks.todo_acquire _ _ _ _, ?_⟩, ⟨[.release .gFSMutex,
    .release .gLogMutex], ?_⟩⟩
  · rw [CircQueue.tryPush_eq_none]
    change lockQueueSize ≤ queue'.toList.length
    omega
  · refine (Locks.todo_acquire_of_ne (by simp)).trans
      ((Locks.todo_acquire_of_ne (by simp)).trans ?_)
    exact hl'

/-- Client 4 creates nine files, 32 clients wait for each of them and eight are removed. -/
def crowd : List FsOperation :=
  (List.range 9).map (fun i => .insert 4 ⟨[UInt8.ofNat i], []⟩ true) ++
    (List.range 288).map (fun i => .trylock (10+i) ⟨[UInt8.ofNat (i/32)], []⟩) ++
    (List.range 8).map (fun i => .remove 4 ⟨[UInt8.ofNat i], []⟩)

/-- Client 4 removes the last one. -/
def removeLast : FsOperation := .remove 4 ⟨[8], []⟩

theorem crowd_issued : ((applyAll crowd
    (FileSystem.initializeFileSystem FileSystem.defaultConfigs).view).map fun r =>
      (r.2.length, ((r.1.apply removeLast).map fun r => r.2.issued.length))) =
        some (256, some 32) := by decide +kernel

theorem gLockQueue_spins : ¬ ∀ (configs : FSConfig) (tr : List LockEvent) (s : LockedServer),
    Run Step (start configs) tr s → ∀ t,
      (∃ tr' s', Run Step s tr' s' ∧ pushes (s'.locks.todo t) = []) ∧
        (s.Spins t → ¬ s.locks.Awaits .lock .gFSMutex) := by
  intro hall
  obtain ⟨⟨st, ns⟩, hcrowd, hlen⟩ := Option.map_eq_some_iff.mp crowd_issued
  obtain ⟨hns, hlast⟩ : ns.length = 256 ∧ (st.apply removeLast).map _ = some 32 :=
    Prod.mk.inj hlen
  obtain ⟨⟨st', out⟩, hremove, hissued⟩ := Option.map_eq_some_iff.mp hlast
  obtain ⟨tr, s, hr, hlocks, hv, rfl, hq⟩ := run_applyAll (.start _) rfl (fun _ => rfl) hcrowd
    (s := start FileSystem.defaultConfigs) (by
      change 0 + ns.length ≤ 256
      omega)
  obtain ⟨fs, ho, -⟩ := FileSystem.step_of_view hv hremove
  obtain ⟨n, n', rest, hout⟩ : ∃ n n' rest, out.issued = n::n'::rest := by
    match hi : out.issued with
    | n::n'::rest => exact ⟨n, n', rest, rfl⟩
    | [_] | [] => simp [hi] at hissued
  have hfull : lockQueueSize ≤ s.gLockQueue.toList.length := by
    rw [hq]
    change 256 ≤ ns.length
    omega
  obtain ⟨tr', s', hr', hspins, hawaits⟩ := spins_of_full (by rw [hlocks]; rfl)
    (by rw [hlocks]; rfl) (fun m => by rw [hlocks]; rfl) hfull ho rfl hout
  exact (hall _ _ _ ((hr.mono fun hs => hs.2).trans hr') (.worker 0)).2 hspins hawaits

end LockedServer
end StorageServer.Server
