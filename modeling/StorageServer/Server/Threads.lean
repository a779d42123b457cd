import StorageServer.Server.Requests
import Mathlib.Data.Finset.Basic

/-! The threads of the server. The main thread accepts clients, the select thread watches the
idle ones, the workers serve requests and the lock thread delivers notifications. A descriptor
travels between them through a pipe, two ring buffers and the queues of the files. Without
shutdown the signals and the counter of the connected clients play no role, and the read end of
the pipe stays open, so that the workers and the lock thread, which do not look at the result,
can always write to it. All descriptors are taken to be below `FD_SETSIZE`, so that `fd_set` has
room for them. -/
namespace StorageServer.Server
open Common Library.Calls Library.Runs

abbrev ringBufferSize : ℕ := 64
abbrev lockQueueSize : ℕ := 256

theorem lockQueueSize_pos : 0 < lockQueueSize := by decide

instance : Inhabited FSLockNotification := ⟨⟨0, 0⟩⟩

/-- A pair of a message type and a descriptor, written to the pipe in one piece. -/
inductive PipeMessage
  | newConnection (value : ℤ)
  | setConnection (value : ℤ)
  | remConnection (value : ℤ)

def PipeMessage.value : PipeMessage → ℤ
  | newConnection value | setConnection value | remConnection value => value

/-! ### Workers -/

/-- How a worker ends its work on a descriptor. -/
inductive Ending
  | respond (response : SockMessage)
  | forget
  | remove

/-- A lock request that is answered later by the lock thread. -/
def LockPostponed (msg response : SockMessage) : Prop :=
  (msg.type = .reqLockFile ∨ msg.type = .reqOpenFile ∧ msg.request.flags = flagLock) ∧
    response.type = .none

instance (msg response : SockMessage) : Decidable (LockPostponed msg response) :=
  inferInstanceAs (Decidable ((_ ∨ _ ∧ _) ∧ _))

/-- Work on a request that has been read. -/
def serve (client : Client) (msg : SockMessage) (rand : ℕ → ℕ) : Handler Ending := do
  let response ← handleWork client msg rand
  if LockPostponed msg response then return .forget
  return .respond response

/-- Work on a connection at whose end of file a worker has arrived. -/
def disconnect (client : Client) : Handler Ending := do
  closeSession client
  return .remove

/-- A worker waits for work, reads from a descriptor, works on behalf of its client (`asked` tells
whether it has read a request) or is about to give the descriptor back. -/
inductive WorkerState
  | idle
  | reading (fd : ℤ)
  | working (client : Client) (asked : Bool) (rest : Handler Ending)
  | returning (fd : ℤ)

/-- A worker with the notifications that it still has to push, while it holds the mutex of the
file system. -/
structure Worker where
  state : WorkerState
  pending : List FSLockNotification

/-! ### The other threads -/

/-- The select thread copies the set, has got the ready descriptors `fdsCpy`, scans them up to
`gMaxFd`, or has taken `fd` out of the set to push it. -/
inductive SelectState
  | copying
  | selected (fdsCpy : Finset ℤ)
  | scanning (fdsCpy : Finset ℤ) (fd newMaxFd : ℤ)
  | pushing (fdsCpy : Finset ℤ) (fd newMaxFd : ℤ)

inductive LockState
  | idle
  | answering (notification : FSLockNotification)
  | returning (fd : ℤ)

inductive ThreadId
  | main
  | select
  | lock
  | worker (id : ℕ)
  deriving DecidableEq

/-- What a thread does to a client: it reads a request or finds the connection ended or broken,
writes a response, or makes a call on the client's behalf. -/
inductive Action
  | internal
  | request (fd : ℤ) (msg : SockMessage)
  | disconnection (fd : ℤ)
  | response (fd : ℤ)
  | call (fd : ℤ)
  deriving DecidableEq

/-- The client that an action reads from, writes to or works for. -/
def Action.fd : Action → Option ℤ
  | internal => none
  | request fd _ | disconnection fd | response fd | call fd => some fd

/-- The client whose request an action reads. -/
def Action.asks : Action → Option ℤ
  | request fd _ => some fd
  | internal | disconnection _ | response _ | call _ => none

/-- The client to whom an action writes a response. -/
def Action.answers : Action → Option ℤ
  | response fd => some fd
  | internal | request .. | disconnection _ | call _ => none

structure ThreadEvent where
  thread : ThreadId
  action : Action
  deriving DecidableEq

/-- The clients whose requests have been read, in order. -/
def requests (tr : List ThreadEvent) : List ℤ := tr.filterMap (fun e => e.action.asks)

def responses (tr : List ThreadEvent) : List ℤ := tr.filterMap (fun e => e.action.answers)

/-- The shared memory and the threads. `opened` are the descriptors of the connected clients,
`pipeFd` is the read end of the pipe. -/
structure Threads where
  pipeFd : ℤ
  opened : Finset ℤ
  pipe : List PipeMessage
  gFdSet : Finset ℤ
  gMaxFd : ℤ
  gWorkQueue : CircQueue ℤ ringBufferSize
  gLockQueue : CircQueue FSLockNotification lockQueueSize
  fs : FileSystem
  gSessionTable : SessionTable
  main : Option ℤ
  select : SelectState
  workers : List Worker
  lock : LockState

namespace Threads

def initializeServer (configs : FSConfig) (pipeFd : ℤ) (numWorkers : ℕ) : Threads where
  pipeFd := pipeFd
  opened := ∅
  pipe := []
  gFdSet := {pipeFd}
  gMaxFd := pipeFd
  gWorkQueue := CircQueue.createQueue ringBufferSize (by decide)
  gLockQueue := CircQueue.createQueue lockQueueSize lockQueueSize_pos
  fs := .initializeFileSystem configs
  gSessionTable := .initSessionSystem
  main := none
  select := .copying
  workers := List.replicate numWorkers ⟨.idle, []⟩
  lock := .idle

def send (σ : Threads) (message : PipeMessage) : Threads :=
  { σ with pipe := σ.pipe ++ [message] }

def close (σ : Threads) (fd : ℤ) : Threads := { σ with opened := σ.opened.erase fd }

/-- The select thread handles a message. -/
def receive (σ : Threads) : PipeMessage → Threads
  | .newConnection value | .setConnection value =>
    { σ with gFdSet := insert value σ.gFdSet, gMaxFd := max σ.gMaxFd value }
  | .remConnection value => σ.close value

/-- One step of one thread. A worker is split off the list of the workers. -/
inductive Step : Threads → ThreadEvent → Threads → Prop
  /-- A new descriptor is not in use; 0 belongs to the log file or the standard input. -/
  | accept {σ} {client : Client} (hm : σ.main = none) (hopen : (client : ℤ) ∉ σ.opened)
      (hpipe : (client : ℤ) ≠ σ.pipeFd) (h0 : (client : ℤ) ≠ 0) :
    Step σ ⟨.main, .internal⟩
      { σ with main := some client, opened := insert (client : ℤ) σ.opened }
  | announce {σ fd} (hm : σ.main = some fd) :
    Step σ ⟨.main, .internal⟩ { σ.send (.newConnection fd) with main := none }
  /-- Writing to the pipe fails. -/
  | reject {σ fd} (hm : σ.main = some fd) :
    Step σ ⟨.main, .internal⟩ { σ.close fd with main := none }
  | select {σ fdsCpy} (hs : σ.select = .copying) (hset : fdsCpy ⊆ σ.gFdSet)
      (hmax : ∀ fd ∈ fdsCpy, fd ≤ σ.gMaxFd) :
    Step σ ⟨.select, .internal⟩ { σ with select := .selected fdsCpy }
  | noMessage {σ fdsCpy} (hs : σ.select = .selected fdsCpy) (hp : σ.pipeFd ∉ fdsCpy) :
    Step σ ⟨.select, .internal⟩ { σ with select := .scanning fdsCpy 0 0 }
  | message {σ fdsCpy message messages} (hs : σ.select = .selected fdsCpy)
      (hp : σ.pipeFd ∈ fdsCpy) (hm : σ.pipe = message :: messages) :
    Step σ ⟨.select, .internal⟩
      { σ.receive message with pipe := messages, select := .scanning fdsCpy 0 0 }
  | notReady {σ fdsCpy fd newMaxFd} (hs : σ.select = .scanning fdsCpy fd newMaxFd)
      (hle : fd ≤ σ.gMaxFd) (hfd : fd ∉ fdsCpy) :
    Step σ ⟨.select, .internal⟩ { σ with select := .scanning fdsCpy (fd + 1) fd }
  | skipPipe {σ fdsCpy fd newMaxFd} (hs : σ.select = .scanning fdsCpy fd newMaxFd)
      (hle : fd ≤ σ.gMaxFd) (hfd : fd ∈ fdsCpy) (hpipe : fd = σ.pipeFd) :
    Step σ ⟨.select, .internal⟩ { σ with select := .scanning fdsCpy (fd + 1) newMaxFd }
  | clear {σ fdsCpy fd newMaxFd} (hs : σ.select = .scanning fdsCpy fd newMaxFd)
      (hle : fd ≤ σ.gMaxFd) (hfd : fd ∈ fdsCpy) (hpipe : fd ≠ σ.pipeFd) :
    Step σ ⟨.select, .internal⟩
      { σ with gFdSet := σ.gFdSet.erase fd, select := .pushing fdsCpy fd newMaxFd }
  | push {σ fdsCpy fd newMaxFd queue} (hs : σ.select = .pushing fdsCpy fd newMaxFd)
      (hq : σ.gWorkQueue.tryPush fd = some queue) :
    Step σ ⟨.select, .internal⟩
      { σ with gWorkQueue := queue, select := .scanning fdsCpy (fd + 1) newMaxFd }
  /-- The work queue is full and the client is disconnected. -/
  | overflow {σ fdsCpy fd newMaxFd} (hs : σ.select = .pushing fdsCpy fd newMaxFd)
      (hq : σ.gWorkQueue.tryPush fd = none) :
    Step σ ⟨.select, .internal⟩
      { σ.close fd with select := .scanning fdsCpy (fd + 1) newMaxFd }
  | scanned {σ fdsCpy fd newMaxFd} (hs : σ.select = .scanning fdsCpy fd newMaxFd)
      (hgt : σ.gMaxFd < fd) :
    Step σ ⟨.select, .internal⟩ { σ with gMaxFd := newMaxFd, select := .copying }
  | take {σ l r fd queue} (hw : σ.workers = l ++ ⟨.idle, []⟩ :: r)
      (hq : σ.gWorkQueue.tryPop = some (fd, queue)) :
    Step σ ⟨.worker l.length, .internal⟩
      { σ with gWorkQueue := queue, workers := l ++ ⟨.reading fd, []⟩ :: r }
  | request {σ l r fd msg rand} {client : Client} (hw : σ.workers = l ++ ⟨.reading fd, []⟩ :: r)
      (hc : (client : ℤ) = fd) :
    Step σ ⟨.worker l.length, .request fd msg⟩
      { σ with workers := l ++ ⟨.working client true (serve client msg rand), []⟩ :: r }
  | endOfFile {σ l r fd} {client : Client} (hw : σ.workers = l ++ ⟨.reading fd, []⟩ :: r)
      (hc : (client : ℤ) = fd) :
    Step σ ⟨.worker l.length, .disconnection fd⟩
      { σ with workers := l ++ ⟨.working client false (disconnect client), []⟩ :: r }
  | readError {σ l r fd} {client : Client} (hw : σ.workers = l ++ ⟨.reading fd, []⟩ :: r)
      (hc : (client : ℤ) = fd) :
    Step σ ⟨.worker l.length, .disconnection fd⟩
      { σ with workers := l ++ ⟨.working client false (.ret .remove), []⟩ :: r }
  | sessionCall {σ l r asked op next} {client : Client}
      (hw : σ.workers = l ++ ⟨.working client asked (.call (.session op) next), []⟩ :: r) :
    Step σ ⟨.worker l.length, .call client⟩
      { σ with
        gSessionTable := (σ.gSessionTable.apply op).1
        workers := l ++ ⟨.working client asked (next (σ.gSessionTable.apply op).2), []⟩ :: r }
  /-- The mutex of the file system is free, and kept until the notifications are pushed. -/
  | fsCall {σ l r asked op next fs out} {client : Client}
      (hw : σ.workers = l ++ ⟨.working client asked (.call (.fs op) next), []⟩ :: r)
      (hmutex : ∀ w ∈ σ.workers, w.pending = []) (ho : FileSystem.Step σ.fs (op,out) fs) :
    Step σ ⟨.worker l.length, .call client⟩
      { σ with fs := fs, workers := l ++ ⟨.working client asked (next out), out.issued⟩ :: r }
  | notify {σ l r state n ns queue} (hw : σ.workers = l ++ ⟨state, n::ns⟩ :: r)
      (hq : σ.gLockQueue.tryPush n = some queue) :
    Step σ ⟨.worker l.length, .internal⟩
      { σ with gLockQueue := queue, workers := l ++ ⟨state, ns⟩ :: r }
  | respond {σ l r asked response} {client : Client}
      (hw : σ.workers = l ++ ⟨.working client asked (.ret (.respond response)), []⟩ :: r) :
    Step σ ⟨.worker l.length, .response client⟩
      { σ with workers := l ++ ⟨.returning client, []⟩ :: r }
  | forget {σ l r asked} {client : Client}
      (hw : σ.workers = l ++ ⟨.working client asked (.ret .forget), []⟩ :: r) :
    Step σ ⟨.worker l.length, .internal⟩ { σ with workers := l ++ ⟨.idle, []⟩ :: r }
  | giveBack {σ l r fd} (hw : σ.workers = l ++ ⟨.returning fd, []⟩ :: r) :
    Step σ ⟨.worker l.length, .internal⟩
      { σ.send (.setConnection fd) with workers := l ++ ⟨.idle, []⟩ :: r }
  | remove {σ l r asked} {client : Client}
      (hw : σ.workers = l ++ ⟨.working client asked (.ret .remove), []⟩ :: r) :
    Step σ ⟨.worker l.length, .internal⟩
      { σ.send (.remConnection client) with workers := l ++ ⟨.idle, []⟩ :: r }
  | takeNotification {σ n queue} (hl : σ.lock = .idle)
      (hq : σ.gLockQueue.tryPop = some (n, queue)) :
    Step σ ⟨.lock, .internal⟩ { σ with gLockQueue := queue, lock := .answering n }
  | answer {σ n} (hl : σ.lock = .answering n) :
    Step σ ⟨.lock, .response n.fd⟩ { σ with lock := .returning n.fd }
  | lockGiveBack {σ fd} (hl : σ.lock = .returning fd) :
    Step σ ⟨.lock, .internal⟩ { σ.send (.setConnection fd) with lock := .idle }

end Threads
end StorageServer.Server
