import StorageServer.Library.Atomicity
import StorageServer.Server.Places

/-! Requests served side by side. The workers interleave their calls, but each request makes a
single call to the file system, and its other calls concern the session of its client, which no
other worker touches. What the clients see is therefore what they would see of a server that
serves one request after the other. -/
namespace StorageServer.Server
open Common Library.Calls Library.Runs Library.Atomicity

/-! ### A server that serves each request in one piece -/

/-- What a worker finds when it reads from a client. -/
inductive Work
  | request (msg : SockMessage) (rand : ℕ → ℕ)
  | endOfFile
  | broken

namespace Work

def program (client : Client) : Work → Handler Ending
  | request msg rand => serve client msg rand
  | endOfFile => disconnect client
  | broken => .ret .remove

/-- The event of the server that does the work, and how the work ends. -/
inductive Serves (client : Client) : Work → ServerEvent → Ending → Prop
  | answered {msg rand response} (h : ¬ LockPostponed msg response) :
    Serves client (request msg rand) (.request client msg rand response) (.respond response)
  | postponed {msg rand response} (h : LockPostponed msg response) :
    Serves client (request msg rand) (.request client msg rand response) .forget
  | ended : Serves client endOfFile (.endOfFile client) .remove
  | lost : Serves client broken (.lost client) .remove

end Work

/-- What the clients see: their requests are read or their connections found ended or broken, and
responses and notifications arrive. -/
inductive Observation
  | asked (fd : ℤ) (msg : SockMessage)
  | left (fd : ℤ)
  | answered (fd : ℤ) (response : SockMessage)
  | notified (fd : ℤ)

inductive AtomicEvent
  | begins (client : Client) (work : Work)
  | serves (e : ServerEvent)
  | ends (client : Client) (ending : Ending)

namespace AtomicEvent

def observation : AtomicEvent → Option Observation
  | begins client (.request msg _) => some (.asked client msg)
  | begins client .endOfFile | begins client .broken => some (.left client)
  | serves (.delivery n) => some (.notified n.fd)
  | serves (.request ..) | serves (.endOfFile _) | serves (.lost _) => none
  | ends client (.respond response) => some (.answered client response)
  | ends _ .forget | ends _ .remove => none

def served : AtomicEvent → Option ServerEvent
  | serves e => some e
  | begins .. | ends .. => none

end AtomicEvent

/-- The server and how far it is with each of its clients. -/
structure AtomicServer where
  server : ServerState
  phase : Client → Phase Work Ending

namespace AtomicServer

def start (configs : FSConfig) : AtomicServer := ⟨.start configs, fun _ => .idle⟩

inductive Step : AtomicServer → AtomicEvent → AtomicServer → Prop
  | begins {s client} (work : Work) (h : s.phase client = .idle) :
    Step s (.begins client work) { s with phase := Function.update s.phase client (.begun work) }
  | serves {s client work e ending server} (h : s.phase client = .begun work)
      (hw : work.Serves client e ending) (hs : s.server.Step e server) :
    Step s (.serves e) ⟨server, Function.update s.phase client (.done ending)⟩
  | delivers {s n server} (hs : s.server.Step (.delivery n) server) :
    Step s (.serves (.delivery n)) { s with server := server }
  | ends {s client ending} (h : s.phase client = .done ending) :
    Step s (.ends client ending) { s with phase := Function.update s.phase client .idle }

/-- What such a server does is a run of the server. -/
theorem run_served {s t : AtomicServer} {tr : List AtomicEvent} (h : Run Step s tr t) :
    Run ServerState.Step s.server (tr.filterMap AtomicEvent.served) t.server := by
  induction h with
  | start => exact .start
  | next _ last ih =>
    rw [List.filterMap_append]
    cases last with
    | begins | ends =>
      rw [List.filterMap_cons_none rfl, List.filterMap_nil, List.append_nil]
      exact ih
    | serves _ _ hs | delivers hs => exact ih.next hs

end AtomicServer

/-! ### Calls on the session of a client and on the file system -/

namespace ClientSession

/-- A call on the session of one client. -/
def apply (session : ClientSession) (op : SessionOperation) : ClientSession × SessionOutcome :=
  let r := SessionTable.apply (fun _ => session) op
  (r.1 op.client, r.2)

end ClientSession

theorem SessionTable.apply_eq (t : SessionTable) (op : SessionOperation) :
    t.apply op = (Function.update t op.client ((t op.client).apply op).1,
      ((t op.client).apply op).2) := by
  cases op with
  | createSession client | destroySession client =>
    cases hv : (t client).isValid <;>
      simp [ClientSession.apply, apply, createSession, destroySession, SessionOperation.client, hv]
  | addFileOpened | remFileOpened =>
    simp [ClientSession.apply, apply, SessionOperation.client]
  | getSession | getRawSession | hasOpenedFile | canWriteIntoFile =>
    simp [ClientSession.apply, apply, getSession, getRawSession, SessionOperation.client]

/-- The file system and the notifications that are on their way. -/
abbrev Shared := FileSystem × List FSLockNotification

def semantics : Semantics ServerCall ServerCall.Result ClientSession Shared where
  own
    | .session op => some (fun session => session.apply op)
    | .fs _ => none
  shared
    | .session _, _, _, _ => False
    | .fs op, g, out, g' =>
      FileSystem.Step g.1 (op,out) g'.1 ∧ g'.2 = g.2 ++ FSOutcome.issued out

/-- The lock thread delivers the oldest notification. -/
def Delivers (g : Shared) (n : FSLockNotification) (g' : Shared) : Prop :=
  g.2 = n :: g'.2 ∧ g'.1 = g.1

section Programs
variable {client : Client} {msg response : SockMessage} {rand : ℕ → ℕ} {α : Type} {n : ℕ}

theorem atMost_sessionCall {op : SessionOperation} {f : SessionOutcome → Handler α}
    (hf : ∀ out, AtMost semantics n (f out)) : AtMost semantics n (sessionCall op >>= f) :=
  .own rfl hf

theorem atMost_fsCall {op : FsOperation} {f : FSOutcome → Handler α}
    (hf : ∀ out, AtMost semantics 0 (f out)) : AtMost semantics 1 (fsCall op >>= f) :=
  .shared hf

theorem closeSession_atMost (client : Client) : AtMost semantics 1 (closeSession client) := by
  unfold closeSession
  refine atMost_sessionCall fun session => ?_
  dsimp only
  split_ifs
  · exact atMost_fsCall fun _ => atMost_sessionCall fun _ => .ret
  · exact .ret

theorem openFile_atMost (client : Client) (msg response : SockMessage) :
    AtMost semantics 1 (openFile client msg response) := by
  unfold openFile
  refine atMost_sessionCall fun session => ?_
  split_ifs
  · exact .ret
  refine atMost_sessionCall fun opened => ?_
  split_ifs
  · exact .ret
  refine atMost_fsCall fun out => ?_
  split_ifs
  · exact .ret
  · exact atMost_sessionCall fun _ => .ret

theorem closeFile_atMost (client : Client) (msg response : SockMessage) :
    AtMost semantics 1 (closeFile client msg response) := by
  unfold closeFile
  refine atMost_sessionCall fun session => ?_
  split_ifs
  · exact .ret
  refine atMost_sessionCall fun opened => ?_
  split_ifs
  · exact .ret
  · exact atMost_fsCall fun _ => atMost_sessionCall fun _ => .ret

/-- The checks before a request on a file concern the session only. -/
theorem checkOpened_atMost (client : Client) (msg response : SockMessage) :
    AtMost semantics 0 (checkOpened client msg response) := by
  unfold checkOpened
  dsimp only
  split_ifs
  · refine atMost_sessionCall fun write => ?_
    split_ifs <;> exact .ret
  · refine atMost_sessionCall fun opened => ?_
    split_ifs <;> exact .ret

theorem fileRequest_atMost (client : Client) (msg response : SockMessage) (op : FsOperation) :
    AtMost semantics 1 (fileRequest client msg response op) := by
  unfold fileRequest
  refine atMost_sessionCall fun session => ?_
  by_cases h0 : session.res ≠ 0
  · rw [if_pos h0]
    exact .ret
  rw [if_neg h0]
  refine (checkOpened_atMost client msg response).bind (n := 1) fun check => ?_
  cases check with
  | error e => exact .ret
  | ok =>
    refine atMost_fsCall fun out => ?_
    dsimp only
    split_ifs
    any_goals exact .ret
    all_goals exact atMost_sessionCall fun _ => .ret

theorem handleWork_atMost (client : Client) (msg : SockMessage) (rand : ℕ → ℕ) :
    AtMost semantics 1 (handleWork client msg rand) := by
  unfold handleWork
  split
  next => exact atMost_sessionCall fun _ => .ret
  next => exact (closeSession_atMost client).bind (n := 0) fun _ => .ret
  next => exact (openFile_atMost client msg _).bind (n := 0) fun _ => .ret
  next => exact (closeFile_atMost client msg _).bind (n := 0) fun _ => .ret
  next => exact atMost_fsCall fun _ => .ret
  next =>
    split
    next => exact (fileRequest_atMost client msg _ _).bind (n := 0) fun _ => .ret
    next => exact .ret

namespace Work

/-- No work makes more than one call to the file system. -/
theorem program_atMost (client : Client) (work : Work) :
    AtMost semantics 1 (work.program client) := by
  cases work with
  | request msg rand =>
    refine (handleWork_atMost client msg rand).bind (n := 0) fun response => ?_
    split_ifs <;> exact .ret
  | endOfFile => exact (closeSession_atMost client).bind (n := 0) fun _ => .ret
  | broken => exact .ret

/-- The calls of a worker are made on behalf of the client that it works for. -/
theorem program_calls (client : Client) (work : Work) :
    (work.program client).Uses (OnBehalf client) (fun _ _ => False) (fun _ => True)
      (fun _ => False) := by
  cases work with
  | request msg rand =>
    refine (handleWork_unanswered client msg rand).calls.bind (fun response _ => ?_)
      fun _ h => h.elim
    split_ifs <;> trivial
  | endOfFile => exact (disconnect_uses client).calls
  | broken => trivial

end Work

/-- What a program does in one piece to the session of its client and to the file system is what it
does to the server. -/
theorem run_of_ends {p : Handler α} {l l' : ClientSession} {g g' : Shared} {a : α}
    (h : Ends semantics p (l, g) a (l', g'))
    (hp : p.Uses (OnBehalf client) (fun _ _ => False) (fun _ => True) (fun _ => False))
    (t : SessionTable) (ht : t client = l) :
    p.run ServerState.exec ⟨g.1, t, g.2⟩ =
      some (⟨g'.1, Function.update t client l', g'.2⟩, a) := by
  generalize hx : (l, g) = x at h
  generalize hy : (l', g') = y at h
  induction h generalizing l g t with
  | ret =>
    obtain ⟨rfl, rfl⟩ := Prod.mk.inj (hx.trans hy.symm)
    rw [← ht, Function.update_eq_self]
    rfl
  | @own i f next l₁ g₁ a s hi h ih =>
    obtain ⟨rfl, rfl⟩ := Prod.mk.inj hx
    obtain ⟨hc, hnext⟩ := hp
    cases i with
    | session op =>
      obtain rfl := Option.some.inj hi
      obtain rfl : op.client = client := hc
      subst ht
      have hrun := ih ((hnext _).2 id) (Function.update t op.client ((t op.client).apply op).1)
        (Function.update_self ..) rfl hy
      rw [Function.update_idem] at hrun
      change (next (t.apply op).2).run ServerState.exec ⟨g.1, (t.apply op).1, g.2⟩ = _
      rw [t.apply_eq op]
      exact hrun
    | fs op => cases hi
  | @shared i next l₁ g₁ r g₂ a s hi hg h ih =>
    obtain ⟨rfl, rfl⟩ := Prod.mk.inj hx
    cases i with
    | session op => cases hi
    | fs op =>
      obtain ⟨hstep, hns⟩ := hg
      have hrun := ih ((hp.2 r).2 id) t ht rfl hy
      rw [hns] at hrun
      exact Option.bind_eq_some_iff.mpr ⟨_, Option.map_eq_some_iff.mpr ⟨_, hstep, rfl⟩, hrun⟩

/-- Work that is done in one piece is an event of the server. -/
theorem Work.step_of_run {work : Work} {s s' : ServerState} {ending : Ending}
    (h : (work.program client).run ServerState.exec s = some (s', ending)) :
    ∃ e, work.Serves client e ending ∧ s.Step e s' := by
  cases work with
  | request msg rand =>
    change (handleWork client msg rand >>= _).run ServerState.exec s = _ at h
    rw [Program.run_bind] at h
    obtain ⟨⟨t, response⟩, hr, h⟩ := Option.bind_eq_some_iff.mp h
    dsimp only at h
    split_ifs at h with hp
    · cases h
      exact ⟨_, .postponed hp, hr⟩
    · cases h
      exact ⟨_, .answered hp, hr⟩
  | endOfFile =>
    change (closeSession client >>= _).run ServerState.exec s = _ at h
    rw [Program.run_bind] at h
    obtain ⟨⟨t, ⟨⟩⟩, hr, h⟩ := Option.bind_eq_some_iff.mp h
    cases h
    exact ⟨_, .ended, hr⟩
  | broken =>
    cases h
    exact ⟨_, .lost, rfl⟩

end Programs

/-! ### From one system to the other -/

/-- What can be seen of the programs of the workers. -/
def seen : Event Client Work Ending FSLockNotification → Option Observation
  | .begins client work => (AtomicEvent.begins client work).observation
  | .acts _ => none
  | .ends client ending => (AtomicEvent.ends client ending).observation
  | .outside n => some (.notified n.fd)

theorem filterMap_seen {tr tr' : List (Event Client Work Ending FSLockNotification)}
    (h : tr.filter Event.visible = tr'.filter Event.visible) :
    tr.filterMap seen = tr'.filterMap seen := by
  have hseen : ∀ l : List (Event Client Work Ending FSLockNotification),
      (l.filter Event.visible).filterMap seen = l.filterMap seen := by
    intro l
    rw [List.filterMap_filter]
    congr 1
    funext e
    cases e <;> rfl
  rw [← hseen tr, h, hseen]

namespace AtomicServer

/-- The sessions of the clients, the file system and the notifications together are the server. -/
def ofSystem (t : AtomicSystem Client ClientSession Shared Work Ending) : AtomicServer where
  server := ⟨t.common.1, t.own, t.common.2⟩
  phase := t.phase

theorem step_ofSystem {t t' : AtomicSystem Client ClientSession Shared Work Ending}
    {e : Event Client Work Ending FSLockNotification}
    (h : AtomicStep semantics Work.program Delivers t e t') :
    ∃ e', Step (ofSystem t) e' (ofSystem t') ∧ e'.observation = seen e := by
  cases h with
  | begins work h => exact ⟨_, .begins work h, rfl⟩
  | ends h => exact ⟨_, .ends h, rfl⟩
  | @acts client work ending l g h he =>
    obtain ⟨e', hs, hstep⟩ :=
      Work.step_of_run (run_of_ends he (work.program_calls client) t.own rfl)
    refine ⟨.serves e', .serves h hs hstep, ?_⟩
    cases hs <;> rfl
  | @outside n g h =>
    obtain ⟨hns, hfs⟩ := h
    exact ⟨.serves (.delivery n),
      .delivers ⟨hns, congrArg (fun fs => ServerState.mk fs t.own g.2) hfs⟩, rfl⟩

theorem run_ofSystem {t t' : AtomicSystem Client ClientSession Shared Work Ending}
    {tr : List (Event Client Work Ending FSLockNotification)}
    (h : Run (AtomicStep semantics Work.program Delivers) t tr t') :
    ∃ tr', Run Step (ofSystem t) tr' (ofSystem t') ∧
      tr'.filterMap AtomicEvent.observation = tr.filterMap seen := by
  induction h with
  | start => exact ⟨[], .start, rfl⟩
  | next _ last ih =>
    obtain ⟨tr', hr, htr⟩ := ih
    obtain ⟨e', hs, he⟩ := step_ofSystem last
    refine ⟨tr' ++ [e'], hr.next hs, ?_⟩
    simp only [List.filterMap_append, List.filterMap_cons, List.filterMap_nil, htr, he]

end AtomicServer

/-! ### The programs of the workers -/

namespace WorkerState
variable {client c : Client} {asked : Bool} {rest : Handler Ending}

/-- What is left to do for a client. A worker is done once it only has to forget it. -/
def workFor (client : Client) : WorkerState → Option (Handler Ending)
  | idle | reading _ | returning _ => none
  | working _ _ (.ret .forget) => none
  | working c _ rest => if c = client then some rest else none

theorem workFor_working (h : rest ≠ .ret .forget) :
    (working client asked rest).workFor client = some rest := by
  rcases rest with (_ | _ | _) | ⟨i, next⟩
  · exact if_pos rfl
  · exact absurd rfl h
  · exact if_pos rfl
  · exact if_pos rfl

theorem workFor_of_ne (h : c ≠ client) : (working c asked rest).workFor client = none := by
  rcases rest with (_ | _ | _) | ⟨i, next⟩
  · exact if_neg h
  · rfl
  · exact if_neg h
  · exact if_neg h

/-- A worker works for nobody who is not in its hands. -/
theorem workFor_of_notMem {state : WorkerState} (h : (client : ℤ) ∉ state.hands) :
    state.workFor client = none := by
  cases state with
  | idle | reading | returning => rfl
  | working c asked rest =>
    by_cases hf : rest = .ret .forget
    · subst hf
      rfl
    · rw [(hands_working hf).1, List.mem_singleton] at h
      exact workFor_of_ne fun hc => h (by rw [hc])

end WorkerState

def LockState.undelivered : LockState → List FSLockNotification
  | idle | returning _ => []
  | answering notification => [notification]

/-- The program that runs for a client, if any. -/
def running (workers : List Worker) (client : Client) : Option (Handler Ending) :=
  workers.findSome? (fun w => w.state.workFor client)

/-- At most one worker holds the mutex of the file system. -/
def Held (workers : List Worker) : Prop :=
  workers.Pairwise (fun w w' => w.pending = [] ∨ w'.pending = [])

section Workers
variable {l r : List Worker} {w v : Worker} {client : Client}

theorem running_split : running (l ++ w :: r) client =
    ((running l client).or (w.state.workFor client)).or (running r client) := by
  rw [running, List.findSome?_append, List.findSome?_cons, Option.or_assoc]
  cases w.state.workFor client <;> rfl

theorem running_eq_none (h : ((l.flatMap Worker.hands).count (client : ℤ)) = 0) :
    running l client = none := by
  refine List.findSome?_eq_none_iff.mpr fun w hw => WorkerState.workFor_of_notMem fun hmem => ?_
  refine List.count_eq_zero.mp h (List.mem_flatMap.mpr ⟨w, hw, ?_⟩)
  exact List.mem_append_left _ hmem

theorem running_congr (h : ∀ client, v.state.workFor client = w.state.workFor client) :
    running (l ++ v :: r) = running (l ++ w :: r) := by
  funext client
  rw [running_split, running_split, h]

theorem Held.replace (h : Held (l ++ w :: r)) (hp : w.pending = [] → v.pending = []) :
    Held (l ++ v :: r) := by
  obtain ⟨hl, hwr, hlr⟩ := List.pairwise_append.mp h
  obtain ⟨hw, hr⟩ := List.pairwise_cons.mp hwr
  refine List.pairwise_append.mpr ⟨hl, List.pairwise_cons.mpr ⟨fun x hx => ?_, hr⟩,
    fun x hx y hy => ?_⟩
  · exact (hw x hx).imp_left hp
  · rcases List.mem_cons.mp hy with rfl | hy
    · exact (hlr x hx w List.mem_cons_self).imp_right hp
    · exact hlr x hx y (List.mem_cons_of_mem _ hy)

/-- When the mutex is free, any worker may take it. -/
theorem held_of_free (h : ∀ x ∈ l ++ w :: r, x.pending = []) : Held (l ++ v :: r) := by
  have hl : ∀ x ∈ l, x.pending = [] := fun x hx => h x (List.mem_append_left _ hx)
  have hr : ∀ x ∈ r, x.pending = [] :=
    fun x hx => h x (List.mem_append_right _ (List.mem_cons_of_mem _ hx))
  have hheld : ∀ ws : List Worker, (∀ x ∈ ws, x.pending = []) → Held ws :=
    fun ws hws => List.pairwise_of_forall_mem_list fun x hx _ _ => Or.inl (hws x hx)
  exact List.pairwise_append.mpr ⟨hheld l hl, List.pairwise_cons.mpr
    ⟨fun x hx => Or.inr (hr x hx), hheld r hr⟩, fun x hx _ _ => Or.inl (hl x hx)⟩

theorem Held.others (h : Held (l ++ w :: r)) (hw : w.pending ≠ []) :
    l.flatMap Worker.pending = [] ∧ r.flatMap Worker.pending = [] := by
  obtain ⟨-, hwr, hlr⟩ := List.pairwise_append.mp h
  exact ⟨List.flatMap_eq_nil_iff.mpr fun x hx =>
      (hlr x hx w List.mem_cons_self).resolve_right hw,
    List.flatMap_eq_nil_iff.mpr fun x hx =>
      ((List.pairwise_cons.mp hwr).1 x hx).resolve_left hw⟩

end Workers

namespace Threads
variable {σ σ' : Threads} {e : ThreadEvent} {l r : List Worker} {w v : Worker} {client : Client}

/-- The notifications that have been issued and not delivered, the oldest one first. -/
def undelivered (σ : Threads) : List FSLockNotification :=
  σ.lock.undelivered ++ σ.gLockQueue.toList ++ σ.workers.flatMap Worker.pending

def system (σ : Threads) : System Client ClientSession Shared (Handler Ending) :=
  ⟨σ.gSessionTable, (σ.fs, σ.undelivered), running σ.workers⟩

/-- The response that a worker is about to write. -/
def response (σ : Threads) (id : ℕ) : Option SockMessage :=
  match σ.workers[id]? with
  | some ⟨.working _ _ (.ret (.respond response)), _⟩ => some response
  | _ => none

/-- What can be seen of a step. -/
def observation (σ : Threads) (e : ThreadEvent) : Option Observation :=
  match e.action, e.thread with
  | .request fd msg, _ => some (.asked fd msg)
  | .disconnection fd, _ => some (.left fd)
  | .response fd, .worker id => (σ.response id).map (.answered fd)
  | .response fd, _ => some (.notified fd)
  | .internal, _ | .call _, _ => none

/-- A client in the hands of one worker is in no other's. -/
theorem Inv.running_self (hi : σ.Inv) (hw : σ.workers = l ++ w :: r)
    (hmem : (client : ℤ) ∈ w.hands) :
    running (l ++ v :: r) client = v.state.workFor client := by
  have hcount : (σ.workers.flatMap Worker.hands).count (client : ℤ) ≤ 1 := by
    have hp := hi.placed client
    have hle : (σ.workers.flatMap Worker.hands).count (client : ℤ) ≤ σ.places client := by
      unfold places
      omega
    split_ifs at hp <;> omega
  have hpos := List.count_pos_iff.mpr hmem
  rw [hw, count_split] at hcount
  rw [running_split, running_eq_none (l := l) (by omega), running_eq_none (l := r) (by omega),
    Option.none_or, Option.or_none]

theorem Inv.running_update (hi : σ.Inv) (hw : σ.workers = l ++ w :: r)
    (hmem : (client : ℤ) ∈ w.hands) (hold : ∀ c, client ≠ c → w.state.workFor c = none)
    (hnew : ∀ c, client ≠ c → v.state.workFor c = none) :
    running (l ++ v :: r) =
      Function.update (running σ.workers) client (v.state.workFor client) := by
  funext c
  rcases eq_or_ne c client with rfl | hne
  · rw [Function.update_self, hi.running_self hw hmem]
  · rw [Function.update_of_ne hne, hw, running_split, running_split, hold c hne.symm,
      hnew c hne.symm]

theorem Step.held (hh : Held σ.workers) (hs : Step σ e σ') : Held σ'.workers := by
  cases hs with
  | take hw | request hw | endOfFile hw | readError hw | sessionCall hw | respond hw | forget hw
  | giveBack hw | remove hw =>
    rw [hw] at hh
    exact hh.replace fun _ => rfl
  | fsCall hw hmutex =>
    rw [hw] at hmutex
    exact held_of_free hmutex
  | notify hw =>
    rw [hw] at hh
    exact hh.replace fun h => absurd h (List.cons_ne_nil _ _)
  | @message fdsCpy message messages hs hp hm => cases message <;> exact hh
  | _ => exact hh

/-- A worker goes on without its client noticing. -/
theorem system_worker (hw : σ.workers = l ++ w :: r) (hp : v.pending = w.pending)
    (h : ∀ client, v.state.workFor client = w.state.workFor client) :
    ({ σ with workers := l ++ v :: r } : Threads).system = σ.system := by
  unfold system undelivered
  simp only [hw, running_congr h, List.flatMap_append, List.flatMap_cons, hp]

theorem Inv.system_update (hi : σ.Inv) (hw : σ.workers = l ++ w :: r)
    (hmem : (client : ℤ) ∈ w.hands) (hp : v.pending = w.pending)
    (hold : ∀ c, client ≠ c → w.state.workFor c = none)
    (hnew : ∀ c, client ≠ c → v.state.workFor c = none) :
    ({ σ with workers := l ++ v :: r } : Threads).system =
      { σ.system with
        running := Function.update (running σ.workers) client (v.state.workFor client) } := by
  rw [← hi.running_update hw hmem hold hnew]
  unfold system undelivered
  simp only [hw, List.flatMap_append, List.flatMap_cons, hp]

/-- A worker reads from a client and begins to work for it. -/
theorem Inv.begins (hi : σ.Inv) (work : Work) {asked : Bool}
    (hw : σ.workers = l ++ ⟨.reading client, []⟩ :: r)
    (hne : work.program client ≠ .ret .forget) :
    Library.Atomicity.Step semantics Work.program Delivers σ.system (.begins client work)
      ({ σ with workers := l ++ ⟨.working client asked (work.program client), []⟩ :: r } :
        Threads).system := by
  have hidle : running σ.workers client = none :=
    hw ▸ hi.running_self (v := ⟨.reading client, []⟩) hw List.mem_cons_self
  rw [hi.system_update (v := ⟨.working client asked (work.program client), []⟩) hw
    List.mem_cons_self rfl (fun _ _ => rfl) fun c hc => WorkerState.workFor_of_ne hc,
    WorkerState.workFor_working hne]
  exact .begins work hidle

/-- A worker is done with a client. -/
theorem Inv.ends (hi : σ.Inv) {asked : Bool} {ending : Ending} {state : WorkerState}
    (hw : σ.workers = l ++ ⟨.working client asked (.ret ending), []⟩ :: r)
    (hne : ending ≠ .forget) (hnone : ∀ c, state.workFor c = none) :
    Library.Atomicity.Step semantics Work.program Delivers σ.system (.ends client ending)
      ({ σ with workers := l ++ ⟨state, []⟩ :: r } : Threads).system := by
  have hrest : (Program.ret ending : Handler Ending) ≠ .ret .forget :=
    fun h => hne (Program.ret.inj h)
  have hmem : (client : ℤ) ∈ (Worker.mk (.working client asked (.ret ending)) []).hands := by
    rw [Worker.hands, (WorkerState.hands_working hrest).1]
    exact List.mem_cons_self
  have hrun : running σ.workers client = some (.ret ending) := by
    rw [hw, hi.running_self hw hmem, WorkerState.workFor_working hrest]
  rw [hi.system_update (v := ⟨state, []⟩) hw hmem rfl
    (fun c hc => WorkerState.workFor_of_ne hc) fun c _ => hnone c, hnone client]
  exact .ends hrun

theorem Inv.running_call (hi : σ.Inv) {asked : Bool} {i : ServerCall}
    {next : i.Result → Handler Ending}
    (hw : σ.workers = l ++ ⟨.working client asked (.call i next), []⟩ :: r) :
    running σ.workers client = some (.call i next) := by
  rw [hw, hi.running_self hw List.mem_cons_self]
  exact WorkerState.workFor_working (by simp)

/-- A worker looks into or changes the session of its client. -/
theorem Inv.sessionCall (hi : σ.Inv) {asked : Bool} {op : SessionOperation}
    {next : SessionOutcome → Handler Ending}
    (hw : σ.workers = l ++ ⟨.working client asked (.call (.session op) next), []⟩ :: r) :
    Library.Atomicity.Step semantics Work.program Delivers σ.system (.acts client)
      ({ σ with
        gSessionTable := (σ.gSessionTable.apply op).1
        workers := l ++ ⟨.working client asked (next (σ.gSessionTable.apply op).2), []⟩ :: r } :
        Threads).system := by
  obtain ⟨hc, -, -, hgo⟩ := (hi.at_work hw).call (σ.gSessionTable.apply op).2
  obtain rfl : op.client = client := hc
  have hsys := hi.system_update
    (v := ⟨.working op.client asked (next (σ.gSessionTable.apply op).2), []⟩) hw List.mem_cons_self
    rfl (fun c hc => WorkerState.workFor_of_ne hc) fun c hc => WorkerState.workFor_of_ne hc
  rw [WorkerState.workFor_working (hgo id)] at hsys
  have hset : ({ σ with
      gSessionTable := (σ.gSessionTable.apply op).1
      workers := l ++ ⟨.working op.client asked (next (σ.gSessionTable.apply op).2), []⟩ :: r } :
      Threads).system = ⟨(σ.gSessionTable.apply op).1, (σ.fs, σ.undelivered),
        Function.update (running σ.workers) op.client (some (next (σ.gSessionTable.apply op).2))⟩ :=
    congrArg (fun s => System.mk (σ.gSessionTable.apply op).1 s.common s.running) hsys
  rw [hset, σ.gSessionTable.apply_eq op]
  exact .own (S := semantics) (s := σ.system) (hi.running_call hw) rfl

/-- A worker calls the file system. If its client is queued, it has nothing more to do. -/
theorem Inv.fsCall (hi : σ.Inv) {asked : Bool} {op : FsOperation}
    {next : FSOutcome → Handler Ending} {fs : FileSystem} {out : FSOutcome}
    (hw : σ.workers = l ++ ⟨.working client asked (.call (.fs op) next), []⟩ :: r)
    (hmutex : ∀ w ∈ σ.workers, w.pending = []) (ho : FileSystem.Step σ.fs (op,out) fs) :
    ∃ tr, Run (Library.Atomicity.Step semantics Work.program Delivers) σ.system tr
      ({ σ with fs := fs, workers := l ++ ⟨.working client asked (next out), out.issued⟩ :: r } :
        Threads).system ∧ tr.filterMap seen = [] := by
  obtain ⟨hc, -, hstop, hgo⟩ := (hi.at_work hw).call out
  have hrun := hi.running_update (v := ⟨.working client asked (next out), out.issued⟩) hw
    List.mem_cons_self (fun c hc => WorkerState.workFor_of_ne hc)
    fun c hc => WorkerState.workFor_of_ne hc
  have hissued : ({ σ with
      fs := fs
      workers := l ++ ⟨.working client asked (next out), out.issued⟩ :: r } : Threads).undelivered =
      σ.undelivered ++ out.issued := by
    have hnone : σ.workers.flatMap Worker.pending = [] := List.flatMap_eq_nil_iff.mpr hmutex
    unfold undelivered
    rw [hnone, List.append_nil, List.append_assoc]
    rw [hw, List.flatMap_append, List.flatMap_cons, List.nil_append,
      List.append_eq_nil_iff] at hnone
    rw [List.flatMap_append, List.flatMap_cons, hnone.1, hnone.2, List.nil_append, List.append_nil,
      List.append_assoc]
  have hsys : ({ σ with
      fs := fs
      workers := l ++ ⟨.working client asked (next out), out.issued⟩ :: r } : Threads).system =
      ⟨σ.gSessionTable, (fs, σ.undelivered ++ out.issued), Function.update (running σ.workers)
        client ((WorkerState.working client asked (next out)).workFor client)⟩ := by
    rw [← hissued, ← hrun]
    rfl
  have hacts : Library.Atomicity.Step semantics Work.program Delivers σ.system (.acts client)
      ⟨σ.gSessionTable, (fs, σ.undelivered ++ out.issued),
        Function.update (running σ.workers) client (some (next out))⟩ :=
    .shared (S := semantics) (s := σ.system) (hi.running_call hw) rfl ⟨ho, rfl⟩
  rw [hsys]
  by_cases hq : Queues (.fs op) out
  · obtain ⟨-, hforget⟩ := hstop hq
    rw [hforget] at hacts ⊢
    have hends : Library.Atomicity.Step semantics Work.program Delivers
        ⟨σ.gSessionTable, (fs, σ.undelivered ++ out.issued),
          Function.update (running σ.workers) client (some (.ret .forget))⟩ (.ends client .forget)
        ⟨σ.gSessionTable, (fs, σ.undelivered ++ out.issued), Function.update
          (Function.update (running σ.workers) client (some (.ret .forget))) client none⟩ :=
      .ends (Function.update_self ..)
    rw [Function.update_idem] at hends
    exact ⟨_, (Run.start.next hacts).next hends, rfl⟩
  · rw [WorkerState.workFor_working (hgo hq)]
    exact ⟨[.acts client], Run.start.next hacts, rfl⟩

theorem notify_system (hh : Held σ.workers) {state : WorkerState} {n : FSLockNotification}
    {ns : List FSLockNotification} {queue : CircQueue FSLockNotification lockQueueSize}
    (hw : σ.workers = l ++ ⟨state, n::ns⟩ :: r) (hq : σ.gLockQueue.tryPush n = some queue) :
    ({ σ with gLockQueue := queue, workers := l ++ ⟨state, ns⟩ :: r } : Threads).system =
      σ.system := by
  rw [hw] at hh
  obtain ⟨hl, hr⟩ := hh.others (List.cons_ne_nil n ns)
  have hrun : running (l ++ ⟨state, ns⟩ :: r) = running (l ++ ⟨state, n::ns⟩ :: r) :=
    running_congr fun _ => rfl
  unfold system undelivered
  simp only [hw, hrun, CircQueue.tryPush_toList hq, List.flatMap_append, List.flatMap_cons, hl, hr,
    List.nil_append, List.append_nil, List.append_assoc, List.singleton_append]

theorem Step.system (hi : σ.Inv) (hh : Held σ.workers) (hd : e.Documented) (hs : Step σ e σ') :
    ∃ tr, Run (Library.Atomicity.Step semantics Work.program Delivers) σ.system tr σ'.system ∧
      tr.filterMap seen = (σ.observation e).toList := by
  cases hs with
  | @message fdsCpy message messages hs hp hm => cases message <;> exact ⟨[], .start, rfl⟩
  | @take l r fd queue hw hq =>
    refine ⟨[], ?_, rfl⟩
    change Run _ _ [] ({ σ with workers := l ++ ⟨.reading fd, []⟩ :: r } : Threads).system
    rw [system_worker (v := ⟨.reading fd, []⟩) hw rfl fun _ => rfl]
    exact .start
  | @forget l r asked client hw =>
    refine ⟨[], ?_, rfl⟩
    rw [system_worker (v := ⟨.idle, []⟩) hw rfl fun _ => rfl]
    exact .start
  | @giveBack l r fd hw =>
    refine ⟨[], ?_, rfl⟩
    change Run _ _ [] ({ σ with workers := l ++ ⟨.idle, []⟩ :: r } : Threads).system
    rw [system_worker (v := ⟨.idle, []⟩) hw rfl fun _ => rfl]
    exact .start
  | @request l r fd msg rand client hw hc =>
    subst hc
    have hne : (Work.request msg rand).program client ≠ .ret .forget :=
      ne_forget (serve_uses hd rand) (by simp)
    exact ⟨_, Run.start.next (hi.begins _ hw hne), rfl⟩
  | @endOfFile l r fd client hw hc =>
    subst hc
    have hne : Work.endOfFile.program client ≠ .ret .forget :=
      ne_forget (disconnect_uses client) (by simp)
    exact ⟨_, Run.start.next (hi.begins _ hw hne), rfl⟩
  | @readError l r fd client hw hc =>
    subst hc
    have hne : Work.broken.program client ≠ .ret .forget := fun h => by cases h
    exact ⟨_, Run.start.next (hi.begins _ hw hne), rfl⟩
  | sessionCall hw => exact ⟨_, Run.start.next (hi.sessionCall hw), rfl⟩
  | fsCall hw hmutex ho => exact hi.fsCall hw hmutex ho
  | @respond l r asked response client hw =>
    refine ⟨_, Run.start.next (hi.ends hw (fun h => by cases h) fun _ => rfl), ?_⟩
    have hget : σ.response l.length = some response := by simp [Threads.response, hw]
    change _ = ((σ.response l.length).map _).toList
    rw [hget]
    rfl
  | @remove l r asked client hw =>
    exact ⟨_, Run.start.next (hi.ends hw (fun h => by cases h) fun _ => rfl), rfl⟩
  | notify hw hq =>
    refine ⟨[], ?_, rfl⟩
    rw [notify_system hh hw hq]
    exact .start
  | @takeNotification n queue hl hq =>
    refine ⟨[], ?_, rfl⟩
    have hsame : ({ σ with gLockQueue := queue, lock := .answering n } : Threads).undelivered =
        σ.undelivered := by
      unfold undelivered
      simp only [hl, CircQueue.tryPop_toList hq, LockState.undelivered, List.nil_append,
        List.singleton_append]
    change Run _ _ [] (System.mk _ (_, _) _)
    rw [hsame]
    exact .start
  | @answer n hl =>
    refine ⟨[.outside n], Run.start.next (.outside ⟨?_, rfl⟩), rfl⟩
    change σ.undelivered = _
    unfold undelivered
    rw [hl]
    rfl
  | @lockGiveBack fd hl =>
    refine ⟨[], ?_, rfl⟩
    have hsame : ({ σ.send (.setConnection fd) with lock := .idle } : Threads).undelivered =
        σ.undelivered := by
      unfold undelivered
      rw [hl]
      rfl
    change Run _ _ [] (System.mk _ (_, _) _)
    rw [hsame]
    exact .start
  | _ => exact ⟨[], .start, rfl⟩

/-! ### Runs -/

/-- What the clients have seen, in order. -/
def observe (history : List Observation) (σ : Threads) (e : ThreadEvent) : List Observation :=
  history ++ (σ.observation e).toList

section Runs
variable {configs : FSConfig} {pipeFd : ℤ} {numWorkers : ℕ} {tr : List ThreadEvent}
  {history : List Observation}

theorem run_system
    (h : Run (Recorded observe DocumentedStep) (initializeServer configs pipeFd numWorkers, []) tr
      (σ,history)) :
    ∃ tr', Run (Library.Atomicity.Step semantics Work.program Delivers)
      (initializeServer configs pipeFd numWorkers).system tr' σ.system ∧
      tr'.filterMap seen = history := by
  have hheld : Held (initializeServer configs pipeFd numWorkers).workers :=
    List.pairwise_of_forall_mem_list fun w hw _ _ => Or.inl (by rw [List.eq_of_mem_replicate hw])
  refine (h.invariant (I := fun x => x.1.Inv ∧ Held x.1.workers ∧ ∃ tr',
    Run (Library.Atomicity.Step semantics Work.program Delivers)
      (initializeServer configs pipeFd numWorkers).system tr' x.1.system ∧
      tr'.filterMap seen = x.2) ?_ ?_).2.2
  · exact ⟨inv_initializeServer configs pipeFd numWorkers, hheld, [], .start, rfl⟩
  · rintro ⟨σ, history⟩ e ⟨σ', history'⟩ ⟨hi, hh, tr₁, hr₁, h₁⟩ ⟨⟨hd, hs⟩, hobserve⟩
    obtain ⟨tr₂, hr₂, h₂⟩ := hs.system hi hh hd
    refine ⟨hi.step hd hs, hs.held hh, tr₁ ++ tr₂, hr₁.trans hr₂, ?_⟩
    rw [List.filterMap_append, h₁, h₂]
    exact hobserve.symm

theorem follows_start (configs : FSConfig) (pipeFd : ℤ) (numWorkers : ℕ) :
    Follows Work.program semantics (initializeServer configs pipeFd numWorkers).system
      ⟨SessionTable.initSessionSystem, (.initializeFileSystem configs, []), fun _ => .idle⟩ where
  common := by
    have hnone : (List.replicate numWorkers (⟨.idle, []⟩ : Worker)).flatMap Worker.pending = [] :=
      List.flatMap_eq_nil_iff.mpr fun w hw => by rw [List.eq_of_mem_replicate hw]
    exact congrArg (Prod.mk _) hnone.symm
  together client := by
    have hnone : running (List.replicate numWorkers ⟨.idle, []⟩) client = none :=
      List.findSome?_eq_none_iff.mpr fun w hw => by rw [List.eq_of_mem_replicate hw]; rfl
    change Together _ _ _ _ _ (running (List.replicate numWorkers ⟨.idle, []⟩) client) _
    rw [hnone]
    exact .idle rfl

theorem exists_atomic_run
    (h : Run (Recorded observe DocumentedStep) (initializeServer configs pipeFd numWorkers, []) tr
      (σ,history)) :
    ∃ tr' t, Run AtomicServer.Step (.start configs) tr' (.ofSystem t) ∧
      tr'.filterMap AtomicEvent.observation = history ∧
      Follows Work.program semantics σ.system t := by
  obtain ⟨tr₁, hr₁, h₁⟩ := run_system h
  obtain ⟨tr₂, t, hr₂, hvisible, hfollows⟩ :=
    (follows_start configs pipeFd numWorkers).run Work.program_atMost hr₁
  obtain ⟨tr₃, hr₃, h₃⟩ := AtomicServer.run_ofSystem hr₂
  refine ⟨tr₃, t, hr₃, ?_, hfollows⟩
  rw [h₃, filterMap_seen hvisible, h₁]

/-- Whatever the clients see of the threads, they see of a server that serves each request in one
piece, between reading it and writing the response: a run of the server, one request after the
other. It leaves the same file system, the same notifications to deliver, and to each client for
whom nobody works the same session. -/
theorem linearizable
    (h : Run (Recorded observe DocumentedStep) (initializeServer configs pipeFd numWorkers, []) tr
      (σ,history)) :
    ∃ tr' s, Run AtomicServer.Step (.start configs) tr' s ∧
      tr'.filterMap AtomicEvent.observation = history ∧
      Run ServerState.Step (.start configs) (tr'.filterMap AtomicEvent.served) s.server ∧
      s.server.fs = σ.fs ∧ s.server.gLockQueue = σ.undelivered ∧
      ∀ client, running σ.workers client = none →
        s.phase client = .idle ∧ s.server.gSessionTable client = σ.gSessionTable client := by
  obtain ⟨tr', t, hr, hobs, hfollows⟩ := exists_atomic_run h
  refine ⟨tr', .ofSystem t, hr, hobs, AtomicServer.run_served hr,
    congrArg Prod.fst hfollows.common, congrArg Prod.snd hfollows.common, fun client hc => ?_⟩
  have hk := hfollows.together client
  change Together _ _ _ (σ.gSessionTable client) _ (running σ.workers client) _ at hk
  rw [hc] at hk
  generalize hx : t.phase client = x at hk
  cases hk with
  | idle hl => exact ⟨hx, hl⟩

theorem next_unseen {x : Threads × List Observation} {t : ThreadId}
    (h : Run (Recorded observe DocumentedStep) x tr (σ,history)) (hs : Step σ ⟨t, .internal⟩ σ') :
    Run (Recorded observe DocumentedStep) x (tr ++ [⟨t, .internal⟩]) (σ',history) :=
  h.next ⟨⟨trivial, hs⟩, (List.append_nil history).symm⟩

/-! ### One worker and one client -/

/-- The server with one worker, and client 2, who goes round between the worker and the select
thread. -/
def lone (s : ServerState) (queue : CircQueue ℤ ringBufferSize) (state : WorkerState) : Threads :=
  { initializeServer FileSystem.defaultConfigs 1 1 with
    opened := {2}
    gFdSet := {1}
    gMaxFd := 2
    gWorkQueue := queue
    fs := s.fs
    gSessionTable := s.gSessionTable
    select := .scanning {2} 3 1
    workers := [⟨state, []⟩] }

variable {s s' : ServerState} {queue : CircQueue ℤ ringBufferSize} {x : Threads × List Observation}

theorem run_connected : ∃ tr queue, Run (Recorded observe DocumentedStep)
    (initializeServer FileSystem.defaultConfigs 1 1, []) tr
      (lone (.start FileSystem.defaultConfigs) queue (.reading 2), []) ∧ queue.toList = [] := by
  have h : Run (Recorded observe DocumentedStep)
      (initializeServer FileSystem.defaultConfigs 1 1, []) [] _ := .start
  have h := next_unseen h
    (@Step.accept (initializeServer FileSystem.defaultConfigs 1 1) 2 rfl (by decide) (by decide)
      (by decide))
  have h := next_unseen h (.announce rfl)
  have h := next_unseen h (@Step.select _ {1} rfl (by decide) (by decide))
  have h := next_unseen h (.message rfl (by decide) rfl)
  have h := next_unseen h (.notReady rfl (by decide) (by decide))
  have h := next_unseen h (.skipPipe rfl (by decide) (by decide) rfl)
  have h := next_unseen h (.notReady rfl (by decide) (by decide))
  have h := next_unseen h (.scanned rfl (by decide))
  have h := next_unseen h (@Step.select _ {2} rfl (by decide) (by decide))
  have h := next_unseen h (.noMessage rfl (by decide))
  have h := next_unseen h (.notReady rfl (by decide) (by decide))
  have h := next_unseen h (.notReady rfl (by decide) (by decide))
  have h := next_unseen h (.clear rfl (by decide) (by decide) (by decide))
  have h := next_unseen h (.push rfl rfl)
  have h := next_unseen h (@Step.take _ [] [] _ _ rfl rfl)
  exact ⟨_, _, h, rfl⟩

/-- The client goes back through the pipe and is found ready again. -/
theorem run_round (h : Run (Recorded observe DocumentedStep) x tr
      (lone s queue (.returning 2), history)) (hq : queue.toList = []) :
    ∃ tr' queue', Run (Recorded observe DocumentedStep) x tr'
      (lone s queue' (.reading 2), history) ∧ queue'.toList = [] := by
  obtain ⟨queue₁, queue₂, hpush, hpop, hempty⟩ :=
    CircQueue.exists_pop (by decide : 0 < ringBufferSize) hq 2
  have hpipe : (1 : ℤ) ∈ ({1} : Finset ℤ) := by decide
  have hready : (2 : ℤ) ∈ ({2} : Finset ℤ) := by decide
  have h := next_unseen h (@Step.giveBack _ [] [] _ rfl)
  have h := next_unseen h (.scanned rfl (by decide : (2 : ℤ) < 3))
  have h := next_unseen h (@Step.select _ {1} rfl (by decide : ({1} : Finset ℤ) ⊆ {1})
    (by decide : ∀ fd ∈ ({1} : Finset ℤ), fd ≤ 1))
  have h := next_unseen h (.message rfl hpipe rfl)
  have h := next_unseen h (.notReady rfl (by decide : (0 : ℤ) ≤ 2)
    (by decide : (0 : ℤ) ∉ ({1} : Finset ℤ)))
  have h := next_unseen h (.skipPipe rfl (by decide : (1 : ℤ) ≤ 2) hpipe rfl)
  have h := next_unseen h (.notReady rfl (by decide : (2 : ℤ) ≤ 2)
    (by decide : (2 : ℤ) ∉ ({1} : Finset ℤ)))
  have h := next_unseen h (.scanned rfl (by decide : (2 : ℤ) < 3))
  have h := next_unseen h (@Step.select _ {2} rfl (by decide : ({2} : Finset ℤ) ⊆ {2,1})
    (by decide : ∀ fd ∈ ({2} : Finset ℤ), fd ≤ 2))
  have h := next_unseen h (.noMessage rfl (by decide : (1 : ℤ) ∉ ({2} : Finset ℤ)))
  have h := next_unseen h (.notReady rfl (by decide : (0 : ℤ) ≤ 2)
    (by decide : (0 : ℤ) ∉ ({2} : Finset ℤ)))
  have h := next_unseen h (.notReady rfl (by decide : (1 : ℤ) ≤ 2)
    (by decide : (1 : ℤ) ∉ ({2} : Finset ℤ)))
  have h := next_unseen h (.clear rfl (by decide : (2 : ℤ) ≤ 2) hready (by decide : (2 : ℤ) ≠ 1))
  have h := next_unseen h (.push rfl hpush)
  have h := next_unseen h (@Step.take _ [] [] _ _ rfl hpop)
  exact ⟨_, _, h, hempty⟩

theorem run_lockQueue {α : Type} {p : Handler α} {a : α}
    (h : p.run ServerState.exec s = some (s', a)) : s.gLockQueue <+: s'.gLockQueue := by
  refine Program.run_invariant (I := fun t => s.gLockQueue <+: t.gLockQueue) ?_ h List.prefix_rfl
  intro i t t' r hprefix ht
  cases i with
  | session op =>
    cases ht
    exact hprefix
  | fs op =>
    obtain ⟨r', -, hr'⟩ := Option.map_eq_some_iff.mp ht
    cases hr'
    exact hprefix.trans (List.prefix_append ..)

/-- A worker runs its program undisturbed, if that notifies nobody. -/
theorem run_program {p : Handler Ending} {ending : Ending}
    (h : Run (Recorded observe DocumentedStep) x tr (lone s queue (.working 2 true p), history))
    (hp : p.run ServerState.exec s = some (s', ending)) (hs' : s'.gLockQueue = []) :
    ∃ tr', Run (Recorded observe DocumentedStep) x tr'
      (lone s' queue (.working 2 true (.ret ending)), history) := by
  have hcall : ThreadEvent.Documented ⟨.worker 0, .call (2 : Client)⟩ := trivial
  induction p generalizing s tr with
  | ret b =>
    cases hp
    exact ⟨tr, h⟩
  | call i next ih =>
    obtain ⟨t, r, ht, hr⟩ := Program.run_call hp
    suffices hrest : Run (Recorded observe DocumentedStep) x
        (tr ++ [⟨.worker 0, .call (2 : Client)⟩])
          (lone t queue (.working 2 true (next r)), history) from ih r hrest hr
    have hunseen : history = history ++ [] := (List.append_nil history).symm
    cases i with
    | session op =>
      cases ht
      exact h.next ⟨⟨hcall, @Step.sessionCall _ [] [] true _ _ 2 rfl⟩, hunseen⟩
    | fs op =>
      obtain ⟨⟨fs, out⟩, ho, hr'⟩ := Option.map_eq_some_iff.mp ht
      cases hr'
      have hnone : s.gLockQueue ++ out.issued = [] :=
        List.prefix_nil.mp (hs' ▸ run_lockQueue hr)
      have hstep := @Step.fsCall (lone s queue (.working 2 true (.call (.fs op) next))) [] [] true
        op next fs out 2 rfl (List.forall_mem_singleton.mpr rfl) ho
      rw [(List.append_eq_nil_iff.mp hnone).2] at hstep
      exact h.next ⟨⟨hcall, hstep⟩, hunseen⟩

/-- A request is served and answered, and the next one is about to be read. -/
theorem run_served {msg : SockMessage} (h : Run (Recorded observe DocumentedStep) x tr
      (lone s queue (.reading 2), history)) (hq : queue.toList = [])
    (hd : ThreadEvent.Documented ⟨.worker 0, .request 2 msg⟩)
    (hr : ((handleWork 2 msg fun _ => 0).run ServerState.exec s).isSome)
    (hs' : (s.after 2 msg).gLockQueue = []) (hp : ¬ LockPostponed msg (s.responseTo 2 msg)) :
    ∃ tr' queue', Run (Recorded observe DocumentedStep) x tr'
      (lone (s.after 2 msg) queue' (.reading 2),
        history ++ [.asked 2 msg, .answered 2 (s.responseTo 2 msg)]) ∧ queue'.toList = [] := by
  have hresponse : ThreadEvent.Documented ⟨.worker 0, .response (2 : Client)⟩ := trivial
  have hrun : (serve 2 msg fun _ => 0).run ServerState.exec s =
      some (s.after 2 msg, .respond (s.responseTo 2 msg)) := by
    have hwork : (handleWork 2 msg fun _ => 0).run ServerState.exec s = some (_, _) :=
      s.step_after 2 msg hr
    rw [serve, Program.run_bind, hwork, Option.bind_some]
    dsimp only
    rw [if_neg hp]
    rfl
  have h := h.next_recorded ⟨hd, @Step.request _ [] [] _ _ (fun _ => 0) 2 rfl rfl⟩
  obtain ⟨tr₁, h⟩ := run_program h hrun hs'
  have h := h.next_recorded ⟨hresponse, @Step.respond _ [] [] true _ 2 rfl⟩
  obtain ⟨tr₂, queue', h, hempty⟩ := run_round h hq
  refine ⟨tr₂, queue', ?_, hempty⟩
  have hobserved : observe (observe history (lone s queue (.reading 2)) ⟨.worker 0, .request 2 msg⟩)
      (lone (s.after 2 msg) queue (.working 2 true (.ret (.respond (s.responseTo 2 msg)))))
        ⟨.worker 0, .response 2⟩ =
      history ++ [.asked 2 msg, .answered 2 (s.responseTo 2 msg)] :=
    List.append_assoc history [_] [_]
  rw [← hobserved]
  exact h

/-- The only worker has opened a session for client 2, and creates the file `a` for it. -/
theorem run_openFile :
    ∃ tr σ response out,
      Run (Recorded observe DocumentedStep) (initializeServer FileSystem.defaultConfigs 1 1, []) tr
        (σ, [.asked 2 (ServerState.requestA .reqOpenSession 0), .answered 2 response,
          .asked 2 (ServerState.requestA .reqOpenFile flagCreate)]) ∧
      response.response.status = .ok ∧
      (FileSystem.initializeFileSystem FileSystem.defaultConfigs).apply
        (openOperation 2 (ServerState.requestA .reqOpenFile flagCreate)) = some (σ.fs, out) := by
  obtain ⟨tr, queue, h, hq⟩ := run_connected
  have hsession : ThreadEvent.Documented
      ⟨.worker 0, .request 2 (ServerState.requestA .reqOpenSession 0)⟩ := fun ht => by cases ht
  obtain ⟨tr, queue, h, hq⟩ :=
    run_served h hq hsession (by decide +kernel) (by decide +kernel) (by decide +kernel)
  have hopen : ThreadEvent.Documented
      ⟨.worker 0, .request 2 (ServerState.requestA .reqOpenFile flagCreate)⟩ :=
    fun _ => List.mem_cons_of_mem _ List.mem_cons_self
  have hcall : ThreadEvent.Documented ⟨.worker 0, .call (2 : Client)⟩ := trivial
  have h := h.next_recorded ⟨hopen, @Step.request _ [] [] _ _ (fun _ => 0) 2 rfl rfl⟩
  have h := h.next_recorded ⟨hcall, @Step.sessionCall _ [] [] _ _ _ _ rfl⟩
  have h := h.next_recorded ⟨hcall, @Step.sessionCall _ [] [] _ _ _ _ rfl⟩
  have hsome : ((FileSystem.initializeFileSystem FileSystem.defaultConfigs).apply
      (openOperation 2 (ServerState.requestA .reqOpenFile flagCreate))).isSome := by
    decide +kernel
  obtain ⟨⟨fs, out⟩, ho⟩ := Option.isSome_iff_exists.mp hsome
  have h := h.next_recorded ⟨hcall, @Step.fsCall _ [] [] _ _ _ fs out _ rfl
    (List.forall_mem_singleton.mpr rfl) ho⟩
  exact ⟨_, _, _, out, h, by decide +kernel, ho⟩

theorem linearizable_openFile :
    ∃ tr s response, Run AtomicServer.Step (.start FileSystem.defaultConfigs) tr s ∧
      tr.filterMap AtomicEvent.observation =
        [.asked 2 (ServerState.requestA .reqOpenSession 0), .answered 2 response,
          .asked 2 (ServerState.requestA .reqOpenFile flagCreate)] ∧
      response.response.status = .ok ∧ s.server.fs.view.entries.length = 1 := by
  obtain ⟨tr, σ, response, out, h, hok, ho⟩ := run_openFile
  obtain ⟨tr', s, hr, hobs, -, hfs, -⟩ := linearizable h
  refine ⟨tr', s, response, hr, hobs, hok, ?_⟩
  have hlength : ((FileSystem.initializeFileSystem FileSystem.defaultConfigs).apply
      (openOperation 2 (ServerState.requestA .reqOpenFile flagCreate))).map
      (fun r => r.1.view.entries.length) = some 1 := by
    decide +kernel
  rw [ho] at hlength
  rw [hfs]
  exact Option.some.inj hlength

end Runs
end Threads
end StorageServer.Server
