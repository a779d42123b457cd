import StorageServer.Server.Postponed

/-! Where the descriptors are. Every step of a thread moves a descriptor from one place to
another, so that each connected client is in exactly one place; together with what a request is
still owed, this is the invariant of the threads. -/
namespace StorageServer.Server
open Common Library.Calls Library.Runs

/-! ### Places -/

namespace WorkerState
variable {client : Client} {asked : Bool} {response : SockMessage} {fd : ℤ}

/-- What a worker holds; it has let go of a client once there is nothing left but to forget it. -/
def hands : WorkerState → List ℤ
  | idle => []
  | reading fd | returning fd => [fd]
  | working _ _ (.ret .forget) => []
  | working client _ _ => [(client : ℤ)]

/-- The clients whose request has been read and not been answered. -/
def owed : WorkerState → List ℤ
  | idle | reading _ | returning _ => []
  | working _ _ (.ret .forget) | working _ false _ => []
  | working client true _ => [(client : ℤ)]

@[simp] theorem hands_idle : idle.hands = [] := rfl
@[simp] theorem hands_reading : (reading fd).hands = [fd] := rfl
@[simp] theorem hands_returning : (returning fd).hands = [fd] := rfl
@[simp] theorem hands_forget : (working client asked (.ret .forget)).hands = [] := rfl
@[simp] theorem hands_remove : (working client asked (.ret .remove)).hands = [(client : ℤ)] := rfl

@[simp] theorem hands_respond :
    (working client asked (.ret (.respond response))).hands = [(client : ℤ)] := rfl

@[simp] theorem hands_call {i : ServerCall} {next : i.Result → Handler Ending} :
    (working client asked (.call i next)).hands = [(client : ℤ)] := rfl

/-- Before it has nothing left but to forget, a worker holds its client, and owes an answer if it
has read a request. -/
theorem hands_working {rest : Handler Ending} (h : rest ≠ .ret .forget) :
    (working client asked rest).hands = [(client : ℤ)] ∧
      (working client asked rest).owed = if asked then [(client : ℤ)] else [] := by
  rcases rest with (_ | _ | _) | ⟨i, next⟩
  · exact ⟨rfl, by cases asked <;> rfl⟩
  · exact absurd rfl h
  · exact ⟨rfl, by cases asked <;> rfl⟩
  · exact ⟨rfl, by cases asked <;> rfl⟩

theorem owed_sublist (state : WorkerState) : state.owed.Sublist state.hands := by
  cases state with
  | working client asked rest =>
    by_cases h : rest = .ret .forget
    · subst h
      exact .slnil
    · rw [(hands_working h).1, (hands_working h).2]
      cases asked
      · exact List.nil_sublist _
      · exact List.Sublist.refl _
  | idle | reading | returning => exact List.nil_sublist _

end WorkerState

/-- The notifications that a worker is pushing are in its hands as well. -/
def Worker.hands (w : Worker) : List ℤ := w.state.hands ++ w.pending.map FSLockNotification.fd

def Worker.owed (w : Worker) : List ℤ := w.state.owed ++ w.pending.map FSLockNotification.fd

def SelectState.hands : SelectState → List ℤ
  | copying | selected _ | scanning .. => []
  | pushing _ fd _ => [fd]

def LockState.hands : LockState → List ℤ
  | idle => []
  | answering notification => [notification.fd]
  | returning fd => [fd]

def LockState.owed : LockState → List ℤ
  | idle | returning _ => []
  | answering notification => [notification.fd]

namespace Threads

/-- The descriptors in the hands of a thread. -/
def hands (σ : Threads) : ThreadId → List ℤ
  | .main => σ.main.toList
  | .select => σ.select.hands
  | .lock => σ.lock.hands
  | .worker id => σ.workers[id]?.elim [] Worker.hands

/-- The number of places at which a client is: the set of the select thread, which watches the
pipe as well, the work queue, the hands of the threads, the queues of the files, the lock queue
and the pipe. -/
def places (σ : Threads) (fd : ℤ) : ℕ :=
  (if fd ∈ σ.gFdSet.erase σ.pipeFd then 1 else 0) + σ.gWorkQueue.toList.count fd +
    σ.main.toList.count fd + σ.select.hands.count fd +
    (σ.workers.flatMap Worker.hands).count fd + σ.lock.hands.count fd +
    σ.fs.view.waiters.count fd +
    (σ.gLockQueue.toList.map FSLockNotification.fd).count fd +
    (σ.pipe.map PipeMessage.value).count fd

/-- The number of answers that are owed to a client. -/
def owed (σ : Threads) (fd : ℤ) : ℕ :=
  (σ.workers.flatMap Worker.owed).count fd + σ.lock.owed.count fd +
    σ.fs.view.waiters.count fd + (σ.gLockQueue.toList.map FSLockNotification.fd).count fd

end Threads

/-- The ready descriptors that the select thread has not scanned yet. -/
def SelectState.Due : SelectState → ℤ → Prop
  | copying, _ => False
  | selected fdsCpy, fd => fd ∈ fdsCpy
  | scanning fdsCpy next _, fd => fd ∈ fdsCpy ∧ next ≤ fd
  | pushing fdsCpy last _, fd => fd ∈ fdsCpy ∧ last < fd

/-- What is left of the work on behalf of a client. -/
def Proceeds (client : Client) : Bool → Handler Ending → Prop
  | true, rest => rest = .ret .forget ∨ rest.Uses (OnBehalf client) Queues
      (fun e => ∃ r, e = .respond r) (fun e => e = .forget)
  | false, rest => rest.Uses (OnBehalf client) Queues (fun e => e = .remove) (fun _ => False)

/-- Every connected client is in one place, and the threads go on as they should. -/
structure Threads.Inv (σ : Threads) : Prop where
  valid : σ.fs.Valid
  placed : ∀ fd, σ.places fd = if fd ∈ σ.opened then 1 else 0
  pipe_notMem : σ.pipeFd ∉ σ.opened
  due : ∀ fd, fd ≠ σ.pipeFd → σ.select.Due fd → fd ∈ σ.gFdSet
  proceeds : ∀ w ∈ σ.workers, ∀ client asked rest, w.state = .working client asked rest →
    Proceeds client asked rest

section Steps
variable {σ σ' : Threads} {e : ThreadEvent} {client : Client} {asked : Bool}
  {rest : Handler Ending}

/-- A program that never returns without an answer begins with its client in hand. -/
theorem ne_forget {good final : Ending → Prop} (h : rest.Uses (OnBehalf client) Queues good final)
    (hg : ¬ good .forget) : rest ≠ .ret .forget := by
  rintro rfl
  exact hg h

/-- A call on behalf of a client either queues the client, and there is nothing left to do, or the
work goes on. -/
theorem Proceeds.call {i : ServerCall} {next : i.Result → Handler Ending}
    (h : Proceeds client asked (.call i next)) (r : i.Result) :
    OnBehalf client i ∧ Proceeds client asked (next r) ∧
      (Queues i r → asked = true ∧ next r = .ret .forget) ∧
      (¬ Queues i r → next r ≠ .ret .forget) := by
  cases asked with
  | true =>
    have h := h.resolve_left (by simp)
    refine ⟨h.1, ?_, fun hq => ?_, fun hq hf => ?_⟩
    · by_cases hq : Queues i r
      · obtain ⟨a, ha, rfl⟩ := (h.2 r).1 hq
        exact Or.inl ha
      · exact Or.inr ((h.2 r).2 hq)
    · obtain ⟨a, ha, rfl⟩ := (h.2 r).1 hq
      exact ⟨rfl, ha⟩
    · have hu := (h.2 r).2 hq
      rw [hf] at hu
      obtain ⟨x, hx⟩ := hu
      cases hx
  | false =>
    refine ⟨h.1, (h.2 r).2 fun hq => ?_, fun hq => ?_, fun hq hf => ?_⟩
    · obtain ⟨a, -, ha⟩ := (h.2 r).1 hq
      exact ha
    · obtain ⟨a, -, ha⟩ := (h.2 r).1 hq
      exact ha.elim
    · have hu := (h.2 r).2 hq
      rw [hf] at hu
      cases hu

/-- Only who has read a request answers. -/
theorem Proceeds.respond {response : SockMessage}
    (h : Proceeds client asked (.ret (.respond response))) : asked = true := by
  cases asked with
  | true => rfl
  | false => cases h

theorem Proceeds.remove (h : Proceeds client asked (.ret .remove)) : asked = false := by
  cases asked with
  | false => rfl
  | true =>
    rcases h with h | ⟨r, h⟩
    · cases h
    · cases h

theorem forall_split {α : Type} {P : α → Prop} {l r : List α} {a b : α}
    (h : ∀ x ∈ l ++ a :: r, P x) (hb : P b) : ∀ x ∈ l ++ b :: r, P x := by
  intro x hx
  rcases List.mem_append.mp hx with hx | hx
  · exact h x (List.mem_append_left _ hx)
  · rcases List.mem_cons.mp hx with rfl | hx
    · exact hb
    · exact h x (List.mem_append_right _ (List.mem_cons_of_mem _ hx))

theorem Queues.res {op : FsOperation} {out : FSOutcome} (h : Queues (.fs op) out) :
    out.res = fsClientWaitingOnLock := by
  cases op with
  | trylock => exact h.1
  | insert | remove | obtain | obtainN | modify | append | exist | unlock | clean => exact h.elim

theorem Store.Effect.queues {s s' : Store} {op : FsOperation} {out : FSOutcome}
    (h : s.Effect op out s') (hw : out.res = fsClientWaitingOnLock) : Queues (.fs op) out := by
  cases h with
  | queued => exact ⟨rfl, rfl⟩
  | refused hf he hr => exact absurd hw (ne_waiting_of_mem_errors hr.mem_errors)
  | present | missing | listed | obtained | existing | locked | unlocked | removed | inserted
  | modified | appended | cleaned => exact absurd hw (by simp [ejected, Store.clean])

theorem count_split {α : Type} (f : α → List ℤ) (l r : List α) (a : α) (c : ℤ) :
    ((l ++ a :: r).flatMap f).count c =
      (l.flatMap f).count c + (f a).count c + (r.flatMap f).count c := by
  rw [List.flatMap_append, List.flatMap_cons, List.count_append, List.count_append, Nat.add_assoc]

theorem count_elim_le {α : Type} (f : α → List ℤ) (ws : List α) (i : ℕ) (c : ℤ) :
    (ws[i]?.elim [] f).count c ≤ (ws.flatMap f).count c := by
  induction ws generalizing i with
  | nil => exact Nat.zero_le _
  | cons w ws ih =>
    rw [List.flatMap_cons, List.count_append]
    cases i with
    | zero => exact Nat.le_add_right _ _
    | succ i =>
      have h := ih i
      rw [List.getElem?_cons_succ]
      omega

theorem count_elim_add_le {α : Type} (f : α → List ℤ) (ws : List α) {i j : ℕ} (hij : i ≠ j)
    (c : ℤ) :
    (ws[i]?.elim [] f).count c + (ws[j]?.elim [] f).count c ≤ (ws.flatMap f).count c := by
  induction ws generalizing i j with
  | nil => exact le_rfl
  | cons w ws ih =>
    rw [List.flatMap_cons, List.count_append]
    cases i with
    | zero =>
      obtain ⟨j, rfl⟩ := Nat.exists_eq_succ_of_ne_zero (Ne.symm hij)
      have h := count_elim_le f ws j c
      rw [List.getElem?_cons_succ]
      exact Nat.add_le_add_left h _
    | succ i =>
      cases j with
      | zero =>
        have h := count_elim_le f ws i c
        rw [List.getElem?_cons_succ, Nat.add_comm]
        exact Nat.add_le_add_left h _
      | succ j =>
        have h := ih (i := i) (j := j) (by omega)
        simp only [List.getElem?_cons_succ]
        omega

/-- Requests to open a file carry the documented flags. -/
def ThreadEvent.Documented (e : ThreadEvent) : Prop :=
  match e.action with
  | .request _ msg => Server.Documented msg
  | _ => True

namespace Threads

theorem Inv.at_work (hi : σ.Inv) {l r : List Worker} {ns : List FSLockNotification}
    (hw : σ.workers = l ++ ⟨.working client asked rest, ns⟩ :: r) : Proceeds client asked rest :=
  hi.proceeds _ (hw ▸ List.mem_append_right _ List.mem_cons_self) client asked rest rfl

@[simp] theorem count_single (a fd : ℤ) : [a].count fd = if a = fd then 1 else 0 := by
  simp [List.count_singleton]

/-- What has a place is a client, and the pipe is not one. -/
theorem Inv.mem_opened (hi : σ.Inv) {fd : ℤ} (h : 0 < σ.places fd) : fd ∈ σ.opened := by
  by_contra hno
  rw [hi.placed, if_neg hno] at h
  omega

theorem Inv.ne_pipeFd (hi : σ.Inv) {fd : ℤ} (h : 0 < σ.places fd) : fd ≠ σ.pipeFd :=
  fun hp => hi.pipe_notMem (hp ▸ hi.mem_opened h)

/-- A worker that keeps what it holds. -/
theorem places_worker {l r : List Worker} {w w' : Worker} {fd : ℤ} {n : ℕ}
    (h : σ.places fd = n) (hw : σ.workers = l ++ w :: r) (hh : w'.hands = w.hands) :
    ({ σ with workers := l ++ w' :: r } : Threads).places fd = n := by
  simp only [places, hw, count_split, hh] at h ⊢
  exact h

/-- A worker that owes the same answers as before. -/
theorem owed_worker {l r : List Worker} {w w' : Worker} (hw : σ.workers = l ++ w :: r)
    (ho : w'.owed = w.owed) (fd : ℤ) (n : ℕ) :
    ({ σ with workers := l ++ w' :: r } : Threads).owed fd + n = σ.owed fd + n := by
  simp only [Threads.owed, hw, count_split, ho]

theorem Step.placed (hi : σ.Inv) (hd : e.Documented) (hs : Step σ e σ') (fd : ℤ) :
    σ'.places fd = if fd ∈ σ'.opened then 1 else 0 := by
  have h := hi.placed fd
  cases hs with
  | accept hm hopen hpipe h0 =>
    simp only [places, hm, Option.toList, List.count_nil, count_single, Finset.mem_insert] at h ⊢
    split_ifs at h ⊢ <;> simp_all
  | announce hm =>
    simp only [places, hm, Option.toList, List.count_nil, send, List.map_append, List.map_cons,
      List.map_nil, List.count_append, PipeMessage.value] at h ⊢
    omega
  | reject hm =>
    simp only [places, hm, Option.toList, List.count_nil, close, count_single,
      Finset.mem_erase] at h ⊢
    split_ifs at h ⊢ <;> simp_all <;> omega
  | select hs _ _ | noMessage hs _ | notReady hs _ _ | skipPipe hs _ _ _ | scanned hs _ =>
    simp only [places, hs, SelectState.hands] at h ⊢
    exact h
  | @message fdsCpy message messages hs hp hm =>
    cases message with
    | newConnection value | setConnection value =>
      have hv : value ≠ σ.pipeFd := hi.ne_pipeFd (by simp [places, hm, PipeMessage.value])
      simp only [places, hs, hm, SelectState.hands, receive, List.map_cons, PipeMessage.value,
        List.count_cons, Finset.mem_erase, Finset.mem_insert, beq_iff_eq] at h ⊢
      split_ifs at h ⊢ <;> simp_all <;> omega
    | remConnection value =>
      simp only [places, hs, hm, SelectState.hands, receive, close, List.map_cons,
        PipeMessage.value, List.count_cons, Finset.mem_erase, beq_iff_eq] at h ⊢
      split_ifs at h ⊢ <;> simp_all <;> omega
  | @clear fdsCpy x newMaxFd hs hle hmem hpipe =>
    have hset := hi.due x hpipe (by rw [hs]; exact ⟨hmem, le_rfl⟩)
    simp only [places, hs, SelectState.hands, count_single, List.count_nil,
      Finset.mem_erase] at h ⊢
    split_ifs at h ⊢ <;> simp_all
    omega
  | push hs hq =>
    simp only [places, hs, SelectState.hands, CircQueue.tryPush_toList hq, List.count_append,
      List.count_nil] at h ⊢
    omega
  | overflow hs hq =>
    simp only [places, hs, SelectState.hands, close, count_single, List.count_nil,
      Finset.mem_erase] at h ⊢
    split_ifs at h ⊢ <;> simp_all <;> omega
  | take hw hq =>
    simp only [places, hw, count_split, Worker.hands, WorkerState.hands_idle,
      WorkerState.hands_reading, CircQueue.tryPop_toList hq, List.map_nil, List.append_nil,
      List.count_nil, List.count_cons, beq_iff_eq] at h ⊢
    omega
  | @request l r x msg rand client hw hc =>
    subst hc
    have hstart : (WorkerState.working client true (serve client msg rand)).hands =
      [(client : ℤ)] := (WorkerState.hands_working (ne_forget (serve_uses hd rand) (by simp))).1
    exact places_worker h hw (congrArg (· ++ []) hstart)
  | @endOfFile l r x client hw hc =>
    subst hc
    have hstart : (WorkerState.working client false (disconnect client)).hands = [(client : ℤ)] :=
      (WorkerState.hands_working (ne_forget (disconnect_uses client) (by simp))).1
    exact places_worker h hw (congrArg (· ++ []) hstart)
  | readError hw hc =>
    subst hc
    exact places_worker h hw rfl
  | @sessionCall l r asked op next client hw =>
    obtain ⟨-, -, -, hgo⟩ := (hi.at_work hw).call (σ.gSessionTable.apply op).2
    have hhands : (WorkerState.working client asked (next (σ.gSessionTable.apply op).2)).hands =
      [(client : ℤ)] := (WorkerState.hands_working (hgo fun h => h)).1
    exact places_worker h hw (congrArg (· ++ []) hhands)
  | @fsCall l r asked op next fs out client hw hmutex ho =>
    obtain ⟨hbehalf, -, hstop, hgo⟩ := (hi.at_work hw).call out
    have heffect := ho.effect hi.valid.wf
    have hcount := heffect.count_waiters hi.valid.sound fd
    by_cases hq : Queues (.fs op) out
    · -- the client goes from the hands of the worker into the queue of the file
      have hclient : op.client = (client : ℤ) := hbehalf
      rw [hclient] at hcount
      simp only [hq.res, true_and] at hcount
      simp only [places, hw, count_split, Worker.hands, (hstop hq).2, WorkerState.hands_call,
        WorkerState.hands_forget, List.map_nil, List.append_nil, List.nil_append,
        count_single] at h ⊢
      omega
    · have hhands : (WorkerState.working client asked (next out)).hands = [(client : ℤ)] :=
        (WorkerState.hands_working (hgo hq)).1
      rw [if_neg fun h => hq (heffect.queues h.1)] at hcount
      simp only [places, hw, count_split, Worker.hands, hhands, WorkerState.hands_call,
        List.map_nil, List.append_nil, List.count_append] at h ⊢
      omega
  | notify hw hq =>
    simp only [places, hw, count_split, Worker.hands, CircQueue.tryPush_toList hq, List.map_append,
      List.map_cons, List.map_nil, List.count_append, List.count_cons, List.count_nil] at h ⊢
    omega
  | respond hw | forget hw => exact places_worker h hw rfl
  | giveBack hw | remove hw =>
    simp only [places, hw, count_split, Worker.hands, WorkerState.hands_idle,
      WorkerState.hands_returning, WorkerState.hands_remove, send, List.map_append, List.map_cons,
      List.map_nil, List.append_nil, List.count_append, List.count_nil, PipeMessage.value] at h ⊢
    omega
  | takeNotification hl hq =>
    simp only [places, hl, LockState.hands, CircQueue.tryPop_toList hq, List.map_cons,
      List.count_cons, List.count_nil] at h ⊢
    omega
  | answer hl =>
    simp only [places, hl, LockState.hands] at h ⊢
    exact h
  | lockGiveBack hl =>
    simp only [places, hl, LockState.hands, send, List.map_append, List.map_cons, List.map_nil,
      List.count_append, List.count_nil, PipeMessage.value] at h ⊢
    omega

theorem Step.valid (h : σ.fs.Valid) (hs : Step σ e σ') : σ'.fs.Valid := by
  cases hs with
  | fsCall hw hmutex ho => exact h.step ho
  | @message fdsCpy message messages hs hp hm => cases message <;> exact h
  | _ => exact h

theorem Step.pipe_notMem (h : σ.pipeFd ∉ σ.opened) (hs : Step σ e σ') : σ'.pipeFd ∉ σ'.opened := by
  cases hs with
  | accept hm hopen hpipe h0 =>
    rw [Finset.mem_insert]
    rintro (hp | hp)
    · exact hpipe hp.symm
    · exact h hp
  | reject | overflow => exact fun hp => h (Finset.mem_of_mem_erase hp)
  | @message fdsCpy message messages hs hp hm =>
    cases message with
    | remConnection => exact fun hp => h (Finset.mem_of_mem_erase hp)
    | newConnection | setConnection => exact h
  | _ => exact h

theorem Step.due (h : ∀ fd, fd ≠ σ.pipeFd → σ.select.Due fd → fd ∈ σ.gFdSet) (hs : Step σ e σ') :
    ∀ fd, fd ≠ σ'.pipeFd → σ'.select.Due fd → fd ∈ σ'.gFdSet := by
  cases hs with
  | select hs hset hmax => exact fun fd _ hdue => hset hdue
  | noMessage hs hp => exact fun fd hne hdue => h fd hne (hs ▸ hdue.1)
  | @message fdsCpy message messages hs hp hm =>
    intro fd hne hdue
    cases message with
    | newConnection | setConnection => exact Finset.mem_insert_of_mem (h fd hne (hs ▸ hdue.1))
    | remConnection => exact h fd hne (hs ▸ hdue.1)
  | notReady hs | skipPipe hs =>
    intro fd hne hdue
    obtain ⟨hmem, hle⟩ := hdue
    exact h fd hne (hs ▸ ⟨hmem, by omega⟩)
  | clear hs =>
    intro fd hne hdue
    obtain ⟨hmem, hlt⟩ := hdue
    exact Finset.mem_erase.mpr ⟨hlt.ne', h fd hne (hs ▸ ⟨hmem, hlt.le⟩)⟩
  | push hs | overflow hs =>
    intro fd hne hdue
    obtain ⟨hmem, hle⟩ := hdue
    exact h fd hne (hs ▸ ⟨hmem, by omega⟩)
  | scanned => exact fun fd _ hdue => hdue.elim
  | _ => exact h

theorem Step.proceeds (hi : σ.Inv) (hd : e.Documented) (hs : Step σ e σ') :
    ∀ w ∈ σ'.workers, ∀ client asked rest, w.state = .working client asked rest →
      Proceeds client asked rest := by
  have hall := hi.proceeds
  cases hs with
  | take hw | giveBack hw | respond hw | forget hw | remove hw =>
    rw [hw] at hall
    refine forall_split hall ?_
    intro _ _ _ h
    cases h
  | request hw hc =>
    rw [hw] at hall
    refine forall_split hall ?_
    rintro _ _ _ ⟨⟩
    exact Or.inr (serve_uses hd _)
  | endOfFile hw hc =>
    rw [hw] at hall
    refine forall_split hall ?_
    rintro _ _ _ ⟨⟩
    exact disconnect_uses _
  | readError hw hc =>
    rw [hw] at hall
    refine forall_split hall ?_
    rintro _ _ _ ⟨⟩
    rfl
  | sessionCall hw | fsCall hw hmutex ho =>
    have hwork := hi.at_work hw
    rw [hw] at hall
    refine forall_split hall ?_
    rintro _ _ _ ⟨⟩
    exact (hwork.call _).2.1
  | notify hw hq =>
    have hsame := hall _ (hw ▸ List.mem_append_right _ List.mem_cons_self)
    rw [hw] at hall
    exact forall_split hall hsame
  | @message fdsCpy message messages hs hp hm => cases message <;> exact hall
  | _ => exact hall

theorem Inv.step (hi : σ.Inv) (hd : e.Documented) (hs : Step σ e σ') : σ'.Inv where
  valid := hs.valid hi.valid
  placed := hs.placed hi hd
  pipe_notMem := hs.pipe_notMem hi.pipe_notMem
  due := hs.due hi.due
  proceeds := hs.proceeds hi hd

theorem inv_initializeServer (configs : FSConfig) (pipeFd : ℤ) (numWorkers : ℕ) :
    (initializeServer configs pipeFd numWorkers).Inv where
  valid := FileSystem.Valid.start configs
  placed fd := by
    have hidle : (List.replicate numWorkers (⟨.idle, []⟩ : Worker)).flatMap Worker.hands = [] := by
      rw [List.flatMap_eq_nil_iff]
      intro w hw
      rw [List.eq_of_mem_replicate hw]
      rfl
    have hnone : (FileSystem.initializeFileSystem configs).view.waiters = [] := rfl
    simp [places, initializeServer, hidle, hnone, SelectState.hands, LockState.hands]
  pipe_notMem := Finset.notMem_empty _
  due fd _ h := h.elim
  proceeds w hw client asked rest h := by
    rw [List.eq_of_mem_replicate hw] at h
    cases h

/-! ### Answers -/

/-- An answer is owed from reading a request to writing the response. -/
theorem Step.owed (hi : σ.Inv) (hd : e.Documented) (hs : Step σ e σ') (fd : ℤ) :
    σ'.owed fd + e.action.answers.toList.count fd = σ.owed fd + e.action.asks.toList.count fd := by
  cases hs with
  | @message fdsCpy message messages hs hp hm => cases message <;> rfl
  | @request l r x msg rand client hw hc =>
    subst hc
    have hstart : (WorkerState.working client true (serve client msg rand)).owed = [(client : ℤ)] :=
      (WorkerState.hands_working (ne_forget (serve_uses hd rand) (by simp))).2
    have hread : (WorkerState.reading client).owed = [] := rfl
    simp only [Threads.owed, hw, count_split, Worker.owed, hstart, hread, Action.asks,
      Action.answers, Option.toList, List.map_nil, List.append_nil, List.count_nil]
    omega
  | @endOfFile l r x client hw hc =>
    have hstart : (WorkerState.working client false (disconnect client)).owed = [] :=
      (WorkerState.hands_working (ne_forget (disconnect_uses client) (by simp))).2
    refine owed_worker hw ?_ fd 0
    exact congrArg (· ++ []) hstart
  | take hw | readError hw | forget hw | giveBack hw =>
    refine owed_worker hw ?_ fd 0
    rfl
  | @sessionCall l r asked op next client hw =>
    obtain ⟨-, -, -, hgo⟩ := (hi.at_work hw).call (σ.gSessionTable.apply op).2
    have hbefore : (WorkerState.working client asked (.call (.session op) next)).owed = _ :=
      (WorkerState.hands_working (by simp)).2
    have hafter : (WorkerState.working client asked (next _)).owed = _ :=
      (WorkerState.hands_working (hgo fun h => h)).2
    refine owed_worker hw ?_ fd 0
    exact congrArg (· ++ []) (hafter.trans hbefore.symm)
  | @fsCall l r asked op next fs out client hw hmutex ho =>
    obtain ⟨hbehalf, -, hstop, hgo⟩ := (hi.at_work hw).call out
    have heffect := ho.effect hi.valid.wf
    have hcount := heffect.count_waiters hi.valid.sound fd
    have hbefore : (WorkerState.working client asked (.call (.fs op) next)).owed = _ :=
      (WorkerState.hands_working (by simp)).2
    by_cases hq : Queues (.fs op) out
    · obtain ⟨rfl, hforget⟩ := hstop hq
      have hclient : op.client = (client : ℤ) := hbehalf
      rw [hclient] at hcount
      simp only [hq.res, true_and] at hcount
      simp only [Threads.owed, hw, count_split, Worker.owed, hforget, WorkerState.owed, Action.asks,
        Action.answers, List.map_nil, List.append_nil, List.nil_append, count_single]
      omega
    · have hafter : (WorkerState.working client asked (next out)).owed = _ :=
        (WorkerState.hands_working (hgo hq)).2
      rw [if_neg fun h => hq (heffect.queues h.1)] at hcount
      simp only [Threads.owed, hw, count_split, Worker.owed, hbefore, hafter, Action.asks,
        Action.answers, List.map_nil, List.append_nil, List.count_append]
      omega
  | notify hw hq =>
    simp only [Threads.owed, hw, count_split, Worker.owed, CircQueue.tryPush_toList hq,
      List.map_append, List.map_cons, List.map_nil, List.count_append, List.count_cons,
      List.count_nil, Action.asks, Action.answers]
    omega
  | respond hw =>
    obtain rfl := (hi.at_work hw).respond
    simp only [Threads.owed, hw, count_split, Worker.owed, WorkerState.owed, Action.asks,
      Action.answers, Option.toList, List.map_nil, List.append_nil, List.count_nil]
    omega
  | remove hw =>
    obtain rfl := (hi.at_work hw).remove
    refine owed_worker hw ?_ fd 0
    rfl
  | takeNotification hl hq =>
    simp only [Threads.owed, hl, LockState.owed, CircQueue.tryPop_toList hq, List.map_cons,
      List.count_cons, List.count_nil, Action.asks, Action.answers]
    omega
  | answer hl =>
    simp only [Threads.owed, hl, LockState.owed, Action.asks, Action.answers, Option.toList,
      List.count_nil]
    omega
  | lockGiveBack hl =>
    simp only [Threads.owed, send, hl, LockState.owed, Action.asks, Action.answers]
  | _ => rfl

theorem owed_le_places (σ : Threads) (fd : ℤ) : σ.owed fd ≤ σ.places fd := by
  have hworkers : (σ.workers.flatMap Worker.owed).count fd ≤
      (σ.workers.flatMap Worker.hands).count fd := by
    induction σ.workers with
    | nil => exact le_rfl
    | cons w ws ih =>
      have hw : (w.owed).count fd ≤ (w.hands).count fd :=
        (w.state.owed_sublist.append_right _).count_le fd
      simp only [List.flatMap_cons, List.count_append]
      omega
  have hlock : σ.lock.owed.count fd ≤ σ.lock.hands.count fd := by
    cases σ.lock with
    | idle | answering => exact le_rfl
    | returning fd => exact Nat.zero_le _
  unfold Threads.owed places
  omega

/-! ### Hands -/

theorem mem_hands {l r : List Worker} {w : Worker} (hw : σ.workers = l ++ w :: r) {fd : ℤ}
    (h : fd ∈ w.hands) : fd ∈ σ.hands (.worker l.length) := by
  have hget : σ.workers[l.length]? = some w := by simp [hw]
  rw [hands, hget]
  exact h

/-- Whoever acts on a client has it in hand. -/
theorem Step.mem_hands {fd : ℤ} (hs : Step σ e σ') (h : e.action.fd = some fd) :
    fd ∈ σ.hands e.thread := by
  cases hs with
  | request hw hc | endOfFile hw hc | readError hw hc =>
    obtain rfl := Option.some.inj h
    exact Threads.mem_hands hw List.mem_cons_self
  | sessionCall hw | fsCall hw _ _ | respond hw =>
    obtain rfl := Option.some.inj h
    exact Threads.mem_hands hw List.mem_cons_self
  | answer hl =>
    obtain rfl := Option.some.inj h
    rw [hands, hl]
    exact List.mem_cons_self
  | _ => cases h

/-- Only who has a client in hand changes its session. -/
theorem Step.session_eq (hi : σ.Inv) (hs : Step σ e σ') {client : Client}
    (h : σ'.gSessionTable client ≠ σ.gSessionTable client) : e.action = .call client := by
  cases hs with
  | @sessionCall l r asked op next c hw =>
    have hbehalf : op.client = c := ((hi.at_work hw).call (σ.gSessionTable.apply op).2).1
    by_contra hne
    refine h (SessionTable.apply_of_ne σ.gSessionTable op fun hc => hne ?_)
    rw [hc, hbehalf]
  | @message fdsCpy message messages hs hp hm => cases message <;> exact absurd rfl h
  | _ => exact absurd rfl h

/-- Two threads have nothing in their hands that is not counted twice. -/
theorem count_hands_add_le {t t' : ThreadId} (h : t ≠ t') (fd : ℤ) :
    (σ.hands t).count fd + (σ.hands t').count fd ≤ σ.places fd := by
  have hone := fun i => count_elim_le Worker.hands σ.workers i fd
  unfold places
  cases t with
  | worker i =>
    cases t' with
    | worker j =>
      have htwo := count_elim_add_le Worker.hands σ.workers (fun hij => h (congrArg _ hij)) fd
      simp only [hands]
      omega
    | main | select | lock =>
      have hi := hone i
      simp only [hands]
      omega
  | main | select | lock =>
    cases t' with
    | worker j =>
      have hj := hone j
      simp only [hands]
      omega
    | main | select | lock =>
      simp only [hands]
      first | exact absurd rfl h | omega

theorem Inv.hands_unique (hi : σ.Inv) {t t' : ThreadId} {fd : ℤ} (h : fd ∈ σ.hands t)
    (h' : fd ∈ σ.hands t') : t = t' := by
  by_contra hne
  have hle := count_hands_add_le (σ := σ) hne fd
  have hpos := List.count_pos_iff.mpr h
  have hpos' := List.count_pos_iff.mpr h'
  rw [hi.placed] at hle
  split_ifs at hle <;> omega

end Threads
end Steps

/-! ### Runs -/

namespace Threads
variable {configs : FSConfig} {pipeFd : ℤ} {numWorkers : ℕ} {tr : List ThreadEvent} {σ : Threads}

/-- The steps without undocumented flags. -/
abbrev DocumentedStep : Threads → ThreadEvent → Threads → Prop :=
  Guarded (fun _ e => e.Documented) Step

theorem inv_of_run (h : Run DocumentedStep (initializeServer configs pipeFd numWorkers) tr σ) :
    σ.Inv ∧ ∀ fd, (responses tr).count fd + σ.owed fd = (requests tr).count fd := by
  refine h.invariant_trace
    (I := fun tr σ => σ.Inv ∧ ∀ fd, (responses tr).count fd + σ.owed fd = (requests tr).count fd)
    ⟨inv_initializeServer configs pipeFd numWorkers, fun fd => ?_⟩ ?_
  · have hle := owed_le_places (initializeServer configs pipeFd numWorkers) fd
    have hno : fd ∉ (initializeServer configs pipeFd numWorkers).opened := Finset.notMem_empty fd
    rw [(inv_initializeServer configs pipeFd numWorkers).placed, if_neg hno] at hle
    exact (Nat.zero_add _).trans (Nat.le_zero.mp hle)
  · intro tr σ e σ' ⟨hi, hb⟩ ⟨hd, hs⟩
    refine ⟨hi.step hd hs, fun fd => ?_⟩
    have hbefore := hb fd
    have hstep := hs.owed hi hd fd
    have hreq : requests (tr ++ [e]) = requests tr ++ e.action.asks.toList := by
      rw [requests, List.filterMap_append]
      cases h : e.action.asks <;> simp [requests, h]
    have hres : responses (tr ++ [e]) = responses tr ++ e.action.answers.toList := by
      rw [responses, List.filterMap_append]
      cases h : e.action.answers <;> simp [responses, h]
    rw [hreq, hres, List.count_append, List.count_append]
    omega

/-- In every reachable state each connected client is in exactly one place. A thread acts on a
client, or changes its session, only with the client in its hands and in no other's. A request
has at most one response, and the next request of its client is read after that response. -/
theorem one_place_one_response
    (h : Run DocumentedStep (initializeServer configs pipeFd numWorkers) tr σ) :
    (∀ fd ∈ σ.opened, σ.places fd = 1) ∧
    (∀ t t' fd, fd ∈ σ.hands t → fd ∈ σ.hands t' → t = t') ∧
    (∀ fd, (responses tr).count fd ≤ (requests tr).count fd ∧
      (requests tr).count fd ≤ (responses tr).count fd + 1) ∧
    ∀ e σ', DocumentedStep σ e σ' →
      (∀ fd, e.action.fd = some fd → fd ∈ σ.hands e.thread) ∧
      (∀ client : Client, σ'.gSessionTable client ≠ σ.gSessionTable client →
        e.action = .call client) ∧
      ∀ fd msg, e.action = .request fd msg →
        (requests tr).count fd = (responses tr).count fd := by
  obtain ⟨hi, hb⟩ := inv_of_run h
  have hle : ∀ {σ : Threads}, σ.Inv → ∀ fd, σ.owed fd ≤ 1 := by
    intro σ hi fd
    have hle := owed_le_places σ fd
    rw [hi.placed] at hle
    split_ifs at hle <;> omega
  refine ⟨fun fd hfd => by rw [hi.placed, if_pos hfd], fun t t' fd => hi.hands_unique,
    fun fd => ?_, fun e σ' ⟨hd, hs⟩ => ⟨fun fd => hs.mem_hands, fun client => hs.session_eq hi,
      fun fd msg hreq => ?_⟩⟩
  · have hfd := hb fd
    have hone := hle hi fd
    omega
  · -- after the request one answer is owed, so none was before
    have howed := hs.owed hi hd fd
    rw [hreq] at howed
    simp only [Action.asks, Action.answers, Option.toList, List.count_nil, count_single,
      if_true] at howed
    have hfd := hb fd
    have hone := hle (hi.step hd hs) fd
    omega

theorem next_internal {σ₀ σ' : Threads} {t : ThreadId} (h : Run DocumentedStep σ₀ tr σ)
    (hs : Step σ ⟨t, .internal⟩ σ') : Run DocumentedStep σ₀ (tr ++ [⟨t, .internal⟩]) σ' :=
  h.next ⟨trivial, hs⟩

/-- Client 2 is accepted, watched, found ready and handed to the only worker, which reads a
request. -/
theorem one_place_one_response_request :
    ∃ tr σ, Run DocumentedStep (initializeServer FileSystem.defaultConfigs 1 1) tr σ ∧
      requests tr = [2] ∧ responses tr = [] ∧ 2 ∈ σ.opened ∧ σ.places 2 = 1 := by
  have h := next_internal .start
    (@Step.accept (initializeServer FileSystem.defaultConfigs 1 1) 2 rfl (by decide) (by decide)
      (by decide))
  have h := next_internal h (.announce rfl)
  have h := next_internal h (@Step.select _ {1} rfl (by decide) (by decide))
  have h := next_internal h (.message rfl (by decide) rfl)
  have h := next_internal h (.notReady rfl (by decide) (by decide))
  have h := next_internal h (.skipPipe rfl (by decide) (by decide) rfl)
  have h := next_internal h (.notReady rfl (by decide) (by decide))
  have h := next_internal h (.scanned rfl (by decide))
  have h := next_internal h (@Step.select _ {2} rfl (by decide) (by decide))
  have h := next_internal h (.noMessage rfl (by decide))
  have h := next_internal h (.notReady rfl (by decide) (by decide))
  have h := next_internal h (.notReady rfl (by decide) (by decide))
  have h := next_internal h (.clear rfl (by decide) (by decide) (by decide))
  have h := next_internal h (.push rfl rfl)
  have h := next_internal h (@Step.take _ [] [] _ _ rfl rfl)
  have hdoc : ThreadEvent.Documented
      ⟨.worker 0, .request 2 (ServerState.requestA .reqOpenSession 0)⟩ := fun ht => by cases ht
  have h := h.next ⟨hdoc, @Step.request _ [] [] _ _ (fun _ => 0) 2 rfl rfl⟩
  have hopen : 2 ∈ ({2} : Finset ℤ) := by decide
  exact ⟨_, _, h, rfl, rfl, hopen, (one_place_one_response h).1 2 hopen⟩

end Threads
end StorageServer.Server
