import StorageServer.Server.Threads

/-! Postponed requests. Serving a request ends without a response exactly when the file system has
queued the client, so that the worker is right to let go of it; and who is queued leaves the queue
only with a notification. -/
namespace StorageServer.Server
open Common Library.KeyedList Library.Calls

/-! ### What the programs of the workers may do -/

/-- Calls on behalf of a client, about its own session. -/
def OnBehalf (client : Client) : ServerCall → Prop
  | .session op => op.client = client
  | .fs op => op.client = client

/-- The call and the result by which a client is queued. -/
def Queues : (i : ServerCall) → i.Result → Prop
  | .fs (.trylock _ _), out =>
    FSOutcome.res out = fsClientWaitingOnLock ∧ FSOutcome.outFiles out = []
  | _, _ => False

/-- The flags of a request to open a file are the documented ones. -/
def Documented (msg : SockMessage) : Prop :=
  msg.type = .reqOpenFile →
    msg.request.flags ∈ [flagEmpty, flagCreate, flagLock, flagCreate ||| flagLock]

section Programs
variable {client : Client} {msg response : SockMessage} {α : Type} {good final : α → Prop}

theorem uses_sessionCall {op : SessionOperation} {f : SessionOutcome → Handler α}
    (hc : op.client = client)
    (hf : ∀ out, (f out).Uses (OnBehalf client) Queues good final) :
    (sessionCall op >>= f).Uses (OnBehalf client) Queues good final :=
  Program.Uses.call hc (fun _ h => h) hf

/-- A call of the file system that queues nobody. -/
theorem uses_fsCall {op : FsOperation} {f : FSOutcome → Handler α} (hc : op.client = client)
    (hop : ∀ file, op ≠ .trylock client file)
    (hf : ∀ out, (f out).Uses (OnBehalf client) Queues good final) :
    (fsCall op >>= f).Uses (OnBehalf client) Queues good final := by
  refine Program.Uses.call hc (fun out h => ?_) hf
  cases op with
  | trylock c file =>
    obtain rfl : c = client := hc
    exact hop file rfl
  | insert | remove | obtain | obtainN | modify | append | exist | unlock | clean => exact h

theorem uses_trylock {file : FSFile} {f : FSOutcome → Handler α}
    (hq : ∀ out : FSOutcome, out.res = fsClientWaitingOnLock → out.outFiles = [] →
      ∃ a, f out = .ret a ∧ final a)
    (hf : ∀ out : FSOutcome, ¬ (out.res = fsClientWaitingOnLock ∧ out.outFiles = []) →
      (f out).Uses (OnBehalf client) Queues good final) :
    (fsCall (.trylock client file) >>= f).Uses (OnBehalf client) Queues good final :=
  ⟨rfl, fun out => ⟨fun h => hq out h.1 h.2, hf out⟩⟩

@[simp] theorem handleError_type (r : ℤ) (response : SockMessage) :
    (handleError r response).type = response.type := by
  unfold handleError
  dsimp only
  split_ifs <;> rfl

/-- A reply that is sent as it is or with files. -/
def Sent (reply : Reply) : Prop := reply.1.type ≠ .none ∨ reply.2 ≠ []

theorem Sent.addOutFiles {reply : Reply} (h : Sent reply) :
    (Server.addOutFiles reply).type ≠ .none := by
  obtain ⟨response, outFiles⟩ := reply
  cases outFiles with
  | nil => exact h.resolve_right (fun h => h rfl)
  | cons file files => simp [Server.addOutFiles]

/-- The handler has asked for a lock, and has no response for now. -/
def Unanswered (msg response : SockMessage) : Prop :=
  (msg.type = .reqLockFile ∨ msg.type = .reqOpenFile ∧ msg.request.flags &&& flagCreate = 0 ∧
    msg.request.flags &&& flagLock ≠ 0) ∧ response.type = .none

/-- A reply that is left unanswered. -/
def Postponed (msg : SockMessage) (reply : Reply) : Prop :=
  Unanswered msg reply.1 ∧ reply.2 = []

/-- The worker tests the flags for equality where the handler tests two bits. -/
theorem Unanswered.postponed_iff (h : Unanswered msg response) :
    LockPostponed msg response ↔ (msg.type = .reqOpenFile → msg.request.flags = flagLock) := by
  obtain ⟨ht | ⟨ht, -⟩, hr⟩ := h
  · exact iff_of_true ⟨Or.inl ht, hr⟩ fun h => by rw [ht] at h; cases h
  · constructor
    · rintro ⟨hl | ⟨-, hf⟩, -⟩ -
      · rw [ht] at hl
        cases hl
      · exact hf
    · exact fun hf => ⟨Or.inr ⟨ht, hf ht⟩, hr⟩

theorem sent_handleLock {out : FSOutcome} (hr : response.type ≠ .none)
    (h : ¬ (out.res = fsClientWaitingOnLock ∧ out.outFiles = [])) :
    Sent (handleLock out.res response, out.outFiles) := by
  by_cases hw : out.res = fsClientWaitingOnLock
  · exact Or.inr fun hnil => h ⟨hw, hnil⟩
  · left
    rw [handleLock_of_ne hw, handleError_type]
    exact hr

theorem openOperation_client (client : Client) (msg : SockMessage) :
    (openOperation client msg).client = client := by
  rcases openOperation_cases client msg with ⟨lock, hop⟩ | hop | hop <;> rw [hop] <;> rfl

theorem fileOperation_client {op : FsOperation} (h : fileOperation client msg = some op) :
    op.client = client := by
  unfold fileOperation at h
  split at h <;> cases h <;> rfl

theorem openError_of_ne (h : ∀ file, openOperation client msg ≠ .trylock client file) (r : ℤ) :
    openError msg r response = handleError r response := by
  refine if_neg fun hc => h (copyRequestIntoFile msg) ?_
  rw [openOperation, if_neg (not_not.mpr hc.1), if_pos hc.2]

/-- Among the documented flags only `FLAG_LOCK` asks for a lock without a creation. -/
theorem flags_eq_lock {flags : BitVec 32}
    (hd : flags ∈ [flagEmpty, flagCreate, flagLock, flagCreate ||| flagLock])
    (hc : flags &&& flagCreate = 0) (hl : flags &&& flagLock ≠ 0) : flags = flagLock := by
  simp only [List.mem_cons, List.not_mem_nil, or_false] at hd
  rcases hd with rfl | rfl | rfl | rfl
  · exact absurd rfl hl
  · exact absurd hc (by decide)
  · rfl
  · exact absurd hc (by decide)

theorem closeSession_uses (client : Client) :
    (closeSession client).Uses (OnBehalf client) Queues (fun _ => True) (fun _ => False) := by
  unfold closeSession
  refine uses_sessionCall rfl fun session => ?_
  dsimp only
  split_ifs
  · refine uses_fsCall rfl (fun _ => by simp) fun _ => uses_sessionCall rfl fun _ => ?_
    trivial
  · trivial

theorem openFile_uses (hr : response.type ≠ .none) (ht : msg.type = .reqOpenFile) :
    (openFile client msg response).Uses (OnBehalf client) Queues Sent (Postponed msg) := by
  have herr : ∀ r outFiles, Sent (handleError r response, outFiles) := by
    intro r outFiles
    left
    rwa [handleError_type]
  unfold openFile
  refine uses_sessionCall rfl fun session => ?_
  split_ifs
  · exact herr _ _
  refine uses_sessionCall rfl fun opened => ?_
  split_ifs
  · exact herr _ _
  have hrest : ∀ (out : FSOutcome) r, Sent (r, out.outFiles) →
      (if out.res ≠ 0 then pure (r, out.outFiles) else do
        let added ← sessionCall (.addFileOpened client (sessionFile msg) msg.request.flags)
        return (handleError added.res response, out.outFiles) : Handler Reply).Uses
        (OnBehalf client) Queues Sent (Postponed msg) := by
    intro out r hr
    split_ifs
    · exact hr
    · exact uses_sessionCall rfl fun added => herr _ _
  by_cases hop : ∃ file, openOperation client msg = .trylock client file
  · obtain ⟨file, hop⟩ := hop
    obtain ⟨hc, hl, -⟩ := openOperation_trylock hop
    have hlock : ∀ r, openError msg r response = handleLock r response :=
      fun r => if_pos ⟨hc, hl⟩
    rw [hop]
    refine uses_trylock (fun out hw hnil => ?_) fun out h => hrest out _ ?_
    · rw [if_pos (by rw [hw]; decide), hlock, hw, hnil, handleLock_waiting]
      exact ⟨_, rfl, ⟨Or.inr ⟨ht, hc, hl⟩, rfl⟩, rfl⟩
    · rw [hlock]
      exact sent_handleLock hr h
  · rw [not_exists] at hop
    refine uses_fsCall (openOperation_client client msg) hop fun out => hrest out _ ?_
    rw [openError_of_ne hop]
    exact herr _ _

theorem closeFile_uses (hr : response.type ≠ .none) :
    (closeFile client msg response).Uses (OnBehalf client) Queues Sent (Postponed msg) := by
  have herr : ∀ r outFiles, Sent (handleError r response, outFiles) := by
    intro r outFiles
    left
    rwa [handleError_type]
  unfold closeFile
  refine uses_sessionCall rfl fun session => ?_
  split_ifs
  · exact herr _ _
  refine uses_sessionCall rfl fun opened => ?_
  split_ifs
  · exact herr _ _
  exact uses_fsCall rfl (fun _ => by simp) fun _ => uses_sessionCall rfl fun _ => herr _ _

theorem checkOpened_uses (hr : response.type ≠ .none) :
    (checkOpened client msg response).Uses (OnBehalf client) Queues
      (fun r => ∀ e, r = .error e → e.type ≠ .none) (fun _ => False) := by
  have herr : ∀ r e, (Except.error (handleError r response) : Except SockMessage Unit) = .error e →
      e.type ≠ .none := by
    rintro r _ ⟨⟩
    rwa [handleError_type]
  have hok : ∀ e, (Except.ok () : Except SockMessage Unit) = .error e → e.type ≠ .none :=
    fun _ h => by cases h
  unfold checkOpened
  dsimp only
  split_ifs
  · refine uses_sessionCall rfl fun write => ?_
    split_ifs
    · exact herr _
    · exact hok
  · refine uses_sessionCall rfl fun opened => ?_
    split_ifs
    · exact herr _
    · exact hok

theorem fileRequest_uses {op : FsOperation} (hr : response.type ≠ .none)
    (hop : fileOperation client msg = some op) :
    (fileRequest client msg response op).Uses (OnBehalf client) Queues Sent (Postponed msg) := by
  have herr : ∀ r outFiles, Sent (handleError r response, outFiles) := by
    intro r outFiles
    left
    rwa [handleError_type]
  unfold fileRequest
  refine uses_sessionCall rfl fun session => ?_
  by_cases h0 : session.res ≠ 0
  · rw [if_pos h0]
    exact herr _ _
  rw [if_neg h0]
  refine (checkOpened_uses hr).bind (fun check hcheck => ?_) fun _ h => h.elim
  cases check with
  | error e => exact Or.inl (hcheck e rfl)
  | ok =>
    dsimp only
    by_cases htry : ∃ file, op = .trylock client file
    · obtain ⟨file, rfl⟩ := htry
      have ht := fileOperation_trylock hop
      have hrem : msg.type ≠ .reqRemoveFile := by rw [ht]; simp
      refine uses_trylock (fun out hw hnil => ?_) fun out h => ?_
      · rw [if_pos ht, if_neg hrem, hw, hnil, handleLock_waiting]
        exact ⟨_, rfl, ⟨Or.inl ht, rfl⟩, rfl⟩
      · rw [if_pos ht, if_neg hrem]
        exact sent_handleLock hr h
    · rw [not_exists] at htry
      refine uses_fsCall (fileOperation_client hop) htry fun out => ?_
      have hlock : msg.type ≠ .reqLockFile := fun ht => by
        rw [fileOperation, ht] at hop
        exact htry _ (Option.some.inj hop).symm
      rw [if_neg hlock]
      split_ifs
      · refine uses_sessionCall rfl fun closed => ?_
        left
        rwa [handleError_type, handleError_type]
      · exact herr _ _

/-- Serving a request ends with a response, unless the client is queued. -/
theorem handleWork_unanswered (client : Client) (msg : SockMessage) (rand : ℕ → ℕ) :
    (handleWork client msg rand).Uses (OnBehalf client) Queues (fun r => r.type ≠ .none)
      (Unanswered msg) := by
  have hreply : ∀ {p : Handler Reply}, p.Uses (OnBehalf client) Queues Sent (Postponed msg) →
      (p >>= fun reply => pure (addOutFiles reply)).Uses (OnBehalf client) Queues
        (fun r => r.type ≠ .none) (Unanswered msg) := by
    intro p hp
    refine hp.bind (fun reply h => h.addOutFiles) fun ⟨response, outFiles⟩ ⟨h, hnil⟩ => ?_
    obtain rfl : outFiles = [] := hnil
    exact ⟨_, rfl, h⟩
  unfold handleWork
  split
  next =>
    refine uses_sessionCall rfl fun session => ?_
    change (handleError _ _).type ≠ _
    rw [handleError_type]
    simp
  next =>
    refine (closeSession_uses client).bind (fun _ _ => ?_) fun _ h => h.elim
    change SockMessageType.respSimple ≠ .none
    simp
  next ht => exact hreply (openFile_uses (by simp) ht)
  next => exact hreply (closeFile_uses (by simp))
  next =>
    refine uses_fsCall rfl (fun _ => by simp) fun out => ?_
    refine Sent.addOutFiles (Or.inl ?_)
    rw [handleError_type]
    simp
  next =>
    split
    next op hop => exact hreply (fileRequest_uses (by simp) hop)
    next =>
      change SockMessageType.respSimple ≠ .none
      simp

/-- With the documented flags the response is sent, unless the client is queued. -/
theorem handleWork_uses (hd : Documented msg) (rand : ℕ → ℕ) :
    (handleWork client msg rand).Uses (OnBehalf client) Queues (fun r => r.type ≠ .none)
      (LockPostponed msg) := by
  refine (handleWork_unanswered client msg rand).mono (fun _ h => h) fun response h => ?_
  refine h.postponed_iff.mpr fun ht => ?_
  obtain ⟨hl | ⟨-, hc, hl⟩, -⟩ := h
  · rw [ht] at hl
    cases hl
  · exact flags_eq_lock (hd ht) hc hl

theorem serve_uses (hd : Documented msg) (rand : ℕ → ℕ) :
    (serve client msg rand).Uses (OnBehalf client) Queues (fun e => ∃ r, e = .respond r)
      (fun e => e = .forget) := by
  refine (handleWork_uses hd rand).bind (fun r hr => ?_) fun r hr => ⟨.forget, ?_, rfl⟩
  · rw [if_neg fun h => hr h.2]
    exact ⟨r, rfl⟩
  · rw [if_pos hr]
    rfl

theorem disconnect_uses (client : Client) :
    (disconnect client).Uses (OnBehalf client) Queues (fun e => e = .remove) (fun _ => False) :=
  (closeSession_uses client).bind (fun _ _ => rfl) fun _ h => h.elim

end Programs

/-! ### The clients that wait for files -/

namespace Store
variable {s s' t : Store} {k : ℕ} {e x : StoreEntry} {gone : List StoreEntry}

/-- The waiting clients, file by file. -/
def waiters (s : Store) : List ℤ := s.entries.flatMap StoreEntry.waiting

theorem count_waiters_erase (hd : Distinct s.key s.entries) (he : s.find k = some e) (c : ℤ) :
    s.waiters.count c = e.waiting.count c + (s.erase k).waiters.count c := by
  have hp := (hd.perm he).flatMap_right StoreEntry.waiting
  rw [List.flatMap_cons] at hp
  rw [waiters, hp.count_eq, List.count_append]
  rfl

theorem count_waiters_put (hk : s.key x = k) (c : ℤ) :
    (s.put x).waiters.count c = (s.erase k).waiters.count c + x.waiting.count c := by
  subst hk
  change ((without s.key (s.key x) s.entries ++ [x]).flatMap StoreEntry.waiting).count c = _
  rw [List.flatMap_append, List.count_append, List.flatMap_singleton]
  rfl

theorem count_waiters_put_new (hx : s.find (s.key x) = none) (c : ℤ) :
    (s.put x).waiters.count c = s.waiters.count c + x.waiting.count c := by
  change ((without s.key (s.key x) s.entries ++ [x]).flatMap StoreEntry.waiting).count c = _
  rw [without_of_lookup_none hx, List.flatMap_append, List.count_append, List.flatMap_singleton]
  rfl

/-- An entry that is put back in the place of another one. -/
theorem count_waiters_put_back (hd : Distinct s.key s.entries) (he : s.find k = some e)
    (hk : s.key x = k) (c : ℤ) :
    (s.put x).waiters.count c + e.waiting.count c = s.waiters.count c + x.waiting.count c := by
  rw [count_waiters_put hk, count_waiters_erase hd he]
  omega

theorem count_waiters_replace (hd : Distinct s.key s.entries) (he : s.find k = some e)
    (hk : s.key x = k) (c : ℤ) :
    (s.replace x).waiters.count c + e.waiting.count c = s.waiters.count c + x.waiting.count c := by
  have hx := find_replace_self he hk
  have hsame : (s.replace x).erase k = s.erase k := by
    change { s with entries := without s.key k (Library.KeyedList.replace s.key x s.entries) } = _
    rw [← hk, without_replace]
    rfl
  have h1 := count_waiters_erase (hd.replace x) hx c
  rw [hsame] at h1
  rw [h1, count_waiters_erase hd he]
  omega

theorem Reclaimed.count_waiters (hr : t.Reclaimed gone s') (c : ℤ) :
    s'.waiters.count c + (gone.flatMap StoreEntry.waiting).count c = t.waiters.count c := by
  obtain ⟨⟨kept, hk, rfl⟩, -, -⟩ := hr
  rw [waiters, waiters, hk, List.flatMap_append, List.count_append, Nat.add_comm]
  rfl

theorem fd_farewell (e : StoreEntry) : e.farewell.map FSLockNotification.fd = e.waiting := by
  rw [StoreEntry.farewell, List.map_map]
  exact List.map_id _

theorem fd_ejected (gone : List StoreEntry) :
    (ejected gone).issued.map FSLockNotification.fd = gone.flatMap StoreEntry.waiting := by
  change (gone.flatMap StoreEntry.farewell).map _ = _
  rw [List.map_flatMap]
  exact congrArg (gone.flatMap ·) (funext fd_farewell)

/-- A hand-over notifies the first of the waiting clients. -/
theorem count_handOff (e : StoreEntry) (c : ℤ) :
    (handOff e).waiting.count c + ((granted e).map FSLockNotification.fd).count c =
      e.waiting.count c := by
  obtain ⟨owner, file, emptyBuffer, waiting⟩ := e
  cases waiting with
  | nil => rfl
  | cons w ws =>
    change ws.count c + [w].count c = (w::ws).count c
    rw [List.count_singleton, List.count_cons]

/-- Clients only enter the queues by being told to wait and only leave them with a notification. -/
theorem Effect.count_waiters {op : FsOperation} {out : FSOutcome} (h : s.Effect op out s')
    (hs : s.Sound) (c : ℤ) :
    s'.waiters.count c + (out.issued.map FSLockNotification.fd).count c =
      s.waiters.count c + if out.res = fsClientWaitingOnLock ∧ op.client = c then 1 else 0 := by
  cases h with
  | present | missing | listed =>
    rw [if_neg (by simp)]
    rfl
  | refused hf he hr =>
    rw [if_neg fun h => ne_waiting_of_mem_errors hr.mem_errors h.1]
    rfl
  | obtained he | existing he =>
    have hp := count_waiters_put_back hs.distinct he (key_of_find he) c
    rw [if_neg (by simp)]
    change _ + 0 = _
    omega
  | @locked client file e he ho =>
    have hx : s.key { e with owner := client } = _ := key_of_name he rfl
    have hp := count_waiters_put_back hs.distinct he hx c
    rw [if_neg (by simp)]
    change _ + e.waiting.count c = _ + e.waiting.count c at hp
    change _ + 0 = _
    omega
  | @queued client file e he ho hc hw =>
    have hx : s.key { e with waiting := e.waiting ++ [client] } = _ := key_of_name he rfl
    have hp := count_waiters_replace hs.distinct he hx c
    change _ + e.waiting.count c = _ + (e.waiting ++ [client]).count c at hp
    rw [List.count_append, List.count_singleton] at hp
    change _ + 0 = _
    simp only [FsOperation.client, beq_iff_eq, true_and] at hp ⊢
    omega
  | @unlocked client file e he ho =>
    have hp := count_waiters_put_back (x := handOff e) hs.distinct he (key_of_name he rfl) c
    have hh := count_handOff e c
    rw [if_neg (by simp)]
    change _ + ((granted e).map _).count c = _
    omega
  | @removed client file e gone s' he ho hr =>
    obtain ⟨-, hcount⟩ := hs.erase_charge he (-(e.file.size : ℤ))
    have hrec := (hcount.reclaim hr).count_waiters c
    obtain rfl := reclaim_false hr
    have herase := count_waiters_erase hs.distinct he c
    rw [if_neg (by simp)]
    change _ + (e.farewell.map _).count c = _
    rw [fd_farewell]
    change s'.waiters.count c + 0 = (s.erase _).waiters.count c at hrec
    omega
  | @inserted client file lock gone s' he hr =>
    obtain ⟨-, hcount⟩ := hs.put_new
      (x := ⟨if lock then client else emptyOwner, file, false, []⟩) he file.size
    have hrec := (hcount.reclaim hr).count_waiters c
    rw [if_neg (by simp [ejected]), fd_ejected, hrec]
    exact count_waiters_put_new (x := ⟨if lock then client else emptyOwner, file, false, []⟩) he c
  | @modified client file e gone s' he ho hb hr =>
    obtain ⟨-, hcount⟩ := hs.put_charge (x := e.rewritten file) he rfl
      (file.size - e.file.size)
    have hrec := (hcount.reclaim hr).count_waiters c
    have hx : s.key (e.rewritten file) = _ := rfl
    have hp := count_waiters_put_back hs.distinct he hx c
    rw [if_neg (by simp [ejected]), fd_ejected, hrec]
    change _ + e.waiting.count c = _ + e.waiting.count c at hp
    change (s.put _).waiters.count c = _
    omega
  | @appended client file e gone s' he ho hb hr =>
    obtain ⟨-, hcount⟩ := hs.put_charge (x := e.extended file) he
      (key_of_name he rfl) (file.size - (Store.appended e.file file).contentLen)
    have hrec := (hcount.reclaim hr).count_waiters c
    have hx : s.key (e.extended file) = _ := key_of_name he rfl
    have hp := count_waiters_put_back hs.distinct he hx c
    rw [if_neg (by simp [ejected]), fd_ejected, hrec]
    change _ + e.waiting.count c = _ + e.waiting.count c at hp
    change (s.put _).waiters.count c = _
    omega
  | @cleaned client filenames =>
    rw [if_neg (by simp [clean]), Nat.add_zero]
    refine (cleanFiles_rule (fun t issued => t.Sound ∧
      t.waiters.count c + (issued.map FSLockNotification.fd).count c = s.waiters.count c) client
      (fun {t issued k e} ⟨ht, hc⟩ he _ => ⟨ht.put he (key_of_name he rfl), ?_⟩) [] ⟨hs, rfl⟩
      filenames).2
    have hp := count_waiters_put_back (x := handOff e) ht.distinct he (key_of_name he rfl) c
    have hh := count_handOff e c
    rw [List.map_append, List.count_append]
    omega

end Store

end StorageServer.Server
