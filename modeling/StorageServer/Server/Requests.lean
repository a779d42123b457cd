import StorageServer.Server.HandleWork

/-! Runs of the server as its clients see it, one request after the other, and what a request
does to the sessions and to the store, branch by branch. -/
namespace StorageServer.Server
open Common Library.Calls Library.Runs

/-- What happens to the server: a request is served with its response, a client is found to have
gone, a descriptor is closed without cleaning up (its messages are broken or the work queue is
full), or the oldest notification is delivered. -/
inductive ServerEvent
  | request (client : Client) (msg : SockMessage) (rand : ℕ → ℕ) (response : SockMessage)
  | endOfFile (client : Client)
  | lost (client : Client)
  | delivery (notification : FSLockNotification)

namespace ServerState

def Step (s : ServerState) : ServerEvent → ServerState → Prop
  | .request client msg rand response, s' =>
    (handleWork client msg rand).run exec s = some (s', response)
  | .endOfFile client, s' => (closeSession client).run exec s = some (s', ())
  | .lost _, s' => s' = s
  | .delivery notification, s' =>
    s.gLockQueue = notification :: s'.gLockQueue ∧
      s' = { s with gLockQueue := s'.gLockQueue }

end ServerState

section Responses
variable {response : SockMessage} {r : ℤ}

theorem handleError_zero (response : SockMessage) : handleError 0 response = response := rfl

/-- The results that are reported as errors. -/
def errors : List ℤ :=
  [fsFileAlreadyExists, fsFileNotExists, fsClientNotAllowed, fsFileTooBig, sessionAlreadyExist,
    sessionNotExist, sessionFileAlreadyOpened, sessionFileNeverOpened, sessionOutOfMemory,
    sessionCannotWriteFile]

/-- An error never leaves a response with the status of a success. -/
theorem handleError_ne_ok (h : r ∈ errors) (response : SockMessage) :
    (handleError r response).response.status ≠ .ok := by
  unfold handleError
  dsimp only
  split_ifs with h1 h2 h3 h4
  · simp
  · simp
  · simp
  · simp
  · exfalso
    simp only [errors, List.mem_cons, List.not_mem_nil, or_false] at h
    tauto

theorem ne_zero_of_mem_errors (h : r ∈ errors) : r ≠ 0 := by
  rintro rfl
  simp [errors] at h

theorem ne_waiting_of_mem_errors (h : r ∈ errors) : r ≠ fsClientWaitingOnLock := by
  rintro rfl
  simp [errors] at h

theorem handleLock_waiting (response : SockMessage) :
    handleLock fsClientWaitingOnLock response = { response with type := .none } := rfl

theorem handleLock_of_ne (h : r ≠ fsClientWaitingOnLock) :
    handleLock r response = handleError r response := if_neg h

@[simp] theorem addOutFiles_status (reply : Reply) :
    (addOutFiles reply).response.status = reply.1.response.status := by
  obtain ⟨response, outFiles⟩ := reply
  cases outFiles <;> rfl

theorem openOperation_cases (client : Client) (msg : SockMessage) :
    (∃ lock, openOperation client msg = .insert client (copyRequestIntoFile msg) lock) ∨
      openOperation client msg = .trylock client (copyRequestIntoFile msg) ∨
      openOperation client msg = .exist client (copyRequestIntoFile msg) := by
  unfold openOperation
  split_ifs
  · exact Or.inl ⟨_, rfl⟩
  · exact Or.inr (Or.inl rfl)
  · exact Or.inr (Or.inr rfl)

theorem openOperation_trylock {client : Client} {msg : SockMessage} {c : ℤ} {file : FSFile}
    (h : openOperation client msg = .trylock c file) :
    msg.request.flags &&& flagCreate = 0 ∧ msg.request.flags &&& flagLock ≠ 0 ∧
      openOperation client msg = .trylock client (copyRequestIntoFile msg) := by
  unfold openOperation at h ⊢
  split_ifs at h ⊢ with hc hl
  exact ⟨by simpa using hc, hl, rfl⟩

theorem fileOperation_trylock {client : Client} {msg : SockMessage} {c : ℤ} {file : FSFile}
    (h : fileOperation client msg = some (.trylock c file)) : msg.type = .reqLockFile := by
  unfold fileOperation at h
  split at h <;> simp_all

end Responses

namespace Store
variable {s s' : Store} {op : FsOperation} {out : FSOutcome}

theorem Refuses.mem_errors {e : StoreEntry} {r : ℤ} (h : s.Refuses e op r) : r ∈ errors := by
  cases op with
  | insert | obtain | obtainN | exist | clean => exact h.elim
  | remove | unlock => simp [h.2, errors]
  | modify => rcases h with ⟨-, rfl⟩ | ⟨-, -, rfl⟩ <;> simp [errors]
  | append => rcases h with ⟨-, -, rfl⟩ | ⟨-, -, rfl⟩ <;> simp [errors]
  | trylock => simp [h.2.2.2, errors]

/-- An operation succeeds, queues its client, or reports an error and does nothing. -/
theorem Effect.res_cases (h : Effect s op out s') :
    out.res = 0 ∨ (out.res = fsClientWaitingOnLock ∧ ∃ client file, op = .trylock client file) ∨
      (out.res ∈ errors ∧ s' = s) := by
  cases h with
  | present | missing => exact Or.inr (Or.inr ⟨by simp [errors], rfl⟩)
  | refused hf he hr => exact Or.inr (Or.inr ⟨hr.mem_errors, rfl⟩)
  | queued => exact Or.inr (Or.inl ⟨rfl, _, _, rfl⟩)
  | listed | obtained | existing | locked | unlocked | removed | inserted | modified | appended
  | cleaned => exact Or.inl rfl

theorem Effect.obtainN_eq {client n : ℤ} {rand : ℕ → ℕ}
    (h : Effect s (.obtainN client n rand) out s') : s' = s := by
  cases h with
  | listed => rfl
  | missing hf => cases hf
  | refused hf => cases hf

end Store

/-- The branches of `handleWork`, on the session table and the store. A request to open a file
changes nothing only if the session or the file system refuses it. -/
inductive Handled (t : SessionTable) (s : Store) (client : Client) (msg : SockMessage) :
    SockMessage → SessionTable → Store → Prop
  | unchanged {response}
      (ho : msg.type = .reqOpenFile → (t client).isValid = true →
        hashString (sessionFile msg) ∉ (t client).filenames →
        ∃ out, out.res ∈ errors ∧ s.Effect (openOperation client msg) out s)
      (hr : msg.type = .reqRemoveFile → ¬ (t client).Lists (hashString (sessionFile msg))) :
    Handled t s client msg response t s
  | created {response} (hv : (t client).isValid = false) (hr : response.response.status = .ok) :
    Handled t s client msg response (Function.update t client (.blank true)) s
  | ended {response out s'} (ht : msg.type = .reqCloseSession) (hv : (t client).isValid = true)
      (he : s.Effect (.clean client (t client).filenames) out s')
      (hr : response.response.status = .ok) :
    Handled t s client msg response (Function.update t client (.blank false)) s'
  | opened {response out s'} (ht : msg.type = .reqOpenFile) (hv : (t client).isValid = true)
      (hn : hashString (sessionFile msg) ∉ (t client).filenames)
      (hroom : (t client).numFileOpened < maxClientOpenedFiles)
      (he : s.Effect (openOperation client msg) out s') (h0 : out.res = 0)
      (hr : response.response.status = .ok) :
    Handled t s client msg response
      (Function.update t client ((t client).addFileOpened (sessionFile msg) msg.request.flags).1)
      s'
  | unsaved {response out s'} (ht : msg.type = .reqOpenFile) (hv : (t client).isValid = true)
      (hn : hashString (sessionFile msg) ∉ (t client).filenames)
      (hfull : maxClientOpenedFiles ≤ (t client).numFileOpened)
      (he : s.Effect (openOperation client msg) out s') (h0 : out.res = 0)
      (hr : response.response.status ≠ .ok) :
    Handled t s client msg response t s'
  | queuedOpening {response out s'} (ht : msg.type = .reqOpenFile)
      (hv : (t client).isValid = true)
      (hn : hashString (sessionFile msg) ∉ (t client).filenames)
      (hop : openOperation client msg = .trylock client (copyRequestIntoFile msg))
      (he : s.Effect (.trylock client (copyRequestIntoFile msg)) out s')
      (hw : out.res = fsClientWaitingOnLock) (hr : response.response.status = .ok) :
    Handled t s client msg response t s'
  | closed {response out s'} (ht : msg.type = .reqCloseFile)
      (hl : (t client).Lists (hashString (sessionFile msg)))
      (he : s.Effect (.unlock client (copyRequestIntoFile msg)) out s')
      (hr : response.response.status = .ok) :
    Handled t s client msg response
      (Function.update t client ((t client).remFileOpened (sessionFile msg)).1) s'
  | served {response op out s'} (hop : fileOperation client msg = some op)
      (ht : msg.type ≠ .reqRemoveFile) (hl : (t client).Lists (hashString (sessionFile msg)))
      (he : s.Effect op out s') (hr : response.response.status = .ok) :
    Handled t s client msg response t s'
  | removed {response out s'} (ht : msg.type = .reqRemoveFile)
      (hl : (t client).Lists (hashString (sessionFile msg)))
      (he : s.Effect (.remove client (copyRequestIntoFile msg)) out s')
      (hr : response.response.status = .ok ↔ out.res = 0) :
    Handled t s client msg response
      (Function.update t client ((t client).remFileOpened (sessionFile msg)).1) s'

/-! ### Running the programs -/

section Programs
variable {α : Type} {s s' : ServerState} {client : Client} {msg response : SockMessage}

theorem run_sessionCall (op : SessionOperation) (f : SessionOutcome → Handler α) :
    (sessionCall op >>= f).run ServerState.exec s =
      (f (s.gSessionTable.apply op).2).run ServerState.exec
        { s with gSessionTable := (s.gSessionTable.apply op).1 } := rfl

/-- A call of the file system is a branch of the store and leaves the sessions alone. -/
theorem run_fsCall (hw : s.fs.WF) {op : FsOperation} {f : FSOutcome → Handler α} {a : α}
    (h : (fsCall op >>= f).run ServerState.exec s = some (s', a)) :
    ∃ t out, t.gSessionTable = s.gSessionTable ∧ t.fs.WF ∧
      s.fs.view.Effect op out t.fs.view ∧ (f out).run ServerState.exec t = some (s', a) := by
  obtain ⟨t, out, ht, hf⟩ := Program.run_call h
  obtain ⟨⟨fs, out'⟩, ho, hr⟩ := Option.map_eq_some_iff.mp ht
  cases hr
  have hs : FileSystem.Step s.fs (op,out') fs := ho
  exact ⟨{ s with fs := fs, gLockQueue := s.gLockQueue ++ out'.issued }, out', rfl,
    (hw.apply hs).1, hs.effect hw, hf⟩

theorem run_getSession {f : SessionOutcome → Handler α} :
    (sessionCall (.getSession client) >>= f).run ServerState.exec s =
      (f { res := if (s.gSessionTable client).isValid then 0 else sessionNotExist }).run
        ServerState.exec s := by
  rw [run_sessionCall, ← s.gSessionTable.getSession_eq client]
  rfl

theorem run_hasOpenedFile {file : SessionFile} {f : SessionOutcome → Handler α} :
    (sessionCall (.hasOpenedFile client file) >>= f).run ServerState.exec s =
      (f { res := (s.gSessionTable client).intHasOpenedFile (hashString file) }).run
        ServerState.exec s := rfl

theorem run_closeSession (hw : s.fs.WF)
    (h : (closeSession client).run ServerState.exec s = some (s', ())) :
    s' = s ∧ (s.gSessionTable client).isValid = false ∨
      (s.gSessionTable client).isValid = true ∧
        s'.gSessionTable = Function.update s.gSessionTable client (.blank false) ∧
        ∃ out, s.fs.view.Effect (.clean client (s.gSessionTable client).filenames) out
          s'.fs.view := by
  unfold closeSession at h
  rw [run_sessionCall] at h
  by_cases hv : (s.gSessionTable client).isValid = true
  · have hg : (s.gSessionTable.apply (.getRawSession client)).2 =
        { res := 0, filenames := (s.gSessionTable client).filenames } := by
      simp [SessionTable.apply, SessionTable.getRawSession, hv]
    rw [hg] at h
    dsimp only at h
    rw [if_pos rfl] at h
    obtain ⟨t, out, ht, -, he, h⟩ := run_fsCall (s := s) hw h
    rw [run_sessionCall] at h
    cases h
    refine Or.inr ⟨hv, ?_, out, he⟩
    change (t.gSessionTable.destroySession client).1 = _
    rw [ht, SessionTable.destroySession, if_neg (not_not.mpr hv)]
  · have hg : (s.gSessionTable.apply (.getRawSession client)).2.res = sessionNotExist := by
      simp [SessionTable.apply, SessionTable.getRawSession, hv]
    dsimp only at h
    rw [hg, if_neg (by decide)] at h
    cases h
    exact Or.inl ⟨rfl, by simpa using hv⟩

/-- A request to close the session does so and nothing else. -/
theorem run_of_closeSession {rand : ℕ → ℕ} (ht : msg.type = .reqCloseSession)
    (h : (handleWork client msg rand).run ServerState.exec s = some (s', response)) :
    (closeSession client).run ServerState.exec s = some (s', ()) := by
  unfold handleWork at h
  simp only [ht] at h
  rw [Program.run_bind] at h
  obtain ⟨⟨t, ⟨⟩⟩, hc, hr⟩ := Option.bind_eq_some_iff.mp h
  cases hr
  exact hc

theorem openFile_handled (hw : s.fs.WF) (ht : msg.type = .reqOpenFile)
    (hok : response.response.status = .ok) {reply : Reply}
    (h : (openFile client msg response).run ServerState.exec s = some (s', reply))
    {r : SockMessage} (hr : r.response.status = reply.1.response.status) :
    Handled s.gSessionTable s.fs.view client msg r s'.gSessionTable s'.fs.view := by
  unfold openFile at h
  rw [run_getSession] at h
  rcases (s.gSessionTable client).intHasOpenedFile_cases (hashString (sessionFile msg)) with
    ⟨hv, -⟩ | ⟨⟨hv, hl⟩, ho⟩ | ⟨⟨hv, hn⟩, ho⟩
  · simp only [hv] at h
    cases h
    exact .unchanged (fun _ hv' => by simp [hv] at hv') (fun h => by simp [ht] at h)
  · simp only [hv, if_true, ne_eq, not_true_eq_false, if_false] at h
    rw [run_hasOpenedFile, ho] at h
    cases h
    exact .unchanged (fun _ _ hn => absurd hl hn) (fun h => by simp [ht] at h)
  · simp only [hv, if_true, ne_eq, not_true_eq_false, if_false] at h
    rw [run_hasOpenedFile, ho] at h
    simp only [not_true_eq_false, if_false] at h
    obtain ⟨t, out, hts, -, he, h⟩ := run_fsCall hw h
    rcases he.res_cases with h0 | ⟨hwait, c, file, hop⟩ | ⟨herr, hsame⟩
    · rw [if_neg (not_not.mpr h0), run_sessionCall] at h
      cases h
      change Handled _ _ _ _ r (Function.update t.gSessionTable client _) t.fs.view
      change r.response.status = (handleError
        (t.gSessionTable client |>.addFileOpened _ _).2 response).response.status at hr
      rw [hts] at hr ⊢
      rcases Nat.lt_or_ge (s.gSessionTable client).numFileOpened maxClientOpenedFiles with hf | hf
      · rw [(ClientSession.addFileOpened_room _ hv hn hf).1, handleError_zero, hok] at hr
        exact .opened ht hv hn hf he h0 hr
      · have hfull := ClientSession.addFileOpened_full msg.request.flags hv hn hf
        rw [hfull] at hr ⊢
        rw [Function.update_eq_self]
        refine .unsaved ht hv hn hf he h0 ?_
        rw [hr]
        exact handleError_ne_ok (by simp [errors]) _
    · obtain ⟨hc, hl, hop⟩ := openOperation_trylock hop
      rw [if_pos (by rw [hwait]; decide), openError, if_pos ⟨hc, hl⟩, hwait,
        handleLock_waiting] at h
      cases h
      rw [hts]
      rw [hop] at he
      exact .queuedOpening ht hv hn hop he hwait (hr.trans hok)
    · rw [if_pos (ne_zero_of_mem_errors herr)] at h
      cases h
      rw [hsame] at he
      rw [hts, hsame]
      exact .unchanged (fun _ _ _ => ⟨out, herr, he⟩) (fun h => by simp [ht] at h)

theorem closeFile_handled (hw : s.fs.WF) (ht : msg.type = .reqCloseFile)
    (hok : response.response.status = .ok) {reply : Reply}
    (h : (closeFile client msg response).run ServerState.exec s = some (s', reply))
    {r : SockMessage} (hr : r.response.status = reply.1.response.status) :
    Handled s.gSessionTable s.fs.view client msg r s'.gSessionTable s'.fs.view := by
  unfold closeFile at h
  rw [run_getSession] at h
  rcases (s.gSessionTable client).intHasOpenedFile_cases (hashString (sessionFile msg)) with
    ⟨hv, -⟩ | ⟨hl, ho⟩ | ⟨⟨hv, hn⟩, ho⟩
  · simp only [hv] at h
    cases h
    exact .unchanged (fun h => by simp [ht] at h) (fun h => by simp [ht] at h)
  · simp only [hl.1, if_true, ne_eq, not_true_eq_false, if_false] at h
    rw [run_hasOpenedFile, ho] at h
    simp only [not_true_eq_false, if_false] at h
    obtain ⟨t, out, hts, -, he, h⟩ := run_fsCall hw h
    rw [run_sessionCall] at h
    cases h
    change Handled _ _ _ _ r (Function.update t.gSessionTable client _) t.fs.view
    change r.response.status = (handleError
      (t.gSessionTable client |>.remFileOpened _).2 response).response.status at hr
    rw [hts] at hr ⊢
    rw [(ClientSession.remFileOpened_listed hl).1, handleError_zero, hok] at hr
    exact .closed ht hl he hr
  · simp only [hv, if_true, ne_eq, not_true_eq_false, if_false] at h
    rw [run_hasOpenedFile, ho] at h
    cases h
    exact .unchanged (fun h => by simp [ht] at h) (fun h => by simp [ht] at h)

/-- The check passes only for a listed file, and changes nothing. -/
theorem run_checkOpened {f : Except SockMessage Unit → Handler α} {a : α}
    (h : (checkOpened client msg response >>= f).run ServerState.exec s = some (s', a)) :
    (msg.type ≠ .reqWriteFile → ¬ (s.gSessionTable client).Lists (hashString (sessionFile msg))) ∧
        (∃ r, (f (.error r)).run ServerState.exec s = some (s', a)) ∨
      (s.gSessionTable client).Lists (hashString (sessionFile msg)) ∧
        (f (.ok ())).run ServerState.exec s = some (s', a) := by
  unfold checkOpened at h
  rw [Program.run_bind] at h
  dsimp only at h
  by_cases hwrite : msg.type = .reqWriteFile
  · rw [if_pos hwrite, run_sessionCall] at h
    by_cases h0 : (s.gSessionTable client).canWriteIntoFile (sessionFile msg) = 0
    · refine Or.inr ⟨ClientSession.canWriteIntoFile_eq_zero h0, ?_⟩
      change ((if (s.gSessionTable client).canWriteIntoFile (sessionFile msg) ≠ 0 then _
        else _ : Handler _).run ServerState.exec s).bind _ = _ at h
      rw [if_neg (not_not.mpr h0)] at h
      exact h
    · left
      change ((if (s.gSessionTable client).canWriteIntoFile (sessionFile msg) ≠ 0 then _
        else _ : Handler _).run ServerState.exec s).bind _ = _ at h
      rw [if_pos h0] at h
      exact ⟨fun h => absurd hwrite h, _, h⟩
  · rw [if_neg hwrite, run_hasOpenedFile] at h
    rcases (s.gSessionTable client).intHasOpenedFile_cases (hashString (sessionFile msg)) with
      ⟨hv, ho⟩ | ⟨hl, ho⟩ | ⟨⟨-, hn⟩, ho⟩
    · rw [ho] at h
      exact Or.inl ⟨fun _ hl => by simp [hl.1] at hv, _, h⟩
    · rw [ho] at h
      exact Or.inr ⟨hl, h⟩
    · rw [ho] at h
      exact Or.inl ⟨fun _ hl => hn hl.2, _, h⟩

theorem fileRequest_handled (hw : s.fs.WF) {op : FsOperation}
    (hop : fileOperation client msg = some op) (hok : response.response.status = .ok)
    {reply : Reply}
    (h : (fileRequest client msg response op).run ServerState.exec s = some (s', reply))
    {r : SockMessage} (hr : r.response.status = reply.1.response.status) :
    Handled s.gSessionTable s.fs.view client msg r s'.gSessionTable s'.fs.view := by
  have hopen {P : Prop} : msg.type = .reqOpenFile → P :=
    fun ht => by simp [fileOperation, ht] at hop
  unfold fileRequest at h
  rw [run_getSession] at h
  by_cases hv : (s.gSessionTable client).isValid = true
  · simp only [hv, if_true, ne_eq, not_true_eq_false, if_false] at h
    rcases run_checkOpened h with ⟨hn, e, h⟩ | ⟨hl, h⟩
    · cases h
      exact .unchanged hopen fun ht => hn (by simp [ht])
    · obtain ⟨t, out, hts, -, he, hf⟩ := run_fsCall hw h
      by_cases hrem : msg.type = .reqRemoveFile
      · -- the session is changed after a refused removal too
        have hlock : msg.type ≠ .reqLockFile := by rw [hrem]; simp
        have hop' : op = .remove client (copyRequestIntoFile msg) := by
          simpa [fileOperation, hrem] using hop.symm
        subst hop'
        rw [if_pos hrem, if_neg hlock, run_sessionCall] at hf
        cases hf
        change Handled _ _ _ _ r (Function.update t.gSessionTable client _) t.fs.view
        change r.response.status = (handleError
          (t.gSessionTable client |>.remFileOpened _).2
          (handleError out.res response)).response.status at hr
        rw [hts] at hr ⊢
        rw [(ClientSession.remFileOpened_listed hl).1, handleError_zero] at hr
        refine .removed hrem hl he ?_
        rw [hr]
        rcases he.res_cases with h0 | ⟨-, c, file, hc⟩ | ⟨herr, -⟩
        · rw [h0, handleError_zero, hok]
          simp
        · cases hc
        · exact iff_of_false (handleError_ne_ok herr _) (ne_zero_of_mem_errors herr)
      · rw [if_neg hrem] at hf
        cases hf
        rw [hts]
        rcases he.res_cases with h0 | ⟨hwait, c, file, hc⟩ | ⟨herr, hsame⟩
        · refine .served hop hrem hl he (hr.trans ?_)
          change (if _ then _ else _ : SockMessage).response.status = _
          rw [h0, handleLock_of_ne (by decide), handleError_zero, ite_self]
          exact hok
        · have hlock : msg.type = .reqLockFile := fileOperation_trylock (hc ▸ hop)
          refine .served hop hrem hl he (hr.trans ?_)
          change (if _ then _ else _ : SockMessage).response.status = _
          rw [if_pos hlock, hwait, handleLock_waiting]
          exact hok
        · rw [hsame]
          exact .unchanged hopen fun h => absurd h hrem
  · simp only [hv] at h
    cases h
    exact .unchanged hopen fun _ hl => hv hl.1

/-- Serving a request takes one of the branches. -/
theorem handleWork_handled (hw : s.fs.WF) {rand : ℕ → ℕ}
    (h : (handleWork client msg rand).run ServerState.exec s = some (s', response)) :
    Handled s.gSessionTable s.fs.view client msg response s'.gSessionTable s'.fs.view := by
  unfold handleWork at h
  split at h
  next ht =>
    rw [run_sessionCall] at h
    cases h
    change Handled _ _ _ _ _ (s.gSessionTable.createSession client).1 _
    unfold SessionTable.createSession
    split_ifs with hv
    · exact .unchanged (fun h => by simp [ht] at h) (fun h => by simp [ht] at h)
    · refine .created (by simpa using hv) ?_
      change (handleError (s.gSessionTable.createSession client).2.res _).response.status = _
      rw [SessionTable.createSession, if_neg hv]
      rfl
  next ht =>
    rw [Program.run_bind] at h
    obtain ⟨⟨t, ⟨⟩⟩, hc, hr⟩ := Option.bind_eq_some_iff.mp h
    cases hr
    rcases run_closeSession hw hc with ⟨rfl, -⟩ | ⟨hv, ht', out, he⟩
    · exact .unchanged (fun h => by simp [ht] at h) (fun h => by simp [ht] at h)
    · rw [ht']
      exact .ended ht hv he rfl
  next ht =>
    rw [Program.run_bind] at h
    obtain ⟨⟨t, reply⟩, hc, hr⟩ := Option.bind_eq_some_iff.mp h
    cases hr
    exact openFile_handled hw ht rfl hc (addOutFiles_status reply)
  next ht =>
    rw [Program.run_bind] at h
    obtain ⟨⟨t, reply⟩, hc, hr⟩ := Option.bind_eq_some_iff.mp h
    cases hr
    exact closeFile_handled hw ht rfl hc (addOutFiles_status reply)
  next ht =>
    obtain ⟨t, out, hts, -, he, h⟩ := run_fsCall hw h
    cases h
    rw [hts, he.obtainN_eq]
    exact .unchanged (fun h => by simp [ht] at h) (fun h => by simp [ht] at h)
  next hno _ _ =>
    split at h
    next op hop =>
      rw [Program.run_bind] at h
      obtain ⟨⟨t, reply⟩, hc, hr⟩ := Option.bind_eq_some_iff.mp h
      cases hr
      exact fileRequest_handled hw hop rfl hc (addOutFiles_status reply)
    next hop =>
      obtain ⟨rfl, -⟩ := Prod.mk.inj (Option.some.inj h)
      exact .unchanged (fun h => absurd h hno) fun h => by simp [fileOperation, h] at hop

theorem ServerState.exec_valid {i : ServerCall} {r : i.Result} (h : s.fs.Valid)
    (hs : ServerState.exec i s = some (s', r)) : s'.fs.Valid := by
  cases i with
  | session op =>
    cases hs
    exact h
  | fs op =>
    obtain ⟨⟨fs, out⟩, ho, hr⟩ := Option.map_eq_some_iff.mp hs
    cases hr
    exact h.step (e := (op,out)) ho

theorem ServerState.Step.valid {e : ServerEvent} (h : s.fs.Valid) (hs : s.Step e s') :
    s'.fs.Valid := by
  cases e with
  | request client msg rand response =>
    exact Program.run_invariant (I := fun s => s.fs.Valid) ServerState.exec_valid hs h
  | endOfFile client =>
    exact Program.run_invariant (I := fun s => s.fs.Valid) ServerState.exec_valid hs h
  | lost client =>
    cases hs
    exact h
  | delivery notification =>
    rw [hs.2]
    exact h

theorem ServerState.valid_of_run {configs : FSConfig} {tr : List ServerEvent}
    (h : Run ServerState.Step (ServerState.start configs) tr s) : s.fs.Valid :=
  h.invariant (I := fun s => s.fs.Valid) (FileSystem.Valid.start configs) Step.valid

end Programs

/-! ### Concrete runs -/

namespace ServerState

/-- The state after a request that does not crash, and its response. -/
def after (s : ServerState) (client : Client) (msg : SockMessage) : ServerState :=
  ((handleWork client msg (fun _ => 0)).run exec s).elim s Prod.fst

def responseTo (s : ServerState) (client : Client) (msg : SockMessage) : SockMessage :=
  ((handleWork client msg (fun _ => 0)).run exec s).elim msg Prod.snd

theorem step_after (s : ServerState) (client : Client) (msg : SockMessage)
    (h : ((handleWork client msg (fun _ => 0)).run exec s).isSome) :
    s.Step (.request client msg (fun _ => 0) (s.responseTo client msg)) (s.after client msg) := by
  obtain ⟨r, hr⟩ := Option.isSome_iff_exists.mp h
  simp [Step, after, responseTo, hr]

/-- A request about the file `a`. -/
def requestA (type : SockMessageType) (flags : BitVec 32) : SockMessage where
  uid := Vector.replicate 16 0
  type := type
  request := ⟨flags, ⟨some [97], none⟩⟩

/-- Client 4 has a session and nothing else has happened. -/
def withSession : ServerState :=
  (start FileSystem.defaultConfigs).after 4 (requestA .reqOpenSession 0)

theorem step_withSession : Step (start FileSystem.defaultConfigs) (.request 4
    (requestA .reqOpenSession 0) (fun _ => 0)
    ((start FileSystem.defaultConfigs).responseTo 4 (requestA .reqOpenSession 0))) withSession :=
  step_after _ _ _ (by decide +kernel)

/-- Client 4 creates the file `a` with its lock. -/
def withFile : ServerState := withSession.after 4 (requestA .reqOpenFile (flagCreate ||| flagLock))

theorem step_withFile : withSession.Step (.request 4
    (requestA .reqOpenFile (flagCreate ||| flagLock)) (fun _ => 0)
    (withSession.responseTo 4 (requestA .reqOpenFile (flagCreate ||| flagLock)))) withFile :=
  step_after _ _ _ (by decide +kernel)

end ServerState
end StorageServer.Server
