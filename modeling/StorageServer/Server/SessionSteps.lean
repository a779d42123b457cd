import StorageServer.Server.Postponed

/-! What a request does to the session of its client, one case for each way a session can change,
with the answer that goes with it. -/
namespace StorageServer.Server
open Common Library.Calls

namespace ClientSession
variable {session : ClientSession}

theorem remFileOpened_opened {file : SessionFile} (h : session.Lists (hashString file)) :
    (session.remFileOpened file).1.opened =
      session.opened.eraseP (fun o => o.filename = hashString file) := by
  rw [remFileOpened, if_neg (not_not.mpr h.1), if_pos h.2]

/-- The session lists the file with exactly the flags to create and to lock it. -/
def MayWrite (session : ClientSession) (file : SessionFile) : Prop :=
  session.isValid = true ∧ ∃ o ∈ session.opened,
    o.filename = hashString file ∧ o.flags = flagCreate ||| flagLock

/-- The check looks for the flags with which the file was opened. -/
theorem canWriteIntoFile_cases (session : ClientSession) (file : SessionFile) :
    session.canWriteIntoFile file ∈ errors ∨
      session.canWriteIntoFile file = 0 ∧ session.MayWrite file := by
  have hfold : ∀ (os : List OpenedFile) (r : ℤ),
      let res := os.foldl (fun res o => if o.filename = hashString file then
        if o.flags = flagCreate ||| flagLock then 0 else sessionCannotWriteFile else res) r
      res = r ∨ res = sessionCannotWriteFile ∨ res = 0 ∧ ∃ o ∈ os,
        o.filename = hashString file ∧ o.flags = flagCreate ||| flagLock := by
    intro os
    induction os with
    | nil => exact fun r => Or.inl rfl
    | cons o os ih =>
      intro r
      dsimp only [List.foldl_cons]
      by_cases hn : o.filename = hashString file
      · by_cases hflags : o.flags = flagCreate ||| flagLock
        · rw [if_pos hn, if_pos hflags]
          rcases ih 0 with h | h | ⟨h, x, hx, hxo⟩
          · exact Or.inr (Or.inr ⟨h, o, List.mem_cons_self, hn, hflags⟩)
          · exact Or.inr (Or.inl h)
          · exact Or.inr (Or.inr ⟨h, x, List.mem_cons_of_mem _ hx, hxo⟩)
        · rw [if_pos hn, if_neg hflags]
          rcases ih sessionCannotWriteFile with h | h | ⟨h, x, hx, hxo⟩
          · exact Or.inr (Or.inl h)
          · exact Or.inr (Or.inl h)
          · exact Or.inr (Or.inr ⟨h, x, List.mem_cons_of_mem _ hx, hxo⟩)
      · rw [if_neg hn]
        rcases ih r with h | h | ⟨h, x, hx, hxo⟩
        · exact Or.inl h
        · exact Or.inr (Or.inl h)
        · exact Or.inr (Or.inr ⟨h, x, List.mem_cons_of_mem _ hx, hxo⟩)
  unfold ClientSession.canWriteIntoFile
  split_ifs with hv
  · rcases hfold session.opened sessionFileNeverOpened with h | h | ⟨h, ho⟩
    · rw [h]
      exact Or.inl (by simp [errors])
    · rw [h]
      exact Or.inl (by simp [errors])
    · exact Or.inr ⟨h, hv, ho⟩
  · exact Or.inl (by simp [errors])

end ClientSession

/-- The requests that may change the session of their client. -/
def sessionTypes : List SockMessageType :=
  [.reqOpenSession, .reqCloseSession, .reqOpenFile, .reqCloseFile, .reqRemoveFile]

/-- How the session table changes while a request is served. -/
inductive SessionChange (t : SessionTable) (client : Client) (msg response : SockMessage) :
    SessionTable → Prop
  | kept (ht : msg.type ∉ sessionTypes) : SessionChange t client msg response t
  | refused (hs : response.response.status ≠ .ok) (hr : response.type ≠ .none) :
    SessionChange t client msg response t
  | idle (ht : msg.type = .reqCloseSession) (hv : (t client).isValid = false)
      (hr : response.type ≠ .none) : SessionChange t client msg response t
  | queued (ht : msg.type = .reqOpenFile)
      (hn : hashString (sessionFile msg) ∉ (t client).filenames) :
    SessionChange t client msg response t
  | opened (ht : msg.type = .reqOpenFile) (hv : (t client).isValid = true)
      (hn : hashString (sessionFile msg) ∉ (t client).filenames)
      (hroom : (t client).numFileOpened < maxClientOpenedFiles)
      (hs : response.response.status = .ok) (hr : response.type ≠ .none) :
    SessionChange t client msg response
      (Function.update t client ((t client).addFileOpened (sessionFile msg) msg.request.flags).1)
  | closed (ht : msg.type = .reqCloseFile ∨ msg.type = .reqRemoveFile)
      (hl : (t client).Lists (hashString (sessionFile msg))) (hr : response.type ≠ .none) :
    SessionChange t client msg response
      (Function.update t client ((t client).remFileOpened (sessionFile msg)).1)
  | reset (ht : msg.type = .reqOpenSession ∨ msg.type = .reqCloseSession) (valid : Bool)
      (hr : response.type ≠ .none) :
    SessionChange t client msg response (Function.update t client (.blank valid))

theorem SessionChange.of_ne {t t' : SessionTable} {client c : Client} {msg response : SockMessage}
    (h : SessionChange t client msg response t') (hc : c ≠ client) : t' c = t c := by
  cases h with
  | kept | refused | idle | queued => rfl
  | opened | closed | reset => exact Function.update_of_ne hc _ _

section Programs
variable {s s' : ServerState} {client : Client} {msg response : SockMessage}

theorem handleError_refused (response : SockMessage) {r : ℤ} (h : r ∈ errors)
    (hr : response.type ≠ .none) (outFiles : List FSFile) :
    (addOutFiles (handleError r response, outFiles)).response.status ≠ .ok ∧
      (addOutFiles (handleError r response, outFiles)).type ≠ .none := by
  constructor
  · rw [addOutFiles_status]
    exact handleError_ne_ok h response
  · refine Sent.addOutFiles (Or.inl ?_)
    rwa [handleError_type]

theorem openFile_change (hw : s.fs.WF) (ht : msg.type = .reqOpenFile)
    (hok : response.response.status = .ok) (hr : response.type ≠ .none) {reply : Reply}
    (h : (openFile client msg response).run ServerState.exec s = some (s', reply)) :
    SessionChange s.gSessionTable client msg (addOutFiles reply) s'.gSessionTable := by
  unfold openFile at h
  rw [run_getSession] at h
  rcases (s.gSessionTable client).intHasOpenedFile_cases (hashString (sessionFile msg)) with
    ⟨hv, -⟩ | ⟨⟨hv, hl⟩, ho⟩ | ⟨⟨hv, hn⟩, ho⟩
  · simp only [hv] at h
    cases h
    obtain ⟨h1, h2⟩ := handleError_refused _ (r := sessionNotExist) (by simp [errors]) hr []
    exact .refused h1 h2
  · simp only [hv, if_true, ne_eq, not_true_eq_false, if_false] at h
    rw [run_hasOpenedFile, ho] at h
    cases h
    obtain ⟨h1, h2⟩ :=
      handleError_refused _ (r := sessionFileAlreadyOpened) (by simp [errors]) hr []
    exact .refused h1 h2
  · simp only [hv, if_true, ne_eq, not_true_eq_false, if_false] at h
    rw [run_hasOpenedFile, ho] at h
    simp only [not_true_eq_false, if_false] at h
    obtain ⟨t, out, hts, -, he, h⟩ := run_fsCall hw h
    split at h
    · cases h
      rw [hts]
      exact .queued ht hn
    · rw [run_sessionCall] at h
      cases h
      change SessionChange _ _ _ (addOutFiles (handleError
        (t.gSessionTable client |>.addFileOpened _ _).2 response, out.outFiles))
        (Function.update t.gSessionTable client _)
      rw [hts]
      rcases Nat.lt_or_ge (s.gSessionTable client).numFileOpened maxClientOpenedFiles with hf | hf
      · rw [(ClientSession.addFileOpened_room _ hv hn hf).1, handleError_zero]
        refine .opened ht hv hn hf ?_ (Sent.addOutFiles (Or.inl hr))
        rw [addOutFiles_status]
        exact hok
      · rw [ClientSession.addFileOpened_full msg.request.flags hv hn hf, Function.update_eq_self]
        obtain ⟨h1, h2⟩ := handleError_refused _ (r := sessionOutOfMemory) (by simp [errors]) hr
          out.outFiles
        exact .refused h1 h2

theorem closeFile_change (hw : s.fs.WF) (ht : msg.type = .reqCloseFile)
    (hr : response.type ≠ .none) {reply : Reply}
    (h : (closeFile client msg response).run ServerState.exec s = some (s', reply)) :
    SessionChange s.gSessionTable client msg (addOutFiles reply) s'.gSessionTable := by
  unfold closeFile at h
  rw [run_getSession] at h
  rcases (s.gSessionTable client).intHasOpenedFile_cases (hashString (sessionFile msg)) with
    ⟨hv, -⟩ | ⟨hl, ho⟩ | ⟨⟨hv, hn⟩, ho⟩
  · simp only [hv] at h
    cases h
    obtain ⟨h1, h2⟩ := handleError_refused _ (r := sessionNotExist) (by simp [errors]) hr []
    exact .refused h1 h2
  · simp only [hl.1, if_true, ne_eq, not_true_eq_false, if_false] at h
    rw [run_hasOpenedFile, ho] at h
    simp only [not_true_eq_false, if_false] at h
    obtain ⟨t, out, hts, -, he, h⟩ := run_fsCall hw h
    rw [run_sessionCall] at h
    cases h
    change SessionChange _ _ _ _ (Function.update t.gSessionTable client _)
    rw [hts]
    refine .closed (Or.inl ht) hl (Sent.addOutFiles (Or.inl ?_))
    rwa [handleError_type]
  · simp only [hv, if_true, ne_eq, not_true_eq_false, if_false] at h
    rw [run_hasOpenedFile, ho] at h
    cases h
    obtain ⟨h1, h2⟩ := handleError_refused _ (r := sessionFileNeverOpened) (by simp [errors]) hr []
    exact .refused h1 h2

/-- The check of a file refuses the request or finds the file listed. -/
theorem run_checkOpened_cases {α : Type} {f : Except SockMessage Unit → Handler α} {a : α}
    (h : (checkOpened client msg response >>= f).run ServerState.exec s = some (s', a)) :
    (∃ r ∈ errors, (f (.error (handleError r response))).run ServerState.exec s = some (s', a)) ∨
      (msg.type = .reqWriteFile → (s.gSessionTable client).MayWrite (sessionFile msg)) ∧
      (msg.type ≠ .reqWriteFile →
        (s.gSessionTable client).Lists (hashString (sessionFile msg))) ∧
      (f (.ok ())).run ServerState.exec s = some (s', a) := by
  unfold checkOpened at h
  rw [Program.run_bind] at h
  dsimp only at h
  by_cases hwrite : msg.type = .reqWriteFile
  · rw [if_pos hwrite, run_sessionCall] at h
    change ((if (s.gSessionTable client).canWriteIntoFile (sessionFile msg) ≠ 0 then _
      else _ : Handler _).run ServerState.exec s).bind _ = _ at h
    rcases (s.gSessionTable client).canWriteIntoFile_cases (sessionFile msg) with he | ⟨h0, hm⟩
    · rw [if_pos (ne_zero_of_mem_errors he)] at h
      exact Or.inl ⟨_, he, h⟩
    · rw [if_neg (not_not.mpr h0)] at h
      exact Or.inr ⟨fun _ => hm, fun hn => absurd hwrite hn, h⟩
  · rw [if_neg hwrite, run_hasOpenedFile] at h
    rcases (s.gSessionTable client).intHasOpenedFile_cases (hashString (sessionFile msg)) with
      ⟨hv, ho⟩ | ⟨hl, ho⟩ | ⟨⟨-, hn⟩, ho⟩
    · rw [ho] at h
      exact Or.inl ⟨_, by simp [errors], h⟩
    · rw [ho] at h
      exact Or.inr ⟨fun ht => absurd ht hwrite, fun _ => hl, h⟩
    · rw [ho] at h
      exact Or.inl ⟨_, by simp [errors], h⟩

theorem fileRequest_change (hw : s.fs.WF) {op : FsOperation}
    (hop : fileOperation client msg = some op) (hr : response.type ≠ .none) {reply : Reply}
    (h : (fileRequest client msg response op).run ServerState.exec s = some (s', reply)) :
    SessionChange s.gSessionTable client msg (addOutFiles reply) s'.gSessionTable := by
  unfold fileRequest at h
  rw [run_getSession] at h
  by_cases hv : (s.gSessionTable client).isValid = true
  swap
  · simp only [hv] at h
    cases h
    obtain ⟨h1, h2⟩ := handleError_refused _ (r := sessionNotExist) (by simp [errors]) hr []
    exact .refused h1 h2
  simp only [hv, if_true, ne_eq, not_true_eq_false, if_false] at h
  by_cases hrem : msg.type = .reqRemoveFile
  · rcases run_checkOpened_cases h with ⟨r, hmem, h⟩ | ⟨-, hl, h⟩
    · cases h
      obtain ⟨h1, h2⟩ := handleError_refused _ hmem hr []
      exact .refused h1 h2
    · obtain ⟨t, out, hts, -, he, hf⟩ := run_fsCall hw h
      have hlock : msg.type ≠ .reqLockFile := by rw [hrem]; simp
      rw [if_pos hrem, if_neg hlock, run_sessionCall] at hf
      cases hf
      change SessionChange _ _ _ _ (Function.update t.gSessionTable client _)
      rw [hts]
      refine .closed (Or.inr hrem) (hl (by simp [hrem])) (Sent.addOutFiles (Or.inl ?_))
      rwa [handleError_type, handleError_type]
  · have hkept : msg.type ∉ sessionTypes := by
      intro hmem
      simp only [sessionTypes, List.mem_cons, List.not_mem_nil, or_false] at hmem
      rcases hmem with ht | ht | ht | ht | ht
      all_goals simp [fileOperation, ht] at hop hrem
    rcases run_checkOpened h with ⟨-, r, h⟩ | ⟨-, h⟩
    · cases h
      exact .kept hkept
    · obtain ⟨t, out, hts, -, he, hf⟩ := run_fsCall hw h
      rw [if_neg hrem] at hf
      cases hf
      rw [hts]
      exact .kept hkept

/-- The session of the client changes in one of these ways, and the others do not change. -/
theorem handleWork_change (hw : s.fs.WF) {rand : ℕ → ℕ}
    (h : (handleWork client msg rand).run ServerState.exec s = some (s', response)) :
    SessionChange s.gSessionTable client msg response s'.gSessionTable := by
  have hsimple : SockMessageType.respSimple ≠ .none := by simp
  unfold handleWork at h
  split at h
  next ht =>
    rw [run_sessionCall] at h
    cases h
    change SessionChange _ _ _ (handleError (s.gSessionTable.createSession client).2.res _)
      (s.gSessionTable.createSession client).1
    rw [SessionTable.createSession]
    split_ifs with hv
    · obtain ⟨h1, h2⟩ := handleError_refused
        { uid := msg.uid, type := .respSimple, response := ⟨.ok, []⟩ } (r := sessionAlreadyExist)
        (by simp [errors]) hsimple []
      exact .refused h1 h2
    · exact .reset (Or.inl ht) true hsimple
  next ht =>
    rw [Program.run_bind] at h
    obtain ⟨⟨t, ⟨⟩⟩, hc, hr⟩ := Option.bind_eq_some_iff.mp h
    cases hr
    rcases run_closeSession hw hc with ⟨rfl, hv⟩ | ⟨hv, ht', -⟩
    · exact .idle ht hv hsimple
    · rw [ht']
      exact .reset (Or.inr ht) false hsimple
  next ht =>
    rw [Program.run_bind] at h
    obtain ⟨⟨t, reply⟩, hc, hr⟩ := Option.bind_eq_some_iff.mp h
    cases hr
    exact openFile_change hw ht rfl hsimple hc
  next ht =>
    rw [Program.run_bind] at h
    obtain ⟨⟨t, reply⟩, hc, hr⟩ := Option.bind_eq_some_iff.mp h
    cases hr
    exact closeFile_change hw ht hsimple hc
  next ht =>
    obtain ⟨t, out, hts, -, he, h⟩ := run_fsCall hw h
    cases h
    rw [hts]
    exact .kept (by simp [ht, sessionTypes])
  next h1 h2 h3 h4 h5 =>
    split at h
    next op hop =>
      rw [Program.run_bind] at h
      obtain ⟨⟨t, reply⟩, hc, hr⟩ := Option.bind_eq_some_iff.mp h
      cases hr
      exact fileRequest_change hw hop hsimple hc
    next hop =>
      obtain ⟨rfl, rfl⟩ := Prod.mk.inj (Option.some.inj h)
      exact .refused (by simp) hsimple

end Programs
end StorageServer.Server
