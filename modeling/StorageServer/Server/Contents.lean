import StorageServer.Common.Decoding
import StorageServer.Server.Exclusion
import StorageServer.Server.FileMap
import StorageServer.Server.Linearizability
import StorageServer.Server.SessionSteps

/-! What is stored, as the clients are told. The requests with their responses, in the order in
which the server does them, say what each file contains, and a client that reads a file gets
that. -/
namespace StorageServer.Server
open Common Library.Calls Library.Runs

abbrev Contents := List UInt8 → Option (List UInt8)

/-- The request has been done. The generic error says that the session has no room for the file,
which is created nonetheless. -/
def Stored (response : SockMessage) : Prop :=
  response.response.status = .ok ∨ response.response.status = .genericError

instance (response : SockMessage) : Decidable (Stored response) :=
  inferInstanceAs (Decidable (_ ∨ _))

/-- The name of the file that a request is about. -/
def requestedName (msg : SockMessage) : Option (List UInt8) :=
  match msg.type.body with
  | .file => some (sessionFile msg)
  | .bare | .flags | .status | .files => none

namespace ServerEvent

/-- Files that come back with a response are no longer stored. -/
def forget (response : SockMessage) (m : Contents) : Contents :=
  fun name => if some name ∈ response.response.files.map MsgFile.filename then none else m name

/-- What the files contain after a request that got the response. -/
def contentsAfter (m : Contents) : ServerEvent → Contents
  | .request _ msg _ response =>
    let name := sessionFile msg
    let content := msg.request.file.content.getD []
    if Stored response then
      match msg.type with
      | .reqOpenFile =>
        if msg.request.flags &&& flagCreate ≠ 0 then
          forget response (Function.update m name (some content))
        else m
      | .reqWriteFile => forget response (Function.update m name (some content))
      | .reqAppendToFile =>
        forget response (Function.update m name ((m name).map (· ++ content)))
      | .reqRemoveFile => Function.update m name none
      | _ => m
    else m
  | .endOfFile _ | .lost _ | .delivery _ => m

/-- The name of the file that an event is about. -/
def requestedName : ServerEvent → Option (List UInt8)
  | .request _ msg _ _ => Server.requestedName msg
  | .endOfFile _ | .lost _ | .delivery _ => none

/-- The response to a request to read a file. -/
def Reads (m : Contents) : ServerEvent → Prop
  | .request _ msg _ response => msg.type = .reqReadFile → response.response.status = .ok →
    ∃ content, m (sessionFile msg) = some content ∧ response.response.files =
      [⟨some (sessionFile msg), if content = [] then none else some content⟩]
  | .endOfFile _ | .lost _ | .delivery _ => True

end ServerEvent

def contentsOf (tr : List ServerEvent) : Contents :=
  tr.foldl ServerEvent.contentsAfter (fun _ => none)

/-! ### The calls behind a request -/

section Status
variable {r : ℤ} {response : SockMessage}

theorem stored_handleError (hok : response.response.status = .ok) (h : r ∈ errors)
    (hr : r ≠ sessionOutOfMemory) : ¬ Stored (handleError r response) := by
  have hgeneric : (handleError r response).response.status ≠ .genericError := by
    unfold handleError
    dsimp only
    split_ifs
    · simp
    · simp
    · simp
    · rw [hok]
      simp
  rintro (h0 | h0)
  · exact handleError_ne_ok h response h0
  · exact hgeneric h0

theorem stored_handleError_iff (hok : response.response.status = .ok)
    (h : r = 0 ∨ r ∈ errors ∧ r ≠ sessionOutOfMemory) :
    Stored (handleError r response) ↔ r = 0 := by
  rcases h with rfl | ⟨h, hr⟩
  · exact iff_of_true (.inl hok) rfl
  · exact iff_of_false (stored_handleError hok h hr) (ne_zero_of_mem_errors h)

@[simp] theorem handleError_files (r : ℤ) (response : SockMessage) :
    (handleError r response).response.files = response.response.files := by
  unfold handleError
  dsimp only
  split_ifs <;> rfl

@[simp] theorem handleLock_files (r : ℤ) (response : SockMessage) :
    (handleLock r response).response.files = response.response.files := by
  unfold handleLock
  split_ifs
  · rfl
  · exact handleError_files r response

@[simp] theorem openError_files (msg : SockMessage) (r : ℤ) (response : SockMessage) :
    (openError msg r response).response.files = response.response.files := by
  unfold openError
  split_ifs
  · exact handleLock_files r response
  · exact handleError_files r response

/-- A session that is full does not undo what the file system has done. -/
theorem stored_addFileOpened {session : ClientSession} {file : SessionFile} (flags : BitVec 32)
    (hok : response.response.status = .ok) (hv : session.isValid = true)
    (hn : hashString file ∉ session.filenames) :
    Stored (handleError (session.addFileOpened file flags).2 response) := by
  rcases Nat.lt_or_ge session.numFileOpened maxClientOpenedFiles with hf | hf
  · rw [(ClientSession.addFileOpened_room flags hv hn hf).1, handleError_zero]
    exact .inl hok
  · rw [ClientSession.addFileOpened_full flags hv hn hf]
    exact .inr rfl

end Status

/-- No operation of the file system runs out of memory for a session. -/
theorem Store.Effect.res_ne {s s' : Store} {op : FsOperation} {out : FSOutcome}
    (h : s.Effect op out s') : out.res ≠ sessionOutOfMemory := by
  cases h with
  | refused hf he hr =>
    cases op with
    | insert | obtain | obtainN | exist | clean => exact hr.elim
    | remove | unlock => rw [hr.2]; decide
    | modify => rcases hr with ⟨-, rfl⟩ | ⟨-, -, rfl⟩ <;> decide
    | append => rcases hr with ⟨-, -, rfl⟩ | ⟨-, -, rfl⟩ <;> decide
    | trylock => rw [hr.2.2.2]; decide
  | _ => simp [ejected, Store.clean]

theorem ClientSession.canWriteIntoFile_ne (session : ClientSession) (file : SessionFile) :
    session.canWriteIntoFile file ≠ sessionOutOfMemory := by
  have hfold : ∀ (os : List OpenedFile) (r : ℤ), r ≠ sessionOutOfMemory →
      os.foldl (fun res o => if o.filename = hashString file then
        if o.flags = flagCreate ||| flagLock then 0 else sessionCannotWriteFile else res) r ≠
        sessionOutOfMemory := by
    intro os
    induction os with
    | nil => exact fun r h => h
    | cons o os ih =>
      intro r h
      rw [List.foldl_cons]
      refine ih _ ?_
      by_cases hn : o.filename = hashString file
      · rw [if_pos hn]
        split_ifs <;> decide
      · rwa [if_neg hn]
  unfold ClientSession.canWriteIntoFile
  split_ifs
  · exact hfold _ _ (by decide)
  · decide

/-- What a handler has called and the reply that it makes of the outcome. A session that has no
file is refused before; a lock that is not granted now changes no content. -/
inductive Replies (client : Client) (msg : SockMessage) (fs : FileSystem) :
    Reply → FileSystem → List FsEvent → Prop
  | refused {response} (h : ¬ Stored response) (hfiles : response.response.files = []) :
    Replies client msg fs (response, []) fs []
  | asked {response op out fs'} (hop : requestedOperation client msg = some op)
      (hs : FileSystem.Step fs (op,out) fs') (hfiles : response.response.files = [])
      (hr : (∀ file, op ≠ .trylock client file) → (Stored response ↔ out.res = 0)) :
    Replies client msg fs (response, out.outFiles) fs' [(op,out)]
  | closed {response out fs'} (ht : msg.type = .reqCloseFile)
      (hs : FileSystem.Step fs (.unlock client (copyRequestIntoFile msg), out) fs')
      (hfiles : response.response.files = []) :
    Replies client msg fs (response, []) fs' [(.unlock client (copyRequestIntoFile msg), out)]

section Programs
variable {α : Type} {s s' : ServerState} {client : Client} {msg response : SockMessage}

theorem run_fsStep {op : FsOperation} {f : FSOutcome → Handler α} {a : α}
    (h : (fsCall op >>= f).run ServerState.exec s = some (s', a)) :
    ∃ t out, t.gSessionTable = s.gSessionTable ∧ FileSystem.Step s.fs (op,out) t.fs ∧
      (f out).run ServerState.exec t = some (s', a) := by
  obtain ⟨t, out, ht, hf⟩ := Program.run_call h
  obtain ⟨⟨fs, out'⟩, ho, hr⟩ := Option.map_eq_some_iff.mp ht
  cases hr
  exact ⟨{ s with fs := fs, gLockQueue := s.gLockQueue ++ out'.issued }, out', rfl, ho, hf⟩

/-- The result of an operation decides on the response, unless it is put off. -/
theorem stored_of_effect {st st' : Store} {op : FsOperation} {out : FSOutcome}
    (hok : response.response.status = .ok) (he : st.Effect op out st')
    (hop : ∀ file, op ≠ .trylock client file) (hc : op.client = client) :
    Stored (handleError out.res response) ↔ out.res = 0 := by
  refine stored_handleError_iff hok ?_
  rcases he.res_cases with h0 | ⟨-, c, file, rfl⟩ | ⟨herr, -⟩
  · exact .inl h0
  · obtain rfl : c = client := hc
    exact absurd rfl (hop file)
  · exact .inr ⟨herr, he.res_ne⟩

theorem openFile_replies (hw : s.fs.WF) (ht : msg.type = .reqOpenFile)
    (hok : response.response = ⟨.ok, []⟩) {reply : Reply}
    (h : (openFile client msg response).run ServerState.exec s = some (s', reply)) :
    ∃ es, Replies client msg s.fs reply s'.fs es := by
  have hstatus : response.response.status = .ok := by rw [hok]
  have hfiles : response.response.files = [] := by rw [hok]
  unfold openFile at h
  rw [run_getSession] at h
  rcases (s.gSessionTable client).intHasOpenedFile_cases (hashString (sessionFile msg)) with
    ⟨hv, -⟩ | ⟨⟨hv, hl⟩, ho⟩ | ⟨⟨hv, hn⟩, ho⟩
  · simp only [hv] at h
    cases h
    exact ⟨[], .refused (stored_handleError hstatus (by simp [errors]) (by decide)) (by simpa)⟩
  · simp only [hv, if_true, ne_eq, not_true_eq_false, if_false] at h
    rw [run_hasOpenedFile, ho] at h
    cases h
    exact ⟨[], .refused (stored_handleError hstatus (by simp [errors]) (by decide)) (by simpa)⟩
  · simp only [hv, if_true, ne_eq, not_true_eq_false, if_false] at h
    rw [run_hasOpenedFile, ho] at h
    simp only [not_true_eq_false, if_false] at h
    obtain ⟨t, out, hts, hs, h⟩ := run_fsStep h
    have he := hs.effect hw
    refine ⟨[(openOperation client msg, out)], ?_⟩
    by_cases h0 : out.res = 0
    · rw [if_neg (not_not.mpr h0), run_sessionCall] at h
      cases h
      refine .asked (if_pos ht) hs (by simpa) fun _ => iff_of_true ?_ h0
      change Stored (handleError (t.gSessionTable client |>.addFileOpened _ _).2 response)
      rw [hts]
      exact stored_addFileOpened _ hstatus hv hn
    · rw [if_pos h0] at h
      cases h
      refine .asked (if_pos ht) hs (by simpa) fun hop => ?_
      rw [openError_of_ne hop]
      exact stored_of_effect hstatus he hop (openOperation_client client msg)

theorem closeFile_replies (ht : msg.type = .reqCloseFile)
    (hok : response.response = ⟨.ok, []⟩) {reply : Reply}
    (h : (closeFile client msg response).run ServerState.exec s = some (s', reply)) :
    ∃ es, Replies client msg s.fs reply s'.fs es := by
  have hstatus : response.response.status = .ok := by rw [hok]
  have hfiles : response.response.files = [] := by rw [hok]
  unfold closeFile at h
  rw [run_getSession] at h
  rcases (s.gSessionTable client).intHasOpenedFile_cases (hashString (sessionFile msg)) with
    ⟨hv, -⟩ | ⟨⟨hv, hl⟩, ho⟩ | ⟨⟨hv, hn⟩, ho⟩
  · simp only [hv] at h
    cases h
    exact ⟨[], .refused (stored_handleError hstatus (by simp [errors]) (by decide)) (by simpa)⟩
  · simp only [hv, if_true, ne_eq, not_true_eq_false, if_false] at h
    rw [run_hasOpenedFile, ho] at h
    simp only [not_true_eq_false, if_false] at h
    obtain ⟨t, out, -, hs, h⟩ := run_fsStep h
    rw [run_sessionCall] at h
    cases h
    exact ⟨_, .closed ht hs (by simpa)⟩
  · simp only [hv, if_true, ne_eq, not_true_eq_false, if_false] at h
    rw [run_hasOpenedFile, ho] at h
    cases h
    exact ⟨[], .refused (stored_handleError hstatus (by simp [errors]) (by decide)) (by simpa)⟩

/-- A check that fails refuses the request. -/
theorem checkOpened_replies (hok : response.response = ⟨.ok, []⟩)
    {f : Except SockMessage Unit → Handler α} {a : α}
    (h : (checkOpened client msg response >>= f).run ServerState.exec s = some (s', a)) :
    (∃ r, ¬ Stored r ∧ r.response.files = [] ∧
        (f (.error r)).run ServerState.exec s = some (s', a)) ∨
      (s.gSessionTable client).Lists (hashString (sessionFile msg)) ∧
        (f (.ok ())).run ServerState.exec s = some (s', a) := by
  have hstatus : response.response.status = .ok := by rw [hok]
  have hfiles : response.response.files = [] := by rw [hok]
  unfold checkOpened at h
  rw [Program.run_bind] at h
  dsimp only at h
  by_cases hwrite : msg.type = .reqWriteFile
  · rw [if_pos hwrite, run_sessionCall] at h
    change ((if (s.gSessionTable client).canWriteIntoFile (sessionFile msg) ≠ 0 then _
      else _ : Handler _).run ServerState.exec s).bind _ = _ at h
    rcases (s.gSessionTable client).canWriteIntoFile_cases (sessionFile msg) with herr | ⟨h0, -⟩
    · rw [if_pos (ne_zero_of_mem_errors herr)] at h
      exact .inl ⟨_, stored_handleError hstatus herr (ClientSession.canWriteIntoFile_ne _ _),
        by simpa, h⟩
    · rw [if_neg (not_not.mpr h0)] at h
      exact .inr ⟨ClientSession.canWriteIntoFile_eq_zero h0, h⟩
  · rw [if_neg hwrite, run_hasOpenedFile] at h
    rcases (s.gSessionTable client).intHasOpenedFile_cases (hashString (sessionFile msg)) with
      ⟨hv, ho⟩ | ⟨hl, ho⟩ | ⟨⟨-, hn⟩, ho⟩
    · rw [ho] at h
      exact .inl ⟨_, stored_handleError hstatus (by simp [errors]) (by decide), by simpa, h⟩
    · rw [ho] at h
      exact .inr ⟨hl, h⟩
    · rw [ho] at h
      exact .inl ⟨_, stored_handleError hstatus (by simp [errors]) (by decide), by simpa, h⟩

theorem fileRequest_replies (hw : s.fs.WF) {op : FsOperation}
    (hop : fileOperation client msg = some op) (ht : msg.type ≠ .reqOpenFile)
    (hok : response.response = ⟨.ok, []⟩) {reply : Reply}
    (h : (fileRequest client msg response op).run ServerState.exec s = some (s', reply)) :
    ∃ es, Replies client msg s.fs reply s'.fs es := by
  have hstatus : response.response.status = .ok := by rw [hok]
  have hfiles : response.response.files = [] := by rw [hok]
  unfold fileRequest at h
  rw [run_getSession] at h
  by_cases hv : (s.gSessionTable client).isValid = true
  · simp only [hv, if_true, ne_eq, not_true_eq_false, if_false] at h
    rcases checkOpened_replies hok h with ⟨r, hr, hnil, h⟩ | ⟨hl, h⟩
    · cases h
      exact ⟨[], .refused hr hnil⟩
    obtain ⟨t, out, hts, hs, h⟩ := run_fsStep h
    have he := hs.effect hw
    refine ⟨[(op,out)], ?_⟩
    by_cases hrem : msg.type = .reqRemoveFile
    · -- the session forgets the file, which it lists
      have hlock : msg.type ≠ .reqLockFile := by rw [hrem]; simp
      rw [if_pos hrem, if_neg hlock, run_sessionCall] at h
      cases h
      refine .asked ((if_neg ht).trans hop) hs (by simpa) fun htry => ?_
      change Stored (handleError (t.gSessionTable client |>.remFileOpened _).2 _) ↔ _
      rw [hts, (ClientSession.remFileOpened_listed hl).1, handleError_zero]
      exact stored_of_effect hstatus he htry (fileOperation_client hop)
    · rw [if_neg hrem] at h
      cases h
      refine .asked ((if_neg ht).trans hop) hs ?_ fun htry => ?_
      · split_ifs <;> simpa
      · have hlock : msg.type ≠ .reqLockFile := fun hlock => by
          rw [fileOperation, hlock] at hop
          exact htry _ (Option.some.inj hop).symm
        rw [if_neg hlock]
        exact stored_of_effect hstatus he htry (fileOperation_client hop)
  · simp only [hv] at h
    cases h
    exact ⟨[], .refused (stored_handleError hstatus (by simp [errors]) (by decide)) (by simpa)⟩

/-! ### What the response tells -/

theorem stored_addOutFiles (reply : Reply) : Stored (addOutFiles reply) ↔ Stored reply.1 := by
  rw [Stored, Stored, addOutFiles_status]

theorem addOutFiles_filenames {outFiles : List FSFile} (h : response.response.files = []) :
    (addOutFiles (response, outFiles)).response.files.map MsgFile.filename =
      outFiles.map (fun file => some file.name) := by
  cases outFiles with
  | nil =>
    change response.response.files.map _ = _
    rw [h]
    rfl
  | cons file files =>
    simp only [addOutFiles, List.map_map]
    rfl

theorem forget_addOutFiles {outFiles : List FSFile} (h : response.response.files = [])
    (m : Contents) : ServerEvent.forget (addOutFiles (response, outFiles)) m =
      fun name => if name ∈ outFiles.map FSFile.name then none else m name := by
  funext name
  unfold ServerEvent.forget
  rw [addOutFiles_filenames h]
  refine if_congr ?_ rfl rfl
  simp only [List.mem_map, Option.some.injEq]

/-- The operation and its outcome, and the request and its response, say the same. -/
theorem contentsAfter_asked {op : FsOperation} {out : FSOutcome} (rand : ℕ → ℕ)
    (hop : requestedOperation client msg = some op) (hfiles : response.response.files = [])
    (hr : (∀ file, op ≠ .trylock client file) → (Stored response ↔ out.res = 0)) (m : Contents) :
    Server.contentsAfter m (op,out) =
      ServerEvent.contentsAfter m
        (.request client msg rand (addOutFiles (response, out.outFiles))) := by
  have hforget := @forget_addOutFiles response out.outFiles hfiles
  simp only [ServerEvent.contentsAfter, stored_addOutFiles, hforget]
  unfold requestedOperation at hop
  by_cases ht : msg.type = .reqOpenFile
  · rw [if_pos ht] at hop
    obtain rfl := Option.some.inj hop
    rw [ht]
    unfold openOperation at hr ⊢
    by_cases hc : msg.request.flags &&& flagCreate ≠ 0
    · rw [if_pos hc] at hr ⊢
      dsimp only
      rw [if_pos hc]
      exact if_congr (hr fun _ => by simp).symm rfl rfl
    · rw [if_neg hc]
      dsimp only
      rw [if_neg hc, ite_self]
      split_ifs <;> exact ite_self _
  · rw [if_neg ht] at hop
    unfold fileOperation at hop
    split at hop
    next hwrite =>
      obtain rfl := Option.some.inj hop
      rw [hwrite]
      exact if_congr (hr fun _ => by simp).symm rfl rfl
    next hread =>
      obtain rfl := Option.some.inj hop
      rw [hread]
      exact (ite_self _).trans (ite_self _).symm
    next hlock =>
      obtain rfl := Option.some.inj hop
      rw [hlock]
      exact (ite_self _).trans (ite_self _).symm
    next hunlock =>
      obtain rfl := Option.some.inj hop
      rw [hunlock]
      exact (ite_self _).trans (ite_self _).symm
    next hremove =>
      obtain rfl := Option.some.inj hop
      rw [hremove]
      exact if_congr (hr fun _ => by simp).symm rfl rfl
    next happend =>
      obtain rfl := Option.some.inj hop
      rw [happend]
      exact if_congr (hr fun _ => by simp).symm rfl rfl
    next => cases hop

/-- The operation that the file system runs for an event, if any, says the same as the event. -/
structure Explains (fs fs' : FileSystem) (e : ServerEvent) (es : List FsEvent) : Prop where
  run : Run FileSystem.Step fs es fs'
  length_le : es.length ≤ 1
  contents : ∀ m, es.foldl contentsAfter m = e.contentsAfter m
  names : ∀ x ∈ es, ∀ file, x.1.file = some file → e.requestedName = some file.name
  reads : ∀ m, (∀ x ∈ es, Agrees m x) → e.Reads m

theorem requestedOperation_file {op : FsOperation} (h : requestedOperation client msg = some op)
    {file : FSFile} (hf : op.file = some file) : requestedName msg = some file.name := by
  unfold requestedOperation at h
  by_cases ht : msg.type = .reqOpenFile
  · rw [if_pos ht] at h
    obtain rfl := Option.some.inj h
    rw [requestedName, ht]
    rcases openOperation_cases client msg with ⟨lock, hop⟩ | hop | hop <;> rw [hop] at hf <;>
      exact congrArg (some ∘ FSFile.name) (Option.some.inj hf)
  · rw [if_neg ht] at h
    unfold fileOperation at h
    rw [requestedName]
    split at h
    case h_7 => cases h
    all_goals
      rename_i htype
      obtain rfl := Option.some.inj h
      rw [htype]
      exact congrArg (some ∘ FSFile.name) (Option.some.inj hf)

theorem Replies.explains {fs fs' : FileSystem} {reply : Reply} {es : List FsEvent} (rand : ℕ → ℕ)
    (h : Replies client msg fs reply fs' es) :
    Explains fs fs' (.request client msg rand (addOutFiles reply)) es := by
  cases h with
  | @refused response hs hf =>
    refine ⟨.start, Nat.zero_le 1, fun m => ?_, fun x hx => absurd hx List.not_mem_nil,
      fun m _ _ hok => ?_⟩
    · exact (if_neg hs).symm
    · exact absurd (.inl hok) hs
  | @asked response op out fs' hop hs hf hr =>
    refine ⟨Run.start.next hs, le_rfl, contentsAfter_asked rand hop hf hr,
      fun x hx file hfile => ?_, fun m hm ht hok => ?_⟩
    · obtain rfl := List.mem_singleton.mp hx
      exact requestedOperation_file hop hfile
    · -- the file system has found the file, or the status would be another one
      obtain rfl : FsOperation.obtain client (copyRequestIntoFile msg) = op := by
        rw [requestedOperation, if_neg (by rw [ht]; simp), fileOperation, ht] at hop
        exact Option.some.inj hop
      have h0 : out.res = 0 := (hr fun _ => by simp).mp ((stored_addOutFiles _).mp (.inl hok))
      obtain ⟨content, hm, hout⟩ := (hm _ List.mem_cons_self).2 h0
      refine ⟨content, hm, ?_⟩
      rw [hout]
      rfl
  | @closed response out fs' ht hs hf =>
    refine ⟨Run.start.next hs, le_rfl, fun m => ?_, fun _ hx file hfile => ?_, fun m _ ht' => ?_⟩
    · simp only [ServerEvent.contentsAfter, ht, ite_self]
      exact ite_self _
    · obtain rfl := List.mem_singleton.mp hx
      rw [ServerEvent.requestedName, requestedName, ht]
      exact congrArg (some ∘ FSFile.name) (Option.some.inj hfile)
    · rw [ht] at ht'
      cases ht'

/-- An event that runs nothing and says nothing about a file. -/
theorem explains_nothing {fs : FileSystem} {e : ServerEvent} (hc : ∀ m, e.contentsAfter m = m)
    (hr : ∀ m, e.Reads m) : Explains fs fs e [] :=
  ⟨.start, Nat.zero_le 1, fun m => (hc m).symm, fun _ hx => absurd hx List.not_mem_nil,
    fun m _ => hr m⟩

/-- An operation that is about no file in particular and changes no content. -/
theorem explains_one {fs fs' : FileSystem} {e : ServerEvent} {op : FsOperation} {out : FSOutcome}
    (hs : FileSystem.Step fs (op,out) fs') (hop : op.file = none)
    (hc : ∀ m, e.contentsAfter m = m) (hr : ∀ m, e.Reads m) : Explains fs fs' e [(op,out)] := by
  refine ⟨Run.start.next hs, le_rfl, fun m => ?_, fun x hx file hfile => ?_, fun m _ => hr m⟩
  · rw [hc]
    cases op with
    | obtainN | clean => exact ite_self m
    | insert | remove | obtain | modify | append | trylock | exist | unlock => cases hop
  · obtain rfl := List.mem_singleton.mp hx
    rw [hop] at hfile
    cases hfile

theorem closeSession_explained {e : ServerEvent}
    (h : (closeSession client).run ServerState.exec s = some (s', ()))
    (hc : ∀ m, e.contentsAfter m = m) (hr : ∀ m, e.Reads m) :
    ∃ es, Explains s.fs s'.fs e es := by
  unfold closeSession at h
  rw [run_sessionCall] at h
  dsimp only at h
  split_ifs at h
  · obtain ⟨t, out, -, hs, h⟩ := run_fsStep h
    rw [run_sessionCall] at h
    cases h
    exact ⟨_, explains_one hs rfl hc hr⟩
  · cases h
    exact ⟨[], explains_nothing hc hr⟩

/-- A request that asks for no operation on a file says nothing about its content. -/
theorem contentsAfter_request (client : Client) (ht : msg.type ≠ .reqOpenFile)
    (hno : fileOperation client msg = none) (rand : ℕ → ℕ) (response : SockMessage) :
    (∀ m, (ServerEvent.request client msg rand response).contentsAfter m = m) ∧
      ∀ m, (ServerEvent.request client msg rand response).Reads m := by
  unfold fileOperation at hno
  constructor
  · intro m
    unfold ServerEvent.contentsAfter
    dsimp only
    split
    · split
      next hopen => exact absurd hopen ht
      next hwrite => simp [hwrite] at hno
      next happend => simp [happend] at hno
      next hremove => simp [hremove] at hno
      next => rfl
    · rfl
  · intro m hread
    simp [hread] at hno

theorem handleWork_explained (hw : s.fs.WF) {rand : ℕ → ℕ}
    (h : (handleWork client msg rand).run ServerState.exec s = some (s', response)) :
    ∃ es, Explains s.fs s'.fs (.request client msg rand response) es := by
  unfold handleWork at h
  split at h
  next ht =>
    rw [run_sessionCall] at h
    cases h
    obtain ⟨hc, hr⟩ := contentsAfter_request client (by rw [ht]; simp)
      (by simp [fileOperation, ht]) rand _
    exact ⟨[], explains_nothing hc hr⟩
  next ht =>
    rw [Program.run_bind] at h
    obtain ⟨⟨t, ⟨⟩⟩, hclose, hr⟩ := Option.bind_eq_some_iff.mp h
    cases hr
    obtain ⟨hc, hr⟩ := contentsAfter_request client (by rw [ht]; simp)
      (by simp [fileOperation, ht]) rand _
    exact closeSession_explained hclose hc hr
  next ht =>
    rw [Program.run_bind] at h
    obtain ⟨⟨t, reply⟩, hc, hr⟩ := Option.bind_eq_some_iff.mp h
    cases hr
    obtain ⟨es, hes⟩ := openFile_replies hw ht rfl hc
    exact ⟨es, hes.explains rand⟩
  next ht =>
    rw [Program.run_bind] at h
    obtain ⟨⟨t, reply⟩, hc, hr⟩ := Option.bind_eq_some_iff.mp h
    cases hr
    obtain ⟨es, hes⟩ := closeFile_replies ht rfl hc
    exact ⟨es, hes.explains rand⟩
  next ht =>
    obtain ⟨t, out, hts, hs, h⟩ := run_fsStep h
    cases h
    obtain ⟨hc, hr⟩ := contentsAfter_request client (by rw [ht]; simp)
      (by simp [fileOperation, ht]) rand _
    exact ⟨_, explains_one hs rfl hc hr⟩
  next hopen _ _ =>
    split at h
    next op hop =>
      rw [Program.run_bind] at h
      obtain ⟨⟨t, reply⟩, hc, hr⟩ := Option.bind_eq_some_iff.mp h
      cases hr
      obtain ⟨es, hes⟩ := fileRequest_replies hw hop hopen rfl hc
      exact ⟨es, hes.explains rand⟩
    next hop =>
      obtain ⟨rfl, -⟩ := Prod.mk.inj (Option.some.inj h)
      obtain ⟨hc, hr⟩ := contentsAfter_request client hopen hop rand response
      exact ⟨[], explains_nothing hc hr⟩

theorem ServerState.Step.explained {e : ServerEvent} (hw : s.fs.WF) (hs : s.Step e s') :
    ∃ es, Explains s.fs s'.fs e es := by
  cases e with
  | request client msg rand response => exact handleWork_explained hw hs
  | endOfFile client => exact closeSession_explained hs (fun _ => rfl) fun _ => trivial
  | lost client =>
    cases hs
    exact ⟨[], explains_nothing (fun _ => rfl) fun _ => trivial⟩
  | delivery n =>
    rw [hs.2]
    exact ⟨[], explains_nothing (fun _ => rfl) fun _ => trivial⟩

end Programs

/-! ### Runs -/

theorem FileSystem.step_of_run {fs fs' : FileSystem} {x : FsEvent} (h : Run Step fs [x] fs') :
    Step fs x fs' := by
  obtain ⟨fs₁, h₁, hs⟩ := Run.last (show Run Step fs ([] ++ [x]) fs' from h)
  generalize hnil : ([] : List FsEvent) = tr at h₁
  cases h₁ with
  | start => exact hs
  | next => simp at hnil

/-- The names have different keys. -/
def Separate (tableSize : ℕ) (names : Set (List UInt8)) : Prop :=
  ∀ a ∈ names, ∀ b ∈ names,
    tableKey tableSize (hashString a) = tableKey tableSize (hashString b) → a = b

/-- A place in a list that has become longer. -/
theorem eq_append_singleton {α : Type} {l before after : List α} {x e : α}
    (h : l ++ [x] = before ++ e :: after) :
    l = before ∧ x = e ∨ ∃ after', l = before ++ e :: after' := by
  rcases List.eq_nil_or_concat after with rfl | ⟨after', y, rfl⟩
  · obtain ⟨rfl, hx⟩ := List.append_inj' h rfl
    exact .inl ⟨rfl, List.singleton_inj.mp hx⟩
  · rw [List.concat_eq_append, ← List.cons_append, ← List.append_assoc] at h
    exact .inr ⟨after', (List.append_inj' h rfl).1⟩

namespace ServerState
variable {configs : FSConfig} {tr : List ServerEvent} {s : ServerState} {names : Set (List UInt8)}

/-- The operations that the file system runs for a run of the server. -/
theorem run_explained (hn : Separate configs.tableSize names)
    (h : Run Step (start configs) tr s)
    (hin : ∀ e ∈ tr, ∀ name, e.requestedName = some name → name ∈ names) :
    (∃ ftr, Run (Guarded (FileSystem.NamesIn names) FileSystem.Step)
      (.initializeFileSystem configs) ftr s.fs ∧ history ftr = contentsOf tr) ∧
    ∀ before e after, tr = before ++ e :: after → e.Reads (contentsOf before) := by
  induction h with
  | start => exact ⟨⟨[], .start, rfl⟩, fun before e after h => by simp at h⟩
  | @next tr s₁ e s₂ _ last ih =>
    obtain ⟨⟨ftr, hr, hc⟩, hreads⟩ := ih fun e he => hin e (List.mem_append_left _ he)
    obtain ⟨hv, hN, -, hmap⟩ := FileSystem.run_map hn hr
    obtain ⟨es, hes⟩ := last.explained hv.wf
    have hname : ∀ x ∈ es, ∀ fs, FileSystem.NamesIn names fs x := fun x hx fs file hf =>
      hin e (List.mem_append_right _ List.mem_cons_self) file.name (hes.names x hx file hf)
    refine ⟨⟨ftr ++ es, hr.trans (hes.run.guarded hname), ?_⟩, fun before e' after hsplit => ?_⟩
    · rw [history, List.foldl_append]
      change es.foldl Server.contentsAfter (history ftr) = _
      rw [hc, hes.contents, contentsOf, contentsOf, List.foldl_append]
      rfl
    · rcases eq_append_singleton hsplit with ⟨rfl, rfl⟩ | ⟨after', htr⟩
      · refine hes.reads _ fun x hx => ?_
        obtain ⟨y, rfl⟩ := List.length_eq_one_iff.mp
          (Nat.le_antisymm hes.length_le (List.length_pos_of_mem hx))
        obtain rfl := List.mem_singleton.mp hx
        have hstep := FileSystem.step_of_run hes.run
        have hm := ((hstep.effect hv.wf).mapStep hv.sound hN (hname x hx s₁.fs)).2
        rw [← hc, ← hmap]
        exact hm.agrees
      · exact hreads before e' after' htr

end ServerState

/-! ### Side by side -/

/-- The name of the file that a client asks for. -/
def Observation.requestedName : Observation → Option (List UInt8)
  | asked _ msg => Server.requestedName msg
  | left _ | answered .. | notified _ => none

namespace AtomicServer
variable {configs : FSConfig} {tr : List AtomicEvent} {s : AtomicServer}

/-- A request is served after it has been asked. -/
theorem served_asked (h : Run Step (start configs) tr s) :
    (∀ client msg rand, s.phase client = .begun (.request msg rand) →
      Observation.asked client msg ∈ tr.filterMap AtomicEvent.observation) ∧
    ∀ e ∈ tr.filterMap AtomicEvent.served, ∀ name, e.requestedName = some name →
      ∃ o ∈ tr.filterMap AtomicEvent.observation, o.requestedName = some name := by
  induction h with
  | start =>
    refine ⟨fun client msg rand hphase => ?_, fun e he => absurd he List.not_mem_nil⟩
    cases hphase
  | @next tr s₁ e s₂ _ last ih =>
    obtain ⟨hbegun, hserved⟩ := ih
    simp only [List.filterMap_append, List.mem_append]
    -- what has been asked stays asked
    have hkept : ∀ (c : Client) v, (∀ msg rand, v = .begun (.request msg rand) →
          Observation.asked c msg ∈ [e].filterMap AtomicEvent.observation) →
        ∀ client msg rand, Function.update s₁.phase c v client = .begun (.request msg rand) →
          Observation.asked client msg ∈ tr.filterMap AtomicEvent.observation ∨
            Observation.asked client msg ∈ [e].filterMap AtomicEvent.observation := by
      intro c v hv client msg rand hphase
      by_cases hc : client = c
      · subst hc
        rw [Function.update_self] at hphase
        exact .inr (hv msg rand hphase)
      · rw [Function.update_of_ne hc] at hphase
        exact .inl (hbegun client msg rand hphase)
    have hold : ∀ e' ∈ tr.filterMap AtomicEvent.served, ∀ name, e'.requestedName = some name →
        ∃ o, (o ∈ tr.filterMap AtomicEvent.observation ∨
          o ∈ [e].filterMap AtomicEvent.observation) ∧ o.requestedName = some name := by
      intro e' he' name hname
      obtain ⟨o, ho, hon⟩ := hserved e' he' name hname
      exact ⟨o, .inl ho, hon⟩
    cases last with
    | @begins client work h =>
      refine ⟨hkept client _ fun msg rand hwork => ?_, ?_⟩
      · obtain rfl := Library.Atomicity.Phase.begun.inj hwork
        exact List.mem_singleton.mpr rfl
      · rintro e' (he' | he')
        · exact hold e' he'
        · cases he'
    | @serves client work e ending server h hw hs =>
      refine ⟨hkept client _ fun msg rand hwork => (by cases hwork), ?_⟩
      rintro e' (he' | he') name hname
      · exact hold e' he' name hname
      · obtain rfl := List.mem_singleton.mp he'
        cases hw with
        | answered | postponed => exact ⟨_, .inl (hbegun _ _ _ h), hname⟩
        | ended | lost => cases hname
    | delivers hs =>
      refine ⟨fun client msg rand hphase => .inl (hbegun client msg rand hphase), ?_⟩
      rintro e' (he' | he') name hname
      · exact hold e' he' name hname
      · obtain rfl := List.mem_singleton.mp he'
        cases hname
    | @ends client ending h =>
      refine ⟨hkept client _ fun msg rand hwork => (by cases hwork), ?_⟩
      rintro e' (he' | he')
      · exact hold e' he'
      · cases he'

end AtomicServer

namespace Threads
variable {configs : FSConfig} {pipeFd : ℤ} {numWorkers : ℕ} {tr : List ThreadEvent} {σ : Threads}
  {history : List Observation}

/-- However the workers interleave, there is an order of the requests, compatible with what the
clients have seen, in which their responses say what is stored, and in which every file that has
been read is the one that the requests before it have left. -/
theorem concurrent_reads
    (h : Run (Recorded observe DocumentedStep) (initializeServer configs pipeFd numWorkers, []) tr
      (σ,history))
    (hn : Separate configs.tableSize {name | ∃ o ∈ history, o.requestedName = some name}) :
    ∃ tr' s, Run AtomicServer.Step (.start configs) tr' s ∧
      tr'.filterMap AtomicEvent.observation = history ∧
      σ.fs.view.toMap.contents = contentsOf (tr'.filterMap AtomicEvent.served) ∧
      ∀ before e after, tr'.filterMap AtomicEvent.served = before ++ e :: after →
        e.Reads (contentsOf before) := by
  obtain ⟨tr', t, hr, hobs, hfollows⟩ := exists_atomic_run h
  have hasked := (AtomicServer.served_asked hr).2
  rw [hobs] at hasked
  obtain ⟨⟨ftr, hfs, hc⟩, hreads⟩ :=
    ServerState.run_explained hn (AtomicServer.run_served hr) hasked
  refine ⟨tr', .ofSystem t, hr, hobs, ?_, hreads⟩
  have hfs' : (AtomicServer.ofSystem t).server.fs = σ.fs := congrArg Prod.fst hfollows.common
  rw [← hc, ← hfs']
  exact (FileSystem.run_map hn hfs).2.2.2

/-- A request to write two bytes to the end of the file `a`. -/
def appendToA : SockMessage :=
  { ServerState.requestA .reqAppendToFile 0 with request := ⟨0, ⟨some [97], some [1,2]⟩⟩ }

/-- A request to create the file `b`. -/
def createB : SockMessage :=
  { ServerState.requestA .reqOpenFile flagCreate with
    request := ⟨flagCreate, ⟨some [98], none⟩⟩ }

/-- Client 2 opens a session, creates `a`, writes to it, creates `b` and reads `a`. -/
theorem run_readFile : ∃ tr σ history response,
    Run (Recorded observe DocumentedStep) (initializeServer FileSystem.defaultConfigs 1 1, []) tr
      (σ, history ++ [.asked 2 (ServerState.requestA .reqReadFile 0), .answered 2 response]) ∧
    (∀ o ∈ history, o.requestedName ∈ [none, some [97], some [98]]) ∧
    .asked 2 createB ∈ history ∧ response.response.status = .ok ∧
    response.response.files = [⟨some [97], some [1,2]⟩] := by
  obtain ⟨tr, queue, h, hq⟩ := run_connected
  have hsession : ThreadEvent.Documented
      ⟨.worker 0, .request 2 (ServerState.requestA .reqOpenSession 0)⟩ := fun ht => by cases ht
  obtain ⟨tr, queue, h, hq⟩ :=
    run_served h hq hsession (by decide +kernel) (by decide +kernel) (by decide +kernel)
  have hopen : ThreadEvent.Documented ⟨.worker 0, .request 2
      (ServerState.requestA .reqOpenFile (flagCreate ||| flagLock))⟩ := fun _ => by decide
  obtain ⟨tr, queue, h, hq⟩ :=
    run_served h hq hopen (by decide +kernel) (by decide +kernel) (by decide +kernel)
  have happend : ThreadEvent.Documented ⟨.worker 0, .request 2 appendToA⟩ := fun ht => by cases ht
  obtain ⟨tr, queue, h, hq⟩ :=
    run_served h hq happend (by decide +kernel) (by decide +kernel) (by decide +kernel)
  have hcreate : ThreadEvent.Documented ⟨.worker 0, .request 2 createB⟩ := fun _ => by decide
  obtain ⟨tr, queue, h, hq⟩ :=
    run_served h hq hcreate (by decide +kernel) (by decide +kernel) (by decide +kernel)
  have hread : ThreadEvent.Documented
      ⟨.worker 0, .request 2 (ServerState.requestA .reqReadFile 0)⟩ := fun ht => by cases ht
  obtain ⟨tr, queue, h, -⟩ :=
    run_served h hq hread (by decide +kernel) (by decide +kernel) (by decide +kernel)
  refine ⟨tr, _, _, _, h, ?_, by simp, by decide +kernel, by decide +kernel⟩
  intro o ho
  simp only [List.nil_append, List.cons_append, List.mem_cons, List.not_mem_nil, or_false] at ho
  rcases ho with rfl | rfl | rfl | rfl | rfl | rfl | rfl | rfl
  all_goals decide

theorem concurrent_reads_readFile : ∃ history response tr s,
    (.asked 2 createB ∈ history) ∧ response.response.files = [⟨some [97], some [1,2]⟩] ∧
    Run AtomicServer.Step (.start FileSystem.defaultConfigs) tr s ∧
    tr.filterMap AtomicEvent.observation =
      history ++ [.asked 2 (ServerState.requestA .reqReadFile 0), .answered 2 response] ∧
    ∀ before e after, tr.filterMap AtomicEvent.served = before ++ e :: after →
      e.Reads (contentsOf before) := by
  obtain ⟨tr, σ, history, response, h, hnames, hb, -, hfiles⟩ := run_readFile
  have hname : ∀ name, (∃ o ∈ history ++ [.asked 2 (ServerState.requestA .reqReadFile 0),
      .answered 2 response], o.requestedName = some name) → name ∈ [[97], [98]] := by
    rintro name ⟨o, ho, hname⟩
    rcases List.mem_append.mp ho with ho | ho
    · have hmem := hnames o ho
      rw [hname] at hmem
      simpa using hmem
    · simp only [List.mem_cons, List.not_mem_nil, or_false] at ho
      rcases ho with rfl | rfl
      · obtain rfl := Option.some.inj hname
        decide
      · cases hname
  have hkeys : ∀ a ∈ [[97], [98]], ∀ b ∈ [[97], [98]],
      tableKey FileSystem.defaultConfigs.tableSize (hashString a) =
        tableKey FileSystem.defaultConfigs.tableSize (hashString b) → a = b := by
    decide +kernel
  obtain ⟨tr', s, hr, hobs, -, hreads⟩ :=
    concurrent_reads h fun a ha b hb => hkeys a (hname a ha) b (hname b hb)
  exact ⟨history, response, tr', s, hb, hfiles, hr, hobs, hreads⟩

end Threads
end StorageServer.Server
