import StorageServer.Server.Ownership
import StorageServer.Server.SessionSteps

/-! Writing into a file. The session keeps the flags with which a file was opened and not what has
been done with it since, so that a client may still write after it has used the file otherwise. -/
namespace StorageServer.Server
open Common Library.Calls Library.Runs

/-! ### The requests that were answered -/

/-- The requests that name a file. -/
def fileTypes : List SockMessageType :=
  [.reqOpenFile, .reqCloseFile, .reqReadFile, .reqLockFile, .reqUnlockFile, .reqRemoveFile,
    .reqWriteFile, .reqAppendToFile]

/-- The requests that use a file that stays open. -/
def usingTypes : List SockMessageType :=
  [.reqReadFile, .reqLockFile, .reqUnlockFile, .reqWriteFile, .reqAppendToFile]

/-- For each name the last request of the current session that named it and succeeded, and the
request that waits for its answer. -/
structure Answers where
  last : SessionFile → Option SockMessage
  pending : Option SockMessage

namespace Answers

def none : Answers := ⟨fun _ => .none, .none⟩

/-- A request is answered with success. -/
def answer (a : Answers) (msg : SockMessage) : Answers :=
  if msg.type = .reqOpenSession ∨ msg.type = .reqCloseSession then { a with last := fun _ => .none }
  else if msg.type ∈ fileTypes then
    { a with last := Function.update a.last (sessionFile msg) (some msg) }
  else a

/-- The lock thread answers the request that waits. -/
def deliver (a : Answers) (status : ℤ) : Answers :=
  match a.pending with
  | .none => a
  | some msg => if status = 0 then { a.answer msg with pending := .none }
    else { a with pending := .none }

end Answers

/-- What the clients have been answered. -/
def recordAnswers (a : Client → Answers) (_ : ServerState) : ServerEvent → Client → Answers
  | .request client msg _ response =>
    if LockPostponed msg response then
      Function.update a client { a client with pending := some msg }
    else if response.response.status = .ok then
      Function.update a client ((a client).answer msg)
    else a
  | .endOfFile client => Function.update a client .none
  | .lost client => Function.update a client { a client with pending := none }
  | .delivery n => fun client => if client = n.fd then (a client).deliver n.status else a client

/-- A client whose request waits for its answer sends nothing: the server does not read from it. -/
def Quiet (σ : ServerState × (Client → Answers)) : ServerEvent → Prop
  | .request client .. => (σ.2 client).pending = none
  | _ => True

/-- The last successful request about the file of `msg` has opened it with exactly the flags to
create and to lock it. -/
def JustCreated (a : Answers) (msg : SockMessage) : Prop :=
  ∃ m, a.last (sessionFile msg) = some m ∧ m.type = .reqOpenFile ∧
    m.request.flags = flagCreate ||| flagLock

/-- Since it was opened the file has not been used, and no other name with its hash has been
served in this session. -/
structure Untouched (a : Answers) (msg : SockMessage) : Prop where
  unused : ∀ m, a.last (sessionFile msg) = some m → m.type ∉ usingTypes
  alone : ∀ name, hashString name = hashString (sessionFile msg) → a.last name ≠ none →
    name = sessionFile msg

/-! ### What the session knows about the answers -/

/-- Every file that a session lists was opened with the flags it keeps or has been used since. -/
structure Traced (session : ClientSession) (a : Answers) : Prop where
  nodup : session.filenames.Nodup
  opened : session.isValid = true → ∀ o ∈ session.opened, ∃ name m,
    hashString name = o.filename ∧ a.last name = some m ∧
      (m.type = .reqOpenFile ∧ m.request.flags = o.flags ∨ m.type ∈ usingTypes)
  pending : ∀ m, a.pending = some m → m.type = .reqLockFile ∨
    m.type = .reqOpenFile ∧ hashString (sessionFile m) ∉ session.filenames

section Traced
variable {session : ClientSession} {a : Answers} {msg : SockMessage}

theorem traced_blank (valid : Bool) (a : Answers) (ha : a.pending = none) :
    Traced (.blank valid) a where
  nodup := List.nodup_nil
  opened _ o ho := absurd ho List.not_mem_nil
  pending m hm := by simp [ha] at hm

theorem answer_pending (a : Answers) (msg : SockMessage) :
    (a.answer msg).pending = a.pending := by
  unfold Answers.answer
  split_ifs <;> rfl

/-- What is answered about a name, for the requests that name a file. -/
theorem answer_last (ht : msg.type ∈ fileTypes) (a : Answers) :
    (a.answer msg).last = Function.update a.last (sessionFile msg) (some msg) := by
  have hs : ¬ (msg.type = .reqOpenSession ∨ msg.type = .reqCloseSession) := by
    rintro (h | h) <;> simp [h, fileTypes] at ht
  rw [Answers.answer, if_neg hs, if_pos ht]

/-- A request that uses a file is traced whatever the session is. -/
theorem Traced.used (h : Traced session a) (ht : msg.type ∈ usingTypes) :
    Traced session (a.answer msg) := by
  have hf : msg.type ∈ fileTypes := by
    simp only [usingTypes, fileTypes, List.mem_cons, List.not_mem_nil, or_false] at ht ⊢
    tauto
  refine ⟨h.nodup, fun hv o ho => ?_, fun m hm => h.pending m (answer_pending a msg ▸ hm)⟩
  obtain ⟨name, m, hname, hm, hmt⟩ := h.opened hv o ho
  rw [answer_last hf]
  by_cases hn : name = sessionFile msg
  · exact ⟨name, msg, hname, by rw [hn, Function.update_self], Or.inr ht⟩
  · exact ⟨name, m, hname, by rw [Function.update_of_ne hn, hm], hmt⟩

/-- A request about a file that the session does not list leaves the listed ones traced. -/
theorem Traced.unlisted (h : Traced session a) (ht : msg.type ∈ fileTypes)
    (hn : hashString (sessionFile msg) ∉ session.filenames) : Traced session (a.answer msg) := by
  refine ⟨h.nodup, fun hv o ho => ?_, fun m hm => h.pending m (answer_pending a msg ▸ hm)⟩
  obtain ⟨name, m, hname, hm, hmt⟩ := h.opened hv o ho
  have hne : name ≠ sessionFile msg := by
    rintro rfl
    exact hn (hname ▸ List.mem_map_of_mem ho)
  exact ⟨name, m, hname, by rw [answer_last ht, Function.update_of_ne hne, hm], hmt⟩

/-- A session that lists fewer files is traced as well. -/
theorem Traced.sublist (h : Traced session a) {session' : ClientSession}
    (hs : session'.opened.Sublist session.opened) (hv : session'.isValid = session.isValid) :
    Traced session' a := by
  have hf : session'.filenames.Sublist session.filenames := hs.map _
  refine ⟨h.nodup.sublist hf, fun hv' o ho => h.opened (hv ▸ hv') o (hs.subset ho), fun m hm => ?_⟩
  exact (h.pending m hm).imp_right fun ⟨ht, hn⟩ => ⟨ht, fun hm => hn (hf.subset hm)⟩

/-- The answer to a request that waited has been delivered. -/
theorem Traced.settle (h : Traced session a) : Traced session { a with pending := none } :=
  ⟨h.nodup, h.opened, fun m hm => by cases hm⟩

theorem Traced.deliver (h : Traced session a) (status : ℤ) :
    Traced session (a.deliver status) := by
  unfold Answers.deliver
  split
  next => exact h
  next m hm =>
    split_ifs
    · rcases h.pending m hm with ht | ⟨ht, hn⟩
      · exact (h.used (by simp [ht, usingTypes])).settle
      · exact (h.unlisted (by simp [ht, fileTypes]) hn).settle
    · exact h.settle

/-- A file that is opened is listed with its flags. -/
theorem Traced.added (h : Traced session a) (ht : msg.type = .reqOpenFile)
    (hv : session.isValid = true) (hn : hashString (sessionFile msg) ∉ session.filenames)
    (hf : session.numFileOpened < maxClientOpenedFiles) (hq : a.pending = none) :
    Traced (session.addFileOpened (sessionFile msg) msg.request.flags).1 (a.answer msg) := by
  have hfile : msg.type ∈ fileTypes := by simp [ht, fileTypes]
  have hopened := ClientSession.addFileOpened_opened msg.request.flags hv hn hf
  refine ⟨?_, fun _ o ho => ?_, fun m hm => ?_⟩
  · rw [(ClientSession.addFileOpened_room _ hv hn hf).2.2]
    exact h.nodup.append (List.nodup_singleton _) (List.disjoint_singleton.mpr hn)
  · rw [hopened] at ho
    rcases List.mem_append.mp ho with ho | ho
    · exact (h.unlisted hfile hn).opened hv o ho
    · obtain rfl := List.mem_singleton.mp ho
      refine ⟨sessionFile msg, msg, rfl, ?_, Or.inl ⟨ht, rfl⟩⟩
      rw [answer_last hfile, Function.update_self]
  · rw [answer_pending, hq] at hm
    cases hm

/-- A file that is closed or removed is not listed any more. -/
theorem Traced.removed (h : Traced session a)
    (hl : session.Lists (hashString (sessionFile msg))) :
    Traced (session.remFileOpened (sessionFile msg)).1 a ∧
      hashString (sessionFile msg) ∉
        (session.remFileOpened (sessionFile msg)).1.filenames := by
  obtain ⟨-, hv, hf⟩ := ClientSession.remFileOpened_listed hl
  refine ⟨h.sublist ?_ (hv.trans hl.1.symm), ?_⟩
  · rw [ClientSession.remFileOpened_opened hl]
    exact List.eraseP_sublist
  · rw [hf]
    exact h.nodup.not_mem_erase

/-- What is answered to a request is traced in the session that the request leaves. -/
theorem Traced.change {t t' : SessionTable} {client : Client} {response : SockMessage}
    (h : Traced (t client) a) (hq : a.pending = none)
    (hc : SessionChange t client msg response t') :
    Traced (t' client) (if LockPostponed msg response then { a with pending := some msg }
      else if response.response.status = .ok then a.answer msg else a) := by
  have hsent : response.type ≠ .none → ¬ LockPostponed msg response := fun hr hp => hr hp.2
  have hans : (a.answer msg).pending = none := (answer_pending a msg).trans hq
  cases hc with
  | kept ht =>
    split_ifs with hp hok
    · have hlock : msg.type = .reqLockFile := by
        refine hp.1.resolve_right fun ho => ht ?_
        simp [ho.1, sessionTypes]
      exact ⟨h.nodup, h.opened, fun m hm => Or.inl (Option.some.inj hm ▸ hlock)⟩
    · by_cases hu : msg.type ∈ usingTypes
      · exact h.used hu
      · have hsame : a.answer msg = a := by
          unfold Answers.answer
          rw [if_neg, if_neg]
          · intro hf
            simp only [fileTypes, usingTypes, sessionTypes, List.mem_cons, List.not_mem_nil,
              or_false] at hf hu ht
            tauto
          · rintro (hs | hs) <;> exact ht (by simp [hs, sessionTypes])
        rwa [hsame]
    · exact h
  | refused hs hr =>
    rw [if_neg (hsent hr), if_neg hs]
    exact h
  | idle ht hv hr =>
    rw [if_neg (hsent hr)]
    split_ifs
    · refine ⟨h.nodup, fun hv' => by simp [hv] at hv', fun m hm => ?_⟩
      rw [hans] at hm
      cases hm
    · exact h
  | queued ht hn =>
    split_ifs
    · exact ⟨h.nodup, h.opened, fun m hm => Or.inr (Option.some.inj hm ▸ ⟨ht, hn⟩)⟩
    · exact h.unlisted (by simp [ht, fileTypes]) hn
    · exact h
  | opened ht hv hn hroom hs hr =>
    rw [if_neg (hsent hr), if_pos hs, Function.update_self]
    exact h.added ht hv hn hroom hq
  | closed ht hl hr =>
    rw [if_neg (hsent hr), Function.update_self]
    obtain ⟨hrem, hn⟩ := h.removed hl
    split_ifs
    · refine hrem.unlisted ?_ hn
      rcases ht with ht | ht <;> simp [ht, fileTypes]
    · exact hrem
  | reset ht valid hr =>
    rw [if_neg (hsent hr), Function.update_self]
    split_ifs
    · exact traced_blank valid _ hans
    · exact traced_blank valid a hq

end Traced

/-! ### When a client may write -/

section Programs
variable {s s' : ServerState} {client : Client} {msg response : SockMessage}

/-- A successful write has passed the check. -/
theorem write_allowed {rand : ℕ → ℕ} (ht : msg.type = .reqWriteFile)
    (h : (handleWork client msg rand).run ServerState.exec s = some (s', response))
    (hok : response.response.status = .ok) :
    (s.gSessionTable client).MayWrite (sessionFile msg) := by
  unfold handleWork at h
  simp only [ht, fileOperation] at h
  rw [Program.run_bind] at h
  obtain ⟨⟨t, reply⟩, hc, hr⟩ := Option.bind_eq_some_iff.mp h
  cases hr
  rw [addOutFiles_status] at hok
  unfold fileRequest at hc
  rw [run_getSession] at hc
  by_cases hv : (s.gSessionTable client).isValid = true
  · simp only [hv, if_true, ne_eq, not_true_eq_false, if_false] at hc
    rcases run_checkOpened_cases hc with ⟨r, hmem, hc⟩ | ⟨hm, -, -⟩
    · cases hc
      exact absurd hok (handleError_ne_ok hmem _)
    · exact hm ht
  · simp only [hv] at hc
    cases hc
    exact absurd hok (handleError_ne_ok (by simp [errors]) _)

end Programs
namespace ServerState
variable {configs : FSConfig} {σ σ' : ServerState × (Client → Answers)} {e : ServerEvent}

/-- A step of the server together with what its clients have been answered. -/
abbrev AnswerStep : ServerState × (Client → Answers) → ServerEvent →
    ServerState × (Client → Answers) → Prop := Recorded recordAnswers Step

def startAnswers (configs : FSConfig) : ServerState × (Client → Answers) :=
  (start configs, fun _ => Answers.none)

/-- A write is asked for only on an untouched file. -/
def Careful (σ : ServerState × (Client → Answers)) : ServerEvent → Prop
  | .request client msg .. => msg.type = .reqWriteFile → Untouched (σ.2 client) msg
  | _ => True

/-- The sessions of all clients are traced. -/
structure AllTraced (σ : ServerState × (Client → Answers)) : Prop where
  valid : σ.1.fs.Valid
  traced : ∀ client, Traced (σ.1.gSessionTable client) (σ.2 client)

theorem AllTraced.step (h : AllTraced σ) (hq : Quiet σ e) (hs : AnswerStep σ e σ') :
    AllTraced σ' := by
  obtain ⟨s, a⟩ := σ
  obtain ⟨s', a'⟩ := σ'
  obtain ⟨hstep, rfl⟩ := hs
  change s.Step e s' at hstep
  refine ⟨hstep.valid h.valid, fun c => ?_⟩
  have hc := h.traced c
  cases e with
  | request client msg rand response =>
    have hchange := handleWork_change h.valid.wf hstep
    change Traced (s'.gSessionTable c) ((if LockPostponed msg response then _
      else if response.response.status = .ok then _ else a : Client → Answers) c)
    by_cases hne : c = client
    · subst hne
      have hnew := hc.change hq hchange
      split_ifs at hnew ⊢
      · rwa [Function.update_self]
      · rwa [Function.update_self]
      · exact hnew
    · rw [hchange.of_ne hne]
      split_ifs
      · rwa [Function.update_of_ne hne]
      · rwa [Function.update_of_ne hne]
      · exact hc
  | endOfFile client =>
    change Traced (s'.gSessionTable c) (Function.update a client Answers.none c)
    rcases run_closeSession h.valid.wf hstep with ⟨rfl, hv⟩ | ⟨hv, ht, -⟩
    · by_cases hne : c = client
      · subst hne
        rw [Function.update_self]
        exact ⟨hc.nodup, fun hv' => absurd (hv.symm.trans hv') (by decide), fun m hm => by cases hm⟩
      · rwa [Function.update_of_ne hne]
    · rw [ht]
      by_cases hne : c = client
      · subst hne
        rw [Function.update_self, Function.update_self]
        exact traced_blank false _ rfl
      · rwa [Function.update_of_ne hne, Function.update_of_ne hne]
  | lost client =>
    obtain rfl : s' = s := hstep
    change Traced (s'.gSessionTable c)
      (Function.update a client { a client with pending := none } c)
    by_cases hne : c = client
    · subst hne
      rw [Function.update_self]
      exact hc.settle
    · rwa [Function.update_of_ne hne]
  | delivery n =>
    have ht : s'.gSessionTable = s.gSessionTable := by rw [hstep.2]
    change Traced (s'.gSessionTable c) (if (c : ℤ) = n.fd then (a c).deliver n.status else a c)
    rw [ht]
    split_ifs
    · exact hc.deliver n.status
    · exact hc

theorem allTraced_of_run {tr : List ServerEvent}
    (h : Run (Guarded Quiet AnswerStep) (startAnswers configs) tr σ) : AllTraced σ := by
  refine h.invariant (I := AllTraced) ⟨FileSystem.Valid.start configs, fun c => ?_⟩ ?_
  · exact traced_blank false _ rfl
  · exact fun hi hs => hi.step hs.1 hs.2

/-- In every run in which clients write only into files that they have not used since they opened
them, a successful write is the first request after the creation of its file. -/
theorem write_after_creation {tr : List ServerEvent} {client : Client} {msg response : SockMessage}
    {rand : ℕ → ℕ}
    (h : Run (Guarded (fun σ e => Quiet σ e ∧ Careful σ e) AnswerStep) (startAnswers configs) tr σ)
    (hs : Guarded (fun σ e => Quiet σ e ∧ Careful σ e) AnswerStep σ
      (.request client msg rand response) σ')
    (ht : msg.type = .reqWriteFile) (hok : response.response.status = .ok) :
    JustCreated (σ.2 client) msg := by
  have hall := allTraced_of_run (h.mono fun hg => ⟨hg.1.1, hg.2⟩)
  obtain ⟨⟨-, hcareful⟩, hstep, -⟩ := hs
  obtain ⟨hunused, halone⟩ := hcareful ht
  obtain ⟨hv, o, ho, hname, hflags⟩ := write_allowed ht hstep hok
  obtain ⟨name, m, hhash, hm, hmt⟩ := (hall.traced client).opened hv o ho
  have hsame : name = sessionFile msg :=
    halone name (hhash.trans hname) (by rw [hm]; simp)
  subst hsame
  rcases hmt with ⟨hopen, hmf⟩ | hused
  · exact ⟨m, hm, hopen, hmf.trans hflags⟩
  · exact absurd hused (hunused m hm)

/-! ### A file that is read before it is written -/

/-- The server and the answers after a request that does not crash. -/
def answerAfter (σ : ServerState × (Client → Answers)) (client : Client) (msg : SockMessage) :
    ServerState × (Client → Answers) :=
  (σ.1.after client msg, recordAnswers σ.2 σ.1
    (.request client msg (fun _ => 0) (σ.1.responseTo client msg)))

theorem step_answerAfter (σ : ServerState × (Client → Answers)) (client : Client)
    (msg : SockMessage) (h : ((handleWork client msg (fun _ => 0)).run exec σ.1).isSome) :
    AnswerStep σ (.request client msg (fun _ => 0) (σ.1.responseTo client msg))
      (answerAfter σ client msg) :=
  ⟨step_after σ.1 client msg h, rfl⟩

theorem answerAfter_ok {client : Client} {msg : SockMessage}
    (hp : ¬ LockPostponed msg (σ.1.responseTo client msg))
    (hok : (σ.1.responseTo client msg).response.status = .ok) :
    (answerAfter σ client msg).2 client = (σ.2 client).answer msg := by
  change (if LockPostponed _ _ then _ else if _ = RespStatus.ok then _ else _ :
    Client → Answers) client = _
  rw [if_neg hp, if_pos hok, Function.update_self]

/-- A run goes on with a request that is no write. -/
theorem next_answerAfter {tr : List ServerEvent}
    (h : Run (Guarded (fun σ e => Quiet σ e ∧ Careful σ e) AnswerStep) (startAnswers configs) tr σ)
    (client : Client) (msg : SockMessage) (hq : (σ.2 client).pending = none)
    (ht : msg.type ≠ .reqWriteFile)
    (hr : ((handleWork client msg (fun _ => 0)).run exec σ.1).isSome) :
    Run (Guarded (fun σ e => Quiet σ e ∧ Careful σ e) AnswerStep) (startAnswers configs)
      (tr ++ [.request client msg (fun _ => 0) (σ.1.responseTo client msg)])
      (answerAfter σ client msg) :=
  h.next ⟨⟨hq, fun hw => absurd hw ht⟩, step_answerAfter σ client msg hr⟩

/-- Client 4 has a session. -/
def answeredSession : ServerState × (Client → Answers) :=
  answerAfter (startAnswers FileSystem.defaultConfigs) 4 (requestA .reqOpenSession 0)

/-- Client 4 has created and locked the file `a`. -/
def answeredFile : ServerState × (Client → Answers) :=
  answerAfter answeredSession 4 (requestA .reqOpenFile (flagCreate ||| flagLock))

theorem run_answeredFile :
    ∃ tr, Run (Guarded (fun σ e => Quiet σ e ∧ Careful σ e) AnswerStep)
      (startAnswers FileSystem.defaultConfigs) tr answeredFile := by
  have h1 := next_answerAfter Run.start 4 (requestA .reqOpenSession 0) rfl (by decide)
    (by decide +kernel : ((handleWork 4 (requestA .reqOpenSession 0) (fun _ => 0)).run exec
      (startAnswers FileSystem.defaultConfigs).1).isSome)
  have h2 := next_answerAfter h1 4 (requestA .reqOpenFile (flagCreate ||| flagLock))
    (by decide +kernel) (by decide) (by decide +kernel)
  exact ⟨_, h2⟩

theorem write_after_creation_file :
    JustCreated (answeredFile.2 4) (requestA .reqWriteFile 0) := by
  obtain ⟨tr, h⟩ := run_answeredFile
  have hlast : (answeredFile.2 4).last = Function.update (fun _ => none) [97]
      (some (requestA .reqOpenFile (flagCreate ||| flagLock))) := by
    have hsession : answeredSession.2 4 = Answers.none.answer (requestA .reqOpenSession 0) :=
      answerAfter_ok (by decide +kernel) (by decide +kernel)
    have hopen : answeredFile.2 4 =
        (answeredSession.2 4).answer (requestA .reqOpenFile (flagCreate ||| flagLock)) :=
      answerAfter_ok (by decide +kernel) (by decide +kernel)
    rw [hopen, hsession, answer_last (by decide)]
    rfl
  have hu : Untouched (answeredFile.2 4) (requestA .reqWriteFile 0) := by
    refine ⟨fun m hm => ?_, fun name _ hn => ?_⟩
    · rw [hlast] at hm
      change Function.update _ [97] _ [97] = _ at hm
      rw [Function.update_self] at hm
      cases hm
      decide
    · by_contra hne
      change name ≠ [97] at hne
      rw [hlast, Function.update_of_ne hne] at hn
      exact hn rfl
  exact write_after_creation h ⟨⟨(by decide +kernel : (answeredFile.2 4).pending = none),
      fun _ => hu⟩, step_answerAfter answeredFile 4 (requestA .reqWriteFile 0) (by decide +kernel)⟩
    rfl (by decide +kernel)

/-- Client 4 creates the file `a`, reads it and may still write into it. -/
theorem write_after_read : ¬ ∀ (configs : FSConfig) (tr : List ServerEvent)
    (σ σ' : ServerState × (Client → Answers)) (client : Client) (msg response : SockMessage)
    (rand : ℕ → ℕ), Run (Guarded Quiet AnswerStep) (startAnswers configs) tr σ →
    Guarded Quiet AnswerStep σ (.request client msg rand response) σ' →
      msg.type = .reqWriteFile → response.response.status = .ok →
      JustCreated (σ.2 client) msg := by
  intro h
  obtain ⟨tr, hrun⟩ := run_answeredFile
  have hread := next_answerAfter hrun 4 (requestA .reqReadFile 0) (by decide +kernel) (by decide)
    (by decide +kernel)
  have hwrite := step_answerAfter (answerAfter answeredFile 4 (requestA .reqReadFile 0)) 4
    (requestA .reqWriteFile 0) (by decide +kernel)
  have hq : ((answerAfter answeredFile 4 (requestA .reqReadFile 0)).2 4).pending = none := by
    decide +kernel
  obtain ⟨m, hm, hopen, -⟩ := h _ _ _ _ _ _ _ _ (hread.mono fun hg => ⟨hg.1.1, hg.2⟩)
    ⟨hq, hwrite⟩ rfl (by decide +kernel)
  have hlast : (((answerAfter answeredFile 4 (requestA .reqReadFile 0)).2 4).last [97]).map
      SockMessage.type = some .reqReadFile := by decide +kernel
  change ((answerAfter answeredFile 4 (requestA .reqReadFile 0)).2 4).last [97] = some m at hm
  rw [hm] at hlast
  have htype := Option.some.inj hlast
  rw [hopen] at htype
  cases htype

end ServerState
end StorageServer.Server
