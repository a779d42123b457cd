import StorageServer.Server.Requests

/-! Requests of clients without a session. Every kind of request looks the session up by itself,
except for the one that reads any files, and the one that closes the session loses the error. -/
namespace StorageServer.Server
open Common Library.Calls Library.Runs

/-- The statuses that report an error. -/
def errorStatuses : List RespStatus := [.genericError, .notPermitted, .invalidArg, .notFound]

/-- A plain response with an error and no file. -/
structure Refusal (response : SockMessage) : Prop where
  type : response.type = .respSimple
  status : response.response.status ∈ errorStatuses
  files : response.response.files = []

theorem Refusal.status_ne_ok {response : SockMessage} (h : Refusal response) :
    response.response.status ≠ .ok := by
  intro hok
  have hs := h.status
  rw [hok] at hs
  simp [errorStatuses] at hs

theorem fsObtainN_res {fs fs' : FileSystem} {client n : ℤ} {rand : ℕ → ℕ} {out : FSOutcome}
    (h : fs.fsObtainN client n rand = some (fs', out)) : out.res = 0 := by
  unfold FileSystem.fsObtainN at h
  dsimp only at h
  split_ifs at h
  all_goals
    cases h
    rfl

namespace ServerState
variable {s s' : ServerState} {client : Client} {msg response : SockMessage} {rand : ℕ → ℕ}

/-- The request is served with a refusal and nothing else happens. -/
def TurnsAway (s : ServerState) (client : Client) (msg : SockMessage) (rand : ℕ → ℕ) : Prop :=
  ∃ response, (handleWork client msg rand).run exec s = some (s, response) ∧ Refusal response

/-- The beginning shared by the requests on one file. -/
theorem run_getSession_invalid (hv : (s.gSessionTable client).isValid = false) {α : Type}
    {f : SessionOutcome → Handler α} :
    (sessionCall (.getSession client) >>= f).run exec s =
      (f { res := sessionNotExist }).run exec s := by
  rw [run_getSession, hv]
  rfl

theorem run_openFile_invalid (hv : (s.gSessionTable client).isValid = false) :
    (openFile client msg response).run exec s =
      some (s, handleError sessionNotExist response, []) := run_getSession_invalid hv

theorem run_closeFile_invalid (hv : (s.gSessionTable client).isValid = false) :
    (closeFile client msg response).run exec s =
      some (s, handleError sessionNotExist response, []) := run_getSession_invalid hv

theorem run_fileRequest_invalid (hv : (s.gSessionTable client).isValid = false)
    (op : FsOperation) :
    (fileRequest client msg response op).run exec s =
      some (s, handleError sessionNotExist response, []) := run_getSession_invalid hv

/-- Without a session there is nothing to close, and no error is reported. -/
theorem run_closeSession_invalid (hv : (s.gSessionTable client).isValid = false) :
    (closeSession client).run exec s = some (s, ()) := by
  have hg : (s.gSessionTable.apply (.getRawSession client)).2.res = sessionNotExist := by
    simp [SessionTable.apply, SessionTable.getRawSession, hv]
  unfold closeSession
  rw [run_sessionCall]
  dsimp only
  rw [hg, if_neg (by decide)]
  rfl

/-- A client without a session is turned away, exactly unless it asks to close the session or to
read any files. -/
theorem turnsAway_iff (hv : (s.gSessionTable client).isValid = false)
    (ht : msg.type ≠ .reqOpenSession) :
    s.TurnsAway client msg rand ↔ msg.type ≠ .reqCloseSession ∧ msg.type ≠ .reqReadNFiles := by
  constructor
  · intro h
    refine ⟨fun hclose => ?_, fun hread => ?_⟩
    · obtain ⟨response, hs, href⟩ := h
      unfold handleWork at hs
      simp only [hclose] at hs
      rw [Program.run_bind, run_closeSession_invalid hv] at hs
      cases hs
      exact href.status_ne_ok rfl
    · obtain ⟨response, hs, href⟩ := h
      unfold handleWork at hs
      simp only [hread] at hs
      obtain ⟨t, out, hout, hs⟩ := Program.run_call hs
      obtain ⟨⟨fs, out'⟩, ho, hr⟩ := Option.map_eq_some_iff.mp hout
      cases hr
      have hobtain : s.fs.fsObtainN client msg.request.flags.toInt rand = some (fs, out') := ho
      have hres := fsObtainN_res hobtain
      obtain ⟨-, rfl⟩ := Prod.mk.inj (Option.some.inj hs)
      refine href.status_ne_ok ?_
      rw [addOutFiles_status, hres, handleError_zero]
  · rintro ⟨hclose, hread⟩
    have hrefused : Refusal (addOutFiles (handleError sessionNotExist
        { uid := msg.uid, type := .respSimple, response := ⟨.ok, []⟩ }, [])) :=
      ⟨rfl, by simp [handleError, addOutFiles, errorStatuses], rfl⟩
    unfold TurnsAway handleWork
    split
    next h => exact absurd h ht
    next h => exact absurd h hclose
    next =>
      rw [Program.run_bind, run_openFile_invalid hv]
      exact ⟨_, rfl, hrefused⟩
    next =>
      rw [Program.run_bind, run_closeFile_invalid hv]
      exact ⟨_, rfl, hrefused⟩
    next h => exact absurd h hread
    next =>
      split
      next op hop =>
        rw [Program.run_bind, run_fileRequest_invalid hv]
        exact ⟨_, rfl, hrefused⟩
      next hop => exact ⟨_, rfl, rfl, by simp [errorStatuses], rfl⟩

/-- The file `a` is stored, and client 5 has no session. -/
theorem turnsAway_read_without_session :
    withFile.fs.view.entries.map (fun e => e.file) = [⟨[97], []⟩] ∧
      withFile.TurnsAway 5 (requestA .reqReadFile 0) (fun _ => 0) ∧
      ¬ withFile.TurnsAway 5 (requestA .reqReadNFiles 0) (fun _ => 0) := by
  have hv : (withFile.gSessionTable 5).isValid = false := by decide +kernel
  exact ⟨by decide +kernel, (turnsAway_iff hv (by decide)).mpr (by decide),
    fun h => absurd rfl ((turnsAway_iff hv (by decide)).mp h).2⟩

/-- Client 4 has created the file `a`, and client 5 gets it without a session. -/
theorem files_without_session : ¬ ∀ (configs : FSConfig) (tr : List ServerEvent)
    (s : ServerState) (client : Client) (msg : SockMessage) (rand : ℕ → ℕ),
    Run Step (start configs) tr s → (s.gSessionTable client).isValid = false →
      msg.type ≠ .reqOpenSession → s.TurnsAway client msg rand := by
  intro h
  have hopen := step_after withSession 4 (requestA .reqOpenFile flagCreate) (by decide +kernel)
  obtain ⟨response, hs, href⟩ := h _ _ _ 5 (requestA .reqReadNFiles 0) (fun _ => 0)
    ((Run.start.next step_withSession).next hopen) (by decide +kernel) (by decide)
  have hfiles : ((withSession.after 4 (requestA .reqOpenFile flagCreate)).responseTo 5
      (requestA .reqReadNFiles 0)).response.files = [] := by
    unfold responseTo
    rw [hs]
    exact href.files
  revert hfiles
  decide +kernel

end ServerState
end StorageServer.Server
