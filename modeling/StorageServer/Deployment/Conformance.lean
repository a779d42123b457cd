import StorageServer.Deployment.Clients
import StorageServer.Server.Places
import StorageServer.Server.SessionSteps

/-! What the server and its clients can rely on, whatever the clients are asked to do and in
whatever order things happen. A client never waits for a response that does not come for lack of a
request or of a notification, and what the results about the server assume of the requests holds of
those that the client makes. -/
namespace StorageServer.Deployment
open Common Library.Calls Library.Runs Server
open StorageServer.Client (Api ClientCall FileCall ForFile Res openFlags replyStatus)

/-! ### The server and one client -/

/-- The places at which the server keeps a client that is going to be notified. -/
def waits (server : ServerState) (client : Client) : ℕ :=
  server.fs.view.waiters.count (client : ℤ) +
    (server.gLockQueue.map FSLockNotification.fd).count (client : ℤ)

section Server
variable {s s' : ServerState} {client c : Client} {msg response : SockMessage} {rand : ℕ → ℕ}

theorem exec_waits (hv : s.fs.Valid) {i : ServerCall} {r : i.Result} (hi : OnBehalf client i)
    (h : ServerState.exec i s = some (s', r)) (c : Client) :
    s'.fs.Valid ∧ (Queues i r → waits s' c = waits s c + if c = client then 1 else 0) ∧
      (¬ Queues i r → waits s' c = waits s c) := by
  refine ⟨ServerState.exec_valid hv h, ?_⟩
  cases i with
  | session op =>
    cases h
    exact ⟨False.elim, fun _ => rfl⟩
  | fs op =>
    obtain ⟨⟨fs, out⟩, ho, hr⟩ := Option.map_eq_some_iff.mp h
    cases hr
    have hstep : FileSystem.Step s.fs (op,out) fs := ho
    have heffect := hstep.effect hv.wf
    have hcount := heffect.count_waiters hv.sound (c : ℤ)
    have hclient : op.client = (client : ℤ) := hi
    have hwaits : waits ⟨fs, s.gSessionTable, s.gLockQueue ++ out.issued⟩ c = waits s c +
        if out.res = fsClientWaitingOnLock ∧ op.client = (c : ℤ) then 1 else 0 := by
      unfold waits
      rw [List.map_append, List.count_append]
      dsimp only at hcount ⊢
      omega
    constructor
    · intro hq
      have hc : op.client = (c : ℤ) ↔ c = client := by
        rw [hclient, Int.natCast_inj, Fin.val_inj, eq_comm]
      have hres : out.res = fsClientWaitingOnLock := hq.res
      rw [hwaits]
      simp only [hres, true_and, hc]
    · intro hq
      rw [hwaits, if_neg fun h => hq (heffect.queues h.1), Nat.add_zero]

/-- A client waits for a notification after its own postponed request. -/
theorem handleWork_waits (hv : s.fs.Valid) (hd : Documented msg)
    (h : (handleWork client msg rand).run ServerState.exec s = some (s', response)) (c : Client) :
    waits s' c = waits s c + if LockPostponed msg response ∧ c = client then 1 else 0 := by
  have hgrows := (handleWork_uses hd rand).run_grows (I := fun s => s.fs.Valid)
    (w := fun s => waits s c) (fun hv hi he => exec_waits hv hi he c) hv h
  rcases hgrows with ⟨hp, hw⟩ | ⟨hr, hw⟩
  · rw [hw]
    simp only [hp, true_and]
  · rw [hw, if_neg fun h => hr h.1.2, Nat.add_zero]

theorem closeSession_waits (hv : s.fs.Valid)
    (h : (closeSession client).run ServerState.exec s = some (s', ())) (c : Client) :
    waits s' c = waits s c := by
  have hgrows := (closeSession_uses client).run_grows (I := fun s => s.fs.Valid)
    (w := fun s => waits s c) (fun hv hi he => exec_waits hv hi he c) hv h
  exact (hgrows.resolve_left fun h => h.1.elim).2

theorem delivery_waits {n : FSLockNotification} (h : s.Step (.delivery n) s') (c : Client) :
    waits s c = waits s' c + if n.fd = (c : ℤ) then 1 else 0 := by
  obtain ⟨hq, hs⟩ := h
  have hfs : s'.fs = s.fs := by rw [hs]
  unfold waits
  rw [hq, hfs, List.map_cons, List.count_cons]
  simp only [beq_iff_eq]
  omega

/-- What is written after a request, and where the client is kept. -/
theorem answer_cases (hv : s.fs.Valid) (hd : Documented msg)
    (h : (handleWork client msg rand).run ServerState.exec s = some (s', response)) :
    (msg.type = .reqLockFile ∨ msg.type = .reqOpenFile) ∧ answer msg response = [] ∧
        waits s' client = waits s client + 1 ∨
      answer msg response = [response] ∧ waits s' client = waits s client := by
  have hwaits := handleWork_waits hv hd h client
  unfold answer
  by_cases hp : LockPostponed msg response
  · rw [if_pos ⟨hp, rfl⟩] at hwaits
    rw [if_pos hp]
    exact .inl ⟨hp.1.imp_right And.left, rfl, hwaits⟩
  · rw [if_neg fun h => hp h.1] at hwaits
    rw [if_neg hp]
    exact .inr ⟨rfl, hwaits⟩

/-! ### Sessions -/

/-- The server has a session for the client. -/
def HasSession (server : ServerState) (client : Client) : Prop :=
  (server.gSessionTable client).isValid = true

theorem openSession_accepted (ht : msg.type = .reqOpenSession) (hn : ¬ HasSession s client)
    (h : (handleWork client msg rand).run ServerState.exec s = some (s', response)) :
    HasSession s' client ∧ response.type = .respSimple ∧ response.response.status = .ok := by
  unfold handleWork at h
  simp only [ht] at h
  rw [run_sessionCall] at h
  have hnew : s.gSessionTable.apply (.createSession client) =
      (Function.update s.gSessionTable client (.blank true), { res := 0 }) := if_neg hn
  rw [hnew] at h
  cases h
  refine ⟨?_, rfl, rfl⟩
  change (Function.update s.gSessionTable client (.blank true) client).isValid = true
  rw [Function.update_self]
  rfl

theorem closeSession_hasSession (hv : s.fs.Valid)
    (h : (closeSession client).run ServerState.exec s = some (s', ())) (c : Client) :
    HasSession s' c ↔ HasSession s c ∧ c ≠ client := by
  unfold HasSession
  rcases run_closeSession hv.wf h with ⟨rfl, hno⟩ | ⟨-, ht, -⟩
  · refine ⟨fun hc => ⟨hc, ?_⟩, fun h => h.1⟩
    rintro rfl
    rw [hno] at hc
    cases hc
  · rw [ht]
    by_cases hc : c = client
    · subst hc
      rw [Function.update_self]
      exact iff_of_false nofun fun h => h.2 rfl
    · rw [Function.update_of_ne hc]
      exact (and_iff_left hc).symm

/-- A request for a file neither opens nor closes a session, and no request does so for another
client. -/
theorem request_hasSession (hv : s.fs.Valid)
    (h : (handleWork client msg rand).run ServerState.exec s = some (s', response))
    (hc : ForFile msg.type ∨ c ≠ client) : HasSession s' c ↔ HasSession s c := by
  have hchange := handleWork_change hv.wf h
  unfold HasSession
  by_cases hne : c = client
  swap
  · rw [hchange.of_ne hne]
  subst hne
  obtain ⟨hopen, hclose⟩ := hc.resolve_right (not_not.mpr rfl)
  generalize s'.gSessionTable = t at hchange
  cases hchange with
  | kept | refused | idle | queued => exact Iff.rfl
  | opened ht hvalid hn hroom =>
    rw [Function.update_self, (ClientSession.addFileOpened_room _ hvalid hn hroom).2.1, hvalid]
  | closed ht hl =>
    rw [Function.update_self, (ClientSession.remFileOpened_listed hl).2.1, hl.1]
  | reset ht => exact (ht.elim hopen hclose).elim

end Server

/-! ### The invariant -/

/-- How a connection fits the server, which has a session for the client or not and keeps the client
at some places to be notified. -/
inductive Fits (valid : Prop) : ℕ → Connection → Prop
  | absent (hv : ¬ valid) : Fits valid 0 ⟨.absent, [], []⟩
  | running {stage rest} (h : Follows stage rest) (hv : valid ↔ stage = .opened) :
    Fits valid 0 ⟨.running rest, [], []⟩
  | asked {stage msg next} (h : Follows stage (.call (.exchange msg) next))
      (hv : valid ↔ stage = .opened) : Fits valid 0 ⟨.waiting next, [msg], []⟩
  | postponed {stage next} (h : ∀ reply, Follows stage (next (some reply)))
      (hv : valid ↔ stage = .opened) : Fits valid 1 ⟨.waiting next, [], []⟩
  | answered {stage next reply} (h : Follows stage (next (some reply)))
      (hv : valid ↔ stage = .opened) : Fits valid 0 ⟨.waiting next, [], [reply]⟩
  | gone : Fits valid 0 ⟨.gone, [], []⟩

theorem Fits.congr {valid valid' : Prop} {n n' : ℕ} {connection : Connection}
    (h : Fits valid n connection) (hv : valid' ↔ valid) (hn : n' = n) :
    Fits valid' n' connection := by
  rw [hn, propext hv]
  exact h

namespace Deployed

structure Inv (s : Deployed) : Prop where
  valid : s.server.fs.Valid
  fits : ∀ client, Fits (HasSession s.server client) (waits s.server client) (s.connection client)

variable {configs : FSConfig} {s s' : Deployed} {e : DeployedEvent} {tr : List DeployedEvent}
  {client : Client} {server : ServerState} {connection : Connection}

theorem Inv.start (configs : FSConfig) : (start configs).Inv where
  valid := FileSystem.Valid.start configs
  fits _ := .absent nofun

/-- Something happens to a single client. -/
theorem Inv.set (hi : s.Inv) (hv : server.fs.Valid)
    (hothers : ∀ c ≠ client, (HasSession server c ↔ HasSession s.server c) ∧
      waits server c = waits s.server c)
    (hfits : Fits (HasSession server client) (waits server client) connection) :
    ({ s with server := server }.set client connection : Deployed).Inv where
  valid := hv
  fits c := by
    change Fits _ _ (Function.update s.connection client connection c)
    by_cases hc : c = client
    · subst hc
      rw [Function.update_self]
      exact hfits
    · rw [Function.update_of_ne hc]
      exact (hi.fits c).congr (hothers c hc).1 (hothers c hc).2

theorem Inv.set_connection (hi : s.Inv)
    (hfits : Fits (HasSession s.server client) (waits s.server client) connection) :
    (s.set client connection).Inv :=
  hi.set hi.valid (fun _ _ => ⟨Iff.rfl, rfl⟩) hfits

/-- A request is served. -/
theorem Inv.serves (hi : s.Inv) {msg response : SockMessage} {rand : ℕ → ℕ} {process : Process}
    {requests replies : List SockMessage}
    (h : s.connection client = ⟨process, msg::requests, replies⟩)
    (hs : s.server.Step (.request client msg rand response) server) :
    ({ s with server := server }.set client
      ⟨process, requests, replies ++ answer msg response⟩ : Deployed).Inv := by
  have hv := hs.valid hi.valid
  have hf := hi.fits client
  rw [h] at hf
  generalize hn : waits s.server client = n at hf
  cases hf with
  | @asked stage msg next hfollows hsession =>
    have hothers : Documented msg → ∀ c ≠ client,
        (HasSession server c ↔ HasSession s.server c) ∧ waits server c = waits s.server c := by
      intro hd c hc
      have hwaits := handleWork_waits hi.valid hd hs c
      rw [if_neg fun h => hc h.2] at hwaits
      exact ⟨request_hasSession hi.valid hs (.inr hc), hwaits⟩
    have hanswered : msg.type ≠ .reqLockFile → msg.type ≠ .reqOpenFile →
        Documented msg ∧ answer msg response = [response] ∧ waits server client = 0 := by
      intro hl ho
      have hd : Documented msg := fun h => absurd h ho
      obtain ⟨ha, hw⟩ := (answer_cases hi.valid hd hs).resolve_left fun h => h.1.elim hl ho
      exact ⟨hd, ha, hw.trans hn⟩
    cases hfollows with
    | acts hlocal => exact hlocal.elim
    | opens ht hsucc hfail =>
      obtain ⟨hd, ha, hw⟩ := hanswered (by rw [ht]; decide) (by rw [ht]; decide)
      obtain ⟨hopened, htype, hok⟩ := openSession_accepted ht (fun h => nomatch hsession.mp h) hs
      have hreply : replyStatus (some response) = .success := by
        simp [replyStatus, Client.handleServerStatus, htype, hok]
      refine hi.set hv (hothers hd) ?_
      rw [ha, hw]
      exact .answered (hsucc _ hreply) (iff_of_true hopened rfl)
    | asks hcall hnext =>
      have hd : Documented msg := fun h => by
        have hmem := hcall.flags h
        simp only [openFlags, List.mem_cons, List.not_mem_nil, or_false] at hmem ⊢
        tauto
      have hkept := (request_hasSession (c := client) hi.valid hs
        (.inl hcall.forFile)).trans hsession
      refine hi.set hv (hothers hd) ?_
      rcases answer_cases hi.valid hd hs with ⟨-, ha, hw⟩ | ⟨ha, hw⟩
      · rw [ha, hw, hn]
        exact .postponed (fun _ => hnext _) hkept
      · rw [ha, hw, hn]
        exact .answered (hnext _) hkept
    | closes ht hnext =>
      obtain ⟨hd, ha, hw⟩ := hanswered (by rw [ht]; decide) (by rw [ht]; decide)
      have hclosed := closeSession_hasSession hi.valid (run_of_closeSession ht hs) client
      refine hi.set hv (hothers hd) ?_
      rw [ha, hw]
      exact .answered (hnext _) (iff_of_false (fun h => (hclosed.mp h).2 rfl) nofun)

theorem Inv.delivers (hi : s.Inv) {n : FSLockNotification} {process : Process}
    {requests replies : List SockMessage} (hc : (client : ℤ) = n.fd)
    (h : s.connection client = ⟨process, requests, replies⟩)
    (hs : s.server.Step (.delivery n) server) (uid : UUID) :
    ({ s with server := server }.set client
      ⟨process, requests, replies ++ [lockResponse uid n]⟩ : Deployed).Inv := by
  have hv := hs.valid hi.valid
  have hwaits := delivery_waits hs
  have hsessions : server.gSessionTable = s.server.gSessionTable := by rw [hs.2]
  have hsame : ∀ c, HasSession server c ↔ HasSession s.server c := fun c => by
    rw [HasSession, HasSession, hsessions]
  have hothers : ∀ c ≠ client, (HasSession server c ↔ HasSession s.server c) ∧
      waits server c = waits s.server c := by
    intro c hne
    have hfd : n.fd ≠ (c : ℤ) := by
      rw [← hc]
      exact fun h => hne (Fin.val_injective (Int.natCast_inj.mp h)).symm
    have hw := hwaits c
    rw [if_neg hfd] at hw
    exact ⟨hsame c, hw.symm⟩
  have hw := hwaits client
  rw [if_pos hc.symm] at hw
  have hf := hi.fits client
  rw [h] at hf
  generalize hn : waits s.server client = k at hf
  cases hf with
  | absent | running | asked | answered | gone => omega
  | postponed hfollows hsession =>
    have hnone : waits server client = 0 := by omega
    refine hi.set hv hothers ?_
    rw [hnone]
    exact .answered (hfollows _) ((hsame client).trans hsession)

theorem Inv.step (hi : s.Inv) (hs : Step s e s') : s'.Inv := by
  cases hs with
  | @connects client argv state machine hargs h =>
    have hf := hi.fits client
    generalize hconn : s.connection client = connection at hf h
    generalize hn : waits s.server client = n at hf
    cases hf with
    | absent hv =>
      refine hi.set_connection ?_
      rw [hn]
      exact .running (follows_session machine (Client.accepted_wellFormed hargs).options)
        (iff_of_false hv nofun)
    | running | asked | postponed | answered | gone => cases h
  | @acts client i next requests replies h hlocal r =>
    have hf := hi.fits client
    rw [h] at hf
    generalize hn : waits s.server client = n at hf
    cases hf with
    | running hfollows hsession =>
      cases hfollows with
      | acts _ hnext =>
        refine hi.set_connection ?_
        rw [hn]
        exact .running (hnext r) hsession
      | opens | asks | closes => exact hlocal.elim
  | @sends client msg next requests replies h =>
    have hf := hi.fits client
    rw [h] at hf
    generalize hn : waits s.server client = n at hf
    cases hf with
    | running hfollows hsession =>
      refine hi.set_connection ?_
      rw [hn]
      exact .asked hfollows hsession
  | serves h hs => exact hi.serves h hs
  | delivers hc h hs uid => exact hi.delivers hc h hs uid
  | @receives client next requests reply replies h =>
    have hf := hi.fits client
    rw [h] at hf
    generalize hn : waits s.server client = n at hf
    cases hf with
    | answered hfollows hsession =>
      refine hi.set_connection ?_
      rw [hn]
      exact .running hfollows hsession
  | @leaves client rest requests replies h =>
    have hf := hi.fits client
    rw [h] at hf
    generalize hn : waits s.server client = n at hf
    cases hf with
    | running =>
      refine hi.set_connection ?_
      rw [hn]
      exact .gone
  | @ended client replies server h hs =>
    have hf := hi.fits client
    rw [h] at hf
    generalize hn : waits s.server client = n at hf
    have hsession := closeSession_hasSession hi.valid hs
    cases hf with
    | gone =>
      refine hi.set (hs.valid hi.valid) (fun c hc => ⟨(hsession c).trans (and_iff_left hc),
        closeSession_waits hi.valid hs c⟩) ?_
      rw [closeSession_waits hi.valid hs client, hn]
      exact .absent fun h => ((hsession client).mp h).2 rfl

theorem inv_of_run (h : Run Step (start configs) tr s) : s.Inv :=
  h.invariant (.start configs) Inv.step

/-! ### What holds in every run -/

/-- The requests and replies of a client that are on their way, and the places at which the server
keeps it to be notified. -/
def outstanding (s : Deployed) (client : Client) : ℕ :=
  (s.connection client).requests.length + waits s.server client +
    (s.connection client).replies.length

/-- A client that waits has made one request, which has not been read, or for which it is kept to be
notified, or whose response it has not read. There is nothing of the kind for the others, and a
client that is not there has no session. -/
theorem one_outstanding (h : Run Step (start configs) tr s) (client : Client) :
    ((∃ next, (s.connection client).process = .waiting next) → s.outstanding client = 1) ∧
      ((∀ next, (s.connection client).process ≠ .waiting next) → s.outstanding client = 0) ∧
      ((s.connection client).process = .absent → ¬ HasSession s.server client) := by
  have hf := (inv_of_run h).fits client
  unfold outstanding
  generalize s.connection client = connection at hf
  generalize waits s.server client = n at hf
  cases hf with
  | absent hv => exact ⟨nofun, fun _ => rfl, fun _ => hv⟩
  | running | gone => exact ⟨nofun, fun _ => rfl, nofun⟩
  | asked | postponed | answered =>
    exact ⟨fun _ => rfl, fun hne => absurd rfl (hne _), nofun⟩

/-- Client 4 reads the file `a`; it has opened its session and asks to open the file. -/
theorem run_reading : ∃ tr s s' msg response, Run Step (start FileSystem.defaultConfigs) tr s ∧
    (∃ next, (s.connection 4).process = .waiting next) ∧ msg.type = .reqOpenFile ∧
    Step s (.serves (.request 4 msg (fun _ => 0) response)) s' := by
  have hargs : Client.parseArguments [ascii "-ra"] =
    .ok { Client.initializeClient with options := [.readFileReq [ascii "a"]] } := rfl
  have h : Run Step (start FileSystem.defaultConfigs) _ _ :=
    Run.start.next (@Step.connects _ 4 _ _ ⟨true, fun _ => true, true⟩ hargs rfl)
  have h := h.next (@Step.acts _ 4 .uuidNew _ _ _ rfl trivial (Vector.replicate 16 0))
  have h := h.next (@Step.sends _ 4 _ _ _ _ rfl)
  have h := h.next (@Step.serves _ 4 _ (fun _ => 0) _ _ _ _ _ rfl
    (ServerState.step_after _ _ _ (by decide +kernel)))
  have h := h.next (@Step.receives _ 4 _ _ _ _ rfl)
  have h := h.next (@Step.acts _ 4 .uuidNew _ _ _ rfl trivial (Vector.replicate 16 0))
  have h := h.next (@Step.sends _ 4 _ _ _ _ rfl)
  exact ⟨_, _, _, _, _, h, ⟨_, rfl⟩, rfl, @Step.serves _ 4 _ (fun _ => 0) _ _ _ _ _ rfl
    (ServerState.step_after _ _ _ (by decide +kernel))⟩

theorem one_outstanding_reading : ∃ tr s, Run Step (start FileSystem.defaultConfigs) tr s ∧
    (∃ next, (s.connection 4).process = .waiting next) ∧ s.outstanding 4 = 1 := by
  obtain ⟨tr, s, -, -, -, h, hwaiting, -⟩ := run_reading
  exact ⟨tr, s, h, hwaiting, (one_outstanding h 4).1 hwaiting⟩

/-- A request that the server can rely on: a session is opened by a client that has none, anything
else is asked by one that has, files are opened with documented flags, and a number of files is not
negative. -/
structure Conforms (server : ServerState) (client : Client) (msg : SockMessage) : Prop where
  session : msg.type = .reqOpenSession ↔ ¬ HasSession server client
  documented : Documented msg
  count : msg.type = .reqReadNFiles → 0 ≤ msg.request.flags.toInt

/-- Whatever the command lines of the clients, every request that is served conforms. -/
theorem requests_conform (h : Run Step (start configs) tr s) {msg response : SockMessage}
    {rand : ℕ → ℕ} (hs : Step s (.serves (.request client msg rand response)) s') :
    Conforms s.server client msg := by
  have hf := (inv_of_run h).fits client
  cases hs with
  | serves hconn hs =>
    rw [hconn] at hf
    generalize waits s.server client = n at hf
    cases hf with
    | @asked stage msg next hfollows hsession =>
      cases hfollows with
      | acts hlocal => exact hlocal.elim
      | opens ht =>
        exact ⟨iff_of_true ht fun hv => (nomatch hsession.mp hv),
          fun ho => (nomatch ht.symm.trans ho), fun hn => (nomatch ht.symm.trans hn)⟩
      | asks hcall =>
        refine ⟨iff_of_false hcall.forFile.1 (not_not.mpr (hsession.mpr rfl)), fun ho => ?_,
          hcall.count⟩
        have hmem := hcall.flags ho
        simp only [openFlags, List.mem_cons, List.not_mem_nil, or_false] at hmem ⊢
        tauto
      | closes ht =>
        exact ⟨iff_of_false (by rw [ht]; decide) (not_not.mpr (hsession.mpr rfl)),
          fun ho => (nomatch ht.symm.trans ho), fun hn => (nomatch ht.symm.trans hn)⟩

theorem requests_conform_reading : ∃ tr s s' msg response,
    Run Step (start FileSystem.defaultConfigs) tr s ∧ msg.type = .reqOpenFile ∧
    Step s (.serves (.request 4 msg (fun _ => 0) response)) s' ∧ Conforms s.server 4 msg := by
  obtain ⟨tr, s, s', msg, response, h, -, ht, hs⟩ := run_reading
  exact ⟨tr, s, s', msg, response, h, ht, hs, requests_conform h hs⟩

end Deployed

end StorageServer.Deployment
