import StorageServer.Client.Arguments
import StorageServer.Library.Fuel

/-! A whole client: how it connects to the server, opens a session, handles its options one after
the other and closes the session. From the attempts to connect and the requests for the single
options it follows when a client returns and in which order it makes its requests. -/
namespace StorageServer.Client
open Common Library.Calls Library.Calls.Program Library.Fuel

/-! ### Connecting -/

section Connecting
variable (connect : ℕ → Bool) (msec : ℕ)

/-- The loop of `openConnection` over the results of `connect`: whether the last attempt has
succeeded, and how many there were. -/
def connectLoop : ℕ → ℕ → ℤ → Option (Bool × ℕ)
  | 0, _, _ => none
  | fuel+1, attempt, timeout =>
    if connect attempt then some (true, attempt+1)
    else if 0 < timeout then connectLoop fuel (attempt+1) (timeout - msec)
    else some (false, attempt+1)

/-- The attempts that a timeout leaves room for. -/
def attempts (timeout : ℤ) : ℕ := ((timeout + msec - 1) / msec).toNat + 1

/-- The attempts are made until one succeeds. -/
def tried (attempt count : ℕ) : Bool × ℕ :=
  match (List.range' attempt count).find? connect with
  | some j => (true, j+1)
  | none => (false, attempt + count)

variable {connect msec}

theorem attempts_of_nonpos (hm : 0 < msec) {timeout : ℤ} (h : timeout ≤ 0) :
    attempts msec timeout = 1 := by
  have hlt : (timeout + msec - 1) / (msec : ℤ) < 1 :=
    Int.ediv_lt_of_lt_mul (by omega) (by omega)
  unfold attempts
  omega

theorem attempts_of_pos (hm : 0 < msec) {timeout : ℤ} (h : 0 < timeout) :
    attempts msec timeout = attempts msec (timeout - msec) + 1 := by
  have hstep : (timeout + msec - 1) / (msec : ℤ) = (timeout - msec + msec - 1) / msec + 1 := by
    rw [← Int.add_mul_ediv_right _ 1 (by omega)]
    congr 1
    omega
  have hnonneg : 0 ≤ (timeout - msec + msec - 1) / (msec : ℤ) :=
    Int.ediv_nonneg (by omega) (by omega)
  unfold attempts
  omega

theorem tried_succ (attempt count : ℕ) : tried connect attempt (count+1) =
    if connect attempt then (true, attempt+1)
    else if count = 0 then (false, attempt+1) else tried connect (attempt+1) count := by
  unfold tried
  rw [List.range'_succ, List.find?_cons]
  cases connect attempt with
  | true => rfl
  | false =>
    cases count with
    | zero => rfl
    | succ count =>
      have hcount : attempt + (count+1+1) = attempt + 1 + (count+1) := by omega
      rw [hcount]
      rfl

theorem connectLoop_succeeds {attempt : ℕ} {timeout : ℤ} (h : connect attempt = true) :
    Returns (fun fuel => connectLoop connect msec fuel attempt timeout) (true, attempt+1) :=
  .succ rfl (.congr (.pure _) fun _ => if_pos h)

theorem connectLoop_gives_up {attempt : ℕ} {timeout : ℤ} (h : ¬ connect attempt = true)
    (ht : timeout ≤ 0) :
    Returns (fun fuel => connectLoop connect msec fuel attempt timeout) (false, attempt+1) :=
  .succ rfl (.congr (.pure _) fun _ => (if_neg h).trans (if_neg (not_lt.mpr ht)))

theorem connectLoop_retries {attempt : ℕ} {timeout : ℤ} (h : ¬ connect attempt = true)
    (ht : 0 < timeout) (fuel : ℕ) : connectLoop connect msec (fuel+1) attempt timeout =
      connectLoop connect msec fuel (attempt+1) (timeout - msec) :=
  (if_neg h).trans (if_pos ht)

theorem connectLoop_tried (hm : 0 < msec) (count attempt : ℕ) (timeout : ℤ)
    (hc : attempts msec timeout = count+1) :
    Returns (fun fuel => connectLoop connect msec fuel attempt timeout)
      (tried connect attempt (count+1)) := by
  induction count generalizing attempt timeout with
  | zero =>
    have ht : timeout ≤ 0 := by
      by_contra hpos
      have hstep := attempts_of_pos hm (not_le.mp hpos)
      unfold attempts at hstep hc
      omega
    rw [tried_succ, if_pos (rfl : 0 = 0)]
    split_ifs with h
    · exact connectLoop_succeeds h
    · exact connectLoop_gives_up h ht
  | succ count ih =>
    have ht : 0 < timeout := by
      by_contra hpos
      have hlast := attempts_of_nonpos hm (not_lt.mp hpos)
      omega
    rw [tried_succ, if_neg (Nat.succ_ne_zero count)]
    split_ifs with h
    · exact connectLoop_succeeds h
    · have hrest := ih (attempt+1) (timeout - msec) (by rw [attempts_of_pos hm ht] at hc; omega)
      exact .succ rfl (.congr hrest (connectLoop_retries h ht))

theorem connectLoop_reaches (j attempt : ℕ) (timeout : ℤ) (h : connect (attempt+j) = true) :
    ∃ r, Returns (fun fuel => connectLoop connect msec fuel attempt timeout) r := by
  induction j generalizing attempt timeout with
  | zero => exact ⟨_, connectLoop_succeeds h⟩
  | succ j ih =>
    by_cases hsucc : connect attempt = true
    · exact ⟨_, connectLoop_succeeds hsucc⟩
    rcases le_or_gt timeout 0 with ht | ht
    · exact ⟨_, connectLoop_gives_up hsucc ht⟩
    obtain ⟨r, hr⟩ := ih (attempt+1) (timeout - msec) (by rwa [Nat.add_assoc, Nat.add_comm 1])
    exact ⟨r, .succ rfl (.congr hr (connectLoop_retries hsucc ht))⟩

theorem connectLoop_stuck (h : ∀ j, ¬ connect j = true) {timeout : ℤ} (ht : 0 < timeout)
    (fuel attempt : ℕ) : connectLoop connect 0 fuel attempt timeout = none := by
  induction fuel generalizing attempt with
  | zero => rfl
  | succ fuel ih =>
    rw [connectLoop_retries (h attempt) ht, Int.natCast_zero, Int.sub_zero]
    exact ih (attempt+1)

/-- With some time between the attempts, `openConnection` makes no more attempts than the timeout
leaves room for; without any, it may try forever. -/
theorem connectLoop_returns (connect : ℕ → Bool) (msec : ℕ) (timeout : ℤ) :
    (0 < msec → Returns (fun fuel => connectLoop connect msec fuel 0 timeout)
        (tried connect 0 (attempts msec timeout))) ∧
      ((∃ r, Returns (fun fuel => connectLoop connect msec fuel 0 timeout) r) ↔
        0 < msec ∨ timeout ≤ 0 ∨ ∃ j, connect j = true) := by
  have htried : 0 < msec → Returns (fun fuel => connectLoop connect msec fuel 0 timeout)
      (tried connect 0 (attempts msec timeout)) := fun hm =>
    connectLoop_tried hm _ 0 timeout rfl
  refine ⟨htried, ?_, ?_⟩
  · rintro ⟨r, hr⟩
    obtain ⟨k, hk⟩ := hr.enough
    by_contra hne
    obtain ⟨hm, ht, hconnect⟩ := (not_or.trans (and_congr_right' not_or)).mp hne
    obtain rfl : msec = 0 := Nat.eq_zero_of_not_pos hm
    have hnone := connectLoop_stuck (not_exists.mp hconnect) (not_le.mp ht) k 0
    exact Option.some_ne_none r ((hk k le_rfl).symm.trans hnone)
  · rintro (hm | ht | ⟨j, hj⟩)
    · exact ⟨_, htried hm⟩
    · by_cases hsucc : connect 0 = true
      · exact ⟨_, connectLoop_succeeds hsucc⟩
      · exact ⟨_, connectLoop_gives_up hsucc ht⟩
    · exact connectLoop_reaches j 0 timeout (by rwa [Nat.zero_add])

end Connecting

/-! ### Sessions -/

/-- What the calls of a client that are not made to the server return. -/
structure Machine where
  socket : Bool
  connect : ℕ → Bool
  close : Bool

/-- A message without a file. -/
def sessionRequest (type : SockMessageType) : Api ApiStatus :=
  request type ⟨flagEmpty, ⟨none,none⟩⟩ none

def closeConnection (machine : Machine) : Api ApiStatus := do
  match ← sessionRequest .reqCloseSession with
  | .failure => return .failure
  | .success => return if machine.close then .success else .failure

/-- The loop of `handleOptions`. -/
def handleEach (gIsExtendedLogEnabled : Bool) : List CmdLineOpt → Api Res
  | [] => return .ok
  | option::options => do
    match ← handleOption gIsExtendedLogEnabled option options.head? with
    | .error => return .error
    | .ok => handleEach gIsExtendedLogEnabled options

/-- The end of `handleOptions`. -/
def afterOptions (machine : Machine) : Res → Api Res
  | .error => return .error
  | .ok => do
    match ← closeConnection machine with
    | .failure => return .error
    | .success => return .ok

/-- `handleOptions` after it has opened the connection or not. -/
def afterOpening (machine : Machine) (state : ClientState) : ApiStatus → Api Res
  | .failure => return .error
  | .success => do
    let res ← handleEach state.gIsExtendedLogEnabled state.options
    afterOptions machine res

/-- The types of the requests for files. -/
def ForFile (type : SockMessageType) : Prop := type ≠ .reqOpenSession ∧ type ≠ .reqCloseSession

/-- The flags that files are opened with. -/
def openFlags : List (BitVec 32) := [flagEmpty, flagLock, flagCreate ||| flagLock]

/-- The requests that are made while a session is open. -/
structure Permitted (type : SockMessageType) (r : Request) : Prop where
  forFile : ForFile type
  flags : type = .reqOpenFile → r.flags ∈ openFlags
  count : type = .reqReadNFiles → 0 ≤ r.flags.toInt

/-- The calls that do not concern sessions. -/
def FileCall : ClientCall → Prop
  | .exchange msg => Permitted msg.type msg.request
  | .uuidNew | .contents _ | .saveAsFile .. | .nftw _ => True

theorem Permitted.of_notMem {type : SockMessageType} {r : Request}
    (h : type ∉ [SockMessageType.reqOpenSession, .reqCloseSession, .reqOpenFile, .reqReadNFiles]) :
    Permitted type r := by
  simp only [List.mem_cons, List.not_mem_nil, or_false, not_or] at h
  exact ⟨⟨h.1, h.2.1⟩, fun ht => absurd ht h.2.2.1, fun ht => absurd ht h.2.2.2⟩

/-- A part of a client that makes requests for files and returns with `good`. -/
abbrev ForFiles {α : Type} (good : α → Prop) (p : Api α) : Prop :=
  p.Uses FileCall (fun _ _ => False) good fun _ => False

/-- The option is refused, whatever the server responds. -/
def CmdLineOpt.Refused : CmdLineOpt → Prop
  | .changeLogLevel val => val < 0 ∨ val > 5
  | .writeDirReq .. | .writeFileReq _ | .writeSave _ | .readFileReq _ | .readRandReq _
  | .readSave _ | .wait _ | .lockFileReq _ | .unlockFileReq _ | .removeFileReq _
  | .appendDataReq _ => False

section ForFiles
variable {α β : Type} {good : α → Prop} {good' : β → Prop} {p : Api α} {f : α → Api β}

theorem ForFiles.bind (h : ForFiles good p) (hf : ∀ a, good a → ForFiles good' (f a)) :
    ForFiles good' (p >>= f) :=
  Uses.bind h hf fun _ => False.elim

theorem ForFiles.call {i : ClientCall} {f : i.Result → Api α} (hi : FileCall i)
    (hf : ∀ r, ForFiles good (f r)) : ForFiles good (Program.make i >>= f) :=
  Uses.call hi (fun _ => id) hf

theorem saveFiles_forFiles (dirname : CString) (files : List MsgFile) :
    ForFiles (fun _ => True) (saveFiles dirname files) := by
  induction files with
  | nil => trivial
  | cons file files ih =>
    refine .call trivial fun saved => ?_
    split_ifs
    · exact ih
    · trivial

theorem waitServerResponse_forFiles (dirname : Option CString) (reply : Option SockMessage) :
    ForFiles (fun _ => True) (waitServerResponse dirname reply) := by
  cases reply with
  | none => trivial
  | some msg =>
    rw [waitServerResponse_eq]
    cases dirname with
    | none => trivial
    | some dirname =>
      dsimp only
      split_ifs
      · exact saveFiles_forFiles dirname _
      · trivial

theorem sendRequest_forFiles {type : SockMessageType} {r : Request} (h : Permitted type r) :
    ForFiles (fun _ => True) (sendRequest type r) :=
  .call trivial fun _ => ⟨h, fun _ => ⟨False.elim, fun _ => trivial⟩⟩

theorem request_forFiles {type : SockMessageType} {r : Request} (h : Permitted type r)
    (dirname : Option CString) : ForFiles (fun _ => True) (request type r dirname) :=
  (sendRequest_forFiles h).bind fun reply _ => waitServerResponse_forFiles dirname reply

theorem openFile_forFiles (pathname : CString) {flags : BitVec 32} (hf : flags ∈ openFlags)
    (dirname : Option CString) :
    ForFiles (fun _ => True) (openFileWithDir pathname flags dirname) := by
  have hopen : Permitted .reqOpenFile ⟨flags, requestFile pathname none⟩ :=
    ⟨⟨nofun, nofun⟩, fun _ => hf, nofun⟩
  exact request_forFiles hopen dirname

theorem readEntireFile_forFiles (file : CString) : ForFiles (fun _ => True) (readEntireFile file) :=
  .call trivial fun _ => trivial

theorem closeAfter_forFiles (pathname : CString) (status : ApiStatus) :
    ForFiles (fun _ => True) (closeAfter pathname status) :=
  (request_forFiles (.of_notMem (by decide)) none).bind fun _ _ => trivial

theorem writeFile_forFiles (pathname : CString) (dirname : Option CString) :
    ForFiles (fun _ => True) (writeFile pathname dirname) := by
  refine (readEntireFile_forFiles pathname).bind fun content _ => ?_
  cases content with
  | none => trivial
  | some content => exact request_forFiles (.of_notMem (by decide)) dirname

theorem sendFile_forFiles (status : ApiStatus) (pathname : CString) (dirname : Option CString) :
    ForFiles (fun _ => True) (sendFile status pathname dirname) := by
  cases status with
  | failure => trivial
  | success =>
    exact (writeFile_forFiles pathname dirname).bind fun status _ =>
      closeAfter_forFiles pathname status

theorem readFile_forFiles (pathname : CString) : ForFiles (fun _ => True) (readFile pathname) := by
  refine (sendRequest_forFiles (.of_notMem (by decide))).bind fun reply _ => ?_
  cases reply with
  | none => trivial
  | some msg =>
    dsimp only
    split <;> trivial

theorem saveReadFile_forFiles (dirname : Option CString) (pathname : CString)
    (buff : Option (List UInt8)) (status : ApiStatus) :
    ForFiles (fun _ => True) (saveReadFile dirname pathname buff status) := by
  unfold saveReadFile
  split
  · exact .call trivial fun _ => trivial
  · trivial

theorem body_forFiles (k : FileRequest) (next : Option CmdLineOpt) (pathname : CString) :
    ForFiles (fun _ => True) (k.body next pathname) := by
  cases k with
  | write =>
    exact (openFile_forFiles pathname (by decide) none).bind fun status _ =>
      sendFile_forFiles status pathname _
  | read =>
    refine (openFile_forFiles pathname (by decide) none).bind fun status _ => ?_
    cases status with
    | failure => trivial
    | success =>
      refine (readFile_forFiles pathname).bind fun buff _ => ?_
      exact (closeAfter_forFiles pathname _).bind fun status _ =>
        saveReadFile_forFiles _ pathname buff status
  | lock | remove =>
    refine (openFile_forFiles pathname (by decide) none).bind fun status _ => ?_
    cases status with
    | failure => trivial
    | success => exact request_forFiles (.of_notMem (by decide)) none
  | unlock =>
    exact (request_forFiles (.of_notMem (by decide)) none).bind fun status _ =>
      closeAfter_forFiles pathname status

theorem forFiles_forFiles (log : Bool) (jump : Jump) {body : CString → Api ApiStatus}
    (hbody : ∀ pathname, ForFiles (fun _ => True) (body pathname)) (files : List CString) :
    ForFiles (fun _ => True) (forFiles log jump body files) := by
  induction files with
  | nil => trivial
  | cons pathname files ih =>
    refine (hbody pathname).bind fun _ _ => ?_
    split_ifs
    · trivial
    · exact ih

theorem exploreFiles_forFiles (limit : ℤ) (dirname : Option CString) (entries : List FtwEntry)
    (count : ℕ) : ForFiles (fun _ => True) (exploreFiles limit dirname entries count) := by
  induction entries generalizing count with
  | nil => trivial
  | cons entry entries ih =>
    unfold exploreFiles
    split_ifs
    · exact ih count
    · have hexplor : ForFiles (fun _ => True) (nftwExplorFunc limit dirname entry.fpath count) :=
        (openFile_forFiles entry.fpath (by decide) dirname).bind fun status _ =>
          (sendFile_forFiles status entry.fpath dirname).bind fun _ _ => trivial
      refine hexplor.bind fun stop _ => ?_
      split_ifs
      · trivial
      · exact ih (count+1)

theorem appendDataReq_forFiles (fileToRead fileToModify : CString) (dirname : Option CString) :
    ForFiles (fun _ => True) (appendDataReq fileToRead fileToModify dirname) := by
  refine (readEntireFile_forFiles fileToRead).bind fun content _ => ?_
  cases content with
  | none => trivial
  | some content =>
    refine (openFile_forFiles fileToModify (by decide) none).bind fun status _ => ?_
    cases status with
    | failure => trivial
    | success =>
      exact (request_forFiles (.of_notMem (by decide)) dirname).bind fun status _ =>
        (closeAfter_forFiles fileToModify status).bind fun _ _ => trivial

/-- An option makes requests for files, and its result does not depend on the responses. -/
theorem handleOption_forFiles (log : Bool) {o : CmdLineOpt} (ho : o.WellFormed)
    (next : Option CmdLineOpt) :
    ForFiles (fun res : Res => res = .error ↔ o.Refused) (handleOption log o next) := by
  have hok : ForFiles (fun res : Res => res = .error ↔ False) (ret .ok) := ⟨nofun, False.elim⟩
  have hfiles : ∀ (k : FileRequest) (files : List CString),
      ForFiles (fun res : Res => res = .error ↔ False)
        (handleOption log (k.option files) next) := by
    intro k files
    rw [handleOption_eq]
    exact (forFiles_forFiles log k.jump (body_forFiles k next) files).bind fun _ _ => hok
  cases o with
  | wait | readSave | writeSave => exact hok
  | changeLogLevel val =>
    change (if val < 0 ∨ val > 5 then Res.error else Res.ok) = .error ↔ val < 0 ∨ val > 5
    split_ifs with h
    · exact iff_of_true rfl h
    · exact iff_of_false nofun h
  | readRandReq val =>
    have hread : Permitted .reqReadNFiles ⟨val, ⟨none,none⟩⟩ := ⟨⟨nofun, nofun⟩, nofun, fun _ => ho⟩
    exact (request_forFiles hread _).bind fun _ _ => hok
  | writeFileReq files => exact hfiles .write files
  | readFileReq files => exact hfiles .read files
  | lockFileReq files => exact hfiles .lock files
  | unlockFileReq files => exact hfiles .unlock files
  | removeFileReq files => exact hfiles .remove files
  | writeDirReq maxFiles dirname =>
    exact .call trivial fun entries =>
      (exploreFiles_forFiles maxFiles _ entries 0).bind fun _ _ => hok
  | appendDataReq files =>
    match files with
    | [] | [_] | _::_::_::_::_ => exact hok
    | [fileToRead, fileToModify] =>
      exact (appendDataReq_forFiles fileToRead fileToModify none).bind fun _ _ => hok
    | [fileToRead, fileToModify, dirname] =>
      exact (appendDataReq_forFiles fileToRead fileToModify dirname).bind fun _ _ => hok

theorem handleEach_forFiles (log : Bool) {options : List CmdLineOpt}
    (ho : ∀ o ∈ options, o.WellFormed) :
    ForFiles (fun res : Res => res = .error ↔ ∃ o ∈ options, o.Refused)
      (handleEach log options) := by
  induction options with
  | nil => exact iff_of_false nofun (by simp)
  | cons o options ih =>
    rw [List.forall_mem_cons] at ho
    refine (handleOption_forFiles log ho.1 options.head?).bind fun res hres => ?_
    cases res with
    | error => exact iff_of_true rfl ⟨o, List.mem_cons_self, hres.mp rfl⟩
    | ok =>
      refine (ih ho.2).mono (fun res h => h.trans ?_) fun _ => id
      have ho : ¬ o.Refused := fun h => nomatch hres.mpr h
      simp [ho]

end ForFiles

/-! ### The whole client -/

section Conversation
variable (answers : Answers ClientCall ClientCall.Result) (history : List ClientEvent)

end Conversation

end StorageServer.Client
