import StorageServer.Client.Options

/-! The requests that an option makes for the files that it lists. Without `-p` most options stop
after the first file. -/
namespace StorageServer.Client
open Common Library.Calls Program

/-- The options that list files. -/
inductive FileRequest
  | write
  | read
  | lock
  | unlock
  | remove
  deriving DecidableEq

namespace FileRequest

def option : FileRequest → List CString → CmdLineOpt
  | write => .writeFileReq
  | read => .readFileReq
  | lock => .lockFileReq
  | unlock => .unlockFileReq
  | remove => .removeFileReq

/-- The flags that a file is opened with; `-u` does not open it. -/
def flags : FileRequest → Option (BitVec 32)
  | write => some (flagCreate ||| flagLock)
  | read | lock => some flagEmpty
  | unlock => none
  | remove => some flagLock

def operation : FileRequest → SockMessageType
  | write => .reqWriteFile
  | read => .reqReadFile
  | lock => .reqLockFile
  | unlock => .reqUnlockFile
  | remove => .reqRemoveFile

/-- Whether a file is closed in the end. -/
def closes : FileRequest → Bool
  | write | read | unlock => true
  | lock | remove => false

/-- The type of the first request for a file. -/
def first (k : FileRequest) : SockMessageType :=
  if k.flags.isSome then .reqOpenFile else k.operation

end FileRequest

abbrev ClientEvent := Event ClientCall ClientCall.Result

/-- A request and the response to it. -/
def sent (uid : UUID) (type : SockMessageType) (request : Request) (reply : Option SockMessage) :
    ClientEvent :=
  ⟨.exchange { uid := uid, type := type, request := request }, reply⟩

/-- The file could be opened. -/
def replyStatus : Option SockMessage → ApiStatus
  | none => .failure
  | some msg =>
    if msg.type = .respSimple ∨ msg.type = .respWithFiles then
      handleServerStatus msg.response.status
    else .success

/-! ### The documented requests -/

/-- The request that a file was opened for. It is not sent if a file to write cannot be read. -/
inductive Operated (k : FileRequest) (pathname : CString) : List ClientEvent → Prop
  | written {data content} (hk : k = .write) (hd : Option.bind data wholeContent = some content)
      (uid : UUID) (reply : Option SockMessage) :
    Operated k pathname [⟨.contents pathname, data⟩,
      sent uid .reqWriteFile ⟨flagEmpty, requestFile pathname (some content)⟩ reply]
  | unreadable {data} (hk : k = .write) (hd : Option.bind data wholeContent = none) :
    Operated k pathname [⟨.contents pathname, data⟩]
  | requested (hk : k ≠ .write) (uid : UUID) (reply : Option SockMessage) :
    Operated k pathname [sent uid k.operation ⟨flagEmpty, requestFile pathname none⟩ reply]

inductive Closed (k : FileRequest) (pathname : CString) : List ClientEvent → Prop
  | closed (hk : k.closes = true) (uid : UUID) (reply : Option SockMessage) :
    Closed k pathname [sent uid .reqCloseFile ⟨flagEmpty, requestFile pathname none⟩ reply]
  | left (hk : k.closes = false) : Closed k pathname []

/-- What is done for one file after it has been opened. -/
inductive Served (k : FileRequest) (pathname : CString) : List ClientEvent → Prop
  | served {es es'} (ho : Operated k pathname es) (hc : Closed k pathname es') :
    Served k pathname (es ++ es')

/-- What is done for one file. -/
inductive Handled (k : FileRequest) (pathname : CString) : List ClientEvent → Prop
  | refused {flags reply} (hf : k.flags = some flags) (hr : replyStatus reply = .failure)
      (uid : UUID) :
    Handled k pathname [sent uid .reqOpenFile ⟨flags, requestFile pathname none⟩ reply]
  | opened {flags reply es} (hf : k.flags = some flags) (hr : replyStatus reply = .success)
      (uid : UUID) (h : Served k pathname es) :
    Handled k pathname (sent uid .reqOpenFile ⟨flags, requestFile pathname none⟩ reply :: es)
  | direct {es} (hf : k.flags = none) (h : Served k pathname es) : Handled k pathname es

/-- What is done for all files, in order. -/
inductive Documented (k : FileRequest) : List CString → List ClientEvent → Prop
  | done : Documented k [] []
  | file {pathname files es es'} (h : Handled k pathname es) (h' : Documented k files es') :
    Documented k (pathname::files) (es ++ es')

/-! ### What happens -/

/-- The requests and the attempts to read a file to be sent. -/
def steps (es : List ClientEvent) : List ClientEvent :=
  es.filter fun e =>
    match e.1 with
    | .exchange _ | .contents _ => true
    | .uuidNew | .saveAsFile .. | .nftw _ => false

/-- The requests that are sent. -/
def requests (es : List ClientEvent) : List SockMessage :=
  es.filterMap fun e =>
    match e.1 with
    | .exchange msg => some msg
    | .uuidNew | .contents _ | .saveAsFile .. | .nftw _ => none

@[simp] theorem steps_nil : steps [] = [] := rfl

@[simp] theorem steps_append (es es' : List ClientEvent) :
    steps (es ++ es') = steps es ++ steps es' := List.filter_append ..

@[simp] theorem requests_append (es es' : List ClientEvent) :
    requests (es ++ es') = requests es ++ requests es' := List.filterMap_append

theorem requests_steps (es : List ClientEvent) : requests (steps es) = requests es := by
  induction es with
  | nil => rfl
  | cons e es ih =>
    obtain ⟨i, r⟩ := e
    cases i with
    | exchange msg => exact congrArg (msg :: ·) ih
    | uuidNew | contents | saveAsFile | nftw => exact ih

section Play
variable (answers : Answers ClientCall ClientCall.Result) (history : List ClientEvent)

theorem play_saveFiles_cons (dirname : CString) (file : MsgFile) (files : List MsgFile) :
    ∃ saved : Bool, saved = answers history (.saveAsFile dirname file) ∧
      (saveFiles dirname (file::files)).play answers history =
        record ⟨.saveAsFile dirname file, saved⟩
          ((if saved then saveFiles dirname files else ret .failure).play answers
            (history ++ [⟨.saveAsFile dirname file, saved⟩])) :=
  ⟨_, rfl, rfl⟩

theorem steps_saveFiles (dirname : CString) (files : List MsgFile) :
    steps ((saveFiles dirname files).play answers history).1 = [] := by
  induction files generalizing history with
  | nil => rfl
  | cons file files ih =>
    obtain ⟨saved, -, hs⟩ := play_saveFiles_cons answers history dirname file files
    rw [hs]
    cases saved with
    | true => exact ih _
    | false => rfl

/-- The files of a response are saved if there is a directory and no error. -/
theorem waitServerResponse_eq (dirname : Option CString) (msg : SockMessage) :
    waitServerResponse dirname (some msg) =
      match dirname with
      | none => ret (replyStatus (some msg))
      | some dirname =>
        if msg.type = .respWithFiles ∧ handleServerStatus msg.response.status = .success then
          saveFiles dirname msg.response.files
        else ret (replyStatus (some msg)) := by
  unfold waitServerResponse replyStatus
  cases ht : msg.type with
  | respWithFiles =>
    cases hs : handleServerStatus msg.response.status <;> cases dirname <;> simp [ht, hs]
  | respSimple => cases dirname <;> simp [ht]
  | none | reqOpenSession | reqCloseSession | reqOpenFile | reqCloseFile | reqReadFile
  | reqLockFile | reqUnlockFile | reqRemoveFile | reqReadNFiles | reqWriteFile | reqAppendToFile
  | other => cases dirname <;> simp [ht]

theorem steps_waitServerResponse (dirname : Option CString) (reply : Option SockMessage) :
    steps ((waitServerResponse dirname reply).play answers history).1 = [] := by
  cases reply with
  | none => rfl
  | some msg =>
    rw [waitServerResponse_eq]
    cases dirname with
    | none => rfl
    | some dirname =>
      dsimp only
      split_ifs
      · exact steps_saveFiles answers history _ _
      · rfl

theorem waitServerResponse_none (reply : Option SockMessage) :
    waitServerResponse none reply = ret (replyStatus reply) := by
  cases reply with
  | none => rfl
  | some msg => exact waitServerResponse_eq none msg

theorem play_sendRequest (type : SockMessageType) (r : Request) :
    ∃ uid reply, ∀ {α : Type} (f : Option SockMessage → Api α),
      (sendRequest type r >>= f).play answers history =
        record ⟨.uuidNew, uid⟩ (record (sent uid type r reply)
          ((f reply).play answers (history ++ [⟨.uuidNew, uid⟩] ++ [sent uid type r reply]))) :=
  ⟨_, _, fun _ => rfl⟩

theorem play_readEntireFile (file : CString) :
    ∃ data : Option (List UInt8), ∀ {α : Type} (f : Option (List UInt8) → Api α),
      (readEntireFile file >>= f).play answers history =
        record ⟨.contents file, data⟩ ((f (Option.bind data wholeContent)).play answers
          (history ++ [⟨.contents file, data⟩])) :=
  ⟨_, fun _ => rfl⟩

/-- A request is a single step, and without a directory its status is read off the response. -/
theorem steps_request (type : SockMessageType) (r : Request) (dirname : Option CString) :
    ∃ uid reply, steps ((request type r dirname).play answers history).1 =
        [sent uid type r reply] ∧
      (dirname = none → ((request type r dirname).play answers history).2 = replyStatus reply) := by
  obtain ⟨uid, reply, h⟩ := play_sendRequest answers history type r
  unfold request
  refine ⟨uid, reply, ?_, ?_⟩
  · rw [h]
    exact congrArg (_ :: ·) (steps_waitServerResponse answers _ dirname reply)
  · rintro rfl
    rw [h, waitServerResponse_none]
    rfl

/-! ### One file -/

theorem closed_closeAfter (k : FileRequest) (hk : k.closes = true) (pathname : CString)
    (status : ApiStatus) :
    Closed k pathname (steps ((closeAfter pathname status).play answers history).1) := by
  obtain ⟨uid, reply, hs, -⟩ := steps_request answers history .reqCloseFile
    ⟨flagEmpty, requestFile pathname none⟩ none
  unfold closeAfter closeFile
  rw [play_bind, steps_append, hs]
  exact .closed hk uid reply

theorem operated_request (k : FileRequest) (hk : k ≠ .write) (pathname : CString) :
    Operated k pathname (steps ((request k.operation ⟨flagEmpty, requestFile pathname none⟩
      none).play answers history).1) := by
  obtain ⟨uid, reply, hs, -⟩ := steps_request answers history k.operation
    ⟨flagEmpty, requestFile pathname none⟩ none
  rw [hs]
  exact .requested hk uid reply

theorem operated_writeFile (pathname : CString) (dirname : Option CString) :
    Operated .write pathname (steps ((writeFile pathname dirname).play answers history).1) := by
  obtain ⟨data, h⟩ := play_readEntireFile answers history pathname
  unfold writeFile
  rw [h]
  cases hd : Option.bind data wholeContent with
  | none => exact .unreadable rfl hd
  | some content =>
    obtain ⟨uid, reply, hs, -⟩ := steps_request answers
      (history ++ [⟨.contents pathname, data⟩]) .reqWriteFile
      ⟨flagEmpty, requestFile pathname (some content)⟩ dirname
    have hop : Operated .write pathname _ := .written rfl hd uid reply
    rw [← hs] at hop
    exact hop

theorem operated_readFile (pathname : CString) :
    Operated .read pathname (steps ((readFile pathname).play answers history).1) := by
  obtain ⟨uid, reply, h⟩ := play_sendRequest answers history .reqReadFile
    ⟨flagEmpty, requestFile pathname none⟩
  unfold readFile
  rw [h]
  have hop : Operated .read pathname _ := .requested (by decide) uid reply
  cases reply with
  | none => exact hop
  | some msg =>
    dsimp only
    split <;> exact hop

/-- What is done after a file has been opened. -/
theorem handled_openFile {α : Type} {k : FileRequest} {flags : BitVec 32}
    (hf : k.flags = some flags) (pathname : CString) (p : ApiStatus → Api α)
    (hfail : ∀ h, steps ((p .failure).play answers h).1 = [])
    (hsucc : ∀ h, Served k pathname (steps ((p .success).play answers h).1)) :
    Handled k pathname (steps ((openFile pathname flags >>= p).play answers history).1) := by
  obtain ⟨uid, reply, hs, hstatus⟩ := steps_request answers history .reqOpenFile
    ⟨flags, requestFile pathname none⟩ none
  unfold openFile openFileWithDir
  rw [play_bind, steps_append, hs, hstatus rfl]
  cases hr : replyStatus reply with
  | failure =>
    rw [hfail, List.append_nil]
    exact .refused hf hr uid
  | success => exact .opened hf hr uid (hsucc _)

theorem handled_writeFileReq (pathname : CString) (dirname : Option CString) :
    Handled .write pathname (steps ((writeFileReq dirname pathname).play answers history).1) := by
  refine handled_openFile answers history rfl pathname _ (fun _ => rfl) fun h => ?_
  unfold sendFile
  dsimp only
  rw [play_bind, steps_append]
  exact .served (operated_writeFile answers h pathname dirname)
    (closed_closeAfter answers _ .write rfl pathname _)

theorem steps_saveReadFile (dirname : Option CString) (pathname : CString)
    (buff : Option (List UInt8)) (status : ApiStatus) :
    steps ((saveReadFile dirname pathname buff status).play answers history).1 = [] := by
  unfold saveReadFile
  split <;> rfl

theorem handled_readFileReq (pathname : CString) (dirname : Option CString) :
    Handled .read pathname (steps ((readFileReq dirname pathname).play answers history).1) := by
  refine handled_openFile answers history rfl pathname _ (fun _ => rfl) fun h => ?_
  dsimp only
  rw [play_bind, steps_append, play_bind, steps_append]
  rw [steps_saveReadFile, List.append_nil]
  exact .served (operated_readFile answers h pathname)
    (closed_closeAfter answers _ .read rfl pathname _)

theorem served_request (k : FileRequest) (hk : k ≠ .write) (hc : k.closes = false)
    (pathname : CString) :
    Served k pathname (steps ((request k.operation ⟨flagEmpty, requestFile pathname none⟩
      none).play answers history).1) := by
  have h := Served.served (operated_request answers history k hk pathname) (.left hc)
  rwa [List.append_nil] at h

theorem handled_lockFileReq (pathname : CString) :
    Handled .lock pathname (steps ((lockFileReq pathname).play answers history).1) :=
  handled_openFile answers history rfl pathname _ (fun _ => rfl) fun h =>
    served_request answers h .lock (by decide) rfl pathname

theorem handled_removeFileReq (pathname : CString) :
    Handled .remove pathname (steps ((removeFileReq pathname).play answers history).1) :=
  handled_openFile answers history rfl pathname _ (fun _ => rfl) fun h =>
    served_request answers h .remove (by decide) rfl pathname

theorem handled_unlockFileReq (pathname : CString) :
    Handled .unlock pathname (steps ((unlockFileReq pathname).play answers history).1) := by
  unfold unlockFileReq
  rw [play_bind, steps_append]
  exact .direct rfl (.served (operated_request answers history .unlock (by decide) pathname)
    (closed_closeAfter answers _ .unlock rfl pathname _))

/-! ### All files -/

/-- The body of the loop of an option. -/
def FileRequest.body (k : FileRequest) (next : Option CmdLineOpt) : CString → Api ApiStatus :=
  match k with
  | write => writeFileReq (writeSaveDirname next)
  | read => readFileReq (readSaveDirname next)
  | lock => Client.lockFileReq
  | unlock => Client.unlockFileReq
  | remove => Client.removeFileReq

/-- How the loop of an option goes on without `-p`. -/
def FileRequest.jump : FileRequest → Jump
  | write => .continues
  | read | lock | unlock | remove => .breaks

theorem handled_body (k : FileRequest) (next : Option CmdLineOpt) (pathname : CString) :
    Handled k pathname (steps ((k.body next pathname).play answers history).1) := by
  cases k with
  | write => exact handled_writeFileReq answers history pathname _
  | read => exact handled_readFileReq answers history pathname _
  | lock => exact handled_lockFileReq answers history pathname
  | unlock => exact handled_unlockFileReq answers history pathname
  | remove => exact handled_removeFileReq answers history pathname

theorem handleOption_eq (gIsExtendedLogEnabled : Bool) (k : FileRequest) (files : List CString)
    (next : Option CmdLineOpt) : handleOption gIsExtendedLogEnabled (k.option files) next =
      (forFiles gIsExtendedLogEnabled k.jump (k.body next) files >>= fun _ => ret .ok) := by
  cases k <;> rfl

/-- What happens while an option is handled. -/
def events (gIsExtendedLogEnabled : Bool) (k : FileRequest) (files : List CString)
    (next : Option CmdLineOpt) : List ClientEvent :=
  ((handleOption gIsExtendedLogEnabled (k.option files) next).play answers history).1

theorem events_eq (gIsExtendedLogEnabled : Bool) (k : FileRequest) (files : List CString)
    (next : Option CmdLineOpt) : events answers history gIsExtendedLogEnabled k files next =
      ((forFiles gIsExtendedLogEnabled k.jump (k.body next) files).play answers history).1 := by
  rw [events, handleOption_eq, play_bind]
  exact List.append_nil _

theorem documented_forFiles {log : Bool} {k : FileRequest}
    (hgo : ¬ (log = false ∧ k.jump = .breaks)) (files : List CString) (next : Option CmdLineOpt) :
    Documented k files
      (steps ((forFiles log k.jump (k.body next) files).play answers history).1) := by
  induction files generalizing history with
  | nil => exact .done
  | cons pathname files ih =>
    unfold forFiles
    rw [play_bind, steps_append, if_neg hgo]
    exact .file (handled_body answers history k next pathname) (ih _)

/-- How many files something was requested for. -/
def firsts (k : FileRequest) (es : List ClientEvent) : ℕ :=
  (requests es).countP fun msg => msg.type = k.first

theorem firsts_append (k : FileRequest) (es es' : List ClientEvent) :
    firsts k (es ++ es') = firsts k es + firsts k es' := by
  simp [firsts]

theorem firsts_steps (k : FileRequest) (es : List ClientEvent) :
    firsts k (steps es) = firsts k es := by
  rw [firsts, requests_steps, firsts]

section Documented
variable {k : FileRequest} {pathname : CString} {files : List CString} {es : List ClientEvent}

theorem firsts_sent (uid : UUID) (type : SockMessageType) (r : Request)
    (reply : Option SockMessage) :
    firsts k [sent uid type r reply] = if type = k.first then 1 else 0 := by
  split_ifs with h <;> simp [firsts, requests, sent, h]

theorem Operated.firsts_eq (h : Operated k pathname es) :
    firsts k es = if k.flags.isSome then 0 else 1 := by
  cases h with
  | written hk hd uid reply =>
    subst hk
    exact firsts_sent uid _ _ reply
  | unreadable hk hd =>
    subst hk
    rfl
  | requested hk uid reply =>
    rw [firsts_sent]
    cases k <;> rfl

theorem Closed.firsts_eq (h : Closed k pathname es) : firsts k es = 0 := by
  cases h with
  | closed hk uid reply =>
    rw [firsts_sent]
    cases k <;> rfl
  | left => rfl

theorem Served.firsts_eq (h : Served k pathname es) :
    firsts k es = if k.flags.isSome then 0 else 1 := by
  obtain ⟨ho, hc⟩ := h
  rw [firsts_append, ho.firsts_eq, hc.firsts_eq, Nat.add_zero]

theorem Handled.firsts_eq (h : Handled k pathname es) : firsts k es = 1 := by
  have hopen : ∀ {flags uid r reply}, k.flags = some flags →
      firsts k [sent uid .reqOpenFile r reply] = 1 := by
    intro flags uid r reply hf
    rw [firsts_sent, FileRequest.first, hf]
    rfl
  cases h with
  | refused hf hr uid => exact hopen hf
  | opened hf hr uid h =>
    rw [← List.singleton_append, firsts_append, hopen hf, h.firsts_eq, hf]
    rfl
  | direct hf h =>
    rw [h.firsts_eq, hf]
    rfl

theorem Documented.firsts_eq (h : Documented k files es) : firsts k es = files.length := by
  induction h with
  | done => rfl
  | file h h' ih => rw [firsts_append, h.firsts_eq, ih, List.length_cons, Nat.add_comm]

end Documented

/-- Without `-p` a loop that is left after the first file requests something for that file only. -/
theorem firsts_events_break {k : FileRequest} (hk : k ≠ .write) (pathname : CString)
    (files : List CString) (next : Option CmdLineOpt) :
    firsts k (events answers history false k (pathname::files) next) = 1 := by
  have hjump : k.jump = .breaks := by cases k <;> first | rfl | exact absurd rfl hk
  rw [events_eq]
  unfold forFiles
  rw [play_bind, if_pos ⟨rfl, hjump⟩, ← firsts_steps]
  change firsts k (steps (_ ++ [])) = 1
  rw [List.append_nil]
  exact (handled_body answers history k next pathname).firsts_eq

theorem forFiles_congr {jump : Jump} {files : List CString}
    (h : jump = .continues ∨ files.length ≤ 1) (body : CString → Api ApiStatus) :
    forFiles false jump body files = forFiles true jump body files := by
  induction files with
  | nil => rfl
  | cons pathname files ih =>
    unfold forFiles
    refine congrArg (body pathname >>= ·) ?_
    funext _
    rcases h with rfl | hlen
    · simpa using ih (Or.inl rfl)
    · obtain rfl : files = [] :=
        List.length_eq_zero_iff.mp (Nat.le_zero.mp (Nat.le_of_succ_le_succ hlen))
      split_ifs <;> rfl

/-- Every listed file is handled as documented exactly if `-p` was given, if the files are written
or if there is only one; and in the last two cases only `-p` makes no difference. -/
theorem listed_files_handled (gIsExtendedLogEnabled : Bool) (k : FileRequest)
    (files : List CString) (next : Option CmdLineOpt) :
    (Documented k files (steps (events answers history gIsExtendedLogEnabled k files next)) ↔
        gIsExtendedLogEnabled = true ∨ k = .write ∨ files.length ≤ 1) ∧
      (requests (events answers history true k files next) =
          requests (events answers history false k files next) ↔
        k = .write ∨ files.length ≤ 1) := by
  have hlogged : Documented k files (steps (events answers history true k files next)) := by
    rw [events_eq]
    exact documented_forFiles answers history (by simp) files next
  have hsame : k = .write ∨ files.length ≤ 1 →
      events answers history false k files next = events answers history true k files next := by
    intro h
    rw [events_eq, events_eq, forFiles_congr (h.imp_left fun hk => hk ▸ rfl)]
  have hdiffer : ¬ (k = .write ∨ files.length ≤ 1) →
      firsts k (events answers history false k files next) < files.length := by
    intro h
    obtain ⟨hk, hlen⟩ := not_or.mp h
    cases files with
    | nil => exact absurd (Nat.zero_le 1) hlen
    | cons pathname files =>
      rw [firsts_events_break answers history hk]
      exact not_le.mp hlen
  refine ⟨⟨fun h => ?_, fun h => ?_⟩, fun h => ?_, fun h => by rw [hsame h]⟩
  · cases gIsExtendedLogEnabled with
    | true => exact Or.inl rfl
    | false =>
      by_contra hne
      have hlt := hdiffer fun hcase => hne (Or.inr hcase)
      rw [← firsts_steps, h.firsts_eq] at hlt
      exact lt_irrefl _ hlt
  · cases gIsExtendedLogEnabled with
    | true => exact hlogged
    | false =>
      rw [hsame (h.resolve_left (by simp))]
      exact hlogged
  · by_contra hne
    have hlt := hdiffer hne
    have hcount := hlogged.firsts_eq
    rw [firsts_steps, firsts, h] at hcount
    exact ne_of_lt hlt hcount

end Play

/-- A server that accepts every request, and a local file system with empty files. -/
def accepting : Answers ClientCall ClientCall.Result
  | _, .uuidNew => Vector.replicate 16 0
  | _, .exchange msg => some { uid := msg.uid, type := .respSimple, response := ⟨.ok, []⟩ }
  | _, .contents _ => some []
  | _, .saveAsFile .. => true
  | _, .nftw _ => []

/-- Of the files `a` and `b` only the first one is read. -/
theorem listed_files_dropped : ¬ ∀ (answers : Answers ClientCall ClientCall.Result)
    (history : List ClientEvent) (gIsExtendedLogEnabled : Bool) (k : FileRequest)
    (files : List CString) (next : Option CmdLineOpt),
    Documented k files (steps (events answers history gIsExtendedLogEnabled k files next)) ∧
      requests (events answers history true k files next) =
        requests (events answers history false k files next) := by
  intro hall
  have h := (hall accepting [] false .read [[97],[98]] none).2
  exact absurd h (by decide +kernel)

end StorageServer.Client
