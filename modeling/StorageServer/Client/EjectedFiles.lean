import StorageServer.Client.FileRequests

/-! The files that the server returns when it replaces them. They are saved in the directory of
`-D` if the client function that receives them is told about it. -/
namespace StorageServer.Client
open Common Library.Calls Program

/-- The files attached to a response. -/
def attachedTo (msg : SockMessage) : List MsgFile :=
  if msg.type = .respWithFiles then msg.response.files else []

/-- The files attached to the responses that the client receives. -/
def attached (es : List ClientEvent) : List MsgFile :=
  es.flatMap fun
    | ⟨.exchange _, some response⟩ => attachedTo response
    | _ => []

/-- The files that are passed to `save_as_file`, each with the directory. -/
def saved (es : List ClientEvent) : List (CString × MsgFile) :=
  es.filterMap fun e =>
    match e.1 with
    | .saveAsFile dirname file => some (dirname, file)
    | .uuidNew | .exchange _ | .contents _ | .nftw _ => none

@[simp] theorem attached_append (es es' : List ClientEvent) :
    attached (es ++ es') = attached es ++ attached es' := List.flatMap_append

@[simp] theorem saved_append (es es' : List ClientEvent) :
    saved (es ++ es') = saved es ++ saved es' := List.filterMap_append

/-- All files are saved, but the last one need not be. -/
def SavesButLast (answers : Answers ClientCall ClientCall.Result) (dirname : CString) :
    List ClientEvent → List MsgFile → Prop
  | _, [] | _, [_] => True
  | history, file::next::files =>
    answers history (.saveAsFile dirname file) = true ∧
      SavesButLast answers dirname (history ++ [⟨.saveAsFile dirname file, true⟩]) (next::files)

/-- A response without files, or one to a request that was told about the directory: its status is
no error and each of its files but the last one is saved. -/
def Kept (answers : Answers ClientCall ClientCall.Result) (dirname : CString) (opensWithDir : Bool)
    (history : List ClientEvent) : ClientEvent → Prop
  | ⟨.exchange msg, some response⟩ =>
    attachedTo response = [] ∨
      msg.type ≠ .reqCloseFile ∧ (msg.type = .reqOpenFile → opensWithDir = true) ∧
        handleServerStatus response.response.status = .success ∧
        SavesButLast answers dirname (history ++ [⟨.exchange msg, some response⟩])
          (attachedTo response)
  | _ => True

/-- Only attached files are saved, and all of them if every response is kept. -/
structure Balanced (answers : Answers ClientCall ClientCall.Result) (dirname : CString)
    (opensWithDir : Bool) (history es : List ClientEvent) : Prop where
  sublist : (saved es).Sublist ((attached es).map (dirname, ·))
  saved_iff : saved es = (attached es).map (dirname, ·) ↔
    Each (Kept answers dirname opensWithDir) history es

section Balanced
variable {answers : Answers ClientCall ClientCall.Result} {dirname : CString}
  {opensWithDir : Bool} {history es es' : List ClientEvent}

theorem Balanced.nil : Balanced answers dirname opensWithDir history [] :=
  ⟨List.Sublist.refl _, iff_of_true rfl trivial⟩

theorem Balanced.append (h : Balanced answers dirname opensWithDir history es)
    (h' : Balanced answers dirname opensWithDir (history ++ es) es') :
    Balanced answers dirname opensWithDir history (es ++ es') := by
  refine ⟨?_, ?_⟩
  · rw [saved_append, attached_append, List.map_append]
    exact h.sublist.append h'.sublist
  · rw [saved_append, attached_append, List.map_append, each_append, ← h.saved_iff,
      ← h'.saved_iff]
    refine ⟨fun heq => ?_, fun heq => by rw [heq.1, heq.2]⟩
    have hlen := congrArg List.length heq
    rw [List.length_append, List.length_append] at hlen
    have hle := h.sublist.length_le
    have hle' := h'.sublist.length_le
    exact ⟨h.sublist.eq_of_length (by omega), h'.sublist.eq_of_length (by omega)⟩

theorem Balanced.bind {α β : Type} {p : Api α} {f : α → Api β}
    (hp : ∀ history, Balanced answers dirname opensWithDir history (p.play answers history).1)
    (hf : ∀ a history,
      Balanced answers dirname opensWithDir history ((f a).play answers history).1)
    (history : List ClientEvent) :
    Balanced answers dirname opensWithDir history ((p >>= f).play answers history).1 := by
  rw [play_bind]
  exact (hp history).append (hf _ _)

end Balanced

/-! ### One response -/

section Response
variable (answers : Answers ClientCall ClientCall.Result) (dirname : CString)
  (opensWithDir : Bool) (history : List ClientEvent)

theorem attached_saveFiles (files : List MsgFile) :
    attached ((saveFiles dirname files).play answers history).1 = [] := by
  induction files generalizing history with
  | nil => rfl
  | cons file files ih =>
    obtain ⟨saved, -, hs⟩ := play_saveFiles_cons answers history dirname file files
    rw [hs]
    cases saved with
    | true => exact ih _
    | false => rfl

theorem kept_saveFiles (files : List MsgFile) : Each (Kept answers dirname opensWithDir) history
    ((saveFiles dirname files).play answers history).1 := by
  induction files generalizing history with
  | nil => trivial
  | cons file files ih =>
    obtain ⟨saved, -, hs⟩ := play_saveFiles_cons answers history dirname file files
    rw [hs]
    cases saved with
    | true => exact ⟨trivial, ih _⟩
    | false => exact ⟨trivial, trivial⟩

theorem saved_saveFiles (files : List MsgFile) :
    (saved ((saveFiles dirname files).play answers history).1).Sublist
      (files.map (dirname, ·)) := by
  induction files generalizing history with
  | nil => exact List.Sublist.refl _
  | cons file files ih =>
    obtain ⟨saved, -, hs⟩ := play_saveFiles_cons answers history dirname file files
    rw [hs]
    cases saved with
    | true => exact (ih _).cons_cons _
    | false => exact (List.nil_sublist _).cons_cons _

theorem saved_saveFiles_iff (files : List MsgFile) :
    saved ((saveFiles dirname files).play answers history).1 = files.map (dirname, ·) ↔
      SavesButLast answers dirname history files := by
  induction files generalizing history with
  | nil => exact iff_of_true rfl trivial
  | cons file files ih =>
    obtain ⟨saved, hsaved, hs⟩ := play_saveFiles_cons answers history dirname file files
    rw [hs]
    cases files with
    | nil =>
      refine iff_of_true ?_ trivial
      cases saved <;> rfl
    | cons next files =>
      change (dirname, file) :: Client.saved _ = (dirname, file) :: _ ↔ _ ∧ _
      rw [← hsaved, List.cons_inj_right]
      cases saved with
      | true => exact (ih _).trans (and_iff_right rfl).symm
      | false => simp [Client.saved]

/-- The requests that are told about the directory. -/
def SavesFor (opensWithDir : Bool) (type : SockMessageType) : Prop :=
  type ≠ .reqCloseFile ∧ (type = .reqOpenFile → opensWithDir = true)

/-- Nothing is saved for a response. -/
theorem balanced_lost (msg response : SockMessage) (h : attachedTo response = [] ∨
    ¬ (SavesFor opensWithDir msg.type ∧ handleServerStatus response.response.status = .success)) :
    Balanced answers dirname opensWithDir history [⟨.exchange msg, some response⟩] := by
  refine ⟨List.nil_sublist _, ?_⟩
  change [] = (attachedTo response ++ []).map _ ↔ Kept _ _ _ _ _ ∧ True
  rw [List.append_nil, and_true, eq_comm, List.map_eq_nil_iff]
  refine ⟨Or.inl, fun hk => hk.elim id fun ⟨hclose, hopen, hstatus, _⟩ => ?_⟩
  exact h.resolve_right fun hno => hno ⟨⟨hclose, hopen⟩, hstatus⟩

/-- The files of a response are saved until one cannot be saved. -/
theorem balanced_saved (msg response : SockMessage) (ht : response.type = .respWithFiles)
    (hs : handleServerStatus response.response.status = .success)
    (hf : SavesFor opensWithDir msg.type) :
    Balanced answers dirname opensWithDir history (⟨.exchange msg, some response⟩ ::
      ((saveFiles dirname response.response.files).play answers
        (history ++ [⟨.exchange msg, some response⟩])).1) := by
  have hatt : attachedTo response = response.response.files := if_pos ht
  have hnil := attached_saveFiles answers dirname (history ++ [⟨.exchange msg, some response⟩])
    response.response.files
  refine ⟨?_, ?_⟩
  · change (saved (Program.play _ _ _).1).Sublist
      ((attachedTo response ++ attached (Program.play _ _ _).1).map _)
    rw [hnil, List.append_nil, hatt]
    exact saved_saveFiles answers dirname _ _
  · change saved (Program.play _ _ _).1 =
      (attachedTo response ++ attached (Program.play _ _ _).1).map _ ↔ Kept _ _ _ _ _ ∧ _
    rw [hnil, List.append_nil, hatt, saved_saveFiles_iff]
    refine ⟨fun h => ⟨Or.inr ⟨hf.1, hf.2, hs, hatt ▸ h⟩, kept_saveFiles _ _ _ _ _⟩, fun h => ?_⟩
    rcases h.1 with hempty | ⟨-, -, -, h⟩
    · rw [← hatt, hempty]
      trivial
    · exact hatt ▸ h

theorem balanced_waitServerResponse (msg : SockMessage) {dir : Option CString}
    (hd : dir = none ∧ ¬ SavesFor opensWithDir msg.type ∨
      dir = some dirname ∧ SavesFor opensWithDir msg.type) (reply : Option SockMessage) :
    Balanced answers dirname opensWithDir history (⟨.exchange msg, reply⟩ ::
      ((waitServerResponse dir reply).play answers (history ++ [⟨.exchange msg, reply⟩])).1) := by
  cases reply with
  | none => exact ⟨List.Sublist.refl _, iff_of_true rfl ⟨trivial, trivial⟩⟩
  | some response =>
    rw [waitServerResponse_eq]
    rcases hd with ⟨rfl, hf⟩ | ⟨rfl, hf⟩
    · exact balanced_lost answers dirname opensWithDir history msg response
        (Or.inr fun h => hf h.1)
    · dsimp only
      split_ifs with h
      · exact balanced_saved answers dirname opensWithDir history msg response h.1 h.2 hf
      · refine balanced_lost answers dirname opensWithDir history msg response ?_
        by_cases ht : response.type = .respWithFiles
        · exact Or.inr fun hs => h ⟨ht, hs.2⟩
        · exact Or.inl (if_neg ht)

theorem balanced_request (type : SockMessageType) (r : Request) {dir : Option CString}
    (hd : dir = none ∧ ¬ SavesFor opensWithDir type ∨
      dir = some dirname ∧ SavesFor opensWithDir type) :
    Balanced answers dirname opensWithDir history
      ((request type r dir).play answers history).1 := by
  obtain ⟨uid, reply, h⟩ := play_sendRequest answers history type r
  unfold request
  rw [h]
  have huid : Balanced answers dirname opensWithDir history [⟨.uuidNew, uid⟩] :=
    ⟨List.Sublist.refl _, iff_of_true rfl ⟨trivial, trivial⟩⟩
  exact huid.append (balanced_waitServerResponse answers dirname opensWithDir _ _ hd reply)

theorem balanced_closeAfter (pathname : CString) (status : ApiStatus) :
    Balanced answers dirname opensWithDir history
      ((closeAfter pathname status).play answers history).1 :=
  Balanced.bind (fun history => balanced_request answers dirname opensWithDir history
    .reqCloseFile _ (Or.inl ⟨rfl, fun h => h.1 rfl⟩)) (fun _ _ => .nil) history

theorem balanced_writeFile (pathname : CString) : Balanced answers dirname opensWithDir history
    ((writeFile pathname (some dirname)).play answers history).1 := by
  obtain ⟨data, h⟩ := play_readEntireFile answers history pathname
  unfold writeFile
  rw [h]
  have hdata : Balanced answers dirname opensWithDir history [⟨.contents pathname, data⟩] :=
    ⟨List.Sublist.refl _, iff_of_true rfl ⟨trivial, trivial⟩⟩
  refine hdata.append ?_
  cases Option.bind data wholeContent with
  | none => exact .nil
  | some content =>
    exact balanced_request answers dirname opensWithDir _ .reqWriteFile _
      (Or.inr ⟨rfl, by decide, fun h => absurd h (by decide)⟩)

theorem balanced_sendFile (status : ApiStatus) (pathname : CString) :
    Balanced answers dirname opensWithDir history
      ((sendFile status pathname (some dirname)).play answers history).1 := by
  cases status with
  | failure => exact .nil
  | success =>
    exact Balanced.bind (fun history => balanced_writeFile answers dirname opensWithDir history _)
      (fun status history => balanced_closeAfter answers dirname opensWithDir history _ status)
      history

end Response

/-! ### The two options -/

section Options
variable (answers : Answers ClientCall ClientCall.Result) (dirname : CString)
  (history : List ClientEvent)

theorem balanced_writeFileReq (pathname : CString) : Balanced answers dirname false history
    ((writeFileReq (some dirname) pathname).play answers history).1 :=
  Balanced.bind (fun history => balanced_request answers dirname false history .reqOpenFile _
      (Or.inl ⟨rfl, fun h => absurd (h.2 rfl) (by decide)⟩))
    (fun status history => balanced_sendFile answers dirname false history status pathname) history

theorem balanced_forFiles (log : Bool) (jump : Jump) (files : List CString) :
    Balanced answers dirname false history
      ((forFiles log jump (writeFileReq (some dirname)) files).play answers history).1 := by
  induction files generalizing history with
  | nil => exact .nil
  | cons pathname files ih =>
    refine Balanced.bind (fun history => balanced_writeFileReq answers dirname history pathname)
      (fun _ history => ?_) history
    split_ifs
    · exact .nil
    · exact ih history

theorem balanced_nftwExplorFunc (limit : ℤ) (fpath : CString) (count : ℕ) :
    Balanced answers dirname true history
      ((nftwExplorFunc limit (some dirname) fpath count).play answers history).1 :=
  Balanced.bind (fun history => balanced_request answers dirname true history .reqOpenFile _
      (Or.inr ⟨rfl, by decide, fun _ => rfl⟩))
    (fun status history => Balanced.bind
      (fun history => balanced_sendFile answers dirname true history status fpath)
      (fun _ _ => .nil) history) history

theorem balanced_exploreFiles (limit : ℤ) (entries : List FtwEntry) (count : ℕ) :
    Balanced answers dirname true history
      ((exploreFiles limit (some dirname) entries count).play answers history).1 := by
  induction entries generalizing history count with
  | nil => exact .nil
  | cons entry entries ih =>
    unfold exploreFiles
    split_ifs
    · exact ih history count
    · refine Balanced.bind
        (fun history => balanced_nftwExplorFunc answers dirname history limit entry.fpath count)
        (fun stop history => ?_) history
      split_ifs
      · exact .nil
      · exact ih history (count+1)

end Options

/-- The options that send files. -/
inductive WriteRequest
  | listed (files : List CString)
  | directory (maxFiles : ℤ) (dirname : CString)

namespace WriteRequest

def option : WriteRequest → CmdLineOpt
  | listed files => .writeFileReq files
  | directory maxFiles dirname => .writeDirReq maxFiles dirname

/-- Only `-w` opens its files with the directory of `-D`. -/
def opensWithDir : WriteRequest → Bool
  | listed _ => false
  | directory .. => true

/-- What happens while the option is handled, followed by `-D`. -/
def events (answers : Answers ClientCall ClientCall.Result) (history : List ClientEvent)
    (dirname : CString) (gIsExtendedLogEnabled : Bool) (w : WriteRequest) : List ClientEvent :=
  ((handleOption gIsExtendedLogEnabled w.option (some (.writeSave dirname))).play answers history).1

theorem balanced (answers : Answers ClientCall ClientCall.Result) (history : List ClientEvent)
    (dirname : CString) (gIsExtendedLogEnabled : Bool) (w : WriteRequest) :
    Balanced answers dirname w.opensWithDir history
      (w.events answers history dirname gIsExtendedLogEnabled) := by
  cases w with
  | listed files =>
    exact Balanced.bind (f := fun _ => ret Res.ok)
      (fun history => balanced_forFiles answers dirname history gIsExtendedLogEnabled _ files)
      (fun _ _ => .nil) history
  | directory maxFiles dir =>
    have hwalk : ∀ entries : List FtwEntry, Balanced answers dirname true history
        [⟨.nftw dir, entries⟩] :=
      fun _ => ⟨List.Sublist.refl _, iff_of_true rfl ⟨trivial, trivial⟩⟩
    exact (hwalk _).append (Balanced.bind (f := fun _ => ret Res.ok)
      (fun history => balanced_exploreFiles answers dirname history maxFiles _ 0)
      (fun _ _ => .nil) _)

end WriteRequest

/-- The files that the server returns are all saved in the directory of `-D`, each once, exactly if
every response is kept. -/
theorem ejected_files_saved (answers : Answers ClientCall ClientCall.Result)
    (history : List ClientEvent) (dirname : CString) (gIsExtendedLogEnabled : Bool)
    (w : WriteRequest) :
    saved (w.events answers history dirname gIsExtendedLogEnabled) =
        (attached (w.events answers history dirname gIsExtendedLogEnabled)).map (dirname, ·) ↔
      Each (Kept answers dirname w.opensWithDir) history
        (w.events answers history dirname gIsExtendedLogEnabled) :=
  (w.balanced answers history dirname gIsExtendedLogEnabled).saved_iff

/-- A server that returns the file `b` when a file is opened. -/
def ejecting : Answers ClientCall ClientCall.Result
  | _, .uuidNew => Vector.replicate 16 0
  | _, .exchange msg =>
    some (if msg.type = .reqOpenFile then
      { uid := msg.uid, type := .respWithFiles, response := ⟨.ok, [⟨some [98,0], some [1]⟩]⟩ }
    else { uid := msg.uid, type := .respSimple, response := ⟨.ok, []⟩ })
  | _, .contents _ => some []
  | _, .saveAsFile .. => true
  | _, .nftw _ => []

/-- The file `b` is lost when the client sends the file `a`. -/
theorem ejected_file_lost : ¬ ∀ (answers : Answers ClientCall ClientCall.Result)
    (history : List ClientEvent) (dirname : CString) (gIsExtendedLogEnabled : Bool)
    (w : WriteRequest), saved (w.events answers history dirname gIsExtendedLogEnabled) =
      (attached (w.events answers history dirname gIsExtendedLogEnabled)).map (dirname, ·) := by
  intro hall
  exact absurd (hall ejecting [] [100] true (.listed [[97]])) (by decide +kernel)

end StorageServer.Client
