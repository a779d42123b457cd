import StorageServer.Library.Calls
import StorageServer.Server.Session
import StorageServer.Server.StoreSteps

/-! How a worker serves one request: a program that calls the session table and the file system,
each call under its own mutex, and returns the response. -/
namespace StorageServer.Server
open Common Library.Calls

/-- The calls that a request is served with. -/
inductive ServerCall
  | session (op : SessionOperation)
  | fs (op : FsOperation)

def ServerCall.Result : ServerCall → Type
  | session _ => SessionOutcome
  | fs _ => FSOutcome

abbrev Handler := Program ServerCall ServerCall.Result

/-- The response under construction and the files to attach to it. -/
abbrev Reply := SockMessage × List FSFile

def sessionCall (op : SessionOperation) : Handler SessionOutcome :=
  Program.make (ServerCall.session op)

def fsCall (op : FsOperation) : Handler FSOutcome := Program.make (ServerCall.fs op)

/-- Results that are no error, such as 0, leave the status as it is. -/
def handleError (status : ℤ) (response : SockMessage) : SockMessage :=
  let set s : SockMessage := { response with response := { response.response with status := s } }
  if status = fsFileAlreadyExists ∨ status = fsFileNotExists ∨ status = fsFileTooBig ∨
      status = sessionFileAlreadyOpened then set .invalidArg
  else if status = sessionFileNeverOpened then set .notFound
  else if status = sessionOutOfMemory then set .genericError
  else if status = fsClientNotAllowed ∨ status = sessionAlreadyExist ∨
      status = sessionNotExist ∨ status = sessionCannotWriteFile then set .notPermitted
  else response

/-- The deep copy of the request's file has the same bytes. -/
def copyRequestIntoFile (msg : SockMessage) : FSFile :=
  ⟨msg.request.file.filename.getD [], msg.request.file.content.getD []⟩

def sessionFile (msg : SockMessage) : SessionFile := msg.request.file.filename.getD []

/-- The error of a `fs_trylock`; a queued client gets no response for now. -/
def handleLock (status : ℤ) (response : SockMessage) : SockMessage :=
  if status = fsClientWaitingOnLock then { response with type := .none }
  else handleError status response

/-- Release the files that a session lists and end it, if the client has one. -/
def closeSession (client : Client) : Handler Unit := do
  let session ← sessionCall (.getRawSession client)
  if session.res = 0 then
    let _ ← fsCall (.clean client session.filenames)
    let _ ← sessionCall (.destroySession client)
  return ()

/-- The operation that opens a file, chosen by the flags. -/
def openOperation (client : Client) (msg : SockMessage) : FsOperation :=
  if msg.request.flags &&& flagCreate ≠ 0 then
    .insert client (copyRequestIntoFile msg) (msg.request.flags &&& flagLock ≠ 0)
  else if msg.request.flags &&& flagLock ≠ 0 then .trylock client (copyRequestIntoFile msg)
  else .exist client (copyRequestIntoFile msg)

/-- The error of the operation that opens a file. -/
def openError (msg : SockMessage) (status : ℤ) (response : SockMessage) : SockMessage :=
  if msg.request.flags &&& flagCreate = 0 ∧ msg.request.flags &&& flagLock ≠ 0 then
    handleLock status response
  else handleError status response

def openFile (client : Client) (msg response : SockMessage) : Handler Reply := do
  let session ← sessionCall (.getSession client)
  if session.res ≠ 0 then return (handleError session.res response, [])
  let opened ← sessionCall (.hasOpenedFile client (sessionFile msg))
  if opened.res ≠ sessionFileNeverOpened then return (handleError opened.res response, [])
  let out ← fsCall (openOperation client msg)
  if out.res ≠ 0 then return (openError msg out.res response, out.outFiles)
  let added ← sessionCall (.addFileOpened client (sessionFile msg) msg.request.flags)
  return (handleError added.res response, out.outFiles)

/-- The result of `fs_unlock` is ignored. -/
def closeFile (client : Client) (msg response : SockMessage) : Handler Reply := do
  let session ← sessionCall (.getSession client)
  if session.res ≠ 0 then return (handleError session.res response, [])
  let opened ← sessionCall (.hasOpenedFile client (sessionFile msg))
  if opened.res ≠ sessionFileAlreadyOpened then return (handleError opened.res response, [])
  let _ ← fsCall (.unlock client (copyRequestIntoFile msg))
  let closed ← sessionCall (.remFileOpened client (sessionFile msg))
  return (handleError closed.res response, [])

/-- Check that the file was opened, and for a write that it may be written into. -/
def checkOpened (client : Client) (msg response : SockMessage) :
    Handler (Except SockMessage Unit) := do
  if msg.type = .reqWriteFile then
    let write ← sessionCall (.canWriteIntoFile client (sessionFile msg))
    if write.res ≠ 0 then return .error (handleError write.res response)
  else
    let opened ← sessionCall (.hasOpenedFile client (sessionFile msg))
    if opened.res ≠ sessionFileAlreadyOpened then
      return .error (handleError opened.res response)
  return .ok ()

/-- The operation behind a request on an opened file. -/
def fileOperation (client : Client) (msg : SockMessage) : Option FsOperation :=
  match msg.type with
  | .reqWriteFile => some (.modify client (copyRequestIntoFile msg))
  | .reqReadFile => some (.obtain client (copyRequestIntoFile msg))
  | .reqLockFile => some (.trylock client (copyRequestIntoFile msg))
  | .reqUnlockFile => some (.unlock client (copyRequestIntoFile msg))
  | .reqRemoveFile => some (.remove client (copyRequestIntoFile msg))
  | .reqAppendToFile => some (.append client (copyRequestIntoFile msg))
  | _ => none

/-- The inner `switch` is left with or without an error, so a refused removal goes on to the
session as well. -/
def fileRequest (client : Client) (msg response : SockMessage) (op : FsOperation) :
    Handler Reply := do
  let session ← sessionCall (.getSession client)
  if session.res ≠ 0 then return (handleError session.res response, [])
  match ← checkOpened client msg response with
  | .error response => return (response, [])
  | .ok () =>
    let out ← fsCall op
    let response :=
      if msg.type = .reqLockFile then handleLock out.res response else handleError out.res response
    if msg.type = .reqRemoveFile then
      let closed ← sessionCall (.remFileOpened client (sessionFile msg))
      return (handleError closed.res response, out.outFiles)
    return (response, out.outFiles)

/-- Pass the files on; an empty content is the null pointer. -/
def addOutFiles : Reply → SockMessage
  | (response, []) => response
  | (response, outFiles) =>
    { response with
      type := .respWithFiles
      response := { response.response with
        files := outFiles.map (fun file =>
          ⟨some file.name, if file.content = [] then none else some file.content⟩) } }

/-- The results of `rand` are a stream. -/
def handleWork (client : Client) (msg : SockMessage) (rand : ℕ → ℕ) : Handler SockMessage := do
  let response : SockMessage := { uid := msg.uid, type := .respSimple, response := ⟨.ok, []⟩ }
  match msg.type with
  | .reqOpenSession =>
    let session ← sessionCall (.createSession client)
    return handleError session.res response
  | .reqCloseSession =>
    -- without a session the error that is handled is still 0
    closeSession client
    return response
  | .reqOpenFile => return addOutFiles (← openFile client msg response)
  | .reqCloseFile => return addOutFiles (← closeFile client msg response)
  | .reqReadNFiles =>
    let out ← fsCall (.obtainN client msg.request.flags.toInt rand)
    return addOutFiles (handleError out.res response, out.outFiles)
  | _ =>
    match fileOperation client msg with
    | some op => return addOutFiles (← fileRequest client msg response op)
    | none => return { response with response := ⟨.invalidArg, []⟩ }

/-- The file system, the session table and the notifications that wait to be delivered. -/
structure ServerState where
  fs : FileSystem
  gSessionTable : SessionTable
  gLockQueue : List FSLockNotification

namespace ServerState

def start (configs : FSConfig) : ServerState where
  fs := .initializeFileSystem configs
  gSessionTable := .initSessionSystem
  gLockQueue := []

/-- Execute one call. A full lock queue only delays the call until it is popped. -/
def exec : (i : ServerCall) → ServerState → Option (ServerState × i.Result)
  | .session op, s =>
    let r := s.gSessionTable.apply op
    some ({ s with gSessionTable := r.1 }, r.2)
  | .fs op, s =>
    (s.fs.apply op).map (fun r =>
      ({ s with fs := r.1, gLockQueue := s.gLockQueue ++ r.2.issued }, r.2))

end ServerState
end StorageServer.Server
