import StorageServer.Common.Message
import StorageServer.Library.Calls

/-! The functions that a client talks to the server with. A client is a program whose calls are
answered by the server and by the file system of its own machine. -/
namespace StorageServer.Client
open Common Library.Calls

/-- A string without its terminator. -/
abbrev CString := List UInt8

/-- What `nftw` passes to the function that it calls: a path and whether it is a file. -/
structure FtwEntry where
  fpath : CString
  file : Bool

/-- The calls of a client. `exchange` writes a request and waits for the response to it; its result
is `none` if one of them returns 0. `contents` are the bytes of a local file, if it can be read. The
entries of a directory are all those that `nftw` goes through if it is not stopped. -/
inductive ClientCall
  | uuidNew
  | exchange (msg : SockMessage)
  | contents (file : CString)
  | saveAsFile (dirname : CString) (file : MsgFile)
  | nftw (dirname : CString)

def ClientCall.Result : ClientCall → Type
  | uuidNew => UUID
  | exchange _ => Option SockMessage
  | contents _ => Option (List UInt8)
  | saveAsFile .. => Bool
  | nftw _ => List FtwEntry

abbrev Api := Program ClientCall ClientCall.Result

inductive ApiStatus
  | success
  | failure
  deriving DecidableEq

def uuidNew : Api UUID := Program.make ClientCall.uuidNew

def exchange (msg : SockMessage) : Api (Option SockMessage) :=
  Program.make (ClientCall.exchange msg)

def saveAsFile (dirname : CString) (file : MsgFile) : Api Bool :=
  Program.make (ClientCall.saveAsFile dirname file)

/-- The bytes of a file whose length is kept in an `int`. -/
def wholeContent (data : List UInt8) : Option (List UInt8) :=
  if toInt data.length < 0 then none else some (data.take (toInt data.length).toNat)

def readEntireFile (file : CString) : Api (Option (List UInt8)) := do
  let data ← Program.make (ClientCall.contents file)
  return Option.bind data wholeContent

/-! ### Responses -/

def handleServerStatus : RespStatus → ApiStatus
  | .genericError | .notPermitted | .invalidArg | .notFound => .failure
  | .none | .ok | .other _ => .success

/-- The loop that saves the files of a response. It is left when a file cannot be saved. -/
def saveFiles (dirname : CString) : List MsgFile → Api ApiStatus
  | [] => return .success
  | file::files => do
    let saved ← saveAsFile dirname file
    if saved then saveFiles dirname files else return .failure

/-- A response of another type is taken for a success. -/
def waitServerResponse (dirname : Option CString) : Option SockMessage → Api ApiStatus
  | none => return .failure
  | some msg =>
    match msg.type with
    | .respSimple => return handleServerStatus msg.response.status
    | .respWithFiles =>
      if handleServerStatus msg.response.status = .failure then return .failure
      else
        match dirname with
        | none => return .success
        | some dirname => saveFiles dirname msg.response.files
    | _ => return .success

/-! ### Requests -/

/-- The part of a request that names a file. -/
def requestFile (pathname : CString) (content : MsgPtr) : MsgFile :=
  ⟨some (pathname ++ [0]), content⟩

def sendRequest (type : SockMessageType) (request : Request) : Api (Option SockMessage) := do
  let uid ← uuidNew
  exchange { uid := uid, type := type, request := request }

/-- Send a request and handle the response. -/
def request (type : SockMessageType) (request : Request) (dirname : Option CString) :
    Api ApiStatus := do
  let reply ← sendRequest type request
  waitServerResponse dirname reply

def openFileWithDir (pathname : CString) (flags : BitVec 32) (dirname : Option CString) :
    Api ApiStatus :=
  request .reqOpenFile ⟨flags, requestFile pathname none⟩ dirname

def openFile (pathname : CString) (flags : BitVec 32) : Api ApiStatus :=
  openFileWithDir pathname flags none

/-- `none` is a failure. A response with one file is taken for a success, whatever its status. -/
def readFile (pathname : CString) : Api (Option (List UInt8)) := do
  let reply ← sendRequest .reqReadFile ⟨flagEmpty, requestFile pathname none⟩
  match reply with
  | none => return none
  | some msg =>
    match msg.type, msg.response.files with
    | .respWithFiles, [file] => return some (file.content.getD [])
    | _, _ => return none

def readNFiles (n : BitVec 32) (dirname : Option CString) : Api ApiStatus :=
  request .reqReadNFiles ⟨n, ⟨none,none⟩⟩ dirname

/-- No request is sent for a file that cannot be read. -/
def writeFile (pathname : CString) (dirname : Option CString) : Api ApiStatus := do
  match ← readEntireFile pathname with
  | none => return .failure
  | some content =>
    request .reqWriteFile ⟨flagEmpty, requestFile pathname (some content)⟩ dirname

def appendToFile (pathname : CString) (buf : List UInt8) (dirname : Option CString) :
    Api ApiStatus :=
  request .reqAppendToFile ⟨flagEmpty, requestFile pathname (some buf)⟩ dirname

def lockFile (pathname : CString) : Api ApiStatus :=
  request .reqLockFile ⟨flagEmpty, requestFile pathname none⟩ none

def unlockFile (pathname : CString) : Api ApiStatus :=
  request .reqUnlockFile ⟨flagEmpty, requestFile pathname none⟩ none

def closeFile (pathname : CString) : Api ApiStatus :=
  request .reqCloseFile ⟨flagEmpty, requestFile pathname none⟩ none

def removeFile (pathname : CString) : Api ApiStatus :=
  request .reqRemoveFile ⟨flagEmpty, requestFile pathname none⟩ none

end StorageServer.Client
