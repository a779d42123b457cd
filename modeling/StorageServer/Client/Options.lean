import StorageServer.Client.ServerApi

/-! How the client handles the options that make requests. The options with priority, such as `-p`,
are handled while the command line is parsed; of them only `gIsExtendedLogEnabled` matters here.
Messages for the user are left out. -/
namespace StorageServer.Client
open Common Library.Calls

/-- The options that are kept after parsing. -/
inductive CmdLineOpt
  | writeDirReq (maxFiles : ℤ) (dirname : CString)
  | writeFileReq (files : List CString)
  | writeSave (saveDirname : CString)
  | readFileReq (files : List CString)
  | readRandReq (val : BitVec 32)
  | readSave (saveDirname : CString)
  | wait (val : ℤ)
  | lockFileReq (files : List CString)
  | unlockFileReq (files : List CString)
  | removeFileReq (files : List CString)
  | changeLogLevel (val : ℤ)
  | appendDataReq (files : List CString)

inductive Res
  | ok
  | error
  deriving DecidableEq

/-- The directory of `-D` if that is the next option. -/
def writeSaveDirname : Option CmdLineOpt → Option CString
  | some (.writeSave saveDirname) => some saveDirname
  | _ => none

/-- The directory of `-d` if that is the next option. -/
def readSaveDirname : Option CmdLineOpt → Option CString
  | some (.readSave saveDirname) => some saveDirname
  | _ => none

/-! ### One file -/

/-- Once a file is open, the request is followed by a close that only counts if it fails. -/
def closeAfter (pathname : CString) (status : ApiStatus) : Api ApiStatus := do
  let closed ← closeFile pathname
  return if closed = .failure then .failure else status

/-- Send a file after it has been opened. -/
def sendFile (openStatus : ApiStatus) (pathname : CString) (dirname : Option CString) :
    Api ApiStatus :=
  match openStatus with
  | .failure => return .failure
  | .success => do
    let status ← writeFile pathname dirname
    closeAfter pathname status

def writeFileReq (dirname : Option CString) (pathname : CString) : Api ApiStatus := do
  let status ← openFile pathname (flagCreate ||| flagLock)
  sendFile status pathname dirname

/-- Save a file that was read and closed. -/
def saveReadFile (dirname : Option CString) (pathname : CString) (buff : Option (List UInt8))
    (status : ApiStatus) : Api ApiStatus :=
  match dirname, status, buff with
  | some dirname, .success, some buff => do
    let saved ← saveAsFile dirname (requestFile pathname (some buff))
    return if saved then .success else .failure
  | _, _, _ => return status

def readFileReq (dirname : Option CString) (pathname : CString) : Api ApiStatus := do
  match ← openFile pathname flagEmpty with
  | .failure => return .failure
  | .success =>
    let buff ← readFile pathname
    let status ← closeAfter pathname (if buff.isSome then .success else .failure)
    saveReadFile dirname pathname buff status

def lockFileReq (pathname : CString) : Api ApiStatus := do
  match ← openFile pathname flagEmpty with
  | .failure => return .failure
  | .success => lockFile pathname

def unlockFileReq (pathname : CString) : Api ApiStatus := do
  let status ← unlockFile pathname
  closeAfter pathname status

def removeFileReq (pathname : CString) : Api ApiStatus := do
  match ← openFile pathname flagLock with
  | .failure => return .failure
  | .success => removeFile pathname

/-! ### Several files -/

/-- How a loop goes on after a file whose result is not printed. -/
inductive Jump
  | continues
  | breaks
  deriving DecidableEq

/-- The loop over the files of an option. -/
def forFiles (gIsExtendedLogEnabled : Bool) (jump : Jump) (body : CString → Api ApiStatus) :
    List CString → Api Unit
  | [] => return ()
  | pathname::files => do
    let _ ← body pathname
    if gIsExtendedLogEnabled = false ∧ jump = .breaks then return ()
    else forFiles gIsExtendedLogEnabled jump body files

/-- The file that `nftwExplorFunc` is called with; the result stops `nftw` if it is true. -/
def nftwExplorFunc (gNftwExploredFileLimit : ℤ) (gWriteDir : Option CString) (fpath : CString)
    (gNftwExploredFileCount : ℕ) : Api Bool := do
  let status ← openFileWithDir fpath (flagCreate ||| flagLock) gWriteDir
  let _ ← sendFile status fpath gWriteDir
  return gNftwExploredFileLimit ≠ 0 ∧ (gNftwExploredFileCount+1 : ℕ) = gNftwExploredFileLimit

/-- `nftw` goes through the entries. Only files are explored and counted. -/
def exploreFiles (gNftwExploredFileLimit : ℤ) (gWriteDir : Option CString) :
    List FtwEntry → ℕ → Api Unit
  | [], _ => return ()
  | entry::entries, gNftwExploredFileCount =>
    if entry.file = false then
      exploreFiles gNftwExploredFileLimit gWriteDir entries gNftwExploredFileCount
    else do
      let stop ← nftwExplorFunc gNftwExploredFileLimit gWriteDir entry.fpath gNftwExploredFileCount
      if stop then return ()
      else exploreFiles gNftwExploredFileLimit gWriteDir entries (gNftwExploredFileCount+1)

/-- Append a local file to a file of the server. -/
def appendDataReq (fileToRead fileToModify : CString) (dirname : Option CString) : Api Unit := do
  match ← readEntireFile fileToRead with
  | none => return ()
  | some content =>
    match ← openFile fileToModify flagEmpty with
    | .failure => return ()
    | .success =>
      let status ← appendToFile fileToModify content dirname
      let _ ← closeAfter fileToModify status
      return ()

/-- Handle an option; `next` is the one after it. -/
def handleOption (gIsExtendedLogEnabled : Bool) (option : CmdLineOpt) (next : Option CmdLineOpt) :
    Api Res :=
  match option with
  | .wait _ | .readSave _ | .writeSave _ => return .ok
  | .changeLogLevel val => return if val < 0 ∨ val > 5 then .error else .ok
  | .readRandReq val => do
    let _ ← readNFiles val (readSaveDirname next)
    return .ok
  | .writeFileReq files => do
    forFiles gIsExtendedLogEnabled .continues (writeFileReq (writeSaveDirname next)) files
    return .ok
  | .appendDataReq [fileToRead, fileToModify] => do
    appendDataReq fileToRead fileToModify none
    return .ok
  | .appendDataReq [fileToRead, fileToModify, dirname] => do
    appendDataReq fileToRead fileToModify (some dirname)
    return .ok
  | .appendDataReq _ => return .ok
  | .readFileReq files => do
    forFiles gIsExtendedLogEnabled .breaks (readFileReq (readSaveDirname next)) files
    return .ok
  | .lockFileReq files => do
    forFiles gIsExtendedLogEnabled .breaks lockFileReq files
    return .ok
  | .unlockFileReq files => do
    forFiles gIsExtendedLogEnabled .breaks unlockFileReq files
    return .ok
  | .removeFileReq files => do
    forFiles gIsExtendedLogEnabled .breaks removeFileReq files
    return .ok
  | .writeDirReq maxFiles dirname => do
    let entries ← Program.make (ClientCall.nftw dirname)
    exploreFiles maxFiles (writeSaveDirname next) entries 0
    return .ok

end StorageServer.Client
