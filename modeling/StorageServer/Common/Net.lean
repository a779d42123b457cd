import StorageServer.Common.Message
import StorageServer.Library.Bytes

/-! Messages on a socket, built without `COMPRESS_MESSAGES`. A message is sent as its size and as
many bytes: a header with the lengths and offsets of the files, then their names and contents.
Numbers are little-endian, `size_t` has eight bytes. Reading and writing go through a block of
memory that the caller keeps; an access outside of a block is `none`, and so is the end of the
process when no memory is left. -/
namespace StorageServer.Common
open Library.Bytes

namespace SockMessageType

def code : SockMessageType → BitVec 32
  | none => 0
  | reqOpenSession => 1
  | reqCloseSession => 2
  | reqOpenFile => 3
  | reqCloseFile => 4
  | reqReadFile => 5
  | reqLockFile => 6
  | reqUnlockFile => 7
  | reqRemoveFile => 8
  | reqReadNFiles => 9
  | reqWriteFile => 10
  | reqAppendToFile => 11
  | respSimple => 20
  | respWithFiles => 21
  | other code => code.val

def ofCode (code : BitVec 32) : SockMessageType :=
  if h : UnknownType code then other ⟨code, h⟩
  else match code.toNat with
    | 0 => none
    | 1 => reqOpenSession
    | 2 => reqCloseSession
    | 3 => reqOpenFile
    | 4 => reqCloseFile
    | 5 => reqReadFile
    | 6 => reqLockFile
    | 7 => reqUnlockFile
    | 8 => reqRemoveFile
    | 9 => reqReadNFiles
    | 10 => reqWriteFile
    | 11 => reqAppendToFile
    | 20 => respSimple
    | _ => respWithFiles

end SockMessageType

namespace RespStatus

def code : RespStatus → BitVec 32
  | none => 0
  | ok => 1
  | genericError => 2
  | notPermitted => 3
  | invalidArg => 4
  | notFound => 5
  | other code => code.val

def ofCode (code : BitVec 32) : RespStatus :=
  if h : 5 < code.toNat then other ⟨code, h⟩
  else match code.toNat with
    | 0 => none
    | 1 => ok
    | 2 => genericError
    | 3 => notPermitted
    | 4 => invalidArg
    | _ => notFound

end RespStatus

/-! ### Blocks of memory -/

/-- A block of memory whose size is a `size_t`; the null pointer is the block of size zero. -/
structure Block where
  data : List UInt8
  size_lt : data.length < 2^64
  deriving DecidableEq

namespace Block

def size (buf : Block) : ℕ := buf.data.length

def ofData (data : List UInt8) : Option Block :=
  if h : data.length < 2^64 then some ⟨data, h⟩ else none

/-- Grow a block to a size. -/
def realloc (heap : Heap) (buf : Block) (newSize : ℕ) : Option Block := do
  heap.alloc newSize
  ofData (buf.data.take newSize ++ (List.range (newSize - buf.size)).map heap.fresh)

/-- Adjust a block to a message, if needed. -/
def fit (heap : Heap) (buf : Block) (msgSize : ℕ) : Option Block :=
  if msgSize > buf.size then buf.realloc heap msgSize else some buf

end Block

abbrev writeToBuffer (data : List UInt8) (buf : Cursor) : Option Cursor := buf.write data

abbrev readFromBuffer (size : ℕ) (buf : Cursor) : Option (List UInt8 × Cursor) := buf.read size

/-! ### Writing -/

/-- The count of the files is multiplied by 4 as an `int`. -/
def calcMsgSize (msg : SockMessage) : ℕ :=
  let totalSize := 16 + 4
  match msg.type with
  | .reqReadNFiles => totalSize + 4
  | .reqOpenFile | .reqCloseFile | .reqReadFile | .reqLockFile | .reqUnlockFile | .reqRemoveFile
  | .reqWriteFile | .reqAppendToFile =>
    toSize (totalSize + 4 + 4 * 8 + msg.request.file.filenameLen + msg.request.file.contentLen)
  | .respSimple => totalSize + 4
  | .respWithFiles =>
    let numFiles := msg.response.files.length
    msg.response.files.foldl
      (fun totalSize file => toSize (totalSize + file.filenameLen + file.contentLen))
      (toSize (totalSize + 4 + 4 + toSize (toInt (numFiles * 4)) * 8))
  | .reqOpenSession | .reqCloseSession | .none | .other _ => totalSize

/-- The lengths of a file and where its name and content will be. The running index is a `size_t`,
of which eight bytes are written. -/
def writeFileHeader (file : MsgFile) (rawBufferIndex : ℕ) (buffer : Cursor) :
    Option (ℕ × Cursor) := do
  let buffer ← writeToBuffer (toBytes 8 file.filenameLen) buffer
  let buffer ← writeToBuffer (toBytes 8 rawBufferIndex) buffer
  let rawBufferIndex := rawBufferIndex + file.filenameLen
  let buffer ← writeToBuffer (toBytes 8 file.contentLen) buffer
  let buffer ← writeToBuffer (toBytes 8 rawBufferIndex) buffer
  return (rawBufferIndex + file.contentLen, buffer)

def writeFileHeaders : List MsgFile → ℕ → Cursor → Option Cursor
  | [], _, buffer => some buffer
  | file::files, rawBufferIndex, buffer => do
    let (rawBufferIndex, buffer) ← writeFileHeader file rawBufferIndex buffer
    writeFileHeaders files rawBufferIndex buffer

def writeBody (msg : SockMessage) (buffer : Cursor) : Option Cursor :=
  match msg.type with
  | .reqOpenSession | .reqCloseSession => some buffer
  | .reqReadNFiles => writeToBuffer (toBytes 4 msg.request.flags.toNat) buffer
  | .reqOpenFile | .reqCloseFile | .reqReadFile | .reqLockFile | .reqUnlockFile | .reqRemoveFile
  | .reqWriteFile | .reqAppendToFile => do
    let buffer ← writeToBuffer (toBytes 4 msg.request.flags.toNat) buffer
    writeFileHeaders [msg.request.file] 0 buffer
  | .respSimple => writeToBuffer (toBytes 4 msg.response.status.code.toNat) buffer
  | .respWithFiles => do
    let buffer ← writeToBuffer (toBytes 4 msg.response.status.code.toNat) buffer
    let buffer ← writeToBuffer (toBytes 4 msg.response.files.length) buffer
    writeFileHeaders msg.response.files 0 buffer
  | .none | .other _ => some buffer

def writeRawContents : List MsgFile → Cursor → Option Cursor
  | [], rawbuffer => some rawbuffer
  | file::files, rawbuffer => do
    let rawbuffer ← writeToBuffer (file.filename.getD []) rawbuffer
    let rawbuffer ← writeToBuffer (file.content.getD []) rawbuffer
    writeRawContents files rawbuffer

def writeRawContent (msg : SockMessage) (rawbuffer : Cursor) : Option Cursor :=
  match msg.type with
  | .reqOpenFile | .reqCloseFile | .reqReadFile | .reqLockFile | .reqUnlockFile | .reqRemoveFile
  | .reqWriteFile | .reqAppendToFile => writeRawContents [msg.request.file] rawbuffer
  | .respWithFiles => writeRawContents msg.response.files rawbuffer
  | .reqOpenSession | .reqCloseSession | .reqReadNFiles | .respSimple | .none | .other _ =>
    some rawbuffer

/-- The part of `writeMessage` that writes into the buffer. -/
def serialise (msg : SockMessage) (buffer : Cursor) : Option Cursor := do
  let buffer ← writeToBuffer msg.uid.toList buffer
  let buffer ← writeToBuffer (toBytes 4 msg.type.code.toNat) buffer
  let buffer ← writeBody msg buffer
  writeRawContent msg buffer

theorem toSize_lt (x : ℤ) : toSize x < 2^64 := by
  unfold toSize
  omega

theorem calcMsgSize_lt (msg : SockMessage) : calcMsgSize msg < 2^64 := by
  have hfold : ∀ (files : List MsgFile) (n : ℕ), n < 2^64 → files.foldl
      (fun totalSize file => toSize (totalSize + file.filenameLen + file.contentLen)) n < 2^64 := by
    intro files
    induction files with
    | nil => exact fun _ h => h
    | cons file files ih => exact fun _ _ => ih _ (toSize_lt _)
  unfold calcMsgSize
  dsimp only
  split
  case h_11 => exact hfold _ _ (toSize_lt _)
  all_goals first | exact toSize_lt _ | decide

/-- The bytes written to the socket, and the buffer for the next message. -/
def writeMessage (heap : Heap) (buf : Block) (msg : SockMessage) :
    Option (List UInt8 × Block) := do
  let msgSize := calcMsgSize msg
  let buf ← buf.fit heap msgSize
  let buffer ← serialise msg (.start buf.data)
  let buf ← Block.ofData buffer.data
  return (toBytes 8 msgSize ++ buf.data.take msgSize, buf)

/-! ### Reading -/

/-- A union: first an offset, then a pointer into the raw content or null. -/
inductive WirePtr
  | i (i : ℕ)
  | ptr (begin : Option ℕ)
  deriving DecidableEq

structure WireFile where
  filenameLen : ℕ
  filename : WirePtr
  contentLen : ℕ
  content : WirePtr
  deriving DecidableEq

/-- A message as it lies in memory; no raw content is the null pointer. -/
structure WireMessage where
  uid : UUID
  type : SockMessageType
  flags : BitVec 32
  file : WireFile
  status : RespStatus
  numFiles : ℤ
  files : List WireFile
  rawContent : List UInt8
  deriving DecidableEq

/-- Eight bytes as a `size_t`. -/
def readSize (buffer : Cursor) : Option (ℕ × Cursor) := do
  let (data, buffer) ← readFromBuffer 8 buffer
  return (ofBytes data, buffer)

/-- Four bytes as they are. -/
def readInt (buffer : Cursor) : Option (BitVec 32 × Cursor) := do
  let (data, buffer) ← readFromBuffer 4 buffer
  return (BitVec.ofNat 32 (ofBytes data), buffer)

def readFileHeader (buffer : Cursor) : Option (WireFile × Cursor) := do
  let (filenameLen, buffer) ← readSize buffer
  let (filename, buffer) ← readSize buffer
  let (contentLen, buffer) ← readSize buffer
  let (content, buffer) ← readSize buffer
  return (⟨filenameLen, .i filename, contentLen, .i content⟩, buffer)

def readFileHeaders : ℕ → Cursor → Option (List WireFile × Cursor)
  | 0, buffer => some ([], buffer)
  | n+1, buffer => do
    let (file, buffer) ← readFileHeader buffer
    let (files, buffer) ← readFileHeaders n buffer
    return (file::files, buffer)

def readBody (heap : Heap) (msg : WireMessage) (buffer : Cursor) :
    Option (WireMessage × Cursor) :=
  match msg.type with
  | .reqOpenSession | .reqCloseSession => some (msg, buffer)
  | .reqReadNFiles => do
    let (flags, buffer) ← readInt buffer
    return ({ msg with flags := flags }, buffer)
  | .reqOpenFile | .reqCloseFile | .reqReadFile | .reqLockFile | .reqUnlockFile | .reqRemoveFile
  | .reqWriteFile | .reqAppendToFile => do
    let (flags, buffer) ← readInt buffer
    let (file, buffer) ← readFileHeader buffer
    return ({ msg with flags := flags, file := file }, buffer)
  | .respSimple => do
    let (status, buffer) ← readInt buffer
    return ({ msg with status := .ofCode status }, buffer)
  | .respWithFiles => do
    let (status, buffer) ← readInt buffer
    let (numFiles, buffer) ← readInt buffer
    -- a negative count is a count of no files
    heap.allocArray numFiles.toInt.toNat 32
    let (files, buffer) ← readFileHeaders numFiles.toInt.toNat buffer
    return ({ msg with status := .ofCode status, numFiles := numFiles.toInt, files := files },
      buffer)
  | .none | .other _ => some (msg, buffer)

/-- The identifier, the type and the body. -/
def readHeader (heap : Heap) (msg : WireMessage) (buffer : Cursor) :
    Option (WireMessage × Cursor) := do
  let (uid, buffer) ← readFromBuffer 16 buffer
  let (type, buffer) ← readInt buffer
  readBody heap { msg with uid := Vector.ofFn (fun i => uid.getD i 0), type := .ofCode type } buffer

def convertOffsetToPtr (isNotNull : ℕ) : WirePtr → WirePtr
  | .i i => .ptr (if isNotNull = 0 then none else some i)
  | .ptr p => .ptr p

def WireFile.updatePtrs (file : WireFile) : WireFile :=
  { file with
    filename := convertOffsetToPtr file.filenameLen file.filename
    content := convertOffsetToPtr file.contentLen file.content }

def updatePtrs (msg : WireMessage) : WireMessage :=
  match msg.type with
  | .reqOpenFile | .reqCloseFile | .reqReadFile | .reqLockFile | .reqUnlockFile | .reqRemoveFile
  | .reqWriteFile | .reqAppendToFile => { msg with file := msg.file.updatePtrs }
  | .respWithFiles => { msg with files := msg.files.map WireFile.updatePtrs }
  | .reqOpenSession | .reqCloseSession | .reqReadNFiles | .respSimple | .none | .other _ => msg

/-- Read `size` bytes of a stream, which come in pieces; `none` is the end of the stream. -/
def readN (stream : List UInt8) (size : ℕ) : Option (List UInt8 × List UInt8) :=
  if size ≤ stream.length then some (stream.take size, stream.drop size) else none

/-- The message at the beginning of the buffer, whose frame has `msgSize` bytes. The number of raw
bytes is a difference of type `size_t`. -/
def decodeMessage (heap : Heap) (msgSize : ℕ) (buf : Block) (msg : WireMessage) :
    Option WireMessage := do
  let (msg, buffer) ← readHeader heap msg (.start buf.data)
  let rawBytes := toSize (msgSize - buffer.pos)
  heap.allocArray rawBytes 1
  let (rawContent, _) ← readFromBuffer rawBytes buffer
  return updatePtrs { msg with rawContent := rawContent }

/-- What `readMessage` returns (0 at the end of the stream) and leaves behind. -/
structure ReadOutcome where
  res : ℕ
  msg : WireMessage
  buf : Block
  stream : List UInt8

def readMessage (heap : Heap) (stream : List UInt8) (buf : Block) (msg : WireMessage) :
    Option ReadOutcome :=
  match readN stream 8 with
  | none => some ⟨0, msg, buf, []⟩
  | some (size, stream) => do
    let msgSize := ofBytes size
    let buf ← buf.fit heap msgSize
    match readN stream msgSize with
    | none =>
      let buf ← Block.ofData
        (stream ++ List.replicate (msgSize - stream.length) 0 ++ buf.data.drop msgSize)
      return ⟨0, msg, buf, []⟩
    | some (frame, stream) =>
      let buf ← Block.ofData (frame ++ buf.data.drop msgSize)
      let msg ← decodeMessage heap msgSize buf msg
      return ⟨msgSize, msg, buf, stream⟩

end StorageServer.Common
