import StorageServer.Common.Decoding

/-! The round trip of messages. What is written is one list of bytes, a function of the message;
decoding its header gives back the lengths and offsets, and the offsets cut the names and contents
out of the rest. -/
namespace StorageServer.Common
open Library.Bytes

/-! ### The bytes of a message -/

/-- The files that are sent with a message. -/
def SockMessage.attached (msg : SockMessage) : List MsgFile :=
  match msg.type.body with
  | .file => [msg.request.file]
  | .files => msg.response.files
  | .bare | .flags | .status => []

def MsgFile.raw (file : MsgFile) : List UInt8 := file.filename.getD [] ++ file.content.getD []

def rawOf (files : List MsgFile) : List UInt8 := files.flatMap MsgFile.raw

def fileHeader (rawBufferIndex : ℕ) (file : MsgFile) : List UInt8 :=
  toBytes 8 file.filenameLen ++ (toBytes 8 rawBufferIndex ++
    (toBytes 8 file.contentLen ++ toBytes 8 (rawBufferIndex + file.filenameLen)))

def fileHeaders (rawBufferIndex : ℕ) : List MsgFile → List UInt8
  | [] => []
  | file::files =>
    fileHeader rawBufferIndex file ++
      fileHeaders (rawBufferIndex + file.filenameLen + file.contentLen) files

namespace SockMessage

def bodyBytes (msg : SockMessage) : List UInt8 :=
  match msg.type.body with
  | .bare => []
  | .flags => toBytes 4 msg.request.flags.toNat
  | .file => toBytes 4 msg.request.flags.toNat ++ fileHeaders 0 msg.attached
  | .status => toBytes 4 msg.response.status.code.toNat
  | .files =>
    toBytes 4 msg.response.status.code.toNat ++
      (toBytes 4 msg.response.files.length ++ fileHeaders 0 msg.attached)

def encode (msg : SockMessage) : List UInt8 :=
  msg.uid.toList ++ (toBytes 4 msg.type.code.toNat ++ (msg.bodyBytes ++ rawOf msg.attached))

end SockMessage

/-! ### Writing is writing these bytes -/

theorem writeFileHeader_eq (file : MsgFile) (rawBufferIndex : ℕ) (c : Cursor) :
    writeFileHeader file rawBufferIndex c = c.write (fileHeader rawBufferIndex file) >>=
      fun c => some (rawBufferIndex + file.filenameLen + file.contentLen, c) := by
  have happend : ∀ xs ys, Cursor.write (xs ++ ys) = fun c => c.write xs >>= Cursor.write ys :=
    fun xs ys => funext (Cursor.write_append xs ys)
  simp only [fileHeader, happend, writeFileHeader, bind_assoc]
  rfl

theorem writes_writeFileHeaders (files : List MsgFile) (rawBufferIndex : ℕ) :
    Writes (writeFileHeaders files rawBufferIndex) (fileHeaders rawBufferIndex files) := by
  induction files generalizing rawBufferIndex with
  | nil => exact Writes.nothing
  | cons file files ih =>
    intro c
    have h := (Writes.write (fileHeader rawBufferIndex file)).bind
      (ih (rawBufferIndex + file.filenameLen + file.contentLen)) c
    rw [fileHeaders, ← h, writeFileHeaders, writeFileHeader_eq]
    simp only [bind_assoc]
    rfl

theorem writes_writeRawContents (files : List MsgFile) :
    Writes (writeRawContents files) (rawOf files) := by
  induction files with
  | nil => exact Writes.nothing
  | cons file files ih =>
    have h := (Writes.write (file.filename.getD [])).bind
      ((Writes.write (file.content.getD [])).bind ih)
    rw [← List.append_assoc] at h
    exact h

theorem writes_writeBody (msg : SockMessage) : Writes (writeBody msg) msg.bodyBytes := by
  obtain ⟨uid, type, request, response⟩ := msg
  cases type with
  | none | other | reqOpenSession | reqCloseSession => exact Writes.nothing
  | reqReadNFiles | respSimple => exact Writes.write _
  | reqOpenFile | reqCloseFile | reqReadFile | reqLockFile | reqUnlockFile | reqRemoveFile
  | reqWriteFile | reqAppendToFile =>
    exact (Writes.write _).bind (writes_writeFileHeaders [request.file] 0)
  | respWithFiles =>
    exact (Writes.write _).bind ((Writes.write _).bind (writes_writeFileHeaders response.files 0))

theorem writes_writeRawContent (msg : SockMessage) :
    Writes (writeRawContent msg) (rawOf msg.attached) := by
  obtain ⟨uid, type, request, response⟩ := msg
  cases type with
  | none | other | reqOpenSession | reqCloseSession | reqReadNFiles | respSimple =>
    exact Writes.nothing
  | reqOpenFile | reqCloseFile | reqReadFile | reqLockFile | reqUnlockFile | reqRemoveFile
  | reqWriteFile | reqAppendToFile => exact writes_writeRawContents [request.file]
  | respWithFiles => exact writes_writeRawContents response.files

theorem writes_serialise (msg : SockMessage) : Writes (serialise msg) msg.encode :=
  (Writes.write _).bind ((Writes.write _).bind
    ((writes_writeBody msg).bind (writes_writeRawContent msg)))

/-! ### Their number -/

theorem length_raw (file : MsgFile) : file.raw.length = file.filenameLen + file.contentLen :=
  List.length_append

@[simp] theorem length_fileHeader (rawBufferIndex : ℕ) (file : MsgFile) :
    (fileHeader rawBufferIndex file).length = 32 := by
  simp [fileHeader]

@[simp] theorem length_fileHeaders (rawBufferIndex : ℕ) (files : List MsgFile) :
    (fileHeaders rawBufferIndex files).length = files.length * 32 := by
  induction files generalizing rawBufferIndex with
  | nil => rfl
  | cons file files ih =>
    rw [fileHeaders, List.length_append, length_fileHeader, ih, List.length_cons]
    omega

namespace SockMessage
variable {msg : SockMessage}

theorem length_bodyBytes (msg : SockMessage) : 20 + msg.bodyBytes.length =
    match msg.type.body with
    | .bare => 20
    | .flags => 24
    | .file => 56
    | .status => 24
    | .files => 28 + msg.response.files.length * 32 := by
  unfold bodyBytes attached
  cases msg.type.body with
  | files =>
    simp only [List.length_append, length_toBytes, length_fileHeaders]
    omega
  | bare | flags | file | status => simp

theorem length_encode (msg : SockMessage) :
    msg.encode.length = 20 + msg.bodyBytes.length + (rawOf msg.attached).length := by
  have huid : msg.uid.toList.length = 16 := by simp
  simp only [encode, List.length_append, length_toBytes, huid]
  omega

end SockMessage

/-! ### Decoding them -/

theorem frameInt_between (pre : List UInt8) {i : ℕ} (hi : pre.length = i) (x : BitVec 32)
    (post : List UInt8) : frameInt (pre ++ (toBytes 4 x.toNat ++ post)) i = x := by
  rw [frameInt, slice_between pre hi (length_toBytes ..), ofBytes_toBytes_of_lt x.isLt,
    BitVec.ofNat_toNat, BitVec.setWidth_eq]

/-- The header of a file as it is read. -/
def headerOf (rawBufferIndex : ℕ) (file : MsgFile) : WireFile where
  filenameLen := file.filenameLen
  filename := .i rawBufferIndex
  contentLen := file.contentLen
  content := .i (rawBufferIndex + file.filenameLen)

def headersOf (rawBufferIndex : ℕ) : List MsgFile → List WireFile
  | [] => []
  | file::files =>
    headerOf rawBufferIndex file ::
      headersOf (rawBufferIndex + file.filenameLen + file.contentLen) files

theorem decodeFile_fileHeader {rawBufferIndex : ℕ} {file : MsgFile}
    (h : rawBufferIndex + file.raw.length < 2^64) (rest : List UInt8) :
    decodeFile (fileHeader rawBufferIndex file ++ rest) = headerOf rawBufferIndex file := by
  rw [length_raw] at h
  have hsize : ∀ x, x ≤ rawBufferIndex + (file.filenameLen + file.contentLen) →
      ofBytes (toBytes 8 x) = x := fun x hx => ofBytes_toBytes_of_lt (by omega)
  have h0 : slice (fileHeader rawBufferIndex file ++ rest) 0 8 = toBytes 8 file.filenameLen := by
    rw [fileHeader, List.append_assoc]
    exact slice_between [] rfl (length_toBytes ..) _
  have h8 : slice (fileHeader rawBufferIndex file ++ rest) 8 8 = toBytes 8 rawBufferIndex := by
    rw [fileHeader, List.append_assoc, List.append_assoc]
    exact slice_between _ (length_toBytes ..) (length_toBytes ..) _
  have h16 : slice (fileHeader rawBufferIndex file ++ rest) 16 8 = toBytes 8 file.contentLen := by
    rw [fileHeader, List.append_assoc, List.append_assoc, List.append_assoc, ← List.append_assoc]
    exact slice_between _ (by simp) (length_toBytes ..) _
  have h24 : slice (fileHeader rawBufferIndex file ++ rest) 24 8 =
      toBytes 8 (rawBufferIndex + file.filenameLen) := by
    rw [fileHeader, List.append_assoc, List.append_assoc, List.append_assoc, ← List.append_assoc,
      ← List.append_assoc]
    exact slice_between _ (by simp) (length_toBytes ..) _
  rw [decodeFile, h0, h8, h16, h24, hsize _ (by omega), hsize _ (by omega), hsize _ (by omega),
    hsize _ (by omega)]
  rfl

theorem decodeFiles_fileHeaders (rawBufferIndex : ℕ) (files : List MsgFile)
    (h : rawBufferIndex + (rawOf files).length < 2^64) (rest : List UInt8) :
    decodeFiles files.length (fileHeaders rawBufferIndex files ++ rest) =
      headersOf rawBufferIndex files := by
  induction files generalizing rawBufferIndex with
  | nil => rfl
  | cons file files ih =>
    rw [rawOf, List.flatMap_cons, List.length_append] at h
    have hraw := length_raw file
    have hdrop : (fileHeader rawBufferIndex file ++ (fileHeaders
        (rawBufferIndex + file.filenameLen + file.contentLen) files ++ rest)).drop 32 = _ :=
      List.drop_left' (length_fileHeader rawBufferIndex file)
    rw [fileHeaders, headersOf, List.length_cons, decodeFiles, List.append_assoc,
      decodeFile_fileHeader (by omega), hdrop, ih _ (by rw [rawOf]; omega)]

theorem SockMessageType.ofCode_code (type : SockMessageType) : ofCode type.code = type := by
  cases type with
  | other code => exact dif_pos code.property
  | none | reqOpenSession | reqCloseSession | reqOpenFile | reqCloseFile | reqReadFile
  | reqLockFile | reqUnlockFile | reqRemoveFile | reqReadNFiles | reqWriteFile | reqAppendToFile
  | respSimple | respWithFiles => rfl

theorem RespStatus.ofCode_code (status : RespStatus) : ofCode status.code = status := by
  cases status with
  | other code => exact dif_pos code.property
  | none | ok | genericError | notPermitted | invalidArg | notFound => rfl

/-! ### What is received -/

/-- The bytes that a pointer into the raw content stands for. -/
def WirePtr.bytes (raw : List UInt8) (len : ℕ) : WirePtr → MsgPtr
  | .ptr (some offset) => some (slice raw offset len)
  | .ptr none | .i _ => none

def WireFile.toMsgFile (raw : List UInt8) (file : WireFile) : MsgFile where
  filename := file.filename.bytes raw file.filenameLen
  content := file.content.bytes raw file.contentLen

/-- The message that lies in memory, with the fields that its type uses. -/
def WireMessage.toSockMessage (msg : WireMessage) : SockMessage :=
  match msg.type.body with
  | .bare => { uid := msg.uid, type := msg.type }
  | .flags => { uid := msg.uid, type := msg.type, request := ⟨msg.flags, ⟨none,none⟩⟩ }
  | .file =>
    { uid := msg.uid, type := msg.type
      request := ⟨msg.flags, msg.file.toMsgFile msg.rawContent⟩ }
  | .status => { uid := msg.uid, type := msg.type, response := ⟨msg.status, []⟩ }
  | .files =>
    { uid := msg.uid, type := msg.type
      response := ⟨msg.status, msg.files.map (WireFile.toMsgFile msg.rawContent)⟩ }

/-- An empty name or content is received as the null pointer. -/
def nullIfEmpty (p : MsgPtr) : MsgPtr := if p.getD [] = [] then none else p

def MsgFile.received (file : MsgFile) : MsgFile where
  filename := nullIfEmpty file.filename
  content := nullIfEmpty file.content

/-- What is left of a message at the other end: the fields that its type uses. -/
def SockMessage.received (msg : SockMessage) : SockMessage :=
  match msg.type.body with
  | .bare => { uid := msg.uid, type := msg.type }
  | .flags => { uid := msg.uid, type := msg.type, request := ⟨msg.request.flags, ⟨none,none⟩⟩ }
  | .file =>
    { uid := msg.uid, type := msg.type
      request := ⟨msg.request.flags, msg.request.file.received⟩ }
  | .status => { uid := msg.uid, type := msg.type, response := ⟨msg.response.status, []⟩ }
  | .files =>
    { uid := msg.uid, type := msg.type
      response := ⟨msg.response.status, msg.response.files.map MsgFile.received⟩ }

theorem bytes_convertOffsetToPtr (p : MsgPtr) (pre post : List UInt8) :
    (convertOffsetToPtr (p.getD []).length (.i pre.length)).bytes (pre ++ (p.getD [] ++ post))
      (p.getD []).length = nullIfEmpty p := by
  change (WirePtr.ptr (if (p.getD []).length = 0 then none else some pre.length)).bytes _ _ =
    if p.getD [] = [] then none else p
  by_cases h : p.getD [] = []
  · rw [if_pos h, if_pos (List.length_eq_zero_iff.mpr h)]
    rfl
  · rw [if_neg h, if_neg fun h0 => h (List.length_eq_zero_iff.mp h0)]
    change some (slice _ _ _) = p
    rw [slice_between _ rfl rfl]
    cases p with
    | none => exact absurd rfl h
    | some bs => rfl

/-- The offsets cut the names and contents out of the raw content. -/
theorem toMsgFile_headersOf (pre : List UInt8) (files : List MsgFile) :
    (headersOf pre.length files).map (fun file => file.updatePtrs.toMsgFile (pre ++ rawOf files)) =
      files.map MsgFile.received := by
  induction files generalizing pre with
  | nil => rfl
  | cons file files ih =>
    have hname := bytes_convertOffsetToPtr file.filename pre (file.content.getD [] ++ rawOf files)
    have hcontent := bytes_convertOffsetToPtr file.content (pre ++ file.filename.getD [])
      (rawOf files)
    have hraw : pre ++ rawOf (file::files) =
        pre ++ (file.filename.getD [] ++ (file.content.getD [] ++ rawOf files)) := by
      rw [rawOf, List.flatMap_cons, MsgFile.raw, List.append_assoc]
      rfl
    have hrest := ih (pre ++ (file.filename.getD [] ++ file.content.getD []))
    rw [headersOf, List.map_cons, List.map_cons]
    refine congrArg₂ List.cons ?_ ?_
    · rw [hraw]
      rw [List.append_assoc, List.length_append] at hcontent
      exact congrArg₂ MsgFile.mk hname hcontent
    · rw [hraw, ← List.append_assoc (file.filename.getD []), ← List.append_assoc pre]
      rw [List.length_append, List.length_append, ← Nat.add_assoc] at hrest
      exact hrest

theorem updatePtrs_eq (msg : WireMessage) : updatePtrs msg =
    match msg.type.body with
    | .file => { msg with file := msg.file.updatePtrs }
    | .files => { msg with files := msg.files.map WireFile.updatePtrs }
    | .bare | .flags | .status => msg := by
  obtain ⟨uid, type, flags, file, status, numFiles, files, rawContent⟩ := msg
  cases type <;> rfl

/-! ### The round trip -/

/-- The count of the files is an `int` and the total length of names and contents a `size_t`. -/
structure Representable (msg : SockMessage) : Prop where
  numFiles_lt : msg.type = .respWithFiles → msg.response.files.length < 2^31
  raw_lt : (rawOf msg.attached).length < 2^64

section Decode
variable {msg : SockMessage}

theorem numFiles_lt (h : Representable msg) (hb : msg.type.body = .files) :
    msg.response.files.length < 2^31 := by
  refine h.numFiles_lt ?_
  cases ht : msg.type with
  | respWithFiles => rfl
  | _ => rw [ht] at hb; cases hb

theorem encode_drop_20 (msg : SockMessage) :
    msg.encode.drop 20 = msg.bodyBytes ++ rawOf msg.attached := by
  rw [SockMessage.encode, ← List.append_assoc]
  exact List.drop_left' (by simp)

theorem frameInt_encode (msg : SockMessage) (i : ℕ) :
    frameInt msg.encode (20 + i) = frameInt (msg.bodyBytes ++ rawOf msg.attached) i := by
  rw [← encode_drop_20, frameInt_drop]

theorem frameType_encode (msg : SockMessage) : frameType msg.encode = msg.type := by
  rw [frameType, SockMessage.encode, frameInt_between _ (by simp), SockMessageType.ofCode_code]

theorem frameInt_status (msg : SockMessage) (x : BitVec 32) (rest : List UInt8)
    (h : msg.bodyBytes = toBytes 4 x.toNat ++ rest) : frameInt msg.encode 20 = x := by
  rw [frameInt_encode msg 0, h, List.append_assoc]
  exact frameInt_between [] rfl x _

theorem frameInt_count (h : Representable msg) (hb : msg.type.body = .files) :
    (frameInt msg.encode 24).toInt = msg.response.files.length := by
  have hn := numFiles_lt h hb
  have hx : (BitVec.ofNat 32 msg.response.files.length).toNat = msg.response.files.length := by
    rw [BitVec.toNat_ofNat]
    omega
  have hint : frameInt msg.encode 24 = BitVec.ofNat 32 msg.response.files.length := by
    rw [frameInt_encode msg 4, SockMessage.bodyBytes, hb]
    dsimp only
    rw [← hx, List.append_assoc, List.append_assoc, hx]
    have hbetween := frameInt_between (toBytes 4 msg.response.status.code.toNat)
      (length_toBytes ..) (BitVec.ofNat 32 msg.response.files.length)
      (fileHeaders 0 msg.attached ++ rawOf msg.attached)
    rwa [hx] at hbetween
  rw [hint, BitVec.toInt_eq_toNat_bmod, hx]
  exact Int.bmod_eq_of_le (by omega) (by omega)

theorem headerLength_encode (h : Representable msg) :
    headerLength msg.encode = 20 + msg.bodyBytes.length := by
  rw [headerLength, frameType_encode, msg.length_bodyBytes]
  cases hb : msg.type.body with
  | files =>
    dsimp only
    rw [frameCount, frameInt_count h hb, Int.toNat_natCast]
  | bare | flags | file | status => rfl

theorem encode_drop_header (msg : SockMessage) :
    msg.encode.drop (20 + msg.bodyBytes.length) = rawOf msg.attached := by
  rw [← List.drop_drop, encode_drop_20, List.drop_left]

theorem uid_encode (msg : SockMessage) :
    Vector.ofFn (fun i : Fin 16 => (slice msg.encode 0 16).getD i 0) = msg.uid := by
  have hslice : slice msg.encode 0 16 = msg.uid.toList := by
    rw [SockMessage.encode]
    exact slice_between [] rfl (by simp) _
  rw [hslice]
  ext i hi
  simp

/-- What is read from the bytes of a message is the message. -/
theorem toSockMessage_decode (h : Representable msg) (before : WireMessage) :
    (updatePtrs { decodeHeader msg.encode before with
      rawContent := msg.encode.drop (headerLength msg.encode) }).toSockMessage = msg.received := by
  rw [headerLength_encode h, encode_drop_header, updatePtrs_eq, decodeHeader, uid_encode,
    frameType_encode, SockMessage.received]
  cases hb : msg.type.body with
  | bare => simp only [hb, WireMessage.toSockMessage]
  | flags =>
    have hflags := frameInt_status msg msg.request.flags [] (by
      rw [SockMessage.bodyBytes, hb, List.append_nil])
    simp only [hb, WireMessage.toSockMessage, hflags]
  | status =>
    have hstatus := frameInt_status msg msg.response.status.code [] (by
      rw [SockMessage.bodyBytes, hb, List.append_nil])
    simp only [hb, WireMessage.toSockMessage, hstatus, RespStatus.ofCode_code]
  | file =>
    have hflags := frameInt_status msg msg.request.flags (fileHeaders 0 msg.attached) (by
      rw [SockMessage.bodyBytes, hb])
    have hfiles : msg.attached = [msg.request.file] := by rw [SockMessage.attached, hb]
    have hdrop : msg.encode.drop 24 = fileHeaders 0 msg.attached ++ rawOf msg.attached := by
      change msg.encode.drop (20 + 4) = _
      rw [← List.drop_drop, encode_drop_20, SockMessage.bodyBytes, hb]
      dsimp only
      rw [List.append_assoc]
      exact List.drop_left' (length_toBytes ..)
    have hraw := h.raw_lt
    have hfile : decodeFile (msg.encode.drop 24) = headerOf 0 msg.request.file := by
      have hone := decodeFiles_fileHeaders 0 msg.attached
        (by omega) (rawOf msg.attached)
      rw [← hdrop, hfiles] at hone
      exact (List.cons_eq_cons.mp hone).1
    have hcut := toMsgFile_headersOf [] msg.attached
    rw [hfiles] at hcut
    have hcut := (List.cons_eq_cons.mp hcut).1
    rw [List.nil_append] at hcut
    simp only [hb, WireMessage.toSockMessage, hflags, hfile, hfiles]
    rw [← hcut]
    rfl
  | files =>
    have hstatus := frameInt_status msg msg.response.status.code
      (toBytes 4 msg.response.files.length ++ fileHeaders 0 msg.attached) (by
        rw [SockMessage.bodyBytes, hb])
    have hfiles : msg.attached = msg.response.files := by rw [SockMessage.attached, hb]
    have hdrop : msg.encode.drop 28 = fileHeaders 0 msg.attached ++ rawOf msg.attached := by
      change msg.encode.drop (20 + 8) = _
      rw [← List.drop_drop, encode_drop_20, SockMessage.bodyBytes, hb]
      dsimp only
      rw [← List.append_assoc, List.append_assoc]
      exact List.drop_left' (by simp)
    have hraw := h.raw_lt
    have hdecode := decodeFiles_fileHeaders 0 msg.attached
      (by omega) (rawOf msg.attached)
    have hcut := toMsgFile_headersOf [] msg.attached
    rw [List.nil_append] at hcut
    rw [hfiles] at hdrop hdecode hcut
    simp only [hb, WireMessage.toSockMessage, hstatus, RespStatus.ofCode_code, frameCount,
      frameInt_count h hb, Int.toNat_natCast, hdrop, hdecode, hfiles, List.map_map]
    rw [← hcut]
    rfl

/-! ### The size that is sent -/

theorem toSize_natCast (n : ℕ) : toSize n = n % 2^64 := by
  unfold toSize
  omega

theorem foldl_toSize (files : List MsgFile) (n : ℕ) :
    files.foldl (fun totalSize file => toSize (totalSize + file.filenameLen + file.contentLen))
      (n % 2^64) = (n + (rawOf files).length) % 2^64 := by
  induction files generalizing n with
  | nil => rfl
  | cons file files ih =>
    have hraw := length_raw file
    have hstep : toSize ((n % 2^64 : ℕ) + file.filenameLen + file.contentLen) =
        (n + file.raw.length) % 2^64 := by
      rw [← Nat.cast_add, ← Nat.cast_add, toSize_natCast]
      omega
    rw [List.foldl_cons, hstep, ih, rawOf, rawOf, List.flatMap_cons, List.length_append,
      Nat.add_assoc]

theorem calcMsgSize_files (ht : msg.type = .respWithFiles) :
    calcMsgSize msg = (28 + toSize (toInt (msg.response.files.length * 4)) * 8 +
      (rawOf msg.attached).length) % 2^64 := by
  have hfiles : msg.attached = msg.response.files := by rw [SockMessage.attached, ht]; rfl
  have hhead : toSize ((16 + 4 : ℕ) + 4 + 4 +
      (toSize (toInt (msg.response.files.length * 4)) : ℤ) * 8) =
      (28 + toSize (toInt (msg.response.files.length * 4)) * 8) % 2^64 := by
    rw [← toSize_natCast]
    congr 1
  rw [calcMsgSize, ht, hfiles, ← foldl_toSize, ← hhead]

theorem calcMsgSize_of_ne (ht : msg.type ≠ .respWithFiles) :
    calcMsgSize msg = msg.encode.length % 2^64 := by
  rw [SockMessage.length_encode, SockMessage.length_bodyBytes]
  obtain ⟨uid, type, request, response⟩ := msg
  cases type with
  | respWithFiles => exact absurd rfl ht
  | none | other | reqOpenSession | reqCloseSession | reqReadNFiles | respSimple => rfl
  | reqOpenFile | reqCloseFile | reqReadFile | reqLockFile | reqUnlockFile | reqRemoveFile
  | reqWriteFile | reqAppendToFile =>
    have hraw := length_raw request.file
    change toSize ((16 + 4 : ℕ) + 4 + 4 * 8 + request.file.filenameLen + request.file.contentLen) =
      (56 + (rawOf [request.file]).length) % 2^64
    rw [rawOf, List.flatMap_singleton, hraw, ← toSize_natCast]
    congr 1
    push_cast
    ring

/-- Fewer than 2^29 files, so that four times their count is an `int`, and a frame (header, names
and contents) whose length is a `size_t`. -/
structure FrameFits (msg : SockMessage) : Prop where
  numFiles_lt : msg.type = .respWithFiles → msg.response.files.length < 2^29
  length_lt : msg.encode.length < 2^64

/-- The size that is sent is the number of bytes that follow exactly if the frame fits. -/
theorem calcMsgSize_eq_iff (h : Representable msg) :
    calcMsgSize msg = msg.encode.length ↔ FrameFits msg := by
  have hlt := calcMsgSize_lt msg
  by_cases ht : msg.type = .respWithFiles
  · have hn := h.numFiles_lt ht
    have hlen : msg.encode.length =
        28 + msg.response.files.length * 32 + (rawOf msg.attached).length := by
      rw [SockMessage.length_encode, SockMessage.length_bodyBytes, ht]
      rfl
    have hcalc := calcMsgSize_files ht
    rw [hlen]
    by_cases h29 : msg.response.files.length < 2^29
    · have hint : toInt (msg.response.files.length * 4) = msg.response.files.length * 4 :=
        Int.bmod_eq_of_le (by omega) (by omega)
      have hsize : toSize (toInt (msg.response.files.length * 4)) =
          msg.response.files.length * 4 := by
        rw [hint, toSize]
        omega
      rw [hsize] at hcalc
      constructor
      · intro heq
        exact ⟨fun _ => h29, by omega⟩
      · intro hf
        have hl := hf.length_lt
        omega
    · -- the product wraps around, and so the sizes differ by a multiple of 2^35
      refine iff_of_false (fun heq => ?_) fun hf => h29 (hf.numFiles_lt ht)
      have hwrap : toSize (toInt (msg.response.files.length * 4)) % 2^61 =
          (msg.response.files.length * 4 + (2^61 - 2^32)) % 2^61 ∨
          toSize (toInt (msg.response.files.length * 4)) % 2^61 =
          (msg.response.files.length * 4 + (2^61 - 2^33)) % 2^61 := by
        simp only [toInt, toSize, Int.bmod]
        split <;> omega
      omega
  · have hcalc := calcMsgSize_of_ne ht
    constructor
    · intro heq
      exact ⟨fun htype => absurd htype ht, by omega⟩
    · intro hf
      have hl := hf.length_lt
      omega

end Decode

/-! ### Round trips -/

section RoundTrip
variable {heap : Heap} {msg : SockMessage}

theorem headerLength_encode_le (h : Representable msg) :
    headerLength msg.encode ≤ msg.encode.length := by
  rw [headerLength_encode h, SockMessage.length_encode]
  omega

/-- No array that the reader asks for is larger than the frame. -/
theorem granted_encode (h : Representable msg) (hg : heap.GrantsUpTo msg.encode.length) :
    Granted heap msg.encode := by
  have hle := headerLength_encode_le h
  refine ⟨fun hb => hg.array ?_, hg.array (by omega)⟩
  rw [headerLength, hb] at hle
  dsimp only at hle
  omega

/-- The message is serialised into any buffer that is long enough. -/
theorem serialise_encode (msg : SockMessage) {block : Block}
    (hle : msg.encode.length ≤ block.data.length) :
    ∃ buffer, serialise msg (.start block.data) = some buffer ∧
      buffer.pos = msg.encode.length ∧ buffer.before = msg.encode ∧
      buffer.data.length < 2^64 := by
  have hlt := block.size_lt
  obtain ⟨buffer, hbuffer⟩ :
      ∃ buffer, Cursor.write msg.encode (.start block.data) = some buffer := by
    rw [← Option.isSome_iff_exists, Option.isSome_iff_ne_none, ne_eq, Cursor.write_eq_none,
      Cursor.rest_start]
    omega
  obtain ⟨-, hbefore, hrest⟩ := Cursor.write_eq_some.mp hbuffer
  rw [Cursor.before_start, List.nil_append] at hbefore
  have hpos : buffer.pos = msg.encode.length := by
    rw [← buffer.length_before, hbefore]
  refine ⟨buffer, by rw [writes_serialise, hbuffer], hpos, hbefore, ?_⟩
  have hl := buffer.length_rest
  have hle := buffer.pos_le
  rw [hrest, Cursor.rest_start, List.length_drop] at hl
  omega

end RoundTrip

/-! ### Sequences -/

end StorageServer.Common
