import StorageServer.Common.Net

/-! Decoding a frame. The reader follows the lengths and offsets that the peer has chosen and
compares none of them with the size of the frame, so that it stays inside the frame exactly if the
frame is well formed. -/
namespace StorageServer.Common
open Library.Bytes

/-! ### The shapes of messages -/

/-- What follows the identifier and the type. -/
inductive Body
  | bare
  | flags
  | file
  | status
  | files

def SockMessageType.body : SockMessageType → Body
  | reqOpenSession | reqCloseSession | none | other _ => .bare
  | reqReadNFiles => .flags
  | reqOpenFile | reqCloseFile | reqReadFile | reqLockFile | reqUnlockFile | reqRemoveFile
  | reqWriteFile | reqAppendToFile => .file
  | respSimple => .status
  | respWithFiles => .files

/-! ### What a frame holds -/

def frameInt (frame : List UInt8) (i : ℕ) : BitVec 32 := BitVec.ofNat 32 (ofBytes (slice frame i 4))

def frameType (frame : List UInt8) : SockMessageType := .ofCode (frameInt frame 16)

/-- The number of file headers, none if the count is negative. -/
def frameCount (frame : List UInt8) : ℕ := (frameInt frame 24).toInt.toNat

def decodeFile (bs : List UInt8) : WireFile where
  filenameLen := ofBytes (slice bs 0 8)
  filename := .i (ofBytes (slice bs 8 8))
  contentLen := ofBytes (slice bs 16 8)
  content := .i (ofBytes (slice bs 24 8))

def decodeFiles : ℕ → List UInt8 → List WireFile
  | 0, _ => []
  | n+1, bs => decodeFile bs :: decodeFiles n (bs.drop 32)

def headerLength (frame : List UInt8) : ℕ :=
  match (frameType frame).body with
  | .bare => 20
  | .flags => 24
  | .file => 56
  | .status => 24
  | .files => 28 + frameCount frame * 32

/-- The header of a frame; what it does not hold is as before. -/
def decodeHeader (frame : List UInt8) (msg : WireMessage) : WireMessage :=
  let msg := { msg with
    uid := Vector.ofFn (fun i => (slice frame 0 16).getD i 0)
    type := frameType frame }
  match msg.type.body with
  | .bare => msg
  | .flags => { msg with flags := frameInt frame 20 }
  | .file => { msg with flags := frameInt frame 20, file := decodeFile (frame.drop 24) }
  | .status => { msg with status := .ofCode (frameInt frame 20) }
  | .files =>
    { msg with
      status := .ofCode (frameInt frame 20)
      numFiles := (frameInt frame 24).toInt
      files := decodeFiles (frameCount frame) (frame.drop 28) }

/-- The files of a message, by its type. -/
def WireMessage.usedFiles (msg : WireMessage) : List WireFile :=
  match msg.type.body with
  | .file => [msg.file]
  | .files => msg.files
  | .bare | .flags | .status => []

/-! ### The reader reads the header -/

theorem reads_readSize : Reads readSize (fun _ => 8) (fun bs => ofBytes (slice bs 0 8)) :=
  (Reads.read 8).map ofBytes

theorem reads_readInt : Reads readInt (fun _ => 4) (fun bs => frameInt bs 0) :=
  (Reads.read 4).map (fun bs => BitVec.ofNat 32 (ofBytes bs))

theorem reads_readFileHeader : Reads readFileHeader (fun _ => 32) decodeFile := by
  have h : Reads readFileHeader _ _ :=
    reads_readSize.bind fun filenameLen => reads_readSize.bind fun filename =>
      reads_readSize.bind fun contentLen => reads_readSize.map fun content =>
        (⟨filenameLen, .i filename, contentLen, .i content⟩ : WireFile)
  refine h.congr (fun _ => rfl) fun bs => ?_
  simp only [decodeFile, slice_drop, List.drop_drop]

theorem reads_readFileHeaders (n : ℕ) :
    Reads (readFileHeaders n) (fun _ => n * 32) (decodeFiles n) := by
  induction n with
  | zero => exact (Reads.pure []).congr (fun _ => rfl) fun _ => rfl
  | succ n ih =>
    have h : Reads (readFileHeaders (n+1)) _ _ :=
      reads_readFileHeader.bind fun file => ih.map fun files => file::files
    refine h.congr (fun bs => ?_) fun bs => rfl
    omega

/-- The length of a body that begins `bs`. -/
def bodyLength (type : SockMessageType) (bs : List UInt8) : ℕ :=
  match type.body with
  | .bare => 0
  | .flags => 4
  | .file => 36
  | .status => 4
  | .files => 8 + (frameInt bs 4).toInt.toNat * 32

def decodeBody (msg : WireMessage) (bs : List UInt8) : WireMessage :=
  match msg.type.body with
  | .bare => msg
  | .flags => { msg with flags := frameInt bs 0 }
  | .file => { msg with flags := frameInt bs 0, file := decodeFile (bs.drop 4) }
  | .status => { msg with status := .ofCode (frameInt bs 0) }
  | .files =>
    { msg with
      status := .ofCode (frameInt bs 0)
      numFiles := (frameInt bs 4).toInt
      files := decodeFiles (frameInt bs 4).toInt.toNat (bs.drop 8) }

theorem frameInt_drop (bs : List UInt8) (j i : ℕ) :
    frameInt (bs.drop j) i = frameInt bs (j + i) := by
  rw [frameInt, frameInt, slice_drop]

theorem reads_readBody (msg : WireMessage) :
    Reads (readBody .ample msg) (bodyLength msg.type) (decodeBody msg) := by
  obtain ⟨uid, type, flags, file, status, numFiles, files, rawContent⟩ := msg
  cases type with
  | none | other | reqOpenSession | reqCloseSession => exact Reads.pure _
  | reqReadNFiles =>
    exact reads_readInt.map fun flags => (⟨_, _, flags, _, _, _, _, _⟩ : WireMessage)
  | respSimple =>
    exact reads_readInt.map fun status => (⟨_, _, _, _, .ofCode status, _, _, _⟩ : WireMessage)
  | reqOpenFile | reqCloseFile | reqReadFile | reqLockFile | reqUnlockFile | reqRemoveFile
  | reqWriteFile | reqAppendToFile =>
    exact reads_readInt.bind fun flags => reads_readFileHeader.map fun file =>
      (⟨_, _, flags, file, _, _, _, _⟩ : WireMessage)
  | respWithFiles =>
    have hcalloc : ∀ num, Heap.ample.allocArray num 32 = some () := fun num =>
      Heap.allocArray_eq_some.mpr ((Heap.grantsUpTo_ample _).array le_rfl)
    unfold readBody
    simp only [hcalloc]
    have h : Reads (fun buffer => readInt buffer >>= fun r => readInt r.2 >>= fun s =>
        readFileHeaders s.1.toInt.toNat s.2 >>= fun t => some ((⟨uid, .respWithFiles, flags, file,
          .ofCode r.1, s.1.toInt, t.1, rawContent⟩ : WireMessage), t.2)) _ _ :=
      reads_readInt.bind fun status => reads_readInt.bind fun numFiles =>
        (reads_readFileHeaders numFiles.toInt.toNat).map fun files =>
          (⟨_, _, _, _, .ofCode status, numFiles.toInt, files, _⟩ : WireMessage)
    refine h.congr (fun bs => ?_) fun bs => ?_
    · simp only [bodyLength, SockMessageType.body, frameInt_drop, Nat.reduceAdd]
      omega
    · simp only [decodeBody, SockMessageType.body, frameInt_drop, List.drop_drop, Nat.reduceAdd]

/-- The reader takes the header of the frame and nothing else. -/
theorem reads_readHeader (msg : WireMessage) :
    Reads (readHeader .ample msg) headerLength (fun frame => decodeHeader frame msg) := by
  have h : Reads (readHeader .ample msg) _ _ :=
    (Reads.read 16).bind fun uid => reads_readInt.bind fun type =>
      reads_readBody { msg with
        uid := Vector.ofFn (fun i => uid.getD i 0)
        type := .ofCode type }
  refine h.congr (fun bs => ?_) fun bs => ?_
  · simp only [bodyLength, headerLength, frameType, frameCount, frameInt_drop, List.drop_drop,
      Nat.reduceAdd]
    cases (SockMessageType.ofCode (frameInt bs 16)).body with
    | files => simp only []; omega
    | bare | flags | file | status => rfl
  · simp only [decodeBody, decodeHeader, frameType, frameCount, frameInt_drop, List.drop_drop,
      Nat.reduceAdd]
    cases (SockMessageType.ofCode (frameInt bs 16)).body <;> rfl

/-- The array of the files, if the message has them. -/
def WireMessage.allocFiles (heap : Heap) (msg : WireMessage) : Option Unit :=
  match msg.type.body with
  | .files => heap.allocArray msg.numFiles.toNat 32
  | .bare | .flags | .file | .status => some ()

/-- Little memory ends the process, and makes no other difference. -/
theorem readBody_eq (heap : Heap) (msg : WireMessage) (c : Cursor) : readBody heap msg c =
    (readBody .ample msg c).bind fun r => (r.1.allocFiles heap).map fun _ => r := by
  obtain ⟨uid, type, flags, file, status, numFiles, files, rawContent⟩ := msg
  cases type with
  | none | other | reqOpenSession | reqCloseSession => rfl
  | reqReadNFiles | respSimple =>
    unfold readBody
    cases readInt c <;> rfl
  | reqOpenFile | reqCloseFile | reqReadFile | reqLockFile | reqUnlockFile | reqRemoveFile
  | reqWriteFile | reqAppendToFile =>
    unfold readBody
    cases readInt c with
    | none => rfl
    | some r =>
      dsimp only [Option.bind_eq_bind, Option.bind_some]
      cases readFileHeader r.2 <;> rfl
  | respWithFiles =>
    have hcalloc : ∀ num, Heap.ample.allocArray num 32 = some () := fun num =>
      Heap.allocArray_eq_some.mpr ((Heap.grantsUpTo_ample _).array le_rfl)
    unfold readBody
    simp only [hcalloc, Option.bind_eq_bind, Option.bind_some]
    cases readInt c with
    | none => rfl
    | some r =>
      simp only [Option.bind_some]
      cases readInt r.2 with
      | none => rfl
      | some s =>
        simp only [Option.bind_some]
        cases readFileHeaders s.1.toInt.toNat s.2 with
        | none => cases heap.allocArray s.1.toInt.toNat 32 <;> rfl
        | some t =>
          change _ = (heap.allocArray s.1.toInt.toNat 32).map _
          cases heap.allocArray s.1.toInt.toNat 32 <;> rfl

theorem readHeader_eq (heap : Heap) (msg : WireMessage) (c : Cursor) : readHeader heap msg c =
    (readHeader .ample msg c).bind fun r => (r.1.allocFiles heap).map fun _ => r := by
  unfold readHeader
  simp only [readBody_eq heap, Option.bind_eq_bind, Option.bind_assoc]

/-! ### A frame in a longer block -/

section Blocks
variable {frame more : List UInt8} {msg : WireMessage}

theorem frameInt_append {i : ℕ} (h : i + 4 ≤ frame.length) :
    frameInt (frame ++ more) i = frameInt frame i := by
  rw [frameInt, frameInt, slice_append h]

theorem frameType_append (h : 20 ≤ frame.length) : frameType (frame ++ more) = frameType frame := by
  rw [frameType, frameType, frameInt_append h]

theorem frameCount_append (h : 28 ≤ frame.length) :
    frameCount (frame ++ more) = frameCount frame := by
  rw [frameCount, frameCount, frameInt_append h]

theorem decodeFile_append {bs : List UInt8} (h : 32 ≤ bs.length) :
    decodeFile (bs ++ more) = decodeFile bs := by
  simp only [decodeFile]
  rw [slice_append (by omega), slice_append (by omega), slice_append (by omega),
    slice_append (by omega)]

theorem decodeFiles_append {n : ℕ} {bs : List UInt8} (h : n * 32 ≤ bs.length) :
    decodeFiles n (bs ++ more) = decodeFiles n bs := by
  induction n generalizing bs with
  | zero => rfl
  | succ n ih =>
    rw [decodeFiles, decodeFiles, decodeFile_append (by omega),
      List.drop_append_of_le_length (by omega), ih (by rw [List.length_drop]; omega)]

theorem le_headerLength (bs : List UInt8) : 20 ≤ headerLength bs := by
  unfold headerLength
  split <;> omega

/-- Whether a header ends within the frame is decided by the frame. -/
theorem headerLength_append_le (frame more : List UInt8) :
    headerLength (frame ++ more) ≤ frame.length ↔ headerLength frame ≤ frame.length := by
  have h1 := le_headerLength (frame ++ more)
  have h2 := le_headerLength frame
  by_cases h20 : 20 ≤ frame.length
  · unfold headerLength
    rw [frameType_append h20]
    cases (frameType frame).body with
    | files =>
      by_cases h28 : 28 ≤ frame.length
      · rw [frameCount_append h28]
      · dsimp only
        omega
    | bare | flags | file | status => exact Iff.rfl
  · omega

theorem headerLength_append (more : List UInt8) (h : headerLength frame ≤ frame.length) :
    headerLength (frame ++ more) = headerLength frame := by
  have h20 := (le_headerLength frame).trans h
  unfold headerLength at h ⊢
  rw [frameType_append (by omega)]
  cases hb : (frameType frame).body with
  | files =>
    rw [hb] at h
    dsimp only at h ⊢
    rw [frameCount_append (by omega)]
  | bare | flags | file | status => rfl

theorem decodeHeader_append (h : headerLength frame ≤ frame.length) :
    decodeHeader (frame ++ more) msg = decodeHeader frame msg := by
  have h20 := (le_headerLength frame).trans h
  unfold headerLength at h
  unfold decodeHeader
  dsimp only
  rw [frameType_append (by omega), slice_append (by omega)]
  cases hb : (frameType frame).body with
  | files =>
    rw [hb] at h
    dsimp only at h ⊢
    rw [frameCount_append (by omega), frameInt_append (by omega), frameInt_append (by omega),
      List.drop_append_of_le_length (by omega),
      decodeFiles_append (by rw [List.length_drop]; omega)]
  | file =>
    rw [hb] at h
    dsimp only at h ⊢
    rw [frameInt_append (by omega), List.drop_append_of_le_length (by omega),
      decodeFile_append (by rw [List.length_drop]; omega)]
  | bare => rfl
  | flags | status =>
    rw [hb] at h
    dsimp only at h ⊢
    rw [frameInt_append (by omega)]

end Blocks

/-! ### Whole messages -/

/-- A stream that begins with a complete frame. -/
def Framed (stream frame rest : List UInt8) : Prop :=
  frame.length < 2^64 ∧ stream = toBytes 8 frame.length ++ frame ++ rest

theorem ofData_eq_some {data : List UInt8} (h : data.length < 2^64) :
    Block.ofData data = some ⟨data, h⟩ := dif_pos h

theorem data_of_ofData {data : List UInt8} {block : Block} (h : Block.ofData data = some block) :
    block.data = data := by
  unfold Block.ofData at h
  split_ifs at h
  obtain rfl := Option.some.inj h
  rfl

theorem readN_append (bs rest : List UInt8) : readN (bs ++ rest) bs.length = some (bs, rest) := by
  rw [readN, if_pos (by rw [List.length_append]; omega), List.take_left, List.drop_left]

/-- The buffer is long enough for the message, or it can be made so. -/
def Block.Grows (heap : Heap) (buf : Block) (msgSize : ℕ) : Prop :=
  buf.size < msgSize → heap.grants msgSize = true

theorem le_of_fit {heap : Heap} {buf block : Block} {msgSize : ℕ}
    (h : buf.fit heap msgSize = some block) : msgSize ≤ block.data.length := by
  unfold Block.fit at h
  split_ifs at h with hgt
  · obtain ⟨_, -, h⟩ := Option.bind_eq_some_iff.mp h
    rw [data_of_ofData h]
    rw [Block.size] at hgt ⊢
    simp only [List.length_append, List.length_take, List.length_map, List.length_range]
    omega
  · obtain rfl := Option.some.inj h
    exact Nat.le_of_not_lt hgt

theorem fit_of_grows {heap : Heap} (buf : Block) {msgSize : ℕ} (hlt : msgSize < 2^64)
    (h : buf.Grows heap msgSize) :
    ∃ block, buf.fit heap msgSize = some block ∧ msgSize ≤ block.data.length := by
  have hsome : ∃ block, buf.fit heap msgSize = some block := by
    unfold Block.fit
    split_ifs with hgt
    · rw [Block.realloc, Heap.alloc_of_grants (h hgt), Option.bind_eq_bind, Option.bind_some]
      refine ⟨_, ofData_eq_some ?_⟩
      rw [Block.size] at hgt ⊢
      simp only [List.length_append, List.length_take, List.length_map, List.length_range]
      omega
    · exact ⟨buf, rfl⟩
  obtain ⟨block, hblock⟩ := hsome
  exact ⟨block, hblock, le_of_fit hblock⟩

theorem grows_of_fit {heap : Heap} {buf block : Block} {msgSize : ℕ}
    (h : buf.fit heap msgSize = some block) : buf.Grows heap msgSize := by
  intro hlt
  rw [Block.fit, if_pos hlt, Block.realloc] at h
  obtain ⟨_, ha, -⟩ := Option.bind_eq_some_iff.mp h
  exact Heap.grants_of_alloc (by rw [ha]; rfl)

/-- The arrays for which the reader asks, of a size that the frame tells, are granted. -/
structure Granted (heap : Heap) (frame : List UInt8) : Prop where
  files : (frameType frame).body = .files → heap.GrantsArray (frameCount frame) 32
  raw : heap.GrantsArray (frame.length - headerLength frame) 1

theorem allocFiles_decodeHeader {heap : Heap} {frame : List UInt8} {msg : WireMessage} :
    (decodeHeader frame msg).allocFiles heap = some () ↔
      ((frameType frame).body = .files → heap.GrantsArray (frameCount frame) 32) := by
  unfold WireMessage.allocFiles decodeHeader
  dsimp only
  cases hb : (frameType frame).body with
  | files =>
    simp only [hb, forall_const]
    exact Heap.allocArray_eq_some
  | bare | flags | file | status => simp [hb]

section Decode
variable {frame more : List UInt8} {buf : Block}

theorem decodeMessage_eq (heap : Heap) (msgSize : ℕ) (buf : Block) (msg : WireMessage) :
    decodeMessage heap msgSize buf msg =
      (readHeader .ample msg (.start buf.data)).bind fun r =>
        (r.1.allocFiles heap).bind fun _ =>
          (heap.allocArray (toSize (msgSize - r.2.pos)) 1).bind fun _ =>
            (readFromBuffer (toSize (msgSize - r.2.pos)) r.2).map fun raw =>
              updatePtrs { r.1 with rawContent := raw.1 } := by
  unfold decodeMessage
  rw [readHeader_eq]
  cases readHeader .ample msg (.start buf.data) with
  | none => rfl
  | some r => cases h : r.1.allocFiles heap <;> simp [h, Option.map_eq_bind]

/-- A frame is decoded to what it holds, if its header ends within it and no array is refused; if
its header does not end within it, the number of raw bytes wraps around. -/
theorem decodeMessage_frame (heap : Heap) (hb : buf.data = frame ++ more)
    (hlt : frame.length < 2^64) (msg : WireMessage) :
    (headerLength frame ≤ frame.length → Granted heap frame →
      decodeMessage heap frame.length buf msg = some (updatePtrs { decodeHeader frame msg with
        rawContent := frame.drop (headerLength frame) })) ∧
    ((decodeMessage heap frame.length buf msg).isSome →
      headerLength frame ≤ frame.length ∧ Granted heap frame) := by
  obtain ⟨hfits, hshort⟩ := reads_readHeader msg (.start (frame ++ more))
  rw [Cursor.rest_start] at hfits hshort
  rw [decodeMessage_eq, hb]
  by_cases hle : headerLength frame ≤ frame.length
  · have hN := headerLength_append more hle
    obtain ⟨c, hc, hrest, hpos⟩ := hfits (by rw [hN, List.length_append]; omega)
    rw [hN] at hrest hpos
    dsimp only at hc
    rw [decodeHeader_append hle] at hc
    have hpos : c.pos = headerLength frame := hpos.trans (Nat.zero_add _)
    have hraw : toSize (frame.length - c.pos) = frame.length - headerLength frame := by
      rw [hpos, toSize]
      omega
    obtain ⟨c', hc', -, -⟩ := Cursor.read_of_le (c := c) (n := frame.length - headerLength frame)
      (by rw [hrest, List.length_drop, List.length_append]; omega)
    have hdrop : (frame.drop (headerLength frame)).length = frame.length - headerLength frame :=
      List.length_drop
    rw [hrest, List.drop_append_of_le_length hle, ← hdrop, List.take_left, hdrop] at hc'
    rw [hc, Option.bind_some]
    dsimp only
    rw [hraw]
    constructor
    · intro _ hg
      rw [allocFiles_decodeHeader.mpr hg.files, Option.bind_some,
        Heap.allocArray_eq_some.mpr hg.raw, Option.bind_some, readFromBuffer, hc']
      rfl
    · intro h
      obtain ⟨_, hr⟩ := Option.isSome_iff_exists.mp h
      obtain ⟨_, hfiles, hr⟩ := Option.bind_eq_some_iff.mp hr
      obtain ⟨_, hcalloc, -⟩ := Option.bind_eq_some_iff.mp hr
      exact ⟨hle, allocFiles_decodeHeader.mp hfiles, Heap.allocArray_eq_some.mp hcalloc⟩
  · refine ⟨fun h => absurd h hle, fun h => ?_⟩
    exfalso
    have hN : frame.length < headerLength (frame ++ more) := by
      by_contra hle'
      exact hle ((headerLength_append_le frame more).mp (by omega))
    obtain ⟨_, hr⟩ := Option.isSome_iff_exists.mp h
    obtain ⟨⟨m, c⟩, hc, hr⟩ := Option.bind_eq_some_iff.mp hr
    obtain ⟨_, -, hr⟩ := Option.bind_eq_some_iff.mp hr
    obtain ⟨_, -, hr⟩ := Option.bind_eq_some_iff.mp hr
    obtain ⟨_, hr, -⟩ := Option.map_eq_some_iff.mp hr
    by_cases hle' : headerLength (frame ++ more) ≤ (frame ++ more).length
    · obtain ⟨c', hc', hrest, hpos⟩ := hfits hle'
      obtain ⟨-, rfl⟩ := Prod.mk.inj (Option.some.inj (hc.symm.trans hc'))
      have hpos : c.pos = headerLength (frame ++ more) := hpos.trans (Nat.zero_add _)
      have hblock := buf.size_lt
      rw [hb] at hblock
      rw [readFromBuffer, Cursor.read_of_lt] at hr
      · cases hr
      · dsimp only
        rw [hrest, List.length_drop, hpos, toSize]
        omega
    · rw [hshort (by omega)] at hc
      cases hc

end Decode

/-- A complete frame is read as what it holds, if its header ends within it and no memory is
refused; else the process ends, or the number of raw bytes wraps around. -/
theorem readMessage_framed (heap : Heap) {stream frame rest : List UInt8}
    (hs : Framed stream frame rest) (buf : Block) (msg : WireMessage) :
    (headerLength frame ≤ frame.length → buf.Grows heap frame.length → Granted heap frame →
      ∃ buf', readMessage heap stream buf msg = some ⟨frame.length,
        updatePtrs { decodeHeader frame msg with
          rawContent := frame.drop (headerLength frame) }, buf', rest⟩) ∧
    ((readMessage heap stream buf msg).isSome →
      headerLength frame ≤ frame.length ∧ buf.Grows heap frame.length ∧ Granted heap frame) := by
  obtain ⟨hlt, rfl⟩ := hs
  have hsize : ofBytes (toBytes 8 frame.length) = frame.length := ofBytes_toBytes_of_lt hlt
  have h8 : readN (toBytes 8 frame.length ++ frame ++ rest) 8 =
      some (toBytes 8 frame.length, frame ++ rest) := by
    have h := readN_append (toBytes 8 frame.length) (frame ++ rest)
    rwa [length_toBytes, ← List.append_assoc] at h
  have hread : readMessage heap (toBytes 8 frame.length ++ frame ++ rest) buf msg =
      (buf.fit heap frame.length).bind fun block =>
        (Block.ofData (frame ++ block.data.drop frame.length)).bind fun block =>
          (decodeMessage heap frame.length block msg).bind fun msg =>
            some ⟨frame.length, msg, block, rest⟩ := by
    unfold readMessage
    simp only [h8, hsize, readN_append]
    rfl
  have hblock (block : Block) (hle : frame.length ≤ block.data.length) :
      (frame ++ block.data.drop frame.length).length < 2^64 := by
    have hb := block.size_lt
    rw [List.length_append, List.length_drop]
    omega
  rw [hread]
  constructor
  · intro hle hgrows hg
    obtain ⟨block, hfit, hlen⟩ := fit_of_grows buf hlt hgrows
    have hlen := hblock block hlen
    refine ⟨⟨_, hlen⟩, ?_⟩
    rw [hfit, Option.bind_some, ofData_eq_some hlen, Option.bind_some,
      (decodeMessage_frame heap (rfl : (⟨_, hlen⟩ : Block).data = _) hlt msg).1 hle hg,
      Option.bind_some]
  · intro h
    obtain ⟨_, hr⟩ := Option.isSome_iff_exists.mp h
    obtain ⟨block, hfit, hr⟩ := Option.bind_eq_some_iff.mp hr
    obtain ⟨block', hof, hr⟩ := Option.bind_eq_some_iff.mp hr
    obtain ⟨_, hr, -⟩ := Option.bind_eq_some_iff.mp hr
    obtain ⟨hle, hg⟩ := (decodeMessage_frame heap (data_of_ofData hof) hlt msg).2 (by rw [hr]; rfl)
    exact ⟨hle, grows_of_fit hfit, hg⟩

/-- The size that a stream announces for its first frame. -/
def announced (stream : List UInt8) : ℕ := ofBytes (stream.take 8)

/-- A stream without a complete frame is read as its end, if there is a buffer for the frame that
it announces. -/
theorem readMessage_eof (heap : Heap) {stream : List UInt8}
    (hs : ∀ frame rest, ¬ Framed stream frame rest) (buf : Block) (msg : WireMessage) :
    ((8 ≤ stream.length → buf.Grows heap (announced stream)) →
      ∃ out, readMessage heap stream buf msg = some out ∧ out.res = 0) ∧
    ((readMessage heap stream buf msg).isSome →
      8 ≤ stream.length → buf.Grows heap (announced stream)) := by
  unfold readMessage announced
  by_cases h8 : 8 ≤ stream.length
  · have hsize : (stream.take 8).length = 8 := by
      rw [List.length_take]
      omega
    have hlt := ofBytes_lt (stream.take 8)
    rw [hsize] at hlt
    have hshort : (stream.drop 8).length < ofBytes (stream.take 8) := by
      by_contra hle
      set size := ofBytes (stream.take 8)
      have hframe : ((stream.drop 8).take size).length = size := by
        rw [List.length_take]
        omega
      refine hs ((stream.drop 8).take size) ((stream.drop 8).drop size) ⟨?_, ?_⟩
      · rw [hframe]
        exact hlt
      · rw [hframe]
        have hbytes : toBytes 8 size = stream.take 8 := by
          have h := toBytes_ofBytes (stream.take 8)
          rwa [hsize] at h
        rw [hbytes, List.append_assoc, List.take_append_drop, List.take_append_drop]
    have h1 : readN stream 8 = some (stream.take 8, stream.drop 8) := if_pos h8
    have h2 : readN (stream.drop 8) (ofBytes (stream.take 8)) = none := if_neg (by omega)
    simp only [h1, h2]
    constructor
    · intro hgrows
      obtain ⟨block, hfit, -⟩ := fit_of_grows buf hlt (hgrows h8)
      have hblock : (stream.drop 8 ++ List.replicate (ofBytes (stream.take 8) -
          (stream.drop 8).length) 0 ++ block.data.drop (ofBytes (stream.take 8))).length <
            2^64 := by
        have hb := block.size_lt
        simp only [List.length_append, List.length_replicate, List.length_drop] at hshort ⊢
        omega
      rw [hfit, Option.bind_eq_bind, Option.bind_some, ofData_eq_some hblock]
      exact ⟨_, rfl, rfl⟩
    · intro h _
      cases hfit : buf.fit heap (ofBytes (stream.take 8)) with
      | some block => exact grows_of_fit hfit
      | none =>
        rw [hfit] at h
        cases h
  · have h1 : readN stream 8 = none := if_neg h8
    simp only [h1]
    exact ⟨fun _ => ⟨_, rfl, rfl⟩, fun _ h => absurd h h8⟩

/-! ### Inside the frame -/

/-- A pointer to bytes inside of the raw content, or to none. -/
def WirePtr.Inside (raw len : ℕ) : WirePtr → Prop
  | .ptr none => len = 0
  | .ptr (some offset) => offset + len ≤ raw
  | .i _ => False

def WireFile.Inside (raw : ℕ) (file : WireFile) : Prop :=
  file.filename.Inside raw file.filenameLen ∧ file.content.Inside raw file.contentLen

/-- The message holds what its frame holds: the header lies in the frame, the raw content is the
remainder, and so are the names and the contents. -/
structure DecodedInside (frame : List UInt8) (before msg : WireMessage) : Prop where
  header_le : headerLength frame ≤ frame.length
  msg_eq : msg = updatePtrs { decodeHeader frame before with
    rawContent := frame.drop (headerLength frame) }
  raw_length : (msg.rawContent.length : ℤ) = frame.length - headerLength frame
  inside : ∀ file ∈ msg.usedFiles, file.Inside msg.rawContent.length

/-- An offset from which the bytes fit into the rest of the frame, if there are any. -/
def WirePtr.Fits (raw len : ℕ) : WirePtr → Prop
  | .i offset => len ≠ 0 → offset + len ≤ raw
  | .ptr _ => False

/-- The files that a header describes. -/
def frameFiles (frame : List UInt8) : List WireFile :=
  match (frameType frame).body with
  | .file => [decodeFile (frame.drop 24)]
  | .files => decodeFiles (frameCount frame) (frame.drop 28)
  | .bare | .flags | .status => []

/-- The frame is as long as its header calls for, and every name and content that is not empty
ends within the rest. -/
structure WellFormed (frame : List UInt8) : Prop where
  header_le : headerLength frame ≤ frame.length
  fits : ∀ file ∈ frameFiles frame,
    file.filename.Fits (frame.length - headerLength frame) file.filenameLen ∧
      file.content.Fits (frame.length - headerLength frame) file.contentLen

theorem inside_convertOffsetToPtr (raw len i : ℕ) :
    (convertOffsetToPtr len (.i i)).Inside raw len ↔ (WirePtr.i i).Fits raw len := by
  unfold convertOffsetToPtr WirePtr.Inside WirePtr.Fits
  by_cases h : len = 0
  · simp [h]
  · simp [h]

theorem decodeFiles_eq {n : ℕ} {bs : List UInt8} {file : WireFile} (h : file ∈ decodeFiles n bs) :
    ∃ bs, file = decodeFile bs := by
  induction n generalizing bs with
  | zero => cases h
  | succ n ih =>
    rcases List.mem_cons.mp h with rfl | h
    · exact ⟨bs, rfl⟩
    · exact ih h

theorem inside_updatePtrs (raw : ℕ) (bs : List UInt8) :
    (decodeFile bs).updatePtrs.Inside raw ↔
      (decodeFile bs).filename.Fits raw (decodeFile bs).filenameLen ∧
        (decodeFile bs).content.Fits raw (decodeFile bs).contentLen :=
  and_congr (inside_convertOffsetToPtr ..) (inside_convertOffsetToPtr ..)

theorem usedFiles_updatePtrs (msg : WireMessage) :
    (updatePtrs msg).usedFiles = msg.usedFiles.map WireFile.updatePtrs := by
  obtain ⟨uid, type, flags, file, status, numFiles, files, rawContent⟩ := msg
  cases type <;> rfl

theorem usedFiles_decodeHeader (frame : List UInt8) (msg : WireMessage) (raw : List UInt8) :
    ({ decodeHeader frame msg with rawContent := raw } : WireMessage).usedFiles =
      frameFiles frame := by
  unfold decodeHeader WireMessage.usedFiles frameFiles
  dsimp only
  cases h : (frameType frame).body <;> simp [h]

theorem mem_frameFiles {frame : List UInt8} {file : WireFile} (h : file ∈ frameFiles frame) :
    ∃ bs, file = decodeFile bs := by
  unfold frameFiles at h
  split at h
  next => exact ⟨_, List.mem_singleton.mp h⟩
  next => exact decodeFiles_eq h
  all_goals cases h

/-- What is read from a frame that holds its header. -/
theorem decodedInside_iff {frame : List UInt8} (hle : headerLength frame ≤ frame.length)
    (before : WireMessage) :
    DecodedInside frame before (updatePtrs { decodeHeader frame before with
      rawContent := frame.drop (headerLength frame) }) ↔ WellFormed frame := by
  set read : WireMessage := { decodeHeader frame before with
    rawContent := frame.drop (headerLength frame) }
  have hraw : (updatePtrs read).rawContent = frame.drop (headerLength frame) := by
    unfold updatePtrs
    split <;> rfl
  have hlen : (updatePtrs read).rawContent.length = frame.length - headerLength frame := by
    rw [hraw, List.length_drop]
  have hfiles : (updatePtrs read).usedFiles = (frameFiles frame).map WireFile.updatePtrs := by
    rw [usedFiles_updatePtrs, usedFiles_decodeHeader]
  constructor
  · intro h
    refine ⟨hle, fun file hfile => ?_⟩
    have hin := h.inside _ (hfiles ▸ List.mem_map_of_mem hfile)
    obtain ⟨bs, rfl⟩ := mem_frameFiles hfile
    rw [hlen] at hin
    exact (inside_updatePtrs _ bs).mp hin
  · intro h
    refine ⟨hle, rfl, by rw [hlen]; omega, fun file hfile => ?_⟩
    rw [hfiles] at hfile
    obtain ⟨file, hmem, rfl⟩ := List.mem_map.mp hfile
    have hfits := h.fits file hmem
    obtain ⟨bs, rfl⟩ := mem_frameFiles hmem
    rw [hlen]
    exact (inside_updatePtrs _ bs).mpr hfits

/-- `readMessage` reports the end of the stream, or returns a message that was decoded inside of
its frame. -/
def DecodesInside (heap : Heap) (stream : List UInt8) (buf : Block) (before : WireMessage) :
    Prop :=
  ∃ out, readMessage heap stream buf before = some out ∧
    (out.res = 0 ∨ ∃ frame rest, Framed stream frame rest ∧ out.res = frame.length ∧
      DecodedInside frame before out.msg ∧ out.stream = rest)

/-- What is at the beginning of a stream does not end the process: there is memory for the frame
that it announces, and for what a complete frame asks for. -/
structure Affordable (heap : Heap) (stream : List UInt8) (buf : Block) : Prop where
  announced : 8 ≤ stream.length → buf.Grows heap (announced stream)
  granted : ∀ frame rest, Framed stream frame rest → Granted heap frame

theorem framed_unique {stream frame frame' rest rest' : List UInt8} (h : Framed stream frame rest)
    (h' : Framed stream frame' rest') : frame = frame' ∧ rest = rest' := by
  obtain ⟨hlt, hs⟩ := h
  obtain ⟨hlt', hs'⟩ := h'
  rw [hs, List.append_assoc, List.append_assoc] at hs'
  obtain ⟨hsize, hrest⟩ := List.append_inj hs' (by rw [length_toBytes, length_toBytes])
  have hlen := congrArg ofBytes hsize
  rw [ofBytes_toBytes_of_lt hlt, ofBytes_toBytes_of_lt hlt'] at hlen
  exact List.append_inj hrest hlen

theorem announced_framed {stream frame rest : List UInt8} (hs : Framed stream frame rest) :
    announced stream = frame.length := by
  obtain ⟨hlt, rfl⟩ := hs
  rw [announced, List.append_assoc, List.take_left' (length_toBytes ..)]
  exact ofBytes_toBytes_of_lt hlt

/-- Decoding stays inside the frame exactly if no block that the peer makes the reader ask for is
refused and a complete frame, if there is one, is well formed: the reader itself checks neither
lengths nor offsets. -/
theorem decodesInside_iff_wellFormed (heap : Heap) (stream : List UInt8) (buf : Block)
    (before : WireMessage) : DecodesInside heap stream buf before ↔
      Affordable heap stream buf ∧ ∀ frame rest, Framed stream frame rest → WellFormed frame := by
  by_cases hs : ∃ frame rest, Framed stream frame rest
  · obtain ⟨frame, rest, hs⟩ := hs
    obtain ⟨hread, hsome⟩ := readMessage_framed heap hs buf before
    constructor
    · rintro ⟨out, hout, hin⟩
      obtain ⟨hle, hgrows, hg⟩ := hsome (by rw [hout]; rfl)
      refine ⟨⟨fun _ => ?_, fun frame' rest' hs' => ?_⟩, fun frame' rest' hs' => ?_⟩
      · rw [announced_framed hs]
        exact hgrows
      · obtain ⟨rfl, -⟩ := framed_unique hs hs'
        exact hg
      · obtain ⟨rfl, -⟩ := framed_unique hs hs'
        obtain ⟨buf', hbuf⟩ := hread hle hgrows hg
        rw [hbuf] at hout
        obtain rfl := Option.some.inj hout
        rcases hin with h0 | ⟨frame', rest', hs', -, hdec, -⟩
        · have h20 := le_headerLength frame
          change frame.length = 0 at h0
          omega
        · obtain ⟨rfl, -⟩ := framed_unique hs hs'
          exact (decodedInside_iff hle before).mp hdec
    · rintro ⟨ha, h⟩
      have hw := h frame rest hs
      have hgrows := ha.announced (by
        rw [hs.2, List.append_assoc, List.length_append, length_toBytes]
        omega)
      rw [announced_framed hs] at hgrows
      obtain ⟨buf', hbuf⟩ := hread hw.header_le hgrows (ha.granted frame rest hs)
      exact ⟨_, hbuf, Or.inr ⟨frame, rest, hs, rfl,
        (decodedInside_iff hw.header_le before).mpr hw, rfl⟩⟩
  · have hs : ∀ frame rest, ¬ Framed stream frame rest := fun frame rest hf => hs ⟨frame, rest, hf⟩
    obtain ⟨hread, hsome⟩ := readMessage_eof heap hs buf before
    constructor
    · rintro ⟨out, hout, -⟩
      exact ⟨⟨hsome (by rw [hout]; rfl), fun frame rest hf => absurd hf (hs frame rest)⟩,
        fun frame rest hf => absurd hf (hs frame rest)⟩
    · rintro ⟨ha, -⟩
      obtain ⟨out, hout, h0⟩ := hread ha.announced
      exact ⟨out, hout, Or.inl h0⟩

/-- The memory that a caller passes for the message. -/
def blankMessage : WireMessage where
  uid := Vector.replicate 16 0
  type := .none
  flags := 0
  file := ⟨0, .i 0, 0, .i 0⟩
  status := .none
  numFiles := 0
  files := []
  rawContent := []

/-- A frame of four bytes is too short for the identifier, which is read all the same. -/
theorem short_frame_read_outside :
    ¬ ∀ stream buf before, DecodesInside .ample stream buf before := by
  intro h
  obtain ⟨out, hout, -⟩ := h [4,0,0,0,0,0,0,0,1,2,3,4] ⟨[], by decide⟩ blankMessage
  exact absurd hout (by
    have hnone : readMessage .ample [4,0,0,0,0,0,0,0,1,2,3,4] ⟨[], by decide⟩ blankMessage =
      none := rfl
    rw [hnone]
    simp)

end StorageServer.Common
