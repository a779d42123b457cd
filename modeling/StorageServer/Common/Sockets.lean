import StorageServer.Common.Codec
import StorageServer.Common.Fragmentation
import StorageServer.Common.HuffmanDecompression
import StorageServer.Common.HuffmanFaults
import StorageServer.Library.Fuel
import StorageServer.Library.Runs

/-! Messages from one end of a socket to the other, built with or without `COMPRESS_MESSAGES`. A
frame takes two loops of `write` and two loops of `read`: first its size, then its bytes. The system
cuts the bytes as it likes, differently on both sides. A call that fails may do so in the middle of
a frame; neither side notices where the next frame begins. -/
namespace StorageServer.Common
open Library.Bytes Library.Fuel Library.Runs Library.Transfers

/-! ### The functions -/

inductive Build
  | plain
  | compressed
  deriving DecidableEq

/-- What the calls of a loop return, if so many bytes are available and it has to move so many. -/
structure Schedule where
  results : (available size : ℕ) → ℕ → CallResult
  allowed : ∀ available size, Allowed (min size available) size (results available size)
  finite : ∀ available size, FinitelyInterrupted (results available size)

/-- What `writeMessage` leaves to others: the memory, how `qsort` sorts, what lies behind an array
and what the calls of `write` return. -/
structure Sending where
  heap : Heap
  qsort : Qsort
  beyond : ℤ
  size : Schedule
  data : Schedule

structure Receiving where
  heap : Heap
  size : Schedule
  data : Schedule

namespace Build

/-- The size of a frame and the buffer with its bytes. -/
def prepare (build : Build) (c : Sending) (buf : Block) (msg : SockMessage) :
    Option (ℕ × Block) := do
  let msgSize := calcMsgSize msg
  let buf ← buf.fit c.heap msgSize
  let buffer ← serialise msg (.start buf.data)
  let buf ← Block.ofData buffer.data
  match build with
  | plain => return (msgSize, buf)
  | compressed => do
    let result ← compressData c.qsort c.beyond (buf.data.take msgSize)
    let buf ← Block.ofData result
    return (buf.size, buf)

/-- Write a frame: what is returned and the bytes on their way. -/
def writeFrame (fuel : ℕ) (c : Sending) (wire : List UInt8) (msgSize : ℕ) (buf : Block) :
    Option (ℕ × List UInt8) := do
  let (res, s) ← Transfer.writeN (firsts (c.size.results 8 8) fuel) 8
    ⟨wire, .start (toBytes 8 msgSize)⟩
  if res ≠ 1 then return (toSize res, s.wire)
  else do
    let (res, s) ← Transfer.writeN (firsts (c.data.results msgSize msgSize) fuel) msgSize
      ⟨s.wire, .start buf.data⟩
    if res ≠ 1 then return (toSize res, s.wire)
    else return (msgSize, s.wire)

def writeMessage (build : Build) (fuel : ℕ) (c : Sending) (wire : List UInt8) (buf : Block)
    (msg : SockMessage) : Option (ℕ × List UInt8 × Block) := do
  let (msgSize, buf) ← build.prepare c buf msg
  let (res, wire) ← writeFrame fuel c wire msgSize buf
  return (res, wire, buf)

def decode (build : Build) (heap : Heap) (msgSize : ℕ) (buf : Block) (msg : WireMessage) :
    Option (WireMessage × Block) :=
  match build with
  | plain => do
    let msg ← decodeMessage heap msgSize buf msg
    return (msg, buf)
  | compressed => do
    let result ← decompressData heap (buf.data.take msgSize)
    let buf ← Block.ofData result
    let msg ← decodeMessage heap buf.size buf msg
    return (msg, buf)

/-- The size of the frame is read into a variable that is 0. -/
def readMessage (build : Build) (fuel : ℕ) (c : Receiving) (wire : List UInt8) (buf : Block)
    (msg : WireMessage) : Option ReadOutcome := do
  let (res, s) ← Transfer.readN (firsts (c.size.results wire.length 8) fuel) 8
    ⟨wire, .start (toBytes 8 0)⟩
  if res ≠ 1 then return ⟨toSize res, msg, buf, s.wire⟩
  else
    let msgSize := ofBytes s.buf.data
    let buf ← buf.fit c.heap msgSize
    let (res, s) ← Transfer.readN (firsts (c.data.results s.wire.length msgSize) fuel) msgSize
      ⟨s.wire, .start (List.replicate msgSize 0 ++ buf.data.drop msgSize)⟩
    let buf ← Block.ofData s.buf.data
    if res ≠ 1 then return ⟨toSize res, msg, buf, s.wire⟩
    else do
      let (msg, buf) ← build.decode c.heap msgSize buf msg
      return ⟨msgSize, msg, buf, s.wire⟩

end Build

/-- The value of a `size_t` converted to `long long`. -/
def toLongLong (x : ℕ) : ℤ := (x : ℤ).bmod (2^64)

/-- What is returned is a size and neither 0 nor -1, as the server sees it, which converts it to
`long long`. -/
def Succeeds (res : ℕ) : Prop := 0 < toLongLong res

instance (res : ℕ) : Decidable (Succeeds res) := inferInstanceAs (Decidable (_ < _))

theorem not_succeeds {res : ℤ} (h : res = 0 ∨ res = -1) : ¬ Succeeds (toSize res) := by
  rcases h with rfl | rfl <;> decide

theorem succeeds_of_lt {n : ℕ} (h0 : 0 < n) (h : n < 2^63) : Succeeds n := by
  have hn : toLongLong n = n := Int.bmod_eq_of_le (by omega) (by omega)
  rw [Succeeds, hn]
  exact Int.natCast_pos.mpr h0

/-! ### One loop -/

section Loops
variable {σ : Type*} {call : ℕ → σ → Option σ} {size : ℕ} {s : σ} {x : ℤ × σ}

theorem transferN_done (call : ℕ → σ → Option σ) (results : List CallResult) (s : σ) :
    transferN call results 0 s = some (1, s) := by
  cases results <;> exact if_neg (Nat.lt_irrefl 0)

/-- A loop that has returned makes no more calls. -/
theorem transferN_append {results : List CallResult} (h : transferN call results size s = some x)
    (more : List CallResult) : transferN call (results ++ more) size s = some x := by
  induction results generalizing size s with
  | nil =>
    rcases Nat.eq_zero_or_pos size with rfl | hpos
    · rw [transferN_done] at h ⊢
      exact h
    · exact absurd ((if_pos hpos).symm.trans h) nofun
  | cons result results ih =>
    rw [List.cons_append]
    rcases Nat.eq_zero_or_pos size with rfl | hpos
    · rw [transferN_done] at h ⊢
      exact h
    cases result with
    | interrupted =>
      rw [transferN_interrupted hpos] at h ⊢
      exact ih h
    | failed =>
      rw [transferN_failed hpos] at h ⊢
      exact h
    | count r =>
      have hcount : ∀ rest, transferN call (.count r :: rest) size s = if r = 0 then some (0, s)
          else call r s >>= transferN call rest (toSize (size - r)) := fun rest => if_pos hpos
      rw [hcount] at h ⊢
      split_ifs at h ⊢
      · exact h
      · obtain ⟨s', hs, h⟩ := Option.bind_eq_some_iff.mp h
        rw [hs]
        exact ih h

theorem exists_firsts (results : ℕ → CallResult) {k fuel : ℕ} (h : k ≤ fuel) :
    ∃ more, firsts results fuel = firsts results k ++ more := by
  induction fuel, h using Nat.le_induction with
  | base => exact ⟨[], (List.append_nil _).symm⟩
  | succ fuel _ ih =>
    obtain ⟨more, hmore⟩ := ih
    exact ⟨more ++ [results fuel], by rw [firsts_succ, hmore, List.append_assoc]⟩

/-- What a loop does is a matter of its calls. -/
theorem returns_transferN {results : ℕ → CallResult} {k : ℕ}
    (h : transferN call (firsts results k) size s = some x) :
    Returns (fun fuel => transferN call (firsts results fuel) size s) x := by
  refine .of_mono h fun {m n y} hm hle => ?_
  obtain ⟨more, hmore⟩ := exists_firsts results hle
  rw [hmore]
  exact transferN_append hm more

end Loops

/-- No call fails, and none finds the end before all available bytes have been moved. -/
structure Schedule.Undisturbed (c : Schedule) : Prop where
  goes : ∀ {available size k}, Ongoing size (c.results available size) k →
    c.results available size k ≠ .failed
  ends : ∀ {available size k}, Ongoing size (c.results available size) k →
    c.results available size k = .count 0 → available ≤ total (c.results available size) k

/-- A loop has moved `m` bytes of so many and returned `res`. -/
structure Moved (size m : ℕ) (res : ℤ) : Prop where
  le : m ≤ size
  one : res = 1 ↔ m = size
  other : res ≠ 1 → res = 0 ∨ res = -1

section Loops
variable {size k : ℕ} {wire data : List UInt8} {res : ℤ}

theorem Exact.moved {results : ℕ → CallResult} (h : Exact size results k res)
    (hle : total results k ≤ size) : Moved size (total results k) res :=
  ⟨hle, h.one, h.cases.resolve_left⟩

/-- An undisturbed loop moves all it has to if there is as much. -/
theorem Exact.eq_one {c : Schedule} {available : ℕ}
    (h : Exact size (c.results available size) k res) (hc : c.Undisturbed)
    (hle : total (c.results available size) k ≤ size) (hsize : size ≤ available) : res = 1 := by
  rcases h.cases with h1 | h0 | h1
  · exact h1
  · obtain ⟨i, rfl, hi⟩ := h.zero.mp h0
    have hi' := h.made i (Nat.lt_succ_self i)
    have hend := hc.ends hi' hi
    have hlt := hi'.2
    omega
  · obtain ⟨i, rfl, hi⟩ := h.minus_one.mp h1
    exact absurd hi (hc.goes (h.made i (Nat.lt_succ_self i)))

/-- A loop of `write` sends some of the bytes. -/
theorem writeN_sends (c : Schedule) (hdata : size ≤ data.length) (hsize : size < 2^64)
    (wire : List UInt8) : ∃ res s m,
      Returns (fun fuel => Transfer.writeN (firsts (c.results size size) fuel) size
        ⟨wire, .start data⟩) (res, s) ∧
      Moved size m res ∧ s.wire = wire ++ data.take m ∧ (c.Undisturbed → res = 1) := by
  have ha := c.allowed size size
  rw [min_self] at ha
  have hmoves : ∀ k, (∀ i < k, Ongoing size (c.results size size) i) → ∃ s,
      Transfer.write (total (c.results size size) k) ⟨wire, .start data⟩ = some s ∧
        s.wire = wire ++ data.take (total (c.results size size) k) := by
    intro k hk
    obtain ⟨s, hs, hwire, -⟩ := Transfer.write_eq (s := ⟨wire, .start data⟩)
      ((total_le ha hk).trans hdata)
    exact ⟨s, hs, hwire⟩
  obtain ⟨k, res, s, hrun, hmoved, he⟩ := exists_exact Transfer.additive_write hsize ha
    (c.finite size size) fun k hk => by
      obtain ⟨s, hs, -⟩ := hmoves k hk.made
      rw [hs]
      rfl
  obtain ⟨s', hs', hwire⟩ := hmoves k he.made
  obtain rfl := Option.some.inj (hs'.symm.trans hmoved)
  have hle := total_le ha he.made
  exact ⟨res, s', _, returns_transferN hrun, he.moved hle, hwire,
    fun hc => he.eq_one hc hle le_rfl⟩

/-- A loop of `read` receives some of the bytes. -/
theorem readN_receives (c : Schedule) (hdata : size ≤ data.length) (hsize : size < 2^64)
    (wire : List UInt8) : ∃ res s m,
      Returns (fun fuel => Transfer.readN (firsts (c.results wire.length size) fuel) size
        ⟨wire, .start data⟩) (res, s) ∧
      Moved size m res ∧ m ≤ wire.length ∧ s.wire = wire.drop m ∧
      s.buf.data = wire.take m ++ data.drop m ∧
      (c.Undisturbed → size ≤ wire.length → res = 1) := by
  have ha := c.allowed wire.length size
  generalize hresults : c.results wire.length size = results at ha
  have hmoves : ∀ k, (∀ i < k, Ongoing size results i) → ∃ s,
      Transfer.read (total results k) ⟨wire, .start data⟩ = some s ∧
        s.wire = wire.drop (total results k) ∧
        s.buf.data = wire.take (total results k) ++ data.drop (total results k) := by
    intro k hk
    have hle := total_le ha hk
    obtain ⟨s, hs, hwire, hbefore, hrest⟩ := Transfer.read_eq (s := ⟨wire, .start data⟩)
      (n := total results k) (by dsimp only; omega) (by rw [Cursor.rest_start]; omega)
    refine ⟨s, hs, hwire, ?_⟩
    rw [← List.take_append_drop s.buf.pos s.buf.data]
    exact congrArg₂ List.append hbefore hrest
  obtain ⟨k, res, s, hrun, hmoved, he⟩ := exists_exact Transfer.additive_read hsize
    (fun k n hk hn => (ha k n hk hn).trans (Nat.min_le_left _ _))
    (hresults ▸ c.finite wire.length size) fun k hk => by
      obtain ⟨s, hs, -⟩ := hmoves k hk.made
      rw [hs]
      rfl
  obtain ⟨s', hs', hwire, hbuf⟩ := hmoves k he.made
  obtain rfl := Option.some.inj (hs'.symm.trans hmoved)
  have hle := total_le ha he.made
  have hle' : total results k ≤ size := by omega
  refine ⟨res, s', total results k, returns_transferN hrun, he.moved hle', by omega, hwire, hbuf,
    fun hc havailable => ?_⟩
  subst hresults
  exact he.eq_one hc hle' havailable

end Loops

/-! ### Frames -/

/-- A frame that the build decodes to the message, whatever lies behind it in the buffer, if there
is memory for it. -/
structure Build.Frame (build : Build) (msg : SockMessage) (bytes : List UInt8) : Prop where
  pos : 0 < bytes.length
  lt : bytes.length < 2^63
  le : bytes.length ≤ msg.encode.length + 1
  decodes : ∀ (heap : Heap) (buf : Block) (more : List UInt8) before, buf.data = bytes ++ more →
    (heap.GrantsUpTo msg.encode.length → (build.decode heap bytes.length buf before).isSome) ∧
    ∀ m buf', build.decode heap bytes.length buf before = some (m, buf') →
      m.toSockMessage = msg.received

/-- The longest message: its length is a positive `long long`, or counted by an `int` when it is
compressed. -/
def Build.limit : Build → ℕ
  | plain => 2^63
  | compressed => 2^31

structure Build.Fits (build : Build) (msg : SockMessage) : Prop where
  representable : Representable msg
  frameFits : FrameFits msg
  length_lt : msg.encode.length < build.limit

section Frames
variable {msg : SockMessage} {data result : List UInt8} {qsort : Qsort} {beyond : ℤ}

namespace Build

/-- What is decoded is the message. -/
theorem decodeMessage_encode (h : Representable msg) (hf : FrameFits msg) {buf : Block}
    {more : List UInt8} (hb : buf.data = msg.encode ++ more) (heap : Heap) (before : WireMessage) :
    (heap.GrantsUpTo msg.encode.length →
      (decodeMessage heap msg.encode.length buf before).isSome) ∧
    ∀ m, decodeMessage heap msg.encode.length buf before = some m →
      m.toSockMessage = msg.received := by
  obtain ⟨hdecode, hgranted⟩ := decodeMessage_frame heap hb hf.length_lt before
  constructor
  · intro hg
    rw [hdecode (headerLength_encode_le h) (granted_encode h hg)]
    rfl
  · intro m hm
    obtain ⟨hle, hg⟩ := hgranted (by rw [hm]; rfl)
    rw [hdecode hle hg] at hm
    obtain rfl := Option.some.inj hm
    exact toSockMessage_decode h before

/-! ### The compressed frame -/

/-- A message does not consist of equal bytes, at least not of so many. -/
theorem encode_ne_replicate (msg : SockMessage) (b : UInt8) :
    msg.encode ≠ List.replicate (2^31 - 1) b := by
  intro h
  have hlen := congrArg List.length h
  rw [SockMessage.length_encode, SockMessage.length_bodyBytes, List.length_replicate] at hlen
  have htype : toBytes 4 msg.type.code.toNat = List.replicate 4 b := by
    have hslice : slice msg.encode 16 4 = toBytes 4 msg.type.code.toNat :=
      slice_between msg.uid.toList (by simp) (length_toBytes ..) _
    rw [← hslice, h, slice, List.drop_replicate, List.take_replicate]
    rfl
  rw [SockMessage.attached] at hlen
  obtain ⟨uid, type, request, response⟩ := msg
  cases type with
  | none | other | reqOpenSession | reqCloseSession | reqReadNFiles | respSimple =>
    simp [SockMessageType.body, rawOf] at hlen
  | reqOpenFile | reqCloseFile | reqReadFile | reqLockFile | reqUnlockFile | reqRemoveFile
  | reqWriteFile | reqAppendToFile | respWithFiles =>
    -- the type is a number with only one byte that is not 0
    dsimp only at htype
    have h0 := congrArg (fun bytes => bytes[0]?) htype
    have h1 := congrArg (fun bytes => bytes[1]?) htype
    exact absurd (Option.some.inj (h0.trans h1.symm)) (by decide)

theorem length_compressData_le (hlt : data.length < 2^31)
    (h : compressData qsort beyond data = some result) : result.length ≤ data.length + 1 := by
  by_cases hne : data = []
  · subst hne
    cases h
    exact Nat.zero_le _
  have hcode : ∃ code, buildCode qsort beyond data = some code := by
    rw [compressData, if_neg hne] at h
    obtain ⟨code, hcode, -⟩ := Option.bind_eq_some_iff.mp h
    exact ⟨code, hcode⟩
  obtain ⟨code, hcode⟩ := hcode
  obtain ⟨t, hb⟩ := built_of_buildCode hne hlt hcode
  obtain ⟨out, hout, -, hsize, -⟩ := hb.flush
  rw [compressData_eq hne hcode, hb.encode_eq, hout] at h
  split_ifs at h with hbig
  · cases h
    exact le_of_eq List.length_cons
  · cases h
    change out.streamSize ≤ _
    omega

theorem fit_of_prepare {build : Build} {c : Sending} {buf : Block} {r : ℕ × Block}
    (h : build.prepare c buf msg = some r) :
    ∃ block, buf.fit c.heap (calcMsgSize msg) = some block := by
  obtain ⟨block, hblock, -⟩ := Option.bind_eq_some_iff.mp h
  exact ⟨block, hblock⟩

/-- The message lies in the buffer before it is compressed. -/
theorem prepare_eq (h : Representable msg) (hf : FrameFits msg) (c : Sending) {buf block : Block}
    (hfit : buf.fit c.heap (calcMsgSize msg) = some block) :
    ∃ (buf' : Block) (more : List UInt8), buf'.data = msg.encode ++ more ∧
      ∀ build : Build, build.prepare c buf msg = match build with
        | plain => some (msg.encode.length, buf')
        | compressed => do
          let result ← compressData c.qsort c.beyond msg.encode
          let buf ← Block.ofData result
          return (buf.size, buf) := by
  have hsize := (calcMsgSize_eq_iff h).mpr hf
  obtain ⟨buffer, hser, hpos, hbefore, hlt⟩ :=
    serialise_encode msg (hsize ▸ le_of_fit hfit)
  have hdata : buffer.data = msg.encode ++ buffer.rest := by
    rw [← hbefore]
    exact (List.take_append_drop _ _).symm
  refine ⟨⟨buffer.data, hlt⟩, buffer.rest, hdata, fun build => ?_⟩
  have htake : buffer.data.take msg.encode.length = msg.encode := by
    rw [hdata, List.take_left]
  unfold prepare
  dsimp only
  rw [hfit]
  change (serialise msg (.start block.data) >>= _) = _
  rw [hser]
  change (Block.ofData buffer.data >>= _) = _
  rw [ofData_eq_some hlt, hsize]
  cases build with
  | plain => rfl
  | compressed =>
    change (compressData c.qsort c.beyond (buffer.data.take msg.encode.length) >>= _) = _
    rw [htake]

theorem frame_plain (hr : Representable msg) (hf : FrameFits msg)
    (hlt : msg.encode.length < 2^63) : plain.Frame msg msg.encode where
  pos := by
    rw [SockMessage.length_encode]
    omega
  lt := hlt
  le := Nat.le_succ _
  decodes heap buf more before hb := by
    obtain ⟨hsome, hmsg⟩ := decodeMessage_encode hr hf hb heap before
    constructor
    · intro hg
      obtain ⟨m, hm⟩ := Option.isSome_iff_exists.mp (hsome hg)
      change (decodeMessage heap msg.encode.length buf before >>= _).isSome
      rw [hm]
      rfl
    · intro m buf' h
      obtain ⟨m', hm, h⟩ := Option.bind_eq_some_iff.mp h
      cases h
      exact hmsg m hm

theorem frame_compressed (hr : Representable msg) (hf : FrameFits msg)
    (hlt : msg.encode.length < 2^31) (h : compressData qsort beyond msg.encode = some result) :
    compressed.Frame msg result := by
  have hround : ∀ heap : Heap, heap.grants msg.encode.length = true →
      decompressData heap result = some msg.encode := by
    intro heap hg
    have hback := roundtrip_of_countable qsort beyond hlt (encode_ne_replicate msg) hg
    rwa [h] at hback
  have hle := length_compressData_le hlt h
  have hpos : 0 < msg.encode.length := by
    rw [SockMessage.length_encode]
    omega
  refine ⟨List.length_pos_iff.mpr fun h0 => ?_, by omega, hle, fun heap buf more before hb => ?_⟩
  · have hback := hround .ample rfl
    rw [h0] at hback
    rw [← Option.some.inj hback] at hpos
    exact absurd hpos (lt_irrefl 0)
  have htake : buf.data.take result.length = result := by rw [hb, List.take_left]
  have hplain : (⟨msg.encode, hf.length_lt⟩ : Block).data = msg.encode ++ [] :=
    (List.append_nil _).symm
  obtain ⟨hsome, hmsg⟩ := decodeMessage_encode hr hf hplain heap before
  have hdecode : compressed.decode heap result.length buf before =
      (decompressData heap result).bind fun data => (Block.ofData data).bind fun block =>
        (decodeMessage heap block.size block before).bind fun m => some (m, block) := by
    rw [decode, htake]
    rfl
  rw [hdecode]
  constructor
  · intro hg
    obtain ⟨m, hm⟩ := Option.isSome_iff_exists.mp (hsome hg)
    rw [hround heap (hg _ (Nat.le_refl _)), Option.bind_some, ofData_eq_some hf.length_lt,
      Option.bind_some, Block.size, hm]
    rfl
  · intro m buf' hrun
    obtain ⟨data, hdata, hrun⟩ := Option.bind_eq_some_iff.mp hrun
    obtain rfl := Option.some.inj ((hround .ample rfl).symm.trans (decompressData_ample hdata))
    rw [ofData_eq_some hf.length_lt, Option.bind_some] at hrun
    obtain ⟨m', hm, hrun⟩ := Option.bind_eq_some_iff.mp hrun
    cases hrun
    exact hmsg m hm

/-- What is prepared is a frame. -/
theorem Fits.frame {build : Build} (h : build.Fits msg) {c : Sending} {buf block : Block} {n : ℕ}
    (hrun : build.prepare c buf msg = some (n, block)) : ∃ bytes more : List UInt8,
      n = bytes.length ∧ block.data = bytes ++ more ∧ build.Frame msg bytes := by
  obtain ⟨hr, hf, hlt⟩ := h
  obtain ⟨block', hfit⟩ := fit_of_prepare hrun
  obtain ⟨buf', more, hdata, hprepare⟩ := prepare_eq hr hf c hfit
  rw [hprepare build] at hrun
  cases build with
  | plain =>
    obtain ⟨rfl, rfl⟩ := Prod.mk.inj (Option.some.inj hrun)
    exact ⟨msg.encode, more, rfl, hdata, frame_plain hr hf hlt⟩
  | compressed =>
    obtain ⟨result, hresult, hrun⟩ := Option.bind_eq_some_iff.mp hrun
    obtain ⟨block', hblock, hrun⟩ := Option.bind_eq_some_iff.mp hrun
    obtain ⟨rfl, rfl⟩ := Prod.mk.inj (Option.some.inj hrun)
    have hb := data_of_ofData hblock
    exact ⟨result, [], congrArg List.length hb, hb.trans (List.append_nil _).symm,
      frame_compressed hr hf hlt hresult⟩

end Build

end Frames

/-! ### One message -/

/-- A frame as it is sent. -/
def framed (bytes : List UInt8) : List UInt8 := toBytes 8 bytes.length ++ bytes

theorem length_framed (bytes : List UInt8) : (framed bytes).length = 8 + bytes.length := by
  rw [framed, List.length_append, length_toBytes]

namespace Build
variable {build : Build} {msg : SockMessage}

/-- What is on its way after `writeMessage`: the frame, or the beginning of it if a call fails. -/
inductive Sent (bytes wire : List UInt8) : ℕ → List UInt8 → Prop
  | all {res} (h : Succeeds res) : Sent bytes wire res (wire ++ framed bytes)
  | part {res m} (h : ¬ Succeeds res) (hm : m < (framed bytes).length) :
    Sent bytes wire res (wire ++ (framed bytes).take m)

theorem Sent.append {bytes wire wire' : List UInt8} {res : ℕ} (h : Sent bytes wire res wire') :
    ∃ more, wire' = wire ++ more := by
  cases h with
  | all _ => exact ⟨_, rfl⟩
  | part _ _ => exact ⟨_, rfl⟩

theorem Sent.of_succeeds {bytes wire wire' : List UInt8} {res : ℕ}
    (h : Sent bytes wire res wire') (hres : Succeeds res) : wire' = wire ++ framed bytes := by
  cases h with
  | all _ => rfl
  | part hn _ => exact absurd hres hn

theorem Frame.writeFrame {bytes more : List UInt8} {block : Block} (h : build.Frame msg bytes)
    (hdata : block.data = bytes ++ more) (c : Sending) (wire : List UInt8) : ∃ res wire',
      Returns (fun fuel => writeFrame fuel c wire bytes.length block) (res, wire') ∧
      Sent bytes wire res wire' ∧
      (c.size.Undisturbed → c.data.Undisturbed → Succeeds res) := by
  have hlt := h.lt
  have hlen := length_framed bytes
  obtain ⟨res, s, m, hrun, hmoved, hwire, hone⟩ := writeN_sends c.size
    (length_toBytes 8 bytes.length).ge (by decide) wire
  by_cases hres : res = 1
  · obtain ⟨res', s', m', hrun', hmoved', hwire', hone'⟩ := writeN_sends c.data
      (show bytes.length ≤ block.data.length by rw [hdata, List.length_append]; omega)
      (by omega) s.wire
    have hle := hmoved'.le
    have htake : s'.wire = wire ++ (framed bytes).take (8 + m') := by
      have hsize : (toBytes 8 bytes.length).take 8 = toBytes 8 bytes.length :=
        List.take_of_length_le (length_toBytes ..).le
      have hframe : (framed bytes).take (8 + m') = toBytes 8 bytes.length ++ bytes.take m' := by
        have happend := @List.take_length_add_append _ (toBytes 8 bytes.length) bytes m'
        rwa [length_toBytes] at happend
      rw [hwire', hwire, hmoved.one.mp hres, hsize, hframe, hdata,
        List.take_append_of_le_length hle, List.append_assoc]
    by_cases hres' : res' = 1
    · refine ⟨bytes.length, s'.wire, hrun.bind (.congr (hrun'.bind (.congr (.pure _) fun _ =>
        if_neg (not_not.mpr hres'))) fun _ => if_neg (not_not.mpr hres)), ?_,
        fun _ _ => succeeds_of_lt h.pos hlt⟩
      rw [htake, hmoved'.one.mp hres', ← hlen, List.take_length]
      exact .all (succeeds_of_lt h.pos hlt)
    · refine ⟨toSize res', s'.wire, hrun.bind (.congr (hrun'.bind (.congr (.pure _) fun _ =>
        if_pos hres')) fun _ => if_neg (not_not.mpr hres)), ?_,
        fun _ hc => absurd (hone' hc) hres'⟩
      rw [htake]
      have hne := mt hmoved'.one.mpr hres'
      exact .part (not_succeeds (hmoved'.other hres')) (by omega)
  · refine ⟨toSize res, s.wire, hrun.bind (.congr (.pure _) fun _ => if_pos hres), ?_,
      fun hc _ => absurd (hone hc) hres⟩
    have hne := mt hmoved.one.mpr hres
    have hle := hmoved.le
    have htake : (toBytes 8 bytes.length).take m = (framed bytes).take m := by
      rw [framed, List.take_append_of_le_length (by rw [length_toBytes]; exact hle)]
    rw [hwire, htake]
    exact .part (not_succeeds (hmoved.other hres)) (by omega)

/-- The first frame on the wire, or as many bytes as its size announces. -/
def firstFrame (wire : List UInt8) : List UInt8 := (wire.drop 8).take (announced wire)

/-- The message that a read finds in its buffer. -/
structure Found (build : Build) (heap : Heap) (wire : List UInt8) (before : WireMessage)
    (out : ReadOutcome) : Prop where
  complete : 8 ≤ wire.length ∧ announced wire ≤ (wire.drop 8).length
  decodes : ∃ (block : Block) (more : List UInt8), block.data = firstFrame wire ++ more ∧
    build.decode heap (announced wire) block before = some (out.msg, out.buf)
  res_eq : out.res = announced wire
  stream_eq : out.stream = (wire.drop 8).drop (announced wire)

/-- The buffer in which the second loop of a read leaves the bytes of a frame. -/
theorem readN_frame (c : Schedule) {msgSize : ℕ} {block : Block}
    (hle : msgSize ≤ block.data.length) (wire : List UInt8) : ∃ res s m,
      Returns (fun fuel => Transfer.readN (firsts (c.results wire.length msgSize) fuel) msgSize
        ⟨wire, .start (List.replicate msgSize 0 ++ block.data.drop msgSize)⟩) (res, s) ∧
      Moved msgSize m res ∧ m ≤ wire.length ∧ s.wire = wire.drop m ∧
      (∃ block, Block.ofData s.buf.data = some block ∧
        (res = 1 → ∃ more, block.data = wire.take msgSize ++ more)) ∧
      (c.Undisturbed → msgSize ≤ wire.length → res = 1) := by
  have hlt := block.size_lt
  obtain ⟨res, s, m, hrun, hmoved, hm, hwire, hbuf, hone⟩ := readN_receives c
    (show msgSize ≤ (List.replicate msgSize (0 : UInt8) ++ block.data.drop msgSize).length by
      rw [List.length_append, List.length_replicate]
      omega) (hle.trans_lt hlt) wire
  have hmle := hmoved.le
  have hlen : s.buf.data.length < 2^64 := by
    rw [hbuf, List.length_append, List.length_take_of_le hm, List.length_drop,
      List.length_append, List.length_replicate, List.length_drop]
    omega
  refine ⟨res, s, m, hrun, hmoved, hm, hwire, ⟨⟨_, hlen⟩, ofData_eq_some hlen, fun h1 => ?_⟩, hone⟩
  rw [← hmoved.one.mp h1]
  exact ⟨_, hbuf⟩

/-- The first loop of a read leaves the size of the frame. -/
theorem readN_size (c : Schedule) (wire : List UInt8) : ∃ res s m,
    Returns (fun fuel => Transfer.readN (firsts (c.results wire.length 8) fuel) 8
      ⟨wire, .start (toBytes 8 0)⟩) (res, s) ∧
    Moved 8 m res ∧ m ≤ wire.length ∧ s.wire = wire.drop m ∧
    (res = 1 → ofBytes s.buf.data = announced wire) ∧
    (c.Undisturbed → 8 ≤ wire.length → res = 1) := by
  obtain ⟨res, s, m, hrun, hmoved, hm, hwire, hbuf, hone⟩ := readN_receives c
    (length_toBytes 8 0).ge (by decide) wire
  refine ⟨res, s, m, hrun, hmoved, hm, hwire, fun h1 => ?_, hone⟩
  rw [hbuf, hmoved.one.mp h1, List.drop_of_length_le (length_toBytes ..).le, List.append_nil,
    announced]

/-- What `readMessage` has returned is either no message, and then it was disturbed or there is no
complete frame, or the message that it found. -/
theorem readMessage_only {fuel : ℕ} {c : Receiving} {wire : List UInt8} {buf : Block}
    {before : WireMessage} {out : ReadOutcome}
    (h : build.readMessage fuel c wire buf before = some out) :
    (¬ Succeeds out.res ∧ (c.size.Undisturbed → c.data.Undisturbed → 8 ≤ wire.length →
      (wire.drop 8).length < announced wire)) ∨
    Found build c.heap wire before out := by
  obtain ⟨res, s, m, hrun, hmoved, hm, hwire, hsize, hone⟩ := readN_size c.size wire
  obtain ⟨x, hx, h⟩ := Option.bind_eq_some_iff.mp h
  obtain rfl := hrun.only fuel x hx
  dsimp only at h
  by_cases hres : res = 1
  swap
  · rw [if_pos hres] at h
    obtain rfl := Option.some.inj h
    exact .inl ⟨not_succeeds (hmoved.other hres), fun hc _ h8 => absurd (hone hc h8) hres⟩
  rw [if_neg (not_not.mpr hres), hsize hres] at h
  have h8 := hmoved.one.mp hres
  subst h8
  obtain ⟨block, hfit, h⟩ := Option.bind_eq_some_iff.mp h
  obtain ⟨res', s', m', hrun', hmoved', hm', hwire', ⟨block', hof, hdata⟩, hone'⟩ :=
    readN_frame c.data (le_of_fit hfit) s.wire
  obtain ⟨x, hx, h⟩ := Option.bind_eq_some_iff.mp h
  obtain rfl := hrun'.only fuel x hx
  dsimp only at h
  rw [hof, Option.bind_eq_bind, Option.bind_some] at h
  rw [hwire] at hm' hwire' hdata hone'
  by_cases hres' : res' = 1
  · rw [if_neg (not_not.mpr hres')] at h
    obtain ⟨⟨msg, buf'⟩, hmsg, h⟩ := Option.bind_eq_some_iff.mp h
    obtain rfl := Option.some.inj h
    have hm'' := hmoved'.one.mp hres'
    subst hm''
    obtain ⟨more, hmore⟩ := hdata hres'
    exact .inr ⟨⟨hm, hm'⟩, ⟨block', more, hmore, hmsg⟩, rfl, hwire'⟩
  · rw [if_pos hres'] at h
    obtain rfl := Option.some.inj h
    refine .inl ⟨not_succeeds (hmoved'.other hres'), fun _ hc' _ => ?_⟩
    exact not_le.mp fun hle => hres' (hone' hc' hle)

end Build

/-! ### Conversations -/

/-- A connection in one direction: the bytes on their way and the buffers of the two ends. -/
structure Socket where
  wire : List UInt8
  sender : Block
  receiver : Block

/-- A call that fails may have moved nothing, or a part of a frame. -/
inductive SocketEvent
  | sent (msg : SockMessage)
  | notSent
  | partSent
  | received (msg : WireMessage)
  | notReceived
  | partReceived

namespace SocketEvent

end SocketEvent

namespace Socket

/-- Both ends go on after a call that has failed. -/
inductive Step (build : Build) : Socket → SocketEvent → Socket → Prop
  | sent {s : Socket} {msg fuel c res wire buf} (hf : build.Fits msg)
      (h : build.writeMessage fuel c s.wire s.sender msg = some (res, wire, buf))
      (hres : Succeeds res) :
    Step build s (.sent msg) { s with wire := wire, sender := buf }
  | notSent {s : Socket} {msg fuel c res wire buf} (hf : build.Fits msg)
      (h : build.writeMessage fuel c s.wire s.sender msg = some (res, wire, buf))
      (hres : ¬ Succeeds res) (hwire : wire = s.wire) :
    Step build s .notSent { s with wire := wire, sender := buf }
  | partSent {s : Socket} {msg fuel c res wire buf} (hf : build.Fits msg)
      (h : build.writeMessage fuel c s.wire s.sender msg = some (res, wire, buf))
      (hres : ¬ Succeeds res) (hwire : wire ≠ s.wire) :
    Step build s .partSent { s with wire := wire, sender := buf }
  | received {s : Socket} {fuel c before out}
      (h : build.readMessage fuel c s.wire s.receiver before = some out)
      (hres : Succeeds out.res) :
    Step build s (.received out.msg) { s with wire := out.stream, receiver := out.buf }
  | notReceived {s : Socket} {fuel c before out}
      (h : build.readMessage fuel c s.wire s.receiver before = some out)
      (hres : ¬ Succeeds out.res) (hwire : out.stream = s.wire) :
    Step build s .notReceived { s with wire := out.stream, receiver := out.buf }
  | partReceived {s : Socket} {fuel c before out}
      (h : build.readMessage fuel c s.wire s.receiver before = some out)
      (hres : ¬ Succeeds out.res) (hwire : out.stream ≠ s.wire) :
    Step build s .partReceived { s with wire := out.stream, receiver := out.buf }

/-- The wire begins with the frames of these messages. -/
def Carries (build : Build) (wire : List UInt8) (msgs : List SockMessage) (more : List UInt8) :
    Prop :=
  ∃ frames : List (List UInt8), List.Forall₂ build.Frame msgs frames ∧
    wire = frames.flatMap framed ++ more

section
variable {build : Build} {wire more : List UInt8} {msg : SockMessage} {msgs : List SockMessage}

theorem Carries.append (h : Carries build wire msgs more) (bytes : List UInt8) :
    Carries build (wire ++ bytes) msgs (more ++ bytes) := by
  obtain ⟨frames, hframes, rfl⟩ := h
  exact ⟨frames, hframes, List.append_assoc ..⟩

theorem Carries.append_frame (h : Carries build wire msgs []) {bytes : List UInt8}
    (hb : build.Frame msg bytes) : Carries build (wire ++ framed bytes) (msgs ++ [msg]) [] := by
  obtain ⟨frames, hframes, rfl⟩ := h
  refine ⟨frames ++ [bytes], List.rel_append hframes (.cons hb .nil), ?_⟩
  rw [List.flatMap_append, List.flatMap_singleton, List.append_nil, List.append_nil]

/-- The first frame of the wire. -/
theorem Carries.head (h : Carries build wire (msg::msgs) more) : ∃ bytes rest,
    build.Frame msg bytes ∧ 8 ≤ wire.length ∧ announced wire = bytes.length ∧
      Build.firstFrame wire = bytes ∧ (wire.drop 8).drop bytes.length = rest ∧
      bytes.length ≤ (wire.drop 8).length ∧ Carries build rest msgs more := by
  obtain ⟨frames, hframes, rfl⟩ := h
  cases hframes with
  | @cons _ bytes _ frames hframe hframes =>
    have hlt := hframe.lt
    have hwire : (bytes :: frames).flatMap framed ++ more =
        toBytes 8 bytes.length ++ (bytes ++ (frames.flatMap framed ++ more)) := by
      rw [List.flatMap_cons, framed, List.append_assoc, List.append_assoc]
    rw [hwire]
    have hdrop : (toBytes 8 bytes.length ++ (bytes ++ (frames.flatMap framed ++ more))).drop 8 =
        bytes ++ (frames.flatMap framed ++ more) := List.drop_left' (length_toBytes ..)
    have hann : announced (toBytes 8 bytes.length ++
        (bytes ++ (frames.flatMap framed ++ more))) = bytes.length := by
      rw [announced, List.take_left' (length_toBytes ..)]
      exact ofBytes_toBytes_of_lt (by omega)
    refine ⟨bytes, frames.flatMap framed ++ more, hframe, ?_, hann, ?_, ?_, ?_, frames, hframes,
      rfl⟩
    · rw [List.length_append, length_toBytes]
      omega
    · rw [Build.firstFrame, hdrop, hann, List.take_left]
    · rw [hdrop, List.drop_left]
    · rw [hdrop, List.length_append]
      omega

/-- A read that has succeeded has found the first message. -/
theorem Carries.found (h : Carries build wire (msg::msgs) more) {heap : Heap}
    {before : WireMessage} {out : ReadOutcome} (hout : Build.Found build heap wire before out) :
    out.msg.toSockMessage = msg.received ∧ Carries build out.stream msgs more ∧
      Succeeds out.res := by
  obtain ⟨bytes, rest, hframe, -, hann, hfirst, hrest, -, hcarries⟩ := h.head
  obtain ⟨-, ⟨block, tail, hdata, hdecode⟩, hres, hstream⟩ := hout
  rw [hann] at hdecode hres hstream
  rw [hfirst] at hdata
  refine ⟨((hframe.decodes heap block tail before hdata).2 _ _ hdecode), ?_, ?_⟩
  · rwa [hstream, hrest]
  · rw [hres]
    exact succeeds_of_lt hframe.pos hframe.lt

/-- Without a byte there is nothing to be found. -/
theorem not_found_nil {heap : Heap} {before : WireMessage} {out : ReadOutcome} :
    ¬ Build.Found build heap [] before out :=
  fun h => absurd h.complete.1 (by decide)

end

/-- What has become of the messages `S` when `R` have been received, and whether a part of a frame
has been sent or received. -/
inductive Delivery (build : Build) (wire : List UInt8) (S R : List SockMessage) :
    Bool → Bool → Prop
  | whole {done msgs} (h : Carries build wire msgs []) (hS : S = done ++ msgs)
      (hR : R = done.map SockMessage.received) : Delivery build wire S R false false
  | partSent {done msgs more} (h : Carries build wire msgs more) (hS : S = done ++ msgs)
      (hR : R = done.map SockMessage.received) : Delivery build wire S R true false
  | beyond (h : S.map SockMessage.received <+: R) : Delivery build wire S R true false
  | partReceived {b} (h : R <+: S.map SockMessage.received) : Delivery build wire S R b true
  | partBeyond (h : S.map SockMessage.received <+: R) : Delivery build wire S R true true

section
variable {build : Build} {s s' : Socket} {tr : List SocketEvent} {e : SocketEvent}
  {S R done msgs : List SockMessage} {cut torn : Bool}

theorem prefix_of_done (hS : S = done ++ msgs) (hR : R = done.map SockMessage.received) :
    R <+: S.map SockMessage.received :=
  ⟨msgs.map SockMessage.received, by rw [hS, hR, List.map_append]⟩

/-- What a write does to the wire. -/
theorem Delivery.write {wire bytes : List UInt8} {msg : SockMessage} {res : ℕ}
    (h : Delivery build wire S R cut torn) (hb : build.Frame msg bytes) {wire' : List UInt8}
    (hs : Build.Sent bytes wire res wire') :
    (Succeeds res → Delivery build wire' (if cut then S else S ++ [msg]) R cut torn) ∧
    (¬ Succeeds res → wire' = wire → Delivery build wire' S R cut torn) ∧
    (¬ Succeeds res → Delivery build wire' S R true torn) := by
  obtain ⟨more, rfl⟩ := hs.append
  refine ⟨fun hres => ?_, fun _ hw => by rwa [hw], fun _ => ?_⟩
  · cases h with
    | whole hc hS hR =>
      rw [hs.of_succeeds hres]
      refine .whole (hc.append_frame hb) ?_ hR
      rw [if_neg Bool.false_ne_true, hS, List.append_assoc]
    | partSent hc hS hR => exact .partSent (hc.append more) hS hR
    | beyond hp => exact .beyond hp
    | partReceived hp =>
      refine .partReceived ?_
      split_ifs
      · exact hp
      · rw [List.map_append]
        exact hp.trans (List.prefix_append ..)
    | partBeyond hp => exact .partBeyond hp
  · cases h with
    | whole hc hS hR => exact .partSent (hc.append more) hS hR
    | partSent hc hS hR => exact .partSent (hc.append more) hS hR
    | beyond hp => exact .beyond hp
    | partReceived hp => exact .partReceived hp
    | partBeyond hp => exact .partBeyond hp

/-- What a read does to the wire. -/
theorem Delivery.read {wire : List UInt8} {fuel : ℕ} {c : Receiving} {buf : Block}
    {before : WireMessage} {out : ReadOutcome} (h : Delivery build wire S R cut torn)
    (hr : build.readMessage fuel c wire buf before = some out) :
    (Succeeds out.res → Delivery build out.stream S
      (if torn then R else R ++ [out.msg.toSockMessage]) cut torn) ∧
    (out.stream = wire → Delivery build out.stream S R cut torn) ∧
    Delivery build out.stream S R cut true := by
  refine ⟨fun hres => ?_, fun hw => by rwa [hw], ?_⟩
  · have hfound := (Build.readMessage_only hr).resolve_left fun hn => hn.1 hres
    cases h with
    | @whole done msgs hc hS hR =>
      cases msgs with
      | nil =>
        obtain ⟨frames, hframes, rfl⟩ := hc
        cases hframes
        exact absurd hfound not_found_nil
      | cons msg msgs =>
        obtain ⟨hmsg, hc', -⟩ := hc.found hfound
        refine .whole hc' (hS.trans (List.append_cons ..)) ?_
        rw [if_neg Bool.false_ne_true, hR, hmsg, List.map_append]
        rfl
    | @partSent done msgs more hc hS hR =>
      cases msgs with
      | nil =>
        refine .beyond ?_
        rw [if_neg Bool.false_ne_true, hS, hR, List.append_nil]
        exact List.prefix_append ..
      | cons msg msgs =>
        obtain ⟨hmsg, hc', -⟩ := hc.found hfound
        refine .partSent hc' (hS.trans (List.append_cons ..)) ?_
        rw [if_neg Bool.false_ne_true, hR, hmsg, List.map_append]
        rfl
    | beyond hp => exact .beyond (hp.trans (List.prefix_append ..))
    | partReceived hp => exact .partReceived hp
    | partBeyond hp => exact .partBeyond hp
  · cases h with
    | whole _ hS hR => exact .partReceived (prefix_of_done hS hR)
    | partSent _ hS hR => exact .partReceived (prefix_of_done hS hR)
    | beyond hp => exact .partBeyond hp
    | partReceived hp => exact .partReceived hp
    | partBeyond hp => exact .partBeyond hp

end

end Socket
end StorageServer.Common
