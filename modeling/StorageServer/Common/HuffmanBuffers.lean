import StorageServer.Common.HuffmanEncoding

/-! The buffers of the compression as lists of bits: what has been written into one, and what is
left to be read from one. -/
namespace StorageServer.Common
open Library.Bits

namespace HuffBuffer
variable {out buffer : HuffBuffer} {data bytes : List UInt8} {w u p done rest : List Bool}
  {b : Bool}

def writeBits (out : HuffBuffer) (w : List Bool) : HuffBuffer := w.foldl writeBit out

theorem writeByte_eq (out : HuffBuffer) (n : ℕ) : out.writeByte n = out.writeBits (byteBits n) :=
  rfl

theorem writeBits_append (out : HuffBuffer) (u w : List Bool) :
    out.writeBits (u ++ w) = (out.writeBits u).writeBits w := List.foldl_append

@[simp] theorem streamSize_writeBit (out : HuffBuffer) (b : Bool) :
    (out.writeBit b).streamSize = out.streamSize := by
  unfold writeBit streamSize
  dsimp only
  split_ifs
  · exact List.length_set
  · rfl

@[simp] theorem streamSize_writeBits (out : HuffBuffer) (w : List Bool) :
    (out.writeBits w).streamSize = out.streamSize := by
  induction w generalizing out with
  | nil => rfl
  | cons b w ih => exact (ih (out.writeBit b)).trans (streamSize_writeBit out b)

/-! ### Writing -/

/-- What has been written are the complete bytes and the bits `p` of the next one. -/
structure Holds (out : HuffBuffer) (p w : List Bool) : Prop where
  written : w = bits (out.stream.take out.streamIndex) ++ p
  byteIndex : out.byteIndex = p.length
  lt : p.length < 8
  byte : byteBits out.byte.toNat = p ++ List.replicate (8 - p.length) false
  fits : out.streamIndex ≤ out.streamSize

/-- The bits `w` have been written and none of them was dropped. -/
def Wrote (out : HuffBuffer) (w : List Bool) : Prop := ∃ p, out.Holds p w

theorem wrote_output (n : ℕ) : (output n).Wrote [] :=
  ⟨[], rfl, rfl, by decide, byteBits_zero, Nat.zero_le _⟩

theorem Holds.length (h : out.Holds p w) : w.length = 8 * out.streamIndex + p.length := by
  have hfits : out.streamIndex ≤ out.stream.length := h.fits
  rw [h.written, List.length_append, length_bits, List.length_take, Nat.min_eq_left hfits]

/-- The number of the bits that have been written. -/
def position (out : HuffBuffer) : ℕ := 8 * out.streamIndex + out.byteIndex

theorem Wrote.position_eq (h : out.Wrote w) : out.position = w.length := by
  obtain ⟨p, hp⟩ := h
  rw [position, hp.byteIndex, hp.length]

theorem Wrote.byteIndex_eq (h : out.Wrote w) : out.byteIndex = w.length % 8 := by
  obtain ⟨p, hp⟩ := h
  have hlen := hp.length
  have hlt := hp.lt
  rw [hp.byteIndex]
  omega

theorem take_set_self (bytes : List UInt8) {i : ℕ} (hi : i < bytes.length) (byte : UInt8) :
    (bytes.set i byte).take (i + 1) = bytes.take i ++ [byte] := by
  have hset : i < (bytes.set i byte).length := by rwa [List.length_set]
  rw [List.take_succ_eq_append_getElem hset, List.getElem_set_self, List.take_set_of_le le_rfl]

theorem Holds.writeBit (h : out.Holds p w) (hn : w.length < 8 * out.streamSize) (b : Bool) :
    (out.writeBit b).Wrote (w ++ [b]) := by
  have hlt := h.lt
  have hlen := h.length
  have hidx : out.streamIndex < out.stream.length := by
    change w.length < 8 * out.stream.length at hn
    omega
  have hbyte := byteBits_or hlt h.byte b
  unfold HuffBuffer.writeBit
  dsimp only
  rw [h.byteIndex]
  generalize out.byte ||| UInt8.ofNat (b.toNat <<< (7 - p.length)) = byte at hbyte
  by_cases h8 : p.length + 1 = 8
  -- the byte is complete
  · rw [if_pos h8]
    have h7 : 7 - p.length = 0 := by omega
    rw [h7] at hbyte
    refine ⟨[], ?_, rfl, by decide, byteBits_zero, ?_⟩
    · dsimp only
      rw [take_set_self _ hidx, bits_append, bits_cons, hbyte, h.written]
      simp [bits]
    · change out.streamIndex + 1 ≤ (out.stream.set _ _).length
      rw [List.length_set]
      exact hidx
  · rw [if_neg h8]
    refine ⟨p ++ [b], ?_, ?_, ?_, ?_, h.fits⟩
    · rw [h.written, List.append_assoc]
    · rw [List.length_append]
      rfl
    · rw [List.length_append, List.length_singleton]
      omega
    · have h7 : 8 - (p.length + 1) = 7 - p.length := by omega
      rw [List.length_append, List.length_singleton, h7, hbyte, List.append_assoc]
      rfl

theorem Wrote.writeBits (h : out.Wrote w) (hn : w.length + u.length ≤ 8 * out.streamSize) :
    (out.writeBits u).Wrote (w ++ u) := by
  induction u generalizing out w with
  | nil => rwa [List.append_nil]
  | cons b u ih =>
    obtain ⟨p, hp⟩ := h
    rw [List.length_cons] at hn
    have hb := hp.writeBit (by omega) b
    have hu := ih hb (by
      rw [List.length_append, List.length_singleton, streamSize_writeBit]
      omega)
    rwa [List.append_assoc] at hu

/-- A stream without free space holds the bytes that were written into it. -/
theorem Wrote.stream_eq (h : out.Wrote (bits bytes)) (hn : out.streamSize = bytes.length) :
    out.stream = bytes := by
  obtain ⟨p, hp⟩ := h
  have hlen := hp.length
  have hlt := hp.lt
  have hn' : out.stream.length = bytes.length := hn
  rw [length_bits] at hlen
  have hpn : p = [] := List.length_eq_zero_iff.mp (by omega)
  have hidx : out.streamIndex = out.stream.length := by omega
  have hw := hp.written
  rw [hpn, hidx, List.take_length, List.append_nil] at hw
  exact bits_injective hw.symm

/-- The last byte is filled up with zeros; it finds its place if the size was estimated well. -/
theorem Wrote.flush (h : out.Wrote w)
    (hn : out.streamSize = w.length / 8 + if w.length % 8 ≠ 0 then 1 else 0) :
    ∃ out', out.flush = some out' ∧ out'.streamIndex = out'.streamSize ∧
      out'.streamSize = out.streamSize ∧
      bits out'.stream = w ++ List.replicate (8 * out.streamSize - w.length) false := by
  obtain ⟨p, hp⟩ := h
  have hlen := hp.length
  have hlt := hp.lt
  have hsize : out.streamSize = out.stream.length := rfl
  unfold HuffBuffer.flush
  rw [hp.byteIndex]
  by_cases h0 : p.length > 0
  · rw [if_pos (by omega)] at hn
    have hidx : out.streamIndex + 1 = out.stream.length := by omega
    rw [if_pos h0, if_pos (by omega)]
    refine ⟨_, rfl, ?_, List.length_set, ?_⟩
    · change out.streamIndex + 1 = (out.stream.set _ _).length
      rw [List.length_set, hidx]
    · have hset := take_set_self out.stream (i := out.streamIndex) (by omega) out.byte
      rw [hidx, List.take_of_length_le (by rw [List.length_set])] at hset
      have hrep : 8 * out.streamSize - w.length = 8 - p.length := by omega
      rw [hrep]
      change bits (out.stream.set _ _) = _
      rw [hset, bits_append, bits_cons, hp.byte, hp.written]
      simp [bits]
  · rw [if_neg (by omega)] at hn
    have hpn : p = [] := List.length_eq_zero_iff.mp (by omega)
    have hidx : out.streamIndex = out.stream.length := by omega
    have hrep : 8 * out.streamSize - w.length = 0 := by omega
    rw [if_neg h0]
    refine ⟨out, rfl, hidx, rfl, ?_⟩
    rw [hrep, hp.written, hpn, hidx, List.take_length]
    simp

/-! ### Reading -/

/-- Of the bits of `data` the buffer has delivered `done`, and `rest` is still to come. -/
structure Reads (buffer : HuffBuffer) (data : List UInt8) (done rest : List Bool) : Prop where
  stream : buffer.stream = data
  split : bits data = done ++ rest
  streamIndex : buffer.streamIndex = done.length / 8 + 1
  byteIndex : buffer.byteIndex = done.length % 8
  byte : rest ≠ [] → data[done.length / 8]? = some buffer.byte

theorem reads_start (byte : UInt8) (bytes : List UInt8) :
    Reads ⟨byte :: bytes, 1, byte, 0⟩ (byte :: bytes) [] (bits (byte :: bytes)) :=
  ⟨rfl, rfl, rfl, rfl, fun _ => rfl⟩

theorem Reads.readBit (h : buffer.Reads data done (b :: rest)) :
    ∃ buffer', buffer.readBit = (b, buffer') ∧ buffer'.Reads data (done ++ [b]) rest := by
  have hbyte := h.byte (List.cons_ne_nil _ _)
  have hbit : checkBit buffer.byte.toNat (7 - buffer.byteIndex) = b := by
    have hi := congrArg (fun l : List Bool => l[done.length]?) h.split
    rw [getElem?_bits, hbyte, List.getElem?_append_right le_rfl, Nat.sub_self] at hi
    rw [checkBit, h.byteIndex]
    exact Option.some.inj hi
  have hlen := congrArg List.length h.split
  rw [length_bits, List.length_append, List.length_cons] at hlen
  have hdone : (done ++ [b]).length = done.length + 1 := List.length_append
  have hsplit : bits data = (done ++ [b]) ++ rest := by
    rw [h.split, List.append_assoc]
    rfl
  unfold HuffBuffer.readBit
  dsimp only
  rw [hbit, h.byteIndex]
  by_cases h8 : done.length % 8 + 1 = 8
  · rw [if_pos h8]
    refine ⟨_, rfl, h.stream, hsplit, ?_, ?_, fun hr => ?_⟩
    · rw [hdone]
      change buffer.streamIndex + 1 = _
      rw [h.streamIndex]
      omega
    · rw [hdone]
      change 0 = _
      omega
    · have hpos := List.length_pos_iff.mpr hr
      have hd : (done.length + 1) / 8 = done.length / 8 + 1 := by omega
      change data[_]? = some (buffer.stream.getD buffer.streamIndex buffer.byte)
      rw [hdone, hd, h.stream, h.streamIndex, List.getD_eq_getElem?_getD,
        List.getElem?_eq_getElem (by omega)]
      rfl
  · rw [if_neg h8]
    refine ⟨_, rfl, h.stream, hsplit, ?_, ?_, fun _ => ?_⟩
    · rw [hdone, h.streamIndex]
      omega
    · rw [hdone]
      change done.length % 8 + 1 = _
      omega
    · have hd : (done.length + 1) / 8 = done.length / 8 := by omega
      rw [hdone, hd]
      exact hbyte

theorem byte_of_bits (v : UInt8) : [7, 6, 5, 4, 3, 2, 1, 0].foldl
    (fun byte i => byte ||| UInt8.ofNat ((v.toNat.testBit i).toNat <<< i)) 0 = v := by
  have h : ∀ n < 256, [7, 6, 5, 4, 3, 2, 1, 0].foldl
      (fun byte i => byte ||| UInt8.ofNat ((n.testBit i).toNat <<< i)) 0 = UInt8.ofNat n := by
    decide +kernel
  rw [h v.toNat v.toNat_lt, UInt8.ofNat_toNat]

theorem Reads.readPositions {n : ℕ} (is : List ℕ) (byte : UInt8)
    (h : buffer.Reads data done (is.map n.testBit ++ rest)) : ∃ buffer',
      is.foldl (fun (byte, buffer) i =>
        let (bitValue, buffer) := HuffBuffer.readBit buffer
        (byte ||| UInt8.ofNat (bitValue.toNat <<< i), buffer)) (byte, buffer) =
        (is.foldl (fun byte i => byte ||| UInt8.ofNat ((n.testBit i).toNat <<< i)) byte, buffer') ∧
      buffer'.Reads data (done ++ is.map n.testBit) rest := by
  induction is generalizing byte buffer done with
  | nil => exact ⟨buffer, rfl, by rwa [List.map_nil, List.append_nil]⟩
  | cons i is ih =>
    obtain ⟨buffer₁, h1, hr₁⟩ := h.readBit
    obtain ⟨buffer', h', hr'⟩ := ih (byte ||| UInt8.ofNat ((n.testBit i).toNat <<< i)) hr₁
    rw [List.append_assoc] at hr'
    refine ⟨buffer', ?_, hr'⟩
    rw [List.foldl_cons, List.foldl_cons, ← h']
    dsimp only
    rw [h1]

theorem Reads.readByte {v : UInt8} (h : buffer.Reads data done (byteBits v.toNat ++ rest)) :
    ∃ buffer', buffer.readByte = (v, buffer') ∧
      buffer'.Reads data (done ++ byteBits v.toNat) rest := by
  obtain ⟨buffer', h', hr'⟩ := Reads.readPositions [7, 6, 5, 4, 3, 2, 1, 0] 0 h
  rw [byte_of_bits] at h'
  exact ⟨buffer', h', hr'⟩

end HuffBuffer
end StorageServer.Common
