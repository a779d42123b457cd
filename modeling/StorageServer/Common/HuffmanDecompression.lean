import StorageServer.Common.HuffmanDecoding

/-! Decompression. The header and the tree are read first; then the content is decoded until the
padding, which gives the data back that was compressed. -/
namespace StorageServer.Common
open Library Library.Bits

/-! ### The header -/

theorem testBit_byte (n a i : ℕ) : ((UInt8.ofNat (n >>> a)).toNat <<< a).testBit i =
    (decide (a ≤ i ∧ i < a + 8) && n.testBit i) := by
  rw [Nat.testBit_shiftLeft, UInt8.toNat_ofNat', Nat.testBit_mod_two_pow, Nat.testBit_shiftRight]
  by_cases ha : a ≤ i
  · have hlt : i - a < 8 ↔ i < a + 8 := by omega
    rw [Nat.add_sub_cancel' ha]
    simp [ha, hlt]
  · simp [ha]

theorem originalSize_bytes {n : ℕ} (h : n < 2^31) :
    originalSize (UInt8.ofNat (n >>> 24)) (UInt8.ofNat (n >>> 16)) (UInt8.ofNat (n >>> 8))
      (UInt8.ofNat (n >>> 0)) = n := by
  have hor : (UInt8.ofNat (n >>> 24)).toNat <<< 24 ||| (UInt8.ofNat (n >>> 16)).toNat <<< 16 |||
      (UInt8.ofNat (n >>> 8)).toNat <<< 8 ||| (UInt8.ofNat (n >>> 0)).toNat <<< 0 = n := by
    apply Nat.eq_of_testBit_eq
    intro i
    simp only [Nat.testBit_or, testBit_byte]
    by_cases hi : 31 ≤ i
    · rw [Nat.testBit_lt_two_pow (h.trans_le (Nat.pow_le_pow_right (by decide) hi))]
      simp
    · cases n.testBit i with
      | false => simp
      | true =>
        simp only [Bool.and_true, Bool.or_eq_true, decide_eq_true_eq]
        omega
  have hint : toInt (n : ℤ) = n := Int.bmod_eq_of_le (by omega) (by omega)
  unfold originalSize
  rw [hor, hint, toSize]
  omega

/-- The six bytes before the tree, and what is done with them. -/
theorem decompressData_eq {data : List UInt8} {header1 byte b3 b2 b1 b0 : UInt8} {w : List Bool}
    {t : CodeTree UInt8}
    (hdata : bits data = bits [header1, byte, b3, b2, b1, b0] ++ (HuffCode.treeBits t ++ w))
    (hflag : checkBit header1.toNat 7 = true) (hcount : t.leaves.length = byte.toNat + 1)
    (h2 : 2 ≤ t.leaves.length) : ∃ tree input done, Spells (decodedCell tree) 0 t ∧
      input.Reads data done w ∧ done.length + 1 = 48 + 10 * t.leaves.length ∧
      ∀ heap : Heap, decompressData heap data = (do
        heap.alloc (originalSize b3 b2 b1 b0)
        let d ← Decoding.decodeBits tree (8 - input.byteIndex)
          ⟨0, input, .output (originalSize b3 b2 b1 b0)⟩
        let d ← d.decodeBytes tree (header1.toNat &&& 0x3F) data.length (8 * data.length + 1)
        let d ← d.decodeBits tree (header1.toNat &&& 0x3F)
        return d.out.stream) := by
  cases data with
  | nil => exact nomatch hdata
  | cons first more =>
    have hr := HuffBuffer.reads_start first more
    rw [hdata] at hr
    simp only [bits_cons, List.append_assoc] at hr
    obtain ⟨input₁, h1, hr⟩ := hr.readByte
    obtain ⟨input₂, h2', hr⟩ := hr.readByte
    obtain ⟨input₃, h3, hr⟩ := hr.readByte
    obtain ⟨input₄, h4, hr⟩ := hr.readByte
    obtain ⟨input₅, h5, hr⟩ := hr.readByte
    obtain ⟨input₆, h6, hr⟩ := hr.readByte
    have hlt := byte.toNat_lt
    obtain ⟨tree, input, htree, hr, hs⟩ := readTrees_root t h2 (by omega) hr
    refine ⟨tree, input, _, hs, hr, ?_, ?_⟩
    · have htb := HuffCode.length_treeBits t
      simp only [List.length_append, length_byteBits, List.length_nil]
      omega
    · intro heap
      unfold decompressData
      dsimp only
      rw [h1]
      dsimp only
      rw [if_neg (by rw [hflag]; decide), h2']
      dsimp only
      rw [h3]
      dsimp only
      rw [h4]
      dsimp only
      rw [h5]
      dsimp only
      rw [h6]
      dsimp only
      rw [if_neg (Nat.succ_ne_zero _), ← hcount]
      change (readTrees _ _ _ (List.replicate _ blank) _ >>= _) = _
      rw [htree]
      rfl

/-! ### The way back -/

theorem header_flags {padding : ℕ} (h : padding < 8) :
    checkBit (UInt8.ofNat (0x80 ||| padding)).toNat 7 = true ∧
      (UInt8.ofNat (0x80 ||| padding)).toNat &&& 0x3F = padding := by
  have hall : ∀ p < 8, checkBit (UInt8.ofNat (0x80 ||| p)).toNat 7 = true ∧
      (UInt8.ofNat (0x80 ||| p)).toNat &&& 0x3F = p := by decide
  exact hall padding h

theorem HuffCode.headerBits_eq (code : HuffCode) (padding n : ℕ) :
    code.headerBits padding n = bits [UInt8.ofNat (0x80 ||| padding),
      UInt8.ofNat (code.first0 - 1), UInt8.ofNat (n >>> 24), UInt8.ofNat (n >>> 16),
      UInt8.ofNat (n >>> 8), UInt8.ofNat (n >>> 0)] := by
  simp only [HuffCode.headerBits, bits_cons, byteBits_ofNat, List.append_assoc]
  rfl

namespace HuffCode.Built
variable {heap : Heap} {code : HuffCode} {data stream : List UInt8} {t : CodeTree UInt8}

/-- Every byte takes one bit at least. -/
theorem length_le_encode (h : code.Built data t) (hne : data ≠ []) :
    data.length ≤ (t.encode data).length := by
  have h2 : 2 ≤ t.leaves.length := h.length_leaves ▸ h.two_le_first0 hne
  have hall : ∀ as : List UInt8, as ⊆ data → as.length ≤ (t.encode as).length := by
    intro as has
    induction as with
    | nil => exact Nat.le_refl _
    | cons b as ih =>
      have hpos := List.length_pos_iff.mpr
        (CodeTree.code_ne_nil h2 (CodeTree.code_mem (h.mem_leaves (has List.mem_cons_self))))
      have hrest := ih fun x hx => has (List.mem_cons_of_mem b hx)
      have hcons : t.encode (b :: as) = t.code b ++ t.encode as := rfl
      rw [hcons, List.length_cons, List.length_append]
      omega
  exact hall data (List.Subset.refl data)

/-- The stream into which data was compressed is decompressed to the data. -/
theorem decompress (h : code.Built data t) (hne : data ≠ []) (hlt : data.length < 2^31)
    (hsmall : code.compressedSize data ≤ data.length)
    (hlen : stream.length = code.compressedSize data)
    (hstream : bits stream = code.outputBits data t ++
      List.replicate (8 * code.compressedSize data - code.estimate data) false)
    (hg : heap.grants data.length = true) : decompressData heap stream = some data := by
  have h2 : 2 ≤ t.leaves.length := h.length_leaves ▸ h.two_le_first0 hne
  have hmod : code.estimate data % 8 < 8 := Nat.mod_lt _ (by decide)
  obtain ⟨hflag, hpadding⟩ := header_flags hmod
  have hcount : t.leaves.length = (UInt8.ofNat (code.first0 - 1)).toNat + 1 := by
    have hle := h.first0_le
    have hl := h.length_leaves
    rw [UInt8.toNat_ofNat_of_lt' (by change _ < 256; omega)]
    omega
  rw [outputBits, headerBits_eq, List.append_assoc, List.append_assoc] at hstream
  obtain ⟨tree, input, done, hs, hr, hdone, heq⟩ := decompressData_eq hstream hflag hcount h2
  rw [heq, hpadding, originalSize_bytes hlt, Heap.alloc_of_grants hg, Option.bind_eq_bind,
    Option.bind_some]
  have hestimate := h.estimate_eq
  have hcontent := h.length_le_encode hne
  have hl := h.length_leaves
  have hsize : code.compressedSize data = code.estimate data / 8 +
    if code.estimate data % 8 ≠ 0 then 1 else 0 := rfl
  -- the content ends behind the byte in which the tree ends
  have hfit : 8 - input.byteIndex + code.estimate data % 8 ≤ (t.encode data).length := by
    have hidx := hr.byteIndex
    split_ifs at hsize <;> omega
  have hw : ∀ b ∈ data, b ∈ t.leaves := fun b hb => h.mem_leaves hb
  obtain ⟨d, hd, hout⟩ := Decoding.decodeBits_encode
    (d := ⟨0, input, .output data.length⟩) h2 hs hw rfl hr
  have hpos : done.length + (t.encode data).length = code.estimate data := by omega
  have hbytes : stream.length = (done.length + (t.encode data).length) / 8 +
      if code.estimate data % 8 ≠ 0 then 1 else 0 := by
    rw [hpos, hlen]
    exact hsize
  obtain ⟨d₁, d₂, h1, h2, h3⟩ := Decoding.loops_eq hd hr (congrArg (8 - ·) hr.byteIndex)
    (congrArg (· % 8) hpos.symm) hfit hbytes
  rw [h1, Option.bind_eq_bind, Option.bind_some, h2, Option.bind_some, h3, Option.bind_some]
  have hsize' : (HuffBuffer.output data.length).streamSize = data.length := List.length_replicate
  have hwrote := (HuffBuffer.wrote_output data.length).writeBits (u := bits data)
    (by rw [List.length_nil, hsize', length_bits, Nat.zero_add])
  rw [hout]
  exact congrArg some (hwrote.stream_eq (by rw [HuffBuffer.streamSize_writeBits, hsize']))

end HuffCode.Built

/-- Data that was not compressed follows its header. -/
theorem decompressData_plain {header1 : UInt8} (h : checkBit header1.toNat 7 = false)
    (heap : Heap) (data : List UInt8) :
    decompressData heap (header1 :: data) = (heap.alloc data.length).map fun _ => data := by
  have hr := HuffBuffer.reads_start header1 data
  rw [bits_cons] at hr
  obtain ⟨input, h1, -⟩ := hr.readByte
  unfold decompressData
  dsimp only
  rw [h1]
  exact (if_pos h).trans (Option.map_eq_bind ..).symm

section
variable {heap : Heap} {data : List UInt8}

theorem roundtrip_of_countable (qsort : Qsort) (beyond : ℤ) (hlt : data.length < 2^31)
    (hrep : ∀ b, data ≠ List.replicate (2^31 - 1) b) (hg : heap.grants data.length = true) :
    (compressData qsort beyond data).bind (decompressData heap) = some data := by
  by_cases hne : data = []
  · subst hne
    rfl
  obtain ⟨code, t, hcode, hb⟩ :=
    exists_built qsort beyond hne hlt (firstUnused_ne_one qsort hne hlt hrep)
  obtain ⟨out, hout, -, hsize, hbits⟩ := hb.flush
  rw [compressData_eq hne hcode, hb.encode_eq, hout]
  by_cases hbig : code.compressedSize data > data.length
  · rw [if_pos hbig]
    change decompressData heap (0 :: data) = some data
    rw [decompressData_plain rfl, Heap.alloc_of_grants hg, Option.map_some]
  · rw [if_neg hbig]
    exact hb.decompress hne hlt (not_lt.mp hbig) hsize hbits hg

/-- A stream shorter than 2^31 bytes comes back, however its bytes are sorted, unless it consists
of 2^31 - 1 equal bytes. -/
theorem roundtrip_iff (hlt : data.length < 2^31) :
    (∀ qsort beyond (heap : Heap), heap.grants data.length = true →
      (compressData qsort beyond data).bind (decompressData heap) = some data) ↔
      ∀ b, data ≠ List.replicate (2^31 - 1) b := by
  refine ⟨fun h b hb => ?_, fun hrep qsort beyond heap hg =>
    roundtrip_of_countable qsort beyond hlt hrep hg⟩
  have hrun := h .unusedFirst 0 .ample rfl
  rw [compressData_replicate hb] at hrun
  exact nomatch hrun

theorem roundtrip_iff_line : (compressData .stable 0 lineOfTwenty).map List.length = some 15 ∧
    (compressData .stable 0 lineOfTwenty).bind (decompressData .ample) = some lineOfTwenty :=
  ⟨by decide +kernel, (roundtrip_iff (by decide : lineOfTwenty.length < 2^31)).mpr
    (not_replicate_of_length (by decide)) .stable 0 .ample rfl⟩

/-- The ones are sorted behind a byte that is not in use, so that only that one gets a code. -/
theorem manyOnes_lost :
    ¬ ∀ (data : List UInt8) (qsort : Qsort) (beyond : ℤ), data.length < 2^31 →
      (compressData qsort beyond data).bind (decompressData .ample) = some data := by
  intro h
  have hrun := h manyOnes .unusedFirst 0 (by rw [length_manyOnes]; decide)
  rw [compressData_replicate (rfl : manyOnes = _)] at hrun
  exact nomatch hrun

end
end StorageServer.Common
