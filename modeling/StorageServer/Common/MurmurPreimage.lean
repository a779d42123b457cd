import StorageServer.Common.Murmur

/-! Every hash is that of a name of four bytes, since each step of the hash can be undone. -/
namespace StorageServer.Common

/-! ### Shifts -/

/-- The step `h ^= h >> k`. -/
def xorShift (k : ℕ) (h : BitVec 32) : BitVec 32 := h ^^^ (h >>> k)

/-- What undoes it, for a third of the width or more. -/
def undoShift (k : ℕ) (h : BitVec 32) : BitVec 32 := h ^^^ (h >>> k) ^^^ (h >>> (k + k))

theorem xorShift_undoShift {k : ℕ} (hk : 32 ≤ k + k + k) (h : BitVec 32) :
    xorShift k (undoShift k h) = h := by
  have hzero : h >>> (k + k + k) = 0#32 := BitVec.ushiftRight_eq_zero hk
  have hshift : undoShift k h >>> k = (h >>> k) ^^^ (h >>> (k + k)) := by
    simp only [undoShift, BitVec.ushiftRight_xor_distrib, ← BitVec.shiftRight_add, hzero,
      BitVec.xor_zero]
  rw [xorShift, hshift, undoShift, BitVec.xor_assoc h, BitVec.xor_assoc h, BitVec.xor_self,
    BitVec.xor_zero]

/-! ### Words -/

/-- The inverse of the odd multiplier. -/
def murmurMInv : HashValue := 0xe59b19bd

theorem mul_murmurM (h : HashValue) : h * murmurMInv * murmurM = h := by
  have hone : murmurMInv * murmurM = 1 := by decide
  rw [UInt32.mul_assoc, hone, UInt32.mul_one]

def bytesOfWord (k : HashValue) : List UInt8 :=
  [k.toUInt8, (k >>> 8).toUInt8, (k >>> 16).toUInt8, (k >>> 24).toUInt8]

theorem loadWord_bytes (k : HashValue) :
    loadWord k.toUInt8 (k >>> 8).toUInt8 (k >>> 16).toUInt8 (k >>> 24).toUInt8 = k := by
  apply UInt32.toBitVec_inj.mp
  change (k.toBitVec.setWidth 8).setWidth 32 |||
    ((k.toBitVec >>> 8).setWidth 8).setWidth 32 <<< 8 |||
    ((k.toBitVec >>> 16).setWidth 8).setWidth 32 <<< 16 |||
    ((k.toBitVec >>> 24).setWidth 8).setWidth 32 <<< 24 = k.toBitVec
  ext i hi
  simp only [BitVec.getElem_or, BitVec.getElem_setWidth, BitVec.getLsbD_setWidth,
    BitVec.getElem_shiftLeft, BitVec.getLsbD_ushiftRight]
  rw [← BitVec.getLsbD_eq_getElem]
  -- a bit comes from the byte that it lies in
  have h8 : i < 8 ∨ 8 + (i - 8) = i := by omega
  have h16 : i < 16 ∨ 16 + (i - 16) = i := by omega
  have h24 : i < 24 ∨ 24 + (i - 24) = i := by omega
  grind

/-! ### Names -/

/-- The word that takes the hash from `h` to `h'`. -/
def unmixWord (h h' : HashValue) : HashValue :=
  .ofBitVec (undoShift 24 ((h * murmurM ^^^ h') * murmurMInv).toBitVec) * murmurMInv

theorem mixWord_unmixWord (h h' : HashValue) : mixWord h (unmixWord h h') = h' := by
  have hshift : ∀ k : HashValue, UInt32.ofBitVec (undoShift 24 k.toBitVec) ^^^
      (UInt32.ofBitVec (undoShift 24 k.toBitVec) >>> 24) = k := by
    intro k
    apply UInt32.toBitVec_inj.mp
    exact xorShift_undoShift (by decide) k.toBitVec
  unfold mixWord unmixWord
  dsimp only
  rw [mul_murmurM, hshift, mul_murmurM, ← UInt32.xor_assoc, UInt32.xor_self, UInt32.zero_xor]

/-- The last steps of the hash, and what undoes them. -/
def finish (h : HashValue) : HashValue :=
  let h := h ^^^ (h >>> 13)
  let h := h * murmurM
  h ^^^ (h >>> 15)

def unfinish (h : HashValue) : HashValue :=
  .ofBitVec (undoShift 13 (UInt32.ofBitVec (undoShift 15 h.toBitVec) * murmurMInv).toBitVec)

theorem finish_unfinish (h : HashValue) : finish (unfinish h) = h := by
  have h13 : ∀ k : HashValue, UInt32.ofBitVec (undoShift 13 k.toBitVec) ^^^
      (UInt32.ofBitVec (undoShift 13 k.toBitVec) >>> 13) = k := by
    intro k
    apply UInt32.toBitVec_inj.mp
    exact xorShift_undoShift (by decide) k.toBitVec
  have h15 : UInt32.ofBitVec (undoShift 15 h.toBitVec) ^^^
      (UInt32.ofBitVec (undoShift 15 h.toBitVec) >>> 15) = h := by
    apply UInt32.toBitVec_inj.mp
    exact xorShift_undoShift (by decide) h.toBitVec
  unfold finish unfinish
  dsimp only
  rw [h13, mul_murmurM, h15]

/-- The name of four bytes with a given hash. -/
def nameOfHash (h : HashValue) : List UInt8 := bytesOfWord (unmixWord 4 (unfinish h))

@[simp] theorem length_nameOfHash (h : HashValue) : (nameOfHash h).length = 4 := rfl

theorem hashString_nameOfHash (h : HashValue) : hashString (nameOfHash h) = h := by
  have hmix : mixString 4 (nameOfHash h) = unfinish h := by
    change mixWord 4 (loadWord _ _ _ _) = _
    rw [loadWord_bytes, mixWord_unmixWord]
  have htake : (nameOfHash h).take (UInt32.ofNat 4).toNat = nameOfHash h := rfl
  have hlen : UInt32.ofNat 4 < 0x80000000 := by decide
  have hseed : defaultMm2HashSeed ^^^ UInt32.ofNat 4 = 4 := by decide
  have hash : hashString (nameOfHash h) = finish (mixString 4 (nameOfHash h)) := by
    unfold hashString
    dsimp only
    rw [length_nameOfHash, if_pos hlen, htake, hseed, finish]
  rw [hash, hmix, finish_unfinish]

end StorageServer.Common
