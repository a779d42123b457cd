import StorageServer.Common.HuffmanEncoding

/-! Decompression once more, with what goes wrong where it does. A run ends with a stream, or it
uses an index that the bits of the tree have led out of an array, or no memory is left for the size
that the header declares. -/
namespace StorageServer.Common

/-- What can go wrong: the element of `fathers` before the first one, the one behind the last one,
a link -1 of `tree`, another index of `tree`, a loop without an end, or a block that is refused. -/
inductive DecodeFault
  | noFather
  | manyFathers
  | noChild
  | badIndex
  | endless
  | refused
  deriving DecidableEq

namespace Checked

def orFault {α : Type} (fault : DecodeFault) : Option α → Except DecodeFault α
  | some a => .ok a
  | none => .error fault

def updateFathers : List ℕ → ℕ → List HuffTreeEntry →
    Except DecodeFault (List ℕ × List HuffTreeEntry)
  | [], _, _ => .error .noFather
  | father::fathers, tmpInd, tree => do
    let entry ← orFault .badIndex tree[father]?
    if entry.left = -1 then
      return (father::fathers, tree.set father { entry with left := tmpInd })
    else if entry.right = -1 then
      let tree := tree.set father { entry with right := tmpInd }
      if fathers.length > 1 then updateFathers fathers father tree else return (fathers, tree)
    else if fathers.length > 0 then .error .endless
    else return (father::fathers, tree)

def readTrees : ℕ → ℕ → List ℕ → List HuffTreeEntry → HuffBuffer →
    Except DecodeFault (List HuffTreeEntry × HuffBuffer)
  | 0, _, _, tree, buffer => .ok (tree, buffer)
  | missing+1, treeInd, fathers, tree, buffer => do
    let (bitValue, buffer) := buffer.readBit
    if bitValue then
      let (byte, buffer) := buffer.readByte
      let entry ← orFault .badIndex tree[treeInd]?
      let tree := tree.set treeInd { entry with val := byte.toNat }
      let (fathers, tree) ← updateFathers fathers treeInd tree
      readTrees missing (treeInd + 1) fathers tree buffer
    else if fathers.length < 256 then
      readTrees missing (treeInd + 1) (treeInd :: fathers) tree buffer
    else .error .manyFathers

def decodeBit (tree : List HuffTreeEntry) (d : Decoding) : Except DecodeFault Decoding := do
  let (bitValue, input) := d.input.readBit
  let entry ← orFault .badIndex (entryAt tree d.treeInd)
  let treeInd := if bitValue then entry.left else entry.right
  if treeInd = -1 then .error .noChild
  else
    let entry ← orFault .badIndex (entryAt tree treeInd)
    if entry.val ≠ -1 then
      return { treeInd := 0, input := input, out := d.out.writeByte entry.val.toNat }
    else
      return { treeInd := treeInd, input := input, out := d.out }

def decodeBits (tree : List HuffTreeEntry) : ℕ → Decoding → Except DecodeFault Decoding
  | 0, d => .ok d
  | n+1, d => do
    let d ← decodeBit tree d
    decodeBits tree n d

def decodeBytes (tree : List HuffTreeEntry) (padding dataSize : ℕ) :
    ℕ → Decoding → Except DecodeFault Decoding
  | 0, _ => .error .endless
  | fuel+1, d =>
    if d.input.streamIndex < dataSize ∨ (d.input.streamIndex ≤ dataSize ∧ padding = 0) then do
      let d ← decodeBit tree d
      decodeBytes tree padding dataSize fuel d
    else .ok d

def decompressData (heap : Heap) : List UInt8 → Except DecodeFault (List UInt8)
  | [] => .ok []
  | byte::rest => do
    let data := byte::rest
    let (header1, input) := HuffBuffer.readByte ⟨data, 1, byte, 0⟩
    if checkBit header1.toNat 7 = false then
      orFault .refused (heap.alloc (data.length - 1))
      return data.drop 1
    let padding := header1.toNat &&& 0x3F
    let (byte, input) := input.readByte
    let charCount := byte.toNat + 1
    let charCount := if charCount = 0 then 256 else charCount
    let (b3, input) := input.readByte
    let (b2, input) := input.readByte
    let (b1, input) := input.readByte
    let (b0, input) := input.readByte
    let treeSize := charCount * 2
    let (tree, input) ← readTrees (treeSize - 1) 0 [0] (List.replicate treeSize ⟨-1, -1, -1⟩) input
    orFault .refused (heap.alloc (originalSize b3 b2 b1 b0))
    let extraBits := 8 - input.byteIndex
    let d ← decodeBits tree extraBits ⟨0, input, .output (originalSize b3 b2 b1 b0)⟩
    let d ← decodeBytes tree padding data.length (8 * data.length + 1) d
    let d ← decodeBits tree padding d
    return d.out.stream

/-! ### The same run -/

section
variable {α β : Type} {tree : List HuffTreeEntry}

@[simp] theorem toOption_orFault (fault : DecodeFault) (x : Option α) :
    (orFault fault x).toOption = x := by
  cases x <;> rfl

@[simp] theorem toOption_bind (x : Except DecodeFault α) (f : α → Except DecodeFault β) :
    (x >>= f).toOption = x.toOption.bind fun a => (f a).toOption := by
  cases x <;> rfl

theorem toOption_updateFathers (fathers : List ℕ) (tmpInd : ℕ) (tree : List HuffTreeEntry) :
    (updateFathers fathers tmpInd tree).toOption = Common.updateFathers fathers tmpInd tree := by
  induction fathers generalizing tmpInd tree with
  | nil => rfl
  | cons father fathers ih =>
    rw [updateFathers, Common.updateFathers, toOption_bind, toOption_orFault]
    congr 1
    funext entry
    split_ifs
    · rfl
    · exact ih father _
    · rfl
    · rfl
    · rfl

theorem toOption_readTrees (missing treeInd : ℕ) (fathers : List ℕ) (tree : List HuffTreeEntry)
    (buffer : HuffBuffer) : (readTrees missing treeInd fathers tree buffer).toOption =
      Common.readTrees missing treeInd fathers tree buffer := by
  induction missing generalizing treeInd fathers tree buffer with
  | zero => rfl
  | succ missing ih =>
    rw [readTrees, Common.readTrees]
    dsimp only
    split_ifs
    · rw [toOption_bind, toOption_orFault]
      congr 1
      funext entry
      rw [toOption_bind, toOption_updateFathers]
      congr 1
      funext r
      exact ih (treeInd + 1) r.1 r.2 _
    · exact ih _ _ _ _
    · rfl

theorem entryAt_none : entryAt tree (-1) = none := if_pos (by decide)

theorem toOption_decodeBit (tree : List HuffTreeEntry) (d : Decoding) :
    (decodeBit tree d).toOption = d.decodeBit tree := by
  rw [decodeBit, Decoding.decodeBit]
  dsimp only
  rw [toOption_bind, toOption_orFault]
  congr 1
  funext entry
  generalize (if d.input.readBit.1 then entry.left else entry.right) = treeInd
  by_cases hnone : treeInd = -1
  · rw [if_pos hnone, hnone, entryAt_none]
    rfl
  · rw [if_neg hnone, toOption_bind, toOption_orFault]
    congr 1
    funext entry
    split_ifs
    · rfl
    · rfl

theorem toOption_decodeBits (tree : List HuffTreeEntry) (n : ℕ) (d : Decoding) :
    (decodeBits tree n d).toOption = d.decodeBits tree n := by
  induction n generalizing d with
  | zero => rfl
  | succ n ih =>
    rw [decodeBits, Decoding.decodeBits, toOption_bind, toOption_decodeBit]
    congr 1
    funext d
    exact ih d

theorem toOption_decodeBytes (tree : List HuffTreeEntry) (padding dataSize fuel : ℕ)
    (d : Decoding) : (decodeBytes tree padding dataSize fuel d).toOption =
      d.decodeBytes tree padding dataSize fuel := by
  induction fuel generalizing d with
  | zero => rfl
  | succ fuel ih =>
    rw [decodeBytes, Decoding.decodeBytes]
    split_ifs
    · rw [toOption_bind, toOption_decodeBit]
      congr 1
      funext d
      exact ih d
    · rfl

/-- Without its faults the run is the one of the model. -/
theorem toOption_decompressData (heap : Heap) (data : List UInt8) :
    (decompressData heap data).toOption = Common.decompressData heap data := by
  cases data with
  | nil => rfl
  | cons byte rest =>
    rw [decompressData, Common.decompressData]
    dsimp only
    generalize HuffBuffer.readByte ⟨byte :: rest, 1, byte, 0⟩ = r
    by_cases hflag : checkBit r.1.toNat 7 = false
    · rw [if_pos hflag, if_pos hflag, toOption_bind, toOption_orFault]
      rfl
    · rw [if_neg hflag, if_neg hflag, toOption_bind, toOption_readTrees]
      congr 1
      funext r
      rw [toOption_bind, toOption_orFault]
      congr 1
      funext _
      rw [toOption_bind, toOption_decodeBits]
      congr 1
      funext d
      rw [toOption_bind, toOption_decodeBytes]
      congr 1
      funext d
      rw [toOption_bind, toOption_decodeBits]
      rfl

/-- Little memory makes no other difference than the refusal of a block. -/
theorem decompressData_ample_or_refused (heap : Heap) (data : List UInt8) :
    decompressData heap data = decompressData .ample data ∨
      decompressData heap data = .error .refused := by
  have halloc (size : ℕ) : heap.alloc size = Heap.ample.alloc size ∨ heap.alloc size = none := by
    by_cases hg : heap.grants size = true
    · exact .inl (Heap.alloc_of_grants hg)
    · exact .inr (if_neg hg)
  cases data with
  | nil => exact .inl rfl
  | cons byte rest =>
    unfold decompressData
    dsimp only
    generalize HuffBuffer.readByte ⟨byte :: rest, 1, byte, 0⟩ = r
    by_cases hflag : checkBit r.1.toNat 7 = false
    · rw [if_pos hflag, if_pos hflag]
      rcases halloc ((byte :: rest).length - 1) with h | h
      · exact .inl (by rw [h])
      · exact .inr (by rw [h]; rfl)
    · rw [if_neg hflag, if_neg hflag]
      generalize readTrees _ _ _ _ _ = trees
      cases trees with
      | error fault => exact .inl rfl
      | ok trees =>
        rcases halloc (originalSize r.2.readByte.2.readByte.1 r.2.readByte.2.readByte.2.readByte.1
          r.2.readByte.2.readByte.2.readByte.2.readByte.1
          r.2.readByte.2.readByte.2.readByte.2.readByte.2.readByte.1) with h | h
        · exact .inl (by rw [h])
        · exact .inr (by rw [h]; rfl)

end
end Checked

/-- What comes out of a stream does not depend on the memory that is left. -/
theorem decompressData_ample {heap : Heap} {data result : List UInt8}
    (h : decompressData heap data = some result) : decompressData .ample data = some result := by
  rw [← Checked.toOption_decompressData] at h ⊢
  rcases Checked.decompressData_ample_or_refused heap data with heq | heq
  · rwa [← heq]
  · rw [heq] at h
    cases h

end StorageServer.Common
