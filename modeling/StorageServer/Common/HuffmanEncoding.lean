import StorageServer.Common.Message
import StorageServer.Library.Bits
import Mathlib.Logic.Function.Basic

/-! The compression of a stream that is shorter than 2^31 bytes, so that an `int` counts them. The
trees lie in arrays and refer to each other by index, -1 for none. An access outside of an array is
`none`, and so are a loop that does not end and the end of the process when a size that the header
of a stream declares is refused. The null pointer is the stream without bytes. -/
namespace StorageServer.Common
open Library.Bits

/-- The macro `CHECK_BIT`. -/
def checkBit (var pos : ℕ) : Bool := var.testBit pos

/-! ### Buffers of bits -/

/-- A stream, and the byte that is being filled or read. -/
structure HuffBuffer where
  stream : List UInt8
  streamIndex : ℕ
  byte : UInt8
  byteIndex : ℕ

namespace HuffBuffer

def streamSize (buffer : HuffBuffer) : ℕ := buffer.stream.length

/-- An empty output buffer. -/
def output (streamSize : ℕ) : HuffBuffer := ⟨List.replicate streamSize 0, 0, 0, 0⟩

/-- A complete byte behind the end of the stream is dropped. -/
def writeBit (buffer : HuffBuffer) (bitValue : Bool) : HuffBuffer :=
  let byte := buffer.byte ||| UInt8.ofNat (bitValue.toNat <<< (7 - buffer.byteIndex))
  if buffer.byteIndex + 1 = 8 then
    { stream := buffer.stream.set buffer.streamIndex byte
      streamIndex := buffer.streamIndex + 1
      byte := 0
      byteIndex := 0 }
  else { buffer with byte := byte, byteIndex := buffer.byteIndex + 1 }

def writeByte (buffer : HuffBuffer) (byteValue : ℕ) : HuffBuffer :=
  [7, 6, 5, 4, 3, 2, 1, 0].foldl (fun buffer i => buffer.writeBit (checkBit byteValue i)) buffer

/-- Behind the end of the stream its last byte is read again. -/
def readBit (buffer : HuffBuffer) : Bool × HuffBuffer :=
  let bitValue := checkBit buffer.byte.toNat (7 - buffer.byteIndex)
  if buffer.byteIndex + 1 = 8 then
    (bitValue, { buffer with
      byteIndex := 0
      byte := buffer.stream.getD buffer.streamIndex buffer.byte
      streamIndex := buffer.streamIndex + 1 })
  else (bitValue, { buffer with byteIndex := buffer.byteIndex + 1 })

def readByte (buffer : HuffBuffer) : UInt8 × HuffBuffer :=
  [7, 6, 5, 4, 3, 2, 1, 0].foldl (fun (byte, buffer) i =>
    let (bitValue, buffer) := buffer.readBit
    (byte ||| UInt8.ofNat (bitValue.toNat <<< i), buffer)) (0, buffer)

end HuffBuffer

/-! ### The dictionary -/

structure HuffDictEntry where
  freq : ℤ
  chr : UInt8
  deriving DecidableEq

def cmpDictEntries (a b : HuffDictEntry) : ℤ :=
  let freqA := if a.freq = 0 then 2^31 - 1 else a.freq
  let freqB := if b.freq = 0 then 2^31 - 1 else b.freq
  freqA - freqB

/-- The function `qsort` on dictionaries: all that is known is that it sorts by `cmpDictEntries`. -/
structure Qsort where
  sort : List HuffDictEntry → List HuffDictEntry
  perm : ∀ dictionary, (sort dictionary).Perm dictionary
  sorted : ∀ dictionary, (sort dictionary).Pairwise fun a b => cmpDictEntries a b ≤ 0

/-- How often every byte occurs. -/
def countBytes (data : List UInt8) : List HuffDictEntry :=
  data.foldl (fun dictionary b => dictionary.modify b.toNat fun e => { e with freq := e.freq + 1 })
    ((List.range 256).map fun i => { freq := 0, chr := UInt8.ofNat i })

/-- The number of the bytes that get a code: those in use and the first one that is not. -/
def firstUnused (dictionary : List HuffDictEntry) : ℕ :=
  match dictionary.findIdx? fun e => e.freq = 0 with
  | some i => i + 1
  | none => 256

/-! ### Merging the trees -/

structure HuffTreeEntry where
  val : ℤ
  left : ℤ
  right : ℤ
  deriving DecidableEq

/-- The entry at an index of type `int`. -/
def entryAt (tree : List HuffTreeEntry) (i : ℤ) : Option HuffTreeEntry :=
  if i < 0 then none else tree[i.toNat]?

/-- A tree for every byte with a code, and room for the merged ones. The last one of them takes its
value from `dictionary` too; with 256 codes it lies behind the array, where anything may be
found. -/
def createTrees (beyond : ℤ) (dictionary : List HuffDictEntry) (first0 : ℕ) :
    List HuffTreeEntry :=
  (List.range (first0 * 2 - 1)).map fun i =>
    { val := if i ≤ first0 then (dictionary[i]?.map (·.freq)).getD beyond else 0
      left := -1
      right := -1 }

/-- Two queues of trees: the single ones from `treeIndex` on and the merged ones from
`tmpTreeIndexL` to `tmpTreeIndexR`. -/
structure Merging where
  tree : List HuffTreeEntry
  treeIndex : ℕ
  tmpTreeIndexL : ℕ
  tmpTreeIndexR : ℕ

namespace Merging

def nextSingle (m : Merging) : ℕ × Merging :=
  (m.treeIndex, { m with treeIndex := m.treeIndex + 1 })

def nextMerged (m : Merging) : ℕ × Merging :=
  (m.tmpTreeIndexL, { m with tmpTreeIndexL := m.tmpTreeIndexL + 1 })

/-- Take the lower one of the first trees of the two queues. -/
def findMin (first0 : ℕ) (m : Merging) : Option (ℕ × Merging) :=
  if m.treeIndex = first0 then some m.nextMerged
  else if m.tmpTreeIndexL = m.tmpTreeIndexR then some m.nextSingle
  else do
    let single ← m.tree[m.treeIndex]?
    let merged ← m.tree[m.tmpTreeIndexL]?
    return if single.val ≤ merged.val then m.nextSingle else m.nextMerged

def mergeMin (first0 : ℕ) (m : Merging) : Option Merging := do
  let (min1Index, m) ← m.findMin first0
  let (min2Index, m) ← m.findMin first0
  let min1 ← m.tree[min1Index]?
  let min2 ← m.tree[min2Index]?
  if m.tmpTreeIndexR < m.tree.length then
    return { m with
      tree := m.tree.set m.tmpTreeIndexR ⟨min1.val + min2.val, min1Index, min2Index⟩
      tmpTreeIndexR := m.tmpTreeIndexR + 1 }
  else none

def mergeTrees (first0 : ℕ) : ℕ → Merging → Option Merging
  | 0, _ => none
  | fuel+1, m =>
    if m.treeIndex < first0 ∨ m.tmpTreeIndexL + 1 < m.tmpTreeIndexR then do
      let m ← m.mergeMin first0
      m.mergeTrees first0 fuel
    else some m

end Merging

/-! ### The table of codes -/

structure HuffTableEntry where
  size : ℕ
  code : Vector UInt8 16

namespace HuffTableEntry

def empty : HuffTableEntry := ⟨0, Vector.replicate 16 0⟩

/-- The code with one more bit, if there is room for it. -/
def push (table : HuffTableEntry) (bitValue : Bool) : Option HuffTableEntry :=
  if h : table.size / 8 < 16 then
    some {
      size := table.size + 1
      code := table.code.set (table.size / 8)
        (table.code[table.size / 8] ||| UInt8.ofNat (bitValue.toNat <<< (7 - table.size % 8))) }
  else none

end HuffTableEntry

structure HuffQueueEntry where
  index : ℤ
  table : HuffTableEntry

/-- Push a child of a tree onto the stack of 256 entries. -/
def pushChild (parent : HuffTableEntry) (child : ℤ) (bitValue : Bool)
    (queue : List HuffQueueEntry) : Option (List HuffQueueEntry) :=
  if child = -1 then some queue
  else if queue.length < 256 then do
    let table ← parent.push bitValue
    return ⟨child, table⟩ :: queue
  else none

def fillTable (dictionary : List HuffDictEntry) (tree : List HuffTreeEntry) :
    ℕ → List HuffQueueEntry → (UInt8 → HuffTableEntry) → Option (UInt8 → HuffTableEntry)
  | _, [], table => some table
  | 0, _::_, _ => none
  | fuel+1, curr::queue, table => do
    let node ← entryAt tree curr.index
    if node.left = -1 ∧ node.right = -1 then
      let leaf ← dictionary[curr.index.toNat]?
      fillTable dictionary tree fuel queue (Function.update table leaf.chr curr.table)
    else
      let queue ← pushChild curr.table node.left true queue
      let queue ← pushChild curr.table node.right false queue
      fillTable dictionary tree fuel queue table

/-! ### Compression -/

/-- What the first eight steps find out about a stream. -/
structure HuffCode where
  dictionary : List HuffDictEntry
  first0 : ℕ
  tree : List HuffTreeEntry
  treeRoot : ℕ
  table : UInt8 → HuffTableEntry

/-- Every loop visits every tree at most once. -/
def buildCode (qsort : Qsort) (beyond : ℤ) (data : List UInt8) : Option HuffCode := do
  let dictionary := qsort.sort (countBytes data)
  let first0 := firstUnused dictionary
  let treeSize := first0 * 2 - 1
  let m ← Merging.mergeTrees first0 treeSize
    ⟨createTrees beyond dictionary first0, 0, first0, first0⟩
  let table ← fillTable dictionary m.tree treeSize [⟨m.tmpTreeIndexL, .empty⟩] fun _ => .empty
  return ⟨dictionary, first0, m.tree, m.tmpTreeIndexL, table⟩

namespace HuffCode

/-- The estimated size in bits: a header of six bytes, the tree and the content. -/
def estimate (code : HuffCode) (data : List UInt8) : ℕ :=
  data.foldl (fun compressedSize b => compressedSize + (code.table b).size)
    ((1 + 1 + 4) * 8 + (10 * code.first0 - 1))

def writeHeader (code : HuffCode) (padding dataSize : ℕ) (out : HuffBuffer) : HuffBuffer :=
  let out := out.writeByte (0x80 ||| padding)
  let out := out.writeByte (code.first0 - 1)
  let out := out.writeByte (dataSize >>> 24)
  let out := out.writeByte (dataSize >>> 16)
  let out := out.writeByte (dataSize >>> 8)
  out.writeByte (dataSize >>> 0)

/-- Push a tree onto the stack of 256 indexes. -/
def pushIndex (node : ℤ) (queue : List ℤ) : Option (List ℤ) :=
  if node = -1 then some queue
  else if queue.length < 256 then some (node :: queue)
  else none

def writeTree (code : HuffCode) : ℕ → List ℤ → HuffBuffer → Option HuffBuffer
  | _, [], out => some out
  | 0, _::_, _ => none
  | fuel+1, nodeInd::queue, out => do
    let node ← entryAt code.tree nodeInd
    if node.left = -1 ∧ node.right = -1 then
      let leaf ← code.dictionary[nodeInd.toNat]?
      let out := out.writeBit true
      writeTree code fuel queue (out.writeByte leaf.chr.toNat)
    else
      let out := out.writeBit false
      let queue ← pushIndex node.right queue
      let queue ← pushIndex node.left queue
      writeTree code fuel queue out

def encodeByte (code : HuffCode) (out : HuffBuffer) (b : UInt8) : Option HuffBuffer :=
  (List.range (code.table b).size).foldlM (fun out j => do
    let byte ← (code.table b).code[j / 8]?
    return out.writeBit (checkBit byte.toNat (7 - j % 8))) out

end HuffCode

/-- Write the last byte, if it is not complete. -/
def HuffBuffer.flush (out : HuffBuffer) : Option HuffBuffer :=
  if out.byteIndex > 0 then
    if out.streamIndex < out.streamSize then
      some { out with
        stream := out.stream.set out.streamIndex out.byte
        streamIndex := out.streamIndex + 1 }
    else none
  else some out

/-- The buffer into which a stream is compressed. -/
def HuffCode.encode (code : HuffCode) (padding compressedSize : ℕ) (data : List UInt8) :
    Option HuffBuffer := do
  let out := code.writeHeader padding data.length (.output compressedSize)
  let out ← code.writeTree (code.first0 * 2 - 1) [(code.treeRoot : ℤ)] out
  let out ← data.foldlM code.encodeByte out
  out.flush

/-- Compress a stream if it gets no longer by that. -/
def compressData (qsort : Qsort) (beyond : ℤ) (data : List UInt8) : Option (List UInt8) :=
  if data = [] then some []
  else do
    let code ← buildCode qsort beyond data
    let compressedSize := code.estimate data
    let padding := compressedSize % 8
    let compressedSize := compressedSize / 8 + if padding ≠ 0 then 1 else 0
    if compressedSize > data.length then
      return 0x00 :: data
    let out ← code.encode padding compressedSize data
    return out.stream

/-! ### Decompression -/

/-- Link a tree to its father, and the father to his own father when it is complete. The stack
holds `qSize + 1` fathers. -/
def updateFathers : List ℕ → ℕ → List HuffTreeEntry → Option (List ℕ × List HuffTreeEntry)
  | [], _, _ => none
  | father::fathers, tmpInd, tree => do
    let entry ← tree[father]?
    if entry.left = -1 then
      return (father::fathers, tree.set father { entry with left := tmpInd })
    else if entry.right = -1 then
      let tree := tree.set father { entry with right := tmpInd }
      if fathers.length > 1 then updateFathers fathers father tree else return (fathers, tree)
    -- nothing changes in this round, so that there is no end to the loop
    else if fathers.length > 0 then none
    else return (father::fathers, tree)

/-- Read as many trees as are missing. -/
def readTrees : ℕ → ℕ → List ℕ → List HuffTreeEntry → HuffBuffer →
    Option (List HuffTreeEntry × HuffBuffer)
  | 0, _, _, tree, buffer => some (tree, buffer)
  | missing+1, treeInd, fathers, tree, buffer => do
    let (bitValue, buffer) := buffer.readBit
    if bitValue then
      let (byte, buffer) := buffer.readByte
      let entry ← tree[treeInd]?
      let tree := tree.set treeInd { entry with val := byte.toNat }
      let (fathers, tree) ← updateFathers fathers treeInd tree
      readTrees missing (treeInd + 1) fathers tree buffer
    else if fathers.length < 256 then
      readTrees missing (treeInd + 1) (treeInd :: fathers) tree buffer
    else none

/-- A walk down the tree, back to the root after every byte. -/
structure Decoding where
  treeInd : ℤ
  input : HuffBuffer
  out : HuffBuffer

namespace Decoding

def decodeBit (tree : List HuffTreeEntry) (d : Decoding) : Option Decoding := do
  let (bitValue, input) := d.input.readBit
  let entry ← entryAt tree d.treeInd
  let treeInd := if bitValue then entry.left else entry.right
  let entry ← entryAt tree treeInd
  if entry.val ≠ -1 then
    return { treeInd := 0, input := input, out := d.out.writeByte entry.val.toNat }
  else
    return { treeInd := treeInd, input := input, out := d.out }

def decodeBits (tree : List HuffTreeEntry) : ℕ → Decoding → Option Decoding
  | 0, d => some d
  | n+1, d => do
    let d ← d.decodeBit tree
    d.decodeBits tree n

/-- The loop over the aligned bytes. -/
def decodeBytes (tree : List HuffTreeEntry) (padding dataSize : ℕ) :
    ℕ → Decoding → Option Decoding
  | 0, _ => none
  | fuel+1, d =>
    if d.input.streamIndex < dataSize ∨ (d.input.streamIndex ≤ dataSize ∧ padding = 0) then do
      let d ← d.decodeBit tree
      d.decodeBytes tree padding dataSize fuel
    else some d

end Decoding

/-- Four bytes as an `int`, converted to `size_t`. -/
def originalSize (b3 b2 b1 b0 : UInt8) : ℕ :=
  toSize (toInt (b3.toNat <<< 24 ||| b2.toNat <<< 16 ||| b1.toNat <<< 8 ||| b0.toNat <<< 0 : ℕ))

/-- The loop over the aligned bytes reads a new byte in every eighth round. -/
def decompressData (heap : Heap) : List UInt8 → Option (List UInt8)
  | [] => some []
  | byte::rest => do
    let data := byte::rest
    let (header1, input) := HuffBuffer.readByte ⟨data, 1, byte, 0⟩
    if checkBit header1.toNat 7 = false then
      heap.alloc (data.length - 1)
      return data.drop 1
    let padding := header1.toNat &&& 0x3F
    let (byte, input) := input.readByte
    let charCount := byte.toNat + 1
    let charCount := if charCount = 0 then 256 else charCount
    let (b3, input) := input.readByte
    let (b2, input) := input.readByte
    let (b1, input) := input.readByte
    let (b0, input) := input.readByte
    let treeSize := charCount * 2
    let (tree, input) ← readTrees (treeSize - 1) 0 [0] (List.replicate treeSize ⟨-1, -1, -1⟩) input
    heap.alloc (originalSize b3 b2 b1 b0)
    let extraBits := 8 - input.byteIndex
    let d ← Decoding.decodeBits tree extraBits ⟨0, input, .output (originalSize b3 b2 b1 b0)⟩
    let d ← d.decodeBytes tree padding data.length (8 * data.length + 1)
    let d ← d.decodeBits tree padding
    return d.out.stream

end StorageServer.Common
