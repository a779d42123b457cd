import Mathlib.Algebra.Group.Nat.Defs
import Mathlib.Algebra.Ring.Int.Defs

/-! The messages of the socket protocol: every request names its type and at most one file, every
response carries a status and the files that the server hands out. -/
namespace StorageServer.Common

/-- The value of an expression of type `int`, two's complement. -/
def toInt (x : ℤ) : ℤ := x.bmod (2^32)

/-- The value converted to `size_t`. -/
def toSize (x : ℤ) : ℕ := (x % 2^64).toNat

/-- The memory that is left: the sizes of which a block is granted, and what fresh memory holds. -/
structure Heap where
  grants : ℕ → Bool
  fresh : ℕ → UInt8

namespace Heap

/-- No block is refused. -/
def ample : Heap := ⟨fun _ => true, fun _ => 0⟩

/-- The functions `mem_malloc`, `mem_calloc` and `mem_realloc` end the process if they are refused
a block; `none` is that end. -/
def alloc (heap : Heap) (size : ℕ) : Option Unit := if heap.grants size then some () else none

/-- An array, if it has elements. -/
def allocArray (heap : Heap) (num size : ℕ) : Option Unit :=
  if 0 < num then heap.alloc (num * size) else some ()

/-- An array is granted, if it is asked for. -/
def GrantsArray (heap : Heap) (num size : ℕ) : Prop := 0 < num → heap.grants (num * size) = true

/-- No block up to this size is refused. -/
def GrantsUpTo (heap : Heap) (limit : ℕ) : Prop := ∀ size ≤ limit, heap.grants size = true

variable {heap : Heap} {size num limit : ℕ}

theorem alloc_of_grants (h : heap.grants size = true) : heap.alloc size = some () := if_pos h

theorem grants_of_alloc (h : (heap.alloc size).isSome) : heap.grants size = true := by
  unfold alloc at h
  split_ifs at h with hg
  · exact hg
  · cases h

theorem allocArray_eq_some : heap.allocArray num size = some () ↔ heap.GrantsArray num size := by
  unfold allocArray alloc GrantsArray
  split_ifs with hnum hg <;> simp [*]

theorem grantsUpTo_ample (limit : ℕ) : ample.GrantsUpTo limit := fun _ _ => rfl

theorem GrantsUpTo.mono (h : heap.GrantsUpTo limit) (hle : size ≤ limit) : heap.GrantsUpTo size :=
  fun n hn => h n (Nat.le_trans hn hle)

theorem GrantsUpTo.array (h : heap.GrantsUpTo limit) (hle : num * size ≤ limit) :
    heap.GrantsArray num size := fun _ => h _ hle

end Heap

abbrev flagEmpty : BitVec 32 := 0x00
abbrev flagCreate : BitVec 32 := 0x01
abbrev flagLock : BitVec 32 := 0x02

abbrev UUID := Vector UInt8 16

/-- The bytes that a pointer and a length stand for; `none` is the null pointer. -/
abbrev MsgPtr := Option (List UInt8)

/-- The codes that no message type has. -/
def UnknownType (code : BitVec 32) : Prop := 11 < code.toNat ∧ code.toNat ≠ 20 ∧ code.toNat ≠ 21

instance (code : BitVec 32) : Decidable (UnknownType code) := inferInstanceAs (Decidable (_ ∧ _))

inductive SockMessageType
  | none
  | reqOpenSession
  | reqCloseSession
  | reqOpenFile
  | reqCloseFile
  | reqReadFile
  | reqLockFile
  | reqUnlockFile
  | reqRemoveFile
  | reqReadNFiles
  | reqWriteFile
  | reqAppendToFile
  | respSimple
  | respWithFiles
  | other (code : {code : BitVec 32 // UnknownType code})
  deriving DecidableEq

inductive RespStatus
  | none
  | ok
  | genericError
  | notPermitted
  | invalidArg
  | notFound
  | other (code : {code : BitVec 32 // 5 < code.toNat})
  deriving DecidableEq

structure MsgFile where
  filename : MsgPtr
  content : MsgPtr
  deriving DecidableEq

namespace MsgFile

def filenameLen (file : MsgFile) : ℕ := (file.filename.getD []).length
def contentLen (file : MsgFile) : ℕ := (file.content.getD []).length

end MsgFile

structure Request where
  flags : BitVec 32
  file : MsgFile
  deriving DecidableEq

structure Response where
  status : RespStatus
  files : List MsgFile
  deriving DecidableEq

/-- The type of a message tells which of `request` and `response` is in use; in memory the two
overlap. -/
structure SockMessage where
  uid : UUID
  type : SockMessageType
  request : Request := ⟨0, ⟨none,none⟩⟩
  response : Response := ⟨.none, []⟩
  deriving DecidableEq

end StorageServer.Common
