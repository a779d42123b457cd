import StorageServer.Common.Message
import StorageServer.Common.Murmur
import StorageServer.Library.DoublyLinked
import StorageServer.Server.CircQueue
import Mathlib.Data.Int.Basic
import Mathlib.Data.List.Sort
import Mathlib.Algebra.Order.Group.Unbundled.Int

/-! The file system of the server: a direct-addressed table over a doubly linked recency list.
Entries live in a memory indexed by addresses and `none` is the null pointer. An operation that
dereferences null, writes through a null output or fails to allocate returns `none`. The mutex
makes every operation one step; the notifications it pushes are returned in order. -/
namespace StorageServer.Server
open Common Library.DoublyLinked

abbrev fsFileAlreadyExists : ℤ := 101
abbrev fsFileNotExists : ℤ := 102
abbrev fsClientNotAllowed : ℤ := 103
abbrev fsClientWaitingOnLock : ℤ := 104
abbrev fsFileTooBig : ℤ := 105

abbrev emptyOwner : ℤ := -1
abbrev depthLimit : ℕ := 1024*1024
abbrev maxEjectedFilesAtSameTime : ℕ := 1024*1024
abbrev maxClientWaitingOnLock : ℕ := 32

/-- A file with its name and content; the empty content of a request is the null pointer. -/
structure FSFile where
  name : List UInt8
  content : List UInt8
  deriving DecidableEq, Repr

namespace FSFile

def nameLen (file : FSFile) : ℕ := file.name.length
def contentLen (file : FSFile) : ℕ := file.content.length

/-- The bytes a file is charged for. -/
def size (file : FSFile) : ℕ := file.contentLen + file.nameLen

end FSFile

structure FSConfig where
  tableSize : ℕ
  maxFileCapacitySlot : ℤ
  maxFileCapacityMB : ℤ

structure FSLockNotification where
  fd : ℤ
  status : ℤ
  deriving DecidableEq, Repr

abbrev Ptr := ℕ
abbrev LockQueue := CircQueue ℤ maxClientWaitingOnLock

/-- The content of `file` is null when it is empty, but for `emptyBuffer`, which says that it is a
buffer of no bytes. -/
structure FSCacheEntry where
  owner : ℤ
  file : FSFile
  emptyBuffer : Bool
  waitingLockQueue : LockQueue
  pre : Option Ptr
  nex : Option Ptr

structure FSCache where
  slotUsed : ℤ
  slotMax : ℤ
  bytesUsed : ℤ
  bytesMax : ℤ
  head : Option Ptr
  tail : Option Ptr

/-- The global variables of the file system, the entries in memory and the next free address. -/
structure FileSystem where
  gConfigs : FSConfig
  gHashmap : ℕ → Option Ptr
  gCache : FSCache
  memory : Ptr → FSCacheEntry
  nextPtr : Ptr
  gMaxSlotUsed : ℤ
  gMaxBytesUsed : ℤ
  gCapacityMisses : ℤ
  gCapacityMissesMax : ℤ
  gQueryCount : ℤ

/-- What an operation hands back: its result, the files copied or moved out and the
notifications pushed into the lock queue. -/
structure FSOutcome where
  res : ℤ
  outFiles : List FSFile := []
  issued : List FSLockNotification := []
  deriving DecidableEq, Repr

def emptyLockQueue : LockQueue := CircQueue.createQueue maxClientWaitingOnLock (by decide)

/-- A hash reduced to the size of the table. -/
@[irreducible] def tableKey (tableSize : ℕ) (hash : HashValue) : ℕ := hash.toNat % tableSize

namespace FileSystem

def increaseQueryCount (fs : FileSystem) : FileSystem :=
  { fs with gQueryCount := fs.gQueryCount + 1 }

def initializeFileSystem (configs : FSConfig) : FileSystem where
  gConfigs := configs
  gHashmap _ := none
  gCache :=
    { slotUsed := 0
      slotMax := configs.maxFileCapacitySlot
      bytesUsed := 0
      bytesMax := toInt (configs.maxFileCapacityMB * 1024 * 1024)
      head := none
      tail := none }
  memory _ := ⟨emptyOwner, ⟨[],[]⟩, false, emptyLockQueue, none, none⟩
  nextPtr := 0
  gMaxSlotUsed := 0
  gMaxBytesUsed := 0
  gCapacityMisses := 0
  gCapacityMissesMax := 0
  gQueryCount := 0

def getKey (fs : FileSystem) (file : FSFile) : ℕ :=
  tableKey fs.gConfigs.tableSize (hashString file.name)

def getValueFromKey (fs : FileSystem) (key : ℕ) : Option Ptr := fs.gHashmap key

def setValueForKey (fs : FileSystem) (key : ℕ) (value : Option Ptr) : FileSystem :=
  { fs with gHashmap := Function.update fs.gHashmap key value }

def modifyEntry (fs : FileSystem) (entry : Ptr) (f : FSCacheEntry → FSCacheEntry) : FileSystem :=
  { fs with memory := Function.update fs.memory entry (f (fs.memory entry)) }

/-- `if (entry != NULL) entry->pre = value`. -/
def setPre (fs : FileSystem) (entry value : Option Ptr) : FileSystem :=
  match entry with
  | none => fs
  | some entry => fs.modifyEntry entry (fun e => { e with pre := value })

/-- `if (entry != NULL) entry->nex = value`. -/
def setNex (fs : FileSystem) (entry value : Option Ptr) : FileSystem :=
  match entry with
  | none => fs
  | some entry => fs.modifyEntry entry (fun e => { e with nex := value })

def setHead (fs : FileSystem) (value : Option Ptr) : FileSystem :=
  { fs with gCache := { fs.gCache with head := value } }

def setTail (fs : FileSystem) (value : Option Ptr) : FileSystem :=
  { fs with gCache := { fs.gCache with tail := value } }

/-- Allocate an entry that is not yet in the list; its address is the old `nextPtr`. -/
def createEmptyCacheEntry (fs : FileSystem) (file : FSFile) (owner : ℤ) : FileSystem :=
  { fs with
    memory := Function.update fs.memory fs.nextPtr
      ⟨owner, file, false, emptyLockQueue, none, none⟩
    nextPtr := fs.nextPtr + 1 }

/-- Link `entry->pre` and `entry->nex` to each other. -/
def linkNeighbours (fs : FileSystem) (entry : Ptr) : FileSystem :=
  let tmp1 := (fs.memory entry).pre
  let tmp2 := (fs.memory entry).nex
  (fs.setNex tmp1 tmp2).setPre tmp2 tmp1

/-- The tail once `entry` is about to leave its place for the top. -/
def updateTail (fs : FileSystem) (entry : Ptr) : FileSystem :=
  if fs.gCache.tail = none then fs.setTail (some entry)
  else if fs.gCache.tail = some entry then fs.setTail (fs.memory entry).nex
  else fs

/-- Put an entry that no other one links to after the head. -/
def linkOnTop (fs : FileSystem) (entry : Ptr) : FileSystem :=
  let fs := fs.modifyEntry entry (fun e => { e with pre := fs.gCache.head, nex := none })
  let fs := fs.setNex fs.gCache.head (some entry)
  fs.setHead (some entry)

def moveToTop (fs : FileSystem) (entry : Ptr) : FileSystem :=
  if fs.gCache.head ≠ some entry then
    ((fs.updateTail entry).linkNeighbours entry).linkOnTop entry
  else fs

/-- The notifications for every client still waiting on an entry that goes away. -/
def notifyWaiting (entry : FSCacheEntry) : List FSLockNotification :=
  (CircQueue.popAll maxClientWaitingOnLock entry.waitingLockQueue).map
    (fun item => ⟨item, fsFileNotExists⟩)

/-- The body shared by the two ejection branches of `updateCacheSize`. -/
def ejectItem (fs : FileSystem) (item : Ptr) : FileSystem :=
  let entry := fs.memory item
  let fs := fs.setValueForKey (fs.getKey entry.file) none
  let fs := fs.setPre entry.nex none
  let fs := if fs.gCache.head = some item then fs.setHead none else fs
  { fs with gCache :=
    { fs.gCache with
      bytesUsed := fs.gCache.bytesUsed - entry.file.size
      slotUsed := fs.gCache.slotUsed - 1 } }

/-- The byte-ejection loop, from the oldest entry; the item it stops at becomes the new tail. -/
def ejectOverBytes : ℕ → FileSystem → Option Ptr → FileSystem × Option Ptr × List Ptr
  | 0, fs, item => (fs, item, [])
  | _+1, fs, none => (fs, none, [])
  | depth+1, fs, some item =>
    if fs.gCache.bytesUsed > fs.gCache.bytesMax then
      let rest := ejectOverBytes depth (fs.ejectItem item) (fs.memory item).nex
      (rest.1, rest.2.1, item :: rest.2.2)
    else (fs, some item, [])

/-- The end of `updateCacheSize`: the files of the ejected entries and their notifications. The
flag `outs` says that the output pointers are not null. -/
def passEjected (outs : Bool) (fs : FileSystem) (ejectedFilesBuf : List Ptr) :
    Option (FileSystem × List FSFile × List FSLockNotification) :=
  if ejectedFilesBuf = [] then some (fs, [], [])
  else if outs then
    some ({ fs with
        gCapacityMisses := fs.gCapacityMisses + ejectedFilesBuf.length
        gCapacityMissesMax := max fs.gCapacityMissesMax ejectedFilesBuf.length },
      ejectedFilesBuf.map (fun entry => (fs.memory entry).file),
      ejectedFilesBuf.flatMap (fun entry => notifyWaiting (fs.memory entry)))
  else none

/-- The size and slot bookkeeping at the start of `updateCacheSize`. -/
def chargeFiles (fs : FileSystem) (newFile oldFile : Option FSFile) : FileSystem :=
  let bytesUsed := fs.gCache.bytesUsed + (newFile.elim 0 FSFile.size : ℕ)
    - (oldFile.elim 0 FSFile.size : ℕ)
  let slotUsed := fs.gCache.slotUsed - (if newFile.isNone then 1 else 0)
    + (if oldFile.isNone then 1 else 0)
  { fs with
    gCache := { fs.gCache with bytesUsed := bytesUsed, slotUsed := slotUsed }
    gMaxSlotUsed := max fs.gMaxSlotUsed slotUsed
    gMaxBytesUsed := max fs.gMaxBytesUsed bytesUsed }

/-- Charge the new file, discharge the old one and eject entries while a limit is exceeded. The
slot branch starts the buffer again at its first position. -/
def updateCacheSize (fs : FileSystem) (newFile oldFile : Option FSFile) (outs : Bool) :
    Option (FileSystem × List FSFile × List FSLockNotification) :=
  let fs := fs.chargeFiles newFile oldFile
  let freed :=
    if fs.gCache.bytesUsed > fs.gCache.bytesMax then
      let r := ejectOverBytes depthLimit fs fs.gCache.tail
      (r.1.setTail r.2.1, r.2.2)
    else (fs, [])
  if freed.1.gCache.slotUsed > freed.1.gCache.slotMax then
    match freed.1.gCache.tail with
    | none => none
    | some item =>
      passEjected outs ((freed.1.ejectItem item).setTail (freed.1.memory item).nex) [item]
  else passEjected outs freed.1 freed.2

def fsInsert (fs : FileSystem) (client : ℤ) (file : FSFile) (aquireLock : Bool) :
    Option (FileSystem × FSOutcome) :=
  let key := fs.getKey file
  let newEntry := fs.nextPtr
  let fs := fs.createEmptyCacheEntry file (if aquireLock then client else emptyOwner)
  match fs.getValueFromKey key with
  | none => do
    let fs := (fs.setValueForKey key (some newEntry)).moveToTop newEntry
    let (fs, outFiles, issued) ← fs.updateCacheSize (some file) none true
    return (fs.increaseQueryCount, { res := 0, outFiles := outFiles, issued := issued })
  | some _ => some (fs.increaseQueryCount, { res := fsFileAlreadyExists })

/-- Take an entry out of the table, of the list and off its two ends. -/
def takeOut (fs : FileSystem) (key : ℕ) (entry : Ptr) : FileSystem :=
  let fs := (fs.setValueForKey key none).linkNeighbours entry
  let fs := if fs.gCache.head = some entry then fs.setHead (fs.memory entry).pre else fs
  if fs.gCache.tail = some entry then fs.setTail (fs.memory entry).nex else fs

def fsRemove (fs : FileSystem) (client : ℤ) (file : FSFile) : Option (FileSystem × FSOutcome) :=
  let key := fs.getKey file
  match fs.getValueFromKey key with
  | none => some (fs.increaseQueryCount, { res := fsFileNotExists })
  | some entry =>
    if (fs.memory entry).owner ≠ client then
      some (fs.increaseQueryCount, { res := fsClientNotAllowed })
    else do
      let fs := fs.takeOut key entry
      let issued := notifyWaiting (fs.memory entry)
      let (fs, _, _) ← fs.updateCacheSize none (some (fs.memory entry).file) false
      return (fs.increaseQueryCount, { res := 0, issued := issued })

def fsObtain (fs : FileSystem) (_client : ℤ) (file : FSFile) : FileSystem × FSOutcome :=
  match fs.getValueFromKey (fs.getKey file) with
  | none => (fs.increaseQueryCount, { res := fsFileNotExists })
  | some entry =>
    ((fs.moveToTop entry).increaseQueryCount,
      { res := 0, outFiles := [(fs.memory entry).file] })

/-- The reservoir loop: position `i` replaces a random one of the first `n`. The results of
`rand` are a stream. -/
def reservoir (n slotUsed : ℕ) (rand : ℕ → ℕ) : List ℕ :=
  (List.range' n (min slotUsed maxEjectedFilesAtSameTime - n)).foldl
    (fun indexes i =>
      let m := rand (i - n) % (i + 1)
      if m < n then indexes.set m i else indexes)
    (List.range n)

/-- Walk the recency list and copy the entries at the sorted positions `indexes`. -/
def pickIndexes : ℕ → List ℕ → List FSFile → List FSFile
  | _, [], _ => []
  | _, _, [] => []
  | cacheIndex, index::indexes, file::files =>
    if cacheIndex = index then file :: pickIndexes (cacheIndex+1) indexes files
    else pickIndexes (cacheIndex+1) (index::indexes) files

/-- A negative `n` asks for an allocation of huge size, which terminates the process. -/
def fsObtainN (fs : FileSystem) (_client : ℤ) (n : ℤ) (rand : ℕ → ℕ) :
    Option (FileSystem × FSOutcome) :=
  let n := if n ≠ 0 then min (min n fs.gCache.slotUsed) maxEjectedFilesAtSameTime else n
  if n = 0 then
    let n := min fs.gCache.slotUsed maxEjectedFilesAtSameTime
    if n < 0 then none
    else
      let items := walk (fun p => (fs.memory p).pre) n.toNat fs.gCache.head
      some (fs.increaseQueryCount,
        { res := 0, outFiles := items.map (fun item => (fs.memory item).file) })
  else if n < 0 then none
  else
    let indexes := (reservoir n.toNat fs.gCache.slotUsed.toNat rand).insertionSort (· ≤ ·)
    let items := walk (fun p => (fs.memory p).nex) fs.nextPtr fs.gCache.tail
    some (fs.increaseQueryCount,
      { res := 0
        outFiles := pickIndexes 0 indexes (items.map (fun item => (fs.memory item).file)) })

def fsModify (fs : FileSystem) (client : ℤ) (file : FSFile) : Option (FileSystem × FSOutcome) :=
  match fs.getValueFromKey (fs.getKey file) with
  | none => some (fs.increaseQueryCount, { res := fsFileNotExists })
  | some entry =>
    if (fs.memory entry).owner ≠ client then
      some (fs.increaseQueryCount, { res := fsClientNotAllowed })
    else if file.contentLen + file.nameLen > toSize fs.gCache.bytesMax then
      some (fs.increaseQueryCount, { res := fsFileTooBig })
    else do
      let oldFile := (fs.memory entry).file
      let fs := (fs.modifyEntry entry
        (fun e => { e with file := file, emptyBuffer := false })).moveToTop entry
      let (fs, outFiles, issued) ← fs.updateCacheSize (some file) (some oldFile) true
      return (fs.increaseQueryCount, { res := 0, outFiles := outFiles, issued := issued })

def fsAppend (fs : FileSystem) (client : ℤ) (file : FSFile) : Option (FileSystem × FSOutcome) :=
  match fs.getValueFromKey (fs.getKey file) with
  | none => some (fs.increaseQueryCount, { res := fsFileNotExists })
  | some entry =>
    if (fs.memory entry).owner ≠ client ∧ (fs.memory entry).owner ≠ emptyOwner then
      some (fs.increaseQueryCount, { res := fsClientNotAllowed })
    else if file.contentLen + file.nameLen + (fs.memory entry).file.contentLen
        > toSize fs.gCache.bytesMax then
      some (fs.increaseQueryCount, { res := fsFileTooBig })
    -- `realloc` of a buffer to no bytes frees it and returns null, which ends the process
    else if (fs.memory entry).emptyBuffer ∧ file.content = [] then none
    else do
      let newFile := { (fs.memory entry).file with
        content := (fs.memory entry).file.content ++ file.content }
      -- the dummy old file is copied after the entry has taken its new content
      let tmpFile := { newFile with name := [] }
      let fs := (fs.modifyEntry entry (fun e => { e with
        file := newFile
        emptyBuffer := newFile.content.isEmpty })).moveToTop entry
      let (fs, outFiles, issued) ← fs.updateCacheSize (some file) (some tmpFile) true
      return (fs.increaseQueryCount, { res := 0, outFiles := outFiles, issued := issued })

def fsTrylock (fs : FileSystem) (client : ℤ) (file : FSFile) : FileSystem × FSOutcome :=
  match fs.getValueFromKey (fs.getKey file) with
  | none => (fs.increaseQueryCount, { res := fsFileNotExists })
  | some entry =>
    if (fs.memory entry).owner ≠ emptyOwner ∧ (fs.memory entry).owner ≠ client then
      match (fs.memory entry).waitingLockQueue.tryPush client with
      | some queue =>
        ((fs.modifyEntry entry (fun e => { e with waitingLockQueue := queue })).increaseQueryCount,
          { res := fsClientWaitingOnLock })
      | none => (fs.increaseQueryCount, { res := fsClientNotAllowed })
    else
      (((fs.modifyEntry entry (fun e => { e with owner := client })).moveToTop
        entry).increaseQueryCount, { res := 0 })

def fsExists (fs : FileSystem) (_client : ℤ) (file : FSFile) : FileSystem × FSOutcome :=
  match fs.getValueFromKey (fs.getKey file) with
  | none => (fs.increaseQueryCount, { res := fsFileNotExists })
  | some entry => ((fs.moveToTop entry).increaseQueryCount, { res := 0 })

/-- Release a file, handing it to the client that has waited longest. -/
def innerUnlock (fs : FileSystem) (client : ℤ) (key : ℕ) : FileSystem × FSOutcome :=
  match fs.getValueFromKey key with
  | none => (fs, { res := fsFileNotExists })
  | some entry =>
    if (fs.memory entry).owner ≠ client then (fs, { res := fsClientNotAllowed })
    else
      match (fs.memory entry).waitingLockQueue.tryPop with
      | some (item, queue) =>
        ((fs.modifyEntry entry
            (fun e => { e with owner := item, waitingLockQueue := queue })).moveToTop entry,
          { res := 0, issued := [⟨item, 0⟩] })
      | none =>
        ((fs.modifyEntry entry (fun e => { e with owner := emptyOwner })).moveToTop entry,
          { res := 0 })

def fsUnlock (fs : FileSystem) (client : ℤ) (file : FSFile) : FileSystem × FSOutcome :=
  let r := fs.innerUnlock client (fs.getKey file)
  (r.1.increaseQueryCount, r.2)

/-- The loop of `fs_clean` over the hashes of the opened files. -/
def cleanFiles (client : ℤ) : List HashValue → FileSystem → FileSystem × List FSLockNotification
  | [], fs => (fs, [])
  | filename::filenames, fs =>
    let r := fs.innerUnlock client (tableKey fs.gConfigs.tableSize filename)
    let rest := cleanFiles client filenames r.1
    (rest.1, r.2.issued ++ rest.2)

/-- `filenames` are the hashes that the session lists when the operation runs. -/
def fsClean (fs : FileSystem) (client : ℤ) (filenames : List HashValue) :
    FileSystem × FSOutcome :=
  let r := cleanFiles client filenames fs
  (r.1.increaseQueryCount, { res := 0, issued := r.2 })

end FileSystem

/-- A call of one of the `fs_` operations. -/
inductive FsOperation
  | insert (client : ℤ) (file : FSFile) (aquireLock : Bool)
  | remove (client : ℤ) (file : FSFile)
  | obtain (client : ℤ) (file : FSFile)
  | obtainN (client : ℤ) (n : ℤ) (rand : ℕ → ℕ)
  | modify (client : ℤ) (file : FSFile)
  | append (client : ℤ) (file : FSFile)
  | trylock (client : ℤ) (file : FSFile)
  | exist (client : ℤ) (file : FSFile)
  | unlock (client : ℤ) (file : FSFile)
  | clean (client : ℤ) (filenames : List HashValue)

namespace FsOperation

/-- The client on whose behalf the operation runs. -/
def client : FsOperation → ℤ
  | insert client .. | remove client .. | obtain client .. | obtainN client .. | modify client ..
  | append client .. | trylock client .. | exist client .. | unlock client .. | clean client .. =>
    client

/-- The file the operation is addressed to, if it names one. -/
def file : FsOperation → Option FSFile
  | insert _ file _ | remove _ file | obtain _ file | modify _ file | append _ file
  | trylock _ file | exist _ file | unlock _ file => some file
  | obtainN .. | clean .. => none

end FsOperation

/-- Run one operation. -/
def FileSystem.apply (fs : FileSystem) : FsOperation → Option (FileSystem × FSOutcome)
  | .insert client file aquireLock => fs.fsInsert client file aquireLock
  | .remove client file => fs.fsRemove client file
  | .obtain client file => some (fs.fsObtain client file)
  | .obtainN client n rand => fs.fsObtainN client n rand
  | .modify client file => fs.fsModify client file
  | .append client file => fs.fsAppend client file
  | .trylock client file => some (fs.fsTrylock client file)
  | .exist client file => some (fs.fsExists client file)
  | .unlock client file => some (fs.fsUnlock client file)
  | .clean client filenames => some (fs.fsClean client filenames)

/-- An allocation fails, which ends the process: an array for a negative number of files, or a
buffer that is cut down to no bytes. -/
def FileSystem.AllocationFails (fs : FileSystem) : FsOperation → Prop
  | .obtainN client n rand => fs.fsObtainN client n rand = none
  | .append client file => ∃ entry, fs.getValueFromKey (fs.getKey file) = some entry ∧
      ¬ ((fs.memory entry).owner ≠ client ∧ (fs.memory entry).owner ≠ emptyOwner) ∧
      ¬ file.contentLen + file.nameLen + (fs.memory entry).file.contentLen
        > toSize fs.gCache.bytesMax ∧ (fs.memory entry).emptyBuffer ∧ file.content = []
  | .insert .. | .remove .. | .obtain .. | .modify .. | .trylock .. | .exist .. | .unlock ..
  | .clean .. => False

theorem FileSystem.AllocationFails.apply_eq {fs : FileSystem} {op : FsOperation}
    (h : fs.AllocationFails op) : fs.apply op = none := by
  cases op with
  | obtainN client n rand => exact h
  | append client file =>
    obtain ⟨entry, he, ho, hb, hempty⟩ := h
    rw [FileSystem.apply, FileSystem.fsAppend, he]
    dsimp only
    rw [if_neg ho, if_neg hb, if_pos hempty]
  | insert | remove | obtain | modify | trylock | exist | unlock | clean => exact h.elim

end StorageServer.Server
