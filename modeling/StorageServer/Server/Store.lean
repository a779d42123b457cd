import StorageServer.Library.KeyedList
import StorageServer.Server.FileSystem

/-! What the file system is for: a store of files listed from the least to the most recently
touched one. At most one file has a given key. -/
namespace StorageServer.Server
open Common Library.KeyedList

/-- A stored file, the client that owns it and the clients waiting for it, longest first. An empty
content may be a buffer of no bytes. -/
structure StoreEntry where
  owner : ℤ
  file : FSFile
  emptyBuffer : Bool
  waiting : List ℤ
  deriving DecidableEq

/-- The entries from the oldest to the newest, the two limits and the two counters. -/
structure Store where
  tableSize : ℕ
  slotMax : ℤ
  bytesMax : ℤ
  slotUsed : ℤ
  bytesUsed : ℤ
  entries : List StoreEntry
  deriving DecidableEq

/-- The bytes of a list of entries. -/
def totalSize (es : List StoreEntry) : ℕ := (es.map (fun e => e.file.size)).sum

@[simp] theorem totalSize_nil : totalSize [] = 0 := rfl

@[simp] theorem totalSize_cons (e : StoreEntry) (es : List StoreEntry) :
    totalSize (e::es) = e.file.size + totalSize es := rfl

@[simp] theorem totalSize_append (es es' : List StoreEntry) :
    totalSize (es ++ es') = totalSize es + totalSize es' := by simp [totalSize]

namespace StoreEntry

/-- The notifications that tell the waiting clients that the file is gone. -/
def farewell (e : StoreEntry) : List FSLockNotification :=
  e.waiting.map (fun fd => ⟨fd, fsFileNotExists⟩)

end StoreEntry

namespace Store

/-- The file after `data` has been appended to it. -/
def appended (file data : FSFile) : FSFile := { file with content := file.content ++ data.content }

end Store

namespace StoreEntry
variable (e : StoreEntry) (file : FSFile)

/-- The entry with a new file. -/
def rewritten : StoreEntry := { e with file := file, emptyBuffer := false }

/-- The entry with data appended, which leaves a buffer even if there is none. -/
def extended : StoreEntry :=
  { e with
    file := Store.appended e.file file
    emptyBuffer := (Store.appended e.file file).content.isEmpty }

@[simp] theorem rewritten_file : (e.rewritten file).file = file := rfl
@[simp] theorem rewritten_owner : (e.rewritten file).owner = e.owner := rfl
@[simp] theorem rewritten_waiting : (e.rewritten file).waiting = e.waiting := rfl
@[simp] theorem extended_file : (e.extended file).file = Store.appended e.file file := rfl
@[simp] theorem extended_owner : (e.extended file).owner = e.owner := rfl
@[simp] theorem extended_waiting : (e.extended file).waiting = e.waiting := rfl

end StoreEntry

namespace Store

def keyOf (s : Store) (name : List UInt8) : ℕ := tableKey s.tableSize (hashString name)

/-- The key an entry is stored under. -/
def key (s : Store) (e : StoreEntry) : ℕ := s.keyOf e.file.name

def find (s : Store) (k : ℕ) : Option StoreEntry := lookup s.key k s.entries

/-- Make an entry the newest one, in the place of the entry under its key. -/
def put (s : Store) (e : StoreEntry) : Store := { s with entries := touch s.key e s.entries }

/-- Replace the entry under its key where it stands. -/
def replace (s : Store) (e : StoreEntry) : Store :=
  { s with entries := Library.KeyedList.replace s.key e s.entries }

def erase (s : Store) (k : ℕ) : Store := { s with entries := without s.key k s.entries }

/-- Adjust the two counters. -/
def charge (s : Store) (bytes slots : ℤ) : Store :=
  { s with bytesUsed := s.bytesUsed + bytes, slotUsed := s.slotUsed + slots }

/-- Split off the oldest entries until the bytes fit, at most `depth` of them. -/
def ejectOver (bytesMax : ℤ) : ℕ → ℤ → List StoreEntry → List StoreEntry × List StoreEntry
  | 0, _, es => ([], es)
  | _+1, _, [] => ([], [])
  | depth+1, bytesUsed, e::es =>
    if bytesUsed > bytesMax then
      let rest := ejectOver bytesMax depth (bytesUsed - e.file.size) es
      (e :: rest.1, rest.2)
    else ([], e::es)

theorem ejectOver_of_le {bytesMax bytesUsed : ℤ} (h : bytesUsed ≤ bytesMax) (depth : ℕ)
    (es : List StoreEntry) : ejectOver bytesMax depth bytesUsed es = ([], es) := by
  cases depth with
  | zero => rfl
  | succ depth =>
    cases es with
    | nil => rfl
    | cons e es => simp [ejectOver, not_lt.mpr h]

/-- Keep the entries `kept` after `gone` have left. -/
def release (s : Store) (gone kept : List StoreEntry) : Store :=
  { s with
    entries := kept
    bytesUsed := s.bytesUsed - totalSize gone
    slotUsed := s.slotUsed - gone.length }

@[simp] theorem release_nil (s : Store) : s.release [] s.entries = s := by simp [release]

theorem release_release (s : Store) (gone gone' kept kept' : List StoreEntry) :
    (s.release gone kept).release gone' kept' = s.release (gone ++ gone') kept' := by
  simp only [release, totalSize_append, List.length_append, Int.natCast_add, sub_sub]

/-- Hand out ejected entries; without outputs there must be none. -/
def pass (outs : Bool) (s : Store) (gone : List StoreEntry) :
    Option (Store × List StoreEntry) :=
  if gone = [] then some (s, []) else if outs then some (s, gone) else none

/-- Bring the store back within its limits; the second component lists what was ejected. -/
def reclaim (s : Store) (outs : Bool) : Option (Store × List StoreEntry) :=
  let r := ejectOver s.bytesMax depthLimit s.bytesUsed s.entries
  let freed := s.release r.1 r.2
  if freed.slotUsed > freed.slotMax then
    match freed.entries with
    | [] => none
    | e::es => pass outs (freed.release [e] es) [e]
  else pass outs freed r.1

/-- The outcome of a successful operation that ejected entries. -/
def ejected (gone : List StoreEntry) : FSOutcome where
  res := 0
  outFiles := gone.map StoreEntry.file
  issued := gone.flatMap StoreEntry.farewell

def insert (s : Store) (client : ℤ) (file : FSFile) (lock : Bool) : Option (Store × FSOutcome) :=
  match s.find (s.keyOf file.name) with
  | some _ => some (s, { res := fsFileAlreadyExists })
  | none =>
    (((s.put ⟨if lock then client else emptyOwner, file, false, []⟩).charge file.size 1).reclaim
      true).map (fun r => (r.1, ejected r.2))

def remove (s : Store) (client : ℤ) (file : FSFile) : Option (Store × FSOutcome) :=
  match s.find (s.keyOf file.name) with
  | none => some (s, { res := fsFileNotExists })
  | some e =>
    if e.owner ≠ client then some (s, { res := fsClientNotAllowed })
    else
      (((s.erase (s.keyOf file.name)).charge (-e.file.size) (-1)).reclaim false).map
        (fun r => (r.1, { res := 0, issued := e.farewell }))

def obtain (s : Store) (file : FSFile) : Store × FSOutcome :=
  match s.find (s.keyOf file.name) with
  | none => (s, { res := fsFileNotExists })
  | some e => (s.put e, { res := 0, outFiles := [e.file] })

def obtainN (s : Store) (n : ℤ) (rand : ℕ → ℕ) : Option (Store × FSOutcome) :=
  let n := if n ≠ 0 then min (min n s.slotUsed) maxEjectedFilesAtSameTime else n
  if n = 0 then
    let n := min s.slotUsed maxEjectedFilesAtSameTime
    if n < 0 then none
    else some (s, { res := 0, outFiles := (s.entries.reverse.take n.toNat).map StoreEntry.file })
  else if n < 0 then none
  else
    let indexes :=
      (FileSystem.reservoir n.toNat s.slotUsed.toNat rand).insertionSort (· ≤ ·)
    some (s, { res := 0, outFiles :=
      FileSystem.pickIndexes 0 indexes (s.entries.map StoreEntry.file) })

def modify (s : Store) (client : ℤ) (file : FSFile) : Option (Store × FSOutcome) :=
  match s.find (s.keyOf file.name) with
  | none => some (s, { res := fsFileNotExists })
  | some e =>
    if e.owner ≠ client then some (s, { res := fsClientNotAllowed })
    else if file.contentLen + file.nameLen > toSize s.bytesMax then
      some (s, { res := fsFileTooBig })
    else
      (((s.put (e.rewritten file)).charge (file.size - e.file.size) 0).reclaim true).map
        (fun r => (r.1, ejected r.2))

def append (s : Store) (client : ℤ) (file : FSFile) : Option (Store × FSOutcome) :=
  match s.find (s.keyOf file.name) with
  | none => some (s, { res := fsFileNotExists })
  | some e =>
    if e.owner ≠ client ∧ e.owner ≠ emptyOwner then some (s, { res := fsClientNotAllowed })
    else if file.contentLen + file.nameLen + e.file.contentLen > toSize s.bytesMax then
      some (s, { res := fsFileTooBig })
    else if e.emptyBuffer ∧ file.content = [] then none
    else
      (((s.put (e.extended file)).charge
          (file.size - (appended e.file file).contentLen) 0).reclaim true).map
        (fun r => (r.1, ejected r.2))

def trylock (s : Store) (client : ℤ) (file : FSFile) : Store × FSOutcome :=
  match s.find (s.keyOf file.name) with
  | none => (s, { res := fsFileNotExists })
  | some e =>
    if e.owner ≠ emptyOwner ∧ e.owner ≠ client then
      if e.waiting.length < maxClientWaitingOnLock then
        (s.replace { e with waiting := e.waiting ++ [client] }, { res := fsClientWaitingOnLock })
      else (s, { res := fsClientNotAllowed })
    else (s.put { e with owner := client }, { res := 0 })

def exist (s : Store) (file : FSFile) : Store × FSOutcome :=
  match s.find (s.keyOf file.name) with
  | none => (s, { res := fsFileNotExists })
  | some e => (s.put e, { res := 0 })

/-- An entry whose owner lets go of it. -/
def handOff (e : StoreEntry) : StoreEntry :=
  { e with owner := e.waiting.headD emptyOwner, waiting := e.waiting.tail }

/-- The notification of the client that an entry is handed to, if any. -/
def granted (e : StoreEntry) : List FSLockNotification :=
  e.waiting.head?.toList.map (fun fd => ⟨fd, 0⟩)

def innerUnlock (s : Store) (client : ℤ) (k : ℕ) : Store × FSOutcome :=
  match s.find k with
  | none => (s, { res := fsFileNotExists })
  | some e =>
    if e.owner ≠ client then (s, { res := fsClientNotAllowed })
    else (s.put (handOff e), { res := 0, issued := granted e })

def cleanFiles (client : ℤ) : List HashValue → Store → Store × List FSLockNotification
  | [], s => (s, [])
  | filename::filenames, s =>
    let r := s.innerUnlock client (tableKey s.tableSize filename)
    let rest := cleanFiles client filenames r.1
    (rest.1, r.2.issued ++ rest.2)

def clean (s : Store) (client : ℤ) (filenames : List HashValue) : Store × FSOutcome :=
  let r := cleanFiles client filenames s
  (r.1, { res := 0, issued := r.2 })

/-- Run one operation. -/
def apply (s : Store) : FsOperation → Option (Store × FSOutcome)
  | .insert client file aquireLock => s.insert client file aquireLock
  | .remove client file => s.remove client file
  | .obtain _ file => some (s.obtain file)
  | .obtainN _ n rand => s.obtainN n rand
  | .modify client file => s.modify client file
  | .append client file => s.append client file
  | .trylock client file => some (s.trylock client file)
  | .exist _ file => some (s.exist file)
  | .unlock client file => some (s.innerUnlock client (s.keyOf file.name))
  | .clean client filenames => some (s.clean client filenames)

end Store
end StorageServer.Server
