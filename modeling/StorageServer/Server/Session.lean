import StorageServer.Common.Message
import StorageServer.Common.Murmur
import Mathlib.Algebra.GroupWithZero.Nat
import Mathlib.Logic.Function.Basic

/-! The session table: for each connected client, whether it has a session and the hashes of the
files that it has opened. The time stamps of a session are left out. -/
namespace StorageServer.Server
open Common

abbrev sessionAlreadyExist : ℤ := 201
abbrev sessionNotExist : ℤ := 202
abbrev sessionFileAlreadyOpened : ℤ := 203
abbrev sessionFileNeverOpened : ℤ := 204
abbrev sessionOutOfMemory : ℤ := 205
abbrev sessionCannotWriteFile : ℤ := 206

abbrev maxClientOpenedFiles : ℕ := 16
abbrev maxClientCount : ℕ := 4096

instance : NeZero maxClientCount := ⟨by decide⟩

/-- A descriptor that indexes the session table. -/
abbrev Client := Fin maxClientCount

/-- The name of a file as a session gets it. -/
abbrev SessionFile := List UInt8

structure OpenedFile where
  filename : HashValue
  flags : BitVec 32
  deriving DecidableEq

/-- The opened files in the order of the two arrays, up to `numFileOpened`. -/
structure ClientSession where
  isValid : Bool
  opened : List OpenedFile
  opened_le : opened.length ≤ maxClientOpenedFiles
  deriving DecidableEq

namespace ClientSession
variable {session : ClientSession} {file : SessionFile}

def numFileOpened (session : ClientSession) : ℕ := session.opened.length

def filenames (session : ClientSession) : List HashValue :=
  session.opened.map OpenedFile.filename

/-- A session that lists no file. -/
def blank (isValid : Bool) : ClientSession := ⟨isValid, [], Nat.zero_le _⟩

def intHasOpenedFile (session : ClientSession) (file : HashValue) : ℤ :=
  if ¬ session.isValid then sessionNotExist
  else if file ∈ session.filenames then sessionFileAlreadyOpened
  else sessionFileNeverOpened

def addFileOpened (session : ClientSession) (file : SessionFile) (flags : BitVec 32) :
    ClientSession × ℤ :=
  if ¬ session.isValid then (session, sessionNotExist)
  else if session.intHasOpenedFile (hashString file) = sessionFileAlreadyOpened then
    (session, sessionFileAlreadyOpened)
  else if h : session.numFileOpened ≥ maxClientOpenedFiles then (session, sessionOutOfMemory)
  else
    ({ session with
        opened := session.opened ++ [⟨hashString file, flags⟩]
        opened_le := by
          rw [List.length_append]
          exact Nat.not_le.mp h }, 0)

/-- Remove the first file with the hash and shift the others to the left. -/
def remFileOpened (session : ClientSession) (file : SessionFile) : ClientSession × ℤ :=
  if ¬ session.isValid then (session, sessionNotExist)
  else if hashString file ∈ session.filenames then
    ({ session with
        opened := session.opened.eraseP (fun o => o.filename = hashString file)
        opened_le := Nat.le_trans List.length_eraseP_le session.opened_le }, 0)
  else (session, sessionFileNeverOpened)

/-- The loop keeps the answer for the last file with the hash. -/
def canWriteIntoFile (session : ClientSession) (file : SessionFile) : ℤ :=
  if ¬ session.isValid then sessionNotExist
  else
    session.opened.foldl
      (fun res o =>
        if o.filename = hashString file then
          if o.flags = flagCreate ||| flagLock then 0 else sessionCannotWriteFile
        else res)
      sessionFileNeverOpened

/-- The session is open and lists a file with the hash. -/
def Lists (session : ClientSession) (file : HashValue) : Prop :=
  session.isValid = true ∧ file ∈ session.filenames

theorem intHasOpenedFile_cases (session : ClientSession) (file : HashValue) :
    session.isValid = false ∧ session.intHasOpenedFile file = sessionNotExist ∨
      session.Lists file ∧ session.intHasOpenedFile file = sessionFileAlreadyOpened ∨
      (session.isValid = true ∧ file ∉ session.filenames) ∧
        session.intHasOpenedFile file = sessionFileNeverOpened := by
  unfold intHasOpenedFile Lists
  split_ifs with hv hf
  · exact Or.inr (Or.inl ⟨⟨hv, hf⟩, rfl⟩)
  · exact Or.inr (Or.inr ⟨⟨hv, hf⟩, rfl⟩)
  · exact Or.inl ⟨by simpa using hv, rfl⟩

theorem addFileOpened_full (flags : BitVec 32) (hv : session.isValid = true)
    (hn : hashString file ∉ session.filenames)
    (hf : maxClientOpenedFiles ≤ session.numFileOpened) :
    session.addFileOpened file flags = (session, sessionOutOfMemory) := by
  have hne : session.intHasOpenedFile (hashString file) ≠ sessionFileAlreadyOpened := by
    rw [intHasOpenedFile, if_neg (not_not.mpr hv), if_neg hn]
    decide
  rw [addFileOpened, if_neg (not_not.mpr hv), if_neg hne, dif_pos hf]

theorem addFileOpened_room (flags : BitVec 32) (hv : session.isValid = true)
    (hn : hashString file ∉ session.filenames)
    (hf : session.numFileOpened < maxClientOpenedFiles) :
    (session.addFileOpened file flags).2 = 0 ∧
      (session.addFileOpened file flags).1.isValid = true ∧
      (session.addFileOpened file flags).1.filenames =
        session.filenames ++ [hashString file] := by
  have hne : session.intHasOpenedFile (hashString file) ≠ sessionFileAlreadyOpened := by
    rw [intHasOpenedFile, if_neg (not_not.mpr hv), if_neg hn]
    decide
  rw [addFileOpened, if_neg (not_not.mpr hv), if_neg hne, dif_neg (Nat.not_le.mpr hf)]
  exact ⟨rfl, hv, List.map_append⟩

theorem addFileOpened_opened {file : SessionFile} (flags : BitVec 32)
    (hv : session.isValid = true) (hn : hashString file ∉ session.filenames)
    (hf : session.numFileOpened < maxClientOpenedFiles) :
    (session.addFileOpened file flags).1.opened =
      session.opened ++ [⟨hashString file, flags⟩] := by
  have hne : session.intHasOpenedFile (hashString file) ≠ sessionFileAlreadyOpened := by
    rw [intHasOpenedFile, if_neg (not_not.mpr hv), if_neg hn]
    decide
  rw [addFileOpened, if_neg (not_not.mpr hv), if_neg hne,
    dif_neg (Nat.not_le.mpr hf)]

theorem remFileOpened_listed (h : session.Lists (hashString file)) :
    (session.remFileOpened file).2 = 0 ∧ (session.remFileOpened file).1.isValid = true ∧
      (session.remFileOpened file).1.filenames = session.filenames.erase (hashString file) := by
  obtain ⟨hv, hl⟩ := h
  rw [remFileOpened, if_neg (not_not.mpr hv), if_pos hl]
  refine ⟨rfl, hv, ?_⟩
  rw [List.erase_eq_eraseP', filenames, filenames, List.eraseP_map]
  rfl

/-- Removing a listed file makes the list shorter. -/
theorem remFileOpened_ne (h : session.Lists (hashString file)) :
    (session.remFileOpened file).1 ≠ session := by
  intro heq
  obtain ⟨-, -, hf⟩ := remFileOpened_listed h
  rw [heq] at hf
  have hlen := congrArg List.length hf
  rw [List.length_erase_of_mem h.2] at hlen
  have hpos := List.length_pos_of_mem h.2
  omega

theorem canWriteIntoFile_eq_zero (h : session.canWriteIntoFile file = 0) :
    session.Lists (hashString file) := by
  unfold canWriteIntoFile at h
  split_ifs at h with hv
  · refine ⟨hv, ?_⟩
    by_contra hn
    have hfold : ∀ (os : List OpenedFile) (r : ℤ), (∀ o ∈ os, o.filename ≠ hashString file) →
        os.foldl (fun res o => if o.filename = hashString file then
          if o.flags = flagCreate ||| flagLock then 0 else sessionCannotWriteFile else res) r =
          r := by
      intro os
      induction os with
      | nil => exact fun _ _ => rfl
      | cons o os ih =>
        intro r ho
        rw [List.foldl_cons, if_neg (ho o List.mem_cons_self)]
        exact ih r fun x hx => ho x (List.mem_cons_of_mem _ hx)
    rw [hfold _ _ fun o ho heq => hn (List.mem_map.mpr ⟨o, ho, heq⟩)] at h
    exact absurd h (by decide)
  · exact absurd h (by decide)

end ClientSession

abbrev SessionTable := Client → ClientSession

/-- A call of one of the functions on the session table. -/
inductive SessionOperation
  | createSession (client : Client)
  | getSession (client : Client)
  | getRawSession (client : Client)
  | destroySession (client : Client)
  | hasOpenedFile (session : Client) (file : SessionFile)
  | addFileOpened (session : Client) (file : SessionFile) (flags : BitVec 32)
  | remFileOpened (session : Client) (file : SessionFile)
  | canWriteIntoFile (session : Client) (file : SessionFile)

namespace SessionOperation

/-- The client whose session the call reads or changes. -/
def client : SessionOperation → Client
  | createSession client | getSession client | getRawSession client | destroySession client
  | hasOpenedFile client _ | addFileOpened client .. | remFileOpened client _
  | canWriteIntoFile client _ => client

end SessionOperation

/-- The result of a call and the opened files of the session that it points to, if any. -/
structure SessionOutcome where
  res : ℤ
  filenames : List HashValue := []
  deriving DecidableEq

namespace SessionTable

/-- No client has a session. -/
def initSessionSystem : SessionTable := fun _ => .blank false

def createSession (t : SessionTable) (client : Client) : SessionTable × SessionOutcome :=
  if (t client).isValid then (t, { res := sessionAlreadyExist })
  else (Function.update t client (.blank true), { res := 0 })

/-- The session handed out is the number of the client. -/
def getSession (t : SessionTable) (client : Client) : SessionOutcome where
  res := if ¬ (t client).isValid then sessionNotExist else 0

theorem getSession_eq (t : SessionTable) (client : Client) :
    t.getSession client = { res := if (t client).isValid then 0 else sessionNotExist } := by
  unfold getSession
  congr 1
  by_cases hv : (t client).isValid <;> simp [hv]

def getRawSession (t : SessionTable) (client : Client) : SessionOutcome :=
  if ¬ (t client).isValid then { res := sessionNotExist }
  else { res := 0, filenames := (t client).filenames }

def destroySession (t : SessionTable) (client : Client) : SessionTable × SessionOutcome :=
  if ¬ (t client).isValid then (t, { res := sessionNotExist })
  else (Function.update t client (.blank false), { res := 0 })

/-- Run one call. -/
def apply (t : SessionTable) : SessionOperation → SessionTable × SessionOutcome
  | .createSession client => t.createSession client
  | .getSession client => (t, t.getSession client)
  | .getRawSession client => (t, t.getRawSession client)
  | .destroySession client => t.destroySession client
  | .hasOpenedFile session file =>
    (t, { res := (t session).intHasOpenedFile (hashString file) })
  | .addFileOpened session file flags =>
    let r := (t session).addFileOpened file flags
    (Function.update t session r.1, { res := r.2 })
  | .remFileOpened session file =>
    let r := (t session).remFileOpened file
    (Function.update t session r.1, { res := r.2 })
  | .canWriteIntoFile session file => (t, { res := (t session).canWriteIntoFile file })

/-- A call about one client leaves the sessions of the others alone. -/
theorem apply_of_ne (t : SessionTable) (op : SessionOperation) {client : Client}
    (h : client ≠ op.client) : (t.apply op).1 client = t client := by
  cases op with
  | createSession c =>
    rw [apply, createSession]
    split_ifs
    · rfl
    · exact Function.update_of_ne h _ _
  | destroySession c =>
    rw [apply, destroySession]
    split_ifs
    · exact Function.update_of_ne h _ _
    · rfl
  | addFileOpened c file flags | remFileOpened c file => exact Function.update_of_ne h _ _
  | getSession | getRawSession | hasOpenedFile | canWriteIntoFile => rfl

end SessionTable
end StorageServer.Server
