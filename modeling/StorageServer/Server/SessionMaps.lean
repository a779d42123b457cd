import StorageServer.Library.BoundedMaps
import StorageServer.Server.SessionSlots

/-! What the session table is for: each connected client has a map of at most 16 opened files, in
the order in which it has opened them. Whatever is called, the slots of the table show these maps
and the calls answer from them. -/
namespace StorageServer.Server
open Common Library.KeyedList

/-- The opened files of a session under their hashes. -/
abbrev OpenedFiles := BoundedMap OpenedFile.filename maxClientOpenedFiles

/-- The sessions of the clients that have one. -/
abbrev SessionMaps := Client → Option OpenedFiles

namespace SessionMaps
variable (m : SessionMaps)

def noSession : SessionMaps := fun _ => none

def createSession (client : Client) : SessionMaps × SessionOutcome :=
  match m client with
  | some _ => (m, { res := sessionAlreadyExist })
  | none => (Function.update m client (some .empty), { res := 0 })

def destroySession (client : Client) : SessionMaps × SessionOutcome :=
  match m client with
  | some _ => (Function.update m client none, { res := 0 })
  | none => (m, { res := sessionNotExist })

def getRawSession (client : Client) : SessionOutcome :=
  match m client with
  | some files => { res := 0, filenames := files.entries.map OpenedFile.filename }
  | none => { res := sessionNotExist }

def hasOpenedFile (client : Client) (file : HashValue) : ℤ :=
  match m client with
  | some files =>
    if (files.find file).isSome then sessionFileAlreadyOpened else sessionFileNeverOpened
  | none => sessionNotExist

def addFileOpened (client : Client) (file : HashValue) (flags : BitVec 32) : SessionMaps × ℤ :=
  match m client with
  | some files =>
    if hfile : files.find file = none then
      if hroom : files.Full then (m, sessionOutOfMemory)
      else (Function.update m client (some (files.insert ⟨file, flags⟩ hfile hroom)), 0)
    else (m, sessionFileAlreadyOpened)
  | none => (m, sessionNotExist)

def remFileOpened (client : Client) (file : HashValue) : SessionMaps × ℤ :=
  match m client with
  | some files =>
    if (files.find file).isSome then (Function.update m client (some (files.erase file)), 0)
    else (m, sessionFileNeverOpened)
  | none => (m, sessionNotExist)

def canWriteIntoFile (client : Client) (file : HashValue) : ℤ :=
  match m client with
  | some files =>
    match files.find file with
    | some o => if o.flags = flagCreate ||| flagLock then 0 else sessionCannotWriteFile
    | none => sessionFileNeverOpened
  | none => sessionNotExist

def apply : SessionOperation → SessionMaps × SessionOutcome
  | .createSession client => m.createSession client
  | .getSession client =>
    (m, { res := if (m client).isSome then 0 else sessionNotExist })
  | .getRawSession client => (m, m.getRawSession client)
  | .destroySession client => m.destroySession client
  | .hasOpenedFile client file => (m, { res := m.hasOpenedFile client (hashString file) })
  | .addFileOpened client file flags =>
    let r := m.addFileOpened client (hashString file) flags
    (r.1, { res := r.2 })
  | .remFileOpened client file =>
    let r := m.remFileOpened client (hashString file)
    (r.1, { res := r.2 })
  | .canWriteIntoFile client file => (m, { res := m.canWriteIntoFile client (hashString file) })

/-- Run calls one after another. -/
def run (m : SessionMaps) : List SessionOperation → SessionMaps × List SessionOutcome
  | [] => (m, [])
  | op::ops =>
    let (m, out) := m.apply op
    let (m, outs) := run m ops
    (m, out::outs)

/-! ### What the calls do to the maps -/

variable {m} {client other : Client} {file : HashValue} {flags : BitVec 32}

/-- A call about one client leaves the maps of the others alone. -/
theorem apply_of_ne (op : SessionOperation) (h : other ≠ op.client) :
    (m.apply op).1 other = m other := by
  cases op with
  | createSession c =>
    rw [apply, createSession]
    cases m c with
    | some _ => rfl
    | none => exact Function.update_of_ne h _ _
  | destroySession c =>
    rw [apply, destroySession]
    cases m c with
    | some _ => exact Function.update_of_ne h _ _
    | none => rfl
  | addFileOpened c file flags =>
    rw [apply, addFileOpened]
    cases m c with
    | some files =>
      dsimp only
      split_ifs
      · rfl
      · exact Function.update_of_ne h _ _
      · rfl
    | none => rfl
  | remFileOpened c file =>
    rw [apply, remFileOpened]
    cases m c with
    | some files =>
      dsimp only
      split_ifs
      · exact Function.update_of_ne h _ _
      · rfl
    | none => rfl
  | getSession | getRawSession | hasOpenedFile | canWriteIntoFile => rfl

/-- The only reasons for which a file is not opened. -/
theorem addFileOpened_fails_iff :
    (m.addFileOpened client file flags).2 ≠ 0 ↔
      ∀ files, m client = some files → (files.find file).isSome ∨ files.Full := by
  rw [addFileOpened]
  cases m client with
  | none => simp
  | some files =>
    dsimp only
    split_ifs with hfile hroom
    · simp [hroom]
    · simp [hfile, hroom]
    · simp [Option.isSome_iff_ne_none, hfile]

/-- A file that is opened goes to the end of its list, with the flags of this opening. -/
theorem addFileOpened_opens (h : (m.addFileOpened client file flags).2 = 0) :
    ∃ files files', m client = some files ∧
      (m.addFileOpened client file flags).1 = Function.update m client (some files') ∧
      files'.entries = files.entries ++ [⟨file, flags⟩] ∧
      ∀ k, files'.find k = if k = file then some ⟨file, flags⟩ else files.find k := by
  rw [addFileOpened] at h ⊢
  cases hm : m client with
  | none => simp [hm] at h
  | some files =>
    rw [hm] at h
    dsimp only at h ⊢
    split_ifs with hfile hroom
    · simp [hfile, hroom] at h
    · exact ⟨files, _, rfl, rfl, rfl, fun k => BoundedMap.find_insert⟩
    · simp [hfile] at h

/-- A file that is closed leaves its list, and the others keep their order and their flags. -/
theorem remFileOpened_closes (h : (m.remFileOpened client file).2 = 0) :
    ∃ files files', m client = some files ∧
      (m.remFileOpened client file).1 = Function.update m client (some files') ∧
      files'.entries.Sublist files.entries ∧
      ∀ k, files'.find k = if k = file then none else files.find k := by
  rw [remFileOpened] at h ⊢
  cases hm : m client with
  | none => simp [hm] at h
  | some files =>
    rw [hm] at h
    dsimp only at h ⊢
    split_ifs with hfile
    · exact ⟨files, _, rfl, rfl, List.filter_sublist, fun k => BoundedMap.find_erase⟩
    · simp [hfile] at h

end SessionMaps

/-! ### Slots show maps -/

/-- The lists of opened files are the entries of the maps. -/
def ClientSession.Denotes (c : ClientSession) : Option OpenedFiles → Prop
  | some files => c.isValid = true ∧ c.opened = files.entries
  | none => c.isValid = false

/-- The cells that count are the entries of the map, in order. -/
def SessionSlot.Shows (s : SessionSlot) : Option OpenedFiles → Prop
  | some files => s.isValid = true ∧ s.numFileOpened = files.entries.length ∧
      ∀ (i : ℕ) (o : OpenedFile), files.entries[i]? = some o →
        s.filenames[i]? = some o.filename ∧ s.flags[i]? = some o.flags
  | none => s.isValid = false

theorem SessionSlot.Holds.shows {s : SessionSlot} {c : ClientSession} {files : Option OpenedFiles}
    (h : s.Holds c) (hc : c.Denotes files) : s.Shows files := by
  cases files with
  | none => exact h.isValid.trans hc
  | some files =>
    obtain ⟨hv, hentries⟩ := hc
    obtain ⟨stale, hcells⟩ := h.cells
    refine ⟨h.isValid.trans hv, hentries ▸ h.numFileOpened, fun i o ho => getElem?_cells ?_⟩
    rw [hcells, hentries, List.getElem?_append_left (List.getElem?_eq_some_iff.mp ho).1]
    exact ho

namespace ClientSession
variable {c : ClientSession} {files : OpenedFiles}

theorem Denotes.listed_iff (h : c.Denotes (some files)) (file : HashValue) :
    file ∈ c.filenames ↔ (files.find file).isSome := by
  rw [Option.isSome_iff_ne_none, ne_eq, BoundedMap.find_eq_none, not_not, filenames, h.2]

theorem foldl_of_not_mem {os : List OpenedFile} {file : HashValue}
    (h : lookup OpenedFile.filename file os = none) (g : OpenedFile → ℤ) (res : ℤ) :
    os.foldl (fun res o => if o.filename = file then g o else res) res = res := by
  induction os with
  | nil => rfl
  | cons o os ih =>
    have hne := lookup_eq_none.mp h
    rw [List.foldl_cons, if_neg (hne o List.mem_cons_self)]
    exact ih (lookup_eq_none.mpr fun x hx => hne x (List.mem_cons_of_mem _ hx))

/-- Where a hash occurs once, the last file with it is the only one. -/
theorem foldl_of_lookup {os : List OpenedFile} {file : HashValue} {o : OpenedFile}
    (hd : Distinct OpenedFile.filename os) (h : lookup OpenedFile.filename file os = some o)
    (g : OpenedFile → ℤ) (res : ℤ) :
    os.foldl (fun res o => if o.filename = file then g o else res) res = g o := by
  induction os generalizing res with
  | nil => cases h
  | cons x os ih =>
    obtain ⟨hx, hd⟩ := List.nodup_cons.mp hd
    rw [List.foldl_cons]
    by_cases hfile : x.filename = file
    · rw [lookup_cons_of_eq hfile] at h
      obtain rfl := Option.some.inj h
      rw [if_pos hfile]
      refine foldl_of_not_mem (lookup_eq_none.mpr fun y hy he => hx ?_) g _
      exact List.mem_map.mpr ⟨y, hy, he.trans hfile.symm⟩
    · rw [lookup_cons_of_ne hfile] at h
      rw [if_neg hfile]
      exact ih hd h res

theorem Denotes.canWriteIntoFile (h : c.Denotes (some files)) (file : SessionFile) :
    c.canWriteIntoFile file =
      match files.find (hashString file) with
      | some o => if o.flags = flagCreate ||| flagLock then 0 else sessionCannotWriteFile
      | none => sessionFileNeverOpened := by
  rw [ClientSession.canWriteIntoFile, if_neg (not_not.mpr h.1), h.2]
  cases hfind : files.find (hashString file) with
  | none => exact foldl_of_not_mem hfind _ _
  | some o => exact foldl_of_lookup files.distinct hfind _ _

end ClientSession

namespace SessionTable
variable {t : SessionTable} {m : SessionMaps}

def Denotes (t : SessionTable) (m : SessionMaps) : Prop := ∀ client, (t client).Denotes (m client)

theorem Denotes.update (h : t.Denotes m) (client : Client) {c : ClientSession}
    {files : Option OpenedFiles} (hc : c.Denotes files) :
    Denotes (Function.update t client c) (Function.update m client files) := by
  intro other
  by_cases ho : other = client
  · subst ho
    rwa [Function.update_self, Function.update_self]
  · rw [Function.update_of_ne ho, Function.update_of_ne ho]
    exact h other

theorem Denotes.of_none (h : t.Denotes m) {client : Client} (hm : m client = none) :
    ¬ (t client).isValid = true := by
  have hc := h client
  rw [hm] at hc
  exact Bool.not_eq_true _ ▸ hc

theorem Denotes.of_some (h : t.Denotes m) {client : Client} {files : OpenedFiles}
    (hm : m client = some files) : (t client).Denotes (some files) := hm ▸ h client

theorem Denotes.createSession (h : t.Denotes m) (client : Client) :
    (t.createSession client).2 = (m.createSession client).2 ∧
      Denotes (t.createSession client).1 (m.createSession client).1 := by
  rw [SessionTable.createSession, SessionMaps.createSession]
  cases hm : m client with
  | none =>
    rw [if_neg (h.of_none hm)]
    exact ⟨rfl, h.update client ⟨rfl, rfl⟩⟩
  | some files =>
    rw [if_pos (h.of_some hm).1]
    exact ⟨rfl, h⟩

theorem Denotes.destroySession (h : t.Denotes m) (client : Client) :
    (t.destroySession client).2 = (m.destroySession client).2 ∧
      Denotes (t.destroySession client).1 (m.destroySession client).1 := by
  rw [SessionTable.destroySession, SessionMaps.destroySession]
  cases hm : m client with
  | none =>
    rw [if_pos (h.of_none hm)]
    exact ⟨rfl, h⟩
  | some files =>
    rw [if_neg (not_not.mpr (h.of_some hm).1)]
    exact ⟨rfl, h.update client rfl⟩

theorem Denotes.getRawSession (h : t.Denotes m) (client : Client) :
    t.getRawSession client = m.getRawSession client := by
  rw [SessionTable.getRawSession, SessionMaps.getRawSession]
  cases hm : m client with
  | none => rw [if_pos (h.of_none hm)]
  | some files =>
    obtain ⟨hv, hentries⟩ := h.of_some hm
    rw [if_neg (not_not.mpr hv), ClientSession.filenames, hentries]

theorem Denotes.hasOpenedFile (h : t.Denotes m) (client : Client) (file : HashValue) :
    (t client).intHasOpenedFile file = m.hasOpenedFile client file := by
  rw [ClientSession.intHasOpenedFile, SessionMaps.hasOpenedFile]
  cases hm : m client with
  | none => rw [if_pos (h.of_none hm)]
  | some files =>
    have hc := h.of_some hm
    rw [if_neg (not_not.mpr hc.1)]
    exact if_congr (hc.listed_iff file) rfl rfl

theorem Denotes.addFileOpened (h : t.Denotes m) (client : Client) (file : SessionFile)
    (flags : BitVec 32) :
    ((t client).addFileOpened file flags).2 =
        (m.addFileOpened client (hashString file) flags).2 ∧
      Denotes (Function.update t client ((t client).addFileOpened file flags).1)
        (m.addFileOpened client (hashString file) flags).1 := by
  rw [SessionMaps.addFileOpened]
  cases hm : m client with
  | none =>
    rw [ClientSession.addFileOpened, if_pos (h.of_none hm), Function.update_eq_self]
    exact ⟨rfl, h⟩
  | some files =>
    have hc := h.of_some hm
    dsimp only
    by_cases hfile : files.find (hashString file) = none
    · have hn : hashString file ∉ (t client).filenames := by
        rw [hc.listed_iff, hfile]
        exact Bool.false_ne_true
      rw [dif_pos hfile]
      by_cases hfull : files.Full
      · have hlen : maxClientOpenedFiles ≤ (t client).numFileOpened := by
          rw [ClientSession.numFileOpened, hc.2]
          exact hfull.ge
        rw [dif_pos hfull, ClientSession.addFileOpened_full flags hc.1 hn hlen,
          Function.update_eq_self]
        exact ⟨rfl, h⟩
      · have hlen : (t client).numFileOpened < maxClientOpenedFiles := by
          rw [ClientSession.numFileOpened, hc.2]
          exact Nat.lt_of_le_of_ne files.length_le hfull
        obtain ⟨hres, hvalid, -⟩ := ClientSession.addFileOpened_room flags hc.1 hn hlen
        rw [dif_neg hfull, hres]
        refine ⟨rfl, h.update client ⟨hvalid, ?_⟩⟩
        rw [ClientSession.addFileOpened_opened flags hc.1 hn hlen, hc.2]
        rfl
    · have hl : (t client).intHasOpenedFile (hashString file) = sessionFileAlreadyOpened := by
        rw [h.hasOpenedFile, SessionMaps.hasOpenedFile, hm]
        exact if_pos (Option.isSome_iff_ne_none.mpr hfile)
      rw [dif_neg hfile, ClientSession.addFileOpened, if_neg (not_not.mpr hc.1), if_pos hl,
        Function.update_eq_self]
      exact ⟨rfl, h⟩

theorem Denotes.remFileOpened (h : t.Denotes m) (client : Client) (file : SessionFile) :
    ((t client).remFileOpened file).2 = (m.remFileOpened client (hashString file)).2 ∧
      Denotes (Function.update t client ((t client).remFileOpened file).1)
        (m.remFileOpened client (hashString file)).1 := by
  rw [SessionMaps.remFileOpened, ClientSession.remFileOpened]
  cases hm : m client with
  | none =>
    rw [if_pos (h.of_none hm), Function.update_eq_self]
    exact ⟨rfl, h⟩
  | some files =>
    have hc := h.of_some hm
    dsimp only
    rw [if_neg (not_not.mpr hc.1)]
    by_cases hl : hashString file ∈ (t client).filenames
    · rw [if_pos hl, if_pos ((hc.listed_iff _).mp hl)]
      refine ⟨rfl, h.update client ⟨hc.1, ?_⟩⟩
      rw [BoundedMap.entries_erase, ← hc.2]
    · rw [if_neg hl, if_neg (fun hs => hl ((hc.listed_iff _).mpr hs)), Function.update_eq_self]
      exact ⟨rfl, h⟩

theorem Denotes.canWriteIntoFile (h : t.Denotes m) (client : Client) (file : SessionFile) :
    (t client).canWriteIntoFile file = m.canWriteIntoFile client (hashString file) := by
  rw [SessionMaps.canWriteIntoFile]
  cases hm : m client with
  | none => rw [ClientSession.canWriteIntoFile, if_pos (h.of_none hm)]
  | some files => exact (h.of_some hm).canWriteIntoFile file

/-- The lists of opened files do what the maps do. -/
theorem Denotes.apply (h : t.Denotes m) (op : SessionOperation) :
    (t.apply op).2 = (m.apply op).2 ∧ Denotes (t.apply op).1 (m.apply op).1 := by
  cases op with
  | createSession client => exact h.createSession client
  | destroySession client => exact h.destroySession client
  | getSession client =>
    refine ⟨?_, h⟩
    rw [SessionTable.apply, SessionTable.getSession, SessionMaps.apply]
    cases hm : m client with
    | none => rw [if_pos (h.of_none hm)]; rfl
    | some files => rw [if_neg (not_not.mpr (h.of_some hm).1)]; rfl
  | getRawSession client => exact ⟨h.getRawSession client, h⟩
  | hasOpenedFile client file =>
    exact ⟨congrArg (SessionOutcome.mk · []) (h.hasOpenedFile client _), h⟩
  | canWriteIntoFile client file =>
    exact ⟨congrArg (SessionOutcome.mk · []) (h.canWriteIntoFile client file), h⟩
  | addFileOpened client file flags =>
    obtain ⟨hres, hdenotes⟩ := h.addFileOpened client file flags
    exact ⟨congrArg (SessionOutcome.mk · []) hres, hdenotes⟩
  | remFileOpened client file =>
    obtain ⟨hres, hdenotes⟩ := h.remFileOpened client file
    exact ⟨congrArg (SessionOutcome.mk · []) hres, hdenotes⟩

end SessionTable

/-! ### Every sequence of calls -/

namespace SessionSlots

/-- Run calls one after another. -/
def run (t : SessionSlots) : List SessionOperation → Option (SessionSlots × List SessionOutcome)
  | [] => some (t, [])
  | op::ops => do
    let (t, out) ← t.apply op
    let (t, outs) ← run t ops
    return (t, out::outs)

theorem Holds.run {t : SessionSlots} {table : SessionTable} {m : SessionMaps} (h : t.Holds table)
    (hm : table.Denotes m) (ops : List SessionOperation) :
    ∃ t', t.run ops = some (t', (m.run ops).2) ∧
      ∀ client, (t' client).Shows ((m.run ops).1 client) := by
  induction ops generalizing t table m with
  | nil => exact ⟨t, rfl, fun client => (h client).shows (hm client)⟩
  | cons op ops ih =>
    obtain ⟨t', ht, hholds⟩ := h.apply op
    obtain ⟨hout, hdenotes⟩ := hm.apply op
    obtain ⟨t'', hrun, hshows⟩ := ih hholds hdenotes
    refine ⟨t'', ?_, hshows⟩
    rw [SessionSlots.run, ht, Option.bind_eq_bind, Option.bind_some]
    dsimp only
    rw [hrun, hout]
    rfl

/-- Whatever is called, no call goes beyond the arrays of a slot, each call answers as the maps
do, and the slots show the maps. -/
theorem sessions_are_bounded_maps (ops : List SessionOperation) :
    ∃ t, initSessionSystem.run ops = some (t, (SessionMaps.noSession.run ops).2) ∧
      ∀ client, (t client).Shows ((SessionMaps.noSession.run ops).1 client) :=
  initSessionSystem_holds.run (m := .noSession) (fun _ => rfl) ops

end SessionSlots
end StorageServer.Server
