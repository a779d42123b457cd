import StorageServer.Server.Session
import Mathlib.Data.Vector.Basic

/-! The session table as the server lays it out: for each client a slot with two parallel arrays,
of which the first `numFileOpened` cells count. What a slot has held stays in it. A slot stands for
a session with a list of opened files. -/
namespace StorageServer.Server
open Common

/-- One entry of the session table, less its time stamps. -/
structure SessionSlot where
  isValid : Bool
  numFileOpened : ℕ
  filenames : Vector HashValue maxClientOpenedFiles
  flags : Vector (BitVec 32) maxClientOpenedFiles

namespace SessionSlot
variable {s : SessionSlot} {l os stale : List OpenedFile} {o : OpenedFile} {file : HashValue}

/-- Write one cell of both arrays; there is none beyond their end. -/
def put (s : SessionSlot) (i : ℕ) (filename : HashValue) (flags : BitVec 32) :
    Option SessionSlot :=
  if h : i < maxClientOpenedFiles then
    some { s with
      filenames := s.filenames.set i filename h
      flags := s.flags.set i flags h }
  else none

/-- The loop that looks for a file in `n` cells from `i` on. -/
def search (filenames : Vector HashValue maxClientOpenedFiles) (file : HashValue) :
    ℕ → ℕ → Option (Option ℕ)
  | _, 0 => some none
  | i, n+1 => do
    if (← filenames[i]?) = file then return some i
    search filenames file (i + 1) n

def intHasOpenedFile (session : SessionSlot) (file : HashValue) : Option ℤ :=
  if ¬ session.isValid then some sessionNotExist
  else do
    match ← search session.filenames file 0 session.numFileOpened with
    | some _ => return sessionFileAlreadyOpened
    | none => return sessionFileNeverOpened

def addFileOpened (session : SessionSlot) (file : SessionFile) (flags : BitVec 32) :
    Option (SessionSlot × ℤ) :=
  if ¬ session.isValid then some (session, sessionNotExist)
  else do
    let res ← session.intHasOpenedFile (hashString file)
    let res := if res = sessionFileNeverOpened then 0 else res
    let res :=
      if res ≠ sessionFileAlreadyOpened ∧ session.numFileOpened ≥ maxClientOpenedFiles then
        sessionOutOfMemory
      else res
    if res ≠ sessionFileAlreadyOpened ∧ res ≠ sessionOutOfMemory then
      let session ← session.put session.numFileOpened (hashString file) flags
      return ({ session with numFileOpened := session.numFileOpened + 1 }, res)
    return (session, res)

/-- The loop that copies `n` cells, from the one after `j` on, one position to the left. -/
def shift (session : SessionSlot) (j : ℕ) : ℕ → Option SessionSlot
  | 0 => some session
  | n+1 => do
    let session ← session.put j (← session.filenames[j + 1]?) (← session.flags[j + 1]?)
    session.shift (j + 1) n

def remFileOpened (session : SessionSlot) (file : SessionFile) : Option (SessionSlot × ℤ) :=
  if ¬ session.isValid then some (session, sessionNotExist)
  else do
    match ← search session.filenames (hashString file) 0 session.numFileOpened with
    | none => return (session, sessionFileNeverOpened)
    | some i =>
      let session ← session.shift i (session.numFileOpened - 1 - i)
      let session ← session.put (session.numFileOpened - 1) 0 0
      return ({ session with numFileOpened := session.numFileOpened - 1 }, 0)

/-- The loop over `n` cells from `i` on that keeps the answer for the last one with the file. -/
def lastAnswer (session : SessionSlot) (file : HashValue) (i : ℕ) : ℕ → ℤ → Option ℤ
  | 0, res => some res
  | n+1, res => do
    if (← session.filenames[i]?) = file then
      if (← session.flags[i]?) = flagCreate ||| flagLock then
        session.lastAnswer file (i + 1) n 0
      else session.lastAnswer file (i + 1) n sessionCannotWriteFile
    else session.lastAnswer file (i + 1) n res

def canWriteIntoFile (session : SessionSlot) (file : SessionFile) : Option ℤ :=
  if ¬ session.isValid then some sessionNotExist
  else session.lastAnswer (hashString file) 0 session.numFileOpened sessionFileNeverOpened

/-! ### The cells of both arrays -/

def cells (s : SessionSlot) : List OpenedFile :=
  List.zipWith OpenedFile.mk s.filenames.toList s.flags.toList

@[simp] theorem length_cells (s : SessionSlot) : s.cells.length = maxClientOpenedFiles := by
  simp [cells]

theorem filename_zipWith {names : List HashValue} {flags : List (BitVec 32)}
    (h : names.length = flags.length) :
    (List.zipWith OpenedFile.mk names flags).map OpenedFile.filename = names := by
  induction names generalizing flags with
  | nil => rfl
  | cons name names ih =>
    cases flags with
    | nil => cases h
    | cons flag flags => exact congrArg _ (ih (Nat.succ.inj h))

theorem getElem?_cells {i : ℕ} (h : s.cells[i]? = some o) :
    s.filenames[i]? = some o.filename ∧ s.flags[i]? = some o.flags := by
  obtain ⟨filename, flags, hn, hf, rfl⟩ := List.getElem?_zipWith_eq_some.mp h
  rw [← Vector.getElem?_toList, ← Vector.getElem?_toList]
  exact ⟨hn, hf⟩

theorem cell_at (h : s.cells = l ++ o :: stale) :
    s.filenames[l.length]? = some o.filename ∧ s.flags[l.length]? = some o.flags := by
  apply getElem?_cells
  rw [h, List.getElem?_append_right (Nat.le_refl _), Nat.sub_self]
  rfl

theorem zipWith_set {α β γ : Type*} (f : α → β → γ) (xs : List α) (ys : List β) (i : ℕ) (x : α)
    (y : β) : List.zipWith f (xs.set i x) (ys.set i y) = (List.zipWith f xs ys).set i (f x y) := by
  induction xs generalizing ys i with
  | nil => rfl
  | cons a xs ih =>
    cases ys with
    | nil => cases i <;> rfl
    | cons b ys =>
      cases i with
      | zero => rfl
      | succ i => exact congrArg (f a b :: ·) (ih ys i)

theorem put_cells (h : s.cells = l ++ o :: stale) (filename : HashValue) (flags : BitVec 32) :
    ∃ s', s.put l.length filename flags = some s' ∧ s'.cells = l ++ ⟨filename, flags⟩ :: stale ∧
      s'.isValid = s.isValid ∧ s'.numFileOpened = s.numFileOpened := by
  have hlt : l.length < maxClientOpenedFiles := by
    have hlen := congrArg List.length h
    rw [length_cells, List.length_append, List.length_cons] at hlen
    omega
  refine ⟨_, dif_pos hlt, ?_, rfl, rfl⟩
  have hset :
      (l ++ o :: stale).set l.length ⟨filename, flags⟩ = l ++ ⟨filename, flags⟩ :: stale := by
    rw [List.set_append_right _ _ (Nat.le_refl _), Nat.sub_self]
    rfl
  rw [← hset, ← h]
  change List.zipWith _ (s.filenames.set _ _ hlt).toList (s.flags.set _ _ hlt).toList = _
  rw [Vector.toList_set, Vector.toList_set, cells, zipWith_set]

theorem search_succ (h : s.cells = l ++ o :: stale) (file : HashValue) (n : ℕ) :
    search s.filenames file l.length (n + 1) = if o.filename = file then some (some l.length)
      else search s.filenames file (l.length + 1) n := by
  rw [search, (cell_at h).1]
  rfl

/-- The search goes on to the first cell with the file, or through all of them. -/
theorem search_first {n : ℕ} (h : s.cells = l ++ os ++ o :: stale)
    (hos : ∀ x ∈ os, x.filename ≠ file) (ho : o.filename = file) :
    search s.filenames file l.length (os.length + (n + 1)) = some (some (l ++ os).length) := by
  induction os generalizing l with
  | nil =>
    rw [List.append_nil] at h
    rw [List.length_nil, Nat.zero_add, search_succ h, if_pos ho, List.append_nil]
  | cons x os ih =>
    have hcell : s.cells = l ++ x :: (os ++ o :: stale) := by simp [h]
    have hx : x.filename ≠ file := hos x List.mem_cons_self
    have hsplit : s.cells = l ++ [x] ++ os ++ o :: stale := by simp [h]
    have hrest := ih hsplit fun y hy => hos y (List.mem_cons_of_mem _ hy)
    rw [List.length_append, List.length_singleton, List.append_assoc] at hrest
    rw [List.length_cons, Nat.succ_add, search_succ hcell, if_neg hx, hrest]
    rfl

theorem search_none (h : s.cells = l ++ os ++ stale) (hos : ∀ x ∈ os, x.filename ≠ file) :
    search s.filenames file l.length os.length = some none := by
  induction os generalizing l with
  | nil => rfl
  | cons x os ih =>
    have hcell : s.cells = l ++ x :: (os ++ stale) := by simp [h]
    have hx : x.filename ≠ file := hos x List.mem_cons_self
    have hsplit : s.cells = l ++ [x] ++ os ++ stale := by simp [h]
    have hrest := ih hsplit fun y hy => hos y (List.mem_cons_of_mem _ hy)
    rw [List.length_append, List.length_singleton] at hrest
    rw [List.length_cons, search_succ hcell, if_neg hx, hrest]

theorem shift_succ (h : s.cells = l ++ o :: stale) {j : ℕ} (hj : l.length = j + 1) (n : ℕ) :
    s.shift j (n + 1) = (s.put j o.filename o.flags).bind fun s' => s'.shift (j + 1) n := by
  rw [shift, ← hj, (cell_at h).1, (cell_at h).2]
  rfl

/-- The shift drops one cell and leaves a copy of the last one behind. -/
theorem shift_cells (h : s.cells = l ++ o :: (os ++ stale)) :
    ∃ s' o', s.shift l.length os.length = some s' ∧ s'.cells = l ++ os ++ o' :: stale ∧
      s'.isValid = s.isValid ∧ s'.numFileOpened = s.numFileOpened := by
  induction os generalizing s l o with
  | nil => exact ⟨s, o, rfl, by simpa using h, rfl, rfl⟩
  | cons x os ih =>
    obtain ⟨t, ht, hcells, hv, hn⟩ := put_cells h x.filename x.flags
    have hsplit : t.cells = l ++ [x] ++ x :: (os ++ stale) := by simp [hcells]
    obtain ⟨s', o', hs, hcells', hv', hn'⟩ := ih hsplit
    rw [List.length_append, List.length_singleton] at hs
    refine ⟨s', o', ?_, by simpa using hcells', hv'.trans hv, hn'.trans hn⟩
    have hnext : s.cells = l ++ [o] ++ x :: (os ++ stale) := by simp [h]
    rw [List.length_cons, shift_succ hnext List.length_append, ht, Option.bind_some, hs]

theorem lastAnswer_succ (h : s.cells = l ++ o :: stale) (file : HashValue) (n : ℕ) (res : ℤ) :
    s.lastAnswer file l.length (n + 1) res = s.lastAnswer file (l.length + 1) n
      (if o.filename = file then
        if o.flags = flagCreate ||| flagLock then 0 else sessionCannotWriteFile
      else res) := by
  rw [lastAnswer, (cell_at h).1, (cell_at h).2, Option.bind_eq_bind, Option.bind_some,
    Option.bind_eq_bind, Option.bind_some]
  split_ifs <;> rfl

theorem lastAnswer_cells (h : s.cells = l ++ os ++ stale) (file : HashValue) (res : ℤ) :
    s.lastAnswer file l.length os.length res = some (os.foldl (fun res o =>
      if o.filename = file then
        if o.flags = flagCreate ||| flagLock then 0 else sessionCannotWriteFile
      else res) res) := by
  induction os generalizing l res with
  | nil => rfl
  | cons x os ih =>
    have hcell : s.cells = l ++ x :: (os ++ stale) := by simp [h]
    have hsplit : s.cells = l ++ [x] ++ os ++ stale := by simp [h]
    have hrest := ih hsplit
    rw [List.length_append, List.length_singleton] at hrest
    rw [List.length_cons, lastAnswer_succ hcell, hrest, List.foldl_cons]

/-! ### The session that a slot stands for -/

/-- The cells that count are the opened files; a slot without a session counts none. -/
structure Holds (s : SessionSlot) (c : ClientSession) : Prop where
  isValid : s.isValid = c.isValid
  numFileOpened : s.numFileOpened = c.opened.length
  cells : ∃ stale, s.cells = c.opened ++ stale

variable {c : ClientSession}

/-- The search in a slot, over the opened files. -/
theorem Holds.search (h : s.Holds c) (file : HashValue) :
    (file ∉ c.filenames ∧ search s.filenames file 0 s.numFileOpened = some none) ∨
      ∃ l o os, c.opened = l ++ o :: os ∧ (∀ x ∈ l, x.filename ≠ file) ∧ o.filename = file ∧
        SessionSlot.search s.filenames file 0 s.numFileOpened = some (some l.length) := by
  obtain ⟨stale, hcells⟩ := h.cells
  rw [h.numFileOpened]
  by_cases hmem : file ∈ c.filenames
  · obtain ⟨o, ho, hfile⟩ := List.mem_map.mp hmem
    obtain ⟨o, l, os, hl, ho, hsplit, -⟩ := List.exists_of_eraseP (p := (·.filename = file)) ho
      (by simpa using hfile)
    have hl : ∀ x ∈ l, x.filename ≠ file := fun x hx => by simpa using hl x hx
    have ho : o.filename = file := by simpa using ho
    refine Or.inr ⟨l, o, os, hsplit, hl, ho, ?_⟩
    have hcells : s.cells = [] ++ l ++ o :: (os ++ stale) := by simp [hcells, hsplit]
    rw [hsplit, List.length_append, List.length_cons]
    exact search_first hcells hl ho
  · refine Or.inl ⟨hmem, ?_⟩
    have hcells : s.cells = [] ++ c.opened ++ stale := hcells
    refine search_none hcells fun x hx hfile => hmem ?_
    exact List.mem_map.mpr ⟨x, hx, hfile⟩

theorem Holds.intHasOpenedFile (h : s.Holds c) (file : HashValue) :
    s.intHasOpenedFile file = some (c.intHasOpenedFile file) := by
  rw [SessionSlot.intHasOpenedFile, ClientSession.intHasOpenedFile, h.isValid]
  by_cases hv : c.isValid = true
  swap
  · rw [if_pos hv, if_pos hv]
  rw [if_neg (not_not.mpr hv), if_neg (not_not.mpr hv)]
  rcases h.search file with ⟨hn, hs⟩ | ⟨l, o, os, hsplit, -, ho, hs⟩
  · rw [hs, if_neg hn]
    rfl
  · have hmem : file ∈ c.filenames := by simp [ClientSession.filenames, hsplit, ho]
    rw [hs, if_pos hmem]
    rfl

theorem Holds.addFileOpened (h : s.Holds c) (file : SessionFile) (flags : BitVec 32) :
    ∃ s', s.addFileOpened file flags = some (s', (c.addFileOpened file flags).2) ∧
      s'.Holds (c.addFileOpened file flags).1 := by
  rw [SessionSlot.addFileOpened, h.intHasOpenedFile, h.isValid, h.numFileOpened]
  rcases c.intHasOpenedFile_cases (hashString file) with ⟨hv, ho⟩ | ⟨⟨hv, hl⟩, ho⟩ | ⟨⟨hv, hn⟩, ho⟩
  · rw [ClientSession.addFileOpened, if_pos (by simp [hv]), if_pos (by simp [hv])]
    exact ⟨s, rfl, h⟩
  · rw [ClientSession.addFileOpened, if_neg (not_not.mpr hv), if_neg (not_not.mpr hv), if_pos ho,
      ho]
    exact ⟨s, rfl, h⟩
  · rw [if_neg (not_not.mpr hv), ho, Option.bind_eq_bind, Option.bind_some]
    dsimp only
    rw [if_pos rfl]
    rcases Nat.lt_or_ge c.numFileOpened maxClientOpenedFiles with hf | hf
    · have hroom : ¬ ((0 : ℤ) ≠ sessionFileAlreadyOpened ∧
          c.opened.length ≥ maxClientOpenedFiles) := fun h => h.2.not_gt hf
      obtain ⟨hres, hvalid, -⟩ := ClientSession.addFileOpened_room flags hv hn hf
      obtain ⟨x, stale, hcells⟩ : ∃ x stale, s.cells = c.opened ++ x :: stale := by
        obtain ⟨stale, hcells⟩ := h.cells
        cases stale with
        | nil =>
          have hlen := congrArg List.length hcells
          rw [length_cells, List.append_nil] at hlen
          exact absurd hf (hlen ▸ Nat.lt_irrefl _)
        | cons x stale => exact ⟨x, stale, hcells⟩
      obtain ⟨s', hs', hcells', hv', hn'⟩ := put_cells hcells (hashString file) flags
      rw [if_neg hroom, if_pos (by decide), hres, hs', Option.bind_eq_bind,
        Option.bind_some]
      refine ⟨_, rfl, hv'.trans (h.isValid.trans (hv.trans hvalid.symm)), ?_, stale, ?_⟩
      · change s'.numFileOpened + 1 = _
        rw [hn', h.numFileOpened, ClientSession.addFileOpened_opened flags hv hn hf,
          List.length_append, List.length_singleton]
      · rw [ClientSession.addFileOpened_opened flags hv hn hf, List.append_assoc]
        exact hcells'
    · have hfull : (0 : ℤ) ≠ sessionFileAlreadyOpened ∧
          c.opened.length ≥ maxClientOpenedFiles := ⟨by decide, hf⟩
      rw [ClientSession.addFileOpened_full flags hv hn hf, if_pos hfull, if_neg (by decide)]
      exact ⟨s, rfl, h⟩

theorem Holds.remFileOpened (h : s.Holds c) (file : SessionFile) :
    ∃ s', s.remFileOpened file = some (s', (c.remFileOpened file).2) ∧
      s'.Holds (c.remFileOpened file).1 := by
  rw [SessionSlot.remFileOpened, ClientSession.remFileOpened, h.isValid]
  by_cases hv : c.isValid = true
  swap
  · rw [if_pos hv, if_pos hv]
    exact ⟨s, rfl, h⟩
  rw [if_neg (not_not.mpr hv), if_neg (not_not.mpr hv)]
  rcases h.search (hashString file) with ⟨hn, hs⟩ | ⟨l, o, os, hsplit, hl, ho, hs⟩
  · rw [hs, if_neg hn]
    exact ⟨s, rfl, h⟩
  · have hmem : hashString file ∈ c.filenames := by simp [ClientSession.filenames, hsplit, ho]
    obtain ⟨stale, hcells⟩ := h.cells
    have hcells : s.cells = l ++ o :: (os ++ stale) := by simp [hcells, hsplit]
    obtain ⟨t, o', ht, hcells', hv', hn'⟩ := shift_cells hcells
    obtain ⟨s', hs', hcells'', hv'', hn''⟩ := put_cells hcells' 0 0
    have hcount : s.numFileOpened - 1 = (l ++ os).length := by
      rw [h.numFileOpened, hsplit]
      simp
    have hrest : (l ++ os).length - l.length = os.length := by simp
    rw [hs, if_pos hmem, Option.bind_eq_bind, Option.bind_some]
    dsimp only
    rw [hcount, hrest, ht, Option.bind_eq_bind, Option.bind_some, hn', hcount, hs',
      Option.bind_some]
    have herase : c.opened.eraseP (fun o => o.filename = hashString file) = l ++ os := by
      rw [hsplit, List.eraseP_append_right _ fun x hx => by simpa using hl x hx,
        List.eraseP_cons_of_pos (by simpa using ho)]
    refine ⟨_, rfl, hv''.trans (hv'.trans h.isValid), ?_, ⟨0, 0⟩ :: stale, ?_⟩
    · change s'.numFileOpened - 1 = (c.opened.eraseP _).length
      rw [hn'', hn', hcount, herase]
    · exact hcells''.trans (congrArg (· ++ _) herase.symm)

theorem Holds.filenames (h : s.Holds c) :
    s.filenames.toList.take s.numFileOpened = c.filenames := by
  obtain ⟨stale, hcells⟩ := h.cells
  have hmap : s.cells.map OpenedFile.filename = s.filenames.toList :=
    filename_zipWith (by simp)
  rw [← hmap, hcells, h.numFileOpened, List.map_append, List.take_left' (List.length_map _)]
  rfl

theorem Holds.canWriteIntoFile (h : s.Holds c) (file : SessionFile) :
    s.canWriteIntoFile file = some (c.canWriteIntoFile file) := by
  obtain ⟨stale, hcells⟩ := h.cells
  rw [SessionSlot.canWriteIntoFile, ClientSession.canWriteIntoFile, h.isValid, h.numFileOpened]
  by_cases hv : c.isValid = true
  · rw [if_neg (not_not.mpr hv), if_neg (not_not.mpr hv)]
    have hcells : s.cells = [] ++ c.opened ++ stale := hcells
    exact lastAnswer_cells hcells _ _
  · rw [if_pos hv, if_pos hv]

end SessionSlot

abbrev SessionSlots := Client → SessionSlot

namespace SessionSlots

/-- The table is static, so its slots are zero at first. -/
def initSessionSystem : SessionSlots := fun _ =>
  { isValid := false
    numFileOpened := 0
    filenames := .replicate maxClientOpenedFiles 0
    flags := .replicate maxClientOpenedFiles 0 }

def createSession (t : SessionSlots) (client : Client) : SessionSlots × SessionOutcome :=
  if (t client).isValid then (t, { res := sessionAlreadyExist })
  else
    (Function.update t client
      { isValid := true
        numFileOpened := 0
        filenames := .replicate maxClientOpenedFiles 0
        flags := .replicate maxClientOpenedFiles 0 }, { res := 0 })

def getSession (t : SessionSlots) (client : Client) : SessionOutcome where
  res := if ¬ (t client).isValid then sessionNotExist else 0

/-- The caller reads the cells that count. -/
def getRawSession (t : SessionSlots) (client : Client) : SessionOutcome :=
  if ¬ (t client).isValid then { res := sessionNotExist }
  else
    { res := 0
      filenames := (t client).filenames.toList.take (t client).numFileOpened }

/-- The arrays stay as they are. -/
def destroySession (t : SessionSlots) (client : Client) : SessionSlots × SessionOutcome :=
  if ¬ (t client).isValid then (t, { res := sessionNotExist })
  else
    (Function.update t client { t client with isValid := false, numFileOpened := 0 }, { res := 0 })

/-- Run one call; there is no result if it goes beyond an array. -/
def apply (t : SessionSlots) : SessionOperation → Option (SessionSlots × SessionOutcome)
  | .createSession client => some (t.createSession client)
  | .getSession client => some (t, t.getSession client)
  | .getRawSession client => some (t, t.getRawSession client)
  | .destroySession client => some (t.destroySession client)
  | .hasOpenedFile session file =>
    ((t session).intHasOpenedFile (hashString file)).map fun res => (t, { res := res })
  | .addFileOpened session file flags =>
    ((t session).addFileOpened file flags).map fun r =>
      (Function.update t session r.1, { res := r.2 })
  | .remFileOpened session file =>
    ((t session).remFileOpened file).map fun r =>
      (Function.update t session r.1, { res := r.2 })
  | .canWriteIntoFile session file =>
    ((t session).canWriteIntoFile file).map fun res => (t, { res := res })

/-- Each slot stands for the session of its client. -/
def Holds (t : SessionSlots) (table : SessionTable) : Prop :=
  ∀ client, (t client).Holds (table client)

variable {t : SessionSlots} {table : SessionTable}

theorem initSessionSystem_holds : initSessionSystem.Holds .initSessionSystem :=
  fun _ => ⟨rfl, rfl, _, rfl⟩

theorem Holds.update (h : t.Holds table) (client : Client) {s : SessionSlot} {c : ClientSession}
    (hs : s.Holds c) :
    Holds (Function.update t client s) (Function.update table client c) := by
  intro other
  by_cases hc : other = client
  · subst hc
    rwa [Function.update_self, Function.update_self]
  · rw [Function.update_of_ne hc, Function.update_of_ne hc]
    exact h other

theorem createSession_holds (h : t.Holds table) (client : Client) :
    (t.createSession client).2 = (table.createSession client).2 ∧
      Holds (t.createSession client).1 (table.createSession client).1 := by
  rw [createSession, SessionTable.createSession, (h client).isValid]
  split_ifs
  · exact ⟨rfl, h⟩
  · exact ⟨rfl, h.update client ⟨rfl, rfl, _, rfl⟩⟩

theorem destroySession_holds (h : t.Holds table) (client : Client) :
    (t.destroySession client).2 = (table.destroySession client).2 ∧
      Holds (t.destroySession client).1 (table.destroySession client).1 := by
  rw [destroySession, SessionTable.destroySession, (h client).isValid]
  split_ifs
  · exact ⟨rfl, h.update client ⟨rfl, rfl, _, rfl⟩⟩
  · exact ⟨rfl, h⟩

theorem getSession_holds (h : t.Holds table) (client : Client) :
    t.getSession client = table.getSession client := by
  rw [getSession, SessionTable.getSession, (h client).isValid]

theorem getRawSession_holds (h : t.Holds table) (client : Client) :
    t.getRawSession client = table.getRawSession client := by
  rw [getRawSession, SessionTable.getRawSession, (h client).isValid, (h client).filenames]

/-- The arrays do what the lists of opened files do, and no call goes beyond them. -/
theorem Holds.apply (h : t.Holds table) (op : SessionOperation) :
    ∃ t', t.apply op = some (t', (table.apply op).2) ∧ Holds t' (table.apply op).1 := by
  cases op with
  | createSession client =>
    obtain ⟨hres, hholds⟩ := createSession_holds h client
    exact ⟨_, congrArg (fun res => some (_, res)) hres, hholds⟩
  | destroySession client =>
    obtain ⟨hres, hholds⟩ := destroySession_holds h client
    exact ⟨_, congrArg (fun res => some (_, res)) hres, hholds⟩
  | getSession client =>
    exact ⟨t, congrArg (fun res => some (t, res)) (getSession_holds h client), h⟩
  | getRawSession client =>
    exact ⟨t, congrArg (fun res => some (t, res)) (getRawSession_holds h client), h⟩
  | hasOpenedFile client file =>
    refine ⟨t, ?_, h⟩
    rw [SessionSlots.apply, (h client).intHasOpenedFile]
    rfl
  | canWriteIntoFile client file =>
    refine ⟨t, ?_, h⟩
    rw [SessionSlots.apply, (h client).canWriteIntoFile]
    rfl
  | addFileOpened client file flags =>
    obtain ⟨s, hs, hholds⟩ := (h client).addFileOpened file flags
    refine ⟨_, ?_, h.update client hholds⟩
    rw [SessionSlots.apply, hs]
    rfl
  | remFileOpened client file =>
    obtain ⟨s, hs, hholds⟩ := (h client).remFileOpened file
    refine ⟨_, ?_, h.update client hholds⟩
    rw [SessionSlots.apply, hs]
    rfl

end SessionSlots
end StorageServer.Server
