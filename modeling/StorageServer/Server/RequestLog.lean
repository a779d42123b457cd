import StorageServer.Common.Net
import StorageServer.Server.Eviction
import StorageServer.Server.Exclusion

/-! Which requests can stop the server. The type and the flags of a request come unchecked from
the socket; a flag word is the number of files that `fs_obtain_n` allocates for, and both are used
as an index into the table of the log. -/
namespace StorageServer.Server
open Common Library.Calls Library.Runs

/-! ### The log -/

abbrev optOpenEmpty : BitVec 32 := 50 ||| flagEmpty
abbrev optOpenCreate : BitVec 32 := 50 ||| flagCreate
abbrev optOpenLock : BitVec 32 := 50 ||| flagLock
abbrev optOpenWrite : BitVec 32 := 50 ||| flagCreate ||| flagLock

/-- The initializers of the table, in order. -/
def opTableEntries : List (BitVec 32 × String) :=
  [(SockMessageType.none.code, "--"), (SockMessageType.respSimple.code, "??"),
    (SockMessageType.respWithFiles.code, "??"), (SockMessageType.reqAppendToFile.code, "AF"),
    (SockMessageType.reqCloseFile.code, "CF"), (SockMessageType.reqCloseSession.code, "CS"),
    (SockMessageType.reqLockFile.code, "LF"), (optOpenCreate, "OC"), (optOpenEmpty, "OE"),
    (SockMessageType.reqOpenFile.code, "OF"), (optOpenLock, "OL"),
    (SockMessageType.reqOpenSession.code, "OS"), (optOpenWrite, "OW"),
    (SockMessageType.reqReadFile.code, "RF"), (SockMessageType.reqRemoveFile.code, "RM"),
    (SockMessageType.reqReadNFiles.code, "RN"), (SockMessageType.reqUnlockFile.code, "UF"),
    (SockMessageType.reqWriteFile.code, "WF")]

/-- The table is as long as its largest index asks for, with null pointers in between; a later
initializer replaces an earlier one. -/
def opTable : List (Option String) :=
  opTableEntries.foldl (fun table e =>
    (table ++ List.replicate (e.1.toNat + 1 - table.length) none).set e.1.toNat (some e.2)) []

/-- The entry of the table that `log_into_file` prints; there is none beyond its end. -/
def loggedOperation (msg : SockMessage) : Option (Option String) :=
  let type := if msg.type = .reqOpenFile then 50 ||| msg.request.flags else msg.type.code
  opTable[type.toNat]?

example : loggedOperation { uid := .replicate 16 0, type := .reqReadFile } = some (some "RF") := by
  decide

theorem length_opTable : opTable.length = 52 := by decide

/-- Beside `FLAG_CREATE` and `FLAG_LOCK` only the bits of 50 itself leave the index in the table. -/
theorem open_index_lt_iff (flags : BitVec 32) :
    (50 ||| flags).toNat < 52 ↔ flags &&& 0xFFFFFFCC#32 = 0 := by
  constructor
  · intro h
    have hall : ∀ n < 52, BitVec.ofNat 32 n &&& 50 = 50 →
        BitVec.ofNat 32 n &&& 0xFFFFFFCC#32 = 0 := by decide
    have h50 : (50 ||| flags) &&& 50#32 = 50 := by
      ext i
      simp only [BitVec.getElem_and, BitVec.getElem_or]
      cases (50#32)[i] <;> simp
    have hflags : flags &&& (50 ||| flags) = flags := by
      ext i
      simp only [BitVec.getElem_and, BitVec.getElem_or]
      cases flags[i] <;> simp
    have hg := hall _ h
    rw [BitVec.ofNat_toNat, BitVec.setWidth_eq] at hg
    calc flags &&& 0xFFFFFFCC#32 = flags &&& ((50 ||| flags) &&& 0xFFFFFFCC#32) := by
          rw [← BitVec.and_assoc, hflags]
      _ = flags &&& 0#32 := by rw [hg h50]; rfl
      _ = 0 := BitVec.and_zero
  · intro h
    have hsplit : 51#32 ||| 0xFFFFFFCC#32 = BitVec.allOnes 32 := by decide
    have hg : (50 ||| flags) &&& 0xFFFFFFCC#32 = 0#32 := by
      rw [BitVec.and_or_distrib_right, h]
      decide
    have h51 : (50 ||| flags) = (50 ||| flags) &&& 51#32 := by
      conv_lhs =>
        rw [← BitVec.and_allOnes (x := 50 ||| flags), ← hsplit, BitVec.and_or_distrib_left, hg,
          BitVec.or_zero]
    rw [h51, BitVec.toNat_and]
    exact Nat.lt_succ_of_le Nat.and_le_right

theorem loggedOperation_isSome_iff (msg : SockMessage) :
    (loggedOperation msg).isSome ↔
      (msg.type = .reqOpenFile → msg.request.flags &&& 0xFFFFFFCC#32 = 0) ∧
        ∀ code, msg.type = .other code → code.val.toNat < 52 := by
  rw [loggedOperation, isSome_getElem?, length_opTable]
  cases ht : msg.type with
  | reqOpenFile =>
    rw [if_pos rfl, open_index_lt_iff]
    simp
  | other code =>
    rw [if_neg (by simp)]
    simp [SockMessageType.code]
  | _ => simp [SockMessageType.code]

/-! ### What an operation allocates -/

namespace FileSystem
variable {fs : FileSystem}

/-- The number of files for which `fs_obtain_n` allocates an array. -/
def obtainNCount (fs : FileSystem) (n : ℤ) : ℤ :=
  let n := if n ≠ 0 then min (min n fs.gCache.slotUsed) maxEjectedFilesAtSameTime else n
  if n = 0 then min fs.gCache.slotUsed maxEjectedFilesAtSameTime else n

/-- The number of bytes, an `int`, for which `fs_append` reallocates the content. -/
def appendCount (fs : FileSystem) (client : ℤ) (file : FSFile) : Option ℤ :=
  match fs.getValueFromKey (fs.getKey file) with
  | none => none
  | some entry =>
    if (fs.memory entry).owner ≠ client ∧ (fs.memory entry).owner ≠ emptyOwner then none
    else if file.contentLen + file.nameLen + (fs.memory entry).file.contentLen
        > toSize fs.gCache.bytesMax then none
    else some (toInt (file.contentLen + (fs.memory entry).file.contentLen : ℕ))

/-- The count that sizes an allocation of an operation. The other sizes are lengths of what the
request carries or of what was ejected. -/
def allocationCount (fs : FileSystem) : FsOperation → Option ℤ
  | .obtainN _ n _ => some (fs.obtainNCount n)
  | .append client file => fs.appendCount client file
  | _ => none

/-- The allocation of a negative number of files is the only way in which it fails. -/
theorem fsObtainN_isSome_iff (client n : ℤ) (rand : ℕ → ℕ) :
    (fs.fsObtainN client n rand).isSome ↔ 0 ≤ fs.obtainNCount n := by
  unfold fsObtainN obtainNCount
  dsimp only
  generalize (if n ≠ 0 then min (min n fs.gCache.slotUsed) (maxEjectedFilesAtSameTime : ℤ)
    else n) = m
  by_cases hm : m = 0
  · rw [if_pos hm, if_pos hm]
    split_ifs with h
    · exact iff_of_false (by simp) (not_le.mpr h)
    · exact iff_of_true rfl (not_lt.mp h)
  · rw [if_neg hm, if_neg hm]
    split_ifs with h
    · exact iff_of_false (by simp) (not_le.mpr h)
    · exact iff_of_true rfl (not_lt.mp h)

theorem obtainNCount_nonneg_iff (h : 0 ≤ fs.gCache.slotUsed) (n : ℤ) :
    0 ≤ fs.obtainNCount n ↔ 0 ≤ n := by
  have hmax : (0 : ℤ) < maxEjectedFilesAtSameTime := by decide
  unfold obtainNCount
  dsimp only
  split_ifs <;> omega

/-- The structure is sound, its capacity is an `int`, and a negative one keeps it empty. -/
structure Sized (fs : FileSystem) : Prop where
  valid : fs.Valid
  max_lt : fs.view.bytesMax < 2^31
  shut : fs.view.bytesMax < 0 → fs.view.Shut

theorem Sized.start (configs : FSConfig) : (initializeFileSystem configs).Sized := by
  refine ⟨.start configs, ?_, fun _ => ⟨rfl,rfl⟩⟩
  change (configs.maxFileCapacityMB * 1024 * 1024).bmod (2^32) < 2^31
  exact Int.bmod_lt (by decide)

theorem Sized.step {fs' : FileSystem} {e : FsEvent} (h : fs.Sized)
    (hs : FileSystem.Step fs e fs') : fs'.Sized := by
  have he := hs.effect h.valid.wf
  have hmax := (he.limits_eq h.valid.sound).2
  refine ⟨h.valid.step hs, hmax ▸ h.max_lt, fun hneg => ?_⟩
  rw [hmax] at hneg
  exact he.shut h.valid.sound hneg (h.shut hneg)

theorem Sized.slotUsed_nonneg (h : fs.Sized) : 0 ≤ fs.gCache.slotUsed := by
  have hslots : fs.gCache.slotUsed = fs.view.entries.length := h.valid.sound.slots_eq
  rw [hslots]
  exact Int.natCast_nonneg _

/-- What is appended to has been found to fit. -/
theorem Sized.appendCount_nonneg (h : fs.Sized) {client n : ℤ} {file : FSFile}
    (hn : fs.appendCount client file = some n) : 0 ≤ n := by
  obtain ⟨ps, hs⟩ := h.valid.wf
  unfold appendCount at hn
  rcases hs.lookup (fs.getKey file) with ⟨hg, -⟩ | ⟨p, hg, -, hfind⟩
  · rw [hg] at hn
    cases hn
  · rw [hg] at hn
    dsimp only at hn
    split_ifs at hn with ho hb
    rw [← Option.some.inj hn]
    have hmax : 0 ≤ fs.gCache.bytesMax := by
      by_contra hneg
      exact (h.shut (not_le.mp hneg)).find_ne hfind
    have hlt : fs.gCache.bytesMax < 2^31 := h.max_lt
    have hsize : (toSize fs.gCache.bytesMax : ℤ) = fs.gCache.bytesMax := by
      unfold toSize
      omega
    unfold toInt
    rw [Int.bmod_eq_of_le (by omega) (by omega)]
    exact Int.natCast_nonneg _

end FileSystem

namespace ServerState
variable {α β : Type} {s s' : ServerState} {configs : FSConfig} {client : Client}
  {msg response : SockMessage} {i : ServerCall} {rand : ℕ → ℕ}

/-! ### What a request calls -/

/-- The calls that handling a request may make. -/
inductive Asked (client : Client) (msg : SockMessage) (rand : ℕ → ℕ) : ServerCall → Prop
  | session (op : SessionOperation) : Asked client msg rand (.session op)
  | clean (filenames : List HashValue) : Asked client msg rand (.fs (.clean client filenames))
  | close : Asked client msg rand (.fs (.unlock client (copyRequestIntoFile msg)))
  | opening : Asked client msg rand (.fs (openOperation client msg))
  | file {op : FsOperation} (h : fileOperation client msg = some op) :
    Asked client msg rand (.fs op)
  | listing (h : msg.type = .reqReadNFiles) :
    Asked client msg rand (.fs (.obtainN client msg.request.flags.toInt rand))

abbrev Asked.Runs (client : Client) (msg : SockMessage) (rand : ℕ → ℕ) (p : Handler α) : Prop :=
  p.Uses (Asked client msg rand) (fun _ _ => False) (fun _ => True) fun _ => False

theorem Asked.call {f : i.Result → Handler α} (hi : Asked client msg rand i)
    (hf : ∀ r, Asked.Runs client msg rand (f r)) :
    Asked.Runs client msg rand (Program.make i >>= f) :=
  Program.Uses.call hi (fun _ h => h) hf

theorem Asked.sessionCall {op : SessionOperation} {f : SessionOutcome → Handler α}
    (hf : ∀ r, Asked.Runs client msg rand (f r)) :
    Asked.Runs client msg rand (Server.sessionCall op >>= f) :=
  Asked.call (.session op) hf

theorem Asked.bind {p : Handler α} {f : α → Handler β} (hp : Asked.Runs client msg rand p)
    (hf : ∀ a, Asked.Runs client msg rand (f a)) : Asked.Runs client msg rand (p >>= f) :=
  Program.Uses.bind hp (fun a _ => hf a) fun _ h => h.elim

theorem closeSession_runs : Asked.Runs client msg rand (closeSession client) := by
  refine Asked.sessionCall fun session => ?_
  dsimp only
  split_ifs
  · exact Asked.call (.clean _) fun _ => Asked.sessionCall fun _ => trivial
  · trivial

theorem openFile_runs (response : SockMessage) :
    Asked.Runs client msg rand (openFile client msg response) := by
  refine Asked.sessionCall fun session => ?_
  split_ifs
  · trivial
  refine Asked.sessionCall fun opened => ?_
  split_ifs
  · trivial
  refine Asked.call .opening fun out => ?_
  split_ifs
  · trivial
  · exact Asked.sessionCall fun added => trivial

theorem closeFile_runs (response : SockMessage) :
    Asked.Runs client msg rand (closeFile client msg response) := by
  refine Asked.sessionCall fun session => ?_
  split_ifs
  · trivial
  refine Asked.sessionCall fun opened => ?_
  split_ifs
  · trivial
  · exact Asked.call .close fun _ => Asked.sessionCall fun closed => trivial

theorem checkOpened_runs (response : SockMessage) :
    Asked.Runs client msg rand (checkOpened client msg response) := by
  unfold checkOpened
  dsimp only
  split_ifs
  · refine Asked.sessionCall fun write => ?_
    split_ifs
    all_goals trivial
  · refine Asked.sessionCall fun opened => ?_
    split_ifs
    all_goals trivial

theorem fileRequest_runs {op : FsOperation} (h : fileOperation client msg = some op) :
    Asked.Runs client msg rand (fileRequest client msg response op) := by
  refine Asked.sessionCall fun session => ?_
  by_cases h0 : session.res ≠ 0
  · rw [if_pos h0]
    trivial
  rw [if_neg h0]
  refine Asked.bind (checkOpened_runs response) fun check => ?_
  cases check with
  | error e => trivial
  | ok =>
    refine Asked.call (.file h) fun out => ?_
    by_cases hrem : msg.type = .reqRemoveFile
    · rw [if_pos hrem]
      exact Asked.sessionCall fun closed => trivial
    · rw [if_neg hrem]
      trivial

theorem handleWork_runs (client : Client) (msg : SockMessage) (rand : ℕ → ℕ) :
    Asked.Runs client msg rand (handleWork client msg rand) := by
  have hreply : ∀ {p : Handler Reply}, Asked.Runs client msg rand p →
      Asked.Runs client msg rand (p >>= fun reply => pure (addOutFiles reply)) :=
    fun hp => Asked.bind hp fun _ => trivial
  unfold handleWork
  split
  next => exact Asked.sessionCall fun session => trivial
  next => exact Asked.bind closeSession_runs fun _ => trivial
  next => exact hreply (openFile_runs _)
  next => exact hreply (closeFile_runs _)
  next ht => exact Asked.call (.listing ht) fun out => trivial
  next =>
    split
    next op hop => exact hreply (fileRequest_runs hop)
    next => trivial

/-! ### Negative counts -/

/-- A call does not size an allocation by a negative count. -/
def CountsNonneg : ServerCall → ServerState → Prop
  | .fs op, s => ∀ n ∈ s.fs.allocationCount op, 0 ≤ n
  | .session _, _ => True

theorem Reachable.sized (h : Reachable configs s) : s.fs.Sized :=
  h.fs_invariant (.start configs) FileSystem.Sized.step

/-- Only a request to read a number of files can ask for a negative count. -/
theorem Asked.countsNonneg (h : Asked client msg rand i) (hs : s.fs.Sized)
    (hn : msg.type = .reqReadNFiles → 0 ≤ msg.request.flags.toInt) : CountsNonneg i s := by
  cases h with
  | session => trivial
  | clean | close => exact fun _ h => by cases h
  | opening =>
    rcases openOperation_cases client msg with ⟨lock, h⟩ | h | h
    all_goals
      rw [h]
      exact fun _ h => by cases h
  | file h =>
    unfold fileOperation at h
    split at h <;> cases h
    all_goals first | exact fun _ h => by cases h | exact fun _ h => hs.appendCount_nonneg h
  | listing ht =>
    intro n h
    cases h
    exact (FileSystem.obtainNCount_nonneg_iff hs.slotUsed_nonneg _).mpr (hn ht)

theorem handleWork_readNFiles (ht : msg.type = .reqReadNFiles) :
    handleWork client msg rand = (fsCall (.obtainN client msg.request.flags.toInt rand) >>=
      fun out => pure (addOutFiles
        (handleError out.res { uid := msg.uid, type := .respSimple, response := ⟨.ok, []⟩ },
          out.outFiles))) := by
  unfold handleWork
  rw [ht]

/-- Handling and logging a request sizes no allocation by a negative count and stays within the
table exactly if a number of files to read is not negative, flags to open a file have no bits but
those of 51, and an unknown type lies in the gaps of the table. -/
theorem request_harmless_iff (hs : Reachable configs s) (client : Client) (msg : SockMessage)
    (rand : ℕ → ℕ) :
    (handleWork client msg rand).Guarded exec CountsNonneg s ∧ (loggedOperation msg).isSome ↔
      (msg.type = .reqReadNFiles → 0 ≤ msg.request.flags.toInt) ∧
      (msg.type = .reqOpenFile → msg.request.flags &&& 0xFFFFFFCC#32 = 0) ∧
      ∀ code, msg.type = .other code → code.val.toNat < 52 := by
  rw [loggedOperation_isSome_iff]
  refine and_congr_left fun _ => ⟨fun hrun ht => ?_, fun hn => ?_⟩
  · rw [handleWork_readNFiles ht] at hrun
    exact (FileSystem.obtainNCount_nonneg_iff hs.sized.slotUsed_nonneg _).mp (hrun.1 _ rfl)
  · exact (handleWork_runs client msg rand).guarded (I := Reachable configs)
      (fun hr hc => hr.call hc) (fun hr hi => hi.countsNonneg hr.sized hn) hs

/-- Client 4 appends to the file `a`. -/
theorem request_harmless_iff_append :
    (handleWork 4 (requestA .reqAppendToFile 0) (fun _ => 0)).Guarded exec CountsNonneg withFile ∧
      (loggedOperation (requestA .reqAppendToFile 0)).isSome :=
  (request_harmless_iff
    (reachable_of_run ((Run.start.next step_withSession).next step_withFile)) 4
    (requestA .reqAppendToFile 0) _).mpr ⟨nofun, nofun, nofun⟩

/-- A request to read -1 files allocates for as many. -/
theorem negative_count_stops_server :
    ¬ ∀ (configs : FSConfig) (s : ServerState) (client : Client) (msg : SockMessage)
      (rand : ℕ → ℕ), Reachable configs s →
      (handleWork client msg rand).Guarded exec CountsNonneg s ∧ (loggedOperation msg).isSome := by
  intro h
  have hguard := (h FileSystem.defaultConfigs (start FileSystem.defaultConfigs) 4
    (requestA .reqReadNFiles (-1)) (fun _ => 0) ⟨[], .start⟩).1
  have hcount := hguard.1 _ rfl
  revert hcount
  decide +kernel

/-! ### Requests that are survived -/

/-- The store is sound and within its limits. -/
def Sturdy (configs : FSConfig) (s : ServerState) : Prop :=
  s.fs.Valid ∧ s.fs.view.slotMax = configs.maxFileCapacitySlot ∧ s.fs.view.Fits

/-- The calls that cannot fail. -/
def Harmless : ServerCall → Prop
  | .fs (.obtainN _ n _) => 0 ≤ n
  | .fs (.append _ file) => file.content ≠ []
  | _ => True

theorem Reachable.sturdy (h1 : 1 ≤ configs.maxFileCapacitySlot)
    (h2 : configs.maxFileCapacitySlot ≤ 1000000) (h : Reachable configs s) :
    s.Sturdy configs := by
  have hd : (1000000 : ℤ) + 1 < depthLimit := by decide
  refine h.fs_invariant (I := fun fs => fs.Valid ∧
    fs.view.slotMax = configs.maxFileCapacitySlot ∧ fs.view.Fits) ⟨.start configs, rfl, Or.inr rfl⟩
    fun ⟨hv, hmax, hf⟩ hs => ?_
  have he := hs.effect hv.wf
  exact ⟨hv.step hs, (he.slotMax_eq hv.sound).trans hmax,
    he.fits hv.sound (by omega) (by omega) hf⟩

theorem Sturdy.exec_isSome (h1 : 1 ≤ configs.maxFileCapacitySlot)
    (h2 : configs.maxFileCapacitySlot ≤ 1000000) (h : s.Sturdy configs) (hi : Harmless i) :
    (ServerState.exec i s).isSome := by
  have hd : (1000000 : ℤ) + 1 < depthLimit := by decide
  obtain ⟨hv, hmax, hf⟩ := h
  have hu : s.fs.gCache.slotUsed = s.fs.view.entries.length := hv.sound.slots_eq
  change s.fs.gCache.slotMax = _ at hmax
  cases i with
  | session op => rfl
  | fs op =>
    have hsafe : ∀ c, s.fs.updateCall op = some c → c.Safe := fun c hc =>
      hv.updateCall_safe hf (by omega) (by omega) hc
    change ((s.fs.apply op).map _).isSome
    rw [Option.isSome_map]
    by_cases hn : ∃ client n rand, op = .obtainN client n rand
    · obtain ⟨client, n, rand, rfl⟩ := hn
      change (s.fs.fsObtainN client n rand).isSome
      rw [FileSystem.fsObtainN_isSome_iff, FileSystem.obtainNCount_nonneg_iff (by omega)]
      exact hi
    · refine FileSystem.apply_isSome hsafe (fun client n rand he => hn ⟨client, n, rand, he⟩) ?_
      rintro client file rfl
      exact hi

theorem Asked.harmless (h : Asked client msg rand i)
    (hn : msg.type = .reqReadNFiles → 0 ≤ msg.request.flags.toInt)
    (ha : msg.type = .reqAppendToFile → (copyRequestIntoFile msg).content ≠ []) : Harmless i := by
  cases h with
  | session | clean | close => trivial
  | opening =>
    rcases openOperation_cases client msg with ⟨lock, h⟩ | h | h
    all_goals
      rw [h]
      trivial
  | file h =>
    unfold fileOperation at h
    split at h <;> cases h
    all_goals first | trivial | exact ha ‹_›
  | listing ht => exact hn ht

/-- With the documented number of slots, a request that neither reads a negative number of files
nor appends nothing is handled to its end. -/
theorem handleWork_isSome (h1 : 1 ≤ configs.maxFileCapacitySlot)
    (h2 : configs.maxFileCapacitySlot ≤ 1000000) (hs : Reachable configs s) (client : Client)
    (rand : ℕ → ℕ) (hn : msg.type = .reqReadNFiles → 0 ≤ msg.request.flags.toInt)
    (ha : msg.type = .reqAppendToFile → (copyRequestIntoFile msg).content ≠ []) :
    ((handleWork client msg rand).run exec s).isSome :=
  (handleWork_runs client msg rand).run_isSome (I := Reachable configs)
    (fun hr hc => hr.call hc)
    (fun hr hi => (hr.sturdy h1 h2).exec_isSome h1 h2 (hi.harmless hn ha)) hs

end ServerState
end StorageServer.Server
