import StorageServer.Server.StoreSteps

/-! The limits of the cache. Between two operations both hold, so `updateCacheSize` never has to
eject in both of its branches, always finds what it ejects, and ejects nothing on a removal. -/
namespace StorageServer.Server
open Common Library.KeyedList Library.Runs

namespace Store
variable {s s' : Store} {k : ℕ} {e x : StoreEntry} {gone : List StoreEntry}

/-- The bytes are within their limit, as far as there is something to eject. -/
def Fits (s : Store) : Prop := s.bytesUsed ≤ s.bytesMax ∨ s.entries = []

theorem Fits.bytes_le (h : s.Fits) (he : s.find k = some e) : s.bytesUsed ≤ s.bytesMax := by
  refine h.resolve_right fun hnil => ?_
  have hmem := mem_of_find he
  rw [hnil] at hmem
  exact absurd hmem List.not_mem_nil

theorem Reclaimed.slotMax_eq (h : s.Reclaimed gone s') : s'.slotMax = s.slotMax := by
  obtain ⟨⟨kept, -, rfl⟩, -, -⟩ := h
  rfl

theorem Reclaimed.bytesMax_eq (h : s.Reclaimed gone s') : s'.bytesMax = s.bytesMax := by
  obtain ⟨⟨kept, -, rfl⟩, -, -⟩ := h
  rfl

/-- The loop can eject every entry before it meets its depth limit. -/
theorem Reclaimed.fits (h : s.Reclaimed gone s') (hl : s.entries.length ≤ depthLimit) :
    s'.Fits := by
  refine h.bytes_le.imp (fun hb => h.bytesMax_eq ▸ hb) fun hd => ?_
  rw [hd]
  exact List.drop_of_length_le hl

theorem cleanFiles_limits (client : ℤ) (filenames : List HashValue) (s : Store) :
    (cleanFiles client filenames s).1.slotMax = s.slotMax ∧
      (cleanFiles client filenames s).1.bytesMax = s.bytesMax :=
  cleanFiles_rule (fun t _ => t.slotMax = s.slotMax ∧ t.bytesMax = s.bytesMax) client
    (fun h _ _ => h) [] ⟨rfl,rfl⟩ filenames

/-- An operation keeps what fits, or it ends by making room for at most one entry. -/
theorem Effect.fits_or_reclaimed {op : FsOperation} {out : FSOutcome} (h : s.Effect op out s')
    (hs : s.Sound) :
    (s'.slotMax = s.slotMax ∧ s'.bytesMax = s.bytesMax) ∧ (s.Fits → s'.Fits) ∨
      ∃ (t : Store) (gone : List StoreEntry), t.Countable ∧
        (t.slotMax = s.slotMax ∧ t.bytesMax = s.bytesMax) ∧ t.Reclaimed gone s' := by
  cases h with
  | present | missing | refused | listed => exact Or.inl ⟨⟨rfl,rfl⟩, id⟩
  | obtained he | existing he | locked he | queued he | unlocked he =>
    exact Or.inl ⟨⟨rfl,rfl⟩, fun hf => Or.inl (hf.bytes_le he)⟩
  | @removed client file e gone s' he ho hr =>
    obtain ⟨-, hc⟩ := hs.erase_charge he (-(e.file.size : ℤ))
    exact Or.inr ⟨_, gone, hc, ⟨rfl,rfl⟩, hc.reclaim hr⟩
  | @inserted client file lock gone s' he hr =>
    obtain ⟨-, hc⟩ := hs.put_new
      (x := ⟨if lock then client else emptyOwner, file, false, []⟩) he file.size
    exact Or.inr ⟨_, gone, hc, ⟨rfl,rfl⟩, hc.reclaim hr⟩
  | @modified client file e gone s' he ho hb hr =>
    obtain ⟨-, hc⟩ := hs.put_charge (x := e.rewritten file) he rfl
      (file.size - e.file.size)
    exact Or.inr ⟨_, gone, hc, ⟨rfl,rfl⟩, hc.reclaim hr⟩
  | @appended client file e gone s' he ho hb hr =>
    obtain ⟨-, hc⟩ := hs.put_charge (x := e.extended file) he
      (key_of_name he rfl) (file.size - (Store.appended e.file file).contentLen)
    exact Or.inr ⟨_, gone, hc, ⟨rfl,rfl⟩, hc.reclaim hr⟩
  | @cleaned client filenames =>
    refine Or.inl ⟨cleanFiles_limits client filenames s, fun hf => ?_⟩
    exact cleanFiles_rule (fun t _ => t.Fits) client (fun h he _ => Or.inl (h.bytes_le he)) [] hf
      filenames

/-- What an operation may add is one entry. -/
theorem Countable.length_le (h : s.Countable) (h0 : 0 ≤ s.slotMax) :
    (s.entries.length : ℤ) ≤ s.slotMax + 1 := by
  have hle := h.slots_le
  rw [h.slots_eq] at hle
  omega

theorem Effect.limits_eq {op : FsOperation} {out : FSOutcome} (h : s.Effect op out s')
    (hs : s.Sound) : s'.slotMax = s.slotMax ∧ s'.bytesMax = s.bytesMax := by
  rcases h.fits_or_reclaimed hs with ⟨heq, -⟩ | ⟨t, gone, -, ⟨hslots, hbytes⟩, hr⟩
  · exact heq
  · exact ⟨hr.slotMax_eq.trans hslots, hr.bytesMax_eq.trans hbytes⟩

theorem Effect.slotMax_eq {op : FsOperation} {out : FSOutcome} (h : s.Effect op out s')
    (hs : s.Sound) : s'.slotMax = s.slotMax := (h.limits_eq hs).1

theorem Effect.fits {op : FsOperation} {out : FSOutcome} (h : s.Effect op out s') (hs : s.Sound)
    (h0 : 0 ≤ s.slotMax) (hd : s.slotMax < depthLimit) (hf : s.Fits) : s'.Fits := by
  rcases h.fits_or_reclaimed hs with ⟨-, hkeep⟩ | ⟨t, gone, hc, ⟨heq, -⟩, hr⟩
  · exact hkeep hf
  · rw [← heq] at h0 hd
    have hl := hc.length_le h0
    exact hr.fits (by omega)

end Store

namespace FileSystem
variable {fs fs' : FileSystem} {op : FsOperation}

/-- A call of `updateCacheSize`: the structure that it finds and its arguments. -/
structure UpdateCall where
  fs : FileSystem
  newFile : Option FSFile
  oldFile : Option FSFile
  outs : Bool

/-- The call of `updateCacheSize` that an operation makes, if it gets that far. -/
def updateCall (fs : FileSystem) : FsOperation → Option UpdateCall
  | .insert client file aquireLock =>
    let created := fs.createEmptyCacheEntry file (if aquireLock then client else emptyOwner)
    match fs.getValueFromKey (fs.getKey file) with
    | none => some ⟨(created.setValueForKey (fs.getKey file) (some fs.nextPtr)).moveToTop
        fs.nextPtr, some file, none, true⟩
    | some _ => none
  | .remove client file =>
    match fs.getValueFromKey (fs.getKey file) with
    | none => none
    | some entry =>
      if (fs.memory entry).owner ≠ client then none
      else
        let fs := fs.takeOut (fs.getKey file) entry
        some ⟨fs, none, some (fs.memory entry).file, false⟩
  | .modify client file =>
    match fs.getValueFromKey (fs.getKey file) with
    | none => none
    | some entry =>
      if (fs.memory entry).owner ≠ client then none
      else if file.contentLen + file.nameLen > toSize fs.gCache.bytesMax then none
      else some ⟨(fs.modifyEntry entry
          (fun e => { e with file := file, emptyBuffer := false })).moveToTop entry, some file,
        some (fs.memory entry).file, true⟩
  | .append client file =>
    match fs.getValueFromKey (fs.getKey file) with
    | none => none
    | some entry =>
      if (fs.memory entry).owner ≠ client ∧ (fs.memory entry).owner ≠ emptyOwner then none
      else if file.contentLen + file.nameLen + (fs.memory entry).file.contentLen
          > toSize fs.gCache.bytesMax then none
      else if (fs.memory entry).emptyBuffer ∧ file.content = [] then none
      else
        let newFile := Store.appended (fs.memory entry).file file
        some ⟨(fs.modifyEntry entry (fun e => { e with
            file := newFile
            emptyBuffer := newFile.content.isEmpty })).moveToTop entry, some file,
          some { newFile with name := [] }, true⟩
  | _ => none

theorem map_fst_bind {β : Type} (u : Option (FileSystem × β)) (f : FileSystem × β → FSOutcome) :
    (u >>= fun r => some (r.1.increaseQueryCount, f r)).map Prod.fst =
      u.map (fun r => r.1.increaseQueryCount) := by
  cases u <;> rfl

/-- An operation that makes its call ends with it. -/
theorem apply_of_updateCall {c : UpdateCall} (h : fs.updateCall op = some c) :
    (fs.apply op).map Prod.fst = (c.fs.updateCacheSize c.newFile c.oldFile c.outs).map
      (fun r => r.1.increaseQueryCount) := by
  cases op with
  | insert client file lock =>
    unfold updateCall at h
    dsimp only at h
    have hget :
        (fs.createEmptyCacheEntry file (if lock then client else emptyOwner)).getValueFromKey
          (fs.getKey file) = fs.getValueFromKey (fs.getKey file) := rfl
    rw [FileSystem.apply, fsInsert]
    dsimp only
    rw [hget]
    cases hk : fs.getValueFromKey (fs.getKey file) with
    | none =>
      rw [hk] at h
      cases h
      exact map_fst_bind _ _
    | some =>
      rw [hk] at h
      cases h
  | remove client file =>
    unfold updateCall at h
    rw [FileSystem.apply, fsRemove]
    dsimp only at h ⊢
    cases hk : fs.getValueFromKey (fs.getKey file) with
    | none =>
      rw [hk] at h
      cases h
    | some entry =>
      rw [hk] at h
      dsimp only at h ⊢
      split_ifs at h ⊢ with ho
      cases h
      exact map_fst_bind _ _
  | modify client file =>
    unfold updateCall at h
    rw [FileSystem.apply, fsModify]
    dsimp only at h ⊢
    cases hk : fs.getValueFromKey (fs.getKey file) with
    | none =>
      rw [hk] at h
      cases h
    | some entry =>
      rw [hk] at h
      dsimp only at h ⊢
      split_ifs at h ⊢ with ho hb
      cases h
      exact map_fst_bind _ _
  | append client file =>
    unfold updateCall at h
    rw [FileSystem.apply, fsAppend]
    dsimp only at h ⊢
    cases hk : fs.getValueFromKey (fs.getKey file) with
    | none =>
      rw [hk] at h
      cases h
    | some entry =>
      rw [hk] at h
      dsimp only at h ⊢
      split_ifs at h ⊢ with ho hb
      cases h
      exact map_fst_bind _ _
  | obtain | obtainN | trylock | exist | unlock | clean => cases h

/-! ### The calls are safe -/

namespace UpdateCall
variable {c : UpdateCall}

/-- The structure after the counters have been adjusted. -/
def charged (c : UpdateCall) : FileSystem := c.fs.chargeFiles c.newFile c.oldFile

/-- The structure after the byte branch and the ejected buffer. -/
def freed (c : UpdateCall) : FileSystem × List Ptr := c.charged.byteBranch

/-- The slot branch is taken. -/
def SlotBranch (c : UpdateCall) : Prop := c.freed.1.gCache.slotUsed > c.freed.1.gCache.slotMax

instance (c : UpdateCall) : Decidable c.SlotBranch := inferInstanceAs (Decidable (_ > _))

/-- What `updateCacheSize` relies on. -/
structure Safe (c : UpdateCall) : Prop where
  exclusive : c.freed.2 = [] ∨ ¬ c.SlotBranch
  tail_ne : c.SlotBranch → c.freed.1.gCache.tail ≠ none
  buffer_le : c.freed.2.length ≤ maxEjectedFilesAtSameTime
  depth_lt : c.freed.2.length < depthLimit
  no_outs : c.outs = false → c.freed.2 = [] ∧ ¬ c.SlotBranch

/-- A call is safe when one entry at most is too many, and none without outputs. -/
theorem safe_of_countable (hw : c.fs.WF) (hc : c.charged.view.Countable)
    (h0 : 0 ≤ c.charged.view.slotMax) (hd : c.charged.view.slotMax + 1 < depthLimit)
    (ho : c.outs = false → c.charged.view.bytesUsed ≤ c.charged.view.bytesMax ∧
      c.charged.view.slotUsed ≤ c.charged.view.slotMax) : c.Safe := by
  obtain ⟨ps, hs⟩ := hw
  obtain ⟨gone, kept, fs', hfreed, hkept, -, he, hv⟩ :=
    (hs.chargeFiles c.newFile c.oldFile).byteBranch
  change c.freed = _ at hfreed
  change Store.ejectOver c.charged.view.bytesMax depthLimit c.charged.view.bytesUsed
    c.charged.view.entries = _ at he
  change fs'.view = c.charged.view.release _ _ at hv
  have hsplit := (Store.ejectOver_spec c.charged.view.bytesMax depthLimit c.charged.view.bytesUsed
    c.charged.view.entries).1
  rw [he] at hsplit
  have hlen := congrArg List.length hsplit
  simp only [List.length_append, List.length_map] at hlen
  have hle := hc.length_le h0
  have hused : c.freed.1.gCache.slotUsed = kept.length := by
    rw [hfreed]
    have hu : fs'.view.slotUsed = c.charged.view.slotUsed - (gone.map _).length :=
      congrArg Store.slotUsed hv
    rw [List.length_map, hc.slots_eq] at hu
    change fs'.view.slotUsed = _
    omega
  have hmax : c.freed.1.gCache.slotMax = c.charged.view.slotMax := by
    rw [hfreed]
    exact congrArg Store.slotMax hv
  have hslot : c.SlotBranch ↔ c.charged.view.slotMax < kept.length := by
    unfold SlotBranch
    rw [hused, hmax]
  refine ⟨?_, fun hb => ?_, ?_, ?_, fun houts => ?_⟩
  · rw [hslot, hfreed]
    by_cases hg : gone = []
    · exact Or.inl hg
    · have hpos := List.length_pos_of_ne_nil hg
      right
      omega
  · rw [hfreed]
    change fs'.gCache.tail ≠ none
    rw [hkept.tail]
    intro hnil
    rw [List.head?_eq_none_iff] at hnil
    rw [hslot, hnil] at hb
    simp only [List.length_nil] at hb
    omega
  · rw [hfreed]
    change gone.length ≤ depthLimit
    omega
  · rw [hfreed]
    change gone.length < _
    omega
  · obtain ⟨hbytes, hslots⟩ := ho houts
    rw [Store.ejectOver_of_le hbytes] at he
    have hg : gone = [] := List.map_eq_nil_iff.mp (congrArg Prod.fst he).symm
    rw [hslot, hfreed]
    rw [hc.slots_eq] at hslots
    exact ⟨hg, by omega⟩

/-- A safe call dereferences no null pointer and writes through none. -/
theorem Safe.isSome (h : c.Safe) :
    (c.fs.updateCacheSize c.newFile c.oldFile c.outs).isSome := by
  have hpass : ∀ fs buffer, c.outs = true ∨ buffer = [] →
      (passEjected c.outs fs buffer).isSome := by
    intro fs buffer ho
    unfold passEjected
    by_cases hb : buffer = []
    · rw [if_pos hb]
      rfl
    · rw [if_neg hb, if_pos (ho.resolve_right hb)]
      rfl
  change (if c.SlotBranch then _ else passEjected c.outs c.freed.1 c.freed.2).isSome
  by_cases hb : c.SlotBranch
  · rw [if_pos hb]
    have houts : c.outs = true := by
      by_contra hn
      exact (h.no_outs (Bool.not_eq_true _ ▸ hn)).2 hb
    obtain ⟨item, hitem⟩ := Option.ne_none_iff_exists'.mp (h.tail_ne hb)
    change (match c.freed.1.gCache.tail with | none => none | some item => _).isSome
    rw [hitem]
    exact hpass _ _ (Or.inl houts)
  · rw [if_neg hb]
    refine hpass _ _ ?_
    cases ho : c.outs with
    | false => exact Or.inr (h.no_outs ho).1
    | true => exact Or.inl rfl

end UpdateCall

/-- Every operation on a store within its limits makes a safe call. -/
theorem Valid.updateCall_safe (hv : fs.Valid) (hf : fs.view.Fits) (h0 : 0 ≤ fs.gCache.slotMax)
    (hd : fs.gCache.slotMax + 1 < depthLimit) {c : UpdateCall} (h : fs.updateCall op = some c) :
    c.Safe := by
  obtain ⟨ps, hs⟩ := hv.wf
  have hsound := hv.sound
  -- the structure that a call finds stands for a store with the limits of the old one
  have hsafe : ∀ (s : Store) (bytes slots : ℤ), c.fs.WF → c.fs.view = s →
      chargedBytes c.newFile c.oldFile = bytes → chargedSlots c.newFile c.oldFile = slots →
      s.slotMax = fs.gCache.slotMax → (s.charge bytes slots).Countable →
      (c.outs = false → s.bytesUsed + bytes ≤ s.bytesMax ∧ s.slotUsed + slots ≤ s.slotMax) →
      c.Safe := by
    rintro s bytes slots hw rfl rfl rfl hmax hc ho
    have hview := view_chargeFiles c.fs c.newFile c.oldFile
    change c.charged.view = _ at hview
    have hmax' : c.charged.view.slotMax = fs.gCache.slotMax := by
      rw [hview]
      exact hmax
    refine UpdateCall.safe_of_countable hw (hview ▸ hc) (hmax' ▸ h0) (hmax' ▸ hd) fun houts => ?_
    rw [hview]
    exact ho houts
  cases op with
  | insert client file lock =>
    unfold updateCall at h
    dsimp only at h
    split at h
    next hk =>
      cases h
      obtain ⟨hw, hview⟩ := hs.insertNew file (if lock then client else emptyOwner) hk
      have hnone : fs.view.find (fs.view.keyOf file.name) = none := by
        rw [hs.find, view_keyOf]
        exact congrArg (Option.map _) hk
      have hc := (hsound.put_new (x := ⟨if lock then client else emptyOwner, file, false, []⟩) hnone
        file.size).2
      exact hsafe _ file.size 1 hw hview (by simp [chargedBytes]) (by simp [chargedSlots]) rfl hc
        (by simp)
    next => cases h
  | remove client file =>
    unfold updateCall at h
    dsimp only at h
    rcases hs.lookup (fs.getKey file) with ⟨hg, hfind⟩ | ⟨p, hg, hk, hfind⟩
    · rw [hg] at h
      cases h
    · rw [hg] at h
      dsimp only at h
      split_ifs at h with ho
      cases h
      obtain ⟨hw, hview, he⟩ := hs.takeOut hk
      have hfile : ((fs.takeOut (fs.getKey file) p).memory p).file = (fs.entryView p).file :=
        congrArg (fun v => StoreEntry.file (v p)) he
      have hc := (hsound.erase_charge hfind (-(fs.entryView p).file.size)).2
      refine hsafe _ _ (-1) hw hview ?_ (by simp [chargedSlots]) rfl hc fun _ => ⟨?_, ?_⟩
      · simp [chargedBytes, hfile]
      · have hb := hf.bytes_le hfind
        change fs.view.bytesUsed + -((fs.entryView p).file.size : ℤ) ≤ fs.view.bytesMax
        omega
      · have hl := hsound.slots_le
        change fs.view.slotUsed + -1 ≤ fs.view.slotMax
        change 0 ≤ fs.view.slotMax at h0
        omega
  | modify client file =>
    unfold updateCall at h
    dsimp only at h
    rcases hs.lookup (fs.getKey file) with ⟨hg, hfind⟩ | ⟨p, hg, hk, hfind⟩
    · rw [hg] at h
      cases h
    · rw [hg] at h
      dsimp only at h
      split_ifs at h with ho hb
      cases h
      obtain ⟨hw, hview⟩ := hs.touch hk
        (f := fun e => { e with file := file, emptyBuffer := false }) rfl rfl rfl
      have hc := (hsound.put_charge (x := (fs.entryView p).rewritten file) hfind rfl
        (file.size - (fs.entryView p).file.size)).2
      exact hsafe _ _ 0 hw hview rfl (by simp [chargedSlots]) rfl hc (by simp)
  | append client file =>
    unfold updateCall at h
    dsimp only at h
    rcases hs.lookup (fs.getKey file) with ⟨hg, hfind⟩ | ⟨p, hg, hk, hfind⟩
    · rw [hg] at h
      cases h
    · rw [hg] at h
      dsimp only at h
      split_ifs at h with ho hb
      cases h
      obtain ⟨hw, hview⟩ := hs.touch hk
        (f := fun e => { e with
          file := Store.appended (fs.memory p).file file
          emptyBuffer := (Store.appended (fs.memory p).file file).content.isEmpty }) rfl rfl
        ((hs.table _ _).mp hk).2
      have hc := (hsound.put_charge
        (x := (fs.entryView p).extended file) hfind
        (Store.key_of_name hfind rfl) (chargedBytes (some file)
          (some { Store.appended (fs.memory p).file file with name := [] }))).2
      exact hsafe _ _ 0 hw hview rfl (by simp [chargedSlots]) rfl hc (by simp)
  | obtain | obtainN | trylock | exist | unlock | clean => cases h

/-- An operation whose call is safe does not crash, unless it reads a number of files or appends
nothing. -/
theorem apply_isSome (hsafe : ∀ c, fs.updateCall op = some c → c.Safe)
    (hn : ∀ client n rand, op ≠ .obtainN client n rand)
    (ha : ∀ client file, op = .append client file → file.content ≠ []) :
    (fs.apply op).isSome := by
  cases hc : fs.updateCall op with
  | some c =>
    have h := apply_of_updateCall hc
    rw [← Option.isSome_map (f := Prod.fst), h, Option.isSome_map]
    exact (hsafe c hc).isSome
  | none =>
    unfold updateCall at hc
    cases op with
    | insert client file lock =>
      dsimp only at hc
      have hget : (fs.createEmptyCacheEntry file
        (if lock then client else emptyOwner)).getValueFromKey (fs.getKey file) =
          fs.getValueFromKey (fs.getKey file) := rfl
      rw [FileSystem.apply, fsInsert]
      dsimp only
      rw [hget]
      cases hk : fs.getValueFromKey (fs.getKey file) with
      | none =>
        rw [hk] at hc
        cases hc
      | some => rfl
    | remove client file =>
      rw [FileSystem.apply, fsRemove]
      dsimp only at hc ⊢
      cases hk : fs.getValueFromKey (fs.getKey file) with
      | none => rfl
      | some p =>
        rw [hk] at hc
        dsimp only at hc ⊢
        split_ifs at hc with ho
        rw [if_pos ho]
        rfl
    | modify client file =>
      rw [FileSystem.apply, fsModify]
      dsimp only at hc ⊢
      cases hk : fs.getValueFromKey (fs.getKey file) with
      | none => rfl
      | some p =>
        rw [hk] at hc
        dsimp only at hc ⊢
        split_ifs at hc ⊢
        all_goals rfl
    | append client file =>
      rw [FileSystem.apply, fsAppend]
      dsimp only at hc ⊢
      cases hk : fs.getValueFromKey (fs.getKey file) with
      | none => rfl
      | some p =>
        rw [hk] at hc
        dsimp only at hc ⊢
        split_ifs at hc ⊢ with ho hb he
        · rfl
        · rfl
        · exact absurd he.2 (ha client file rfl)
    | obtainN client n rand => exact absurd rfl (hn client n rand)
    | obtain | trylock | exist | unlock | clean => rfl

/-- In every reachable state the slot counter counts the entries and is within its limit, the bytes
fit or the cache is empty, and every call of `updateCacheSize` is safe. -/
theorem eviction_safe {configs : FSConfig} (h1 : 1 ≤ configs.maxFileCapacitySlot)
    (h2 : configs.maxFileCapacitySlot ≤ 1000000) {tr : List FsEvent}
    (h : Run Step (initializeFileSystem configs) tr fs) :
    (fs.gCache.slotMax = configs.maxFileCapacitySlot ∧
      fs.gCache.slotUsed = fs.view.entries.length ∧ fs.gCache.slotUsed ≤ fs.gCache.slotMax ∧
      (fs.gCache.bytesUsed ≤ fs.gCache.bytesMax ∨ fs.view.entries = [])) ∧
    ∀ op c, fs.updateCall op = some c → c.Safe := by
  have hd : (1000000 : ℤ) + 1 < depthLimit := by decide
  have hi := h.invariant
    (I := fun fs => fs.Valid ∧ fs.view.slotMax = configs.maxFileCapacitySlot ∧ fs.view.Fits)
    ⟨.start configs, rfl, Or.inr rfl⟩ (by
      rintro fs e fs' ⟨hv, hmax, hf⟩ hs
      have he := hs.effect hv.wf
      exact ⟨hv.step hs, (he.slotMax_eq hv.sound).trans hmax,
        he.fits hv.sound (by omega) (by omega) hf⟩)
  obtain ⟨hv, hmax, hf⟩ := hi
  have hle := hv.sound.slots_le
  change fs.gCache.slotMax = _ at hmax
  change fs.gCache.slotUsed ≤ max fs.gCache.slotMax 0 at hle
  exact ⟨⟨hmax, hv.sound.slots_eq, by omega, hf⟩,
    fun op c hc => hv.updateCall_safe hf (by omega) (by omega) hc⟩

/-- With one slot the second file ejects the first. -/
theorem eviction_safe_eject :
    ∃ c, ((initializeFileSystem oneSlot).after createA).updateCall createB = some c ∧ c.Safe ∧
      c.SlotBranch ∧ (((initializeFileSystem oneSlot).after createA).outcome createB).outFiles =
        [⟨[97], []⟩] := by
  have h : Run Step (initializeFileSystem oneSlot) _ _ :=
    Run.start.next (step_after _ createA (by decide +kernel))
  have hs : ((((initializeFileSystem oneSlot).after createA).updateCall createB).any
      fun c => decide c.SlotBranch) = true := by decide +kernel
  obtain ⟨c, hc, hb⟩ := (Option.any_eq_true _ _).mp hs
  exact ⟨c, hc, (eviction_safe (by decide) (by decide) h).2 _ c hc, of_decide_eq_true hb,
    by decide +kernel⟩

end FileSystem
end StorageServer.Server
