import StorageServer.Server.Ejection
import StorageServer.Library.Runs

/-! The pointer structure refines the store: every operation keeps the shape and does to the
store that the structure stands for what the store's own operation does. -/
namespace StorageServer.Server
open Common Library.DoublyLinked Library.Runs

namespace FileSystem
variable {fs fs' : FileSystem} {ps : List Ptr} {p : Ptr} {k : ℕ}

/-- Looking a key up in the table finds the entry of the store, or nothing in both. -/
theorem Shape.lookup (h : Shape fs ps) (k : ℕ) :
    (fs.getValueFromKey k = none ∧ fs.view.find k = none) ∨
      ∃ p, fs.getValueFromKey k = some p ∧ fs.gHashmap k = some p ∧
        fs.view.find k = some (fs.entryView p) := by
  have hf := h.find k
  cases hk : fs.gHashmap k with
  | none => exact Or.inl ⟨hk, by rw [hf, hk]; rfl⟩
  | some p => exact Or.inr ⟨p, hk, rfl, by rw [hf, hk]; rfl⟩

/-- An operation that leaves the structure as it is. -/
theorem Shape.refines_same (h : Shape fs ps) (out : FSOutcome) :
    Refines (some (fs.increaseQueryCount, out)) (some (fs.view, out)) :=
  Refines.some (wf_increaseQueryCount h.wf) rfl

/-- An operation that ends by resizing a touched structure. -/
theorem refines_resize {fs₁ : FileSystem} {s₁ : Store} (hw : fs₁.WF) (hv : fs₁.view = s₁)
    (newFile oldFile : Option FSFile) (bytes slots : ℤ)
    (hb : chargedBytes newFile oldFile = bytes) (hs : chargedSlots newFile oldFile = slots) :
    Refines (do
        let (fs, outFiles, issued) ← fs₁.updateCacheSize newFile oldFile true
        return (fs.increaseQueryCount, { res := 0, outFiles := outFiles, issued := issued }))
      (((s₁.charge bytes slots).reclaim true).map (fun r => (r.1, Store.ejected r.2))) := by
  subst hv hb hs
  have h := (updateCacheSize_refines hw newFile oldFile true).map
    (f := fun r => (r.1.increaseQueryCount,
      ({ res := 0, outFiles := r.2.1, issued := r.2.2 } : FSOutcome)))
    (g := fun r => (r.1, ({ res := 0, outFiles := r.2.1, issued := r.2.2 } : FSOutcome)))
    (fun x hx => ⟨wf_increaseQueryCount hx, rfl⟩)
  rw [Option.map_map, Option.map_eq_bind] at h
  exact h

theorem fsInsert_refines (h : fs.WF) (client : ℤ) (file : FSFile) (lock : Bool) :
    Refines (fs.fsInsert client file lock) (fs.view.insert client file lock) := by
  obtain ⟨ps, h⟩ := h
  unfold fsInsert Store.insert
  rw [view_keyOf]
  set owner := if lock then client else emptyOwner with howner
  -- the new entry is allocated before the table is consulted
  have hget : (fs.createEmptyCacheEntry file owner).getValueFromKey (fs.getKey file) =
      fs.getValueFromKey (fs.getKey file) := rfl
  dsimp only
  rw [hget]
  rcases h.lookup (fs.getKey file) with ⟨hg, hf⟩ | ⟨p, hg, hk, hf⟩
  · rw [hg, hf]
    obtain ⟨hw, hv⟩ := h.insertNew file owner hg
    exact refines_resize hw hv (some file) none file.size 1 (by simp [chargedBytes])
      (by simp [chargedSlots])
  · rw [hg, hf]
    have hnew : fs.nextPtr ∉ ps := fun hm => lt_irrefl _ (h.alloc _ hm)
    have hmem : ∀ q ∈ ps, (fs.createEmptyCacheEntry file owner).memory q = fs.memory q :=
      fun q hq => Function.update_of_ne (by rintro rfl; exact hnew hq) _ _
    have hs : Shape (fs.createEmptyCacheEntry file owner) ps := by
      refine ⟨⟨h.nodup, h.linked.congr ?_ ?_, h.head,
        fun q hq => Nat.lt_succ_of_lt (h.alloc q hq)⟩, h.tail, fun k q => ?_⟩
      · exact fun q hq => congrArg FSCacheEntry.nex (hmem q hq)
      · exact fun q hq => congrArg FSCacheEntry.pre (hmem q hq)
      · refine (h.table k q).trans (and_congr_right fun hq => ?_)
        rw [hmem q hq]
        rfl
    refine Refines.some (wf_increaseQueryCount hs.wf) ?_
    rw [view_increaseQueryCount, hs.view_eq, h.view_eq]
    have hmap : ps.map (fs.createEmptyCacheEntry file owner).entryView = ps.map fs.entryView :=
      List.map_congr_left fun q hq => congrArg FSCacheEntry.view (hmem q hq)
    rw [hmap]
    rfl

theorem fsModify_refines (h : fs.WF) (client : ℤ) (file : FSFile) :
    Refines (fs.fsModify client file) (fs.view.modify client file) := by
  obtain ⟨ps, h⟩ := h
  unfold fsModify Store.modify
  rw [view_keyOf]
  rcases h.lookup (fs.getKey file) with ⟨hg, hf⟩ | ⟨p, hg, hk, hf⟩
  · rw [hg, hf]
    exact h.refines_same _
  · rw [hg, hf]
    dsimp only
    have ho : (fs.entryView p).owner = (fs.memory p).owner := rfl
    have hm : fs.view.bytesMax = fs.gCache.bytesMax := rfl
    rw [ho, hm]
    split_ifs
    · exact h.refines_same _
    · exact h.refines_same _
    · obtain ⟨hw, hv⟩ := h.touch hk
        (f := fun e => { e with file := file, emptyBuffer := false }) rfl rfl rfl
      exact refines_resize hw hv (some file) (some (fs.memory p).file) _ 0 rfl
        (by simp [chargedSlots])

theorem fsAppend_refines (h : fs.WF) (client : ℤ) (file : FSFile) :
    Refines (fs.fsAppend client file) (fs.view.append client file) := by
  obtain ⟨ps, h⟩ := h
  unfold fsAppend Store.append
  rw [view_keyOf]
  rcases h.lookup (fs.getKey file) with ⟨hg, hf⟩ | ⟨p, hg, hk, hf⟩
  · rw [hg, hf]
    exact h.refines_same _
  · rw [hg, hf]
    dsimp only
    have ho : (fs.entryView p).owner = (fs.memory p).owner := rfl
    have hfile : (fs.entryView p).file = (fs.memory p).file := rfl
    have hm : fs.view.bytesMax = fs.gCache.bytesMax := rfl
    have hb : (fs.entryView p).emptyBuffer = (fs.memory p).emptyBuffer := rfl
    rw [ho, hfile, hm, hb]
    split_ifs
    · exact h.refines_same _
    · exact h.refines_same _
    · exact ⟨rfl, by simp⟩
    · obtain ⟨hw, hv⟩ := h.touch hk
        (f := fun e => { e with
          file := Store.appended (fs.memory p).file file
          emptyBuffer := (Store.appended (fs.memory p).file file).content.isEmpty }) rfl rfl
        ((h.table _ _).mp hk).2
      refine refines_resize hw hv (some file)
        (some { Store.appended (fs.memory p).file file with name := [] }) _ 0 ?_
        (by simp [chargedSlots])
      simp [chargedBytes, FSFile.size, FSFile.nameLen, FSFile.contentLen]

theorem fsObtain_refines (h : fs.WF) (client : ℤ) (file : FSFile) :
    Refines (some (fs.fsObtain client file)) (some (fs.view.obtain file)) := by
  obtain ⟨ps, h⟩ := h
  unfold fsObtain Store.obtain
  rw [view_keyOf]
  rcases h.lookup (fs.getKey file) with ⟨hg, hf⟩ | ⟨p, hg, hk, hf⟩
  · rw [hg, hf]
    exact h.refines_same _
  · rw [hg, hf]
    obtain ⟨hw, hv⟩ := h.touch_same hk
    exact Refines.some (wf_increaseQueryCount hw) hv

theorem fsExists_refines (h : fs.WF) (client : ℤ) (file : FSFile) :
    Refines (some (fs.fsExists client file)) (some (fs.view.exist file)) := by
  obtain ⟨ps, h⟩ := h
  unfold fsExists Store.exist
  rw [view_keyOf]
  rcases h.lookup (fs.getKey file) with ⟨hg, hf⟩ | ⟨p, hg, hk, hf⟩
  · rw [hg, hf]
    exact h.refines_same _
  · rw [hg, hf]
    obtain ⟨hw, hv⟩ := h.touch_same hk
    exact Refines.some (wf_increaseQueryCount hw) hv

theorem fsTrylock_refines (h : fs.WF) (client : ℤ) (file : FSFile) :
    Refines (some (fs.fsTrylock client file)) (some (fs.view.trylock client file)) := by
  obtain ⟨ps, h⟩ := h
  unfold fsTrylock Store.trylock
  rw [view_keyOf]
  rcases h.lookup (fs.getKey file) with ⟨hg, hf⟩ | ⟨p, hg, hk, hf⟩
  · rw [hg, hf]
    exact h.refines_same _
  · rw [hg, hf]
    dsimp only
    have ho : (fs.entryView p).owner = (fs.memory p).owner := rfl
    have hq : (fs.entryView p).waiting = (fs.memory p).waitingLockQueue.toList := rfl
    have hkey := ((h.table _ _).mp hk).2
    rw [ho, hq]
    split_ifs with hown hroom
    · cases hp : (fs.memory p).waitingLockQueue.tryPush client with
      | none => exact absurd hroom (not_lt.mpr (CircQueue.tryPush_eq_none.mp hp))
      | some queue =>
        obtain ⟨hw, hv⟩ := h.replace hk (f := fun e => { e with waitingLockQueue := queue })
          rfl rfl hkey
        refine Refines.some (wf_increaseQueryCount hw) ?_
        rw [view_increaseQueryCount, hv]
        have : (FSCacheEntry.view { fs.memory p with waitingLockQueue := queue }) =
            { fs.entryView p with
              waiting := (fs.memory p).waitingLockQueue.toList ++ [client] } := by
          rw [FSCacheEntry.view, CircQueue.tryPush_toList hp]
          rfl
        rw [this]
        rfl
    · cases hp : (fs.memory p).waitingLockQueue.tryPush client with
      | none => exact h.refines_same _
      | some queue =>
        rw [CircQueue.tryPush_eq_none.mpr (not_lt.mp hroom)] at hp
        contradiction
    · obtain ⟨hw, hv⟩ := h.touch hk (f := fun e => { e with owner := client }) rfl rfl hkey
      exact Refines.some (wf_increaseQueryCount hw) hv

theorem innerUnlock_refines (h : fs.WF) (client : ℤ) (k : ℕ) :
    Refines (some (fs.innerUnlock client k)) (some (fs.view.innerUnlock client k)) := by
  obtain ⟨ps, h⟩ := h
  unfold innerUnlock Store.innerUnlock
  rcases h.lookup k with ⟨hg, hf⟩ | ⟨p, hg, hk, hf⟩
  · rw [hg, hf]
    exact Refines.some h.wf rfl
  · rw [hg, hf]
    dsimp only
    have ho : (fs.entryView p).owner = (fs.memory p).owner := rfl
    have hq : (fs.entryView p).waiting = (fs.memory p).waitingLockQueue.toList := rfl
    have hkey := ((h.table _ _).mp hk).2
    rw [ho]
    split_ifs with hown
    · exact Refines.some h.wf rfl
    · cases hp : (fs.memory p).waitingLockQueue.tryPop with
      | none =>
        have hnil := CircQueue.tryPop_eq_none.mp hp
        rw [← hq] at hnil
        have hout : Store.granted (fs.entryView p) = [] := by simp [Store.granted, hnil]
        have hhand : Store.handOff (fs.entryView p) =
            FSCacheEntry.view { fs.memory p with owner := emptyOwner } := by
          simp only [Store.handOff, hnil]
          rw [FSCacheEntry.view, ← hq, hnil]
          rfl
        obtain ⟨hw, hv⟩ := h.touch hk (f := fun e => { e with owner := emptyOwner }) rfl rfl hkey
        rw [hout, hhand]
        exact Refines.some hw hv
      | some r =>
        obtain ⟨item, queue⟩ := r
        have hcons := CircQueue.tryPop_toList hp
        rw [← hq] at hcons
        have hout : Store.granted (fs.entryView p) = [⟨item, 0⟩] := by
          simp [Store.granted, hcons]
        have hhand : Store.handOff (fs.entryView p) =
            FSCacheEntry.view
              { fs.memory p with owner := item, waitingLockQueue := queue } := by
          simp only [Store.handOff, hcons]
          rfl
        obtain ⟨hw, hv⟩ := h.touch hk
          (f := fun e => { e with owner := item, waitingLockQueue := queue }) rfl rfl hkey
        rw [hout, hhand]
        exact Refines.some hw hv

theorem cleanFiles_refines (h : fs.WF) (client : ℤ) (filenames : List HashValue) :
    Refines (some (cleanFiles client filenames fs))
      (some (Store.cleanFiles client filenames fs.view)) := by
  induction filenames generalizing fs with
  | nil => exact Refines.some h rfl
  | cons filename filenames ih =>
    have hu := innerUnlock_refines h client (tableKey fs.gConfigs.tableSize filename)
    have hv := Option.some.inj hu.view_eq
    have hr := ih (hu.wf _ rfl)
    have hv' := Option.some.inj hr.view_eq
    have h1 := congrArg Prod.fst hv
    have h2 := congrArg Prod.snd hv
    simp only [Prod.map_fst, Prod.map_snd, id_eq] at h1 h2
    rw [h1] at hv'
    have hwf := hr.wf _ rfl
    refine ⟨congrArg some ?_, fun x hx => ?_⟩
    swap
    · rw [← Option.some.inj hx]
      exact hwf
    have h3 := congrArg Prod.fst hv'
    have h4 := congrArg Prod.snd hv'
    simp only [Prod.map_fst, Prod.map_snd, id_eq] at h3 h4
    refine Prod.ext h3 ?_
    change (fs.innerUnlock client _).2.issued ++ _ = (fs.view.innerUnlock client _).2.issued ++ _
    rw [h2, h4]
    rfl

theorem fsRemove_refines (h : fs.WF) (client : ℤ) (file : FSFile) :
    Refines (fs.fsRemove client file) (fs.view.remove client file) := by
  obtain ⟨ps, h⟩ := h
  unfold fsRemove Store.remove
  rw [view_keyOf]
  dsimp only
  rcases h.lookup (fs.getKey file) with ⟨hg, hf⟩ | ⟨p, hg, hk, hf⟩
  · rw [hg, hf]
    exact h.refines_same _
  · rw [hg, hf]
    dsimp only
    have ho : (fs.entryView p).owner = (fs.memory p).owner := rfl
    rw [ho]
    by_cases hown : (fs.memory p).owner ≠ client
    · rw [if_pos hown, if_pos hown]
      exact h.refines_same _
    rw [if_neg hown, if_neg hown]
    obtain ⟨hw, hv, he⟩ := h.takeOut hk
    have hu := (updateCacheSize_refines hw none (some (fs.memory p).file) false).map
      (f := fun r => (r.1.increaseQueryCount,
        ({ res := 0, issued := (fs.entryView p).farewell } : FSOutcome)))
      (g := fun r => (r.1, ({ res := 0, issued := (fs.entryView p).farewell } : FSOutcome)))
      (fun x hx => ⟨wf_increaseQueryCount hx, rfl⟩)
    have hb : chargedBytes none (some (fs.memory p).file) = -(fs.entryView p).file.size := by
      simp [chargedBytes, entryView, FSCacheEntry.view]
    have hs : chargedSlots none (some (fs.memory p).file) = -1 := by simp [chargedSlots]
    rw [hv, hb, hs, Option.map_map, Option.map_eq_bind] at hu
    have hfile : (((fs.takeOut (fs.getKey file) p).memory p).file) = (fs.memory p).file :=
      congrArg (fun v => (v p).file) he
    rw [notifyWaiting_eq, he, hfile]
    exact hu

/-- A walk along `pre` from the head lists the newest entries first. -/
theorem Shape.walk_pre (h : Shape fs ps) (n : ℕ) :
    walk fs.preOf n fs.gCache.head = ps.reverse.take n := by
  rw [h.head, walk_of_visits h.linked.visits_pre]

theorem fsObtainN_refines (h : fs.WF) (client n : ℤ) (rand : ℕ → ℕ) :
    Refines (fs.fsObtainN client n rand) (fs.view.obtainN n rand) := by
  obtain ⟨ps, h⟩ := h
  have hnew : ∀ m : ℕ, (walk fs.preOf m fs.gCache.head).map (fun p => (fs.memory p).file) =
      (fs.view.entries.reverse.take m).map StoreEntry.file := by
    intro m
    rw [h.walk_pre, h.entries, ← List.map_reverse, ← List.map_take, List.map_map]
    rfl
  have hold : (walk fs.nexOf fs.nextPtr fs.gCache.tail).map (fun p => (fs.memory p).file) =
      fs.view.entries.map StoreEntry.file := by
    rw [h.walk_nex, h.entries, List.map_map]
    rfl
  unfold fsObtainN Store.obtainN
  have hs : fs.view.slotUsed = fs.gCache.slotUsed := rfl
  rw [hs]
  dsimp only
  generalize (if n ≠ 0 then min (min n fs.gCache.slotUsed) (maxEjectedFilesAtSameTime : ℤ)
    else n) = m
  change (∀ m, (walk (fun p => (fs.memory p).pre) m fs.gCache.head).map _ = _) at hnew
  change (walk (fun p => (fs.memory p).nex) fs.nextPtr fs.gCache.tail).map _ = _ at hold
  rw [hnew, hold]
  split_ifs
  · exact ⟨rfl, by simp⟩
  · exact h.refines_same _
  · exact ⟨rfl, by simp⟩
  · exact h.refines_same _

theorem fsUnlock_refines (h : fs.WF) (client : ℤ) (file : FSFile) :
    Refines (some (fs.fsUnlock client file))
      (some (fs.view.innerUnlock client (fs.view.keyOf file.name))) :=
  (innerUnlock_refines h client (fs.getKey file)).map
    (f := fun r => (r.1.increaseQueryCount, r.2)) (g := id)
    (fun _ hx => ⟨wf_increaseQueryCount hx, rfl⟩)

theorem fsClean_refines (h : fs.WF) (client : ℤ) (filenames : List HashValue) :
    Refines (some (fs.fsClean client filenames)) (some (fs.view.clean client filenames)) :=
  (cleanFiles_refines h client filenames).map
    (f := fun r => (r.1.increaseQueryCount, ({ res := 0, issued := r.2 } : FSOutcome)))
    (g := fun r => (r.1, ({ res := 0, issued := r.2 } : FSOutcome)))
    (fun _ hx => ⟨wf_increaseQueryCount hx, rfl⟩)

/-- The structure simulates the store in one operation. -/
theorem apply_refines (h : fs.WF) (op : FsOperation) :
    Refines (fs.apply op) (fs.view.apply op) := by
  cases op with
  | insert client file lock => exact fsInsert_refines h client file lock
  | remove client file => exact fsRemove_refines h client file
  | obtain client file => exact fsObtain_refines h client file
  | obtainN client n rand => exact fsObtainN_refines h client n rand
  | modify client file => exact fsModify_refines h client file
  | append client file => exact fsAppend_refines h client file
  | trylock client file => exact fsTrylock_refines h client file
  | exist client file => exact fsExists_refines h client file
  | unlock client file => exact fsUnlock_refines h client file
  | clean client filenames => exact fsClean_refines h client filenames

theorem WF.initializeFileSystem (configs : FSConfig) :
    (FileSystem.initializeFileSystem configs).WF :=
  ⟨[], ⟨List.nodup_nil, trivial, rfl, by simp⟩, rfl,
    fun k p => by simp [FileSystem.initializeFileSystem]⟩

/-- What a successful operation does to the structure and to the store that it stands for. -/
theorem WF.apply (h : fs.WF) {op : FsOperation} {out : FSOutcome}
    (ho : fs.apply op = some (fs', out)) : fs'.WF ∧ fs.view.apply op = some (fs'.view, out) := by
  have hr := apply_refines h op
  rw [ho] at hr
  exact ⟨hr.wf _ rfl, hr.view_eq.symm⟩

end FileSystem

/-! ### Runs -/

/-- An operation and what it handed back. -/
abbrev FsEvent := FsOperation × FSOutcome

def FileSystem.Step (fs : FileSystem) (e : FsEvent) (fs' : FileSystem) : Prop :=
  fs.apply e.1 = some (fs', e.2)

def Store.Step (s : Store) (e : FsEvent) (s' : Store) : Prop := s.apply e.1 = some (s', e.2)

/-- The state and the outcome of an operation that does not crash. -/
def FileSystem.after (fs : FileSystem) (op : FsOperation) : FileSystem :=
  (fs.apply op).elim fs Prod.fst

def FileSystem.outcome (fs : FileSystem) (op : FsOperation) : FSOutcome :=
  (fs.apply op).elim ⟨0, [], []⟩ Prod.snd

theorem FileSystem.step_after (fs : FileSystem) (op : FsOperation) (h : (fs.apply op).isSome) :
    FileSystem.Step fs (op, fs.outcome op) (fs.after op) := by
  obtain ⟨r, hr⟩ := Option.isSome_iff_exists.mp h
  simp [FileSystem.Step, FileSystem.outcome, FileSystem.after, hr]

/-- A small configuration: the smallest table, 32 slots and 16 MB. -/
def FileSystem.defaultConfigs : FSConfig := ⟨1024*1024, 32, 16⟩

/-- Client 4 creates the file `a` and holds its lock. -/
def FileSystem.createA : FsOperation := .insert 4 ⟨[97], []⟩ true

/-- One slot, so that the second file drives out the first. -/
def FileSystem.oneSlot : FSConfig := ⟨1024*1024, 1, 16⟩

/-- Client 5 creates the file `b`. -/
def FileSystem.createB : FsOperation := .insert 5 ⟨[98], []⟩ false

/-- The store with the files `a` and `b`. -/
def FileSystem.filesAB : FileSystem :=
  ((initializeFileSystem defaultConfigs).after createA).after createB

theorem FileSystem.run_filesAB : Run FileSystem.Step (initializeFileSystem defaultConfigs)
    [(createA, { res := 0 }), (createB, { res := 0 })] filesAB := by
  have ha := step_after (initializeFileSystem defaultConfigs) createA (by decide +kernel)
  have hb := step_after ((initializeFileSystem defaultConfigs).after createA) createB
    (by decide +kernel)
  have hoa : (initializeFileSystem defaultConfigs).outcome createA = { res := 0 } := by
    decide +kernel
  have hob : ((initializeFileSystem defaultConfigs).after createA).outcome createB =
      { res := 0 } := by decide +kernel
  rw [hoa] at ha
  rw [hob] at hb
  exact (Run.start.next ha).next hb

/-- A run of the structure is a run of the store that it stands for. -/
theorem FileSystem.run_view {fs fs' : FileSystem} {tr : List FsEvent} (hw : fs.WF)
    (h : Run FileSystem.Step fs tr fs') : fs'.WF ∧ Run Store.Step fs.view tr fs'.view := by
  have hsim : ∃ s, Run Store.Step fs.view tr s ∧ fs'.WF ∧ s = fs'.view :=
    h.simulate (R := fun fs s => fs.WF ∧ s = fs.view) ⟨hw, rfl⟩ (by
      rintro fs e fs' _ ⟨hw, rfl⟩ hs
      obtain ⟨hw', hv⟩ := hw.apply hs
      exact ⟨_, hv, hw', rfl⟩)
  obtain ⟨_, hr, hw', rfl⟩ := hsim
  exact ⟨hw', hr⟩

end StorageServer.Server
