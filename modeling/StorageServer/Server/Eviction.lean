import StorageServer.Server.Capacity
import StorageServer.Server.Recency

/-! What a store costs the other files. The operations that store a file touch its entry and then
eject the oldest entries, as few as bring the counters back within the limits. -/
namespace StorageServer.Server
open Common Library.KeyedList Library.Recency Library.Runs

/-- The operations that store a file. -/
def FsOperation.stores : FsOperation → Bool
  | insert .. | modify .. | append .. => true
  | _ => false

namespace Store
variable {s s' : Store} {k : ℕ} {e x : StoreEntry} {gone kept : List StoreEntry}
  {op : FsOperation} {out : FSOutcome} {bytes slots : ℤ}

/-- What a store makes of the entry it is applied to, and the bytes and slots that it charges. -/
inductive Touches (s : Store) : FsOperation → StoreEntry → ℤ → ℤ → Prop
  | inserted {client file lock} (he : s.find (s.keyOf file.name) = none) :
    Touches s (.insert client file lock) ⟨if lock then client else emptyOwner, file, false, []⟩
      file.size 1
  | modified {client file e} (he : s.find (s.keyOf file.name) = some e) (ho : e.owner = client)
      (hb : file.size ≤ toSize s.bytesMax) :
    Touches s (.modify client file) (e.rewritten file) (file.size - e.file.size) 0
  | appended {client file e} (he : s.find (s.keyOf file.name) = some e)
      (ho : e.owner = client ∨ e.owner = emptyOwner)
      (hb : file.size + e.file.contentLen ≤ toSize s.bytesMax) :
    Touches s (.append client file) (e.extended file)
      (file.size - (Store.appended e.file file).contentLen) 0

/-- The store once the entry has been touched and charged, before anything is ejected. -/
def stored (s : Store) (x : StoreEntry) (bytes slots : ℤ) : Store := (s.put x).charge bytes slots

theorem Touches.countable (h : s.Touches op x bytes slots) (hs : s.Sound) :
    Distinct s.key (s.stored x bytes slots).entries ∧ (s.stored x bytes slots).Countable := by
  cases h with
  | @inserted client file lock he =>
    exact hs.put_new (x := ⟨if lock then client else emptyOwner, file, false, []⟩) he _
  | @modified client file e he => exact hs.put_charge (x := e.rewritten file) he rfl _
  | @appended client file e he =>
    exact hs.put_charge (x := e.extended file) he
      (key_of_name he rfl) _

/-- A successful store touches an entry and reclaims the room that it takes. -/
theorem Effect.stored (h : s.Effect op out s') (hop : op.stores) (h0 : out.res = 0) :
    ∃ x bytes slots gone, s.Touches op x bytes slots ∧
      (s.stored x bytes slots).reclaim true = some (s',gone) ∧ out = ejected gone := by
  cases h with
  | present => exact absurd h0 (by simp)
  | missing => exact absurd h0 (by simp)
  | refused _ _ hr => exact absurd h0 hr.ne_zero
  | listed | obtained | existing | locked | queued | unlocked | removed | cleaned => cases hop
  | inserted he hr => exact ⟨_, _, _, _, .inserted he, hr, rfl⟩
  | modified he ho hb hr => exact ⟨_, _, _, _, .modified he ho hb, hr, rfl⟩
  | appended he ho hb hr => exact ⟨_, _, _, _, .appended he ho hb, hr, rfl⟩

theorem Effect.insert_res {client : ℤ} {file : FSFile} {lock : Bool}
    (h : s.Effect (.insert client file lock) out s') (he : s.find (s.keyOf file.name) = none) :
    out.res = 0 := by
  cases h with
  | present he' => cases he.symm.trans he'
  | missing hf hi =>
    cases hf
    exact absurd rfl (hi _ _)
  | refused _ _ hr => exact hr.elim
  | inserted => rfl

/-- A store is applied to one entry and charges it in one way. -/
theorem Touches.unique {x' : StoreEntry} {bytes' slots' : ℤ} (h : s.Touches op x bytes slots)
    (h' : s.Touches op x' bytes' slots') : x' = x ∧ bytes' = bytes ∧ slots' = slots := by
  cases h with
  | inserted => cases h'; exact ⟨rfl, rfl, rfl⟩
  | modified he =>
    cases h' with
    | modified he' =>
      cases he.symm.trans he'
      exact ⟨rfl, rfl, rfl⟩
  | appended he =>
    cases h' with
    | appended he' =>
      cases he.symm.trans he'
      exact ⟨rfl, rfl, rfl⟩

/-! ### What is ejected -/

/-- The loop stops as soon as the bytes fit. -/
theorem ejectOver_shortest (bytesMax : ℤ) (depth : ℕ) (used : ℤ) (es : List StoreEntry)
    {front : List StoreEntry} (hp : front <+: (ejectOver bytesMax depth used es).1)
    (hne : front ≠ (ejectOver bytesMax depth used es).1) :
    bytesMax < used - totalSize front := by
  induction depth generalizing used es front with
  | zero => exact absurd (List.prefix_nil.mp hp) hne
  | succ depth ih =>
    cases es with
    | nil => exact absurd (List.prefix_nil.mp hp) hne
    | cons e es =>
      by_cases hb : used > bytesMax
      · simp only [ejectOver, hb, if_true] at hp hne
        cases front with
        | nil => simpa using hb
        | cons y front =>
          obtain ⟨rfl, hp⟩ := List.cons_prefix_cons.mp hp
          have hrest := ih (used - y.file.size) es hp fun heq => hne (heq ▸ rfl)
          rw [totalSize_cons]
          omega
      · rw [ejectOver_of_le (not_lt.mp hb)] at hp hne
        exact absurd (List.prefix_nil.mp hp) hne

theorem length_ejectOver_le (bytesMax : ℤ) (depth : ℕ) (used : ℤ) (es : List StoreEntry) :
    (ejectOver bytesMax depth used es).1.length ≤ depth := by
  induction depth generalizing used es with
  | zero => exact Nat.le_refl 0
  | succ depth ih =>
    cases es with
    | nil => exact Nat.zero_le _
    | cons e es =>
      unfold ejectOver
      split_ifs
      · exact Nat.succ_le_succ (ih _ es)
      · exact Nat.zero_le _

/-- The entries that leave a store beyond its limits, the oldest first, and those that stay: as
many as it takes for the bytes to fit but no more than `depthLimit`, or one if only the slots are
exceeded. -/
inductive Evicts (s : Store) : List StoreEntry → List StoreEntry → Prop
  | none (hb : s.bytesUsed ≤ s.bytesMax) (hn : s.slotUsed ≤ s.slotMax) : Evicts s [] s.entries
  | bytes {gone kept : List StoreEntry} (hb : s.bytesMax < s.bytesUsed)
      (he : s.entries = gone ++ kept) (hdepth : gone.length ≤ depthLimit)
      (hfit : s.bytesUsed - totalSize gone ≤ s.bytesMax ∨ kept = [] ∨ gone.length = depthLimit)
      (hshort : ∀ front, front <+: gone → front ≠ gone →
        s.bytesMax < s.bytesUsed - totalSize front) : Evicts s gone kept
  | slot {e : StoreEntry} {kept : List StoreEntry} (hb : s.bytesUsed ≤ s.bytesMax)
      (hn : s.slotMax < s.slotUsed) (he : s.entries = e :: kept) : Evicts s [e] kept

theorem Evicts.split (h : s.Evicts gone kept) : s.entries = gone ++ kept := by
  cases h with
  | none => rfl
  | bytes _ he => exact he
  | slot _ _ he => exact he

/-- Reclaiming room evicts. -/
theorem Countable.evicts (h : s.Countable) (hr : s.reclaim true = some (s',gone)) :
    s.Evicts gone s'.entries := by
  obtain ⟨kept, he, hslots, rfl⟩ | ⟨e, kept, he, hfit, hover, rfl, rfl⟩ := h.reclaim_cases hr
  · change s.Evicts gone kept
    have hspec := ejectOver_spec s.bytesMax depthLimit s.bytesUsed s.entries
    have hdepth := length_ejectOver_le s.bytesMax depthLimit s.bytesUsed s.entries
    have hshort := fun front =>
      @ejectOver_shortest s.bytesMax depthLimit s.bytesUsed s.entries front
    rw [he] at hspec hdepth hshort
    obtain ⟨hsplit, hbytes⟩ := hspec
    by_cases hb : s.bytesUsed ≤ s.bytesMax
    · rw [ejectOver_of_le hb] at he
      cases he
      exact .none hb (h.slots_eq.le.trans hslots)
    · refine .bytes (not_le.mp hb) hsplit.symm hdepth (hbytes.imp_right fun hd => ?_) hshort
      -- the loop has stopped at its limit, before the end of the list or behind it
      change gone.length ≤ depthLimit at hdepth
      have hlen := congrArg List.length hsplit
      have hrest := congrArg List.length hd
      rw [List.length_append] at hlen
      rw [List.length_drop] at hrest
      rw [← List.length_eq_zero_iff]
      dsimp only at hlen hrest ⊢
      omega
  · exact .slot hfit hover he

/-- The entry that was touched last stays if there is a slot for it and what the counter reckons
for it alone fits, or the loop stops before it. -/
theorem Evicts.getLast_iff (h : s.Evicts gone kept) {others : List StoreEntry}
    (he : s.entries = others ++ [x]) (hc : s.Countable) :
    kept.getLast? = some x ↔ 1 ≤ s.slotMax ∧
      (s.bytesUsed - totalSize others ≤ s.bytesMax ∨ depthLimit ≤ others.length) := by
  have hsplit := h.split
  have hlen := congrArg List.length hsplit
  rw [List.length_append] at hlen
  have hcount : s.entries.length = others.length + 1 := by
    rw [he, List.length_append, List.length_singleton]
  have hused := hc.slots_eq
  have hle := hc.slots_le
  rw [he] at hsplit
  have hlast : kept ≠ [] → ∃ ys, others = gone ++ ys ∧ kept.getLast? = some x := by
    intro hne
    obtain ⟨ys, y, rfl⟩ := (List.eq_nil_or_concat kept).resolve_left hne
    rw [List.concat_eq_append, ← List.append_assoc] at hsplit
    obtain ⟨hothers, hx⟩ := List.append_inj' hsplit rfl
    exact ⟨ys, hothers, by rw [List.concat_eq_append, List.getLast?_concat, (List.cons.inj hx).1]⟩
  cases h with
  | none hb hn =>
    refine iff_of_true ?_ ⟨by omega, Or.inl (by omega)⟩
    rw [he, List.getLast?_concat]
  | bytes hb _ hdepth hfit hshort =>
    by_cases hk : kept = []
    · rw [hk, List.append_nil] at hsplit
      have hover := hshort others (hsplit ▸ List.prefix_append _ _) (by
        rw [← hsplit]
        exact fun heq => List.cons_ne_nil x [] (List.self_eq_append_right.mp heq))
      rw [← hsplit, List.length_append, List.length_singleton] at hdepth
      refine iff_of_false (by rw [hk]; simp) fun ⟨_, hroom⟩ => ?_
      omega
    · obtain ⟨ys, hothers, hx⟩ := hlast hk
      have hgone : gone ≠ [] := by
        rintro rfl
        have hpos : 0 < depthLimit := by decide
        rcases hfit with hfit | hfit | hfit
        · simp only [totalSize_nil, Nat.cast_zero, sub_zero] at hfit
          exact absurd hb (not_lt.mpr hfit)
        · exact hk hfit
        · exact absurd hfit hpos.ne
      have hpos := List.length_pos_of_ne_nil hgone
      have hpos' := List.length_pos_of_ne_nil hk
      refine iff_of_true hx ⟨by omega, hfit.imp (fun hfit => ?_) fun hfit => ?_⟩
      · rw [hothers, totalSize_append]
        omega
      · rw [hothers, List.length_append, hfit.resolve_left hk]
        exact Nat.le_add_right _ _
  | @slot e _ hb hover hk =>
    rw [List.length_singleton] at hlen
    have hfit : s.bytesUsed - totalSize others ≤ s.bytesMax := by omega
    by_cases hnil : kept = []
    · rw [hnil, List.length_nil] at hlen
      exact iff_of_false (by rw [hnil]; simp) fun ⟨h1, _⟩ => by omega
    · have hpos := List.length_pos_of_ne_nil hnil
      obtain ⟨ys, -, hx⟩ := hlast hnil
      exact iff_of_true hx ⟨by omega, Or.inl hfit⟩

/-- With a negative capacity nothing stays. -/
structure Shut (s : Store) : Prop where
  entries_eq : s.entries = []
  bytes_eq : s.bytesUsed = 0

theorem Shut.find_ne (h : s.Shut) : s.find k ≠ some e := by
  intro he
  have hmem := mem_of_find he
  rw [h.entries_eq] at hmem
  exact List.not_mem_nil hmem

theorem Effect.shut (he : s.Effect op out s') (hs : s.Sound) (hneg : s.bytesMax < 0)
    (h : s.Shut) : s'.Shut := by
  cases he with
  | present | missing | refused | listed => exact h
  | obtained he | existing he | locked he | queued he | unlocked he | removed he | modified he
  | appended he => exact absurd he h.find_ne
  | cleaned =>
    exact cleanFiles_rule (fun s _ => s.Shut) _ (fun hs he _ => absurd he hs.find_ne) [] h _
  | @inserted client file lock gone s' he hr =>
    set x : StoreEntry := ⟨if lock then client else emptyOwner, file, false, []⟩
    have hc := (hs.put_new (x := x) he file.size).2
    obtain ⟨⟨kept, hsplit, rfl⟩, -, -⟩ := hc.reclaim hr
    have hone : ((s.put x).charge file.size 1).entries = [x] := by
      change without s.key (s.key x) s.entries ++ [x] = [x]
      rw [h.entries_eq]
      rfl
    have hover : s.bytesMax < s.bytesUsed + file.size := by
      rw [h.bytes_eq]
      omega
    have hall : gone = [x] ∧ kept = [] := by
      rw [hone] at hsplit
      cases hc.evicts hr with
      | none hb => exact absurd hover (not_lt.mpr hb)
      | slot hb => exact absurd hover (not_lt.mpr hb)
      | bytes _ _ _ hfit =>
        cases gone with
        | nil =>
          change s.bytesUsed + file.size - (totalSize [] : ℕ) ≤ s.bytesMax ∨ kept = [] ∨ _ at hfit
          rcases hfit with hfit | hfit | hfit
          · rw [totalSize_nil] at hfit
            omega
          · rw [hfit] at hsplit
            cases hsplit
          · exact absurd hfit (by decide)
        | cons y gone =>
          obtain ⟨rfl, hrest⟩ := List.cons.inj hsplit
          obtain ⟨rfl, rfl⟩ := List.nil_eq_append_iff.mp hrest
          exact ⟨rfl, rfl⟩
    obtain ⟨rfl, rfl⟩ := hall
    refine ⟨rfl, ?_⟩
    change s.bytesUsed + (file.size : ℤ) - (totalSize [x] : ℕ) = 0
    have hx : x.file = file := rfl
    rw [h.bytes_eq, totalSize_cons, totalSize_nil, hx]
    omega

end Store

namespace FileSystem
variable {fs fs' : FileSystem} {op : FsOperation} {out : FSOutcome} {log : List ℕ}
  {tr : List FsEvent} {configs : FSConfig}

/-! ### The counter of the capacity misses -/

@[simp] theorem misses_setPre (fs : FileSystem) (entry value : Option Ptr) :
    (fs.setPre entry value).gCapacityMisses = fs.gCapacityMisses := by
  cases entry <;> rfl

@[simp] theorem misses_setNex (fs : FileSystem) (entry value : Option Ptr) :
    (fs.setNex entry value).gCapacityMisses = fs.gCapacityMisses := by
  cases entry <;> rfl

theorem misses_updateTail (fs : FileSystem) (entry : Ptr) :
    (fs.updateTail entry).gCapacityMisses = fs.gCapacityMisses := by
  unfold updateTail
  split_ifs <;> rfl

@[simp] theorem misses_moveToTop (fs : FileSystem) (entry : Ptr) :
    (fs.moveToTop entry).gCapacityMisses = fs.gCapacityMisses := by
  unfold moveToTop
  split_ifs
  · unfold linkOnTop linkNeighbours
    simp only [setHead, modifyEntry, misses_setNex, misses_setPre, misses_updateTail]
  · rfl

@[simp] theorem misses_ejectItem (fs : FileSystem) (item : Ptr) :
    (fs.ejectItem item).gCapacityMisses = fs.gCapacityMisses := by
  unfold ejectItem
  dsimp only
  split_ifs
  · exact misses_setPre _ _ _
  · exact misses_setPre _ _ _

theorem misses_ejectOverBytes (depth : ℕ) (fs : FileSystem) (item : Option Ptr) :
    (ejectOverBytes depth fs item).1.gCapacityMisses = fs.gCapacityMisses := by
  induction depth generalizing fs item with
  | zero => rfl
  | succ depth ih =>
    cases item with
    | none => rfl
    | some item =>
      unfold ejectOverBytes
      split_ifs
      · exact (ih _ _).trans (misses_ejectItem fs item)
      · rfl

theorem misses_passEjected {outs : Bool} {buffer : List Ptr} {files : List FSFile}
    {issued : List FSLockNotification}
    (h : fs.passEjected outs buffer = some (fs',files,issued)) :
    fs'.gCapacityMisses = fs.gCapacityMisses + files.length := by
  unfold passEjected at h
  split_ifs at h
  · cases h
    exact (Int.add_zero _).symm
  · cases h
    rw [List.length_map]

theorem updateCacheSize_eq (fs : FileSystem) (newFile oldFile : Option FSFile) (outs : Bool) :
    fs.updateCacheSize newFile oldFile outs =
      if (fs.chargeFiles newFile oldFile).byteBranch.1.gCache.slotUsed >
          (fs.chargeFiles newFile oldFile).byteBranch.1.gCache.slotMax then
        match (fs.chargeFiles newFile oldFile).byteBranch.1.gCache.tail with
        | none => none
        | some item =>
          passEjected outs (((fs.chargeFiles newFile oldFile).byteBranch.1.ejectItem item).setTail
            ((fs.chargeFiles newFile oldFile).byteBranch.1.memory item).nex) [item]
      else passEjected outs (fs.chargeFiles newFile oldFile).byteBranch.1
        (fs.chargeFiles newFile oldFile).byteBranch.2 := rfl

/-- The counter grows by the number of the files that are handed out. -/
theorem misses_updateCacheSize {newFile oldFile : Option FSFile} {outs : Bool}
    {files : List FSFile} {issued : List FSLockNotification}
    (h : fs.updateCacheSize newFile oldFile outs = some (fs',files,issued)) :
    fs'.gCapacityMisses = fs.gCapacityMisses + files.length := by
  have hfreed : (fs.chargeFiles newFile oldFile).byteBranch.1.gCapacityMisses =
      fs.gCapacityMisses := by
    unfold byteBranch
    split_ifs
    · exact misses_ejectOverBytes _ _ _
    · rfl
  rw [updateCacheSize_eq] at h
  rw [← hfreed]
  generalize (fs.chargeFiles newFile oldFile).byteBranch = freed at h
  split_ifs at h
  · cases ht : freed.1.gCache.tail with
    | none =>
      rw [ht] at h
      cases h
    | some item =>
      rw [ht] at h
      rw [misses_passEjected h]
      exact congrArg (· + _) (misses_ejectItem _ item)
  · exact misses_passEjected h

theorem misses_resize {newFile oldFile : Option FSFile} {outs : Bool}
    (h : (fs.updateCacheSize newFile oldFile outs >>= fun r =>
      some (r.1.increaseQueryCount, ({ res := 0, outFiles := r.2.1, issued := r.2.2 } :
        FSOutcome))) = some (fs',out)) :
    fs'.gCapacityMisses = fs.gCapacityMisses + out.outFiles.length := by
  obtain ⟨⟨fs₁, files, issued⟩, hu, hr⟩ := Option.bind_eq_some_iff.mp h
  cases hr
  have hm := misses_updateCacheSize hu
  exact hm

theorem misses_of_stores (hop : op.stores) (h : fs.apply op = some (fs',out)) :
    fs'.gCapacityMisses = fs.gCapacityMisses + out.outFiles.length := by
  have hsame : ∀ (fs₁ : FileSystem) {r : ℤ}, fs₁.gCapacityMisses = fs.gCapacityMisses →
      some (fs₁.increaseQueryCount, ({ res := r } : FSOutcome)) = some (fs',out) →
      fs'.gCapacityMisses = fs.gCapacityMisses + out.outFiles.length := by
    intro fs₁ r h1 h2
    cases h2
    exact h1.trans (Int.add_zero _).symm
  cases op with
  | remove | obtain | obtainN | trylock | exist | unlock | clean => cases hop
  | insert client file lock =>
    rw [FileSystem.apply, fsInsert] at h
    dsimp only at h
    cases hk : (fs.createEmptyCacheEntry file
        (if lock then client else emptyOwner)).getValueFromKey (fs.getKey file) with
    | none =>
      rw [hk] at h
      exact (misses_resize h).trans (congrArg (· + _) (misses_moveToTop _ _))
    | some p =>
      rw [hk] at h
      exact hsame (fs.createEmptyCacheEntry file _) rfl h
  | modify client file =>
    rw [FileSystem.apply, fsModify] at h
    cases hk : fs.getValueFromKey (fs.getKey file) with
    | none =>
      rw [hk] at h
      exact hsame _ rfl h
    | some p =>
      rw [hk] at h
      dsimp only at h
      split_ifs at h
      · exact hsame _ rfl h
      · exact hsame _ rfl h
      · exact (misses_resize h).trans (congrArg (· + _) (misses_moveToTop _ _))
  | append client file =>
    rw [FileSystem.apply, fsAppend] at h
    cases hk : fs.getValueFromKey (fs.getKey file) with
    | none =>
      rw [hk] at h
      exact hsame _ rfl h
    | some p =>
      rw [hk] at h
      dsimp only at h
      split_ifs at h
      · exact hsame _ rfl h
      · exact hsame _ rfl h
      · exact (misses_resize h).trans (congrArg (· + _) (misses_moveToTop _ _))

/-! ### Stores in every reachable state -/

theorem valid_of_run (h : Run Step (initializeFileSystem configs) tr fs) :
    fs.Valid ∧ fs.view.slotMax = configs.maxFileCapacitySlot :=
  h.invariant (I := fun fs => fs.Valid ∧ fs.view.slotMax = configs.maxFileCapacitySlot)
    ⟨.start configs, rfl⟩ fun ⟨hv, hmax⟩ hs =>
      ⟨hv.step hs, ((hs.effect hv.wf).slotMax_eq hv.sound).trans hmax⟩

/-- A successful store touches an entry and evicts. -/
theorem Valid.stored (hv : fs.Valid) (hop : op.stores) (hs : Step fs (op,out) fs')
    (h0 : out.res = 0) :
    ∃ x bytes slots gone, fs.view.Touches op x bytes slots ∧
      (fs.view.stored x bytes slots).Evicts gone fs'.view.entries ∧
      out = Store.ejected gone := by
  obtain ⟨x, bytes, slots, gone, ht, hr, ho⟩ := (hs.effect hv.wf).stored hop h0
  obtain ⟨-, hc⟩ := ht.countable hv.sound
  exact ⟨x, bytes, slots, gone, ht, hc.evicts hr, ho⟩

/-- Every successful store: the files that are handed out are those of the entries that leave, the
oldest first and as few as have to, up to the depth limit; all other entries stay as they were, in
their order and below the one that was touched. -/
theorem eviction_conserves (h : Run LoggedStep (initializeFileSystem configs, []) tr (fs,log))
    (hop : op.stores) (hs : Step fs (op,out) fs') (h0 : out.res = 0) :
    ∃ x bytes slots gone, fs.view.Touches op x bytes slots ∧
      gone ++ fs'.view.entries = without fs.view.key (fs.view.key x) fs.view.entries ++ [x] ∧
      Distinct fs.view.key (gone ++ fs'.view.entries) ∧
      InOrder (log ++ [fs.view.key x]) ((gone ++ fs'.view.entries).map fs.view.key) ∧
      (fs.view.stored x bytes slots).Evicts gone fs'.view.entries ∧
      out.outFiles = gone.map StoreEntry.file ∧
      fs'.gCapacityMisses = fs.gCapacityMisses + gone.length := by
  have hinv := h.invariant (I := fun a => a.1.Valid ∧ a.1.view.Ordered a.2)
    ⟨.start configs, rfl⟩ (by
      rintro ⟨fs, log⟩ e ⟨fs', log'⟩ ⟨hv, ho⟩ ⟨hs, rfl⟩
      exact ⟨hv.step hs, (hs.effect hv.wf).ordered hv.sound ho⟩)
  obtain ⟨hv, ho⟩ := hinv
  obtain ⟨x, bytes, slots, gone, ht, he, rfl⟩ := hv.stored hop hs h0
  have hsplit := he.split
  refine ⟨x, bytes, slots, gone, ht, hsplit.symm, ?_, ?_, he, rfl, ?_⟩
  · rw [← hsplit]
    exact (ht.countable hv.sound).1
  · rw [← hsplit]
    exact ho.put rfl
  · rw [misses_of_stores hop hs]
    exact congrArg (fun n : ℕ => fs.gCapacityMisses + n) (List.length_map StoreEntry.file)

theorem eviction_conserves_slot :
    ∃ gone : List StoreEntry,
      (((initializeFileSystem oneSlot).after createA).outcome createB).outFiles =
        gone.map StoreEntry.file ∧
      (((initializeFileSystem oneSlot).after createA).after createB).gCapacityMisses =
        ((initializeFileSystem oneSlot).after createA).gCapacityMisses + gone.length := by
  have h1 := step_after (initializeFileSystem oneSlot) createA (by decide +kernel)
  have h2 := step_after ((initializeFileSystem oneSlot).after createA) createB (by decide +kernel)
  obtain ⟨log, hlog⟩ := (Run.start.next h1).recorded logTouches []
  obtain ⟨x, bytes, slots, gone, -, -, -, -, -, hfiles, hmisses⟩ :=
    eviction_conserves hlog rfl h2 (by decide +kernel)
  exact ⟨gone, hfiles, hmisses⟩

/-- The entry is in the table and at the head of the recency list. -/
def OnTop (fs : FileSystem) (x : StoreEntry) : Prop :=
  ∃ p, fs.getValueFromKey (fs.view.key x) = some p ∧ fs.gCache.head = some p ∧ fs.entryView p = x

theorem WF.onTop_iff (h : fs.WF) {x : StoreEntry} :
    fs.OnTop x ↔ fs.view.entries.getLast? = some x := by
  obtain ⟨ps, h⟩ := h
  rw [h.entries, List.getLast?_map, ← h.head, Option.map_eq_some_iff]
  constructor
  · rintro ⟨p, -, hp, hx⟩
    exact ⟨p, hp, hx⟩
  · rintro ⟨p, hp, rfl⟩
    have hmem : p ∈ ps := List.mem_of_getLast? (h.head.symm.trans hp)
    exact ⟨p, (h.table _ p).mpr ⟨hmem, rfl⟩, hp, rfl⟩

theorem Valid.kept_iff (hv : fs.Valid) (hop : op.stores) (hs : Step fs (op,out) fs')
    (h0 : out.res = 0) {x : StoreEntry} {bytes slots : ℤ} (ht : fs.view.Touches op x bytes slots) :
    (fs'.OnTop x ∧ ∀ file ∈ out.outFiles, file.name ≠ x.file.name) ↔ 1 ≤ fs.gCache.slotMax ∧
      (fs.gCache.bytesUsed + bytes -
          totalSize (without fs.view.key (fs.view.key x) fs.view.entries) ≤ fs.gCache.bytesMax ∨
        depthLimit ≤ (without fs.view.key (fs.view.key x) fs.view.entries).length) := by
  obtain ⟨x', bytes', slots', gone, ht', he, rfl⟩ := hv.stored hop hs h0
  obtain ⟨rfl, rfl, rfl⟩ := ht.unique ht'
  obtain ⟨hdist, hc⟩ := ht'.countable hv.sound
  have hiff := he.getLast_iff (x := x') rfl hc
  rw [(hv.step hs).wf.onTop_iff, hiff]
  refine and_iff_left_of_imp fun hfit file hfile => ?_
  -- the entry stays, so no entry of its key has left
  have hlast := hiff.mpr hfit
  obtain ⟨e, hmem, rfl⟩ := List.mem_map.mp hfile
  rw [he.split] at hdist
  exact fun hname => hdist.ne_of_append hmem (List.mem_of_getLast? hlast)
    (congrArg fs.view.keyOf hname)

/-- A stored file is still there after the call exactly when there is a slot for it and the bytes
reckoned for it alone, once all others have left, fit, or the others are too many for all of them
to be ejected. -/
theorem stored_file_kept_iff (h : Run Step (initializeFileSystem configs) tr fs) (hop : op.stores)
    (hs : Step fs (op,out) fs') (h0 : out.res = 0) {x : StoreEntry} {bytes slots : ℤ}
    (ht : fs.view.Touches op x bytes slots) :
    (fs'.OnTop x ∧ ∀ file ∈ out.outFiles, file.name ≠ x.file.name) ↔
      1 ≤ configs.maxFileCapacitySlot ∧
        (fs.gCache.bytesUsed + bytes -
            totalSize (without fs.view.key (fs.view.key x) fs.view.entries) ≤ fs.gCache.bytesMax ∨
          depthLimit ≤ (without fs.view.key (fs.view.key x) fs.view.entries).length) := by
  obtain ⟨hv, hmax⟩ := valid_of_run h
  rw [← hmax]
  exact hv.kept_iff hop hs h0 ht

/-- Client 4 writes two bytes into the file `a`. -/
def writeA : FsOperation := .modify 4 ⟨[97], [1,2]⟩

theorem stored_file_kept_iff_modify :
    ∃ x, (((initializeFileSystem defaultConfigs).after createA).after writeA).OnTop x ∧
      ∀ file ∈ (((initializeFileSystem defaultConfigs).after createA).outcome writeA).outFiles,
        file.name ≠ x.file.name := by
  have h : Run Step (initializeFileSystem defaultConfigs) _ _ :=
    Run.start.next (step_after _ createA (by decide +kernel))
  have hs := step_after ((initializeFileSystem defaultConfigs).after createA) writeA
    (by decide +kernel)
  have hfind : ((initializeFileSystem defaultConfigs).after createA).view.find
      (((initializeFileSystem defaultConfigs).after createA).view.keyOf [97]) =
        some ⟨4, ⟨[97], []⟩, false, []⟩ := by decide +kernel
  exact ⟨_, (stored_file_kept_iff h rfl hs (by decide +kernel)
    (.modified hfind rfl (by decide +kernel))).mpr ⟨by decide, Or.inl (by decide +kernel)⟩⟩

/-- An empty file with a name of `n` bytes. -/
def longNamed (n : ℕ) : FSFile := ⟨List.replicate n 97, []⟩

theorem longNamed_size (n : ℕ) : (longNamed n).size = n := by
  simp [FSFile.size, FSFile.contentLen, FSFile.nameLen, longNamed]

/-- A file whose name is one byte longer than the capacity of 16 MB. -/
def oversized : FSFile := longNamed (16*1024*1024+1)

/-- Inserting has no check of the size: the new file is ejected by its own insertion. -/
theorem oversized_insert_ejected :
    ¬ ∀ configs : FSConfig, 1 ≤ configs.maxFileCapacitySlot →
      configs.maxFileCapacitySlot ≤ 1000000 → ∀ tr fs op out fs' x bytes slots,
      Run Step (initializeFileSystem configs) tr fs → op.stores → Step fs (op,out) fs' →
      out.res = 0 → fs.view.Touches op x bytes slots →
      fs'.OnTop x ∧ ∀ file ∈ out.outFiles, file.name ≠ x.file.name := by
  intro h
  set fs := initializeFileSystem defaultConfigs with hfs
  have hv : fs.Valid := .start defaultConfigs
  have hsafe : ∀ c, fs.updateCall (.insert 4 oversized true) = some c → c.Safe :=
    fun c hc => hv.updateCall_safe (Or.inr rfl) (by decide) (by decide) hc
  have hs := step_after fs (.insert 4 oversized true) (apply_isSome hsafe (by simp) (by simp))
  have hnone : fs.view.find (fs.view.keyOf oversized.name) = none := rfl
  have ht : fs.view.Touches (.insert 4 oversized true) _ _ _ := .inserted hnone
  have h0 := (hs.effect hv.wf).insert_res hnone
  have hkept := h defaultConfigs (by decide) (by decide) _ _ _ _ _ _ _ _ .start rfl hs h0 ht
  rw [hv.kept_iff rfl hs h0 ht] at hkept
  have hsize : oversized.size = 16*1024*1024+1 := longNamed_size _
  have hmax : fs.gCache.bytesMax = 16*1024*1024 := by decide
  have hused : fs.gCache.bytesUsed = 0 := rfl
  have hothers : without fs.view.key (fs.view.key
      ⟨if true then 4 else emptyOwner, oversized, false, []⟩) fs.view.entries = [] := rfl
  rw [hsize, hmax, hused, hothers] at hkept
  exact absurd hkept (by decide)

end FileSystem
end StorageServer.Server
