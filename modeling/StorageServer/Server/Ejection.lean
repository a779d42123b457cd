import StorageServer.Server.StoreView

/-! Ejection: the byte loop and the slot branch of `updateCacheSize` bring the structure and the
store that it stands for back within the limits in the same way. -/
namespace StorageServer.Server
open Common Library.DoublyLinked

namespace FileSystem
variable {fs fs' : FileSystem} {ps xs ys : List Ptr} {p : Ptr} {k : ℕ}

/-- The store of the listed entries, whatever the tail is. -/
def viewOf (fs : FileSystem) (ps : List Ptr) : Store :=
  { fs.view with entries := ps.map fs.entryView }

/-- The shape without the tail, which the byte loop sets only at its end. -/
structure Loose (fs : FileSystem) (ps : List Ptr) : Prop extends Chain fs ps where
  table : Table fs ps

theorem Loose.setTail (h : Loose fs ps) : Shape (fs.setTail ps.head?) ps :=
  ⟨⟨h.nodup, h.linked, h.head, h.alloc⟩, rfl, h.table⟩

theorem Shape.view_eq_viewOf (h : Shape fs ps) : fs.view = fs.viewOf ps := h.view_eq

theorem Loose.setTail_view (h : Loose fs ps) : (fs.setTail ps.head?).view = fs.viewOf ps :=
  h.setTail.view_eq

theorem entryView_ejectItem (fs : FileSystem) (p : Ptr) :
    (fs.ejectItem p).entryView = fs.entryView := by
  funext q
  have hs := sameData_setPre (fs.setValueForKey (fs.getKey (fs.memory p).file) none)
    (fs.memory p).nex none
  rw [ejectItem]
  dsimp only
  split_ifs
  · exact hs.entry q
  · exact hs.entry q

theorem Loose.ejectItem (h : Loose fs (p::ps)) : Loose (fs.ejectItem p) ps := by
  have hp : p ∉ ps := (List.nodup_cons.mp h.nodup).1
  have hd : ps.Nodup := (List.nodup_cons.mp h.nodup).2
  have hc : Chain fs ([] ++ p :: ps) := h.toChain
  have hpre : fs.preOf p = none := hc.link_pre
  have hu := hc.linked.unlink hc.nodup
  rw [hpre, setLink_none] at hu
  have hhead := hc.head_eq_iff
  set fs₁ := fs.setValueForKey (fs.getKey (fs.memory p).file) none with hfs₁
  have hs := sameData_setPre fs₁ (fs.memory p).nex none
  have hl : Linked (fs₁.setPre (fs.memory p).nex none).nexOf
      (fs₁.setPre (fs.memory p).nex none).preOf none ps none := by
    rw [nexOf_setPre, preOf_setPre]
    exact hu
  have ht : Table (fs₁.setPre (fs.memory p).nex none) ps := by
    refine hs.table fun k q => ?_
    change Function.update fs.gHashmap (fs.getKey (fs.memory p).file) none k = some q ↔
      q ∈ ps ∧ fs.getKey (fs.memory q).file = k
    by_cases hk : k = fs.getKey (fs.memory p).file
    · subst k
      rw [Function.update_self]
      refine ⟨by simp, fun ⟨hq, hkq⟩ => ?_⟩
      have h1 := (h.table _ q).mpr ⟨List.mem_cons_of_mem _ hq, hkq⟩
      have h2 := (h.table _ p).mpr ⟨List.mem_cons_self, rfl⟩
      obtain rfl : q = p := Option.some.inj (h1.symm.trans h2)
      exact absurd hq hp
    · rw [Function.update_of_ne hk, h.table k q, List.mem_cons]
      constructor
      · rintro ⟨rfl | hq, hkq⟩
        · exact absurd hkq.symm hk
        · exact ⟨hq, hkq⟩
      · rintro ⟨hq, hkq⟩
        exact ⟨Or.inr hq, hkq⟩
  have ha : ∀ q ∈ ps, q < (fs₁.setPre (fs.memory p).nex none).nextPtr := by
    intro q hq
    rw [hs.nextPtr]
    exact h.alloc q (List.mem_cons_of_mem _ hq)
  have hg : (fs₁.setPre (fs.memory p).nex none).gCache.head = fs.gCache.head := by
    rw [gCache_setPre]
    rfl
  unfold FileSystem.ejectItem
  dsimp only
  split_ifs with hh
  · rw [← hfs₁, hg, hhead] at hh
    subst ps
    exact ⟨⟨hd, hl, rfl, ha⟩, ht⟩
  · rw [← hfs₁, hg, hhead] at hh
    refine ⟨⟨hd, hl, ?_, ha⟩, ht⟩
    change (fs₁.setPre (fs.memory p).nex none).gCache.head = _
    rw [hg, h.head]
    obtain ⟨q, qs, rfl⟩ := List.exists_cons_of_ne_nil hh
    rw [List.getLast?_cons_cons]

theorem viewOf_ejectItem (fs : FileSystem) (p : Ptr) (ps : List Ptr) :
    (fs.ejectItem p).viewOf ps =
      (fs.viewOf (p::ps)).release [fs.entryView p] (ps.map fs.entryView) := by
  have hs := sameData_setPre (fs.setValueForKey (fs.getKey (fs.memory p).file) none)
    (fs.memory p).nex none
  have hg := hs.config
  have h1 := hs.slotUsed
  have h2 := hs.slotMax
  have h3 := hs.bytesUsed
  have h4 := hs.bytesMax
  simp only [viewOf, Store.release, entryView_ejectItem, totalSize, List.map_cons, List.map_nil,
    List.sum_cons, List.sum_nil, Nat.add_zero, List.length_cons, List.length_nil]
  unfold FileSystem.ejectItem FileSystem.view
  dsimp only
  split_ifs
  · simp only [setHead, hg, h1, h2, h3, h4]
    rfl
  · simp only [hg, h1, h2, h3, h4]
    rfl

/-- The byte loop splits the list where the loop of the store does. -/
theorem Loose.ejectOverBytes (depth : ℕ) (h : Loose fs ps) :
    ∃ gone kept fs', ps = gone ++ kept ∧
      FileSystem.ejectOverBytes depth fs ps.head? = (fs', kept.head?, gone) ∧
      Loose fs' kept ∧ fs'.entryView = fs.entryView ∧
      Store.ejectOver fs.gCache.bytesMax depth fs.gCache.bytesUsed (ps.map fs.entryView) =
        (gone.map fs.entryView, kept.map fs.entryView) ∧
      fs'.viewOf kept =
        (fs.viewOf ps).release (gone.map fs.entryView) (kept.map fs.entryView) := by
  induction depth generalizing fs ps with
  | zero => exact ⟨[], ps, fs, rfl, rfl, h, rfl, rfl, by simp [Store.release, viewOf, totalSize]⟩
  | succ depth ih =>
    cases ps with
    | nil => exact ⟨[], [], fs, rfl, rfl, h, rfl, rfl, by simp [Store.release, viewOf, totalSize]⟩
    | cons p ps =>
      by_cases hb : fs.gCache.bytesUsed > fs.gCache.bytesMax
      · obtain ⟨gone, kept, fs', rfl, hr, hl, hv, he, hw⟩ := ih h.ejectItem
        have hc : Chain fs ([] ++ p :: (gone ++ kept)) := h.toChain
        have hn : (fs.memory p).nex = (gone ++ kept).head? := hc.link_nex
        have hvi := viewOf_ejectItem fs p (gone ++ kept)
        have hused : (fs.ejectItem p).gCache.bytesUsed =
            fs.gCache.bytesUsed - (fs.entryView p).file.size := by
          have := congrArg Store.bytesUsed hvi
          simpa [viewOf, Store.release, totalSize, FileSystem.view] using this
        have hmax : (fs.ejectItem p).gCache.bytesMax = fs.gCache.bytesMax :=
          congrArg Store.bytesMax hvi
        rw [entryView_ejectItem] at hv he hw
        refine ⟨p::gone, kept, fs', rfl, ?_, hl, hv, ?_, ?_⟩
        · simp only [List.head?_cons, FileSystem.ejectOverBytes, hb, if_true, hn, hr]
        · rw [hused, hmax] at he
          simp only [List.map_cons, Store.ejectOver, hb, if_true, he]
        · rw [hw, hvi, Store.release_release]
          rfl
      · refine ⟨[], p::ps, fs, rfl, ?_, h, rfl, ?_, ?_⟩
        · simp [FileSystem.ejectOverBytes, hb]
        · exact Store.ejectOver_of_le (not_lt.mp hb) _ _
        · simp [Store.release, viewOf, totalSize]

/-- A computation on the structure and one on the store that agree: they fail together, return
the same value, and the new structure is well formed and stands for the new store. -/
structure Refines {β : Type*} (r : Option (FileSystem × β)) (a : Option (Store × β)) : Prop where
  view_eq : r.map (Prod.map view id) = a
  wf : ∀ x, r = some x → x.1.WF

theorem Refines.some {β : Type*} {x : β} {s : Store} (hw : fs.WF) (hv : fs.view = s) :
    Refines (some (fs, x)) (some (s, x)) :=
  ⟨by simp [hv], by rintro _ ⟨⟩; exact hw⟩

theorem Refines.map {β γ : Type*} {r : Option (FileSystem × β)} {a : Option (Store × β)}
    (h : Refines r a) {f : FileSystem × β → FileSystem × γ} {g : Store × β → Store × γ}
    (hf : ∀ x, x.1.WF → (f x).1.WF ∧ ((f x).1.view, (f x).2) = g (x.1.view, x.2)) :
    Refines (r.map f) (a.map g) := by
  obtain ⟨rfl, hw⟩ := h
  cases r with
  | none => exact ⟨rfl, by simp⟩
  | some x =>
    obtain ⟨h1, h2⟩ := hf x (hw x rfl)
    exact ⟨congrArg _ h2, by rintro _ ⟨⟩; exact h1⟩

theorem wf_increaseQueryCount (h : fs.WF) : fs.increaseQueryCount.WF :=
  let ⟨ps, hs⟩ := h
  ⟨ps, ⟨⟨hs.nodup, hs.linked, hs.head, hs.alloc⟩, hs.tail, hs.table⟩⟩

@[simp] theorem view_increaseQueryCount (fs : FileSystem) :
    fs.increaseQueryCount.view = fs.view := rfl

theorem notifyWaiting_eq (fs : FileSystem) (p : Ptr) :
    notifyWaiting (fs.memory p) = (fs.entryView p).farewell := by
  rw [notifyWaiting, CircQueue.popAll_eq_toList (fs.memory p).waitingLockQueue.size_le]
  rfl

theorem Shape.passEjected (h : Shape fs ps) (outs : Bool) (gone : List Ptr) :
    Refines (fs.passEjected outs gone)
      ((Store.pass outs fs.view (gone.map fs.entryView)).map
        (fun r => (r.1, r.2.map StoreEntry.file, r.2.flatMap StoreEntry.farewell))) := by
  unfold FileSystem.passEjected Store.pass
  by_cases hg : gone = []
  · subst gone
    exact Refines.some ⟨ps, h⟩ rfl
  · simp only [hg, List.map_eq_nil_iff, if_false]
    cases outs with
    | false => exact ⟨rfl, by simp⟩
    | true =>
      have hn : gone.flatMap (fun entry => notifyWaiting (fs.memory entry)) =
          (gone.map fs.entryView).flatMap StoreEntry.farewell := by
        rw [List.flatMap_map]
        exact List.flatMap_congr fun p _ => notifyWaiting_eq fs p
      have hf : gone.map (fun entry => (fs.memory entry).file) =
          (gone.map fs.entryView).map StoreEntry.file := by
        rw [List.map_map]
        rfl
      simp only [if_true, hn, hf, Option.map_some]
      exact Refines.some ⟨ps, ⟨⟨h.nodup, h.linked, h.head, h.alloc⟩, h.tail, h.table⟩⟩ rfl

theorem Shape.chargeFiles (h : Shape fs ps) (newFile oldFile : Option FSFile) :
    Shape (fs.chargeFiles newFile oldFile) ps :=
  ⟨⟨h.nodup, h.linked, h.head, h.alloc⟩, h.tail, h.table⟩

/-- The bytes and the slots that `updateCacheSize` charges. -/
def chargedBytes (newFile oldFile : Option FSFile) : ℤ :=
  (newFile.elim 0 FSFile.size : ℕ) - (oldFile.elim 0 FSFile.size : ℕ)

def chargedSlots (newFile oldFile : Option FSFile) : ℤ :=
  (if oldFile.isNone then 1 else 0) - (if newFile.isNone then 1 else 0)

theorem view_chargeFiles (fs : FileSystem) (newFile oldFile : Option FSFile) :
    (fs.chargeFiles newFile oldFile).view =
      fs.view.charge (chargedBytes newFile oldFile) (chargedSlots newFile oldFile) := by
  simp only [view, FileSystem.chargeFiles, Store.charge, chargedBytes, chargedSlots]
  congr 1
  · omega
  · omega

/-- The byte branch of `updateCacheSize`, with the entries that it puts into the buffer. -/
def byteBranch (fs : FileSystem) : FileSystem × List Ptr :=
  if fs.gCache.bytesUsed > fs.gCache.bytesMax then
    let r := ejectOverBytes depthLimit fs fs.gCache.tail
    (r.1.setTail r.2.1, r.2.2)
  else (fs, [])

/-- After the byte branch the structure has lost `gone` and keeps `kept`. -/
theorem Shape.byteBranch (h : Shape fs ps) :
    ∃ gone kept fs', fs.byteBranch = (fs', gone) ∧ Shape fs' kept ∧ fs'.entryView = fs.entryView ∧
      Store.ejectOver fs.view.bytesMax depthLimit fs.view.bytesUsed fs.view.entries =
        (gone.map fs.entryView, kept.map fs.entryView) ∧
      fs'.view = fs.view.release (gone.map fs.entryView) (kept.map fs.entryView) := by
  have hl : Loose fs ps := ⟨h.toChain, h.table⟩
  unfold FileSystem.byteBranch
  by_cases hb : fs.gCache.bytesUsed > fs.gCache.bytesMax
  · obtain ⟨gone, kept, fs', hps, hr, hl', hv, he, hw⟩ := hl.ejectOverBytes depthLimit
    rw [← h.tail] at hr
    refine ⟨gone, kept, fs'.setTail kept.head?, ?_, hl'.setTail, hv, ?_, ?_⟩
    · rw [if_pos hb, hr]
    · rw [h.entries]; exact he
    · rw [hl'.setTail_view, hw, ← h.view_eq_viewOf]
  · refine ⟨[], ps, fs, if_neg hb, h, rfl, ?_, ?_⟩
    · rw [h.entries]; exact Store.ejectOver_of_le (not_lt.mp hb) _ _
    · rw [← h.entries]; simp [Store.release, totalSize]

/-- `updateCacheSize` charges the counters and brings the store back within its limits. -/
theorem updateCacheSize_refines (h : fs.WF) (newFile oldFile : Option FSFile) (outs : Bool) :
    Refines (fs.updateCacheSize newFile oldFile outs)
      (((fs.view.charge (chargedBytes newFile oldFile)
          (chargedSlots newFile oldFile)).reclaim outs).map
        (fun r => (r.1, r.2.map StoreEntry.file, r.2.flatMap StoreEntry.farewell))) := by
  obtain ⟨ps, h⟩ := h
  rw [← view_chargeFiles]
  have hc := h.chargeFiles newFile oldFile
  unfold FileSystem.updateCacheSize Store.reclaim
  generalize fs.chargeFiles newFile oldFile = fs₁ at hc ⊢
  obtain ⟨gone, kept, fs₂, hfreed, hs, hv, he, hw⟩ := hc.byteBranch
  unfold FileSystem.byteBranch at hfreed
  dsimp only at hfreed
  simp only [hfreed, he, ← hw]
  by_cases hslot : fs₂.gCache.slotUsed > fs₂.gCache.slotMax
  · have hslot' : fs₂.view.slotUsed > fs₂.view.slotMax := hslot
    simp only [hslot, hslot', if_true, hs.tail, hs.entries]
    cases kept with
    | nil => exact ⟨rfl, by simp⟩
    | cons p kept =>
      have hc' : Chain fs₂ ([] ++ p :: kept) := hs.toChain
      have hn : (fs₂.memory p).nex = kept.head? := hc'.link_nex
      have hej := Loose.ejectItem ⟨hs.toChain, hs.table⟩
      simp only [List.head?_cons, List.map_cons, hn]
      have hview : ((fs₂.ejectItem p).setTail kept.head?).view =
          fs₂.view.release [fs₂.entryView p] (kept.map fs₂.entryView) := by
        rw [hej.setTail_view, viewOf_ejectItem, ← hs.view_eq_viewOf]
      have hp := hej.setTail.passEjected outs [p]
      have hev : ((fs₂.ejectItem p).setTail kept.head?).entryView = fs₂.entryView :=
        entryView_ejectItem fs₂ p
      rw [hview, hev] at hp
      exact hp
  · have hslot' : ¬ fs₂.view.slotUsed > fs₂.view.slotMax := hslot
    simp only [hslot, hslot', if_false]
    have hp := hs.passEjected outs gone
    rw [hv] at hp
    exact hp

end FileSystem
end StorageServer.Server
