import StorageServer.Server.Store
import Mathlib.Data.List.Perm.Subperm

/-! The shape of the pointer structure: the recency list, its two ends and the table. The list
of addresses from the oldest entry to the newest one determines all of them. -/
namespace StorageServer.Server
open Common Library.DoublyLinked

/-- What an entry says apart from its links. -/
def FSCacheEntry.view (e : FSCacheEntry) : StoreEntry :=
  ⟨e.owner, e.file, e.emptyBuffer, e.waitingLockQueue.toList⟩

namespace FileSystem
variable {fs fs' : FileSystem} {ps xs ys : List Ptr} {p : Ptr}

def nexOf (fs : FileSystem) (p : Ptr) : Option Ptr := (fs.memory p).nex
def preOf (fs : FileSystem) (p : Ptr) : Option Ptr := (fs.memory p).pre
def entryView (fs : FileSystem) (p : Ptr) : StoreEntry := (fs.memory p).view

/-- The store that the pointer structure stands for, read from the tail on. -/
def view (fs : FileSystem) : Store where
  tableSize := fs.gConfigs.tableSize
  slotMax := fs.gCache.slotMax
  bytesMax := fs.gCache.bytesMax
  slotUsed := fs.gCache.slotUsed
  bytesUsed := fs.gCache.bytesUsed
  entries := (walk fs.nexOf fs.nextPtr fs.gCache.tail).map fs.entryView

/-- The links, the head and the allocation of the entries listed from the oldest one. -/
structure Chain (fs : FileSystem) (ps : List Ptr) : Prop where
  nodup : ps.Nodup
  linked : Linked fs.nexOf fs.preOf none ps none
  head : fs.gCache.head = ps.getLast?
  alloc : ∀ p ∈ ps, p < fs.nextPtr

/-- The table holds exactly the listed entries, each under the key of its file. -/
def Table (fs : FileSystem) (ps : List Ptr) : Prop :=
  ∀ k p, fs.gHashmap k = some p ↔ p ∈ ps ∧ fs.getKey (fs.memory p).file = k

structure Shape (fs : FileSystem) (ps : List Ptr) : Prop extends Chain fs ps where
  tail : fs.gCache.tail = ps.head?
  table : Table fs ps

/-- Some list of entries gives the state its shape. -/
def WF (fs : FileSystem) : Prop := ∃ ps, Shape fs ps

/-- Two states that differ in links, ends and statistics only. -/
structure SameData (fs fs' : FileSystem) : Prop where
  config : fs'.gConfigs = fs.gConfigs
  hashmap : fs'.gHashmap = fs.gHashmap
  nextPtr : fs'.nextPtr = fs.nextPtr
  slotUsed : fs'.gCache.slotUsed = fs.gCache.slotUsed
  slotMax : fs'.gCache.slotMax = fs.gCache.slotMax
  bytesUsed : fs'.gCache.bytesUsed = fs.gCache.bytesUsed
  bytesMax : fs'.gCache.bytesMax = fs.gCache.bytesMax
  entry : ∀ p, fs'.entryView p = fs.entryView p

theorem SameData.refl (fs : FileSystem) : SameData fs fs :=
  ⟨rfl, rfl, rfl, rfl, rfl, rfl, rfl, fun _ => rfl⟩

theorem SameData.trans {fs₁ fs₂ fs₃ : FileSystem} (h : SameData fs₁ fs₂) (h' : SameData fs₂ fs₃) :
    SameData fs₁ fs₃ where
  config := h'.config.trans h.config
  hashmap := h'.hashmap.trans h.hashmap
  nextPtr := h'.nextPtr.trans h.nextPtr
  slotUsed := h'.slotUsed.trans h.slotUsed
  slotMax := h'.slotMax.trans h.slotMax
  bytesUsed := h'.bytesUsed.trans h.bytesUsed
  bytesMax := h'.bytesMax.trans h.bytesMax
  entry p := (h'.entry p).trans (h.entry p)

theorem SameData.file (h : SameData fs fs') (p : Ptr) :
    (fs'.memory p).file = (fs.memory p).file := congrArg StoreEntry.file (h.entry p)

theorem SameData.cellKey (h : SameData fs fs') (p : Ptr) :
    fs'.getKey (fs'.memory p).file = fs.getKey (fs.memory p).file := by
  unfold getKey
  rw [h.file, h.config]

theorem SameData.table (h : SameData fs fs') (ht : Table fs ps) : Table fs' ps := by
  intro k p
  rw [h.hashmap, h.cellKey]
  exact ht k p

section Links
variable (fs : FileSystem) (q : Ptr) (l v : Option Ptr)

@[simp] theorem modifyEntry_gCache (f : FSCacheEntry → FSCacheEntry) :
    (fs.modifyEntry q f).gCache = fs.gCache := rfl
@[simp] theorem modifyEntry_gHashmap (f : FSCacheEntry → FSCacheEntry) :
    (fs.modifyEntry q f).gHashmap = fs.gHashmap := rfl
@[simp] theorem modifyEntry_gConfigs (f : FSCacheEntry → FSCacheEntry) :
    (fs.modifyEntry q f).gConfigs = fs.gConfigs := rfl
@[simp] theorem modifyEntry_nextPtr (f : FSCacheEntry → FSCacheEntry) :
    (fs.modifyEntry q f).nextPtr = fs.nextPtr := rfl

theorem modifyEntry_memory (f : FSCacheEntry → FSCacheEntry) :
    (fs.modifyEntry q f).memory = Function.update fs.memory q (f (fs.memory q)) := rfl

/-- A change of an entry that keeps what it says, such as a change of its links. -/
theorem sameData_modifyEntry (f : FSCacheEntry → FSCacheEntry)
    (hf : (f (fs.memory q)).view = (fs.memory q).view) : SameData fs (fs.modifyEntry q f) := by
  refine ⟨rfl, rfl, rfl, rfl, rfl, rfl, rfl, fun p => ?_⟩
  by_cases hp : p = q
  · subst p; simpa [entryView, modifyEntry_memory] using hf
  · simp [entryView, modifyEntry_memory, Function.update_of_ne hp]

theorem setNex_some : fs.setNex (some q) v = fs.modifyEntry q (fun e => { e with nex := v }) := rfl
theorem setPre_some : fs.setPre (some q) v = fs.modifyEntry q (fun e => { e with pre := v }) := rfl

theorem sameData_setNex : SameData fs (fs.setNex l v) := by
  cases l with
  | none => exact SameData.refl fs
  | some q => exact sameData_modifyEntry fs q (fun e => { e with nex := v }) rfl

theorem sameData_setPre : SameData fs (fs.setPre l v) := by
  cases l with
  | none => exact SameData.refl fs
  | some q => exact sameData_modifyEntry fs q (fun e => { e with pre := v }) rfl

theorem sameData_setHead : SameData fs (fs.setHead v) :=
  ⟨rfl, rfl, rfl, rfl, rfl, rfl, rfl, fun _ => rfl⟩

theorem sameData_setTail : SameData fs (fs.setTail v) :=
  ⟨rfl, rfl, rfl, rfl, rfl, rfl, rfl, fun _ => rfl⟩

@[simp] theorem nexOf_setHead : (fs.setHead v).nexOf = fs.nexOf := rfl
@[simp] theorem preOf_setHead : (fs.setHead v).preOf = fs.preOf := rfl
@[simp] theorem nexOf_setTail : (fs.setTail v).nexOf = fs.nexOf := rfl
@[simp] theorem preOf_setTail : (fs.setTail v).preOf = fs.preOf := rfl
@[simp] theorem gCache_setNex : (fs.setNex l v).gCache = fs.gCache := by cases l <;> rfl
@[simp] theorem gCache_setPre : (fs.setPre l v).gCache = fs.gCache := by cases l <;> rfl

theorem nexOf_modifyEntry (f : FSCacheEntry → FSCacheEntry) :
    (fs.modifyEntry q f).nexOf = Function.update fs.nexOf q (f (fs.memory q)).nex := by
  funext p
  by_cases hp : p = q
  · subst p; simp [nexOf, modifyEntry_memory]
  · simp [nexOf, modifyEntry_memory, Function.update_of_ne hp]

theorem preOf_modifyEntry (f : FSCacheEntry → FSCacheEntry) :
    (fs.modifyEntry q f).preOf = Function.update fs.preOf q (f (fs.memory q)).pre := by
  funext p
  by_cases hp : p = q
  · subst p; simp [preOf, modifyEntry_memory]
  · simp [preOf, modifyEntry_memory, Function.update_of_ne hp]

@[simp] theorem nexOf_setNex : (fs.setNex l v).nexOf = setLink fs.nexOf l v := by
  cases l with
  | none => rfl
  | some q => rw [setNex_some, nexOf_modifyEntry]; rfl

@[simp] theorem preOf_setNex : (fs.setNex l v).preOf = fs.preOf := by
  cases l with
  | none => rfl
  | some q => rw [setNex_some, preOf_modifyEntry]; exact Function.update_eq_self q fs.preOf

@[simp] theorem preOf_setPre : (fs.setPre l v).preOf = setLink fs.preOf l v := by
  cases l with
  | none => rfl
  | some q => rw [setPre_some, preOf_modifyEntry]; rfl

@[simp] theorem nexOf_setPre : (fs.setPre l v).nexOf = fs.nexOf := by
  cases l with
  | none => rfl
  | some q => rw [setPre_some, nexOf_modifyEntry]; exact Function.update_eq_self q fs.nexOf

end Links

/-! ### Taking a cell out and putting one on top -/

theorem sameData_linkNeighbours (fs : FileSystem) (p : Ptr) :
    SameData fs (fs.linkNeighbours p) :=
  (sameData_setNex fs _ _).trans (sameData_setPre _ _ _)

@[simp] theorem gCache_linkNeighbours (fs : FileSystem) (p : Ptr) :
    (fs.linkNeighbours p).gCache = fs.gCache := by simp [linkNeighbours]

theorem nexOf_linkNeighbours (fs : FileSystem) (p : Ptr) :
    (fs.linkNeighbours p).nexOf = setLink fs.nexOf (fs.preOf p) (fs.nexOf p) := by
  simp [linkNeighbours, nexOf, preOf]

theorem preOf_linkNeighbours (fs : FileSystem) (p : Ptr) :
    (fs.linkNeighbours p).preOf = setLink fs.preOf (fs.nexOf p) (fs.preOf p) := by
  simp [linkNeighbours, nexOf, preOf]

theorem Chain.link_pre (h : Chain fs (xs ++ p :: ys)) : fs.preOf p = xs.getLast? := by
  simpa using h.linked.at.1

theorem Chain.link_nex (h : Chain fs (xs ++ p :: ys)) : fs.nexOf p = ys.head? := by
  simpa using h.linked.at.2

theorem Chain.linkNeighbours (h : Chain fs (xs ++ p :: ys)) :
    Linked (fs.linkNeighbours p).nexOf (fs.linkNeighbours p).preOf none (xs ++ ys) none := by
  rw [nexOf_linkNeighbours, preOf_linkNeighbours]
  exact h.linked.unlink h.nodup

theorem Chain.nodup_erase (h : Chain fs (xs ++ p :: ys)) :
    (xs ++ ys).Nodup ∧ p ∉ xs ++ ys := by
  have hd := h.nodup
  rw [List.nodup_middle, List.nodup_cons] at hd
  exact ⟨hd.2, hd.1⟩

theorem sameData_updateTail (fs : FileSystem) (p : Ptr) : SameData fs (fs.updateTail p) := by
  unfold updateTail
  split_ifs
  · exact sameData_setTail _ _
  · exact sameData_setTail _ _
  · exact SameData.refl fs

theorem sameData_linkOnTop (fs : FileSystem) (p : Ptr) : SameData fs (fs.linkOnTop p) :=
  (sameData_modifyEntry fs p _ rfl).trans
    ((sameData_setNex _ _ _).trans (sameData_setHead _ _))

theorem sameData_moveToTop (fs : FileSystem) (p : Ptr) : SameData fs (fs.moveToTop p) := by
  unfold moveToTop
  split_ifs
  · exact (sameData_updateTail fs p).trans
      ((sameData_linkNeighbours _ p).trans (sameData_linkOnTop _ p))
  · exact SameData.refl fs

@[simp] theorem nexOf_updateTail (fs : FileSystem) (p : Ptr) :
    (fs.updateTail p).nexOf = fs.nexOf := by
  unfold updateTail
  split_ifs <;> rfl

@[simp] theorem preOf_updateTail (fs : FileSystem) (p : Ptr) :
    (fs.updateTail p).preOf = fs.preOf := by
  unfold updateTail
  split_ifs <;> rfl

@[simp] theorem head_updateTail (fs : FileSystem) (p : Ptr) :
    (fs.updateTail p).gCache.head = fs.gCache.head := by
  unfold updateTail
  split_ifs <;> rfl

@[simp] theorem tail_linkOnTop (fs : FileSystem) (p : Ptr) :
    (fs.linkOnTop p).gCache.tail = fs.gCache.tail := by
  simp [linkOnTop, setHead]

/-- A cell outside the linked list goes after its head. -/
theorem chain_linkOnTop (hl : Linked fs.nexOf fs.preOf none xs none) (hd : xs.Nodup)
    (hp : p ∉ xs) (hh : fs.gCache.head = xs.getLast?)
    (ha : ∀ q ∈ xs ++ [p], q < fs.nextPtr) : Chain (fs.linkOnTop p) (xs ++ [p]) where
  nodup := by
    rw [← List.concat_eq_append]
    exact hd.concat hp
  linked := by
    simp only [linkOnTop, nexOf_setHead, preOf_setHead, nexOf_setNex, preOf_setNex,
      nexOf_modifyEntry, preOf_modifyEntry, modifyEntry_gCache, hh]
    exact hl.pushBack hd hp
  head := by simp [linkOnTop, setHead]
  alloc q hq := by
    rw [(sameData_linkOnTop fs p).nextPtr]
    exact ha q hq

theorem Chain.head_eq_iff (h : Chain fs (xs ++ p :: ys)) :
    fs.gCache.head = some p ↔ ys = [] := by
  have hp := h.nodup_erase.2
  rw [h.head]
  cases ys using List.reverseRecOn with
  | nil => simp
  | append_singleton ys y =>
    have hy : y ≠ p := by rintro rfl; simp at hp
    have hl : (xs ++ p :: (ys ++ [y])).getLast? = some y := by
      rw [← List.cons_append, ← List.append_assoc, List.getLast?_concat]
    simp [hl, hy]

/-- The tail moves on exactly when the entry was the oldest one. -/
theorem Chain.tail_updateTail (h : Chain fs (xs ++ p :: ys))
    (ht : fs.gCache.tail = (xs ++ p :: ys).head?) :
    (fs.updateTail p).gCache.tail = (xs ++ ys).head? := by
  cases xs with
  | nil =>
    have hn : (fs.memory p).nex = ys.head? := h.link_nex
    simp only [List.nil_append, List.head?_cons] at ht
    simp [updateTail, ht, setTail, hn]
  | cons x xs =>
    have hx : x ≠ p := by
      rintro rfl
      exact h.nodup_erase.2 (by simp)
    simp only [List.cons_append, List.head?_cons] at ht
    simp [updateTail, ht, hx]

/-- A listed entry becomes the newest one. -/
theorem Chain.moveToTop (h : Chain fs (xs ++ p :: ys))
    (ht : fs.gCache.tail = (xs ++ p :: ys).head?) :
    Chain (fs.moveToTop p) (xs ++ ys ++ [p]) ∧
      (fs.moveToTop p).gCache.tail = (xs ++ ys ++ [p]).head? := by
  obtain ⟨hd, hp⟩ := h.nodup_erase
  by_cases hys : ys = []
  · have hm : fs.moveToTop p = fs := by simp [FileSystem.moveToTop, h.head_eq_iff, hys]
    subst ys
    rw [hm, List.append_nil]
    exact ⟨h, ht⟩
  have hm : fs.moveToTop p = ((fs.updateTail p).linkNeighbours p).linkOnTop p := by
    simp [FileSystem.moveToTop, h.head_eq_iff, hys]
  have hs := sameData_updateTail fs p
  have hc : Chain (fs.updateTail p) (xs ++ p :: ys) :=
    ⟨h.nodup, by simpa using h.linked, by simpa using h.head,
      fun q hq => hs.nextPtr ▸ h.alloc q hq⟩
  rw [hm]
  constructor
  · refine chain_linkOnTop hc.linkNeighbours hd hp ?_ ?_
    · rw [gCache_linkNeighbours, hc.head]
      obtain ⟨zs, z, rfl⟩ := (List.eq_nil_or_concat ys).resolve_left hys
      simp [List.getLast?_append, List.getLast?_cons]
    · intro q hq
      rw [(sameData_linkNeighbours _ p).nextPtr]
      apply hc.alloc
      simp only [List.mem_append, List.mem_cons, List.not_mem_nil, or_false] at hq ⊢
      tauto
  · rw [tail_linkOnTop, gCache_linkNeighbours, h.tail_updateTail ht,
      List.head?_append_of_ne_nil (xs ++ ys) (by simp [hys])]

/-- A new entry becomes the newest one. -/
theorem Chain.moveToTop_new (h : Chain fs ps) (ht : fs.gCache.tail = ps.head?) (hp : p ∉ ps)
    (ha : p < fs.nextPtr) (hn : fs.nexOf p = none) (hq : fs.preOf p = none) :
    Chain (fs.moveToTop p) (ps ++ [p]) ∧
      (fs.moveToTop p).gCache.tail = (ps ++ [p]).head? := by
  have hhead : fs.gCache.head ≠ some p := by
    rw [h.head]
    exact fun he => hp (List.mem_of_getLast? he)
  have hm : fs.moveToTop p = ((fs.updateTail p).linkNeighbours p).linkOnTop p := by
    simp [FileSystem.moveToTop, hhead]
  have hl : (fs.updateTail p).linkNeighbours p = fs.updateTail p := by
    have h1 : (fs.updateTail p).nexOf p = none := by simpa using hn
    have h2 : (fs.updateTail p).preOf p = none := by simpa using hq
    unfold nexOf at h1
    unfold preOf at h2
    simp [FileSystem.linkNeighbours, h1, h2, setNex, setPre]
  rw [hm, hl]
  constructor
  · refine chain_linkOnTop (by simpa using h.linked) h.nodup hp (by simpa using h.head) ?_
    intro q hq
    rw [(sameData_updateTail fs p).nextPtr]
    rcases List.mem_append.mp hq with hq | hq
    · exact h.alloc q hq
    · rw [List.mem_singleton.mp hq]; exact ha
  · rw [tail_linkOnTop]
    cases ps with
    | nil => simp_all [updateTail, setTail]
    | cons x xs =>
      have hx : x ≠ p := by rintro rfl; simp at hp
      simp only [List.head?_cons] at ht
      simp [updateTail, ht, hx]

end FileSystem
end StorageServer.Server
