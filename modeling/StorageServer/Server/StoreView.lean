import StorageServer.Server.Shape

/-! The store that a well-shaped pointer structure stands for, and what touching, changing and
inserting an entry does to it. -/
namespace StorageServer.Server
open Common Library.DoublyLinked Library.KeyedList

namespace FileSystem
variable {fs fs' : FileSystem} {ps xs ys : List Ptr} {p : Ptr} {k : ℕ}

/-! ### Reading the store off the structure -/

theorem Chain.length_le (h : Chain fs ps) : ps.length ≤ fs.nextPtr := by
  have hs : ps ⊆ List.range fs.nextPtr := fun p hp => List.mem_range.mpr (h.alloc p hp)
  simpa using (h.nodup.subperm hs).length_le

theorem Shape.wf (h : Shape fs ps) : fs.WF := ⟨ps, h⟩

theorem Shape.walk_nex (h : Shape fs ps) : walk fs.nexOf fs.nextPtr fs.gCache.tail = ps := by
  rw [h.tail, walk_of_visits h.linked.visits_nex, List.take_of_length_le h.length_le]

theorem Shape.view_eq (h : Shape fs ps) :
    fs.view = { fs.view with entries := ps.map fs.entryView } := by
  simp only [view, h.walk_nex]

theorem Shape.entries (h : Shape fs ps) : fs.view.entries = ps.map fs.entryView := by
  rw [h.view_eq]

theorem view_key (fs : FileSystem) (p : Ptr) :
    fs.view.key (fs.entryView p) = fs.getKey (fs.memory p).file := rfl

theorem view_keyOf (fs : FileSystem) (file : FSFile) :
    fs.view.keyOf file.name = fs.getKey file := rfl

theorem Shape.key_unique (h : Shape fs ps) {q : Ptr} (hk : fs.gHashmap k = some p) (hq : q ∈ ps)
    (hkq : fs.getKey (fs.memory q).file = k) : q = p := by
  have hq' := (h.table k q).mpr ⟨hq, hkq⟩
  exact Option.some.inj (hq'.symm.trans hk)

theorem Shape.distinct (h : Shape fs ps) : Distinct fs.view.key fs.view.entries := by
  rw [Distinct, h.entries, List.map_map]
  refine List.Nodup.map_on (fun p hp q hq hpq => ?_) h.nodup
  rw [Function.comp_apply, Function.comp_apply, view_key, view_key] at hpq
  exact h.key_unique ((h.table _ q).mpr ⟨hq, rfl⟩) hp hpq

theorem Shape.find (h : Shape fs ps) (k : ℕ) :
    fs.view.find k = (fs.gHashmap k).map fs.entryView := by
  cases hk : fs.gHashmap k with
  | none =>
    refine lookup_eq_none.mpr ?_
    rw [h.entries]
    simp only [List.mem_map]
    rintro _ ⟨q, hq, rfl⟩ hkq
    have := (h.table k q).mpr ⟨hq, hkq⟩
    rw [hk] at this
    contradiction
  | some p =>
    obtain ⟨hp, hkp⟩ := (h.table k p).mp hk
    refine h.distinct.lookup_eq_some.mpr ⟨?_, hkp⟩
    rw [h.entries]
    exact List.mem_map_of_mem hp

/-- A stored entry splits the list, and the rest of the list is stored under other keys. -/
theorem Shape.split (h : Shape fs ps) (hk : fs.gHashmap k = some p) :
    ∃ xs ys, ps = xs ++ p :: ys ∧
      without fs.view.key k fs.view.entries = (xs ++ ys).map fs.entryView := by
  obtain ⟨hp, hkp⟩ := (h.table k p).mp hk
  obtain ⟨xs, ys, rfl⟩ := List.append_of_mem hp
  refine ⟨xs, ys, rfl, ?_⟩
  have hpn := h.nodup_erase.2
  have hsplit : fs.view.entries =
      xs.map fs.entryView ++ fs.entryView p :: ys.map fs.entryView := by
    rw [h.entries, List.map_append, List.map_cons]
  have hd := h.distinct
  rw [hsplit] at hd
  rw [hsplit, hd.without_split hkp, List.map_append]

theorem Shape.without_of_none (h : Shape fs ps) (hk : fs.gHashmap k = none) :
    without fs.view.key k fs.view.entries = ps.map fs.entryView := by
  have hf := h.find k
  rw [hk] at hf
  rw [without_of_lookup_none hf, h.entries]

theorem SameData.view (h : SameData fs fs') :
    fs'.view = { fs.view with
      entries := (walk fs'.nexOf fs.nextPtr fs'.gCache.tail).map fs.entryView } := by
  have he : fs'.entryView = fs.entryView := funext h.entry
  simp only [FileSystem.view, h.config, h.nextPtr, h.slotUsed, h.slotMax, h.bytesUsed, h.bytesMax,
    he]

/-! ### Touching an entry -/

theorem entryView_modifyEntry (fs : FileSystem) (p : Ptr) (f : FSCacheEntry → FSCacheEntry) :
    (fs.modifyEntry p f).entryView = Function.update fs.entryView p (f (fs.memory p)).view := by
  funext q
  by_cases hq : q = p
  · subst q; simp [entryView, modifyEntry_memory]
  · simp [entryView, modifyEntry_memory, Function.update_of_ne hq]

/-- Changing what an entry says, under the same key and with the same links. -/
theorem Shape.modifyEntry (h : Shape fs ps) (hk : fs.gHashmap k = some p)
    {f : FSCacheEntry → FSCacheEntry} (hn : (f (fs.memory p)).nex = (fs.memory p).nex)
    (hp : (f (fs.memory p)).pre = (fs.memory p).pre)
    (hf : fs.getKey (f (fs.memory p)).file = k) : Shape (fs.modifyEntry p f) ps where
  nodup := h.nodup
  linked := by
    rw [nexOf_modifyEntry, preOf_modifyEntry, hn, hp]
    change Linked (Function.update fs.nexOf p (fs.nexOf p))
      (Function.update fs.preOf p (fs.preOf p)) _ _ _
    rw [Function.update_eq_self, Function.update_eq_self]
    exact h.linked
  head := h.head
  alloc := h.alloc
  tail := h.tail
  table k' q := by
    by_cases hq : q = p
    · subst q
      have hkp := (h.table k p).mp hk
      simp only [modifyEntry_gHashmap, modifyEntry_memory, Function.update_self]
      rw [h.table k' p]
      change _ ∧ _ ↔ _ ∧ fs.getKey (f (fs.memory p)).file = k'
      rw [hf, hkp.2]
    · simp only [modifyEntry_gHashmap, modifyEntry_memory, Function.update_of_ne hq]
      exact h.table k' q

theorem Shape.moveToTop (h : Shape fs (xs ++ p :: ys)) :
    Shape (fs.moveToTop p) (xs ++ ys ++ [p]) := by
  obtain ⟨hc, ht⟩ := h.toChain.moveToTop h.tail
  refine ⟨hc, ht, (sameData_moveToTop fs p).table fun k q => ?_⟩
  rw [h.table k q]
  simp only [List.mem_append, List.mem_cons, List.not_mem_nil, or_false]
  tauto

theorem Shape.view_moveToTop (h : Shape fs (xs ++ p :: ys)) :
    (fs.moveToTop p).view =
      { fs.view with entries := (xs ++ ys).map fs.entryView ++ [fs.entryView p] } := by
  have hs := sameData_moveToTop fs p
  have hw := h.moveToTop.walk_nex
  rw [hs.nextPtr] at hw
  rw [hs.view, hw]
  simp

/-- Touching a stored entry, possibly changed, puts it on top of the store. -/
theorem Shape.touch (h : Shape fs ps) (hk : fs.gHashmap k = some p)
    {f : FSCacheEntry → FSCacheEntry} (hn : (f (fs.memory p)).nex = (fs.memory p).nex)
    (hp : (f (fs.memory p)).pre = (fs.memory p).pre)
    (hf : fs.getKey (f (fs.memory p)).file = k) :
    ((fs.modifyEntry p f).moveToTop p).WF ∧
      ((fs.modifyEntry p f).moveToTop p).view = fs.view.put (f (fs.memory p)).view := by
  obtain ⟨xs, ys, rfl, ho⟩ := h.split hk
  have hm := h.modifyEntry hk hn hp hf
  refine ⟨⟨_, hm.moveToTop⟩, ?_⟩
  rw [hm.view_moveToTop, entryView_modifyEntry, Function.update_self]
  have hpn := h.nodup_erase.2
  have hmap : (xs ++ ys).map (Function.update fs.entryView p (f (fs.memory p)).view) =
      (xs ++ ys).map fs.entryView := by
    apply List.map_congr_left
    intro q hq
    exact Function.update_of_ne (by rintro rfl; exact hpn hq) _ _
  have hkey : fs.view.key (f (fs.memory p)).view = k := hf
  rw [hmap, Store.put, Library.KeyedList.touch, hkey, ho]
  rfl

/-- Touching a stored entry without a change. -/
theorem Shape.touch_same (h : Shape fs ps) (hk : fs.gHashmap k = some p) :
    (fs.moveToTop p).WF ∧ (fs.moveToTop p).view = fs.view.put (fs.entryView p) := by
  have hid : fs.modifyEntry p id = fs := by simp [FileSystem.modifyEntry]
  have ht := h.touch hk (f := id) rfl rfl ((h.table k p).mp hk).2
  rwa [hid] at ht

/-- Changing an entry where it stands. -/
theorem Shape.replace (h : Shape fs ps) (hk : fs.gHashmap k = some p)
    {f : FSCacheEntry → FSCacheEntry} (hn : (f (fs.memory p)).nex = (fs.memory p).nex)
    (hp : (f (fs.memory p)).pre = (fs.memory p).pre)
    (hf : fs.getKey (f (fs.memory p)).file = k) :
    (fs.modifyEntry p f).WF ∧
      (fs.modifyEntry p f).view = fs.view.replace (f (fs.memory p)).view := by
  have hm := h.modifyEntry hk hn hp hf
  refine ⟨⟨ps, hm⟩, ?_⟩
  have hkey : fs.view.key (f (fs.memory p)).view = k := hf
  have hmap : ps.map (Function.update fs.entryView p (f (fs.memory p)).view) =
      (ps.map fs.entryView).map
        (fun x => if fs.view.key x = k then (f (fs.memory p)).view else x) := by
    rw [List.map_map]
    apply List.map_congr_left
    intro q hq
    rw [Function.comp_apply]
    by_cases hqp : q = p
    · subst q
      have hkq : fs.view.key (fs.entryView p) = k := ((h.table k p).mp hk).2
      rw [Function.update_self, if_pos hkq]
    · have hkq : fs.view.key (fs.entryView q) ≠ k := fun hkq => hqp (h.key_unique hk hq hkq)
      rw [Function.update_of_ne hqp, if_neg hkq]
  rw [hm.view_eq, Store.replace, Library.KeyedList.replace, hkey, h.entries,
    entryView_modifyEntry, hmap]
  rfl

/-- A new entry on top of the list, stored under a free key. -/
theorem Shape.insertNew (h : Shape fs ps) (file : FSFile) (owner : ℤ)
    (hk : fs.gHashmap (fs.getKey file) = none) :
    ((((fs.createEmptyCacheEntry file owner).setValueForKey (fs.getKey file)
      (some fs.nextPtr)).moveToTop fs.nextPtr)).WF ∧
    ((((fs.createEmptyCacheEntry file owner).setValueForKey (fs.getKey file)
      (some fs.nextPtr)).moveToTop fs.nextPtr)).view = fs.view.put ⟨owner, file, false, []⟩ := by
  set fs₁ := (fs.createEmptyCacheEntry file owner).setValueForKey (fs.getKey file)
    (some fs.nextPtr) with hfs₁
  have hnew : fs.nextPtr ∉ ps := fun hm => lt_irrefl _ (h.alloc _ hm)
  have hmem : ∀ q ∈ ps, fs₁.memory q = fs.memory q :=
    fun q hq => Function.update_of_ne (by rintro rfl; exact hnew hq) _ _
  have hself : fs₁.memory fs.nextPtr = ⟨owner, file, false, emptyLockQueue, none, none⟩ :=
    Function.update_self _ _ _
  have hc : Chain fs₁ ps := by
    refine ⟨h.nodup, h.linked.congr ?_ ?_, h.head, fun q hq => Nat.lt_succ_of_lt (h.alloc q hq)⟩
    · exact fun q hq => congrArg FSCacheEntry.nex (hmem q hq)
    · exact fun q hq => congrArg FSCacheEntry.pre (hmem q hq)
  have ht : Table fs₁ (ps ++ [fs.nextPtr]) := by
    intro k q
    have hkey : ∀ q, fs₁.getKey (fs₁.memory q).file = fs.getKey (fs₁.memory q).file :=
      fun _ => rfl
    rw [hkey, List.mem_append, List.mem_singleton]
    change Function.update fs.gHashmap (fs.getKey file) (some fs.nextPtr) k = some q ↔ _
    by_cases hkk : k = fs.getKey file
    · subst k
      rw [Function.update_self, Option.some.injEq]
      constructor
      · rintro rfl
        exact ⟨Or.inr rfl, by rw [hself]⟩
      · rintro ⟨hq | rfl, hkq⟩
        · rw [hmem q hq] at hkq
          have := (h.table _ q).mpr ⟨hq, hkq⟩
          rw [hk] at this
          contradiction
        · rfl
    · rw [Function.update_of_ne hkk, h.table k q]
      constructor
      · rintro ⟨hq, hkq⟩
        exact ⟨Or.inl hq, by rw [hmem q hq]; exact hkq⟩
      · rintro ⟨hq | rfl, hkq⟩
        · exact ⟨hq, by rw [← hmem q hq]; exact hkq⟩
        · rw [hself] at hkq
          exact absurd hkq.symm hkk
  have hs := sameData_moveToTop fs₁ fs.nextPtr
  obtain ⟨hc', ht'⟩ := hc.moveToTop_new h.tail hnew (Nat.lt_succ_self _)
    (by rw [nexOf, hself]) (by rw [preOf, hself])
  have hshape : Shape (fs₁.moveToTop fs.nextPtr) (ps ++ [fs.nextPtr]) := ⟨hc', ht', hs.table ht⟩
  refine ⟨⟨_, hshape⟩, ?_⟩
  have hw := hshape.walk_nex
  rw [hs.nextPtr] at hw
  have hmap : ps.map fs₁.entryView = ps.map fs.entryView :=
    List.map_congr_left fun q hq => congrArg FSCacheEntry.view (hmem q hq)
  have hv : fs₁.entryView fs.nextPtr = ⟨owner, file, false, []⟩ := by rw [entryView, hself]; rfl
  have hko : fs.view.key ⟨owner, file, false, []⟩ = fs.getKey file := rfl
  rw [hs.view, hw, List.map_append, hmap, List.map_singleton, hv, Store.put,
    Library.KeyedList.touch, hko,
    h.without_of_none hk]
  rfl

/-- The two ends after an entry has been taken out. -/
theorem Shape.takeOut_eq (h : Shape fs (xs ++ p :: ys)) (k : ℕ) :
    fs.takeOut k p = (((fs.setValueForKey k none).linkNeighbours p).setHead
      (xs ++ ys).getLast?).setTail (xs ++ ys).head? := by
  have hne : ∀ l : Option Ptr, (∀ q ∈ l, q ∈ xs ++ ys) → l ≠ some p :=
    fun l hl he => h.nodup_erase.2 (hl p he)
  set fs₁ := (fs.setValueForKey k none).linkNeighbours p with hfs₁
  have hpre : (fs₁.memory p).pre = xs.getLast? := by
    change fs₁.preOf p = _
    rw [hfs₁, preOf_linkNeighbours, setLink_of_ne]
    · exact h.link_pre
    · change fs.nexOf p ≠ some p
      rw [h.link_nex]
      exact hne _ fun q hq => List.mem_append_right _ (List.mem_of_mem_head? hq)
  have hnex : ∀ v, ((fs₁.setHead v).memory p).nex = ys.head? := by
    intro v
    change fs₁.nexOf p = _
    rw [hfs₁, nexOf_linkNeighbours, setLink_of_ne]
    · exact h.link_nex
    · change fs.preOf p ≠ some p
      rw [h.link_pre]
      exact hne _ fun q hq => List.mem_append_left _ (List.mem_of_getLast? hq)
  have hg : fs₁.gCache = fs.gCache := gCache_linkNeighbours _ p
  have hhead : (if fs₁.gCache.head = some p then fs₁.setHead (fs₁.memory p).pre else fs₁) =
      fs₁.setHead (xs ++ ys).getLast? := by
    split_ifs with hh
    · rw [hg, h.head_eq_iff] at hh
      rw [hpre, hh, List.append_nil]
    · rw [hg, h.head_eq_iff] at hh
      obtain ⟨zs, z, rfl⟩ := (List.eq_nil_or_concat ys).resolve_left hh
      have : fs₁.gCache.head = (xs ++ zs.concat z).getLast? := by
        rw [hg, h.head]
        simp [List.getLast?_append, List.getLast?_cons]
      rw [← this]
      rfl
  unfold FileSystem.takeOut
  dsimp only
  rw [← hfs₁, hhead]
  have ht : (fs₁.setHead (xs ++ ys).getLast?).gCache.tail = (xs ++ p :: ys).head? := by
    rw [← h.tail, ← hg]
    rfl
  rw [hnex, ht]
  cases xs with
  | nil => rw [List.nil_append, List.head?_cons, if_pos rfl, List.nil_append]
  | cons x xs =>
    have hx : x ≠ p := by rintro rfl; exact h.nodup_erase.2 (by simp)
    rw [List.cons_append, List.head?_cons, if_neg (fun he => hx (Option.some.inj he)),
      List.cons_append, List.head?_cons]
    rw [List.cons_append, List.cons_append, List.head?_cons] at ht
    rw [← ht]
    rfl

/-- Taking a stored entry out of the table, of the list and off its two ends. -/
theorem Shape.takeOut (h : Shape fs ps) (hk : fs.gHashmap k = some p) :
    (fs.takeOut k p).WF ∧ (fs.takeOut k p).view = fs.view.erase k ∧
      (fs.takeOut k p).entryView = fs.entryView := by
  obtain ⟨xs, ys, rfl, ho⟩ := h.split hk
  have hp := h.nodup_erase.2
  have hs := sameData_linkNeighbours (fs.setValueForKey k none) p
  have ht : Table (fs.setValueForKey k none) (xs ++ ys) := by
    intro k' q
    change Function.update fs.gHashmap k none k' = some q ↔
      q ∈ xs ++ ys ∧ fs.getKey (fs.memory q).file = k'
    by_cases hkk : k' = k
    · subst k'
      rw [Function.update_self]
      refine ⟨by simp, fun ⟨hq, hkq⟩ => ?_⟩
      have hq' : q ∈ xs ++ p :: ys := by
        simp only [List.mem_append, List.mem_cons] at hq ⊢
        tauto
      exact absurd (h.key_unique hk hq' hkq ▸ hq) hp
    · rw [Function.update_of_ne hkk, h.table k' q]
      refine and_congr_left fun hkq => ?_
      have hqp : q ≠ p := by
        rintro rfl
        exact hkk (hkq.symm.trans ((h.table k q).mp hk).2)
      simp [hqp]
  have hl : Linked ((fs.setValueForKey k none).linkNeighbours p).nexOf
      ((fs.setValueForKey k none).linkNeighbours p).preOf none (xs ++ ys) none :=
    have hc : Chain (fs.setValueForKey k none) (xs ++ p :: ys) :=
      ⟨h.nodup, h.linked, h.head, h.alloc⟩
    hc.linkNeighbours
  have hshape : Shape (fs.takeOut k p) (xs ++ ys) := by
    rw [h.takeOut_eq]
    refine ⟨⟨h.nodup_erase.1, hl, rfl, fun q hq => ?_⟩, rfl, hs.table ht⟩
    change q < ((fs.setValueForKey k none).linkNeighbours p).nextPtr
    rw [hs.nextPtr]
    apply h.alloc
    simp only [List.mem_append, List.mem_cons] at hq ⊢
    tauto
  have he : (fs.takeOut k p).entryView = fs.entryView := by
    rw [h.takeOut_eq]
    exact funext hs.entry
  refine ⟨hshape.wf, ?_, he⟩
  rw [hshape.view_eq, he, Store.erase, ho, h.takeOut_eq]
  have h1 := hs.config
  have h2 := gCache_linkNeighbours (fs.setValueForKey k none) p
  simp only [FileSystem.view, setHead, setTail, h1, h2]
  rfl

end FileSystem
end StorageServer.Server
