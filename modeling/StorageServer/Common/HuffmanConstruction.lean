import StorageServer.Common.HuffmanCompression

/-! The construction of a code, step by step: the indexes that are used on the way, and the tree and
the code words that come out. What the language leaves undefined is `none`. -/
namespace StorageServer.Common
open Library Library.Bits

/-! ### Steps 2 to 6 -/

/-- A loop over a stream with a counter of type `int`, which must not overflow. -/
def foldCounting {β : Type*} (f : β → UInt8 → β) : ℕ → β → List UInt8 → Option β
  | _, s, [] => some s
  | i, s, b::data => if i < 2^31 - 1 then foldCounting f (i + 1) (f s b) data else none

/-- Steps 1 and 2: how often every byte occurs. -/
def countData (data : List UInt8) : Option (List HuffDictEntry) :=
  foldCounting
    (fun dictionary b => dictionary.modify b.toNat fun e => { e with freq := e.freq + 1 })
    0 ((List.range 256).map fun i => { freq := 0, chr := UInt8.ofNat i }) data

/-- Step 5, which reads the dictionary up to the index `first0`. -/
def initTrees (dictionary : List HuffDictEntry) (first0 : ℕ) : Option (List HuffTreeEntry) :=
  (List.range (first0 * 2 - 1)).mapM fun i => do
    let val ← if i ≤ first0 then dictionary[i]?.map (·.freq) else some 0
    return ⟨val, -1, -1⟩

/-- A leaf with its index as its label, or the indexes of two trees. -/
def indexAt (tree : List HuffTreeEntry) (i : ℤ) : Option (Cell ℤ ℕ) := do
  let node ← entryAt tree i
  if node.left = -1 ∧ node.right = -1 then return .inl i.toNat
  else return .inr (node.left, node.right)

/-- The trees of a dictionary are created and merged inside of their arrays, after one round less
than there are leaves. The last entry is the root of a tree in which every leaf occurs once. -/
structure WellConstructed (dictionary : List HuffDictEntry) (first0 : ℕ) (tree : List HuffTreeEntry)
    (m : Merging) (t : CodeTree ℕ) : Prop where
  entries : dictionary.length = 256
  created : initTrees dictionary first0 = some tree
  merged : Merging.Run first0 (first0 - 1) ⟨tree, 0, first0, first0⟩ m
  root : m.tmpTreeIndexL = 2 * first0 - 2
  spells : Spells (indexAt m.tree) ((2 * first0 - 2 : ℕ) : ℤ) t
  leaves : t.leaves.Perm (List.range first0)

def Constructs (qsort : Qsort) (data : List UInt8) : Prop :=
  ∃ counts tree m t, countData data = some counts ∧
    WellConstructed (qsort.sort counts) (firstUnused (qsort.sort counts)) tree m t

section
variable {α β : Type*} {f : α → Option β} {g : α → β} {as : List α} {a : α}

theorem mapM_eq_some (h : ∀ a ∈ as, f a = some (g a)) : as.mapM f = some (as.map g) := by
  induction as with
  | nil => rfl
  | cons a as ih =>
    rw [List.mapM_cons, h a List.mem_cons_self, ih fun b hb => h b (List.mem_cons_of_mem a hb)]
    rfl

theorem mapM_eq_none (ha : a ∈ as) (h : f a = none) : as.mapM f = none := by
  induction as with
  | nil => exact nomatch ha
  | cons b as ih =>
    rw [List.mapM_cons]
    rcases List.mem_cons.mp ha with rfl | ha
    · rw [h]
      rfl
    · rw [ih ha]
      cases f b <;> rfl

end

section
variable {data : List UInt8} {dictionary used unused : List HuffDictEntry} {first0 : ℕ}

theorem foldCounting_eq {β : Type*} (f : β → UInt8 → β) (i : ℕ) (s : β) (data : List UInt8)
    (hi : i < 2^31) :
    foldCounting f i s data = if i + data.length < 2^31 then some (data.foldl f s) else none := by
  induction data generalizing i s with
  | nil => exact (if_pos hi).symm
  | cons b data ih =>
    rw [foldCounting, List.length_cons, ← Nat.add_assoc, Nat.add_right_comm]
    by_cases hlt : i < 2^31 - 1
    · rw [if_pos hlt, ih (i + 1) (f s b) (by omega)]
      rfl
    · rw [if_neg hlt, if_neg (by omega)]

theorem countData_eq (data : List UInt8) :
    countData data = if data.length < 2^31 then some (countBytes data) else none := by
  rw [countData, foldCounting_eq _ _ _ _ (by decide), Nat.zero_add]
  rfl

theorem initTrees_eq (beyond : ℤ) (h : first0 < dictionary.length) :
    initTrees dictionary first0 = some (createTrees beyond dictionary first0) := by
  refine mapM_eq_some fun i _ => ?_
  by_cases hi : i ≤ first0
  · simp [hi, List.getElem?_eq_getElem (hi.trans_lt h)]
  · simp [hi]

theorem initTrees_eq_none (h : dictionary.length ≤ first0) (h2 : 2 ≤ first0) :
    initTrees dictionary first0 = none := by
  refine mapM_eq_none (a := first0) (List.mem_range.mpr (by omega)) ?_
  rw [if_pos le_rfl, List.getElem?_eq_none h]
  rfl

/-- A single tree is not left alone. -/
theorem WellConstructed.ne_one {tree : List HuffTreeEntry} {m : Merging} {t : CodeTree ℕ}
    (h : WellConstructed dictionary first0 tree m t) : first0 ≠ 1 := by
  rintro rfl
  cases h.merged with
  | stop hstop => exact hstop (Or.inl Nat.one_pos)

/-- The labels of a list without duplicates, replaced by their positions. -/
theorem map_idxOf_take {chars : List UInt8} (h : chars.Nodup) {n : ℕ} (hn : n ≤ chars.length) :
    (chars.take n).map (chars.idxOf ·) = List.range n := by
  refine List.ext_getElem ?_ fun i hi _ => ?_
  · rw [List.length_map, List.length_take, List.length_range, Nat.min_eq_left hn]
  · rw [List.getElem_map, List.getElem_take, List.getElem_range, h.idxOf_getElem]

theorem spells_indexAt {tree : List HuffTreeEntry} {i : ℤ} {t : CodeTree UInt8}
    (hnodup : (dictionary.map HuffDictEntry.chr).Nodup)
    (h : Spells (cellAt dictionary tree) i t) :
    Spells (indexAt tree) i (t.map ((dictionary.map HuffDictEntry.chr).idxOf ·)) := by
  refine h.map fun i c hc => ?_
  rcases c with a | ⟨li, ri⟩
  · obtain ⟨node, leaf, hn, hnone, hd, rfl⟩ := leaf_of_cellAt hc
    obtain ⟨hlt, hget⟩ := List.getElem?_eq_some_iff.mp hd
    have hidx : (dictionary.map HuffDictEntry.chr).idxOf leaf.chr = i.toNat := by
      have hi := hnodup.idxOf_getElem i.toNat (by rwa [List.length_map])
      rwa [List.getElem_map, hget] at hi
    rw [indexAt, hn, Option.bind_eq_bind, Option.bind_some, if_pos hnone, Sum.map_inl, hidx]
    rfl
  · obtain ⟨node, hn, hnone, rfl, rfl⟩ := node_of_cellAt hc
    rw [indexAt, hn, Option.bind_eq_bind, Option.bind_some, if_neg hnone]
    rfl

namespace SplitDictionary

theorem length_used (h : SplitDictionary data dictionary used unused) :
    used.length = data.dedup.length := by
  rw [← h.used_perm.length_eq, List.length_map]

/-- With at most 254 bytes in use there is an entry behind those with a code. -/
theorem firstUnused_lt_iff (h : SplitDictionary data dictionary used unused) :
    firstUnused dictionary < 256 ↔ data.dedup.length ≤ 254 := by
  have hlen := h.length_eq
  have hused := h.length_used
  rw [h.split, List.length_append] at hlen
  rw [h.firstUnused_eq]
  split_ifs with hun
  · rw [hun, List.length_nil] at hlen
    omega
  · omega

theorem wellConstructed (h : SplitDictionary data dictionary used unused) (hne : data ≠ [])
    (hlt : data.dedup.length ≤ 254) :
    ∃ tree m t, WellConstructed dictionary (firstUnused dictionary) tree m t := by
  have hentries := h.length_eq
  have hlast := h.firstUnused_lt_iff.mpr hlt
  obtain ⟨m, ⟨w, t⟩, hrun, hmerges, hspells, hroot⟩ := run_createTrees 0
    (h.firstUnused_le.trans hentries.ge) (h.two_le_firstUnused hne)
  refine ⟨_, m, t.map ((dictionary.map HuffDictEntry.chr).idxOf ·), {
    entries := hentries
    created := initTrees_eq 0 (hentries ▸ hlast)
    merged := hrun
    root := hroot
    spells := hroot ▸ spells_indexAt h.nodup hspells
    leaves := ?_ }⟩
  have hperm := (HuffCode.leaves_of_merges hmerges).map
    ((dictionary.map HuffDictEntry.chr).idxOf ·)
  rwa [List.map_take, map_idxOf_take h.nodup (by rw [List.length_map]; omega),
    ← CodeTree.leaves_map] at hperm

end SplitDictionary

/-- The creation of the trees stays inside of the dictionary. -/
theorem WellConstructed.length_dedup_le {tree : List HuffTreeEntry} {m : Merging} {t : CodeTree ℕ}
    (h : WellConstructed dictionary (firstUnused dictionary) tree m t) (hne : data ≠ [])
    (hs : SplitDictionary data dictionary used unused) : data.dedup.length ≤ 254 := by
  refine hs.firstUnused_lt_iff.mp ?_
  by_contra hge
  have hnone := initTrees_eq_none (hs.length_eq.le.trans (Nat.not_lt.mp hge))
    (hs.two_le_firstUnused hne)
  exact nomatch hnone.symm.trans h.created

theorem Constructs.length_dedup_le {qsort : Qsort} (h : Constructs qsort data) (hne : data ≠ []) :
    data.length < 2^31 ∧ firstUnused (qsort.sort (countBytes data)) ≠ 1 ∧
      data.dedup.length ≤ 254 := by
  obtain ⟨counts, tree, m, t, hcounts, hw⟩ := h
  rw [countData_eq] at hcounts
  split_ifs at hcounts with hlt
  obtain rfl := Option.some.inj hcounts
  obtain ⟨used, unused, hs⟩ := exists_split qsort hlt hw.ne_one
  exact ⟨hlt, hw.ne_one, hw.length_dedup_le hne hs⟩

/-- The steps 2 to 6 stay inside of their arrays and lead to a full tree with all leaves, however
equal frequencies are sorted, if and only if the bytes can be counted, at most 254 different ones
are in use, and they are not as many equal ones as an `int` can count. -/
theorem constructs_iff (hne : data ≠ []) : (∀ qsort, Constructs qsort data) ↔
    data.length < 2^31 ∧ (∀ b, data ≠ List.replicate (2^31 - 1) b) ∧ data.dedup.length ≤ 254 := by
  constructor
  · intro h
    obtain ⟨hlt, h1, hmany⟩ := (h .unusedFirst).length_dedup_le hne
    refine ⟨hlt, fun b hb => ?_, hmany⟩
    obtain ⟨hlen, hall⟩ := List.eq_replicate_iff.mp hb
    exact h1 (firstUnused_eq_one hall hlen)
  · rintro ⟨hlt, hrep, hmany⟩ qsort
    obtain ⟨used, unused, hs⟩ := exists_split qsort hlt (firstUnused_ne_one qsort hne hlt hrep)
    obtain ⟨tree, m, t, hw⟩ := hs.wellConstructed hne hmany
    exact ⟨countBytes data, tree, m, t, by rw [countData_eq, if_pos hlt], hw⟩

theorem constructs_iff_two : Constructs .unusedFirst [7, 9] :=
  (constructs_iff (by decide : ([7, 9] : List UInt8) ≠ [])).mpr
    ⟨by decide, not_replicate_of_length (by decide), by decide⟩ .unusedFirst

/-- With all bytes in use the dictionary is read behind its end. -/
theorem all_bytes_read_beyond :
    ¬ ∀ data : List UInt8, data ≠ [] → ∀ qsort, Constructs qsort data := by
  intro h
  have hlen : allBytes.length = 256 := by rw [allBytes, List.length_map, List.length_range]
  have hne : allBytes ≠ [] := List.ne_nil_of_length_pos (by omega)
  have hmany := ((h allBytes hne .unusedFirst).length_dedup_le hne).2.2
  rw [nodup_allBytes.dedup] at hmany
  omega

/-! ### Steps 8 and 12 -/

/-- Both walks over the tree stay inside of their stacks, and the codes inside of their arrays. -/
def CodesFit (qsort : Qsort) (beyond : ℤ) (data : List UInt8) : Prop :=
  ∃ code, buildCode qsort beyond data = some code ∧ (∀ b, (code.table b).size ≤ 128) ∧
    ∀ out, (code.writeTree (code.first0 * 2 - 1) [(code.treeRoot : ℤ)] out).isSome

theorem HuffTableEntry.size_push {e e' : HuffTableEntry} {b : Bool} (h : e.push b = some e') :
    e'.size ≤ 128 := by
  unfold HuffTableEntry.push at h
  split_ifs at h with hsize
  obtain rfl := Option.some.inj h
  change e.size + 1 ≤ 128
  omega

theorem pushChild_size {parent : HuffTableEntry} {child : ℤ} {b : Bool}
    {queue queue' : List HuffQueueEntry} (h : pushChild parent child b queue = some queue')
    (hq : ∀ e ∈ queue, e.table.size ≤ 128) : ∀ e ∈ queue', e.table.size ≤ 128 := by
  unfold pushChild at h
  split_ifs at h
  · obtain rfl := Option.some.inj h
    exact hq
  · obtain ⟨table, htable, hqueue⟩ := Option.bind_eq_some_iff.mp h
    obtain rfl := Option.some.inj hqueue
    exact List.forall_mem_cons.mpr ⟨HuffTableEntry.size_push htable, hq⟩

theorem fillTable_size {tree : List HuffTreeEntry} (fuel : ℕ) {queue : List HuffQueueEntry}
    {table table' : UInt8 → HuffTableEntry}
    (h : fillTable dictionary tree fuel queue table = some table')
    (hq : ∀ e ∈ queue, e.table.size ≤ 128) (ht : ∀ b, (table b).size ≤ 128) (b : UInt8) :
    (table' b).size ≤ 128 := by
  induction fuel generalizing queue table with
  | zero =>
    cases queue with
    | nil => exact Option.some.inj h ▸ ht b
    | cons curr queue => exact nomatch h
  | succ fuel ih =>
    cases queue with
    | nil => exact Option.some.inj h ▸ ht b
    | cons curr queue =>
      obtain ⟨hcurr, hqueue⟩ := List.forall_mem_cons.mp hq
      obtain ⟨node, -, h⟩ := Option.bind_eq_some_iff.mp h
      split_ifs at h
      · obtain ⟨leaf, -, h⟩ := Option.bind_eq_some_iff.mp h
        refine ih h hqueue fun c => ?_
        rcases eq_or_ne c leaf.chr with rfl | hc
        · rwa [Function.update_self]
        · rw [Function.update_of_ne hc]
          exact ht c
      · obtain ⟨queue₁, h1, h⟩ := Option.bind_eq_some_iff.mp h
        obtain ⟨queue₂, h2, h⟩ := Option.bind_eq_some_iff.mp h
        exact ih h (pushChild_size h2 (pushChild_size h1 hqueue)) ht

/-- A code that has been built is within its arrays. -/
theorem buildCode_size {qsort : Qsort} {beyond : ℤ} {code : HuffCode}
    (h : buildCode qsort beyond data = some code) (b : UInt8) : (code.table b).size ≤ 128 := by
  obtain ⟨m, -, h⟩ := Option.bind_eq_some_iff.mp h
  obtain ⟨table, htable, h⟩ := Option.bind_eq_some_iff.mp h
  obtain rfl := Option.some.inj h
  exact fillTable_size _ htable (List.forall_mem_singleton.mpr (Nat.zero_le _))
    (fun _ => Nat.zero_le _) b

theorem codesFit_of_built (qsort : Qsort) (beyond : ℤ) (hne : data ≠ [])
    (hlt : data.length < 2^31) (h1 : firstUnused (qsort.sort (countBytes data)) ≠ 1) :
    CodesFit qsort beyond data := by
  obtain ⟨code, t, hcode, hbuilt⟩ := exists_built qsort beyond hne hlt h1
  refine ⟨code, hcode, buildCode_size hcode, fun out => ?_⟩
  rw [hbuilt.writeTree_eq]
  rfl

/-- The codes of a stream shorter than 2^31 bytes fit, however its bytes are sorted, unless it
consists of as many equal bytes as an `int` can count. -/
theorem codesFit_iff (hlt : data.length < 2^31) :
    (data ≠ [] → ∀ qsort beyond, CodesFit qsort beyond data) ↔
      ∀ b, data ≠ List.replicate (2^31 - 1) b := by
  constructor
  · intro h b hb
    have hlen : data.length = 2^31 - 1 := hb ▸ List.length_replicate
    have hne : data ≠ [] := List.ne_nil_of_length_pos (by omega)
    obtain ⟨code, hcode, -⟩ := h hne .unusedFirst 0
    rw [buildCode_replicate hb] at hcode
    exact nomatch hcode
  · intro hrep hne qsort beyond
    exact codesFit_of_built qsort beyond hne hlt (firstUnused_ne_one qsort hne hlt hrep)

theorem codesFit_iff_two : CodesFit .unusedFirst 0 [7, 9] :=
  (codesFit_iff (by decide : ([7, 9] : List UInt8).length < 2^31)).mpr
    (not_replicate_of_length (by decide)) (by decide) .unusedFirst 0

/-- The only byte in use has no tree of its own if it is sorted behind the other ones. -/
theorem many_equal_bytes_without_code : ¬ ∀ data : List UInt8, data.length < 2^31 → data ≠ [] →
    ∀ qsort beyond, CodesFit qsort beyond data := by
  intro h
  obtain ⟨code, hcode, -⟩ := h manyOnes (by rw [length_manyOnes]; decide)
    (List.ne_nil_of_length_pos (by rw [length_manyOnes]; decide)) .unusedFirst 0
  rw [buildCode_replicate (rfl : manyOnes = _)] at hcode
  exact nomatch hcode

end

end StorageServer.Common
