import StorageServer.Common.HuffmanEncoding
import StorageServer.Library.TwoQueues

/-! The trees in the array are merged with two queues. -/
namespace StorageServer.Common
open Library

/-- What lies at an index: a byte that gets a code, or the indexes of two trees. -/
def cellAt (dictionary : List HuffDictEntry) (tree : List HuffTreeEntry) (i : ℤ) :
    Option (Cell ℤ UInt8) := do
  let node ← entryAt tree i
  if node.left = -1 ∧ node.right = -1 then
    let leaf ← dictionary[i.toNat]?
    return .inl leaf.chr
  else return .inr (node.left, node.right)

/-- The cells that have been filled. -/
def filledCell (dictionary : List HuffDictEntry) (tree : List HuffTreeEntry) (filled : ℕ) (i : ℤ) :
    Option (Cell ℤ UInt8) :=
  if i < filled then cellAt dictionary tree i else none

/-- An entry of the dictionary as a tree. -/
def HuffDictEntry.single (e : HuffDictEntry) : ℤ × CodeTree UInt8 := (e.freq, .leaf e.chr)

section
variable {dictionary : List HuffDictEntry} {tree : List HuffTreeEntry} {first0 filled i : ℕ}
  {x y : ℤ × CodeTree UInt8}

theorem entryAt_natCast (tree : List HuffTreeEntry) (i : ℕ) : entryAt tree i = tree[i]? := by
  rw [entryAt, if_neg (by omega), Int.toNat_natCast]

theorem cellAt_node {e : HuffTreeEntry} {i : ℤ} (h : entryAt tree i = some e)
    (hne : ¬ (e.left = -1 ∧ e.right = -1)) :
    cellAt dictionary tree i = some (.inr (e.left, e.right)) := by
  unfold cellAt
  rw [h, Option.bind_eq_bind, Option.bind_some, if_neg hne]
  rfl

theorem cellAt_leaf {e : HuffTreeEntry} {d : HuffDictEntry} {i : ℤ} (h : entryAt tree i = some e)
    (hnone : e.left = -1 ∧ e.right = -1) (hd : dictionary[i.toNat]? = some d) :
    cellAt dictionary tree i = some (.inl d.chr) := by
  unfold cellAt
  rw [h, Option.bind_eq_bind, Option.bind_some, if_pos hnone, hd]
  rfl

/-- A tree with its weight lies at an index. -/
structure LiesAt (dictionary : List HuffDictEntry) (tree : List HuffTreeEntry) (filled i : ℕ)
    (x : ℤ × CodeTree UInt8) : Prop where
  val : ∃ e, tree[i]? = some e ∧ e.val = x.1
  spells : Spells (filledCell dictionary tree filled) i x.2

theorem LiesAt.lt (h : LiesAt dictionary tree filled i x) : i < filled := by
  have hcell : ∃ c, filledCell dictionary tree filled i = some c := by
    have hspells := h.spells
    generalize x.2 = t at hspells
    cases t with
    | leaf a => exact ⟨_, hspells⟩
    | node l r =>
      obtain ⟨li, ri, hc, -⟩ := hspells
      exact ⟨_, hc⟩
  obtain ⟨c, hc⟩ := hcell
  unfold filledCell at hc
  split_ifs at hc with hi
  omega

theorem filledCell_set {e : HuffTreeEntry} {i : ℤ} {c : Cell ℤ UInt8}
    (h : filledCell dictionary tree filled i = some c) :
    filledCell dictionary (tree.set filled e) (filled + 1) i = some c := by
  unfold filledCell at h ⊢
  split_ifs at h with hi
  rw [if_pos (by omega)]
  have hset : entryAt (tree.set filled e) i = entryAt tree i := by
    unfold entryAt
    split_ifs with h0
    · rfl
    · exact List.getElem?_set_ne (by omega)
  unfold cellAt at h ⊢
  rwa [hset]

theorem LiesAt.set (h : LiesAt dictionary tree filled i x) (hi : i < filled) (e : HuffTreeEntry) :
    LiesAt dictionary (tree.set filled e) (filled + 1) i x := by
  refine ⟨?_, h.spells.mono fun _ _ => filledCell_set⟩
  rw [List.getElem?_set_ne (by omega)]
  exact h.val

/-- The trees at two indexes are joined at the next free index. -/
theorem LiesAt.join {i j : ℕ} {a b : HuffTreeEntry} (hx : LiesAt dictionary tree filled i x)
    (hy : LiesAt dictionary tree filled j y) (ha : tree[i]? = some a) (hb : tree[j]? = some b)
    (hfilled : filled < tree.length) :
    LiesAt dictionary (tree.set filled ⟨a.val + b.val, i, j⟩) (filled + 1) filled
      (TwoQueues.join x y) := by
  obtain ⟨a', ha', hax⟩ := hx.val
  obtain ⟨b', hb', hby⟩ := hy.val
  obtain rfl : a = a' := Option.some.inj (ha.symm.trans ha')
  obtain rfl : b = b' := Option.some.inj (hb.symm.trans hb')
  have hget : (tree.set filled ⟨a.val + b.val, i, j⟩)[filled]? = some ⟨a.val + b.val, i, j⟩ :=
    List.getElem?_set_self hfilled
  refine ⟨⟨_, hget, ?_⟩, i, j, ?_, hx.spells.mono fun _ _ => filledCell_set,
    hy.spells.mono fun _ _ => filledCell_set⟩
  · change a.val + b.val = x.1 + y.1
    rw [hax, hby]
  · rw [filledCell, if_pos (by omega)]
    refine cellAt_node (e := ⟨a.val + b.val, i, j⟩) ?_ (fun h => ?_)
    · rw [entryAt_natCast, hget]
    · have hi : (i : ℤ) = -1 := h.1
      omega

end

namespace Merging
variable {dictionary : List HuffDictEntry} {first0 : ℕ} {m : Merging}
  {q q' : TwoQueues ℤ UInt8} {x : ℤ × CodeTree UInt8} {is : List (ℤ × CodeTree UInt8)}

/-- The condition of the loop. -/
def GoesOn (first0 : ℕ) (m : Merging) : Prop :=
  m.treeIndex < first0 ∨ m.tmpTreeIndexL + 1 < m.tmpTreeIndexR

/-- The indexes of the two trees that are merged next. -/
def minima (first0 : ℕ) (m : Merging) : Option (ℕ × ℕ) := do
  let (min1Index, m) ← m.findMin first0
  let (min2Index, _) ← m.findMin first0
  return (min1Index, min2Index)

/-- The loop ends after `n` rounds, each of which merges two trees that have been filled in. -/
inductive Run (first0 : ℕ) : ℕ → Merging → Merging → Prop
  | stop {m : Merging} (hstop : ¬ m.GoesOn first0) : Run first0 0 m m
  | merge {n i j : ℕ} {m m₁ m₂ : Merging} (hcond : m.GoesOn first0)
      (hmin : m.minima first0 = some (i, j)) (hfilled : i < m.tmpTreeIndexR ∧ j < m.tmpTreeIndexR)
      (hmerge : m.mergeMin first0 = some m₁) (hrest : Run first0 n m₁ m₂) : Run first0 (n + 1) m m₂

/-- Such a run is what the loop does. -/
theorem Run.mergeTrees {n : ℕ} {m' : Merging} (h : Run first0 n m m') {fuel : ℕ}
    (hfuel : n < fuel) : m.mergeTrees first0 fuel = some m' := by
  induction h generalizing fuel with
  | stop hstop =>
    obtain ⟨fuel, rfl⟩ := Nat.exists_eq_add_of_lt hfuel
    exact if_neg hstop
  | @merge n i j m m₁ m₂ hcond _ _ hmerge _ ih =>
    obtain ⟨fuel, rfl⟩ : ∃ k, fuel = k + 1 := ⟨fuel - 1, by omega⟩
    unfold GoesOn at hcond
    unfold Merging.mergeTrees
    rw [if_pos hcond, hmerge]
    exact ih (Nat.lt_of_succ_lt_succ hfuel)

/-- The array with its three indexes stands for two queues. -/
structure Represents (dictionary : List HuffDictEntry) (first0 : ℕ) (m : Merging)
    (q : TwoQueues ℤ UInt8) : Prop where
  codes_le : first0 ≤ dictionary.length
  size : m.tree.length = first0 * 2 - 1
  leaf : ∀ i e, i < first0 → dictionary[i]? = some e → m.tree[i]? = some ⟨e.freq, -1, -1⟩
  singles : q.singles =
    ((dictionary.take first0).drop m.treeIndex).map HuffDictEntry.single
  index_le : m.treeIndex ≤ first0 ∧ first0 ≤ m.tmpTreeIndexL
  filled : m.tmpTreeIndexL + q.merged.length = m.tmpTreeIndexR
  merged : ∀ j x, q.merged[j]? = some x →
    LiesAt dictionary m.tree m.tmpTreeIndexR (m.tmpTreeIndexL + j) x

theorem Represents.length_singles (h : m.Represents dictionary first0 q) :
    q.singles.length = first0 - m.treeIndex := by
  rw [h.singles, List.length_map, List.length_drop, List.length_take, Nat.min_eq_left h.codes_le]

theorem Represents.nextSingle {ls : List (ℤ × CodeTree UInt8)}
    (h : m.Represents dictionary first0 q) (hq : q.singles = x :: ls) :
    m.nextSingle.2.Represents dictionary first0 ⟨ls, q.merged⟩ ∧
      LiesAt dictionary m.tree m.tmpTreeIndexR m.treeIndex x := by
  have hlen := h.length_singles
  rw [hq, List.length_cons] at hlen
  have hlt : m.treeIndex < first0 := by omega
  have htake : m.treeIndex < (dictionary.take first0).length := by
    rw [List.length_take, Nat.min_eq_left h.codes_le]
    exact hlt
  have hs := h.singles
  rw [hq, List.drop_eq_getElem_cons htake, List.map_cons] at hs
  obtain ⟨hx, hls⟩ := List.cons.inj hs
  have hd : dictionary[m.treeIndex]? = some (dictionary.take first0)[m.treeIndex] := by
    rw [← List.getElem?_eq_getElem htake, List.getElem?_take_of_lt hlt]
  have hleaf := h.leaf _ _ hlt hd
  refine ⟨⟨h.codes_le, h.size, h.leaf, hls, ⟨hlt, h.index_le.2⟩, h.filled, h.merged⟩, ?_⟩
  refine ⟨⟨_, hleaf, hx ▸ rfl⟩, ?_⟩
  have hR : (m.treeIndex : ℤ) < m.tmpTreeIndexR := by
    have := h.filled
    have := h.index_le.2
    omega
  rw [hx]
  change filledCell _ _ _ _ = _
  rw [filledCell, if_pos hR]
  exact cellAt_leaf ((entryAt_natCast _ _).trans hleaf) ⟨rfl, rfl⟩ hd

theorem Represents.nextMerged (h : m.Represents dictionary first0 q) (hq : q.merged = x :: is) :
    m.nextMerged.2.Represents dictionary first0 ⟨q.singles, is⟩ ∧
      LiesAt dictionary m.tree m.tmpTreeIndexR m.tmpTreeIndexL x := by
  have hfilled := h.filled
  rw [hq, List.length_cons] at hfilled
  refine ⟨⟨h.codes_le, h.size, h.leaf, h.singles, ⟨h.index_le.1, h.index_le.2.trans ?_⟩, ?_,
    fun j y hy => ?_⟩, ?_⟩
  · exact Nat.le_succ _
  · change m.tmpTreeIndexL + 1 + is.length = m.tmpTreeIndexR
    omega
  · have hj := h.merged (j + 1) y (by rwa [hq])
    change LiesAt _ _ _ (m.tmpTreeIndexL + 1 + j) _
    rwa [Nat.add_assoc, Nat.add_comm 1 j]
  · exact h.merged 0 x (by rw [hq]; rfl)

theorem Represents.findMin (h : m.Represents dictionary first0 q) (hp : q.pop = some (x, q')) :
    ∃ i m', m.findMin first0 = some (i, m') ∧ m'.Represents dictionary first0 q' ∧
      m'.tree = m.tree ∧ m'.tmpTreeIndexR = m.tmpTreeIndexR ∧
      LiesAt dictionary m.tree m.tmpTreeIndexR i x := by
  have hlen := h.length_singles
  have hidx := h.index_le
  have hfilled := h.filled
  obtain ⟨ls, is⟩ := q
  unfold Merging.findMin
  match ls, is, hp with
  | [], i::is, hp =>
    obtain ⟨rfl, rfl⟩ := Prod.mk.inj (Option.some.inj hp)
    obtain ⟨hr, hl⟩ := h.nextMerged rfl
    rw [if_pos (by simp only [List.length_nil] at hlen; omega)]
    exact ⟨_, _, rfl, hr, rfl, rfl, hl⟩
  | l::ls, [], hp =>
    obtain ⟨rfl, rfl⟩ := Prod.mk.inj (Option.some.inj hp)
    obtain ⟨hr, hl⟩ := h.nextSingle rfl
    rw [if_neg (by simp only [List.length_cons] at hlen; omega), if_pos (by simpa using hfilled)]
    exact ⟨_, _, rfl, hr, rfl, rfl, hl⟩
  | l::ls, i::is, hp =>
    obtain ⟨hr, hl⟩ := h.nextSingle rfl
    obtain ⟨hr', hl'⟩ := h.nextMerged rfl
    obtain ⟨e, he, hev⟩ := hl.val
    obtain ⟨e', he', hev'⟩ := hl'.val
    rw [if_neg (by simp only [List.length_cons] at hlen; omega),
      if_neg (by simp only [List.length_cons] at hfilled; omega), he, he']
    change ∃ i m', some (if e.val ≤ e'.val then _ else _) = some (i, m') ∧ _
    rw [hev, hev']
    have hx := Option.some.inj hp
    split_ifs at hx ⊢ with hle
    · obtain ⟨rfl, rfl⟩ := Prod.mk.inj hx
      exact ⟨_, _, rfl, hr, rfl, rfl, hl⟩
    · obtain ⟨rfl, rfl⟩ := Prod.mk.inj hx
      exact ⟨_, _, rfl, hr', rfl, rfl, hl'⟩

theorem Represents.mergeMin (h : m.Represents dictionary first0 q) (hs : q.step = some q')
    (hR : m.tmpTreeIndexR < first0 * 2 - 1) : ∃ i j m', m.minima first0 = some (i, j) ∧
      (i < m.tmpTreeIndexR ∧ j < m.tmpTreeIndexR) ∧ m.mergeMin first0 = some m' ∧
      m'.Represents dictionary first0 q' ∧ m'.tmpTreeIndexR = m.tmpTreeIndexR + 1 := by
  obtain ⟨x, q₁, y, q₂, hx, hy, rfl⟩ := TwoQueues.step_eq_some.mp hs
  obtain ⟨i, m₁, hm₁, h₁, ht₁, hR₁, hlx⟩ := h.findMin hx
  obtain ⟨j, m₂, hm₂, h₂, ht₂, hR₂, hly⟩ := h₁.findMin hy
  rw [ht₁, hR₁] at hly
  have ht : m₂.tree = m.tree := ht₂.trans ht₁
  have hRe : m₂.tmpTreeIndexR = m.tmpTreeIndexR := hR₂.trans hR₁
  obtain ⟨a, ha, -⟩ := hlx.val
  obtain ⟨b, hb, -⟩ := hly.val
  have hlt : m.tmpTreeIndexR < m.tree.length := h.size ▸ hR
  have hjoin := hlx.join hly ha hb hlt
  refine ⟨i, j, { m₂ with
    tree := m.tree.set m.tmpTreeIndexR ⟨a.val + b.val, i, j⟩
    tmpTreeIndexR := m.tmpTreeIndexR + 1 }, ?_, ⟨hlx.lt, hly.lt⟩, ?_, ?_, rfl⟩
  · unfold minima
    rw [hm₁, Option.bind_eq_bind, Option.bind_some]
    dsimp only
    rw [hm₂]
    rfl
  · unfold Merging.mergeMin
    rw [hm₁, Option.bind_eq_bind, Option.bind_some]
    dsimp only
    rw [hm₂, Option.bind_eq_bind, Option.bind_some]
    dsimp only
    rw [ht, hRe, ha, hb]
    simp only [Option.bind_some, if_pos hlt]
    rfl
  · have hidx := h₂.index_le
    have hfilled := h₂.filled
    refine ⟨h.codes_le, List.length_set.trans h.size, fun k e hk he => ?_, h₂.singles,
      h₂.index_le, ?_, fun k z hz => ?_⟩
    · change (m.tree.set m.tmpTreeIndexR _)[k]? = _
      rw [List.getElem?_set_ne (by omega)]
      exact h.leaf k e hk he
    · change m₂.tmpTreeIndexL + (q₂.merged ++ [_]).length = m.tmpTreeIndexR + 1
      rw [List.length_append, List.length_singleton]
      omega
    · change LiesAt dictionary (m.tree.set _ _) (m.tmpTreeIndexR + 1) (m₂.tmpTreeIndexL + k) z
      change (q₂.merged ++ [_])[k]? = some z at hz
      rcases Nat.lt_or_ge k q₂.merged.length with hk | hk
      · rw [List.getElem?_append_left hk] at hz
        have hz' := h₂.merged k z hz
        rw [ht, hRe] at hz'
        exact hz'.set (by omega) _
      · have hk' := (List.getElem?_eq_some_iff.mp hz).1
        rw [List.length_append, List.length_singleton] at hk'
        obtain rfl : k = q₂.merged.length := by omega
        rw [List.getElem?_append_right le_rfl, Nat.sub_self] at hz
        obtain rfl := Option.some.inj hz
        have hlast : m₂.tmpTreeIndexL + q₂.merged.length = m.tmpTreeIndexR := by omega
        rw [hlast]
        exact hjoin

theorem count_eq (q : TwoQueues ℤ UInt8) : q.count = q.singles.length + q.merged.length :=
  List.length_append

/-- The loop goes on as long as there are two trees. -/
theorem Represents.goes_on (h : m.Represents dictionary first0 q)
    (hmore : q.merged ≠ [] ∨ 2 ≤ q.singles.length) :
    m.GoesOn first0 ↔ 2 ≤ q.count := by
  have hlen := h.length_singles
  have hidx := h.index_le
  have hfilled := h.filled
  have hpos : q.merged ≠ [] → 0 < q.merged.length := List.length_pos_iff.mpr
  rw [count_eq, GoesOn]
  constructor
  · rintro (hlt | hlt)
    · rcases hmore with hm | hm
      · have := hpos hm
        omega
      · omega
    · omega
  · intro hc
    rcases hmore with hm | hm <;> omega

/-- The loop ends with a single tree. -/
theorem Represents.run (n : ℕ) (h : m.Represents dictionary first0 q) (hn : q.count = n + 1)
    (hR : m.tmpTreeIndexR + q.count = first0 * 2) (hmore : q.merged ≠ [] ∨ 2 ≤ q.singles.length) :
    ∃ m' x, Run first0 n m m' ∧ TwoQueues.Merges q ⟨[], [x]⟩ ∧
      m'.Represents dictionary first0 ⟨[], [x]⟩ ∧ m'.tmpTreeIndexR + 1 = first0 * 2 := by
  have hcond := h.goes_on hmore
  induction n generalizing m q with
  | zero =>
    have hstop : ¬ m.GoesOn first0 := by rw [hcond]; omega
    have hc := count_eq q
    obtain ⟨ls, is⟩ := q
    match ls, is, hmore with
    | [], [x], _ => exact ⟨m, x, .stop hstop, .refl, h, by rw [← hR, hn]⟩
    | [], _::_::_, _ =>
      simp only [List.length_cons, List.length_nil] at hc
      omega
    | l::ls, i::is, _ =>
      simp only [List.length_cons] at hc
      omega
    | [l], [], hm => simp at hm
    | _::_::_, [], _ =>
      simp only [List.length_cons, List.length_nil] at hc
      omega
  | succ n ih =>
    obtain ⟨q₁, hq₁⟩ := TwoQueues.exists_step (q := q) (by omega)
    have hc₁ := TwoQueues.count_step hq₁
    obtain ⟨i, j, m₁, hmin, hfilled, hm₁, h₁, hR₁⟩ := h.mergeMin hq₁ (by omega)
    have hmore₁ : q₁.merged ≠ [] := by
      obtain ⟨x, _, y, q₂, -, -, rfl⟩ := TwoQueues.step_eq_some.mp hq₁
      exact List.append_ne_nil_of_right_ne_nil _ (List.cons_ne_nil _ _)
    obtain ⟨m', x, hrun, hmerges, hrep⟩ := ih h₁ (by omega) (by omega) (Or.inl hmore₁)
      (h₁.goes_on (Or.inl hmore₁))
    exact ⟨m', x, .merge (hcond.mpr (by omega)) hmin hfilled hm₁ hrun, .head hq₁ hmerges, hrep⟩

/-- The trees at the beginning are those of the bytes. -/
theorem represents_createTrees (beyond : ℤ) (hcodes : first0 ≤ dictionary.length) :
    Represents dictionary first0 ⟨createTrees beyond dictionary first0, 0, first0, first0⟩
      ⟨(dictionary.take first0).map HuffDictEntry.single, []⟩ := by
  refine ⟨hcodes, ?_, fun i e hi he => ?_, rfl, ⟨Nat.zero_le _, le_rfl⟩, rfl,
    fun j x hx => nomatch hx⟩
  · simp [createTrees]
  · simp only [createTrees, List.getElem?_map]
    rw [List.getElem?_range (by omega), Option.map_some, if_pos hi.le, he]
    rfl

end Merging

/-- Step 6: the bytes with a code are merged into one tree. -/
theorem run_createTrees {dictionary : List HuffDictEntry} {first0 : ℕ} (beyond : ℤ)
    (hcodes : first0 ≤ dictionary.length) (h2 : 2 ≤ first0) :
    ∃ m x, Merging.Run first0 (first0 - 1)
        ⟨createTrees beyond dictionary first0, 0, first0, first0⟩ m ∧
      TwoQueues.Merges ⟨(dictionary.take first0).map HuffDictEntry.single, []⟩ ⟨[], [x]⟩ ∧
      Spells (cellAt dictionary m.tree) m.tmpTreeIndexL x.2 ∧
      m.tmpTreeIndexL = 2 * first0 - 2 := by
  have hlen : ((dictionary.take first0).map HuffDictEntry.single).length = first0 := by
    rw [List.length_map, List.length_take, Nat.min_eq_left hcodes]
  have hcount : (⟨(dictionary.take first0).map HuffDictEntry.single, []⟩ :
      TwoQueues ℤ UInt8).count = first0 := by
    rw [Merging.count_eq, hlen]
    rfl
  obtain ⟨m, x, hrun, hmerges, hrep, hR⟩ := (Merging.represents_createTrees beyond hcodes).run
    (first0 - 1) (by omega) (by rw [hcount]; dsimp only; omega) (Or.inr (by rw [hlen]; exact h2))
  refine ⟨m, x, hrun, hmerges, ?_, ?_⟩
  · refine (hrep.merged 0 x rfl).spells.mono fun i c hc => ?_
    unfold filledCell at hc
    split_ifs at hc
    exact hc
  · have hfilled := hrep.filled
    rw [List.length_singleton] at hfilled
    omega

end StorageServer.Common
