import StorageServer.Common.HuffmanTables

/-! The tree is rebuilt from its bits. A tree is linked to its father when it is complete, and the
fathers that are not complete yet lie on a stack. -/
namespace StorageServer.Common
open Library Library.Bits

/-- What the decoder finds at an index: a byte, or the indexes of two trees. -/
def decodedCell (tree : List HuffTreeEntry) (i : ℤ) : Option (Cell ℤ UInt8) := do
  let node ← entryAt tree i
  return if node.val ≠ -1 then .inl (UInt8.ofNat node.val.toNat) else .inr (node.left, node.right)

/-- The cells between two indexes. -/
def cellBetween (tree : List HuffTreeEntry) (lo hi : ℕ) (i : ℤ) : Option (Cell ℤ UInt8) :=
  if lo ≤ i ∧ i < hi then decodedCell tree i else none

/-- A tree that is not linked yet. -/
def blank : HuffTreeEntry := ⟨-1, -1, -1⟩

section
variable {tree tree' : List HuffTreeEntry} {lo hi lo' hi' : ℕ} {i : ℤ} {c : Cell ℤ UInt8}
  {t : CodeTree UInt8}

theorem cellBetween_mono (hlo : lo' ≤ lo) (hhi : hi ≤ hi')
    (hsame : ∀ k, lo ≤ k → k < hi → tree'[k]? = tree[k]?) (i : ℤ) (c : Cell ℤ UInt8)
    (h : cellBetween tree lo hi i = some c) : cellBetween tree' lo' hi' i = some c := by
  unfold cellBetween at h ⊢
  split_ifs at h with hi
  rw [if_pos (by omega), ← h]
  have hentry : entryAt tree' i = entryAt tree i := by
    unfold entryAt
    rw [hsame i.toNat (by omega) (by omega)]
  rw [decodedCell, decodedCell, hentry]

theorem decodedCell_of_between (i : ℤ) (c : Cell ℤ UInt8)
    (h : cellBetween tree lo hi i = some c) : decodedCell tree i = some c := by
  unfold cellBetween at h
  split_ifs at h
  exact h

/-- What a complete tree at an index has changed. -/
structure Rebuilt (i : ℕ) (t : CodeTree UInt8) (tree tree' : List HuffTreeEntry) : Prop where
  same : ∀ k, k < i ∨ i + t.size ≤ k → tree'[k]? = tree[k]?
  spells : Spells (cellBetween tree' i (i + t.size)) i t

theorem rebuilt_leaf {i : ℕ} (a : UInt8) (h : tree[i]? = some blank) :
    Rebuilt i (.leaf a) tree (tree.set i { blank with val := a.toNat }) := by
  have hlt : i < tree.length := (List.getElem?_eq_some_iff.mp h).1
  have hval : (a.toNat : ℤ) ≠ -1 := by omega
  constructor
  · intro k hk
    rw [CodeTree.size] at hk
    exact List.getElem?_set_ne (by omega)
  · change cellBetween _ _ _ _ = _
    rw [CodeTree.size, cellBetween, if_pos (by omega), decodedCell, entryAt_natCast,
      List.getElem?_set_self hlt, Option.bind_eq_bind, Option.bind_some]
    change some (if (a.toNat : ℤ) ≠ -1 then _ else _) = _
    rw [if_pos hval, Int.toNat_natCast, UInt8.ofNat_toNat]

/-- A father is linked to his left child before the right one is read, and to the right one after
that. -/
theorem Rebuilt.node {i : ℕ} {l r : CodeTree UInt8} {tree₁ tree₂ : List HuffTreeEntry}
    {e : HuffTreeEntry} (hl : Rebuilt (i + 1) l tree tree₁)
    (hr : Rebuilt (i + 1 + l.size) r (tree₁.set i e) tree₂) (hi : i < tree₂.length) :
    Rebuilt i (.node l r) tree (tree₂.set i ⟨-1, (i + 1 : ℕ), (i + 1 + l.size : ℕ)⟩) := by
  have hsize : (CodeTree.node l r).size = l.size + r.size + 1 := rfl
  refine ⟨fun k hk => ?_, (i + 1 : ℕ), (i + 1 + l.size : ℕ), ?_, ?_, ?_⟩
  · rw [List.getElem?_set_ne (by omega), hr.same k (by omega), List.getElem?_set_ne (by omega),
      hl.same k (by omega)]
  · rw [cellBetween, if_pos (by omega), decodedCell, entryAt_natCast,
      List.getElem?_set_self hi, Option.bind_eq_bind, Option.bind_some]
    rfl
  · refine hl.spells.mono (cellBetween_mono (by omega) (by omega) fun k hk hk' => ?_)
    rw [List.getElem?_set_ne (by omega), hr.same k (by omega), List.getElem?_set_ne (by omega)]
  · refine hr.spells.mono (cellBetween_mono (by omega) (by omega) fun k hk hk' => ?_)
    exact List.getElem?_set_ne (by omega)

end

/-- Link a complete tree, if it has a father. -/
def link (fathers : List ℕ) (i : ℕ) (tree : List HuffTreeEntry) :
    Option (List ℕ × List HuffTreeEntry) :=
  if fathers.length > 1 then updateFathers fathers i tree else some (fathers, tree)

section
variable {tree : List HuffTreeEntry} {father : ℕ} {e : HuffTreeEntry} (fathers : List ℕ) (i : ℕ)

theorem updateFathers_left (h : tree[father]? = some e) (hl : e.left = -1) :
    updateFathers (father :: fathers) i tree =
      some (father :: fathers, tree.set father { e with left := i }) := by
  rw [updateFathers, h, Option.bind_eq_bind, Option.bind_some, if_pos hl]
  rfl

theorem updateFathers_right (h : tree[father]? = some e) (hl : e.left ≠ -1) (hr : e.right = -1) :
    updateFathers (father :: fathers) i tree =
      link fathers father (tree.set father { e with right := i }) := by
  rw [updateFathers, h, Option.bind_eq_bind, Option.bind_some, if_neg hl, if_pos hr]
  rfl

end

section
variable {data : List UInt8} {done rest : List Bool} {buffer : HuffBuffer}

theorem byteBits_ofNat (n : ℕ) : byteBits (UInt8.ofNat n).toNat = byteBits n := by
  apply List.map_congr_left
  intro i hi
  have h8 : 7 - i < 8 := by omega
  rw [UInt8.toNat_ofNat', Nat.testBit_mod_two_pow, decide_eq_true h8, Bool.true_and]

/-- Reading the bits of a tree puts it at the next free index and links it. -/
theorem readTrees_spells (t : CodeTree UInt8) (n i : ℕ) (fathers : List ℕ)
    (tree : List HuffTreeEntry) (hr : buffer.Reads data done (HuffCode.treeBits t ++ rest))
    (hblank : ∀ k, i ≤ k → k < i + t.size → tree[k]? = some blank)
    (hroot : 2 ≤ fathers.length ∨ 2 ≤ t.leaves.length) (hpos : 1 ≤ fathers.length)
    (hdepth : fathers.length + t.height ≤ 256) : ∃ tree' buffer',
      readTrees (t.size + n) i fathers tree buffer =
        (link fathers i tree').bind (fun r => readTrees n (i + t.size) r.1 r.2 buffer') ∧
      buffer'.Reads data (done ++ HuffCode.treeBits t) rest ∧ Rebuilt i t tree tree' := by
  induction t generalizing n i fathers tree buffer done rest with
  | leaf a =>
    obtain ⟨buffer₁, h1, hr₁⟩ := hr.readBit
    obtain ⟨buffer₂, h2, hr₂⟩ := hr₁.readByte
    have hget := hblank i le_rfl (Nat.lt_succ_self i)
    have hlink : fathers.length > 1 := hroot.resolve_right (by decide : ¬ 2 ≤ 1)
    refine ⟨tree.set i { blank with val := a.toNat }, buffer₂, ?_, ?_, rebuilt_leaf a hget⟩
    · rw [CodeTree.size, Nat.add_comm 1 n, readTrees, h1]
      dsimp only
      rw [if_pos rfl, h2]
      dsimp only
      rw [hget, Option.bind_eq_bind, Option.bind_some, link, if_pos hlink]
      rfl
    · rw [List.append_assoc] at hr₂
      exact hr₂
  | node l r ihl ihr =>
    simp only [CodeTree.height] at hdepth
    have hbits : HuffCode.treeBits (.node l r) ++ rest =
        false :: (HuffCode.treeBits l ++ (HuffCode.treeBits r ++ rest)) :=
      congrArg (false :: ·) (List.append_assoc _ _ _)
    rw [hbits] at hr
    obtain ⟨buffer₁, h1, hr₁⟩ := hr.readBit
    have hsize : (CodeTree.node l r).size = l.size + r.size + 1 := rfl
    have hpush : (i :: fathers).length = fathers.length + 1 := List.length_cons
    -- the left child
    obtain ⟨tree₁, buffer₂, hl, hr₂, hl'⟩ := ihl (r.size + n) (i + 1) (i :: fathers) tree hr₁
      (fun k hk hk' => hblank k (by omega) (by omega)) (Or.inl (by omega)) (by omega) (by omega)
    have hi₁ : tree₁[i]? = some blank := by
      rw [hl'.same i (by omega)]
      exact hblank i le_rfl (by omega)
    have hlt : i < tree₁.length := (List.getElem?_eq_some_iff.mp hi₁).1
    have hlink₁ := updateFathers_left fathers (i + 1) hi₁ rfl
    -- the right child
    obtain ⟨tree₂, buffer₃, hr, hr₃, hr'⟩ := ihr n (i + 1 + l.size) (i :: fathers)
      (tree₁.set i { blank with left := (i + 1 : ℕ) }) hr₂ (fun k hk hk' => by
        rw [List.getElem?_set_ne (by omega), hl'.same k (by omega)]
        exact hblank k (by omega) (by omega))
      (Or.inl (by omega)) (by omega) (by omega)
    have hi₂ : tree₂[i]? = some { blank with left := (i + 1 : ℕ) } := by
      rw [hr'.same i (by omega)]
      exact List.getElem?_set_self hlt
    have hlt₂ : i < tree₂.length := (List.getElem?_eq_some_iff.mp hi₂).1
    have hne : ((i + 1 : ℕ) : ℤ) ≠ -1 := by omega
    have hlink₂ := updateFathers_right fathers (i + 1 + l.size) hi₂ hne rfl
    refine ⟨tree₂.set i ⟨-1, (i + 1 : ℕ), (i + 1 + l.size : ℕ)⟩, buffer₃, ?_, ?_,
      hl'.node hr' hlt₂⟩
    · have hfuel : (CodeTree.node l r).size + n = l.size + (r.size + n) + 1 := by omega
      have hend : i + (CodeTree.node l r).size = i + 1 + l.size + r.size := by omega
      have hfull : fathers.length < 256 := by omega
      rw [hfuel, readTrees, h1]
      dsimp only
      rw [if_neg Bool.false_ne_true, if_pos hfull, hl, link, if_pos (by omega), hlink₁,
        Option.bind_some, hr, link, if_pos (by omega), hlink₂, hend]
      rfl
    · rw [List.append_assoc, List.append_assoc] at hr₃
      exact hr₃

/-- The loop rebuilds the whole tree from the first index on. -/
theorem readTrees_root (t : CodeTree UInt8) (h2 : 2 ≤ t.leaves.length)
    (h256 : t.leaves.length ≤ 256) (hr : buffer.Reads data done (HuffCode.treeBits t ++ rest)) :
    ∃ tree buffer', readTrees (t.leaves.length * 2 - 1) 0 [0]
        (List.replicate (t.leaves.length * 2) blank) buffer = some (tree, buffer') ∧
      buffer'.Reads data (done ++ HuffCode.treeBits t) rest ∧ Spells (decodedCell tree) 0 t := by
  have hsize := t.size_eq
  have hheight := t.height_lt_length_leaves
  have hfuel : t.leaves.length * 2 - 1 = t.size + 0 := by omega
  obtain ⟨tree, buffer', htree, hr', hreb⟩ := readTrees_spells t 0 0 [0]
    (List.replicate (t.leaves.length * 2) blank) hr
    (fun k _ hk => List.getElem?_replicate_of_lt (by omega)) (Or.inr h2) le_rfl
    (by rw [List.length_singleton]; omega)
  refine ⟨tree, buffer', ?_, hr', hreb.spells.mono decodedCell_of_between⟩
  rw [hfuel, htree]
  rfl

end
end StorageServer.Common
