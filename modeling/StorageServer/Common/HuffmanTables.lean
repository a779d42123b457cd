import StorageServer.Common.HuffmanBuffers
import StorageServer.Common.HuffmanMerging

/-! The table of codes and the serialised tree: both are found by a walk over the merged tree with
a stack. -/
namespace StorageServer.Common
open Library Library.Bits

/-! ### Codes in their arrays -/

namespace HuffTableEntry
variable {e : HuffTableEntry} {p : List Bool}

/-- The bit of a code at a position. -/
def bitAt (e : HuffTableEntry) (j : ℕ) (hj : j / 8 < 16) : Bool :=
  checkBit e.code[j / 8].toNat (7 - j % 8)

/-- The entry holds the bits `p`, and zeros behind them. -/
structure Spelled (e : HuffTableEntry) (p : List Bool) : Prop where
  size : e.size = p.length
  bit : ∀ j (hj : j / 8 < 16), e.bitAt j hj = p.getD j false

theorem spelled_empty : empty.Spelled [] := by
  refine ⟨rfl, fun j hj => ?_⟩
  rw [bitAt, checkBit, empty, Vector.getElem_replicate]
  exact Nat.zero_testBit _

theorem Spelled.push (h : e.Spelled p) (hp : p.length < 128) (b : Bool) :
    ∃ e', e.push b = some e' ∧ e'.Spelled (p ++ [b]) := by
  have hsize : e.size / 8 < 16 := by
    have := h.size
    omega
  unfold HuffTableEntry.push
  rw [dif_pos hsize]
  refine ⟨_, rfl, ?_, fun j hj => ?_⟩
  · change e.size + 1 = _
    rw [List.length_append, h.size]
    rfl
  · have hj' := h.bit j hj
    rw [bitAt, checkBit] at hj'
    rw [bitAt, checkBit]
    dsimp only
    rw [Vector.getElem_set]
    have hd : (p ++ [b]).getD j false = (p.getD j false || (b && decide (j = e.size))) := by
      rw [h.size, List.getD_eq_getElem?_getD, List.getD_eq_getElem?_getD]
      rcases lt_trichotomy j p.length with hlt | rfl | hgt
      · rw [List.getElem?_append_left hlt, decide_eq_false hlt.ne, Bool.and_false, Bool.or_false]
      · simp
      · rw [List.getElem?_eq_none (by rwa [List.length_append]), List.getElem?_eq_none hgt.le,
          decide_eq_false hgt.ne', Bool.and_false, Bool.or_false]
    rw [hd, ← hj']
    split_ifs with he
    · have hmod : j % 8 = e.size % 8 ↔ j = e.size := by omega
      simp only [← he]
      rw [testBit_or_bit (Nat.mod_lt _ (by decide)) (Nat.mod_lt _ (by decide))]
      simp only [hmod]
    · have hne : j ≠ e.size := fun heq => he (by rw [heq])
      rw [decide_eq_false hne, Bool.and_false, Bool.or_false]

end HuffTableEntry

/-! ### Walks over the tree -/

section
variable {dictionary : List HuffDictEntry} {tree : List HuffTreeEntry} {i li ri : ℤ} {a : UInt8}
  {t : CodeTree UInt8}

theorem leaf_of_cellAt (h : cellAt dictionary tree i = some (.inl a)) : ∃ node leaf,
    entryAt tree i = some node ∧ (node.left = -1 ∧ node.right = -1) ∧
      dictionary[i.toNat]? = some leaf ∧ leaf.chr = a := by
  unfold cellAt at h
  cases hn : entryAt tree i with
  | none => simp [hn] at h
  | some node =>
    rw [hn, Option.bind_eq_bind, Option.bind_some] at h
    split_ifs at h with hnone
    · cases hd : dictionary[i.toNat]? with
      | none => simp [hd] at h
      | some leaf =>
        rw [hd] at h
        exact ⟨node, leaf, rfl, hnone, rfl, Sum.inl.inj (Option.some.inj h)⟩
    · exact nomatch Option.some.inj h

theorem node_of_cellAt (h : cellAt dictionary tree i = some (.inr (li, ri))) : ∃ node,
    entryAt tree i = some node ∧ ¬ (node.left = -1 ∧ node.right = -1) ∧ node.left = li ∧
      node.right = ri := by
  unfold cellAt at h
  cases hn : entryAt tree i with
  | none => simp [hn] at h
  | some node =>
    rw [hn, Option.bind_eq_bind, Option.bind_some] at h
    split_ifs at h with hnone
    · cases hd : dictionary[i.toNat]? with
      | none => simp [hd] at h
      | some leaf =>
        rw [hd] at h
        exact nomatch Option.some.inj h
    · obtain ⟨hl, hr⟩ := Prod.mk.inj (Sum.inr.inj (Option.some.inj h))
      exact ⟨node, rfl, hnone, hl, hr⟩

/-- No tree lies at the index that stands for none. -/
theorem ne_none_of_spells (h : Spells (cellAt dictionary tree) i t) : i ≠ -1 := by
  rintro rfl
  have hnone : cellAt dictionary tree (-1) = none := by
    rw [cellAt, entryAt, if_pos (by decide)]
    rfl
  cases t with
  | leaf a => exact absurd (hnone.symm.trans h) (Option.some_ne_none _).symm
  | node l r =>
    obtain ⟨_, _, hc, -⟩ := h
    exact absurd (hnone.symm.trans hc) (Option.some_ne_none _).symm

theorem pushChild_spelled {parent : HuffTableEntry} {p : List Bool} (queue : List HuffQueueEntry)
    (b : Bool) (hi : i ≠ -1) (he : parent.Spelled p) (hp : p.length < 128)
    (hq : queue.length < 256) : ∃ e, pushChild parent i b queue = some (⟨i, e⟩ :: queue) ∧
      e.Spelled (p ++ [b]) := by
  obtain ⟨e, hpush, hs⟩ := he.push hp b
  refine ⟨e, ?_, hs⟩
  rw [pushChild, if_neg hi, if_pos hq, hpush]
  rfl

/-- The walk over a tree enters the code of every leaf, and no other. -/
theorem fillTable_spells {p : List Bool} {e : HuffTableEntry} (fuel : ℕ)
    (queue : List HuffQueueEntry) (table : UInt8 → HuffTableEntry)
    (ht : Spells (cellAt dictionary tree) i t) (hnodup : t.leaves.Nodup) (he : e.Spelled p)
    (hp : p.length + t.height ≤ 128) (hq : queue.length + t.leaves.length ≤ 256) : ∃ table',
      fillTable dictionary tree (t.size + fuel) (⟨i, e⟩ :: queue) table =
        fillTable dictionary tree fuel queue table' ∧
      (∀ a c, (a, c) ∈ t.codes → (table' a).Spelled (p ++ c)) ∧
      ∀ a ∉ t.leaves, table' a = table a := by
  induction t generalizing i p e queue fuel table with
  | leaf b =>
    obtain ⟨node, leaf, hn, hnone, hd, rfl⟩ := leaf_of_cellAt ht
    refine ⟨Function.update table leaf.chr e, ?_, fun a c hc => ?_, fun a ha => ?_⟩
    · rw [CodeTree.size, Nat.add_comm, fillTable, hn, Option.bind_eq_bind, Option.bind_some,
        if_pos hnone, hd]
      rfl
    · obtain ⟨rfl, rfl⟩ := Prod.mk.inj (List.mem_singleton.mp hc)
      rwa [Function.update_self, List.append_nil]
    · exact Function.update_of_ne (fun h => ha (List.mem_singleton.mpr h)) _ _
  | node l r ihl ihr =>
    obtain ⟨li, ri, hc, hl, hr⟩ := ht
    obtain ⟨node, hn, hnone, rfl, rfl⟩ := node_of_cellAt hc
    obtain ⟨hnl, hnr, hdisj⟩ := List.nodup_append.mp hnodup
    simp only [CodeTree.height, CodeTree.leaves, List.length_append] at hp hq
    have hpl := l.length_leaves_pos
    have hpr := r.length_leaves_pos
    obtain ⟨el, hpushl, hel⟩ := pushChild_spelled queue true (ne_none_of_spells hl) he (by omega)
      (by omega)
    obtain ⟨er, hpushr, her⟩ := pushChild_spelled (⟨node.left, el⟩ :: queue) false
      (ne_none_of_spells hr) he (by omega) (by rw [List.length_cons]; omega)
    -- the right child lies on the top of the stack
    obtain ⟨table₁, h1, hcodes₁, hother₁⟩ := ihr (l.size + fuel) (⟨node.left, el⟩ :: queue) table
      hr hnr her (by rw [List.length_append, List.length_singleton]; omega)
      (by rw [List.length_cons]; omega)
    obtain ⟨table₂, h2, hcodes₂, hother₂⟩ := ihl fuel queue table₁ hl hnl hel
      (by rw [List.length_append, List.length_singleton]; omega) (by omega)
    refine ⟨table₂, ?_, fun a c hac => ?_, fun a ha => ?_⟩
    · have hsize : (CodeTree.node l r).size + fuel = r.size + (l.size + fuel) + 1 := by
        rw [CodeTree.size]
        omega
      rw [hsize, fillTable, hn, Option.bind_eq_bind, Option.bind_some, if_neg hnone, hpushl,
        Option.bind_eq_bind, Option.bind_some, hpushr, Option.bind_some, h1, h2]
    · rcases CodeTree.mem_codes_node hac with ⟨c, rfl, hc⟩ | ⟨c, rfl, hc⟩
      · have hs := hcodes₂ a c hc
        rwa [List.append_assoc] at hs
      · have hnot : a ∉ l.leaves := fun hal =>
          hdisj a hal a (CodeTree.mem_leaves_of_mem_codes hc) rfl
        have hs := hcodes₁ a c hc
        rw [hother₂ a hnot]
        rwa [List.append_assoc] at hs
    · have ha' : a ∉ l.leaves ∧ a ∉ r.leaves := by
        simpa [CodeTree.leaves] using ha
      rw [hother₂ a ha'.1, hother₁ a ha'.2]

end

namespace HuffCode
variable {code : HuffCode} {i : ℤ} {t : CodeTree UInt8} {b : UInt8} {c : List Bool}

/-- The bits of a serialised tree. -/
def treeBits (t : CodeTree UInt8) : List Bool := t.preorder fun a => byteBits a.toNat

theorem length_treeBits (t : CodeTree UInt8) :
    (treeBits t).length + 1 = 10 * t.leaves.length := by
  have hsize := t.size_eq
  have hword : ∀ a : UInt8, (byteBits a.toNat).length = 8 := fun a => length_byteBits a.toNat
  have hlen := t.length_preorder _ hword
  rw [treeBits, hlen]
  omega

theorem pushIndex_eq (queue : List ℤ) (hi : i ≠ -1) (hq : queue.length < 256) :
    pushIndex i queue = some (i :: queue) := by
  rw [pushIndex, if_neg hi, if_pos hq]

theorem writeTree_spells (fuel : ℕ) (queue : List ℤ) (out : HuffBuffer)
    (ht : Spells (cellAt code.dictionary code.tree) i t)
    (hq : queue.length + t.leaves.length ≤ 256) :
    code.writeTree (t.size + fuel) (i :: queue) out =
      code.writeTree fuel queue (out.writeBits (treeBits t)) := by
  induction t generalizing i fuel queue out with
  | leaf b =>
    obtain ⟨node, leaf, hn, hnone, hd, rfl⟩ := leaf_of_cellAt ht
    have hbits : out.writeBits (treeBits (.leaf leaf.chr)) =
        (out.writeBit true).writeByte leaf.chr.toNat := by
      rw [HuffBuffer.writeByte_eq]
      exact List.foldl_cons
    rw [CodeTree.size, Nat.add_comm, writeTree, hn, Option.bind_eq_bind, Option.bind_some,
      if_pos hnone, hd, Option.bind_eq_bind, Option.bind_some, hbits]
  | node l r ihl ihr =>
    obtain ⟨li, ri, hc, hl, hr⟩ := ht
    obtain ⟨node, hn, hnone, rfl, rfl⟩ := node_of_cellAt hc
    simp only [CodeTree.leaves, List.length_append] at hq
    have hpl := l.length_leaves_pos
    have hpr := r.length_leaves_pos
    have hpushr := pushIndex_eq queue (ne_none_of_spells hr) (by omega)
    have hpushl := pushIndex_eq (node.right :: queue) (ne_none_of_spells hl)
      (by rw [List.length_cons]; omega)
    have hsize : (CodeTree.node l r).size + fuel = l.size + (r.size + fuel) + 1 := by
      rw [CodeTree.size]
      omega
    have hbits : out.writeBits (treeBits (.node l r)) =
        ((out.writeBit false).writeBits (treeBits l)).writeBits (treeBits r) := by
      rw [← HuffBuffer.writeBits_append]
      rfl
    -- the left child lies on the top of the stack
    rw [hsize, writeTree, hn, Option.bind_eq_bind, Option.bind_some, if_neg hnone, hpushr,
      Option.bind_eq_bind, Option.bind_some, hpushl, Option.bind_some,
      ihl (r.size + fuel) (node.right :: queue) _ hl (by rw [List.length_cons]; omega),
      ihr fuel queue _ hr (by omega), hbits]

/-- The code of a byte is written as it is. -/
theorem encodeByte_eq (out : HuffBuffer) (h : (code.table b).Spelled c) (hc : c.length ≤ 128) :
    code.encodeByte out b = some (out.writeBits c) := by
  have hstep : ∀ n ≤ c.length, (List.range n).foldlM (fun out j => do
      let byte ← (code.table b).code[j / 8]?
      return HuffBuffer.writeBit out (checkBit byte.toNat (7 - j % 8))) out =
      some (out.writeBits (c.take n)) := by
    intro n hn
    induction n with
    | zero => rfl
    | succ n ih =>
      have hidx : n / 8 < 16 := by omega
      have hbit := h.bit n hidx
      rw [HuffTableEntry.bitAt, List.getD_eq_getElem _ _ (by omega)] at hbit
      rw [List.range_succ, List.foldlM_append, ih (by omega), Option.bind_eq_bind,
        Option.bind_some, List.foldlM_cons, Vector.getElem?_eq_getElem hidx,
        List.take_succ_eq_append_getElem (by omega), HuffBuffer.writeBits_append, ← hbit]
      rfl
  have hn := hstep c.length le_rfl
  rw [List.take_length] at hn
  rw [encodeByte, h.size, hn]

end HuffCode
end StorageServer.Common
