import StorageServer.Common.HuffmanCompression
import StorageServer.Common.HuffmanRebuilding

/-! Decoding: a walk down the rebuilt tree for every bit. The three loops together read exactly the
bits of the content. -/
namespace StorageServer.Common
open Library Library.Bits

namespace HuffBuffer

/-- Reading a bit moves on by one bit, also behind the end of the stream. -/
theorem position_readBit {buffer : HuffBuffer} (h : buffer.byteIndex < 8) :
    buffer.readBit.2.byteIndex < 8 ∧ buffer.readBit.2.position = buffer.position + 1 := by
  unfold HuffBuffer.readBit position
  dsimp only
  split_ifs with h8
  · refine ⟨Nat.succ_pos 7, ?_⟩
    change 8 * (buffer.streamIndex + 1) + 0 = _
    omega
  · refine ⟨?_, rfl⟩
    change buffer.byteIndex + 1 < 8
    omega

end HuffBuffer

namespace Decoding
variable {tree : List HuffTreeEntry} {t l r : CodeTree UInt8} {d d' : Decoding}
  {data as : List UInt8} {done rest w p : List Bool} {a : UInt8} {n k padding dataSize : ℕ}

/-- The entries at the index of a tree. -/
theorem entryAt_leaf {i : ℤ} (h : Spells (decodedCell tree) i (.leaf a)) :
    ∃ e, entryAt tree i = some e ∧ e.val ≠ -1 ∧ byteBits e.val.toNat = byteBits a.toNat := by
  change decodedCell tree i = _ at h
  unfold decodedCell at h
  cases he : entryAt tree i with
  | none =>
    rw [he] at h
    cases h
  | some e =>
    rw [he, Option.bind_eq_bind, Option.bind_some] at h
    have hc := Option.some.inj h
    split_ifs at hc with hv
    · obtain rfl := Sum.inl.inj hc
      exact ⟨e, rfl, hv, (byteBits_ofNat _).symm⟩

theorem entryAt_node {i : ℤ} (h : Spells (decodedCell tree) i (.node l r)) :
    ∃ e, entryAt tree i = some e ∧ e.val = -1 ∧ Spells (decodedCell tree) e.left l ∧
      Spells (decodedCell tree) e.right r := by
  obtain ⟨li, ri, hc, hl, hr⟩ := h
  unfold decodedCell at hc
  cases he : entryAt tree i with
  | none =>
    rw [he] at hc
    cases hc
  | some e =>
    rw [he, Option.bind_eq_bind, Option.bind_some] at hc
    have hc := Option.some.inj hc
    split_ifs at hc with hv
    · obtain ⟨rfl, rfl⟩ := Prod.mk.inj (Sum.inr.inj hc)
      exact ⟨e, rfl, not_not.mp hv, hl, hr⟩

/-- From a node a bit leads to a child: a byte is written and the walk begins again, or it goes on
from there. -/
theorem decodeBit_node (h : Spells (decodedCell tree) d.treeInd (.node l r)) : ∃ d',
    d.decodeBit tree = some d' ∧ d'.input = d.input.readBit.2 ∧
      match if d.input.readBit.1 then l else r with
      | .leaf a => d'.treeInd = 0 ∧ d'.out = d.out.writeByte a.toNat
      | .node l r => Spells (decodedCell tree) d'.treeInd (.node l r) ∧ d'.out = d.out := by
  obtain ⟨e, he, -, hl, hr⟩ := entryAt_node h
  have hchild : Spells (decodedCell tree) (if d.input.readBit.1 then e.left else e.right)
      (if d.input.readBit.1 then l else r) := by
    split_ifs
    · exact hl
    · exact hr
  unfold Decoding.decodeBit
  dsimp only
  rw [he, Option.bind_eq_bind, Option.bind_some]
  generalize (if d.input.readBit.1 then e.left else e.right) = i at hchild ⊢
  cases hsub : (if d.input.readBit.1 then l else r) with
  | leaf a =>
    rw [hsub] at hchild
    obtain ⟨e', he', hv, hbits⟩ := entryAt_leaf hchild
    rw [he', Option.bind_some, if_pos hv]
    refine ⟨_, rfl, rfl, rfl, ?_⟩
    rw [HuffBuffer.writeByte_eq, HuffBuffer.writeByte_eq, hbits]
  | node l' r' =>
    rw [hsub] at hchild
    obtain ⟨e', he', hv, -⟩ := entryAt_node hchild
    rw [he', Option.bind_some, if_neg (not_not.mpr hv)]
    exact ⟨_, rfl, rfl, hchild, rfl⟩

theorem decodeBits_add (tree : List HuffTreeEntry) (m n : ℕ) (d : Decoding) :
    d.decodeBits tree (m + n) = (d.decodeBits tree m).bind fun d => d.decodeBits tree n := by
  induction m generalizing d with
  | zero =>
    rw [Nat.zero_add]
    rfl
  | succ m ih =>
    rw [Nat.add_right_comm, decodeBits, decodeBits]
    cases d.decodeBit tree with
    | none => rfl
    | some d' => exact ih d'

/-- The bits of a code word lead to its byte. -/
theorem decodeBits_code {t : CodeTree UInt8} (h2 : 2 ≤ t.leaves.length) (hp : (a, p) ∈ t.codes)
    (hs : Spells (decodedCell tree) d.treeInd t) (hr : d.input.Reads data done (p ++ rest)) :
    ∃ d', d.decodeBits tree p.length = some d' ∧ d'.treeInd = 0 ∧
      d'.out = d.out.writeByte a.toNat ∧ d'.input.Reads data (done ++ p) rest := by
  induction t generalizing p d done with
  | leaf b => exact absurd h2 (by decide : ¬ 2 ≤ 1)
  | node l r ihl ihr =>
    have hstep : ∀ (b : Bool) (p' : List Bool) (sub : CodeTree UInt8), p = b :: p' →
        (if b then l else r) = sub → (a, p') ∈ sub.codes →
        (∀ d₁ : Decoding, 2 ≤ sub.leaves.length → Spells (decodedCell tree) d₁.treeInd sub →
          d₁.input.Reads data (done ++ [b]) (p' ++ rest) → ∃ d',
            d₁.decodeBits tree p'.length = some d' ∧ d'.treeInd = 0 ∧
              d'.out = d₁.out.writeByte a.toNat ∧
              d'.input.Reads data ((done ++ [b]) ++ p') rest) →
        ∃ d', d.decodeBits tree p.length = some d' ∧ d'.treeInd = 0 ∧
          d'.out = d.out.writeByte a.toNat ∧ d'.input.Reads data (done ++ p) rest := by
      rintro b p' sub rfl hsub hp' ih
      obtain ⟨input, hread, hr'⟩ := hr.readBit
      obtain ⟨d₁, hd₁, hin, hout⟩ := decodeBit_node hs
      rw [hread] at hin hout
      dsimp only at hin hout
      rw [hsub] at hout
      rw [List.length_cons, decodeBits, hd₁, Option.bind_eq_bind, Option.bind_some]
      cases sub with
      | leaf c =>
        obtain ⟨rfl, rfl⟩ := Prod.mk.inj (List.mem_singleton.mp hp')
        exact ⟨d₁, rfl, hout.1, hout.2, hin ▸ hr'⟩
      | node l' r' =>
        obtain ⟨d', hd', hind, hout', hrest⟩ :=
          ih d₁ (by
            have := l'.length_leaves_pos
            have := r'.length_leaves_pos
            rw [CodeTree.leaves, List.length_append]
            omega) hout.1 (hin ▸ hr')
        rw [List.append_assoc] at hrest
        exact ⟨d', hd', hind, hout.2 ▸ hout', hrest⟩
    rcases CodeTree.mem_codes_node hp with ⟨p', rfl, hp'⟩ | ⟨p', rfl, hp'⟩
    · exact hstep true p' l rfl rfl hp' fun d₁ h2 hs hr => ihl h2 hp' hs hr
    · exact hstep false p' r rfl rfl hp' fun d₁ h2 hs hr => ihr h2 hp' hs hr

/-- The bits of the content are decoded byte by byte. -/
theorem decodeBits_encode (h2 : 2 ≤ t.leaves.length) (hs : Spells (decodedCell tree) 0 t)
    (has : ∀ b ∈ as, b ∈ t.leaves) (h0 : d.treeInd = 0)
    (hr : d.input.Reads data done (t.encode as ++ rest)) :
    ∃ d', d.decodeBits tree (t.encode as).length = some d' ∧
      d'.out = d.out.writeBits (bits as) := by
  induction as generalizing d done with
  | nil => exact ⟨d, rfl, rfl⟩
  | cons b as ih =>
    have hcons : t.encode (b :: as) = t.code b ++ t.encode as := rfl
    rw [hcons, List.append_assoc] at hr
    obtain ⟨d₁, hd₁, hind, hout, hr₁⟩ := decodeBits_code h2
      (CodeTree.code_mem (has b List.mem_cons_self)) (by rwa [h0]) hr
    obtain ⟨d', hd', hout'⟩ := ih (fun x hx => has x (List.mem_cons_of_mem b hx)) hind hr₁
    refine ⟨d', ?_, ?_⟩
    · rw [hcons, List.length_append, decodeBits_add, hd₁, Option.bind_some, hd']
    · rw [hout', hout, bits_cons, HuffBuffer.writeBits_append, HuffBuffer.writeByte_eq]

theorem decodeBit_input (h : d.decodeBit tree = some d') : d'.input = d.input.readBit.2 := by
  unfold Decoding.decodeBit at h
  simp only [Option.bind_eq_bind, Option.bind_eq_some_iff] at h
  obtain ⟨e, -, e', -, h⟩ := h
  by_cases hv : e'.val ≠ -1
  · rw [if_pos hv] at h
    cases h
    rfl
  · rw [if_neg hv] at h
    cases h
    rfl

/-- What has been read after some bits, whatever was decoded. -/
theorem decodeBits_reads (hd : d.decodeBits tree w.length = some d')
    (hr : d.input.Reads data done (w ++ rest)) : d'.input.Reads data (done ++ w) rest := by
  induction w generalizing d done with
  | nil =>
    cases hd
    rwa [List.append_nil]
  | cons b w ih =>
    obtain ⟨input, hread, hr'⟩ := hr.readBit
    rw [List.length_cons, decodeBits] at hd
    obtain ⟨d₁, hd₁, hd⟩ := Option.bind_eq_some_iff.mp hd
    have hin : d₁.input = input := by rw [decodeBit_input hd₁, hread]
    have hrest := ih hd (hin ▸ hr')
    rwa [List.append_assoc] at hrest

/-- The loop over the aligned bytes is as long as its condition says. -/
theorem decodeBytes_eq (fuel : ℕ) (hw : w.length < fuel)
    (hd : d.decodeBits tree w.length = some d') (hr : d.input.Reads data done (w ++ rest))
    (hon : ∀ m < w.length, (done.length + m) / 8 + 1 < dataSize ∨
      ((done.length + m) / 8 + 1 ≤ dataSize ∧ padding = 0))
    (hoff : ¬ ((done.length + w.length) / 8 + 1 < dataSize ∨
      ((done.length + w.length) / 8 + 1 ≤ dataSize ∧ padding = 0))) :
    d.decodeBytes tree padding dataSize fuel = some d' := by
  obtain ⟨fuel, rfl⟩ : ∃ k, fuel = k + 1 := ⟨fuel - 1, by omega⟩
  induction w generalizing d done fuel with
  | nil =>
    cases hd
    rw [decodeBytes, hr.streamIndex]
    exact if_neg hoff
  | cons b w ih =>
    have hlen : (done ++ [b]).length = done.length + 1 := List.length_append
    rw [List.length_cons] at hw hoff hon
    have hone : d.decodeBits tree [b].length = (d.decodeBit tree).bind some := rfl
    rw [List.length_cons, decodeBits] at hd
    obtain ⟨d₁, hd₁, hd⟩ := Option.bind_eq_some_iff.mp hd
    rw [hd₁] at hone
    have hr₁ : d₁.input.Reads data (done ++ [b]) (w ++ rest) := decodeBits_reads hone hr
    obtain ⟨fuel, rfl⟩ : ∃ k, fuel = k + 1 := ⟨fuel - 1, by omega⟩
    have hrest := ih hd hr₁ (by
      intro m hm
      have h := hon (m + 1) (by omega)
      rw [hlen, Nat.add_right_comm, Nat.add_assoc]
      exact h) (by rwa [hlen, Nat.add_right_comm, Nat.add_assoc]) fuel (by omega)
    have h0 : done.length / 8 + 1 < dataSize ∨ (done.length / 8 + 1 ≤ dataSize ∧ padding = 0) :=
      hon 0 (Nat.succ_pos _)
    rw [decodeBytes, hr.streamIndex, if_pos h0, hd₁, Option.bind_eq_bind, Option.bind_some]
    exact hrest

/-- The bits up to the next byte, the loop over the aligned bytes and the bits before the padding
are together the bits `w`, if these end where the padding begins. -/
theorem loops_eq (hd : d.decodeBits tree w.length = some d')
    (hr : d.input.Reads data done (w ++ rest)) (hk : k = 8 - done.length % 8)
    (hpadding : padding = (done.length + w.length) % 8) (hfit : k + padding ≤ w.length)
    (hsize : dataSize = (done.length + w.length) / 8 + if padding ≠ 0 then 1 else 0) :
    ∃ d₁ d₂, d.decodeBits tree k = some d₁ ∧
      d₁.decodeBytes tree padding dataSize (8 * dataSize + 1) = some d₂ ∧
      d₂.decodeBits tree padding = some d' := by
  obtain ⟨n, hn⟩ : ∃ n, w.length = k + (n + padding) := ⟨w.length - k - padding, by omega⟩
  rw [hn, decodeBits_add] at hd
  obtain ⟨d₁, hd₁, hd⟩ := Option.bind_eq_some_iff.mp hd
  rw [decodeBits_add] at hd
  obtain ⟨d₂, hd₂, hd⟩ := Option.bind_eq_some_iff.mp hd
  refine ⟨d₁, d₂, hd₁, ?_, hd⟩
  have hk' : (w.take k).length = k := by rw [List.length_take]; omega
  have hn' : ((w.drop k).take n).length = n := by
    rw [List.length_take, List.length_drop]
    omega
  have hr₁ : d₁.input.Reads data (done ++ w.take k)
      ((w.drop k).take n ++ ((w.drop k).drop n ++ rest)) := by
    refine decodeBits_reads (by rw [hk']; exact hd₁) ?_
    rw [← List.append_assoc ((w.drop k).take n), List.take_append_drop, ← List.append_assoc,
      List.take_append_drop]
    exact hr
  have hpos : (done ++ w.take k).length = done.length + k := by rw [List.length_append, hk']
  refine decodeBytes_eq _ ?_ (by rw [hn']; exact hd₂) hr₁ (fun m hm => ?_) ?_
  · rw [hn']
    split_ifs at hsize <;> omega
  · rw [hn'] at hm
    rw [hpos]
    split_ifs at hsize <;> omega
  · rw [hn', hpos]
    split_ifs at hsize <;> omega

end Decoding
end StorageServer.Common
