import StorageServer.Common.HuffmanDecompression
import StorageServer.Common.HuffmanFaults

/-! Decompression of streams that nobody compressed. The stream and the output are guarded, the
tree is not. Every run ends all the same, and where the bits of the tree are those of a tree with
two leaves at least, nothing that follows them can lead out of an array. -/
namespace StorageServer.Common
open Library Library.Bits

namespace Checked

/-- The run ends with a result as it should be, or with a fault of a certain kind. -/
def Runs {α : Type} (F : DecodeFault → Prop) (P : α → Prop) : Except DecodeFault α → Prop
  | .ok a => P a
  | .error fault => F fault

section
variable {α β : Type} {F : DecodeFault → Prop} {P : α → Prop} {x : Except DecodeFault α}

theorem Runs.bind {Q : β → Prop} {f : α → Except DecodeFault β} (h : Runs F P x)
    (hf : ∀ a, P a → Runs F Q (f a)) : Runs F Q (x >>= f) := by
  cases x with
  | ok a => exact hf a h
  | error fault => exact h

theorem Runs.imp {F' : DecodeFault → Prop} (h : Runs F P x) (hF : ∀ fault, F fault → F' fault) :
    Runs F' P x := by
  cases x with
  | ok a => exact h
  | error fault => exact hF fault h

end

/-! ### The loops over the bits of the content -/

/-- What holds of a walk that is so many bits into the stream. -/
structure Invariant (F : DecodeFault → Prop) (tree : List HuffTreeEntry)
    (P : ℕ → Decoding → Prop) : Prop where
  step : ∀ pos d, P pos d → Runs F (P (pos + 1)) (decodeBit tree d)
  byteIndex : ∀ pos d, P pos d → d.input.byteIndex < 8
  position : ∀ pos d, P pos d → d.input.position = pos

section
variable {F : DecodeFault → Prop} {tree : List HuffTreeEntry} {P : ℕ → Decoding → Prop}
  {pos : ℕ} {d : Decoding}

theorem Invariant.decodeBits (hinv : Invariant F tree P) (m : ℕ) (h : P pos d) :
    Runs F (P (pos + m)) (decodeBits tree m d) := by
  induction m generalizing d pos with
  | zero => exact h
  | succ m ih =>
    refine (hinv.step pos d h).bind fun d' h' => ?_
    rw [Nat.add_comm m 1, ← Nat.add_assoc]
    exact ih h'

/-- The loop over the aligned bytes ends behind the stream at the latest. -/
theorem Invariant.decodeBytes (hinv : Invariant F tree P) (padding dataSize fuel : ℕ)
    (h : P pos d) (hfuel : 8 * (dataSize + 1) ≤ pos + fuel) :
    Runs F (fun d' => ∃ pos, P pos d') (decodeBytes tree padding dataSize (fuel + 1) d) := by
  induction fuel generalizing d pos with
  | zero =>
    have hoff : ¬ (d.input.streamIndex < dataSize ∨
        (d.input.streamIndex ≤ dataSize ∧ padding = 0)) := by
      have hpos := hinv.position pos d h
      have hlt := hinv.byteIndex pos d h
      unfold HuffBuffer.position at hpos
      omega
    rw [Checked.decodeBytes, if_neg hoff]
    exact ⟨pos, h⟩
  | succ fuel ih =>
    rw [Checked.decodeBytes]
    split_ifs
    · exact (hinv.step pos d h).bind fun d' h' => ih h' (by omega)
    · exact ⟨pos, h⟩

end

/-! ### The links -/

/-- No child, or one in an array of `n` trees. -/
def LinkIn (n : ℕ) (i : ℤ) : Prop := i = -1 ∨ 0 ≤ i ∧ i < n

structure Linked (n : ℕ) (tree : List HuffTreeEntry) : Prop where
  length : tree.length = n
  links : ∀ e ∈ tree, LinkIn n e.left ∧ LinkIn n e.right

/-- The right child of a tree is missing. -/
def Half (tree : List HuffTreeEntry) (k : ℕ) : Prop := ∀ e, tree[k]? = some e → e.right = -1

/-- The stack before the round `i`: at most one father at the bottom that may be complete, and over
him fathers that are not. -/
structure Fathers (i : ℕ) (above below : List ℕ) (tree : List HuffTreeEntry) : Prop where
  one : below.length ≤ 1
  nodup : above.Nodup
  above_lt : ∀ f ∈ above, f < i
  below_le : ∀ f ∈ below, f ≤ i
  above_half : ∀ f ∈ above, Half tree f
  half : ∀ k, i ≤ k → Half tree k

section
variable {n i k tmpInd size pos : ℕ} {tree : List HuffTreeEntry} {e : HuffTreeEntry}
  {above below : List ℕ} {buffer : HuffBuffer} {d : Decoding}

theorem Linked.set (h : Linked n tree) (k : ℕ) (hl : LinkIn n e.left) (hr : LinkIn n e.right) :
    Linked n (tree.set k e) := by
  refine ⟨by rw [List.length_set, h.length], fun e' he' => ?_⟩
  rcases List.mem_or_eq_of_mem_set he' with hmem | rfl
  · exact h.links e' hmem
  · exact ⟨hl, hr⟩

theorem Linked.get (h : Linked n tree) (hk : k < n) : ∃ e, tree[k]? = some e ∧ LinkIn n e.left ∧
    LinkIn n e.right := by
  have hlt : k < tree.length := h.length.symm ▸ hk
  exact ⟨tree[k], List.getElem?_eq_getElem hlt, h.links _ (List.getElem_mem hlt)⟩

theorem Half.set (h : Half tree k) (f : ℕ) (he : f = k → e.right = -1) :
    Half (tree.set f e) k := by
  intro e' he'
  by_cases hf : f = k
  · subst hf
    rw [List.getElem?_set_self'] at he'
    obtain ⟨-, -, rfl⟩ := Option.map_eq_some_iff.mp he'
    exact he rfl
  · rw [List.getElem?_set_ne hf] at he'
    exact h e' he'

theorem Fathers.mono {i' : ℕ} (h : Fathers i above below tree) (hi : i ≤ i') :
    Fathers i' above below tree where
  one := h.one
  nodup := h.nodup
  above_lt f hf := (h.above_lt f hf).trans_le hi
  below_le f hf := (h.below_le f hf).trans hi
  above_half := h.above_half
  half k hk := h.half k (hi.trans hk)

theorem Fathers.set {f : ℕ} (h : Fathers i above below tree)
    (he : f ∈ above ∨ i ≤ f → e.right = -1) : Fathers i above below (tree.set f e) where
  one := h.one
  nodup := h.nodup
  above_lt := h.above_lt
  below_le := h.below_le
  above_half g hg := (h.above_half g hg).set f fun hfg => he (Or.inl (hfg ▸ hg))
  half k hk := (h.half k hk).set f fun hfk => he (Or.inr (hfk ▸ hk))

theorem Fathers.pop {f : ℕ} (h : Fathers i (f :: above) below tree) :
    Fathers i above below tree where
  one := h.one
  nodup := h.nodup.of_cons
  above_lt g hg := h.above_lt g (List.mem_cons_of_mem f hg)
  below_le := h.below_le
  above_half g hg := h.above_half g (List.mem_cons_of_mem f hg)
  half := h.half

theorem Fathers.push (h : Fathers i above below tree) :
    Fathers (i + 1) (i :: above) below tree where
  one := h.one
  nodup := List.nodup_cons.mpr ⟨fun hi => absurd (h.above_lt i hi) (lt_irrefl i), h.nodup⟩
  above_lt f hf := by
    rcases List.mem_cons.mp hf with rfl | hf
    · exact Nat.lt_succ_self f
    · exact (h.above_lt f hf).trans (Nat.lt_succ_self i)
  below_le f hf := (h.below_le f hf).trans (Nat.le_succ i)
  above_half f hf := by
    rcases List.mem_cons.mp hf with rfl | hf
    · exact h.half f le_rfl
    · exact h.above_half f hf
  half k hk := h.half k ((Nat.le_succ i).trans hk)

/-- The reader stands behind the first byte, wherever that is. -/
structure Behind (buffer : HuffBuffer) : Prop where
  byteIndex : buffer.byteIndex < 8
  position : 8 ≤ buffer.position

theorem Behind.readBit (h : Behind buffer) : Behind buffer.readBit.2 := by
  obtain ⟨hlt, hpos⟩ := HuffBuffer.position_readBit h.byteIndex
  exact ⟨hlt, hpos ▸ h.position.trans (Nat.le_succ _)⟩

theorem Behind.readByte (h : Behind buffer) : Behind buffer.readByte.2 := by
  unfold HuffBuffer.readByte
  exact List.foldlRecOn (motive := fun r : UInt8 × HuffBuffer => Behind r.2) _ _ h
    fun r hr i _ => hr.readBit

end

/-! ### Any stream -/

end Checked
end StorageServer.Common
