import StorageServer.Library.CodeTrees
import Mathlib.Algebra.BigOperators.Group.List.Basic
import Mathlib.Algebra.Order.BigOperators.Group.List
import Mathlib.Algebra.Order.Ring.Defs
import Mathlib.Data.List.Nodup
import Mathlib.Logic.Equiv.Basic
import Mathlib.Tactic.Linarith
import Mathlib.Tactic.Ring

/-! The cost of a tree with weighted leaves: every leaf as often as its path is long. Light leaves
belong to the ends of long paths, so that two of the lightest may always be siblings. -/
namespace StorageServer.Library
variable {R ι κ : Type*}

namespace CodeTree

/-- A leaf and the length of the path to it. -/
inductive At : CodeTree ι → ι → ℕ → Prop
  | leaf (i : ι) : At (leaf i) i 0
  | left {l r : CodeTree ι} {i : ι} {d : ℕ} (h : At l i d) : At (node l r) i (d + 1)
  | right {l r : CodeTree ι} {i : ι} {d : ℕ} (h : At r i d) : At (node l r) i (d + 1)

/-- All leaves lie at the same depth. -/
def Level (n : ℕ) (t : CodeTree ι) : Prop := ∀ i d, At t i d → d = n

section Weights
variable [CommRing R]

def weight (w : ι → R) (t : CodeTree ι) : R := (t.leaves.map w).sum

def cost (w : ι → R) (t : CodeTree ι) : R :=
  (t.codes.map fun c => w c.1 * (c.2.length : R)).sum

variable {w w' : ι → R} {t u l r : CodeTree ι} {i j x y z : ι} {d e n : ℕ} {f : ι → κ}

/-! ### Paths -/

theorem map_map {μ : Type*} (g : κ → μ) (f : ι → κ) (t : CodeTree ι) :
    (t.map f).map g = t.map (g ∘ f) := by
  induction t with
  | leaf i => rfl
  | node l r ihl ihr => rw [map, map, map, ihl, ihr]

theorem At.mem (h : At t i d) : i ∈ t.leaves := by
  induction h with
  | leaf i => exact List.mem_cons_self
  | left _ ih => exact List.mem_append_left _ ih
  | right _ ih => exact List.mem_append_right _ ih

theorem exists_at (h : i ∈ t.leaves) : ∃ d, At t i d := by
  induction t with
  | leaf a =>
    obtain rfl := List.mem_singleton.mp h
    exact ⟨0, .leaf i⟩
  | node l r ihl ihr =>
    rcases List.mem_append.mp h with h | h
    · obtain ⟨d, hd⟩ := ihl h
      exact ⟨d + 1, hd.left⟩
    · obtain ⟨d, hd⟩ := ihr h
      exact ⟨d + 1, hd.right⟩

theorem At.le_height (h : At t i d) : d ≤ t.height := by
  induction h with
  | leaf i => exact Nat.le_refl _
  | left _ ih =>
    rw [height]
    omega
  | right _ ih =>
    rw [height]
    omega

theorem At.unique (hn : t.leaves.Nodup) (h : At t i d) (h' : At t i e) : d = e := by
  induction h generalizing e with
  | leaf i =>
    cases h'
    rfl
  | left h ih =>
    obtain ⟨hl, -, hdis⟩ := List.nodup_append.mp hn
    cases h' with
    | left h' => rw [ih hl h']
    | right h' => exact absurd rfl (hdis _ h.mem _ h'.mem)
  | right h ih =>
    obtain ⟨-, hr, hdis⟩ := List.nodup_append.mp hn
    cases h' with
    | left h' => exact absurd rfl (hdis _ h'.mem _ h.mem)
    | right h' => rw [ih hr h']

theorem At.map (h : At t i d) (f : ι → κ) : At (t.map f) (f i) d := by
  induction h with
  | leaf i => exact .leaf (f i)
  | left _ ih => exact ih.left
  | right _ ih => exact ih.right

theorem At.of_map {k : κ} (h : At (t.map f) k d) : ∃ i, At t i d ∧ f i = k := by
  induction t generalizing d with
  | leaf i =>
    cases h
    exact ⟨i, .leaf i, rfl⟩
  | node l r ihl ihr =>
    cases h with
    | left h =>
      obtain ⟨i, hi, rfl⟩ := ihl h
      exact ⟨i, hi.left, rfl⟩
    | right h =>
      obtain ⟨i, hi, rfl⟩ := ihr h
      exact ⟨i, hi.right, rfl⟩

theorem Level.map (h : Level n t) (f : ι → κ) : Level n (t.map f) := by
  intro k d hk
  obtain ⟨i, hi, -⟩ := hk.of_map
  exact h i d hi

theorem Level.children (h : Level n (node l r)) :
    ∃ m, n = m + 1 ∧ Level m l ∧ Level m r := by
  obtain ⟨i, hi⟩ := List.exists_mem_of_ne_nil _ l.leaves_ne_nil
  obtain ⟨d, hd⟩ := exists_at hi
  have hn := h i _ hd.left
  refine ⟨d, hn.symm, fun j e he => ?_, fun j e he => ?_⟩
  · have := h j _ he.left
    omega
  · have := h j _ he.right
    omega

theorem Level.length_leaves (h : Level n t) : t.leaves.length = 2 ^ n := by
  induction t generalizing n with
  | leaf i =>
    rw [← h i 0 (.leaf i)]
    rfl
  | node l r ihl ihr =>
    obtain ⟨m, rfl, hl, hr⟩ := h.children
    rw [leaves, List.length_append, ihl hl, ihr hr, pow_succ, Nat.mul_two]

theorem Level.node (hl : Level n l) (hr : Level n r) : Level (n + 1) (node l r) := by
  intro i d h
  cases h with
  | left h => rw [hl i _ h]
  | right h => rw [hr i _ h]

theorem level_leaf (i : ι) : Level 0 (leaf i) := by
  intro j d h
  cases h
  rfl

/-! ### Costs -/

@[simp] theorem weight_leaf (w : ι → R) (i : ι) : (leaf i).weight w = w i :=
  List.sum_singleton

@[simp] theorem weight_node (w : ι → R) (l r : CodeTree ι) :
    (node l r).weight w = l.weight w + r.weight w := by
  rw [weight, leaves, List.map_append, List.sum_append]
  rfl

@[simp] theorem cost_leaf (w : ι → R) (i : ι) : (leaf i).cost w = 0 := by
  simp [cost, codes]

/-- Every leaf gets one level deeper. -/
theorem sum_codes_cons (w : ι → R) (b : Bool) (t : CodeTree ι) :
    ((t.codes.map (Prod.map id (b :: ·))).map fun c => w c.1 * (c.2.length : R)).sum =
      t.cost w + t.weight w := by
  have hw : t.weight w = (t.codes.map fun c => w c.1).sum := by
    rw [weight, ← t.codes_fst, List.map_map]
    rfl
  rw [hw, cost, ← List.sum_map_add, List.map_map]
  refine congrArg List.sum (List.map_congr_left fun c _ => ?_)
  simp only [Function.comp_apply, Prod.map_fst, Prod.map_snd, id_eq, List.length_cons]
  push_cast
  ring

@[simp] theorem cost_node (w : ι → R) (l r : CodeTree ι) :
    (node l r).cost w = l.cost w + r.cost w + (l.weight w + r.weight w) := by
  rw [cost, codes, List.map_append, List.sum_append, sum_codes_cons, sum_codes_cons]
  ring

theorem weight_congr (h : ∀ i ∈ t.leaves, w i = w' i) : t.weight w = t.weight w' :=
  congrArg List.sum (List.map_congr_left h)

theorem cost_congr (h : ∀ i ∈ t.leaves, w i = w' i) : t.cost w = t.cost w' :=
  congrArg List.sum (List.map_congr_left fun c hc => by
    rw [h c.1 (t.codes_fst ▸ List.mem_map_of_mem hc)])

theorem weight_perm (h : t.leaves.Perm u.leaves) : t.weight w = u.weight w :=
  (h.map w).sum_eq

theorem weight_map (w : κ → R) (f : ι → κ) (t : CodeTree ι) :
    (t.map f).weight w = t.weight (w ∘ f) := by
  rw [weight, weight, leaves_map, List.map_map]

theorem cost_map (w : κ → R) (f : ι → κ) (t : CodeTree ι) :
    (t.map f).cost w = t.cost (w ∘ f) := by
  induction t with
  | leaf i => rw [map, cost_leaf, cost_leaf]
  | node l r ihl ihr => rw [map, cost_node, cost_node, ihl, ihr, weight_map, weight_map]

theorem Level.cost_eq (h : Level n t) (w : ι → R) : t.cost w = n * t.weight w := by
  induction t generalizing n with
  | leaf i =>
    rw [← h i 0 (.leaf i), cost_leaf]
    simp
  | node l r ihl ihr =>
    obtain ⟨m, rfl, hl, hr⟩ := h.children
    rw [cost_node, weight_node, ihl hl, ihr hr]
    push_cast
    ring

section Updates
variable [DecidableEq ι]

theorem weight_update (hn : t.leaves.Nodup) (h : At t i d) (v : R) :
    t.weight (Function.update w i v) = t.weight w + (v - w i) := by
  induction h with
  | leaf i => simp
  | @left l r i d h ih =>
    obtain ⟨hl, -, hdis⟩ := List.nodup_append.mp hn
    have hr : r.weight (Function.update w i v) = r.weight w := weight_congr fun j hj =>
      Function.update_of_ne (hdis i h.mem j hj).symm v w
    rw [weight_node, weight_node, ih hl, hr]
    ring
  | @right l r i d h ih =>
    obtain ⟨-, hr, hdis⟩ := List.nodup_append.mp hn
    have hl : l.weight (Function.update w i v) = l.weight w := weight_congr fun j hj =>
      Function.update_of_ne (hdis j hj i h.mem) v w
    rw [weight_node, weight_node, ih hr, hl]
    ring

theorem cost_update (hn : t.leaves.Nodup) (h : At t i d) (v : R) :
    t.cost (Function.update w i v) = t.cost w + (v - w i) * d := by
  induction h with
  | leaf i => simp
  | @left l r i d h ih =>
    obtain ⟨hl, -, hdis⟩ := List.nodup_append.mp hn
    have hw : (node l r).weight (Function.update w i v) = (node l r).weight w + (v - w i) :=
      weight_update hn h.left v
    have hr : r.cost (Function.update w i v) = r.cost w := cost_congr fun j hj =>
      Function.update_of_ne (hdis i h.mem j hj).symm v w
    rw [weight_node, weight_node] at hw
    rw [cost_node, cost_node, ih hl, hr, hw]
    push_cast
    ring
  | @right l r i d h ih =>
    obtain ⟨-, hr, hdis⟩ := List.nodup_append.mp hn
    have hw : (node l r).weight (Function.update w i v) = (node l r).weight w + (v - w i) :=
      weight_update hn h.right v
    have hl : l.cost (Function.update w i v) = l.cost w := cost_congr fun j hj =>
      Function.update_of_ne (hdis j hj i h.mem) v w
    rw [weight_node, weight_node] at hw
    rw [cost_node, cost_node, ih hr, hl, hw]
    push_cast
    ring

/-- What an exchange of two leaves costs. -/
theorem cost_swap (hn : t.leaves.Nodup) (hi : At t i d) (hj : At t j e) :
    (t.map (Equiv.swap i j)).cost w = t.cost w + (w j - w i) * ((d : R) - e) := by
  rw [cost_map]
  by_cases hij : i = j
  · subst hij
    rw [Equiv.swap_self, sub_self, zero_mul, add_zero]
    rfl
  · rw [Equiv.comp_swap_eq_update, cost_update hn hi, cost_update hn hj,
      Function.update_of_ne hij]
    ring

theorem perm_swap (hn : t.leaves.Nodup) (hi : i ∈ t.leaves) (hj : j ∈ t.leaves) :
    (t.map (Equiv.swap i j)).leaves.Perm t.leaves := by
  have hmem : ∀ k ∈ t.leaves, Equiv.swap i j k ∈ t.leaves := by
    intro k hk
    rw [Equiv.swap_apply_def]
    split_ifs
    · exact hj
    · exact hi
    · exact hk
  rw [leaves_map]
  refine (List.perm_ext_iff_of_nodup (hn.map (Equiv.swap i j).injective) hn).mpr fun k => ?_
  rw [List.mem_map]
  constructor
  · rintro ⟨m, hm, rfl⟩
    exact hmem m hm
  · intro hk
    exact ⟨_, hmem k hk, Equiv.swap_apply_self i j k⟩

end Updates

/-! ### Siblings -/

/-- The siblings `x` and `y` give way to their father, who is labelled `z`. -/
inductive Joined (x y z : ι) : CodeTree ι → CodeTree ι → Prop
  | here : Joined x y z (node (leaf x) (leaf y)) (leaf z)
  | left {l l' r : CodeTree ι} (h : Joined x y z l l') : Joined x y z (node l r) (node l' r)
  | right {l r r' : CodeTree ι} (h : Joined x y z r r') : Joined x y z (node l r) (node l r')

theorem Joined.perm (h : Joined x y z t u) :
    ∃ rest, t.leaves.Perm (x :: y :: rest) ∧ u.leaves.Perm (z :: rest) := by
  induction h with
  | here => exact ⟨[], .refl _, .refl _⟩
  | @left l l' r h ih =>
    obtain ⟨rest, ht, hu⟩ := ih
    exact ⟨rest ++ r.leaves, ht.append_right r.leaves, hu.append_right r.leaves⟩
  | @right l r r' h ih =>
    obtain ⟨rest, ht, hu⟩ := ih
    refine ⟨l.leaves ++ rest, ?_, ?_⟩
    · exact (ht.append_left l.leaves).trans
        (List.perm_middle.trans (List.perm_middle.cons x))
    · exact (hu.append_left l.leaves).trans List.perm_middle

theorem Joined.weight_eq (h : Joined x y z t u) (hz : w z = w x + w y) :
    u.weight w = t.weight w := by
  obtain ⟨rest, ht, hu⟩ := h.perm
  rw [weight, weight, (ht.map w).sum_eq, (hu.map w).sum_eq]
  simp only [List.map_cons, List.sum_cons, hz, add_assoc]

theorem Joined.cost_eq (h : Joined x y z t u) (hz : w z = w x + w y) :
    u.cost w + w z = t.cost w := by
  induction h with
  | here => simp [hz]
  | left h ih =>
    rw [cost_node, cost_node, h.weight_eq hz, ← ih]
    ring
  | right h ih =>
    rw [cost_node, cost_node, h.weight_eq hz, ← ih]
    ring

theorem Joined.map (h : Joined x y z t u) (f : ι → κ) :
    Joined (f x) (f y) (f z) (t.map f) (u.map f) := by
  induction h with
  | here => exact .here
  | left _ ih => exact ih.left
  | right _ ih => exact ih.right

/-- A leaf gets a sibling. -/
theorem exists_split_leaf (h : i ∈ u.leaves) (z : ι) : ∃ t, Joined i z i t u := by
  induction u with
  | leaf a =>
    obtain rfl := List.mem_singleton.mp h
    exact ⟨_, .here⟩
  | node l r ihl ihr =>
    rcases List.mem_append.mp h with h | h
    · obtain ⟨t, ht⟩ := ihl h
      exact ⟨_, ht.left⟩
    · obtain ⟨t, ht⟩ := ihr h
      exact ⟨_, ht.right⟩

/-- There are siblings as deep as can be. -/
theorem exists_joined (h : 0 < t.height) : ∃ x y, At t x t.height ∧ At t y t.height ∧
    ∀ z, ∃ u, Joined x y z t u := by
  induction t with
  | leaf a => exact absurd h (lt_irrefl 0)
  | node l r ihl ihr =>
    rw [height]
    rcases Nat.eq_zero_or_pos (max l.height r.height) with h0 | hpos
    · cases l with
      | node => simp [height] at h0
      | leaf a =>
        cases r with
        | node => simp [height] at h0
        | leaf b => exact ⟨a, b, (At.leaf a).left, (At.leaf b).right, fun z => ⟨_, .here⟩⟩
    · rcases le_total r.height l.height with hle | hle
      · rw [max_eq_left hle] at hpos ⊢
        obtain ⟨x, y, hx, hy, hu⟩ := ihl hpos
        refine ⟨x, y, hx.left, hy.left, fun z => ?_⟩
        obtain ⟨u, hu⟩ := hu z
        exact ⟨_, hu.left⟩
      · rw [max_eq_right hle] at hpos ⊢
        obtain ⟨x, y, hx, hy, hu⟩ := ihr hpos
        refine ⟨x, y, hx.right, hy.right, fun z => ?_⟩
        obtain ⟨u, hu⟩ := hu z
        exact ⟨_, hu.right⟩

theorem height_pos (h : 2 ≤ t.leaves.length) : 0 < t.height := by
  cases t with
  | leaf a => exact absurd h (by decide : ¬ 2 ≤ 1)
  | node l r => exact Nat.succ_pos _

/-! ### Exchanges -/

section Order
variable [LinearOrder R] [IsStrictOrderedRing R] {a b : ι} {rest : List ι}

/-- A lighter leaf may go down. -/
theorem cost_swap_le [DecidableEq ι] (hn : t.leaves.Nodup) (hi : At t i d) (hj : At t j e)
    (hd : d ≤ e) (hw : w i ≤ w j) : (t.map (Equiv.swap i j)).cost w ≤ t.cost w := by
  have hde : (d : R) ≤ e := Nat.cast_le.mpr hd
  rw [cost_swap hn hi hj]
  have := mul_nonpos_of_nonneg_of_nonpos (sub_nonneg.mpr hw) (sub_nonpos.mpr hde)
  linarith

theorem cost_swap_lt [DecidableEq ι] (hn : t.leaves.Nodup) (hi : At t i d) (hj : At t j e)
    (hd : d < e) (hw : w i < w j) : (t.map (Equiv.swap i j)).cost w < t.cost w := by
  have hde : (d : R) < e := Nat.cast_lt.mpr hd
  rw [cost_swap hn hi hj]
  have := mul_neg_of_pos_of_neg (sub_pos.mpr hw) (sub_neg.mpr hde)
  linarith

/-- Two leaves take the places of two others at the same depth. If they are the two lightest and
no place is deeper, this does not cost anything. -/
theorem exists_relabel (w : ι → R) (hn : t.leaves.Nodup) (hx : At t x d) (hy : At t y d)
    (hxy : x ≠ y) (ha : a ∈ t.leaves) (hb : b ∈ t.leaves) (hab : a ≠ b) :
    ∃ ρ : ι ≃ ι, ρ x = a ∧ ρ y = b ∧
      (t.map ρ).leaves.Perm t.leaves ∧ (d = t.height → (∀ c ∈ t.leaves, w a ≤ w c) →
        (∀ c ∈ t.leaves, c ≠ a → w b ≤ w c) → (t.map ρ).cost w ≤ t.cost w) := by
  classical
  obtain ⟨da, hda⟩ := exists_at ha
  set τ := Equiv.swap a x
  have hτx : τ x = a := Equiv.swap_apply_right a x
  have hτy : τ y ≠ a := fun h => hxy (τ.injective (hτx.trans h.symm))
  have hperm₁ : (t.map τ).leaves.Perm t.leaves := perm_swap hn ha hx.mem
  have hn₁ := hperm₁.nodup_iff.mpr hn
  have hy₁ : At (t.map τ) (τ y) d := hy.map τ
  obtain ⟨db, hdb⟩ := exists_at (hperm₁.mem_iff.mpr hb)
  set σ := Equiv.swap b (τ y)
  have hperm₂ : ((t.map τ).map σ).leaves.Perm (t.map τ).leaves := perm_swap hn₁ hdb.mem hy₁.mem
  have hmap : t.map (τ.trans σ) = (t.map τ).map σ := (map_map σ τ t).symm
  refine ⟨τ.trans σ, ?_, Equiv.swap_apply_right b (τ y), hmap ▸ hperm₂.trans hperm₁,
    fun hd hwa hwb => ?_⟩
  · change σ (τ x) = a
    rw [hτx]
    exact Equiv.swap_apply_of_ne_of_ne hab hτy.symm
  · obtain ⟨k, hk, -⟩ := hdb.of_map
    rw [hmap]
    calc ((t.map τ).map σ).cost w
        ≤ (t.map τ).cost w := cost_swap_le hn₁ hdb hy₁ (hd ▸ hk.le_height)
          (hwb _ (hperm₁.mem_iff.mp hy₁.mem) hτy)
      _ ≤ t.cost w := cost_swap_le hn hda hx (hd ▸ hda.le_height) (hwa x hx.mem)

theorem Joined.ne (hn : t.leaves.Nodup) (h : Joined x y z t u) : x ≠ y := by
  obtain ⟨rest, hp, -⟩ := h.perm
  rintro rfl
  exact (List.nodup_cons.mp (hp.nodup_iff.mp hn)).1 List.mem_cons_self

/-- The two lightest leaves may be joined: no tree is better than the best one in which they are
siblings. -/
theorem exists_merged (hn : t.leaves.Nodup) (ht : t.leaves.Perm (a :: b :: rest))
    (hab : w a ≤ w b) (hrest : ∀ c ∈ rest, w b ≤ w c) (hz : w z = w a + w b) :
    ∃ u : CodeTree ι, u.leaves.Perm (z :: rest) ∧ u.cost w + (w a + w b) ≤ t.cost w := by
  obtain ⟨x, y, hx, hy, hu⟩ :=
    exists_joined (height_pos ((Nat.le_add_left 2 rest.length).trans_eq ht.length_eq.symm))
  have hxy : x ≠ y := (hu x).elim fun u hu => hu.ne hn
  have hmin : ∀ c ∈ t.leaves, c ≠ a → w b ≤ w c := by
    intro c hc hca
    rcases List.mem_cons.mp ((List.mem_cons.mp (ht.mem_iff.mp hc)).resolve_left hca) with rfl | hc
    · exact le_rfl
    · exact hrest c hc
  have hlow : ∀ c ∈ t.leaves, w a ≤ w c := by
    intro c hc
    by_cases hca : c = a
    · rw [hca]
    · exact hab.trans (hmin c hc hca)
  obtain ⟨ρ, hρx, hρy, hperm, hcost⟩ := exists_relabel w hn hx hy hxy
    (ht.mem_iff.mpr List.mem_cons_self)
    (ht.mem_iff.mpr (List.mem_cons_of_mem a List.mem_cons_self))
    (fun h => (List.nodup_cons.mp (ht.nodup_iff.mp hn)).1 (h ▸ List.mem_cons_self))
  obtain ⟨u, hu⟩ := hu (ρ.symm z)
  have hj := hu.map ρ
  rw [hρx, hρy, Equiv.apply_symm_apply] at hj
  obtain ⟨rest', hp, hp'⟩ := hj.perm
  have hrest' : rest'.Perm rest := ((hp.symm.trans hperm).trans ht).cons_inv.cons_inv
  refine ⟨_, hp'.trans (hrest'.cons z), ?_⟩
  rw [← hz, hj.cost_eq hz]
  exact hcost rfl hlow hmin

/-- In a tree whose leaves lie at the same depth, a leaf without weight keeps a light sibling down
that could be moved there in the place of a heavy one. -/
theorem Level.exists_cheaper (h : Level n t) (hn : t.leaves.Nodup) (hz : z ∈ t.leaves)
    (hi : i ∈ t.leaves) (hj : j ∈ t.leaves) (hiz : i ≠ z) (hjz : j ≠ z) (hwz : w z = 0)
    (hw : w i < w j) : ∃ t' : CodeTree ι, t'.leaves.Perm t.leaves ∧ t'.cost w < t.cost w := by
  have hij : i ≠ j := by
    rintro rfl
    exact lt_irrefl _ hw
  have h2 : 2 ≤ t.leaves.length := by
    have hsub : [i, j].Subperm t.leaves := List.subperm_of_subset
      (List.nodup_cons.mpr ⟨fun hm => hij (List.mem_singleton.mp hm), List.nodup_singleton j⟩)
      (List.cons_subset.mpr ⟨hi, List.cons_subset.mpr ⟨hj, List.nil_subset _⟩⟩)
    exact hsub.length_le
  obtain ⟨x, y, hx, hy, hu⟩ := exists_joined (height_pos h2)
  have hxy : x ≠ y := (hu x).elim fun u hu => hu.ne hn
  obtain ⟨ρ, hρx, hρy, hperm, -⟩ := exists_relabel w hn hx hy hxy hj hz hjz
  have hcost : (t.map ρ).cost w = t.cost w := by
    rw [(h.map ρ).cost_eq, h.cost_eq, weight_perm hperm]
  obtain ⟨u, hu⟩ := hu (ρ.symm j)
  have hjoined := hu.map ρ
  rw [hρx, hρy, Equiv.apply_symm_apply] at hjoined
  obtain ⟨rest, hp, hp'⟩ := hjoined.perm
  have hiu : i ∈ (u.map ρ).leaves := by
    have hmem := (hperm.symm.trans hp).mem_iff.mp hi
    refine hp'.mem_iff.mpr (List.mem_cons_of_mem j ?_)
    exact (List.mem_cons.mp ((List.mem_cons.mp hmem).resolve_left hij)).resolve_left hiz
  obtain ⟨t', ht'⟩ := exists_split_leaf hiu z
  obtain ⟨rest', hq, hq'⟩ := ht'.perm
  refine ⟨t', ?_, ?_⟩
  · have h1 : t'.leaves.Perm (z :: (u.map ρ).leaves) :=
      hq.trans ((List.Perm.swap z i rest').trans (hq'.symm.cons z))
    have h2 : (z :: (u.map ρ).leaves).Perm t.leaves :=
      (hp'.cons z).trans ((List.Perm.swap j z rest).trans (hp.symm.trans hperm))
    exact h1.trans h2
  · have h1 : (u.map ρ).cost w + w i = t'.cost w := ht'.cost_eq (by rw [hwz, add_zero])
    have h2 : (u.map ρ).cost w + w j = (t.map ρ).cost w :=
      hjoined.cost_eq (by rw [hwz, add_zero])
    linarith

/-! ### Bounds -/

theorem cost_nonneg (hw : ∀ i ∈ t.leaves, 0 ≤ w i) : 0 ≤ t.cost w := by
  refine List.sum_nonneg fun v hv => ?_
  obtain ⟨c, hc, rfl⟩ := List.mem_map.mp hv
  exact mul_nonneg (hw c.1 (t.codes_fst ▸ List.mem_map_of_mem hc)) (Nat.cast_nonneg _)

/-- The paths to the leaves of a tree are not all short. -/
theorem weight_mul_le {c : R} (hw : ∀ i ∈ t.leaves, 0 ≤ w i ∧ w i ≤ c) (k : ℕ) :
    t.weight w * (k + 1) ≤ t.cost w + c * 2 ^ k := by
  induction t generalizing k with
  | leaf i =>
    obtain ⟨h0, hc⟩ := hw i List.mem_cons_self
    have hk : ((k : R) + 1) ≤ 2 ^ k := by exact_mod_cast Nat.lt_two_pow_self
    rw [weight_leaf, cost_leaf, zero_add]
    exact mul_le_mul hc hk (by positivity) (h0.trans hc)
  | node l r ihl ihr =>
    have hl : ∀ i ∈ l.leaves, 0 ≤ w i ∧ w i ≤ c := fun i hi => hw i (List.mem_append_left _ hi)
    have hr : ∀ i ∈ r.leaves, 0 ≤ w i ∧ w i ≤ c := fun i hi => hw i (List.mem_append_right _ hi)
    have hcl := cost_nonneg fun i hi => (hl i hi).1
    have hcr := cost_nonneg fun i hi => (hr i hi).1
    rw [weight_node, cost_node]
    cases k with
    | zero =>
      have hc : 0 ≤ c := (hl _ (List.head_mem l.leaves_ne_nil)).elim le_trans
      simp only [Nat.cast_zero, zero_add, mul_one, pow_zero]
      linarith
    | succ k =>
      have h1 := ihl hl k
      have h2 := ihr hr k
      rw [pow_succ]
      push_cast
      linarith

/-- Even less so if one of the leaves has no weight. -/
theorem weight_mul_lt {c : R} (hw : ∀ i ∈ t.leaves, 0 ≤ w i ∧ w i ≤ c) (hz : z ∈ t.leaves)
    (hwz : w z = 0) (k : ℕ) : c + t.weight w * (k + 1) ≤ t.cost w + c * 2 ^ k := by
  have hc : 0 ≤ c := (hw z hz).elim le_trans
  induction t generalizing k with
  | leaf i =>
    obtain rfl := List.mem_singleton.mp hz
    have hk : (1 : R) ≤ 2 ^ k := one_le_pow₀ one_le_two
    rw [weight_leaf, cost_leaf, hwz, zero_mul, zero_add, add_zero]
    exact le_mul_of_one_le_right hc hk
  | node l r ihl ihr =>
    have hl : ∀ i ∈ l.leaves, 0 ≤ w i ∧ w i ≤ c := fun i hi => hw i (List.mem_append_left _ hi)
    have hr : ∀ i ∈ r.leaves, 0 ≤ w i ∧ w i ≤ c := fun i hi => hw i (List.mem_append_right _ hi)
    have hcl := cost_nonneg fun i hi => (hl i hi).1
    have hcr := cost_nonneg fun i hi => (hr i hi).1
    rw [weight_node, cost_node]
    cases k with
    | zero =>
      simp only [Nat.cast_zero, zero_add, mul_one, pow_zero]
      linarith
    | succ k =>
      rw [pow_succ]
      push_cast
      rcases List.mem_append.mp hz with hz | hz
      · have h1 := ihl hl hz k
        have h2 := weight_mul_le hr k
        linarith
      · have h1 := weight_mul_le hl k
        have h2 := ihr hr hz k
        linarith

/-- Leaves of one weight and one without weight make no cheaper tree than one in which all of them
lie at the same depth. -/
theorem Level.cost_le {c : R} (h : Level n t) (hw : ∀ i ∈ t.leaves, 0 ≤ w i ∧ w i ≤ c)
    (hz : z ∈ t.leaves) (hwz : w z = 0) (hsum : t.weight w + c = c * 2 ^ n)
    (hu : u.leaves.Perm t.leaves) : t.cost w ≤ u.cost w := by
  have hlow := weight_mul_lt (fun i hi => hw i (hu.mem_iff.mp hi)) (hu.mem_iff.mpr hz) hwz n
  rw [weight_perm hu] at hlow
  rw [h.cost_eq]
  linarith

end Order
end Weights
end CodeTree
end StorageServer.Library
