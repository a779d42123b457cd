import Mathlib.Data.List.Basic

/-! Binary trees with labelled leaves, the code words that their paths are, and how such a tree is
spelled in a memory of cells. -/
namespace StorageServer.Library
variable {α ι : Type*}

inductive CodeTree (α : Type*)
  | leaf (a : α)
  | node (left right : CodeTree α)

namespace CodeTree

def leaves : CodeTree α → List α
  | leaf a => [a]
  | node l r => l.leaves ++ r.leaves

def height : CodeTree α → ℕ
  | leaf _ => 0
  | node l r => max l.height r.height + 1

def map {β : Type*} (f : α → β) : CodeTree α → CodeTree β
  | leaf a => leaf (f a)
  | node l r => node (l.map f) (r.map f)

/-- The number of leaves and nodes. -/
def size : CodeTree α → ℕ
  | leaf _ => 1
  | node l r => l.size + r.size + 1

/-- Every leaf with the path to it, where one leads to the left. -/
def codes : CodeTree α → List (α × List Bool)
  | leaf a => [(a, [])]
  | node l r => l.codes.map (Prod.map id (true :: ·)) ++ r.codes.map (Prod.map id (false :: ·))

/-- A tree from the root on, where a one announces a leaf. -/
def preorder (word : α → List Bool) : CodeTree α → List Bool
  | leaf a => true :: word a
  | node l r => false :: (l.preorder word ++ r.preorder word)

theorem leaves_map {β : Type*} (f : α → β) (t : CodeTree α) :
    (t.map f).leaves = t.leaves.map f := by
  induction t with
  | leaf a => rfl
  | node l r ihl ihr => rw [map, leaves, leaves, List.map_append, ihl, ihr]

theorem leaves_ne_nil (t : CodeTree α) : t.leaves ≠ [] := by
  induction t with
  | leaf a => exact List.cons_ne_nil _ _
  | node l r ihl ihr => exact List.append_ne_nil_of_left_ne_nil ihl _

theorem length_leaves_pos (t : CodeTree α) : 0 < t.leaves.length :=
  List.length_pos_iff.mpr t.leaves_ne_nil

theorem size_eq (t : CodeTree α) : t.size + 1 = 2 * t.leaves.length := by
  induction t with
  | leaf a => rfl
  | node l r ihl ihr =>
    rw [size, leaves, List.length_append]
    omega

theorem height_lt_length_leaves (t : CodeTree α) : t.height < t.leaves.length := by
  induction t with
  | leaf a => exact Nat.one_pos
  | node l r ihl ihr =>
    have hl := l.length_leaves_pos
    have hr := r.length_leaves_pos
    rw [height, leaves, List.length_append]
    omega

theorem codes_fst (t : CodeTree α) : t.codes.map Prod.fst = t.leaves := by
  induction t with
  | leaf a => rfl
  | node l r ihl ihr =>
    rw [codes, leaves, List.map_append, List.map_map, List.map_map, ← ihl, ← ihr]
    rfl

theorem mem_leaves_of_mem_codes {t : CodeTree α} {a : α} {p : List Bool} (h : (a, p) ∈ t.codes) :
    a ∈ t.leaves := by
  rw [← t.codes_fst]
  exact List.mem_map_of_mem h

theorem exists_code {t : CodeTree α} {a : α} (h : a ∈ t.leaves) : ∃ p, (a, p) ∈ t.codes := by
  rw [← t.codes_fst] at h
  obtain ⟨⟨b, p⟩, hp, rfl⟩ := List.mem_map.mp h
  exact ⟨p, hp⟩

theorem mem_codes_node {l r : CodeTree α} {a : α} {p : List Bool} (h : (a, p) ∈ (node l r).codes) :
    (∃ p', p = true :: p' ∧ (a, p') ∈ l.codes) ∨ ∃ p', p = false :: p' ∧ (a, p') ∈ r.codes := by
  rcases List.mem_append.mp h with h | h
  · obtain ⟨⟨b, p'⟩, hp, he⟩ := List.mem_map.mp h
    obtain ⟨rfl, rfl⟩ := Prod.mk.inj he
    exact Or.inl ⟨p', rfl, hp⟩
  · obtain ⟨⟨b, p'⟩, hp, he⟩ := List.mem_map.mp h
    obtain ⟨rfl, rfl⟩ := Prod.mk.inj he
    exact Or.inr ⟨p', rfl, hp⟩

theorem length_code_le {t : CodeTree α} {a : α} {p : List Bool} (h : (a, p) ∈ t.codes) :
    p.length ≤ t.height := by
  induction t generalizing p with
  | leaf b =>
    obtain ⟨rfl, rfl⟩ := Prod.mk.inj (List.mem_singleton.mp h)
    exact Nat.le_refl _
  | node l r ihl ihr =>
    rw [height]
    rcases mem_codes_node h with ⟨p', rfl, hp⟩ | ⟨p', rfl, hp⟩
    · have := ihl hp
      rw [List.length_cons]
      omega
    · have := ihr hp
      rw [List.length_cons]
      omega

/-- The code word of a label. -/
def code [DecidableEq α] (t : CodeTree α) (a : α) : List Bool :=
  ((t.codes.find? fun c => c.1 = a).map Prod.snd).getD []

def encode [DecidableEq α] (t : CodeTree α) (as : List α) : List Bool := as.flatMap t.code

theorem code_mem [DecidableEq α] {t : CodeTree α} {a : α} (h : a ∈ t.leaves) :
    (a, t.code a) ∈ t.codes := by
  obtain ⟨p, hp⟩ := exists_code h
  have hsome : (t.codes.find? fun c => c.1 = a).isSome :=
    List.find?_isSome.mpr ⟨(a, p), hp, decide_eq_true rfl⟩
  obtain ⟨⟨b, q⟩, hq⟩ := Option.isSome_iff_exists.mp hsome
  have hb := List.find?_some hq
  obtain rfl : b = a := of_decide_eq_true hb
  rw [code, hq]
  exact List.mem_of_find?_eq_some hq

/-- Only in a tree of one leaf a code word is empty. -/
theorem code_ne_nil {t : CodeTree α} (h2 : 2 ≤ t.leaves.length) {a : α} {p : List Bool}
    (h : (a, p) ∈ t.codes) : p ≠ [] := by
  cases t with
  | leaf b => exact absurd h2 (by decide : ¬ 2 ≤ 1)
  | node l r =>
    rcases mem_codes_node h with ⟨p', rfl, -⟩ | ⟨p', rfl, -⟩
    · exact List.cons_ne_nil _ _
    · exact List.cons_ne_nil _ _

theorem length_preorder (word : α → List Bool) {n : ℕ} (hw : ∀ a, (word a).length = n)
    (t : CodeTree α) : (t.preorder word).length = t.size + n * t.leaves.length := by
  induction t with
  | leaf a =>
    simp only [preorder, size, leaves, List.length_cons, List.length_nil, hw]
    omega
  | node l r ihl ihr =>
    simp only [preorder, size, leaves, List.length_cons, List.length_append, ihl, ihr, Nat.mul_add]
    omega

end CodeTree

/-! ### Trees in memory -/

/-- A cell of a memory is a leaf or refers to the cells of its children. -/
abbrev Cell (ι α : Type*) := α ⊕ ι × ι

/-- The cell at an index is the root of a tree. -/
def Spells (view : ι → Option (Cell ι α)) : ι → CodeTree α → Prop
  | i, .leaf a => view i = some (.inl a)
  | i, .node l r => ∃ li ri, view i = some (.inr (li, ri)) ∧ Spells view li l ∧ Spells view ri r

/-- A memory that knows more cells spells the same trees. -/
theorem Spells.mono {view view' : ι → Option (Cell ι α)}
    (hv : ∀ i c, view i = some c → view' i = some c) {i : ι} {t : CodeTree α}
    (h : Spells view i t) : Spells view' i t := by
  induction t generalizing i with
  | leaf a => exact hv i _ h
  | node l r ihl ihr =>
    obtain ⟨li, ri, hc, hl, hr⟩ := h
    exact ⟨li, ri, hv i _ hc, ihl hl, ihr hr⟩

/-- A memory with other labels spells the tree with these labels. -/
theorem Spells.map {β : Type*} {f : α → β} {view : ι → Option (Cell ι α)}
    {view' : ι → Option (Cell ι β)}
    (hv : ∀ i c, view i = some c → view' i = some (Sum.map f id c)) {i : ι} {t : CodeTree α}
    (h : Spells view i t) : Spells view' i (t.map f) := by
  induction t generalizing i with
  | leaf a => exact hv i _ h
  | node l r ihl ihr =>
    obtain ⟨li, ri, hc, hl, hr⟩ := h
    exact ⟨li, ri, hv i _ hc, ihl hl, ihr hr⟩

end StorageServer.Library
