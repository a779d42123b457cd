import StorageServer.Library.CodeTrees
import Mathlib.Algebra.Order.Ring.Defs
import Mathlib.Algebra.Order.BigOperators.Group.List
import Mathlib.Logic.Relation
import Mathlib.Tactic.Linarith

/-! Merging trees by weight with two queues: the single trees, and the merged ones in the order in
which they arise. The lower one of the two first trees is taken. While both queues are sorted no
tree gets much higher than the logarithm of its weight. -/
namespace StorageServer.Library
variable {R α : Type*}

structure TwoQueues (R α : Type*) where
  singles : List (R × CodeTree α)
  merged : List (R × CodeTree α)

namespace TwoQueues
variable {q q' : TwoQueues R α} {x y : R × CodeTree α}

def items (q : TwoQueues R α) : List (R × CodeTree α) := q.singles ++ q.merged

def count (q : TwoQueues R α) : ℕ := q.items.length

def leaves (q : TwoQueues R α) : List α := q.items.flatMap fun x => x.2.leaves

def push (z : R × CodeTree α) (q : TwoQueues R α) : TwoQueues R α :=
  { q with merged := q.merged ++ [z] }

theorem push_perm (z : R × CodeTree α) (q : TwoQueues R α) :
    (q.push z).items.Perm (z :: q.items) := by
  rw [push, items, items, ← List.append_assoc]
  exact List.perm_append_singleton z _

section Order
variable [LinearOrder R]

/-- The lower one of the two first trees, and what is left. -/
def pop : TwoQueues R α → Option ((R × CodeTree α) × TwoQueues R α)
  | ⟨[], []⟩ => none
  | ⟨[], i::is⟩ => some (i, ⟨[], is⟩)
  | ⟨l::ls, []⟩ => some (l, ⟨ls, []⟩)
  | ⟨l::ls, i::is⟩ => some (if l.1 ≤ i.1 then (l, ⟨ls, i::is⟩) else (i, ⟨l::ls, is⟩))

theorem pop_cases (h : q.pop = some (x, q')) :
    q = ⟨x :: q'.singles, q'.merged⟩ ∨ q = ⟨q'.singles, x :: q'.merged⟩ := by
  obtain ⟨ls, is⟩ := q
  match ls, is, h with
  | [], i::is, h =>
    obtain ⟨rfl, rfl⟩ := Prod.mk.inj (Option.some.inj h)
    exact Or.inr rfl
  | l::ls, [], h =>
    obtain ⟨rfl, rfl⟩ := Prod.mk.inj (Option.some.inj h)
    exact Or.inl rfl
  | l::ls, i::is, h =>
    have he := Option.some.inj h
    split_ifs at he with hle
    · obtain ⟨rfl, rfl⟩ := Prod.mk.inj he
      exact Or.inl rfl
    · obtain ⟨rfl, rfl⟩ := Prod.mk.inj he
      exact Or.inr rfl

theorem pop_perm (h : q.pop = some (x, q')) : q.items.Perm (x :: q'.items) := by
  rcases pop_cases h with rfl | rfl
  · exact List.Perm.refl _
  · exact List.perm_middle

theorem mem_merged_of_pop (h : q.pop = some (x, q')) (hy : y ∈ q'.merged) : y ∈ q.merged := by
  rcases pop_cases h with rfl | rfl
  · exact hy
  · exact List.mem_cons_of_mem x hy

theorem exists_pop (h : 1 ≤ q.count) : ∃ x q', q.pop = some (x, q') := by
  obtain ⟨ls, is⟩ := q
  match ls, is, h with
  | [], i::is, _ => exact ⟨_, _, rfl⟩
  | l::ls, [], _ => exact ⟨_, _, rfl⟩
  | l::ls, i::is, _ => exact ⟨_, _, rfl⟩

theorem count_pop (h : q.pop = some (x, q')) : q'.count + 1 = q.count :=
  (pop_perm h).length_eq.symm

variable [Add R]

def join (x y : R × CodeTree α) : R × CodeTree α := (x.1 + y.1, .node x.2 y.2)

def step (q : TwoQueues R α) : Option (TwoQueues R α) := do
  let (x, q) ← q.pop
  let (y, q) ← q.pop
  return q.push (join x y)

/-- Reachable by merging. -/
abbrev Merges : TwoQueues R α → TwoQueues R α → Prop :=
  Relation.ReflTransGen fun q q' => q.step = some q'

theorem step_eq_some : q.step = some q' ↔
    ∃ x q₁ y q₂, q.pop = some (x, q₁) ∧ q₁.pop = some (y, q₂) ∧ q' = q₂.push (join x y) := by
  simp only [step, Option.bind_eq_bind, Option.bind_eq_some_iff, Option.pure_def,
    Option.some.injEq, Prod.exists]
  constructor
  · rintro ⟨w, t, q₁, hx, w', t', q₂, hy, rfl⟩
    exact ⟨w, t, q₁, w', t', q₂, hx, hy, rfl⟩
  · rintro ⟨w, t, q₁, w', t', q₂, hx, hy, rfl⟩
    exact ⟨w, t, q₁, hx, w', t', q₂, hy, rfl⟩

theorem exists_step (h : 2 ≤ q.count) : ∃ q', q.step = some q' := by
  obtain ⟨x, q₁, hx⟩ := exists_pop (q := q) (by omega)
  have hc := count_pop hx
  obtain ⟨y, q₂, hy⟩ := exists_pop (q := q₁) (by omega)
  exact ⟨_, step_eq_some.mpr ⟨x, q₁, y, q₂, hx, hy, rfl⟩⟩

theorem step_perm (h : q.step = some q') : ∃ x y rest, q.items.Perm (x :: y :: rest) ∧
    q'.items.Perm (join x y :: rest) := by
  obtain ⟨x, q₁, y, q₂, hx, hy, rfl⟩ := step_eq_some.mp h
  exact ⟨x, y, q₂.items, (pop_perm hx).trans ((pop_perm hy).cons x), push_perm _ _⟩

theorem count_step (h : q.step = some q') : q'.count + 1 = q.count := by
  obtain ⟨x, y, rest, hq, hq'⟩ := step_perm h
  rw [count, count, hq.length_eq, hq'.length_eq]
  rfl

theorem leaves_step (h : q.step = some q') : q'.leaves.Perm q.leaves := by
  obtain ⟨x, y, rest, hq, hq'⟩ := step_perm h
  have hl := hq.flatMap_right fun x => x.2.leaves
  have hl' := hq'.flatMap_right fun x => x.2.leaves
  simp only [List.flatMap_cons, join, CodeTree.leaves, List.append_assoc] at hl hl'
  exact hl'.trans hl.symm

theorem Merges.leaves (h : Merges q q') : q'.leaves.Perm q.leaves := by
  induction h with
  | refl => exact List.Perm.refl _
  | tail _ hs ih => exact (leaves_step hs).trans ih

theorem Merges.count_le (h : Merges q q') : q'.count ≤ q.count := by
  induction h with
  | refl => exact Nat.le_refl _
  | tail _ hs ih =>
    have := count_step hs
    omega

end Order

/-! ### Heights -/

variable [CommRing R] [LinearOrder R]

def weight (q : TwoQueues R α) : R := (q.items.map Prod.fst).sum

theorem weight_step (h : q.step = some q') : q'.weight = q.weight := by
  obtain ⟨x, y, rest, hq, hq'⟩ := step_perm h
  rw [weight, weight, (hq.map _).sum_eq, (hq'.map _).sum_eq]
  simp only [join, List.map_cons, List.sum_cons, add_assoc]

variable [IsStrictOrderedRing R] {H : ℕ} {c c' : R} {z : R × CodeTree α}

/-- A tree is at least as heavy as everything merged so far, and its weight is exponential in its
height above `H`. -/
structure Weighty (H : ℕ) (c : R) (x : R × CodeTree α) : Prop where
  le : c ≤ x.1
  pow_le : 2 ^ ((x.2.height - H) / 2) ≤ x.1
  below : H < x.2.height → 2 ^ ((x.2.height - H - 1) / 2) ≤ c

omit [IsStrictOrderedRing R] in
theorem Weighty.raise (h : Weighty H c x) (hc : c ≤ c') (hx : c' ≤ x.1) : Weighty H c' x where
  le := hx
  pow_le := h.pow_le
  below hH := (h.below hH).trans hc

theorem Weighty.pos (h : Weighty H c x) : 0 < x.1 := (pow_pos two_pos _).trans_le h.pow_le

omit [LinearOrder R] [IsStrictOrderedRing R] in
/-- One of the trees that are joined determines the height. -/
theorem height_join (x y : R × CodeTree α) :
    (join x y).2.height = x.2.height + 1 ∨ (join x y).2.height = y.2.height + 1 := by
  change max _ _ + 1 = _ ∨ max _ _ + 1 = _
  omega

/-- The weight grows by a half at least when a tree of odd height becomes a child. -/
theorem Weighty.pow_succ_le (h : Weighty H c x) (hy : c ≤ y.1) (hy0 : 0 ≤ y.1) :
    2 ^ ((x.2.height + 1 - H) / 2) ≤ x.1 + y.1 := by
  rcases Nat.even_or_odd' (x.2.height - H) with ⟨k, hk | hk⟩
  · have he : (x.2.height + 1 - H) / 2 = (x.2.height - H) / 2 := by omega
    rw [he]
    exact h.pow_le.trans (le_add_of_nonneg_right hy0)
  · have he : (x.2.height + 1 - H) / 2 = k + 1 := by omega
    have h1 : (x.2.height - H) / 2 = k := by omega
    have h2 : (x.2.height - H - 1) / 2 = k := by omega
    have hx := h.pow_le
    have hb := h.below (by omega)
    rw [h1] at hx
    rw [h2] at hb
    rw [he, pow_succ, mul_two]
    exact add_le_add hx (hb.trans hy)

theorem Weighty.join (hx : Weighty H c x) (hy : Weighty H c y) (hxy : x.1 ≤ y.1) :
    Weighty H y.1 (join x y) where
  le := le_add_of_nonneg_left hx.pos.le
  pow_le := by
    rcases height_join x y with h | h
    · rw [h]
      exact hx.pow_succ_le hy.le hy.pos.le
    · rw [h]
      exact (hy.pow_succ_le hx.le hx.pos.le).trans (add_comm _ _).le
  below _ := by
    rcases height_join x y with h | h
    · rw [h, Nat.sub_right_comm, Nat.add_sub_cancel]
      exact hx.pow_le.trans hxy
    · rw [h, Nat.sub_right_comm, Nat.add_sub_cancel]
      exact hy.pow_le

/-- Both queues are sorted, and no merged tree is heavier than two of those merged so far. -/
structure Grown (H : ℕ) (c : R) (q : TwoQueues R α) : Prop where
  singles_sorted : q.singles.Pairwise fun x y => x.1 ≤ y.1
  merged_sorted : q.merged.Pairwise fun x y => x.1 ≤ y.1
  merged_le : ∀ x ∈ q.merged, x.1 ≤ c + c
  weighty : ∀ x ∈ q.items, Weighty H c x

omit [IsStrictOrderedRing R] in
/-- Sorted queues give their lightest tree. -/
theorem Grown.pop (h : Grown H c q) (hp : q.pop = some (x, q')) :
    Grown H c q' ∧ Weighty H c x ∧ ∀ y ∈ q'.items, x.1 ≤ y.1 := by
  have hperm := pop_perm hp
  have hx := h.weighty x (hperm.mem_iff.mpr List.mem_cons_self)
  have hw : ∀ y ∈ q'.items, Weighty H c y := fun y hy =>
    h.weighty y (hperm.mem_iff.mpr (List.mem_cons_of_mem x hy))
  obtain ⟨ls, is⟩ := q
  match ls, is, hp with
  | [], i::is, hp =>
    obtain ⟨rfl, rfl⟩ := Prod.mk.inj (Option.some.inj hp)
    obtain ⟨hmin, hs⟩ := List.pairwise_cons.mp h.merged_sorted
    exact ⟨⟨h.singles_sorted, hs, fun y hy => h.merged_le y (List.mem_cons_of_mem _ hy), hw⟩, hx,
      hmin⟩
  | l::ls, [], hp =>
    obtain ⟨rfl, rfl⟩ := Prod.mk.inj (Option.some.inj hp)
    obtain ⟨hmin, hs⟩ := List.pairwise_cons.mp h.singles_sorted
    refine ⟨⟨hs, h.merged_sorted, h.merged_le, hw⟩, hx, fun y hy => hmin y ?_⟩
    simpa [items] using hy
  | l::ls, i::is, hp =>
    obtain ⟨hl, hls⟩ := List.pairwise_cons.mp h.singles_sorted
    obtain ⟨hi, his⟩ := List.pairwise_cons.mp h.merged_sorted
    have he := Option.some.inj hp
    split_ifs at he with hle
    · obtain ⟨rfl, rfl⟩ := Prod.mk.inj he
      refine ⟨⟨hls, h.merged_sorted, h.merged_le, hw⟩, hx, fun y hy => ?_⟩
      rcases List.mem_append.mp hy with hy | hy
      · exact hl y hy
      · rcases List.mem_cons.mp hy with rfl | hy
        · exact hle
        · exact hle.trans (hi y hy)
    · obtain ⟨rfl, rfl⟩ := Prod.mk.inj he
      refine ⟨⟨h.singles_sorted, his, fun y hy => h.merged_le y (List.mem_cons_of_mem _ hy), hw⟩,
        hx, fun y hy => ?_⟩
      rcases List.mem_append.mp hy with hy | hy
      · rcases List.mem_cons.mp hy with rfl | hy
        · exact (not_le.mp hle).le
        · exact (not_le.mp hle).le.trans (hl y hy)
      · exact hi y hy

theorem Grown.step (h : Grown H c q) (hs : q.step = some q') : ∃ c', Grown H c' q' := by
  obtain ⟨x, q₁, y, q₂, hx, hy, rfl⟩ := step_eq_some.mp hs
  obtain ⟨h₁, hwx, hxle⟩ := h.pop hx
  obtain ⟨h₂, hwy, hyle⟩ := h₁.pop hy
  have hxy : x.1 ≤ y.1 := hxle y ((pop_perm hy).mem_iff.mpr List.mem_cons_self)
  refine ⟨y.1, h₂.singles_sorted, ?_, ?_, ?_⟩
  · refine List.pairwise_append.mpr ⟨h₂.merged_sorted, List.pairwise_singleton _ _, ?_⟩
    intro m hm z hz
    rw [List.mem_singleton.mp hz]
    exact (h₂.merged_le m hm).trans (add_le_add hwx.le hwy.le)
  · intro m hm
    rcases List.mem_append.mp hm with hm | hm
    · exact (h₂.merged_le m hm).trans (add_le_add hwy.le hwy.le)
    · rw [List.mem_singleton.mp hm]
      exact add_le_add_left hxy _
  · intro m hm
    rcases List.mem_cons.mp ((push_perm _ q₂).mem_iff.mp hm) with rfl | hm
    · exact hwx.join hwy hxy
    · exact (h₂.weighty m hm).raise hwy.le (hyle m hm)

/-- No tree is heavier than all trees together. -/
theorem Grown.le_weight (h : Grown H c q) (hx : x ∈ q.items) : x.1 ≤ q.weight := by
  refine List.single_le_sum ?_ _ (List.mem_map_of_mem hx)
  intro w hw
  obtain ⟨y, hy, rfl⟩ := List.mem_map.mp hw
  exact (h.weighty y hy).pos.le

theorem Grown.height_lt {k : ℕ} (h : Grown H c q) (hk : q.weight < 2 ^ k) (hx : x ∈ q.items) :
    x.2.height < H + 2 * k := by
  have hlt : (2 : R) ^ ((x.2.height - H) / 2) < 2 ^ k :=
    ((h.weighty x hx).pow_le.trans (h.le_weight hx)).trans_lt hk
  have he := (pow_lt_pow_iff_right₀ one_lt_two).mp hlt
  omega

/-! ### A last tree out of order -/

variable {ds is is₁ ls : List (R × CodeTree α)} {k j : ℕ}

/-- More single trees behind the others. -/
def append (q : TwoQueues R α) (ds : List (R × CodeTree α)) : TwoQueues R α :=
  ⟨q.singles ++ ds, q.merged⟩

omit [CommRing R] [IsStrictOrderedRing R] in
theorem pop_append (hds : ds.length ≤ 1) (hp : (q.append ds).pop = some (x, q')) :
    (∃ q₁, q.pop = some (x, q₁) ∧ q' = q₁.append ds) ∨
      ds = [x] ∧ q.singles = [] ∧ q' = ⟨[], q.merged⟩ := by
  obtain ⟨ls, is⟩ := q
  match ls, is, ds, hds, hp with
  | l::ls, [], ds, _, hp =>
    obtain ⟨rfl, rfl⟩ := Prod.mk.inj (Option.some.inj hp)
    exact Or.inl ⟨⟨ls, []⟩, rfl, rfl⟩
  | l::ls, i::is, ds, _, hp =>
    have he := Option.some.inj hp
    simp only [pop]
    split_ifs at he with hle
    · obtain ⟨rfl, rfl⟩ := Prod.mk.inj he
      exact Or.inl ⟨_, by rw [if_pos hle], rfl⟩
    · obtain ⟨rfl, rfl⟩ := Prod.mk.inj he
      exact Or.inl ⟨_, by rw [if_neg hle], rfl⟩
  | [], i::is, [], _, hp =>
    obtain ⟨rfl, rfl⟩ := Prod.mk.inj (Option.some.inj hp)
    exact Or.inl ⟨⟨[], is⟩, rfl, rfl⟩
  | [], [], [d], _, hp =>
    obtain ⟨rfl, rfl⟩ := Prod.mk.inj (Option.some.inj hp)
    exact Or.inr ⟨rfl, rfl, rfl⟩
  | [], i::is, [d], _, hp =>
    have he := Option.some.inj hp
    split_ifs at he with hle
    · obtain ⟨rfl, rfl⟩ := Prod.mk.inj he
      exact Or.inr ⟨rfl, rfl, rfl⟩
    · obtain ⟨rfl, rfl⟩ := Prod.mk.inj he
      exact Or.inl ⟨⟨[], is⟩, rfl, rfl⟩

omit [CommRing R] [IsStrictOrderedRing R] in
theorem pop_merged (hp : (⟨[], is⟩ : TwoQueues R α).pop = some (x, q')) :
    ∃ is', is = x :: is' ∧ q' = ⟨[], is'⟩ := by
  obtain ⟨ls', is'⟩ := q'
  rcases pop_cases hp with he | he
  · exact nomatch congrArg TwoQueues.singles he
  · obtain ⟨rfl, rfl⟩ := TwoQueues.mk.inj he
    exact ⟨is', rfl, rfl⟩

omit [IsStrictOrderedRing R] in
/-- Without single trees the weights are not looked at. -/
theorem step_merged (he : is.map Prod.snd = is₁.map Prod.snd)
    (hs : (⟨[], is⟩ : TwoQueues R α).step = some q') : ∃ is' is₁', q' = ⟨[], is'⟩ ∧
      (⟨[], is₁⟩ : TwoQueues R α).step = some ⟨[], is₁'⟩ ∧
        is'.map Prod.snd = is₁'.map Prod.snd := by
  obtain ⟨x, q₁, y, q₂, hx, hy, rfl⟩ := step_eq_some.mp hs
  obtain ⟨is, rfl, rfl⟩ := pop_merged hx
  obtain ⟨is, rfl, rfl⟩ := pop_merged hy
  match is₁, he with
  | [_], he => exact nomatch (List.cons.inj he).2
  | x₁::y₁::is₁, he =>
    obtain ⟨hx₁, he⟩ := List.cons.inj he
    obtain ⟨hy₁, he⟩ := List.cons.inj he
    refine ⟨is ++ [join x y], is₁ ++ [join x₁ y₁], rfl, rfl, ?_⟩
    change x.2 = x₁.2 at hx₁
    change y.2 = y₁.2 at hy₁
    rw [List.map_append, List.map_append, he]
    simp only [join, List.map_cons, List.map_nil, hx₁, hy₁]

/-- Either the trees that are not merged yet are sorted up to the last one, or there are merged
trees only, and as far as their order goes their weights may be counted anew. -/
inductive Phase (ds : List (R × CodeTree α)) (k j : ℕ) : TwoQueues R α → Prop
  | sorted {c : R} {q : TwoQueues R α} (grown : Grown 0 c q) (light : q.weight < 2 ^ k)
      (few : q.count + ds.length ≤ 2 ^ j) : Phase ds k j (q.append ds)
  | merged {c : R} {is is₁ : List (R × CodeTree α)} (grown : Grown (2 * k) c ⟨[], is₁⟩)
      (same : is.map Prod.snd = is₁.map Prod.snd)
      (light : (⟨[], is₁⟩ : TwoQueues R α).weight < 2 ^ j) : Phase ds k j ⟨[], is⟩

theorem Phase.of_low (is : List (R × CodeTree α)) (hlow : ∀ x ∈ is, x.2.height ≤ 2 * k)
    (hn : is.length < 2 ^ j) : Phase ds k j ⟨[], is⟩ := by
  have hmem : ∀ y ∈ is.map (fun x => ((1 : R), x.2)), y.1 = 1 ∧ y.2.height ≤ 2 * k := by
    intro y hy
    obtain ⟨x, hx, rfl⟩ := List.mem_map.mp hy
    exact ⟨rfl, hlow x hx⟩
  have hgrown : Grown (2 * k) (1 : R) ⟨[], is.map fun x => ((1 : R), x.2)⟩ := by
    refine ⟨List.Pairwise.nil, ?_, ?_, ?_⟩
    · exact List.pairwise_of_forall_mem_list fun x hx y hy =>
        ((hmem x hx).1.trans (hmem y hy).1.symm).le
    · intro y hy
      rw [(hmem y hy).1]
      exact le_add_of_nonneg_left zero_le_one
    · intro y hy
      obtain ⟨h1, hH⟩ := hmem y hy
      refine ⟨h1.ge, ?_, fun hlt => absurd hH (not_le.mpr hlt)⟩
      rw [Nat.sub_eq_zero_of_le hH, h1]
      exact le_of_eq (pow_zero 2)
  refine .merged hgrown ?_ ?_
  · rw [List.map_map]
    rfl
  · have hw : (⟨[], is.map fun x => (1, x.2)⟩ : TwoQueues R α).weight = (is.length : R) := by
      simp [weight, items, Function.comp_def]
    rw [hw]
    exact_mod_cast hn

theorem Phase.step (hds : ds.length ≤ 1) (hleaf : ∀ d ∈ ds, d.2.height = 0)
    (h : Phase ds k j q) (hs : q.step = some q') : Phase ds k j q' := by
  cases h with
  | merged grown same light =>
    obtain ⟨is', is₁', rfl, hs₁, he⟩ := step_merged same hs
    obtain ⟨c', hg⟩ := grown.step hs₁
    exact .merged hg he ((weight_step hs₁).trans_lt light)
  | @sorted c q grown light few =>
    have hlow : ∀ x ∈ q.items, x.2.height < 2 * k := fun x hx => by
      simpa using grown.height_lt light hx
    have hjoin : ∀ x d, x ∈ q.items → d ∈ ds → max x.2.height d.2.height + 1 ≤ 2 * k := by
      intro x d hx hd
      have := hlow x hx
      have := hleaf d hd
      omega
    obtain ⟨x, q₁, y, q₂, hx, hy, rfl⟩ := step_eq_some.mp hs
    rcases pop_append hds hx with ⟨q₁, hx₁, rfl⟩ | ⟨rfl, hn, rfl⟩
    · have hc := count_pop hx₁
      have hmem := fun z => (pop_perm hx₁).mem_iff (a := z)
      rcases pop_append hds hy with ⟨q₂, hy₁, rfl⟩ | ⟨rfl, hn, rfl⟩
      · have hs₁ : q.step = some (q₂.push (TwoQueues.join x y)) :=
          step_eq_some.mpr ⟨x, q₁, y, q₂, hx₁, hy₁, rfl⟩
        obtain ⟨c', hg⟩ := grown.step hs₁
        have := count_step hs₁
        exact .sorted hg ((weight_step hs₁).trans_lt light) (by omega)
      -- the last tree is the second one
      · have hi : q₁.items = q₁.merged := by rw [items, hn, List.nil_append]
        refine Phase.of_low (q₁.merged ++ [TwoQueues.join x y]) (fun z hz => ?_) ?_
        · rcases List.mem_append.mp hz with hz | hz
          · exact (hlow z ((hmem z).mpr (List.mem_cons_of_mem _ (hi ▸ hz)))).le
          · rw [List.mem_singleton.mp hz]
            exact hjoin x y ((hmem x).mpr List.mem_cons_self) List.mem_cons_self
        · rw [count, hi] at hc
          simp only [List.length_append, List.length_cons, List.length_nil] at few ⊢
          omega
    -- the last tree is the first one
    · obtain ⟨is, hi, rfl⟩ := pop_merged hy
      have hq : q.items = y :: is := by rw [items, hn, List.nil_append, hi]
      refine Phase.of_low (is ++ [TwoQueues.join x y]) (fun z hz => ?_) ?_
      · rcases List.mem_append.mp hz with hz | hz
        · exact (hlow z (hq ▸ List.mem_cons_of_mem y hz)).le
        · rw [List.mem_singleton.mp hz]
          change max x.2.height y.2.height + 1 ≤ 2 * k
          rw [max_comm]
          exact hjoin y x (hq ▸ List.mem_cons_self) List.mem_cons_self
      · rw [count, hq] at few
        simp only [List.length_append, List.length_cons, List.length_nil] at few ⊢
        omega

theorem Phase.height_le (hleaf : ∀ d ∈ ds, d.2.height = 0) (h : Phase ds k j q)
    (hx : x ∈ q.items) : x.2.height ≤ 2 * k + 2 * j := by
  cases h with
  | @sorted c q grown light few =>
    have hx' : x ∈ q.items ∨ x ∈ ds := by
      simp only [items, append, List.mem_append] at hx ⊢
      tauto
    rcases hx' with hx | hx
    · have := grown.height_lt light hx
      omega
    · rw [hleaf x hx]
      exact Nat.zero_le _
  | @merged c is is₁ grown same light =>
    have hmem : x.2 ∈ is₁.map Prod.snd := same ▸ List.mem_map_of_mem hx
    obtain ⟨x₁, hx₁, he⟩ := List.mem_map.mp hmem
    rw [← he]
    exact (grown.height_lt light hx₁).le

/-- Two queues that begin with sorted single trees, of which the last one may be out of order, do
not merge them into high trees. -/
theorem Merges.height_le (hds : ds.length ≤ 1) (hleaf : ∀ x ∈ ls ++ ds, x.2.height = 0)
    (hpos : ∀ x ∈ ls, 1 ≤ x.1) (hls : ls.Pairwise fun x y => x.1 ≤ y.1)
    (hk : (ls.map Prod.fst).sum < 2 ^ k) (hj : ls.length + ds.length ≤ 2 ^ j)
    (h : Merges ⟨ls ++ ds, []⟩ q') (hx : x ∈ q'.items) : x.2.height ≤ 2 * k + 2 * j := by
  have hds0 : ∀ d ∈ ds, d.2.height = 0 := fun d hd => hleaf d (List.mem_append_right _ hd)
  have hi : (⟨ls, []⟩ : TwoQueues R α).items = ls := List.append_nil ls
  have hg : Grown 0 (1 : R) ⟨ls, []⟩ := by
    refine ⟨hls, List.Pairwise.nil, fun x hx => absurd hx List.not_mem_nil, fun x hx => ?_⟩
    rw [hi] at hx
    have h0 := hleaf x (List.mem_append_left _ hx)
    refine ⟨hpos x hx, ?_, fun hlt => absurd h0 hlt.ne'⟩
    rw [h0]
    exact (pow_zero (2 : R)).trans_le (hpos x hx)
  have hstart : Phase ds k j (⟨ls ++ ds, []⟩ : TwoQueues R α) :=
    .sorted (q := ⟨ls, []⟩) hg (by rwa [weight, hi]) (by rwa [count, hi])
  have hphase : Phase ds k j q' := by
    clear hx
    induction h with
    | refl => exact hstart
    | tail _ hs ih => exact ih.step hds hds0 hs
  exact hphase.height_le hds0 hx

end TwoQueues
end StorageServer.Library
