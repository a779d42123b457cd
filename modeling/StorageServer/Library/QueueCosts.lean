import StorageServer.Library.OptimalTrees
import StorageServer.Library.TwoQueues

/-! What two queues make of the costs. Sorted single trees are merged into a tree that is as cheap
as can be. A last single tree that is out of order comes to lie no deeper than any other leaf. -/
namespace StorageServer.Library
variable {R α : Type*}

namespace CodeTree
variable {t l r : CodeTree α} {i : α} {d : ℕ}

/-- The length of the shortest path. -/
def shallow : CodeTree α → ℕ
  | leaf _ => 0
  | node l r => min l.shallow r.shallow + 1

theorem At.shallow_le (h : At t i d) : t.shallow ≤ d := by
  induction h with
  | leaf i => exact Nat.le_refl _
  | left _ ih =>
    rw [shallow]
    omega
  | right _ ih =>
    rw [shallow]
    omega

end CodeTree

namespace TwoQueues
open CodeTree
variable {q q' : TwoQueues R α} {x y : R × CodeTree α} {ls is : List (R × CodeTree α)}

theorem nodup_items (h : q.leaves.Nodup) : q.items.Nodup := by
  refine (List.nodup_flatMap.mp h).2.imp fun {x y} hd => ?_
  rintro rfl
  obtain ⟨a, ha⟩ := List.exists_mem_of_ne_nil _ x.2.leaves_ne_nil
  exact hd ha ha

/-! ### Sorted queues -/

section Sorted
variable [CommRing R] [LinearOrder R] [IsStrictOrderedRing R] {w : α → R} {H : ℕ} {c v : R}
  {t : CodeTree α} {u : CodeTree (R × CodeTree α)}

/-- What is left to pay for is a tree whose leaves are the trees in the queues. -/
theorem Merges.cost_le_items (h : Merges q ⟨[], [(v, t)]⟩) (hg : Grown H c q)
    (hn : q.leaves.Nodup) (hw : ∀ x ∈ q.items, x.1 = x.2.weight w)
    (hu : u.leaves.Perm q.items) :
    t.cost w ≤ (q.items.map fun x => x.2.cost w).sum + u.cost Prod.fst := by
  induction h using Relation.ReflTransGen.head_induction_on generalizing c u with
  | refl =>
    have hcost : 0 ≤ u.cost Prod.fst :=
      cost_nonneg fun x hx => (hg.weighty x (hu.mem_iff.mp hx)).pos.le
    exact le_add_of_le_of_nonneg (List.sum_singleton).ge hcost
  | @head q q' hs _ ih =>
    obtain ⟨x, q₁, y, q₂, hx, hy, rfl⟩ := step_eq_some.mp hs
    obtain ⟨c', hg'⟩ := hg.step hs
    obtain ⟨h₁, -, hxle⟩ := hg.pop hx
    obtain ⟨-, -, hyle⟩ := h₁.pop hy
    have hperm : q.items.Perm (x :: y :: q₂.items) := (pop_perm hx).trans ((pop_perm hy).cons x)
    have hpush := push_perm (join x y) q₂
    have hxy : x.1 ≤ y.1 := hxle y ((pop_perm hy).mem_iff.mpr List.mem_cons_self)
    have hjoin : (join x y).1 = x.1 + y.1 := rfl
    obtain ⟨u', hu', hcost⟩ := exists_merged (hu.nodup_iff.mpr (nodup_items hn))
      (hu.trans hperm) hxy hyle hjoin
    have hwx := hw x (hperm.mem_iff.mpr List.mem_cons_self)
    have hwy := hw y (hperm.mem_iff.mpr (List.mem_cons_of_mem x List.mem_cons_self))
    have hrest := ih hg' ((leaves_step hs).nodup_iff.mpr hn) (fun m hm => ?_) (hu'.trans hpush.symm)
    · have hsum := (hperm.map fun x => x.2.cost w).sum_eq
      have hsum' := (hpush.map fun x => x.2.cost w).sum_eq
      have hcost' : (join x y).2.cost w = x.2.cost w + y.2.cost w + (x.1 + y.1) := by
        rw [hwx, hwy]
        exact cost_node w x.2 y.2
      simp only [List.map_cons, List.sum_cons] at hsum hsum'
      linarith
    · rcases List.mem_cons.mp (hpush.mem_iff.mp hm) with rfl | hm
      · change x.1 + y.1 = (node x.2 y.2).weight w
        rw [hwx, hwy, weight_node]
      · exact hw m (hperm.mem_iff.mpr (List.mem_cons_of_mem x (List.mem_cons_of_mem y hm)))

/-- The single tree of a label. -/
def single (w : α → R) (a : α) : R × CodeTree α := (w a, .leaf a)

/-- Sorted labels are merged into a tree that no other one is cheaper than. -/
theorem Merges.cost_le {as : List α} {t' : CodeTree α}
    (h : Merges ⟨as.map (single w), []⟩ ⟨[], [(v, t)]⟩) (hn : as.Nodup)
    (hpos : ∀ a ∈ as, 1 ≤ w a) (hsorted : as.Pairwise fun a b => w a ≤ w b)
    (ht' : t'.leaves.Perm as) : t.cost w ≤ t'.cost w := by
  have hitems : (⟨as.map (single w), []⟩ : TwoQueues R α).items = as.map (single w) :=
    List.append_nil _
  have hleaves : (⟨as.map (single w), []⟩ : TwoQueues R α).leaves = as := by
    rw [TwoQueues.leaves, hitems, List.flatMap_map]
    exact List.flatMap_singleton' as
  have hg : Grown 0 (1 : R) ⟨as.map (single w), []⟩ := by
    refine ⟨List.pairwise_map.mpr hsorted, List.Pairwise.nil,
      fun x hx => absurd hx List.not_mem_nil, fun x hx => ?_⟩
    obtain ⟨a, ha, rfl⟩ := List.mem_map.mp (hitems ▸ hx)
    have h0 : (single w a).2.height = 0 := rfl
    refine ⟨hpos a ha, ?_, fun hlt => absurd hlt (lt_irrefl 0)⟩
    rw [h0]
    exact (pow_zero (2 : R)).trans_le (hpos a ha)
  have hw : ∀ x ∈ (⟨as.map (single w), []⟩ : TwoQueues R α).items, x.1 = x.2.weight w := by
    intro x hx
    obtain ⟨a, -, rfl⟩ := List.mem_map.mp (hitems ▸ hx)
    exact (weight_leaf w a).symm
  have hu : (t'.map (single w)).leaves.Perm (⟨as.map (single w), []⟩ : TwoQueues R α).items := by
    rw [hitems, leaves_map]
    exact ht'.map _
  have hle := h.cost_le_items hg (hleaves.symm ▸ hn) hw hu
  have hzero : ((as.map (single w)).map fun x => x.2.cost w).sum = 0 := by
    rw [List.map_map]
    refine List.sum_eq_zero fun m hm => ?_
    obtain ⟨a, -, rfl⟩ := List.mem_map.mp hm
    exact cost_leaf w a
  rw [hitems, hzero, zero_add, cost_map] at hle
  exact hle

end Sorted

/-! ### A single tree behind the others -/

section Late
variable {z : α} {v v' : R} {t : CodeTree α} {d : ℕ}

section Add
variable [Add R]

theorem shallow_join (x y : R × CodeTree α) :
    (join x y).2.shallow = min x.2.shallow y.2.shallow + 1 := rfl

/-- The tree with the leaf `z` waits behind the single ones, or it is somewhere in the queue of the
merged ones: what is in front of it is as deep as this leaf, and what is behind it is deeper. -/
inductive Late (z : α) : TwoQueues R α → Prop
  | waiting {q : TwoQueues R α} {v : R} (deep : ∀ x ∈ q.merged, 1 ≤ x.2.shallow) :
      Late z (q.append [(v, .leaf z)])
  | merged {front behind : List (R × CodeTree α)} {x : R × CodeTree α} {d : ℕ}
      (at_z : At x.2 z d) (deep : d ≤ x.2.shallow) (in_front : ∀ y ∈ front, d ≤ y.2.shallow)
      (deeper : ∀ y ∈ behind, d + 1 ≤ y.2.shallow) : Late z ⟨[], front ++ x :: behind⟩

/-- The new tree is behind all the others. -/
theorem Late.push (hz : At (join x y).2 z d) (hd : d ≤ (join x y).2.shallow)
    (his : ∀ i ∈ is, d ≤ i.2.shallow) : Late z ⟨[], is ++ [join x y]⟩ :=
  .merged hz hd his fun _ hi => nomatch hi

end Add

variable [LinearOrder R] [Add R]

/-- Merged trees only are taken in their order. -/
theorem merged_of_step (hs : (⟨[], is⟩ : TwoQueues R α).step = some q') :
    ∃ x y is', is = x :: y :: is' ∧ q' = ⟨[], is' ++ [join x y]⟩ := by
  match is, hs with
  | x::y::is', hs => exact ⟨x, y, is', rfl, (Option.some.inj hs).symm⟩

theorem Late.step (h : Late z q) (hs : q.step = some q') : Late z q' := by
  cases h with
  | @waiting q v deep =>
    obtain ⟨x, q₁, y, q₂, hx, hy, rfl⟩ := step_eq_some.mp hs
    rcases pop_append le_rfl hx with ⟨q₁, hx₁, rfl⟩ | ⟨he, -, rfl⟩
    · have hdeep : ∀ m ∈ q₁.merged, 1 ≤ m.2.shallow := fun m hm =>
        deep m (mem_merged_of_pop hx₁ hm)
      rcases pop_append le_rfl hy with ⟨q₂, hy₁, rfl⟩ | ⟨he, -, rfl⟩
      · have hpush : ∀ m ∈ (q₂.push (join x y)).merged, 1 ≤ m.2.shallow := by
          intro m hm
          rcases List.mem_append.mp hm with hm | hm
          · exact hdeep m (mem_merged_of_pop hy₁ hm)
          · rw [List.mem_singleton.mp hm, shallow_join]
            exact Nat.le_add_left _ _
        have hwaiting : Late z ((q₂.push (join x y)).append [(v, .leaf z)]) := .waiting hpush
        exact hwaiting
      · obtain ⟨rfl, -⟩ := List.cons.inj he
        exact .push (At.leaf z).right (Nat.le_add_left _ _) hdeep
    · obtain ⟨rfl, -⟩ := List.cons.inj he
      obtain ⟨is, hi, rfl⟩ := pop_merged hy
      exact .push (At.leaf z).left (Nat.le_add_left _ _) fun m hm =>
        deep m (hi ▸ List.mem_cons_of_mem y hm)
  | @merged front behind x d at_z deep in_front deeper =>
    obtain ⟨a, b, is, he, rfl⟩ := merged_of_step hs
    cases front with
    | nil =>
      obtain ⟨rfl, rfl⟩ := List.cons.inj he
      have hb := deeper b List.mem_cons_self
      refine .push at_z.left ?_ fun m hm => deeper m (List.mem_cons_of_mem b hm)
      rw [shallow_join]
      omega
    | cons c front =>
      obtain ⟨rfl, htail⟩ := List.cons.inj he
      have ha := in_front c List.mem_cons_self
      cases front with
      | nil =>
        obtain ⟨rfl, rfl⟩ := List.cons.inj htail
        refine .push at_z.right ?_ deeper
        rw [shallow_join]
        omega
      | cons c' front =>
        obtain ⟨rfl, rfl⟩ := List.cons.inj htail
        have hb := in_front c' (List.mem_cons_of_mem c List.mem_cons_self)
        change Late z ⟨[], front ++ x :: behind ++ [join c c']⟩
        rw [List.append_assoc]
        refine .merged at_z deep (fun m hm => ?_) fun m hm => ?_
        · exact in_front m (List.mem_cons_of_mem c (List.mem_cons_of_mem c' hm))
        · rcases List.mem_append.mp hm with hm | hm
          · exact deeper m hm
          · rw [List.mem_singleton.mp hm, shallow_join]
            omega

/-- The last one of the single trees, if it is a leaf, is not below any other leaf. -/
theorem Merges.exists_late (h : Merges ⟨ls ++ [(v, .leaf z)], []⟩ ⟨[], [(v', t)]⟩) :
    ∃ d, At t z d ∧ ∀ i e, At t i e → d ≤ e := by
  have hlate : Late z ⟨[], [(v', t)]⟩ := by
    generalize (⟨[], [(v', t)]⟩ : TwoQueues R α) = q' at h
    induction h with
    | refl =>
      have hwaiting : Late z ((⟨ls, []⟩ : TwoQueues R α).append [(v, .leaf z)]) :=
        .waiting fun x hx => nomatch hx
      exact hwaiting
    | tail _ hs ih => exact ih.step hs
  generalize hq : (⟨[], [(v', t)]⟩ : TwoQueues R α) = q at hlate
  cases hlate with
  | @waiting q v deep =>
    have hnil := congrArg TwoQueues.singles hq
    exact absurd hnil.symm (List.append_ne_nil_of_right_ne_nil _ (List.cons_ne_nil _ _))
  | @merged front behind x d at_z deep in_front deeper =>
    have hm : [(v', t)] = front ++ x :: behind := congrArg TwoQueues.merged hq
    match front, hm with
    | [], hm =>
      obtain ⟨rfl, -⟩ := List.cons.inj hm
      exact ⟨d, at_z, fun i e he => deep.trans he.shallow_le⟩
    | _::front, hm => exact absurd (List.cons.inj hm).2.symm (by simp)

end Late

/-! ### Single trees of one weight -/

section Flat
variable [CommRing R] [LinearOrder R] [IsStrictOrderedRing R] {c v : R} {n : ℕ} {t : CodeTree α}

omit [CommRing R] [IsStrictOrderedRing R] in
theorem pop_single (h : ∀ i ∈ is, x.1 ≤ i.1) :
    (⟨x :: ls, is⟩ : TwoQueues R α).pop = some (x, ⟨ls, is⟩) := by
  cases is with
  | nil => rfl
  | cons i is =>
    change some (if x.1 ≤ i.1 then _ else _) = _
    rw [if_pos (h i List.mem_cons_self)]

/-- As long as there are single trees, these are taken, and in pairs. Then all trees are of one
height, up to those that have been merged from two of them. -/
inductive Flat (c : R) (n : ℕ) : TwoQueues R α → Prop
  | paired {ls is : List (R × CodeTree α)} (singles : ls ≠ [])
      (level : ∀ x ∈ ls, x.2.Level 0) (level_merged : ∀ x ∈ is, x.2.Level 1)
      (light : ∀ x ∈ ls, 0 ≤ x.1 ∧ x.1 ≤ c) (but_last : ∀ x ∈ ls.dropLast, c ≤ x.1)
      (heavy : ∀ x ∈ is, c ≤ x.1) (count : ls.length + 2 * is.length = 2 ^ n) : Flat c n ⟨ls, is⟩
  | merged {low high : List (R × CodeTree α)} {h k : ℕ} (level : ∀ x ∈ low, x.2.Level h)
      (level_merged : ∀ x ∈ high, x.2.Level (h + 1))
      (count : low.length + 2 * high.length = 2 ^ k) (sum : h + k = n) : Flat c n ⟨[], low ++ high⟩

omit [LinearOrder R] [IsStrictOrderedRing R] in
theorem level_push {h : ℕ} (his : ∀ i ∈ is, i.2.Level (h + 1)) (hx : x.2.Level h)
    (hy : y.2.Level h) : ∀ i ∈ is ++ [join x y], i.2.Level (h + 1) := by
  intro i hi
  rcases List.mem_append.mp hi with hi | hi
  · exact his i hi
  · rw [List.mem_singleton.mp hi]
    exact hx.node hy

/-- A power of two with two summands, one of which is even. -/
theorem even_of_two_pow {a b k : ℕ} (h : a + 2 * b = 2 ^ k) (hab : 2 ≤ a + b) : Even a := by
  cases k with
  | zero => omega
  | succ k => exact ⟨2 ^ k - b, by rw [pow_succ] at h; omega⟩

/-- Two single trees have been joined. -/
theorem flat_of_singles (level : ∀ m ∈ x :: y :: ls, m.2.Level 0)
    (level_merged : ∀ m ∈ is ++ [join x y], m.2.Level 1)
    (light : ∀ m ∈ x :: y :: ls, 0 ≤ m.1 ∧ m.1 ≤ c)
    (but_last : ∀ m ∈ (x :: y :: ls).dropLast, c ≤ m.1) (heavy : ∀ m ∈ is, c ≤ m.1)
    (count : (x :: y :: ls).length + 2 * is.length = 2 ^ n) :
    Flat c n ⟨ls, is ++ [join x y]⟩ := by
  have hlength : (is ++ [join x y]).length = is.length + 1 := List.length_append
  simp only [List.length_cons] at count
  cases ls with
  | nil =>
    have hnil : ∀ m ∈ ([] : List (R × CodeTree α)), m.2.Level 0 := fun m hm => nomatch hm
    have hcount : 0 + 2 * (is ++ [join x y]).length = 2 ^ n := by
      rw [hlength, ← count]
      simp only [List.length_nil]
      omega
    have hmerged : Flat c n ⟨[], [] ++ (is ++ [join x y])⟩ :=
      .merged hnil level_merged hcount (Nat.zero_add n)
    exact hmerged
  | cons l ls =>
    have hmem : ∀ m ∈ l :: ls, m ∈ x :: y :: l :: ls := fun m hm =>
      List.mem_cons_of_mem x (List.mem_cons_of_mem y hm)
    refine .paired (List.cons_ne_nil l ls) (fun m hm => level m (hmem m hm)) level_merged
      (fun m hm => light m (hmem m hm))
      (fun m hm => but_last m (List.mem_cons_of_mem x (List.mem_cons_of_mem y hm)))
      (fun m hm => ?_) (by rw [hlength]; omega)
    rcases List.mem_append.mp hm with hm | hm
    · exact heavy m hm
    · rw [List.mem_singleton.mp hm]
      have hy0 := (light y (List.mem_cons_of_mem x List.mem_cons_self)).1
      exact (but_last x List.mem_cons_self).trans (le_add_of_nonneg_right hy0)

omit [IsStrictOrderedRing R] in
/-- The first two of the merged trees have been joined. -/
theorem flat_of_merged {low high : List (R × CodeTree α)} {h k : ℕ}
    (he : low ++ high = x :: y :: is) (level : ∀ m ∈ low, m.2.Level h)
    (level_merged : ∀ m ∈ high, m.2.Level (h + 1))
    (count : low.length + 2 * high.length = 2 ^ k) (sum : h + k = n) :
    Flat c n ⟨[], is ++ [join x y]⟩ := by
  cases low with
  -- all trees are of one height again
  | nil =>
    obtain rfl : high = x :: y :: is := he
    simp only [List.length_nil, List.length_cons] at count
    cases k with
    | zero => omega
    | succ k =>
      rw [pow_succ] at count
      have hcount : is.length + 2 * 1 = 2 ^ k := by omega
      have hnil : ∀ m ∈ ([] : List (R × CodeTree α)), m.2.Level (h + 1 + 1) :=
        fun m hm => nomatch hm
      exact .merged
        (fun m hm => level_merged m (List.mem_cons_of_mem x (List.mem_cons_of_mem y hm)))
        (level_push hnil (level_merged x List.mem_cons_self)
          (level_merged y (List.mem_cons_of_mem x List.mem_cons_self))) hcount
        ((Nat.succ_add_eq_add_succ h k).trans sum)
  | cons a low =>
    obtain ⟨rfl, htail⟩ := List.cons.inj he
    cases low with
    | nil =>
      obtain rfl : high = y :: is := htail
      have heven : Even 1 := even_of_two_pow count (by rw [List.length_cons]; omega)
      exact absurd heven (by decide)
    | cons b low =>
      obtain ⟨rfl, rfl⟩ := List.cons.inj htail
      change Flat c n ⟨[], low ++ high ++ [join a b]⟩
      rw [List.append_assoc]
      simp only [List.length_cons] at count
      exact .merged (fun m hm => level m (List.mem_cons_of_mem a (List.mem_cons_of_mem b hm)))
        (level_push level_merged (level a List.mem_cons_self)
          (level b (List.mem_cons_of_mem a List.mem_cons_self)))
        (by rw [List.length_append, List.length_singleton]; omega) sum

theorem Flat.step (h : Flat c n q) (hs : q.step = some q') : Flat c n q' := by
  cases h with
  | @paired ls is singles level level_merged light but_last heavy count =>
    match ls, singles with
    | [x], _ =>
      cases is with
      | nil => exact nomatch hs
      | cons i is =>
        have heven : Even 1 := even_of_two_pow count (by rw [List.length_cons]; omega)
        exact absurd heven (by decide)
    | x::y::ls, _ =>
      have hxc := (light x List.mem_cons_self).2
      have hyc := (light y (List.mem_cons_of_mem x List.mem_cons_self)).2
      have hstep : (⟨x :: y :: ls, is⟩ : TwoQueues R α).step =
          some ⟨ls, is ++ [join x y]⟩ := step_eq_some.mpr
        ⟨x, _, y, _, pop_single fun i hi => hxc.trans (heavy i hi),
          pop_single fun i hi => hyc.trans (heavy i hi), rfl⟩
      obtain rfl := Option.some.inj (hstep.symm.trans hs)
      exact flat_of_singles level (level_push level_merged (level x List.mem_cons_self)
        (level y (List.mem_cons_of_mem x List.mem_cons_self))) light but_last heavy count
  | @merged low high h k level level_merged count sum =>
    obtain ⟨x, y, is, he, rfl⟩ := merged_of_step hs
    exact flat_of_merged he level level_merged count sum

/-- Leaves of one weight, up to the last one, come to lie at one depth if their number is a power
of two. -/
theorem Merges.level (h : Merges ⟨ls, []⟩ ⟨[], [(v, t)]⟩) (hlevel : ∀ x ∈ ls, x.2.Level 0)
    (hlight : ∀ x ∈ ls, 0 ≤ x.1 ∧ x.1 ≤ c) (hlast : ∀ x ∈ ls.dropLast, c ≤ x.1)
    (hcount : ls.length = 2 ^ n) : t.Level n := by
  have hflat : Flat c n ⟨[], [(v, t)]⟩ := by
    generalize (⟨[], [(v, t)]⟩ : TwoQueues R α) = q' at h
    induction h with
    | refl =>
      have hne : ls ≠ [] := List.length_pos_iff.mp (hcount ▸ Nat.two_pow_pos n)
      exact .paired hne hlevel (fun x hx => nomatch hx) hlight hlast (fun x hx => nomatch hx) hcount
    | tail _ hs ih => exact ih.step hs
  generalize hq : (⟨[], [(v, t)]⟩ : TwoQueues R α) = q at hflat
  cases hflat with
  | @paired ls is singles => exact absurd (congrArg TwoQueues.singles hq).symm singles
  | @merged low high h k level level_merged count sum =>
    have hm : [(v, t)] = low ++ high := congrArg TwoQueues.merged hq
    cases low with
    | nil =>
      obtain rfl : [(v, t)] = high := hm
      have hk : 2 ^ k = 2 ^ 1 := count.symm
      obtain rfl := Nat.pow_right_injective le_rfl hk
      exact sum ▸ level_merged (v, t) List.mem_cons_self
    | cons a low =>
      obtain ⟨rfl, htail⟩ := List.cons.inj hm
      obtain ⟨rfl, rfl⟩ := List.append_eq_nil_iff.mp htail.symm
      have hk : 2 ^ k = 2 ^ 0 := count.symm
      obtain rfl := Nat.pow_right_injective le_rfl hk
      exact sum ▸ level (v, t) List.mem_cons_self

theorem Merges.level_of_even {w : α → R} {as : List α} {z : α}
    (h : Merges ⟨as.map (single w) ++ [single w z], []⟩ ⟨[], [(v, t)]⟩)
    (heven : ∀ a ∈ as, w a = c) (hc : 0 ≤ c) (hz : 0 ≤ w z) (hzc : w z ≤ c)
    (hcount : as.length + 1 = 2 ^ n) : t.Level n := by
  have hlight : ∀ x ∈ as.map (single w) ++ [single w z], 0 ≤ x.1 ∧ x.1 ≤ c := by
    intro x hx
    rcases List.mem_append.mp hx with hx | hx
    · obtain ⟨a, ha, rfl⟩ := List.mem_map.mp hx
      exact ⟨hc.trans_eq (heven a ha).symm, (heven a ha).le⟩
    · rw [List.mem_singleton.mp hx]
      exact ⟨hz, hzc⟩
  refine h.level (fun x hx => ?_) hlight (fun x hx => ?_) ?_
  · rcases List.mem_append.mp hx with hx | hx
    · obtain ⟨a, -, rfl⟩ := List.mem_map.mp hx
      exact level_leaf a
    · rw [List.mem_singleton.mp hx]
      exact level_leaf z
  · rw [List.dropLast_concat] at hx
    obtain ⟨a, ha, rfl⟩ := List.mem_map.mp hx
    exact (heven a ha).ge
  · rw [List.length_append, List.length_map]
    exact hcount

end Flat

end TwoQueues
end StorageServer.Library
