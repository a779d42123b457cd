import Mathlib.Data.List.Nodup
import Mathlib.Data.List.Dedup
import Mathlib.Algebra.BigOperators.Group.List.Basic
import Mathlib.Tactic.Ring

/-! Lists whose elements carry keys, read as finite maps that remember an order. When the keys
are distinct the list is determined by what is found under each key and by that order. -/
namespace StorageServer.Library.KeyedList
variable {α κ : Type*} [DecidableEq κ] {f : α → κ} {k k' : κ} {x y : α} {xs ys : List α}

def lookup (f : α → κ) (k : κ) (xs : List α) : Option α := xs.find? (fun x => f x = k)

def without (f : α → κ) (k : κ) (xs : List α) : List α := xs.filter (fun x => f x ≠ k)

/-- Put an element last, in the place of the one under its key. -/
def touch (f : α → κ) (x : α) (xs : List α) : List α := without f (f x) xs ++ [x]

/-- Put an element where the one under its key stands. -/
def replace (f : α → κ) (x : α) (xs : List α) : List α :=
  xs.map (fun y => if f y = f x then x else y)

def Distinct (f : α → κ) (xs : List α) : Prop := (xs.map f).Nodup

theorem lookup_cons_of_eq (h : f x = k) : lookup f k (x::xs) = some x :=
  List.find?_cons_of_pos (by simpa using h)

theorem lookup_cons_of_ne (h : f x ≠ k) : lookup f k (x::xs) = lookup f k xs :=
  List.find?_cons_of_neg (by simpa using h)

theorem mem_of_lookup (h : lookup f k xs = some x) : x ∈ xs := List.mem_of_find?_eq_some h

theorem key_of_lookup (h : lookup f k xs = some x) : f x = k := by
  simpa using List.find?_some h

theorem lookup_eq_none : lookup f k xs = none ↔ ∀ x ∈ xs, f x ≠ k := by
  simp [lookup]

omit [DecidableEq κ] in
theorem Distinct.eq_of_key (h : Distinct f xs) (hx : x ∈ xs) (hy : y ∈ xs) (he : f x = f y) :
    x = y := List.inj_on_of_nodup_map h hx hy he

theorem Distinct.lookup_eq_some (h : Distinct f xs) :
    lookup f k xs = some x ↔ x ∈ xs ∧ f x = k := by
  constructor
  · exact fun hl => ⟨mem_of_lookup hl, key_of_lookup hl⟩
  · rintro ⟨hx, rfl⟩
    cases hl : lookup f (f x) xs with
    | none => exact absurd rfl (lookup_eq_none.mp hl x hx)
    | some y => rw [h.eq_of_key (mem_of_lookup hl) hx (key_of_lookup hl)]

theorem Distinct.lookup_self (h : Distinct f xs) (hx : x ∈ xs) : lookup f (f x) xs = some x :=
  h.lookup_eq_some.mpr ⟨hx, rfl⟩

/-! ### What is found after an update -/

theorem mem_without : x ∈ without f k xs ↔ x ∈ xs ∧ f x ≠ k := by simp [without]

theorem mem_touch : y ∈ touch f x xs ↔ y = x ∨ y ∈ xs ∧ f y ≠ f x := by
  simp [touch, mem_without, or_comm]

theorem lookup_append : lookup f k (xs ++ ys) = (lookup f k xs).or (lookup f k ys) :=
  List.find?_append

theorem lookup_without_self : lookup f k (without f k xs) = none :=
  lookup_eq_none.mpr fun _ hx => (mem_without.mp hx).2

theorem lookup_without_of_ne (h : k ≠ k') : lookup f k (without f k' xs) = lookup f k xs := by
  induction xs with
  | nil => rfl
  | cons x xs ih =>
    by_cases hx : f x = k'
    · have hk : f x ≠ k := fun he => h (he.symm.trans hx)
      rw [without, List.filter_cons_of_neg (by simpa using hx), lookup_cons_of_ne hk]
      exact ih
    · rw [without, List.filter_cons_of_pos (by simpa using hx)]
      by_cases hk : f x = k
      · rw [lookup_cons_of_eq hk, lookup_cons_of_eq hk]
      · rw [lookup_cons_of_ne hk, lookup_cons_of_ne hk]
        exact ih

@[simp] theorem lookup_touch_self : lookup f (f x) (touch f x xs) = some x := by
  rw [touch, lookup_append, lookup_without_self, Option.none_or, lookup_cons_of_eq rfl]

theorem lookup_touch_of_ne (h : k ≠ f x) : lookup f k (touch f x xs) = lookup f k xs := by
  have hx : lookup f k [x] = none := lookup_cons_of_ne h.symm
  rw [touch, lookup_append, lookup_without_of_ne h, hx, Option.or_none]

theorem lookup_replace_of_ne (h : k ≠ f x) : lookup f k (replace f x xs) = lookup f k xs := by
  induction xs with
  | nil => rfl
  | cons y ys ih =>
    rw [replace, List.map_cons]
    by_cases hy : f y = f x
    · have hk : f y ≠ k := fun he => h (he.symm.trans hy)
      rw [if_pos hy, lookup_cons_of_ne h.symm, lookup_cons_of_ne hk]
      exact ih
    · rw [if_neg hy]
      by_cases hk : f y = k
      · rw [lookup_cons_of_eq hk, lookup_cons_of_eq hk]
      · rw [lookup_cons_of_ne hk, lookup_cons_of_ne hk]
        exact ih

theorem lookup_replace_self (h : lookup f (f x) xs = some y) :
    lookup f (f x) (replace f x xs) = some x := by
  induction xs with
  | nil => cases h
  | cons z zs ih =>
    rw [replace, List.map_cons]
    by_cases hz : f z = f x
    · rw [if_pos hz, lookup_cons_of_eq rfl]
    · rw [lookup_cons_of_ne hz] at h
      rw [if_neg hz, lookup_cons_of_ne hz]
      exact ih h

/-- A change of the elements that keeps their keys. -/
theorem lookup_map {h : α → α} (hf : ∀ x ∈ xs, f (h x) = f x) :
    lookup f k (xs.map h) = (lookup f k xs).map h := by
  induction xs with
  | nil => rfl
  | cons x xs ih =>
    have hx := hf x List.mem_cons_self
    have ih := ih fun y hy => hf y (List.mem_cons_of_mem _ hy)
    rw [List.map_cons]
    by_cases hk : f x = k
    · rw [lookup_cons_of_eq (hx.trans hk), lookup_cons_of_eq hk]
      rfl
    · rw [lookup_cons_of_ne (by rwa [hx]), lookup_cons_of_ne hk, ih]

/-- Replacing an element by one that looks the same under another key. -/
theorem map_lookup_replace {ι β : Type*} [DecidableEq ι] {g : α → ι} {p : α → β}
    (h : ∀ y ∈ xs, f y = f x → g x = g y ∧ p x = p y) (i : ι) :
    (lookup g i (replace f x xs)).map p = (lookup g i xs).map p := by
  rw [replace, lookup_map, Option.map_map]
  · refine Option.map_congr fun y hy => ?_
    rw [Function.comp_apply]
    split_ifs with hyx
    · exact (h y (mem_of_lookup hy) hyx).2
    · rfl
  · intro y hy
    split_ifs with hyx
    · exact (h y hy hyx).1
    · rfl

/-- Taking an element with a distinct key out of the list. -/
theorem Distinct.without_split (h : Distinct f (xs ++ x :: ys)) (hk : f x = k) :
    KeyedList.without f k (xs ++ x :: ys) = xs ++ ys := by
  rw [KeyedList.without, List.filter_append, List.filter_cons_of_neg (by simpa using hk),
    ← List.filter_append, List.filter_eq_self]
  intro z hz
  rw [Distinct, List.map_append, List.map_cons, List.nodup_middle, List.nodup_cons,
    ← List.map_append] at h
  have hzk : f z ≠ k := fun he => h.1 (hk ▸ he ▸ List.mem_map_of_mem hz)
  simpa using hzk

/-- Touching the last element again does nothing, touching another one moves it. -/
theorem Distinct.touch_eq_self_iff (h : Distinct f xs) :
    touch f x xs = xs ↔ xs.getLast? = some x := by
  constructor
  · intro he
    rw [← he, touch, List.getLast?_concat]
  · intro he
    obtain ⟨ys, rfl⟩ := List.getLast?_eq_some_iff.mp he
    rw [touch, h.without_split rfl, List.append_nil]

theorem without_replace : without f (f x) (replace f x xs) = without f (f x) xs := by
  induction xs with
  | nil => rfl
  | cons y ys ih =>
    rw [replace, List.map_cons]
    by_cases hy : f y = f x
    · rw [if_pos hy, without, without, List.filter_cons_of_neg (by simp),
        List.filter_cons_of_neg (by simpa using hy)]
      exact ih
    · rw [if_neg hy, without, without, List.filter_cons_of_pos (by simpa using hy),
        List.filter_cons_of_pos (by simpa using hy)]
      exact congrArg _ ih

theorem mem_replace (h : y ∈ replace f x xs) : y = x ∨ y ∈ xs ∧ f y ≠ f x := by
  obtain ⟨z, hz, he⟩ := List.mem_map.mp h
  split_ifs at he with hk
  · exact Or.inl he.symm
  · subst he
    exact Or.inr ⟨hz, hk⟩

/-- Dropping a first part of a list forgets exactly its keys. -/
theorem Distinct.lookup_drop (h : Distinct f (xs ++ ys)) :
    lookup f k ys = if (lookup f k xs).isSome then none else lookup f k (xs ++ ys) := by
  rw [lookup_append]
  cases hx : lookup f k xs with
  | none => simp
  | some x =>
    simp only [Option.isSome_some, if_true]
    refine lookup_eq_none.mpr fun y hy he => ?_
    have hd := List.disjoint_of_nodup_append (by simpa [Distinct] using h)
    exact hd (List.mem_map_of_mem (f := f) (mem_of_lookup hx))
      (by rw [key_of_lookup hx, ← he]; exact List.mem_map_of_mem hy)

/-! ### The keys in order -/

theorem map_without : (without f k xs).map f = (xs.map f).filter (· ≠ k) := by
  rw [without, List.filter_map]
  rfl

theorem map_touch : (touch f x xs).map f = (xs.map f).filter (· ≠ f x) ++ [f x] := by
  rw [touch, List.map_append, map_without]
  rfl

/-- Replacing an element by one with the same image. -/
theorem map_replace_of_eq {β : Type*} {g : α → β} (h : ∀ y ∈ xs, f y = f x → g x = g y) :
    (replace f x xs).map g = xs.map g := by
  rw [replace, List.map_map]
  apply List.map_congr_left
  intro y hy
  rw [Function.comp_apply]
  split_ifs with hk
  · exact h y hy hk
  · rfl

theorem map_replace : (replace f x xs).map f = xs.map f :=
  map_replace_of_eq fun _ _ h => h.symm

theorem Distinct.without (h : Distinct f xs) (k : κ) : Distinct f (without f k xs) := by
  rw [Distinct, map_without]
  exact h.filter _

theorem Distinct.touch (h : Distinct f xs) (x : α) : Distinct f (touch f x xs) := by
  rw [Distinct, map_touch, ← List.concat_eq_append]
  exact (h.filter _).concat (by simp)

theorem Distinct.replace (h : Distinct f xs) (x : α) : Distinct f (replace f x xs) := by
  rw [Distinct, map_replace]
  exact h

omit [DecidableEq κ] in
theorem Distinct.of_append_right (h : Distinct f (xs ++ ys)) : Distinct f ys := by
  rw [Distinct, List.map_append] at h
  exact h.of_append_right

omit [DecidableEq κ] in
theorem Distinct.ne_of_append (h : Distinct f (xs ++ ys)) (hx : x ∈ xs) (hy : y ∈ ys) :
    f x ≠ f y := by
  rw [Distinct, List.map_append] at h
  exact fun heq => List.disjoint_of_nodup_append h (List.mem_map_of_mem hx)
    (heq ▸ List.mem_map_of_mem hy)

/-! ### Counting -/

theorem without_of_lookup_none (h : lookup f k xs = none) : without f k xs = xs :=
  List.filter_eq_self.mpr fun x hx => by simpa using lookup_eq_none.mp h x hx

theorem Distinct.perm (h : Distinct f xs) (hx : lookup f k xs = some x) :
    List.Perm xs (x :: KeyedList.without f k xs) := by
  obtain ⟨ys, zs, rfl⟩ := List.append_of_mem (mem_of_lookup hx)
  rw [h.without_split (key_of_lookup hx)]
  exact List.perm_middle

theorem Distinct.length_without (h : Distinct f xs) (hx : lookup f k xs = some x) :
    xs.length = (KeyedList.without f k xs).length + 1 := (h.perm hx).length_eq

theorem Distinct.sum_without (h : Distinct f xs) (hx : lookup f k xs = some x) (g : α → ℕ) :
    (xs.map g).sum = g x + ((KeyedList.without f k xs).map g).sum := by
  rw [((h.perm hx).map g).sum_eq, List.map_cons, List.sum_cons]

end StorageServer.Library.KeyedList
