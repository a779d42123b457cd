import StorageServer.Library.KeyedList

/-! Finite maps with room for a fixed number of entries, which remember the order in which their
entries came. -/
namespace StorageServer.Library.KeyedList
variable {α κ : Type*} [DecidableEq κ] {f : α → κ} {bound : ℕ} {k k' : κ} {x : α}

structure BoundedMap (f : α → κ) (bound : ℕ) where
  entries : List α
  distinct : Distinct f entries
  length_le : entries.length ≤ bound

namespace BoundedMap

def empty : BoundedMap f bound := ⟨[], List.nodup_nil, Nat.zero_le _⟩

/-- The entry under a key. -/
def find (m : BoundedMap f bound) (k : κ) : Option α := lookup f k m.entries

def Full (m : BoundedMap f bound) : Prop := m.entries.length = bound

instance (m : BoundedMap f bound) : Decidable m.Full := inferInstanceAs (Decidable (_ = _))

/-- A new entry goes last. -/
def insert (m : BoundedMap f bound) (x : α) (hx : m.find (f x) = none) (hroom : ¬ m.Full) :
    BoundedMap f bound where
  entries := m.entries ++ [x]
  distinct := by
    have h := m.distinct.touch x
    rwa [touch, without_of_lookup_none hx] at h
  length_le := by
    rw [List.length_append]
    exact Nat.lt_of_le_of_ne m.length_le hroom

/-- The other entries keep their order. -/
def erase (m : BoundedMap f bound) (k : κ) : BoundedMap f bound where
  entries := without f k m.entries
  distinct := m.distinct.without k
  length_le := (List.length_filter_le _ _).trans m.length_le

variable {m : BoundedMap f bound}

theorem find_eq_none : m.find k = none ↔ k ∉ m.entries.map f := by
  rw [find, lookup_eq_none, List.mem_map]
  exact ⟨fun h ⟨x, hx, he⟩ => h x hx he, fun h x hx he => h ⟨x, hx, he⟩⟩

theorem find_insert {hx : m.find (f x) = none} {hroom : ¬ m.Full} :
    (m.insert x hx hroom).find k = if k = f x then some x else m.find k := by
  have h : (m.insert x hx hroom).entries = touch f x m.entries := by
    rw [touch, without_of_lookup_none hx]
    rfl
  rw [find, h]
  split_ifs with hk
  · rw [hk, lookup_touch_self]
  · exact lookup_touch_of_ne hk

theorem find_erase : (m.erase k').find k = if k = k' then none else m.find k := by
  split_ifs with hk
  · rw [hk]
    exact lookup_without_self
  · exact lookup_without_of_ne hk

/-- Dropping the first entry under a key drops the only one. -/
theorem entries_erase (m : BoundedMap f bound) (k : κ) :
    (m.erase k).entries = m.entries.eraseP (fun x => f x = k) := by
  have hd := m.distinct
  change without f k m.entries = _
  generalize m.entries = xs at hd
  induction xs with
  | nil => rfl
  | cons x xs ih =>
    obtain ⟨hx, hd⟩ := List.nodup_cons.mp hd
    by_cases hk : f x = k
    · rw [List.eraseP_cons_of_pos (by simpa using hk), without,
        List.filter_cons_of_neg (by simpa using hk)]
      refine without_of_lookup_none (lookup_eq_none.mpr fun y hy he => hx ?_)
      exact List.mem_map.mpr ⟨y, hy, he.trans hk.symm⟩
    · rw [List.eraseP_cons_of_neg (by simpa using hk), without,
        List.filter_cons_of_pos (by simpa using hk)]
      exact congrArg _ (ih hd)

end BoundedMap
end StorageServer.Library.KeyedList
