import Mathlib.Order.Lattice
import Mathlib.Data.Nat.Basic

/-! Functions that are given fuel. What such a function computes is what it gives with enough fuel,
and it gives nothing else with less. -/
namespace StorageServer.Library.Fuel
variable {α β : Type*} {f : ℕ → Option α} {a : α} {b : β}

structure Returns (f : ℕ → Option α) (a : α) : Prop where
  enough : ∃ k, ∀ fuel, k ≤ fuel → f fuel = some a
  only : ∀ fuel x, f fuel = some x → x = a

namespace Returns

/-- Something that needs no fuel. -/
theorem const {o : Option α} (h : o = some a) : Returns (fun _ => o) a :=
  ⟨⟨0, fun _ _ => h⟩, fun _ _ hx => Option.some.inj (hx.symm.trans h)⟩

theorem pure (a : α) : Returns (fun _ => some a) a := const rfl

/-- A function that does not change what it has given. -/
theorem of_mono {k : ℕ} (h : f k = some a)
    (hmono : ∀ {m n x}, f m = some x → m ≤ n → f n = some x) : Returns f a := by
  refine ⟨⟨k, fun fuel hk => hmono h hk⟩, fun fuel x hx => ?_⟩
  rcases le_total k fuel with hk | hk
  · exact Option.some.inj (hx.symm.trans (hmono h hk))
  · exact Option.some.inj ((hmono hx hk).symm.trans h)

theorem bind {g : ℕ → α → Option β} (hf : Returns f a) (hg : Returns (fun fuel => g fuel a) b) :
    Returns (fun fuel => (f fuel).bind (g fuel)) b := by
  obtain ⟨k, hk⟩ := hf.enough
  obtain ⟨k', hk'⟩ := hg.enough
  constructor
  · refine ⟨max k k', fun fuel hle => ?_⟩
    rw [hk fuel ((le_max_left k k').trans hle)]
    exact hk' fuel ((le_max_right k k').trans hle)
  · intro fuel x hx
    obtain ⟨a', ha', hx⟩ := Option.bind_eq_some_iff.mp hx
    rw [hf.only fuel a' ha'] at hx
    exact hg.only fuel x hx

theorem congr {f' : ℕ → Option α} (hf : Returns f a) (h : ∀ fuel, f' fuel = f fuel) :
    Returns f' a := by
  rwa [funext h]

/-- A step of a recursion that has to have some fuel. -/
theorem succ (h0 : f 0 = none) (h : Returns (fun fuel => f (fuel+1)) a) : Returns f a := by
  constructor
  · obtain ⟨k, hk⟩ := h.enough
    refine ⟨k+1, fun fuel hle => ?_⟩
    obtain ⟨fuel, rfl⟩ := Nat.exists_eq_add_of_le' hle
    exact hk (fuel + k) (Nat.le_add_left k fuel)
  · rintro (_ | fuel) x hx
    · rw [h0] at hx
      cases hx
    · exact h.only fuel x hx

end Returns
end StorageServer.Library.Fuel
