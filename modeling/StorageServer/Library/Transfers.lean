import Mathlib.Algebra.Order.Group.Nat
import Mathlib.Data.Nat.Find
import Mathlib.Data.List.Basic

/-! Sequences of system calls that move units one after another, each call as many as it likes. A
call may be interrupted, may find the end of the units, or may fail. -/
namespace StorageServer.Library.Transfers

inductive CallResult
  | count (n : ℕ)
  | interrupted
  | failed
  deriving DecidableEq

namespace CallResult

def moved : CallResult → ℕ
  | count n => n
  | interrupted | failed => 0

/-- After such a result there is another call. -/
def GoesOn : CallResult → Prop
  | count n => 0 < n
  | interrupted => True
  | failed => False

theorem stops_iff {r : CallResult} : ¬ r.GoesOn ↔ r = count 0 ∨ r = failed := by
  cases r with
  | count n =>
    change ¬ 0 < n ↔ _
    rw [count.injEq, Nat.pos_iff_ne_zero, not_not]
    exact ⟨Or.inl, fun h => h.resolve_right nofun⟩
  | interrupted => exact ⟨fun h => absurd trivial h, nofun⟩
  | failed => exact ⟨fun _ => Or.inr rfl, fun _ => id⟩

end CallResult

variable {results : ℕ → CallResult} {size bound k : ℕ}

/-- The results of the first calls. -/
def firsts (results : ℕ → CallResult) (k : ℕ) : List CallResult := (List.range k).map results

/-- What the first calls have moved. -/
def total (results : ℕ → CallResult) : ℕ → ℕ
  | 0 => 0
  | k+1 => total results k + (results k).moved

theorem firsts_succ (results : ℕ → CallResult) (k : ℕ) :
    firsts results (k + 1) = firsts results k ++ [results k] := by
  rw [firsts, List.range_succ, List.map_append]
  rfl

/-- Another call is made. -/
def Ongoing (size : ℕ) (results : ℕ → CallResult) (k : ℕ) : Prop :=
  (∀ i < k, (results i).GoesOn) ∧ total results k < size

/-- No call moves more than there is left of `bound`. -/
def Allowed (bound size : ℕ) (results : ℕ → CallResult) : Prop :=
  ∀ k n, Ongoing size results k → results k = .count n → total results k + n ≤ bound

def FinitelyInterrupted (results : ℕ → CallResult) : Prop :=
  ∃ k, ∀ i, k ≤ i → results i ≠ .interrupted

/-- How the calls end: with the last unit or with a result after which there is no call. -/
inductive Ends (size : ℕ) (results : ℕ → CallResult) : ℕ → Prop
  | all {k : ℕ} (made : ∀ i < k, Ongoing size results i) (goes : ∀ i < k, (results i).GoesOn)
    (moved : total results k = size) : Ends size results k
  | stopped {k : ℕ} (last : Ongoing size results k) (stops : ¬ (results k).GoesOn) :
    Ends size results (k + 1)

theorem total_mono (results : ℕ → CallResult) : Monotone (total results) :=
  monotone_nat_of_le_succ fun _ => Nat.le_add_right _ _

theorem Ongoing.mono {i : ℕ} (h : Ongoing size results k) (hi : i ≤ k) :
    Ongoing size results i :=
  ⟨fun j hj => h.1 j (hj.trans_le hi), (total_mono results hi).trans_lt h.2⟩

/-- Calls that are not interrupted move one unit each. -/
theorem le_total {i : ℕ} (hk : ∀ i, k ≤ i → results i ≠ .interrupted)
    (h : Ongoing size results (k + i)) : i ≤ total results (k + i) := by
  induction i with
  | zero => exact Nat.zero_le _
  | succ i ih =>
    have hle := ih (h.mono (Nat.le_succ _))
    have hgoes := h.1 (k + i) (Nat.lt_succ_self _)
    have hmoved : 0 < (results (k + i)).moved := by
      cases hr : results (k + i) with
      | count n =>
        rw [hr] at hgoes
        exact hgoes
      | interrupted => exact absurd hr (hk _ (Nat.le_add_right _ _))
      | failed =>
        rw [hr] at hgoes
        exact hgoes.elim
    exact Nat.add_le_add hle hmoved

theorem total_le (ha : Allowed bound size results) (h : ∀ i < k, Ongoing size results i) :
    total results k ≤ bound := by
  induction k with
  | zero => exact Nat.zero_le _
  | succ k ih =>
    have hle := ih fun i hi => h i (hi.trans (Nat.lt_succ_self k))
    change total results k + (results k).moved ≤ bound
    cases hr : results k with
    | count n => exact ha k n (h k (Nat.lt_succ_self k)) hr
    | interrupted => exact hle
    | failed => exact hle

/-- The calls come to an end. -/
theorem exists_ends (ha : Allowed size size results) (hf : FinitelyInterrupted results) :
    ∃ k, Ends size results k := by
  classical
  obtain ⟨m, hm⟩ := hf
  have hend : ∃ k, ¬ Ongoing size results k := by
    refine ⟨m + size, fun h => ?_⟩
    have hle := le_total hm h
    exact absurd h.2 (not_lt.mpr hle)
  obtain ⟨hk, hmin⟩ : ¬ Ongoing size results (Nat.find hend) ∧
      ∀ i < Nat.find hend, Ongoing size results i :=
    ⟨Nat.find_spec hend, fun i hi => not_not.mp (Nat.find_min hend hi)⟩
  generalize Nat.find hend = k at hk hmin
  cases k with
  | zero =>
    refine ⟨0, .all hmin (fun i hi => absurd hi (Nat.not_lt_zero i)) ?_⟩
    by_contra hne
    exact hk ⟨fun i hi => absurd hi (Nat.not_lt_zero i), Nat.pos_of_ne_zero (Ne.symm hne)⟩
  | succ k =>
    have hlast := hmin k (Nat.lt_succ_self k)
    by_cases hgoes : (results k).GoesOn
    · have hall : ∀ i < k + 1, (results i).GoesOn := by
        intro i hi
        rcases Nat.lt_succ_iff_lt_or_eq.mp hi with hi | rfl
        · exact hlast.1 i hi
        · exact hgoes
      have hge : size ≤ total results (k + 1) := not_lt.mp fun hlt => hk ⟨hall, hlt⟩
      exact ⟨k + 1, .all hmin hall (le_antisymm (total_le ha hmin) hge)⟩
    · exact ⟨k + 1, .stopped hlast hgoes⟩

theorem Ends.made (h : Ends size results k) : ∀ i < k, Ongoing size results i := by
  cases h with
  | all made _ _ => exact made
  | stopped last _ => exact fun i hi => last.mono (Nat.le_of_lt_succ hi)

/-! ### Moving in pieces -/

variable {σ : Type*} {call : ℕ → σ → Option σ} {s s' : σ}

/-- To move some units and then others is to move all of them at once. -/
structure Additive (call : ℕ → σ → Option σ) : Prop where
  zero : ∀ s, call 0 s = some s
  add : ∀ m n s, call (m + n) s = call m s >>= call n

/-- What can be moved at once can be moved in two pieces. -/
theorem Additive.split {m n : ℕ} (h : Additive call) (hs : (call (m + n) s).isSome) :
    ∃ s', call m s = some s' ∧ call (m + n) s = call n s' := by
  rw [h.add] at hs ⊢
  cases hm : call m s with
  | none =>
    rw [hm] at hs
    exact nomatch hs
  | some s' => exact ⟨s', rfl, rfl⟩

end StorageServer.Library.Transfers
