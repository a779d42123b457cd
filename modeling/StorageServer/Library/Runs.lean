import Mathlib.Data.List.Basic

/-! Finite runs of a labelled transition relation, with the trace of their labels. A trace grows
at its end, so that an induction looks at the last step. -/
namespace StorageServer.Library.Runs
variable {σ τ ι η : Type*}

inductive Run (step : σ → ι → σ → Prop) (s : σ) : List ι → σ → Prop
  | start : Run step s [] s
  | next {tr t l u} (before : Run step s tr t) (last : step t l u) : Run step s (tr ++ [l]) u

variable {step : σ → ι → σ → Prop} {step' : τ → ι → τ → Prop} {s t : σ} {tr : List ι}

/-- What holds of the empty trace and is kept by every step holds of every run. -/
theorem Run.invariant_trace {I : List ι → σ → Prop} (h : Run step s tr t) (h0 : I [] s)
    (hs : ∀ {tr s l t}, I tr s → step s l t → I (tr ++ [l]) t) : I tr t := by
  induction h with
  | start => exact h0
  | next _ last ih => exact hs ih last

theorem Run.invariant {I : σ → Prop} (h : Run step s tr t) (h0 : I s)
    (hs : ∀ {s l t}, I s → step s l t → I t) : I t :=
  h.invariant_trace (I := fun _ => I) h0 hs

/-- A simulation of single steps carries over to runs with the same trace. -/
theorem Run.simulate {R : σ → τ → Prop} (h : Run step s tr t) {a : τ} (h0 : R s a)
    (hs : ∀ {s l t a}, R s a → step s l t → ∃ b, step' a l b ∧ R t b) :
    ∃ b, Run step' a tr b ∧ R t b := by
  induction h with
  | start => exact ⟨a, .start, h0⟩
  | next _ last ih =>
    obtain ⟨b, hb, hr⟩ := ih
    obtain ⟨c, hc, hr'⟩ := hs hr last
    exact ⟨c, hb.next hc, hr'⟩

theorem Run.mono {step' : σ → ι → σ → Prop} (h : Run step s tr t)
    (hs : ∀ {s l t}, step s l t → step' s l t) : Run step' s tr t := by
  induction h with
  | start => exact .start
  | next _ last ih => exact ih.next (hs last)

theorem Run.trans {u : σ} {tr' : List ι} (h : Run step s tr t) (h' : Run step t tr' u) :
    Run step s (tr ++ tr') u := by
  induction h' with
  | start => rwa [List.append_nil]
  | next _ last ih =>
    rw [← List.append_assoc]
    exact ih.next last

/-- A goal is reached if, as long as it is not, some step keeps the invariant and makes the measure
smaller. -/
theorem exists_run_of_measure {I G : σ → Prop} (μ : σ → ℕ) (h0 : I s)
    (hs : ∀ s, I s → ¬ G s → ∃ l t, step s l t ∧ I t ∧ μ t < μ s) :
    ∃ tr t, Run step s tr t ∧ I t ∧ G t := by
  generalize hn : μ s = n
  induction n using Nat.strongRecOn generalizing s with
  | ind n ih =>
    by_cases hg : G s
    · exact ⟨[], s, .start, h0, hg⟩
    · obtain ⟨l, t, hl, ht, hlt⟩ := hs s h0 hg
      obtain ⟨tr, u, hr, hu⟩ := ih (μ t) (hn ▸ hlt) ht rfl
      have hfirst : Run step s [l] t := Run.start.next hl
      exact ⟨[l] ++ tr, u, hfirst.trans hr, hu⟩

/-- The last step of a run. -/
theorem Run.last {l : ι} (h : Run step s (tr ++ [l]) t) : ∃ u, Run step s tr u ∧ step u l t := by
  generalize htr : tr ++ [l] = tr' at h
  cases h with
  | start => simp at htr
  | next before last =>
    obtain ⟨rfl, hl⟩ := List.append_inj' htr rfl
    obtain rfl := List.singleton_inj.mp hl
    exact ⟨_, before, last⟩

/-- The steps that a guard on the state and the label lets through. -/
def Guarded (guard : σ → ι → Prop) (step : σ → ι → σ → Prop) : σ → ι → σ → Prop :=
  fun s l t => guard s l ∧ step s l t

theorem Run.guarded {guard : σ → ι → Prop} (h : Run step s tr t)
    (hg : ∀ l ∈ tr, ∀ s, guard s l) : Run (Guarded guard step) s tr t := by
  induction h with
  | start => exact .start
  | next _ last ih =>
    refine (ih fun l hl => hg l (List.mem_append_left _ hl)).next ⟨hg _ (by simp) _, last⟩

/-- The steps of a system that carries along a value computed from its past. -/
def Recorded (record : η → σ → ι → η) (step : σ → ι → σ → Prop) :
    σ × η → ι → σ × η → Prop :=
  fun s l t => step s.1 l t.1 ∧ t.2 = record s.2 s.1 l

theorem Run.next_recorded {record : η → σ → ι → η} {s₀ : σ × η} {x : η} {l : ι}
    (h : Run (Recorded record step) s₀ tr (s,x)) (hs : step s l t) :
    Run (Recorded record step) s₀ (tr ++ [l]) (t, record x s l) :=
  h.next ⟨hs, rfl⟩

/-- Recording the past does not restrict the runs. -/
theorem Run.recorded (record : η → σ → ι → η) (h : Run step s tr t) (x : η) :
    ∃ y, Run (Recorded record step) (s,x) tr (t,y) := by
  induction h with
  | start => exact ⟨x, .start⟩
  | @next _ u l _ _ last ih =>
    obtain ⟨y, hy⟩ := ih
    exact ⟨record y u l, hy.next ⟨last, rfl⟩⟩

end StorageServer.Library.Runs
