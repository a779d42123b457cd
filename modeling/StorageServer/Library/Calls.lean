import Mathlib.Data.Nat.Notation
import Mathlib.Data.Option.Basic

/-! Programs that make calls to a shared system. Each call is atomic; between two calls of one
program, other programs may make theirs. -/
namespace StorageServer.Library.Calls
variable {ι : Type} {ρ : ι → Type} {α β σ : Type}

/-- A program that makes calls `ι`, each with a result in `ρ`, before it returns. -/
inductive Program (ι : Type) (ρ : ι → Type) (α : Type)
  | ret (a : α)
  | call (i : ι) (next : ρ i → Program ι ρ α)

namespace Program

def bind (p : Program ι ρ α) (f : α → Program ι ρ β) : Program ι ρ β :=
  match p with
  | ret a => f a
  | call i next => call i (fun r => (next r).bind f)

instance : Monad (Program ι ρ) where
  pure := ret
  bind := bind

/-- A program that makes a single call. -/
def make (i : ι) : Program ι ρ (ρ i) := call i ret

@[simp] theorem ret_bind (a : α) (f : α → Program ι ρ β) : ret a >>= f = f a := rfl

@[simp] theorem call_bind (i : ι) (next : ρ i → Program ι ρ α) (f : α → Program ι ρ β) :
    call i next >>= f = call i (fun r => next r >>= f) := rfl

@[simp] theorem make_bind (i : ι) (f : ρ i → Program ι ρ β) : make i >>= f = call i f := rfl

@[simp] theorem pure_eq_ret (a : α) : (pure a : Program ι ρ α) = ret a := rfl

/-- Run a program to its end with no other program in between. -/
def run (exec : (i : ι) → σ → Option (σ × ρ i)) : Program ι ρ α → σ → Option (σ × α)
  | ret a, s => some (s, a)
  | call i next, s => (exec i s).bind (fun r => (next r.2).run exec r.1)

variable {exec : (i : ι) → σ → Option (σ × ρ i)} {s s' : σ}

@[simp] theorem run_ret (a : α) : (ret a : Program ι ρ α).run exec s = some (s, a) := rfl

theorem run_bind (p : Program ι ρ α) (f : α → Program ι ρ β) (s : σ) :
    (p >>= f).run exec s = (p.run exec s).bind (fun r => (f r.2).run exec r.1) := by
  induction p generalizing s with
  | ret a => rfl
  | call i next ih =>
    change (exec i s).bind (fun r => (next r.2 >>= f).run exec r.1) =
      ((exec i s).bind (fun r => (next r.2).run exec r.1)).bind _
    rw [Option.bind_assoc]
    exact congrArg _ (funext fun r => ih r.2 r.1)

/-- A run of a program that begins with a call. -/
theorem run_call {i : ι} {next : ρ i → Program ι ρ α} {a : α}
    (h : (call i next).run exec s = some (s', a)) :
    ∃ t r, exec i s = some (t, r) ∧ (next r).run exec t = some (s', a) := by
  obtain ⟨⟨t, r⟩, ht, hr⟩ := Option.bind_eq_some_iff.mp h
  exact ⟨t, r, ht, hr⟩

/-- What every call keeps, every run keeps. -/
theorem run_invariant {I : σ → Prop} (hI : ∀ {i s t r}, I s → exec i s = some (t, r) → I t)
    {p : Program ι ρ α} {a : α} (h : p.run exec s = some (s', a)) (h0 : I s) : I s' := by
  induction p generalizing s with
  | ret b =>
    cases h
    exact h0
  | call i next ih =>
    obtain ⟨t, r, ht, hr⟩ := run_call h
    exact ih r hr (hI h0 ht)

/-! ### What a program may do -/

/-- The program makes only calls that are `ok`. It returns with `good`, unless a call has a result
that is the `last` one: then it returns at once, with `final`. -/
def Uses (ok : ι → Prop) (last : (i : ι) → ρ i → Prop) (good final : α → Prop) :
    Program ι ρ α → Prop
  | ret a => good a
  | call i next => ok i ∧ ∀ r, (last i r → ∃ a, next r = ret a ∧ final a) ∧
      (¬ last i r → (next r).Uses ok last good final)

variable {ok : ι → Prop} {last : (i : ι) → ρ i → Prop} {good final : α → Prop}
  {good' final' : β → Prop}

theorem Uses.bind {p : Program ι ρ α} {f : α → Program ι ρ β} (h : p.Uses ok last good final)
    (hg : ∀ a, good a → (f a).Uses ok last good' final')
    (hf : ∀ a, final a → ∃ b, f a = ret b ∧ final' b) : (p >>= f).Uses ok last good' final' := by
  induction p with
  | ret a => exact hg a h
  | call i next ih =>
    refine ⟨h.1, fun r => ⟨fun hr => ?_, fun hr => ih r ((h.2 r).2 hr)⟩⟩
    obtain ⟨a, ha, hfin⟩ := (h.2 r).1 hr
    obtain ⟨b, hb, hfin'⟩ := hf a hfin
    refine ⟨b, ?_, hfin'⟩
    change next r >>= f = _
    rw [ha]
    exact hb

/-- A call that is never the last one. -/
theorem Uses.call {i : ι} {f : ρ i → Program ι ρ α} (hi : ok i) (hl : ∀ r, ¬ last i r)
    (hf : ∀ r, (f r).Uses ok last good final) : (make i >>= f).Uses ok last good final :=
  ⟨hi, fun r => ⟨fun h => absurd h (hl r), fun _ => hf r⟩⟩

theorem Uses.mono {p : Program ι ρ α} {good' final' : α → Prop} (h : p.Uses ok last good final)
    (hg : ∀ a, good a → good' a) (hf : ∀ a, final a → final' a) :
    p.Uses ok last good' final' := by
  induction p with
  | ret a => exact hg a h
  | call i next ih =>
    refine ⟨h.1, fun r => ⟨fun hr => ?_, fun hr => ih r ((h.2 r).2 hr)⟩⟩
    obtain ⟨a, ha, hfin⟩ := (h.2 r).1 hr
    exact ⟨a, ha, hf a hfin⟩

/-- The calls of a program are `ok`, whatever it returns. -/
theorem Uses.calls {p : Program ι ρ α} (h : p.Uses ok last good final) :
    p.Uses ok (fun _ _ => False) (fun _ => True) (fun _ => False) := by
  induction p with
  | ret a => trivial
  | call i next ih =>
    refine ⟨h.1, fun r => ⟨False.elim, fun _ => ?_⟩⟩
    by_cases hl : last i r
    · obtain ⟨a, ha, -⟩ := (h.2 r).1 hl
      rw [ha]
      trivial
    · exact ih r ((h.2 r).2 hl)

/-- Some call of the run from `s` has a special result. -/
def Meets (exec : (i : ι) → σ → Option (σ × ρ i)) (special : (i : ι) → ρ i → Prop) :
    Program ι ρ α → σ → Prop
  | ret _, _ => False
  | call i next, s =>
    ∃ r, exec i s = some r ∧ (special i r.2 ∨ (next r.2).Meets exec special r.1)

theorem meets_bind {special : (i : ι) → ρ i → Prop} (p : Program ι ρ α) (f : α → Program ι ρ β)
    (s : σ) : (p >>= f).Meets exec special s ↔ p.Meets exec special s ∨
      ∃ r, p.run exec s = some r ∧ (f r.2).Meets exec special r.1 := by
  induction p generalizing s with
  | ret a =>
    change (f a).Meets exec special s ↔ False ∨ ∃ r, some (s, a) = some r ∧ _
    simp
  | call i next ih =>
    constructor
    · rintro ⟨r, hr, hs⟩
      rcases hs with hs | hs
      · exact Or.inl ⟨r, hr, Or.inl hs⟩
      · rcases (ih r.2 r.1).mp hs with hs | ⟨r', hr', hs⟩
        · exact Or.inl ⟨r, hr, Or.inr hs⟩
        · exact Or.inr ⟨r', Option.bind_eq_some_iff.mpr ⟨r, hr, hr'⟩, hs⟩
    · rintro (⟨r, hr, hs | hs⟩ | ⟨r', hr', hs⟩)
      · exact ⟨r, hr, Or.inl hs⟩
      · exact ⟨r, hr, Or.inr ((ih r.2 r.1).mpr (Or.inl hs))⟩
      · obtain ⟨r, hr, hr'⟩ := Option.bind_eq_some_iff.mp hr'
        exact ⟨r, hr, Or.inr ((ih r.2 r.1).mpr (Or.inr ⟨r', hr', hs⟩))⟩

theorem meets_congr {special special' : (i : ι) → ρ i → Prop}
    (h : ∀ i s r, exec i s = some r → (special i r.2 ↔ special' i r.2)) (p : Program ι ρ α)
    (s : σ) : p.Meets exec special s ↔ p.Meets exec special' s := by
  induction p generalizing s with
  | ret a => exact Iff.rfl
  | call i next ih =>
    refine exists_congr fun r => and_congr_right fun hr => ?_
    rw [h i s r hr, ih r.2 r.1]

/-- A run ends with `final` if it meets the last result, and with `good` otherwise. -/
theorem Uses.run {p : Program ι ρ α} {a : α} (h : p.Uses ok last good final)
    (hr : p.run exec s = some (s', a)) :
    p.Meets exec last s ∧ final a ∨ ¬ p.Meets exec last s ∧ good a := by
  induction p generalizing s with
  | ret b =>
    cases hr
    exact Or.inr ⟨id, h⟩
  | call i next ih =>
    obtain ⟨t, r, ht, hr⟩ := run_call hr
    obtain ⟨hlast, hrest⟩ := h.2 r
    by_cases hl : last i r
    · obtain ⟨b, hb, hfinal⟩ := hlast hl
      rw [hb] at hr
      cases hr
      exact Or.inl ⟨⟨_, ht, Or.inl hl⟩, hfinal⟩
    · refine (ih r (hrest hl) hr).imp (fun ⟨hm, hf⟩ => ⟨⟨_, ht, Or.inr hm⟩, hf⟩) fun ⟨hm, hg⟩ => ?_
      refine ⟨?_, hg⟩
      rintro ⟨r', hr', hs⟩
      obtain rfl := Option.some.inj (ht.symm.trans hr')
      exact hs.elim hl hm

/-- Every call of the run from `s` is `fine` where it is made, also one that fails. -/
def Guarded (exec : (i : ι) → σ → Option (σ × ρ i)) (fine : ι → σ → Prop) :
    Program ι ρ α → σ → Prop
  | ret _, _ => True
  | call i next, s => fine i s ∧ ∀ t r, exec i s = some (t, r) → (next r).Guarded exec fine t

/-- Calls that are `fine` wherever an invariant holds. -/
theorem Uses.guarded {I : σ → Prop} {fine : ι → σ → Prop} {p : Program ι ρ α}
    (hI : ∀ {i s t r}, I s → exec i s = some (t, r) → I t) (hf : ∀ {i s}, I s → ok i → fine i s)
    (h : p.Uses ok (fun _ _ => False) good final) (h0 : I s) : p.Guarded exec fine s := by
  induction p generalizing s with
  | ret a => trivial
  | call i next ih => exact ⟨hf h0 h.1, fun t r ht => ih r ((h.2 r).2 id) (hI h0 ht)⟩

/-- Calls that do not fail wherever an invariant holds. -/
theorem Uses.run_isSome {I : σ → Prop} {p : Program ι ρ α}
    (hI : ∀ {i s t r}, I s → exec i s = some (t, r) → I t)
    (hs : ∀ {i s}, I s → ok i → (exec i s).isSome)
    (h : p.Uses ok (fun _ _ => False) good final) (h0 : I s) : (p.run exec s).isSome := by
  induction p generalizing s with
  | ret a => rfl
  | call i next ih =>
    obtain ⟨⟨t, r⟩, ht⟩ := Option.isSome_iff_exists.mp (hs h0 h.1)
    change ((exec i s).bind fun r => (next r.2).run exec r.1).isSome
    rw [ht]
    exact ih r ((h.2 r).2 id) (hI h0 ht)

/-- A quantity that only the last call of a program changes, by a fixed amount. -/
theorem Uses.run_grows {I : σ → Prop} {w : σ → ℕ} {k : ℕ}
    (hw : ∀ {i s t r}, I s → ok i → exec i s = some (t, r) →
      I t ∧ (last i r → w t = w s + k) ∧ (¬ last i r → w t = w s))
    {p : Program ι ρ α} {a : α} (h : p.Uses ok last good final) (h0 : I s)
    (hr : p.run exec s = some (s', a)) : final a ∧ w s' = w s + k ∨ good a ∧ w s' = w s := by
  induction p generalizing s with
  | ret b =>
    cases hr
    exact Or.inr ⟨h, rfl⟩
  | call i next ih =>
    obtain ⟨t, r, ht, hr⟩ := run_call hr
    obtain ⟨hI, hgrows, hsame⟩ := hw h0 h.1 ht
    obtain ⟨hlast, hrest⟩ := h.2 r
    by_cases hl : last i r
    · obtain ⟨b, hb, hfinal⟩ := hlast hl
      rw [hb] at hr
      cases hr
      exact Or.inl ⟨hfinal, hgrows hl⟩
    · rw [← hsame hl]
      exact ih r (hrest hl) hI hr

/-! ### Programs and an environment -/

/-- A call and its result. -/
abbrev Event (ι : Type) (ρ : ι → Type) := (i : ι) × ρ i

/-- An environment answers each call from what has happened before. -/
abbrev Answers (ι : Type) (ρ : ι → Type) := List (Event ι ρ) → (i : ι) → ρ i

/-- An event before what happens then. -/
def record (e : Event ι ρ) (r : List (Event ι ρ) × α) : List (Event ι ρ) × α := (e :: r.1, r.2)

@[simp] theorem record_fst (e : Event ι ρ) (r : List (Event ι ρ) × α) :
    (record e r).1 = e :: r.1 := rfl

@[simp] theorem record_snd (e : Event ι ρ) (r : List (Event ι ρ) × α) : (record e r).2 = r.2 := rfl

/-- What happens while a program runs after a history, and what it returns. -/
def play (answers : Answers ι ρ) : Program ι ρ α → List (Event ι ρ) → List (Event ι ρ) × α
  | ret a, _ => ([], a)
  | call i next, history =>
    record ⟨i, answers history i⟩
      ((next (answers history i)).play answers (history ++ [⟨i, answers history i⟩]))

section Play
variable {answers : Answers ι ρ} {history : List (Event ι ρ)}

@[simp] theorem play_ret (a : α) : (ret a : Program ι ρ α).play answers history = ([], a) := rfl

theorem play_bind (p : Program ι ρ α) (f : α → Program ι ρ β) :
    (p >>= f).play answers history =
      ((p.play answers history).1 ++
          ((f (p.play answers history).2).play answers (history ++ (p.play answers history).1)).1,
        ((f (p.play answers history).2).play answers
          (history ++ (p.play answers history).1)).2) := by
  induction p generalizing history with
  | ret a =>
    change (f a).play answers history = _
    simp
  | call i next ih =>
    have h := @ih (answers history i) (history ++ [⟨i, answers history i⟩])
    rw [List.append_assoc] at h
    change record _ ((next _ >>= f).play answers _) = _
    rw [h]
    rfl

/-- However it is answered, a program that returns with `good` does so. -/
theorem Uses.play {p : Program ι ρ α}
    (h : p.Uses ok (fun _ _ => False) good final) :
    (∀ e ∈ (p.play answers history).1, ok e.1) ∧ good (p.play answers history).2 := by
  induction p generalizing history with
  | ret a => exact ⟨List.forall_mem_nil _, h⟩
  | call i next ih =>
    obtain ⟨hcalls, hgood⟩ := ih _ ((h.2 (answers history i)).2 id)
    exact ⟨List.forall_mem_cons.mpr ⟨h.1, hcalls⟩, hgood⟩

end Play

/-- Every event has a property that may depend on what happened before. -/
def Each {η : Type} (P : List η → η → Prop) : List η → List η → Prop
  | _, [] => True
  | history, e::es => P history e ∧ Each P (history ++ [e]) es

theorem each_append {η : Type} {P : List η → η → Prop} {history es es' : List η} :
    Each P history (es ++ es') ↔ Each P history es ∧ Each P (history ++ es) es' := by
  induction es generalizing history with
  | nil => simp [Each]
  | cons e es ih =>
    simp only [List.cons_append, Each, ih, List.append_assoc, List.nil_append]
    exact and_assoc.symm

end Program
end StorageServer.Library.Calls
