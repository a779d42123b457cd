import StorageServer.Library.Calls
import StorageServer.Library.Runs
import Mathlib.Logic.Function.Basic

/-! Programs that run side by side, one for each client. Some calls concern only what belongs to
the client, the others what the clients share. A program that makes at most one shared call might
as well run in one piece, at the moment of that call. -/
namespace StorageServer.Library.Atomicity
open Calls Runs

/-- What the calls do to what a client has of its own, and to what the clients share. -/
structure Semantics (ι : Type) (ρ : ι → Type) (Λ Γ : Type) where
  own : (i : ι) → Option (Λ → Λ × ρ i)
  shared : (i : ι) → Γ → ρ i → Γ → Prop

variable {ι : Type} {ρ : ι → Type} {Λ Γ α β : Type} {S : Semantics ι ρ Λ Γ}

/-- A program runs to its end with no other program in between. -/
inductive Ends (S : Semantics ι ρ Λ Γ) : Program ι ρ α → Λ × Γ → α → Λ × Γ → Prop
  | ret {a s} : Ends S (.ret a) s a s
  | own {i f next l g a t} (hi : S.own i = some f) (h : Ends S (next (f l).2) ((f l).1, g) a t) :
    Ends S (.call i next) (l, g) a t
  | shared {i next l g r g' a t} (hi : S.own i = none) (hg : S.shared i g r g')
      (h : Ends S (next r) (l, g') a t) : Ends S (.call i next) (l, g) a t

namespace Ends
variable {i : ι} {next : ρ i → Program ι ρ α} {l : Λ} {g : Γ} {a b : α} {s t : Λ × Γ}

theorem of_ret (h : Ends S (.ret a) s b t) : b = a ∧ t = s := by
  cases h
  exact ⟨rfl, rfl⟩

theorem of_own {f : Λ → Λ × ρ i} (h : Ends S (.call i next) (l, g) a t) (hi : S.own i = some f) :
    Ends S (next (f l).2) ((f l).1, g) a t := by
  cases h with
  | own hf h =>
    obtain rfl := Option.some.inj (hi.symm.trans hf)
    exact h
  | shared hf =>
    rw [hi] at hf
    cases hf

end Ends

/-- A program makes at most `n` shared calls. -/
inductive AtMost (S : Semantics ι ρ Λ Γ) : ℕ → Program ι ρ α → Prop
  | ret {n a} : AtMost S n (.ret a)
  | own {n i f next} (hi : S.own i = some f) (h : ∀ r, AtMost S n (next r)) :
    AtMost S n (.call i next)
  | shared {n i next} (h : ∀ r, AtMost S n (next r)) : AtMost S (n + 1) (.call i next)

namespace AtMost
variable {m n : ℕ} {p : Program ι ρ α} {i : ι} {f : ρ i → Program ι ρ α}

theorem mono (h : AtMost S m p) (hmn : m ≤ n) : AtMost S n p := by
  induction h generalizing n with
  | ret => exact .ret
  | own hi _ ih => exact .own hi fun r => ih r hmn
  | shared _ ih =>
    obtain ⟨n, rfl⟩ := Nat.exists_eq_succ_of_ne_zero (Nat.ne_of_gt (Nat.lt_of_lt_of_le
      (Nat.succ_pos _) hmn))
    exact .shared fun r => ih r (Nat.le_of_succ_le_succ hmn)

theorem bind {q : α → Program ι ρ β} (h : AtMost S m p) (hq : ∀ a, AtMost S n (q a)) :
    AtMost S (m + n) (p >>= q) := by
  induction h with
  | ret => exact (hq _).mono (Nat.le_add_left n _)
  | own hi _ ih => exact .own hi ih
  | shared _ ih =>
    rw [Nat.succ_add]
    exact .shared ih

theorem next (h : AtMost S n (.call i f)) (r : ρ i) : AtMost S n (f r) := by
  cases h with
  | own _ h => exact h r
  | shared h => exact (h r).mono (Nat.le_succ _)

theorem next_shared (h : AtMost S (n + 1) (.call i f)) (hi : S.own i = none) (r : ρ i) :
    AtMost S n (f r) := by
  cases h with
  | own hf =>
    rw [hi] at hf
    cases hf
  | shared h => exact h r

theorem isSome_own (h : AtMost S 0 (.call i f)) : S.own i ≠ none := by
  cases h with
  | own hf =>
    rw [hf]
    exact Option.some_ne_none _

/-- A program without shared calls ends, and leaves alone what the clients share. -/
theorem ends (h : AtMost S 0 p) (l : Λ) : ∃ a l', ∀ g, Ends S p (l, g) a (l', g) := by
  generalize hn : 0 = n at h
  induction h generalizing l with
  | ret => exact ⟨_, l, fun _ => .ret⟩
  | @own _ _ f _ hi _ ih =>
    obtain ⟨a, l', h⟩ := ih (f l).2 (f l).1 hn
    exact ⟨a, l', fun g => .own hi (h g)⟩
  | shared => cases hn

end AtMost

/-! ### Side by side -/

variable {K Q ε : Type}

/-- What happens: a client's program begins, does something and ends, or the environment acts on
what is shared. -/
inductive Event (K Q α ε : Type)
  | begins (k : K) (q : Q)
  | acts (k : K)
  | ends (k : K) (a : α)
  | outside (e : ε)

/-- What can be seen of it. -/
def Event.visible : Event K Q α ε → Bool
  | acts _ => false
  | begins .. | ends .. | outside _ => true

structure System (K Λ Γ : Type) (P : Type) where
  own : K → Λ
  common : Γ
  running : K → Option P

/-- An atomic system runs the program of a client in one piece between its begin and its end. -/
inductive Phase (Q α : Type)
  | idle
  | begun (q : Q)
  | done (a : α)

structure AtomicSystem (K Λ Γ Q α : Type) where
  own : K → Λ
  common : Γ
  phase : K → Phase Q α

variable [DecidableEq K]

section
variable (S : Semantics ι ρ Λ Γ) (program : K → Q → Program ι ρ α) (environment : Γ → ε → Γ → Prop)

inductive Step : System K Λ Γ (Program ι ρ α) → Event K Q α ε →
    System K Λ Γ (Program ι ρ α) → Prop
  | begins {s k} (q : Q) (h : s.running k = none) :
    Step s (.begins k q) { s with running := Function.update s.running k (some (program k q)) }
  | own {s k i next f} (h : s.running k = some (.call i next)) (hi : S.own i = some f) :
    Step s (.acts k)
      { s with
        own := Function.update s.own k (f (s.own k)).1
        running := Function.update s.running k (some (next (f (s.own k)).2)) }
  | shared {s k i next r g} (h : s.running k = some (.call i next)) (hi : S.own i = none)
      (hg : S.shared i s.common r g) :
    Step s (.acts k)
      { s with common := g, running := Function.update s.running k (some (next r)) }
  | ends {s k a} (h : s.running k = some (.ret a)) :
    Step s (.ends k a) { s with running := Function.update s.running k none }
  | outside {s e g} (h : environment s.common e g) : Step s (.outside e) { s with common := g }

inductive AtomicStep : AtomicSystem K Λ Γ Q α → Event K Q α ε → AtomicSystem K Λ Γ Q α → Prop
  | begins {s k} (q : Q) (h : s.phase k = .idle) :
    AtomicStep s (.begins k q) { s with phase := Function.update s.phase k (.begun q) }
  | acts {s k q a l g} (h : s.phase k = .begun q)
      (he : Ends S (program k q) (s.own k, s.common) a (l, g)) :
    AtomicStep s (.acts k)
      { own := Function.update s.own k l, common := g
        phase := Function.update s.phase k (.done a) }
  | ends {s k a} (h : s.phase k = .done a) :
    AtomicStep s (.ends k a) { s with phase := Function.update s.phase k .idle }
  | outside {s e g} (h : environment s.common e g) :
    AtomicStep s (.outside e) { s with common := g }

end

variable (program : K → Q → Program ι ρ α)

/-- How far a client is in the two systems. A program that has begun has made no shared call; one
that is done makes none any more. -/
inductive Together (S : Semantics ι ρ Λ Γ) (k : K) (l l' : Λ) :
    Option (Program ι ρ α) → Phase Q α → Prop
  | idle (h : l' = l) : Together S k l l' none .idle
  | begun {p q} (hp : AtMost S 1 p)
      (h : ∀ g a t, Ends S p (l, g) a t → Ends S (program k q) (l', g) a t) :
    Together S k l l' (some p) (.begun q)
  | done {p a} (hp : AtMost S 0 p) (h : ∀ g, Ends S p (l, g) a (l', g)) :
    Together S k l l' (some p) (.done a)

structure Follows (S : Semantics ι ρ Λ Γ) (s : System K Λ Γ (Program ι ρ α))
    (t : AtomicSystem K Λ Γ Q α) : Prop where
  common : t.common = s.common
  together : ∀ k, Together program S k (s.own k) (t.own k) (s.running k) (t.phase k)

section
variable {program} {environment : Γ → ε → Γ → Prop} {s s' : System K Λ Γ (Program ι ρ α)}
  {t : AtomicSystem K Λ Γ Q α} {k : K}

/-- What happens to one client does not concern the others. -/
theorem Follows.update {g g' : Γ} {l l' : Λ} {o : Option (Program ι ρ α)} {x : Phase Q α}
    (h : Follows program S s t) (hg : g' = g) (hk : Together program S k l l' o x) :
    Follows program S ⟨Function.update s.own k l, g, Function.update s.running k o⟩
      ⟨Function.update t.own k l', g', Function.update t.phase k x⟩ where
  common := hg
  together j := by
    rcases eq_or_ne j k with rfl | hne
    · simpa only [Function.update_self] using hk
    · simpa only [Function.update_of_ne hne] using h.together j

/-- What a client is done with does not change what is shared. -/
theorem Follows.update_phase {l' : Λ} {x : Phase Q α} (h : Follows program S s t)
    (hk : Together program S k (s.own k) l' (s.running k) x) :
    Follows program S s
      ⟨Function.update t.own k l', s.common, Function.update t.phase k x⟩ := by
  have hu := h.update (g := s.common) rfl hk
  rwa [Function.update_eq_self, Function.update_eq_self] at hu

variable (environment) in
/-- A program that has ended has been run in one piece by then. -/
theorem Follows.exists_done {a : α} (h : Follows program S s t)
    (hr : s.running k = some (.ret a)) : ∃ tr t', Run (AtomicStep S program environment) t tr t' ∧
      tr.filter Event.visible = [] ∧ Follows program S s t' ∧ t'.phase k = .done a ∧
      t'.own k = s.own k := by
  have hk := h.together k
  rw [hr] at hk
  cases hx : t.phase k with
  | idle =>
    rw [hx] at hk
    cases hk
  | begun q =>
    rw [hx] at hk
    obtain ⟨-, hends⟩ : AtMost S 1 (.ret a) ∧ ∀ g b u, Ends S (.ret a) (s.own k, g) b u →
        Ends S (program k q) (t.own k, g) b u := by
      cases hk with
      | begun hp h => exact ⟨hp, h⟩
    have hacts : AtomicStep S program environment t (.acts k)
        ⟨Function.update t.own k (s.own k), s.common, Function.update t.phase k (.done a)⟩ :=
      .acts hx (h.common ▸ hends _ _ _ .ret)
    refine ⟨_, _, Run.start.next hacts, rfl, h.update_phase ?_, Function.update_self ..,
      Function.update_self ..⟩
    rw [hr]
    exact .done .ret fun _ => .ret
  | done b =>
    rw [hx] at hk
    cases hk with
    | done _ hends =>
      obtain ⟨rfl, hl⟩ := (hends s.common).of_ret
      exact ⟨[], t, .start, rfl, h, hx, (Prod.mk.inj hl).1⟩

/-- Each step is matched by steps of the atomic system: a shared call by all that its program does,
the other calls by nothing. -/
theorem Follows.step {e : Event K Q α ε} (h : Follows program S s t)
    (hp : ∀ k q, AtMost S 1 (program k q)) (hs : Step S program environment s e s') :
    ∃ tr t', Run (AtomicStep S program environment) t tr t' ∧
      tr.filter Event.visible = [e].filter Event.visible ∧ Follows program S s' t' := by
  cases hs with
  | @begins k q hr =>
    have hk := h.together k
    rw [hr] at hk
    cases hx : t.phase k with
    | idle =>
      rw [hx] at hk
      have hbegins : AtomicStep S program environment t (.begins k q) _ := .begins q hx
      refine ⟨_, _, Run.start.next hbegins, rfl, ?_⟩
      cases hk with
      | idle hl =>
        have hbegun : Together program S k (s.own k) (t.own k) (some (program k q)) (.begun q) :=
          .begun (hp k q) fun g a u he => hl ▸ he
        have hu := h.update h.common hbegun
        rwa [Function.update_eq_self, Function.update_eq_self] at hu
    | begun | done =>
      rw [hx] at hk
      cases hk
  | @own k i next f hr hi =>
    have hk := h.together k
    rw [hr] at hk
    refine ⟨[], t, .start, rfl, ?_⟩
    have hnext : Together program S k (f (s.own k)).1 (t.own k) (some (next (f (s.own k)).2))
        (t.phase k) := by
      cases hx : t.phase k with
      | idle =>
        rw [hx] at hk
        cases hk
      | begun q =>
        rw [hx] at hk
        cases hk with
        | begun hp hends => exact .begun (hp.next _) fun g a u he => hends g a u (.own hi he)
      | done a =>
        rw [hx] at hk
        cases hk with
        | done hp hends => exact .done (hp.next _) fun g => (hends g).of_own hi
    have hu := h.update h.common hnext
    rwa [Function.update_eq_self, Function.update_eq_self] at hu
  | @shared k i next r g hr hi hg =>
    have hk := h.together k
    rw [hr] at hk
    cases hx : t.phase k with
    | idle =>
      rw [hx] at hk
      cases hk
    | begun q =>
      rw [hx] at hk
      cases hk with
      | begun hp hends =>
        -- the rest of the program concerns its client only, and might be run now
        have hrest := hp.next_shared hi r
        obtain ⟨a, l', hl'⟩ := hrest.ends (s.own k)
        have hacts : AtomicStep S program environment t (.acts k)
            ⟨Function.update t.own k l', g, Function.update t.phase k (.done a)⟩ :=
          .acts hx (h.common ▸ hends _ _ _ (.shared hi hg (hl' g)))
        refine ⟨_, _, Run.start.next hacts, rfl, ?_⟩
        have hdone : Together program S k (s.own k) l' (some (next r)) (.done a) :=
          .done hrest hl'
        have hu := h.update (g := g) rfl hdone
        rwa [Function.update_eq_self] at hu
    | done a =>
      rw [hx] at hk
      cases hk with
      | done hp => exact absurd hi hp.isSome_own
  | @ends k a hr =>
    obtain ⟨tr, t', htr, hv, h', hx, hl⟩ := h.exists_done environment hr
    refine ⟨_, _, htr.next (.ends hx), ?_, ?_⟩
    · rw [List.filter_append, hv]
      rfl
    · have hidle : Together program S k (s.own k) (t'.own k) none .idle := .idle hl
      have hu := h'.update h'.common hidle
      rwa [Function.update_eq_self, Function.update_eq_self] at hu
  | @outside e g he =>
    refine ⟨_, _, Run.start.next (.outside (h.common ▸ he)), rfl, rfl, h.together⟩

/-- What can be seen of programs that make at most one shared call each can be seen when each of
them runs in one piece. -/
theorem Follows.run {tr : List (Event K Q α ε)} (h : Follows program S s t)
    (hp : ∀ k q, AtMost S 1 (program k q)) (hr : Run (Step S program environment) s tr s') :
    ∃ tr' t', Run (AtomicStep S program environment) t tr' t' ∧
      tr'.filter Event.visible = tr.filter Event.visible ∧ Follows program S s' t' := by
  induction hr with
  | start => exact ⟨[], t, .start, rfl, h⟩
  | next _ last ih =>
    obtain ⟨tr₁, t₁, hr₁, hv₁, h₁⟩ := ih
    obtain ⟨tr₂, t₂, hr₂, hv₂, h₂⟩ := h₁.step hp last
    refine ⟨_, t₂, hr₁.trans hr₂, ?_, h₂⟩
    rw [List.filter_append, List.filter_append, hv₁, hv₂]

end
end StorageServer.Library.Atomicity
