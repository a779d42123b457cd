import Mathlib.Data.List.Nodup
import Mathlib.Data.List.Basic
import Mathlib.Logic.Function.Basic

/-! Locks with waiting queues, handed on in the order of arrival. The waits that have not been
answered are listed in the order in which they were queued; the table has to agree with them,
and the notices that a change of the table issues have to say what became of each of them. -/
namespace StorageServer.Library.LockTable
variable {κ γ : Type*} [DecidableEq κ]

structure Lock (γ : Type*) where
  owner : Option γ
  queue : List γ

/-- The lock under each key, if there is one. -/
abbrev Table (κ γ : Type*) := κ → Option (Lock γ)

structure Wait (κ γ : Type*) where
  client : γ
  key : κ
  deriving DecidableEq

/-- The answer to a wait: the lock has been granted, or it is gone. -/
structure Notice (γ : Type*) where
  client : γ
  granted : Bool
  deriving DecidableEq

/-- The clients waiting for a lock, longest first. -/
def waiters (P : List (Wait κ γ)) (k : κ) : List γ :=
  (P.filter (fun w => w.key = k)).map Wait.client

/-- The table and the unanswered waits agree. -/
structure Tracked (P : List (Wait κ γ)) (t : Table κ γ) : Prop where
  queue : ∀ {k lock}, t k = some lock → lock.queue = waiters P k
  present : ∀ w ∈ P, (t w.key).isSome
  nodup : (P.map Wait.client).Nodup
  owned : ∀ {k lock}, t k = some lock → lock.queue ≠ [] → ∃ o, lock.owner = some o ∧ o ∉ lock.queue

/-- The notices answer the waits `P` by what the table has become. -/
structure Notifies (P : List (Wait κ γ)) (L : List (Notice γ)) (t : Table κ γ) : Prop where
  nodup : (L.map Notice.client).Nodup
  pending : ∀ n ∈ L, n.client ∈ P.map Wait.client
  granted : ∀ w ∈ P, ⟨w.client, true⟩ ∈ L ↔ ∃ lock, t w.key = some lock ∧ lock.owner = some w.client
  first : ∀ w ∈ P, ⟨w.client, true⟩ ∈ L → (waiters P w.key).head? = some w.client
  gone : ∀ w ∈ P, ⟨w.client, false⟩ ∈ L ↔ t w.key = none

variable {P P' : List (Wait κ γ)} {L : List (Notice γ)} {t : Table κ γ} {k : κ} {c : γ}
  {lock : Lock γ}

theorem mem_waiters : c ∈ waiters P k ↔ ⟨c,k⟩ ∈ P := by
  simp only [waiters, List.mem_map, List.mem_filter, decide_eq_true_eq]
  constructor
  · rintro ⟨w, ⟨hw, rfl⟩, rfl⟩
    exact hw
  · exact fun h => ⟨⟨c,k⟩, ⟨h, rfl⟩, rfl⟩

theorem waiters_eq_nil : waiters P k = [] ↔ ∀ w ∈ P, w.key ≠ k := by
  simp [waiters, List.filter_eq_nil_iff]

theorem waiters_append (P P' : List (Wait κ γ)) (k : κ) :
    waiters (P ++ P') k = waiters P k ++ waiters P' k := by
  simp [waiters]

theorem Tracked.empty : Tracked [] (fun _ => none : Table κ γ) :=
  ⟨nofun, nofun, List.nodup_nil, nofun⟩

theorem Tracked.unique (h : Tracked P t) {w w' : Wait κ γ} (hw : w ∈ P) (hw' : w' ∈ P)
    (hc : w.client = w'.client) : w = w' := List.inj_on_of_nodup_map h.nodup hw hw' hc

theorem Tracked.waiters_nodup (h : Tracked P t) (k : κ) : (waiters P k).Nodup :=
  h.nodup.sublist (List.filter_sublist.map _)

theorem Tracked.mem_queue (h : Tracked P t) (hk : t k = some lock) :
    c ∈ lock.queue ↔ ⟨c,k⟩ ∈ P := by
  rw [h.queue hk, mem_waiters]

/-- A waiting client does not own the lock it waits for. -/
theorem Tracked.not_owner (h : Tracked P t) {w : Wait κ γ} (hw : w ∈ P)
    (hk : t w.key = some lock) : lock.owner ≠ some w.client := by
  have hq : w.client ∈ lock.queue := (h.mem_queue hk).mpr hw
  obtain ⟨o, ho, hn⟩ := h.owned hk (List.ne_nil_of_mem hq)
  rw [ho]
  rintro ⟨⟩
  exact hn hq

/-- Without notices every wait goes on. -/
theorem Tracked.notifies_nil (h : Tracked P t) (hp : P' ⊆ P) : Notifies P' [] t where
  nodup := List.nodup_nil
  pending := by simp
  granted w hw := by
    constructor
    · simp
    · rintro ⟨lock, hk, ho⟩
      exact absurd ho (h.not_owner (hp hw) hk)
  first := by simp
  gone w hw := by
    have hs := h.present w (hp hw)
    constructor
    · simp
    · intro hn
      rw [hn] at hs
      contradiction

/-! ### Changes of one lock -/

/-- A change of the lock under one key and of the waits for it. -/
theorem Tracked.update (h : Tracked P t) (ho : ∀ k' ≠ k, waiters P' k' = waiters P k')
    (hn : (P'.map Wait.client).Nodup) (hq : lock.queue = waiters P' k)
    (hown : lock.queue ≠ [] → ∃ o, lock.owner = some o ∧ o ∉ lock.queue) :
    Tracked P' (Function.update t k (some lock)) where
  queue {k' lock'} hk' := by
    by_cases hkk : k' = k
    · subst k'
      rw [Function.update_self, Option.some.injEq] at hk'
      exact hk' ▸ hq
    · rw [Function.update_of_ne hkk] at hk'
      rw [h.queue hk', ho k' hkk]
  present w hw := by
    by_cases hkk : w.key = k
    · rw [hkk, Function.update_self]
      rfl
    · rw [Function.update_of_ne hkk]
      have hc : w.client ∈ waiters P w.key := ho _ hkk ▸ mem_waiters.mpr hw
      exact h.present _ (mem_waiters.mp hc)
  nodup := hn
  owned {k' lock'} hk' hq' := by
    by_cases hkk : k' = k
    · subst k'
      rw [Function.update_self, Option.some.injEq] at hk'
      subst hk'
      exact hown hq'
    · rw [Function.update_of_ne hkk] at hk'
      exact h.owned hk' hq'

/-- A change of the owner that overtakes no waiter. -/
theorem Tracked.setOwner (h : Tracked P t) (hk : t k = some lock) {o : Option γ}
    (ho : lock.queue ≠ [] → o = lock.owner) :
    Tracked P (Function.update t k (some ⟨o, lock.queue⟩)) := by
  have hw : lock.queue = waiters P k := h.queue hk
  refine h.update (fun _ _ => rfl) h.nodup hw fun hq => ?_
  rw [ho hq]
  exact h.owned hk hq

/-- A client that waits for nothing queues up behind the others. -/
theorem Tracked.enqueue (h : Tracked P t) (hk : t k = some lock) {o : γ}
    (ho : lock.owner = some o) (hoc : o ≠ c) (hc : c ∉ P.map Wait.client) :
    Tracked (P ++ [⟨c,k⟩]) (Function.update t k (some ⟨lock.owner, lock.queue ++ [c]⟩)) := by
  refine h.update (fun k' hkk => ?_) ?_ ?_ fun _ => ⟨o, ho, ?_⟩
  · have hn : waiters [(⟨c,k⟩ : Wait κ γ)] k' = [] := by
      rw [waiters_eq_nil]
      simpa using Ne.symm hkk
    rw [waiters_append, hn, List.append_nil]
  · rw [List.map_append, List.map_singleton, ← List.concat_eq_append]
    exact h.nodup.concat hc
  · rw [waiters_append, h.queue hk]
    simp [waiters]
  · have hno : o ∉ lock.queue := by
      intro hm
      obtain ⟨o', ho', hn⟩ := h.owned hk (List.ne_nil_of_mem hm)
      rw [ho] at ho'
      cases ho'
      exact hn hm
    simp [hno, hoc]

/-- A new lock without a queue. -/
theorem Tracked.create (h : Tracked P t) (hk : t k = none) (o : Option γ) :
    Tracked P (Function.update t k (some ⟨o, []⟩)) := by
  refine h.update (fun _ _ => rfl) h.nodup ?_ fun hq => absurd rfl hq
  refine (waiters_eq_nil.mpr fun w hw hwk => ?_).symm
  have hs := h.present w hw
  rw [hwk, hk] at hs
  contradiction

/-! ### Answering waits -/

section Answers
variable [DecidableEq γ]

/-- The waits that the notices leave unanswered. -/
def unanswered (P : List (Wait κ γ)) (L : List (Notice γ)) : List (Wait κ γ) :=
  P.filter (fun w => w.client ∉ L.map Notice.client)

omit [DecidableEq κ] in
@[simp] theorem unanswered_nil : unanswered P [] = P := by simp [unanswered]

omit [DecidableEq κ] in
theorem mem_unanswered {w : Wait κ γ} :
    w ∈ unanswered P L ↔ w ∈ P ∧ w.client ∉ L.map Notice.client := by
  simp only [unanswered, List.mem_filter, decide_eq_true_eq]

omit [DecidableEq κ] in
theorem unanswered_append (P : List (Wait κ γ)) (L L' : List (Notice γ)) :
    unanswered P (L ++ L') = unanswered (unanswered P L) L' := by
  simp only [unanswered, List.filter_filter]
  apply List.filter_congr
  intro w _
  rw [List.map_append]
  by_cases h : w.client ∈ L.map Notice.client <;>
    by_cases h' : w.client ∈ L'.map Notice.client <;> simp [h, h']

omit [DecidableEq κ] in
/-- Every wait is answered or goes on. -/
theorem count_unanswered (hP : (P.map Wait.client).Nodup) (hL : (L.map Notice.client).Nodup)
    (hs : ∀ n ∈ L, n.client ∈ P.map Wait.client) (c : γ) :
    (P.map Wait.client).count c =
      (L.map Notice.client).count c + ((unanswered P L).map Wait.client).count c := by
  have hu : (unanswered P L).map Wait.client =
      (P.map Wait.client).filter (· ∉ L.map Notice.client) := by
    rw [unanswered, List.filter_map]
    rfl
  rw [hu, hP.count, hL.count, (hP.filter _).count]
  simp only [List.mem_filter, decide_eq_true_eq]
  by_cases hc : c ∈ L.map Notice.client
  · have hcP : c ∈ P.map Wait.client := by
      obtain ⟨n, hn, rfl⟩ := List.mem_map.mp hc
      exact hs n hn
    rw [if_pos hcP, if_pos hc, if_neg (fun h => h.2 hc)]
  · rw [if_neg hc, Nat.zero_add]
    simp only [hc, not_false_eq_true, and_true]

/-- The waiters for a lock that are left after the notices. -/
theorem waiters_unanswered (P : List (Wait κ γ)) (L : List (Notice γ)) (k : κ) :
    waiters (unanswered P L) k = (waiters P k).filter (· ∉ L.map Notice.client) := by
  simp only [waiters, unanswered, List.filter_filter, List.filter_map]
  congr 1
  apply List.filter_congr
  intro w _
  exact Bool.and_comm _ _

/-- The waits left after the notices, for each lock. -/
theorem Tracked.unanswered_nodup (h : Tracked P t) (L : List (Notice γ)) :
    ((unanswered P L).map Wait.client).Nodup := h.nodup.sublist (List.filter_sublist.map _)

/-- The notice to the client that has waited longest for a lock. -/
def handOver (lock : Lock γ) : List (Notice γ) := lock.queue.head?.toList.map (⟨·, true⟩)

/-- Handing a lock on to the client that has waited longest. -/
theorem Tracked.release (h : Tracked P t) (hk : t k = some lock) :
    Tracked (unanswered P (handOver lock))
      (Function.update t k (some ⟨lock.queue.head?, lock.queue.tail⟩)) := by
  have hw := h.queue hk
  have hnd := h.waiters_nodup k
  cases hq : lock.queue with
  | nil =>
    have ht := h.setOwner hk (o := none) (fun hne => absurd hq hne)
    simpa [handOver, hq] using ht
  | cons c cs =>
    rw [hq] at hw
    rw [← hw, List.nodup_cons] at hnd
    have hck : (⟨c,k⟩ : Wait κ γ) ∈ P := mem_waiters.mp (by rw [← hw]; simp)
    have hfil : ∀ k', waiters (unanswered P (handOver lock)) k' =
        (waiters P k').filter (· ≠ c) := by
      intro k'
      rw [waiters_unanswered]
      simp [handOver, hq]
    refine h.update (fun k' hkk => ?_) (h.unanswered_nodup _) ?_ fun _ => ⟨c, rfl, hnd.1⟩
    · rw [hfil, List.filter_eq_self]
      intro x hx
      have hxc : x ≠ c := by
        rintro rfl
        have hu := h.unique (mem_waiters.mp hx) hck rfl
        exact hkk (congrArg Wait.key hu)
      simpa using hxc
    · rw [hfil, ← hw, List.filter_cons_of_neg (by simp), List.tail_cons]
      refine (List.filter_eq_self.mpr fun x hx => ?_).symm
      have hxc : x ≠ c := by
        rintro rfl
        exact hnd.1 hx
      simpa using hxc

/-- As long as a lock has its old owner, none of the waits for it has been answered. -/
theorem Notifies.waiters_unanswered_eq (hn : Notifies P L t) (hk : t k = some lock)
    (ho : ∀ w ∈ P, lock.owner ≠ some w.client) : waiters (unanswered P L) k = waiters P k := by
  rw [waiters_unanswered, List.filter_eq_self]
  intro x hx
  have hxk : (⟨x,k⟩ : Wait κ γ) ∈ P := mem_waiters.mp hx
  rw [decide_eq_true_eq, List.mem_map]
  rintro ⟨⟨y, granted⟩, hy, rfl⟩
  cases granted with
  | true =>
    obtain ⟨lock', hk', ho'⟩ := (hn.granted _ hxk).mp hy
    rw [hk, Option.some.injEq] at hk'
    exact ho _ hxk (hk' ▸ ho')
  | false =>
    have hnone := (hn.gone _ hxk).mp hy
    rw [hk] at hnone
    contradiction

/-- Handing a lock on answers the wait at the head of its queue, after the notices `L`. -/
theorem Notifies.release (hn : Notifies P L t) (h : Tracked (unanswered P L) t)
    (hP : (P.map Wait.client).Nodup) (hk : t k = some lock)
    (ho : ∀ w ∈ P, lock.owner ≠ some w.client) :
    Notifies P (L ++ handOver lock)
      (Function.update t k (some ⟨lock.queue.head?, lock.queue.tail⟩)) := by
  have hw := hn.waiters_unanswered_eq hk ho
  rw [← h.queue hk] at hw
  have hhead : ∀ {x : γ} {b : Bool},
      ⟨x,b⟩ ∈ handOver lock ↔ lock.queue.head? = some x ∧ b = true := by
    intro x b
    simp only [handOver, List.mem_map, Option.mem_toList, Notice.mk.injEq]
    constructor
    · rintro ⟨y, hy, rfl, rfl⟩
      exact ⟨hy, rfl⟩
    · rintro ⟨hy, rfl⟩
      exact ⟨x, hy, rfl, rfl⟩
  have hmem : ∀ {x}, lock.queue.head? = some x → (⟨x,k⟩ : Wait κ γ) ∈ unanswered P L :=
    fun hx => (h.mem_queue hk).mp (List.mem_of_mem_head? hx)
  have hkey : ∀ {w}, w ∈ P → lock.queue.head? = some w.client → w.key = k := fun hwP hx =>
    congrArg Wait.key (List.inj_on_of_nodup_map hP hwP (mem_unanswered.mp (hmem hx)).1 rfl)
  refine ⟨?_, ?_, ?_, ?_, ?_⟩
  · rw [List.map_append, List.nodup_append]
    refine ⟨hn.nodup, ?_, ?_⟩
    · cases hq : lock.queue <;> simp [handOver, hq]
    · rintro x hx y hy rfl
      obtain ⟨⟨z, b⟩, hz, rfl⟩ := List.mem_map.mp hy
      exact (mem_unanswered.mp (hmem (hhead.mp hz).1)).2 hx
  · intro n hnL
    rcases List.mem_append.mp hnL with hnL | hnL
    · exact hn.pending n hnL
    · exact List.mem_map_of_mem (mem_unanswered.mp (hmem (hhead.mp hnL).1)).1
  · intro w hwP
    rw [List.mem_append, hhead, hn.granted w hwP]
    by_cases hwk : w.key = k
    · rw [hwk, Function.update_self]
      constructor
      · rintro (⟨lock', hk', ho'⟩ | ⟨hx, -⟩)
        · rw [hk, Option.some.injEq] at hk'
          exact absurd (hk' ▸ ho') (ho w hwP)
        · exact ⟨_, rfl, hx⟩
      · rintro ⟨lock', hk', ho'⟩
        rw [Option.some.injEq] at hk'
        exact Or.inr ⟨by rw [← ho', ← hk'], rfl⟩
    · rw [Function.update_of_ne hwk]
      exact ⟨fun hx => hx.resolve_right fun hx => hwk (hkey hwP hx.1), Or.inl⟩
  · intro w hwP hx
    rcases List.mem_append.mp hx with hx | hx
    · exact hn.first w hwP hx
    · have hx := (hhead.mp hx).1
      rw [hkey hwP hx, ← hw]
      exact hx
  · intro w hwP
    rw [List.mem_append, hhead, hn.gone w hwP]
    by_cases hwk : w.key = k
    · rw [hwk, Function.update_self, hk]
      simp
    · rw [Function.update_of_ne hwk]
      simp

/-! ### Dropping locks -/

/-- The notices to all waiters for the locks under the given keys, in their order. -/
def farewells (P : List (Wait κ γ)) (gs : List κ) : List (Notice γ) :=
  (gs.flatMap (waiters P)).map (⟨·, false⟩)

omit [DecidableEq γ] in
theorem mem_farewells {gs : List κ} :
    c ∈ (farewells P gs).map Notice.client ↔ ∃ k ∈ gs, ⟨c,k⟩ ∈ P := by
  simp only [farewells, List.map_map, List.mem_map, List.mem_flatMap, Function.comp_apply,
    exists_eq_right, mem_waiters]

/-- Dropping locks answers exactly the waits for them. -/
theorem Tracked.unanswered_farewells (h : Tracked P t) (gs : List κ) :
    unanswered P (farewells P gs) = P.filter (fun w => w.key ∉ gs) := by
  apply List.filter_congr
  intro w hw
  rw [decide_eq_decide, mem_farewells, not_iff_not]
  constructor
  · rintro ⟨k, hk, hwk⟩
    rwa [h.unique hw hwk rfl]
  · exact fun hk => ⟨w.key, hk, hw⟩

theorem Tracked.drop (h : Tracked P t) {t' : Table κ γ} {gs : List κ}
    (ht : ∀ k, t' k = if k ∈ gs then none else t k) :
    Tracked (unanswered P (farewells P gs)) t' where
  queue {k lock} hk := by
    rw [ht] at hk
    split_ifs at hk with hg
    rw [h.unanswered_farewells, h.queue hk]
    unfold waiters
    rw [List.filter_filter]
    congr 1
    apply List.filter_congr
    intro w _
    by_cases hw : w.key = k <;> simp [hw, hg]
  present w hw := by
    rw [h.unanswered_farewells, List.mem_filter, decide_eq_true_eq] at hw
    rw [ht, if_neg hw.2]
    exact h.present w hw.1
  nodup := h.unanswered_nodup _
  owned {k lock} hk hq := by
    rw [ht] at hk
    split_ifs at hk
    exact h.owned hk hq

omit [DecidableEq γ] in
theorem Tracked.drop_notifies (h : Tracked P t) {t' : Table κ γ} {gs : List κ} (hd : gs.Nodup)
    (ht : ∀ k, t' k = if k ∈ gs then none else t k) : Notifies P (farewells P gs) t' := by
  have hfalse : ∀ {x : γ} {b : Bool}, ⟨x,b⟩ ∈ farewells P gs → b = false := by
    intro x b hx
    obtain ⟨y, -, hy⟩ := List.mem_map.mp hx
    exact (congrArg Notice.granted hy).symm
  refine ⟨?_, ?_, ?_, ?_, ?_⟩
  · have hc : (farewells P gs).map Notice.client = gs.flatMap (waiters P) := by
      simp [farewells, Function.comp_def]
    rw [hc, List.nodup_flatMap]
    refine ⟨fun k _ => h.waiters_nodup k, hd.imp fun {k k'} hne x hx hx' => hne ?_⟩
    exact congrArg Wait.key (h.unique (mem_waiters.mp hx) (mem_waiters.mp hx') rfl)
  · intro n hn
    obtain ⟨k, -, hk⟩ := mem_farewells.mp (List.mem_map_of_mem (f := Notice.client) hn)
    exact List.mem_map_of_mem (f := Wait.client) hk
  · intro w hw
    constructor
    · exact fun hx => by simpa using hfalse hx
    · rintro ⟨lock, hk, ho⟩
      rw [ht] at hk
      split_ifs at hk
      exact absurd ho (h.not_owner hw hk)
  · exact fun w _ hx => by simpa using hfalse hx
  · intro w hw
    have hiff : w.key ∈ gs ↔ t' w.key = none := by
      rw [ht]
      split_ifs with hg
      · simp [hg]
      · simpa [hg] using Option.isSome_iff_ne_none.mp (h.present w hw)
    rw [← hiff]
    constructor
    · intro hx
      obtain ⟨k, hk, hwk⟩ := mem_farewells.mp (List.mem_map_of_mem (f := Notice.client) hx)
      rwa [h.unique hw hwk rfl]
    · exact fun hk => List.mem_map_of_mem (List.mem_flatMap.mpr ⟨w.key, hk, mem_waiters.mpr hw⟩)

end Answers
end StorageServer.Library.LockTable
