import StorageServer.Library.LockTable
import StorageServer.Server.StoreSteps

/-! The lock hand-off protocol. The waits that have not been notified are read off the events of
a run; the queues of the entries hold exactly these, and every notification says what has
happened to the file. -/
namespace StorageServer.Server
open Common Library.KeyedList Library.LockTable Library.Runs

abbrev LockWait := Wait ℕ ℤ

/-- The notification that carries a notice. -/
def notify (n : Notice ℤ) : FSLockNotification :=
  ⟨n.client, if n.granted then 0 else fsFileNotExists⟩

@[simp] theorem notify_fd (n : Notice ℤ) : (notify n).fd = n.client := rfl

theorem mem_map_notify {L : List (Notice ℤ)} {n : Notice ℤ} : notify n ∈ L.map notify ↔ n ∈ L := by
  refine List.mem_map_of_injective ?_
  rintro ⟨c, g⟩ ⟨c', g'⟩ h
  simp only [notify, FSLockNotification.mk.injEq] at h
  obtain ⟨rfl, h⟩ := h
  cases g <;> cases g' <;> simp_all

def StoreEntry.lock (e : StoreEntry) : Lock ℤ :=
  ⟨if e.owner = emptyOwner then none else some e.owner, e.waiting⟩

namespace Store
variable {s s' t : Store} {k : ℕ} {e x : StoreEntry} {gone : List StoreEntry} {P : List LockWait}

/-- The locks of the stored files. -/
def locks (s : Store) : Table ℕ ℤ := fun k => (s.find k).map StoreEntry.lock

theorem locks_of_find (h : s.find k = some e) : s.locks k = some e.lock := by
  rw [locks, h]
  rfl

theorem locks_put (h : s.key x = k) :
    (s.put x).locks = Function.update s.locks k (some x.lock) := by
  funext k'
  by_cases hk : k' = k
  · subst k'
    rw [Function.update_self]
    exact locks_of_find (find_put_self h)
  · rw [Function.update_of_ne hk, locks, locks, find_put_of_ne (by rwa [h])]

/-- An entry that is put back with the name it had. -/
theorem locks_put_back (h : s.find k = some e) (x : StoreEntry) (hn : x.file.name = e.file.name) :
    (s.put x).locks = Function.update s.locks k (some x.lock) := locks_put (key_of_name h hn)

theorem locks_put_same (h : s.find k = some e) (hk : s.key x = k) (hl : x.lock = e.lock) :
    (s.put x).locks = s.locks := by
  rw [locks_put hk, hl, ← locks_of_find h, Function.update_eq_self]

theorem locks_replace (h : s.find k = some e) (hk : s.key x = k) :
    (s.replace x).locks = Function.update s.locks k (some x.lock) := by
  funext k'
  by_cases hkk : k' = k
  · subst k'
    rw [Function.update_self]
    exact locks_of_find (find_replace_self h hk)
  · rw [Function.update_of_ne hkk, locks, locks, find_replace_of_ne (by rwa [hk])]

theorem locks_reclaimed (hd : Distinct t.key t.entries) (hr : t.Reclaimed gone s') (k : ℕ) :
    s'.locks k = if k ∈ gone.map t.key then none else t.locks k := by
  obtain ⟨⟨kept, hk, rfl⟩, -, -⟩ := hr
  have hd' := hd
  rw [hk] at hd'
  rw [locks, find_release hd' hk]
  by_cases hg : k ∈ gone.map t.key
  · rw [if_pos hg, if_pos (by simpa using hg)]
    rfl
  · rw [if_neg hg, if_neg (by simpa using hg)]
    rfl

theorem Reclaimed.mem (hr : t.Reclaimed gone s') (h : e ∈ gone) : e ∈ t.entries := by
  obtain ⟨⟨kept, hk, -⟩, -, -⟩ := hr
  rw [hk]
  exact List.mem_append_left _ h

theorem Reclaimed.nodup (hd : Distinct t.key t.entries) (hr : t.Reclaimed gone s') :
    (gone.map t.key).Nodup := by
  obtain ⟨⟨kept, hk, -⟩, -, -⟩ := hr
  rw [Distinct, hk, List.map_append] at hd
  exact hd.of_append_left

/-- The notifications of ejected entries are the answers to all waits for them. -/
theorem issued_ejected (gone : List StoreEntry) (hP : Tracked P t.locks)
    (hd : Distinct t.key t.entries) (hg : ∀ e ∈ gone, e ∈ t.entries) :
    gone.flatMap StoreEntry.farewell = (farewells P (gone.map t.key)).map notify := by
  simp only [farewells, List.flatMap_map, List.map_map, List.map_flatMap]
  apply List.flatMap_congr
  intro e he
  have hq := hP.queue (locks_of_find (hd.lookup_self (hg e he)))
  rw [← hq]
  rfl

/-- What a step owes to the waiting clients: the notifications it issues answer some of the
waits, the others go on, and each answer is the truth. -/
structure Answers (P P' : List LockWait) (out : FSOutcome) (s' : Store) (L : List (Notice ℤ)) :
    Prop where
  issued : out.issued = L.map notify
  tracked : Tracked (unanswered P' L) s'.locks
  notifies : Notifies P L s'.locks

theorem answers_nil {out : FSOutcome} {P' : List LockWait} (h : Tracked P' s'.locks)
    (hp : P ⊆ P') (ho : out.issued = []) : Answers P P' out s' [] :=
  ⟨ho, by rwa [unanswered_nil], h.notifies_nil hp⟩

theorem answers_ejected (hP : Tracked P t.locks) (hd : Distinct t.key t.entries)
    (hr : t.Reclaimed gone s') :
    Answers P P (ejected gone) s' (farewells P (gone.map t.key)) :=
  ⟨issued_ejected gone hP hd fun _ => hr.mem, hP.drop (locks_reclaimed hd hr),
    hP.drop_notifies (hr.nodup hd) (locks_reclaimed hd hr)⟩

/-- The wait that an event begins. -/
def queuedWait (s : Store) : FsEvent → List LockWait
  | (.trylock client file, out) =>
    if out.res = fsClientWaitingOnLock then [⟨client, s.keyOf file.name⟩] else []
  | _ => []

theorem queuedWait_of_ne {op : FsOperation} {out : FSOutcome}
    (h : out.res ≠ fsClientWaitingOnLock) : s.queuedWait (op,out) = [] := by
  cases op with
  | trylock client file => exact if_neg h
  | insert | remove | obtain | obtainN | modify | append | exist | unlock | clean => rfl

theorem Refuses.ne_waiting {op : FsOperation} {r : ℤ} (h : s.Refuses e op r) :
    r ≠ fsClientWaitingOnLock := by
  cases op with
  | insert | obtain | obtainN | exist | clean => exact h.elim
  | remove | unlock => simp [h.2]
  | modify => rcases h with ⟨-, rfl⟩ | ⟨-, -, rfl⟩ <;> decide
  | append => rcases h with ⟨-, -, rfl⟩ | ⟨-, -, rfl⟩ <;> decide
  | trylock => simp [h.2.2.2]

theorem granted_eq (e : StoreEntry) : granted e = (handOver e.lock).map notify := by
  unfold granted handOver
  rw [List.map_map]
  rfl

/-- Letting go of a file whose waiting clients are valid descriptors. -/
theorem lock_handOff (h : ∀ c ∈ e.waiting, 0 ≤ c) :
    (handOff e).lock = ⟨e.lock.queue.head?, e.lock.queue.tail⟩ := by
  obtain ⟨owner, file, emptyBuffer, waiting⟩ := e
  cases waiting with
  | nil => simp [StoreEntry.lock, handOff]
  | cons c cs =>
    have hc : 0 ≤ c := h c List.mem_cons_self
    have hne : c ≠ emptyOwner := by
      unfold emptyOwner
      omega
    simp [StoreEntry.lock, handOff, hne]

/-- What a client that waits for nothing may do to an entry it owns or that is free. -/
theorem lock_owner_ne {client : ℤ} (ho : e.owner = client) (hn : ∀ w ∈ P, w.client ≠ client) :
    ∀ w ∈ P, e.lock.owner ≠ some w.client := by
  intro w hw h
  simp only [StoreEntry.lock] at h
  split_ifs at h
  exact hn w hw ((Option.some.inj h).symm.trans ho)

/-- The loop of `fs_clean` answers waits one hand-over at a time. -/
theorem answers_clean {client : ℤ} (hs : s.Sound) (hP : Tracked P s.locks)
    (hn : ∀ w ∈ P, w.client ≠ client) (h0 : ∀ w ∈ P, 0 ≤ w.client) (filenames : List HashValue) :
    ∃ L, Answers P P (s.clean client filenames).2 (s.clean client filenames).1 L := by
  have hrule := cleanFiles_rule
    (fun s issued => s.Sound ∧ ∃ L, issued = L.map notify ∧ Tracked (unanswered P L) s.locks ∧
      Notifies P L s.locks) client ?_ []
    ⟨hs, [], rfl, by rwa [unanswered_nil], hP.notifies_nil (fun _ h => h)⟩ filenames
  · obtain ⟨-, L, h1, h2, h3⟩ := hrule
    exact ⟨L, h1, h2, h3⟩
  · rintro s issued k e ⟨hs, L, rfl, ht, hL⟩ he ho
    have hk := locks_of_find he
    have hwait : ∀ c ∈ e.waiting, 0 ≤ c := by
      intro c hc
      have hm := (ht.mem_queue hk).mp hc
      exact h0 _ (mem_unanswered.mp hm).1
    refine ⟨hs.put he (key_of_name he rfl), L ++ handOver e.lock, ?_, ?_, ?_⟩
    · rw [List.map_append, granted_eq]
    · rw [locks_put_back he (handOff e) rfl, lock_handOff hwait, unanswered_append]
      exact ht.release hk
    · rw [locks_put_back he (handOff e) rfl, lock_handOff hwait]
      exact hL.release ht hP.nodup hk (lock_owner_ne ho hn)

/-- Every operation of a client that is not waiting answers the waits it has to answer. -/
theorem Effect.answers {op : FsOperation} {out : FSOutcome} (h : Effect s op out s')
    (hs : s.Sound) (hP : Tracked P s.locks) (hc : 0 ≤ op.client)
    (hn : ∀ w ∈ P, w.client ≠ op.client) (h0 : ∀ w ∈ P, 0 ≤ w.client) :
    ∃ L, Answers P (P ++ s.queuedWait (op,out)) out s' L := by
  have hsame : out.res ≠ fsClientWaitingOnLock → P ++ s.queuedWait (op,out) = P := by
    intro hr
    rw [queuedWait_of_ne hr, List.append_nil]
  cases h with
  | present he =>
    rw [hsame (by simp)]
    exact ⟨[], answers_nil hP (fun _ h => h) rfl⟩
  | missing hf hi he =>
    rw [hsame (by simp)]
    exact ⟨[], answers_nil hP (fun _ h => h) rfl⟩
  | refused hf he hr =>
    rw [hsame hr.ne_waiting]
    exact ⟨[], answers_nil hP (fun _ h => h) rfl⟩
  | listed =>
    rw [hsame (by simp)]
    exact ⟨[], answers_nil hP (fun _ h => h) rfl⟩
  | obtained he | existing he =>
    rw [hsame (by simp)]
    refine ⟨[], answers_nil ?_ (fun _ h => h) rfl⟩
    rwa [locks_put_same he (key_of_find he) rfl]
  | @locked client file e he ho =>
    rw [hsame (by simp)]
    refine ⟨[], answers_nil ?_ (fun _ h => h) rfl⟩
    have hne : client ≠ emptyOwner := by
      change 0 ≤ client at hc
      unfold emptyOwner
      omega
    have hl : StoreEntry.lock { e with owner := client } = ⟨some client, e.lock.queue⟩ := by
      simp [StoreEntry.lock, hne]
    rw [locks_put_back he { e with owner := client } rfl, hl]
    refine hP.setOwner (locks_of_find he) fun hq => ?_
    obtain ⟨o, ho', -⟩ := hP.owned (locks_of_find he) hq
    rcases ho with ho | ho
    · simp [StoreEntry.lock, ho] at ho'
    · simp [StoreEntry.lock, ho, hne]
  | @queued client file e he ho hoc hw =>
    refine ⟨[], answers_nil ?_ (List.subset_append_left _ _) rfl⟩
    have hl : StoreEntry.lock { e with waiting := e.waiting ++ [client] } =
        ⟨e.lock.owner, e.lock.queue ++ [client]⟩ := rfl
    have hq : s.queuedWait (.trylock client file, { res := fsClientWaitingOnLock }) =
        [⟨client, s.keyOf file.name⟩] := by simp [queuedWait]
    have hx : s.key { e with waiting := e.waiting ++ [client] } = s.keyOf file.name :=
      key_of_name he rfl
    rw [locks_replace he hx, hl, hq]
    refine hP.enqueue (locks_of_find he) (o := e.owner) ?_ hoc ?_
    · simp [StoreEntry.lock, ho]
    · rw [List.mem_map]
      rintro ⟨w, hw, hwc⟩
      exact hn w hw hwc
  | @unlocked client file e he ho =>
    rw [hsame (by simp)]
    have hk := locks_of_find he
    have hwait : ∀ c ∈ e.waiting, 0 ≤ c := fun c hc => h0 _ ((hP.mem_queue hk).mp hc)
    refine ⟨handOver e.lock, granted_eq e, ?_, ?_⟩
    · rw [locks_put_back he (handOff e) rfl, lock_handOff hwait]
      exact hP.release hk
    · rw [locks_put_back he (handOff e) rfl, lock_handOff hwait]
      have hr := (hP.notifies_nil (fun _ h => h)).release (by rwa [unanswered_nil]) hP.nodup hk
        (lock_owner_ne ho hn)
      rwa [List.nil_append] at hr
  | @removed client file e gone s' he ho hr =>
    rw [hsame (by simp)]
    obtain ⟨hd, hcount⟩ := hs.erase_charge he (-(e.file.size : ℤ))
    have hrec := hcount.reclaim hr
    obtain rfl := reclaim_false hr
    have hg : ∀ k, s'.locks k = if k ∈ [s.keyOf file.name] then none else s.locks k := by
      intro k
      rw [locks_reclaimed hd hrec, if_neg (by simp)]
      by_cases hk : k = s.keyOf file.name
      · rw [if_pos (by simpa using hk), hk, locks, find_charge, find_erase_self]
        rfl
      · rw [if_neg (by simpa using hk), locks, find_charge, find_erase_of_ne hk]
        rfl
    refine ⟨farewells P [s.keyOf file.name], ?_, hP.drop hg, hP.drop_notifies (by simp) hg⟩
    have hi := issued_ejected [e] hP hs.distinct
      (fun x hx => List.mem_singleton.mp hx ▸ mem_of_find he)
    rw [List.map_singleton, key_of_find he] at hi
    rw [← hi]
    simp
  | @inserted client file lock gone s' he hr =>
    rw [hsame (by simp [ejected])]
    obtain ⟨hd, hcount⟩ :=
      hs.put_new (x := ⟨if lock then client else emptyOwner, file, false, []⟩) he file.size
    refine ⟨_, answers_ejected ?_ hd (hcount.reclaim hr)⟩
    have hnone : s.locks (s.keyOf file.name) = none := by
      rw [locks, he]
      rfl
    change Tracked P (s.put _).locks
    rw [locks_put (x := ⟨if lock then client else emptyOwner, file, false, []⟩) rfl]
    exact hP.create hnone _
  | @modified client file e gone s' he ho hb hr =>
    rw [hsame (by simp [ejected])]
    obtain ⟨hd, hcount⟩ := hs.put_charge (x := e.rewritten file) he rfl
      (file.size - e.file.size)
    refine ⟨_, answers_ejected ?_ hd (hcount.reclaim hr)⟩
    change Tracked P (s.put _).locks
    rwa [locks_put_same (x := e.rewritten file) he rfl rfl]
  | @appended client file e gone s' he ho hb hr =>
    rw [hsame (by simp [ejected])]
    obtain ⟨hd, hcount⟩ := hs.put_charge (x := e.extended file) he
      (key_of_name he rfl) (file.size - (Store.appended e.file file).contentLen)
    refine ⟨_, answers_ejected ?_ hd (hcount.reclaim hr)⟩
    change Tracked P (s.put _).locks
    rwa [locks_put_same (x := e.extended file) he
      (key_of_name he rfl) rfl]
  | cleaned =>
    rw [hsame (by simp [clean])]
    exact answers_clean hs hP hn h0 _

theorem find_of_locks {l : Lock ℤ} (h : s.locks k = some l) :
    ∃ e, s.find k = some e ∧ e.lock = l := by
  obtain ⟨e, he, hl⟩ := Option.map_eq_some_iff.mp h
  exact ⟨e, he, hl⟩

theorem locks_eq_none : s.locks k = none ↔ ∀ e ∈ s.entries, s.key e ≠ k := by
  rw [locks, Option.map_eq_none_iff]
  exact lookup_eq_none

end Store

theorem lock_owner_iff {e : StoreEntry} {c : ℤ} (hc : 0 ≤ c) :
    e.lock.owner = some c ↔ e.owner = c := by
  have hne : c ≠ emptyOwner := by
    unfold emptyOwner
    omega
  simp only [StoreEntry.lock]
  split_ifs with h
  · simp only [h]
    simpa using hne.symm
  · simp

namespace FileSystem
open Store

/-- The waits that have not been notified after an event, in the order of their queueing. -/
def pendingAfter (P : List LockWait) (fs : FileSystem) (e : FsEvent) : List LockWait :=
  (P ++ fs.view.queuedWait e).filter (fun w => w.client ∉ e.2.issued.map FSLockNotification.fd)

/-- Clients are descriptors, and a client that was told to wait issues nothing until notified. -/
def MayIssue (a : FileSystem × List LockWait) (e : FsEvent) : Prop :=
  0 ≤ e.1.client ∧ ∀ w ∈ a.2, w.client ≠ e.1.client

def WaitStep : FileSystem × List LockWait → FsEvent → FileSystem × List LockWait → Prop :=
  Guarded MayIssue (Recorded pendingAfter Step)

/-- The clients told to wait by an event and the ones notified by it. -/
def toldToWait : FsEvent → List ℤ
  | (.trylock client _, out) => if out.res = fsClientWaitingOnLock then [client] else []
  | _ => []

def notified (e : FsEvent) : List ℤ := e.2.issued.map FSLockNotification.fd

def OwnsKey (fs : FileSystem) (client : ℤ) (k : ℕ) : Prop :=
  ∃ e ∈ fs.view.entries, fs.view.key e = k ∧ e.owner = client

def HasKey (fs : FileSystem) (k : ℕ) : Prop := ∃ e ∈ fs.view.entries, fs.view.key e = k

/-- Waiting clients wait behind an owner, each in one place. -/
structure WellQueued (fs : FileSystem) (P : List LockWait) : Prop where
  owned : ∀ e ∈ fs.view.entries, e.waiting ≠ [] → e.owner ≠ emptyOwner ∧ e.owner ∉ e.waiting
  queued : ∀ w ∈ P, ∃ e ∈ fs.view.entries, fs.view.key e = w.key ∧ e.waiting.count w.client = 1 ∧
    ∀ x ∈ fs.view.entries, w.client ∈ x.waiting → x = e

/-- The notifications of one step go to waiting clients, in order, and tell the truth. -/
structure Notified (fs : FileSystem) (P : List LockWait) (out : FSOutcome) (fs' : FileSystem) :
    Prop where
  once : (out.issued.map FSLockNotification.fd).Nodup
  pending : ∀ n ∈ out.issued, n.fd ∈ P.map Wait.client ∧ (n.status = 0 ∨ n.status = fsFileNotExists)
  in_order : ∀ w ∈ P, ⟨w.client, 0⟩ ∈ out.issued →
    (P.filter (fun x => x.key = w.key)).head? = some w
  granted : ∀ w ∈ P, ⟨w.client, 0⟩ ∈ out.issued ↔
    ¬ fs.OwnsKey w.client w.key ∧ fs'.OwnsKey w.client w.key
  gone : ∀ w ∈ P, ⟨w.client, fsFileNotExists⟩ ∈ out.issued ↔ fs.HasKey w.key ∧ ¬ fs'.HasKey w.key

section Protocol
variable {fs fs' : FileSystem} {P : List LockWait}

/-- What the state of a run says about the waits that have not been notified. -/
structure Queues (fs : FileSystem) (P : List LockWait) : Prop where
  valid : fs.Valid
  tracked : Tracked P fs.view.locks
  nonneg : ∀ w ∈ P, 0 ≤ w.client

theorem Queues.answers (h : Queues fs P) {e : FsEvent} (hm : MayIssue (fs,P) e)
    (hs : Step fs e fs') :
    ∃ L, Answers P (P ++ fs.view.queuedWait e) e.2 fs'.view L :=
  (hs.effect h.valid.wf).answers h.valid.sound h.tracked hm.1 hm.2 h.nonneg

theorem pendingAfter_eq {e : FsEvent} {L : List (Notice ℤ)} (h : e.2.issued = L.map notify) :
    pendingAfter P fs e = unanswered (P ++ fs.view.queuedWait e) L := by
  have hm : e.2.issued.map FSLockNotification.fd = L.map Notice.client := by
    rw [h, List.map_map]
    rfl
  unfold pendingAfter unanswered
  rw [hm]

theorem client_queuedWait (s : Store) (e : FsEvent) :
    (s.queuedWait e).map Wait.client = toldToWait e := by
  obtain ⟨op, out⟩ := e
  cases op with
  | trylock client file =>
    simp only [Store.queuedWait, toldToWait]
    split_ifs <;> rfl
  | insert | remove | obtain | obtainN | modify | append | exist | unlock | clean => rfl

theorem nonneg_queuedWait {s : Store} {e : FsEvent} (h : 0 ≤ e.1.client) :
    ∀ w ∈ s.queuedWait e, 0 ≤ w.client := by
  obtain ⟨op, out⟩ := e
  cases op with
  | trylock client file =>
    simp only [Store.queuedWait]
    split_ifs
    · intro w hw
      rw [List.mem_singleton.mp hw]
      exact h
    · simp
  | insert | remove | obtain | obtainN | modify | append | exist | unlock | clean =>
    simp [Store.queuedWait]

theorem toldToWait_sublist (e : FsEvent) : (toldToWait e).Sublist [e.1.client] := by
  obtain ⟨op, out⟩ := e
  cases op with
  | trylock client file =>
    simp only [toldToWait]
    split_ifs
    · exact List.Sublist.refl _
    · exact List.nil_sublist _
  | insert | remove | obtain | obtainN | modify | append | exist | unlock | clean =>
    exact List.nil_sublist _

/-- The waits after an event are still waits of different clients. -/
theorem Queues.nodup_queued (h : Queues fs P) {e : FsEvent} (hm : MayIssue (fs,P) e) :
    ((P ++ fs.view.queuedWait e).map Wait.client).Nodup := by
  rw [List.map_append, client_queuedWait, List.nodup_append]
  refine ⟨h.tracked.nodup, (List.nodup_singleton _).sublist (toldToWait_sublist e), ?_⟩
  rintro x hx y hy rfl
  obtain ⟨w, hw, rfl⟩ := List.mem_map.mp hx
  exact hm.2 w hw (List.mem_singleton.mp ((toldToWait_sublist e).subset hy))

/-- An event begins and ends as many waits as the list of waits grows. -/
theorem Queues.count_step (h : Queues fs P) {e : FsEvent} (hm : MayIssue (fs,P) e)
    (hs : Step fs e fs') (c : ℤ) :
    (P.map Wait.client).count c + (toldToWait e).count c =
      (FileSystem.notified e).count c + ((pendingAfter P fs e).map Wait.client).count c := by
  obtain ⟨L, hL⟩ := h.answers hm hs
  have hnot : FileSystem.notified e = L.map Notice.client := by
    rw [FileSystem.notified, hL.issued, List.map_map]
    rfl
  have hc := count_unanswered (h.nodup_queued hm) hL.notifies.nodup (L := L) (fun n hn => by
    rw [List.map_append]
    exact List.mem_append_left _ (hL.notifies.pending n hn)) c
  rw [hnot, pendingAfter_eq hL.issued, ← hc, List.map_append, List.count_append,
    client_queuedWait]

theorem Queues.step (h : Queues fs P) {e : FsEvent} {P' : List LockWait}
    (hs : WaitStep (fs,P) e (fs',P')) : Queues fs' P' := by
  obtain ⟨hm, hs, rfl⟩ := hs
  obtain ⟨L, hL⟩ := h.answers hm hs
  refine ⟨h.valid.step hs, ?_, fun w hw => ?_⟩
  · change Tracked (pendingAfter P fs e) _
    rw [pendingAfter_eq hL.issued]
    exact hL.tracked
  · rcases List.mem_append.mp (List.mem_filter.mp hw).1 with hw | hw
    · exact h.nonneg w hw
    · exact nonneg_queuedWait hm.1 w hw

theorem Queues.wellQueued (h : Queues fs P) : WellQueued fs P where
  owned e he hw := by
    have hk := locks_of_find (h.valid.sound.find_iff.mpr ⟨he, rfl⟩)
    obtain ⟨o, ho, hn⟩ := h.tracked.owned hk hw
    simp only [StoreEntry.lock] at ho hn
    split_ifs at ho with hempty
    rw [Option.some.injEq] at ho
    exact ⟨hempty, ho ▸ hn⟩
  queued w hw := by
    obtain ⟨l, hl⟩ := Option.isSome_iff_exists.mp (h.tracked.present w hw)
    obtain ⟨e, he, rfl⟩ := find_of_locks hl
    obtain ⟨hmem, hkey⟩ := h.valid.sound.find_iff.mp he
    have hin : w.client ∈ e.waiting := (h.tracked.mem_queue hl).mpr hw
    refine ⟨e, hmem, hkey, ?_, fun x hx hwx => ?_⟩
    · have hnd : e.waiting.Nodup := by
        change e.lock.queue.Nodup
        rw [h.tracked.queue hl]
        exact h.tracked.waiters_nodup _
      rw [hnd.count, if_pos hin]
    · have hkx := locks_of_find (h.valid.sound.find_iff.mpr ⟨hx, rfl⟩)
      have hwP := (h.tracked.mem_queue hkx).mp hwx
      have hu := h.tracked.unique hwP hw rfl
      exact h.valid.sound.distinct.eq_of_key hx hmem (by rw [hkey, ← hu])

theorem ownsKey_iff (hv : fs.Valid) {w : LockWait} (h0 : 0 ≤ w.client) :
    (∃ l, fs.view.locks w.key = some l ∧ l.owner = some w.client) ↔
      fs.OwnsKey w.client w.key := by
  constructor
  · rintro ⟨l, hl, ho⟩
    obtain ⟨e, he, rfl⟩ := find_of_locks hl
    obtain ⟨hmem, hkey⟩ := hv.sound.find_iff.mp he
    exact ⟨e, hmem, hkey, (lock_owner_iff h0).mp ho⟩
  · rintro ⟨e, hmem, hkey, ho⟩
    exact ⟨e.lock, locks_of_find (hv.sound.find_iff.mpr ⟨hmem, hkey⟩), (lock_owner_iff h0).mpr ho⟩

theorem hasKey_iff {k : ℕ} : fs.HasKey k ↔ fs.view.locks k ≠ none := by
  rw [ne_eq, locks_eq_none, HasKey]
  simp

theorem Queues.notified (h : Queues fs P) {e : FsEvent} (hm : MayIssue (fs,P) e)
    (hs : Step fs e fs') : Notified fs P e.2 fs' := by
  obtain ⟨L, hL⟩ := h.answers hm hs
  have hv' := h.valid.step hs
  have hn := hL.notifies
  have hmem : ∀ {c : ℤ} {g : Bool}, (⟨c, if g then 0 else fsFileNotExists⟩ : FSLockNotification) ∈
      e.2.issued ↔ ⟨c,g⟩ ∈ L := by
    intro c g
    rw [hL.issued]
    exact mem_map_notify (n := ⟨c,g⟩)
  refine ⟨?_, ?_, ?_, ?_, ?_⟩
  · rw [hL.issued, List.map_map]
    exact hn.nodup
  · intro n hnL
    rw [hL.issued] at hnL
    obtain ⟨⟨c, g⟩, hx, rfl⟩ := List.mem_map.mp hnL
    refine ⟨hn.pending _ hx, ?_⟩
    cases g
    · exact Or.inr rfl
    · exact Or.inl rfl
  · intro w hw hx
    have hf := hn.first w hw (hmem (g := true) |>.mp hx)
    rw [waiters, List.head?_map] at hf
    obtain ⟨x, hx, hxc⟩ := Option.map_eq_some_iff.mp hf
    have hxm := List.mem_filter.mp (List.mem_of_mem_head? hx)
    have hxw : x = w := h.tracked.unique hxm.1 hw hxc
    rwa [hxw] at hx
  · intro w hw
    have hnot : ¬ fs.OwnsKey w.client w.key := by
      rw [← ownsKey_iff h.valid (h.nonneg w hw)]
      rintro ⟨l, hl, ho⟩
      exact h.tracked.not_owner hw hl ho
    rw [← ownsKey_iff hv' (h.nonneg w hw), ← hn.granted w hw, ← hmem]
    exact ⟨fun hx => ⟨hnot, hx⟩, And.right⟩
  · intro w hw
    have hhas : fs.HasKey w.key := by
      rw [hasKey_iff, ← Option.isSome_iff_ne_none]
      exact h.tracked.present w hw
    rw [hasKey_iff, hasKey_iff, not_not, ← hn.gone w hw, ← hmem]
    exact ⟨fun hx => ⟨hasKey_iff.mp hhas, hx⟩, And.right⟩

/-- In every run in which waiting clients keep still, queued clients wait behind an owner and in
one place, every wait is notified at most once, and every step notifies the right clients. -/
theorem lock_handoff {configs : FSConfig} {tr : List FsEvent}
    (h : Run WaitStep (initializeFileSystem configs, []) tr (fs,P)) :
    WellQueued fs P ∧ (P.map Wait.client).Nodup ∧
      (∀ c, (tr.flatMap toldToWait).count c =
        (tr.flatMap notified).count c + (P.map Wait.client).count c) ∧
      ∀ e fs' P', WaitStep (fs,P) e (fs',P') → Notified fs P e.2 fs' := by
  have hi := h.invariant_trace (I := fun tr a => Queues a.1 a.2 ∧
      ∀ c, (tr.flatMap toldToWait).count c =
        (tr.flatMap notified).count c + (a.2.map Wait.client).count c)
    ⟨⟨.start configs, .empty, by simp⟩, by simp⟩ ?_
  · obtain ⟨hq, hc⟩ := hi
    exact ⟨hq.wellQueued, hq.tracked.nodup, hc, fun e fs' P' hs => hq.notified hs.1 hs.2.1⟩
  · rintro tr ⟨fs, P⟩ e ⟨fs', P'⟩ ⟨hq, hc⟩ hs
    refine ⟨hq.step hs, fun c => ?_⟩
    obtain ⟨hm, hs, rfl⟩ := hs
    change Queues fs P at hq
    have hcount := hq.count_step hm hs c
    have hcc : _ = _ + (P.map Wait.client).count c := hc c
    simp only [List.flatMap_append, List.flatMap_singleton, List.count_append]
    change _ = _ + ((pendingAfter P fs e).map Wait.client).count c
    omega

/-- Client 5 asks for the lock of the file `a` that client 4 holds. -/
def trylockA : FsOperation := .trylock 5 ⟨[97], []⟩

theorem lock_handoff_queued :
    WellQueued (((initializeFileSystem defaultConfigs).after createA).after trylockA)
      [⟨5, 548702⟩] := by
  have h1 := step_after (initializeFileSystem defaultConfigs) createA (by decide +kernel)
  have h2 := step_after ((initializeFileSystem defaultConfigs).after createA) trylockA
    (by decide +kernel)
  have hr1 : Run WaitStep (initializeFileSystem defaultConfigs, []) _
      ((initializeFileSystem defaultConfigs).after createA, []) :=
    Run.start.next ⟨⟨by decide, by simp⟩, h1, by decide +kernel⟩
  exact (lock_handoff (hr1.next ⟨⟨by decide, by simp⟩, h2, by decide +kernel⟩)).1

end Protocol
end FileSystem
end StorageServer.Server
