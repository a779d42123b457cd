import StorageServer.Server.Ownership
import StorageServer.Server.Places
import Mathlib.Data.Finset.Card

/-! Closing connections. A worker that arrives at the end of a connection ends the session before
the descriptor is closed; one that meets a broken message does not, and the select thread does not
when its queue is full. The counter of the connected clients is kept beside the threads. -/
namespace StorageServer.Server
open Common Library.KeyedList Library.Calls Library.Runs

/-! ### What a closed connection leaves behind -/

/-- The client has no session and owns no file. -/
structure Bare (t : SessionTable) (s : Store) (client : Client) : Prop where
  session : (t client).isValid = false
  owner : ∀ e ∈ s.entries, e.owner ≠ client

/-- The session of the client lists the key of every file that it owns. -/
def OwnsListed (t : SessionTable) (s : Store) (client : Client) : Prop :=
  ∀ e ∈ s.entries, e.owner = client → (t client).isValid = true ∧
    ∃ f ∈ (t client).filenames, tableKey s.tableSize f = s.key e

/-- What a client owns it has owned before. -/
structure Retains (s : Store) (client : Client) (s' : Store) : Prop where
  tableSize_eq : s'.tableSize = s.tableSize
  owner : ∀ e' ∈ s'.entries, e'.owner = client →
    ∃ e ∈ s.entries, e.owner = client ∧ s.key e = s.key e'

section Clients
variable {t t' : SessionTable} {s s' : Store} {client : Client} {op : FsOperation}
  {out : FSOutcome}

theorem Bare.retained (h : Bare t s client) (ht : t' client = t client)
    (hs : Retains s client s') : Bare t' s' client := by
  refine ⟨ht ▸ h.session, fun e' he' ho => ?_⟩
  obtain ⟨e, he, heo, -⟩ := hs.owner e' he' ho
  exact h.owner e he heo

theorem OwnsListed.retained (h : OwnsListed t s client) (ht : t' client = t client)
    (hs : Retains s client s') : OwnsListed t' s' client := by
  intro e' he' ho
  obtain ⟨e, he, heo, hk⟩ := hs.owner e' he' ho
  obtain ⟨hv, f, hf, hfk⟩ := h e he heo
  have hkey : s'.key e' = s.key e' := by
    unfold Store.key Store.keyOf
    rw [hs.tableSize_eq]
  rw [ht, hs.tableSize_eq, hkey]
  exact ⟨hv, f, hf, hfk.trans hk⟩

theorem retains_self (s : Store) (client : Client) : Retains s client s :=
  ⟨rfl, fun e he ho => ⟨e, he, ho, rfl⟩⟩

namespace Store

theorem Reclaimed.tableSize_eq {gone : List StoreEntry} (h : s.Reclaimed gone s') :
    s'.tableSize = s.tableSize := by
  obtain ⟨⟨kept, -, rfl⟩, -, -⟩ := h
  rfl

/-- The operations of the others give a client nothing while it waits for nothing. -/
theorem Effect.retains (h : s.Effect op out s') (hs : s.Sound) (hc : (client : ℤ) ≠ op.client)
    (hq : s.Unqueued client) : Retains s client s' := by
  have hself : ∀ y ∈ s.entries, y.owner = client →
      ∃ e ∈ s.entries, e.owner = client ∧ s.key e = s.key y := fun y hy ho => ⟨y, hy, ho, rfl⟩
  have hother : ∀ {x : StoreEntry}, x.owner ≠ client → x.owner = client →
      ∃ e ∈ s.entries, e.owner = client ∧ s.key e = s.key x := fun hn ho => absurd ho hn
  have hne := client_ne_emptyOwner client
  cases h with
  | present | missing | refused | listed => exact retains_self s client
  | obtained he | existing he => exact ⟨rfl, forall_put hself (hself _ (mem_of_find he))⟩
  | locked he ho => exact ⟨rfl, forall_put hself (hother (Ne.symm hc))⟩
  | @queued c file e he ho hcl hw =>
    refine ⟨rfl, forall_replace hself fun hx => ⟨e, mem_of_find he, hx, ?_⟩⟩
    have hk := key_of_name (x := { e with waiting := e.waiting ++ [c] }) he rfl
    exact (key_of_find he).trans hk.symm
  | unlocked he ho =>
    exact ⟨rfl, forall_put hself (hother (handOff_owner_ne (hq _ (mem_of_find he))))⟩
  | removed he ho hr =>
    obtain ⟨-, hcount⟩ := hs.erase_charge he _
    have hr := hcount.reclaim hr
    refine ⟨hr.tableSize_eq, hr.forall_mem fun y hy => hself y ?_⟩
    exact (mem_without.mp hy).1
  | @inserted c file lock gone s' he hr =>
    obtain ⟨-, hcount⟩ := hs.put_new
      (x := ⟨if lock then c else emptyOwner, file, false, []⟩) he file.size
    have hr := hcount.reclaim hr
    refine ⟨hr.tableSize_eq, hr.forall_mem (forall_put hself (hother ?_))⟩
    dsimp only
    split_ifs
    · exact Ne.symm hc
    · exact Ne.symm hne
  | @modified c file e gone s' he ho hb hr =>
    obtain ⟨-, hcount⟩ := hs.put_charge (x := e.rewritten file) he rfl
      (file.size - e.file.size)
    have hr := hcount.reclaim hr
    exact ⟨hr.tableSize_eq, hr.forall_mem (forall_put hself (hother (ho ▸ Ne.symm hc)))⟩
  | @appended c file e gone s' he ho hb hr =>
    obtain ⟨-, hcount⟩ := hs.put_charge (x := e.extended file) he
      (key_of_name he rfl) (file.size - (Store.appended e.file file).contentLen)
    have hr := hcount.reclaim hr
    refine ⟨hr.tableSize_eq, hr.forall_mem (forall_put hself ?_)⟩
    exact fun hx => hself e (mem_of_find he) hx
  | @cleaned c filenames =>
    refine (cleanFiles_rule (fun s' _ => s'.Unqueued client ∧ Retains s client s') _ ?_ []
      ⟨hq, retains_self s client⟩ filenames).2
    intro t issued k e ⟨hq, hr⟩ he ho
    have hoff := hq e (mem_of_find he)
    refine ⟨forall_put hq fun hm => hoff (List.mem_of_mem_tail hm), hr.tableSize_eq, ?_⟩
    exact forall_put hr.owner fun hx => absurd hx (handOff_owner_ne hoff)

end Store
end Clients

/-! ### The end of a connection, call by call -/

/-- Ending a session, once its files have been released. -/
def destroying (client : Client) : Handler Ending :=
  .call (.session (.destroySession client)) fun _ => .ret .remove

def cleaning (client : Client) (filenames : List HashValue) : Handler Ending :=
  .call (.fs (.clean client filenames)) fun _ => destroying client

theorem disconnect_eq (client : Client) :
    disconnect client = .call (.session (.getRawSession client)) fun session =>
      if session.res = 0 then cleaning client session.filenames else .ret .remove := by
  refine congrArg (fun next => (Program.call (ServerCall.session (.getRawSession client)) next :
    Handler Ending)) (funext fun session => ?_)
  change ((if session.res = 0 then fsCall (.clean client session.filenames) >>= fun _ =>
    sessionCall (.destroySession client) >>= fun _ => pure () else pure () : Handler Unit) >>=
      fun _ => (pure .remove : Handler Ending)) = _
  split_ifs <;> rfl

/-- Where a worker is with the end of a connection, and what is true there. -/
inductive Leaving (t : SessionTable) (s : Store) (client : Client) : Handler Ending → Prop
  | starts {rest} (hr : rest = disconnect client) (h : OwnsListed t s client) :
    Leaving t s client rest
  | cleans {rest} (hr : rest = cleaning client (t client).filenames) (h : OwnsListed t s client) :
    Leaving t s client rest
  | destroys {rest} (hr : rest = destroying client) (h : ∀ e ∈ s.entries, e.owner ≠ client) :
    Leaving t s client rest
  | removes {rest} (hr : rest = .ret .remove) (h : Bare t s client) : Leaving t s client rest

section Leaving
variable {t t' : SessionTable} {s s' : Store} {client : Client} {rest : Handler Ending}

theorem Leaving.retained (h : Leaving t s client rest) (ht : t' client = t client)
    (hs : Retains s client s') : Leaving t' s' client rest := by
  cases h with
  | starts hr h => exact .starts hr (h.retained ht hs)
  | cleans hr h => exact .cleans (ht ▸ hr) (h.retained ht hs)
  | destroys hr h =>
    refine .destroys hr fun e' he' ho => ?_
    obtain ⟨e, he, heo, -⟩ := hs.owner e' he' ho
    exact h e he heo
  | removes hr h => exact .removes hr (h.retained ht hs)

theorem Leaving.bare (h : Leaving t s client (.ret .remove)) : Bare t s client := by
  cases h with
  | starts hr h =>
    rw [disconnect_eq] at hr
    cases hr
  | cleans hr h | destroys hr h => cases hr
  | removes hr h => exact h

theorem Leaving.sessionCall {op : SessionOperation} {next : SessionOutcome → Handler Ending}
    (h : Leaving t s client (.call (.session op) next)) :
    Leaving (t.apply op).1 s client (next (t.apply op).2) := by
  cases h with
  | starts hr h =>
    rw [disconnect_eq] at hr
    cases hr
    by_cases hv : (t client).isValid = true
    · have hg : (t.apply (.getRawSession client)).2 =
          { res := 0, filenames := (t client).filenames } := by
        simp [SessionTable.apply, SessionTable.getRawSession, hv]
      rw [hg]
      exact .cleans rfl h
    · have hg : (t.apply (.getRawSession client)).2.res = sessionNotExist := by
        simp [SessionTable.apply, SessionTable.getRawSession, hv]
      have hv' : (t client).isValid = false := by simpa using hv
      refine .removes ?_ ⟨hv', fun e he ho => hv (h e he ho).1⟩
      dsimp only
      rw [hg, if_neg (by decide)]
  | cleans hr h => cases hr
  | destroys hr h =>
    cases hr
    refine .removes rfl ⟨?_, h⟩
    simp only [SessionTable.apply, SessionTable.destroySession]
    split_ifs with hv
    · change (Function.update t client (.blank false) client).isValid = false
      rw [Function.update_self]
      rfl
    · simpa using hv
  | removes hr h => cases hr

theorem Leaving.fsCall {op : FsOperation} {out : FSOutcome} {next : FSOutcome → Handler Ending}
    (h : Leaving t s client (.call (.fs op) next)) (hs : s.Sound) (hq : s.Unqueued client)
    (he : s.Effect op out s') : Leaving t s' client (next out) := by
  cases h with
  | starts hr h =>
    rw [disconnect_eq] at hr
    cases hr
  | cleans hr h =>
    cases hr
    refine .destroys rfl ?_
    cases he with
    | missing hf | refused hf => cases hf
    | cleaned => exact Store.cleanFiles_owner hs hq fun e he ho => (h e he ho).2
  | destroys hr h | removes hr h => cases hr

end Leaving

def PipeMessage.isNew : PipeMessage → Bool
  | newConnection _ => true
  | setConnection _ | remConnection _ => false

namespace Threads

/-- The client is not connected, has just been accepted or is about to be closed. -/
def Away (σ : Threads) (client : Client) : Prop :=
  (client : ℤ) ∉ σ.opened ∨ σ.main = some (client : ℤ) ∨ .remConnection client ∈ σ.pipe

/-- Whoever is away has neither session nor lock, and whoever leaves is about to give them back. -/
structure TornDown (σ : Threads) : Prop where
  away : ∀ client : Client, σ.Away client → Bare σ.gSessionTable σ.fs.view client
  leaving : ∀ w ∈ σ.workers, ∀ client rest, w.state = .working client false rest →
    Leaving σ.gSessionTable σ.fs.view client rest

section Steps
variable {σ σ' : Threads} {e : ThreadEvent} {client c : Client} {asked : Bool}
  {rest : Handler Ending}

theorem unqueued_of_count (h : σ.fs.view.waiters.count (client : ℤ) = 0) :
    σ.fs.view.Unqueued client := by
  intro e he hw
  exact List.count_eq_zero.mp h (List.mem_flatMap.mpr ⟨e, he, hw⟩)

/-- What must be true of a step so that it leaves nothing of a client behind: there is room in the
work queue, the end of a connection finds everything that its client owns in the session, and a
connection breaks when its client has no session and owns nothing. -/
structure Tidy (σ : Threads) (e : ThreadEvent) (σ' : Threads) : Prop where
  documented : e.Documented
  room : e.thread = .select → ∀ fd ∈ σ.select.hands, (σ.gWorkQueue.tryPush fd).isSome
  ended : ∀ client : Client, e.action = .disconnection client →
    ⟨.working client false (disconnect client), []⟩ ∈ σ'.workers →
    OwnsListed σ.gSessionTable σ.fs.view client
  broken : ∀ client : Client, e.action = .disconnection client →
    ⟨.working client false (.ret .remove), []⟩ ∈ σ'.workers →
    Bare σ.gSessionTable σ.fs.view client

theorem Tidy.ne_overflow {fdsCpy : Finset ℤ} {fd newMaxFd : ℤ}
    (h : Tidy σ ⟨.select, .internal⟩ σ') (hs : σ.select = .pushing fdsCpy fd newMaxFd) :
    σ.gWorkQueue.tryPush fd ≠ none := by
  have hroom := h.room rfl fd (by rw [hs]; exact List.mem_cons_self)
  exact fun hq => by simp [hq] at hroom

/-- Whoever is away is in the hands of no worker and waits for no file. -/
theorem Inv.away (hi : σ.Inv) (h : σ.Away client) :
    (σ.workers.flatMap Worker.hands).count (client : ℤ) = 0 ∧ σ.fs.view.Unqueued client := by
  have hle := hi.placed client
  have hone : σ.places client ≤ 1 := by
    rw [hle]
    split_ifs <;> omega
  suffices hcount : (σ.workers.flatMap Worker.hands).count (client : ℤ) = 0 ∧
      σ.fs.view.waiters.count (client : ℤ) = 0 from ⟨hcount.1, unqueued_of_count hcount.2⟩
  unfold places at hle hone
  rcases h with h | h | h
  · rw [if_neg h] at hle
    omega
  · have hmain : σ.main.toList.count (client : ℤ) = 1 := by simp [h]
    omega
  · have hpipe : 0 < (σ.pipe.map PipeMessage.value).count (client : ℤ) :=
      List.count_pos_iff.mpr (List.mem_map.mpr ⟨_, h, rfl⟩)
    omega

/-- The client of a worker is in no other worker's hands and waits for no file. -/
theorem Inv.in_hands (hi : σ.Inv) {l r : List Worker} {w : Worker}
    (hw : σ.workers = l ++ w :: r) (hc : (client : ℤ) ∈ w.hands) :
    (∀ w' ∈ l ++ r, (client : ℤ) ∉ w'.hands) ∧ σ.fs.view.Unqueued client := by
  have hone : σ.places client ≤ 1 := by
    rw [hi.placed]
    split_ifs <;> omega
  have hpos := List.count_pos_iff.mpr hc
  simp only [places, hw, count_split] at hone
  refine ⟨fun w' hw' hc' => ?_, unqueued_of_count (by omega)⟩
  have hother : 0 < ((l ++ r).flatMap Worker.hands).count (client : ℤ) :=
    List.count_pos_iff.mpr (List.mem_flatMap.mpr ⟨w', hw', hc'⟩)
  rw [List.flatMap_append, List.count_append] at hother
  omega

theorem Inv.ne_of_away (hi : σ.Inv) {l r : List Worker} {w : Worker}
    (hw : σ.workers = l ++ w :: r) (hc : (c : ℤ) ∈ w.hands) (ha : σ.Away client) :
    client ≠ c := by
  rintro rfl
  refine List.count_eq_zero.mp (hi.away ha).1 (List.mem_flatMap.mpr ⟨w, ?_, hc⟩)
  exact hw ▸ List.mem_append_right _ List.mem_cons_self

/-! ### Calls on behalf of others -/

theorem Inv.sessionCall_keeps (hi : σ.Inv) {l r : List Worker} {op : SessionOperation}
    {next : SessionOutcome → Handler Ending}
    (hw : σ.workers = l ++ ⟨.working c asked (.call (.session op) next), []⟩ :: r)
    (hne : client ≠ c) : (σ.gSessionTable.apply op).1 client = σ.gSessionTable client := by
  have hbehalf : op.client = c := ((hi.at_work hw).call (σ.gSessionTable.apply op).2).1
  exact SessionTable.apply_of_ne _ op (hbehalf ▸ hne)

theorem Inv.fsCall_keeps (hi : σ.Inv) {l r : List Worker} {op : FsOperation} {out : FSOutcome}
    {next : FSOutcome → Handler Ending} {fs : FileSystem}
    (hw : σ.workers = l ++ ⟨.working c asked (.call (.fs op) next), []⟩ :: r)
    (ho : FileSystem.Step σ.fs (op,out) fs) (hne : client ≠ c) (hq : σ.fs.view.Unqueued client) :
    Retains σ.fs.view client fs.view := by
  have hbehalf : op.client = (c : ℤ) := ((hi.at_work hw).call out).1
  refine (ho.effect hi.valid.wf).retains hi.valid.sound ?_ hq
  rw [hbehalf]
  exact fun heq => hne (Fin.ext (Int.ofNat_inj.mp heq))

/-- The other workers at the end of a connection are on behalf of other clients. -/
theorem TornDown.others (h : σ.TornDown) (hi : σ.Inv) {l r : List Worker} {w : Worker}
    (hw : σ.workers = l ++ w :: r) (hc : (c : ℤ) ∈ w.hands) {t' : SessionTable} {s' : Store}
    (hkeep : ∀ client, client ≠ c → σ.fs.view.Unqueued client →
      t' client = σ.gSessionTable client ∧ Retains σ.fs.view client s') :
    ∀ w' ∈ l ++ r, ∀ client rest, w'.state = .working client false rest →
      Leaving t' s' client rest := by
  intro w' hw' client rest hstate
  have hmem : w' ∈ σ.workers := by
    rw [hw]
    exact (List.mem_append.mp hw').elim (fun h => List.mem_append_left _ h)
      fun h => List.mem_append_right _ (List.mem_cons_of_mem _ h)
  have hrest : rest ≠ .ret .forget := ne_forget (hi.proceeds w' hmem _ _ _ hstate) (by simp)
  have hhands : (client : ℤ) ∈ w'.hands := by
    rw [Worker.hands, hstate, (WorkerState.hands_working hrest).1]
    exact List.mem_cons_self
  obtain ⟨l', r', hsplit⟩ := List.append_of_mem hmem
  have hne : client ≠ c := by
    rintro rfl
    exact (hi.in_hands hw hc).1 w' hw' hhands
  obtain ⟨ht, hr⟩ := hkeep client hne (hi.in_hands hsplit hhands).2
  exact (h.leaving w' hmem _ _ hstate).retained ht hr

theorem Step.away (hi : σ.Inv) (h : σ.TornDown) (ht : Tidy σ e σ') (hs : Step σ e σ') :
    ∀ client, σ'.Away client → Bare σ'.gSessionTable σ'.fs.view client := by
  cases hs with
  | accept hm hopen hpipe h0 =>
    intro client ha
    refine h.away client ?_
    rcases ha with ha | ha | ha
    · exact Or.inl fun hc => ha (Finset.mem_insert_of_mem hc)
    · exact Or.inl (Option.some.inj ha ▸ hopen)
    · exact Or.inr (Or.inr ha)
  | announce hm =>
    intro client ha
    refine h.away client ?_
    rcases ha with ha | ha | ha
    · exact Or.inl ha
    · cases ha
    · refine Or.inr (Or.inr ?_)
      simpa [send] using ha
  | @reject fd hm =>
    intro client ha
    refine h.away client ?_
    rcases ha with ha | ha | ha
    · by_cases hc : (client : ℤ) = fd
      · exact Or.inr (Or.inl (hc ▸ hm))
      · exact Or.inl fun hmem => ha (Finset.mem_erase.mpr ⟨hc, hmem⟩)
    · cases ha
    · exact Or.inr (Or.inr ha)
  | @message fdsCpy message messages hs hp hm =>
    intro client ha
    cases message with
    | newConnection value | setConnection value =>
      refine h.away client (ha.imp_right fun ha => ha.imp_right fun ha => ?_)
      exact hm ▸ List.mem_cons_of_mem _ ha
    | remConnection value =>
      refine h.away client ?_
      rcases ha with ha | ha | ha
      · by_cases hc : (client : ℤ) = value
        · exact Or.inr (Or.inr (hm ▸ hc ▸ List.mem_cons_self))
        · exact Or.inl fun hmem => ha (Finset.mem_erase.mpr ⟨hc, hmem⟩)
      · exact Or.inr (Or.inl ha)
      · exact Or.inr (Or.inr (hm ▸ List.mem_cons_of_mem _ ha))
  | overflow hs hq => exact absurd hq (ht.ne_overflow hs)
  | @sessionCall l r asked op next c hw =>
    intro client ha
    have hne := hi.ne_of_away hw (c := c) List.mem_cons_self ha
    exact (h.away client ha).retained (hi.sessionCall_keeps hw hne) (retains_self _ _)
  | @fsCall l r asked op next fs out c hw hmutex ho =>
    intro client ha
    have hne := hi.ne_of_away hw (c := c) List.mem_cons_self ha
    exact (h.away client ha).retained rfl (hi.fsCall_keeps hw ho hne (hi.away ha).2)
  | giveBack hw | lockGiveBack hl =>
    intro client ha
    refine h.away client (ha.imp_right fun ha => ha.imp_right fun ha => ?_)
    simpa [send] using ha
  | @remove l r asked c hw =>
    intro client ha
    rcases ha with ha | ha | ha
    · exact h.away client (Or.inl ha)
    · exact h.away client (Or.inr (Or.inl ha))
    · rcases List.mem_append.mp ha with ha | ha
      · exact h.away client (Or.inr (Or.inr ha))
      · obtain rfl : client = c := Fin.ext (by simpa using ha)
        obtain rfl := (hi.at_work hw).remove
        exact (h.leaving _ (hw ▸ List.mem_append_right _ List.mem_cons_self) _ _ rfl).bare
  | _ => exact h.away

theorem mem_split {α : Type} {l r : List α} {a x : α} (h : x ∈ l ++ a :: r) :
    x = a ∨ x ∈ l ++ r := by
  rcases List.mem_append.mp h with h | h
  · exact Or.inr (List.mem_append_left _ h)
  · exact (List.mem_cons.mp h).imp_right fun h => List.mem_append_right _ h

theorem Step.leaving (hi : σ.Inv) (h : σ.TornDown) (ht : Tidy σ e σ') (hs : Step σ e σ') :
    ∀ w ∈ σ'.workers, ∀ client rest, w.state = .working client false rest →
      Leaving σ'.gSessionTable σ'.fs.view client rest := by
  have hall := h.leaving
  cases hs with
  | take hw | giveBack hw | respond hw | forget hw | remove hw =>
    rw [hw] at hall
    refine forall_split hall ?_
    intro _ _ hstate
    cases hstate
  | request hw hc =>
    rw [hw] at hall
    refine forall_split hall ?_
    intro _ _ hstate
    cases hstate
  | endOfFile hw hc =>
    rw [hw] at hall
    refine forall_split hall ?_
    rintro _ _ ⟨⟩
    exact .starts rfl (ht.ended _ (hc ▸ rfl) (List.mem_append_right _ List.mem_cons_self))
  | readError hw hc =>
    rw [hw] at hall
    refine forall_split hall ?_
    rintro _ _ ⟨⟩
    exact .removes rfl (ht.broken _ (hc ▸ rfl) (List.mem_append_right _ List.mem_cons_self))
  | notify hw hq =>
    have hsame := hall _ (hw ▸ List.mem_append_right _ List.mem_cons_self)
    rw [hw] at hall
    exact forall_split hall hsame
  | @sessionCall l r asked op next c hw =>
    have hothers := h.others hi hw (c := c) List.mem_cons_self fun client hne _ =>
      ⟨hi.sessionCall_keeps hw hne, retains_self _ _⟩
    intro w hwork client rest hstate
    rcases mem_split hwork with rfl | hwork
    · cases hstate
      exact (h.leaving _ (hw ▸ List.mem_append_right _ List.mem_cons_self) _ _ rfl).sessionCall
    · exact hothers w hwork client rest hstate
  | @fsCall l r asked op next fs out c hw hmutex ho =>
    have hothers := h.others hi hw (c := c) List.mem_cons_self fun client hne hq =>
      ⟨rfl, hi.fsCall_keeps hw ho hne hq⟩
    have hq : σ.fs.view.Unqueued c := (hi.in_hands hw List.mem_cons_self).2
    intro w hwork client rest hstate
    rcases mem_split hwork with rfl | hwork
    · cases hstate
      exact (h.leaving _ (hw ▸ List.mem_append_right _ List.mem_cons_self) _ _ rfl).fsCall
        hi.valid.sound hq (ho.effect hi.valid.wf)
    · exact hothers w hwork client rest hstate
  | @message fdsCpy message messages hs hp hm => cases message <;> exact hall
  | _ => exact hall

theorem TornDown.step (h : σ.TornDown) (hi : σ.Inv) (ht : Tidy σ e σ') (hs : Step σ e σ') :
    σ'.TornDown :=
  ⟨hs.away hi h ht, hs.leaving hi h ht⟩

theorem tornDown_initializeServer (configs : FSConfig) (pipeFd : ℤ) (numWorkers : ℕ) :
    (initializeServer configs pipeFd numWorkers).TornDown where
  away _ _ := ⟨rfl, fun e he => absurd he List.not_mem_nil⟩
  leaving w hw client rest h := by
    rw [List.eq_of_mem_replicate hw] at h
    cases h

/-! ### The counter -/

/-- The select thread counts the connections that it is told about. -/
def countClients (gNumClientConnected : ℤ) (σ : Threads) (e : ThreadEvent) : ℤ :=
  match e.thread, σ.select with
  | .select, .selected fdsCpy =>
    if σ.pipeFd ∈ fdsCpy then
      match σ.pipe with
      | .newConnection _ :: _ => gNumClientConnected + 1
      | .remConnection _ :: _ => gNumClientConnected - 1
      | _ => gNumClientConnected
    else gNumClientConnected
  | _, _ => gNumClientConnected

/-- The accepted clients that the select thread has not been told about. -/
def arrivals (σ : Threads) : ℕ := σ.main.toList.length + σ.pipe.countP PipeMessage.isNew

theorem Step.counted (hi : σ.Inv) (ht : Tidy σ e σ') (hs : Step σ e σ') {n : ℤ}
    (h : n + σ.arrivals = σ.opened.card) : countClients n σ e + σ'.arrivals = σ'.opened.card := by
  cases hs with
  | accept hm hopen hpipe h0 =>
    simp only [countClients, arrivals, hm, Option.toList, List.length_nil, List.length_singleton,
      Finset.card_insert_of_notMem hopen] at h ⊢
    omega
  | announce hm =>
    simp only [countClients, arrivals, hm, send, Option.toList, List.length_nil,
      List.length_singleton, List.countP_append, List.countP_singleton, PipeMessage.isNew,
      if_true] at h ⊢
    omega
  | @reject fd hm =>
    have hmem : fd ∈ σ.opened := hi.mem_opened (by simp [places, hm])
    have hpos := Finset.card_pos.mpr ⟨fd, hmem⟩
    simp only [countClients, arrivals, hm, close, Option.toList, List.length_nil,
      List.length_singleton, Finset.card_erase_of_mem hmem] at h ⊢
    omega
  | noMessage hs hp => simpa only [countClients, hs, if_neg hp, arrivals] using h
  | @message fdsCpy message messages hs hp hm =>
    cases message with
    | newConnection value =>
      simp only [countClients, hs, if_pos hp, hm, arrivals, receive, List.countP_cons,
        PipeMessage.isNew, if_true] at h ⊢
      omega
    | setConnection value =>
      simpa only [countClients, hs, if_pos hp, hm, arrivals, receive, List.countP_cons,
        PipeMessage.isNew, Bool.false_eq_true, if_false, Nat.add_zero] using h
    | remConnection value =>
      have hmem : value ∈ σ.opened := hi.mem_opened (by simp [places, hm, PipeMessage.value])
      have hpos := Finset.card_pos.mpr ⟨value, hmem⟩
      simp only [countClients, hs, if_pos hp, hm, arrivals, receive, close, List.countP_cons,
        PipeMessage.isNew, Finset.card_erase_of_mem hmem, Bool.false_eq_true, if_false] at h ⊢
      omega
  | overflow hs hq => exact absurd hq (ht.ne_overflow hs)
  | select hs | notReady hs | skipPipe hs | clear hs | push hs | scanned hs =>
    simpa only [countClients, hs, arrivals] using h
  | giveBack | lockGiveBack | remove =>
    simpa only [countClients, arrivals, send, List.countP_append, List.countP_singleton,
      PipeMessage.isNew, Bool.false_eq_true, if_false, Nat.add_zero] using h
  | _ => exact h

end Steps

section Runs
variable {configs : FSConfig} {pipeFd : ℤ} {numWorkers : ℕ} {tr : List ThreadEvent} {σ : Threads}
  {n : ℤ}

/-- The steps that leave nothing of a client behind. -/
def TidyStep (σ : Threads) (e : ThreadEvent) (σ' : Threads) : Prop := Tidy σ e σ' ∧ Step σ e σ'

/-- Every descriptor that is closed, or accepted anew, has no valid session and owns no file, and
the counter lags behind the open descriptors by those that have not been announced yet. -/
def CleanlyClosed (σ : Threads) (gNumClientConnected : ℤ) : Prop :=
  gNumClientConnected + σ.arrivals = σ.opened.card ∧
  ∀ client : Client, (client : ℤ) ∉ σ.opened ∨ σ.main = some (client : ℤ) →
    (σ.gSessionTable client).isValid = false ∧ ∀ e ∈ σ.fs.view.entries, e.owner ≠ client

/-- As long as the work queue has room, connections break only without session and locks, and the
sessions list what their clients own when they end, every connection is torn down completely. -/
theorem closed_cleanly
    (h : Run (Recorded countClients TidyStep) (initializeServer configs pipeFd numWorkers, 0) tr
      (σ,n)) : σ.CleanlyClosed n := by
  have hinv := h.invariant
    (I := fun s => s.1.Inv ∧ s.1.TornDown ∧ s.2 + s.1.arrivals = (s.1.opened.card : ℤ))
    ⟨inv_initializeServer _ _ _, tornDown_initializeServer _ _ _, rfl⟩ ?_
  · obtain ⟨-, htorn, hcount⟩ := hinv
    refine ⟨hcount, fun client ha => ?_⟩
    have hbare := htorn.away client (ha.imp_right Or.inl)
    exact ⟨hbare.session, hbare.owner⟩
  · intro s e s' ⟨hi, htorn, hcount⟩ ⟨⟨ht, hs⟩, hn⟩
    refine ⟨hi.step ht.documented hs, htorn.step hi ht hs, ?_⟩
    rw [hn]
    exact hs.counted hi ht hcount

/-! ### A client that opens a session and leaves -/

theorem next_tidy {σ' : Threads} {s₀ : Threads × ℤ} {t : ThreadId} {a : Action}
    (h : Run (Recorded countClients TidyStep) s₀ tr (σ,n)) (hs : Step σ ⟨t,a⟩ σ')
    (hd : ThreadEvent.Documented ⟨t,a⟩) (ha : ∀ fd, a ≠ .disconnection fd)
    (hroom : t = .select → ∀ fd ∈ σ.select.hands, (σ.gWorkQueue.tryPush fd).isSome) :
    Run (Recorded countClients TidyStep) s₀ (tr ++ [⟨t,a⟩]) (σ', countClients n σ ⟨t,a⟩) :=
  h.next_recorded ⟨⟨hd, hroom, fun _ h => absurd h (ha _), fun _ h => absurd h (ha _)⟩, hs⟩

theorem next_quiet {σ' : Threads} {s₀ : Threads × ℤ} {t : ThreadId}
    (h : Run (Recorded countClients TidyStep) s₀ tr (σ,n)) (hs : Step σ ⟨t,.internal⟩ σ')
    (hroom : t = .select → ∀ fd ∈ σ.select.hands, (σ.gWorkQueue.tryPush fd).isSome) :
    Run (Recorded countClients TidyStep) s₀ (tr ++ [⟨t,.internal⟩])
      (σ', countClients n σ ⟨t,.internal⟩) :=
  next_tidy h hs trivial nofun hroom

/-- Client 2 has opened a session and the only worker is about to read from it once more. -/
def sessionReading : Threads :=
  { initializeServer FileSystem.defaultConfigs 1 1 with
    opened := {2}
    gFdSet := {1}
    gMaxFd := 2
    gWorkQueue := ⟨Function.update (Function.update (fun _ => 0) 0 2) 1 2, 2, 2, 0, by decide,
      by decide, by decide⟩
    gSessionTable := (SessionTable.initSessionSystem.apply (.createSession 2)).1
    select := .scanning {2} 3 1
    workers := [⟨.reading 2, []⟩] }

theorem run_sessionReading : ∃ tr, Run (Recorded countClients TidyStep)
    (initializeServer FileSystem.defaultConfigs 1 1, 0) tr (sessionReading, 1) := by
  have h : Run (Recorded countClients TidyStep)
    (initializeServer FileSystem.defaultConfigs 1 1, 0) [] _ := .start
  have h := next_quiet h
    (@Step.accept (initializeServer FileSystem.defaultConfigs 1 1) 2 rfl (by decide) (by decide)
      (by decide)) (by decide)
  have h := next_quiet h (.announce rfl) (by decide)
  have h := next_quiet h (@Step.select _ {1} rfl (by decide) (by decide)) (by decide)
  have h := next_quiet h (.message rfl (by decide) rfl) (by decide)
  have h := next_quiet h (.notReady rfl (by decide) (by decide)) (by decide)
  have h := next_quiet h (.skipPipe rfl (by decide) (by decide) rfl) (by decide)
  have h := next_quiet h (.notReady rfl (by decide) (by decide)) (by decide)
  have h := next_quiet h (.scanned rfl (by decide)) (by decide)
  have h := next_quiet h (@Step.select _ {2} rfl (by decide) (by decide)) (by decide)
  have h := next_quiet h (.noMessage rfl (by decide)) (by decide)
  have h := next_quiet h (.notReady rfl (by decide) (by decide)) (by decide)
  have h := next_quiet h (.notReady rfl (by decide) (by decide)) (by decide)
  have h := next_quiet h (.clear rfl (by decide) (by decide) (by decide)) (by decide)
  have h := next_quiet h (.push rfl rfl) (by decide)
  have h := next_quiet h (@Step.take _ [] [] _ _ rfl rfl) (by decide)
  have hdoc : ThreadEvent.Documented
      ⟨.worker 0, .request 2 (ServerState.requestA .reqOpenSession 0)⟩ := fun ht => by cases ht
  have h := next_tidy h (@Step.request _ [] [] _ _ (fun _ => 0) 2 rfl rfl) hdoc nofun nofun
  have h := next_tidy h (@Step.sessionCall _ [] [] true _ _ 2 rfl) trivial nofun nofun
  have h := next_tidy h (@Step.respond _ [] [] true _ 2 rfl) trivial nofun nofun
  have h := next_quiet h (@Step.giveBack _ [] [] _ rfl) (by decide)
  have h := next_quiet h (.scanned rfl (by decide)) (by decide)
  have h := next_quiet h (@Step.select _ {1} rfl (by decide) (by decide)) (by decide)
  have h := next_quiet h (.message rfl (by decide) rfl) (by decide)
  have h := next_quiet h (.notReady rfl (by decide) (by decide)) (by decide)
  have h := next_quiet h (.skipPipe rfl (by decide) (by decide) rfl) (by decide)
  have h := next_quiet h (.notReady rfl (by decide) (by decide)) (by decide)
  have h := next_quiet h (.scanned rfl (by decide)) (by decide)
  have h := next_quiet h (@Step.select _ {2} rfl (by decide) (by decide)) (by decide)
  have h := next_quiet h (.noMessage rfl (by decide)) (by decide)
  have h := next_quiet h (.notReady rfl (by decide) (by decide)) (by decide)
  have h := next_quiet h (.notReady rfl (by decide) (by decide)) (by decide)
  have h := next_quiet h (.clear rfl (by decide) (by decide) (by decide)) (by decide)
  have h := next_quiet h (.push rfl rfl) (by decide)
  have h := next_quiet h (@Step.take _ [] [] _ _ rfl rfl) (by decide)
  exact ⟨_, h⟩

/-- The client closes its connection. -/
theorem closed_cleanly_ended : ∃ tr σ n, Run (Recorded countClients TidyStep)
    (initializeServer FileSystem.defaultConfigs 1 1, 0) tr (σ,n) ∧ σ.opened = ∅ ∧
      σ.CleanlyClosed n := by
  obtain ⟨tr, h⟩ := run_sessionReading
  have htidy : Tidy sessionReading ⟨.worker 0, .disconnection 2⟩
      { sessionReading with workers := [⟨.working 2 false (disconnect 2), []⟩] } := by
    refine ⟨trivial, nofun, ?_, ?_⟩
    · intro client hc hw e he
      exact absurd he List.not_mem_nil
    · intro client hc hw
      simp [disconnect_eq] at hw
  have h := h.next_recorded ⟨htidy, @Step.endOfFile _ [] [] 2 2 rfl rfl⟩
  have h := next_tidy h (@Step.sessionCall _ [] [] false _ _ 2 rfl) trivial nofun nofun
  have h := next_tidy h (@Step.fsCall _ [] [] false _ _ _ _ 2 rfl (by decide) rfl) trivial nofun
    nofun
  have h := next_tidy h (@Step.sessionCall _ [] [] false _ _ 2 rfl) trivial nofun nofun
  have h := next_quiet h (@Step.remove _ [] [] false 2 rfl) (by decide)
  have h := next_quiet h (.scanned rfl (by decide)) (by decide)
  have h := next_quiet h (@Step.select _ {1} rfl (by decide) (by decide)) (by decide)
  have h := next_quiet h (.message rfl (by decide) rfl) (by decide)
  exact ⟨_, _, _, h, rfl, closed_cleanly h⟩

/-- The connection breaks instead, and its session stays. -/
theorem broken_connection_keeps_session : ¬ ∀ (configs : FSConfig) (pipeFd : ℤ) (numWorkers : ℕ)
    (tr : List ThreadEvent) (σ : Threads) (n : ℤ), Run (Recorded countClients Step)
    (initializeServer configs pipeFd numWorkers, 0) tr (σ,n) → σ.CleanlyClosed n := by
  intro hall
  obtain ⟨tr, h⟩ := run_sessionReading
  have h : Run (Recorded countClients Step) _ _ _ := h.mono fun hs => ⟨hs.1.2, hs.2⟩
  have h := h.next_recorded (@Step.readError _ [] [] 2 2 rfl rfl)
  have h := h.next_recorded (@Step.remove _ [] [] false 2 rfl)
  have h := h.next_recorded (.scanned rfl (by decide))
  have h := h.next_recorded (@Step.select _ {1} rfl (by decide) (by decide))
  have h := h.next_recorded (.message rfl (by decide) rfl)
  have hopen := ((hall _ _ _ _ _ _ h).2 2 (Or.inl (by decide))).1
  exact absurd hopen (by decide)

end Runs
end Threads
end StorageServer.Server
