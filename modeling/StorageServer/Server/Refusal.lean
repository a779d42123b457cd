import StorageServer.Server.Requests

/-! Refused requests. A response with an error normally means that nothing has happened; the two
exceptions are a file opened by a client whose session is full and a removal that the file system
refuses, and for these we say exactly when something changes. -/
namespace StorageServer.Server
open Common Library.KeyedList Library.Runs

namespace Store
variable {s s' : Store} {k : ℕ} {e : StoreEntry} {gone : List StoreEntry}

/-- The entry that was touched last. -/
def newest (s : Store) : Option StoreEntry := s.entries.getLast?

theorem put_eq_self_iff (hs : s.Sound) (x : StoreEntry) : s.put x = s ↔ s.newest = some x := by
  refine Iff.trans ?_ hs.distinct.touch_eq_self_iff
  constructor
  · exact congrArg Store.entries
  · intro h
    change { s with entries := _ } = s
    rw [h]

/-- A file that is created and given away at once leaves the store as it was only if the store
was empty. -/
theorem inserted_eq_self_iff (hs : s.Sound) {x : StoreEntry} (hx : s.find (s.key x) = none)
    (hr : ((s.put x).charge x.file.size 1).reclaim true = some (s', gone)) :
    s' = s ↔ s.entries = [] ∧ (s.bytesMax < s.bytesUsed + x.file.size ∨ s.slotMax < 1) := by
  obtain ⟨hd, hc⟩ := hs.put_new hx x.file.size
  obtain ⟨⟨kept, hsplit, hrel⟩, hslots_le, hbytes_le⟩ := hc.reclaim hr
  have hput : ((s.put x).charge x.file.size 1).entries = s.entries ++ [x] := by
    change without s.key (s.key x) s.entries ++ [x] = _
    rw [without_of_lookup_none hx]
  constructor
  · rintro rfl
    have hkept : kept = s'.entries := (congrArg Store.entries hrel).symm
    subst hkept
    rw [hput] at hsplit
    have hlen := congrArg List.length hsplit
    rw [List.length_append, List.length_append, List.length_singleton] at hlen
    obtain ⟨y, rfl⟩ : ∃ y, gone = [y] := List.length_eq_one_iff.mp (by omega)
    have hnil : s'.entries = [] := by
      by_contra hne
      obtain ⟨z, zs, hz⟩ := List.exists_cons_of_ne_nil hne
      rw [hput, hsplit] at hd
      rw [hz, List.cons_append] at hsplit
      -- the same entry would be given away and kept
      obtain ⟨rfl, -⟩ := List.cons.inj hsplit
      have hnd := (List.nodup_cons.mp hd).1
      exact hnd (List.mem_map_of_mem (by rw [hz]; exact List.mem_cons_self))
    refine ⟨hnil, ?_⟩
    by_contra hfit
    rw [not_or, not_lt, not_lt] at hfit
    have hslots : s'.slotUsed = 0 := by rw [hs.slots_eq, hnil]; rfl
    unfold reclaim at hr
    dsimp only at hr
    have hle : ((s'.put x).charge x.file.size 1).bytesUsed ≤
        ((s'.put x).charge x.file.size 1).bytesMax := hfit.1
    rw [ejectOver_of_le hle, release_nil, if_neg (not_lt.mpr _)] at hr
    · simp [pass] at hr
    · change s'.slotUsed + 1 ≤ s'.slotMax
      omega
  · rintro ⟨hnil, hfull⟩
    have hslots : s.slotUsed = 0 := by rw [hs.slots_eq, hnil]; rfl
    rw [hput, hnil, List.nil_append] at hsplit
    cases gone with
    | nil =>
      -- nothing is given away, so both limits hold
      rw [List.nil_append] at hsplit
      subst hsplit
      exfalso
      rw [hrel] at hbytes_le hslots_le
      change s.slotUsed + 1 - 0 ≤ max s.slotMax 0 at hslots_le
      have hb : s.bytesUsed + x.file.size - (totalSize [] : ℕ) ≤ s.bytesMax := by
        refine hbytes_le.resolve_right fun hdrop => ?_
        rw [hput, hnil] at hdrop
        exact absurd (congrArg List.length hdrop) (by simp [release, depthLimit])
      rw [totalSize_nil] at hb
      omega
    | cons y gone =>
      obtain ⟨rfl, hrest⟩ := List.cons.inj hsplit
      obtain ⟨rfl, rfl⟩ := List.append_eq_nil_iff.mp hrest.symm
      have hback : ((s.put x).charge x.file.size 1).release [x] [] =
          { s with
            entries := []
            bytesUsed := s.bytesUsed + x.file.size - (x.file.size + 0 : ℕ)
            slotUsed := s.slotUsed + 1 - 1 } := rfl
      rw [hrel, hback, Nat.add_zero, add_sub_cancel_right, add_sub_cancel_right, ← hnil]

/-- Whether an operation that opens a file would succeed and change the store. -/
def TakesEffect (s : Store) : FsOperation → Prop
  | .insert _ file _ => s.find (s.keyOf file.name) = none ∧
      (s.entries = [] → s.bytesUsed + file.size ≤ s.bytesMax ∧ 1 ≤ s.slotMax)
  | .trylock client file => ∃ e, s.find (s.keyOf file.name) = some e ∧
      (e.owner = emptyOwner ∨ e.owner = client ∧ s.newest ≠ some e)
  | .exist _ file => ∃ e, s.find (s.keyOf file.name) = some e ∧ s.newest ≠ some e
  | _ => False

theorem Effect.takesEffect_insert {client : ℤ} {file : FSFile} {lock : Bool} {out : FSOutcome}
    (hs : s.Sound) (h : s.Effect (.insert client file lock) out s') :
    s.TakesEffect (.insert client file lock) ↔ out.res = 0 ∧ s' ≠ s := by
  cases h with
  | present he => exact iff_of_false (fun h => by simp [h.1] at he) fun h => h.2 rfl
  | missing hf hi =>
    cases hf
    exact absurd rfl (hi _ _)
  | refused hf he hr => exact hr.elim
  | inserted he hr =>
    have hsame := inserted_eq_self_iff hs
      (x := ⟨if lock then client else emptyOwner, file, false, []⟩) he hr
    simp only [TakesEffect, he, true_and, ne_eq, hsame, ejected]
    constructor
    · rintro h ⟨hnil, hfull⟩
      have := h hnil
      change _ < _ + (file.size : ℤ) ∨ _ at hfull
      omega
    · intro h hnil
      by_contra hfull
      refine h ⟨hnil, ?_⟩
      omega

theorem Effect.takesEffect_trylock {client : ℤ} {file : FSFile} {out : FSOutcome}
    (hs : s.Sound) (hc : 0 ≤ client) (h : s.Effect (.trylock client file) out s') :
    s.TakesEffect (.trylock client file) ↔ out.res = 0 ∧ s' ≠ s := by
  cases h with
  | missing hf hi he =>
    cases hf
    exact iff_of_false (fun ⟨x, hx, _⟩ => by simp [hx] at he) fun h => h.2 rfl
  | refused hf he hr =>
    cases hf
    refine iff_of_false (fun ⟨x, hx, ho⟩ => ?_) fun h => h.2 rfl
    obtain rfl := Option.some.inj (hx.symm.trans he)
    exact ho.elim hr.1 fun ho => hr.2.1 ho.1
  | @locked _ _ e he ho =>
    have hne : client ≠ emptyOwner := by
      unfold emptyOwner
      omega
    have hfind : s.TakesEffect (.trylock client file) ↔
        e.owner = emptyOwner ∨ e.owner = client ∧ s.newest ≠ some e := by
      simp [TakesEffect, he]
    rw [hfind]
    rcases ho with ho | ho
    · have hchanged : s.newest ≠ some { e with owner := client } := by
        intro hl
        have hmem : ({ e with owner := client } : StoreEntry) ∈ s.entries :=
          List.mem_of_getLast? hl
        have heq := hs.distinct.eq_of_key hmem (mem_of_find he) rfl
        exact hne ((congrArg StoreEntry.owner heq).trans ho)
      exact iff_of_true (Or.inl ho) ⟨rfl, fun h => hchanged ((put_eq_self_iff hs _).mp h)⟩
    · subst ho
      have hput : s.put { e with owner := e.owner } = s ↔ s.newest = some e := put_eq_self_iff hs e
      simp [hne, hput]
  | @queued _ _ e he ho hc =>
    refine iff_of_false (fun ⟨x, hx, hx'⟩ => ?_) fun h => by simp at h
    obtain rfl := Option.some.inj (hx.symm.trans he)
    exact hx'.elim ho fun hx' => hc hx'.1

theorem Effect.takesEffect_exist {client : ℤ} {file : FSFile} {out : FSOutcome}
    (hs : s.Sound) (h : s.Effect (.exist client file) out s') :
    s.TakesEffect (.exist client file) ↔ out.res = 0 ∧ s' ≠ s := by
  cases h with
  | missing hf hi he =>
    cases hf
    exact iff_of_false (fun ⟨x, hx, _⟩ => by simp [hx] at he) fun h => h.2 rfl
  | refused hf he hr => exact hr.elim
  | existing he =>
    rw [ne_eq, put_eq_self_iff hs]
    simp [TakesEffect, he]

/-- Opening a file takes effect exactly when it succeeds and leaves another store. -/
theorem Effect.takesEffect_open {client : Client} {msg : SockMessage} {out : FSOutcome}
    (hs : s.Sound) (h : s.Effect (openOperation client msg) out s') :
    s.TakesEffect (openOperation client msg) ↔ out.res = 0 ∧ s' ≠ s := by
  rcases openOperation_cases client msg with ⟨lock, hop⟩ | hop | hop
  · rw [hop] at h ⊢
    exact h.takesEffect_insert hs
  · rw [hop] at h ⊢
    exact h.takesEffect_trylock hs (Int.natCast_nonneg _)
  · rw [hop] at h ⊢
    exact h.takesEffect_exist hs

/-- A removal is refused exactly when its client owns no file under the key. -/
theorem Effect.remove_res {client : ℤ} {file : FSFile} {out : FSOutcome}
    (h : s.Effect (.remove client file) out s') :
    out.res = 0 ↔ ∃ e, s.find (s.keyOf file.name) = some e ∧ e.owner = client := by
  cases h with
  | missing hf hi he =>
    cases hf
    exact iff_of_false (by simp) fun ⟨x, hx, _⟩ => by simp [hx] at he
  | refused hf he hr =>
    cases hf
    refine iff_of_false (by simp [hr.2]) fun ⟨x, hx, ho⟩ => ?_
    obtain rfl := Option.some.inj (hx.symm.trans he)
    exact hr.1 ho
  | removed he ho => exact iff_of_true rfl ⟨_, he, ho⟩

end Store

/-- No file is opened for a full session, and nothing is removed that the client does not own. -/
structure Atomic (t : SessionTable) (s : Store) (client : Client) (msg : SockMessage) : Prop where
  saved : msg.type = .reqOpenFile → (t client).isValid = true →
    hashString (sessionFile msg) ∉ (t client).filenames →
    s.TakesEffect (openOperation client msg) →
    (t client).numFileOpened < maxClientOpenedFiles
  removed : msg.type = .reqRemoveFile → (t client).Lists (hashString (sessionFile msg)) →
    ∃ e, s.find (s.keyOf (copyRequestIntoFile msg).name) = some e ∧ e.owner = client

theorem Handled.unchanged_iff_atomic {t t' : SessionTable} {s s' : Store} {client : Client}
    {msg response : SockMessage} (hs : s.Sound) (h : Handled t s client msg response t' s') :
    (response.response.status ≠ .ok → s' = s ∧ t' = t) ↔ Atomic t s client msg := by
  cases h with
  | unchanged ho hr =>
    refine iff_of_true (fun _ => ⟨rfl, rfl⟩) ⟨fun ht hv hn he => ?_, fun ht hl => absurd hl (hr ht)⟩
    obtain ⟨out, -, hout⟩ := ho ht hv hn
    exact absurd rfl ((hout.takesEffect_open hs).mp he).2
  | created hv hr =>
    refine iff_of_true (fun hne => absurd hr hne) ⟨fun _ hv' => ?_, fun _ hl => ?_⟩
    · simp [hv] at hv'
    · simp [hl.1] at hv
  | ended ht hv he hr =>
    exact iff_of_true (fun hne => absurd hr hne)
      ⟨fun h => by simp [ht] at h, fun h => by simp [ht] at h⟩
  | opened ht hv hn hroom he h0 hr =>
    exact iff_of_true (fun hne => absurd hr hne)
      ⟨fun _ _ _ _ => hroom, fun h => by simp [ht] at h⟩
  | unsaved ht hv hn hfull he h0 hr =>
    constructor
    · intro h
      refine ⟨fun _ _ _ htake => ?_, fun h => by simp [ht] at h⟩
      exact absurd (h hr).1 ((he.takesEffect_open hs).mp htake).2
    · intro ha _
      refine ⟨?_, rfl⟩
      by_contra hne
      have hroom := ha.saved ht hv hn ((he.takesEffect_open hs).mpr ⟨h0, hne⟩)
      omega
  | queuedOpening ht hv hn hop he hw hr =>
    refine iff_of_true (fun hne => absurd hr hne)
      ⟨fun _ _ _ htake => ?_, fun h => by simp [ht] at h⟩
    rw [← hop] at he
    have h0 := ((he.takesEffect_open hs).mp htake).1
    rw [hw] at h0
    exact absurd h0 (by decide)
  | closed ht hl he hr =>
    exact iff_of_true (fun hne => absurd hr hne)
      ⟨fun h => by simp [ht] at h, fun h => by simp [ht] at h⟩
  | served hop ht hl he hr =>
    exact iff_of_true (fun hne => absurd hr hne)
      ⟨fun h => by simp [fileOperation, h] at hop, fun h => absurd h ht⟩
  | removed ht hl he hr =>
    have hres := he.remove_res
    constructor
    · intro h
      refine ⟨fun h => by simp [ht] at h, fun _ _ => ?_⟩
      rw [← hres, ← hr]
      by_contra hne
      -- the session has lost the file
      have htable := congrFun (h hne).2 client
      rw [Function.update_self] at htable
      exact ClientSession.remFileOpened_ne hl htable
    · intro ha hne
      exact absurd (hr.mpr (hres.mpr (ha.removed ht hl))) hne

namespace ServerState
open Store

/-- The store and the sessions are as they were. The store leaves out the statistics of the file
system and the addresses of its entries. -/
def Unchanged (s s' : ServerState) : Prop :=
  s'.fs.view = s.fs.view ∧ s'.gSessionTable = s.gSessionTable

section Claims
variable {configs : FSConfig} {tr : List ServerEvent} {s s' : ServerState} {client : Client}
  {msg response : SockMessage} {rand : ℕ → ℕ}

/-- A request that ends in an error changes nothing exactly when it is none of the two that the
server does not serve in one piece. -/
theorem refused_unchanged_iff (h : Run Step (start configs) tr s)
    (hs : s.Step (.request client msg rand response) s') :
    (response.response.status ≠ .ok → s.Unchanged s') ↔
      Atomic s.gSessionTable s.fs.view client msg :=
  (handleWork_handled (valid_of_run h).wf hs).unchanged_iff_atomic (valid_of_run h).sound

theorem refused_unchanged_unopened :
    withSession.Unchanged (withSession.after 4 (requestA .reqReadFile 0)) := by
  refine (refused_unchanged_iff (Run.start.next step_withSession)
    (step_after withSession 4 (requestA .reqReadFile 0) (by decide +kernel))).mpr ?_
    (by decide +kernel)
  exact ⟨fun h => by simp [requestA] at h, fun h => by simp [requestA] at h⟩

/-- Client 4 creates the file `a` without its lock and may not remove it, but loses it from its
session. -/
theorem refused_removal_changes : ¬ ∀ (configs : FSConfig) (tr : List ServerEvent)
    (s s' : ServerState) (client : Client) (msg response : SockMessage) (rand : ℕ → ℕ),
    Run Step (start configs) tr s → s.Step (.request client msg rand response) s' →
      response.response.status ≠ .ok → s.Unchanged s' := by
  intro h
  have hopen := step_after withSession 4 (requestA .reqOpenFile flagCreate) (by decide +kernel)
  have hremove := step_after (withSession.after 4 (requestA .reqOpenFile flagCreate)) 4
    (requestA .reqRemoveFile 0) (by decide +kernel)
  have hu := h _ _ _ _ _ _ _ _ ((Run.start.next step_withSession).next hopen) hremove
    (by decide +kernel)
  have hcount := congrArg ClientSession.numFileOpened (congrFun hu.2 4)
  revert hcount
  decide +kernel

end Claims
end ServerState
end StorageServer.Server
