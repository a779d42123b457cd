import StorageServer.Server.Exclusion

/-! Who waits, and who is told so. The handler of a request tests single bits of its flags before
it asks for a lock, and the worker decides from the whole word whether the client gets a response
now. For a client whose other flag bits are set the two disagree. -/
namespace StorageServer.Server
open Common Library.Calls Library.Runs

/-- `fs_trylock` has put the client into the queue of a file. -/
def ToldToWait : (i : ServerCall) → i.Result → Prop
  | .fs (.trylock _ _), out => FSOutcome.res out = fsClientWaitingOnLock
  | _, _ => False

namespace Store
variable {s : Store} {client : ℤ} {file : FSFile}

/-- Somebody else owns the file and its queue has room. -/
def Waits (s : Store) (client : ℤ) (file : FSFile) : Prop :=
  ∃ e, s.find (s.keyOf file.name) = some e ∧ e.owner ≠ emptyOwner ∧ e.owner ≠ client ∧
    e.waiting.length < maxClientWaitingOnLock

theorem trylock_waits_iff :
    (s.trylock client file).2.res = fsClientWaitingOnLock ↔ s.Waits client file := by
  unfold trylock Waits
  cases he : s.find (s.keyOf file.name) with
  | none => simp
  | some e =>
    dsimp only
    by_cases ho : e.owner ≠ emptyOwner ∧ e.owner ≠ client
    · rw [if_pos ho]
      by_cases hw : e.waiting.length < maxClientWaitingOnLock
      · rw [if_pos hw]
        exact iff_of_true rfl ⟨e, rfl, ho.1, ho.2, hw⟩
      · rw [if_neg hw]
        have hne : fsClientNotAllowed ≠ fsClientWaitingOnLock := by decide
        refine iff_of_false hne ?_
        rintro ⟨e', he', -, -, hw'⟩
        obtain rfl := Option.some.inj he'
        exact hw hw'
    · rw [if_neg ho]
      have hne : 0 ≠ fsClientWaitingOnLock := by decide
      refine iff_of_false hne ?_
      rintro ⟨e', he', ho', hc', -⟩
      obtain rfl := Option.some.inj he'
      exact ho ⟨ho', hc'⟩

end Store

namespace ServerState
variable {α : Type} {s s' : ServerState} {client : Client} {msg response : SockMessage}
  {rand : ℕ → ℕ}

theorem trylock_view (hw : s.fs.WF) (client : ℤ) (file : FSFile) :
    (s.fs.fsTrylock client file).2 = (s.fs.view.trylock client file).2 := by
  have h : s.fs.apply (.trylock client file) =
    some ((s.fs.fsTrylock client file).1, (s.fs.fsTrylock client file).2) := rfl
  exact (congrArg Prod.snd (Option.some.inj (hw.apply h).2)).symm

theorem meets_sessionCall {op : SessionOperation} {f : SessionOutcome → Handler α} :
    (sessionCall op >>= f).Meets exec ToldToWait s ↔
      (f (s.gSessionTable.apply op).2).Meets exec ToldToWait
        { s with gSessionTable := (s.gSessionTable.apply op).1 } := by
  constructor
  · rintro ⟨r, hr, h | h⟩
    · exact h.elim
    · cases hr
      exact h
  · exact fun h => ⟨_, rfl, Or.inr h⟩

theorem meets_getSession {f : SessionOutcome → Handler α} :
    (sessionCall (.getSession client) >>= f).Meets exec ToldToWait s ↔
      (f { res := if (s.gSessionTable client).isValid then 0 else sessionNotExist }).Meets
        exec ToldToWait s := by
  rw [meets_sessionCall, ← s.gSessionTable.getSession_eq client]
  rfl

theorem meets_hasOpenedFile {file : SessionFile} {f : SessionOutcome → Handler α} :
    (sessionCall (.hasOpenedFile client file) >>= f).Meets exec ToldToWait s ↔
      (f { res := (s.gSessionTable client).intHasOpenedFile (hashString file) }).Meets
        exec ToldToWait s := meets_sessionCall

/-- A call of the file system after which nobody can be queued. -/
theorem meets_fsCall {op : FsOperation} {f : FSOutcome → Handler α}
    (hf : ∀ out t, ¬ (f out).Meets exec ToldToWait t) :
    (fsCall op >>= f).Meets exec ToldToWait s ↔
      ∃ r, exec (.fs op) s = some r ∧ ToldToWait (.fs op) r.2 := by
  constructor
  · rintro ⟨r, hr, h | h⟩
    · exact ⟨r, hr, h⟩
    · exact (hf _ _ h).elim
  · exact fun ⟨r, hr, h⟩ => ⟨r, hr, Or.inl h⟩

theorem meets_trylock (hw : s.fs.WF) {file : FSFile} {f : FSOutcome → Handler α}
    (hf : ∀ out t, ¬ (f out).Meets exec ToldToWait t) :
    (fsCall (.trylock client file) >>= f).Meets exec ToldToWait s ↔
      s.fs.view.Waits client file := by
  rw [meets_fsCall hf, ← Store.trylock_waits_iff, ← trylock_view hw]
  constructor
  · rintro ⟨r, hr, h⟩
    cases hr
    exact h
  · exact fun h => ⟨_, rfl, h⟩

/-- Opening a file queues the client exactly when these flags ask for the lock and nothing turns
the request away before. -/
theorem openFile_meets_iff (hw : s.fs.WF) :
    (openFile client msg response).Meets exec ToldToWait s ↔
      msg.request.flags &&& flagCreate = 0 ∧ msg.request.flags &&& flagLock ≠ 0 ∧
        (s.gSessionTable client).isValid = true ∧
        hashString (sessionFile msg) ∉ (s.gSessionTable client).filenames ∧
        s.fs.view.Waits client (copyRequestIntoFile msg) := by
  have hrest : ∀ (out : FSOutcome) t, ¬ (if out.res ≠ 0 then
      pure (openError msg out.res response, out.outFiles) else do
        let added ← sessionCall (.addFileOpened client (sessionFile msg) msg.request.flags)
        return (handleError added.res response, out.outFiles) : Handler Reply).Meets
        exec ToldToWait t := by
    intro out t
    split_ifs
    · exact id
    · rw [meets_sessionCall]
      exact id
  unfold openFile
  rw [meets_getSession]
  rcases (s.gSessionTable client).intHasOpenedFile_cases (hashString (sessionFile msg)) with
    ⟨hv, -⟩ | ⟨⟨hv, hl⟩, ho⟩ | ⟨⟨hv, hn⟩, ho⟩
  · simp only [hv]
    refine iff_of_false id ?_
    rintro ⟨-, -, hv', -⟩
    cases hv'
  · simp only [hv, if_true, ne_eq, not_true_eq_false, if_false]
    rw [meets_hasOpenedFile, ho]
    refine iff_of_false id ?_
    rintro ⟨-, -, -, hn, -⟩
    exact hn hl
  · simp only [hv, if_true, ne_eq, not_true_eq_false, if_false]
    rw [meets_hasOpenedFile, ho]
    simp only [not_true_eq_false, if_false]
    by_cases hop : ∃ file, openOperation client msg = .trylock client file
    · obtain ⟨file, hop⟩ := hop
      obtain ⟨hc, hl, hop⟩ := openOperation_trylock hop
      rw [hop]
      refine (meets_trylock hw hrest).trans ?_
      exact ⟨fun h => ⟨hc, hl, trivial, hn, h⟩, fun h => h.2.2.2.2⟩
    · refine iff_of_false ?_ ?_
      · rw [meets_fsCall hrest]
        rintro ⟨r, -, h⟩
        rcases openOperation_cases client msg with ⟨lock, hins⟩ | htry | hex
        · rw [hins] at h
          exact h
        · exact hop ⟨_, htry⟩
        · rw [hex] at h
          exact h
      · rintro ⟨hc, hl, -⟩
        refine hop ⟨copyRequestIntoFile msg, ?_⟩
        rw [openOperation, if_neg (not_not.mpr hc), if_pos hl]

/-- The condition under which the worker lets a client go that has just been queued: the client
opens a file, its flags ask for the lock and not for a creation, and they have other bits as
well. -/
def Overlooked (s : ServerState) (client : Client) (msg : SockMessage) : Prop :=
  msg.type = .reqOpenFile ∧ msg.request.flags ≠ flagLock ∧
    msg.request.flags &&& flagCreate = 0 ∧ msg.request.flags &&& flagLock ≠ 0 ∧
    (s.gSessionTable client).isValid = true ∧
    hashString (sessionFile msg) ∉ (s.gSessionTable client).filenames ∧
    s.fs.view.Waits client (copyRequestIntoFile msg)

theorem handleWork_meets_iff (hw : s.fs.WF) (ht : msg.type = .reqOpenFile) :
    (handleWork client msg rand).Meets exec ToldToWait s ↔
      msg.request.flags &&& flagCreate = 0 ∧ msg.request.flags &&& flagLock ≠ 0 ∧
        (s.gSessionTable client).isValid = true ∧
        hashString (sessionFile msg) ∉ (s.gSessionTable client).filenames ∧
        s.fs.view.Waits client (copyRequestIntoFile msg) := by
  unfold handleWork
  simp only [ht]
  rw [Program.meets_bind, openFile_meets_iff hw]
  exact or_iff_left fun ⟨_, _, h⟩ => h

theorem told_iff_queues (i : ServerCall) (s : ServerState) (r : ServerState × i.Result)
    (h : exec i s = some r) : ToldToWait i r.2 ↔ Queues i r.2 := by
  cases i with
  | session op => exact Iff.rfl
  | fs op =>
    cases op with
    | trylock c file =>
      refine ⟨fun ht => ⟨ht, ?_⟩, fun hq => hq.1⟩
      cases h
      change (s.fs.fsTrylock c file).2.outFiles = []
      unfold FileSystem.fsTrylock
      repeat' split
      all_goals rfl
    | _ => exact Iff.rfl

theorem serve_run {ending : Ending} (h : (serve client msg rand).run exec s = some (s', ending)) :
    ∃ response, (handleWork client msg rand).run exec s = some (s', response) ∧
      (ending = .forget ↔ LockPostponed msg response) := by
  rw [serve, Program.run_bind] at h
  obtain ⟨⟨t, response⟩, hr, h⟩ := Option.bind_eq_some_iff.mp h
  dsimp only at h
  split_ifs at h with hp
  · cases h
    exact ⟨response, hr, iff_of_true rfl hp⟩
  · cases h
    exact ⟨response, hr, iff_of_false (fun h => by cases h) hp⟩

theorem agrees_iff (hw : s.fs.WF) {ending : Ending}
    (h : (serve client msg rand).run exec s = some (s', ending)) :
    (ending = .forget ↔ (handleWork client msg rand).Meets exec ToldToWait s) ↔
      ¬ s.Overlooked client msg := by
  obtain ⟨response, hr, hending⟩ := serve_run h
  have hmeets : (handleWork client msg rand).Meets exec ToldToWait s ↔
      (handleWork client msg rand).Meets exec Queues s :=
    Program.meets_congr told_iff_queues _ _
  have hopen : s.Overlooked client msg ↔ msg.type = .reqOpenFile ∧
      msg.request.flags ≠ flagLock ∧ (handleWork client msg rand).Meets exec ToldToWait s :=
    and_congr_right fun ht => and_congr_right fun _ => (handleWork_meets_iff hw ht).symm
  rw [hending, hopen, hmeets]
  rcases (handleWork_unanswered client msg rand).run hr with ⟨hq, hu⟩ | ⟨hq, hs⟩
  · rw [hu.postponed_iff]
    tauto
  · exact iff_of_true (iff_of_false (fun h => hs h.2) hq) fun h => hq h.2.2

/-- The worker withholds the response of exactly the clients that have just been queued, unless it
overlooks one. -/
theorem worker_agrees_iff {configs : FSConfig} {ending : Ending} (hs : Reachable configs s)
    (h : (serve client msg rand).run exec s = some (s', ending)) :
    (ending = .forget ↔ (handleWork client msg rand).Meets exec ToldToWait s) ↔
      ¬ s.Overlooked client msg := agrees_iff hs.valid.wf h

/-- Client 5 has a session, and the file `a` is locked by client 4. -/
def withTwo : ServerState := withFile.after 5 (requestA .reqOpenSession 0)

theorem reachable_withTwo : Reachable FileSystem.defaultConfigs withTwo :=
  reachable_of_run (((Run.start.next step_withSession).next step_withFile).next
    (step_after withFile 5 (requestA .reqOpenSession 0) (by decide +kernel)))

/-- How a worker ends its work on a request that does not crash. -/
def endingOf (s : ServerState) (client : Client) (msg : SockMessage) : Ending :=
  if LockPostponed msg (s.responseTo client msg) then .forget
  else .respond (s.responseTo client msg)

theorem run_endingOf (s : ServerState) (client : Client) (msg : SockMessage)
    (h : ((handleWork client msg (fun _ => 0)).run exec s).isSome) :
    (serve client msg (fun _ => 0)).run exec s =
      some (s.after client msg, s.endingOf client msg) := by
  have hr : (handleWork client msg (fun _ => 0)).run exec s = some (_, _) :=
    s.step_after client msg h
  rw [serve, Program.run_bind, hr, Option.bind_some, endingOf]
  dsimp only
  split_ifs <;> rfl

theorem worker_agrees_iff_lock :
    (withTwo.endingOf 5 (requestA .reqOpenFile flagLock) = .forget ↔
        (handleWork 5 (requestA .reqOpenFile flagLock) (fun _ => 0)).Meets exec ToldToWait
          withTwo) ↔
      ¬ withTwo.Overlooked 5 (requestA .reqOpenFile flagLock) := by
  have hserve := run_endingOf withTwo 5 (requestA .reqOpenFile flagLock) (by decide +kernel)
  exact worker_agrees_iff reachable_withTwo hserve

/-- With a third bit beside `FLAG_LOCK` the client is queued, and gets a response at once. -/
theorem queued_client_served :
    ¬ ∀ (configs : FSConfig) (s s' : ServerState) (client : Client) (msg : SockMessage)
      (rand : ℕ → ℕ) (ending : Ending), Reachable configs s →
      (serve client msg rand).run exec s = some (s', ending) →
      (ending = .forget ↔ (handleWork client msg rand).Meets exec ToldToWait s) := by
  intro h
  have hserve := run_endingOf withTwo 5 (requestA .reqOpenFile (flagLock ||| 4))
    (by decide +kernel)
  refine (agrees_iff reachable_withTwo.valid.wf hserve).mp
    (h _ _ _ _ _ _ _ reachable_withTwo hserve) ?_
  refine ⟨rfl, by decide, by decide, by decide, by decide +kernel, by decide +kernel,
    ⟨4, ⟨[97], []⟩, false, []⟩, by decide +kernel, by decide, by decide, by decide⟩

end ServerState
end StorageServer.Server
