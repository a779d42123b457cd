import StorageServer.Server.Ownership
import StorageServer.Server.Postponed

/-! Mutual exclusion. What a client owns is not touched by the requests of the others: it keeps its
name, its content and its owner, unless it has to make room, and then the client that needs the
room gets the file. -/
namespace StorageServer.Server
open Common Library.KeyedList Library.Calls Library.Runs

namespace Store
variable {s s' t : Store} {k : ℕ} {e x : StoreEntry} {gone : List StoreEntry} {c : ℤ}
  {op : FsOperation} {out : FSOutcome}

/-- The bytes and the slots that an operation is about to charge. -/
def demand (s : Store) : FsOperation → Option (ℤ × ℤ)
  | .insert _ file _ => some (file.size, 1)
  | .modify _ file => (s.find (s.keyOf file.name)).map (fun e => (file.size - e.file.size, 0))
  | .append _ file => (s.find (s.keyOf file.name)).map
    (fun e => (file.size - (appended e.file file).contentLen, 0))
  | _ => none

/-- What the operation charges does not fit. -/
def Exceeds (s : Store) (op : FsOperation) : Prop :=
  ∃ d ∈ s.demand op, s.bytesMax < s.bytesUsed + d.1 ∨ s.slotMax < s.slotUsed + d.2

/-- The file under a key is there, unchanged and still owned by the client. -/
def Holds (s : Store) (k : ℕ) (file : FSFile) (c : ℤ) : Prop :=
  ∃ e, s.find k = some e ∧ e.file = file ∧ e.owner = c

/-- Nothing is given away while both limits hold. -/
theorem exceeds_of_reclaim {outs : Bool} (hr : t.reclaim outs = some (s', gone)) (he : e ∈ gone) :
    t.bytesMax < t.bytesUsed ∨ t.slotMax < t.slotUsed := by
  by_contra hfit
  rw [not_or, not_lt, not_lt] at hfit
  unfold reclaim at hr
  dsimp only at hr
  rw [ejectOver_of_le hfit.1, release_nil, if_neg (not_lt.mpr hfit.2)] at hr
  obtain ⟨-, rfl⟩ := Prod.mk.inj (Option.some.inj hr)
  exact List.not_mem_nil he

/-- Making room keeps a file or hands it out. -/
theorem Reclaimed.holds_or_ejected (hd : Distinct t.key t.entries) (hr : t.Reclaimed gone s')
    {file : FSFile} (h : t.Holds k file c) :
    s'.Holds k file c ∨ s'.find k = none ∧ ∃ e ∈ gone, e.file = file := by
  obtain ⟨⟨kept, hk, rfl⟩, -, -⟩ := hr
  obtain ⟨e, he, hf, ho⟩ := h
  have hfind := find_release (k := k) (hk ▸ hd) hk
  by_cases hg : ∃ x ∈ gone, t.key x = k
  · rw [if_pos hg] at hfind
    obtain ⟨x, hx, hxk⟩ := hg
    have hmem : x ∈ t.entries := by
      rw [hk]
      exact List.mem_append_left _ hx
    have hxe : x = e :=
      hd.eq_of_key hmem (mem_of_find he) (hxk.trans (key_of_find he).symm)
    exact Or.inr ⟨hfind, x, hx, hxe ▸ hf⟩
  · rw [if_neg hg] at hfind
    exact Or.inl ⟨e, hfind.trans he, hf, ho⟩

/-- Under the key of a file of another client there is something else. -/
theorem Holds.key_ne {file : FSFile} (h : s.Holds k file c) {k' : ℕ} (he : s.find k' = some e)
    (ho : e.owner ≠ c) : k' ≠ k := by
  rintro rfl
  obtain ⟨e', he', -, ho'⟩ := h
  obtain rfl := Option.some.inj (he.symm.trans he')
  exact ho ho'

theorem Holds.put {file : FSFile} (h : s.Holds k file c) (hx : s.key x ≠ k) :
    (s.put x).Holds k file c := by
  obtain ⟨e, he, hfo⟩ := h
  exact ⟨e, (find_put_of_ne hx.symm).trans he, hfo⟩

/-- Touching an entry keeps what is owned. -/
theorem Holds.touched {file : FSFile} (h : s.Holds k file c) {k' : ℕ} (he : s.find k' = some e) :
    (s.put e).Holds k file c := by
  by_cases hk : k' = k
  · subst hk
    obtain ⟨e', he', hfo⟩ := h
    obtain rfl := Option.some.inj (he.symm.trans he')
    exact ⟨e, find_put_self (key_of_find he), hfo⟩
  · exact h.put (by rwa [key_of_find he])

theorem Holds.erase {file : FSFile} (h : s.Holds k file c) {k' : ℕ} (hk : k' ≠ k) :
    (s.erase k').Holds k file c := by
  obtain ⟨e, he, hfo⟩ := h
  exact ⟨e, (find_erase_of_ne hk.symm).trans he, hfo⟩

/-- A client that joins the queue of a file does not change the file. -/
theorem Holds.queue {file : FSFile} (h : s.Holds k file c) {k' : ℕ} (he : s.find k' = some e)
    (waiting : List ℤ) : (s.replace { e with waiting := waiting }).Holds k file c := by
  have hkey : s.key { e with waiting := waiting } = k' := key_of_find (e := e) he
  obtain ⟨e', he', hfo⟩ := h
  by_cases hk : k' = k
  · subst hk
    obtain rfl := Option.some.inj (he.symm.trans he')
    exact ⟨_, find_replace_self he hkey, hfo⟩
  · refine ⟨e', ?_, hfo⟩
    rw [find_replace_of_ne (by rw [hkey]; exact Ne.symm hk)]
    exact he'

/-- The file is kept, or it has made room and is handed out. -/
def KeepsOrEjects (s : Store) (op : FsOperation) (k : ℕ) (file : FSFile) (c : ℤ)
    (files : List FSFile) (s' : Store) : Prop :=
  s'.Holds k file c ∨ s'.find k = none ∧ s.Exceeds op ∧ file ∈ files

theorem keepsOrEjects_reclaim {file : FSFile} {bytes slots : ℤ}
    (hr : (t.charge bytes slots).reclaim true = some (s', gone))
    (hd : Distinct t.key t.entries) (hc : (t.charge bytes slots).Countable)
    (hused : t.bytesUsed = s.bytesUsed ∧ t.slotUsed = s.slotUsed)
    (hmax : t.bytesMax = s.bytesMax ∧ t.slotMax = s.slotMax)
    (hop : s.demand op = some (bytes, slots)) (h : t.Holds k file c) :
    KeepsOrEjects s op k file c (ejected gone).outFiles s' := by
  rcases (hc.reclaim hr).holds_or_ejected (t := t.charge bytes slots) hd h with
    hkept | ⟨hnone, e, he, hf⟩
  · exact Or.inl hkept
  · refine Or.inr ⟨hnone, ⟨_, hop, ?_⟩, hf ▸ List.mem_map_of_mem he⟩
    have hover := exceeds_of_reclaim hr he
    change t.bytesMax < t.bytesUsed + bytes ∨ t.slotMax < t.slotUsed + slots at hover
    rwa [hmax.1, hmax.2, hused.1, hused.2] at hover

/-- An operation of one client keeps what another one owns. -/
theorem Effect.keeps_owned (h : s.Effect op out s') (hs : s.Sound) {file : FSFile}
    (hc : c ≠ op.client) (hne : c ≠ emptyOwner) (hf : s.Holds k file c) :
    KeepsOrEjects s op k file c out.outFiles s' := by
  cases h with
  | present | missing | refused | listed => exact Or.inl hf
  | obtained he | existing he => exact Or.inl (hf.touched he)
  | @locked client file' e he ho =>
    have howner : e.owner ≠ c := by
      rintro rfl
      exact ho.elim hne hc
    exact Or.inl (hf.put ((key_of_name he rfl).trans_ne (hf.key_ne he howner)))
  | queued he => exact Or.inl (hf.queue he _)
  | @unlocked client file' e he ho =>
    have howner : e.owner ≠ c := fun heq => hc (heq.symm.trans ho)
    exact Or.inl (hf.put ((key_of_name he rfl).trans_ne (hf.key_ne he howner)))
  | @removed client file' e gone s' he ho hr =>
    have howner : e.owner ≠ c := fun heq => hc (heq.symm.trans ho)
    obtain ⟨hd, hcount⟩ := hs.erase_charge he (-e.file.size)
    rcases (hcount.reclaim hr).holds_or_ejected hd (hf.erase (hf.key_ne he howner)) with
      hkept | ⟨-, x, hx, -⟩
    · exact Or.inl hkept
    · rw [reclaim_false hr] at hx
      exact absurd hx List.not_mem_nil
  | @inserted client file' lock gone s' he hr =>
    obtain ⟨hd, hcount⟩ :=
      hs.put_new (x := ⟨if lock then client else emptyOwner, file', false, []⟩) he file'.size
    refine keepsOrEjects_reclaim hr hd hcount ⟨rfl, rfl⟩ ⟨rfl, rfl⟩ rfl (hf.put ?_)
    rintro rfl
    obtain ⟨e, hfind, -⟩ := hf
    exact absurd (he.symm.trans hfind) (by simp)
  | @modified client file' e gone s' he ho hb hr =>
    have howner : e.owner ≠ c := fun heq => hc (heq.symm.trans ho)
    obtain ⟨hd, hcount⟩ := hs.put_charge (x := e.rewritten file') he rfl
      (file'.size - e.file.size)
    refine keepsOrEjects_reclaim hr hd hcount ⟨rfl, rfl⟩ ⟨rfl, rfl⟩ ?_
      (hf.put (hf.key_ne he howner))
    simp [demand, he]
  | @appended client file' e gone s' he ho hb hr =>
    have howner : e.owner ≠ c := by
      rintro rfl
      exact ho.elim hc hne
    have hkey : s.key (e.extended file') = _ := key_of_name he rfl
    obtain ⟨hd, hcount⟩ := hs.put_charge (x := e.extended file') he
      hkey (file'.size - (Store.appended e.file file').contentLen)
    refine keepsOrEjects_reclaim hr hd hcount ⟨rfl, rfl⟩ ⟨rfl, rfl⟩ ?_
      (hf.put (hkey.trans_ne (hf.key_ne he howner)))
    simp [demand, he]
  | @cleaned client filenames =>
    refine Or.inl (cleanFiles_rule (fun s _ => s.Holds k file c) client ?_ [] hf filenames)
    intro s issued k' e h he ho
    have howner : e.owner ≠ c := fun heq => hc (heq.symm.trans ho)
    exact h.put ((key_of_name he rfl).trans_ne (h.key_ne he howner))

end Store
/-! ### What a request does to the store, with the files that it brings back -/

/-- The operation that a request on a file asks for. -/
def requestedOperation (client : Client) (msg : SockMessage) : Option FsOperation :=
  if msg.type = .reqOpenFile then some (openOperation client msg) else fileOperation client msg

/-- At most one operation runs, for the client; one that can exceed the limits is the one that
was asked for, and its files come back. -/
def Brings (client : Client) (msg : SockMessage) (s : Store) (files : List FSFile) (s' : Store) :
    Prop :=
  s' = s ∧ files = [] ∨ ∃ op out, s.Effect op out s' ∧ op.client = client ∧
    (s.demand op = none ∨ requestedOperation client msg = some op) ∧ out.outFiles = files

theorem Brings.keeps {client : Client} {msg : SockMessage} {s s' : Store} {files : List FSFile}
    (h : Brings client msg s files s') (hs : s.Sound) {k : ℕ} {file : FSFile} {c : Client}
    (hc : c ≠ client) (hf : s.Holds k file c) :
    s'.Holds k file c ∨ s'.find k = none ∧
      (∃ op, requestedOperation client msg = some op ∧ s.Exceeds op) ∧ file ∈ files := by
  rcases h with ⟨rfl, -⟩ | ⟨op, out, he, hcl, hop, rfl⟩
  · exact Or.inl hf
  · have hne : (c : ℤ) ≠ op.client := by
      rw [hcl]
      exact fun heq => hc (Fin.ext (Int.natCast_inj.mp heq))
    rcases he.keeps_owned hs hne (client_ne_emptyOwner c) hf with hkept | ⟨hnone, hex, hmem⟩
    · exact Or.inl hkept
    · refine Or.inr ⟨hnone, ⟨op, hop.resolve_left fun hd => ?_, hex⟩, hmem⟩
      obtain ⟨d, hd', -⟩ := hex
      rw [hd] at hd'
      cases hd'

theorem Store.Effect.unlock_outFiles {s s' : Store} {client : ℤ} {file : FSFile}
    {out : FSOutcome} (h : s.Effect (.unlock client file) out s') : out.outFiles = [] := by
  cases h with
  | missing | refused | unlocked => rfl

theorem Store.Effect.clean_outFiles {s s' : Store} {client : ℤ} {filenames : List HashValue}
    {out : FSOutcome} (h : s.Effect (.clean client filenames) out s') : out.outFiles = [] := by
  cases h with
  | missing hf | refused hf => cases hf
  | cleaned => rfl

section Programs
variable {s s' : ServerState} {client : Client} {msg response : SockMessage}

theorem openFile_brings (hw : s.fs.WF) (ht : msg.type = .reqOpenFile) {reply : Reply}
    (h : (openFile client msg response).run ServerState.exec s = some (s', reply)) :
    Brings client msg s.fs.view reply.2 s'.fs.view := by
  unfold openFile at h
  rw [run_getSession] at h
  generalize (if (s.gSessionTable client).isValid = true then 0 else sessionNotExist) = r at h
  split at h
  · cases h
    exact Or.inl ⟨rfl, rfl⟩
  · rw [run_hasOpenedFile] at h
    generalize ClientSession.intHasOpenedFile _ _ = r at h
    split at h
    · cases h
      exact Or.inl ⟨rfl, rfl⟩
    · obtain ⟨t, out, -, -, he, h⟩ := run_fsCall hw h
      have hb : Brings client msg s.fs.view out.outFiles t.fs.view :=
        Or.inr ⟨_, out, he, openOperation_client client msg, Or.inr (if_pos ht), rfl⟩
      split at h
      · cases h
        exact hb
      · rw [run_sessionCall] at h
        cases h
        exact hb

theorem closeFile_brings (hw : s.fs.WF) {reply : Reply}
    (h : (closeFile client msg response).run ServerState.exec s = some (s', reply)) :
    Brings client msg s.fs.view reply.2 s'.fs.view := by
  unfold closeFile at h
  rw [run_getSession] at h
  generalize (if (s.gSessionTable client).isValid = true then 0 else sessionNotExist) = r at h
  split at h
  · cases h
    exact Or.inl ⟨rfl, rfl⟩
  · rw [run_hasOpenedFile] at h
    generalize ClientSession.intHasOpenedFile _ _ = r at h
    split at h
    · cases h
      exact Or.inl ⟨rfl, rfl⟩
    · obtain ⟨t, out, -, -, he, h⟩ := run_fsCall hw h
      rw [run_sessionCall] at h
      cases h
      exact Or.inr ⟨_, out, he, rfl, Or.inl rfl, he.unlock_outFiles⟩

theorem fileRequest_brings (hw : s.fs.WF) {op : FsOperation}
    (hop : fileOperation client msg = some op) (ht : msg.type ≠ .reqOpenFile) {reply : Reply}
    (h : (fileRequest client msg response op).run ServerState.exec s = some (s', reply)) :
    Brings client msg s.fs.view reply.2 s'.fs.view := by
  unfold fileRequest at h
  rw [run_getSession] at h
  generalize (if (s.gSessionTable client).isValid = true then 0 else sessionNotExist) = r at h
  split at h
  · cases h
    exact Or.inl ⟨rfl, rfl⟩
  · rcases run_checkOpened h with ⟨-, r, h⟩ | ⟨-, h⟩
    · cases h
      exact Or.inl ⟨rfl, rfl⟩
    · obtain ⟨t, out, -, -, he, h⟩ := run_fsCall hw h
      have hb : Brings client msg s.fs.view out.outFiles t.fs.view :=
        Or.inr ⟨_, out, he, fileOperation_client hop, Or.inr ((if_neg ht).trans hop), rfl⟩
      generalize (if msg.type = .reqLockFile then _ else _ : SockMessage) = r at h
      split at h
      · rw [run_sessionCall] at h
        cases h
        exact hb
      · cases h
        exact hb

theorem closeSession_brings (hw : s.fs.WF)
    (h : (closeSession client).run ServerState.exec s = some (s', ())) :
    Brings client msg s.fs.view [] s'.fs.view := by
  rcases run_closeSession hw h with ⟨rfl, -⟩ | ⟨-, -, out, he⟩
  · exact Or.inl ⟨rfl, rfl⟩
  · exact Or.inr ⟨_, out, he, rfl, Or.inl rfl, he.clean_outFiles⟩

/-- A file as a response carries it. -/
def Carries (response : SockMessage) (file : FSFile) : Prop :=
  response.type = .respWithFiles ∧ ∃ f ∈ response.response.files,
    f.filename.getD [] = file.name ∧ f.content.getD [] = file.content

/-- The files of a reply reach the response. -/
theorem addOutFiles_carries {reply : Reply} {file : FSFile} (h : file ∈ reply.2) :
    Carries (addOutFiles reply) file := by
  obtain ⟨response, outFiles⟩ := reply
  cases outFiles with
  | nil => cases h
  | cons f fs =>
    refine ⟨rfl, _, List.mem_map_of_mem h, rfl, ?_⟩
    dsimp only
    split_ifs with hnil
    · exact hnil.symm
    · rfl

theorem handleWork_brings (hw : s.fs.WF) {rand : ℕ → ℕ}
    (h : (handleWork client msg rand).run ServerState.exec s = some (s', response)) :
    ∃ files, Brings client msg s.fs.view files s'.fs.view ∧
      ∀ file ∈ files, Carries response file := by
  unfold handleWork at h
  split at h
  next ht =>
    rw [run_sessionCall] at h
    cases h
    exact ⟨[], Or.inl ⟨rfl, rfl⟩, fun file hf => absurd hf List.not_mem_nil⟩
  next ht =>
    rw [Program.run_bind] at h
    obtain ⟨⟨t, ⟨⟩⟩, hc, hr⟩ := Option.bind_eq_some_iff.mp h
    cases hr
    exact ⟨[], closeSession_brings hw hc, fun file hf => absurd hf List.not_mem_nil⟩
  next ht =>
    rw [Program.run_bind] at h
    obtain ⟨⟨t, reply⟩, hc, hr⟩ := Option.bind_eq_some_iff.mp h
    cases hr
    exact ⟨reply.2, openFile_brings hw ht hc, fun file hf => addOutFiles_carries hf⟩
  next ht =>
    rw [Program.run_bind] at h
    obtain ⟨⟨t, reply⟩, hc, hr⟩ := Option.bind_eq_some_iff.mp h
    cases hr
    exact ⟨reply.2, closeFile_brings hw hc, fun file hf => addOutFiles_carries hf⟩
  next ht =>
    obtain ⟨t, out, -, -, he, h⟩ := run_fsCall hw h
    cases h
    exact ⟨out.outFiles, Or.inr ⟨_, out, he, rfl, Or.inl rfl, rfl⟩,
      fun file hf => addOutFiles_carries hf⟩
  next hno _ _ =>
    split at h
    next op hop =>
      rw [Program.run_bind] at h
      obtain ⟨⟨t, reply⟩, hc, hr⟩ := Option.bind_eq_some_iff.mp h
      cases hr
      exact ⟨reply.2, fileRequest_brings hw hop hno hc, fun file hf => addOutFiles_carries hf⟩
    next hop =>
      obtain ⟨rfl, -⟩ := Prod.mk.inj (Option.some.inj h)
      exact ⟨[], Or.inl ⟨rfl, rfl⟩, fun file hf => absurd hf List.not_mem_nil⟩

end Programs

namespace ServerEvent

/-- The client on whose behalf the server acts. -/
def client : ServerEvent → Option Client
  | .request client .. | .endOfFile client | .lost client => some client
  | .delivery _ => none

/-- The operation that the client asks for. -/
def operation : ServerEvent → Option FsOperation
  | .request client msg .. => requestedOperation client msg
  | _ => none

/-- The client gets the file. -/
def Returns (file : FSFile) : ServerEvent → Prop
  | .request _ _ _ response => Carries response file
  | _ => False

end ServerEvent

namespace ServerState
variable {configs : FSConfig} {s s' : ServerState}

/-- The calls of the workers one after the other, whoever makes them and in whatever order, and the
deliveries. -/
def CallStep (s : ServerState) : Option ServerCall → ServerState → Prop
  | some i, s' => ∃ r, exec i s = some (s', r)
  | none, s' => ∃ n, s.Step (.delivery n) s'

/-- A state that some order of the calls leads to. -/
def Reachable (configs : FSConfig) (s : ServerState) : Prop :=
  ∃ tr, Run CallStep (start configs) tr s

theorem Reachable.call {i : ServerCall} {r : i.Result} (h : Reachable configs s)
    (hs : exec i s = some (s', r)) : Reachable configs s' := by
  obtain ⟨tr, htr⟩ := h
  have hstep : CallStep s (some i) s' := ⟨r, hs⟩
  exact ⟨_, htr.next hstep⟩

theorem Reachable.program {α : Type} {p : Handler α} {a : α} (h : Reachable configs s)
    (hs : p.run exec s = some (s', a)) : Reachable configs s' := by
  refine Program.run_invariant (I := Reachable configs) ?_ hs h
  intro i s t r hr hc
  exact hr.call hc

/-- Requests that are served one at a time make their calls in one of these orders. -/
theorem reachable_of_run {tr : List ServerEvent} (h : Run Step (start configs) tr s) :
    Reachable configs s := by
  refine h.invariant (I := Reachable configs) ⟨[], .start⟩ ?_
  intro s e s' hr hs
  cases e with
  | request client msg rand response => exact hr.program hs
  | endOfFile client => exact hr.program hs
  | lost client => exact hs ▸ hr
  | delivery n =>
    obtain ⟨tr, htr⟩ := hr
    have hstep : CallStep s none s' := ⟨n, hs⟩
    exact ⟨_, htr.next hstep⟩

/-- What every operation keeps holds of the file system in every reachable state. -/
theorem Reachable.fs_invariant {I : FileSystem → Prop} (h : Reachable configs s)
    (h0 : I (.initializeFileSystem configs))
    (hI : ∀ {fs e fs'}, I fs → FileSystem.Step fs e fs' → I fs') : I s.fs := by
  obtain ⟨tr, htr⟩ := h
  refine htr.invariant (I := fun s => I s.fs) h0 ?_
  intro s e s' hi hs
  cases e with
  | some i =>
    obtain ⟨r, hr⟩ := hs
    cases i with
    | session op =>
      cases hr
      exact hi
    | fs op =>
      obtain ⟨⟨fs, out⟩, ho, hr⟩ := Option.map_eq_some_iff.mp hr
      cases hr
      exact hI (e := (op,out)) hi ho
  | none =>
    obtain ⟨n, -, hn⟩ := hs
    rw [hn]
    exact hi

theorem Reachable.valid (h : Reachable configs s) : s.fs.Valid :=
  h.fs_invariant (.start configs) FileSystem.Valid.step

/-- What a client owns keeps its name, its content and its owner while the server acts for another
client, unless it is ejected for capacity and handed out as it was. -/
theorem owned_kept_or_ejected {c d : Client} {e : ServerEvent} (h : Reachable configs s)
    (hs : s.Step e s') (hd : e.client = some d) (hc : c ≠ d) (x : StoreEntry)
    (hx : x ∈ s.fs.view.entries) (ho : x.owner = c) :
    s'.fs.view.Holds (s.fs.view.key x) x.file c ∨
      s'.fs.view.find (s.fs.view.key x) = none ∧
        (∃ op, e.operation = some op ∧ s.fs.view.Exceeds op) ∧ e.Returns x.file := by
  have hv := h.valid
  have hf : s.fs.view.Holds (s.fs.view.key x) x.file c :=
    ⟨x, hv.sound.find_iff.mpr ⟨hx, rfl⟩, rfl, ho⟩
  cases e with
  | request client msg rand response =>
    obtain rfl := Option.some.inj hd
    obtain ⟨files, hb, hcarried⟩ := handleWork_brings hv.wf hs
    rcases hb.keeps hv.sound hc hf with hkept | ⟨hnone, hex, hmem⟩
    · exact Or.inl hkept
    · exact Or.inr ⟨hnone, hex, hcarried _ hmem⟩
  | endOfFile client =>
    obtain rfl := Option.some.inj hd
    have hb : Brings client (requestA .reqCloseSession 0) s.fs.view [] s'.fs.view :=
      closeSession_brings hv.wf hs
    rcases hb.keeps hv.sound hc hf with hkept | ⟨-, -, hmem⟩
    · exact Or.inl hkept
    · exact absurd hmem List.not_mem_nil
  | lost client =>
    cases hs
    exact Or.inl hf
  | delivery n => cases hd

/-- Client 4 owns the file `a`, which client 5 does not remove. -/
theorem owned_kept_from_other : (withFile.after 5 (requestA .reqRemoveFile 0)).fs.view.Holds
    (withFile.fs.view.keyOf [97]) ⟨[97], []⟩ 4 := by
  have hremove := step_after withFile 5 (requestA .reqRemoveFile 0) (by decide +kernel)
  refine (owned_kept_or_ejected (c := 4)
    (reachable_of_run ((Run.start.next step_withSession).next step_withFile)) hremove rfl
    (by decide) ⟨4, ⟨[97], []⟩, false, []⟩ (by decide +kernel) rfl).resolve_right fun h => ?_
  exact absurd h.1 (by decide +kernel)

end ServerState
end StorageServer.Server
