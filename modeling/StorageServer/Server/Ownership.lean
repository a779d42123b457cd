import StorageServer.Server.Requests

/-! Ownership and sessions. The owner of a file is stored with the file and the opened files of a
client in its session; what follows says when the two stay in step, so that the end of a session
leaves no file locked. -/
namespace StorageServer.Server
open Common Library.KeyedList Library.Runs

/-- A client whose valid session lists a file with the hash. -/
def ListedBy (t : SessionTable) (filename : HashValue) (client : ℤ) : Prop :=
  ∃ c : Client, (c : ℤ) = client ∧ (t c).Lists filename

/-- The owner of an entry and every client that may be handed it have the file open. -/
structure StoreEntry.Registered (t : SessionTable) (e : StoreEntry) : Prop where
  owner : e.owner ≠ emptyOwner → ListedBy t (hashString e.file.name) e.owner
  waiting : ∀ w ∈ e.waiting, ListedBy t (hashString e.file.name) w

/-- The client waits for no file. -/
def Store.Unqueued (s : Store) (client : Client) : Prop := ∀ e ∈ s.entries, (client : ℤ) ∉ e.waiting

instance (s : Store) (client : Client) : Decidable (s.Unqueued client) :=
  inferInstanceAs (Decidable (∀ e ∈ s.entries, _))

def Store.Registered (t : SessionTable) (s : Store) : Prop := ∀ e ∈ s.entries, e.Registered t

section Entries
variable {t t' : SessionTable} {s s' : Store} {client c : Client} {k : ℕ} {e x : StoreEntry}
  {gone : List StoreEntry} {P : StoreEntry → Prop}

theorem client_ne_emptyOwner (client : Client) : (client : ℤ) ≠ emptyOwner := by
  have : (0 : ℤ) ≤ client := Int.natCast_nonneg _
  unfold emptyOwner
  omega

theorem listedBy_iff {filename : HashValue} :
    ListedBy t filename client ↔ (t client).Lists filename := by
  constructor
  · rintro ⟨c, hc, hl⟩
    obtain rfl : c = client := Fin.ext (Int.ofNat_inj.mp hc)
    exact hl
  · exact fun hl => ⟨client, rfl, hl⟩

theorem StoreEntry.Registered.mono (h : e.Registered t)
    (hl : ∀ c f, (t c).Lists f → (t' c).Lists f) : e.Registered t' := by
  refine ⟨fun ho => ?_, fun w hw => ?_⟩
  · obtain ⟨c, hc, hcl⟩ := h.owner ho
    exact ⟨c, hc, hl c _ hcl⟩
  · obtain ⟨c, hc, hcl⟩ := h.waiting w hw
    exact ⟨c, hc, hl c _ hcl⟩

/-- The session of a client that neither owns the entry nor waits for it may change. -/
theorem StoreEntry.Registered.update (h : e.Registered t) {session : ClientSession}
    (ho : e.owner = client → session.Lists (hashString e.file.name))
    (hw : (client : ℤ) ∉ e.waiting) : e.Registered (Function.update t client session) := by
  refine ⟨fun hne => ?_, fun w hwm => ?_⟩
  · obtain ⟨c, hc, hl⟩ := h.owner hne
    refine ⟨c, hc, ?_⟩
    by_cases hcc : c = client
    · subst hcc
      rw [Function.update_self]
      exact ho hc.symm
    · rwa [Function.update_of_ne hcc]
  · obtain ⟨c, hc, hl⟩ := h.waiting w hwm
    refine ⟨c, hc, ?_⟩
    have hcc : c ≠ client := by
      rintro rfl
      exact hw (hc ▸ hwm)
    rwa [Function.update_of_ne hcc]

theorem StoreEntry.Registered.handOff (h : e.Registered t) :
    (Store.handOff e).Registered t := by
  refine ⟨fun hne => ?_, fun w hw => h.waiting w (List.mem_of_mem_tail hw)⟩
  obtain ⟨owner, file, emptyBuffer, waiting⟩ := e
  cases waiting with
  | nil => exact absurd rfl hne
  | cons w ws => exact h.waiting w List.mem_cons_self

namespace Store

theorem forall_put (h : ∀ y ∈ s.entries, P y) (hx : P x) : ∀ y ∈ (s.put x).entries, P y := by
  intro y hy
  rcases mem_touch.mp hy with rfl | ⟨hy, -⟩
  · exact hx
  · exact h y hy

theorem forall_replace (h : ∀ y ∈ s.entries, P y) (hx : P x) :
    ∀ y ∈ (s.replace x).entries, P y := by
  intro y hy
  rcases mem_replace hy with rfl | ⟨hy, -⟩
  · exact hx
  · exact h y hy

theorem Reclaimed.forall_mem (hr : s.Reclaimed gone s') (h : ∀ y ∈ s.entries, P y) :
    ∀ y ∈ s'.entries, P y := by
  obtain ⟨⟨kept, hsplit, rfl⟩, -, -⟩ := hr
  exact fun y hy => h y (hsplit ▸ List.mem_append_right _ hy)

theorem key_eq_of_hash {name : List UInt8} (h : hashString e.file.name = hashString name) :
    s.key e = s.keyOf name := congrArg (tableKey s.tableSize) h

/-- What an operation makes its client own, wait for or rename is listed by the sessions. -/
structure Granting (t : SessionTable) (s : Store) (op : FsOperation) (out : FSOutcome) : Prop where
  inserted : ∀ {client file}, op = .insert client file true →
    s.find (s.keyOf file.name) = none → ListedBy t (hashString file.name) client
  locked : ∀ {client file e}, op = .trylock client file → out.res = 0 →
    s.find (s.keyOf file.name) = some e → e.owner = emptyOwner →
    ListedBy t (hashString e.file.name) client
  queued : ∀ {client file e}, op = .trylock client file → out.res = fsClientWaitingOnLock →
    s.find (s.keyOf file.name) = some e → e.owner ≠ emptyOwner → e.owner ≠ client →
    e.waiting.length < maxClientWaitingOnLock → ListedBy t (hashString e.file.name) client
  modified : ∀ {client file e}, op = .modify client file →
    s.find (s.keyOf file.name) = some e → e.owner = client → file.size ≤ toSize s.bytesMax →
    ListedBy t (hashString file.name) client ∧ ∀ w ∈ e.waiting, ListedBy t (hashString file.name) w

theorem Granting.of_ne {op : FsOperation} {out : FSOutcome}
    (hi : ∀ client file, op ≠ .insert client file true)
    (ht : ∀ client file, op ≠ .trylock client file)
    (hm : ∀ client file, op ≠ .modify client file) : Granting t s op out where
  inserted h := absurd h (hi _ _)
  locked h := absurd h (ht _ _)
  queued h := absurd h (ht _ _)
  modified h := absurd h (hm _ _)

theorem Effect.registered {op : FsOperation} {out : FSOutcome} (h : s.Effect op out s')
    (hs : s.Sound) (hr : s.Registered t) (hg : Granting t s op out) : s'.Registered t := by
  cases h with
  | present | missing | refused | listed => exact hr
  | obtained he | existing he => exact forall_put hr (hr _ (mem_of_find he))
  | @locked client file e he ho =>
    have hreg := hr e (mem_of_find he)
    refine forall_put hr ⟨fun hne => ?_, hreg.waiting⟩
    rcases ho with ho | ho
    · exact hg.locked (e := e) rfl rfl he ho
    · exact ho ▸ hreg.owner (ho ▸ hne)
  | @queued client file e he ho hc hw =>
    have hreg := hr e (mem_of_find he)
    refine forall_replace hr ⟨hreg.owner, fun w hwm => ?_⟩
    rcases List.mem_append.mp hwm with hwm | hwm
    · exact hreg.waiting w hwm
    · obtain rfl := List.mem_singleton.mp hwm
      exact hg.queued (e := e) rfl rfl he ho hc hw
  | unlocked he ho => exact forall_put hr (hr _ (mem_of_find he)).handOff
  | removed he ho hrec =>
    obtain ⟨-, hc⟩ := hs.erase_charge he _
    refine (hc.reclaim hrec).forall_mem fun y hy => hr y ?_
    exact (mem_without.mp hy).1
  | @inserted client file lock gone s' he hrec =>
    obtain ⟨-, hc⟩ := hs.put_new
      (x := ⟨if lock then client else emptyOwner, file, false, []⟩) he file.size
    refine (hc.reclaim hrec).forall_mem (forall_put hr ⟨fun hne => ?_, by simp⟩)
    cases lock with
    | false => exact absurd rfl hne
    | true => exact hg.inserted rfl he
  | @modified client file e gone s' he ho hb hrec =>
    obtain ⟨-, hc⟩ := hs.put_charge (x := e.rewritten file) he rfl
      (file.size - e.file.size)
    obtain ⟨hown, hwait⟩ := hg.modified rfl he ho hb
    exact (hc.reclaim hrec).forall_mem (forall_put hr ⟨fun _ => ho ▸ hown, hwait⟩)
  | @appended client file e gone s' he ho hb hrec =>
    obtain ⟨-, hc⟩ := hs.put_charge (x := e.extended file) he
      (key_of_name he rfl) (file.size - (Store.appended e.file file).contentLen)
    have hreg := hr e (mem_of_find he)
    exact (hc.reclaim hrec).forall_mem (forall_put hr ⟨hreg.owner, hreg.waiting⟩)
  | cleaned =>
    exact cleanFiles_rule (fun s _ => s.Registered t) _
      (fun hr he _ => forall_put hr (hr _ (mem_of_find he)).handOff) [] hr _

/-- Only a lock request puts its client into a queue. -/
theorem Effect.unqueued {op : FsOperation} {out : FSOutcome} (h : s.Effect op out s')
    (hs : s.Sound) (hq : s.Unqueued client) (hw : out.res ≠ fsClientWaitingOnLock) :
    s'.Unqueued client := by
  have hoff : ∀ {e : StoreEntry}, (client : ℤ) ∉ e.waiting → (client : ℤ) ∉ (handOff e).waiting :=
    fun h hm => h (List.mem_of_mem_tail hm)
  cases h with
  | present | missing | refused | listed => exact hq
  | obtained he | existing he => exact forall_put hq (hq _ (mem_of_find he))
  | @locked client file e he ho =>
    exact forall_put (x := { e with owner := client }) hq (hq e (mem_of_find he))
  | queued => exact absurd rfl hw
  | unlocked he ho => exact forall_put hq (hoff (hq _ (mem_of_find he)))
  | removed he ho hrec =>
    obtain ⟨-, hc⟩ := hs.erase_charge he _
    exact (hc.reclaim hrec).forall_mem fun y hy => hq y (mem_without.mp hy).1
  | @inserted client file lock gone s' he hrec =>
    obtain ⟨-, hc⟩ := hs.put_new
      (x := ⟨if lock then client else emptyOwner, file, false, []⟩) he file.size
    exact (hc.reclaim hrec).forall_mem (forall_put hq (by simp))
  | @modified client file e gone s' he ho hb hrec =>
    obtain ⟨-, hc⟩ := hs.put_charge (x := e.rewritten file) he rfl
      (file.size - e.file.size)
    exact (hc.reclaim hrec).forall_mem
      (forall_put (x := e.rewritten file) hq (hq e (mem_of_find he)))
  | @appended client file e gone s' he ho hb hrec =>
    obtain ⟨-, hc⟩ := hs.put_charge (x := e.extended file) he
      (key_of_name he rfl) (file.size - (Store.appended e.file file).contentLen)
    exact (hc.reclaim hrec).forall_mem
      (forall_put (x := e.extended file) hq (hq e (mem_of_find he)))
  | cleaned =>
    exact cleanFiles_rule (fun s _ => s.Unqueued client) _
      (fun hq he _ => forall_put hq (hoff (hq _ (mem_of_find he)))) [] hq _

/-! ### What is left to a client -/

theorem innerUnlock_of_owner {client : ℤ} (he : s.find k = some e) (ho : e.owner = client) :
    s.innerUnlock client k = (s.put (handOff e), { res := 0, issued := granted e }) := by
  simp [innerUnlock, he, ho]

theorem handOff_owner_ne (h : (client : ℤ) ∉ e.waiting) : (handOff e).owner ≠ client := by
  obtain ⟨owner, file, emptyBuffer, waiting⟩ := e
  cases waiting with
  | nil => exact (client_ne_emptyOwner client).symm
  | cons w ws =>
    intro hw
    exact h (hw ▸ List.mem_cons_self)

/-- The loop of `fs_clean` takes every file from its client whose hash is in the list. -/
theorem cleanFiles_owner {filenames : List HashValue} (hs : s.Sound) (hq : s.Unqueued client)
    (h : ∀ e ∈ s.entries, e.owner = client → ∃ f ∈ filenames, tableKey s.tableSize f = s.key e) :
    ∀ e ∈ (cleanFiles client filenames s).1.entries, e.owner ≠ client := by
  induction filenames generalizing s with
  | nil =>
    intro e he ho
    obtain ⟨f, hf, -⟩ := h e he ho
    exact absurd hf List.not_mem_nil
  | cons filename filenames ih =>
    rcases s.innerUnlock_cases client (tableKey s.tableSize filename) with
      ⟨h1, h2, -⟩ | ⟨e, he, ho, heq⟩
    · simp only [cleanFiles, h1]
      refine ih hs hq fun e he ho => ?_
      obtain ⟨f, hf, hk⟩ := h e he ho
      refine ⟨f, (List.mem_cons.mp hf).resolve_left ?_, hk⟩
      rintro rfl
      -- a file of the client under this key would have been unlocked
      rw [innerUnlock_of_owner (hs.find_iff.mpr ⟨he, hk.symm⟩) ho] at h2
      exact h2 rfl
    · simp only [cleanFiles, heq]
      have hnot := handOff_owner_ne (hq e (mem_of_find he))
      refine ih (hs.put he (key_of_name he rfl)) (forall_put hq fun hm => ?_) fun y hy hyo => ?_
      · exact hq e (mem_of_find he) (List.mem_of_mem_tail hm)
      · rcases mem_touch.mp hy with rfl | ⟨hy, hyk⟩
        · exact absurd hyo hnot
        · obtain ⟨f, hf, hk⟩ := h y hy hyo
          refine ⟨f, (List.mem_cons.mp hf).resolve_left ?_, hk⟩
          rintro rfl
          exact hyk (hk.symm.trans (key_of_name (x := handOff e) he rfl).symm)

/-- The end of a session leaves no file to a client whose files are listed. -/
theorem Effect.cleaned_owner {out : FSOutcome} (hs : s.Sound) (hr : s.Registered t)
    (hq : s.Unqueued client) (h : s.Effect (.clean client (t client).filenames) out s') :
    ∀ e ∈ s'.entries, e.owner ≠ client := by
  cases h with
  | missing hf => cases hf
  | refused hf => cases hf
  | cleaned =>
    refine cleanFiles_owner hs hq fun e he ho => ?_
    have hl := (hr e he).owner (ho ▸ client_ne_emptyOwner client)
    rw [ho, listedBy_iff] at hl
    exact ⟨_, hl.2, rfl⟩

/-- An unlock or a removal, refused or not, leaves its client no file under the key. -/
theorem Effect.let_go {file : FSFile} {op : FsOperation} {out : FSOutcome} (hs : s.Sound)
    (hq : s.Unqueued client) (hop : op = .unlock client file ∨ op = .remove client file)
    (h : s.Effect op out s') :
    ∀ e ∈ s'.entries, e.owner = client → hashString e.file.name ≠ hashString file.name := by
  intro x hx ho hhash
  have hgone : s.find (s.keyOf file.name) = none → x ∉ s.entries := fun hn hx =>
    lookup_eq_none.mp hn x hx (key_eq_of_hash hhash)
  have hfound : ∀ {e}, s.find (s.keyOf file.name) = some e → x ∈ s.entries → x = e := by
    intro e he hx
    exact Option.some.inj ((hs.find_iff.mpr ⟨hx, key_eq_of_hash hhash⟩).symm.trans he)
  cases h with
  | missing hf hi he =>
    rcases hop with rfl | rfl <;> cases hf <;> exact hgone he hx
  | refused hf he hr =>
    rcases hop with rfl | rfl <;> cases hf <;> exact hr.1 (hfound he hx ▸ ho)
  | unlocked he ho' =>
    obtain ⟨rfl, rfl⟩ : _ = (client : ℤ) ∧ _ = file := by simpa using hop
    rcases mem_touch.mp hx with rfl | ⟨-, hk⟩
    · exact handOff_owner_ne (hq _ (mem_of_find he)) ho
    · exact hk ((key_eq_of_hash hhash).trans (key_of_name (x := handOff _) he rfl).symm)
  | removed he ho' hr =>
    obtain ⟨rfl, rfl⟩ : _ = (client : ℤ) ∧ _ = file := by simpa using hop
    obtain ⟨-, hc⟩ := hs.erase_charge he _
    have hmem := (hc.reclaim hr).forall_mem (P := fun y => y ∈ (s.erase _).entries)
      (fun _ h => h) x hx
    exact (mem_without.mp hmem).2 (key_eq_of_hash hhash)
  | present | listed | obtained | existing | locked | queued | inserted | modified | appended
  | cleaned => simp at hop

end Store

/-! ### Requests -/

/-- When a request keeps ownership and sessions in step: a lock requested while opening a file is
not queued, a file that opening makes its client own fits into the session, and the entries that
locks and writes are about have a hash that the sessions concerned list. -/
structure KeepsRecord (t : SessionTable) (s : Store) (client : Client) (msg : SockMessage) :
    Prop where
  created : msg.type = .reqOpenFile → (t client).isValid = true →
    hashString (sessionFile msg) ∉ (t client).filenames → ∀ {file},
    openOperation client msg = .insert client file true → s.find (s.keyOf file.name) = none →
    (t client).numFileOpened < maxClientOpenedFiles
  opened : msg.type = .reqOpenFile → (t client).isValid = true →
    hashString (sessionFile msg) ∉ (t client).filenames → ∀ {file e},
    openOperation client msg = .trylock client file → s.find (s.keyOf file.name) = some e →
    e.owner = emptyOwner → hashString e.file.name ∈ (t client).filenames ∨
      hashString e.file.name = hashString file.name ∧
        (t client).numFileOpened < maxClientOpenedFiles
  queued : msg.type = .reqOpenFile → (t client).isValid = true →
    hashString (sessionFile msg) ∉ (t client).filenames → ∀ {file e},
    openOperation client msg = .trylock client file → s.find (s.keyOf file.name) = some e →
    e.owner ≠ emptyOwner → e.owner ≠ client → e.waiting.length < maxClientWaitingOnLock →
    hashString e.file.name ∈ (t client).filenames
  locked : msg.type = .reqLockFile → (t client).Lists (hashString (sessionFile msg)) → ∀ {e},
    s.find (s.keyOf (copyRequestIntoFile msg).name) = some e → e.owner ≠ client →
    e.owner = emptyOwner ∨ e.waiting.length < maxClientWaitingOnLock →
    hashString e.file.name ∈ (t client).filenames
  written : msg.type = .reqWriteFile → (t client).Lists (hashString (sessionFile msg)) → ∀ {e},
    s.find (s.keyOf (copyRequestIntoFile msg).name) = some e → e.owner = client →
    (copyRequestIntoFile msg).size ≤ toSize s.bytesMax →
    ∀ w ∈ e.waiting, ListedBy t (hashString (sessionFile msg)) w

section Requests
variable {msg response : SockMessage} {op : FsOperation} {out : FSOutcome}

theorem sessionFile_eq (msg : SockMessage) : sessionFile msg = (copyRequestIntoFile msg).name := rfl

/-- Opening a file, seen from a table that lists it if the session has room. -/
theorem KeepsRecord.granting_opened (h : KeepsRecord t s client msg) (ht : msg.type = .reqOpenFile)
    (hv : (t client).isValid = true) (hn : hashString (sessionFile msg) ∉ (t client).filenames)
    (h0 : out.res = 0)
    (hl : ∀ f, f ∈ (t client).filenames ∨ f = hashString (sessionFile msg) ∧
      (t client).numFileOpened < maxClientOpenedFiles → ListedBy t' f client) :
    Store.Granting t' s (openOperation client msg) out where
  inserted hop hf := by
    rcases openOperation_cases client msg with ⟨lock, ho⟩ | ho | ho
    · obtain ⟨rfl, rfl, rfl⟩ := FsOperation.insert.inj (hop.symm.trans ho)
      have hroom := h.created ht hv hn ho hf
      rw [← sessionFile_eq]
      exact hl _ (Or.inr ⟨rfl, hroom⟩)
    · cases hop.symm.trans ho
    · cases hop.symm.trans ho
  locked hop _ hf he := by
    obtain ⟨-, -, ho⟩ := openOperation_trylock hop
    obtain ⟨rfl, rfl⟩ := FsOperation.trylock.inj (hop.symm.trans ho)
    have hlist := h.opened ht hv hn ho hf he
    rw [← sessionFile_eq] at hlist
    exact hl _ hlist
  queued hop hw := by
    rw [h0] at hw
    exact absurd hw (by decide)
  modified hop := by
    rcases openOperation_cases client msg with ⟨lock, ho⟩ | ho | ho <;>
      cases hop.symm.trans ho

theorem KeepsRecord.granting_queued (h : KeepsRecord t s client msg) (ht : msg.type = .reqOpenFile)
    (hv : (t client).isValid = true) (hn : hashString (sessionFile msg) ∉ (t client).filenames)
    (hop : openOperation client msg = .trylock client (copyRequestIntoFile msg))
    (hw : out.res = fsClientWaitingOnLock) :
    Store.Granting t s (.trylock client (copyRequestIntoFile msg)) out where
  inserted hop := by cases hop
  locked _ h0 := by
    rw [hw] at h0
    exact absurd h0 (by decide)
  queued ho _ hf he hc hlen := by
    obtain ⟨rfl, rfl⟩ := FsOperation.trylock.inj ho
    exact listedBy_iff.mpr ⟨hv, h.queued ht hv hn hop hf he hc hlen⟩
  modified hop := by cases hop

theorem KeepsRecord.granting_served (h : KeepsRecord t s client msg)
    (hop : fileOperation client msg = some op)
    (hl : (t client).Lists (hashString (sessionFile msg))) : Store.Granting t s op out where
  inserted ho := by
    subst ho
    unfold fileOperation at hop
    split at hop <;> simp at hop
  locked ho _ hf he := by
    subst ho
    have ht := fileOperation_trylock hop
    obtain ⟨rfl, rfl⟩ : _ = _ ∧ _ = _ := by simpa [fileOperation, ht] using hop
    refine listedBy_iff.mpr ⟨hl.1, h.locked ht hl hf ?_ (Or.inl he)⟩
    exact he ▸ (client_ne_emptyOwner client).symm
  queued ho _ hf he hc hlen := by
    subst ho
    have ht := fileOperation_trylock hop
    obtain ⟨rfl, rfl⟩ : _ = _ ∧ _ = _ := by simpa [fileOperation, ht] using hop
    exact listedBy_iff.mpr ⟨hl.1, h.locked ht hl hf hc (Or.inr hlen)⟩
  modified ho hf ho' hb := by
    subst ho
    have ht : msg.type = .reqWriteFile := by
      unfold fileOperation at hop
      split at hop <;> simp_all
    obtain ⟨rfl, rfl⟩ : _ = _ ∧ _ = _ := by simpa [fileOperation, ht] using hop
    exact ⟨listedBy_iff.mpr hl, h.written ht hl hf ho' hb⟩

/-- An unlock or a removal, with the file then taken from the session. -/
theorem registered_let_go (hs : s.Sound) (hr : s.Registered t) (hq : s.Unqueued client)
    (hl : (t client).Lists (hashString (sessionFile msg)))
    (hop : op = .unlock client (copyRequestIntoFile msg) ∨
      op = .remove client (copyRequestIntoFile msg)) (he : s.Effect op out s') :
    s'.Registered (Function.update t client ((t client).remFileOpened (sessionFile msg)).1) := by
  have hg : Store.Granting t s op out := by
    rcases hop with rfl | rfl <;> exact .of_ne (by simp) (by simp) (by simp)
  have hw : out.res ≠ fsClientWaitingOnLock := by
    intro hw
    rcases he.res_cases with h0 | ⟨-, c, f, rfl⟩ | ⟨herr, -⟩
    · rw [h0] at hw
      exact absurd hw (by decide)
    · simp at hop
    · exact ne_waiting_of_mem_errors herr hw
  intro e hmem
  have hreg := he.registered hs hr hg e hmem
  refine hreg.update (fun ho => ?_) (he.unqueued hs hq hw e hmem)
  obtain ⟨-, hv, hnames⟩ := ClientSession.remFileOpened_listed hl
  have hlist := hreg.owner (ho ▸ client_ne_emptyOwner client)
  rw [ho, listedBy_iff] at hlist
  refine ⟨hv, ?_⟩
  rw [hnames]
  exact (List.mem_erase_of_ne (he.let_go hs hq hop e hmem ho)).mpr hlist.2

/-- The end of a session, which may no longer list anything. -/
theorem registered_ended (hs : s.Sound) (hr : s.Registered t) (hq : s.Unqueued client)
    (he : s.Effect (.clean client (t client).filenames) out s') :
    s'.Registered (Function.update t client (.blank false)) := by
  have hw : out.res ≠ fsClientWaitingOnLock := by
    cases he with
    | missing hf => cases hf
    | refused hf => cases hf
    | cleaned => simp [Store.clean]
  intro e hmem
  have hreg := he.registered hs hr (.of_ne (by simp) (by simp) (by simp)) e hmem
  exact hreg.update (fun ho => absurd ho (he.cleaned_owner hs hr hq e hmem))
    (he.unqueued hs hq hw e hmem)

/-- One request keeps ownership and sessions in step. -/
theorem Handled.registered (h : Handled t s client msg response t' s') (hs : s.Sound)
    (hr : s.Registered t) (hq : s.Unqueued client) (hk : KeepsRecord t s client msg) :
    s'.Registered t' := by
  cases h with
  | unchanged => exact hr
  | created hv hok =>
    refine fun e he => (hr e he).mono fun c f hl => ?_
    by_cases hc : c = client
    · subst hc
      simp [hl.1] at hv
    · rwa [Function.update_of_ne hc]
  | ended ht hv he hok => exact registered_ended hs hr hq he
  | opened ht hv hn hroom he h0 hok =>
    obtain ⟨-, hv', hnames⟩ :=
      ClientSession.addFileOpened_room msg.request.flags hv hn hroom
    have hadd : ∀ f, f ∈ (t client).filenames ∨ f = hashString (sessionFile msg) →
        (Function.update t client
          ((t client).addFileOpened (sessionFile msg) msg.request.flags).1 client).Lists f := by
      intro f hf
      rw [Function.update_self]
      exact ⟨hv', by rw [hnames]; simpa using hf⟩
    refine he.registered hs (fun e hmem => (hr e hmem).mono fun c f hl => ?_)
      (hk.granting_opened ht hv hn h0 fun f hf => listedBy_iff.mpr (hadd f (hf.imp_right And.left)))
    by_cases hc : c = client
    · subst hc
      exact hadd f (Or.inl hl.2)
    · rwa [Function.update_of_ne hc]
  | unsaved ht hv hn hfull he h0 hok =>
    refine he.registered hs hr (hk.granting_opened ht hv hn h0 fun f hf => ?_)
    exact listedBy_iff.mpr ⟨hv, hf.resolve_right fun h => by omega⟩
  | queuedOpening ht hv hn hop he hw hok =>
    exact he.registered hs hr (hk.granting_queued ht hv hn hop hw)
  | closed ht hl he hok => exact registered_let_go hs hr hq hl (Or.inl rfl) he
  | served hop ht hl he hok => exact he.registered hs hr (hk.granting_served hop hl)
  | removed ht hl he hok => exact registered_let_go hs hr hq hl (Or.inr rfl) he

end Requests
end Entries

namespace ServerState
open Store
variable {configs : FSConfig} {tr : List ServerEvent} {s s' : ServerState} {client : Client}
  {event : ServerEvent}

/-- No answer to a lock request of the client is outstanding. -/
def Attended (s : ServerState) (client : Client) : Prop :=
  s.fs.view.Unqueued client ∧ ∀ n ∈ s.gLockQueue, n.fd ≠ client

instance (s : ServerState) (client : Client) : Decidable (s.Attended client) :=
  inferInstanceAs (Decidable (_ ∧ ∀ n ∈ s.gLockQueue, _))

/-- The server reads from no client whose lock request it has not answered. -/
def Attends (s : ServerState) : ServerEvent → Prop
  | .request client .. | .endOfFile client | .lost client => s.Attended client
  | .delivery _ => True

instance (s : ServerState) : (event : ServerEvent) → Decidable (s.Attends event)
  | .request client .. | .endOfFile client | .lost client =>
    inferInstanceAs (Decidable (s.Attended client))
  | .delivery _ => inferInstanceAs (Decidable True)

/-- Requests are such that they keep ownership and sessions in step. -/
def Keeps (s : ServerState) : ServerEvent → Prop
  | .request client msg _ _ => KeepsRecord s.gSessionTable s.fs.view client msg
  | .endOfFile _ | .lost _ | .delivery _ => True

theorem Step.registered (hv : s.fs.Valid) (hr : s.fs.view.Registered s.gSessionTable)
    (ha : s.Attends event) (hk : s.Keeps event) (hs : s.Step event s') :
    s'.fs.view.Registered s'.gSessionTable := by
  cases event with
  | request client msg rand response =>
    exact (handleWork_handled hv.wf hs).registered hv.sound hr ha.1 hk
  | endOfFile client =>
    rcases run_closeSession hv.wf hs with ⟨rfl, -⟩ | ⟨-, ht, out, he⟩
    · exact hr
    · rw [ht]
      exact registered_ended hv.sound hr ha.1 he
  | lost client =>
    cases hs
    exact hr
  | delivery notification =>
    rw [hs.2]
    exact hr

end ServerState
end StorageServer.Server
