import StorageServer.Server.FileMap

/-! Names and keys. The table compares keys only, so an operation addressed to one name acts on
whatever file is stored under the key of that name. -/
namespace StorageServer.Server
open Common Library.KeyedList Library.Runs

namespace Store
variable {s s' t : Store} {k : ℕ} {e x : StoreEntry} {gone : List StoreEntry} {b : List UInt8}

/-- Every file with another name than `b` keeps its content, its name and its owner and is not
handed out, unless it is ejected and reported. -/
def Preserves (s : Store) (b : List UInt8) (out : FSOutcome) (s' : Store) : Prop :=
  ∀ e ∈ s.entries, e.file.name ≠ b →
    (∃ x ∈ s'.entries, x.file = e.file ∧ x.owner = e.owner) ∧ e.file ∉ out.outFiles ∨
      (∀ x ∈ s'.entries, x.file.name ≠ e.file.name) ∧ e.file ∈ out.outFiles

/-- An operation addressed to a name leaves the files with other names alone, and a successful
`fs_obtain` returns a file with the name asked for. -/
structure NoInterference (s : Store) (op : FsOperation) (file : FSFile) (out : FSOutcome)
    (s' : Store) : Prop where
  preserves : Preserves s file.name out s'
  returned : ∀ client, op = .obtain client file → out.res = 0 →
    ∃ f, out.outFiles = [f] ∧ f.name = file.name

/-- The operation does not act on a file with another name under the same key. -/
def Undisturbed (s : Store) : FsOperation → Prop
  | .obtain _ file => ∀ e, s.find (s.keyOf file.name) = some e → e.file.name = file.name
  | .remove client file =>
    ∀ e, s.find (s.keyOf file.name) = some e → e.file.name = file.name ∨ e.owner ≠ client
  | .modify client file =>
    ∀ e, s.find (s.keyOf file.name) = some e →
      e.file.name = file.name ∨ e.owner ≠ client ∨ file.size > toSize s.bytesMax
  | .append client file =>
    ∀ e, s.find (s.keyOf file.name) = some e →
      e.file.name = file.name ∨ (e.owner ≠ client ∧ e.owner ≠ emptyOwner) ∨
        file.size + e.file.contentLen > toSize s.bytesMax ∨ file.content = []
  | .trylock client file =>
    ∀ e, s.find (s.keyOf file.name) = some e →
      e.file.name = file.name ∨ e.owner ≠ emptyOwner ∨ client = emptyOwner
  | .unlock client file =>
    ∀ e, s.find (s.keyOf file.name) = some e →
      e.file.name = file.name ∨ e.owner ≠ client ∨ (handOff e).owner = client
  | .insert .. | .exist .. | .obtainN .. | .clean .. => True

theorem preserves_of_kept {out : FSOutcome} (ho : out.outFiles = [])
    (h : ∀ e ∈ s.entries, e.file.name ≠ b → ∃ x ∈ s'.entries, x.file = e.file ∧ x.owner = e.owner) :
    Preserves s b out s' := by
  intro e he hb
  rw [ho]
  exact Or.inl ⟨h e he hb, List.not_mem_nil⟩

theorem preserves_self {out : FSOutcome} (ho : out.outFiles = []) : Preserves s b out s :=
  preserves_of_kept ho fun e he _ => ⟨e, he, rfl, rfl⟩

/-- The entries of other keys survive an entry that is put back. -/
theorem mem_put (hd : Distinct s.key s.entries) (he : s.find k = some e) (hx : s.key x = k)
    {y : StoreEntry} (hy : y ∈ s.entries) : y = e ∨ y ∈ (s.put x).entries := by
  by_cases hk : s.key y = k
  · exact Or.inl (hd.eq_of_key hy (mem_of_find he) (hk.trans (key_of_find he).symm))
  · exact Or.inr (mem_touch.mpr (Or.inr ⟨hy, by rwa [hx]⟩))

theorem kept_put (hd : Distinct s.key s.entries) (he : s.find k = some e) (hx : s.key x = k)
    (hsame : e.file.name = b ∨ x.file = e.file ∧ x.owner = e.owner) :
    ∀ y ∈ s.entries, y.file.name ≠ b →
      ∃ z ∈ (s.put x).entries, z.file = y.file ∧ z.owner = y.owner := by
  intro y hy hb
  rcases mem_put hd he hx hy with rfl | hy
  · exact ⟨x, mem_touch.mpr (Or.inl rfl), hsame.resolve_left hb⟩
  · exact ⟨y, hy, rfl, rfl⟩

/-- A file of an updated store with another key is not the file that was found. -/
theorem file_ne (he : s.find k = some e) (hx : s.key x = k) {y : StoreEntry}
    (hy : y ∈ (s.put x).entries) (hf : y.file = e.file) : y = x := by
  rcases mem_touch.mp hy with rfl | ⟨-, hk⟩
  · rfl
  · have hy' : s.key y = s.key e := congrArg (fun file : FSFile => s.keyOf file.name) hf
    exact absurd (hy'.trans ((key_of_find he).trans hx.symm)) hk

theorem preserves_ejected (hd : Distinct t.key t.entries) (hr : t.Reclaimed gone s')
    (h : ∀ e ∈ s.entries, e.file.name ≠ b → ∃ x ∈ t.entries, x.file = e.file ∧ x.owner = e.owner) :
    Preserves s b (ejected gone) s' := by
  intro e he hb
  obtain ⟨x, hx, hf, ho⟩ := h e he hb
  obtain ⟨⟨kept, hk, rfl⟩, -, -⟩ := hr
  have hn := distinct_names hd
  have hunique : ∀ y ∈ t.entries, y.file.name = e.file.name → y = x := fun y hy hye =>
    hn.eq_of_key hy hx (by rw [hf]; exact hye)
  rw [hk] at hx hunique hn
  have hdisj : ∀ y, y ∈ gone → y ∈ kept → False := by
    intro y hg hkept
    rw [Distinct, List.map_append] at hn
    exact List.disjoint_of_nodup_append hn (List.mem_map_of_mem hg) (List.mem_map_of_mem hkept)
  rcases List.mem_append.mp hx with hg | hkept
  · refine Or.inr ⟨fun y hy hye => ?_, ?_⟩
    · have hyx := hunique y (List.mem_append_right _ hy) hye
      exact hdisj x hg (hyx ▸ hy)
    · rw [← hf]
      exact List.mem_map_of_mem hg
  · refine Or.inl ⟨⟨x, hkept, hf, ho⟩, fun hm => ?_⟩
    obtain ⟨y, hy, hyf⟩ := List.mem_map.mp hm
    have hyx := hunique y (List.mem_append_left _ hy) (by rw [hyf])
    exact hdisj x (hyx ▸ hy) hkept

/-- A file that has lost its content, its name or its owner has been interfered with. -/
theorem not_preserves (he : s.find k = some e) (hb : e.file.name ≠ b) {out : FSOutcome}
    (hs : ∀ y ∈ s'.entries, y.file = e.file → y.owner ≠ e.owner) (ho : e.file ∉ out.outFiles) :
    ¬ Preserves s b out s' := by
  intro h
  rcases h e (mem_of_find he) hb with ⟨⟨y, hy, hf, how⟩, -⟩ | ⟨-, hm⟩
  · exact hs y hy hf how
  · exact ho hm

/-- A change of content, name or owner, reported as nothing else, interferes. -/
theorem not_preserves_put (he : s.find k = some e) (hb : e.file.name ≠ b) (hx : s.key x = k)
    (hne : ¬ (x.file = e.file ∧ x.owner = e.owner)) {out : FSOutcome} (ho : out.outFiles = []) :
    ¬ Preserves s b out (s.put x) := by
  refine not_preserves he hb (fun y hy hyf hyo => ?_) (by rw [ho]; exact List.not_mem_nil)
  obtain rfl := file_ne he hx hy hyf
  exact hne ⟨hyf, hyo⟩

/-- A file that has changed in the entry found under the key is lost, kept or ejected. -/
theorem not_preserves_resized (he : s.find k = some e) (hx : s.key x = k) (hb : e.file.name ≠ b)
    (hne : x.file ≠ e.file) {bytes slots : ℤ}
    (hr : ((s.put x).charge bytes slots).Reclaimed gone s') :
    ¬ Preserves s b (ejected gone) s' := by
  obtain ⟨⟨kept, hk, rfl⟩, -, -⟩ := hr
  change (s.put x).entries = gone ++ kept at hk
  have hall : ∀ y ∈ gone ++ kept, y.file ≠ e.file := by
    intro y hy hyf
    rw [← hk] at hy
    obtain rfl := file_ne he hx hy hyf
    exact hne hyf
  refine not_preserves he hb (fun y hy hyf => ?_) fun hm => ?_
  · exact absurd hyf (hall y (List.mem_append_right _ hy))
  · obtain ⟨y, hy, hyf⟩ := List.mem_map.mp hm
    exact hall y (List.mem_append_left _ hy) hyf

theorem noInterference_iff {op : FsOperation} {file : FSFile} {out : FSOutcome}
    (ho : ∀ client, op ≠ .obtain client file) :
    NoInterference s op file out s' ↔ Preserves s file.name out s' :=
  ⟨NoInterference.preserves, fun h => ⟨h, fun client hop => absurd hop (ho client)⟩⟩

/-- What is required of the entry under a key is required of the one that has been found. -/
theorem forall_find_iff (he : s.find k = some e) {p : StoreEntry → Prop} :
    (∀ e, s.find k = some e → p e) ↔ p e :=
  ⟨fun h => h e he, fun h _ he' => Option.some.inj (he.symm.trans he') ▸ h⟩

theorem undisturbed_missing {op : FsOperation} {file : FSFile} (hf : op.file = some file)
    (he : s.find (s.keyOf file.name) = none) : s.Undisturbed op := by
  cases op with
  | insert | exist | obtainN | clean => trivial
  | obtain | remove | modify | append | trylock | unlock =>
    cases hf
    intro e he'
    rw [he] at he'
    contradiction

theorem Refuses.undisturbed {op : FsOperation} {file : FSFile} {r : ℤ} (hf : op.file = some file)
    (he : s.find (s.keyOf file.name) = some e) (h : s.Refuses e op r) : s.Undisturbed op := by
  cases op with
  | insert | obtain | obtainN | exist | clean => exact h.elim
  | remove | modify | append | trylock | unlock =>
    cases hf
    intro e' he'
    obtain rfl : e = e' := Option.some.inj (he.symm.trans he')
    simp only [Refuses] at h
    tauto

/-- Whether an operation leaves the files with other names alone is decided by what is stored
under the key of its name. -/
theorem Effect.noInterference {op : FsOperation} {out : FSOutcome} {file : FSFile}
    (h : Effect s op out s') (hs : s.Sound) (hf : op.file = some file) :
    NoInterference s op file out s' ↔ s.Undisturbed op := by
  have hd := hs.distinct
  cases h with
  | present he =>
    cases hf
    rw [noInterference_iff (by simp)]
    exact iff_of_true (preserves_self rfl) trivial
  | missing hf' hi he =>
    obtain rfl := Option.some.inj (hf'.symm.trans hf)
    refine iff_of_true ⟨preserves_self rfl, fun client hop h0 => ?_⟩ (undisturbed_missing hf he)
    exact absurd h0 (by simp)
  | refused hf' he hr =>
    obtain rfl := Option.some.inj (hf'.symm.trans hf)
    refine iff_of_true ⟨preserves_self rfl, fun client hop h0 => ?_⟩ (hr.undisturbed hf he)
    exact absurd h0 hr.ne_zero
  | listed | cleaned => cases hf
  | @obtained client file' e he =>
    cases hf
    rw [Undisturbed, forall_find_iff he]
    constructor
    · intro h
      obtain ⟨f, hfs, hname⟩ := h.returned client rfl rfl
      rw [← hname, List.singleton_inj.mp hfs]
    · intro hname
      refine ⟨fun y hy hb => Or.inl ⟨kept_put hd he (key_of_find he) (Or.inl hname) y hy hb, ?_⟩,
        fun _ _ _ => ⟨e.file, rfl, hname⟩⟩
      intro hm
      rw [List.mem_singleton] at hm
      exact hb (by rw [hm, hname])
  | @existing client file' e he =>
    cases hf
    rw [noInterference_iff (by simp)]
    exact iff_of_true
      (preserves_of_kept rfl (kept_put hd he (key_of_find he) (Or.inr ⟨rfl, rfl⟩))) trivial
  | @locked client file' e he ho =>
    cases hf
    rw [noInterference_iff (by simp), Undisturbed, forall_find_iff he]
    have hx : s.key { e with owner := client } = s.keyOf file.name := key_of_name he rfl
    constructor
    · intro h
      by_contra hc
      push Not at hc
      obtain ⟨hb, hempty, hclient⟩ := hc
      refine not_preserves_put he hb hx (fun hsame => ?_) rfl h
      exact hclient (hsame.2.trans hempty)
    · intro hc
      refine preserves_of_kept rfl (kept_put hd he hx ?_)
      refine hc.imp_right fun hc => ⟨rfl, ?_⟩
      change client = e.owner
      rcases ho with ho | ho
      · rw [ho]
        exact hc.resolve_left (not_not.mpr ho)
      · exact ho.symm
  | @queued client file' e he ho hoc hw =>
    cases hf
    rw [noInterference_iff (by simp), Undisturbed, forall_find_iff he]
    refine iff_of_true (preserves_of_kept rfl fun y hy hb => ?_) (Or.inr (Or.inl ho))
    by_cases hk : s.key y = s.key { e with waiting := e.waiting ++ [client] }
    · have hye : y = e := hd.eq_of_key hy (mem_of_find he) hk
      refine ⟨_, List.mem_map.mpr ⟨y, hy, if_pos hk⟩, ?_⟩
      rw [hye]
      exact ⟨rfl, rfl⟩
    · exact ⟨_, List.mem_map.mpr ⟨y, hy, if_neg hk⟩, rfl, rfl⟩
  | @unlocked client file' e he ho =>
    cases hf
    rw [noInterference_iff (by simp), Undisturbed, forall_find_iff he]
    have hx : s.key (handOff e) = s.keyOf file.name := key_of_name he rfl
    constructor
    · intro h
      by_contra hc
      push Not at hc
      obtain ⟨hb, -, hnext⟩ := hc
      exact not_preserves_put he hb hx (fun hsame => hnext (hsame.2.trans ho)) rfl h
    · intro hc
      refine preserves_of_kept rfl (kept_put hd he hx ?_)
      refine hc.imp_right fun hc => ⟨rfl, ?_⟩
      exact (hc.resolve_left (not_not.mpr ho)).trans ho.symm
  | @removed client file' e gone s' he ho hr =>
    cases hf
    rw [noInterference_iff (by simp), Undisturbed, forall_find_iff he]
    obtain ⟨hd', hcount⟩ := hs.erase_charge he (-(e.file.size : ℤ))
    obtain ⟨⟨kept, hk, rfl⟩, -, -⟩ := hcount.reclaim hr
    obtain rfl := reclaim_false hr
    change without s.key (s.keyOf file.name) s.entries = kept at hk
    subst hk
    constructor
    · intro h
      by_contra hc
      push Not at hc
      refine not_preserves he hc.1 (fun y hy hyf _ => ?_) List.not_mem_nil h
      exact (mem_without.mp hy).2
        ((congrArg (fun file : FSFile => s.keyOf file.name) hyf).trans (key_of_find he))
    · intro hc
      refine preserves_of_kept rfl fun y hy hb => ⟨y, mem_without.mpr ⟨hy, fun hk => ?_⟩, rfl, rfl⟩
      have hye := hd.eq_of_key hy (mem_of_find he) (hk.trans (key_of_find he).symm)
      exact hb (hye ▸ hc.resolve_right (not_not.mpr ho))
  | @inserted client file' lock gone s' he hr =>
    cases hf
    rw [noInterference_iff (by simp)]
    obtain ⟨hd', hcount⟩ := hs.put_new
      (x := ⟨if lock then client else emptyOwner, file, false, []⟩) he file.size
    refine iff_of_true (preserves_ejected hd' (hcount.reclaim hr) fun y hy _ => ?_) trivial
    refine ⟨y, mem_touch.mpr (Or.inr ⟨hy, lookup_eq_none.mp he y hy⟩), rfl, rfl⟩
  | @modified client file' e gone s' he ho hb hr =>
    cases hf
    rw [noInterference_iff (by simp), Undisturbed, forall_find_iff he]
    have hx : s.key (e.rewritten file) = s.keyOf file.name := rfl
    obtain ⟨hd', hcount⟩ := hs.put_charge (x := e.rewritten file) he hx
      (file.size - e.file.size)
    constructor
    · intro h
      by_contra hc
      push Not at hc
      refine not_preserves_resized he hx hc.1 (fun hfile => ?_) (hcount.reclaim hr) h
      exact hc.1 (congrArg FSFile.name hfile).symm
    · intro hc
      refine preserves_ejected hd' (hcount.reclaim hr) (kept_put hd he hx (Or.inl ?_))
      rcases hc with hc | hc | hc
      · exact hc
      · exact absurd ho hc
      · exact absurd hb (not_le.mpr hc)
  | @appended client file' e gone s' he ho hb hr =>
    cases hf
    rw [noInterference_iff (by simp), Undisturbed, forall_find_iff he]
    have hx : s.key (e.extended file) = s.keyOf file.name :=
      key_of_name he rfl
    obtain ⟨hd', hcount⟩ := hs.put_charge (x := e.extended file) he
      hx (file.size - (Store.appended e.file file).contentLen)
    constructor
    · intro h
      by_contra hc
      push Not at hc
      refine not_preserves_resized he hx hc.1 (fun hfile => hc.2.2.2 ?_) (hcount.reclaim hr) h
      exact List.append_right_eq_self.mp (congrArg FSFile.content hfile)
    · intro hc
      refine preserves_ejected hd' (hcount.reclaim hr) (kept_put hd he hx ?_)
      rcases hc with hc | hc | hc | hc
      · exact Or.inl hc
      · exact absurd ho (by tauto)
      · exact absurd hb (not_le.mpr hc)
      · refine Or.inr ⟨?_, rfl⟩
        change Store.appended e.file file = e.file
        rw [Store.appended, hc, List.append_nil]

end Store

/-- The configurations that `readConfigs` produces; the table has a base size and a multiple of
the number of slots. -/
def FSConfig.Admitted (configs : FSConfig) : Prop :=
  1 ≤ configs.maxFileCapacitySlot ∧ 1 ≤ configs.maxFileCapacityMB ∧
    ∃ ratio ∈ [0, 2, 3, 4, 6], (configs.tableSize : ℤ) =
      1024*1024 + configs.maxFileCapacitySlot * ratio

namespace FileSystem
variable {configs : FSConfig} {tr : List FsEvent} {fs fs' : FileSystem}

/-- In every reachable state an operation addressed to a name interferes with a file of another
name exactly when it acts on one that is stored under the same key. -/
theorem noInterference_iff_undisturbed (h : Run Step (initializeFileSystem configs) tr fs)
    {op : FsOperation} {file : FSFile} {out : FSOutcome} (hf : op.file = some file)
    (hs : Step fs (op,out) fs') :
    Store.NoInterference fs.view op file out fs'.view ↔ fs.view.Undisturbed op := by
  have hv : fs.Valid := h.invariant (.start configs) fun hv hs => hv.step hs
  exact (hs.effect hv.wf).noInterference hv.sound hf

/-- Client 4 creates the file `qp`, whose key is also the key of `xj` in the smallest table. -/
def createQp : FsOperation := .insert 4 ⟨[113,112], [1,2,3]⟩ false

/-- Client 5 asks whether there is a file `xj`. -/
def existXj : FsOperation := .exist 5 ⟨[120,106], []⟩

/-- Client 5 reads the file `xj`. -/
def obtainXj : FsOperation := .obtain 5 ⟨[120,106], []⟩

/-- `qp` is taken for `xj` and nothing happens to it. -/
theorem noInterference_existXj :
    Store.NoInterference ((initializeFileSystem defaultConfigs).after createQp).view
      existXj ⟨[120,106], []⟩
      (((initializeFileSystem defaultConfigs).after createQp).outcome existXj)
      (((initializeFileSystem defaultConfigs).after createQp).after existXj).view ∧
    (((initializeFileSystem defaultConfigs).after createQp).outcome existXj).res = 0 := by
  have h := Run.start.next
    (step_after (initializeFileSystem defaultConfigs) createQp (by decide +kernel))
  have hs := step_after ((initializeFileSystem defaultConfigs).after createQp) existXj
    (by decide +kernel)
  exact ⟨(noInterference_iff_undisturbed h rfl hs).mpr trivial, by decide +kernel⟩

theorem obtain_returns_other_file :
    ¬ ∀ configs, FSConfig.Admitted configs → ∀ tr fs,
      Run Step (initializeFileSystem configs) tr fs →
      ∀ op file out fs', op.file = some file → Step fs (op,out) fs' →
        Store.NoInterference fs.view op file out fs'.view := by
  intro h
  have h1 := step_after (initializeFileSystem defaultConfigs) createQp (by decide +kernel)
  have h2 := step_after ((initializeFileSystem defaultConfigs).after createQp) obtainXj
    (by decide +kernel)
  have hadm : FSConfig.Admitted defaultConfigs :=
    ⟨by decide, by decide, 0, by decide, by decide⟩
  obtain ⟨f, hf, hname⟩ :=
    (h defaultConfigs hadm _ _ (Run.start.next h1) _ _ _ _ rfl h2).returned 5 rfl
      (by decide +kernel)
  have hout : (((initializeFileSystem defaultConfigs).after createQp).outcome obtainXj).outFiles =
      [⟨[113,112], [1,2,3]⟩] := by decide +kernel
  rw [hout] at hf
  obtain rfl := List.singleton_inj.mp hf
  exact absurd hname (by decide)

end FileSystem
end StorageServer.Server
