import StorageServer.Server.StoreSteps

/-! The store as a map from names to contents and owners. When the names of a run have different
keys, every operation answers and changes the store as it would answer and change the map, and
what the map holds under a name is its history. -/
namespace StorageServer.Server
open Common Library.KeyedList Library.Runs

structure MapEntry where
  content : List UInt8
  owner : ℤ

abbrev FileMap := List UInt8 → Option MapEntry

namespace FileMap

/-- Forget the files that have been reported as ejected. -/
def forget (m : FileMap) (files : List FSFile) : FileMap :=
  fun name => if name ∈ files.map FSFile.name then none else m name

/-- The files handed out are files of the map. -/
def Reports (m : FileMap) (files : List FSFile) : Prop :=
  ∀ file ∈ files, (m file.name).map MapEntry.content = some file.content

/-- The refusals of operations on a present file. -/
def Refuses (x : MapEntry) : FsOperation → ℤ → Prop
  | .remove client _, r | .unlock client _, r => x.owner ≠ client ∧ r = fsClientNotAllowed
  | .modify client _, r =>
    x.owner ≠ client ∧ r = fsClientNotAllowed ∨ x.owner = client ∧ r = fsFileTooBig
  | .append client _, r =>
    x.owner ≠ client ∧ x.owner ≠ emptyOwner ∧ r = fsClientNotAllowed ∨
      (x.owner = client ∨ x.owner = emptyOwner) ∧ r = fsFileTooBig
  | .trylock client _, r =>
    x.owner ≠ emptyOwner ∧ x.owner ≠ client ∧
      (r = fsClientWaitingOnLock ∨ r = fsClientNotAllowed)
  | _, _ => False

/-- The owner after a file has been let go of: the client that is notified, if there is one. -/
def nextOwner (issued : List FSLockNotification) : ℤ :=
  (issued.map FSLockNotification.fd).headD emptyOwner

/-- What an operation answers and what it does to the map. -/
inductive Step (m : FileMap) : FsEvent → FileMap → Prop
  | present {client file lock} (h : (m file.name).isSome) :
    Step m (.insert client file lock, { res := fsFileAlreadyExists }) m
  | missing {op file} (hf : op.file = some file) (hi : ∀ client lock, op ≠ .insert client file lock)
      (h : m file.name = none) : Step m (op, { res := fsFileNotExists }) m
  | refused {op file x r} (hf : op.file = some file) (h : m file.name = some x)
      (hr : Refuses x op r) : Step m (op, { res := r }) m
  | listed {client n rand files} (h : m.Reports files) :
    Step m (.obtainN client n rand, { res := 0, outFiles := files }) m
  | obtained {client file x} (h : m file.name = some x) :
    Step m (.obtain client file, { res := 0, outFiles := [⟨file.name, x.content⟩] }) m
  | existing {client file} (h : (m file.name).isSome) : Step m (.exist client file, { res := 0 }) m
  | locked {client file x} (h : m file.name = some x)
      (ho : x.owner = emptyOwner ∨ x.owner = client) :
    Step m (.trylock client file, { res := 0 })
      (Function.update m file.name (some { x with owner := client }))
  | unlocked {client file x issued} (h : m file.name = some x) (ho : x.owner = client) :
    Step m (.unlock client file, { res := 0, issued := issued })
      (Function.update m file.name (some { x with owner := nextOwner issued }))
  | removed {client file x issued} (h : m file.name = some x) (ho : x.owner = client) :
    Step m (.remove client file, { res := 0, issued := issued }) (Function.update m file.name none)
  | inserted {client file lock files issued} {m' : FileMap} (h : m file.name = none)
      (hm : m' = Function.update m file.name
        (some ⟨file.content, if lock then client else emptyOwner⟩))
      (hr : m'.Reports files) :
    Step m (.insert client file lock, ⟨0, files, issued⟩) (m'.forget files)
  | modified {client file x files issued} {m' : FileMap} (h : m file.name = some x)
      (ho : x.owner = client)
      (hm : m' = Function.update m file.name (some { x with content := file.content }))
      (hr : m'.Reports files) :
    Step m (.modify client file, ⟨0, files, issued⟩) (m'.forget files)
  | appended {client file x files issued} {m' : FileMap} (h : m file.name = some x)
      (ho : x.owner = client ∨ x.owner = emptyOwner)
      (hm : m' = Function.update m file.name
        (some { x with content := x.content ++ file.content }))
      (hr : m'.Reports files) :
    Step m (.append client file, ⟨0, files, issued⟩) (m'.forget files)
  | cleaned {client filenames issued} {m' : FileMap}
      (hc : ∀ name, (m' name).map MapEntry.content = (m name).map MapEntry.content)
      (ho : ∀ name x x', m name = some x → m' name = some x' → x'.owner = x.owner ∨
        x.owner = client ∧ (x'.owner = emptyOwner ∨ ⟨x'.owner, 0⟩ ∈ issued)) :
    Step m (.clean client filenames, { res := 0, issued := issued }) m'

end FileMap

/-- The content of each name as the events tell it: the last insert or modify, followed by the
appends since then, unless the file was removed or reported as ejected. -/
def contentsAfter (m : List UInt8 → Option (List UInt8)) (e : FsEvent) :
    List UInt8 → Option (List UInt8) :=
  let forget := fun (m : List UInt8 → Option (List UInt8)) (name : List UInt8) =>
    if name ∈ e.2.outFiles.map FSFile.name then none else m name
  if e.2.res = 0 then
    match e.1 with
    | .insert _ file _ | .modify _ file => forget (Function.update m file.name (some file.content))
    | .append _ file =>
      forget (Function.update m file.name ((m file.name).map (· ++ file.content)))
    | .remove _ file => Function.update m file.name none
    | _ => m
  else m

def history (tr : List FsEvent) : List UInt8 → Option (List UInt8) :=
  tr.foldl contentsAfter (fun _ => none)

/-- The names that occur in the operations of a run. -/
def namesOf (tr : List FsEvent) : List (List UInt8) :=
  tr.filterMap (fun e => e.1.file.map FSFile.name)

/-- Different names of the run have different keys. -/
def KeysSeparate (tableSize : ℕ) (tr : List FsEvent) : Prop :=
  ∀ a ∈ namesOf tr, ∀ b ∈ namesOf tr,
    tableKey tableSize (hashString a) = tableKey tableSize (hashString b) → a = b

/-- The answers that the contents determine. -/
def Agrees (m : List UInt8 → Option (List UInt8)) (e : FsEvent) : Prop :=
  match e.1 with
  | .insert _ file _ => e.2.res ≠ 0 ↔ (m file.name).isSome
  | .obtain _ file =>
    (e.2.res = fsFileNotExists ↔ m file.name = none) ∧
      (e.2.res = 0 → ∃ content, m file.name = some content ∧ e.2.outFiles = [⟨file.name, content⟩])
  | .exist _ file | .modify _ file | .append _ file | .trylock _ file | .unlock _ file
  | .remove _ file => e.2.res = fsFileNotExists ↔ m file.name = none
  | .obtainN .. => ∀ file ∈ e.2.outFiles, m file.name = some file.content
  | .clean .. => True

namespace FileMap
variable {m m' : FileMap} {e : FsEvent}

/-- The contents of a map. -/
def contents (m : FileMap) : List UInt8 → Option (List UInt8) :=
  fun name => (m name).map MapEntry.content

theorem Refuses.ne {x : MapEntry} {op : FsOperation} {r : ℤ} (h : Refuses x op r) :
    r ≠ 0 ∧ r ≠ fsFileNotExists := by
  cases op with
  | insert | obtain | obtainN | exist | clean => exact h.elim
  | remove | unlock => rw [h.2]; decide
  | modify => rcases h with ⟨-, rfl⟩ | ⟨-, rfl⟩ <;> decide
  | append => rcases h with ⟨-, -, rfl⟩ | ⟨-, rfl⟩ <;> decide
  | trylock => rcases h with ⟨-, -, rfl | rfl⟩ <;> decide

theorem contents_update (m : FileMap) (name : List UInt8) (x : Option MapEntry) :
    contents (Function.update m name x) =
      Function.update m.contents name (x.map MapEntry.content) := by
  funext b
  by_cases h : b = name
  · subst b
    simp [contents]
  · simp [contents, h]

theorem contents_forget (m : FileMap) (files : List FSFile) :
    (m.forget files).contents =
      fun name => if name ∈ files.map FSFile.name then none else m.contents name := by
  funext name
  simp only [contents, forget]
  split_ifs <;> rfl

/-- The contents of the map follow the events. -/
theorem Step.contents_eq (h : Step m e m') : m'.contents = contentsAfter m.contents e := by
  have hsame : ∀ {name x y}, m name = some x → y.content = x.content →
      contents (Function.update m name (some y)) = m.contents := by
    intro name x y hx hy
    have hc : m.contents name = some x.content := by simp [contents, hx]
    rw [contents_update, Option.map_some, hy, ← hc, Function.update_eq_self]
  cases h with
  | present | missing | listed | obtained | existing => simp [contentsAfter]
  | refused hf h hr => simp [contentsAfter, hr.ne.1]
  | locked h ho | unlocked h ho =>
    refine Eq.trans (hsame h ?_) ?_
    · rfl
    · simp [contentsAfter]
  | removed h ho =>
    rw [contents_update]
    simp [contentsAfter]
  | inserted h hm hr =>
    rw [contents_forget, hm, contents_update]
    simp [contentsAfter]
  | modified h ho hm hr =>
    rw [contents_forget, hm, contents_update]
    simp [contentsAfter]
  | @appended client file x files issued m' h ho hm hr =>
    have hc : m.contents file.name = some x.content := by simp [contents, h]
    rw [contents_forget, hm, contents_update]
    simp [contentsAfter, hc]
  | cleaned hc ho =>
    simp only [contentsAfter, if_true]
    exact funext hc

theorem isSome_contents (m : FileMap) (name : List UInt8) :
    (m.contents name).isSome = (m name).isSome := Option.isSome_map

theorem contents_eq_none {name : List UInt8} : m.contents name = none ↔ m name = none :=
  Option.map_eq_none_iff

/-- The answers agree with what the contents determine. -/
theorem Step.agrees (h : Step m e m') : Agrees m.contents e := by
  have hpres : ∀ {name x}, m name = some x → m.contents name ≠ none := by
    intro name x hx hn
    rw [contents_eq_none, hx] at hn
    contradiction
  cases h with
  | present h => simpa [Agrees, isSome_contents] using h
  | @missing op file hf hi h =>
    have hn : m.contents file.name = none := contents_eq_none.mpr h
    cases op with
    | insert client file' lock =>
      cases hf
      exact absurd rfl (hi _ _)
    | obtainN | clean => cases hf
    | obtain => cases hf; exact ⟨by simp [hn], by simp⟩
    | exist | modify | append | trylock | unlock | remove => cases hf; simp [Agrees, hn]
  | @refused op file x r hf h hr =>
    obtain ⟨h0, h1⟩ := hr.ne
    have hn := hpres h
    cases op with
    | insert | obtain | obtainN | exist | clean => exact hr.elim
    | modify | append | trylock | unlock | remove => cases hf; simpa [Agrees, h1] using hn
  | listed h => exact h
  | @obtained client file x h =>
    refine ⟨by simpa using hpres h, fun _ => ⟨x.content, ?_, rfl⟩⟩
    simp [contents, h]
  | @existing client file h =>
    obtain ⟨x, hx⟩ := Option.isSome_iff_exists.mp h
    simpa [Agrees] using hpres hx
  | locked h | unlocked h | removed h => simpa [Agrees] using hpres h
  | inserted h hm hr => simp [Agrees, contents_eq_none.mpr h]
  | modified h ho hm hr => simpa [Agrees] using hpres h
  | appended h ho hm hr => simpa [Agrees] using hpres h
  | cleaned => trivial

end FileMap

/-! ### The map that a store stands for -/

def StoreEntry.toMap (e : StoreEntry) : MapEntry := ⟨e.file.content, e.owner⟩

namespace Store
variable {s s' t : Store} {e x : StoreEntry} {gone : List StoreEntry} {names : Set (List UInt8)}

/-- The entry named `name`, whatever it is stored under. -/
def toMap (s : Store) : FileMap :=
  fun name => (lookup (fun e => e.file.name) name s.entries).map StoreEntry.toMap

/-- The names of a run have different keys, and the store holds only such names. -/
structure Named (names : Set (List UInt8)) (s : Store) : Prop where
  separate : ∀ a ∈ names, ∀ b ∈ names, s.keyOf a = s.keyOf b → a = b
  mem : ∀ e ∈ s.entries, e.file.name ∈ names

/-- A name of the run is found under its key. -/
theorem Named.toMap_eq (h : Named names s) (hd : Distinct s.key s.entries) {name : List UInt8}
    (hn : name ∈ names) : s.toMap name = (s.find (s.keyOf name)).map StoreEntry.toMap := by
  unfold toMap
  congr 1
  cases hf : s.find (s.keyOf name) with
  | none =>
    refine lookup_eq_none.mpr fun e he hne => ?_
    exact lookup_eq_none.mp hf e he (congrArg s.keyOf hne)
  | some e =>
    refine (distinct_names hd).lookup_eq_some.mpr ⟨mem_of_find hf, ?_⟩
    exact h.separate _ (h.mem e (mem_of_find hf)) _ hn (key_of_find hf)

theorem Named.toMap_of_notMem (h : Named names s) {name : List UInt8} (hn : name ∉ names) :
    s.toMap name = none := by
  have hl : lookup (fun e : StoreEntry => e.file.name) name s.entries = none :=
    lookup_eq_none.mpr fun e he hne => hn (hne ▸ h.mem e he)
  rw [toMap, hl]
  rfl

theorem toMap_of_find (h : Named names s) (hd : Distinct s.key s.entries) {name : List UInt8}
    (hn : name ∈ names) (he : s.find (s.keyOf name) = some e) : s.toMap name = some e.toMap := by
  rw [h.toMap_eq hd hn, he]
  rfl

theorem name_of_find (h : Named names s) {name : List UInt8} (hn : name ∈ names)
    (he : s.find (s.keyOf name) = some e) : e.file.name = name :=
  h.separate _ (h.mem e (mem_of_find he)) _ hn (key_of_find he)

theorem Named.put (h : Named names s) (hx : x.file.name ∈ names) : Named names (s.put x) where
  separate := h.separate
  mem e he := by
    rcases mem_touch.mp he with rfl | ⟨he, -⟩
    · exact hx
    · exact h.mem e he

theorem Named.toMap_put (h : Named names s) (hd : Distinct s.key s.entries)
    (hx : x.file.name ∈ names) :
    (s.put x).toMap = Function.update s.toMap x.file.name (some x.toMap) := by
  have hp := h.put hx
  have hdp : Distinct (s.put x).key (s.put x).entries := hd.touch x
  funext name
  by_cases hname : name ∈ names
  · rw [hp.toMap_eq hdp hname]
    by_cases he : name = x.file.name
    · subst he
      rw [Function.update_self, keyOf_put, find_put_self (k := s.keyOf x.file.name) rfl]
      rfl
    · rw [Function.update_of_ne he, h.toMap_eq hd hname, keyOf_put, find_put_of_ne]
      exact fun hk => he (h.separate _ hname _ hx hk)
  · have he : name ≠ x.file.name := by
      rintro rfl
      exact hname hx
    rw [hp.toMap_of_notMem hname, Function.update_of_ne he, h.toMap_of_notMem hname]

theorem Named.erase (h : Named names s) (k : ℕ) : Named names (s.erase k) :=
  ⟨h.separate, fun e he => h.mem e (mem_without.mp he).1⟩

theorem Named.toMap_erase (h : Named names s) (hd : Distinct s.key s.entries) {name : List UInt8}
    (hn : name ∈ names) :
    (s.erase (s.keyOf name)).toMap = Function.update s.toMap name none := by
  have hp := h.erase (s.keyOf name)
  have hdp : Distinct (s.erase (s.keyOf name)).key (s.erase (s.keyOf name)).entries :=
    hd.without _
  funext b
  by_cases hname : b ∈ names
  · rw [hp.toMap_eq hdp hname, keyOf_erase]
    by_cases he : b = name
    · subst he
      rw [Function.update_self, find_erase_self]
      rfl
    · rw [Function.update_of_ne he, h.toMap_eq hd hname, find_erase_of_ne]
      exact fun hk => he (h.separate _ hname _ hn hk)
  · have he : b ≠ name := by
      rintro rfl
      exact hname hn
    rw [hp.toMap_of_notMem hname, Function.update_of_ne he, h.toMap_of_notMem hname]

theorem Named.replace (h : Named names s) (hx : x.file.name ∈ names) :
    Named names (s.replace x) where
  separate := h.separate
  mem e he := by
    obtain ⟨y, hy, rfl⟩ := List.mem_map.mp he
    split_ifs
    · exact hx
    · exact h.mem y hy

/-- Replacing an entry by one that differs in its queue only. -/
theorem toMap_replace (hd : Distinct s.key s.entries) {k : ℕ} (he : s.find k = some e)
    (hf : x.file = e.file) (ho : x.owner = e.owner) : (s.replace x).toMap = s.toMap := by
  have hk : s.key x = s.key e := congrArg (fun file : FSFile => s.keyOf file.name) hf
  have hsame : ∀ y ∈ s.entries, s.key y = s.key x → y = e := fun y hy hyx =>
    hd.eq_of_key hy (mem_of_find he) (hyx.trans hk)
  funext name
  refine map_lookup_replace (fun y hy hyx => ?_) name
  rw [hsame y hy hyx, StoreEntry.toMap, StoreEntry.toMap, hf, ho]
  exact ⟨rfl, rfl⟩

theorem Reclaimed.named (hr : t.Reclaimed gone s') (h : Named names t) : Named names s' := by
  obtain ⟨⟨kept, hk, rfl⟩, -, -⟩ := hr
  refine ⟨h.separate, fun e he => h.mem e ?_⟩
  rw [hk]
  exact List.mem_append_right _ he

theorem Reclaimed.toMap (hd : Distinct t.key t.entries) (hr : t.Reclaimed gone s') :
    s'.toMap = t.toMap.forget (gone.map StoreEntry.file) := by
  obtain ⟨⟨kept, hk, rfl⟩, -, -⟩ := hr
  have hn := distinct_names hd
  rw [hk] at hn
  funext name
  have hl : lookup (fun e : StoreEntry => e.file.name) name kept = _ := hn.lookup_drop
  change (lookup _ name kept).map _ = _
  rw [hl, ← hk, FileMap.forget]
  have hiff : (lookup (fun e : StoreEntry => e.file.name) name gone).isSome ↔
      name ∈ (gone.map StoreEntry.file).map FSFile.name := by
    rw [List.map_map, Option.isSome_iff_ne_none, ne_eq, lookup_eq_none]
    simp
  by_cases hg : name ∈ (gone.map StoreEntry.file).map FSFile.name
  · rw [if_pos hg, if_pos (hiff.mpr hg)]
    rfl
  · rw [if_neg hg, if_neg (fun h => hg (hiff.mp h))]
    rfl

/-- Every file of a store is reported with its content. -/
theorem reports_entries (hd : Distinct s.key s.entries) {files : List FSFile}
    (hf : files ⊆ s.entries.map StoreEntry.file) : s.toMap.Reports files := by
  intro file hfile
  obtain ⟨e, he, rfl⟩ := List.mem_map.mp (hf hfile)
  have hl := (distinct_names hd).lookup_self he
  rw [toMap, hl]
  rfl

theorem Reclaimed.subset (hr : t.Reclaimed gone s') :
    gone.map StoreEntry.file ⊆ t.entries.map StoreEntry.file := by
  obtain ⟨⟨kept, hk, -⟩, -, -⟩ := hr
  rw [hk, List.map_append]
  exact List.subset_append_left _ _

theorem nextOwner_granted (e : StoreEntry) : FileMap.nextOwner (granted e) = (handOff e).owner := by
  obtain ⟨owner, file, emptyBuffer, waiting⟩ := e
  cases waiting <;> rfl

/-- What the map says about the owners after some hand-overs of a client's files. -/
structure HandedOver (m : FileMap) (client : ℤ) (issued : List FSLockNotification) (m' : FileMap) :
    Prop where
  content : ∀ name, (m' name).map MapEntry.content = (m name).map MapEntry.content
  owner : ∀ name x x', m name = some x → m' name = some x' → x'.owner = x.owner ∨
    x.owner = client ∧ (x'.owner = emptyOwner ∨ ⟨x'.owner, 0⟩ ∈ issued)

theorem HandedOver.handOff {m : FileMap} {client : ℤ} {issued : List FSLockNotification}
    (h : HandedOver m client issued s.toMap) (he : s.toMap e.file.name = some e.toMap)
    (ho : e.owner = client) :
    HandedOver m client (issued ++ granted e)
      (Function.update s.toMap e.file.name (some (handOff e).toMap)) where
  content name := by
    rw [← h.content]
    by_cases hname : name = e.file.name
    · rw [hname, Function.update_self, he]
      rfl
    · rw [Function.update_of_ne hname]
  owner name x x' hx hx' := by
    by_cases hname : name = e.file.name
    · subst hname
      rw [Function.update_self, Option.some.injEq] at hx'
      have hxo : x.owner = client := by
        rcases h.owner _ _ _ hx he with hxo | ⟨hxo, -⟩
        · exact hxo.symm.trans ho
        · exact hxo
      refine Or.inr ⟨hxo, ?_⟩
      rw [← hx']
      obtain ⟨owner, file, emptyBuffer, waiting⟩ := e
      cases waiting with
      | nil => exact Or.inl rfl
      | cons c cs => exact Or.inr (List.mem_append_right _ List.mem_cons_self)
    · rw [Function.update_of_ne hname] at hx'
      rcases h.owner _ _ _ hx hx' with hxo | ⟨hxo, hxi⟩
      · exact Or.inl hxo
      · exact Or.inr ⟨hxo, hxi.imp_right (List.mem_append_left _)⟩

theorem handedOver_clean (hs : s.Sound) (hN : Named names s) (client : ℤ)
    (filenames : List HashValue) :
    Named names (s.clean client filenames).1 ∧
      HandedOver s.toMap client (s.clean client filenames).2.issued
        (s.clean client filenames).1.toMap := by
  have hrule := cleanFiles_rule
    (fun t issued => t.Sound ∧ Named names t ∧ HandedOver s.toMap client issued t.toMap)
    client ?_ [] ⟨hs, hN, ⟨fun _ => rfl, fun _ x x' hx hx' => ?_⟩⟩ filenames
  · exact hrule.2
  · rintro t issued k e ⟨ht, hNt, hH⟩ he ho
    have hmem := hNt.mem e (mem_of_find he)
    have hname : (handOff e).file.name ∈ names := hmem
    refine ⟨ht.put he (key_of_name he rfl), hNt.put hname, ?_⟩
    rw [hNt.toMap_put ht.distinct hname]
    refine hH.handOff ?_ ho
    have hk : t.find (t.keyOf e.file.name) = some e := by
      rw [← key_of_find he] at he
      exact he
    exact toMap_of_find hNt ht.distinct hmem hk
  · rw [hx, Option.some.injEq] at hx'
    exact Or.inl (hx' ▸ rfl)

theorem Refuses.toMap {op : FsOperation} {r : ℤ} (h : s.Refuses e op r) :
    FileMap.Refuses e.toMap op r := by
  cases op with
  | insert | obtain | obtainN | exist | clean => exact h.elim
  | remove | unlock => exact h
  | modify =>
    rcases h with ⟨ho, hr⟩ | ⟨ho, -, hr⟩
    · exact Or.inl ⟨ho, hr⟩
    · exact Or.inr ⟨ho, hr⟩
  | append =>
    rcases h with h | ⟨ho, -, hr⟩
    · exact Or.inl h
    · exact Or.inr ⟨ho, hr⟩
  | trylock =>
    obtain ⟨h1, h2, -, hr⟩ := h
    exact ⟨h1, h2, Or.inr hr⟩

/-- An entry that is put back under its name, with a new content or a new owner. -/
theorem Named.toMap_put_back (h : Named names s) (hd : Distinct s.key s.entries)
    {name : List UInt8} (hn : name ∈ names) (hx : x.file.name = name) :
    Named names (s.put x) ∧ (s.put x).toMap = Function.update s.toMap name (some x.toMap) := by
  subst hx
  exact ⟨h.put hn, h.toMap_put hd hn⟩

/-- Every operation on names with different keys does to the map what it does to the store. -/
theorem Effect.mapStep {op : FsOperation} {out : FSOutcome} (h : Effect s op out s')
    (hs : s.Sound) (hN : Named names s) (hop : ∀ file, op.file = some file → file.name ∈ names) :
    Named names s' ∧ FileMap.Step s.toMap (op,out) s'.toMap := by
  have hfound : ∀ {name e}, name ∈ names → s.find (s.keyOf name) = some e →
      s.toMap name = some e.toMap := fun hn he => toMap_of_find hN hs.distinct hn he
  have habsent : ∀ {name}, name ∈ names → s.find (s.keyOf name) = none → s.toMap name = none := by
    intro name hn he
    rw [hN.toMap_eq hs.distinct hn, he]
    rfl
  have hsame : ∀ {name e}, name ∈ names → s.find (s.keyOf name) = some e →
      Named names (s.put e) ∧ (s.put e).toMap = s.toMap := by
    intro name e hn he
    obtain ⟨h1, h2⟩ := hN.toMap_put_back hs.distinct hn (name_of_find hN hn he)
    exact ⟨h1, by rw [h2, ← hfound hn he, Function.update_eq_self]⟩
  cases h with
  | present he =>
    refine ⟨hN, .present ?_⟩
    rw [hfound (hop _ rfl) he]
    rfl
  | missing hf hi he => exact ⟨hN, .missing hf hi (habsent (hop _ hf) he)⟩
  | refused hf he hr => exact ⟨hN, .refused hf (hfound (hop _ hf) he) hr.toMap⟩
  | listed hf => exact ⟨hN, .listed (reports_entries hs.distinct hf)⟩
  | @obtained client file e he =>
    obtain ⟨h1, h2⟩ := hsame (hop _ rfl) he
    have hname := name_of_find hN (hop file rfl) he
    rw [h2]
    refine ⟨h1, ?_⟩
    have hfile : e.file = ⟨file.name, e.toMap.content⟩ := by
      rw [← hname]
      rfl
    rw [hfile]
    exact .obtained (hfound (hop file rfl) he)
  | @existing client file e he =>
    obtain ⟨h1, h2⟩ := hsame (hop _ rfl) he
    rw [h2]
    refine ⟨h1, .existing ?_⟩
    rw [hfound (hop file rfl) he]
    rfl
  | @locked client file e he ho =>
    have hn := hop file rfl
    have hname : e.file.name = file.name := name_of_find hN hn he
    obtain ⟨h1, h2⟩ := hN.toMap_put_back (x := { e with owner := client }) hs.distinct hn hname
    rw [h2]
    exact ⟨h1, .locked (hfound hn he) ho⟩
  | @queued client file e he ho hc hw =>
    have hn := hop file rfl
    have hname : e.file.name = file.name := name_of_find hN hn he
    have hx : ({ e with waiting := e.waiting ++ [client] } : StoreEntry).file.name ∈ names :=
      hname ▸ hn
    rw [toMap_replace (x := { e with waiting := e.waiting ++ [client] }) hs.distinct he rfl rfl]
    exact ⟨hN.replace hx, .refused rfl (hfound hn he) ⟨ho, hc, Or.inl rfl⟩⟩
  | @unlocked client file e he ho =>
    have hn := hop file rfl
    have hname : e.file.name = file.name := name_of_find hN hn he
    obtain ⟨h1, h2⟩ := hN.toMap_put_back (x := handOff e) hs.distinct hn hname
    rw [h2]
    have hx : (handOff e).toMap = { e.toMap with owner := FileMap.nextOwner (granted e) } := by
      rw [nextOwner_granted]
      rfl
    rw [hx]
    exact ⟨h1, .unlocked (hfound hn he) ho⟩
  | @removed client file e gone s' he ho hr =>
    have hn := hop file rfl
    obtain ⟨hd, hcount⟩ := hs.erase_charge he (-(e.file.size : ℤ))
    have hrec := hcount.reclaim hr
    obtain rfl := reclaim_false hr
    have hN' : Named names ((s.erase (s.keyOf file.name)).charge (-(e.file.size : ℤ)) (-1)) :=
      ⟨hN.separate, (hN.erase (s.keyOf file.name)).mem⟩
    have hm : ((s.erase (s.keyOf file.name)).charge (-(e.file.size : ℤ)) (-1)).toMap = _ :=
      hN.toMap_erase hs.distinct hn
    have hnil : s'.toMap = Function.update s.toMap file.name none := by
      rw [hrec.toMap hd, hm]
      rfl
    rw [hnil]
    exact ⟨hrec.named hN', .removed (hfound hn he) ho⟩
  | @inserted client file lock gone s' he hr =>
    have hn := hop file rfl
    obtain ⟨hd, hcount⟩ :=
      hs.put_new (x := ⟨if lock then client else emptyOwner, file, false, []⟩) he file.size
    have hrec := hcount.reclaim hr
    obtain ⟨h1, h2⟩ := hN.toMap_put_back
      (x := ⟨if lock then client else emptyOwner, file, false, []⟩) hs.distinct hn rfl
    rw [hrec.toMap hd]
    exact ⟨hrec.named ⟨h1.separate, h1.mem⟩,
      .inserted (habsent hn he) h2 (reports_entries hd hrec.subset)⟩
  | @modified client file e gone s' he ho hb hr =>
    have hn := hop file rfl
    obtain ⟨hd, hcount⟩ := hs.put_charge (x := e.rewritten file) he rfl
      (file.size - e.file.size)
    have hrec := hcount.reclaim hr
    obtain ⟨h1, h2⟩ := hN.toMap_put_back (x := e.rewritten file) hs.distinct hn rfl
    rw [hrec.toMap hd]
    exact ⟨hrec.named ⟨h1.separate, h1.mem⟩,
      .modified (hfound hn he) ho h2 (reports_entries hd hrec.subset)⟩
  | @appended client file e gone s' he ho hb hr =>
    have hn := hop file rfl
    obtain ⟨hd, hcount⟩ := hs.put_charge (x := e.extended file) he
      (key_of_name he rfl) (file.size - (Store.appended e.file file).contentLen)
    have hrec := hcount.reclaim hr
    have hname : e.file.name = file.name := name_of_find hN hn he
    obtain ⟨h1, h2⟩ := hN.toMap_put_back (x := e.extended file)
      hs.distinct hn hname
    rw [hrec.toMap hd]
    exact ⟨hrec.named ⟨h1.separate, h1.mem⟩,
      .appended (hfound hn he) ho h2 (reports_entries hd hrec.subset)⟩
  | cleaned =>
    obtain ⟨h1, h2⟩ := handedOver_clean hs hN _ _
    exact ⟨h1, .cleaned h2.content h2.owner⟩

end Store

namespace FileSystem
variable {configs : FSConfig} {tr : List FsEvent} {e : FsEvent} {fs : FileSystem}

/-- The operation is addressed to a name of the given set, if to any. -/
def NamesIn (names : Set (List UInt8)) (_ : FileSystem) (e : FsEvent) : Prop :=
  ∀ file, e.1.file = some file → file.name ∈ names

theorem run_map {names : Set (List UInt8)}
    (hn : ∀ a ∈ names, ∀ b ∈ names,
      tableKey configs.tableSize (hashString a) = tableKey configs.tableSize (hashString b) → a = b)
    (h : Run (Guarded (NamesIn names) Step) (initializeFileSystem configs) tr fs) :
    fs.Valid ∧ fs.view.Named names ∧ Run FileMap.Step (fun _ => none) tr fs.view.toMap ∧
      fs.view.toMap.contents = history tr := by
  refine h.invariant_trace (I := fun tr fs => fs.Valid ∧ fs.view.Named names ∧
    Run FileMap.Step (fun _ => none) tr fs.view.toMap ∧ fs.view.toMap.contents = history tr)
    ⟨.start configs, ⟨hn, by simp [view, initializeFileSystem, Library.DoublyLinked.walk]⟩,
      .start, rfl⟩ ?_
  rintro tr fs e fs' ⟨hv, hN, hr, hc⟩ ⟨hg, hs⟩
  obtain ⟨hN', hm⟩ := (hs.effect hv.wf).mapStep hv.sound hN hg
  refine ⟨hv.step hs, hN', hr.next hm, ?_⟩
  rw [hm.contents_eq, hc, history, history, List.foldl_append]
  rfl

/-- In every run on names with different keys the store is a map from names to contents and
owners, its contents are the history of the run, and every operation answers accordingly. -/
theorem store_refines_map (h : Run Step (initializeFileSystem configs) (tr ++ [e]) fs)
    (hk : KeysSeparate configs.tableSize (tr ++ [e])) :
    Run FileMap.Step (fun _ => none) (tr ++ [e]) fs.view.toMap ∧
      fs.view.toMap.contents = history (tr ++ [e]) ∧ Agrees (history tr) e := by
  have hg : Run (Guarded (NamesIn {a | a ∈ namesOf (tr ++ [e])}) Step)
      (initializeFileSystem configs) (tr ++ [e]) fs := by
    refine h.guarded fun l hl fs file hf => ?_
    exact List.mem_filterMap.mpr ⟨l, hl, by rw [hf]; rfl⟩
  obtain ⟨-, -, hr, hc⟩ := run_map hk hg
  obtain ⟨fs₁, hg₁, hs⟩ := hg.last
  obtain ⟨hv₁, hN₁, -, hc₁⟩ := run_map hk hg₁
  have hm := ((hs.2.effect hv₁.wf).mapStep hv₁.sound hN₁ hs.1).2
  exact ⟨hr, hc, hc₁ ▸ hm.agrees⟩

/-- Client 4 appends two bytes to the file `a`. -/
def appendA : FsOperation := .append 4 ⟨[97], [1,2]⟩

/-- Besides `a` the file `b` is stored. -/
theorem store_refines_map_append :
    (filesAB.after appendA).view.toMap.contents =
        history [(createA, { res := 0 }), (createB, { res := 0 }), (appendA, { res := 0 })] ∧
      (filesAB.after appendA).view.toMap.contents [97] = some [1,2] ∧
      (filesAB.after appendA).view.toMap.contents [98] = some [] := by
  have hs := step_after filesAB appendA (by decide +kernel)
  have ho : filesAB.outcome appendA = { res := 0 } := by decide +kernel
  rw [ho] at hs
  have hk : KeysSeparate defaultConfigs.tableSize
      ([(createA, { res := 0 }), (createB, { res := 0 })] ++ [(appendA, { res := 0 })]) := by
    have hnames : namesOf ([(createA, { res := 0 }), (createB, { res := 0 })] ++
        [(appendA, { res := 0 })]) = [[97], [98], [97]] := rfl
    unfold KeysSeparate
    rw [hnames]
    decide +kernel
  exact ⟨(store_refines_map (run_filesAB.next hs) hk).2.1, by decide +kernel, by decide +kernel⟩

end FileSystem
end StorageServer.Server
