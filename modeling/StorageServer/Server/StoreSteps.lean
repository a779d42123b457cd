import StorageServer.Server.Refinement

/-! What the operations do to the store, said once: one case for each branch, with the guards
that lead to it, and what bringing the store back within its limits gives away. -/
namespace StorageServer.Server
open Common Library.KeyedList Library.Runs

namespace Store
variable {s s' : Store} {k : ℕ} {e x : StoreEntry} {es gone kept : List StoreEntry}

/-! ### What is found under a key -/

@[simp] theorem keyOf_put (s : Store) (e : StoreEntry) : (s.put e).keyOf = s.keyOf := rfl
@[simp] theorem keyOf_replace (s : Store) (e : StoreEntry) : (s.replace e).keyOf = s.keyOf := rfl
@[simp] theorem keyOf_erase (s : Store) (k : ℕ) : (s.erase k).keyOf = s.keyOf := rfl
@[simp] theorem keyOf_charge (s : Store) (b n : ℤ) : (s.charge b n).keyOf = s.keyOf := rfl
@[simp] theorem keyOf_release (s : Store) (gone kept : List StoreEntry) :
    (s.release gone kept).keyOf = s.keyOf := rfl

@[simp] theorem find_charge (s : Store) (b n : ℤ) : (s.charge b n).find = s.find := rfl

theorem key_of_find (h : s.find k = some e) : s.key e = k := key_of_lookup h

/-- Changing an entry without changing its name keeps its key. -/
theorem key_of_name (h : s.find k = some e) (hn : x.file.name = e.file.name) : s.key x = k := by
  rw [← key_of_find h]
  exact congrArg s.keyOf hn

theorem distinct_names (h : Distinct s.key s.entries) :
    Distinct (fun e : StoreEntry => e.file.name) s.entries := by
  refine List.Nodup.map_on (fun x hx y hy hxy => ?_) h.of_map
  exact h.eq_of_key hx hy (congrArg s.keyOf hxy)

theorem mem_of_find (h : s.find k = some e) : e ∈ s.entries := mem_of_lookup h

theorem find_put_self (h : s.key e = k) : (s.put e).find k = some e := by
  subst h
  exact lookup_touch_self

theorem find_put_of_ne (h : k ≠ s.key e) : (s.put e).find k = s.find k := lookup_touch_of_ne h

theorem find_replace_self (hx : s.find k = some x) (h : s.key e = k) :
    (s.replace e).find k = some e := by
  subst h
  exact lookup_replace_self hx

theorem find_replace_of_ne (h : k ≠ s.key e) : (s.replace e).find k = s.find k :=
  lookup_replace_of_ne h

theorem find_erase_self : (s.erase k).find k = none := lookup_without_self

theorem find_erase_of_ne {k' : ℕ} (h : k ≠ k') : (s.erase k').find k = s.find k :=
  lookup_without_of_ne h

/-- What is still found after the entries `gone` have left. -/
theorem find_release (h : Distinct s.key (gone ++ kept)) (he : s.entries = gone ++ kept) :
    (s.release gone kept).find k = if ∃ x ∈ gone, s.key x = k then none else s.find k := by
  have hd : lookup s.key k kept = _ := h.lookup_drop
  rw [← he] at hd
  change lookup s.key k kept = _
  rw [hd]
  congr 1
  rw [Option.isSome_iff_exists, eq_iff_iff]
  constructor
  · rintro ⟨x, hx⟩
    exact ⟨x, mem_of_lookup hx, key_of_lookup hx⟩
  · rintro ⟨x, hx, hk⟩
    rw [← Option.isSome_iff_exists, Option.isSome_iff_ne_none]
    exact fun hn => lookup_eq_none.mp hn x hx hk

/-! ### Bringing the store back within its limits -/

theorem ejectOver_spec (bytesMax : ℤ) (depth : ℕ) (used : ℤ) (es : List StoreEntry) :
    (ejectOver bytesMax depth used es).1 ++ (ejectOver bytesMax depth used es).2 = es ∧
      (used - totalSize (ejectOver bytesMax depth used es).1 ≤ bytesMax ∨
        (ejectOver bytesMax depth used es).2 = es.drop depth) := by
  induction depth generalizing used es with
  | zero => exact ⟨rfl, Or.inr rfl⟩
  | succ depth ih =>
    cases es with
    | nil => exact ⟨rfl, Or.inr rfl⟩
    | cons e es =>
      by_cases h : used > bytesMax
      · obtain ⟨h1, h2⟩ := ih (used - e.file.size) es
        simp only [ejectOver, h, if_true, List.cons_append, h1, List.drop_succ_cons, true_and]
        refine h2.imp_left fun h2 => ?_
        have hsum : totalSize (e :: (ejectOver bytesMax depth (used - e.file.size) es).1) =
          e.file.size + totalSize (ejectOver bytesMax depth (used - e.file.size) es).1 := rfl
        rw [hsum]
        omega
      · rw [ejectOver_of_le (not_lt.mp h)]
        exact ⟨rfl, Or.inl (by simpa [totalSize] using h)⟩

/-- The slot counter counts the entries and one entry at most is too many. -/
structure Countable (s : Store) : Prop where
  slots_eq : s.slotUsed = s.entries.length
  slots_le : s.slotUsed ≤ max s.slotMax 0 + 1

/-- How a store looks after it has given the entries `gone` away. -/
structure Reclaimed (s : Store) (gone : List StoreEntry) (s' : Store) : Prop where
  split : ∃ kept, s.entries = gone ++ kept ∧ s' = s.release gone kept
  slots_le : s'.slotUsed ≤ max s.slotMax 0
  bytes_le : s'.bytesUsed ≤ s.bytesMax ∨ s'.entries = s.entries.drop depthLimit

/-- The two branches of the ejection never both take entries out: either the byte loop has ejected
all that leave, or it has ejected nothing and the oldest entry leaves for its slot. -/
theorem Countable.reclaim_cases (h : s.Countable) {outs : Bool}
    (hr : s.reclaim outs = some (s', gone)) :
    (∃ kept, ejectOver s.bytesMax depthLimit s.bytesUsed s.entries = (gone, kept) ∧
        (kept.length : ℤ) ≤ s.slotMax ∧ s' = s.release gone kept) ∨
      ∃ e kept, s.entries = e :: kept ∧ s.bytesUsed ≤ s.bytesMax ∧ s.slotMax < s.slotUsed ∧
        gone = [e] ∧ s' = s.release [e] kept := by
  obtain ⟨hsplit, hbytes⟩ := ejectOver_spec s.bytesMax depthLimit s.bytesUsed s.entries
  unfold Store.reclaim at hr
  dsimp only at hr
  generalize ejectOver s.bytesMax depthLimit s.bytesUsed s.entries = r at hsplit hbytes hr ⊢
  obtain ⟨gone₁, kept⟩ := r
  dsimp only at hsplit hbytes hr
  have hlen : s.entries.length = gone₁.length + kept.length := by
    rw [← hsplit, List.length_append]
  have hslots : (s.release gone₁ kept).slotUsed = kept.length := by
    change s.slotUsed - gone₁.length = _
    rw [h.slots_eq, hlen]
    omega
  have hle := h.slots_le
  rw [h.slots_eq, hlen] at hle
  rw [hslots] at hr
  split_ifs at hr with hover
  · change (kept.length : ℤ) > s.slotMax at hover
    right
    cases kept with
    | nil => cases hr
    | cons e kept =>
      -- one entry too many, so the byte branch has taken none
      have hnil : gone₁ = [] := by
        rw [← List.length_eq_zero_iff]
        simp only [List.length_cons] at hover hle
        omega
      subst hnil
      change pass outs _ [e] = _ at hr
      have hfit : s.bytesUsed ≤ s.bytesMax := by
        refine hbytes.elim (by simpa [totalSize] using ·) fun hd => ?_
        have := congrArg List.length hd
        have hpos : 0 < depthLimit := by decide
        rw [List.length_drop, ← hsplit, List.nil_append, List.length_cons] at this
        omega
      cases outs with
      | false => simp [pass] at hr
      | true =>
        simp only [pass, List.cons_ne_nil, if_false, if_true, Option.some.injEq,
          Prod.mk.injEq] at hr
        obtain ⟨rfl, rfl⟩ := hr
        rw [release_release]
        rw [List.length_nil, Nat.zero_add] at hlen
        refine ⟨e, kept, hsplit.symm, hfit, ?_, rfl, rfl⟩
        rw [h.slots_eq, hlen]
        exact hover
  · change ¬ (kept.length : ℤ) > s.slotMax at hover
    have hg : s' = s.release gone₁ kept ∧ gone = gone₁ := by
      unfold pass at hr
      split_ifs at hr with h1 h2
      · cases hr
        exact ⟨rfl, h1.symm⟩
      · cases hr
        exact ⟨rfl, rfl⟩
    obtain ⟨rfl, rfl⟩ := hg
    exact Or.inl ⟨kept, rfl, not_lt.mp hover, rfl⟩

/-- Nothing is lost when a store is brought back within its limits. -/
theorem Countable.reclaim (h : s.Countable) {outs : Bool}
    (hr : s.reclaim outs = some (s', gone)) : s.Reclaimed gone s' := by
  have hle := h.slots_le
  obtain ⟨kept, he, hslots, rfl⟩ | ⟨e, kept, he, hfit, -, rfl, rfl⟩ := h.reclaim_cases hr
  · obtain ⟨hsplit, hbytes⟩ := ejectOver_spec s.bytesMax depthLimit s.bytesUsed s.entries
    rw [he] at hsplit hbytes
    refine ⟨⟨kept, hsplit.symm, rfl⟩, ?_, hbytes⟩
    change s.slotUsed - gone.length ≤ _
    have hlen : s.entries.length = gone.length + kept.length := by
      rw [← hsplit, List.length_append]
    rw [h.slots_eq, hlen]
    omega
  · refine ⟨⟨kept, he, rfl⟩, ?_, Or.inl ?_⟩
    · change s.slotUsed - 1 ≤ _
      omega
    · change s.bytesUsed - _ ≤ _
      omega

/-! ### What one operation does -/

/-- The reasons for which an operation on a stored file is refused. -/
def Refuses (s : Store) (e : StoreEntry) : FsOperation → ℤ → Prop
  | .remove client _, r | .unlock client _, r => e.owner ≠ client ∧ r = fsClientNotAllowed
  | .modify client file, r =>
    e.owner ≠ client ∧ r = fsClientNotAllowed ∨
      e.owner = client ∧ file.size > toSize s.bytesMax ∧ r = fsFileTooBig
  | .append client file, r =>
    e.owner ≠ client ∧ e.owner ≠ emptyOwner ∧ r = fsClientNotAllowed ∨
      (e.owner = client ∨ e.owner = emptyOwner) ∧
        file.size + e.file.contentLen > toSize s.bytesMax ∧ r = fsFileTooBig
  | .trylock client _, r =>
    e.owner ≠ emptyOwner ∧ e.owner ≠ client ∧ maxClientWaitingOnLock ≤ e.waiting.length ∧
      r = fsClientNotAllowed
  | _, _ => False

theorem Refuses.ne_zero {op : FsOperation} {r : ℤ} (h : s.Refuses e op r) : r ≠ 0 := by
  cases op with
  | insert | obtain | obtainN | exist | clean => exact h.elim
  | remove | unlock => simp [h.2]
  | modify => rcases h with ⟨-, rfl⟩ | ⟨-, -, rfl⟩ <;> decide
  | append => rcases h with ⟨-, -, rfl⟩ | ⟨-, -, rfl⟩ <;> decide
  | trylock => simp [h.2.2.2]

/-- The branches of the operations, with their guards and effects. -/
inductive Effect (s : Store) : FsOperation → FSOutcome → Store → Prop
  | present {client file lock e} (he : s.find (s.keyOf file.name) = some e) :
    Effect s (.insert client file lock) { res := fsFileAlreadyExists } s
  | missing {op file} (hf : op.file = some file) (hi : ∀ client lock, op ≠ .insert client file lock)
      (he : s.find (s.keyOf file.name) = none) : Effect s op { res := fsFileNotExists } s
  | refused {op file e r} (hf : op.file = some file) (he : s.find (s.keyOf file.name) = some e)
      (hr : s.Refuses e op r) : Effect s op { res := r } s
  | listed {client n rand outFiles} (hf : outFiles ⊆ s.entries.map StoreEntry.file) :
    Effect s (.obtainN client n rand) { res := 0, outFiles := outFiles } s
  | obtained {client file e} (he : s.find (s.keyOf file.name) = some e) :
    Effect s (.obtain client file) { res := 0, outFiles := [e.file] } (s.put e)
  | existing {client file e} (he : s.find (s.keyOf file.name) = some e) :
    Effect s (.exist client file) { res := 0 } (s.put e)
  | locked {client file e} (he : s.find (s.keyOf file.name) = some e)
      (ho : e.owner = emptyOwner ∨ e.owner = client) :
    Effect s (.trylock client file) { res := 0 } (s.put { e with owner := client })
  | queued {client file e} (he : s.find (s.keyOf file.name) = some e) (ho : e.owner ≠ emptyOwner)
      (hc : e.owner ≠ client) (hw : e.waiting.length < maxClientWaitingOnLock) :
    Effect s (.trylock client file) { res := fsClientWaitingOnLock }
      (s.replace { e with waiting := e.waiting ++ [client] })
  | unlocked {client file e} (he : s.find (s.keyOf file.name) = some e) (ho : e.owner = client) :
    Effect s (.unlock client file) { res := 0, issued := granted e } (s.put (handOff e))
  | removed {client file e gone s'} (he : s.find (s.keyOf file.name) = some e)
      (ho : e.owner = client)
      (hr : ((s.erase (s.keyOf file.name)).charge (-e.file.size) (-1)).reclaim false =
        some (s', gone)) :
    Effect s (.remove client file) { res := 0, issued := e.farewell } s'
  | inserted {client file lock gone s'} (he : s.find (s.keyOf file.name) = none)
      (hr : ((s.put ⟨if lock then client else emptyOwner, file, false, []⟩).charge
        file.size 1).reclaim true = some (s', gone)) :
    Effect s (.insert client file lock) (ejected gone) s'
  | modified {client file e gone s'} (he : s.find (s.keyOf file.name) = some e)
      (ho : e.owner = client) (hb : file.size ≤ toSize s.bytesMax)
      (hr : ((s.put (e.rewritten file)).charge (file.size - e.file.size) 0).reclaim true =
        some (s', gone)) :
    Effect s (.modify client file) (ejected gone) s'
  | appended {client file e gone s'} (he : s.find (s.keyOf file.name) = some e)
      (ho : e.owner = client ∨ e.owner = emptyOwner)
      (hb : file.size + e.file.contentLen ≤ toSize s.bytesMax)
      (hr : ((s.put (e.extended file)).charge
        (file.size - (Store.appended e.file file).contentLen) 0).reclaim true = some (s', gone)) :
    Effect s (.append client file) (ejected gone) s'
  | cleaned {client filenames} :
    Effect s (.clean client filenames) (s.clean client filenames).2 (s.clean client filenames).1

theorem pickIndexes_subset (cacheIndex : ℕ) (indexes : List ℕ) (files : List FSFile) :
    FileSystem.pickIndexes cacheIndex indexes files ⊆ files := by
  fun_induction FileSystem.pickIndexes with
  | case1 => simp
  | case2 => simp
  | case3 index indexes file files ih => exact List.cons_subset_cons _ ih
  | case4 cacheIndex index indexes file files h ih => exact List.subset_cons_of_subset _ ih

/-- Every step of the store is one of the branches. -/
theorem Step.effect {op : FsOperation} {out : FSOutcome} (h : Store.Step s (op,out) s') :
    Effect s op out s' := by
  unfold Store.Step at h
  cases op with
  | insert client file lock =>
    simp only [Store.apply, Store.insert] at h
    split at h
    next e he => cases h; exact .present he
    next he =>
      obtain ⟨⟨s₁, gone⟩, hr, ht⟩ := Option.map_eq_some_iff.mp h
      cases ht
      exact .inserted he hr
  | remove client file =>
    simp only [Store.apply, Store.remove] at h
    split at h
    next he => cases h; exact .missing rfl (by simp) he
    next e he =>
      split_ifs at h with ho
      · cases h
        exact .refused rfl he ⟨ho, rfl⟩
      · obtain ⟨⟨s₁, gone⟩, hr, ht⟩ := Option.map_eq_some_iff.mp h
        cases ht
        exact .removed he (not_not.mp ho) hr
  | obtain client file =>
    simp only [Store.apply, Store.obtain] at h
    split at h
    next he => cases h; exact .missing rfl (by simp) he
    next e he => cases h; exact .obtained he
  | obtainN client n rand =>
    simp only [Store.apply, Store.obtainN] at h
    have hnew : ∀ m : ℕ, (s.entries.reverse.take m).map StoreEntry.file ⊆
        s.entries.map StoreEntry.file := by
      intro m f hf
      obtain ⟨e, he, rfl⟩ := List.mem_map.mp hf
      exact List.mem_map_of_mem (List.mem_reverse.mp (List.mem_of_mem_take he))
    split_ifs at h
    · cases h
      exact .listed (hnew _)
    · cases h
      exact .listed (pickIndexes_subset _ _ _)
    · cases h
      exact .listed (hnew _)
    · cases h
      exact .listed (pickIndexes_subset _ _ _)
  | modify client file =>
    simp only [Store.apply, Store.modify] at h
    split at h
    next he => cases h; exact .missing rfl (by simp) he
    next e he =>
      split_ifs at h with ho hb
      · cases h
        exact .refused rfl he (Or.inl ⟨ho, rfl⟩)
      · cases h
        exact .refused rfl he (Or.inr ⟨not_not.mp ho, hb, rfl⟩)
      · obtain ⟨⟨s₁, gone⟩, hr, ht⟩ := Option.map_eq_some_iff.mp h
        cases ht
        exact .modified he (not_not.mp ho) (not_lt.mp hb) hr
  | append client file =>
    simp only [Store.apply, Store.append] at h
    split at h
    next he => cases h; exact .missing rfl (by simp) he
    next e he =>
      split_ifs at h with ho hb
      · cases h
        exact .refused rfl he (Or.inl ⟨ho.1, ho.2, rfl⟩)
      · cases h
        exact .refused rfl he (Or.inr ⟨by tauto, hb, rfl⟩)
      · obtain ⟨⟨s₁, gone⟩, hr, ht⟩ := Option.map_eq_some_iff.mp h
        cases ht
        exact .appended he (by tauto) (not_lt.mp hb) hr
  | trylock client file =>
    simp only [Store.apply, Store.trylock] at h
    split at h
    next he => cases h; exact .missing rfl (by simp) he
    next e he =>
      split_ifs at h with ho hw
      · cases h
        exact .queued he ho.1 ho.2 hw
      · cases h
        exact .refused rfl he ⟨ho.1, ho.2, not_lt.mp hw, rfl⟩
      · cases h
        exact .locked he (by tauto)
  | exist client file =>
    simp only [Store.apply, Store.exist] at h
    split at h
    next he => cases h; exact .missing rfl (by simp) he
    next e he => cases h; exact .existing he
  | unlock client file =>
    simp only [Store.apply, Store.innerUnlock] at h
    split at h
    next he => cases h; exact .missing rfl (by simp) he
    next e he =>
      split_ifs at h with ho
      · cases h
        exact .refused rfl he ⟨ho, rfl⟩
      · cases h
        exact .unlocked he (not_not.mp ho)
  | clean client filenames =>
    cases h
    exact .cleaned

/-! ### Cleaning up after a client -/

/-- Unlocking under a key either does nothing or hands the file on. -/
theorem innerUnlock_cases (s : Store) (client : ℤ) (k : ℕ) :
    (s.innerUnlock client k).1 = s ∧ (s.innerUnlock client k).2.res ≠ 0 ∧
        (s.innerUnlock client k).2.issued = [] ∨
      ∃ e, s.find k = some e ∧ e.owner = client ∧
        s.innerUnlock client k = (s.put (handOff e), { res := 0, issued := granted e }) := by
  unfold Store.innerUnlock
  split
  next => exact Or.inl ⟨rfl, by simp, rfl⟩
  next e he =>
    by_cases ho : e.owner = client
    · exact Or.inr ⟨e, he, ho, by simp [ho]⟩
    · left
      rw [if_pos ho]
      exact ⟨rfl, by simp, rfl⟩

/-- What every hand-over keeps, given the notifications issued so far, the loop keeps. -/
theorem cleanFiles_rule (I : Store → List FSLockNotification → Prop) (client : ℤ)
    (hs : ∀ {s issued k e}, I s issued → s.find k = some e → e.owner = client →
      I (s.put (handOff e)) (issued ++ granted e))
    (issued : List FSLockNotification) (h : I s issued) (filenames : List HashValue) :
    I (cleanFiles client filenames s).1 (issued ++ (cleanFiles client filenames s).2) := by
  induction filenames generalizing s issued with
  | nil => simpa [cleanFiles] using h
  | cons filename filenames ih =>
    simp only [cleanFiles]
    rw [← List.append_assoc]
    apply ih
    rcases s.innerUnlock_cases client (tableKey s.tableSize filename) with
      ⟨h1, -, h3⟩ | ⟨e, he, ho, heq⟩
    · rw [h1, h3, List.append_nil]
      exact h
    · rw [heq]
      exact hs h he ho

/-! ### What holds in every reachable store -/

/-- The keys are distinct and the slot counter is right and within its limit. -/
structure Sound (s : Store) : Prop where
  distinct : Distinct s.key s.entries
  slots_eq : s.slotUsed = s.entries.length
  slots_le : s.slotUsed ≤ max s.slotMax 0

theorem Sound.find_iff (h : s.Sound) : s.find k = some e ↔ e ∈ s.entries ∧ s.key e = k :=
  h.distinct.lookup_eq_some

theorem length_put (h : Distinct s.key s.entries) (he : s.find k = some e) (hk : s.key x = k) :
    (s.put x).entries.length = s.entries.length := by
  rw [h.length_without he, ← hk]
  exact List.length_append

theorem length_put_new (he : s.find (s.key x) = none) :
    (s.put x).entries.length = s.entries.length + 1 := by
  have hw : without s.key (s.key x) s.entries = s.entries := without_of_lookup_none he
  change (without s.key (s.key x) s.entries ++ [x]).length = _
  rw [hw, List.length_append, List.length_singleton]

theorem Sound.put (h : s.Sound) (he : s.find k = some e) (hk : s.key x = k) :
    (s.put x).Sound where
  distinct := h.distinct.touch x
  slots_eq := by
    rw [length_put h.distinct he hk]
    exact h.slots_eq
  slots_le := h.slots_le

theorem Sound.replace (h : s.Sound) (x : StoreEntry) : (s.replace x).Sound where
  distinct := h.distinct.replace x
  slots_eq := by
    change s.slotUsed = ((Library.KeyedList.replace s.key x s.entries).length : ℕ)
    rw [Library.KeyedList.replace, List.length_map]
    exact h.slots_eq
  slots_le := h.slots_le

theorem Reclaimed.sound (hd : Distinct s.key s.entries) (hs : s.slotUsed = s.entries.length)
    (h : s.Reclaimed gone s') : s'.Sound := by
  obtain ⟨⟨kept, he, rfl⟩, hle, -⟩ := h
  refine ⟨?_, ?_, hle⟩
  · rw [he] at hd
    exact hd.of_append_right
  · change s.slotUsed - gone.length = kept.length
    rw [hs, he, List.length_append]
    omega

/-- A new entry may put one entry too many into the store. -/
theorem Sound.put_new (h : s.Sound) (he : s.find (s.key x) = none) (bytes : ℤ) :
    Distinct s.key ((s.put x).charge bytes 1).entries ∧ ((s.put x).charge bytes 1).Countable := by
  refine ⟨h.distinct.touch x, ?_, ?_⟩
  · change s.slotUsed + 1 = ((s.put x).entries.length : ℕ)
    rw [length_put_new he, h.slots_eq]
    rfl
  · exact Int.add_le_add_right h.slots_le 1

theorem Sound.put_charge (h : s.Sound) (he : s.find k = some e) (hk : s.key x = k) (bytes : ℤ) :
    Distinct s.key ((s.put x).charge bytes 0).entries ∧ ((s.put x).charge bytes 0).Countable := by
  have hp := h.put he hk
  refine ⟨hp.distinct, ?_, ?_⟩
  · change s.slotUsed + 0 = _
    rw [Int.add_zero]
    exact hp.slots_eq
  · change s.slotUsed + 0 ≤ _
    have := h.slots_le
    change _ ≤ max s.slotMax 0 + 1
    omega

theorem Sound.erase_charge (h : s.Sound) (he : s.find k = some e) (bytes : ℤ) :
    Distinct s.key ((s.erase k).charge bytes (-1)).entries ∧
      ((s.erase k).charge bytes (-1)).Countable := by
  have hl : s.entries.length = (s.erase k).entries.length + 1 := h.distinct.length_without he
  have hs := h.slots_eq
  have hle := h.slots_le
  refine ⟨h.distinct.without k, ?_, ?_⟩
  · change s.slotUsed + -1 = ((s.erase k).entries.length : ℕ)
    omega
  · change s.slotUsed + -1 ≤ max s.slotMax 0 + 1
    omega

/-- Without outputs nothing is given away. -/
theorem reclaim_false (hr : s.reclaim false = some (s', gone)) : gone = [] := by
  have hp : ∀ {t : Store} {es}, pass false t es = some (s', gone) → gone = [] := by
    intro t es h
    unfold pass at h
    split_ifs at h with h1 h2
    · cases h
      rfl
    · exact absurd h2 (by simp)
  unfold Store.reclaim at hr
  dsimp only at hr
  split_ifs at hr
  · split at hr
    · cases hr
    · exact hp hr
  · exact hp hr

theorem Effect.sound {op : FsOperation} {out : FSOutcome} (h : Effect s op out s')
    (hs : s.Sound) : s'.Sound := by
  cases h with
  | present | missing | refused | listed => exact hs
  | obtained he | existing he => exact hs.put he (key_of_find he)
  | locked he => exact hs.put he (key_of_name he rfl)
  | queued he => exact hs.replace _
  | unlocked he => exact hs.put he (key_of_name he rfl)
  | removed he ho hr =>
    obtain ⟨hd, hc⟩ := hs.erase_charge he _
    exact (hc.reclaim hr).sound hd hc.slots_eq
  | @inserted client file lock gone s' he hr =>
    obtain ⟨hd, hc⟩ :=
      hs.put_new (x := ⟨if lock then client else emptyOwner, file, false, []⟩) he file.size
    exact (hc.reclaim hr).sound hd hc.slots_eq
  | @modified client file e gone s' he ho hb hr =>
    obtain ⟨hd, hc⟩ := hs.put_charge (x := e.rewritten file) he rfl
      (file.size - e.file.size)
    exact (hc.reclaim hr).sound hd hc.slots_eq
  | @appended client file e gone s' he ho hb hr =>
    obtain ⟨hd, hc⟩ := hs.put_charge (x := e.extended file) he
      (key_of_name he rfl) (file.size - (Store.appended e.file file).contentLen)
    exact (hc.reclaim hr).sound hd hc.slots_eq
  | cleaned =>
    exact cleanFiles_rule (fun s _ => s.Sound) _ (fun h he _ => h.put he (key_of_name he rfl)) []
      hs _

theorem sound_start (configs : FSConfig) :
    (FileSystem.initializeFileSystem configs).view.Sound :=
  ⟨List.nodup_nil, rfl, le_max_right _ _⟩

end Store

/-- A step of the structure is a branch of the store that it stands for. -/
theorem FileSystem.Step.effect {fs fs' : FileSystem} {op : FsOperation} {out : FSOutcome}
    (hw : fs.WF) (h : FileSystem.Step fs (op,out) fs') : Store.Effect fs.view op out fs'.view :=
  Store.Step.effect (hw.apply h).2

/-- The shape of the structure and the soundness of its store, together. -/
structure FileSystem.Valid (fs : FileSystem) : Prop where
  wf : fs.WF
  sound : fs.view.Sound

theorem FileSystem.Valid.start (configs : FSConfig) :
    (FileSystem.initializeFileSystem configs).Valid :=
  ⟨.initializeFileSystem configs, Store.sound_start configs⟩

theorem FileSystem.Valid.step {fs fs' : FileSystem} {e : FsEvent} (h : fs.Valid)
    (hs : FileSystem.Step fs e fs') : fs'.Valid :=
  ⟨(h.wf.apply hs).1, (hs.effect h.wf).sound h.sound⟩

/-- What the store can do, the structure can do. -/
theorem FileSystem.step_of_view {fs : FileSystem} (hv : fs.Valid) {op : FsOperation} {st : Store}
    {out : FSOutcome} (h : fs.view.apply op = some (st,out)) :
    ∃ fs', FileSystem.Step fs (op,out) fs' ∧ fs'.view = st := by
  have hr := (FileSystem.apply_refines hv.wf op).view_eq
  rw [h, Option.map_eq_some_iff] at hr
  obtain ⟨⟨fs', out'⟩, ho, heq⟩ := hr
  cases heq
  exact ⟨fs', ho, rfl⟩

theorem FileSystem.run_of_view {fs : FileSystem} (hv : fs.Valid) {st : Store} {tr : List FsEvent}
    (h : Run Store.Step fs.view tr st) :
    ∃ fs', Run FileSystem.Step fs tr fs' ∧ fs'.Valid ∧ fs'.view = st := by
  refine h.simulate (R := fun s (fs : FileSystem) => fs.Valid ∧ fs.view = s)
    ⟨hv,rfl⟩ ?_
  rintro _ ⟨op, out⟩ _ fs ⟨hv, rfl⟩ hs
  obtain ⟨fs', hstep, hview⟩ := FileSystem.step_of_view hv hs
  exact ⟨fs', hstep, hv.step hstep, hview⟩

end StorageServer.Server
