import StorageServer.Library.Recency
import StorageServer.Server.StoreSteps

/-! The recency list and the table in every reachable state. The list read from the tail is the
order in which its entries were last touched; an entry is named by its key. -/
namespace StorageServer.Server
open Common Library.DoublyLinked Library.KeyedList Library.Recency Library.Runs

namespace Store
variable {s s' : Store} {k : ℕ} {e x : StoreEntry} {gone : List StoreEntry} {log : List ℕ}

/-- The keys that the loop of `fs_clean` unlocks. -/
def cleanTouches (client : ℤ) : List HashValue → Store → List ℕ
  | [], _ => []
  | filename::filenames, s =>
    let key := tableKey s.tableSize filename
    let r := s.innerUnlock client key
    (if r.2.res = 0 then [key] else []) ++ cleanTouches client filenames r.1

/-- The keys that a successful operation touches. -/
def touched (s : Store) : FsEvent → List ℕ
  | (.insert _ file _, out) | (.obtain _ file, out) | (.modify _ file, out)
  | (.append _ file, out) | (.exist _ file, out) | (.trylock _ file, out)
  | (.unlock _ file, out) => if out.res = 0 then [s.keyOf file.name] else []
  | (.clean client filenames, _) => s.cleanTouches client filenames
  | (.remove .., _) | (.obtainN .., _) => []

/-- The entries stand in the order of the log. -/
def Ordered (log : List ℕ) (s : Store) : Prop := InOrder log (s.entries.map s.key)

theorem Ordered.put (h : Ordered log s) (hk : s.key x = k) : Ordered (log ++ [k]) (s.put x) := by
  have ht := h.touch k
  subst hk
  have hm : (s.put x).entries.map s.key =
      (s.entries.map s.key).filter (· ≠ s.key x) ++ [s.key x] := map_touch
  rw [← hm] at ht
  exact ht

theorem Ordered.charge (h : Ordered log s) (bytes slots : ℤ) :
    Ordered log (s.charge bytes slots) := h

theorem Ordered.reclaim (h : Ordered log s) (hd : Distinct s.key s.entries)
    (hr : s.Reclaimed gone s') : Ordered log s' := by
  obtain ⟨⟨kept, hk, rfl⟩, -, -⟩ := hr
  unfold Ordered at h
  rw [Distinct] at hd
  rw [hk, List.map_append] at h hd
  exact h.of_append hd

theorem Ordered.cleanFiles (h : Ordered log s) (client : ℤ) (filenames : List HashValue) :
    Ordered (log ++ s.cleanTouches client filenames) (cleanFiles client filenames s).1 := by
  induction filenames generalizing s log with
  | nil =>
    rw [cleanTouches, List.append_nil]
    exact h
  | cons filename filenames ih =>
    simp only [cleanTouches, Store.cleanFiles]
    rw [← List.append_assoc]
    apply ih
    rcases s.innerUnlock_cases client (tableKey s.tableSize filename) with
      ⟨h1, h2, -⟩ | ⟨e, he, -, heq⟩
    · rw [h1, if_neg h2, List.append_nil]
      exact h
    · rw [heq, if_pos rfl]
      exact h.put (key_of_name he rfl)

theorem touched_of_ne {op : FsOperation} {out : FSOutcome} {file : FSFile}
    (hf : op.file = some file)
    (hr : out.res ≠ 0) : s.touched (op,out) = [] := by
  cases op with
  | remove => rfl
  | obtainN | clean => cases hf
  | insert | obtain | modify | append | exist | trylock | unlock => exact if_neg hr

theorem Effect.ordered {op : FsOperation} {out : FSOutcome} (h : Effect s op out s')
    (hs : s.Sound) (ho : Ordered log s) : Ordered (log ++ s.touched (op,out)) s' := by
  cases h with
  | present he =>
    rw [touched_of_ne rfl (by simp), List.append_nil]
    exact ho
  | missing hf hi he =>
    rw [touched_of_ne hf (by simp), List.append_nil]
    exact ho
  | refused hf he hr =>
    rw [touched_of_ne hf hr.ne_zero, List.append_nil]
    exact ho
  | listed =>
    change Ordered (log ++ []) s
    rwa [List.append_nil]
  | obtained he | existing he => exact ho.put (key_of_find he)
  | locked he => exact ho.put (key_of_name he rfl)
  | @queued client file e he =>
    rw [touched_of_ne rfl (by simp), List.append_nil, Ordered]
    have hm : (s.replace { e with waiting := e.waiting ++ [client] }).entries.map s.key =
        s.entries.map s.key := map_replace
    change InOrder log ((s.replace _).entries.map s.key)
    rw [hm]
    exact ho
  | unlocked he => exact ho.put (key_of_name he rfl)
  | @removed client file e gone s' he hown hr =>
    obtain ⟨hd, hc⟩ := hs.erase_charge he (-(e.file.size : ℤ))
    change Ordered (log ++ []) s'
    rw [List.append_nil]
    refine Ordered.reclaim ?_ hd (hc.reclaim hr)
    have hm : (s.erase (s.keyOf file.name)).entries.map s.key =
        (s.entries.map s.key).filter (· ≠ s.keyOf file.name) := map_without
    change InOrder log ((s.erase _).entries.map s.key)
    rw [hm]
    exact ho.filter _
  | @inserted client file lock gone s' he hr =>
    obtain ⟨hd, hc⟩ :=
      hs.put_new (x := ⟨if lock then client else emptyOwner, file, false, []⟩) he file.size
    have hput := ho.put (x := ⟨if lock then client else emptyOwner, file, false, []⟩) rfl
    exact (hput.charge _ _).reclaim hd (hc.reclaim hr)
  | @modified client file e gone s' he hown hb hr =>
    obtain ⟨hd, hc⟩ := hs.put_charge (x := e.rewritten file) he rfl
      (file.size - e.file.size)
    exact ((ho.put (x := e.rewritten file) rfl).charge _ _).reclaim hd (hc.reclaim hr)
  | @appended client file e gone s' he hown hb hr =>
    obtain ⟨hd, hc⟩ := hs.put_charge (x := e.extended file) he
      (key_of_name he rfl) (file.size - (Store.appended e.file file).contentLen)
    exact ((ho.put (x := e.extended file)
      (key_of_name he rfl)).charge _ _).reclaim hd (hc.reclaim hr)
  | cleaned => exact ho.cleanFiles _ _

end Store

namespace FileSystem
variable {fs : FileSystem} {ps : List Ptr}

def logTouches (log : List ℕ) (fs : FileSystem) (e : FsEvent) : List ℕ := log ++ fs.view.touched e

/-- A step together with the log of the keys touched so far. -/
def LoggedStep : FileSystem × List ℕ → FsEvent → FileSystem × List ℕ → Prop :=
  Recorded logTouches Step

theorem Shape.head_none_iff (h : Shape fs ps) : fs.gCache.head = none ↔ ps = [] := by
  rw [h.head, List.getLast?_eq_none_iff]

theorem Shape.tail_none_iff (h : Shape fs ps) : fs.gCache.tail = none ↔ ps = [] := by
  rw [h.tail, List.head?_eq_none_iff]

/-- The keys of the listed entries, the oldest first. -/
def keys (fs : FileSystem) (ps : List Ptr) : List ℕ :=
  ps.map (fun p => fs.getKey (fs.memory p).file)

theorem Shape.keys_eq (h : Shape fs ps) : fs.view.entries.map fs.view.key = fs.keys ps := by
  rw [h.entries, List.map_map]
  rfl

theorem Shape.table_iff (h : Shape fs ps) (k : ℕ) :
    (fs.gHashmap k).isSome ↔ ∃! p, p ∈ ps ∧ fs.getKey (fs.memory p).file = k := by
  rw [Option.isSome_iff_exists]
  constructor
  · rintro ⟨p, hp⟩
    exact ⟨p, (h.table k p).mp hp, fun q hq => h.key_unique hp hq.1 hq.2⟩
  · rintro ⟨p, hp, -⟩
    exact ⟨p, (h.table k p).mpr hp⟩

/-- The list, its two ends, the table and the order of the last touches. -/
structure Threaded (fs : FileSystem) (log : List ℕ) (ps : List Ptr) : Prop where
  from_head : Visits fs.preOf fs.gCache.head ps.reverse
  from_tail : Visits fs.nexOf fs.gCache.tail ps
  nodup : ps.Nodup
  head_iff : fs.gCache.head = none ↔ fs.gCache.tail = none
  tail_iff : fs.gCache.tail = none ↔ ps = []
  table : ∀ k, (fs.gHashmap k).isSome ↔ ∃! p, p ∈ ps ∧ fs.getKey (fs.memory p).file = k
  points : ∀ k p, fs.gHashmap k = some p → p ∈ ps ∧ fs.getKey (fs.memory p).file = k
  order : fs.keys ps = recency log (fs.keys ps)

/-- In every reachable state the two links visit the same entries in opposite orders, the table
points to exactly these, and the list from the tail is the order of their last touches. -/
theorem structure_and_recency {configs : FSConfig} {tr : List FsEvent} {log : List ℕ}
    (h : Run LoggedStep (initializeFileSystem configs, []) tr (fs,log)) :
    ∃ ps, Threaded fs log ps := by
  obtain ⟨⟨⟨ps, hs⟩, -⟩, ho⟩ := h.invariant (I := fun a => a.1.Valid ∧ a.1.view.Ordered a.2)
    ⟨.start configs, rfl⟩ (by
      rintro ⟨fs, log⟩ e ⟨fs', log'⟩ ⟨hv, ho⟩ ⟨hs, rfl⟩
      exact ⟨hv.step hs, (hs.effect hv.wf).ordered hv.sound ho⟩)
  refine ⟨ps, hs.head ▸ hs.linked.visits_pre, hs.tail ▸ hs.linked.visits_nex, hs.nodup,
    hs.head_none_iff.trans hs.tail_none_iff.symm, hs.tail_none_iff, hs.table_iff,
    fun k p hp => (hs.table k p).mp hp, ?_⟩
  rw [← hs.keys_eq]
  exact ho

/-- Client 5 reads the file `a`. -/
def obtainA : FsOperation := .obtain 5 ⟨[97], []⟩

/-- Reading `a` moves it in front of `b`, which was created after it. -/
theorem structure_and_recency_obtain :
    ∃ log ps, Threaded (filesAB.after obtainA) log ps ∧
      filesAB.view.entries.map (fun e => e.file.name) = [[97], [98]] ∧
      (filesAB.after obtainA).view.entries.map (fun e => e.file.name) = [[98], [97]] := by
  have hs := step_after filesAB obtainA (by decide +kernel)
  obtain ⟨log, hlog⟩ := (run_filesAB.next hs).recorded logTouches []
  obtain ⟨ps, hps⟩ := structure_and_recency hlog
  exact ⟨log, ps, hps, by decide +kernel, by decide +kernel⟩

end FileSystem
end StorageServer.Server
