import StorageServer.Server.RequestLog
import Mathlib.Data.List.Sort

/-! Reading some of the files, chosen at random. Whatever `rand` returns, the reservoir holds
different positions of the cache, and once these are sorted a single pass over the cache meets
each of them. -/
namespace StorageServer.Server
open Common Library.KeyedList Library.Runs

namespace FileSystem

/-- `n` different positions below `bound`. -/
structure Reservoir (n bound : ℕ) (indexes : List ℕ) : Prop where
  length : indexes.length = n
  nodup : indexes.Nodup
  lt : ∀ i ∈ indexes, i < bound

theorem Reservoir.start (n : ℕ) : Reservoir n n (List.range n) :=
  ⟨List.length_range, List.nodup_range, fun _ => List.mem_range.mp⟩

/-- The next position may take the place of another one. -/
theorem Reservoir.offer {n i : ℕ} {indexes : List ℕ} (h : Reservoir n i indexes) (m : ℕ) :
    Reservoir n (i + 1) (if m < n then indexes.set m i else indexes) := by
  have hlt : ∀ j ∈ indexes, j < i + 1 := fun j hj => (h.lt j hj).trans i.lt_succ_self
  split_ifs
  · refine ⟨(List.length_set ..).trans h.length, ?_, fun j hj => ?_⟩
    · exact h.nodup.set fun hi => (h.lt i hi).false
    · rcases List.mem_or_eq_of_mem_set hj with hj | rfl
      · exact hlt j hj
      · exact j.lt_succ_self
  · exact ⟨h.length, h.nodup, hlt⟩

/-- The loop over the later positions. -/
theorem Reservoir.offers {n i : ℕ} {indexes : List ℕ} (h : Reservoir n i indexes) (m : ℕ → ℕ)
    (k : ℕ) : Reservoir n (i + k) ((List.range' i k).foldl
      (fun indexes i => if m i < n then indexes.set (m i) i else indexes) indexes) := by
  induction k generalizing i indexes with
  | zero => exact h
  | succ k ih =>
    rw [List.range'_succ, List.foldl_cons, ← Nat.succ_add_eq_add_succ]
    exact ih (h.offer (m i))

theorem reservoir_spec {n bound : ℕ} (hn : n ≤ bound) (hmax : bound ≤ maxEjectedFilesAtSameTime)
    (rand : ℕ → ℕ) : Reservoir n bound (reservoir n bound rand) := by
  have h := (Reservoir.start n).offers (fun i => rand (i - n) % (i + 1)) (bound - n)
  rw [Nat.add_sub_cancel' hn] at h
  rw [reservoir, Nat.min_eq_left hmax]
  exact h

/-- One pass over the files meets every position of a sorted list. -/
theorem pickIndexes_map {cacheIndex : ℕ} {indexes : List ℕ} (es : List StoreEntry)
    (hs : indexes.Pairwise (· < ·)) (hge : ∀ i ∈ indexes, cacheIndex ≤ i)
    (hlt : ∀ i ∈ indexes, i < cacheIndex + es.length) :
    ∃ picked : List StoreEntry, picked.Sublist es ∧ picked.length = indexes.length ∧
      pickIndexes cacheIndex indexes (es.map StoreEntry.file) = picked.map StoreEntry.file := by
  induction es generalizing cacheIndex indexes with
  | nil =>
    cases indexes with
    | nil => exact ⟨[], List.Sublist.refl _, rfl, rfl⟩
    | cons i indexes =>
      have h1 := hge i List.mem_cons_self
      have h2 := hlt i List.mem_cons_self
      exact absurd h2 h1.not_gt
  | cons e es ih =>
    cases indexes with
    | nil => exact ⟨[], List.nil_sublist _, rfl, rfl⟩
    | cons i indexes =>
      obtain ⟨hi, hs'⟩ := List.pairwise_cons.mp hs
      rw [List.map_cons, pickIndexes]
      by_cases hc : cacheIndex = i
      · subst hc
        obtain ⟨picked, hsub, hlen, hpick⟩ := ih hs'
          (fun j hj => hi j hj) fun j hj => by
            have h := hlt j (List.mem_cons_of_mem _ hj)
            rw [List.length_cons] at h
            omega
        rw [if_pos rfl, hpick]
        exact ⟨e :: picked, hsub.cons_cons e, congrArg Nat.succ hlen, rfl⟩
      · have hlater : ∀ j ∈ i :: indexes, cacheIndex + 1 ≤ j ∧ j < cacheIndex + 1 + es.length := by
          intro j hj
          have h1 := hge i List.mem_cons_self
          have h2 := hlt j hj
          rw [List.length_cons] at h2
          rcases List.mem_cons.mp hj with rfl | hj
          · omega
          · have h3 := hi j hj
            omega
        obtain ⟨picked, hsub, hlen, hpick⟩ := ih hs (fun j hj => (hlater j hj).1)
          fun j hj => (hlater j hj).2
        rw [if_neg hc, hpick]
        exact ⟨picked, hsub.cons e, hlen, rfl⟩

/-- The sorted reservoir, as positions of a list. -/
theorem exists_picked {es : List StoreEntry} {n : ℕ} (hn : n ≤ es.length)
    (hmax : es.length ≤ maxEjectedFilesAtSameTime) (rand : ℕ → ℕ) :
    ∃ picked : List StoreEntry, picked.Sublist es ∧ picked.length = n ∧
      pickIndexes 0 ((reservoir n es.length rand).insertionSort (· ≤ ·))
        (es.map StoreEntry.file) = picked.map StoreEntry.file := by
  have hr := reservoir_spec hn hmax rand
  have hperm := List.perm_insertionSort (· ≤ ·) (reservoir n es.length rand)
  have hsorted : ((reservoir n es.length rand).insertionSort (· ≤ ·)).Pairwise (· < ·) := by
    have hle := List.pairwise_insertionSort (· ≤ ·) (reservoir n es.length rand)
    have hne : List.Pairwise (· ≠ ·) _ := hperm.nodup_iff.mpr hr.nodup
    exact (hle.and hne).imp fun h => lt_of_le_of_ne h.1 h.2
  obtain ⟨picked, hsub, hlen, hpick⟩ := pickIndexes_map es hsorted (fun _ _ => Nat.zero_le _)
    fun i hi => (Nat.zero_add es.length).symm ▸ hr.lt i (hperm.mem_iff.mp hi)
  exact ⟨picked, hsub, hlen.trans (hperm.length_eq.trans hr.length), hpick⟩

theorem fsObtainN_fst {fs fs' : FileSystem} {client n : ℤ} {rand : ℕ → ℕ} {out : FSOutcome}
    (h : fs.fsObtainN client n rand = some (fs', out)) : fs' = fs.increaseQueryCount := by
  unfold fsObtainN at h
  dsimp only at h
  split_ifs at h
  all_goals
    cases h
    rfl

end FileSystem

namespace Store
variable {s : Store}

/-- The files that are read are those of different entries, as many as there are or are asked
for. -/
theorem obtainN_spec (hs : s.slotUsed = s.entries.length)
    (hk : s.entries.length ≤ maxEjectedFilesAtSameTime) {n : ℤ} (hn : 0 ≤ n) (rand : ℕ → ℕ) :
    ∃ es : List StoreEntry, es.Subperm s.entries ∧
      es.length = (if n = 0 then s.entries.length else min n.toNat s.entries.length) ∧
      s.obtainN n rand = some (s, { res := 0, outFiles := es.map StoreEntry.file }) := by
  unfold obtainN
  rw [hs]
  dsimp only
  have hmax : min (s.entries.length : ℤ) maxEjectedFilesAtSameTime = s.entries.length :=
    min_eq_left (Int.ofNat_le.mpr hk)
  have hnew : s.entries.reverse.take s.entries.length = s.entries.reverse :=
    List.take_of_length_le (List.length_reverse).le
  by_cases h0 : n = 0
  · rw [if_neg (not_not.mpr h0), if_pos h0, hmax, if_neg (Int.natCast_nonneg _).not_gt,
      Int.toNat_natCast, hnew, if_pos h0]
    exact ⟨s.entries.reverse, s.entries.reverse_perm.subperm, List.length_reverse, rfl⟩
  · have hcap : min (min n s.entries.length) (maxEjectedFilesAtSameTime : ℤ) =
        (min n.toNat s.entries.length : ℕ) := by omega
    rw [if_pos h0, if_neg h0, hcap]
    by_cases hz : ((min n.toNat s.entries.length : ℕ) : ℤ) = 0
    · rw [if_pos hz, hmax, if_neg (Int.natCast_nonneg _).not_gt, Int.toNat_natCast, hnew]
      have hnil : s.entries = [] := by
        rw [← List.length_eq_zero_iff]
        omega
      refine ⟨[], List.nil_subperm, ?_, ?_⟩
      · simp [hnil]
      · simp [hnil]
    · rw [if_neg hz, if_neg (Int.natCast_nonneg _).not_gt, Int.toNat_natCast, Int.toNat_natCast]
      obtain ⟨es, hsub, hlen, hpick⟩ :=
        FileSystem.exists_picked (min_le_right n.toNat s.entries.length) hk rand
      rw [hpick]
      exact ⟨es, hsub.subperm, hlen, rfl⟩

end Store

namespace FileSystem

/-- In every reachable state with at most 2^20 files a request for `n` of them gets `n` different
ones, all if there are fewer or `n` is 0, and only the counter of the queries changes. -/
theorem random_read {configs : FSConfig} {tr : List FsEvent} {fs : FileSystem}
    (h : Run Step (initializeFileSystem configs) tr fs)
    (hk : fs.view.entries.length ≤ 2^20) (client : ℤ) {n : ℤ} (hn : 0 ≤ n) (rand : ℕ → ℕ) :
    ∃ es : List StoreEntry, es ⊆ fs.view.entries ∧ (es.map fun e => e.file.name).Nodup ∧
      es.length = (if n = 0 then fs.view.entries.length
        else min n.toNat fs.view.entries.length) ∧
      fs.fsObtainN client n rand =
        some (fs.increaseQueryCount, { res := 0, outFiles := es.map StoreEntry.file }) := by
  have hv : fs.Valid := h.invariant (.start configs) fun hv hs => hv.step hs
  have hslots : fs.gCache.slotUsed = fs.view.entries.length := hv.sound.slots_eq
  obtain ⟨es, hsub, hlen, hout⟩ := Store.obtainN_spec (s := fs.view) hslots hk hn rand
  have hnames : (fs.view.entries.map fun e => e.file.name).Nodup :=
    Store.distinct_names hv.sound.distinct
  refine ⟨es, hsub.subset, ?_, hlen, ?_⟩
  · obtain ⟨l, hperm, hsub⟩ := hsub
    exact (hperm.map _).nodup_iff.mp (hnames.sublist (hsub.map _))
  · have hsome : (fs.fsObtainN client n rand).isSome := by
      rw [fsObtainN_isSome_iff, obtainNCount_nonneg_iff (hslots ▸ Int.natCast_nonneg _)]
      exact hn
    obtain ⟨⟨fs', out⟩, hr⟩ := Option.isSome_iff_exists.mp hsome
    have happly : fs.apply (.obtainN client n rand) = some (fs', out) := hr
    have hview : fs.view.obtainN n rand = some (fs'.view, out) := (hv.wf.apply happly).2
    rw [hout] at hview
    rw [hr, fsObtainN_fst hr, ← (Prod.mk.inj (Option.some.inj hview)).2]

/-- Client 6 creates the file `c`. -/
def createC : FsOperation := .insert 6 ⟨[99], []⟩ false

/-- The store with the files `a`, `b` and `c`. -/
def filesABC : FileSystem := filesAB.after createC

/-- Two of the three files at random. -/
theorem random_read_two :
    ∃ es : List StoreEntry, es ⊆ filesABC.view.entries ∧
      (es.map fun e => e.file.name).Nodup ∧ es.length = 2 ∧ filesABC.view.entries.length = 3 ∧
      filesABC.fsObtainN 5 2 (fun i => i) =
        some (filesABC.increaseQueryCount, { res := 0, outFiles := es.map StoreEntry.file }) := by
  have h := run_filesAB.next (step_after filesAB createC (by decide +kernel))
  obtain ⟨es, hsub, hnodup, hlen, hout⟩ :=
    random_read h (by decide +kernel) 5 (by decide : (0 : ℤ) ≤ 2) (fun i => i)
  exact ⟨es, hsub, hnodup, hlen.trans (by decide +kernel), by decide +kernel, hout⟩

end FileSystem
end StorageServer.Server
