import StorageServer.Common.MurmurPreimage
import StorageServer.Server.Eviction
import StorageServer.Server.Names

/-! The depth limit of the ejection loop. With more slots than the documented 1'000'000 the cache
can hold more small files than the loop ejects at once, and the bytes do not come down to their
limit. -/
namespace StorageServer.Server
open Common Library.KeyedList Library.Runs

/-- 1'048'578 slots, the table of size `SMALL` and 8 MB. -/
def manySlots : FSConfig := ⟨3145732, depthLimit + 2, 8⟩

theorem admitted_manySlots : manySlots.Admitted :=
  ⟨by decide, by decide, 2, by decide, by decide⟩

/-- A file without content under the key `i`. -/
def small (i : ℕ) : FSFile := ⟨nameOfHash (.ofNat i), []⟩

/-- Client 4 owns it. -/
def smallEntry (i : ℕ) : StoreEntry := ⟨4, small i, false, []⟩

namespace Store

/-- The loop takes as many entries as it may if that is not enough. -/
theorem ejectOver_of_lt {bytesMax used : ℤ} (depth : ℕ) (es : List StoreEntry)
    (h : bytesMax + totalSize (es.take depth) < used) :
    ejectOver bytesMax depth used es = (es.take depth, es.drop depth) := by
  induction depth generalizing used es with
  | zero => rfl
  | succ depth ih =>
    cases es with
    | nil => rfl
    | cons e es =>
      rw [List.take_succ_cons, totalSize_cons] at h
      have hover : used > bytesMax := by omega
      have hrest : ejectOver bytesMax depth (used - e.file.size) es =
          (es.take depth, es.drop depth) := ih es (by omega)
      simp only [ejectOver, hover, if_true, hrest, List.take_succ_cons, List.drop_succ_cons]

/-! ### A cache of small files -/

def smallEntries (n : ℕ) : List StoreEntry := (List.range n).map smallEntry

theorem smallEntries_succ (n : ℕ) : smallEntries (n+1) = smallEntries n ++ [smallEntry n] := by
  rw [smallEntries, List.range_succ, List.map_append]
  rfl

theorem take_smallEntries {m n : ℕ} (h : m ≤ n) : (smallEntries n).take m = smallEntries m := by
  rw [smallEntries, ← List.map_take, List.take_range, Nat.min_eq_left h]
  rfl

theorem length_smallEntries (n : ℕ) : (smallEntries n).length = n := by simp [smallEntries]

theorem totalSize_smallEntries (n : ℕ) : totalSize (smallEntries n) = 4 * n := by
  induction n with
  | zero => rfl
  | succ n ih =>
    rw [smallEntries_succ, totalSize_append, ih, totalSize_cons, totalSize_nil]
    change 4 * n + (4 + 0) = _
    omega

/-- The store with `n` small files. -/
def filled (n : ℕ) : Store where
  tableSize := manySlots.tableSize
  slotMax := manySlots.maxFileCapacitySlot
  bytesMax := 8 * 1024 * 1024
  slotUsed := n
  bytesUsed := 4 * n
  entries := smallEntries n

theorem key_smallEntry {i n : ℕ} (h : i < 2^20 + 2) : (filled n).key (smallEntry i) = i := by
  change tableKey 3145732 (hashString (nameOfHash (.ofNat i))) = i
  rw [hashString_nameOfHash, tableKey, UInt32.toNat_ofNat_of_lt' (h.trans (by decide))]
  exact Nat.mod_eq_of_lt (by omega)

theorem lookup_smallEntries {i m : ℕ} (n : ℕ) (hm : m ≤ i) (hi : i < 2^20 + 2) :
    lookup (filled n).key i (smallEntries m) = none := by
  rw [lookup_eq_none]
  intro x hx hk
  obtain ⟨j, hj, rfl⟩ := List.mem_map.mp hx
  rw [List.mem_range] at hj
  rw [key_smallEntry (hj.trans_le hm |>.trans hi)] at hk
  omega

/-- Touching the last small file. -/
theorem touch_smallEntries {i : ℕ} (n : ℕ) (hi : i < 2^20 + 2) {x : StoreEntry}
    (hx : (filled n).key x = i) :
    touch (filled n).key x (smallEntries i) = smallEntries i ++ [x] := by
  rw [touch, hx, without_of_lookup_none (lookup_smallEntries n le_rfl hi)]

theorem step_filled {n : ℕ} (h : n < 2^20 + 2) :
    Store.Step (filled n) (.insert 4 (small n) true, ejected []) (filled (n+1)) := by
  have hkey : (filled n).key (smallEntry n) = n := key_smallEntry h
  have hfind : (filled n).find ((filled n).keyOf (small n).name) = none := by
    change lookup _ ((filled n).key (smallEntry n)) (smallEntries n) = none
    rw [hkey]
    exact lookup_smallEntries n le_rfl h
  have hput : ((filled n).put (smallEntry n)).charge (small n).size 1 = filled (n+1) := by
    have ht := touch_smallEntries n h hkey
    rw [← smallEntries_succ] at ht
    change { filled n with
      entries := touch (filled n).key (smallEntry n) (smallEntries n)
      bytesUsed := 4 * n + 4
      slotUsed := n + 1 } = filled (n+1)
    rw [ht]
    simp only [filled, Store.mk.injEq, true_and, and_true]
    exact ⟨by omega, by omega⟩
  have hfit : (filled (n+1)).bytesUsed ≤ (filled (n+1)).bytesMax := by
    change 4 * ((n + 1 : ℕ) : ℤ) ≤ 8 * 1024 * 1024
    omega
  have hslot : (filled (n+1)).slotUsed ≤ (filled (n+1)).slotMax := by
    change ((n + 1 : ℕ) : ℤ) ≤ 1024 * 1024 + 2
    omega
  have hreclaim : (filled (n+1)).reclaim true = some (filled (n+1), []) := by
    unfold reclaim
    dsimp only
    rw [ejectOver_of_le hfit, release_nil, if_neg (not_lt.mpr hslot)]
    exact if_pos rfl
  change Store.insert _ _ _ _ = _
  rw [Store.insert, hfind]
  change (((((filled n).put (smallEntry n)).charge (small n).size 1).reclaim true).map _) = _
  rw [hput, hreclaim]
  rfl

theorem run_filled {n : ℕ} (h : n ≤ 2^20 + 2) : ∃ tr, Run Store.Step (filled 0) tr (filled n) := by
  induction n with
  | zero => exact ⟨[], .start⟩
  | succ n ih =>
    obtain ⟨tr, hr⟩ := ih (Nat.le_of_succ_le h)
    exact ⟨_, hr.next (step_filled h)⟩

/-! ### One large file among them -/

/-- The file under the key `m` with a content of `n` bytes. -/
def large (m n : ℕ) : FSFile := ⟨nameOfHash (.ofNat m), List.replicate n 0⟩

theorem size_large (m n : ℕ) : (large m n).size = n + 4 :=
  congrArg (· + 4) List.length_replicate

/-- The store with the large file in the place of the last small one. -/
def crammed (m n : ℕ) : Store :=
  ((filled (m+1)).put ((smallEntry m).rewritten (large m n))).charge
    ((large m n).size - (smallEntry m).file.size) 0

section Large
variable {m n : ℕ}

theorem entries_crammed (hm : m < 2^20 + 2) : (crammed m n).entries =
    smallEntries m ++ [(smallEntry m).rewritten (large m n)] := by
  have hkey : (filled (m+1)).key (smallEntry m) = m := key_smallEntry hm
  have hx : (filled (m+1)).key ((smallEntry m).rewritten (large m n)) = m := hkey
  have hrest := without_of_lookup_none (lookup_smallEntries (m+1) le_rfl hm)
  rw [without] at hrest
  change touch _ _ (smallEntries (m+1)) = _
  rw [smallEntries_succ, touch, hx, without, List.filter_append, hrest,
    List.filter_cons_of_neg (by simp [hkey]), List.filter_nil, List.append_nil]

theorem find_large (hm : m < 2^20 + 2) :
    (filled (m+1)).find ((filled (m+1)).keyOf (large m n).name) = some (smallEntry m) := by
  have hkey : (filled (m+1)).key (smallEntry m) = m := key_smallEntry hm
  change lookup _ ((filled (m+1)).key (smallEntry m)) (smallEntries (m+1)) = _
  rw [hkey, smallEntries_succ, lookup_append, lookup_smallEntries _ le_rfl hm,
    lookup_cons_of_eq hkey]
  rfl

/-- All other files would have to go, which are more than the loop ejects. -/
theorem reclaim_crammed (hd : depthLimit < m) (hm : m < 2^20 + 2) (hn : n + 4 = 8*1024*1024) :
    ∃ s', (crammed m n).reclaim true = some (s',smallEntries depthLimit) ∧
      s'.bytesMax < s'.bytesUsed ∧ s'.entries ≠ [] := by
  have hused : (crammed m n).bytesUsed = 4 * (m + 1 : ℤ) + n := by
    change (4 * ((m + 1 : ℕ) : ℤ)) + (((large m n).size : ℤ) - (4 : ℕ)) = _
    rw [size_large]
    omega
  have htake : (crammed m n).entries.take depthLimit = smallEntries depthLimit := by
    rw [entries_crammed hm, List.take_append_of_le_length, take_smallEntries hd.le]
    rw [length_smallEntries]
    exact hd.le
  have hmax : (crammed m n).bytesMax = 8*1024*1024 := rfl
  have hsum := totalSize_smallEntries depthLimit
  have hover : ejectOver (crammed m n).bytesMax depthLimit (crammed m n).bytesUsed
      (crammed m n).entries = (smallEntries depthLimit, (crammed m n).entries.drop depthLimit) := by
    rw [← htake]
    refine ejectOver_of_lt _ _ ?_
    rw [htake, hsum, hused, hmax]
    omega
  have hkept : (crammed m n).entries.drop depthLimit ≠ [] := by
    rw [ne_eq, List.drop_eq_nil_iff, entries_crammed hm, List.length_append, length_smallEntries,
      List.length_singleton]
    omega
  set freed := (crammed m n).release (smallEntries depthLimit)
    ((crammed m n).entries.drop depthLimit) with hfreed
  have hslots : ¬ freed.slotUsed > freed.slotMax := by
    have hlimit : depthLimit = 2^20 := by decide
    change ¬ ((m + 1 : ℕ) : ℤ) + 0 - ((smallEntries depthLimit).length : ℕ) > 1024 * 1024 + 2
    rw [length_smallEntries]
    omega
  have hne : smallEntries depthLimit ≠ [] := by
    rw [ne_eq, ← List.length_eq_zero_iff, length_smallEntries]
    decide
  refine ⟨freed, ?_, ?_, hkept⟩
  · unfold reclaim
    rw [hover]
    dsimp only
    rw [← hfreed, if_neg hslots]
    simp [pass, hne]
  · change (crammed m n).bytesMax < (crammed m n).bytesUsed - (totalSize _ : ℕ)
    rw [hused, hsum, hmax]
    omega

theorem step_large (hd : depthLimit < m) (hm : m < 2^20 + 2) (hn : n + 4 = 8*1024*1024) :
    ∃ s', Store.Step (filled (m+1)) (.modify 4 (large m n),ejected (smallEntries depthLimit)) s' ∧
      s'.bytesMax < s'.bytesUsed ∧ s'.entries ≠ [] := by
  obtain ⟨s', hr, hrest⟩ := reclaim_crammed hd hm hn
  have hfits :
      ¬ (large m n).contentLen + (large m n).nameLen > toSize (filled (m+1)).bytesMax := by
    change ¬ (large m n).size > toSize (8*1024*1024)
    rw [size_large, hn]
    decide
  refine ⟨s', ?_, hrest⟩
  change Store.modify _ _ _ = _
  rw [Store.modify, find_large hm]
  dsimp only
  have howner : ¬ (smallEntry m).owner ≠ 4 := not_not.mpr rfl
  rw [if_neg howner, if_neg hfits]
  unfold crammed at hr
  rw [hr, Option.map_some]

end Large
end Store

namespace FileSystem

/-- What is ejected need not bring the bytes down to their limit. -/
theorem depth_limit_stops_ejection :
    ¬ ∀ configs, FSConfig.Admitted configs → ∀ tr fs,
      Run Step (initializeFileSystem configs) tr fs →
      ∀ op out fs', op.stores → Step fs (op,out) fs' → out.res = 0 →
        fs'.gCache.bytesUsed ≤ fs'.gCache.bytesMax ∨ fs'.view.entries = [] := by
  intro h
  obtain ⟨m, hd, hm⟩ : ∃ m, depthLimit < m ∧ m < 2^20 + 2 := ⟨depthLimit + 1, by decide, by decide⟩
  obtain ⟨n, hn⟩ : ∃ n, n + 4 = 8*1024*1024 := ⟨8*1024*1024 - 4, by decide⟩
  obtain ⟨tr, hfill⟩ := Store.run_filled hm
  have hstart : (initializeFileSystem manySlots).view = Store.filled 0 := by
    decide +kernel
  rw [← hstart] at hfill
  obtain ⟨fs, hr, hv, hview⟩ := run_of_view (.start manySlots) hfill
  obtain ⟨s', hstep, hover, hne⟩ := Store.step_large hd hm hn
  rw [← hview] at hstep
  obtain ⟨fs', hs, rfl⟩ := step_of_view hv hstep
  rcases h manySlots admitted_manySlots tr fs hr _ _ fs' rfl hs rfl with hfit | hnil
  · exact absurd hover (not_lt.mpr hfit)
  · exact hne hnil

end FileSystem
end StorageServer.Server
