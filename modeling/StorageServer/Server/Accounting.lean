import StorageServer.Server.StoreSteps

/-! Byte accounting. The counter of used bytes is the sum over the stored files and stays within
the capacity as long as every append charges what it adds and the depth limit of the ejection
loop is not met. -/
namespace StorageServer.Server
open Common Library.KeyedList Library.Runs

namespace Store
variable {s s' : Store} {k : ℕ} {e x : StoreEntry} {gone : List StoreEntry}

/-- The ejection loop can free enough bytes before it meets its depth limit. -/
def DepthSuffices (s : Store) : Prop := (totalSize (s.entries.drop depthLimit) : ℤ) ≤ s.bytesMax

/-- An append discharges the whole new content, so it charges what it adds only when the name is
as long as the old and the added content together. -/
def ChargesExactly (s : Store) : FsOperation → Prop
  | .insert client file lock =>
    s.find (s.keyOf file.name) = none →
      (s.put ⟨if lock then client else emptyOwner, file, false, []⟩).DepthSuffices
  | .modify client file =>
    ∀ e, s.find (s.keyOf file.name) = some e → e.owner = client →
      file.size ≤ toSize s.bytesMax → (s.put (e.rewritten file)).DepthSuffices
  | .append client file =>
    ∀ e, s.find (s.keyOf file.name) = some e → (e.owner = client ∨ e.owner = emptyOwner) →
      file.size + e.file.contentLen ≤ toSize s.bytesMax →
      file.nameLen = e.file.contentLen + file.contentLen ∧
        (s.put (e.extended file)).DepthSuffices
  | _ => True

/-- The counter is exact and within the capacity. -/
structure Accounted (s : Store) : Prop where
  bytes_eq : s.bytesUsed = totalSize s.entries
  bytes_le : s.bytesUsed ≤ s.bytesMax

theorem totalSize_put (h : Distinct s.key s.entries) (he : s.find k = some e) (hk : s.key x = k) :
    totalSize (s.put x).entries + e.file.size = totalSize s.entries + x.file.size := by
  have hs := h.sum_without he (fun e => e.file.size)
  change totalSize (without s.key (s.key x) s.entries ++ [x]) + _ = _
  rw [totalSize_append, hk, totalSize_cons, totalSize_nil]
  unfold totalSize
  omega

theorem totalSize_put_new (he : s.find (s.key x) = none) :
    totalSize (s.put x).entries = totalSize s.entries + x.file.size := by
  have hw : without s.key (s.key x) s.entries = s.entries := without_of_lookup_none he
  change totalSize (without s.key (s.key x) s.entries ++ [x]) = _
  rw [hw, totalSize_append]
  rfl

theorem totalSize_erase (h : Distinct s.key s.entries) (he : s.find k = some e) :
    totalSize (s.erase k).entries + e.file.size = totalSize s.entries := by
  have hs := h.sum_without he (fun e => e.file.size)
  change totalSize (without s.key k s.entries) + _ = _
  rw [totalSize, totalSize, hs]
  omega

theorem totalSize_replace (hd : Distinct s.key s.entries) (he : s.find k = some e)
    (hk : s.key x = k) (hf : x.file = e.file) :
    totalSize (s.replace x).entries = totalSize s.entries := by
  refine congrArg List.sum (map_replace_of_eq fun y hy hyx => ?_)
  rw [hf, hd.eq_of_key hy (mem_of_find he) (by rw [hyx, hk, key_of_find he])]

theorem Accounted.put (ha : s.Accounted) (h : s.Sound) (he : s.find k = some e)
    (hk : s.key x = k) (hf : x.file = e.file) : (s.put x).Accounted := by
  have ht := totalSize_put h.distinct he hk
  rw [hf] at ht
  refine ⟨?_, ha.bytes_le⟩
  change s.bytesUsed = _
  rw [ha.bytes_eq]
  omega

/-- Ejection keeps an exact counter exact and brings it within the capacity. -/
theorem Reclaimed.accounted (h : s.Reclaimed gone s') (he : s.bytesUsed = totalSize s.entries)
    (hd : s.DepthSuffices) : s'.Accounted := by
  obtain ⟨⟨kept, hk, rfl⟩, -, hb⟩ := h
  have heq : (s.release gone kept).bytesUsed = totalSize kept := by
    change s.bytesUsed - totalSize gone = _
    rw [he, hk, totalSize_append]
    omega
  refine ⟨heq, hb.elim id fun hdrop => ?_⟩
  change kept = _ at hdrop
  rw [heq, hdrop]
  exact hd

theorem Effect.accounted {op : FsOperation} {out : FSOutcome} (h : Effect s op out s')
    (hs : s.Sound) (hc : s.ChargesExactly op) (ha : s.Accounted) : s'.Accounted := by
  have hbytes := ha.bytes_eq
  cases h with
  | present | missing | refused | listed => exact ha
  | obtained he | existing he => exact ha.put hs he (key_of_find he) rfl
  | locked he => exact ha.put hs he (key_of_name he rfl) rfl
  | @queued client file e he ho hc hw =>
    refine ⟨?_, ha.bytes_le⟩
    rw [totalSize_replace (x := { e with waiting := e.waiting ++ [client] }) hs.distinct he
      (key_of_name he rfl) rfl]
    exact hbytes
  | unlocked he => exact ha.put hs he (key_of_name he rfl) rfl
  | @removed client file e gone s' he ho hr =>
    obtain ⟨hd, hcount⟩ := hs.erase_charge he (-(e.file.size : ℤ))
    have ht := totalSize_erase hs.distinct he
    have hle := ha.bytes_le
    obtain ⟨⟨kept, hk, rfl⟩, -, -⟩ := hcount.reclaim hr
    obtain rfl := reclaim_false hr
    change (s.erase (s.keyOf file.name)).entries = kept at hk
    subst hk
    constructor
    · change s.bytesUsed + -(e.file.size : ℤ) - (totalSize [] : ℕ) = _
      change _ = (totalSize (s.erase (s.keyOf file.name)).entries : ℤ)
      rw [totalSize_nil]
      omega
    · change s.bytesUsed + -(e.file.size : ℤ) - (totalSize [] : ℕ) ≤ s.bytesMax
      omega
  | @inserted client file lock gone s' he hr =>
    obtain ⟨hd, hcount⟩ := hs.put_new
      (x := ⟨if lock then client else emptyOwner, file, false, []⟩) he file.size
    refine (hcount.reclaim hr).accounted ?_ (hc he)
    have ht := totalSize_put_new (x := ⟨if lock then client else emptyOwner, file, false, []⟩) he
    change s.bytesUsed + (file.size : ℤ) = (totalSize (s.put _).entries : ℤ)
    rw [ht, hbytes]
    rfl
  | @modified client file e gone s' he ho hb hr =>
    obtain ⟨hd, hcount⟩ := hs.put_charge (x := e.rewritten file) he rfl
      (file.size - e.file.size)
    refine (hcount.reclaim hr).accounted ?_ (hc e he ho hb)
    have ht := totalSize_put (x := e.rewritten file) hs.distinct he rfl
    change s.bytesUsed + ((file.size : ℤ) - e.file.size) = (totalSize (s.put _).entries : ℤ)
    rw [StoreEntry.rewritten_file] at ht
    omega
  | @appended client file e gone s' he ho hb hr =>
    obtain ⟨hd, hcount⟩ := hs.put_charge (x := e.extended file) he
      (key_of_name he rfl) (file.size - (Store.appended e.file file).contentLen)
    obtain ⟨hlen, hdepth⟩ := hc e he ho hb
    refine (hcount.reclaim hr).accounted ?_ hdepth
    have ht := totalSize_put (x := e.extended file) hs.distinct he
      (key_of_name he rfl)
    have hsize : (Store.appended e.file file).size = e.file.size + file.contentLen := by
      simp only [FSFile.size, FSFile.contentLen, FSFile.nameLen, Store.appended, List.length_append]
      omega
    have hcontent : (Store.appended e.file file).contentLen =
        e.file.contentLen + file.contentLen := List.length_append
    have hfile : file.size = file.contentLen + file.nameLen := rfl
    change s.bytesUsed + ((file.size : ℤ) - (Store.appended e.file file).contentLen) =
      (totalSize (s.put _).entries : ℤ)
    rw [StoreEntry.extended_file] at ht
    omega
  | cleaned =>
    refine (cleanFiles_rule (fun s _ => s.Sound ∧ s.Accounted) _ ?_ [] ⟨hs, ha⟩ _).2
    rintro s issued k e ⟨hs, ha⟩ he -
    exact ⟨hs.put he (key_of_name he rfl), ha.put hs he (key_of_name he rfl) rfl⟩

end Store

namespace FileSystem

/-- The capacity in bytes fits an `int`. -/
def CapacityFits (configs : FSConfig) : Prop :=
  0 ≤ configs.maxFileCapacityMB * 1024 * 1024 ∧
    configs.maxFileCapacityMB * 1024 * 1024 < 2^31

instance (configs : FSConfig) : Decidable (CapacityFits configs) :=
  inferInstanceAs (Decidable (_ ∧ _))

theorem bytesMax_start {configs : FSConfig} (h : CapacityFits configs) :
    (initializeFileSystem configs).gCache.bytesMax = configs.maxFileCapacityMB * 1024 * 1024 := by
  obtain ⟨h0, h1⟩ := h
  exact Int.bmod_eq_of_le (by omega) (by omega)

/-- The bytes of the cached files are counted exactly and never exceed the capacity, in every
run whose operations charge what they add. -/
theorem bytesUsed_eq_totalSize {configs : FSConfig} (hc : CapacityFits configs)
    {tr : List FsEvent} {fs : FileSystem}
    (h : Run (Guarded (fun fs e => fs.view.ChargesExactly e.1) Step)
      (initializeFileSystem configs) tr fs) :
    fs.gCache.bytesUsed = totalSize fs.view.entries ∧
      (totalSize fs.view.entries : ℤ) ≤ fs.gCache.bytesMax := by
  have hi := h.invariant (I := fun fs => fs.Valid ∧ fs.view.Accounted)
    ⟨.start configs, rfl, by
      change (0 : ℤ) ≤ (initializeFileSystem configs).gCache.bytesMax
      rw [bytesMax_start hc]
      exact hc.1⟩
    (fun ⟨hv, ha⟩ ⟨hg, hs⟩ => ⟨hv.step hs, (hs.effect hv.wf).accounted hv.sound hg ha⟩)
  have hb : fs.gCache.bytesUsed = totalSize fs.view.entries := hi.2.bytes_eq
  exact ⟨hb, hb ▸ hi.2.bytes_le⟩

/-- The file `a` gets as many bytes as its name has. -/
theorem bytesUsed_eq_totalSize_append :
    (((initializeFileSystem defaultConfigs).after createA).after
        (.append 4 ⟨[97], [7]⟩)).gCache.bytesUsed =
      totalSize (((initializeFileSystem defaultConfigs).after createA).after
        (.append 4 ⟨[97], [7]⟩)).view.entries := by
  have hcreate : (initializeFileSystem defaultConfigs).view.ChargesExactly createA := fun _ => by
    unfold Store.DepthSuffices
    decide +kernel
  have hfind : ((initializeFileSystem defaultConfigs).after createA).view.find
      (((initializeFileSystem defaultConfigs).after createA).view.keyOf [97]) =
        some ⟨4, ⟨[97], []⟩, false, []⟩ := by decide +kernel
  have happend : ((initializeFileSystem defaultConfigs).after createA).view.ChargesExactly
      (.append 4 ⟨[97], [7]⟩) := by
    intro e he _ _
    obtain rfl := Option.some.inj (hfind.symm.trans he)
    unfold Store.DepthSuffices
    exact ⟨rfl, by decide +kernel⟩
  exact (bytesUsed_eq_totalSize (by decide) ((Run.start.next
    ⟨hcreate, step_after _ _ (by decide +kernel)⟩).next
      ⟨happend, step_after _ _ (by decide +kernel)⟩)).1

/-- An append of three bytes to the file `a` charges one byte, the length of the name. -/
theorem append_miscounts :
    ¬ ∀ configs, CapacityFits configs → ∀ tr fs,
      Run Step (initializeFileSystem configs) tr fs →
      fs.gCache.bytesUsed = totalSize fs.view.entries ∧
        (totalSize fs.view.entries : ℤ) ≤ fs.gCache.bytesMax := by
  intro h
  have h1 := step_after (initializeFileSystem defaultConfigs) createA (by decide +kernel)
  have h2 := step_after ((initializeFileSystem defaultConfigs).after createA)
    (.append 4 ⟨[97], [1,2,3]⟩) (by decide +kernel)
  exact absurd (h defaultConfigs (by decide) _ _ ((Run.start.next h1).next h2)).1
    (by decide +kernel)

end FileSystem
end StorageServer.Server
