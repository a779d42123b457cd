import StorageServer.Common.HuffmanEncoding
import Mathlib.Algebra.BigOperators.Ring.Finset
import Mathlib.Data.List.Sort
import Mathlib.Data.List.TakeWhile

/-! The sorted dictionary. The bytes in use come first, by their frequency, unless one of them
occurs as often as the sorting assumes of those that are not in use. -/
namespace StorageServer.Common

def allBytes : List UInt8 := (List.range 256).map UInt8.ofNat

/-- What is counted of a byte. -/
def entryOf (data : List UInt8) (b : UInt8) : HuffDictEntry := ⟨data.count b, b⟩

theorem mem_allBytes (b : UInt8) : b ∈ allBytes :=
  List.mem_map.mpr ⟨b.toNat, List.mem_range.mpr b.toNat_lt, UInt8.ofNat_toNat⟩

theorem nodup_allBytes : allBytes.Nodup := by
  refine List.Nodup.map_on (fun i hi j hj hij => ?_) List.nodup_range
  rw [← UInt8.toNat_ofNat_of_lt' (List.mem_range.mp hi), hij,
    UInt8.toNat_ofNat_of_lt' (List.mem_range.mp hj)]

/-- The second step counts. -/
theorem countBytes_eq (data : List UInt8) : countBytes data = allBytes.map (entryOf data) := by
  induction data using List.reverseRecOn with
  | nil =>
    unfold countBytes allBytes
    rw [List.map_map]
    rfl
  | append_singleton data b ih =>
    have hstep : countBytes (data ++ [b]) =
        (countBytes data).modify b.toNat fun e => { e with freq := e.freq + 1 } := by
      unfold countBytes
      rw [List.foldl_append]
      rfl
    rw [hstep, ih]
    apply List.ext_getElem?
    intro i
    rw [List.getElem?_modify, List.getElem?_map, List.getElem?_map]
    by_cases hi : i < 256
    · have hget : allBytes[i]? = some (UInt8.ofNat i) := by
        rw [allBytes, List.getElem?_map, List.getElem?_range hi]
        rfl
      rw [hget]
      simp only [Option.map_some, Option.map_eq_map, Option.some.injEq, entryOf, List.count_append,
        List.count_singleton]
      by_cases hb : b.toNat = i
      · subst hb
        rw [if_pos rfl, UInt8.ofNat_toNat, beq_self_eq_true, if_pos rfl]
        rfl
      · have hne : b ≠ UInt8.ofNat i := by
          rintro rfl
          exact hb (UInt8.toNat_ofNat_of_lt' hi)
        rw [if_neg hb, if_neg (by simpa using hne), Nat.add_zero]
    · have hget : allBytes[i]? = none := by
        rw [List.getElem?_eq_none]
        simpa [allBytes] using hi
      rw [hget]
      rfl

/-- The dictionary consists of the bytes in use, sorted by frequency, and of the others. -/
structure SplitDictionary (data : List UInt8) (dictionary used unused : List HuffDictEntry) :
    Prop where
  split : dictionary = used ++ unused
  freq : ∀ e ∈ dictionary, e.freq = data.count e.chr
  chars : (dictionary.map HuffDictEntry.chr).Perm allBytes
  used_ne : ∀ e ∈ used, e.freq ≠ 0
  unused_eq : ∀ e ∈ unused, e.freq = 0
  sorted : used.Pairwise fun a b => a.freq ≤ b.freq

namespace SplitDictionary
variable {data : List UInt8} {dictionary used unused : List HuffDictEntry}

theorem length_eq (h : SplitDictionary data dictionary used unused) : dictionary.length = 256 := by
  have hlen := h.chars.length_eq
  simpa [allBytes] using hlen

theorem nodup (h : SplitDictionary data dictionary used unused) :
    (dictionary.map HuffDictEntry.chr).Nodup := h.chars.nodup_iff.mpr nodup_allBytes

/-- The bytes in use are those of the data. -/
theorem used_perm (h : SplitDictionary data dictionary used unused) :
    (used.map HuffDictEntry.chr).Perm data.dedup := by
  have hnodup := h.nodup
  rw [h.split, List.map_append] at hnodup
  refine (List.perm_ext_iff_of_nodup hnodup.of_append_left data.nodup_dedup).mpr fun b => ?_
  have hcount := fun e (he : e ∈ used ++ unused) => h.freq e (h.split ▸ he)
  rw [List.mem_dedup]
  constructor
  · intro hb
    obtain ⟨e, he, rfl⟩ := List.mem_map.mp hb
    have hfreq := hcount e (List.mem_append_left _ he)
    have hne := h.used_ne e he
    exact List.count_pos_iff.mp (by omega)
  · intro hb
    have hmem : b ∈ dictionary.map HuffDictEntry.chr := h.chars.mem_iff.mpr (mem_allBytes b)
    obtain ⟨e, he, rfl⟩ := List.mem_map.mp hmem
    rw [h.split] at he
    have hfreq := hcount e he
    rcases List.mem_append.mp he with he | he
    · exact List.mem_map_of_mem he
    · have hzero := h.unused_eq e he
      have hpos := List.count_pos_iff.mpr hb
      omega

theorem used_pos (h : SplitDictionary data dictionary used unused) :
    ∀ e ∈ used, 1 ≤ e.freq := by
  intro e he
  have hne := h.used_ne e he
  have hfreq := h.freq e (h.split ▸ List.mem_append_left _ he)
  omega

/-- Every byte of the data is counted once. -/
theorem sum_freq (h : SplitDictionary data dictionary used unused) :
    (used.map HuffDictEntry.freq).sum = data.length := by
  have hmap : used.map HuffDictEntry.freq =
      (used.map HuffDictEntry.chr).map fun b => (data.count b : ℤ) := by
    rw [List.map_map]
    exact List.map_congr_left fun e he => h.freq e (h.split ▸ List.mem_append_left _ he)
  have hsum := congrArg (Nat.cast : ℕ → ℤ) (List.sum_map_count_dedup_eq_length data)
  rw [Nat.cast_list_sum, List.map_map] at hsum
  rw [hmap, (h.used_perm.map _).sum_eq]
  exact hsum

theorem firstUnused_eq (h : SplitDictionary data dictionary used unused) :
    firstUnused dictionary = if unused = [] then 256 else used.length + 1 := by
  have hused : used.findIdx? (fun e => decide (e.freq = 0)) = none := by
    rw [List.findIdx?_eq_none_iff]
    exact fun e he => decide_eq_false (h.used_ne e he)
  unfold firstUnused
  rw [h.split, List.findIdx?_append, hused, Option.none_or]
  cases hun : unused with
  | nil => rfl
  | cons e es =>
    have hzero := h.unused_eq e (hun ▸ List.mem_cons_self)
    rw [List.findIdx?_cons, decide_eq_true hzero, if_neg (List.cons_ne_nil e es)]
    simp

/-- The bytes with a code are those in use and one more, if there is one. -/
theorem take_firstUnused (h : SplitDictionary data dictionary used unused) :
    dictionary.take (firstUnused dictionary) = used ++ unused.take 1 := by
  have hlen := h.length_eq
  rw [h.firstUnused_eq]
  rw [h.split] at hlen ⊢
  by_cases hun : unused = []
  · subst hun
    rw [if_pos rfl, List.append_nil, List.take_nil, List.append_nil]
    rw [List.append_nil] at hlen
    rw [← hlen, List.take_length]
  · rw [if_neg hun, List.take_append, List.take_of_length_le (Nat.le_succ _),
      Nat.add_sub_cancel_left]

theorem firstUnused_le (h : SplitDictionary data dictionary used unused) :
    firstUnused dictionary ≤ 256 := by
  have hlen := h.length_eq
  rw [h.split, List.length_append] at hlen
  rw [h.firstUnused_eq]
  split_ifs with hun
  · exact le_rfl
  · have hpos := List.length_pos_iff.mpr hun
    omega

theorem two_le_firstUnused (h : SplitDictionary data dictionary used unused) (hne : data ≠ []) :
    2 ≤ firstUnused dictionary := by
  rw [h.firstUnused_eq]
  split_ifs with hun
  · decide
  · have hused : used ≠ [] := by
      rintro rfl
      have hsum := h.sum_freq
      have hpos := List.length_pos_iff.mpr hne
      simp only [List.map_nil, List.sum_nil] at hsum
      omega
    have hpos := List.length_pos_iff.mpr hused
    omega

end SplitDictionary

/-! ### What the sorting does -/

theorem cmpDictEntries_of_used {a b : HuffDictEntry} (ha : a.freq ≠ 0) (hb : b.freq ≠ 0) :
    cmpDictEntries a b = a.freq - b.freq := by
  rw [cmpDictEntries, if_neg ha, if_neg hb]

theorem cmpDictEntries_of_unused {a b : HuffDictEntry} (ha : a.freq = 0) (hb : b.freq ≠ 0) :
    cmpDictEntries a b = 2^31 - 1 - b.freq := by
  rw [cmpDictEntries, if_pos ha, if_neg hb]

section
variable {data : List UInt8} (qsort : Qsort)

theorem freq_of_mem_sort {e : HuffDictEntry} (he : e ∈ qsort.sort (countBytes data)) :
    e.freq = data.count e.chr := by
  have hmem := (qsort.perm (countBytes data)).mem_iff.mp he
  rw [countBytes_eq] at hmem
  obtain ⟨b, -, rfl⟩ := List.mem_map.mp hmem
  rfl

theorem chars_sort : ((qsort.sort (countBytes data)).map HuffDictEntry.chr).Perm allBytes := by
  have hperm := (qsort.perm (countBytes data)).map HuffDictEntry.chr
  rw [countBytes_eq, List.map_map] at hperm
  have hid : HuffDictEntry.chr ∘ entryOf data = id := rfl
  rwa [hid, List.map_id, ← countBytes_eq] at hperm

/-- Only a byte of which there are as many as an `int` can count is not told from one that is not
in use. -/
theorem freq_cases {e : HuffDictEntry} (hlt : data.length < 2^31)
    (he : e ∈ qsort.sort (countBytes data)) :
    0 ≤ e.freq ∧ e.freq ≤ 2^31 - 1 ∧
      (e.freq = 2^31 - 1 → data = List.replicate (2^31 - 1) e.chr) := by
  have hfreq := freq_of_mem_sort qsort he
  have hle : data.count e.chr ≤ data.length := List.count_le_length
  refine ⟨by omega, by omega, fun h => ?_⟩
  have hcount : data.count e.chr = data.length := by omega
  have hlen : data.length = 2^31 - 1 := by omega
  rw [← hlen]
  exact List.eq_replicate_iff.mpr ⟨rfl, fun b hb => (List.count_eq_length.mp hcount b hb).symm⟩

/-- The dictionary is split as long as its first entry is in use. -/
theorem exists_split (hlt : data.length < 2^31)
    (h1 : firstUnused (qsort.sort (countBytes data)) ≠ 1) :
    ∃ used unused, SplitDictionary data (qsort.sort (countBytes data)) used unused := by
  have hsorted := qsort.sorted (countBytes data)
  have hcases := fun e => @freq_cases data qsort e hlt
  have hfreq : ∀ e ∈ qsort.sort (countBytes data), e.freq = data.count e.chr :=
    fun e he => freq_of_mem_sort qsort he
  have hchars := @chars_sort data qsort
  generalize qsort.sort (countBytes data) = dictionary at hsorted hcases hfreq hchars h1 ⊢
  set used := dictionary.takeWhile fun e => decide (e.freq ≠ 0) with hused
  set unused := dictionary.dropWhile fun e => decide (e.freq ≠ 0) with hunused
  have hsplit : dictionary = used ++ unused := List.takeWhile_append_dropWhile.symm
  have hne : ∀ e ∈ used, e.freq ≠ 0 := by
    intro e he
    have hp := List.mem_takeWhile_imp (p := fun e : HuffDictEntry => decide (e.freq ≠ 0)) he
    exact of_decide_eq_true hp
  have hmem : ∀ e ∈ used, e ∈ dictionary := fun e he => hsplit ▸ List.mem_append_left _ he
  refine ⟨used, unused, hsplit, hfreq, hchars, hne, ?_, ?_⟩
  · intro e he
    by_contra hnz
    have hedict : e ∈ dictionary := hsplit ▸ List.mem_append_right _ he
    obtain ⟨h0, hle, hall⟩ := hcases e hedict
    -- an entry that is not in use stands before this one
    obtain ⟨d, ds, hd⟩ := List.exists_cons_of_ne_nil (List.ne_nil_of_mem he)
    have hdz : d.freq = 0 := by
      have hhead := List.head_dropWhile_not (fun e : HuffDictEntry => decide (e.freq ≠ 0))
        (l := dictionary) (by rw [← hunused, hd]; exact List.cons_ne_nil _ _)
      simp only [← hunused, hd, List.head_cons] at hhead
      simpa using hhead
    have hes : e ∈ ds := by
      rw [hd] at he
      refine (List.mem_cons.mp he).resolve_left ?_
      rintro rfl
      exact hnz hdz
    rw [hsplit, hd] at hsorted
    have hde := (List.pairwise_cons.mp (List.pairwise_append.mp hsorted).2.1).1 e hes
    rw [cmpDictEntries_of_unused hdz hnz] at hde
    have hrep := hall (by omega)
    -- all the data is this one byte, so that no entry comes before it
    have hnil : used = [] := by
      refine List.eq_nil_iff_forall_not_mem.mpr fun u hu => ?_
      have hu' := hfreq u (hmem u hu)
      have hun := hne u hu
      have huchr : u.chr = e.chr := by
        have hpos : 0 < data.count u.chr := by omega
        have hin := List.count_pos_iff.mp hpos
        rw [hrep] at hin
        exact List.eq_of_mem_replicate hin
      have hnodup := hchars.nodup_iff.mpr nodup_allBytes
      rw [hsplit, List.map_append] at hnodup
      exact List.disjoint_of_nodup_append hnodup (List.mem_map_of_mem hu)
        (huchr ▸ List.mem_map_of_mem he)
    apply h1
    rw [hsplit, hnil, hd, List.nil_append, firstUnused, List.findIdx?_cons, decide_eq_true hdz]
    rfl
  · refine (hsorted.sublist (List.takeWhile_sublist _)).imp_of_mem fun {a b} ha hb hab => ?_
    rw [cmpDictEntries_of_used (hne a ha) (hne b hb)] at hab
    omega

/-- The first entry is in use unless all the data is one byte, as often as an `int` can count. -/
theorem firstUnused_ne_one (hne : data ≠ []) (hlt : data.length < 2^31)
    (hrep : ∀ b, data ≠ List.replicate (2^31 - 1) b) :
    firstUnused (qsort.sort (countBytes data)) ≠ 1 := by
  have hsorted := qsort.sorted (countBytes data)
  have hcases := fun e => @freq_cases data qsort e hlt
  have hfreq : ∀ e ∈ qsort.sort (countBytes data), e.freq = data.count e.chr :=
    fun e he => freq_of_mem_sort qsort he
  have hchars := @chars_sort data qsort
  generalize qsort.sort (countBytes data) = dictionary at hsorted hcases hfreq hchars ⊢
  intro h1
  obtain ⟨b, hb⟩ := List.exists_mem_of_ne_nil data hne
  obtain ⟨e, he, rfl⟩ := List.mem_map.mp (hchars.mem_iff.mpr (mem_allBytes b))
  have hpos := List.count_pos_iff.mpr hb
  have hefreq := hfreq e he
  obtain ⟨h0, hle, hall⟩ := hcases e he
  cases dictionary with
  | nil => exact nomatch he
  | cons d ds =>
    have hdz : d.freq = 0 := by
      by_contra hdz
      unfold firstUnused at h1
      rw [List.findIdx?_cons, decide_eq_false hdz] at h1
      cases hf : ds.findIdx? (fun e => decide (e.freq = 0)) with
      | none =>
        rw [hf] at h1
        exact absurd h1 (by decide)
      | some i =>
        rw [hf] at h1
        exact absurd h1 (by simp)
    rcases List.mem_cons.mp he with rfl | he
    · omega
    · have hde := (List.pairwise_cons.mp hsorted).1 e he
      rw [cmpDictEntries_of_unused hdz (by omega)] at hde
      exact hrep _ (hall (by omega))

end

theorem not_replicate_of_length {data : List UInt8} {n : ℕ} (h : data.length ≠ n) (b : UInt8) :
    data ≠ List.replicate n b := by
  rintro rfl
  exact h List.length_replicate

/-! ### Two sortings -/

/-- The value by which the entries are compared. -/
def sortKey (e : HuffDictEntry) : ℤ := if e.freq = 0 then 2^31 - 1 else e.freq

/-- A sorting that keeps equals in their order. -/
def Qsort.stable : Qsort where
  sort dictionary := dictionary.insertionSort fun a b => sortKey a ≤ sortKey b
  perm dictionary := List.perm_insertionSort _ dictionary
  sorted dictionary := by
    have : Std.Total fun a b => sortKey a ≤ sortKey b := ⟨fun a b => Int.le_total _ _⟩
    have : IsTrans _ fun a b => sortKey a ≤ sortKey b := ⟨fun a b c => Int.le_trans⟩
    exact (List.pairwise_insertionSort _ dictionary).imp fun h => Int.sub_nonpos_of_le h

/-- What is not in use is put in front of its equals. -/
def unusedFirst (a b : HuffDictEntry) : Bool :=
  sortKey a < sortKey b ∨ sortKey a = sortKey b ∧ a.freq ≤ b.freq

theorem pairwise_unusedFirst (dictionary : List HuffDictEntry) :
    (dictionary.mergeSort unusedFirst).Pairwise fun a b => unusedFirst a b := by
  refine List.pairwise_mergeSort ?_ ?_ dictionary
  · intro a b c
    simp only [unusedFirst, decide_eq_true_eq]
    omega
  · intro a b
    simp only [unusedFirst, Bool.or_eq_true, decide_eq_true_eq]
    omega

def Qsort.unusedFirst : Qsort where
  sort dictionary := dictionary.mergeSort Common.unusedFirst
  perm dictionary := List.mergeSort_perm dictionary _
  sorted dictionary := by
    refine (pairwise_unusedFirst dictionary).imp fun {a b} hab => ?_
    change sortKey a - sortKey b ≤ 0
    simp only [Common.unusedFirst, decide_eq_true_eq] at hab
    omega

/-- A byte that is counted to the limit of an `int` gets behind those that are not in use. -/
theorem firstUnused_eq_one {data : List UInt8} {b : UInt8} (hall : ∀ x ∈ data, x = b)
    (hlen : data.length = 2^31 - 1) :
    firstUnused (Qsort.unusedFirst.sort (countBytes data)) = 1 := by
  have hsorted : (Qsort.unusedFirst.sort (countBytes data)).Pairwise fun a b => unusedFirst a b :=
    pairwise_unusedFirst (countBytes data)
  have hfreq : ∀ e ∈ Qsort.unusedFirst.sort (countBytes data), e.freq = data.count e.chr :=
    fun e he => freq_of_mem_sort .unusedFirst he
  have hchars := @chars_sort data .unusedFirst
  generalize Qsort.unusedFirst.sort (countBytes data) = dictionary at hsorted hfreq hchars ⊢
  obtain ⟨other, hother⟩ : ∃ other : UInt8, other ≠ b := by
    by_cases hb : b = 0
    · exact ⟨1, by rw [hb]; decide⟩
    · exact ⟨0, Ne.symm hb⟩
  obtain ⟨e, he, rfl⟩ := List.mem_map.mp (hchars.mem_iff.mpr (mem_allBytes other))
  have hzero : e.freq = 0 := by
    rw [hfreq e he, List.count_eq_zero_of_not_mem fun hin => hother (hall _ hin)]
    rfl
  cases dictionary with
  | nil => exact nomatch he
  | cons d ds =>
    have hd : d.freq = 0 := by
      by_contra hne
      have hcount := hfreq d List.mem_cons_self
      have hin : d.chr ∈ data := List.count_pos_iff.mp (by omega)
      have hfull : data.count d.chr = data.length :=
        List.count_eq_length.mpr fun x hx => (hall _ hin).trans (hall x hx).symm
      rcases List.mem_cons.mp he with rfl | he
      · exact hne hzero
      · have hde := (List.pairwise_cons.mp hsorted).1 e he
        simp only [unusedFirst, decide_eq_true_eq, sortKey, if_neg hne, if_pos hzero] at hde
        omega
    rw [firstUnused, List.findIdx?_cons, decide_eq_true hd]
    rfl

end StorageServer.Common
