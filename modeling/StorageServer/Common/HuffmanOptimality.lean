import StorageServer.Common.HuffmanCompression
import StorageServer.Library.QueueCosts

/-! How good the codes are. The two queues are sorted as long as all 256 bytes are in use; otherwise
one that is not in use stands behind the others, although it is the lightest of all. -/
namespace StorageServer.Common
open Library

/-- How often a byte occurs, as the weight of a leaf. -/
def occurrences (data : List UInt8) (b : UInt8) : ℤ := data.count b

/-- All bytes occur, or those that occur do so equally often, and with one more of them there is a
power of two. -/
def EvenlyUsed (data : List UInt8) : Prop :=
  (∀ b, b ∈ data) ∨ (∀ b ∈ data, ∀ b' ∈ data, data.count b = data.count b') ∧
    ∃ n, data.dedup.length + 1 = 2^n

namespace HuffCode

/-- The length of the coded content: each byte with a code takes the bits of its code as often as
it occurs. -/
def contentLength (code : HuffCode) : ℤ :=
  ((code.dictionary.take code.first0).map fun e => e.freq * ((code.table e.chr).size : ℤ)).sum

/-- No full binary tree over the same bytes gives a shorter content. -/
def Minimal (code : HuffCode) (data : List UInt8) : Prop :=
  ∀ t : CodeTree UInt8,
    t.leaves.Perm ((code.dictionary.take code.first0).map HuffDictEntry.chr) →
      code.contentLength ≤ t.cost (occurrences data)

namespace Built
variable {code : HuffCode} {data : List UInt8} {t : CodeTree UInt8}

theorem nodup_leaves (h : code.Built data t) : t.leaves.Nodup := by
  obtain ⟨used, unused, hs⟩ := h.split
  rw [h.leaves_perm.nodup_iff, List.map_take]
  exact hs.nodup.sublist (List.take_sublist _ _)

theorem freq_eq (h : code.Built data t) {e : HuffDictEntry}
    (he : e ∈ code.dictionary.take code.first0) : e.freq = occurrences data e.chr := by
  obtain ⟨used, unused, hs⟩ := h.split
  exact hs.freq e (List.mem_of_mem_take he)

/-- The content is as long as the tree says. -/
theorem contentLength_eq (h : code.Built data t) :
    code.contentLength = t.cost (occurrences data) := by
  have hcodes : t.cost (occurrences data) =
      (t.codes.map fun c => occurrences data c.1 * ((code.table c.1).size : ℤ)).sum := by
    refine congrArg List.sum (List.map_congr_left fun c hc => ?_)
    rw [(h.codes c.1 c.2 hc).size]
  have hleaves : (t.codes.map fun c => occurrences data c.1 * ((code.table c.1).size : ℤ)) =
      t.leaves.map fun b => occurrences data b * ((code.table b).size : ℤ) := by
    rw [← t.codes_fst, List.map_map]
    rfl
  rw [hcodes, hleaves, (h.leaves_perm.map _).sum_eq, List.map_map, contentLength]
  refine congrArg List.sum (List.map_congr_left fun e he => ?_)
  rw [h.freq_eq he, Function.comp_apply]

/-- The bytes with a code are merged by how often they occur. -/
theorem merges (h : code.Built data t) : ∃ v, TwoQueues.Merges
    ⟨((code.dictionary.take code.first0).map HuffDictEntry.chr).map
      (TwoQueues.single (occurrences data)), []⟩ ⟨[], [(v, t)]⟩ := by
  obtain ⟨v, hm⟩ := h.merged
  have hsingle : (code.dictionary.take code.first0).map HuffDictEntry.single =
      ((code.dictionary.take code.first0).map HuffDictEntry.chr).map
        (TwoQueues.single (occurrences data)) := by
    rw [List.map_map]
    refine List.map_congr_left fun e he => ?_
    exact congrArg (·, CodeTree.leaf e.chr) (h.freq_eq he)
  exact ⟨v, hsingle ▸ hm⟩

theorem minimal_iff_le (h : code.Built data t) : code.Minimal data ↔ ∀ u : CodeTree UInt8,
    u.leaves.Perm t.leaves → t.cost (occurrences data) ≤ u.cost (occurrences data) := by
  unfold Minimal
  rw [h.contentLength_eq]
  exact ⟨fun hm u hu => hm u (hu.trans h.leaves_perm),
    fun hm u hu => hm u (hu.trans h.leaves_perm.symm)⟩

end Built
end HuffCode

/-! ### The leaves -/

namespace SplitDictionary
variable {data : List UInt8} {dictionary used unused : List HuffDictEntry}

theorem occurrences_eq (hs : SplitDictionary data dictionary used unused) {e : HuffDictEntry}
    (he : e ∈ used) : e.freq = occurrences data e.chr :=
  hs.freq e (hs.split ▸ List.mem_append_left _ he)

theorem occurrences_pos (hs : SplitDictionary data dictionary used unused) :
    ∀ b ∈ used.map HuffDictEntry.chr, 1 ≤ occurrences data b := by
  intro b hb
  obtain ⟨e, he, rfl⟩ := List.mem_map.mp hb
  exact (hs.used_pos e he).trans_eq (hs.occurrences_eq he)

theorem occurrences_sorted (hs : SplitDictionary data dictionary used unused) :
    (used.map HuffDictEntry.chr).Pairwise fun a b => occurrences data a ≤ occurrences data b := by
  refine List.pairwise_map.mpr (hs.sorted.imp_of_mem fun {a b} ha hb hab => ?_)
  rwa [← hs.occurrences_eq ha, ← hs.occurrences_eq hb]

theorem occurrences_unused (hs : SplitDictionary data dictionary used unused) {e : HuffDictEntry}
    (he : e ∈ unused) : occurrences data e.chr = 0 :=
  (hs.freq e (hs.split ▸ List.mem_append_right _ he)).symm.trans (hs.unused_eq e he)

theorem nodup_used (hs : SplitDictionary data dictionary used unused) :
    (used.map HuffDictEntry.chr).Nodup := hs.used_perm.nodup_iff.mpr data.nodup_dedup

/-- Without an entry that is not in use all bytes occur. -/
theorem mem_of_full (hs : SplitDictionary data dictionary used []) (b : UInt8) : b ∈ data := by
  have hb : b ∈ dictionary.map HuffDictEntry.chr := hs.chars.mem_iff.mpr (mem_allBytes b)
  rw [hs.split, List.append_nil] at hb
  exact List.mem_dedup.mp (hs.used_perm.mem_iff.mp hb)

theorem not_full {e : HuffDictEntry} (hs : SplitDictionary data dictionary used unused)
    (he : e ∈ unused) : e.chr ∉ data := by
  have h0 := hs.occurrences_unused he
  exact List.count_eq_zero.mp (Int.natCast_eq_zero.mp h0)

end SplitDictionary

namespace HuffCode.Built
variable {code : HuffCode} {data : List UInt8} {t : CodeTree UInt8}
  {used unused : List HuffDictEntry} {e : HuffDictEntry}

theorem chars_eq (h : code.Built data t)
    (hs : SplitDictionary data code.dictionary used unused) :
    (code.dictionary.take code.first0).map HuffDictEntry.chr =
      used.map HuffDictEntry.chr ++ (unused.take 1).map HuffDictEntry.chr := by
  rw [h.first0, hs.take_firstUnused, List.map_append]

/-- With all bytes in use both queues are sorted. -/
theorem minimal_of_full (h : code.Built data t)
    (hs : SplitDictionary data code.dictionary used []) : code.Minimal data := by
  refine h.minimal_iff_le.mpr fun u hu => ?_
  obtain ⟨v, hm⟩ := h.merges
  have hchars := h.chars_eq hs
  rw [List.take_nil, List.map_nil, List.append_nil] at hchars
  rw [hchars] at hm
  exact hm.cost_le hs.nodup_used hs.occurrences_pos hs.occurrences_sorted
    (hu.trans (hchars ▸ h.leaves_perm))

theorem mem_leaves_iff (h : code.Built data t)
    (hs : SplitDictionary data code.dictionary used (e :: unused)) (b : UInt8) :
    b ∈ t.leaves ↔ b ∈ data ∨ b = e.chr := by
  rw [h.leaves_perm.mem_iff, h.chars_eq hs, List.mem_append, hs.used_perm.mem_iff, List.mem_dedup]
  exact or_congr_right List.mem_singleton

theorem length_leaves_eq (h : code.Built data t)
    (hs : SplitDictionary data code.dictionary used (e :: unused)) :
    t.leaves.length = data.dedup.length + 1 := by
  rw [h.leaves_perm.length_eq, h.chars_eq hs, List.length_append, hs.used_perm.length_eq]
  rfl

/-- The byte that is not in use is the last one. -/
theorem merges_late (h : code.Built data t)
    (hs : SplitDictionary data code.dictionary used (e :: unused)) : ∃ v, TwoQueues.Merges
      ⟨(used.map HuffDictEntry.chr).map (TwoQueues.single (occurrences data)) ++
        [TwoQueues.single (occurrences data) e.chr], []⟩ ⟨[], [(v, t)]⟩ := by
  obtain ⟨v, hm⟩ := h.merges
  rw [h.chars_eq hs, List.map_append] at hm
  exact ⟨v, hm⟩

/-- Bytes that occur equally often are merged level by level. -/
theorem minimal_of_even {n : ℕ} (h : code.Built data t)
    (hs : SplitDictionary data code.dictionary used (e :: unused))
    (heven : ∀ b ∈ data, ∀ b' ∈ data, data.count b = data.count b')
    (hn : data.dedup.length + 1 = 2^n) : code.Minimal data := by
  refine h.minimal_iff_le.mpr fun u hu => ?_
  obtain ⟨c, hc0, hc⟩ : ∃ c : ℤ, 0 ≤ c ∧ ∀ b ∈ data, occurrences data b = c := by
    cases data with
    | nil => exact ⟨0, le_rfl, fun b hb => nomatch hb⟩
    | cons a as => exact ⟨(a :: as).count a, Int.natCast_nonneg _, fun b hb =>
        congrArg Nat.cast (heven b hb a List.mem_cons_self)⟩
  have hused : ∀ b ∈ used.map HuffDictEntry.chr, occurrences data b = c := fun b hb =>
    hc b (List.mem_dedup.mp (hs.used_perm.mem_iff.mp hb))
  have hzero : occurrences data e.chr = 0 := hs.occurrences_unused List.mem_cons_self
  have hlight : ∀ b ∈ t.leaves, 0 ≤ occurrences data b ∧ occurrences data b ≤ c := by
    intro b hb
    rcases (h.mem_leaves_iff hs b).mp hb with hb | rfl
    · rw [hc b hb]
      exact ⟨hc0, le_rfl⟩
    · rw [hzero]
      exact ⟨le_rfl, hc0⟩
  have hsum : t.weight (occurrences data) = used.length * c := by
    have hmap : (used.map HuffDictEntry.chr).map (occurrences data) =
        List.replicate used.length c := by
      refine List.eq_replicate_iff.mpr ⟨by rw [List.length_map, List.length_map], fun m hm => ?_⟩
      obtain ⟨b, hb, rfl⟩ := List.mem_map.mp hm
      exact hused b hb
    rw [CodeTree.weight, (h.leaves_perm.map _).sum_eq, h.chars_eq hs, List.map_append,
      List.sum_append, hmap, List.sum_replicate, nsmul_eq_mul]
    change _ + (occurrences data e.chr + 0) = _
    rw [hzero, add_zero, add_zero]
  have hlength : used.length + 1 = 2^n := by
    rw [← hn, ← hs.used_perm.length_eq, List.length_map]
  obtain ⟨v, hm⟩ := h.merges_late hs
  have hlevel : t.Level n :=
    hm.level_of_even hused hc0 hzero.ge (hzero.trans_le hc0) (by rw [List.length_map, hlength])
  refine hlevel.cost_le hlight ((h.mem_leaves_iff hs _).mpr (Or.inr rfl)) hzero ?_ hu
  have hpow : ((used.length : ℤ) + 1) = 2^n := by exact_mod_cast hlength
  rw [hsum, ← hpow]
  ring

/-- With one byte that is not in use the code is not minimal unless all codes are equally long and
all bytes in use occur equally often. -/
theorem even_of_minimal (h : code.Built data t)
    (hs : SplitDictionary data code.dictionary used (e :: unused)) (hmin : code.Minimal data) :
    (∀ b ∈ data, ∀ b' ∈ data, data.count b = data.count b') ∧
      ∃ n, data.dedup.length + 1 = 2^n := by
  have hle := h.minimal_iff_le.mp hmin
  have hn := h.nodup_leaves
  have hzero : occurrences data e.chr = 0 := hs.occurrences_unused List.mem_cons_self
  obtain ⟨v, hm⟩ := h.merges_late hs
  obtain ⟨d, hz, hd⟩ := hm.exists_late
  have hlevel : t.Level d := by
    intro b k hb
    by_contra hne
    have hlt : d < k := lt_of_le_of_ne (hd b k hb) (Ne.symm hne)
    have hbe : b ≠ e.chr := by
      rintro rfl
      exact hne (hb.unique hn hz)
    have hbdata := ((h.mem_leaves_iff hs b).mp hb.mem).resolve_right hbe
    have hpos : occurrences data e.chr < occurrences data b :=
      hzero.trans_lt (Int.natCast_pos.mpr (List.count_pos_iff.mpr hbdata))
    exact absurd (hle _ (CodeTree.perm_swap hn hz.mem hb.mem))
      (not_le.mpr (CodeTree.cost_swap_lt hn hz hb hlt hpos))
  refine ⟨fun b hb b' hb' => ?_, d, ?_⟩
  · have hnot : ∀ b ∈ data, ∀ b' ∈ data, ¬ occurrences data b < occurrences data b' := by
      intro b hb b' hb' hlt
      have hne : ∀ b ∈ data, b ≠ e.chr := fun b hb he => hs.not_full List.mem_cons_self (he ▸ hb)
      obtain ⟨u, hu, hcheap⟩ := hlevel.exists_cheaper hn hz.mem
        ((h.mem_leaves_iff hs b).mpr (Or.inl hb)) ((h.mem_leaves_iff hs b').mpr (Or.inl hb'))
        (hne b hb) (hne b' hb') hzero hlt
      exact absurd (hle u hu) (not_le.mpr hcheap)
    have heq := le_antisymm (not_lt.mp (hnot b' hb' b hb)) (not_lt.mp (hnot b hb b' hb'))
    exact Int.natCast_inj.mp heq
  · rw [← h.length_leaves_eq hs]
    exact hlevel.length_leaves

/-- When a code is minimal. -/
theorem minimal_iff (h : code.Built data t) : code.Minimal data ↔ EvenlyUsed data := by
  obtain ⟨used, unused, hs⟩ := h.split
  cases unused with
  | nil => exact ⟨fun _ => Or.inl hs.mem_of_full, fun _ => h.minimal_of_full hs⟩
  | cons e unused =>
    constructor
    · exact fun hmin => Or.inr (h.even_of_minimal hs hmin)
    · rintro (hall | ⟨heven, n, hn⟩)
      · exact absurd (hall e.chr) (hs.not_full List.mem_cons_self)
      · exact h.minimal_of_even hs heven hn

end HuffCode.Built

section
variable {data : List UInt8}

/-- The code of a stream shorter than 2^31 bytes is minimal, however its bytes are sorted, if and
only if they are used evenly, and they are not 2^31 - 1 equal ones. -/
theorem minimal_code_iff (hne : data ≠ []) (hlt : data.length < 2^31) :
    (∀ qsort beyond, ∃ code, buildCode qsort beyond data = some code ∧ code.Minimal data) ↔
      (∀ b, data ≠ List.replicate (2^31 - 1) b) ∧ EvenlyUsed data := by
  constructor
  · intro h
    obtain ⟨code, hcode, hmin⟩ := h .unusedFirst 0
    refine ⟨fun b hb => ?_, ?_⟩
    · rw [buildCode_replicate hb] at hcode
      exact nomatch hcode
    · obtain ⟨t, hb⟩ := built_of_buildCode hne hlt hcode
      exact hb.minimal_iff.mp hmin
  · rintro ⟨hrep, heven⟩ qsort beyond
    obtain ⟨code, t, hcode, hb⟩ :=
      exists_built qsort beyond hne hlt (firstUnused_ne_one qsort hne hlt hrep)
    exact ⟨code, hcode, hb.minimal_iff.mpr heven⟩

theorem minimal_code_iff_three :
    ∃ code, buildCode .unusedFirst 0 [7, 8, 9] = some code ∧ code.Minimal [7, 8, 9] :=
  (minimal_code_iff (by decide : ([7, 8, 9] : List UInt8) ≠ []) (by decide)).mpr
    ⟨not_replicate_of_length (by decide), Or.inr ⟨by simp, 2, rfl⟩⟩ .unusedFirst 0

/-- Of four bytes that occur once, two get longer codes than a byte that is not in use. -/
theorem four_bytes_not_minimal :
    ¬ ∀ (data : List UInt8) (qsort : Qsort) (beyond : ℤ), data ≠ [] → data.length < 2^31 →
      ∃ code, buildCode qsort beyond data = some code ∧ code.Minimal data := by
  intro h
  obtain ⟨code, hcode, hmin⟩ := h [0, 1, 2, 3] .unusedFirst 0 (by decide) (by decide)
  obtain ⟨t, hb⟩ := built_of_buildCode (by decide) (by decide) hcode
  rcases hb.minimal_iff.mp hmin with hall | ⟨-, n, hn⟩
  · exact absurd (hall 4) (by decide)
  · have hfive : 5 = 2^n := hn
    cases n with
    | zero => exact absurd hfive (by decide)
    | succ n =>
      rw [pow_succ] at hfive
      omega

end
end StorageServer.Common
