import StorageServer.Common.HuffmanDictionary
import StorageServer.Common.HuffmanTables

/-! The compression as a whole: the code that is built, and the bits that are written with it. They
are as many as were estimated. -/
namespace StorageServer.Common
open Library Library.Bits

namespace HuffCode

/-- A code comes from the sorted dictionary: it is the tree into which the two queues have merged
the bytes in use and one more. -/
structure Built (code : HuffCode) (data : List UInt8) (t : CodeTree UInt8) : Prop where
  split : ∃ used unused, SplitDictionary data code.dictionary used unused
  first0 : code.first0 = firstUnused code.dictionary
  merged : ∃ w, TwoQueues.Merges
    ⟨(code.dictionary.take code.first0).map HuffDictEntry.single, []⟩ ⟨[], [(w, t)]⟩
  spells : Spells (cellAt code.dictionary code.tree) code.treeRoot t
  height_le : t.height ≤ 128
  codes : ∀ a c, (a, c) ∈ t.codes → (code.table a).Spelled c

section
variable {dictionary used unused : List HuffDictEntry} {data : List UInt8} {w : ℤ}
  {t : CodeTree UInt8}

theorem leaves_of_merges {singles : List HuffDictEntry}
    (h : TwoQueues.Merges ⟨singles.map HuffDictEntry.single, []⟩ ⟨[], [(w, t)]⟩) :
    t.leaves.Perm (singles.map HuffDictEntry.chr) := by
  have hl := h.leaves
  have hstart : (⟨singles.map HuffDictEntry.single, []⟩ : TwoQueues ℤ UInt8).leaves =
      singles.map HuffDictEntry.chr := by
    unfold TwoQueues.leaves TwoQueues.items
    rw [List.append_nil, List.flatMap_map, List.map_eq_flatMap]
    rfl
  have hend : (⟨[], [(w, t)]⟩ : TwoQueues ℤ UInt8).leaves = t.leaves := List.append_nil _
  rwa [hstart, hend] at hl

/-- No code gets longer than 78 bits. -/
theorem height_of_merges (hs : SplitDictionary data dictionary used unused)
    (hlt : data.length < 2^31) (h : TwoQueues.Merges
      ⟨(dictionary.take (firstUnused dictionary)).map HuffDictEntry.single, []⟩ ⟨[], [(w, t)]⟩) :
    t.height ≤ 78 := by
  have hle := hs.firstUnused_le
  have hlen := congrArg List.length hs.take_firstUnused
  rw [List.length_take, hs.length_eq, List.length_append] at hlen
  rw [hs.take_firstUnused, List.map_append] at h
  refine h.height_le (x := (w, t)) (k := 31) (j := 8) ?_ ?_ ?_ ?_ ?_ ?_ List.mem_cons_self
  · rw [List.length_map]
    exact List.length_take_le _ _
  · intro x hx
    rw [← List.map_append] at hx
    obtain ⟨e, -, rfl⟩ := List.mem_map.mp hx
    rfl
  · intro x hx
    obtain ⟨e, he, rfl⟩ := List.mem_map.mp hx
    exact hs.used_pos e he
  · rw [List.pairwise_map]
    exact hs.sorted
  · rw [List.map_map]
    change (used.map HuffDictEntry.freq).sum < _
    rw [hs.sum_freq]
    exact_mod_cast hlt
  · rw [List.length_map, List.length_map]
    omega

end

end HuffCode

section
variable {data : List UInt8} (qsort : Qsort) (beyond : ℤ)
open HuffCode

/-- The first eight steps build a code. -/
theorem exists_built (hne : data ≠ []) (hlt : data.length < 2^31)
    (h1 : firstUnused (qsort.sort (countBytes data)) ≠ 1) :
    ∃ code t, buildCode qsort beyond data = some code ∧ code.Built data t := by
  obtain ⟨used, unused, hs⟩ := exists_split qsort hlt h1
  have hle := hs.firstUnused_le
  have htwo := hs.two_le_firstUnused hne
  obtain ⟨m, ⟨w, t⟩, hrun, hmerges, hspells, -⟩ := run_createTrees beyond
    (hs.firstUnused_le.trans hs.length_eq.ge) htwo
  have hm := hrun.mergeTrees
    (by omega : _ < firstUnused (qsort.sort (countBytes data)) * 2 - 1)
  have hheight := height_of_merges hs hlt hmerges
  have hperm := leaves_of_merges hmerges
  have hlen : t.leaves.length = firstUnused (qsort.sort (countBytes data)) := by
    rw [hperm.length_eq, List.length_map, List.length_take, hs.length_eq, Nat.min_eq_left hle]
  have hnodup : t.leaves.Nodup := by
    rw [hperm.nodup_iff, List.map_take]
    exact hs.nodup.sublist (List.take_sublist _ _)
  have hsize := t.size_eq
  obtain ⟨table, htable, hcodes, -⟩ := fillTable_spells 0 [] (fun _ => .empty) hspells hnodup
    HuffTableEntry.spelled_empty (by rw [List.length_nil]; dsimp only at hheight ⊢; omega)
    (by rw [List.length_nil]; dsimp only at hlen ⊢; omega)
  refine ⟨⟨_, _, m.tree, m.tmpTreeIndexL, table⟩, t, ?_, ⟨used, unused, hs⟩, rfl, ⟨w, hmerges⟩,
    hspells, by omega, hcodes⟩
  have hfuel : firstUnused (qsort.sort (countBytes data)) * 2 - 1 = t.size + 0 := by omega
  unfold buildCode
  dsimp only
  rw [hm, Option.bind_eq_bind, Option.bind_some, hfuel, htable]
  rfl

/-- A byte that is not in use in front of the dictionary leaves a single tree, and the loop looks
for a second one behind the array. -/
theorem buildCode_eq_none (h1 : firstUnused (qsort.sort (countBytes data)) = 1) :
    buildCode qsort beyond data = none := by
  unfold buildCode
  dsimp only
  rw [h1]
  rfl

end

namespace HuffCode
namespace Built
variable {code : HuffCode} {data : List UInt8} {t : CodeTree UInt8}

theorem leaves_perm (h : code.Built data t) :
    t.leaves.Perm ((code.dictionary.take code.first0).map HuffDictEntry.chr) := by
  obtain ⟨w, hm⟩ := h.merged
  exact leaves_of_merges hm

theorem first0_le (h : code.Built data t) : code.first0 ≤ 256 := by
  obtain ⟨used, unused, hs⟩ := h.split
  exact h.first0 ▸ hs.firstUnused_le

theorem two_le_first0 (h : code.Built data t) (hne : data ≠ []) : 2 ≤ code.first0 := by
  obtain ⟨used, unused, hs⟩ := h.split
  exact h.first0 ▸ hs.two_le_firstUnused hne

theorem length_leaves (h : code.Built data t) : t.leaves.length = code.first0 := by
  obtain ⟨used, unused, hs⟩ := h.split
  rw [h.leaves_perm.length_eq, List.length_map, List.length_take, hs.length_eq,
    Nat.min_eq_left h.first0_le]

theorem mem_leaves (h : code.Built data t) {b : UInt8} (hb : b ∈ data) : b ∈ t.leaves := by
  obtain ⟨used, unused, hs⟩ := h.split
  rw [h.leaves_perm.mem_iff, h.first0, hs.take_firstUnused, List.map_append]
  exact List.mem_append_left _ (hs.used_perm.mem_iff.mpr (List.mem_dedup.mpr hb))

theorem spelled (h : code.Built data t) {b : UInt8} (hb : b ∈ data) :
    (code.table b).Spelled (t.code b) := h.codes _ _ (CodeTree.code_mem (h.mem_leaves hb))

end Built

/-! ### What is written -/

def headerBits (code : HuffCode) (padding dataSize : ℕ) : List Bool :=
  byteBits (0x80 ||| padding) ++ byteBits (code.first0 - 1) ++ byteBits (dataSize >>> 24) ++
    byteBits (dataSize >>> 16) ++ byteBits (dataSize >>> 8) ++ byteBits (dataSize >>> 0)

theorem writeHeader_eq (code : HuffCode) (padding dataSize : ℕ) (out : HuffBuffer) :
    code.writeHeader padding dataSize out = out.writeBits (code.headerBits padding dataSize) := by
  simp only [writeHeader, headerBits, HuffBuffer.writeByte_eq, HuffBuffer.writeBits_append]

theorem length_headerBits (code : HuffCode) (padding dataSize : ℕ) :
    (code.headerBits padding dataSize).length = 48 := by
  simp only [headerBits, List.length_append, length_byteBits]

/-- The estimated size in bytes. -/
def compressedSize (code : HuffCode) (data : List UInt8) : ℕ :=
  code.estimate data / 8 + if code.estimate data % 8 ≠ 0 then 1 else 0

/-- All bits of a compressed stream. -/
def outputBits (code : HuffCode) (data : List UInt8) (t : CodeTree UInt8) : List Bool :=
  code.headerBits (code.estimate data % 8) data.length ++ treeBits t ++ t.encode data

namespace Built
variable {code : HuffCode} {data : List UInt8} {t : CodeTree UInt8}

theorem length_le (h : code.Built data t) {b : UInt8} (hb : b ∈ data) :
    (t.code b).length ≤ 128 :=
  (CodeTree.length_code_le (CodeTree.code_mem (h.mem_leaves hb))).trans h.height_le

theorem estimate_eq (h : code.Built data t) :
    code.estimate data = 48 + (10 * code.first0 - 1) + (t.encode data).length := by
  have hfold : ∀ (as : List UInt8) (n : ℕ), as ⊆ data →
      as.foldl (fun size b => size + (code.table b).size) n = n + (t.encode as).length := by
    intro as n has
    induction as generalizing n with
    | nil => rfl
    | cons b as ih =>
      have hb := (h.spelled (has List.mem_cons_self)).size
      rw [List.foldl_cons, ih _ (fun x hx => has (List.mem_cons_of_mem b hx)), hb,
        CodeTree.encode, CodeTree.encode, List.flatMap_cons, List.length_append]
      omega
  exact hfold data _ (List.Subset.refl data)

theorem length_outputBits (h : code.Built data t) :
    (code.outputBits data t).length = code.estimate data := by
  have htree := length_treeBits t
  rw [h.length_leaves] at htree
  rw [h.estimate_eq, outputBits, List.length_append, List.length_append, length_headerBits]
  omega

theorem encode_content (h : code.Built data t) (as : List UInt8) (has : as ⊆ data)
    (out : HuffBuffer) : as.foldlM code.encodeByte out = some (out.writeBits (t.encode as)) := by
  induction as generalizing out with
  | nil => rfl
  | cons b as ih =>
    have hb := has List.mem_cons_self
    rw [List.foldlM_cons, encodeByte_eq out (h.spelled hb) (h.length_le hb), Option.bind_eq_bind,
      Option.bind_some, ih fun x hx => has (List.mem_cons_of_mem b hx),
      ← HuffBuffer.writeBits_append]
    rfl

theorem writeTree_eq (h : code.Built data t) (out : HuffBuffer) :
    code.writeTree (code.first0 * 2 - 1) [(code.treeRoot : ℤ)] out =
      some (out.writeBits (treeBits t)) := by
  have hsize := t.size_eq
  have hlen := h.length_leaves
  have hfuel : code.first0 * 2 - 1 = t.size + 0 := by omega
  rw [hfuel, writeTree_spells 0 [] out h.spells (by
    rw [List.length_nil, hlen, Nat.zero_add]
    exact h.first0_le)]
  rfl

/-- The whole output is written into the space that was estimated. -/
theorem wrote (h : code.Built data t) :
    ((HuffBuffer.output (code.compressedSize data)).writeBits (code.outputBits data t)).Wrote
      (code.outputBits data t) := by
  refine (HuffBuffer.wrote_output _).writeBits ?_
  have hlen := h.length_outputBits
  have hsize : (HuffBuffer.output (code.compressedSize data)).streamSize =
      code.compressedSize data := List.length_replicate
  rw [hsize, List.length_nil, hlen, compressedSize]
  split_ifs
  · omega
  · omega

/-- The buffer that is handed out holds the output, filled up with zeros. -/
theorem flush (h : code.Built data t) : ∃ out,
    ((HuffBuffer.output (code.compressedSize data)).writeBits (code.outputBits data t)).flush =
      some out ∧
      out.streamIndex = code.compressedSize data ∧ out.streamSize = code.compressedSize data ∧
      bits out.stream = code.outputBits data t ++
        List.replicate (8 * code.compressedSize data - code.estimate data) false := by
  have hsize : (HuffBuffer.output (code.compressedSize data)).streamSize =
      code.compressedSize data := List.length_replicate
  have hlen := h.length_outputBits
  obtain ⟨out, hflush, hidx, hstream, hbits⟩ := h.wrote.flush (by
    rw [HuffBuffer.streamSize_writeBits, hsize, hlen]
    rfl)
  rw [HuffBuffer.streamSize_writeBits, hsize] at hstream hbits
  rw [hlen] at hbits
  exact ⟨out, hflush, hidx.trans hstream, hstream, hbits⟩

theorem encode_eq (h : code.Built data t) :
    code.encode (code.estimate data % 8) (code.compressedSize data) data =
      ((HuffBuffer.output (code.compressedSize data)).writeBits
        (code.outputBits data t)).flush := by
  unfold HuffCode.encode
  dsimp only
  rw [h.writeTree_eq, Option.bind_eq_bind, Option.bind_some,
    h.encode_content data (List.Subset.refl data), Option.bind_some, writeHeader_eq,
    ← HuffBuffer.writeBits_append, ← HuffBuffer.writeBits_append]
  rfl

/-- Every stage of the writing starts where the one before has stopped. -/
theorem position (h : code.Built data t) {u v : List Bool}
    (hu : code.outputBits data t = u ++ v) :
    ((HuffBuffer.output (code.compressedSize data)).writeBits u).position = u.length := by
  have hw := h.wrote
  rw [hu] at hw
  refine HuffBuffer.Wrote.position_eq ((HuffBuffer.wrote_output _).writeBits (u := u) ?_)
  have hfits := congrArg List.length hu
  have hsize : (HuffBuffer.output (code.compressedSize data)).streamSize =
      code.compressedSize data := List.length_replicate
  rw [h.length_outputBits, List.length_append] at hfits
  rw [hsize, List.length_nil, compressedSize]
  split_ifs
  · omega
  · omega

end Built
end HuffCode

/-! ### The result -/

section
variable {qsort : Qsort} {beyond : ℤ} {data : List UInt8} {code : HuffCode} {t : CodeTree UInt8}

/-- A code that has been built comes from a tree. -/
theorem built_of_buildCode (hne : data ≠ []) (hlt : data.length < 2^31)
    (h : buildCode qsort beyond data = some code) : ∃ t, code.Built data t := by
  have h1 : firstUnused (qsort.sort (countBytes data)) ≠ 1 := by
    intro h1
    rw [buildCode_eq_none qsort beyond h1] at h
    cases h
  obtain ⟨code', t, hcode, hb⟩ := exists_built qsort beyond hne hlt h1
  rw [hcode] at h
  cases h
  exact ⟨t, hb⟩

theorem compressData_eq (hne : data ≠ []) (h : buildCode qsort beyond data = some code) :
    compressData qsort beyond data =
      if code.compressedSize data > data.length then some (0x00 :: data)
      else (code.encode (code.estimate data % 8) (code.compressedSize data) data).map
        HuffBuffer.stream := by
  unfold compressData
  rw [if_neg hne, h, Option.bind_eq_bind, Option.bind_some]
  by_cases hbig : code.compressedSize data > data.length
  · rw [if_pos hbig]
    exact if_pos hbig
  · rw [if_neg hbig, Option.map_eq_bind]
    exact if_neg hbig

/-- The steps behind the construction of a code do what its size promises: if the result is
compressed, the header, the tree and the content are as many bits as were estimated, all of them
are stored, and they fill the space that was allocated. -/
structure ExactlySized (code : HuffCode) (data : List UInt8) (compressed : Option (List UInt8)) :
    Prop where
  plain : code.compressedSize data > data.length → compressed = some (0x00 :: data)
  packed : code.compressedSize data ≤ data.length → ∃ w out₁ out₂ out₃ out₄,
    code.writeHeader (code.estimate data % 8) data.length
      (.output (code.compressedSize data)) = out₁ ∧ out₁.position = 48 ∧
    code.writeTree (code.first0 * 2 - 1) [(code.treeRoot : ℤ)] out₁ = some out₂ ∧
      out₂.position = 48 + (10 * code.first0 - 1) ∧
    data.foldlM code.encodeByte out₂ = some out₃ ∧ out₃.position = code.estimate data ∧
      out₃.byteIndex = code.estimate data % 8 ∧ out₃.Wrote w ∧
      w.length = code.estimate data ∧
    out₃.flush = some out₄ ∧ out₄.streamIndex = code.compressedSize data ∧
      out₄.streamSize = code.compressedSize data ∧
      bits out₄.stream =
        w ++ List.replicate (8 * code.compressedSize data - code.estimate data) false ∧
    compressed = some out₄.stream
  length_le : ∃ result, compressed = some result ∧ result.length ≤ data.length + 1

theorem exactlySized (hne : data ≠ []) (hlt : data.length < 2^31)
    (hcode : buildCode qsort beyond data = some code) :
    ExactlySized code data (compressData qsort beyond data) := by
  obtain ⟨t, hb⟩ := built_of_buildCode hne hlt hcode
  have hdata := compressData_eq hne hcode
  obtain ⟨out, hout, hidx, hsize, hbits⟩ := hb.flush
  rw [hb.encode_eq, hout] at hdata
  refine ⟨fun hbig => ?_, fun hsmall => ?_, ?_⟩
  · rw [hdata, if_pos hbig]
  · have hlen := hb.length_outputBits
    have htree := HuffCode.length_treeBits t
    rw [hb.length_leaves] at htree
    have hheader := code.length_headerBits (code.estimate data % 8) data.length
    refine ⟨code.outputBits data t, _, _, _, out, HuffCode.writeHeader_eq _ _ _ _, ?_,
      hb.writeTree_eq _, ?_, hb.encode_content data (List.Subset.refl data) _, ?_, ?_, ?_, hlen,
      ?_, hidx, hsize, hbits, ?_⟩
    · have hp := hb.position (u := code.headerBits (code.estimate data % 8) data.length)
        (v := HuffCode.treeBits t ++ t.encode data) (List.append_assoc _ _ _)
      rw [hp, hheader]
    · have hp := hb.position (u := code.headerBits (code.estimate data % 8) data.length ++
        HuffCode.treeBits t) (v := t.encode data) rfl
      rw [← HuffBuffer.writeBits_append, hp, List.length_append, hheader]
      omega
    · rw [← HuffBuffer.writeBits_append, ← HuffBuffer.writeBits_append]
      exact hb.wrote.position_eq.trans hlen
    · rw [← HuffBuffer.writeBits_append, ← HuffBuffer.writeBits_append]
      exact hb.wrote.byteIndex_eq.trans (congrArg (· % 8) hlen)
    · rw [← HuffBuffer.writeBits_append, ← HuffBuffer.writeBits_append]
      exact hb.wrote
    · rw [← HuffBuffer.writeBits_append, ← HuffBuffer.writeBits_append]
      exact hout
    · rw [hdata, if_neg (not_lt.mpr hsmall)]
      rfl
  · by_cases hbig : code.compressedSize data > data.length
    · rw [hdata, if_pos hbig]
      exact ⟨_, rfl, le_of_eq List.length_cons⟩
    · rw [hdata, if_neg hbig]
      refine ⟨_, rfl, ?_⟩
      change out.streamSize ≤ _
      omega

/-- A code is built for the data, and its size is exact. -/
def SizesExactly (qsort : Qsort) (beyond : ℤ) (data : List UInt8) : Prop :=
  ∃ code, buildCode qsort beyond data = some code ∧
    ExactlySized code data (compressData qsort beyond data)

theorem buildCode_replicate {b : UInt8} (h : data = List.replicate (2^31 - 1) b) :
    buildCode .unusedFirst beyond data = none := by
  obtain ⟨hlen, hall⟩ := List.eq_replicate_iff.mp h
  exact buildCode_eq_none _ _ (firstUnused_eq_one hall hlen)

theorem compressData_replicate {b : UInt8} (h : data = List.replicate (2^31 - 1) b) :
    compressData .unusedFirst beyond data = none := by
  have hne : data ≠ [] := by
    rintro rfl
    exact absurd (congrArg List.length h) (by rw [List.length_replicate]; decide)
  unfold compressData
  rw [if_neg hne, buildCode_replicate h]
  rfl

/-- The size estimate is exact, however the bytes are sorted, for every stream but the one that is
too uniform to be counted. -/
theorem size_estimate_exact_iff (hne : data ≠ []) (hlt : data.length < 2^31) :
    (∀ qsort beyond, SizesExactly qsort beyond data) ↔
      ∀ b, data ≠ List.replicate (2^31 - 1) b := by
  constructor
  · intro h b hb
    obtain ⟨code, hcode, -⟩ := h .unusedFirst 0
    rw [buildCode_replicate hb] at hcode
    exact nomatch hcode
  · intro hrep qsort beyond
    obtain ⟨code, t, hcode, -⟩ :=
      exists_built qsort beyond hne hlt (firstUnused_ne_one qsort hne hlt hrep)
    exact ⟨code, hcode, exactlySized hne hlt hcode⟩

/-- A line of twenty bytes. -/
def lineOfTwenty : List UInt8 :=
  [61, 61, 61, 61, 61, 61, 61, 61, 61, 62, 61, 61, 61, 61, 61, 61, 61, 61, 61, 62]

/-- It takes the branch that compresses. -/
theorem size_estimate_exact_iff_line : SizesExactly .stable 0 lineOfTwenty ∧
    (buildCode .stable 0 lineOfTwenty).map (·.estimate lineOfTwenty) = some 117 :=
  ⟨(size_estimate_exact_iff (by decide) (by decide)).mpr (not_replicate_of_length (by decide))
    .stable 0, by decide +kernel⟩

/-- As many equal bytes as an `int` can count. -/
def manyOnes : List UInt8 := List.replicate (2^31 - 1) 1

theorem length_manyOnes : manyOnes.length = 2^31 - 1 := List.length_replicate

/-- The ones are sorted behind a byte that is not in use, and the tree of that one has no root. -/
theorem manyOnes_without_size :
    ¬ ∀ (data : List UInt8) (qsort : Qsort) (beyond : ℤ), data ≠ [] → data.length < 2^31 →
      SizesExactly qsort beyond data := by
  intro h
  have hne : manyOnes ≠ [] := List.ne_nil_of_length_pos (by rw [length_manyOnes]; decide)
  obtain ⟨code, hcode, -⟩ :=
    h manyOnes .unusedFirst 0 hne (by rw [length_manyOnes]; decide)
  rw [buildCode_replicate (rfl : manyOnes = _)] at hcode
  exact nomatch hcode

end
end StorageServer.Common
