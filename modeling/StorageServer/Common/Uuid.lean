import StorageServer.Common.Integers
import StorageServer.Library.Bytes
import Mathlib.Data.Bool.AllAny
import Mathlib.Data.List.Forall2
import Mathlib.Data.List.GetD
import Mathlib.Data.Nat.Digits.Lemmas

/-! How identifiers are made and printed on a little-endian machine. -/
namespace StorageServer.Common
open Library.Bytes

/-- What `rand` returns, an `int` that is not negative. -/
abbrev RandResult := Fin (2^31)

/-- The byte `b[j]` of an `int`. -/
def intByte (i j : ℕ) : UInt8 := UInt8.ofNat (i / 256^j)

/-- The bits of `data[k].i`. -/
def dataInt (u : UUID) (k : Fin 4) : ℕ :=
  ofBytes [u[4 * k.val], u[4 * k.val + 1], u[4 * k.val + 2], u[4 * k.val + 3]]

def uuidNew (rand : Fin 4 → RandResult) : UUID :=
  let uuid : UUID := .ofFn fun b => intByte (rand (Fin.divNat (m := 4) (n := 4) b)) (b % 4)
  -- Setting version
  let uuid := uuid.set (4 * 1 + 2) ((uuid[4 * 1 + 2] &&& 0x0F) ||| 0x40)
  -- Setting variant
  uuid.set (4 * 2 + 1) ((uuid[4 * 2 + 1] &&& 0x3F) ||| 0x80)

def hexDigit (d : ℕ) : UInt8 := UInt8.ofNat (if d < 10 then 48 + d else 55 + d)

/-- The conversion `%0wX`, for a positive width. -/
def formatHex (width n : ℕ) : List UInt8 :=
  ((Nat.digits 16 n).map hexDigit).reverse.leftpad width (hexDigit 0)

/-- The buffer has 37 bytes, one of them for the zero at the end. -/
def uuidToString (u : UUID) : List UInt8 :=
  (formatHex 8 ((dataInt u 0 &&& 0xFFFFFFFF) >>> 0) ++ ascii "-" ++
    formatHex 4 ((dataInt u 1 &&& 0xFFFF0000) >>> 16) ++ ascii "-" ++
    formatHex 4 ((dataInt u 1 &&& 0x0000FFFF) >>> 0) ++ ascii "-" ++
    formatHex 4 ((dataInt u 2 &&& 0xFFFF0000) >>> 16) ++ ascii "-" ++
    formatHex 4 ((dataInt u 2 &&& 0x0000FFFF) >>> 0) ++
    formatHex 8 ((dataInt u 3 &&& 0xFFFFFFFF) >>> 0)).take 36

/-! ### Canonical texts -/

/-- A character fits a pattern: `x` is a hexadecimal digit, `t` an octal one, `N` the digit of the
variant, and every other character stands for itself. -/
def Fits (pattern c : UInt8) : Prop :=
  c ∈ if pattern = 120 then ascii "0123456789ABCDEF"
    else if pattern = 116 then ascii "01234567"
    else if pattern = 78 then ascii "89AB"
    else [pattern]

instance (pattern c : UInt8) : Decidable (Fits pattern c) := inferInstanceAs (Decidable (_ ∈ _))

/-- The canonical text of an identifier of version 4. -/
def Canonical (text : List UInt8) : Prop :=
  List.Forall₂ Fits (ascii "xxxxxxxx-xxxx-4xxx-Nxxx-xxxxxxxxxxxx") text

instance (text : List UInt8) : Decidable (Canonical text) :=
  inferInstanceAs (Decidable (List.Forall₂ _ _ _))

/-! ### Digits -/

section
variable {w m n d : ℕ}

theorem hexDigit_inj (hm : m < 16) (hn : n < 16) (h : hexDigit m = hexDigit n) : m = n := by
  have hall : ∀ m < 16, ∀ n < 16, hexDigit m = hexDigit n → m = n := by decide
  exact hall m hm n hn h

theorem fits_hexDigit (n : ℕ) : Fits 120 (hexDigit (n % 16)) := by
  have hall : ∀ d < 16, Fits 120 (hexDigit d) := by decide
  exact hall _ (Nat.mod_lt n (by decide))

theorem digitsAppend_eq (h : n < 16^w) :
    Nat.digitsAppend 16 w n = (List.range w).map fun i => n / 16^i % 16 := by
  have hlen := Nat.length_digitsAppend (b := 16) (by decide) w h
  refine List.ext_getElem (by rw [hlen, List.length_map, List.length_range]) fun i _ _ => ?_
  rw [List.getElem_map, List.getElem_range, ← Nat.getD_digits n i (by decide)]
  simp only [Nat.digitsAppend, List.getElem_append]
  split_ifs with hi
  · exact (List.getD_eq_getElem _ 0 hi).symm
  · rw [List.getElem_replicate, List.getD_eq_default _ 0 (Nat.not_lt.mp hi)]

theorem formatHex_eq (h : n < 16^w) :
    formatHex w n = ((List.range w).map fun i => hexDigit (n / 16^i % 16)).reverse := by
  rw [formatHex, List.leftpad, List.length_reverse, List.length_map, ← List.reverse_replicate,
    ← List.reverse_append, ← List.map_replicate, ← List.map_append, ← Nat.digitsAppend,
    digitsAppend_eq h, List.map_map]
  rfl

theorem length_formatHex (h : n < 16^w) : (formatHex w n).length = w := by
  rw [formatHex_eq h, List.length_reverse, List.length_map, List.length_range]

/-- Different numbers have different digits. -/
theorem formatHex_inj (hm : m < 16^w) (hn : n < 16^w) (h : formatHex w m = formatHex w n) :
    m = n := by
  rw [formatHex_eq hm, formatHex_eq hn, List.reverse_inj, List.map_inj_left] at h
  have hdigits : Nat.digitsAppend 16 w m = Nat.digitsAppend 16 w n := by
    rw [digitsAppend_eq hm, digitsAppend_eq hn]
    exact List.map_inj_left.mpr fun i hi =>
      hexDigit_inj (Nat.mod_lt _ (by decide)) (Nat.mod_lt _ (by decide)) (h i hi)
  rw [← Nat.ofDigits_digits 16 m, ← Nat.ofDigits_append_replicate_zero, ← Nat.digitsAppend, hdigits,
    Nat.digitsAppend, Nat.ofDigits_append_replicate_zero, Nat.ofDigits_digits]

/-- The digits of a number are hexadecimal ones. -/
theorem fits_formatHex (h : n < 16^w) :
    List.Forall₂ Fits (List.replicate w 120) (formatHex w n) := by
  refine List.forall₂_iff_get.mpr ⟨?_, fun i _ hi => ?_⟩
  · rw [List.length_replicate, length_formatHex h]
  · obtain ⟨j, -, hj⟩ : ∃ j ∈ List.range w,
        hexDigit (n / 16^j % 16) = (formatHex w n).get ⟨i, hi⟩ := by
      rw [← List.mem_map, ← List.mem_reverse, ← formatHex_eq h]
      exact List.get_mem _ _
    rw [← hj, List.get_eq_getElem, List.getElem_replicate]
    exact fits_hexDigit _

end

/-! ### Words -/

section
variable {x : ℕ}

theorem and_high (h : x < 2^32) : (x &&& 0xFFFF0000) >>> 16 = x / 2^16 := by
  have hmask : 0xFFFF0000 >>> 16 = 2^16 - 1 := by decide
  rw [Nat.shiftRight_and_distrib, hmask, Nat.and_two_pow_sub_one_eq_mod, Nat.shiftRight_eq_div_pow,
    Nat.mod_eq_of_lt (by omega)]

theorem and_low (x : ℕ) : (x &&& 0x0000FFFF) >>> 0 = x % 2^16 :=
  Nat.and_two_pow_sub_one_eq_mod x 16

theorem and_all (h : x < 2^32) : (x &&& 0xFFFFFFFF) >>> 0 = x :=
  (Nat.and_two_pow_sub_one_eq_mod x 32).trans (Nat.mod_eq_of_lt h)

theorem dataInt_lt (u : UUID) (k : Fin 4) : dataInt u k < 2^32 :=
  (ofBytes_lt _).trans_eq (by simp)

/-- The integers of an identifier tell its bytes. -/
theorem eq_of_dataInt {u v : UUID} (h : ∀ k, dataInt u k = dataInt v k) : u = v := by
  have hword (k : Fin 4) : u[4 * k.val] = v[4 * k.val] ∧ u[4 * k.val + 1] = v[4 * k.val + 1] ∧
      u[4 * k.val + 2] = v[4 * k.val + 2] ∧ u[4 * k.val + 3] = v[4 * k.val + 3] := by
    have hbytes := congrArg (toBytes 4) (h k)
    have hu := toBytes_ofBytes [u[4 * k.val], u[4 * k.val + 1], u[4 * k.val + 2], u[4 * k.val + 3]]
    have hv := toBytes_ofBytes [v[4 * k.val], v[4 * k.val + 1], v[4 * k.val + 2], v[4 * k.val + 3]]
    simpa using hu.symm.trans (hbytes.trans hv)
  refine Vector.ext fun i hi => ?_
  obtain ⟨k, j, rfl⟩ : ∃ k j : Fin 4, i = 4 * k.val + j.val :=
    ⟨⟨i / 4, by omega⟩, ⟨i % 4, Nat.mod_lt i (by decide)⟩, (Nat.div_add_mod i 4).symm⟩
  obtain ⟨h0, h1, h2, h3⟩ := hword k
  match j, hi with
  | 0, _ => exact h0
  | 1, _ => exact h1
  | 2, _ => exact h2
  | 3, _ => exact h3

end

/-- The two halves of an integer have four digits each. -/
theorem halves_lt (u : UUID) (k : Fin 4) : dataInt u k / 2^16 < 16^4 ∧ dataInt u k % 2^16 < 16^4 :=
  ⟨Nat.div_lt_of_lt_mul (dataInt_lt u k), Nat.mod_lt _ (by decide)⟩

theorem uuidToString_eq (u : UUID) : uuidToString u =
    formatHex 8 (dataInt u 0) ++ [45] ++ formatHex 4 (dataInt u 1 / 2^16) ++ [45] ++
      formatHex 4 (dataInt u 1 % 2^16) ++ [45] ++ formatHex 4 (dataInt u 2 / 2^16) ++ [45] ++
      formatHex 4 (dataInt u 2 % 2^16) ++ formatHex 8 (dataInt u 3) := by
  have hdash : ascii "-" = [45] := by decide
  unfold uuidToString
  rw [and_all (dataInt_lt u 0), and_high (dataInt_lt u 1), and_low, and_high (dataInt_lt u 2),
    and_low, and_all (dataInt_lt u 3), hdash]
  have hword (k) : (formatHex 8 (dataInt u k)).length = 8 := length_formatHex (dataInt_lt u k)
  refine List.take_of_length_le ?_
  simp only [List.length_append, List.length_singleton, hword, length_formatHex (halves_lt u _).1,
    length_formatHex (halves_lt u _).2]
  decide

theorem uuidToString_injective : Function.Injective uuidToString := by
  intro u v h
  have hlen {w m n : ℕ} (hm : m < 16^w) (hn : n < 16^w) :
      (formatHex w m).length = (formatHex w n).length :=
    (length_formatHex hm).trans (length_formatHex hn).symm
  rw [uuidToString_eq, uuidToString_eq] at h
  -- The groups have equal lengths, so that they are equal one after another.
  obtain ⟨h, h3⟩ := List.append_inj' h (hlen (dataInt_lt u 3) (dataInt_lt v 3))
  obtain ⟨h, h2low⟩ := List.append_inj' h (hlen (halves_lt u 2).2 (halves_lt v 2).2)
  obtain ⟨h, h2high⟩ := List.append_inj' (List.append_cancel_right h)
    (hlen (halves_lt u 2).1 (halves_lt v 2).1)
  obtain ⟨h, h1low⟩ := List.append_inj' (List.append_cancel_right h)
    (hlen (halves_lt u 1).2 (halves_lt v 1).2)
  obtain ⟨h, h1high⟩ := List.append_inj' (List.append_cancel_right h)
    (hlen (halves_lt u 1).1 (halves_lt v 1).1)
  have h0 := formatHex_inj (dataInt_lt u 0) (dataInt_lt v 0) (List.append_cancel_right h)
  have hhalves (k : Fin 4) (hhigh : formatHex 4 (dataInt u k / 2^16) =
      formatHex 4 (dataInt v k / 2^16)) (hlow : formatHex 4 (dataInt u k % 2^16) =
      formatHex 4 (dataInt v k % 2^16)) : dataInt u k = dataInt v k := by
    have hd := formatHex_inj (halves_lt u k).1 (halves_lt v k).1 hhigh
    have hm := formatHex_inj (halves_lt u k).2 (halves_lt v k).2 hlow
    omega
  refine eq_of_dataInt fun k => ?_
  match k with
  | 0 => exact h0
  | 1 => exact hhalves 1 h1high h1low
  | 2 => exact hhalves 2 h2high h2low
  | 3 => exact formatHex_inj (dataInt_lt u 3) (dataInt_lt v 3) h3

/-! ### New identifiers -/

theorem version_digit (b : UInt8) : ((b &&& 0x0F) ||| 0x40).toNat / 2^4 = 4 := by
  have hmask : (0x0F : UInt8).toNat >>> 4 = 0 := by decide
  rw [← Nat.shiftRight_eq_div_pow, UInt8.toNat_or, UInt8.toNat_and, Nat.shiftRight_or_distrib,
    Nat.shiftRight_and_distrib, hmask, Nat.and_zero]
  rfl

theorem variant_digit (b : UInt8) : ∃ d < 4, ((b &&& 0x3F) ||| 0x80).toNat / 2^4 = 8 + d := by
  have hmask : (0x3F : UInt8).toNat >>> 4 = 2^2 - 1 := by decide
  have hor : ∀ d < 4, d ||| (0x80 : UInt8).toNat >>> 4 = 8 + d := by decide
  refine ⟨b.toNat >>> 4 % 2^2, Nat.mod_lt _ (by decide), ?_⟩
  rw [← Nat.shiftRight_eq_div_pow, UInt8.toNat_or, UInt8.toNat_and, Nat.shiftRight_or_distrib,
    Nat.shiftRight_and_distrib, hmask, Nat.and_two_pow_sub_one_eq_mod]
  exact hor _ (Nat.mod_lt _ (by decide))

variable (rand : Fin 4 → RandResult)

theorem dataInt_one : dataInt (uuidNew rand) 1 = ofBytes [intByte (rand 1) 0, intByte (rand 1) 1,
    (intByte (rand 1) 2 &&& 0x0F) ||| 0x40, intByte (rand 1) 3] := by
  simp [dataInt, uuidNew, Fin.divNat]

theorem dataInt_two : dataInt (uuidNew rand) 2 = ofBytes [intByte (rand 2) 0,
    (intByte (rand 2) 1 &&& 0x3F) ||| 0x80, intByte (rand 2) 2, intByte (rand 2) 3] := by
  simp [dataInt, uuidNew, Fin.divNat]

/-- The version is the third digit of the second group, not the first one of the third group. -/
theorem second_group : dataInt (uuidNew rand) 1 / 2^16 / 16^1 % 16 = 4 := by
  have hb := version_digit (intByte (rand 1) 2)
  have h0 := (intByte (rand 1) 0).toNat_lt
  have h1 := (intByte (rand 1) 1).toNat_lt
  rw [dataInt_one, ofBytes, ofBytes, ofBytes]
  omega

/-- The variant is the first digit of the fifth group. -/
theorem fifth_group : ∃ d < 4, dataInt (uuidNew rand) 2 % 2^16 / 16^3 % 16 = 8 + d := by
  obtain ⟨d, hd, hb⟩ := variant_digit (intByte (rand 2) 1)
  have h0 := (intByte (rand 2) 0).toNat_lt
  refine ⟨d, hd, ?_⟩
  rw [dataInt_two, ofBytes, ofBytes]
  omega

/-- The first digit of the fourth group has the sign of the third random number. -/
theorem fourth_group : dataInt (uuidNew rand) 2 / 2^16 / 16^3 % 16 < 8 := by
  have hsign : (intByte (rand 2) 3).toNat < 2^7 := by
    have hlt := (rand 2).isLt
    rw [intByte, UInt8.toNat_ofNat']
    omega
  have h0 := (intByte (rand 2) 0).toNat_lt
  have h1 := ((intByte (rand 2) 1 &&& 0x3F) ||| 0x80).toNat_lt
  have h2 := (intByte (rand 2) 2).toNat_lt
  rw [dataInt_two]
  simp only [ofBytes]
  omega

theorem formatHex_four {n : ℕ} (h : n < 16^4) : formatHex 4 n =
    [hexDigit (n / 16^3 % 16), hexDigit (n / 16^2 % 16), hexDigit (n / 16^1 % 16),
      hexDigit (n / 16^0 % 16)] := formatHex_eq h

/-- What new identifiers look like. -/
theorem uuidToString_uuidNew : List.Forall₂ Fits (ascii "xxxxxxxx-xx4x-xxxx-txxx-Nxxxxxxxxxxx")
    (uuidToString (uuidNew rand)) := by
  have hpattern : ascii "xxxxxxxx-xx4x-xxxx-txxx-Nxxxxxxxxxxx" =
      List.replicate 8 120 ++ [45] ++ [120, 120, 52, 120] ++ [45] ++ List.replicate 4 120 ++ [45] ++
        [116, 120, 120, 120] ++ [45] ++ [78, 120, 120, 120] ++ List.replicate 8 120 := by decide
  have hdash : List.Forall₂ Fits [45] [45] := by decide
  have hdigits (a b c : ℕ) : List.Forall₂ Fits [120, 120, 120]
      [hexDigit (a % 16), hexDigit (b % 16), hexDigit (c % 16)] :=
    .cons (fits_hexDigit a) (.cons (fits_hexDigit b) (.cons (fits_hexDigit c) .nil))
  have hsecond : List.Forall₂ Fits [120, 120, 52, 120]
      (formatHex 4 (dataInt (uuidNew rand) 1 / 2^16)) := by
    rw [formatHex_four (halves_lt _ 1).1, second_group]
    have hfour : Fits 52 (hexDigit 4) := by decide
    refine .cons (fits_hexDigit _) (.cons (fits_hexDigit _) (.cons hfour ?_))
    exact .cons (fits_hexDigit _) .nil
  have hfourth : List.Forall₂ Fits [116, 120, 120, 120]
      (formatHex 4 (dataInt (uuidNew rand) 2 / 2^16)) := by
    have hall : ∀ d < 8, Fits 116 (hexDigit d) := by decide
    rw [formatHex_four (halves_lt _ 2).1]
    exact .cons (hall _ (fourth_group rand)) (hdigits _ _ _)
  have hfifth : List.Forall₂ Fits [78, 120, 120, 120]
      (formatHex 4 (dataInt (uuidNew rand) 2 % 2^16)) := by
    have hall : ∀ d < 4, Fits 78 (hexDigit (8 + d)) := by decide
    obtain ⟨d, hd, hgroup⟩ := fifth_group rand
    rw [formatHex_four (halves_lt _ 2).2, hgroup]
    exact .cons (hall d hd) (hdigits _ _ _)
  rw [uuidToString_eq, hpattern]
  refine List.rel_append (List.rel_append ?_ hfifth) (fits_formatHex (dataInt_lt _ 3))
  refine List.rel_append (List.rel_append ?_ hfourth) hdash
  refine List.rel_append (List.rel_append ?_ (fits_formatHex (halves_lt _ 1).2)) hdash
  refine List.rel_append (List.rel_append ?_ hsecond) hdash
  exact List.rel_append (fits_formatHex (dataInt_lt _ 0)) hdash

/-- A new identifier is never printed as one of version 4, and different identifiers are printed
differently. -/
theorem uuid_never_canonical :
    ¬ Canonical (uuidToString (uuidNew rand)) ∧ Function.Injective uuidToString := by
  refine ⟨fun h => ?_, uuidToString_injective⟩
  have hprinted := uuidToString_uuidNew rand
  have hlen : 19 < (uuidToString (uuidNew rand)).length := by
    rw [← hprinted.length_eq]
    decide
  have hvariant := h.get (i := 19) (by decide) hlen
  have hoctal := hprinted.get (i := 19) (by decide) hlen
  generalize (uuidToString (uuidNew rand)).get ⟨19, hlen⟩ = c at hvariant hoctal
  have hall : ∀ c ∈ ascii "01234567", ¬ Fits 78 c := List.all_iff_forall_prop.mp (by decide)
  exact hall c hoctal hvariant

/-- The variant is not where it should be if all random numbers are 0. -/
theorem uuid_of_zeros : ¬ ((∀ rand, Canonical (uuidToString (uuidNew rand))) ∧
    Function.Injective uuidToString) := fun h => absurd (h.1 fun _ => 0) (by decide)

end StorageServer.Common
