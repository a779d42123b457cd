import Mathlib.Data.List.Basic
import Mathlib.Data.Nat.Bitwise

/-! The bits of bytes, the highest bit of a byte first. -/
namespace StorageServer.Library.Bits

/-- The eight low bits of a number. -/
def byteBits (n : ℕ) : List Bool := (List.range 8).map fun i => n.testBit (7 - i)

/-- The bits of a stream of bytes. -/
def bits (bytes : List UInt8) : List Bool := bytes.flatMap fun b => byteBits b.toNat

@[simp] theorem length_byteBits (n : ℕ) : (byteBits n).length = 8 := by
  rw [byteBits, List.length_map, List.length_range]

theorem getElem?_byteBits {i : ℕ} (hi : i < 8) (n : ℕ) :
    (byteBits n)[i]? = some (n.testBit (7 - i)) := by
  rw [byteBits, List.getElem?_map, List.getElem?_range hi]
  rfl

theorem byteBits_zero : byteBits 0 = List.replicate 8 false := by decide

/-- Two bytes with the same bits are the same. -/
theorem byteBits_injective {a b : UInt8} (h : byteBits a.toNat = byteBits b.toNat) : a = b := by
  apply UInt8.toNat_inj.mp
  apply Nat.eq_of_testBit_eq
  intro i
  by_cases hi : i < 8
  · have hbit := congrArg (fun l : List Bool => l[7 - i]?) h
    rw [getElem?_byteBits (by omega), getElem?_byteBits (by omega),
      Nat.sub_sub_self (by omega)] at hbit
    exact Option.some.inj hbit
  · have hpow : 2^8 ≤ 2^i := Nat.pow_le_pow_right (by decide) (by omega)
    rw [Nat.testBit_lt_two_pow (a.toNat_lt.trans_le hpow),
      Nat.testBit_lt_two_pow (b.toNat_lt.trans_le hpow)]

theorem bits_cons (b : UInt8) (bytes : List UInt8) :
    bits (b :: bytes) = byteBits b.toNat ++ bits bytes := rfl

theorem bits_append (as bs : List UInt8) : bits (as ++ bs) = bits as ++ bits bs :=
  List.flatMap_append

@[simp] theorem length_bits (bytes : List UInt8) : (bits bytes).length = 8 * bytes.length := by
  induction bytes with
  | nil => rfl
  | cons b bytes ih =>
    rw [bits_cons, List.length_append, length_byteBits, ih, List.length_cons]
    omega

theorem getElem?_bits (bytes : List UInt8) (i : ℕ) :
    (bits bytes)[i]? = bytes[i / 8]?.map fun b => b.toNat.testBit (7 - i % 8) := by
  induction bytes generalizing i with
  | nil => rfl
  | cons b bytes ih =>
    rw [bits_cons]
    by_cases hi : i < 8
    · rw [List.getElem?_append_left (by rwa [length_byteBits]), getElem?_byteBits hi,
        Nat.div_eq_of_lt hi, Nat.mod_eq_of_lt hi]
      rfl
    · have hd : i / 8 = (i - 8) / 8 + 1 := by omega
      have hm : (i - 8) % 8 = i % 8 := by omega
      rw [List.getElem?_append_right (by rw [length_byteBits]; omega), length_byteBits, ih, hd, hm,
        List.getElem?_cons_succ]

theorem bits_injective {as bs : List UInt8} (h : bits as = bits bs) : as = bs := by
  induction as generalizing bs with
  | nil =>
    cases bs with
    | nil => rfl
    | cons b bs =>
      have := congrArg List.length h
      simp at this
  | cons a as ih =>
    cases bs with
    | nil =>
      have := congrArg List.length h
      simp at this
    | cons b bs =>
      rw [bits_cons, bits_cons] at h
      obtain ⟨hb, hbs⟩ := List.append_inj h (by rw [length_byteBits, length_byteBits])
      rw [byteBits_injective hb, ih hbs]

/-- Or with a single bit. -/
theorem testBit_or_bit {k i : ℕ} (hk : k < 8) (hi : i < 8) (byte : UInt8) (b : Bool) :
    (byte ||| UInt8.ofNat (b.toNat <<< (7 - k))).toNat.testBit (7 - i) =
      (byte.toNat.testBit (7 - i) || (b && decide (i = k))) := by
  have hlt : b.toNat <<< (7 - k) < 2^8 := by
    have hb : b.toNat < 2 := b.toNat_lt
    have hpow : 2^(7 - k) ≤ 2^7 := Nat.pow_le_pow_right (by decide) (by omega)
    rw [Nat.shiftLeft_eq]
    calc b.toNat * 2^(7 - k) ≤ 1 * 2^7 := Nat.mul_le_mul (by omega) hpow
      _ < 2^8 := by decide
  rw [UInt8.toNat_or, UInt8.toNat_ofNat_of_lt' hlt, Nat.testBit_or, Nat.testBit_shiftLeft]
  congr 1
  cases b with
  | false => simp
  | true =>
    rw [Bool.true_and, Bool.toNat_true, Bool.eq_iff_iff, Bool.and_eq_true, decide_eq_true_iff,
      decide_eq_true_iff, Nat.testBit_one_eq_true_iff_self_eq_zero]
    omega

/-- Setting the first bit that is not in use. -/
theorem byteBits_or {byte : UInt8} {p : List Bool} (hp : p.length < 8)
    (h : byteBits byte.toNat = p ++ List.replicate (8 - p.length) false) (b : Bool) :
    byteBits (byte ||| UInt8.ofNat (b.toNat <<< (7 - p.length))).toNat =
      p ++ b :: List.replicate (7 - p.length) false := by
  apply List.ext_getElem?
  intro i
  by_cases hi : i < 8
  · have hbit := congrArg (fun l : List Bool => l[i]?) h
    rw [getElem?_byteBits hi] at hbit
    rw [getElem?_byteBits hi, testBit_or_bit hp hi]
    rcases lt_trichotomy i p.length with hlt | rfl | hgt
    · rw [List.getElem?_append_left hlt] at hbit ⊢
      rw [decide_eq_false hlt.ne, Bool.and_false, Bool.or_false, hbit]
    · rw [List.getElem?_append_right le_rfl, Nat.sub_self,
        List.getElem?_replicate_of_lt (by omega)] at hbit
      rw [List.getElem?_append_right le_rfl, Nat.sub_self, Option.some.inj hbit]
      simp
    · rw [List.getElem?_append_right hgt.le, List.getElem?_replicate_of_lt (by omega)] at hbit
      obtain ⟨k, rfl⟩ : ∃ k, i = p.length + (k + 1) := ⟨i - p.length - 1, by omega⟩
      rw [List.getElem?_append_right (by omega), Nat.add_sub_cancel_left, List.getElem?_cons_succ,
        List.getElem?_replicate_of_lt (by omega), Option.some.inj hbit,
        decide_eq_false hgt.ne', Bool.and_false, Bool.or_false]
  · rw [List.getElem?_eq_none (by rw [length_byteBits]; omega),
      List.getElem?_eq_none (by
        simp only [List.length_append, List.length_cons, List.length_replicate]
        omega)]

end StorageServer.Library.Bits
