import StorageServer.Common.Message
import Mathlib.Data.List.TakeWhile

/-! How integers are parsed. A string is given without its terminator; a `long` has 64 bits and an
`int` has 32. -/
namespace StorageServer.Common

def ascii (s : String) : List UInt8 := s.toList.map fun c => UInt8.ofNat c.toNat

/-- The function of the C locale. -/
def isSpace (b : UInt8) : Bool := b = 32 ∨ 9 ≤ b ∧ b ≤ 13

def isDigit (b : UInt8) : Bool := 48 ≤ b ∧ b ≤ 57

def digitsValue (digits : List UInt8) : ℕ :=
  digits.foldl (fun v d => 10 * v + (d.toNat - 48)) 0

inductive Sign
  | none
  | plus
  | minus

namespace Sign

def text : Sign → List UInt8
  | none => []
  | plus => ascii "+"
  | minus => ascii "-"

def apply : Sign → ℕ → ℤ
  | none, n | plus, n => n
  | minus, n => -n

/-- The sign at the beginning of a string, and what follows it. -/
def read : List UInt8 → Sign × List UInt8
  | 43::str => (plus, str)
  | 45::str => (minus, str)
  | str => (none, str)

end Sign

/-- What `strtol` returns, where it ends, and whether it sets `errno` to `ERANGE`. -/
structure Strtol where
  val : ℤ
  rest : List UInt8
  erange : Bool
  deriving DecidableEq

/-- A value that does not fit into a `long` is replaced by the bound that it exceeds. -/
def Strtol.ofValue (val : ℤ) (rest : List UInt8) : Strtol :=
  if val > 2^63 - 1 then ⟨2^63 - 1, rest, true⟩
  else if val < -2^63 then ⟨-2^63, rest, true⟩
  else ⟨val, rest, false⟩

/-- The function `strtol` with base 10. Without a digit it ends where it began. -/
def strtol (str : List UInt8) : Strtol :=
  let (sign, digits) := Sign.read (str.dropWhile isSpace)
  if digits.takeWhile isDigit = [] then ⟨0, str, false⟩
  else .ofValue (sign.apply (digitsValue (digits.takeWhile isDigit))) (digits.dropWhile isDigit)

def parsePositiveInteger (str : List UInt8) : ℤ :=
  let conversion := strtol str
  let val := toInt conversion.val
  if conversion.rest = str ∨ conversion.rest ≠ [] then -1
  else if conversion.erange then -2
  else val

/-! ### Decimal integers -/

/-- A decimal integer and its value: blanks, a sign or none, and digits up to the end. -/
def Decimal (str : List UInt8) (v : ℤ) : Prop :=
  ∃ blanks sign digits, str = blanks ++ (Sign.text sign ++ digits) ∧
    (∀ b ∈ blanks, isSpace b) ∧ digits ≠ [] ∧ (∀ d ∈ digits, isDigit d) ∧
    v = sign.apply (digitsValue digits)

section
variable {str digits : List UInt8} {v : ℤ}

theorem not_isSpace_of_isDigit {b : UInt8} (h : isDigit b) : isSpace b = false := by
  simp only [isDigit, isSpace, decide_eq_true_eq, decide_eq_false_iff_not, UInt8.le_iff_toNat_le,
    ← UInt8.toNat_inj] at h ⊢
  change 48 ≤ b.toNat ∧ b.toNat ≤ 57 at h
  change ¬ (b.toNat = 32 ∨ 9 ≤ b.toNat ∧ b.toNat ≤ 13)
  omega

/-- A sign is read back. -/
theorem read_text (sign : Sign) (hne : digits ≠ []) (hd : ∀ d ∈ digits, isDigit d) :
    Sign.read ((sign.text ++ digits).dropWhile isSpace) = (sign, digits) := by
  obtain ⟨d, ds, rfl⟩ := List.exists_cons_of_ne_nil hne
  have hdigit := hd d List.mem_cons_self
  cases sign with
  | plus => rfl
  | minus => rfl
  | none =>
    change Sign.read ((d::ds).dropWhile isSpace) = _
    rw [List.dropWhile_cons_of_neg (by rw [not_isSpace_of_isDigit hdigit]; decide)]
    unfold Sign.read
    split
    next str h =>
      obtain ⟨rfl, -⟩ := List.cons.inj h
      exact absurd hdigit (by decide)
    next str h =>
      obtain ⟨rfl, -⟩ := List.cons.inj h
      exact absurd hdigit (by decide)
    next => rfl

theorem strtol_of_decimal (h : Decimal str v) : strtol str = .ofValue v [] ∧ str ≠ [] := by
  obtain ⟨blanks, sign, digits, rfl, hblanks, hne, hd, rfl⟩ := h
  have hdrop : (blanks ++ (sign.text ++ digits)).dropWhile isSpace =
      (sign.text ++ digits).dropWhile isSpace := List.dropWhile_append_of_pos hblanks
  have htake : digits.takeWhile isDigit = digits := List.takeWhile_eq_self_iff.mpr hd
  have hrest : digits.dropWhile isDigit = [] := List.dropWhile_eq_nil_iff.mpr hd
  constructor
  · unfold strtol
    rw [hdrop, read_text sign hne hd]
    dsimp only
    rw [htake, hrest, if_neg hne]
  · simp [hne]

theorem text_read (str : List UInt8) : (Sign.read str).1.text ++ (Sign.read str).2 = str := by
  unfold Sign.read
  split <;> rfl

theorem Decimal.value_eq (h : Decimal str v) :
    v = (Sign.read (str.dropWhile isSpace)).1.apply
      (digitsValue (Sign.read (str.dropWhile isSpace)).2) := by
  obtain ⟨blanks, sign, digits, rfl, hblanks, hne, hd, rfl⟩ := h
  rw [List.dropWhile_append_of_pos hblanks, read_text sign hne hd]

/-- A string has one value at most. -/
theorem Decimal.unique {v' : ℤ} (h : Decimal str v) (h' : Decimal str v') : v = v' :=
  h.value_eq.trans h'.value_eq.symm

/-- Every natural number has a text. -/
theorem exists_digits (n : ℕ) :
    ∃ digits : List UInt8, digits ≠ [] ∧ (∀ d ∈ digits, isDigit d) ∧ digitsValue digits = n := by
  have hdigit : ∀ d < 10, isDigit (UInt8.ofNat (48 + d)) ∧
      (UInt8.ofNat (48 + d)).toNat - 48 = d := by decide
  induction n using Nat.strongRecOn with
  | ind n ih =>
    by_cases hlt : n < 10
    · obtain ⟨hd, hval⟩ := hdigit n hlt
      refine ⟨[UInt8.ofNat (48 + n)], by simp, by simpa using hd, ?_⟩
      change 10 * 0 + ((UInt8.ofNat (48 + n)).toNat - 48) = n
      omega
    · obtain ⟨digits, hne, hds, hvalue⟩ := ih (n / 10) (by omega)
      obtain ⟨hd, hval⟩ := hdigit (n % 10) (by omega)
      refine ⟨digits ++ [UInt8.ofNat (48 + n % 10)], by simp, fun d h => ?_, ?_⟩
      · rcases List.mem_append.mp h with h | h
        · exact hds d h
        · exact List.mem_singleton.mp h ▸ hd
      · unfold digitsValue at hvalue ⊢
        rw [List.foldl_append, hvalue]
        change 10 * (n / 10) + ((UInt8.ofNat (48 + n % 10)).toNat - 48) = n
        omega

theorem rest_ofValue (v : ℤ) (rest : List UInt8) : (Strtol.ofValue v rest).rest = rest := by
  unfold Strtol.ofValue
  split_ifs <;> rfl

/-- When the whole string has been read, it is a decimal integer. -/
theorem decimal_of_strtol (hne : (strtol str).rest ≠ str) (hend : (strtol str).rest = []) :
    ∃ v, Decimal str v := by
  have hread := text_read (str.dropWhile isSpace)
  unfold strtol at hne hend
  generalize Sign.read (str.dropWhile isSpace) = r at hread hne hend
  obtain ⟨sign, digits⟩ := r
  dsimp only at hread hne hend
  split_ifs at hne hend with htake
  · exact absurd rfl hne
  · rw [rest_ofValue] at hend
    have hd : ∀ d ∈ digits, isDigit d := List.dropWhile_eq_nil_iff.mp hend
    have hdigits : digits ≠ [] := by
      rintro rfl
      exact htake rfl
    refine ⟨_, str.takeWhile isSpace, sign, digits, ?_, fun b hb => List.mem_takeWhile_imp hb,
      hdigits, hd, rfl⟩
    rw [hread, List.takeWhile_append_dropWhile]

theorem parsePositiveInteger_of_not_decimal (h : ∀ v, ¬ Decimal str v) :
    parsePositiveInteger str = -1 := by
  refine if_pos ?_
  by_contra hne
  rw [not_or, not_not] at hne
  obtain ⟨v, hv⟩ := decimal_of_strtol hne.1 hne.2
  exact h v hv

theorem parsePositiveInteger_of_long (h : Decimal str v) (hmin : -2^63 ≤ v) (hmax : v ≤ 2^63 - 1) :
    parsePositiveInteger str = toInt v := by
  obtain ⟨hs, hne⟩ := strtol_of_decimal h
  rw [Strtol.ofValue, if_neg (by omega), if_neg (by omega)] at hs
  unfold parsePositiveInteger
  rw [hs]
  dsimp only
  rw [if_neg (by simpa using Ne.symm hne), if_neg Bool.false_ne_true]

theorem parsePositiveInteger_of_range (h : Decimal str v) (hrange : ¬ (-2^63 ≤ v ∧ v ≤ 2^63 - 1)) :
    parsePositiveInteger str = -2 := by
  obtain ⟨hs, hne⟩ := strtol_of_decimal h
  have hs' : ∃ bound, strtol str = ⟨bound, [], true⟩ := by
    rw [hs, Strtol.ofValue]
    split_ifs with h1 h2
    · exact ⟨_, rfl⟩
    · exact ⟨_, rfl⟩
    · omega
  obtain ⟨bound, hs⟩ := hs'
  unfold parsePositiveInteger
  rw [hs]
  dsimp only
  rw [if_neg (by simpa using Ne.symm hne), if_pos rfl]

/-! ### What is accepted -/

/-- The integers from 0 to the greatest `int` are accepted, and nothing else. -/
def Accepts (str : List UInt8) : Prop :=
  (∀ v, 0 ≤ v → (parsePositiveInteger str = v ↔ Decimal str v ∧ v ≤ 2^31 - 1)) ∧
    ((¬ ∃ v, Decimal str v ∧ 0 ≤ v ∧ v ≤ 2^31 - 1) → parsePositiveInteger str < 0)

theorem toInt_nonneg : 0 ≤ toInt v ↔ v % 2^32 < 2^31 := by
  unfold toInt
  rw [Int.bmod_def]
  split_ifs <;> omega

theorem toInt_of_lt (h : v % 2^32 < 2^31) : toInt v = v % 2^32 := by
  unfold toInt
  rw [Int.bmod_def]
  split_ifs <;> omega

/-- A `long` outside of the range of the positive integers is refused unless its lower 32 bits are
a positive `int`. -/
theorem accepts_iff (str : List UInt8) : Accepts str ↔ ∀ v, Decimal str v →
    -2^63 ≤ v → v ≤ 2^63 - 1 → v % 2^32 < 2^31 → 0 ≤ v ∧ v ≤ 2^31 - 1 := by
  constructor
  · intro h v hv hmin hmax hlow
    have hparse := parsePositiveInteger_of_long hv hmin hmax
    rw [toInt_of_lt hlow] at hparse
    obtain ⟨hv', hle⟩ := (h.1 (v % 2^32) (by omega)).mp hparse
    have he := hv.unique hv'
    omega
  · intro h
    by_cases hdec : ∃ v, Decimal str v
    · obtain ⟨v, hv⟩ := hdec
      by_cases hlong : -2^63 ≤ v ∧ v ≤ 2^63 - 1
      · have hparse := parsePositiveInteger_of_long hv hlong.1 hlong.2
        have hlow := h v hv hlong.1 hlong.2
        rw [Accepts, hparse]
        refine ⟨fun w hw => ⟨fun he => ?_, fun ⟨hw', hle⟩ => ?_⟩, fun hnone => ?_⟩
        · have hpos := toInt_nonneg.mp (he ▸ hw)
          have hrange := hlow hpos
          rw [toInt_of_lt hpos] at he
          obtain rfl : v = w := by omega
          exact ⟨hv, hrange.2⟩
        · obtain rfl := hv.unique hw'
          have hpos : v % 2^32 < 2^31 := by omega
          rw [toInt_of_lt hpos]
          omega
        · by_contra hge
          exact hnone ⟨v, hv, hlow (toInt_nonneg.mp (Int.not_lt.mp hge))⟩
      · have hparse := parsePositiveInteger_of_range hv hlong
        rw [Accepts, hparse]
        refine ⟨fun w hw => ⟨fun he => by omega, fun ⟨hw', hle⟩ => ?_⟩, fun _ => by decide⟩
        obtain rfl := hv.unique hw'
        omega
    · rw [not_exists] at hdec
      rw [Accepts, parsePositiveInteger_of_not_decimal hdec]
      exact ⟨fun w hw => ⟨fun he => by omega, fun ⟨hw', _⟩ => absurd hw' (hdec w)⟩,
        fun _ => by decide⟩

end

/-- 2^32 + 1 is taken for 1. -/
theorem wide_integer_accepted : ¬ ∀ str, Accepts str := by
  intro h
  have hdec : Decimal (ascii "4294967297") 4294967297 :=
    ⟨[], .none, ascii "4294967297", rfl, nofun, by decide, List.all_eq_true.mp (by decide), rfl⟩
  have hone : parsePositiveInteger (ascii "4294967297") = 1 := by decide
  have he := hdec.unique (((h _).1 1 (by decide)).mp hone).1
  exact absurd he (by decide)

end StorageServer.Common
