import Mathlib.Data.Nat.Notation
import Mathlib.Tactic.Ring

/-! Numbers as bytes, and blocks of bytes that are written or read from front to back. -/
namespace StorageServer.Library.Bytes

/-! ### Little-endian numbers -/

/-- The `n` lowest bytes of a number. -/
def toBytes : ℕ → ℕ → List UInt8
  | 0, _ => []
  | n+1, x => UInt8.ofNat x :: toBytes n (x / 256)

def ofBytes : List UInt8 → ℕ
  | [] => 0
  | b::bs => b.toNat + 256 * ofBytes bs

@[simp] theorem length_toBytes (n x : ℕ) : (toBytes n x).length = n := by
  induction n generalizing x with
  | zero => rfl
  | succ n ih => rw [toBytes, List.length_cons, ih]

theorem ofBytes_toBytes (n x : ℕ) : ofBytes (toBytes n x) = x % 256^n := by
  induction n generalizing x with
  | zero => rw [pow_zero, Nat.mod_one]; rfl
  | succ n ih =>
    have hb : (UInt8.ofNat x).toNat = x % 256 := by simp
    rw [toBytes, ofBytes, ih, hb, pow_succ', Nat.mod_mul]

theorem ofBytes_toBytes_of_lt {n x : ℕ} (h : x < 256^n) : ofBytes (toBytes n x) = x := by
  rw [ofBytes_toBytes, Nat.mod_eq_of_lt h]

theorem ofBytes_lt (bs : List UInt8) : ofBytes bs < 256^bs.length := by
  induction bs with
  | nil => exact Nat.one_pos
  | cons b bs ih =>
    have hb : b.toNat < 256 := b.toNat_lt
    rw [ofBytes, List.length_cons, pow_succ]
    omega

theorem toBytes_ofBytes (bs : List UInt8) : toBytes bs.length (ofBytes bs) = bs := by
  induction bs with
  | nil => rfl
  | cons b bs ih =>
    have hb : b.toNat < 256 := b.toNat_lt
    have hlow : UInt8.ofNat (b.toNat + 256 * ofBytes bs) = b := by
      apply UInt8.toNat_inj.mp
      rw [UInt8.toNat_ofNat']
      omega
    have hhigh : (b.toNat + 256 * ofBytes bs) / 256 = ofBytes bs := by omega
    rw [List.length_cons, ofBytes, toBytes, hlow, hhigh, ih]

/-- The `n` bytes from position `i` on, or what there is of them. -/
def slice (bs : List UInt8) (i n : ℕ) : List UInt8 := (bs.drop i).take n

/-- What lies inside of a list of bytes does not depend on what follows. -/
theorem slice_append {bs : List UInt8} {i n : ℕ} (h : i + n ≤ bs.length) (more : List UInt8) :
    slice (bs ++ more) i n = slice bs i n := by
  rw [slice, slice, List.drop_append_of_le_length (by omega),
    List.take_append_of_le_length (by rw [List.length_drop]; omega)]

theorem slice_between (pre : List UInt8) {mid : List UInt8} {i n : ℕ} (hi : pre.length = i)
    (hn : mid.length = n) (post : List UInt8) : slice (pre ++ (mid ++ post)) i n = mid := by
  rw [slice, ← hi, List.drop_left, ← hn, List.take_left]

theorem slice_drop (bs : List UInt8) (j i n : ℕ) : slice (bs.drop j) i n = slice bs (j + i) n := by
  rw [slice, slice, List.drop_drop]

/-! ### Cursors -/

/-- A position in a block of bytes. -/
structure Cursor where
  data : List UInt8
  pos : ℕ
  pos_le : pos ≤ data.length

namespace Cursor
variable {c c' : Cursor} {bs : List UInt8} {n : ℕ}

def start (data : List UInt8) : Cursor := ⟨data, 0, Nat.zero_le _⟩

/-- What lies before the cursor. -/
def before (c : Cursor) : List UInt8 := c.data.take c.pos

def rest (c : Cursor) : List UInt8 := c.data.drop c.pos

/-- Write at the cursor; `none` is a write beyond the end of the block. -/
def write (bs : List UInt8) (c : Cursor) : Option Cursor :=
  if h : c.pos + bs.length ≤ c.data.length then
    some {
      data := c.before ++ bs ++ c.rest.drop bs.length
      pos := c.pos + bs.length
      pos_le := by
        simp only [before, rest, List.length_append, List.length_take, List.length_drop]
        omega }
  else none

/-- Read at the cursor; `none` is a read beyond the end of the block. -/
def read (n : ℕ) (c : Cursor) : Option (List UInt8 × Cursor) :=
  if h : c.pos + n ≤ c.data.length then some (c.rest.take n, ⟨c.data, c.pos + n, h⟩) else none

@[simp] theorem before_start (data : List UInt8) : (start data).before = [] := rfl
@[simp] theorem rest_start (data : List UInt8) : (start data).rest = data := rfl

theorem length_before (c : Cursor) : c.before.length = c.pos := by
  rw [before, List.length_take]
  exact Nat.min_eq_left c.pos_le

theorem length_rest (c : Cursor) : c.rest.length = c.data.length - c.pos := List.length_drop

theorem ext_of_parts (hb : c.before = c'.before) (hr : c.rest = c'.rest) : c = c' := by
  have hpos : c.pos = c'.pos := by rw [← c.length_before, ← c'.length_before, hb]
  have hdata : c.data = c'.data := by
    rw [← List.take_append_drop c.pos c.data, ← List.take_append_drop c'.pos c'.data]
    exact congrArg₂ (· ++ ·) hb hr
  obtain ⟨data, pos, h⟩ := c
  obtain ⟨data', pos', h'⟩ := c'
  obtain rfl : data = data' := hdata
  obtain rfl : pos = pos' := hpos
  rfl

theorem write_eq_none : c.write bs = none ↔ c.rest.length < bs.length := by
  have hpos := c.pos_le
  rw [length_rest]
  unfold write
  split_ifs with h
  · simp
    omega
  · simp
    omega

/-- A write replaces what lies behind the cursor and moves the cursor on. -/
theorem write_eq_some :
    c.write bs = some c' ↔
      bs.length ≤ c.rest.length ∧ c'.before = c.before ++ bs ∧ c'.rest = c.rest.drop bs.length := by
  have hlen := c.length_before
  have hpos := c.pos_le
  have hl : (c.before ++ bs).length = c.pos + bs.length := by rw [List.length_append, hlen]
  rw [length_rest]
  unfold write
  split_ifs with h
  · set w : Cursor := ⟨c.before ++ bs ++ c.rest.drop bs.length, c.pos + bs.length, _⟩
    have hbefore : w.before = c.before ++ bs := by
      change (c.before ++ bs ++ _).take (c.pos + bs.length) = _
      rw [← hl, List.take_left]
    have hrest : w.rest = c.rest.drop bs.length := by
      change (c.before ++ bs ++ _).drop (c.pos + bs.length) = _
      rw [← hl, List.drop_left]
    constructor
    · intro hw
      rw [← Option.some.inj hw]
      exact ⟨by omega, hbefore, hrest⟩
    · rintro ⟨-, hb, hr⟩
      exact congrArg some (ext_of_parts (hbefore.trans hb.symm) (hrest.trans hr.symm))
  · constructor
    · intro hw
      cases hw
    · rintro ⟨hle, -, -⟩
      omega

theorem write_nil (c : Cursor) : c.write [] = some c :=
  write_eq_some.mpr ⟨Nat.zero_le _, (List.append_nil _).symm, rfl⟩

/-- Two writes in a row are one. -/
theorem write_append (xs ys : List UInt8) (c : Cursor) :
    c.write (xs ++ ys) = c.write xs >>= write ys := by
  cases hx : c.write xs with
  | none =>
    refine write_eq_none.mpr ?_
    have hlt := write_eq_none.mp hx
    rw [List.length_append]
    omega
  | some c₁ =>
    obtain ⟨hle, hb, hr⟩ := write_eq_some.mp hx
    change c.write (xs ++ ys) = c₁.write ys
    cases hy : c₁.write ys with
    | none =>
      have hlt := write_eq_none.mp hy
      rw [hr, List.length_drop] at hlt
      refine write_eq_none.mpr ?_
      rw [List.length_append]
      omega
    | some c₂ =>
      obtain ⟨hle', hb', hr'⟩ := write_eq_some.mp hy
      rw [hr, List.length_drop] at hle'
      refine write_eq_some.mpr ⟨?_, ?_, ?_⟩
      · rw [List.length_append]
        omega
      · rw [hb', hb, List.append_assoc]
      · rw [hr', hr, List.drop_drop, List.length_append]

theorem read_of_le (h : n ≤ c.rest.length) :
    ∃ c', c.read n = some (c.rest.take n, c') ∧ c'.rest = c.rest.drop n ∧ c'.pos = c.pos + n := by
  rw [length_rest] at h
  have hle : c.pos + n ≤ c.data.length := by
    have hpos := c.pos_le
    omega
  refine ⟨⟨c.data, c.pos + n, hle⟩, dif_pos hle, ?_, rfl⟩
  exact List.drop_drop.symm

theorem read_of_lt (h : c.rest.length < n) : c.read n = none := by
  rw [length_rest] at h
  exact dif_neg (by omega)

theorem read_zero (c : Cursor) : c.read 0 = some ([], c) := dif_pos c.pos_le

/-- Two reads in a row are one. -/
theorem read_add (m n : ℕ) (c : Cursor) : c.read (m + n) =
    c.read m >>= fun r => r.2.read n >>= fun r' => some (r.1 ++ r'.1, r'.2) := by
  unfold read
  by_cases hm : c.pos + m ≤ c.data.length
  · rw [dif_pos hm, Option.bind_eq_bind, Option.bind_some]
    dsimp only
    by_cases hmn : c.pos + m + n ≤ c.data.length
    · rw [dif_pos hmn, dif_pos (by omega), List.take_add]
      simp only [rest, List.drop_drop, Nat.add_assoc, Option.bind_some]
    · rw [dif_neg hmn, dif_neg (by omega)]
      rfl
  · rw [dif_neg hm, dif_neg (by omega)]
    rfl

end Cursor

/-! ### Readers -/

/-- The reader takes a number of bytes that depends on what lies behind the cursor, and computes
its result from them; if they are too few, it reads beyond the end. -/
def Reads {α : Type} (f : Cursor → Option (α × Cursor)) (n : List UInt8 → ℕ)
    (g : List UInt8 → α) : Prop :=
  ∀ c : Cursor,
    (n c.rest ≤ c.rest.length → ∃ c', f c = some (g c.rest, c') ∧
      c'.rest = c.rest.drop (n c.rest) ∧ c'.pos = c.pos + n c.rest) ∧
    (c.rest.length < n c.rest → f c = none)

namespace Reads
variable {α β : Type} {f : Cursor → Option (α × Cursor)} {n : List UInt8 → ℕ}
  {g : List UInt8 → α} {h : α → Cursor → Option (β × Cursor)} {m : α → List UInt8 → ℕ}
  {k : α → List UInt8 → β}

theorem read (size : ℕ) : Reads (Cursor.read size) (fun _ => size) (fun bs => bs.take size) :=
  fun _ => ⟨Cursor.read_of_le, Cursor.read_of_lt⟩

theorem pure (a : α) : Reads (fun c => some (a, c)) (fun _ => 0) (fun _ => a) :=
  fun c => ⟨fun _ => ⟨c, rfl, rfl, rfl⟩, fun h => absurd h (Nat.not_lt_zero _)⟩

theorem bind (hf : Reads f n g) (hh : ∀ a, Reads (h a) (m a) (k a)) :
    Reads (fun c => f c >>= fun r => h r.1 r.2)
      (fun bs => n bs + m (g bs) (bs.drop (n bs))) (fun bs => k (g bs) (bs.drop (n bs))) := by
  intro c
  constructor
  · intro hle
    dsimp only at hle
    obtain ⟨c₁, h₁, hr₁, hp₁⟩ := (hf c).1 (by omega)
    obtain ⟨c₂, h₂, hr₂, hp₂⟩ := (hh (g c.rest) c₁).1 (by rw [hr₁, List.length_drop]; omega)
    rw [hr₁] at h₂ hr₂ hp₂
    refine ⟨c₂, ?_, ?_, ?_⟩
    · change f c >>= _ = _
      rw [h₁]
      exact h₂
    · rw [hr₂, List.drop_drop]
    · rw [hp₂, hp₁, Nat.add_assoc]
  · intro hlt
    dsimp only at hlt
    change f c >>= _ = _
    by_cases hle : n c.rest ≤ c.rest.length
    · obtain ⟨c₁, h₁, hr₁, -⟩ := (hf c).1 hle
      rw [h₁]
      exact (hh (g c.rest) c₁).2 (by rw [hr₁, List.length_drop]; omega)
    · rw [(hf c).2 (by omega)]
      rfl

theorem congr {n' : List UInt8 → ℕ} {g' : List UInt8 → α} (hf : Reads f n g)
    (hn : ∀ bs, n bs = n' bs) (hg : ∀ bs, g bs = g' bs) : Reads f n' g' := by
  rwa [funext hn, funext hg] at hf

theorem map (hf : Reads f n g) (w : α → β) :
    Reads (fun c => f c >>= fun r => some (w r.1, r.2)) n (fun bs => w (g bs)) := by
  exact hf.bind (fun a => pure (w a))

end Reads

/-! ### Writers -/

/-- The writer writes these bytes. -/
def Writes (f : Cursor → Option Cursor) (bs : List UInt8) : Prop := ∀ c : Cursor, f c = c.write bs

namespace Writes
variable {f g : Cursor → Option Cursor} {xs ys : List UInt8}

theorem write (bs : List UInt8) : Writes (Cursor.write bs) bs := fun _ => rfl

theorem nothing : Writes some [] := fun c => c.write_nil.symm

theorem bind (hf : Writes f xs) (hg : Writes g ys) : Writes (fun c => f c >>= g) (xs ++ ys) := by
  intro c
  have hg : g = Cursor.write ys := funext hg
  change f c >>= g = _
  rw [hf, hg, Cursor.write_append]

end Writes
end StorageServer.Library.Bytes
