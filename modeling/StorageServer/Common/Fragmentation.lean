import StorageServer.Common.Net
import StorageServer.Library.Transfers

/-! The loops around `read` and `write`. The system moves as many bytes as it likes at a time, may
be interrupted by a signal and may fail; what it does is a sequence of results. The bytes that have
been written and not yet read are on their way. -/
namespace StorageServer.Common
open Library.Bytes Library.Transfers

/-- The loop of `readN` and of `writeN`, with the calls that the system answers; `none` stands for a
loop that still runs when the results are used up, and for an access outside of the buffer. -/
def transferN {σ : Type*} (call : ℕ → σ → Option σ) :
    List CallResult → ℕ → σ → Option (ℤ × σ)
  | [], size, s => if size > 0 then none else some (1, s)
  | result::results, size, s =>
    if size > 0 then
      match result with
      | .interrupted => transferN call results size s
      | .failed => some (-1, s)
      | .count r =>
        if r = 0 then some (0, s)
        else do
          let s ← call r s
          transferN call results (toSize (size - r)) s
    else some (1, s)

/-- The bytes on their way, and a pointer into the buffer. -/
structure Transfer where
  wire : List UInt8
  buf : Cursor

namespace Transfer

/-- A call of `read` that gives `r` bytes, which have to be there. -/
def read (r : ℕ) (s : Transfer) : Option Transfer :=
  if r ≤ s.wire.length then do
    let buf ← s.buf.write (s.wire.take r)
    return ⟨s.wire.drop r, buf⟩
  else none

/-- A call of `write` that takes `r` bytes. -/
def write (r : ℕ) (s : Transfer) : Option Transfer := do
  let (bytes, buf) ← s.buf.read r
  return ⟨s.wire ++ bytes, buf⟩

def readN (results : List CallResult) (size : ℕ) (s : Transfer) : Option (ℤ × Transfer) :=
  transferN read results size s

def writeN (results : List CallResult) (size : ℕ) (s : Transfer) : Option (ℤ × Transfer) :=
  transferN write results size s

end Transfer

/-! ### The loop -/

section
variable {σ : Type*} {call : ℕ → σ → Option σ} {results : ℕ → CallResult} {size k : ℕ} {s s' : σ}

theorem toSize_sub {r : ℕ} (hsize : size < 2^64) (hr : r ≤ size) :
    toSize (size - r) = size - r := by
  unfold toSize
  omega

section
variable {rest : List CallResult} (hpos : 0 < size)
include hpos

theorem transferN_interrupted :
    transferN call (.interrupted :: rest) size s = transferN call rest size s := if_pos hpos

theorem transferN_failed : transferN call (.failed :: rest) size s = some (-1, s) := if_pos hpos

theorem transferN_zero : transferN call (.count 0 :: rest) size s = some (0, s) := if_pos hpos

theorem transferN_count {n : ℕ} (hsize : size < 2^64) (hn : 0 < n) (hle : n ≤ size) :
    transferN call (.count n :: rest) size s =
      call n s >>= transferN call rest (size - n) := by
  have hstep : transferN call (.count n :: rest) size s = if n = 0 then some (0, s) else
      call n s >>= transferN call rest (toSize (size - n)) := if_pos hpos
  rw [hstep, if_neg hn.ne', toSize_sub hsize hle]

end

/-- The loop has made the first calls, and what they have moved is moved. -/
theorem transferN_firsts (hcall : Additive call) (hsize : size < 2^64)
    (hmade : ∀ i < k, Ongoing size results i) (hgoes : ∀ i < k, (results i).GoesOn)
    (hle : total results k ≤ size) (hs : call (total results k) s = some s')
    (rest : List CallResult) :
    transferN call (firsts results k ++ rest) size s =
      transferN call rest (size - total results k) s' := by
  induction k generalizing s' rest with
  | zero =>
    rw [total, hcall.zero] at hs
    obtain rfl := Option.some.inj hs
    rfl
  | succ k ih =>
    have hmono := total_mono results (Nat.le_succ k)
    have hlt := (hmade k (Nat.lt_succ_self k)).2
    obtain ⟨s₁, hs₁, hrest⟩ := hcall.split (m := total results k) (n := (results k).moved)
      (by rw [← total, hs]; rfl)
    rw [← total, hs] at hrest
    have hgoes₁ := hgoes k (Nat.lt_succ_self k)
    rw [firsts_succ, List.append_assoc, ih (fun i hi => hmade i (hi.trans (Nat.lt_succ_self k)))
      (fun i hi => hgoes i (hi.trans (Nat.lt_succ_self k))) (hmono.trans hle) hs₁,
      List.singleton_append, total]
    rw [total] at hle
    have hpos := Nat.sub_pos_of_lt hlt
    cases hr : results k with
    | count n =>
      rw [hr] at hle hrest hgoes₁
      dsimp only [CallResult.moved] at hle hrest ⊢
      rw [transferN_count hpos (by omega) hgoes₁ (by omega), ← hrest, Option.bind_eq_bind,
        Option.bind_some, Nat.sub_sub]
    | interrupted =>
      rw [hr] at hrest
      dsimp only [CallResult.moved] at hrest ⊢
      rw [hcall.zero] at hrest
      rw [transferN_interrupted hpos, Nat.add_zero, Option.some.inj hrest]
    | failed =>
      rw [hr] at hgoes₁
      exact hgoes₁.elim

/-- The loop has made `k` calls and returned `res`: 1 if and only if everything has been moved, 0 or
-1 if and only if the last call had such a result. -/
structure Exact (size : ℕ) (results : ℕ → CallResult) (k : ℕ) (res : ℤ) : Prop where
  made : ∀ i < k, Ongoing size results i
  one : res = 1 ↔ total results k = size
  zero : res = 0 ↔ ∃ i, k = i + 1 ∧ results i = .count 0
  minus_one : res = -1 ↔ ∃ i, k = i + 1 ∧ results i = .failed
  cases : res = 1 ∨ res = 0 ∨ res = -1

/-- The loop returns, and what its calls have moved is moved in one piece. -/
theorem exists_exact (hcall : Additive call) (hsize : size < 2^64)
    (ha : Allowed size size results) (hf : FinitelyInterrupted results)
    (hs : ∀ k, Ends size results k → (call (total results k) s).isSome) :
    ∃ k res s', transferN call (firsts results k) size s = some (res, s') ∧
      call (total results k) s = some s' ∧ Exact size results k res := by
  obtain ⟨k, hend⟩ := exists_ends ha hf
  obtain ⟨s', hs'⟩ := Option.isSome_iff_exists.mp (hs k hend)
  cases hend with
  | all made goes moved =>
    have hrun := transferN_firsts hcall hsize made goes moved.le hs' []
    rw [List.append_nil, moved, Nat.sub_self] at hrun
    refine ⟨k, 1, s', hrun, hs', made, ⟨fun _ => moved, fun _ => rfl⟩, ⟨nofun, ?_⟩, ⟨nofun, ?_⟩,
      Or.inl rfl⟩
    · rintro ⟨i, rfl, hi⟩
      have h := goes i (Nat.lt_succ_self i)
      rw [hi] at h
      exact absurd h (Nat.lt_irrefl 0)
    · rintro ⟨i, rfl, hi⟩
      have h := goes i (Nat.lt_succ_self i)
      rw [hi] at h
      exact h.elim
  | @stopped k last stops =>
    have hmoved : (results k).moved = 0 := by
      rcases CallResult.stops_iff.mp stops with h | h
      · rw [h]
        rfl
      · rw [h]
        rfl
    have htotal : total results (k + 1) = total results k := by rw [total, hmoved, Nat.add_zero]
    have hs₁ := hs'
    rw [htotal] at hs₁
    have hrun := transferN_firsts hcall hsize (fun i hi => last.mono hi.le) last.1 last.2.le hs₁
      [results k]
    rw [← firsts_succ] at hrun
    have hpos := Nat.sub_pos_of_lt last.2
    have hmade : ∀ i < k + 1, Ongoing size results i := fun i hi =>
      last.mono (Nat.le_of_lt_succ hi)
    have hne : total results (k + 1) ≠ size := htotal ▸ last.2.ne
    rcases CallResult.stops_iff.mp stops with h | h
    · rw [h, transferN_zero hpos] at hrun
      refine ⟨k + 1, 0, s', hrun, hs', hmade, ⟨nofun, fun h => absurd h hne⟩,
        ⟨fun _ => ⟨k, rfl, h⟩, fun _ => rfl⟩, ⟨nofun, ?_⟩, Or.inr (Or.inl rfl)⟩
      rintro ⟨i, hi, hfail⟩
      obtain rfl := Nat.succ.inj hi
      exact nomatch h.symm.trans hfail
    · rw [h, transferN_failed hpos] at hrun
      refine ⟨k + 1, -1, s', hrun, hs', hmade, ⟨nofun, fun h => absurd h hne⟩, ⟨nofun, ?_⟩,
        ⟨fun _ => ⟨k, rfl, h⟩, fun _ => rfl⟩, Or.inr (Or.inr rfl)⟩
      rintro ⟨i, hi, hzero⟩
      obtain rfl := Nat.succ.inj hi
      exact nomatch h.symm.trans hzero

end

/-! ### Bytes -/

namespace Transfer
variable {s s' : Transfer} {n : ℕ}

theorem additive_read : Additive read where
  zero s := by
    rw [read, if_pos (Nat.zero_le _), List.take_zero, Cursor.write_nil]
    rfl
  add m n s := by
    unfold read
    by_cases hm : m ≤ s.wire.length
    · rw [if_pos hm]
      by_cases hmn : m + n ≤ s.wire.length
      · rw [if_pos hmn, List.take_add, Cursor.write_append]
        cases s.buf.write (s.wire.take m) with
        | none => rfl
        | some buf =>
          dsimp only [Option.bind_eq_bind, Option.bind_some, Option.pure_def]
          rw [if_pos (by rw [List.length_drop]; omega), List.drop_drop]
      · rw [if_neg hmn]
        cases s.buf.write (s.wire.take m) with
        | none => rfl
        | some buf =>
          dsimp only [Option.bind_eq_bind, Option.bind_some, Option.pure_def]
          rw [if_neg (by rw [List.length_drop]; omega)]
    · rw [if_neg hm, if_neg (by omega)]
      rfl

theorem read_eq (hwire : n ≤ s.wire.length) (hbuf : n ≤ s.buf.rest.length) :
    ∃ s', read n s = some s' ∧ s'.wire = s.wire.drop n ∧
      s'.buf.before = s.buf.before ++ s.wire.take n ∧ s'.buf.rest = s.buf.rest.drop n := by
  have hlen : (s.wire.take n).length = n := List.length_take_of_le hwire
  cases hw : s.buf.write (s.wire.take n) with
  | none =>
    have hlt := Cursor.write_eq_none.mp hw
    omega
  | some buf =>
    obtain ⟨-, hbefore, hrest⟩ := Cursor.write_eq_some.mp hw
    rw [hlen] at hrest
    refine ⟨⟨s.wire.drop n, buf⟩, ?_, rfl, hbefore, hrest⟩
    rw [read, if_pos hwire, hw]
    rfl

theorem write_eq (hbuf : n ≤ s.buf.rest.length) :
    ∃ s', write n s = some s' ∧ s'.wire = s.wire ++ s.buf.rest.take n ∧
      s'.buf.rest = s.buf.rest.drop n := by
  obtain ⟨buf, hread, hrest, -⟩ := Cursor.read_of_le hbuf
  refine ⟨⟨s.wire ++ s.buf.rest.take n, buf⟩, ?_, rfl, hrest⟩
  rw [write, hread]
  rfl

theorem additive_write : Additive write where
  zero s := by
    rw [write, Cursor.read_zero, Option.bind_eq_bind, Option.bind_some]
    dsimp only
    rw [List.append_nil]
    rfl
  add m n s := by
    unfold write
    rw [Cursor.read_add]
    cases s.buf.read m with
    | none => rfl
    | some r =>
      dsimp only [Option.bind_eq_bind, Option.bind_some, Option.pure_def]
      cases r.2.read n with
      | none => rfl
      | some r' =>
        dsimp only [Option.bind_some]
        rw [List.append_assoc]

/-- All bytes at once are those that the abstract `readN` takes. -/
theorem readN_eq (h : read n s = some s') :
    Common.readN s.wire n = some (s.wire.take n, s'.wire) := by
  unfold read at h
  split_ifs at h with hn
  cases hw : s.buf.write (s.wire.take n) with
  | none =>
    rw [hw] at h
    exact nomatch h
  | some buf =>
    rw [hw] at h
    obtain rfl := Option.some.inj h
    exact if_pos hn

section
variable {size : ℕ} {sender receiver : Cursor} {writes reads : ℕ → CallResult}

/-- Whatever the system does, `writeN` and `readN` return 1 exactly when all bytes have been moved,
and 0 or -1 exactly at the first call that moves nothing or fails. What has been moved has been
moved in order, once and completely, so that the bytes of a `writeN` are those of a `readN`. -/
theorem transfer_exact (hsize : size < 2^64) (hsender : size ≤ sender.rest.length)
    (hreceiver : size ≤ receiver.rest.length) (pending arriving : List UInt8)
    (hwrites : Allowed size size writes) (hwritesf : FinitelyInterrupted writes)
    (hreads : Allowed (min size arriving.length) size reads)
    (hreadsf : FinitelyInterrupted reads) :
    (∃ k res s, writeN (firsts writes k) size ⟨pending, sender⟩ = some (res, s) ∧
      Exact size writes k res ∧ s.wire = pending ++ sender.rest.take (total writes k) ∧
      s.buf.rest = sender.rest.drop (total writes k)) ∧
    ∃ k res s, readN (firsts reads k) size ⟨arriving, receiver⟩ = some (res, s) ∧
      Exact size reads k res ∧ s.wire = arriving.drop (total reads k) ∧
      s.buf.before = receiver.before ++ arriving.take (total reads k) ∧
      s.buf.rest = receiver.rest.drop (total reads k) ∧
      ∀ more, arriving = sender.rest.take size ++ more → res = 1 →
        s.buf.before = receiver.before ++ sender.rest.take size ∧ s.wire = more := by
  constructor
  · obtain ⟨k, res, s, hrun, hmoved, hexact⟩ := exists_exact additive_write hsize hwrites hwritesf
      (s := ⟨pending, sender⟩) fun k hk => by
        have hle := (total_le hwrites hk.made).trans hsender
        obtain ⟨s, hs, -⟩ := write_eq (s := ⟨pending, sender⟩) hle
        rw [hs]
        rfl
    have hle := (total_le hwrites hexact.made).trans hsender
    obtain ⟨s', hs', hwire, hrest⟩ := write_eq (s := ⟨pending, sender⟩) hle
    obtain rfl := Option.some.inj (hmoved.symm.trans hs')
    exact ⟨k, res, s, hrun, hexact, hwire, hrest⟩
  · have hroom : ∀ {k}, (∀ i < k, Ongoing size reads i) →
        total reads k ≤ arriving.length ∧ total reads k ≤ receiver.rest.length := by
      intro k hk
      have hle := total_le hreads hk
      omega
    have hallowed : Allowed size size reads := fun k n hk hn =>
      (hreads k n hk hn).trans (Nat.min_le_left _ _)
    obtain ⟨k, res, s, hrun, hmoved, hexact⟩ := exists_exact additive_read hsize hallowed hreadsf
      (s := ⟨arriving, receiver⟩) fun k hk => by
        obtain ⟨s, hs, -⟩ := read_eq (s := ⟨arriving, receiver⟩) (hroom hk.made).1 (hroom hk.made).2
        rw [hs]
        rfl
    obtain ⟨hwire, hbuf⟩ := hroom hexact.made
    obtain ⟨s', hs', hleft, hbefore, hrest⟩ := read_eq (s := ⟨arriving, receiver⟩) hwire hbuf
    obtain rfl := Option.some.inj (hmoved.symm.trans hs')
    refine ⟨k, res, s, hrun, hexact, hleft, hbefore, hrest, fun more harriving hone => ?_⟩
    have hlen : (sender.rest.take size).length = size := List.length_take_of_le hsender
    rw [hexact.one.mp hone, harriving] at hbefore hleft
    rw [hbefore, hleft]
    constructor
    · dsimp only
      rw [List.take_left' hlen]
    · exact List.drop_left' hlen

end

/-- Three bytes, two of them before an interruption. -/
def twoAndOne : ℕ → CallResult
  | 0 => .count 2
  | 1 => .interrupted
  | 2 => .count 1
  | _ => .failed

def oneAndTwo : ℕ → CallResult
  | 0 => .interrupted
  | 1 => .count 1
  | 2 => .count 2
  | _ => .failed

/-- Three bytes that are cut in one way come in when they are cut in another way. -/
theorem transfer_exact_three : ∃ k res s k' res' s',
    writeN (firsts twoAndOne k) 3 ⟨[], .start [1, 2, 3]⟩ = some (res, s) ∧
    readN (firsts oneAndTwo k') 3 ⟨[1, 2, 3], .start [0, 0, 0]⟩ = some (res', s') ∧
    (res' = 1 → s'.buf.before = [1, 2, 3] ∧ s'.wire = []) := by
  have hwrites : Allowed 3 3 twoAndOne := by
    intro k n _ h
    match k, h with
    | 0, h => cases h; decide
    | 2, h => cases h; decide
  have hreads : Allowed 3 3 oneAndTwo := by
    intro k n _ h
    match k, h with
    | 1, h => cases h; decide
    | 2, h => cases h; decide
  have hfinite : FinitelyInterrupted twoAndOne ∧ FinitelyInterrupted oneAndTwo := by
    refine ⟨⟨3, fun i hi h => ?_⟩, ⟨3, fun i hi h => ?_⟩⟩ <;>
      obtain ⟨j, rfl⟩ := Nat.exists_eq_add_of_le' hi <;> exact nomatch h
  have hsender : 3 ≤ (Cursor.start [1, 2, 3]).rest.length := le_rfl
  have hreceiver : 3 ≤ (Cursor.start [0, 0, 0]).rest.length := le_rfl
  obtain ⟨⟨k, res, s, hw, -⟩, k', res', s', hr, -, -, -, -, hsame⟩ :=
    transfer_exact (by decide) hsender hreceiver [] [1, 2, 3] hwrites hfinite.1 hreads hfinite.2
  exact ⟨k, res, s, k', res', s', hw, hr, hsame [] rfl⟩

end Transfer
end StorageServer.Common
