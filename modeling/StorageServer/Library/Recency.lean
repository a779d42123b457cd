import Mathlib.Data.List.Dedup

/-! Orders by the last occurrence in a log. A list is in the recency order of a log when it is
what the log says about its own elements, each counted at its last occurrence. -/
namespace StorageServer.Library.Recency
variable {κ : Type*} [DecidableEq κ] {k : κ} {log present : List κ}

/-- The present elements in the order of their last occurrence in the log. -/
def recency (log present : List κ) : List κ := log.dedup.filter (· ∈ present)

def InOrder (log present : List κ) : Prop := present = recency log present

/-- A new occurrence makes its element the last one. -/
theorem dedup_concat (log : List κ) (k : κ) :
    (log ++ [k]).dedup = log.dedup.filter (· ≠ k) ++ [k] := by
  induction log with
  | nil => rfl
  | cons x log ih =>
    rw [List.cons_append, List.dedup_cons, List.dedup_cons]
    by_cases hx : x = k
    · subst x
      rw [if_pos (by simp), ih]
      split_ifs with hm
      · rfl
      · rw [List.filter_cons_of_neg (by simp)]
    · by_cases hm : x ∈ log
      · rw [if_pos (by simp [hm]), if_pos hm, ih]
      · rw [if_neg (by simp [hm, hx]), if_neg hm, ih, List.filter_cons_of_pos (by simpa using hx),
          List.cons_append]

/-- Selecting elements keeps the order. -/
theorem InOrder.filter (h : InOrder log present) (p : κ → Bool) :
    InOrder log (present.filter p) := by
  have hf : recency log (present.filter p) = (recency log present).filter p := by
    unfold recency
    rw [List.filter_filter]
    apply List.filter_congr
    intro x _
    simp only [List.mem_filter, Bool.decide_and, Bool.decide_eq_true, Bool.and_comm]
  rw [InOrder, hf, ← h]

/-- Touching an element moves it behind all the others. -/
theorem InOrder.touch (h : InOrder log present) (k : κ) :
    InOrder (log ++ [k]) (present.filter (· ≠ k) ++ [k]) := by
  have hf := h.filter (· ≠ k)
  unfold InOrder recency at hf ⊢
  rw [dedup_concat, List.filter_append, List.filter_cons_of_pos (by simp), List.filter_nil]
  congr 1
  rw [List.filter_filter]
  refine hf.trans (List.filter_congr fun x _ => ?_)
  by_cases hx : x = k <;> simp [hx]

theorem InOrder.of_append {gone kept : List κ} (h : InOrder log (gone ++ kept))
    (hd : (gone ++ kept).Nodup) : InOrder log kept := by
  have hk : (gone ++ kept).filter (· ∉ gone) = kept := by
    rw [List.filter_append, List.filter_eq_nil_iff.mpr (by simp), List.nil_append,
      List.filter_eq_self]
    intro x hx
    simpa using fun hg => (List.disjoint_of_nodup_append hd) hg hx
  have hf := h.filter (· ∉ gone)
  rwa [hk] at hf

end StorageServer.Library.Recency
