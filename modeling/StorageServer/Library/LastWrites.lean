import Mathlib.Data.List.Nodup

/-! A record that is written item by item. A field keeps what the last item that concerns it has
written; under different keys the order of the items makes no difference. -/
namespace StorageServer.Library.LastWrites
variable {ι β κ : Type*} {accept : ι → Option β} {is is' : List ι} {i : ι} {b : β}

/-- What the last item that writes has written. -/
def last (accept : ι → Option β) (is : List ι) : Option β := (is.filterMap accept).getLast?

theorem last_concat (accept : ι → Option β) (is : List ι) (i : ι) :
    last accept (is ++ [i]) = (accept i).or (last accept is) := by
  rw [last, List.filterMap_append]
  cases hi : accept i with
  | none => rw [List.filterMap_cons_none hi, List.filterMap_nil, List.append_nil]; rfl
  | some b => rw [List.filterMap_cons_some hi, List.filterMap_nil, List.getLast?_concat]; rfl

theorem exists_of_last (h : last accept is = some b) : ∃ i ∈ is, accept i = some b :=
  List.mem_filterMap.mp (List.mem_of_getLast? h)

section Keys
variable {key : ι → κ} {k : κ} (hk : ∀ i b, accept i = some b → key i = k)
include hk

theorem last_eq_some_iff (hd : (is.map key).Nodup) :
    last accept is = some b ↔ ∃ i ∈ is, accept i = some b := by
  refine ⟨exists_of_last, fun ⟨i, hi, hb⟩ => ?_⟩
  have hmem : b ∈ is.filterMap accept := List.mem_filterMap.mpr ⟨i, hi, hb⟩
  obtain ⟨b', hb'⟩ := Option.isSome_iff_exists.mp
    (List.getLast?_isSome.mpr (List.ne_nil_of_mem hmem))
  obtain ⟨j, hj, haccept⟩ := exists_of_last hb'
  obtain rfl : i = j :=
    List.inj_on_of_nodup_map hd hi hj ((hk i b hb).trans (hk j b' haccept).symm)
  rw [hb] at haccept
  obtain rfl := Option.some.inj haccept
  exact hb'

/-- The order of items under different keys makes no difference. -/
theorem last_perm (hd : (is.map key).Nodup) (hp : is.Perm is') :
    last accept is = last accept is' := by
  have hd' : (is'.map key).Nodup := (hp.map key).nodup_iff.mp hd
  refine Option.ext fun b => ?_
  rw [last_eq_some_iff hk hd, last_eq_some_iff hk hd']
  exact exists_congr fun i => and_congr_left fun _ => hp.mem_iff

end Keys
end StorageServer.Library.LastWrites
