import Mathlib

/-! Hash maps as association lists: the two operations Mathlib's `AList` does
not have (`retain`, and a test of all entries), stated through `lookup`. -/
namespace AList

variable {K V : Type} [DecidableEq K]

def retain (p : K → Bool) (m : AList fun _ : K => V) : AList fun _ : K => V where
  entries := m.entries.filter fun e => p e.1
  nodupKeys := List.NodupKeys.sublist List.filter_sublist m.nodupKeys

theorem mem_entries_iff_lookup (m : AList fun _ : K => V) (k : K) (v : V) :
    (⟨k, v⟩ : Σ _ : K, V) ∈ m.entries ↔ m.lookup k = some v :=
  (mem_lookup_iff (s := m)).symm

theorem lookup_retain (p : K → Bool) (m : AList fun _ : K => V) (k : K) :
    (m.retain p).lookup k = if p k then m.lookup k else none := by
  have hmem (v : V) : (m.retain p).lookup k = some v ↔ p k = true ∧ m.lookup k = some v := by
    rw [← mem_entries_iff_lookup, ← mem_entries_iff_lookup]
    simp only [retain, List.mem_filter]
    exact and_comm
  apply Option.ext
  intro v
  rw [hmem v]
  split_ifs with hk
  · simp [hk]
  · simp [hk, Bool.false_eq_true]

theorem lookup_insert_eq_ite (m : AList fun _ : K => V) (a k : K) (v : V) :
    (m.insert a v).lookup k = if k = a then some v else m.lookup k := by
  split_ifs with h
  · rw [h]
    exact m.lookup_insert
  · exact lookup_insert_ne h

end AList
