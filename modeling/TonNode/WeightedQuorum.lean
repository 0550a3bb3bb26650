import Mathlib

/-! Weighted quorums over a finite set of voters: two heavy sets share a voter
outside any light set, and tallies that are kept vote by vote. -/
namespace WeightedQuorum

variable {V : Type*} {w : V → ℕ}

theorem exists_mem_not_mem {A F : Finset V} (h : ∑ i ∈ F, w i < ∑ i ∈ A, w i) : ∃ i ∈ A, i ∉ F := by
  by_contra hall
  push Not at hall
  exact absurd (Finset.sum_le_sum_of_subset hall) (Nat.not_le.mpr h)

/-- Two sets whose weights exceed the whole by more than `F` meet outside `F`. -/
theorem exists_mem_inter_not_mem [DecidableEq V] {U F A B : Finset V} (hA : A ⊆ U) (hB : B ⊆ U)
    (h : ∑ i ∈ U, w i + ∑ i ∈ F, w i < ∑ i ∈ A, w i + ∑ i ∈ B, w i) : ∃ i ∈ A, i ∈ B ∧ i ∉ F := by
  have hunion : ∑ i ∈ A ∪ B, w i ≤ ∑ i ∈ U, w i :=
    Finset.sum_le_sum_of_subset (Finset.union_subset hA hB)
  have hsplit : ∑ i ∈ A ∪ B, w i + ∑ i ∈ A ∩ B, w i = ∑ i ∈ A, w i + ∑ i ∈ B, w i :=
    Finset.sum_union_inter
  obtain ⟨i, hi, hF⟩ := exists_mem_not_mem (A := A ∩ B) (F := F) (w := w) (by omega)
  rw [Finset.mem_inter] at hi
  exact ⟨i, hi.1, hi.2, hF⟩

def tally (w : V → ℕ) (U : Finset V) (p : V → Bool) : ℕ := ∑ i ∈ U, if p i then w i else 0

theorem tally_eq_sum_filter (U : Finset V) (p : V → Bool) :
    tally w U p = ∑ i ∈ U.filter (fun i => p i), w i := by
  unfold tally
  rw [Finset.sum_filter]

/-- A voter that has not passed the test is asked again. -/
theorem tally_record [DecidableEq V] {U : Finset V} {p q : V → Bool} {a : V} (ha : a ∈ U)
    (hp : p a = false) (h : ∀ i ∈ U, i ≠ a → q i = p i) :
    tally w U q = tally w U p + if q a then w a else 0 := by
  unfold tally
  rw [← Finset.add_sum_erase U _ ha, ← Finset.add_sum_erase U (fun i => if p i then w i else 0) ha]
  have hrest : ∑ i ∈ U.erase a, (if q i then w i else 0) =
      ∑ i ∈ U.erase a, (if p i then w i else 0) := by
    refine Finset.sum_congr rfl fun i hi => ?_
    rw [h i (Finset.mem_of_mem_erase hi) (Finset.ne_of_mem_erase hi)]
  simp only [hp, Bool.false_eq_true, if_false, hrest]
  omega

end WeightedQuorum
