import Mathlib

/-! Finite maps in their canonical form: a list of entries in increasing order
of the keys, so that two maps are equal exactly when their lists are. -/
namespace TonNode

structure SortedMap (K V : Type) [LinearOrder K] where
  entries : List (K × V)
  sorted : entries.Pairwise fun a b => a.1 < b.1
deriving DecidableEq

namespace SortedMap

variable {K V : Type} [LinearOrder K]

def empty : SortedMap K V := ⟨[], .nil⟩

variable (m : SortedMap K V) (k : K) (v : V)

def singleton : SortedMap K V := ⟨[(k, v)], List.pairwise_singleton _ _⟩

def find (k : K) : List (K × V) → Option V
  | [] => none
  | (k', v) :: l => if k = k' then some v else find k l

def get : Option V := find k m.entries

def put (k : K) (v : V) : List (K × V) → List (K × V)
  | [] => [(k, v)]
  | (k', v') :: l =>
    if k < k' then (k, v) :: (k', v') :: l
    else if k = k' then (k, v) :: l
    else (k', v') :: put k v l

theorem fst_of_mem_put {k : K} {v : V} {l : List (K × V)} {e : K × V} (h : e ∈ put k v l) :
    e.1 = k ∨ e ∈ l := by
  induction l with
  | nil =>
    rw [put, List.mem_singleton] at h
    exact .inl (congrArg Prod.fst h)
  | cons a l ih =>
    obtain ⟨k', v'⟩ := a
    simp only [put] at h
    split_ifs at h with hlt heq
    · rcases List.mem_cons.mp h with rfl | h
      · exact .inl rfl
      · exact .inr h
    · rcases List.mem_cons.mp h with rfl | h
      · exact .inl rfl
      · exact .inr (List.mem_cons_of_mem _ h)
    · rcases List.mem_cons.mp h with rfl | h
      · exact .inr List.mem_cons_self
      · rcases ih h with h | h
        · exact .inl h
        · exact .inr (List.mem_cons_of_mem _ h)

theorem put_sorted {l : List (K × V)} (h : l.Pairwise fun a b => a.1 < b.1) :
    (put k v l).Pairwise fun a b => a.1 < b.1 := by
  induction l with
  | nil => exact List.pairwise_singleton _ _
  | cons a l ih =>
    obtain ⟨k', v'⟩ := a
    obtain ⟨hhead, htail⟩ := List.pairwise_cons.mp h
    simp only [put]
    split_ifs with hlt heq
    · refine List.pairwise_cons.mpr ⟨?_, h⟩
      intro e he
      rcases List.mem_cons.mp he with rfl | he
      · exact hlt
      · exact lt_trans hlt (hhead e he)
    · subst heq
      exact List.pairwise_cons.mpr ⟨hhead, htail⟩
    · refine List.pairwise_cons.mpr ⟨?_, ih htail⟩
      intro e he
      rcases fst_of_mem_put he with he | he
      · exact he ▸ lt_of_le_of_ne (not_lt.mp hlt) (Ne.symm heq)
      · exact hhead e he

def insert : SortedMap K V :=
  ⟨put k v m.entries, put_sorted k v m.sorted⟩

theorem find_put (j : K) (v : V) (l : List (K × V)) :
    find j (put k v l) = if j = k then some v else find j l := by
  induction l with
  | nil => rfl
  | cons a l ih =>
    obtain ⟨k', v'⟩ := a
    by_cases hlt : k < k'
    · simp [put, find, hlt]
    · by_cases heq : k = k'
      · subst heq
        by_cases hj : j = k
        · simp [put, find, hj]
        · simp [put, find, hj]
      · have hne : k' ≠ k := fun h => heq h.symm
        simp only [put, if_neg hlt, if_neg heq, find, ih]
        -- the head keeps its place: its key is not the inserted one
        by_cases hj : j = k'
        · simp [hj, hne]
        · simp [hj]

@[simp] theorem get_insert (j : K) (v : V) :
    (m.insert k v).get j = if j = k then some v else m.get j := find_put k j v m.entries

theorem find_eq_none_of_lt {k : K} {l : List (K × V)} (h : ∀ e ∈ l, k < e.1) : find k l = none := by
  induction l with
  | nil => rfl
  | cons a l ih =>
    obtain ⟨k', v'⟩ := a
    have hk : k ≠ k' := ne_of_lt (h (k', v') List.mem_cons_self)
    rw [find, if_neg hk]
    exact ih fun e he => h e (List.mem_cons_of_mem _ he)

theorem find_eq_some_iff {k : K} {v : V} {l : List (K × V)} (h : l.Pairwise fun a b => a.1 < b.1) :
    find k l = some v ↔ (k, v) ∈ l := by
  induction l with
  | nil => simp [find]
  | cons a l ih =>
    obtain ⟨k', v'⟩ := a
    obtain ⟨hhead, htail⟩ := List.pairwise_cons.mp h
    by_cases hk : k = k'
    · -- the tail has larger keys only
      subst hk
      have hnot : (k, v) ∉ l := fun hmem => lt_irrefl k (hhead (k, v) hmem)
      simp [find, hnot, eq_comm]
    · rw [find, if_neg hk, ih htail]
      simp [hk]

theorem get_eq_some_iff : m.get k = some v ↔ (k, v) ∈ m.entries := find_eq_some_iff m.sorted

end SortedMap

end TonNode
