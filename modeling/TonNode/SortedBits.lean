import Mathlib

/-! Bit strings of one length in lexicographic order. A sorted list with at least two
strings parts at one place: all its strings share what the first and the last share,
and those with a zero next come before those with a one. -/
namespace TonNode.SortedBits

theorem lt_cases {x y : List Bool} (hlen : x.length = y.length) (h : x < y) :
    ∃ p x' y', x = p ++ false :: x' ∧ y = p ++ true :: y' := by
  induction x generalizing y with
  | nil =>
    obtain rfl : y = [] := List.length_eq_zero_iff.mp hlen.symm
    exact absurd h (List.lt_irrefl _)
  | cons a x ih =>
    cases y with
    | nil => cases hlen
    | cons b y =>
      rw [List.length_cons, List.length_cons, Nat.add_right_cancel_iff] at hlen
      rcases List.cons_lt_cons_iff.mp h with hlt | ⟨rfl, hlt⟩
      · cases a with
        | true => exact absurd hlt (by cases b <;> decide)
        | false =>
          cases b with
          | false => exact absurd hlt (by decide)
          | true => exact ⟨[], x, y, rfl, rfl⟩
      · obtain ⟨p, x', y', rfl, rfl⟩ := ih hlen hlt
        exact ⟨a :: p, x', y', rfl, rfl⟩

theorem append_lt_append_iff (p : List Bool) {x y : List Bool} : p ++ x < p ++ y ↔ x < y := by
  induction p with
  | nil => exact Iff.rfl
  | cons a p ih =>
    rw [List.cons_append, List.cons_append, List.cons_lt_cons_iff, ih]
    constructor
    · rintro (h | ⟨-, h⟩)
      · exact absurd h (lt_irrefl a)
      · exact h
    · intro h
      exact .inr ⟨rfl, h⟩

theorem not_true_le_false (p x y : List Bool) : ¬ p ++ true :: x ≤ p ++ false :: y := by
  rw [not_le, append_lt_append_iff, List.cons_lt_cons_iff]
  exact .inl (by decide)

theorem cons_le_cons_iff {a b : Bool} {x y : List Bool} :
    a :: x ≤ b :: y ↔ a < b ∨ a = b ∧ x ≤ y := by
  rw [le_iff_lt_or_eq, le_iff_lt_or_eq, List.cons_lt_cons_iff, List.cons.injEq]
  tauto

theorem prefix_of_between {p x y z : List Bool} (hxz : p ++ x ≤ z) (hzy : z ≤ p ++ y)
    (hlen : p.length ≤ z.length) : p <+: z := by
  induction p generalizing z with
  | nil => exact List.nil_prefix
  | cons a p ih =>
    cases z with
    | nil => simp at hlen
    | cons c z =>
      rw [List.cons_append] at hxz hzy
      rw [cons_le_cons_iff] at hxz hzy
      have hac : a = c := by
        rcases hxz with h | ⟨h, -⟩
        · rcases hzy with h' | ⟨h', -⟩
          · exact absurd h (lt_asymm h')
          · exact h'.symm
        · exact h
      subst hac
      have hxz' : p ++ x ≤ z := by
        rcases hxz with h | ⟨-, h⟩
        · exact absurd h (lt_irrefl a)
        · exact h
      have hzy' : z ≤ p ++ y := by
        rcases hzy with h | ⟨-, h⟩
        · exact absurd h (lt_irrefl a)
        · exact h
      rw [List.length_cons, List.length_cons] at hlen
      exact List.cons_prefix_cons.mpr ⟨rfl, ih hxz' hzy' (by omega)⟩

/-- A list where nothing with the property comes before something without it. -/
theorem eq_filter_append_filter {α : Type} {q : α → Bool} {l : List α}
    (h : l.Pairwise fun a b => q a = true → q b = true) :
    l = l.filter (fun a => !q a) ++ l.filter q := by
  induction l with
  | nil => rfl
  | cons a l ih =>
    rw [List.pairwise_cons] at h
    cases hq : q a with
    | false =>
      rw [List.filter_cons_of_pos (by rw [hq]; rfl), List.filter_cons_of_neg (by rw [hq]; decide),
        List.cons_append, ← ih h.2]
    | true =>
      have hall : ∀ b ∈ l, q b = true := fun b hb => h.1 b hb hq
      have hnone : l.filter (fun a => !q a) = [] := by
        rw [List.filter_eq_nil_iff]
        intro b hb
        rw [hall b hb]
        decide
      rw [List.filter_cons_of_neg (by rw [hq]; decide), List.filter_cons_of_pos hq, hnone,
        List.filter_eq_self.mpr hall, List.nil_append]

end TonNode.SortedBits
