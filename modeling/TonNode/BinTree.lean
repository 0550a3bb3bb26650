import Mathlib

/-! Binary trees with values at the leaves, addressed by strings of bits: the
leaves partition all strings that are long enough. -/
namespace TonNode

inductive BinTree (α : Type) where
  | leaf (value : α)
  | fork (left right : BinTree α)
deriving DecidableEq

namespace BinTree

variable {α : Type}

def child (left right : BinTree α) (bit : Bool) : BinTree α := if bit then right else left

def get : BinTree α → List Bool → Option α
  | leaf a, [] => some a
  | leaf _, _ :: _ => none
  | fork _ _, [] => none
  | fork l _, false :: key => l.get key
  | fork _ r, true :: key => r.get key

def find : BinTree α → List Bool → Option (List Bool × α)
  | leaf a, _ => some ([], a)
  | fork _ _, [] => none
  | fork l _, false :: key => (l.find key).map fun r => (false :: r.1, r.2)
  | fork _ r, true :: key => (r.find key).map fun r => (true :: r.1, r.2)

/-- The rounds of `iterate_pairs` below `key`: two sibling leaves are one round,
at the left one; `sibling` is the tree next to this one. -/
def pairsFrom (key : List Bool) (sibling : Option (BinTree α)) (checkSibling : Bool) :
    BinTree α → List (List Bool × α × Option α)
  | leaf a =>
    match sibling with
    | none => [(key, a, none)]
    | some (fork _ _) => [(key, a, none)]
    | some (leaf b) => if checkSibling then [(key, a, some b)] else []
  | fork l r =>
    l.pairsFrom (key ++ [false]) (some r) true ++ r.pairsFrom (key ++ [true]) (some l) false

def pairs (t : BinTree α) : List (List Bool × α × Option α) := t.pairsFrom [] none true

@[simp] theorem get_fork_cons (l r : BinTree α) (b : Bool) (key : List Bool) :
    (fork l r).get (b :: key) = (child l r b).get key := by
  cases b with
  | false | true => rfl

@[simp] theorem find_fork_cons (l r : BinTree α) (b : Bool) (key : List Bool) :
    (fork l r).find (b :: key) = ((child l r b).find key).map fun x => (b :: x.1, x.2) := by
  cases b with
  | false | true => rfl

variable {a : α} {key : List Bool}

theorem get_leaf {b : α} (h : (leaf a).get key = some b) : key = [] ∧ a = b := by
  cases key with
  | nil => exact ⟨rfl, Option.some.inj h⟩
  | cons c key => cases h

variable {t : BinTree α} {k : List Bool}

theorem find_eq_some : t.find key = some (k, a) ↔ t.get k = some a ∧ k <+: key := by
  induction t generalizing key k with
  | leaf b =>
    constructor
    · intro h
      cases h
      exact ⟨rfl, List.nil_prefix⟩
    · rintro ⟨hget, -⟩
      obtain ⟨rfl, rfl⟩ := get_leaf hget
      rfl
  | fork l r ihl ihr =>
    have ih : ∀ (b : Bool) {key k : List Bool},
        (child l r b).find key = some (k, a) ↔ (child l r b).get k = some a ∧ k <+: key := by
      intro b
      cases b with
      | false => exact ihl
      | true => exact ihr
    cases key with
    | nil =>
      constructor
      · intro h
        cases h
      · rintro ⟨hget, hpre⟩
        rw [List.prefix_nil] at hpre
        subst hpre
        cases hget
    | cons b key =>
      rw [find_fork_cons, Option.map_eq_some_iff]
      constructor
      · rintro ⟨⟨k', a'⟩, hfind, heq⟩
        obtain ⟨rfl, rfl⟩ := Prod.mk.inj heq
        obtain ⟨hget, hpre⟩ := (ih b).mp hfind
        exact ⟨by rw [get_fork_cons]; exact hget, List.cons_prefix_cons.mpr ⟨rfl, hpre⟩⟩
      · rintro ⟨hget, hpre⟩
        cases k with
        | nil => cases hget
        | cons c k =>
          obtain ⟨rfl, hrest⟩ := List.cons_prefix_cons.mp hpre
          rw [get_fork_cons] at hget
          exact ⟨(k, a), (ih c).mpr ⟨hget, hrest⟩, rfl⟩

theorem eq_of_prefix {k' : List Bool} {b : α} (h : t.get k = some a) (h' : t.get k' = some b)
    (hpre : k <+: k') : k = k' := by
  have hfind : t.find k' = some (k, a) := find_eq_some.mpr ⟨h, hpre⟩
  have hfind' : t.find k' = some (k', b) := find_eq_some.mpr ⟨h', List.prefix_rfl⟩
  rw [hfind'] at hfind
  exact (Prod.mk.inj (Option.some.inj hfind)).1.symm

theorem find_isSome (h : ∀ k a, t.get k = some a → k.length ≤ key.length) :
    ∃ r, t.find key = some r := by
  induction t generalizing key with
  | leaf a => exact ⟨([], a), rfl⟩
  | fork l r ihl ihr =>
    have hbelow : ∀ (b : Bool) k a, (child l r b).get k = some a → k.length + 1 ≤ key.length := by
      intro b k a hget
      exact h (b :: k) a (by rw [get_fork_cons]; exact hget)
    cases key with
    | nil =>
      -- some leaf is at least one bit deep
      obtain ⟨k, a, hget⟩ : ∃ k a, l.get k = some a := by
        clear ihl ihr h hbelow
        induction l with
        | leaf a => exact ⟨[], a, rfl⟩
        | fork l' r' ih _ =>
          obtain ⟨k, a, hget⟩ := ih
          exact ⟨false :: k, a, hget⟩
      have hlen := hbelow false k a hget
      simp at hlen
    | cons b key =>
      have hlen : ∀ k a, (child l r b).get k = some a → k.length ≤ key.length := by
        intro k a hget
        have hk := hbelow b k a hget
        simp only [List.length_cons] at hk
        omega
      have ih : ∃ x, (child l r b).find key = some x := by
        cases b with
        | false => exact ihl hlen
        | true => exact ihr hlen
      obtain ⟨x, hx⟩ := ih
      exact ⟨(b :: x.1, x.2), by rw [find_fork_cons, hx]; rfl⟩

def depth : BinTree α → ℕ
  | leaf _ => 0
  | fork l r => max l.depth r.depth + 1

theorem length_le_depth (h : t.get k = some a) : k.length ≤ t.depth := by
  induction t generalizing k with
  | leaf b =>
    obtain ⟨rfl, -⟩ := get_leaf h
    simp
  | fork l r ihl ihr =>
    cases k with
    | nil => cases h
    | cons b k =>
      simp only [depth, List.length_cons]
      cases b with
      | false =>
        have := ihl h
        omega
      | true =>
        have := ihr h
        omega

/-- Next to a leaf there is another one, or leaves further down. -/
theorem exists_sibling {p : List Bool} {b : Bool} (h : t.get (p ++ [b]) = some a) :
    ∃ x a', t.get (p ++ [!b] ++ x) = some a' := by
  have hlong : ∀ k c, t.get k = some c →
      k.length ≤ (p ++ [!b] ++ List.replicate t.depth false).length := by
    intro k c hget
    have hdepth := length_le_depth hget
    simp only [List.length_append, List.length_replicate]
    omega
  obtain ⟨⟨k, a'⟩, hfind⟩ := find_isSome hlong
  obtain ⟨hget, hpre⟩ := find_eq_some.mp hfind
  rcases List.prefix_or_prefix_of_prefix hpre (List.prefix_append (p ++ [!b]) _) with
    hshort | ⟨x, rfl⟩
  · -- a leaf above would be above the given one too
    rcases List.prefix_concat_iff.mp hshort with rfl | hp
    · exact ⟨[], a', by simpa using hget⟩
    · have heq := eq_of_prefix hget h (hp.trans (List.prefix_append p [b]))
      subst heq
      have hlen := hp.length_le
      simp only [List.length_append, List.length_singleton] at hlen
      omega
  · exact ⟨x, a', hget⟩

/-- Every leaf is visited, as the first or the second of a round; only the right
one of two sibling leaves is left to its sibling. -/
theorem get_mem_pairsFrom {x : List Bool} (h : t.get x = some a) (key : List Bool)
    (sibling : Option (BinTree α)) (check : Bool) :
    (∃ s, (key ++ x, a, s) ∈ t.pairsFrom key sibling check) ∨
      (∃ y c, x = y ++ [true] ∧ (key ++ (y ++ [false]), c, some a) ∈ t.pairsFrom key sibling check) ∨
      (x = [] ∧ check = false ∧ ∃ b, sibling = some (leaf b)) := by
  induction t generalizing key x sibling check with
  | leaf c =>
    obtain ⟨rfl, rfl⟩ := get_leaf h
    cases sibling with
    | none => exact .inl ⟨none, by simp [pairsFrom]⟩
    | some u =>
      cases u with
      | fork l r => exact .inl ⟨none, by simp [pairsFrom]⟩
      | leaf d =>
        cases check with
        | false => exact .inr (.inr ⟨rfl, rfl, d, rfl⟩)
        | true => exact .inl ⟨some d, by simp [pairsFrom]⟩
  | fork l r ihl ihr =>
    cases x with
    | nil => cases h
    | cons b x =>
      cases b with
      | false =>
        rcases ihl h (key ++ [false]) (some r) true with
          ⟨s, hs⟩ | ⟨y, c, rfl, hy⟩ | ⟨-, hcheck, -⟩
        · exact .inl ⟨s, List.mem_append_left _ (by simpa using hs)⟩
        · exact .inr (.inl ⟨false :: y, c, rfl, List.mem_append_left _ (by simpa using hy)⟩)
        · cases hcheck
      | true =>
        rcases ihr h (key ++ [true]) (some l) false with
          ⟨s, hs⟩ | ⟨y, c, rfl, hy⟩ | ⟨rfl, -, d, hd⟩
        · exact .inl ⟨s, List.mem_append_right _ (by simpa using hs)⟩
        · exact .inr (.inl ⟨true :: y, c, rfl, List.mem_append_right _ (by simpa using hy)⟩)
        · -- the left sibling is a leaf too: its round has this one as second
          cases hd
          obtain rfl : r = leaf a := by
            cases r with
            | leaf b => rw [(get_leaf h).2]
            | fork l' r' => cases h
          exact .inr (.inl ⟨[], d, rfl, List.mem_append_left _ (by simp [pairsFrom])⟩)

theorem get_mem_pairs (h : t.get k = some a) :
    (∃ s, (k, a, s) ∈ t.pairs) ∨ ∃ y c, k = y ++ [true] ∧ (y ++ [false], c, some a) ∈ t.pairs := by
  rcases get_mem_pairsFrom h [] none true with
    ⟨s, hs⟩ | ⟨y, c, rfl, hy⟩ | ⟨-, hcheck, -⟩
  · exact .inl ⟨s, by simpa [pairs] using hs⟩
  · exact .inr ⟨y, c, rfl, by simpa [pairs] using hy⟩
  · cases hcheck

/-- A round has a leaf, and in second place only the leaf next to it. -/
theorem mem_pairsFrom {x : Option α} {sibling : Option (BinTree α)} {check : Bool}
    (h : (k, a, x) ∈ t.pairsFrom key sibling check) :
    ∃ y, k = key ++ y ∧ t.get y = some a ∧ ∀ b, x = some b →
      (y = [] ∧ check = true ∧ sibling = some (leaf b)) ∨
        ∃ z, y = z ++ [false] ∧ t.get (z ++ [true]) = some b := by
  induction t generalizing key sibling check with
  | leaf c =>
    refine ⟨[], ?_⟩
    rcases sibling with _ | (d | ⟨l, r⟩)
    · simp_all [pairsFrom, get]
    · cases check with
      | false => simp [pairsFrom] at h
      | true => simp_all [pairsFrom, get]
    · simp_all [pairsFrom, get]
  | fork l r ihl ihr =>
    rcases List.mem_append.mp h with hl | hr
    · obtain ⟨y, rfl, hget, hsibling⟩ := ihl hl
      refine ⟨false :: y, by simp, hget, ?_⟩
      intro b hb
      rcases hsibling b hb with ⟨rfl, -, hleaf⟩ | ⟨z, rfl, hz⟩
      · -- the tree on the right is a leaf
        cases hleaf
        exact .inr ⟨[], rfl, rfl⟩
      · exact .inr ⟨false :: z, rfl, hz⟩
    · obtain ⟨y, rfl, hget, hsibling⟩ := ihr hr
      refine ⟨true :: y, by simp, hget, ?_⟩
      intro b hb
      rcases hsibling b hb with ⟨-, hcheck, -⟩ | ⟨z, rfl, hz⟩
      · cases hcheck
      · exact .inr ⟨true :: z, rfl, hz⟩

theorem mem_pairs {x : Option α} (h : (k, a, x) ∈ t.pairs) :
    t.get k = some a ∧ ∀ b, x = some b → ∃ z, k = z ++ [false] ∧ t.get (z ++ [true]) = some b := by
  obtain ⟨y, rfl, hget, hsibling⟩ := mem_pairsFrom h
  refine ⟨hget, ?_⟩
  intro b hb
  rcases hsibling b hb with ⟨-, -, hleaf⟩ | hz
  · cases hleaf
  · exact hz

end BinTree

end TonNode
