import Mathlib

/-! Best-first traversal of a forest whose trees are ordered like heaps. The trees that
are still open lie on a stack, the least on top; a fork on top is replaced by its two
sides, a leaf is yielded. Then all leaves come out, each once and in order, however
ties are broken. -/
namespace TonNode.BestFirst

open scoped List

inductive Tree (P α : Type) where
  | leaf (p : P) (a : α)
  | fork (p : P) (l r : Tree P α)

variable {P α : Type}

namespace Tree

def prio : Tree P α → P
  | leaf p _ => p
  | fork p _ _ => p

def leaves : Tree P α → List (P × α)
  | leaf p a => [(p, a)]
  | fork _ l r => l.leaves ++ r.leaves

def size : Tree P α → ℕ
  | leaf _ _ => 1
  | fork _ l r => l.size + r.size + 1

theorem size_pos (t : Tree P α) : 0 < t.size := by
  cases t with
  | leaf p a => exact Nat.one_pos
  | fork p l r => exact Nat.succ_pos _

def Heap [LE P] : Tree P α → Prop
  | leaf _ _ => True
  | fork p l r => p ≤ l.prio ∧ p ≤ r.prio ∧ l.Heap ∧ r.Heap

theorem Heap.prio_le [Preorder P] {t : Tree P α} (h : t.Heap) : ∀ x ∈ t.leaves, t.prio ≤ x.1 := by
  induction t with
  | leaf p a =>
    intro x hx
    rw [List.mem_singleton.mp hx]
    exact le_rfl
  | fork p l r ihl ihr =>
    obtain ⟨hpl, hpr, hl, hr⟩ := h
    intro x hx
    rcases List.mem_append.mp hx with hx | hx
    · exact hpl.trans (ihl hl x hx)
    · exact hpr.trans (ihr hr x hx)

end Tree

def forest (roots : List (Tree P α)) : List (P × α) := roots.flatMap Tree.leaves

theorem forest_append (roots : List (Tree P α)) (t : Tree P α) :
    forest (roots ++ [t]) = forest roots ++ t.leaves := by
  simp [forest]

def nodes (roots : List (Tree P α)) : ℕ := (roots.map Tree.size).sum

theorem nodes_append (roots : List (Tree P α)) (t : Tree P α) :
    nodes (roots ++ [t]) = nodes roots + t.size := by
  simp [nodes]

section Stack

variable [Preorder P]

structure Ordered (roots : List (Tree P α)) : Prop where
  sorted : roots.Pairwise fun s t => t.prio ≤ s.prio
  heaps : ∀ t ∈ roots, t.Heap

def Inserted (roots : List (Tree P α)) (t : Tree P α) (roots' : List (Tree P α)) : Prop :=
  ∃ below above, roots = below ++ above ∧ roots' = below ++ t :: above ∧
    (∀ s ∈ below, t.prio ≤ s.prio) ∧ ∀ s ∈ above, s.prio ≤ t.prio

inductive Next : List (Tree P α) → P × α → List (Tree P α) → Prop
  | yield {roots : List (Tree P α)} {p : P} {a : α} : Next (roots ++ [.leaf p a]) (p, a) roots
  | expand {roots roots₁ roots₂ roots' : List (Tree P α)} {p : P} {l r : Tree P α} {x : P × α}
      (left : Inserted roots l roots₁) (right : Inserted roots₁ r roots₂)
      (rest : Next roots₂ x roots') : Next (roots ++ [.fork p l r]) x roots'

inductive Run : List (Tree P α) → List (P × α) → Prop
  | done : Run [] []
  | next {roots roots' : List (Tree P α)} {x : P × α} {xs : List (P × α)}
      (first : Next roots x roots') (rest : Run roots' xs) : Run roots (x :: xs)

variable {t : Tree P α} {roots roots' : List (Tree P α)}

section

variable (h : Inserted roots t roots')
include h

theorem Inserted.perm : roots'.Perm (t :: roots) := by
  obtain ⟨below, above, rfl, rfl, -, -⟩ := h
  exact List.perm_middle

theorem Inserted.ordered (ho : Ordered roots) (ht : t.Heap) : Ordered roots' := by
  have hperm := h.perm
  obtain ⟨below, above, rfl, rfl, hbelow, habove⟩ := h
  obtain ⟨hsorted, hheaps⟩ := ho
  rw [List.pairwise_append] at hsorted
  refine ⟨?_, ?_⟩
  · rw [List.pairwise_append, List.pairwise_cons]
    refine ⟨hsorted.1, ⟨habove, hsorted.2.1⟩, ?_⟩
    intro s hs u hu
    rcases List.mem_cons.mp hu with rfl | hu
    · exact hbelow s hs
    · exact hsorted.2.2 s hs u hu
  · intro s hs
    rcases List.mem_cons.mp (hperm.mem_iff.mp hs) with rfl | hs
    · exact ht
    · exact hheaps s hs

theorem Inserted.forest : (BestFirst.forest roots').Perm (t.leaves ++ BestFirst.forest roots) := by
  have hflat := h.perm.flatMap_right Tree.leaves
  exact hflat

theorem Inserted.nodes : BestFirst.nodes roots' = t.size + BestFirst.nodes roots := by
  have hsum := List.Perm.sum_nat (h.perm.map Tree.size)
  exact hsum

end

theorem Next.nodes_lt {x : P × α} (h : Next roots x roots') :
    BestFirst.nodes roots' < BestFirst.nodes roots := by
  induction h with
  | yield =>
    rw [nodes_append]
    exact Nat.lt_succ_self _
  | @expand roots roots₁ roots₂ roots' p l r x left right _ ih =>
    rw [nodes_append, Tree.size]
    rw [right.nodes, left.nodes] at ih
    omega

theorem Ordered.of_append (h : Ordered (roots ++ [t])) :
    Ordered roots ∧ t.Heap ∧ ∀ x ∈ forest roots, t.prio ≤ x.1 := by
  obtain ⟨hsorted, hheaps⟩ := h
  rw [List.pairwise_append] at hsorted
  have hroots : ∀ s ∈ roots, s.Heap := fun s hs => hheaps s (List.mem_append_left _ hs)
  refine ⟨⟨hsorted.1, hroots⟩, hheaps t (by simp), ?_⟩
  intro x hx
  obtain ⟨s, hs, hxs⟩ := List.mem_flatMap.mp hx
  calc t.prio ≤ s.prio := hsorted.2.2 s hs t (List.mem_singleton.mpr rfl)
    _ ≤ x.1 := (hroots s hs).prio_le x hxs

/-- One leaf: it is taken out of the forest, and none of the others comes before it. -/
theorem Next.spec {x : P × α} (h : Next roots x roots') (ho : Ordered roots) :
    Ordered roots' ∧ (forest roots).Perm (x :: forest roots') ∧ ∀ y ∈ forest roots', x.1 ≤ y.1 := by
  induction h with
  | @yield roots p a =>
    obtain ⟨hroots, -, hle⟩ := ho.of_append
    refine ⟨hroots, ?_, hle⟩
    rw [forest_append]
    exact List.perm_append_singleton _ _
  | @expand roots roots₁ roots₂ roots' p l r x left right _ ih =>
    obtain ⟨hroots, ⟨-, -, hl, hr⟩, -⟩ := ho.of_append
    have ho₁ := left.ordered hroots hl
    have ho₂ := right.ordered ho₁ hr
    obtain ⟨hroots', hperm, hle⟩ := ih ho₂
    refine ⟨hroots', ?_, hle⟩
    -- the two sides have the leaves of the fork
    have hsides : (forest roots₂).Perm (forest roots ++ (l.leaves ++ r.leaves)) := by
      calc (forest roots₂)
        _ ~ r.leaves ++ forest roots₁ := right.forest
        _ ~ r.leaves ++ (l.leaves ++ forest roots) := left.forest.append_left _
        _ = (r.leaves ++ l.leaves) ++ forest roots := (List.append_assoc _ _ _).symm
        _ ~ (l.leaves ++ r.leaves) ++ forest roots := List.perm_append_comm.append_right _
        _ ~ forest roots ++ (l.leaves ++ r.leaves) := List.perm_append_comm
    rw [forest_append]
    exact hsides.symm.trans hperm

/-- Every leaf comes out once, and they come out in order. -/
theorem Run.spec {xs : List (P × α)} (h : Run roots xs) (ho : Ordered roots) :
    xs.Perm (forest roots) ∧ xs.Pairwise fun x y => x.1 ≤ y.1 := by
  induction h with
  | done => exact ⟨List.Perm.refl _, List.Pairwise.nil⟩
  | next first _ ih =>
    obtain ⟨hroots', hperm, hle⟩ := first.spec ho
    obtain ⟨hrest, hsorted⟩ := ih hroots'
    refine ⟨(hrest.cons _).trans hperm.symm, List.pairwise_cons.mpr ⟨?_, hsorted⟩⟩
    intro y hy
    exact hle y (hrest.mem_iff.mp hy)

end Stack

end TonNode.BestFirst
