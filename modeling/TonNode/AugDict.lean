import TonNode.AssocMap
import TonNode.Checks

/-! Augmented dictionaries: binary trees whose leaves carry a key, a value and
an extra, whose forks carry an extra, and whose root extra is stored once more
beside the tree. Nothing ties the stored extras to the values: that is what
`ForksCorrect`, `LeavesCorrect` and `RootCorrect` say. -/
namespace TonNode

theorem sum_filter_of_zero {α M : Type} [AddCommMonoid M] (p : α → Bool) (f : α → M)
    (hf : ∀ a, p a = false → f a = 0) (l : List α) : ((l.filter p).map f).sum = (l.map f).sum := by
  induction l with
  | nil => rfl
  | cons a l ih =>
    cases ha : p a with
    | true => simp [ha, ih]
    | false => simp [ha, ih, hf a ha]

inductive AugTree (K V Y : Type) where
  | leaf (key : K) (extra : Y) (value : V)
  | fork (extra : Y) (left right : AugTree K V Y)
deriving DecidableEq

namespace AugTree

variable {K V Y M : Type}

def extra : AugTree K V Y → Y
  | leaf _ y _ => y
  | fork y _ _ => y

def entries : AugTree K V Y → List (Σ _ : K, V × Y)
  | leaf k y v => [⟨k, v, y⟩]
  | fork _ l r => l.entries ++ r.entries

def ForksCorrect (combine : Y → Y → Option Y) : AugTree K V Y → Prop
  | leaf _ _ _ => True
  | fork y l r =>
    combine l.extra r.extra = some y ∧ l.ForksCorrect combine ∧ r.ForksCorrect combine

/-- A measure that `combine` adds up is, at the root, the sum over the leaves. -/
theorem measure_extra [AddCommMonoid M] {combine : Y → Y → Option Y} (measure : Y → M)
    (hcombine : ∀ a b c, combine a b = some c → measure c = measure a + measure b)
    (t : AugTree K V Y) (ht : t.ForksCorrect combine) :
    measure t.extra = (t.entries.map fun e => measure e.2.2).sum := by
  induction t with
  | leaf k y v => simp [extra, entries]
  | fork y l r ihl ihr =>
    obtain ⟨hy, hl, hr⟩ := ht
    calc measure y = measure l.extra + measure r.extra := hcombine _ _ _ hy
      _ = (l.entries.map fun e => measure e.2.2).sum
          + (r.entries.map fun e => measure e.2.2).sum := by rw [ihl hl, ihr hr]
      _ = ((fork y l r).entries.map fun e => measure e.2.2).sum := by
        rw [entries, List.map_append, List.sum_append]

end AugTree

/-- An augmented dictionary as it is read from a cell: the tree, if there is
one, and the root extra stored next to it. Different leaves have different
keys. -/
structure AugDict (K V Y : Type) where
  rootExtra : Y
  data : Option (AugTree K V Y)
  nodupKeys : (data.elim [] AugTree.entries).NodupKeys

namespace AugDict

variable {K V Y M : Type} (default : Y)

def empty : AugDict K V Y := ⟨default, none, List.nodupKeys_nil⟩

def singleton (key : K) (extra : Y) (value : V) : AugDict K V Y :=
  ⟨extra, some (.leaf key extra value), List.nodupKeys_singleton _⟩

variable (d : AugDict K V Y)

def toAList : AList fun _ : K => V × Y := ⟨d.data.elim [] AugTree.entries, d.nodupKeys⟩

def entries : List (Σ _ : K, V × Y) := d.data.elim [] AugTree.entries

def RootCorrect : Prop :=
  d.rootExtra = d.data.elim default AugTree.extra

def ForksCorrect (combine : Y → Y → Option Y) (d : AugDict K V Y) : Prop :=
  ∀ t, d.data = some t → t.ForksCorrect combine

def LeavesCorrect (aug : V → Checked Y) (d : AugDict K V Y) : Prop :=
  ∀ e ∈ d.entries, aug e.2.1 = .ok e.2.2

structure Correct (combine : Y → Y → Option Y) (aug : V → Checked Y) (d : AugDict K V Y) :
    Prop where
  root : d.RootCorrect default
  forks : d.ForksCorrect combine
  leaves : d.LeavesCorrect aug

theorem measure_rootExtra [AddCommMonoid M] {default : Y} {combine : Y → Y → Option Y}
    (measure : Y → M) (hzero : measure default = 0)
    (hcombine : ∀ a b c, combine a b = some c → measure c = measure a + measure b)
    {d : AugDict K V Y} (hroot : d.RootCorrect default) (hforks : d.ForksCorrect combine) :
    measure d.rootExtra = (d.entries.map fun e => measure e.2.2).sum := by
  rw [hroot, entries]
  cases hd : d.data with
  | none => simp [hzero]
  | some t => exact AugTree.measure_extra measure hcombine t (hforks t hd)

variable [DecidableEq K] (d : AugDict K V Y) (k : K)

def getWithAug : Option (V × Y) := d.toAList.lookup k

def get : Option V := (d.getWithAug k).map Prod.fst

theorem mem_entries_iff (x : V × Y) :
    (⟨k, x⟩ : Σ _ : K, V × Y) ∈ d.entries ↔ d.getWithAug k = some x :=
  AList.mem_entries_iff_lookup d.toAList k x

theorem get_eq_some (v : V) : d.get k = some v ↔ ∃ y, d.getWithAug k = some (v, y) := by
  simp [get]

theorem getWithAug_singleton (k' : K) (y : Y) (v : V) :
    (singleton k y v).getWithAug k' = if k' = k then some (v, y) else none := by
  by_cases h : k' = k
  · subst h
    simp [getWithAug, singleton, toAList, AugTree.entries, AList.lookup]
  · simp [getWithAug, singleton, toAList, AugTree.entries, AList.lookup, h]

theorem get_singleton (k' : K) (y : Y) (v : V) :
    (singleton k y v).get k' = if k' = k then some v else none := by
  rw [get, getWithAug_singleton]
  split_ifs with h
  · rfl
  · rfl

variable [DecidableEq V] [DecidableEq Y]

def scanDiff (a b : AugDict K V Y) : List (K × Option (V × Y) × Option (V × Y)) :=
  ((a.toAList.keys ++ b.toAList.keys.filter (fun k => k ∉ a.toAList.keys)).map
    fun k => (k, a.getWithAug k, b.getWithAug k)).filter fun d => d.2.1 ≠ d.2.2

theorem mem_scanDiff (a b : AugDict K V Y) (k : K) (x y : Option (V × Y)) :
    (k, x, y) ∈ scanDiff a b ↔ a.getWithAug k = x ∧ b.getWithAug k = y ∧ x ≠ y := by
  simp only [scanDiff, List.mem_filter, List.mem_map, List.mem_append, decide_eq_true_eq,
    Prod.mk.injEq, ne_eq]
  constructor
  · rintro ⟨⟨k', -, rfl, hx, hy⟩, hne⟩
    exact ⟨hx, hy, hne⟩
  · rintro ⟨hx, hy, hne⟩
    refine ⟨⟨k, ?_, rfl, hx, hy⟩, hne⟩
    -- a key of neither dictionary has the same (absent) value in both
    by_cases ha : k ∈ a.toAList.keys
    · exact .inl ha
    · refine .inr ⟨?_, ha⟩
      by_contra hb
      have hxn : x = none := hx ▸ AList.lookup_eq_none.mpr (fun h => ha (AList.mem_keys.mp h))
      have hyn : y = none := hy ▸ AList.lookup_eq_none.mpr (fun h => hb (AList.mem_keys.mp h))
      exact hne (hxn.trans hyn.symm)

def sizeChange (d : K × Option (V × Y) × Option (V × Y)) : ℤ :=
  (if d.2.2.isSome then 1 else 0) - (if d.2.1.isSome then 1 else 0)

omit [DecidableEq V] [DecidableEq Y] in
theorem sum_presence (a : AugDict K V Y) {s : Finset K} (hs : a.toAList.keys.toFinset ⊆ s) :
    (∑ k ∈ s, if (a.getWithAug k).isSome then (1 : ℤ) else 0) = a.entries.length := by
  have hmem : ∀ k, (a.getWithAug k).isSome = true ↔ k ∈ a.toAList.keys.toFinset := by
    intro k
    rw [List.mem_toFinset, ← AList.mem_keys]
    exact AList.lookup_isSome
  calc (∑ k ∈ s, if (a.getWithAug k).isSome then (1 : ℤ) else 0)
      = ∑ k ∈ s, if k ∈ a.toAList.keys.toFinset then (1 : ℤ) else 0 := by simp only [hmem]
    _ = (a.toAList.keys.toFinset.card : ℤ) := by
      rw [Finset.sum_ite_mem, Finset.inter_eq_right.mpr hs, Finset.sum_const, nsmul_eq_mul, mul_one]
    _ = a.entries.length := by
      rw [List.toFinset_card_of_nodup a.toAList.keys_nodup]
      simp [AList.keys, List.keys, toAList, entries]

theorem sum_sizeChange (a b : AugDict K V Y) :
    ((scanDiff a b).map sizeChange).sum = (b.entries.length : ℤ) - a.entries.length := by
  set keys := a.toAList.keys ++ b.toAList.keys.filter (fun k => k ∉ a.toAList.keys)
  have hnodup : keys.Nodup := by
    refine List.nodup_append.mpr ⟨a.toAList.keys_nodup, b.toAList.keys_nodup.filter _, ?_⟩
    intro x hx y hy hxy
    have hny := (List.mem_filter.mp hy).2
    rw [← hxy] at hny
    simp [hx] at hny
  have hsuba : a.toAList.keys.toFinset ⊆ keys.toFinset := by
    intro k hk
    rw [List.mem_toFinset] at hk ⊢
    exact List.mem_append_left _ hk
  have hsubb : b.toAList.keys.toFinset ⊆ keys.toFinset := by
    intro k hk
    rw [List.mem_toFinset] at hk ⊢
    by_cases ha : k ∈ a.toAList.keys
    · exact List.mem_append_left _ ha
    · exact List.mem_append_right _ (List.mem_filter.mpr ⟨hk, by simpa using ha⟩)
  have hzero : ∀ d : K × Option (V × Y) × Option (V × Y),
      decide (d.2.1 ≠ d.2.2) = false → sizeChange d = 0 := by
    intro d hd
    have heq : d.2.1 = d.2.2 := by simpa using hd
    simp [sizeChange, heq]
  calc ((scanDiff a b).map sizeChange).sum
      = (keys.map fun k => sizeChange (k, a.getWithAug k, b.getWithAug k)).sum := by
        rw [scanDiff, sum_filter_of_zero _ _ hzero, List.map_map]
        rfl
    _ = ∑ k ∈ keys.toFinset, sizeChange (k, a.getWithAug k, b.getWithAug k) := by
        rw [List.sum_toFinset _ hnodup]
    _ = (b.entries.length : ℤ) - a.entries.length := by
        simp only [sizeChange]
        rw [Finset.sum_sub_distrib, sum_presence a hsuba, sum_presence b hsubb]

end AugDict

end TonNode
