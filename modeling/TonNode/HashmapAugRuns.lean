import TonNode.HashmapMerge

/-! The operations that take an augmented dictionary apart and put two together, and
the extras in every dictionary that a run of operations can leave. -/
namespace TonNode.Hashmap

open Block Checked

section Model

variable {C Y σ : Type} (S : CellStore C) (A : Augmentable C Y) (n : ℕ)

namespace HashmapAugE

variable (dict : HashmapAugE C Y)

def filter (func : σ → List Bool → Slice C → Y → Checked (HashmapFilterResult × σ)) (st : σ) :
    Checked (HashmapFilterResult × HashmapAugE C Y × σ) := do
  let (result, root, st) ← hashmapFilter S (hashmapAug S A) dict.data n (fun st key value => do
    let (aug, value) ← A.constructFrom value
    func st key value aug) st
  match root with
  | none => pure (result, dict, st)
  | some data => do
    let dict ← withHashmap S A n data
    pure (result, dict, st)

def filterWithSplit (func : σ → List Bool → Slice C → Y → Checked (HashmapFilterSplitResult × σ))
    (st : σ) : Checked ((HashmapAugE C Y × HashmapAugE C Y) × σ) :=
  match dict.data with
  | none => pure ((dict, dict), st)
  | some _ => do
    let ((left, right), st) ← hashmapFilterSplit S (hashmapAug S A) dict.data n
      (fun st key value => do
        let (aug, value) ← A.constructFrom value
        func st key value aug) st
    let left ← withHashmap S A n left
    let right ← withHashmap S A n right
    pure ((left, right), st)

def split (key : List Bool) : Checked (HashmapAugE C Y × HashmapAugE C Y) := do
  let (left, right) ← hashmapSplit S dict.data n key
  let left ← withHashmap S A n left
  let right ← withHashmap S A n right
  pure (left, right)

def merge (other : HashmapAugE C Y) (key : List Bool) : Checked (HashmapAugE C Y) := do
  require (key.length ≤ n)
    "data in hashmaps do not correspond each other or key too long"
  match dict.data with
  | none => pure other
  | some _ => do
    let extra ← A.calcAug dict.extra other.extra
    let data ← hashmapMerge S (hashmapAug S A) dict.data other.data n key
    pure ⟨data, extra⟩

end HashmapAugE

end Model

section Runs

variable {C Y : Type}

/-- Every fork of a tree of cells stores what its two sides combine to. -/
inductive ForksCombine (S : CellStore C) (A : Augmentable C Y) : ℕ → C → Prop
  | leaf {n : ℕ} {cell : C} {label : List Bool} {slice : Slice C}
      (load : loadNode S cell n = .ok (label, slice)) (length : label.length = n) :
      ForksCombine S A n cell
  | fork {n m : ℕ} {cell left right : C} {label : List Bool} {slice : Slice C} {a b y : Y}
      (load : loadNode S cell n = .ok (label, slice)) (length : label.length + 1 + m = n)
      (leftRef : slice.reference 0 = .ok left) (rightRef : slice.reference 1 = .ok right)
      (leftExtra : findExtra S A left m = .ok a) (rightExtra : findExtra S A right m = .ok b)
      (combined : A.calcAug a b = .ok y) (extra : findExtra S A cell n = .ok y)
      (leftForks : ForksCombine S A m left) (rightForks : ForksCombine S A m right) :
      ForksCombine S A n cell

def HashmapAugE.ExtrasAgree (S : CellStore C) (A : Augmentable C Y) (n : ℕ)
    (dict : HashmapAugE C Y) : Prop :=
  match dict.data with
  | none => dict.extra = A.default
  | some root => ForksCombine S A n root ∧ findExtra S A root n = .ok dict.extra

def MergeKeepsExtra (A : Augmentable C Y) (dict other : HashmapAugE C Y) : Prop :=
  dict.data ≠ none → other.data = none → A.calcAug dict.extra other.extra = .ok dict.extra

/-- The dictionaries that successful operations make from empty ones, with merges of
allowed pairs only. -/
inductive Reachable (S : CellStore C) (A : Augmentable C Y) (n : ℕ)
    (allowed : HashmapAugE C Y → HashmapAugE C Y → Prop) : HashmapAugE C Y → Prop
  | new : Reachable S A n allowed (.new A)
  | set {dict dict' : HashmapAugE C Y} {key : List Bool} {leaf : Slice C} {extra : Y}
      {old : Option (Slice C)} (start : Reachable S A n allowed dict)
      (step : dict.setBuilder S A n key leaf extra = .ok (old, dict')) :
      Reachable S A n allowed dict'
  | del {dict dict' : HashmapAugE C Y} {key : List Bool} (start : Reachable S A n allowed dict)
      (step : dict.del S A n key = .ok dict') : Reachable S A n allowed dict'
  | multiset {dict dict' : HashmapAugE C Y} {values : List (Update C)}
      (start : Reachable S A n allowed dict) (step : dict.multiset S A n values = .ok dict') :
      Reachable S A n allowed dict'
  | filter {σ : Type} {dict dict' : HashmapAugE C Y}
      {func : σ → List Bool → Slice C → Y → Checked (HashmapFilterResult × σ)} {st st' : σ}
      {result : HashmapFilterResult} (start : Reachable S A n allowed dict)
      (step : dict.filter S A n func st = .ok (result, dict', st')) : Reachable S A n allowed dict'
  | stayed {σ : Type} {dict left right : HashmapAugE C Y}
      {func : σ → List Bool → Slice C → Y → Checked (HashmapFilterSplitResult × σ)} {st st' : σ}
      (start : Reachable S A n allowed dict)
      (step : dict.filterWithSplit S A n func st = .ok ((left, right), st')) :
      Reachable S A n allowed left
  | moved {σ : Type} {dict left right : HashmapAugE C Y}
      {func : σ → List Bool → Slice C → Y → Checked (HashmapFilterSplitResult × σ)} {st st' : σ}
      (start : Reachable S A n allowed dict)
      (step : dict.filterWithSplit S A n func st = .ok ((left, right), st')) :
      Reachable S A n allowed right
  | left {dict left right : HashmapAugE C Y} {key : List Bool}
      (start : Reachable S A n allowed dict) (step : dict.split S A n key = .ok (left, right)) :
      Reachable S A n allowed left
  | right {dict left right : HashmapAugE C Y} {key : List Bool}
      (start : Reachable S A n allowed dict) (step : dict.split S A n key = .ok (left, right)) :
      Reachable S A n allowed right
  | merge {dict other dict' : HashmapAugE C Y} {key : List Bool}
      (start : Reachable S A n allowed dict) (other_start : Reachable S A n allowed other)
      (pair : allowed dict other) (step : dict.merge S A n other key = .ok dict') :
      Reachable S A n allowed dict'

variable {S : CellStore C} {A : Augmentable C Y} {n : ℕ}

def HashmapAugE.Canonical (S : CellStore C) (A : Augmentable C Y) (n : ℕ)
    (dict : HashmapAugE C Y) : Prop :=
  ∃ m, HashmapAugE.Represents S A n dict m

namespace HashmapAugE.Canonical

variable {dict dict' other : HashmapAugE C Y}

theorem isDictionary (h : dict.Canonical S A n) : IsDictionary S (hashmapAug S A) n dict.data := by
  obtain ⟨m, hm⟩ := h
  exact hm.data.isDictionary

theorem exists_trie (h : dict.Canonical S A n) {cell : C} (hcell : dict.data = some cell) :
    ∃ t : BitTrie (Slice C), t.WF n ∧ encode S (hashmapAug S A) n t = .ok cell ∧
      extraOf A t = .ok dict.extra := by
  obtain ⟨m, t, ht, -, hdata, hextra⟩ := h
  rw [hcell] at hdata
  cases t with
  | none => cases encodeOpt_none.mp hdata
  | some t =>
    obtain ⟨c, hc, heq⟩ := encodeOpt_some.mp hdata
    cases heq
    exact ⟨t, BitTrie.wfOpt_some.mp ht, hc, hextra⟩

theorem of_withHashmap (hlen : n ≤ maxDataBits) {data : Option C}
    (hdata : IsDictionary S (hashmapAug S A) n data) (h : withHashmap S A n data = .ok dict) :
    dict.Canonical S A n := by
  obtain ⟨m, hm⟩ := hdata.represents
  exact ⟨m, .of_withHashmap hlen hm h⟩

variable {key : List Bool}

section

variable (hA : A.Lawful) (hlen : n ≤ maxDataBits) (h : dict.Canonical S A n)
include hA hlen h

theorem setBuilder {leaf : Slice C} {extra : Y} {old : Option (Slice C)}
    (hset : dict.setBuilder S A n key leaf extra = .ok (old, dict')) : dict'.Canonical S A n := by
  obtain ⟨m, hm⟩ := h
  have hkey : key.length = n := by
    obtain ⟨_, hcheck, -⟩ := bind_eq_ok.mp hset
    exact ((require_eq_ok _ _ _).mp hcheck).2.symm
  exact ⟨_, hm.setBuilder hA hlen hkey hset⟩

theorem del (hdel : dict.del S A n key = .ok dict') : dict'.Canonical S A n := by
  obtain ⟨m, hm⟩ := h
  obtain ⟨⟨old, data⟩, hremove, hwith⟩ := bind_eq_ok.mp hdel
  have hkey : key.length = n := by
    obtain ⟨_, hcheck, -⟩ := bind_eq_ok.mp hremove
    exact ((require_eq_ok _ _ _).mp hcheck).2.symm
  apply of_withHashmap hlen _ hwith
  exact (hm.data.hashmapRemove (symmetric_hashmapAug hA) hlen hkey hremove).isDictionary

end

theorem multiset (hlen : n ≤ maxDataBits) (h : dict.Canonical S A n) {values : List (Update C)}
    (hset : dict.multiset S A n values = .ok dict') : dict'.Canonical S A n := by
  obtain ⟨data, hdata, hwith⟩ := bind_eq_ok.mp hset
  apply of_withHashmap hlen _ hwith
  exact hashmapMultiset_isDictionary hlen h.isDictionary hdata

section

variable {σ : Type} (hlen : n ≤ maxDataBits) (h : dict.Canonical S A n)
include hlen h

theorem filter {func : σ → List Bool → Slice C → Y → Checked (HashmapFilterResult × σ)} {st st' : σ}
    {result : HashmapFilterResult}
    (hfilter : dict.filter S A n func st = .ok (result, dict', st')) : dict'.Canonical S A n := by
  obtain ⟨⟨result1, root, st1⟩, hpass, hrest⟩ := bind_eq_ok.mp hfilter
  cases root with
  | none =>
    -- nothing was removed
    cases hrest
    exact h
  | some data =>
    obtain ⟨dict1, hwith, hpair⟩ := bind_eq_ok.mp hrest
    cases hpair
    exact of_withHashmap hlen (hashmapFilter_of_ok hlen h.isDictionary hpass) hwith

theorem filterWithSplit
    {func : σ → List Bool → Slice C → Y → Checked (HashmapFilterSplitResult × σ)} {st st' : σ}
    {left right : HashmapAugE C Y}
    (hsplit : dict.filterWithSplit S A n func st = .ok ((left, right), st')) :
    left.Canonical S A n ∧ right.Canonical S A n := by
  rw [HashmapAugE.filterWithSplit] at hsplit
  split at hsplit
  · cases hsplit
    exact ⟨h, h⟩
  · obtain ⟨⟨⟨data0, data1⟩, st1⟩, hpass, hrest⟩ := bind_eq_ok.mp hsplit
    obtain ⟨dict0, hwith0, hrest⟩ := bind_eq_ok.mp hrest
    obtain ⟨dict1, hwith1, hpair⟩ := bind_eq_ok.mp hrest
    cases hpair
    obtain ⟨hdict0, hdict1⟩ := hashmapFilterSplit_of_ok hlen h.isDictionary hpass
    exact ⟨of_withHashmap hlen hdict0 hwith0, of_withHashmap hlen hdict1 hwith1⟩

end

theorem split (hlen : n ≤ maxDataBits) (h : dict.Canonical S A n) {left right : HashmapAugE C Y}
    (hsplit : dict.split S A n key = .ok (left, right)) :
    left.Canonical S A n ∧ right.Canonical S A n := by
  obtain ⟨⟨data0, data1⟩, hpass, hrest⟩ := bind_eq_ok.mp hsplit
  obtain ⟨dict0, hwith0, hrest⟩ := bind_eq_ok.mp hrest
  obtain ⟨dict1, hwith1, hpair⟩ := bind_eq_ok.mp hrest
  cases hpair
  obtain ⟨hdict0, hdict1⟩ := hashmapSplit_of_ok hlen h.isDictionary hpass
  exact ⟨of_withHashmap hlen hdict0 hwith0, of_withHashmap hlen hdict1 hwith1⟩

end HashmapAugE.Canonical

theorem forksCombine_of_encode (hlen : n ≤ maxDataBits) {t : BitTrie (Slice C)} (ht : t.WF n)
    {cell : C} (hcell : encode S (hashmapAug S A) n t = .ok cell) {y : Y}
    (hy : extraOf A t = .ok y) : ForksCombine S A n cell := by
  induction t generalizing n cell y with
  | leaf label value =>
    obtain ⟨data, -, hload, -⟩ := exists_isNode ht hlen hcell
    exact .leaf hload ht
  | fork label l r ihl ihr =>
    obtain ⟨data, hdata, hload, -⟩ := exists_isNode ht hlen hcell
    obtain ⟨m, left, right, extra, hm, hleft, hright, -, rfl⟩ := hdata
    obtain ⟨hl, hr⟩ := ht.of_fork hm
    obtain ⟨a, b, ha, hb, hab⟩ := extraOf_fork.mp hy
    have hextra := findExtra_eq ht hlen hcell
    rw [hy] at hextra
    have hlextra := findExtra_eq hl (by omega) hleft
    rw [ha] at hlextra
    have hrextra := findExtra_eq hr (by omega) hright
    rw [hb] at hrextra
    exact .fork hload hm reference_zero reference_one hlextra hrextra hab hextra
      (ihl (by omega) hl hleft ha) (ihr (by omega) hr hright hb)

theorem HashmapAugE.Canonical.extrasAgree (hlen : n ≤ maxDataBits) {dict : HashmapAugE C Y}
    (h : dict.Canonical S A n) : dict.ExtrasAgree S A n := by
  obtain ⟨m, t, ht, -, hdata, hextra⟩ := h
  obtain ⟨data, extra⟩ := dict
  cases t with
  | none =>
    obtain rfl : data = none := encodeOpt_none.mp hdata
    exact (Except.ok.inj hextra).symm
  | some t =>
    obtain ⟨cell, hcell, rfl⟩ : ∃ c, encode S (hashmapAug S A) n t = .ok c ∧ data = some c :=
      encodeOpt_some.mp hdata
    have hwf := BitTrie.wfOpt_some.mp ht
    exact ⟨forksCombine_of_encode hlen hwf hcell hextra, (findExtra_eq hwf hlen hcell).trans hextra⟩

/-- What `merge` leaves: one of the two if the other is empty, up to the root extra;
otherwise the dictionary of both. -/
theorem HashmapAugE.merge_cases (hA : A.Lawful) (hlen : n ≤ maxDataBits)
    {dict other dict' : HashmapAugE C Y} (hdict : dict.Canonical S A n)
    (hother : other.Canonical S A n) {key : List Bool}
    (h : dict.merge S A n other key = .ok dict') : (dict.data = none ∧ dict' = other) ∨
      (dict.data ≠ none ∧ other.data = none ∧ dict'.data = dict.data ∧
        A.calcAug dict.extra other.extra = .ok dict'.extra) ∨
      (dict.data ≠ none ∧ other.data ≠ none ∧ dict'.Canonical S A n) := by
  obtain ⟨_, hkey, h⟩ := bind_eq_ok.mp h
  have hkey : ¬ n < key.length := not_lt.mpr ((require_eq_ok _ _ _).mp hkey)
  obtain ⟨data, extra⟩ := dict
  obtain ⟨data2, extra2⟩ := other
  cases data with
  | none =>
    cases h
    exact .inl ⟨rfl, rfl⟩
  | some cell1 =>
    obtain ⟨y, hy, h⟩ := bind_eq_ok.mp h
    obtain ⟨merged, hmerged, h⟩ := bind_eq_ok.mp h
    cases h
    right
    cases data2 with
    | none =>
      simp only [hashmapMerge, if_neg hkey] at hmerged
      cases hmerged
      exact .inl ⟨Option.some_ne_none _, rfl, rfl, hy⟩
    | some cell2 =>
      simp only [hashmapMerge, if_neg hkey] at hmerged
      obtain ⟨cell, hcell, h⟩ := bind_eq_ok.mp hmerged
      cases h
      refine .inr ⟨Option.some_ne_none _, Option.some_ne_none _, ?_⟩
      obtain ⟨t1, h1, hcell1, hextra1⟩ := hdict.exists_trie rfl
      obtain ⟨t2, h2, hcell2, hextra2⟩ := hother.exists_trie rfl
      obtain ⟨t, ht, htcell, z, hz, htextra⟩ :=
        mergeNodes_of_ok hA hlen h1 h2 hcell1 hcell2 hextra1 hextra2 hcell
      rw [hy] at hz
      cases hz
      exact ⟨BitTrie.getOpt (some t), some t, BitTrie.wfOpt_some.mpr ht, fun _ => rfl,
        encodeOpt_some.mpr ⟨cell, htcell, rfl⟩, htextra⟩

/-- A run of operations that only merges dictionaries whose root extra it keeps leaves
canonical dictionaries. The induction is on the run. -/
theorem Reachable.canonical (hA : A.Lawful) (hlen : n ≤ maxDataBits) {dict : HashmapAugE C Y}
    (h : Reachable S A n (MergeKeepsExtra A) dict) : dict.Canonical S A n := by
  induction h with
  | new => exact ⟨_, .new⟩
  | set _ step ih => exact ih.setBuilder hA hlen step
  | del _ step ih => exact ih.del hA hlen step
  | multiset _ step ih => exact ih.multiset hlen step
  | filter _ step ih => exact ih.filter hlen step
  | stayed _ step ih => exact (ih.filterWithSplit hlen step).1
  | moved _ step ih => exact (ih.filterWithSplit hlen step).2
  | left _ step ih => exact (ih.split hlen step).1
  | right _ step ih => exact (ih.split hlen step).2
  | merge _ _ pair step ih ihother =>
    rcases HashmapAugE.merge_cases hA hlen ih ihother step with
      ⟨-, rfl⟩ | ⟨hsome, hnone, hdata, hextra⟩ | ⟨-, -, hboth⟩
    · exact ihother
    · rename_i dict other dict' key _ _
      have hkeep := pair hsome hnone
      rw [hextra] at hkeep
      have heq : dict' = dict := by
        obtain ⟨data, extra⟩ := dict
        obtain ⟨data', extra'⟩ := dict'
        cases hdata
        cases hkeep
        rfl
      rw [heq]
      exact ih
    · exact hboth

/-- In every run whose merges keep the root extra when one side is empty, the extras
agree in all dictionaries; and they agree after a merge exactly if it is such a merge. -/
theorem aug_extras_agree_iff_merge_keeps (S : CellStore C) (A : Augmentable C Y)
    (hA : A.Lawful) (hlen : n ≤ maxDataBits) :
    (∀ dict, Reachable S A n (MergeKeepsExtra A) dict → dict.ExtrasAgree S A n) ∧
      ∀ dict other key dict', Reachable S A n (MergeKeepsExtra A) dict →
        Reachable S A n (MergeKeepsExtra A) other → dict.merge S A n other key = .ok dict' →
        (dict'.ExtrasAgree S A n ↔ MergeKeepsExtra A dict other) := by
  refine ⟨fun dict h => (h.canonical hA hlen).extrasAgree hlen, ?_⟩
  intro dict other key dict' hdict hother hmerge
  constructor
  · intro hagree hsome hnone
    rcases HashmapAugE.merge_cases hA hlen (hdict.canonical hA hlen) (hother.canonical hA hlen)
      hmerge with ⟨hempty, -⟩ | ⟨-, -, hdata, hextra⟩ | ⟨-, hne, -⟩
    · exact absurd hempty hsome
    · -- the root is the same, so its extra is
      have hbefore := (hdict.canonical hA hlen).extrasAgree hlen
      obtain ⟨root, hroot⟩ := Option.ne_none_iff_exists'.mp hsome
      rw [HashmapAugE.ExtrasAgree, hdata, hroot] at hagree
      rw [HashmapAugE.ExtrasAgree, hroot] at hbefore
      have hsame : dict'.extra = dict.extra :=
        Except.ok.inj (hagree.2.symm.trans hbefore.2)
      rw [hsame] at hextra
      exact hextra
    · exact absurd hnone hne
  · intro hkeep
    exact ((Reachable.merge hdict hother hkeep hmerge).canonical hA hlen).extrasAgree hlen

def oneMessage : HashmapAugE TreeCell (Fin (2 ^ 64)) :=
  ⟨some (.mk ([true, true, false] ++ natToBits 9 352 ++ natToBits 64 5) []), 5⟩

set_option maxRecDepth 4000 in
theorem set_oneMessage :
    (HashmapAugE.new (minMsgTime TreeCell)).setBuilder TreeCell.store (minMsgTime TreeCell) 352
      (List.replicate 352 false) ⟨[], []⟩ 5 = .ok (none, oneMessage) := rfl

set_option maxRecDepth 4000 in
theorem findExtra_oneMessage : findExtra TreeCell.store (minMsgTime TreeCell)
      (.mk ([true, true, false] ++ natToBits 9 352 ++ natToBits 64 5) []) 352 = .ok 5 := rfl

def otherMessage : HashmapAugE TreeCell (Fin (2 ^ 64)) :=
  ⟨some (.mk ([true, true, true] ++ natToBits 9 352 ++ natToBits 64 3) []), 3⟩

set_option maxRecDepth 4000 in
theorem set_otherMessage :
    (HashmapAugE.new (minMsgTime TreeCell)).setBuilder TreeCell.store (minMsgTime TreeCell) 352
      (List.replicate 352 true) ⟨[], []⟩ 3 = .ok (none, otherMessage) := rfl

set_option maxRecDepth 4000 in
theorem merge_otherMessage : ∃ dict, oneMessage.merge TreeCell.store (minMsgTime TreeCell) 352
    otherMessage [] = .ok dict ∧ dict.extra = 3 := ⟨_, rfl, rfl⟩

/-- Two queues of one message each, merged into a fork. -/
theorem aug_extras_agree_merged : ∃ dict, oneMessage.merge TreeCell.store (minMsgTime TreeCell) 352
    otherMessage [] = .ok dict ∧ dict.extra = 3 ∧
      dict.ExtrasAgree TreeCell.store (minMsgTime TreeCell) 352 := by
  obtain ⟨dict, hmerge, hextra⟩ := merge_otherMessage
  have hagree := (aug_extras_agree_iff_merge_keeps TreeCell.store (minMsgTime TreeCell)
    (lawful_minMsgTime TreeCell) (by decide)).2 _ _ _ _ (.set .new set_oneMessage)
    (.set .new set_otherMessage) hmerge
  exact ⟨dict, hmerge, hextra, hagree.mpr fun _ hnone => by cases hnone⟩

/-- Merging the queue with an empty one sets its root extra to the default, 0, while the
message still has lt 5. -/
theorem merge_empty_resets_extra :
    ∃ dict, Reachable TreeCell.store (minMsgTime TreeCell) 352 (fun _ _ => True) dict ∧
      dict.data = oneMessage.data ∧ dict.extra = 0 ∧
      ¬ dict.ExtrasAgree TreeCell.store (minMsgTime TreeCell) 352 := by
  refine ⟨⟨oneMessage.data, 0⟩, ?_, rfl, rfl, ?_⟩
  · have hmerge : oneMessage.merge TreeCell.store (minMsgTime TreeCell) 352
        (.new (minMsgTime TreeCell)) [] = .ok ⟨oneMessage.data, 0⟩ := rfl
    exact .merge (.set .new set_oneMessage) .new trivial hmerge
  · intro h
    have hzero := h.2
    rw [findExtra_oneMessage] at hzero
    exact absurd (Except.ok.inj hzero) (by decide)

end Runs

end TonNode.Hashmap
