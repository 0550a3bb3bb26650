import TonNode.HashmapAug

/-! `HashmapAugE`: an augmented dictionary with its root extra beside it, and bulk
updates of both kinds of dictionaries against the same updates made one by one. -/
namespace TonNode.Hashmap

open Block Checked
open BitTrie (wfOpt_some getOpt_some wfOpt_none getOpt_none getOpt)

structure HashmapAugE (C Y : Type) where
  data : Option C
  extra : Y

section Model

variable {C Y : Type} (S : CellStore C) (A : Augmentable C Y) (n : ℕ)

def withHashmap : Option C → Checked (HashmapAugE C Y)
  | some root => do
    let extra ← findExtra S A root n
    pure ⟨some root, extra⟩
  | none => pure ⟨none, A.default⟩

namespace HashmapAugE

def new : HashmapAugE C Y := ⟨none, A.default⟩

def setBuilder (dict : HashmapAugE C Y) (key : List Bool) (leaf : Slice C) (extra : Y) :
    Checked (Option (Slice C) × HashmapAugE C Y) := do
  checkKey n key
  match dict.data with
  | some root => do
    let (old, extra, root) ← putToNodeAug S A leaf extra (n + 1) root n key
    pure (old, ⟨some root, extra⟩)
  | none => do
    let cell ← finalizeNode S key n (combine A extra leaf)
    pure (none, ⟨some cell, extra⟩)

def del (dict : HashmapAugE C Y) (key : List Bool) : Checked (HashmapAugE C Y) := do
  let (_, data) ← hashmapRemove S (hashmapAug S A) dict.data n key
  withHashmap S A n data

def multiset (dict : HashmapAugE C Y) (values : List (Update C)) : Checked (HashmapAugE C Y) := do
  let data ← hashmapMultiset S (hashmapAug S A) dict.data n values
  withHashmap S A n data

end HashmapAugE

end Model

section Representation

variable {C Y : Type} {S : CellStore C} {A : Augmentable C Y} {n : ℕ}

def extraOfOpt (A : Augmentable C Y) : Option (BitTrie (Slice C)) → Checked Y
  | none => pure A.default
  | some t => extraOf A t

variable {m : PartialMap C}

namespace HashmapAugE

def Represents (S : CellStore C) (A : Augmentable C Y) (n : ℕ) (dict : HashmapAugE C Y)
    (m : PartialMap C) : Prop :=
  ∃ t, BitTrie.WFOpt n t ∧ (∀ key, getOpt t key = m key) ∧
    encodeOpt S (hashmapAug S A) n t = .ok dict.data ∧ extraOfOpt A t = .ok dict.extra

theorem Represents.new : Represents S A n (new A) fun _ => none :=
  ⟨none, wfOpt_none, fun _ => rfl, rfl, rfl⟩

variable {dict : HashmapAugE C Y}

theorem Represents.data (h : Represents S A n dict m) :
    Hashmap.Represents S (hashmapAug S A) n dict.data m := by
  obtain ⟨t, ht, hget, hdata, -⟩ := h
  exact ⟨t, ht, hget, hdata⟩

theorem withHashmap_eq_ok {t : Option (BitTrie (Slice C))} (ht : BitTrie.WFOpt n t)
    (hlen : n ≤ maxDataBits) {data : Option C}
    (hdata : encodeOpt S (hashmapAug S A) n t = .ok data) :
    withHashmap S A n data = .ok dict ↔ dict.data = data ∧ extraOfOpt A t = .ok dict.extra := by
  obtain ⟨data', extra'⟩ := dict
  cases t with
  | none =>
    rw [encodeOpt_none] at hdata
    subst hdata
    simp only [withHashmap, extraOfOpt, pure_eq_ok, mk.injEq]
    exact and_congr_left fun _ => eq_comm
  | some t =>
    obtain ⟨cell, hcell, rfl⟩ := encodeOpt_some.mp hdata
    simp only [withHashmap, extraOfOpt, findExtra_eq (wfOpt_some.mp ht) hlen hcell,
      bind_eq_ok, pure_eq_ok, mk.injEq]
    constructor
    · rintro ⟨y, hy, rfl, rfl⟩
      exact ⟨rfl, hy⟩
    · rintro ⟨rfl, hy⟩
      exact ⟨extra', hy, rfl, rfl⟩

theorem Represents.of_withHashmap (hlen : n ≤ maxDataBits) {data : Option C}
    (h : Hashmap.Represents S (hashmapAug S A) n data m)
    (hdict : withHashmap S A n data = .ok dict) : Represents S A n dict m := by
  obtain ⟨t, ht, hget, hdata⟩ := h
  obtain ⟨rfl, hextra⟩ := (withHashmap_eq_ok ht hlen hdata).mp hdict
  exact ⟨t, ht, hget, hdata, hextra⟩

theorem Represents.withHashmap (hlen : n ≤ maxDataBits) (h : Represents S A n dict m) :
    withHashmap S A n dict.data = .ok dict := by
  obtain ⟨t, ht, -, hdata, hextra⟩ := h
  exact (withHashmap_eq_ok ht hlen hdata).mpr ⟨rfl, hextra⟩

theorem Represents.setBuilder (hA : A.Lawful) (hlen : n ≤ maxDataBits) {dict' : HashmapAugE C Y}
    (h : Represents S A n dict m) {key : List Bool} (hkey : key.length = n) {leaf : Slice C}
    {extra : Y} {old : Option (Slice C)}
    (hset : dict.setBuilder S A n key leaf extra = .ok (old, dict')) :
    Represents S A n dict' (Function.update m key (some (combine A extra leaf))) := by
  obtain ⟨t, ht, hget, hdata, -⟩ := h
  obtain ⟨data, rootExtra⟩ := dict
  simp only [HashmapAugE.setBuilder, seq_eq_ok] at hset
  obtain ⟨-, hset⟩ := hset
  cases t with
  | none =>
    rw [encodeOpt_none] at hdata
    subst hdata
    simp only [bind_eq_ok, pure_eq_ok, Prod.mk.injEq] at hset
    obtain ⟨cell, hcell, rfl, rfl⟩ := hset
    refine ⟨some (.leaf key (combine A extra leaf)), wfOpt_some.mpr hkey, ?_,
      encodeOpt_some.mpr ⟨cell, hcell, rfl⟩, extraOf_combine key⟩
    intro k
    rw [getOpt_some, BitTrie.get_leaf, Function.update_apply, ← hget, getOpt_none]
  | some t =>
    obtain ⟨cell, hcell, hcelleq⟩ := encodeOpt_some.mp hdata
    subst hcelleq
    have hwf := wfOpt_some.mp ht
    simp only [bind_eq_ok, Prod.exists, pure_eq_ok, Prod.mk.injEq] at hset
    obtain ⟨old', y, cell', hput, rfl, rfl⟩ := hset
    obtain ⟨hcell', hextra⟩ := putToNodeAug_of_ok hA hwf hlen hcell hkey hput
    refine ⟨some (t.put key (combine A extra leaf)), wfOpt_some.mpr (hwf.put hkey _), ?_,
      encodeOpt_some.mpr ⟨cell', hcell', rfl⟩, hextra⟩
    intro k
    rw [getOpt_some, hwf.get_put hkey, Function.update_apply, ← hget, getOpt_some]

end HashmapAugE

theorem Represents.hashmapRemove {T : HashmapType C} (hT : T.Symmetric) (hlen : n ≤ maxDataBits)
    {data data' : Option C} (h : Represents S T n data m) {key : List Bool} (hkey : key.length = n)
    {old : Option (Slice C)} (hremove : hashmapRemove S T data n key = .ok (old, data')) :
    Represents S T n data' (Function.update m key none) := by
  obtain ⟨t, ht, hget, hdata⟩ := h
  simp only [Hashmap.hashmapRemove, bind_eq_ok, Prod.exists, pure_eq_ok, Prod.mk.injEq] at hremove
  obtain ⟨_, -, result, data'', hnode, -, rfl⟩ := hremove
  cases t with
  | none =>
    rw [encodeOpt_none] at hdata
    subst hdata
    obtain ⟨-, rfl⟩ := hnode
    refine ⟨none, wfOpt_none, ?_, rfl⟩
    intro k
    rw [Function.update_apply, ← hget, getOpt_none, ite_self]
  | some t =>
    obtain ⟨cell, hcell, rfl⟩ := encodeOpt_some.mp hdata
    have hwf := wfOpt_some.mp ht
    obtain ⟨-, hdata'⟩ :=
      (removeNode_eq_ok hT hwf hlen hcell hkey (Nat.lt_succ_self n)).mp hnode
    refine ⟨t.erase key, hwf.erase hkey, ?_, hdata'⟩
    intro k
    rw [hwf.get_erase hkey, Function.update_apply, ← hget, getOpt_some]

end Representation

section MinMsgTime

def minMsgTime (C : Type) : Augmentable C (Fin (2 ^ 64)) where
  calcAug := fun a b => pure (if b < a then b else a)
  default := 0
  writeTo := fun lt => ⟨natToBits 64 lt, []⟩
  constructFrom := fun s => do
    require (64 ≤ s.bits.length) "CellUnderflow"
    pure (Fin.ofNat (2 ^ 64) (bitsToNat (s.bits.take 64)), ⟨s.bits.drop 64, s.refs⟩)
  constructFrom_writeTo := by
    intro lt s
    have htake : (natToBits 64 lt ++ s.bits).take 64 = natToBits 64 lt :=
      List.take_left' (length_natToBits _ _)
    have hdrop : (natToBits 64 lt ++ s.bits).drop 64 = s.bits :=
      List.drop_left' (length_natToBits _ _)
    have hlt : Fin.ofNat (2 ^ 64) (bitsToNat (natToBits 64 lt)) = lt := by
      rw [bitsToNat_natToBits lt.isLt]
      exact Fin.ofNat_val_eq_self lt
    show (do
      require (64 ≤ (natToBits 64 lt ++ s.bits).length) "CellUnderflow"
      pure (Fin.ofNat (2 ^ 64) (bitsToNat ((natToBits 64 lt ++ s.bits).take 64)),
        (⟨(natToBits 64 lt ++ s.bits).drop 64, [] ++ s.refs⟩ : Slice C))) = _
    rw [seq_eq_ok, htake, hdrop, hlt]
    refine ⟨?_, rfl⟩
    rw [require_eq_ok, List.length_append, length_natToBits]
    omega

theorem calcAug_minMsgTime {C : Type} (a b : Fin (2 ^ 64)) :
    (minMsgTime C).calcAug a b = .ok (min a b) := by
  show (pure (if b < a then b else a) : Checked (Fin (2 ^ 64))) = .ok (min a b)
  rw [pure_eq_ok]
  split_ifs with h
  · exact (min_eq_right h.le).symm
  · exact (min_eq_left (not_lt.mp h)).symm

theorem lawful_minMsgTime (C : Type) : (minMsgTime C).Lawful where
  comm := by
    intro a b c h
    rw [calcAug_minMsgTime] at h ⊢
    rw [min_comm]
    exact h
  assoc := by
    intro a b c x y hx hy
    rw [calcAug_minMsgTime, Except.ok.injEq] at hx hy
    refine ⟨min b c, calcAug_minMsgTime b c, ?_⟩
    rw [calcAug_minMsgTime, ← min_assoc, hx, hy]

end MinMsgTime

section Sequential

variable {C Y : Type} {S : CellStore C} {A : Augmentable C Y} {n : ℕ}

def applyUpdates (m : PartialMap C) (values : List (Update C)) : PartialMap C :=
  values.foldl (fun m u => Function.update m u.1 u.2) m

variable {m : PartialMap C} {values : List (Update C)}

/-- With distinct keys the order does not matter. -/
theorem updated_applyUpdates (hdistinct : (values.map Prod.fst).Nodup) :
    Updated [] values m (applyUpdates m values) := by
  induction values generalizing m with
  | nil => exact .nil _ _
  | cons u values ih =>
    rw [List.map_cons, List.nodup_cons] at hdistinct
    obtain ⟨hmem, hother⟩ := @ih (Function.update m u.1 u.2) hdistinct.2
    constructor
    · intro key o ho
      rcases List.mem_cons.mp ho with rfl | ho
      · have hkey := hother key fun o' ho' =>
          hdistinct.1 (List.mem_map.mpr ⟨_, ho', rfl⟩)
        rw [applyUpdates, List.foldl_cons]
        exact hkey.trans (Function.update_self _ _ _)
      · exact hmem key o ho
    · intro key hkey
      have hne : key ≠ u.1 := by
        rintro rfl
        exact hkey u.2 (by simp)
      have hrest := hother key fun o ho => hkey o (List.mem_cons_of_mem u ho)
      rw [applyUpdates, List.foldl_cons]
      exact hrest.trans (Function.update_of_ne hne _ _)

theorem Updated.unique {m₁ m₂ : PartialMap C} (h₁ : Updated [] values m m₁)
    (h₂ : Updated [] values m m₂) (key : List Bool) : m₁ key = m₂ key := by
  by_cases hkey : ∃ o, (key, o) ∈ values
  · obtain ⟨o, ho⟩ := hkey
    rw [h₁.1 key o ho, h₂.1 key o ho]
  · rw [h₁.2 key fun o ho => hkey ⟨o, ho⟩, h₂.2 key fun o ho => hkey ⟨o, ho⟩]

/-- `hashmap_multiset` gives the root of the map with all updates made, whenever that
map has one. -/
theorem Represents.hashmapMultiset {T : HashmapType C} (hlen : n ≤ maxDataBits) {data : Option C}
    (h : Represents S T n data m) (hkeys : ∀ u ∈ values, u.1.length = n)
    (hdistinct : (values.map Prod.fst).Nodup) {data' : Option C} :
    hashmapMultiset S T data n values = .ok data' ↔
      Represents S T n data' (applyUpdates m values) := by
  obtain ⟨t, ht, hget, hdata⟩ := h
  obtain ⟨t', ht', hup, hcell⟩ := hashmapMultiset_computes hlen ht hdata hkeys hdistinct
  have hget' : ∀ key, getOpt t' key = applyUpdates m values key := by
    rw [funext hget] at hup
    exact hup.unique (updated_applyUpdates hdistinct)
  rw [hcell]
  constructor
  · intro hdata'
    exact ⟨t', ht', hget', hdata'⟩
  · rintro ⟨t'', ht'', hget'', hdata''⟩
    have heq : t' = t'' := by
      apply ht'.ext ht''
      intro key
      rw [hget', hget'']
    rw [heq]
    exact hdata''

def Op.ofUpdate : Update C → Op C
  | (key, some leaf) => .set ⟨true, true⟩ key leaf
  | (key, none) => .remove key

theorem applyAll_ofUpdate (m : PartialMap C) (values : List (Update C)) :
    (applyAll m (values.map Op.ofUpdate)).2 = applyUpdates m values := by
  induction values generalizing m with
  | nil => rfl
  | cons u values ih =>
    obtain ⟨key, o⟩ := u
    have hstep : (Op.ofUpdate (key, o)).apply m = Function.update m key o := by
      cases o with
      | none => rfl
      | some leaf =>
        have hmode : (⟨true, true⟩ : Mode).applies (m key) = true := by
          rw [Mode.applies]
          split_ifs
          · rfl
          · rfl
        rw [Op.ofUpdate, Op.apply, if_pos hmode]
    rw [List.map_cons, applyAll, hstep]
    exact ih _

abbrev AugUpdate (C Y : Type) := List Bool × Option (Y × Slice C)

def AugUpdate.toUpdate (A : Augmentable C Y) (u : AugUpdate C Y) : Update C :=
  (u.1, u.2.map fun value => combine A value.1 value.2)

def HashmapAugE.update (S : CellStore C) (A : Augmentable C Y) (n : ℕ) (dict : HashmapAugE C Y) :
    AugUpdate C Y → Checked (HashmapAugE C Y)
  | (key, some (extra, leaf)) => do
    let (_, dict) ← dict.setBuilder S A n key leaf extra
    pure dict
  | (key, none) => dict.del S A n key

theorem HashmapAugE.Represents.update (hA : A.Lawful) (hlen : n ≤ maxDataBits)
    {dict dict' : HashmapAugE C Y} (h : HashmapAugE.Represents S A n dict m) {u : AugUpdate C Y}
    (hkey : u.1.length = n) (hupdate : dict.update S A n u = .ok dict') :
    HashmapAugE.Represents S A n dict' (Function.update m (u.toUpdate A).1 (u.toUpdate A).2) := by
  obtain ⟨key, o⟩ := u
  cases o with
  | none =>
    simp only [HashmapAugE.update, HashmapAugE.del, bind_eq_ok, Prod.exists] at hupdate
    obtain ⟨old, data, hremove, hdict⟩ := hupdate
    exact .of_withHashmap hlen
      (h.data.hashmapRemove (symmetric_hashmapAug hA) hlen hkey hremove) hdict
  | some value =>
    simp only [HashmapAugE.update, bind_eq_ok, Prod.exists, pure_eq_ok] at hupdate
    obtain ⟨old, _, hset, rfl⟩ := hupdate
    exact h.setBuilder hA hlen hkey hset

theorem HashmapAugE.Represents.updates (hA : A.Lawful) (hlen : n ≤ maxDataBits)
    {dict dict' : HashmapAugE C Y} (h : HashmapAugE.Represents S A n dict m)
    {updates : List (AugUpdate C Y)} (hkeys : ∀ u ∈ updates, u.1.length = n)
    (hrun : updates.foldlM (HashmapAugE.update S A n) dict = .ok dict') :
    HashmapAugE.Represents S A n dict' (applyUpdates m (updates.map (AugUpdate.toUpdate A))) := by
  induction updates generalizing dict m with
  | nil =>
    cases hrun
    exact h
  | cons u updates ih =>
    rw [List.forall_mem_cons] at hkeys
    rw [List.foldlM_cons, bind_eq_ok] at hrun
    obtain ⟨dict1, hstep, hrest⟩ := hrun
    exact ih (h.update hA hlen hkeys.1 hstep) hkeys.2 hrest

/-- A bulk update of a dictionary that holds a map gives the same root, and the same
root extra, as the updates made one after another. -/
theorem multiset_eq_sequential (S : CellStore C) (A : Augmentable C Y) (hA : A.Lawful)
    (hpos : 0 < n) (hlen : n ≤ maxDataBits) :
    (∀ data m (values : List (Update C)), Represents S (hashmapE C) n data m →
      (∀ u ∈ values, u.1.length = n) → (values.map Prod.fst).Nodup →
      ∀ olds data', run S n data (values.map Op.ofUpdate) = .ok (olds, data') →
        hashmapMultiset S (hashmapE C) data n values = .ok data') ∧
    ∀ dict m (updates : List (AugUpdate C Y)), HashmapAugE.Represents S A n dict m →
      (∀ u ∈ updates, u.1.length = n) → (updates.map Prod.fst).Nodup →
      ∀ dict', updates.foldlM (HashmapAugE.update S A n) dict = .ok dict' →
        dict.multiset S A n (updates.map (AugUpdate.toUpdate A)) = .ok dict' := by
  constructor
  · intro data m values h hkeys hdistinct olds data' hrun
    have hops : ∀ op ∈ values.map Op.ofUpdate, op.key.length = n := by
      intro op hop
      obtain ⟨⟨key, o⟩, hu, rfl⟩ := List.mem_map.mp hop
      cases o with
      | none | some leaf => exact hkeys _ hu
    obtain ⟨-, -, hlast⟩ := (run_eq_ok hpos hlen hops h).mp hrun
    rw [applyAll_ofUpdate] at hlast
    exact (h.hashmapMultiset hlen hkeys hdistinct).mpr hlast
  · intro dict m updates h hkeys hdistinct dict' hrun
    have hlast := h.updates hA hlen hkeys hrun
    have hkeys' : ∀ u ∈ updates.map (AugUpdate.toUpdate A), u.1.length = n := by
      intro u hu
      obtain ⟨v, hv, rfl⟩ := List.mem_map.mp hu
      exact hkeys v hv
    have hdistinct' : ((updates.map (AugUpdate.toUpdate A)).map Prod.fst).Nodup := by
      rw [List.map_map]
      exact hdistinct
    have hdata := (h.data.hashmapMultiset hlen hkeys' hdistinct').mpr hlast.data
    rw [HashmapAugE.multiset, hdata, ok_bind]
    exact hlast.withHashmap hlen

/-- Both keys of a fork are touched, one of them is removed, and so is a key that is not there. -/
def mixedUpdates : List (Update TreeCell) :=
  [([true, false], none), ([false, false], some ⟨[true], []⟩), ([true, true], some ⟨[true], []⟩),
    ([false, true], none)]

theorem multiset_mixed : ∃ data olds data', run TreeCell.store 2 none storeTwo =
      .ok ([none, none], some data) ∧
    run TreeCell.store 2 (some data) (mixedUpdates.map Op.ofUpdate) = .ok (olds, some data') ∧
    hashmapMultiset TreeCell.store (hashmapE TreeCell) (some data) 2 mixedUpdates =
      .ok (some data') := by
  refine ⟨_, _, _, rfl, rfl, ?_⟩
  have hdata := ((run_eq_ok (S := TreeCell.store) (n := 2) (by decide) (by decide)
    (by simp [storeTwo, Op.key]) .empty).mp (rfl : run _ _ none storeTwo = _)).2.2
  exact (multiset_eq_sequential TreeCell.store (minMsgTime TreeCell) (lawful_minMsgTime TreeCell)
    (by decide) (by decide)).1 _ _ mixedUpdates hdata (by simp [mixedUpdates]) (by decide) _ _ rfl

/-- A leaf whose label is not in the shortest form: deleting an absent key leaves it as
it is, and the bulk update writes the label anew. -/
theorem multiset_long_label :
    hashmapRemove TreeCell.store (hashmapE TreeCell) (some (.mk [true, false, true, false] [])) 1
        [true] = .ok (none, some (.mk [true, false, true, false] [])) ∧
      hashmapMultiset TreeCell.store (hashmapE TreeCell) (some (.mk [true, false, true, false] []))
        1 [([true], none)] = .ok (some (.mk [false, true, false, false] [])) ∧
      TreeCell.mk [true, false, true, false] [] ≠ .mk [false, true, false, false] [] :=
  ⟨rfl, rfl, by simp⟩

end Sequential

end TonNode.Hashmap
