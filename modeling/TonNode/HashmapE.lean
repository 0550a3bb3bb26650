import TonNode.HashmapOps

/-! `HashmapE` as a finite map. A root represents a partial map when it is the root of
the trie of that map; setting and removing keys follow the map, and a map has at
most one root. -/
namespace TonNode.Hashmap

open Block Checked
open BitTrie (getOpt wfOpt_some getOpt_some wfOpt_none getOpt_none)

abbrev PartialMap (C : Type) := List Bool → Option (Slice C)

section Representation

variable {C : Type} (S : CellStore C) (T : HashmapType C) (n : ℕ)

/-- The root of the dictionary that holds a map. -/
def Represents (data : Option C) (m : PartialMap C) : Prop :=
  ∃ t, BitTrie.WFOpt n t ∧ (∀ key, getOpt t key = m key) ∧ encodeOpt S T n t = .ok data

variable {S T n} {data data' : Option C} {m m' : PartialMap C}

def IsDictionary (S : CellStore C) (T : HashmapType C) (n : ℕ) (data : Option C) : Prop :=
  ∃ t, BitTrie.WFOpt n t ∧ encodeOpt S T n t = .ok data

theorem Represents.isDictionary (h : Represents S T n data m) : IsDictionary S T n data := by
  obtain ⟨t, ht, -, hdata⟩ := h
  exact ⟨t, ht, hdata⟩

theorem IsDictionary.represents (h : IsDictionary S T n data) : ∃ m, Represents S T n data m := by
  obtain ⟨t, ht, hdata⟩ := h
  exact ⟨getOpt t, t, ht, fun _ => rfl, hdata⟩

theorem IsDictionary.none : IsDictionary S T n none := ⟨Option.none, wfOpt_none, rfl⟩

theorem Represents.empty : Represents S T n none fun _ => none :=
  ⟨none, wfOpt_none, fun _ => rfl, rfl⟩

theorem Represents.unique (h : Represents S T n data m) (h' : Represents S T n data' m) :
    data = data' := by
  obtain ⟨t, ht, hget, hdata⟩ := h
  obtain ⟨t', ht', hget', hdata'⟩ := h'
  have heq : t = t' := by
    apply ht.ext ht'
    intro key
    rw [hget, hget']
  rw [heq, hdata'] at hdata
  exact (Except.ok.inj hdata).symm

theorem represents_getOpt {t : Option (BitTrie (Slice C))} (ht : BitTrie.WFOpt n t) :
    Represents S T n data (getOpt t) ↔ encodeOpt S T n t = .ok data := by
  constructor
  · rintro ⟨t', ht', hget, hdata⟩
    rw [← ht'.ext ht hget]
    exact hdata
  · intro hdata
    exact ⟨t, ht, fun _ => rfl, hdata⟩

theorem Represents.eq_none_iff (h : Represents S T n data m) :
    data = none ↔ ∀ key, m key = none := by
  constructor
  · rintro rfl
    obtain ⟨t, -, hget, hdata⟩ := h
    cases t with
    | none =>
      intro key
      exact (hget key).symm
    | some t =>
      obtain ⟨_, -, hnone⟩ := encodeOpt_some.mp hdata
      cases hnone
  · intro hnone
    have hm : m = fun _ => none := funext hnone
    rw [hm] at h
    exact h.unique .empty

theorem Represents.hashmapGet (h : Represents S T n data m) (hpos : 0 < n)
    (hlen : n ≤ maxDataBits) {key : List Bool} (hkey : key.length = n) :
    hashmapGet S data n key = .ok (m key) := by
  obtain ⟨t, ht, hget, hdata⟩ := h
  rw [hashmapGet_eq ht hlen hpos hdata hkey, hget]

end Representation

inductive Op (C : Type) where
  | set (mode : Mode) (key : List Bool) (leaf : Slice C)
  | remove (key : List Bool)

namespace Op

variable {C : Type}

def key : Op C → List Bool
  | set _ key _ => key
  | remove key => key

def apply (m : PartialMap C) : Op C → PartialMap C
  | set mode key leaf => if mode.applies (m key) then Function.update m key (some leaf) else m
  | remove key => Function.update m key none

def exec (S : CellStore C) (n : ℕ) (data : Option C) : Op C → Checked (Option (Slice C) × Option C)
  | set mode key leaf => hashmapSetWithMode S (hashmapE C) data n key leaf mode
  | remove key => hashmapRemove S (hashmapE C) data n key

def onTrie : Op C → Option (BitTrie (Slice C)) → Option (BitTrie (Slice C))
  | set mode key leaf, some t => some (putMode mode key leaf t)
  | set mode key leaf, none => if mode.add then some (.leaf key leaf) else none
  | remove key, t => t.bind fun t => t.erase key

/-- A value that fits a leaf with the whole key for a label, and whose references
leave room for a fork at every bit of the key. -/
def LeafFits (S : CellStore C) (n : ℕ) (key : List Bool) (leaf : Slice C) : Prop :=
  (labelBits key n ++ leaf.bits).length ≤ maxDataBits ∧ leaf.refs.length ≤ maxReferencesCount ∧
    ∀ r ∈ leaf.refs, S.depth r + n < maxSafeDepth

def Fits (S : CellStore C) (n : ℕ) : Op C → Prop
  | set _ key leaf => LeafFits S n key leaf
  | remove _ => True

variable {S : CellStore C} {n : ℕ}

variable {t : Option (BitTrie (Slice C))} {op : Op C}

theorem onTrie_wf (ht : BitTrie.WFOpt n t) (hkey : op.key.length = n) :
    BitTrie.WFOpt n (op.onTrie t) := by
  cases t with
  | none =>
    cases op with
    | set mode key leaf =>
      rw [onTrie]
      split_ifs
      · exact wfOpt_some.mpr hkey
      · exact wfOpt_none
    | remove key => exact wfOpt_none
  | some t =>
    have hwf := wfOpt_some.mp ht
    cases op with
    | set mode key leaf =>
      rw [onTrie, wfOpt_some, putMode]
      split_ifs
      · exact hwf.put hkey leaf
      · exact hwf
    | remove key => exact hwf.erase hkey

theorem getOpt_onTrie (ht : BitTrie.WFOpt n t) (hkey : op.key.length = n) (k : List Bool) :
    getOpt (op.onTrie t) k = op.apply (getOpt t) k := by
  cases t with
  | none =>
    cases op with
    | set mode key leaf =>
      simp only [onTrie, apply, getOpt_none, Mode.applies, Option.isSome_none,
        Bool.false_eq_true, if_false]
      split_ifs
      · rw [getOpt_some, BitTrie.get_leaf, Function.update_apply, getOpt_none]
      · rfl
    | remove key =>
      simp [onTrie, apply, getOpt_none, Function.update_apply]
  | some t =>
    have hwf := wfOpt_some.mp ht
    cases op with
    | set mode key leaf =>
      simp only [Op.key] at hkey
      have happly : (set mode key leaf).apply (getOpt (some t)) =
          if mode.applies (t.get key) then Function.update (getOpt (some t)) key (some leaf)
          else getOpt (some t) := rfl
      rw [happly, onTrie, getOpt_some, putMode]
      split_ifs
      · rw [hwf.get_put hkey, Function.update_apply, getOpt_some]
      · rfl
    | remove key =>
      simp only [Op.key] at hkey
      simp [onTrie, apply, hwf.get_erase hkey, Function.update_apply]

theorem checkKey_eq_ok (hpos : 0 < n) {key : List Bool} (hkey : key.length = n) :
    checkKey n key = .ok () := by
  rw [checkKey, require_eq_ok]
  refine ⟨?_, hkey.symm⟩
  rintro rfl
  rw [List.length_nil] at hkey
  omega

theorem exec_eq_ok (hpos : 0 < n) (hlen : n ≤ maxDataBits) (ht : BitTrie.WFOpt n t)
    (hkey : op.key.length = n) {data data' : Option C}
    (hdata : encodeOpt S (hashmapE C) n t = .ok data) {old : Option (Slice C)} :
    op.exec S n data = .ok (old, data') ↔ old = getOpt t op.key ∧
        encodeOpt S (hashmapE C) n (op.onTrie t) = .ok data' := by
  have hcheck := checkKey_eq_ok hpos hkey
  cases t with
  | none =>
    rw [encodeOpt_none] at hdata
    subst hdata
    cases op with
    | set mode key leaf =>
      simp only [Op.key] at hcheck
      simp only [exec, hashmapSetWithMode, hcheck, ok_bind, onTrie, getOpt_none]
      split_ifs
      · simp only [bind_eq_ok, pure_eq_ok, Prod.mk.injEq, encodeOpt_some, encode_leaf]
        constructor
        · rintro ⟨c, hc, rfl, rfl⟩
          exact ⟨rfl, c, hc, rfl⟩
        · rintro ⟨rfl, c, hc, rfl⟩
          exact ⟨c, hc, rfl, rfl⟩
      · simp only [pure_eq_ok, Prod.mk.injEq, encodeOpt_none]
        exact and_congr eq_comm eq_comm
    | remove key =>
      simp only [Op.key] at hcheck
      simp only [exec, hashmapRemove, removeNode, hcheck, ok_bind, bind_eq_ok, pure_eq_ok,
        exists_eq_left', Prod.mk.injEq, Option.map_none, onTrie, Option.bind_none,
        getOpt_none, encodeOpt_none]
      exact and_congr eq_comm eq_comm
  | some t =>
    obtain ⟨cell, hcell, rfl⟩ := encodeOpt_some.mp hdata
    have hwf := wfOpt_some.mp ht
    cases op with
    | set mode key leaf =>
      simp only [Op.key] at hcheck hkey
      simp only [exec, hashmapSetWithMode, hcheck, ok_bind, bind_eq_ok, Prod.exists,
        putToNode_eq_ok hwf hlen hcell hkey (Nat.lt_succ_self n), pure_eq_ok, Prod.mk.injEq,
        onTrie, encodeOpt_some, getOpt_some, Op.key]
      constructor
      · rintro ⟨_, c, ⟨rfl, hc⟩, rfl, rfl⟩
        exact ⟨rfl, c, hc, rfl⟩
      · rintro ⟨rfl, c, hc, rfl⟩
        exact ⟨_, c, ⟨rfl, hc⟩, rfl, rfl⟩
    | remove key =>
      simp only [Op.key] at hcheck hkey
      have hfst : ∀ o : Option (Slice C), (o.map (·, ([] : List Bool))).map Prod.fst = o := by
        intro o
        rw [Option.map_map]
        exact Option.map_id'
      simp only [exec, hashmapRemove, hcheck, ok_bind, bind_eq_ok, Prod.exists,
        removeNode_eq_ok symmetric_hashmapE hwf hlen hcell hkey (Nat.lt_succ_self n), pure_eq_ok,
        Prod.mk.injEq, onTrie, Option.bind_some, getOpt_some, Op.key]
      constructor
      · rintro ⟨_, c, ⟨rfl, hc⟩, rfl, rfl⟩
        exact ⟨hfst _, hc⟩
      · rintro ⟨rfl, hc⟩
        exact ⟨_, data', ⟨rfl, hc⟩, hfst _, rfl⟩

/-- The trie of values that fit can be encoded: a label above a value is part of its
key, so it is not longer than the label the value fits with. -/
theorem exists_encode {t : BitTrie (Slice C)} {k : ℕ} (ht : t.WF k) {pre : List Bool}
    (hpre : pre.length + k = n) (hlen : n ≤ maxDataBits)
    (hfits : ∀ key leaf, t.get key = some leaf → LeafFits S n (pre ++ key) leaf) :
    ∃ cell, encode S (hashmapE C) k t = .ok cell ∧ S.depth cell + n ≤ maxSafeDepth + k := by
  induction t generalizing k pre with
  | leaf label value =>
    have hlabel : label.length = k := ht
    obtain ⟨hbits, hrefs, hdepth⟩ := hfits label value (BitTrie.get_leaf_self _ _)
    have hshort := length_labelBits_le (List.suffix_append pre label).isInfix
      (show k ≤ n by omega) (by rw [List.length_append]; omega) hlabel.le
    rw [List.length_append] at hbits
    obtain ⟨cell, hcell⟩ := (@exists_finalizeNode C S k label value).mpr
      ⟨show (labelBits label k ++ value.bits).length ≤ maxDataBits by
        rw [List.length_append]; omega, hrefs, fun r hr => by have := hdepth r hr; omega⟩
    obtain ⟨-, hfinal⟩ := finalizeNode_eq_ok.mp hcell
    have hd : S.depth cell ≤ maxSafeDepth - n := by
      apply S.depth_finalize hfinal
      intro r hr
      have := hdepth r hr
      omega
    refine ⟨cell, hcell, ?_⟩
    simp only [maxDataBits] at hlen
    simp only [maxSafeDepth] at hd ⊢
    omega
  | fork label l r ihl ihr =>
    obtain ⟨m, hm, hl, hr⟩ := ht
    have hside : ∀ bit key leaf, (BitTrie.child l r bit).get key = some leaf →
        LeafFits S n ((pre ++ label ++ [bit]) ++ key) leaf := by
      intro bit key leaf hget
      have := hfits (label ++ bit :: key) leaf (by rw [BitTrie.get_fork_append, hget])
      simpa only [List.append_assoc, List.singleton_append] using this
    have hpre' : ∀ bit : Bool, (pre ++ label ++ [bit]).length + m = n := by
      intro bit
      simp only [List.length_append, List.length_singleton]
      omega
    obtain ⟨left, hleft, hdl⟩ := ihl hl (hpre' false) (hside false)
    obtain ⟨right, hright, hdr⟩ := ihr hr (hpre' true) (hside true)
    -- the label of the fork is part of any key below it
    obtain ⟨key, leaf, hget⟩ := hl.exists_get
    obtain ⟨hbits, -, -⟩ := hside false key leaf hget
    have hkey := hl.length_of_get hget
    have hpart : label <:+: pre ++ label ++ [false] ++ key :=
      ⟨pre, [false] ++ key, by simp only [List.append_assoc]⟩
    have hshort := length_labelBits_le hpart (show k ≤ n by omega)
      (by rw [List.length_append, hkey, hpre' false]) (by omega)
    rw [List.length_append] at hbits
    have hdepth : ∀ c ∈ [left, right], S.depth c + n ≤ maxSafeDepth + m := by
      simp only [List.mem_cons, List.not_mem_nil, or_false, forall_eq_or_imp, forall_eq]
      exact ⟨hdl, hdr⟩
    obtain ⟨cell, hcell⟩ := (@exists_finalizeNode C S k label ⟨[], [left, right]⟩).mpr
      ⟨show (labelBits label k ++ []).length ≤ maxDataBits by rw [List.append_nil]; omega,
        show 2 ≤ maxReferencesCount by decide,
        fun c hc => by have := hdepth c hc; omega⟩
    obtain ⟨-, hfinal⟩ := finalizeNode_eq_ok.mp hcell
    have hd : S.depth cell ≤ maxSafeDepth + m + 1 - n := by
      apply S.depth_finalize hfinal
      intro c hc
      have := hdepth c hc
      omega
    refine ⟨cell, (encode_fork hm).mpr ⟨left, right, hleft, hright, ?_⟩, ?_⟩
    · rw [makeFork_hashmapE]
      exact hcell
    · simp only [maxDataBits] at hlen
      omega

theorem apply_congr {m m' : PartialMap C} (h : ∀ key, m key = m' key) :
    op.apply m = op.apply m' := by
  rw [funext h]

/-- The step of a run: the code follows the map whenever the new map has a root. -/
theorem exec_represents (hpos : 0 < n) (hlen : n ≤ maxDataBits) (hkey : op.key.length = n)
    {data : Option C} {m : PartialMap C} (h : Represents S (hashmapE C) n data m)
    {old : Option (Slice C)} {data' : Option C} : op.exec S n data = .ok (old, data') ↔
      old = m op.key ∧ Represents S (hashmapE C) n data' (op.apply m) := by
  obtain ⟨t, ht, hget, hdata⟩ := h
  have htrie : ∀ key, getOpt (op.onTrie t) key = op.apply m key := by
    intro key
    rw [getOpt_onTrie ht hkey, apply_congr hget]
  rw [exec_eq_ok hpos hlen ht hkey hdata, hget, ← funext htrie,
    represents_getOpt (onTrie_wf ht hkey)]

theorem exists_represents (hlen : n ≤ maxDataBits) (hkey : op.key.length = n) {data : Option C}
    {m : PartialMap C} (h : Represents S (hashmapE C) n data m)
    (hfits : ∀ key leaf, op.apply m key = some leaf → LeafFits S n key leaf) :
    ∃ data', Represents S (hashmapE C) n data' (op.apply m) := by
  obtain ⟨t, ht, hget, -⟩ := h
  have htrie : ∀ key, getOpt (op.onTrie t) key = op.apply m key := by
    intro key
    rw [getOpt_onTrie ht hkey, apply_congr hget]
  have hwf := onTrie_wf ht hkey
  cases hnew : op.onTrie t with
  | none =>
    rw [hnew] at htrie
    exact ⟨none, none, wfOpt_none, htrie, rfl⟩
  | some t' =>
    rw [hnew] at htrie hwf
    have hvalues : ∀ key leaf, t'.get key = some leaf → LeafFits S n ([] ++ key) leaf := by
      intro key leaf hleaf
      apply hfits key leaf
      rw [← htrie key]
      exact hleaf
    obtain ⟨cell, hcell, -⟩ := exists_encode (wfOpt_some.mp hwf)
      (by rw [List.length_nil, Nat.zero_add]) hlen hvalues
    exact ⟨some cell, some t', hwf, htrie, encodeOpt_some.mpr ⟨cell, hcell, rfl⟩⟩

theorem apply_fits {m : PartialMap C}
    (hfits : ∀ key leaf, m key = some leaf → LeafFits S n key leaf) (hop : op.Fits S n) :
    ∀ key leaf, op.apply m key = some leaf → LeafFits S n key leaf := by
  intro key leaf hleaf
  cases op with
  | set mode key' leaf' =>
    rw [apply] at hleaf
    split_ifs at hleaf
    · by_cases hkey : key = key'
      · subst hkey
        rw [Function.update_self] at hleaf
        cases hleaf
        exact hop
      · rw [Function.update_of_ne hkey] at hleaf
        exact hfits key leaf hleaf
    · exact hfits key leaf hleaf
  | remove key' =>
    by_cases hkey : key = key'
    · subst hkey
      rw [apply, Function.update_self] at hleaf
      cases hleaf
    · rw [apply, Function.update_of_ne hkey] at hleaf
      exact hfits key leaf hleaf

end Op

section Runs

variable {C : Type}

def run (S : CellStore C) (n : ℕ) :
    Option C → List (Op C) → Checked (List (Option (Slice C)) × Option C)
  | data, [] => pure ([], data)
  | data, op :: ops => do
    let (old, data) ← op.exec S n data
    let (olds, data) ← run S n data ops
    pure (old :: olds, data)

def applyAll : PartialMap C → List (Op C) → List (Option (Slice C)) × PartialMap C
  | m, [] => ([], m)
  | m, op :: ops =>
    let (olds, m') := applyAll (op.apply m) ops
    (m op.key :: olds, m')

def MapsFit (S : CellStore C) (n : ℕ) (m : PartialMap C) (ops : List (Op C)) : Prop :=
  ∀ done, done <+: ops → ∃ data, Represents S (hashmapE C) n data (applyAll m done).2

variable {S : CellStore C} {n : ℕ}

variable {ops : List (Op C)}

theorem mapsFit_cons {m : PartialMap C} {op : Op C} : MapsFit S n m (op :: ops) ↔
      (∃ data, Represents S (hashmapE C) n data m) ∧ MapsFit S n (op.apply m) ops := by
  constructor
  · intro h
    refine ⟨h [] (List.nil_prefix), ?_⟩
    intro done hdone
    exact h (op :: done) (List.cons_prefix_cons.mpr ⟨rfl, hdone⟩)
  · rintro ⟨hm, hops⟩ done hdone
    rcases List.prefix_cons_iff.mp hdone with rfl | ⟨rest, rfl, hrest⟩
    · exact hm
    · exact hops rest hrest

/-- A run follows the map, and succeeds exactly when every map on the way has a
root. -/
theorem run_eq_ok (hpos : 0 < n) (hlen : n ≤ maxDataBits) (hkeys : ∀ op ∈ ops, op.key.length = n)
    {data : Option C} {m : PartialMap C} (h : Represents S (hashmapE C) n data m)
    {olds : List (Option (Slice C))} {data' : Option C} : run S n data ops = .ok (olds, data') ↔
      MapsFit S n m ops ∧ olds = (applyAll m ops).1 ∧
        Represents S (hashmapE C) n data' (applyAll m ops).2 := by
  induction ops generalizing data m olds with
  | nil =>
    simp only [run, pure_eq_ok, Prod.mk.injEq, applyAll]
    constructor
    · rintro ⟨rfl, rfl⟩
      refine ⟨?_, rfl, h⟩
      intro done hdone
      rw [List.prefix_nil.mp hdone]
      exact ⟨data, h⟩
    · rintro ⟨-, rfl, hdata'⟩
      exact ⟨rfl, h.unique hdata'⟩
  | cons op ops ih =>
    rw [List.forall_mem_cons] at hkeys
    simp only [run, bind_eq_ok, Prod.exists, pure_eq_ok, Prod.mk.injEq,
      Op.exec_represents hpos hlen hkeys.1 h, mapsFit_cons, applyAll]
    constructor
    · rintro ⟨_, data1, ⟨rfl, hdata1⟩, olds', _, hrun, rfl, rfl⟩
      obtain ⟨hfit, rfl, hlast⟩ := (ih hkeys.2 hdata1).mp hrun
      exact ⟨⟨⟨data, h⟩, hfit⟩, rfl, hlast⟩
    · rintro ⟨⟨-, hfit⟩, rfl, hlast⟩
      obtain ⟨data1, hdata1⟩ := hfit [] List.nil_prefix
      exact ⟨_, data1, ⟨rfl, hdata1⟩, _, data', (ih hkeys.2 hdata1).mpr ⟨hfit, rfl, hlast⟩,
        rfl, rfl⟩

theorem mapsFit_of_fits (hlen : n ≤ maxDataBits) (hkeys : ∀ op ∈ ops, op.key.length = n)
    (hfits : ∀ op ∈ ops, op.Fits S n) {data : Option C} {m : PartialMap C}
    (h : Represents S (hashmapE C) n data m)
    (hm : ∀ key leaf, m key = some leaf → Op.LeafFits S n key leaf) : MapsFit S n m ops := by
  induction ops generalizing data m with
  | nil =>
    intro done hdone
    rw [List.prefix_nil.mp hdone]
    exact ⟨data, h⟩
  | cons op ops ih =>
    rw [List.forall_mem_cons] at hkeys hfits
    have hm' := Op.apply_fits hm hfits.1
    obtain ⟨data1, hdata1⟩ := Op.exists_represents hlen hkeys.1 h hm'
    exact mapsFit_cons.mpr ⟨⟨data, h⟩, ih hkeys.2 hfits.2 hdata1 hm'⟩

/-- `HashmapE` with keys of at least one bit is a finite map with one root for each
map. Values that fit under the whole key never stop a run; otherwise a run stops
exactly before a map whose cells cannot be built. -/
theorem hashmapE_is_canonical_map (S : CellStore C) (hpos : 0 < n) (hlen : n ≤ maxDataBits)
    (ops : List (Op C)) (hkeys : ∀ op ∈ ops, op.key.length = n) :
    ((∃ olds data, run S n none ops = .ok (olds, data)) ↔ MapsFit S n (fun _ => none) ops) ∧
    ((∀ op ∈ ops, op.Fits S n) → MapsFit S n (fun _ => none) ops) ∧
    ∀ olds data, run S n none ops = .ok (olds, data) → olds = (applyAll (fun _ => none) ops).1 ∧
      (∀ key : List Bool, key.length = n →
        hashmapGet S data n key = .ok ((applyAll (fun _ => none) ops).2 key)) ∧
      (data = none ↔ ∀ key, (applyAll (fun _ => none) ops).2 key = none) ∧
      ∀ ops' olds' data', (∀ op ∈ ops', op.key.length = n) →
        run S n none ops' = .ok (olds', data') →
        (applyAll (fun _ => none) ops').2 = (applyAll (fun _ => none) ops).2 → data' = data := by
  have hempty : Represents S (hashmapE C) n none fun _ => none := .empty
  refine ⟨?_, ?_, ?_⟩
  · constructor
    · rintro ⟨olds, data, hrun⟩
      exact ((run_eq_ok hpos hlen hkeys hempty).mp hrun).1
    · intro hfit
      obtain ⟨data, hdata⟩ := hfit ops (List.prefix_refl ops)
      exact ⟨_, data, (run_eq_ok hpos hlen hkeys hempty).mpr ⟨hfit, rfl, hdata⟩⟩
  · intro hfits
    apply mapsFit_of_fits hlen hkeys hfits hempty
    intro key leaf hnone
    cases hnone
  · intro olds data hrun
    obtain ⟨-, holds, hdata⟩ := (run_eq_ok hpos hlen hkeys hempty).mp hrun
    refine ⟨holds, fun key hkey => hdata.hashmapGet hpos hlen hkey, hdata.eq_none_iff, ?_⟩
    intro ops' olds' data' hkeys' hrun' hmap
    obtain ⟨-, -, hdata'⟩ := (run_eq_ok hpos hlen hkeys' hempty).mp hrun'
    rw [hmap] at hdata'
    exact hdata'.unique hdata

def storeTwo : List (Op TreeCell) :=
  [.set ⟨true, true⟩ [true, true] ⟨[], []⟩, .set ⟨true, true⟩ [true, false] ⟨[true], []⟩]

/-- The same map after a third key was there. -/
def removeThird : List (Op TreeCell) :=
  [.set ⟨true, true⟩ [false, false] ⟨[], []⟩, .set ⟨true, true⟩ [true, false] ⟨[true], []⟩,
    .set ⟨true, true⟩ [true, true] ⟨[], []⟩, .remove [false, false]]

theorem applyAll_storeTwo : (applyAll (fun _ => none) storeTwo).2 =
    (applyAll (fun _ => none) removeThird).2 := by
  funext key
  by_cases h1 : key = [true, true]
  · subst h1
    rfl
  by_cases h2 : key = [true, false]
  · subst h2
    rfl
  by_cases h3 : key = [false, false]
  · subst h3
    rfl
  simp [applyAll, storeTwo, removeThird, Op.apply, Mode.applies, h1, h2, h3]

theorem hashmapE_two_ways : ∃ root,
    run TreeCell.store 2 none removeThird = .ok ([none, none, none, some ⟨[], []⟩], some root) ∧
      hashmapGet TreeCell.store (some root) 2 [true, false] = .ok (some ⟨[true], []⟩) ∧
      run TreeCell.store 2 none storeTwo = .ok ([none, none], some root) := by
  obtain ⟨root, hrun⟩ : ∃ root, run TreeCell.store 2 none removeThird =
      .ok ([none, none, none, some ⟨[], []⟩], some root) := ⟨_, rfl⟩
  obtain ⟨root', hrun'⟩ : ∃ root', run TreeCell.store 2 none storeTwo =
      .ok ([none, none], root') := ⟨_, rfl⟩
  have hmap := hashmapE_is_canonical_map (n := 2) TreeCell.store (by decide) (by decide)
    removeThird (by simp [removeThird, Op.key])
  obtain ⟨-, hget, -, hunique⟩ := hmap.2.2 _ _ hrun
  obtain rfl := hunique storeTwo _ _ (by simp [storeTwo, Op.key]) hrun' applyAll_storeTwo
  exact ⟨root, hrun, hget [true, false] rfl, hrun'⟩

def longKey (first sixth : Bool) : List Bool :=
  first :: (List.replicate 1016 false ++ sixth :: List.replicate 5 false)

def longKeys : List (Op TreeCell) :=
  [.set ⟨true, true⟩ (longKey false false) ⟨[], []⟩,
    .set ⟨true, true⟩ (longKey true false) ⟨[], []⟩, .set ⟨true, true⟩ (longKey true true) ⟨[], []⟩]

/-- No key without bits can be set, and with keys of 1023 bits a removal can need a
label that no cell can hold, although every value fits its leaf. -/
theorem hashmapE_not_total :
    (run TreeCell.store 0 none [.set ⟨true, true⟩ [] ⟨[], []⟩]).isOk = false ∧
      (run TreeCell.store 1023 none longKeys).isOk = true ∧
      (run TreeCell.store 1023 none (longKeys ++ [.remove (longKey false false)])).isOk =
        false := by
  decide +kernel

end Runs

end TonNode.Hashmap
