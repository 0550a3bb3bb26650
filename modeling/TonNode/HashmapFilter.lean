import TonNode.HashmapAugE

/-! Filtering a dictionary in one pass. The callback decides for every leaf, in the
order of the keys, and carries a state of its own; forks that lose a side become
edges. The pass on cells follows the same pass on the trie. -/
namespace TonNode.Hashmap

open Block Checked
open BitTrie (wfOpt_none wfOpt_some join wfOpt_join label_prepend)

inductive HashmapFilterResult where
  | cancel
  | stop
  | remove
  | accept
deriving DecidableEq

inductive HashmapFilterSplitResult where
  | cancel
  | stay
  | move
deriving DecidableEq

/-- A part of the new tree: its cell, the key down to it with its label, and what
follows the label in the cell. -/
structure ForkComponent (C : Type) where
  cell : C
  key : List Bool
  remainder : Slice C

abbrev FilterFunc (C σ : Type) := σ → List Bool → Slice C → Checked (HashmapFilterResult × σ)

abbrev SplitFunc (C σ : Type) := σ → List Bool → Slice C → Checked (HashmapFilterSplitResult × σ)

section Model

variable {C σ : Type} (S : CellStore C) (T : HashmapType C)

def makeVarEdge (key : List Bool) (next : List (ForkComponent C)) (keyLength bitLen : ℕ) :
    Checked (Option (ForkComponent C)) :=
  match next with
  | [] => pure none
  | [part] => do
    let cell ← finalizeNode S (part.key.drop keyLength) bitLen part.remainder
    pure (some ⟨cell, part.key, part.remainder⟩)
  | left :: right :: _ => do
    let label := key.drop keyLength
    let extra ← T.forkExtra (checkedSub bitLen (label.length + 1)) left.cell right.cell
    let remainder := ⟨extra.bits, left.cell :: right.cell :: extra.refs⟩
    let cell ← finalizeNode S label bitLen remainder
    pure (some ⟨cell, key, remainder⟩)

/-- `filter_next`: was anything removed, and what is left; then the result and the state
of the callback. -/
def filterNext (func : FilterFunc C σ) : ℕ → C → List Bool → ℕ → HashmapFilterResult → σ →
      Checked ((Bool × Option (ForkComponent C)) × HashmapFilterResult × σ)
  | 0, _, _, _, _, _ => reject "the key has no more bits"
  | fuel + 1, cell, key, bitLen, result, st =>
    if result = .cancel then pure ((false, none), result, st)
    else if result = .stop then pure ((false, some ⟨cell, key, ⟨[], []⟩⟩), result, st)
    else do
      let (label, cursor) ← loadNode S cell bitLen
      let fullKey := key ++ label
      if bitLen - label.length = 0 then do
        let (decision, st) ← func st fullKey cursor
        match decision with
        | .remove => pure ((true, none), result, st)
        | .accept => pure ((false, some ⟨cell, fullKey, cursor⟩), result, st)
        | newResult => pure ((false, some ⟨cell, fullKey, cursor⟩), newResult, st)
      else do
        let left ← cursor.reference 0
        let ((removed0, part0), result, st) ←
          filterNext func fuel left (fullKey ++ [false]) (bitLen - label.length - 1) result st
        if result = .cancel then pure ((false, none), result, st)
        else do
          let right ← cursor.reference 1
          let ((removed1, part1), result, st) ←
            filterNext func fuel right (fullKey ++ [true]) (bitLen - label.length - 1) result st
          if result = .cancel then pure ((false, none), result, st)
          else if removed0 = false ∧ removed1 = false then
            pure ((false, some ⟨cell, fullKey, cursor⟩), result, st)
          else do
            let part ← makeVarEdge S T fullKey (part0.toList ++ part1.toList) key.length bitLen
            pure ((true, part), result, st)

def hashmapFilter (data : Option C) (bitLen : ℕ) (func : FilterFunc C σ) (st : σ) :
    Checked (HashmapFilterResult × Option (Option C) × σ) :=
  match data with
  | none => pure (.accept, none, st)
  | some cell => do
    let ((removed, part), result, st) ←
      filterNext S T func (bitLen + 1) cell [] bitLen .accept st
    if removed then pure (.remove, some (part.map ForkComponent.cell), st)
    else pure (result, none, st)

def keepOrJoin (changed : Bool) (part : ForkComponent C) (next : List (ForkComponent C))
    (keyLength bitLen : ℕ) : Checked (Option (ForkComponent C)) :=
  if changed then makeVarEdge S T part.key next keyLength bitLen else pure (some part)

def filterSplitNext (func : SplitFunc C σ) : ℕ → C → List Bool → ℕ → HashmapFilterSplitResult → σ →
      Checked (((Bool × Bool) × Option (ForkComponent C) × Option (ForkComponent C)) ×
        HashmapFilterSplitResult × σ)
  | 0, _, _, _, _, _ => reject "the key has no more bits"
  | fuel + 1, cell, key, bitLen, result, st =>
    if result = .cancel then pure (((false, false), none, none), result, st)
    else do
      let (label, cursor) ← loadNode S cell bitLen
      let fullKey := key ++ label
      if bitLen - label.length = 0 then do
        let (decision, st) ← func st fullKey cursor
        match decision with
        | .stay => pure (((false, true), some ⟨cell, fullKey, cursor⟩, none), result, st)
        | .move => pure (((true, false), none, some ⟨cell, fullKey, cursor⟩), result, st)
        | .cancel => pure (((false, false), none, none), .cancel, st)
      else do
        let left ← cursor.reference 0
        let (((first0, second0), left0, right0), result, st) ←
          filterSplitNext func fuel left (fullKey ++ [false]) (bitLen - label.length - 1) result st
        if result = .cancel then pure (((false, false), none, none), result, st)
        else do
          let right ← cursor.reference 1
          let (((first1, second1), left1, right1), result, st) ←
            filterSplitNext func fuel right (fullKey ++ [true]) (bitLen - label.length - 1) result
              st
          if result = .cancel then pure (((false, false), none, none), result, st)
          else do
            let left ← keepOrJoin S T (first0 || first1) ⟨cell, fullKey, cursor⟩
              (left0.toList ++ left1.toList) key.length bitLen
            let right ← keepOrJoin S T (second0 || second1) ⟨cell, fullKey, cursor⟩
              (right0.toList ++ right1.toList) key.length bitLen
            pure (((first0 || first1, second0 || second1), left, right), result, st)

def hashmapFilterSplit (data : Option C) (bitLen : ℕ) (func : SplitFunc C σ) (st : σ) :
    Checked ((Option C × Option C) × σ) :=
  match data with
  | none => pure ((none, none), st)
  | some cell => do
    let ((_, left, right), _, st) ← filterSplitNext S T func (bitLen + 1) cell [] bitLen .stay st
    pure ((left.map ForkComponent.cell, right.map ForkComponent.cell), st)

end Model

section Tries

variable {C σ : Type}

def filterTrie (func : FilterFunc C σ) : BitTrie (Slice C) → List Bool → HashmapFilterResult → σ →
      Checked ((Bool × Option (BitTrie (Slice C))) × HashmapFilterResult × σ)
  | .leaf label value, key, result, st =>
    if result = .cancel then pure ((false, none), result, st)
    else if result = .stop then pure ((false, some (.leaf label value)), result, st)
    else do
      let (decision, st) ← func st (key ++ label) value
      match decision with
      | .remove => pure ((true, none), result, st)
      | .accept => pure ((false, some (.leaf label value)), result, st)
      | newResult => pure ((false, some (.leaf label value)), newResult, st)
  | .fork label l r, key, result, st =>
    if result = .cancel then pure ((false, none), result, st)
    else if result = .stop then pure ((false, some (.fork label l r)), result, st)
    else do
      let ((removed0, part0), result, st) ←
        filterTrie func l (key ++ label ++ [false]) result st
      if result = .cancel then pure ((false, none), result, st)
      else do
        let ((removed1, part1), result, st) ←
          filterTrie func r (key ++ label ++ [true]) result st
        if result = .cancel then pure ((false, none), result, st)
        else if removed0 = false ∧ removed1 = false then
          pure ((false, some (.fork label l r)), result, st)
        else pure ((true, join label part0 part1), result, st)

def filterSplitTrie (func : SplitFunc C σ) :
    BitTrie (Slice C) → List Bool → HashmapFilterSplitResult → σ →
      Checked (((Bool × Bool) × Option (BitTrie (Slice C)) × Option (BitTrie (Slice C))) ×
        HashmapFilterSplitResult × σ)
  | .leaf label value, key, result, st =>
    if result = .cancel then pure (((false, false), none, none), result, st)
    else do
      let (decision, st) ← func st (key ++ label) value
      match decision with
      | .stay => pure (((false, true), some (.leaf label value), none), result, st)
      | .move => pure (((true, false), none, some (.leaf label value)), result, st)
      | .cancel => pure (((false, false), none, none), .cancel, st)
  | .fork label l r, key, result, st =>
    if result = .cancel then pure (((false, false), none, none), result, st)
    else do
      let (((first0, second0), left0, right0), result, st) ←
        filterSplitTrie func l (key ++ label ++ [false]) result st
      if result = .cancel then pure (((false, false), none, none), result, st)
      else do
        let (((first1, second1), left1, right1), result, st) ←
          filterSplitTrie func r (key ++ label ++ [true]) result st
        if result = .cancel then pure (((false, false), none, none), result, st)
        else
          let left := if first0 || first1 then join label left0 left1
            else some (.fork label l r)
          let right := if second0 || second1 then join label right0 right1
            else some (.fork label l r)
          pure (((first0 || first1, second0 || second1), left, right), result, st)

end Tries

section Parts

variable {C : Type} {S : CellStore C} {T : HashmapType C}

def IsPart (S : CellStore C) (T : HashmapType C) (n : ℕ) (part : Option (ForkComponent C))
    (t : Option (BitTrie (Slice C))) : Prop :=
  encodeOpt S T n t = .ok (part.map ForkComponent.cell)

def IsProper (S : CellStore C) (T : HashmapType C) (n : ℕ) (key : List Bool)
    (part : Option (ForkComponent C)) (t : Option (BitTrie (Slice C))) : Prop :=
  ∀ c u, part = some c → t = some u → c.key = key ++ u.label ∧ IsNode S T n u c.remainder

def IsComponent (S : CellStore C) (T : HashmapType C) (n : ℕ) (key : List Bool)
    (part : Option (ForkComponent C)) (t : Option (BitTrie (Slice C))) : Prop :=
  IsPart S T n part t ∧ IsProper S T n key part t

variable {part : Option (ForkComponent C)} {n m : ℕ} {label key : List Bool} {cell : C}

theorem isPart_some {u : BitTrie (Slice C)} :
    IsPart S T n part (some u) ↔ ∃ c, part = some c ∧ encode S T n u = .ok c.cell := by
  rw [IsPart, encodeOpt_some]
  constructor
  · rintro ⟨cell, hcell, hpart⟩
    obtain ⟨c, rfl, rfl⟩ := Option.map_eq_some_iff.mp hpart
    exact ⟨c, rfl, hcell⟩
  · rintro ⟨c, rfl, hcell⟩
    exact ⟨c.cell, hcell, rfl⟩

theorem isPart_none : IsPart S T n part none ↔ part = none := by
  rw [IsPart, encodeOpt_none, Option.map_eq_none_iff]

theorem isComponent_none : IsComponent S T n key none none := by
  refine ⟨rfl, ?_⟩
  intro c u hc
  cases hc

theorem isComponent_some {u : BitTrie (Slice C)} {data : Slice C} {fullKey : List Bool}
    (hcell : encode S T n u = .ok cell) (hkey : fullKey = key ++ u.label)
    (hdata : IsNode S T n u data) : IsComponent S T n key (some ⟨cell, fullKey, data⟩) (some u) := by
  refine ⟨isPart_some.mpr ⟨_, rfl, hcell⟩, ?_⟩
  intro c u hc hu
  cases hc
  cases hu
  exact ⟨hkey, hdata⟩

theorem makeVarEdge_single {bit : Bool} (hm : label.length + 1 + m = n) {c : ForkComponent C}
    {u : BitTrie (Slice C)} (hkey : c.key = key ++ label ++ [bit] ++ u.label)
    (hnode : IsNode S T m u c.remainder) :
    makeVarEdge S T (key ++ label) [c] key.length n = .ok part ↔
      ∃ cell, encode S T n (u.prepend (label ++ [bit])) = .ok cell ∧
        some ⟨cell, c.key, c.remainder⟩ = part := by
  have hlong : (label ++ [bit]).length + m = n := by
    rw [List.length_append, List.length_singleton]
    exact hm
  have hdrop : c.key.drop key.length = (u.prepend (label ++ [bit])).label := by
    rw [hkey, List.append_assoc, List.append_assoc, List.drop_left, label_prepend,
      List.append_assoc]
  simp only [makeVarEdge, hdrop, bind_eq_ok, pure_eq_ok,
    ((isNode_prepend hlong).mpr hnode).finalizeNode_iff]

theorem makeVarEdge_pair (hm : label.length + 1 + m = n) {c d : ForkComponent C}
    {l r : BitTrie (Slice C)} (hl : encode S T m l = .ok c.cell) (hr : encode S T m r = .ok d.cell) :
    makeVarEdge S T (key ++ label) [c, d] key.length n = .ok part ↔
      ∃ cell data, encode S T n (.fork label l r) = .ok cell ∧ IsNode S T n (.fork label l r) data ∧
        some ⟨cell, key ++ label, data⟩ = part := by
  simp only [makeVarEdge, List.drop_left, checkedSub_eq_some.mpr hm, bind_eq_ok, pure_eq_ok]
  constructor
  · rintro ⟨extra, hextra, cell, hcell, rfl⟩
    have hnode : IsNode S T n (.fork label l r) ⟨extra.bits, c.cell :: d.cell :: extra.refs⟩ :=
      ⟨m, c.cell, d.cell, extra, hm, hl, hr, hextra, rfl⟩
    exact ⟨cell, _, hnode.finalizeNode_iff.mp hcell, hnode, rfl⟩
  · rintro ⟨cell, data, hcell, hnode, rfl⟩
    have hfinal := hnode.finalizeNode_iff.mpr hcell
    obtain ⟨m', left, right, extra, hm', hleft, hright, hextra, rfl⟩ := hnode
    obtain rfl : m = m' := by omega
    rw [hl] at hleft
    rw [hr] at hright
    cases hleft
    cases hright
    exact ⟨extra, hextra, cell, hfinal, rfl⟩

section Join

variable (hm : label.length + 1 + m = n) {part0 part1 : Option (ForkComponent C)}
  {t0 t1 : Option (BitTrie (Slice C))} (h0 : IsPart S T m part0 t0) (h1 : IsPart S T m part1 t1)
  (hp0 : t1 = none → IsProper S T m (key ++ label ++ [false]) part0 t0)
  (hp1 : t0 = none → IsProper S T m (key ++ label ++ [true]) part1 t1)

include hm h0 h1 hp0 hp1

/-- `make_var_edge` joins what is left of the two sides. -/
theorem makeVarEdge_of_ok
    (h : makeVarEdge S T (key ++ label) (part0.toList ++ part1.toList) key.length n = .ok part) :
    IsComponent S T n key part (join label t0 t1) := by
  have hedge : ∀ {bit : Bool} {c : ForkComponent C} {u : BitTrie (Slice C)},
      c.key = key ++ label ++ [bit] ++ u.label → IsNode S T m u c.remainder →
      makeVarEdge S T (key ++ label) [c] key.length n = .ok part →
        IsComponent S T n key part (some (u.prepend (label ++ [bit]))) := by
    intro bit c u hkey hnode h
    obtain ⟨cell, hcell, rfl⟩ := (makeVarEdge_single hm hkey hnode).mp h
    refine isComponent_some hcell ?_ ((isNode_prepend ?_).mpr hnode)
    · rw [hkey, label_prepend]
      simp
    · rw [List.length_append, List.length_singleton]
      exact hm
  cases t0 with
  | none =>
    obtain rfl := isPart_none.mp h0
    cases t1 with
    | none =>
      obtain rfl := isPart_none.mp h1
      cases h
      exact isComponent_none
    | some u =>
      obtain ⟨c, rfl, -⟩ := isPart_some.mp h1
      obtain ⟨hkey, hnode⟩ := hp1 rfl c u rfl rfl
      exact hedge hkey hnode h
  | some v =>
    obtain ⟨d, rfl, hd⟩ := isPart_some.mp h0
    cases t1 with
    | none =>
      obtain rfl := isPart_none.mp h1
      obtain ⟨hkey, hnode⟩ := hp0 rfl d v rfl rfl
      exact hedge hkey hnode h
    | some u =>
      obtain ⟨c, rfl, hc⟩ := isPart_some.mp h1
      obtain ⟨cell, data, hcell, hnode, rfl⟩ := (makeVarEdge_pair hm hd hc).mp h
      exact isComponent_some hcell rfl hnode

end Join

end Parts

section Refinement

variable {C σ : Type} {S : CellStore C} {T : HashmapType C} {n : ℕ}

variable {st st' : σ} {cell : C} {fuel : ℕ} {key label : List Bool} {l r : BitTrie (Slice C)}

theorem leaf_component {value : Slice C} (ht : (BitTrie.leaf label value).WF n)
    (hlen : n ≤ maxDataBits) (hcell : encode S T n (.leaf label value) = .ok cell) :
    loadNode S cell n = .ok (label, value) ∧ n - label.length = 0 ∧
      IsComponent S T n key (some ⟨cell, key ++ label, value⟩) (some (.leaf label value)) := by
  have hlabel : label.length = n := ht
  exact ⟨loadNode_leaf hlen hlabel hcell, by omega, isComponent_some hcell rfl rfl⟩

theorem fork_component (ht : (BitTrie.fork label l r).WF n) (hlen : n ≤ maxDataBits)
    (hcell : encode S T n (.fork label l r) = .ok cell) :
    ∃ m left right data, label.length + 1 + m = n ∧ (l.WF m ∧ encode S T m l = .ok left) ∧
      (r.WF m ∧ encode S T m r = .ok right) ∧ loadNode S cell n = .ok (label, data) ∧
      data.reference 0 = .ok left ∧ data.reference 1 = .ok right ∧ n - label.length = m + 1 ∧
      IsComponent S T n key (some ⟨cell, key ++ label, data⟩) (some (.fork label l r)) := by
  obtain ⟨m, hm, hl, hr⟩ := ht
  obtain ⟨left, right, extra, hleft, hright, hextra, -, hload⟩ := loadNode_fork hlen hm hcell
  exact ⟨m, left, right, _, hm, ⟨hl, hleft⟩, ⟨hr, hright⟩, hload, rfl, rfl, by omega,
    isComponent_some hcell rfl ⟨m, left, right, extra, hm, hleft, hright, hextra, rfl⟩⟩

/-- What a pass leaves of a trie. A part that was not looked at, because the pass had been
stopped, has no proper key; a pass that was stopped has kept the leaf where it stopped. -/
structure Filtered (S : CellStore C) (T : HashmapType C) (n : ℕ) (key : List Bool)
    (result result' : HashmapFilterResult) (part : Option (ForkComponent C))
    (t : Option (BitTrie (Slice C))) : Prop where
  wf : BitTrie.WFOpt n t
  kept : t = none → result' ≠ .stop
  isPart : IsPart S T n part t
  isProper : result ≠ .stop → IsProper S T n key part t

variable {result result' : HashmapFilterResult}

theorem Filtered.none (h : result' ≠ .stop) :
    Filtered S T n key result result' none none :=
  ⟨wfOpt_none, fun _ => h, rfl, fun _ => isComponent_none.2⟩

theorem Filtered.some {part : Option (ForkComponent C)} {t : BitTrie (Slice C)} (ht : t.WF n)
    (h : IsComponent S T n key part (some t)) :
    Filtered S T n key result result' part (some t) :=
  ⟨wfOpt_some.mpr ht, nofun, h.1, fun _ => h.2⟩

theorem filterNext_of_ok {func : FilterFunc C σ} {t : BitTrie (Slice C)} (ht : t.WF n)
    (hlen : n ≤ maxDataBits) (hcell : encode S T n t = .ok cell) {removed : Bool}
    {part : Option (ForkComponent C)}
    (h : filterNext S T func fuel cell key n result st = .ok ((removed, part), result', st')) :
    ∃ t', filterTrie func t key result st = .ok ((removed, t'), result', st') ∧
      Filtered S T n key result result' part t' := by
  have hcancelled : HashmapFilterResult.cancel ≠ .stop := by decide
  induction t generalizing n cell fuel key result result' st st' removed part with
  | leaf label value =>
    cases fuel with
    | zero => cases h
    | succ fuel =>
      obtain ⟨hload, hsub, hself⟩ := leaf_component ht hlen hcell
      rw [filterNext] at h
      rw [filterTrie]
      split_ifs at h ⊢ with hcancel hstop
      · cases h
        exact ⟨none, rfl, .none (hcancel ▸ hcancelled)⟩
      · cases h
        exact ⟨_, rfl, wfOpt_some.mpr ht, nofun,
          isPart_some.mpr ⟨_, rfl, hcell⟩, absurd hstop⟩
      · simp only [hload, ok_bind, hsub, if_true] at h
        obtain ⟨⟨decision, st1⟩, hfunc, h⟩ := bind_eq_ok.mp h
        simp only [hfunc, ok_bind]
        cases decision with
        | remove =>
          cases h
          exact ⟨none, rfl, .none hstop⟩
        | cancel | stop | accept =>
          cases h
          exact ⟨_, rfl, .some ht hself⟩
  | fork label l r ihl ihr =>
    cases fuel with
    | zero => cases h
    | succ fuel =>
      obtain ⟨m, left, right, data, hm, ⟨hl, hleft⟩, ⟨hr, hright⟩, hload, href0, href1, hsub, hself⟩ :=
        fork_component ht hlen hcell
      rw [filterNext] at h
      rw [filterTrie]
      split_ifs at h ⊢ with hcancel hstop
      · cases h
        exact ⟨none, rfl, .none (hcancel ▸ hcancelled)⟩
      · cases h
        exact ⟨_, rfl, wfOpt_some.mpr ht, nofun,
          isPart_some.mpr ⟨_, rfl, hcell⟩, absurd hstop⟩
      · simp only [hload, ok_bind, hsub, Nat.succ_ne_zero, if_false, Nat.add_sub_cancel, href0,
          href1] at h
        obtain ⟨⟨⟨removed0, part0⟩, result0, st0⟩, h0, h⟩ := bind_eq_ok.mp h
        obtain ⟨t0, hfilter0, hleft0⟩ := ihl hl (by omega) hleft h0
        simp only [hfilter0, ok_bind]
        split_ifs at h ⊢ with hcancel0
        · cases h
          exact ⟨none, rfl, .none (hcancel0 ▸ hcancelled)⟩
        · obtain ⟨⟨⟨removed1, part1⟩, result1, st1⟩, h1, h⟩ := bind_eq_ok.mp h
          obtain ⟨t1, hfilter1, hleft1⟩ := ihr hr (by omega) hright h1
          simp only [hfilter1, ok_bind]
          split_ifs at h ⊢ with hcancel1 hsame
          · cases h
            exact ⟨none, rfl, .none (hcancel1 ▸ hcancelled)⟩
          · cases h
            exact ⟨_, rfl, .some ht hself⟩
          · obtain ⟨part', hedge, h⟩ := bind_eq_ok.mp h
            cases h
            -- a second part that was not looked at stands beside a first one
            obtain ⟨hpart, hproper⟩ := makeVarEdge_of_ok hm hleft0.isPart hleft1.isPart
              (fun _ => hleft0.isProper hstop)
              (fun hnone => hleft1.isProper (hleft0.kept hnone)) hedge
            refine ⟨_, rfl, hm ▸ wfOpt_join hleft0.wf hleft1.wf, ?_, hpart, fun _ => hproper⟩
            intro hnone
            cases t1 with
            | none => exact hleft1.kept rfl
            | some u =>
              cases t0 with
              | none | some v => cases hnone

/-- A part that sorting the leaves into two trees leaves. -/
def IsTree (S : CellStore C) (T : HashmapType C) (n : ℕ) (key : List Bool)
    (part : Option (ForkComponent C)) (t : Option (BitTrie (Slice C))) : Prop :=
  BitTrie.WFOpt n t ∧ IsComponent S T n key part t

theorem isTree_none : IsTree S T n key none none := ⟨wfOpt_none, isComponent_none⟩

theorem keepOrJoin_of_ok {m : ℕ} (hm : label.length + 1 + m = n) {data : Slice C}
    (hself : IsTree S T n key (some ⟨cell, key ++ label, data⟩) (some (.fork label l r)))
    {part0 part1 part : Option (ForkComponent C)} {t0 t1 : Option (BitTrie (Slice C))}
    (h0 : IsTree S T m (key ++ label ++ [false]) part0 t0)
    (h1 : IsTree S T m (key ++ label ++ [true]) part1 t1) {changed : Bool}
    (h : keepOrJoin S T changed ⟨cell, key ++ label, data⟩ (part0.toList ++ part1.toList)
      key.length n = .ok part) :
    IsTree S T n key part (if changed then join label t0 t1 else some (.fork label l r)) := by
  cases changed with
  | false =>
    cases h
    exact hself
  | true =>
    exact ⟨hm ▸ wfOpt_join h0.1 h1.1,
      makeVarEdge_of_ok hm h0.2.1 h1.2.1 (fun _ => h0.2.2) (fun _ => h1.2.2) h⟩

theorem filterSplitNext_of_ok {func : SplitFunc C σ} {t : BitTrie (Slice C)} (ht : t.WF n)
    (hlen : n ≤ maxDataBits) (hcell : encode S T n t = .ok cell)
    {result result' : HashmapFilterSplitResult} {flags : Bool × Bool}
    {left right : Option (ForkComponent C)}
    (h : filterSplitNext S T func fuel cell key n result st =
      .ok ((flags, left, right), result', st')) :
    ∃ t0 t1, filterSplitTrie func t key result st = .ok ((flags, t0, t1), result', st') ∧
      IsTree S T n key left t0 ∧ IsTree S T n key right t1 := by
  induction t generalizing n cell fuel key result result' st st' flags left right with
  | leaf label value =>
    cases fuel with
    | zero => cases h
    | succ fuel =>
      obtain ⟨hload, hsub, hcomponent⟩ := leaf_component ht hlen hcell
      have hself : IsTree S T n key _ _ := ⟨wfOpt_some.mpr ht, hcomponent⟩
      rw [filterSplitNext] at h
      rw [filterSplitTrie]
      split_ifs at h ⊢ with hcancel
      · cases h
        exact ⟨none, none, rfl, isTree_none, isTree_none⟩
      · simp only [hload, ok_bind, hsub, if_true] at h
        obtain ⟨⟨decision, st1⟩, hfunc, h⟩ := bind_eq_ok.mp h
        simp only [hfunc, ok_bind]
        cases decision with
        | stay =>
          cases h
          exact ⟨_, _, rfl, hself, isTree_none⟩
        | move =>
          cases h
          exact ⟨_, _, rfl, isTree_none, hself⟩
        | cancel =>
          cases h
          exact ⟨_, _, rfl, isTree_none, isTree_none⟩
  | fork label l r ihl ihr =>
    cases fuel with
    | zero => cases h
    | succ fuel =>
      obtain ⟨m, left, right, data, hm, ⟨hl, hleft⟩, ⟨hr, hright⟩, hload, href0, href1, hsub,
        hcomponent⟩ := fork_component ht hlen hcell
      have hself : IsTree S T n key _ _ := ⟨wfOpt_some.mpr ht, hcomponent⟩
      rw [filterSplitNext] at h
      rw [filterSplitTrie]
      split_ifs at h ⊢ with hcancel
      · cases h
        exact ⟨none, none, rfl, isTree_none, isTree_none⟩
      · simp only [hload, ok_bind, hsub, Nat.succ_ne_zero, if_false, Nat.add_sub_cancel, href0,
          href1] at h
        obtain ⟨⟨⟨⟨first0, second0⟩, left0, right0⟩, result0, st0⟩, h0, h⟩ := bind_eq_ok.mp h
        obtain ⟨l0, r0, hsplit0, hl0, hr0⟩ := ihl hl (by omega) hleft h0
        simp only [hsplit0, ok_bind]
        split_ifs at h ⊢ with hcancel0
        · cases h
          exact ⟨none, none, rfl, isTree_none, isTree_none⟩
        · obtain ⟨⟨⟨⟨first1, second1⟩, left1, right1⟩, result1, st1⟩, h1, h⟩ := bind_eq_ok.mp h
          obtain ⟨l1, r1, hsplit1, hl1, hr1⟩ := ihr hr (by omega) hright h1
          simp only [hsplit1, ok_bind]
          by_cases hcancel1 : result1 = .cancel
          · rw [if_pos hcancel1] at h ⊢
            cases h
            exact ⟨none, none, rfl, isTree_none, isTree_none⟩
          · rw [if_neg hcancel1] at h ⊢
            obtain ⟨left', hedge0, h⟩ := bind_eq_ok.mp h
            obtain ⟨right', hedge1, h⟩ := bind_eq_ok.mp h
            cases h
            exact ⟨_, _, rfl, keepOrJoin_of_ok hm hself hl0 hl1 hedge0,
              keepOrJoin_of_ok hm hself hr0 hr1 hedge1⟩

/-- `hashmap_filter` on the cells of a dictionary: unless something was removed, the
dictionary stays what it was. -/
theorem hashmapFilter_of_ok {func : FilterFunc C σ} (hlen : n ≤ maxDataBits) {data : Option C}
    (hdata : IsDictionary S T n data) {result : HashmapFilterResult} {root : Option C}
    (h : hashmapFilter S T data n func st = .ok (result, some root, st')) :
    IsDictionary S T n root := by
  obtain ⟨t, ht, hdata⟩ := hdata
  cases t with
  | none =>
    obtain rfl := encodeOpt_none.mp hdata
    cases h
  | some u =>
    obtain ⟨cell, hcell, rfl⟩ := encodeOpt_some.mp hdata
    have hu := wfOpt_some.mp ht
    obtain ⟨⟨⟨removed, part⟩, result1, st1⟩, hnext, h⟩ := bind_eq_ok.mp h
    obtain ⟨t', -, hleft⟩ := filterNext_of_ok hu hlen hcell hnext
    cases removed with
    | false => cases h
    | true =>
      cases h
      exact ⟨t', hleft.wf, hleft.isPart⟩

theorem hashmapFilterSplit_of_ok {func : SplitFunc C σ} (hlen : n ≤ maxDataBits) {data : Option C}
    (hdata : IsDictionary S T n data) {left right : Option C}
    (h : hashmapFilterSplit S T data n func st = .ok ((left, right), st')) :
    IsDictionary S T n left ∧ IsDictionary S T n right := by
  obtain ⟨t, ht, hdata⟩ := hdata
  cases t with
  | none =>
    obtain rfl := encodeOpt_none.mp hdata
    cases h
    exact ⟨.none, .none⟩
  | some u =>
    obtain ⟨cell, hcell, rfl⟩ := encodeOpt_some.mp hdata
    have hu := wfOpt_some.mp ht
    obtain ⟨⟨⟨flags, part0, part1⟩, result1, st1⟩, hnext, h⟩ := bind_eq_ok.mp h
    obtain ⟨t0, t1, -, ⟨hwf0, hpart0⟩, hwf1, hpart1⟩ := filterSplitNext_of_ok hu hlen hcell hnext
    cases h
    exact ⟨⟨t0, hwf0, hpart0.1⟩, t1, hwf1, hpart1.1⟩

end Refinement

end TonNode.Hashmap
