import TonNode.HashmapCells

/-! Lookup, insertion and removal of one key, as the code does them on cells. On the
cells of a trie they do what the operations on tries do: insertion and removal
succeed exactly when the cells of the resulting trie can be built, and give its root. -/
namespace TonNode.Hashmap

open Block Checked
open BitTrie
  (join forkAt get_fork_append wfOpt_some leaf_cases get_leaf_self fork_cases get_leaf erase_leaf)

section Model

variable {C : Type} (S : CellStore C) (T : HashmapType C) (data : Option C) (bitLen : ℕ)
  (key : List Bool)

def checkKey : Checked Unit :=
  require (key ≠ [] ∧ bitLen = key.length) "Bad key for dict"

def erasePrefix (label : List Bool) : Option (List Bool) :=
  if key = [] ∨ key.length < label.length then none
  else
    match commonPrefix key label with
    | (_, rest, []) => some rest
    | _ => none

def hashmapGetFrom : ℕ → List Bool → Slice C → ℕ → List Bool → Checked (Option (Slice C))
  | 0, _, _, _, _ => reject "the key has no more bits"
  | fuel + 1, label, cursor, bitLen, key =>
    match erasePrefix key label with
    | none => pure (if key = [] then some cursor else none)
    | some [] => pure (some cursor)
    | some (bit :: key) =>
      if ¬ isFork cursor then pure none
      else do
        let child ← cursor.reference bit.toNat
        let bitLen ← present (checkedSub bitLen (label.length + 1)) "CellUnderflow"
        let (label, cursor) ← loadNode S child bitLen
        hashmapGetFrom fuel label cursor bitLen key

def hashmapGet : Checked (Option (Slice C)) := do
  checkKey bitLen key
  match data with
  | none => pure none
  | some root => do
    let (label, cursor) ← loadNode S root bitLen
    hashmapGetFrom S (bitLen + 1) label cursor bitLen key

structure Mode where
  add : Bool
  replace : Bool
deriving DecidableEq

def Mode.applies {α : Type} (mode : Mode) (old : Option α) : Bool :=
  if old.isSome then mode.replace else mode.add

def sliceEdge (leaf : Slice C) (slice : Slice C) (bitLen : ℕ) (pre : List Bool) (labelBit : Bool)
    (label key : List Bool) : Checked C := do
  let length ← present (checkedSub bitLen (pre.length + 1)) "CellUnderflow"
  let existingCell ← finalizeNode S label length slice
  let anotherCell ← finalizeNode S key length leaf
  makeFork S T pre bitLen existingCell anotherCell labelBit

/-- `put_to_node_with_mode` and `put_to_fork_with_mode`: the value that was there and
the new cell. An empty label is a label that ends before the key does. -/
def putToNode (leaf : Slice C) (mode : Mode) :
    ℕ → C → ℕ → List Bool → Checked (Option (Slice C) × C)
  | 0, _, _, _ => reject "the key has no more bits"
  | fuel + 1, cell, bitLen, key => do
    let (label, slice) ← loadNode S cell bitLen
    if label = key then
      if mode.replace then do
        let cell ← finalizeNode S key bitLen leaf
        pure (some slice, cell)
      else pure (some slice, cell)
    else
      match commonPrefix label key with
      | (_, _, []) =>
        if mode.add then do
          let cell ← finalizeNode S label bitLen slice
          pure (none, cell)
        else pure (none, cell)
      | (pre, labelBit :: label, _ :: key) =>
        if mode.add then do
          let cell ← sliceEdge S T leaf slice bitLen pre labelBit label key
          pure (none, cell)
        else pure (none, cell)
      | (pre, [], bit :: key) => do
        require (slice.refs.length = 2) "CellUnderflow"
        let child ← slice.reference bit.toNat
        let nextBitLen ← present (checkedSub bitLen (pre.length + 1)) "CellUnderflow"
        let (old, child) ← putToNode leaf mode fuel child nextBitLen key
        if mode.applies old then do
          let cell ← finalizeNode S label bitLen ⟨slice.bits, slice.refs.set bit.toNat child⟩
          pure (old, cell)
        else pure (old, cell)

def hashmapSetWithMode (leaf : Slice C) (mode : Mode) : Checked (Option (Slice C) × Option C) := do
  checkKey bitLen key
  match data with
  | some root => do
    let (old, root) ← putToNode S T leaf mode (bitLen + 1) root bitLen key
    pure (old, some root)
  | none =>
    if mode.add then do
      let cell ← finalizeNode S key bitLen leaf
      pure (none, some cell)
    else pure (none, none)

def replaceSide (cell : C) (cursor : Slice C) (label : List Bool) (bitLen : ℕ) (bit : Bool) :
    Option (Slice C × List Bool) → Option C → Checked (Option (Slice C × List Bool) × Option C)
  | none, _ => pure (none, some cell)
  | some result, some next => do
    let other ← cursor.reference (1 - bit.toNat)
    let cell ← makeFork S T label bitLen next other bit
    pure (some result, some cell)
  | some result, none => do
    let other ← cursor.reference (1 - bit.toNat)
    let cell ← makeEdge S label bitLen bit other
    pure (some result, some cell)

/-- `remove_node`: what was removed, with the rest of the label when a whole subtree
was, and the new cell. -/
def removeNode (allowSubtree : Bool) :
    ℕ → Option C → ℕ → List Bool → Checked (Option (Slice C × List Bool) × Option C)
  | 0, _, _, _ => reject "the key has no more bits"
  | _ + 1, none, _, _ => pure (none, none)
  | fuel + 1, some cell, bitLen, key => do
    let (label, cursor) ← loadNode S cell bitLen
    match commonPrefix label key with
    | (_, [], bit :: rest) => do
      let nextBitLen ← present (checkedSub bitLen (1 + label.length)) "CellUnderflow"
      require (isFork cursor) "CellUnderflow"
      let nextCell ← cursor.reference bit.toNat
      let (result, nextCell) ← removeNode allowSubtree fuel (some nextCell) nextBitLen rest
      replaceSide S T cell cursor label bitLen bit result nextCell
    | (_, [], []) => pure (some (cursor, []), none)
    | (_, _ :: _, _ :: _) => pure (none, some cell)
    | (_, rest, []) =>
      if allowSubtree then pure (some (cursor, rest), none) else reject "CellUnderflow"

def hashmapRemove : Checked (Option (Slice C) × Option C) := do
  checkKey bitLen key
  let (result, data) ← removeNode S T false (bitLen + 1) data bitLen key
  pure (result.map Prod.fst, data)

end Model

section Get

variable {C : Type} {S : CellStore C} {T : HashmapType C} {bitLen : ℕ}

variable {label : List Bool}

theorem loadNode_leaf {value : Slice C} {cell : C} (hlen : bitLen ≤ maxDataBits)
    (hlabel : label.length = bitLen) (h : encode S T bitLen (.leaf label value) = .ok cell) :
    loadNode S cell bitLen = .ok (label, value) :=
  loadNode_finalizeNode h hlabel.le hlen

theorem loadNode_fork {m : ℕ} {l r : BitTrie (Slice C)} {cell : C} (hlen : bitLen ≤ maxDataBits)
    (hm : label.length + 1 + m = bitLen) (h : encode S T bitLen (.fork label l r) = .ok cell) :
    ∃ left right extra, encode S T m l = .ok left ∧ encode S T m r = .ok right ∧
      T.forkExtra (some m) left right = .ok extra ∧
      finalizeNode S label bitLen ⟨extra.bits, left :: right :: extra.refs⟩ = .ok cell ∧
      loadNode S cell bitLen = .ok (label, ⟨extra.bits, left :: right :: extra.refs⟩) := by
  obtain ⟨left, right, hleft, hright, hfork⟩ := (encode_fork hm).mp h
  obtain ⟨extra, hextra, hfinal⟩ := (makeFork_eq_ok hm).mp hfork
  exact ⟨left, right, extra, hleft, hright, hextra, hfinal,
    loadNode_finalizeNode hfinal (by omega) hlen⟩

theorem reference_eq_ok {s : Slice C} {i : ℕ} {c : C} :
    s.reference i = .ok c ↔ s.refs[i]? = some c := present_eq_ok _ _ _

theorem reference_zero {bits : List Bool} {left : C} {refs : List C} :
    (Slice.mk bits (left :: refs)).reference 0 = .ok left := rfl

theorem reference_one {bits : List Bool} {left right : C} {refs : List C} :
    (Slice.mk bits (left :: right :: refs)).reference 1 = .ok right := rfl

section

variable (bits : List Bool) (left right : C) (refs : List C) (bit : Bool)

theorem reference_side : (Slice.mk bits (left :: right :: refs)).reference bit.toNat =
      .ok (if bit then right else left) := by
  cases bit with
  | false | true => rfl

theorem reference_other : (Slice.mk bits (left :: right :: refs)).reference (1 - bit.toNat) =
      .ok (if bit then left else right) := by
  cases bit with
  | false | true => rfl

end

theorem erasePrefix_append (label rest : List Bool) (h : label ++ rest ≠ []) :
    erasePrefix (label ++ rest) label = some rest := by
  rw [erasePrefix, if_neg]
  · rw [commonPrefix_append_self]
  · simp only [not_or, not_lt]
    exact ⟨h, by simp⟩

theorem erasePrefix_diverge (p x y : List Bool) (b : Bool) :
    erasePrefix (p ++ (!b) :: y) (p ++ b :: x) = none := by
  have h := commonPrefix_diverge p y x (!b)
  rw [Bool.not_not] at h
  rw [erasePrefix]
  split_ifs
  · rfl
  · rw [h]

theorem hashmapGetFrom_eq {t : BitTrie (Slice C)} (ht : t.WF bitLen) (hlen : bitLen ≤ maxDataBits)
    {cell : C} (hcell : encode S T bitLen t = .ok cell) {key : List Bool} {cursor : Slice C}
    (hload : loadNode S cell bitLen = .ok (label, cursor)) (hkey : key.length = bitLen) {fuel : ℕ}
    (hfuel : bitLen < fuel) : hashmapGetFrom S fuel label cursor bitLen key = .ok (t.get key) := by
  induction t generalizing bitLen cell label key cursor fuel with
  | leaf label' value =>
    obtain ⟨fuel, rfl⟩ : ∃ k, fuel = k + 1 := ⟨fuel - 1, by omega⟩
    rw [loadNode_leaf hlen ht hcell] at hload
    cases hload
    rw [hashmapGetFrom]
    rcases leaf_cases ht hkey with rfl | ⟨p, b, x, y, rfl, rfl⟩
    · rw [get_leaf_self]
      by_cases hnil : key = []
      · subst hnil
        rfl
      · have herase := erasePrefix_append key [] (by simpa using hnil)
        rw [List.append_nil] at herase
        rw [herase]
        rfl
    · rw [erasePrefix_diverge, get_leaf, if_neg (by simp), if_neg (by simp)]
      rfl
  | fork label' l r ihl ihr =>
    obtain ⟨fuel, rfl⟩ : ∃ k, fuel = k + 1 := ⟨fuel - 1, by omega⟩
    obtain ⟨m, hm, hl, hr⟩ := ht
    obtain ⟨left, right, extra, hleft, hright, -, -, hnode⟩ := loadNode_fork hlen hm hcell
    rw [hnode] at hload
    cases hload
    rw [hashmapGetFrom]
    rcases fork_cases hm hkey with ⟨bit, rest, rfl, hrest⟩ | ⟨p, b, x, y, rfl, rfl⟩
    · have hsub : checkedSub bitLen (label'.length + 1) = some m := checkedSub_eq_some.mpr hm
      have hfork : isFork (⟨extra.bits, left :: right :: extra.refs⟩ : Slice C) = true := by
        simp [isFork]
      rw [erasePrefix_append _ _ (by simp), get_fork_append]
      simp only [hfork, not_true_eq_false, if_false, bind_eq_ok, reference_eq_ok, present_eq_ok,
        hsub, Prod.exists]
      -- the loop goes on with the cell of the side
      cases bit with
      | false =>
        obtain ⟨data, -, hside, -⟩ := exists_isNode hl (by omega) hleft
        exact ⟨left, rfl, m, rfl, _, data, hside, ihl hl (by omega) hleft hside hrest (by omega)⟩
      | true =>
        obtain ⟨data, -, hside, -⟩ := exists_isNode hr (by omega) hright
        exact ⟨right, rfl, m, rfl, _, data, hside, ihr hr (by omega) hright hside hrest (by omega)⟩
    · rw [erasePrefix_diverge, if_neg (by simp), BitTrie.get_fork_diverge]
      rfl

theorem hashmapGet_eq {t : Option (BitTrie (Slice C))} (ht : BitTrie.WFOpt bitLen t)
    (hlen : bitLen ≤ maxDataBits) (hpos : 0 < bitLen) {data : Option C}
    (hdata : encodeOpt S T bitLen t = .ok data) {key : List Bool} (hkey : key.length = bitLen) :
    hashmapGet S data bitLen key = .ok (BitTrie.getOpt t key) := by
  have hcheck : checkKey bitLen key = .ok () := by
    rw [checkKey, require_eq_ok]
    refine ⟨?_, hkey.symm⟩
    rintro rfl
    simp at hkey
    omega
  simp only [hashmapGet, hcheck]
  cases t with
  | none =>
    rw [encodeOpt_none] at hdata
    subst hdata
    rfl
  | some t =>
    obtain ⟨cell, hcell, rfl⟩ := encodeOpt_some.mp hdata
    have hwf := wfOpt_some.mp ht
    obtain ⟨data, -, hload, -⟩ := exists_isNode hwf hlen hcell
    have hloop := hashmapGetFrom_eq hwf hlen hcell hload hkey (Nat.lt_succ_self bitLen)
    simp only [hload]
    exact hloop

end Get

section Put

variable {C : Type} {S : CellStore C} {T : HashmapType C} {bitLen : ℕ}

variable {cell : C} {t : BitTrie (Slice C)} {p : List Bool}

theorem encode_forkAt (hT : T.Symmetric) {m : ℕ} (hm : p.length + 1 + m = bitLen) {bit : Bool}
    {u : BitTrie (Slice C)} : encode S T bitLen (forkAt p bit t u) = .ok cell ↔
      ∃ a b, encode S T m t = .ok a ∧ encode S T m u = .ok b ∧
        makeFork S T p bitLen a b bit = .ok cell := by
  cases bit with
  | false => exact encode_fork hm
  | true =>
    rw [forkAt, if_pos rfl, encode_fork hm]
    constructor
    · rintro ⟨b, a, hb, ha, hcell⟩
      exact ⟨a, b, ha, hb, (makeFork_swap hT).mpr hcell⟩
    · rintro ⟨a, b, ha, hb, hcell⟩
      exact ⟨b, a, hb, ha, (makeFork_swap hT).mp hcell⟩

theorem makeFork_hashmapE (key : List Bool) (left right : C) (swap : Bool) :
    makeFork S (hashmapE C) key bitLen left right swap =
      finalizeNode S key bitLen ⟨[], if swap then [right, left] else [left, right]⟩ := by
  cases swap with
  | false | true => rfl

def putMode (mode : Mode) (key : List Bool) (leaf : Slice C) (t : BitTrie (Slice C)) :
    BitTrie (Slice C) :=
  if mode.applies (t.get key) then t.put key leaf else t

variable {leaf : Slice C}

theorem sliceEdge_eq_ok (hT : T.Symmetric) {slice : Slice C} {x y : List Bool} {b : Bool} {m : ℕ}
    (hm : p.length + 1 + m = bitLen)
    (ht : ∀ c, finalizeNode S x m slice = .ok c ↔ encode S T m t = .ok c) :
    sliceEdge S T leaf slice bitLen p b x y = .ok cell ↔
      encode S T bitLen (forkAt p b t (.leaf y leaf)) = .ok cell := by
  rw [encode_forkAt hT hm]
  simp only [sliceEdge, checkedSub_eq_some.mpr hm, bind_eq_ok, present_eq_ok, Option.some.injEq,
    exists_eq_left', ht, encode_leaf]
  constructor
  · rintro ⟨a, ha, c, hc, hcell⟩
    exact ⟨a, c, ha, hc, hcell⟩
  · rintro ⟨a, c, ha, hc, hcell⟩
    exact ⟨a, ha, c, hc, hcell⟩

/-- A key that parts from a label in the middle of an edge. -/
theorem putToNode_diverge {mode : Mode} {fuel : ℕ} {x y : List Bool} {b : Bool} {slice : Slice C}
    (hload : loadNode S cell bitLen = .ok (p ++ b :: x, slice)) {old : Option (Slice C)}
    {cell' : C} : putToNode S T leaf mode (fuel + 1) cell bitLen (p ++ (!b) :: y) = .ok (old, cell') ↔
      old = none ∧ if mode.add then sliceEdge S T leaf slice bitLen p b x y = .ok cell'
        else cell' = cell := by
  have hne : ¬ p ++ b :: x = p ++ (!b) :: y := append_diverge_ne p x y b
  simp only [putToNode, hload, commonPrefix_diverge, if_neg hne, bind_eq_ok, Except.ok.injEq,
    exists_eq_left']
  by_cases hadd : mode.add
  · simp only [hadd, if_true, bind_pure_pair, exists_eq_right']
  · simp only [hadd, Bool.false_eq_true, if_false, pure_eq_ok, Prod.mk.injEq]
    exact and_congr eq_comm eq_comm

theorem putToNode_prepend (hT : T.Symmetric) {u : BitTrie (Slice C)} {m : ℕ} (hu : u.WF m)
    (hm : p.length + 1 + m = bitLen) (hlen : bitLen ≤ maxDataBits) {b : Bool}
    (hcell : encode S T bitLen (u.prepend (p ++ [b])) = .ok cell) {y : List Bool} {mode : Mode}
    {fuel : ℕ} {old : Option (Slice C)} {cell' : C} :
    putToNode S T leaf mode (fuel + 1) cell bitLen (p ++ (!b) :: y) = .ok (old, cell') ↔
      old = (u.prepend (p ++ [b])).get (p ++ (!b) :: y) ∧
        encode S T bitLen (putMode mode (p ++ (!b) :: y) leaf (u.prepend (p ++ [b]))) =
          .ok cell' := by
  have hlong : (p ++ [b]).length + m = bitLen := by
    rw [List.length_append, List.length_singleton]
    exact hm
  obtain ⟨data, hdata, hload, -⟩ := exists_isNode (hlong ▸ hu.prepend (p ++ [b])) hlen hcell
  rw [BitTrie.label_prepend, ← List.append_cons] at hload
  rw [putToNode_diverge hload, putMode, BitTrie.get_prepend_diverge]
  simp only [Mode.applies, Option.isSome_none, Bool.false_eq_true, if_false]
  refine and_congr_right fun _ => ?_
  by_cases hadd : mode.add
  · simp only [hadd, if_true, BitTrie.put_prepend_diverge]
    exact sliceEdge_eq_ok hT hm fun c => ((isNode_prepend hlong).mp hdata).finalizeNode_iff
  · simp only [hadd, Bool.false_eq_true, if_false, hcell, Except.ok.injEq]
    exact eq_comm

theorem putToNode_eq_ok (ht : t.WF bitLen) (hlen : bitLen ≤ maxDataBits)
    (hcell : encode S (hashmapE C) bitLen t = .ok cell) {key : List Bool}
    (hkey : key.length = bitLen) {mode : Mode} {fuel : ℕ} (hfuel : bitLen < fuel)
    {old : Option (Slice C)} {cell' : C} :
    putToNode S (hashmapE C) leaf mode fuel cell bitLen key = .ok (old, cell') ↔
      old = t.get key ∧ encode S (hashmapE C) bitLen (putMode mode key leaf t) = .ok cell' := by
  induction t generalizing bitLen cell key fuel old cell' with
  | leaf label value =>
    obtain ⟨fuel, rfl⟩ : ∃ k, fuel = k + 1 := ⟨fuel - 1, by omega⟩
    have hload := loadNode_leaf hlen ht hcell
    rcases leaf_cases ht hkey with rfl | ⟨p, b, x, y, rfl, rfl⟩
    · simp only [putToNode, hload, if_true, bind_eq_ok, Except.ok.injEq, exists_eq_left', putMode,
        get_leaf_self, Mode.applies, Option.isSome_some, BitTrie.put_leaf_same]
      by_cases hrep : mode.replace
      · simp only [hrep, if_true, bind_pure_pair, exists_eq_right', encode_leaf]
      · simp only [hrep, Bool.false_eq_true, if_false, pure_eq_ok, Prod.mk.injEq, hcell,
          Except.ok.injEq]
        exact and_congr_left' eq_comm
    · have hedge : BitTrie.leaf (p ++ b :: x) value =
          (BitTrie.leaf x value).prepend (p ++ [b]) := by
        rw [BitTrie.prepend, ← List.append_cons]
      rw [hedge] at hcell ⊢
      have hleaf : (BitTrie.leaf x value).WF x.length := rfl
      refine putToNode_prepend symmetric_hashmapE hleaf ?_ hlen hcell
      rw [← ht, List.length_append, List.length_cons]
      omega
  | fork label l r ihl ihr =>
    obtain ⟨fuel, rfl⟩ : ∃ k, fuel = k + 1 := ⟨fuel - 1, by omega⟩
    obtain ⟨m, hm, hl, hr⟩ := ht
    obtain ⟨left, right, extra, hleft, hright, hextra, hfinal, hload⟩ := loadNode_fork hlen hm hcell
    cases hextra
    rcases fork_cases hm hkey with ⟨bit, rest, rfl, hrest⟩ | ⟨p, b, x, y, rfl, rfl⟩
    · have hsub : checkedSub bitLen (label.length + 1) = some m := checkedSub_eq_some.mpr hm
      have hne : ¬ label = label ++ bit :: rest := by simp
      have hside := encode_child hleft hright bit
      have hother := encode_child hleft hright (!bit)
      have ih : ∀ {old : Option (Slice C)} {child : C},
          putToNode S (hashmapE C) leaf mode fuel (if bit then right else left) m rest =
              .ok (old, child) ↔ old = (BitTrie.child l r bit).get rest ∧
              encode S (hashmapE C) m (putMode mode rest leaf (BitTrie.child l r bit)) =
                .ok child := by
        cases bit with
        | false => exact ihl hl (by omega) hleft hrest (by omega)
        | true => exact ihr hr (by omega) hright hrest (by omega)
      have hset : ∀ child : C, [left, right].set bit.toNat child =
          if bit then [if !bit then right else left, child]
          else [child, if !bit then right else left] := by
        intro child
        cases bit with
        | false | true => rfl
      simp only [putToNode, hload, commonPrefix_self_append, if_neg hne, bind_eq_ok,
        Except.ok.injEq, exists_eq_left', require_eq_ok, List.length_cons, List.length_nil,
        reference_side, Option.some.injEq, present_eq_ok, hsub, Prod.exists, ih, hset,
        putMode, get_fork_append]
      by_cases happ : mode.applies ((BitTrie.child l r bit).get rest)
      · -- the side is rebuilt, and the fork with it
        simp only [happ, if_true, BitTrie.put_fork_append,
          encode_forkAt symmetric_hashmapE hm, hother, makeFork_hashmapE, Except.ok.injEq]
        constructor
        · rintro ⟨-, -, o, child, ⟨rfl, hchild⟩, h⟩
          simp only [happ, if_true, bind_eq_ok, pure_eq_ok, Prod.mk.injEq] at h
          obtain ⟨c, hc, rfl, rfl⟩ := h
          exact ⟨rfl, child, _, hchild, rfl, hc⟩
        · rintro ⟨rfl, child, _, hchild, rfl, hc⟩
          refine ⟨(), trivial, _, child, ⟨rfl, hchild⟩, ?_⟩
          simp only [happ, if_true, bind_eq_ok, pure_eq_ok, Prod.mk.injEq]
          exact ⟨cell', hc, trivial, rfl⟩
      · simp only [happ, Bool.false_eq_true, if_false, hside, hcell, Except.ok.injEq]
        constructor
        · rintro ⟨-, -, o, child, ⟨rfl, rfl⟩, h⟩
          simp only [happ, Bool.false_eq_true, if_false, pure_eq_ok, Prod.mk.injEq] at h
          exact ⟨h.1.symm, h.2⟩
        · rintro ⟨rfl, rfl⟩
          refine ⟨(), trivial, _, _, ⟨rfl, rfl⟩, ?_⟩
          simp only [happ, Bool.false_eq_true, if_false, pure_eq_ok]
    · have hedge : BitTrie.fork (p ++ b :: x) l r = (BitTrie.fork x l r).prepend (p ++ [b]) := by
        rw [BitTrie.prepend, ← List.append_cons]
      rw [hedge] at hcell ⊢
      have hfork : (BitTrie.fork x l r).WF (x.length + 1 + m) := ⟨m, rfl, hl, hr⟩
      refine putToNode_prepend symmetric_hashmapE hfork ?_ hlen hcell
      simp only [List.length_append, List.length_cons] at hm
      omega

end Put

section Remove

variable {C : Type} {S : CellStore C} {T : HashmapType C} {bitLen : ℕ}

theorem replaceSide_eq_ok (hT : T.Symmetric) {label : List Bool} {m : ℕ}
    (hm : label.length + 1 + m = bitLen) (hlen : bitLen ≤ maxDataBits) {l r : BitTrie (Slice C)}
    (hl : l.WF m) (hr : r.WF m) {left right : C} (hleft : encode S T m l = .ok left)
    (hright : encode S T m r = .ok right) {cell : C} {bits : List Bool} {refs : List C}
    {bit : Bool} {u : Option (BitTrie (Slice C))} {next : Option C}
    (hnext : encodeOpt S T m u = .ok next) {removed : Slice C × List Bool}
    {result : Option (Slice C × List Bool)} {cell' : Option C} :
    replaceSide S T cell ⟨bits, left :: right :: refs⟩ label bitLen bit (some removed) next =
        .ok (result, cell') ↔ result = some removed ∧
        encodeOpt S T bitLen (join label (if bit then some l else u)
          (if bit then u else some r)) = .ok cell' := by
  cases u with
  | none =>
    rw [encodeOpt_none] at hnext
    subst hnext
    simp only [replaceSide, reference_other, ok_bind, bind_pure_pair]
    cases bit with
    | false =>
      simp only [Bool.false_eq_true, if_false, makeEdge_eq_ok hm hlen hr hright, join,
        encodeOpt_some, Bool.not_false]
    | true =>
      simp only [if_true, makeEdge_eq_ok hm hlen hl hleft, join, encodeOpt_some, Bool.not_true]
  | some u =>
    obtain ⟨c, hc, rfl⟩ := encodeOpt_some.mp hnext
    have hfork : ∀ d, makeFork S T label bitLen c (if bit then left else right) bit = .ok d ↔
        encode S T bitLen (forkAt label bit u (if bit then l else r)) = .ok d := by
      intro d
      rw [encode_forkAt hT hm, hc]
      cases bit with
      | false => simp [hright]
      | true => simp [hleft]
    have hjoin : join label (if bit then some l else some u) (if bit then some u else some r) =
        some (forkAt label bit u (if bit then l else r)) := by
      cases bit with
      | false | true => rfl
    simp only [replaceSide, reference_other, ok_bind, bind_pure_pair, hfork, hjoin, encodeOpt_some]

theorem removeNode_eq_ok (hT : T.Symmetric) {t : BitTrie (Slice C)} (ht : t.WF bitLen)
    (hlen : bitLen ≤ maxDataBits) {cell : C} (hcell : encode S T bitLen t = .ok cell)
    {key : List Bool} (hkey : key.length = bitLen) {fuel : ℕ} (hfuel : bitLen < fuel)
    {result : Option (Slice C × List Bool)} {cell' : Option C} :
    removeNode S T false fuel (some cell) bitLen key = .ok (result, cell') ↔
      result = (t.get key).map (·, []) ∧ encodeOpt S T bitLen (t.erase key) = .ok cell' := by
  induction t generalizing bitLen cell key fuel result cell' with
  | leaf label value =>
    obtain ⟨fuel, rfl⟩ : ∃ k, fuel = k + 1 := ⟨fuel - 1, by omega⟩
    have hload := loadNode_leaf hlen ht hcell
    rcases leaf_cases ht hkey with rfl | ⟨p, b, x, y, rfl, rfl⟩
    · simp only [removeNode, hload, commonPrefix_self, bind_eq_ok, Except.ok.injEq,
        exists_eq_left', pure_eq_ok, Prod.mk.injEq, get_leaf_self, Option.map_some,
        erase_leaf, if_true, encodeOpt_none]
      exact and_congr eq_comm eq_comm
    · have hne : ¬ p ++ (!b) :: y = p ++ b :: x := (append_diverge_ne p x y b).symm
      simp only [removeNode, hload, commonPrefix_diverge, bind_eq_ok, Except.ok.injEq,
        exists_eq_left', pure_eq_ok, Prod.mk.injEq, get_leaf, erase_leaf,
        if_neg hne, Option.map_none, encodeOpt_some, hcell]
      exact and_congr eq_comm eq_comm
  | fork label l r ihl ihr =>
    obtain ⟨fuel, rfl⟩ : ∃ k, fuel = k + 1 := ⟨fuel - 1, by omega⟩
    have hwf : (BitTrie.fork label l r).WF bitLen := ht
    obtain ⟨m, hm, hl, hr⟩ := ht
    obtain ⟨left, right, extra, hleft, hright, hextra, hfinal, hload⟩ := loadNode_fork hlen hm hcell
    rcases fork_cases hm hkey with ⟨bit, rest, rfl, hrest⟩ | ⟨p, b, x, y, rfl, rfl⟩
    · have hsub : checkedSub bitLen (1 + label.length) = some m := by
        rw [Nat.add_comm]
        exact checkedSub_eq_some.mpr hm
      have hfork : isFork (⟨extra.bits, left :: right :: extra.refs⟩ : Slice C) = true := by
        simp [isFork]
      have ih : ∀ {result0 : Option (Slice C × List Bool)} {next : Option C},
          removeNode S T false fuel (some (if bit then right else left)) m rest =
              .ok (result0, next) ↔ result0 = ((BitTrie.child l r bit).get rest).map (·, []) ∧
              encodeOpt S T m ((BitTrie.child l r bit).erase rest) = .ok next := by
        cases bit with
        | false => exact ihl hl (by omega) hleft hrest (by omega)
        | true => exact ihr hr (by omega) hright hrest (by omega)
      simp only [removeNode, hload, commonPrefix_self_append, bind_eq_ok, Except.ok.injEq,
        exists_eq_left', present_eq_ok, hsub, Option.some.injEq, require_eq_ok, hfork,
        reference_side, Prod.exists, ih, get_fork_append]
      cases hget : (BitTrie.child l r bit).get rest with
      | none =>
        -- an absent key changes nothing
        have herase : (BitTrie.fork label l r).erase (label ++ bit :: rest) =
            some (BitTrie.fork label l r) := by
          apply hwf.erase_of_get_eq_none hkey
          rw [get_fork_append]
          exact hget
        have hchild := (BitTrie.WF.side hl hr bit).erase_of_get_eq_none hrest hget
        simp only [herase, hchild, encodeOpt_some, hcell, encode_child hleft hright,
          Option.map_none, Except.ok.injEq, exists_eq_left']
        constructor
        · rintro ⟨-, -, _, _, ⟨rfl, rfl⟩, h⟩
          simp only [replaceSide, pure_eq_ok, Prod.mk.injEq] at h
          exact ⟨h.1.symm, h.2.symm⟩
        · rintro ⟨rfl, rfl⟩
          exact ⟨(), trivial, none, _, ⟨rfl, rfl⟩, rfl⟩
      | some value =>
        rw [BitTrie.erase_fork_append]
        have hsides : ∀ u, (u = (BitTrie.child l r bit).erase rest) →
            join label (if bit then some l else u) (if bit then u else some r) =
            join label (if bit then some l else l.erase rest)
              (if bit then r.erase rest else some r) := by
          rintro u rfl
          cases bit with
          | false | true => rfl
        rw [← hsides _ rfl]
        constructor
        · rintro ⟨-, -, _, next, ⟨rfl, hnext⟩, h⟩
          exact (replaceSide_eq_ok hT hm hlen hl hr hleft hright hnext).mp h
        · rintro ⟨rfl, hcell'⟩
          obtain ⟨next, hnext⟩ : ∃ next,
              encodeOpt S T m ((BitTrie.child l r bit).erase rest) = .ok next := by
            cases bit with
            | false => exact (encodeOpt_of_join hm hlen (hl.erase hrest) (wfOpt_some.mpr hr) hcell').1
            | true => exact (encodeOpt_of_join hm hlen (wfOpt_some.mpr hl) (hr.erase hrest) hcell').2
          exact ⟨(), trivial, _, next, ⟨rfl, hnext⟩,
            (replaceSide_eq_ok hT hm hlen hl hr hleft hright hnext).mpr ⟨rfl, hcell'⟩⟩
    · simp only [removeNode, hload, commonPrefix_diverge, bind_eq_ok, Except.ok.injEq,
        exists_eq_left', pure_eq_ok, Prod.mk.injEq, BitTrie.get_fork_diverge,
        BitTrie.erase_fork_diverge, Option.map_none, encodeOpt_some, hcell]
      exact and_congr eq_comm eq_comm

end Remove

end TonNode.Hashmap
