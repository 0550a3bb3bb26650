import TonNode.HashmapFilter

/-! Splitting a dictionary in two at a key, and merging two dictionaries without a
common key. Both work on the cells of the nodes on the way and leave the subtrees
below as they are. -/
namespace TonNode.Hashmap

open Block Checked
open BitTrie (join wfOpt_some getOpt wfOpt_join wfOpt_none label_prepend)
open TreeCell (store)

section Model

variable {C : Type} (S : CellStore C) (T : HashmapType C)

def splitSide (key : List Bool) (bit : Bool) (side : C) (nextBitLen bitLen : ℕ) : Checked C := do
  let (label, cursor) ← loadNode S side nextBitLen
  let label := key ++ bit :: label
  require (label.length ≤ maxDataBits) "CellOverflow"
  finalizeNode S label bitLen cursor

def hashmapSplit (data : Option C) (bitLen : ℕ) (key : List Bool) : Checked (Option C × Option C) :=
  match data with
  | none => pure (none, none)
  | some root => do
    let (label, cursor) ← loadNode S root bitLen
    match commonPrefix label key with
    | (_, [], []) => do
      let nextBitLen ← present (checkedSub bitLen (label.length + 1)) "CellUnderflow"
      let left ← cursor.reference 0
      let right ← cursor.reference 1
      let left ← splitSide S key false left nextBitLen bitLen
      let right ← splitSide S key true right nextBitLen bitLen
      pure (some left, some right)
    | (_, bit :: _, []) => pure (if bit then (none, some root) else (some root, none))
    | _ => reject "split fail"

/-- The loop of `merge_nodes` on the labels of two nodes and what follows them, and the
forks that are rebuilt from its stack afterwards. -/
def mergeSlices (key : List Bool) : ℕ → List Bool → Slice C → List Bool → Slice C → ℕ → Checked C
  | 0, _, _, _, _, _ => reject "the keys have no more bits"
  | fuel + 1, label1, slice1, label2, slice2, bitLen => do
    let (pre, rest1, rest2) := commonPrefix label1 label2
    let newBitLen ← present (checkedSub bitLen (pre.length + 1)) "CellUnderflow"
    match rest1, rest2 with
    | bit1 :: key1, bit2 :: key2 => do
      require ((commonPrefix pre key).2.2 = []) "common prefix of merging hashmaps is too short"
      let (key1, slice1, key2, slice2) :=
        if bit1 && !bit2 then (key2, slice2, key1, slice1) else (key1, slice1, key2, slice2)
      let left ← finalizeNode S key1 newBitLen slice1
      let right ← finalizeNode S key2 newBitLen slice2
      makeFork S T pre bitLen left right false
    | [], bit :: remainder => do
      let cell ← slice1.reference bit.toNat
      let (label, slice) ← loadNode S cell newBitLen
      let data ← mergeSlices key fuel label slice remainder slice2 newBitLen
      let cell ← slice1.reference (1 - bit.toNat)
      makeFork S T pre bitLen data cell bit
    | bit :: remainder, [] => do
      let cell ← slice2.reference bit.toNat
      let (label, slice) ← loadNode S cell newBitLen
      let data ← mergeSlices key fuel remainder slice1 label slice newBitLen
      let cell ← slice2.reference (1 - bit.toNat)
      makeFork S T pre bitLen data cell bit
    | [], [] => do
      let left1 ← slice1.reference 0
      let left2 ← slice2.reference 0
      let (label1, leftSlice1) ← loadNode S left1 newBitLen
      let (label2, leftSlice2) ← loadNode S left2 newBitLen
      let left ← mergeSlices key fuel label1 leftSlice1 label2 leftSlice2 newBitLen
      let right1 ← slice1.reference 1
      let right2 ← slice2.reference 1
      let (label1, rightSlice1) ← loadNode S right1 newBitLen
      let (label2, rightSlice2) ← loadNode S right2 newBitLen
      let right ← mergeSlices key fuel label1 rightSlice1 label2 rightSlice2 newBitLen
      makeFork S T pre bitLen left right false

def mergeNodes (cell1 cell2 : C) (bitLen : ℕ) (key : List Bool) : Checked C := do
  let (label1, slice1) ← loadNode S cell1 bitLen
  let (label2, slice2) ← loadNode S cell2 bitLen
  mergeSlices S T key (bitLen + 1) label1 slice1 label2 slice2 bitLen

def hashmapMerge (data other : Option C) (bitLen : ℕ) (key : List Bool) : Checked (Option C) :=
  if bitLen < key.length then pure data
  else
    match data, other with
    | none, other => pure other
    | some cell, none => pure (some cell)
    | some cell1, some cell2 => do
      let cell ← mergeNodes S T cell1 cell2 bitLen key
      pure (some cell)

end Model

section Split

variable {C : Type} {S : CellStore C} {T : HashmapType C} {n m : ℕ} {p : List Bool}

section

variable (hm : p.length + 1 + m = n) (hlen : n ≤ maxDataBits)
include hm hlen

theorem splitSide_eq_ok {bit : Bool} {u : BitTrie (Slice C)} (hu : u.WF m) {side : C}
    (hside : encode S T m u = .ok side) {cell : C} :
    splitSide S p bit side m n = .ok cell ↔ encode S T n (u.prepend (p ++ [bit])) = .ok cell := by
  obtain ⟨data, hdata, hload, -⟩ := exists_isNode hu (by omega) hside
  have hlong : (p ++ [bit]).length + m = n := by
    rw [List.length_append, List.length_singleton]
    exact hm
  have hlabel : p ++ bit :: u.label = (u.prepend (p ++ [bit])).label := by
    rw [label_prepend, List.append_assoc, List.singleton_append]
  have hfits : (p ++ bit :: u.label).length ≤ maxDataBits := by
    have hle := hu.length_label_le
    rw [List.length_append, List.length_cons]
    omega
  rw [← ((isNode_prepend hlong).mpr hdata).finalizeNode_iff, ← hlabel]
  simp only [splitSide, hload, ok_bind, seq_eq_ok, require_eq_ok, hfits, true_and]

theorem hashmapSplit_edge {u : BitTrie (Slice C)} (hu : u.WF m) {bit : Bool} {root : C}
    (hroot : encode S T n (u.prepend (p ++ [bit])) = .ok root) :
    hashmapSplit S (some root) n p = .ok (if bit then (none, some root) else (some root, none)) := by
  have hwf := hu.prepend (p ++ [bit])
  rw [List.length_append, List.length_singleton, hm] at hwf
  obtain ⟨slice, -, hload, -⟩ := exists_isNode hwf hlen hroot
  rw [label_prepend, ← List.append_cons] at hload
  simp only [hashmapSplit, hload, ok_bind, commonPrefix_append_self]
  rfl

theorem hashmapSplit_fork {l r : BitTrie (Slice C)} (hl : l.WF m) (hr : r.WF m) {root : C}
    (hroot : encode S T n (.fork p l r) = .ok root) {left right : Option C} :
    hashmapSplit S (some root) n p = .ok (left, right) ↔
      encodeOpt S T n (some (l.prepend (p ++ [false]))) = .ok left ∧
        encodeOpt S T n (some (r.prepend (p ++ [true]))) = .ok right := by
  obtain ⟨lcell, rcell, extra, hlcell, hrcell, -, -, hload⟩ := loadNode_fork hlen hm hroot
  simp only [hashmapSplit, hload, ok_bind, commonPrefix_self, checkedSub_eq_some.mpr hm,
    reference_zero, reference_one, bind_eq_ok, splitSide_eq_ok hm hlen hl hlcell,
    splitSide_eq_ok hm hlen hr hrcell, present_eq_ok, pure_eq_ok, Prod.mk.injEq, encodeOpt_some,
    Option.some.injEq, exists_eq_left']
  constructor
  · rintro ⟨a, ha, b, hb, rfl, rfl⟩
    exact ⟨⟨a, ha, rfl⟩, b, hb, rfl⟩
  · rintro ⟨⟨a, ha, rfl⟩, b, hb, rfl⟩
    exact ⟨a, ha, b, hb, rfl, rfl⟩

/-- Splitting a dictionary at what its keys begin with gives the cells of the two sides,
each under its whole key, whenever these can be built. -/
theorem hashmapSplit_join {l r : Option (BitTrie (Slice C))} (hl : BitTrie.WFOpt m l)
    (hr : BitTrie.WFOpt m r) {data : Option C}
    (hdata : encodeOpt S T n (join p l r) = .ok data) {left right : Option C} :
    hashmapSplit S data n p = .ok (left, right) ↔ encodeOpt S T n (join p l none) = .ok left ∧
        encodeOpt S T n (join p none r) = .ok right := by
  cases l with
  | none =>
    cases r with
    | none =>
      obtain rfl := encodeOpt_none.mp hdata
      simp [hashmapSplit, join, encodeOpt]
    | some r =>
      obtain ⟨root, hroot, rfl⟩ := encodeOpt_some.mp hdata
      rw [hashmapSplit_edge hm hlen (wfOpt_some.mp hr) hroot]
      simp [join, encodeOpt, hroot, pure_eq_ok]
  | some l =>
    cases r with
    | none =>
      obtain ⟨root, hroot, rfl⟩ := encodeOpt_some.mp hdata
      rw [hashmapSplit_edge hm hlen (wfOpt_some.mp hl) hroot]
      simp [join, encodeOpt, hroot, pure_eq_ok, Bool.false_eq_true]
    | some r =>
      obtain ⟨root, hroot, rfl⟩ := encodeOpt_some.mp hdata
      exact hashmapSplit_fork hm hlen (wfOpt_some.mp hl) (wfOpt_some.mp hr) hroot

end

theorem prefix_of_hashmapSplit {u : BitTrie (Slice C)} (hu : u.WF n) (hlen : n ≤ maxDataBits)
    {root : C} (hroot : encode S T n u = .ok root) {left right : Option C}
    (h : hashmapSplit S (some root) n p = .ok (left, right)) : p <+: u.label ∧ p.length < n := by
  obtain ⟨slice, -, hload, -⟩ := exists_isNode hu hlen hroot
  simp only [hashmapSplit, hload, ok_bind] at h
  rcases prefix_cases u.label p with ⟨x, hp⟩ | ⟨bit, x, hlabel⟩ | ⟨q, b, x, y, hlabel, hp⟩
  · cases x with
    | nil =>
      rw [List.append_nil] at hp
      subst hp
      simp only [commonPrefix_self, bind_eq_ok, present_eq_ok, checkedSub_eq_some] at h
      obtain ⟨m, hm, -⟩ := h
      exact ⟨List.prefix_rfl, by omega⟩
    | cons b x =>
      rw [hp, commonPrefix_self_append] at h
      cases h
  · have hle := hu.length_label_le
    rw [hlabel, List.length_append, List.length_cons] at hle
    exact ⟨⟨bit :: x, hlabel.symm⟩, by omega⟩
  · rw [hlabel, hp, commonPrefix_diverge] at h
    cases h

theorem hashmapSplit_of_ok (hlen : n ≤ maxDataBits) {data : Option C}
    (hdata : IsDictionary S T n data) {left right : Option C}
    (h : hashmapSplit S data n p = .ok (left, right)) :
    IsDictionary S T n left ∧ IsDictionary S T n right := by
  obtain ⟨t, ht, hdata⟩ := hdata
  cases t with
  | none =>
    obtain rfl := encodeOpt_none.mp hdata
    cases h
    exact ⟨.none, .none⟩
  | some u =>
    have hu := wfOpt_some.mp ht
    obtain ⟨root, hroot, rfl⟩ := encodeOpt_some.mp hdata
    obtain ⟨hlabel, hp⟩ := prefix_of_hashmapSplit hu hlen hroot h
    obtain ⟨l, r, m, hjoin, hl, hr, hm⟩ := hu.exists_join hp hlabel
    rw [hjoin] at hdata
    obtain ⟨hleft, hright⟩ := (hashmapSplit_join hm hlen hl hr hdata).mp h
    subst hm
    exact ⟨⟨_, wfOpt_join hl wfOpt_none, hleft⟩, _, wfOpt_join wfOpt_none hr, hright⟩

theorem mergeNodes_diverge (hm : p.length + 1 + m = n) (hlen : n ≤ maxDataBits)
    {l r : BitTrie (Slice C)} (hl : l.WF m) (hr : r.WF m) {cell1 cell2 cell : C}
    (hcell1 : encode S T n (l.prepend (p ++ [false])) = .ok cell1)
    (hcell2 : encode S T n (r.prepend (p ++ [true])) = .ok cell2) :
    mergeNodes S T cell1 cell2 n p = .ok cell ↔ encode S T n (.fork p l r) = .ok cell := by
  have hlong : ∀ bit : Bool, (p ++ [bit]).length + m = n := by
    intro bit
    rw [List.length_append, List.length_singleton]
    exact hm
  obtain ⟨slice1, hs1, hload1, -⟩ := exists_isNode (hlong false ▸ hl.prepend _) hlen hcell1
  obtain ⟨slice2, hs2, hload2, -⟩ := exists_isNode (hlong true ▸ hr.prepend _) hlen hcell2
  rw [label_prepend, ← List.append_cons] at hload1 hload2
  have hparts : commonPrefix (p ++ false :: l.label) (p ++ true :: r.label) =
      (p, false :: l.label, true :: r.label) := commonPrefix_diverge p l.label r.label false
  simp only [mergeNodes, hload1, hload2, ok_bind, mergeSlices, hparts, bind_eq_ok, present_eq_ok,
    checkedSub_eq_some.mpr hm, Option.some.injEq, exists_eq_left', commonPrefix_self,
    require_eq_ok, Bool.false_and, Bool.false_eq_true, if_false,
    ((isNode_prepend (hlong false)).mp hs1).finalizeNode_iff,
    ((isNode_prepend (hlong true)).mp hs2).finalizeNode_iff, encode_fork hm]
  constructor
  · rintro ⟨-, -, left, hleft, right, hright, hcell⟩
    exact ⟨left, right, hleft, hright, hcell⟩
  · rintro ⟨left, right, hleft, hright, hcell⟩
    exact ⟨(), trivial, left, hleft, right, hright, hcell⟩

theorem hashmapMerge_join (hm : p.length + 1 + m = n) (hlen : n ≤ maxDataBits)
    {l r : Option (BitTrie (Slice C))} (hl : BitTrie.WFOpt m l) (hr : BitTrie.WFOpt m r)
    {left right : Option C} (hleft : encodeOpt S T n (join p l none) = .ok left)
    (hright : encodeOpt S T n (join p none r) = .ok right) {data : Option C} :
    hashmapMerge S T left right n p = .ok data ↔ encodeOpt S T n (join p l r) = .ok data := by
  unfold hashmapMerge
  rw [if_neg (by omega)]
  cases l with
  | none =>
    obtain rfl := encodeOpt_none.mp hleft
    rw [hright]
    simp only [pure_eq_ok, Except.ok.injEq]
  | some l =>
    obtain ⟨cell1, hcell1, rfl⟩ := encodeOpt_some.mp hleft
    cases r with
    | none =>
      obtain rfl := encodeOpt_none.mp hright
      rw [hleft]
      simp only [pure_eq_ok, Except.ok.injEq]
    | some r =>
      obtain ⟨cell2, hcell2, rfl⟩ := encodeOpt_some.mp hright
      simp only [join, encodeOpt, bind_eq_ok, mergeNodes_diverge hm hlen
        (wfOpt_some.mp hl) (wfOpt_some.mp hr) hcell1 hcell2]

def below (pre : List Bool) (f : PartialMap C) : PartialMap C :=
  fun key => if pre <+: key then f key else none

theorem getOpt_side (p : List Bool) (bit : Bool) (l r : Option (BitTrie (Slice C))) :
    getOpt (BitTrie.joinAt p bit (BitTrie.childOpt l r bit) none) =
      below (p ++ [bit]) (getOpt (join p l r)) := by
  funext key
  rw [below]
  split_ifs with hkey
  · obtain ⟨rest, rfl⟩ := hkey
    rw [← List.append_cons, BitTrie.getOpt_joinAt_append, if_pos rfl, BitTrie.getOpt_join_append]
  · by_cases hp : ∃ b rest, key = p ++ b :: rest
    · obtain ⟨b, rest, rfl⟩ := hp
      rw [BitTrie.getOpt_joinAt_append, if_neg, BitTrie.getOpt_none]
      rintro rfl
      exact hkey ⟨rest, (List.append_cons p b rest).symm⟩
    · push Not at hp
      exact BitTrie.getOpt_joinAt_eq_none hp

theorem getOpt_join_eq_or (p : List Bool) (l r : Option (BitTrie (Slice C))) :
    getOpt (join p l r) = fun key =>
      (getOpt (join p l none) key).or (getOpt (join p none r) key) := by
  funext key
  by_cases hp : ∃ b rest, key = p ++ b :: rest
  · obtain ⟨b, rest, rfl⟩ := hp
    simp only [BitTrie.getOpt_join_append]
    cases b with
    | false => exact Option.or_none.symm
    | true => exact Option.none_or.symm
  · push Not at hp
    have hnone : ∀ a b : Option (BitTrie (Slice C)), getOpt (join p a b) key = none :=
      fun a b => @BitTrie.getOpt_joinAt_eq_none _ p key false a b hp
    rw [hnone, hnone, hnone]
    rfl

/-- Splitting a dictionary at a beginning that all its keys share gives the dictionaries of
the keys with the next bit 0 and the next bit 1, exactly when both have a root, and merging
these gives the dictionary back. Merging two dictionaries whose keys begin with `p0` and
with `p1` gives the dictionary of both, exactly when it has a root. -/
theorem split_merge_inverse (S : CellStore C) (hlen : n ≤ maxDataBits) (hp : p.length < n) :
    (∀ data f, Represents S (hashmapE C) n data f → (∀ key, f key ≠ none → p <+: key) →
      ∀ left right, (hashmapSplit S data n p = .ok (left, right) ↔
          Represents S (hashmapE C) n left (below (p ++ [false]) f) ∧
            Represents S (hashmapE C) n right (below (p ++ [true]) f)) ∧
        (hashmapSplit S data n p = .ok (left, right) →
          hashmapMerge S (hashmapE C) left right n p = .ok data)) ∧
      ∀ left right f g, Represents S (hashmapE C) n left f → Represents S (hashmapE C) n right g →
        (∀ key, f key ≠ none → p ++ [false] <+: key) →
        (∀ key, g key ≠ none → p ++ [true] <+: key) → ∀ data,
          hashmapMerge S (hashmapE C) left right n p = .ok data ↔
            Represents S (hashmapE C) n data fun key => (f key).or (g key) := by
  constructor
  · rintro data f ⟨t, ht, hget, hdata⟩ hkeys left right
    obtain rfl := funext hget
    obtain ⟨l, r, m, rfl, hl, hr, hm⟩ := ht.exists_join hp fun key v hv =>
      hkeys key (by rw [hv]; exact Option.some_ne_none v)
    have hwf : BitTrie.WFOpt n (join p l none) ∧ BitTrie.WFOpt n (join p none r) :=
      hm ▸ ⟨wfOpt_join hl wfOpt_none, wfOpt_join wfOpt_none hr⟩
    have hsplit := @hashmapSplit_join _ _ _ _ _ _ hm hlen _ _ hl hr _ hdata left right
    refine ⟨?_, fun h => ?_⟩
    · rw [hsplit, ← getOpt_side p false, ← getOpt_side p true]
      exact and_congr (represents_getOpt hwf.1).symm (represents_getOpt hwf.2).symm
    · obtain ⟨hleft, hright⟩ := hsplit.mp h
      exact (hashmapMerge_join hm hlen hl hr hleft hright).mpr hdata
  · rintro left right f g ⟨t, ht, hget, hleft⟩ ⟨u, hu, hget', hright⟩ hf hg data
    obtain rfl := funext hget
    obtain rfl := funext hget'
    obtain ⟨l, m, rfl, hl, hm⟩ := ht.exists_joinAt hp fun key v hv =>
      hf key (by rw [hv]; exact Option.some_ne_none v)
    obtain ⟨r, m', rfl, hr, hm'⟩ := hu.exists_joinAt hp fun key v hv =>
      hg key (by rw [hv]; exact Option.some_ne_none v)
    obtain rfl : m = m' := by omega
    have hwf : BitTrie.WFOpt n (join p l r) := hm ▸ wfOpt_join hl hr
    rw [hashmapMerge_join hm hlen hl hr hleft hright, ← represents_getOpt hwf, getOpt_join_eq_or]
    exact Iff.rfl

def wideLeaves : BitTrie (Slice TreeCell) :=
  .fork [] (.leaf [] ⟨List.replicate 1021 false, []⟩) (.leaf [] ⟨List.replicate 1021 false, []⟩)

def wideRoot : Option TreeCell :=
  (encodeOpt store (hashmapE TreeCell) 1 (some wideLeaves)).toOption.join

/-- The label of a half takes four bits. -/
theorem hashmapSplit_not_total : Represents store (hashmapE TreeCell) 1 wideRoot wideLeaves.get ∧
      (hashmapSplit store wideRoot 1 []).isOk = false := by
  have hok : (encodeOpt store (hashmapE TreeCell) 1 (some wideLeaves)).isOk = true := by
    decide +kernel
  obtain ⟨data, hdata⟩ := exists_of_isOk hok
  have hroot : wideRoot = data := by
    rw [wideRoot, hdata]
    rfl
  have hwf : BitTrie.WFOpt 1 (some wideLeaves) := wfOpt_some.mpr ⟨0, rfl, rfl, rfl⟩
  refine ⟨?_, by decide +kernel⟩
  rw [hroot]
  exact (represents_getOpt hwf).mpr hdata

def thinLeaves : BitTrie (Slice TreeCell) := .fork [] (.leaf [] ⟨[], []⟩) (.leaf [] ⟨[], []⟩)

theorem split_merge_one_bit :
    ∃ data left right, Represents store (hashmapE TreeCell) 1 (some data) thinLeaves.get ∧
      hashmapSplit store (some data) 1 [] = .ok (some left, some right) ∧
      hashmapMerge store (hashmapE TreeCell) (some left) (some right) 1 [] = .ok (some data) := by
  have hwf : BitTrie.WFOpt 1 (some thinLeaves) := wfOpt_some.mpr ⟨0, rfl, rfl, rfl⟩
  have hdata := (represents_getOpt hwf).mpr
    (rfl : encodeOpt store (hashmapE TreeCell) 1 (some thinLeaves) = _)
  refine ⟨_, _, _, hdata, rfl, ?_⟩
  exact (((split_merge_inverse store (by decide) Nat.one_pos).1 _ _ hdata
    fun key _ => List.nil_prefix) _ _).2 rfl

end Split

section Merge

variable {C Y : Type} {S : CellStore C} {A : Augmentable C Y} {n : ℕ}

variable {a b : Y}

/-- What is merged into one of two sides is merged into both together. -/
theorem Augmentable.Lawful.absorb (hA : A.Lawful) {x o y y' : Y} (ha : A.calcAug x o = .ok a)
    (hy' : A.calcAug x b = .ok y') (hy : A.calcAug y' o = .ok y) : A.calcAug a b = .ok y := by
  obtain ⟨z, hz, hbz⟩ := hA.assoc (hA.comm hy') hy
  have hza : z = a := Except.ok.inj (hz.symm.trans ha)
  rw [hza] at hbz
  exact hA.comm hbz

/-- Two pairs of sides, combined either way. -/
theorem Augmentable.Lawful.exchange (hA : A.Lawful) {al ar bl br yl yr y : Y}
    (ha : A.calcAug al ar = .ok a) (hb : A.calcAug bl br = .ok b) (hyl : A.calcAug al bl = .ok yl)
    (hyr : A.calcAug ar br = .ok yr) (hy : A.calcAug yl yr = .ok y) : A.calcAug a b = .ok y := by
  obtain ⟨z, hz, haz⟩ := hA.assoc hyl hy
  obtain ⟨v, hv, harv⟩ := hA.assoc hyr (hA.comm hz)
  have hvb : v = b := Except.ok.inj (hv.symm.trans (hA.comm hb))
  rw [hvb] at harv
  -- now `z` is what `ar` and `b` give, and `y` is what `al` and `z` give
  exact hA.absorb (hA.comm ha) harv (hA.comm haz)

variable {m : ℕ} {cell left right : C} {p : List Bool}

/-- A cell of a dictionary with its extra. -/
structure Augmented (S : CellStore C) (A : Augmentable C Y) (n : ℕ) (t : BitTrie (Slice C))
    (cell : C) (y : Y) : Prop where
  wf : t.WF n
  cell : encode S (hashmapAug S A) n t = .ok cell
  extra : extraOf A t = .ok y

/-- A cell of a dictionary with the extras of two dictionaries combined. -/
def Merged (S : CellStore C) (A : Augmentable C Y) (n : ℕ) (a b : Y) (cell : C) : Prop :=
  ∃ t, t.WF n ∧ encode S (hashmapAug S A) n t = .ok cell ∧
    ∃ y, A.calcAug a b = .ok y ∧ extraOf A t = .ok y

theorem merged_iff :
    Merged S A n a b cell ↔ ∃ t y, Augmented S A n t cell y ∧ A.calcAug a b = .ok y := by
  constructor
  · rintro ⟨t, ht, henc, y, hy, hextra⟩
    exact ⟨t, y, ⟨ht, henc, hextra⟩, hy⟩
  · rintro ⟨t, y, ⟨ht, henc, hextra⟩, hy⟩
    exact ⟨t, ht, henc, y, hy, hextra⟩

theorem Merged.comm (hA : A.Lawful) (h : Merged S A n a b cell) : Merged S A n b a cell := by
  obtain ⟨t, ht, henc, y, hy, hextra⟩ := h
  exact ⟨t, ht, henc, y, hA.comm hy, hextra⟩

theorem Merged.fork (hm : p.length + 1 + m = n) (hlen : n ≤ maxDataBits)
    {l r : BitTrie (Slice C)} (hl : Augmented S A m l left a) (hr : Augmented S A m r right b)
    (h : makeFork S (hashmapAug S A) p n left right false = .ok cell) : Merged S A n a b cell := by
  obtain ⟨extra, hextra, -⟩ := (makeFork_eq_ok hm).mp h
  obtain ⟨a', b', y, ha, hb, hy, -⟩ := forkExtra_eq_ok.mp hextra
  rw [findExtra_eq hl.wf (by omega) hl.cell, hl.extra] at ha
  rw [findExtra_eq hr.wf (by omega) hr.cell, hr.extra] at hb
  cases ha
  cases hb
  exact ⟨.fork p l r, ⟨m, hm, hl.wf, hr.wf⟩,
    (encode_fork hm).mpr ⟨left, right, hl.cell, hr.cell, h⟩, y, hy,
    extraOf_fork.mpr ⟨a, b, hl.extra, hr.extra, hy⟩⟩

variable {bit : Bool} {u t : BitTrie (Slice C)}

section

variable (hA : A.Lawful) (hm : p.length + 1 + m = n) (hlen : n ≤ maxDataBits)
include hA hm hlen

/-- The merged sides are given as `make_fork` has them: the side with the bit first. -/
theorem Merged.forkAt {c d : C} (ht : Augmented S A m t c a) (hu : Augmented S A m u d b)
    (h : makeFork S (hashmapAug S A) p n c d bit = .ok cell) : Merged S A n a b cell := by
  cases bit with
  | false => exact Merged.fork hm hlen ht hu h
  | true =>
    have hswap := (makeFork_swap (symmetric_hashmapAug hA)).mp h
    exact (Merged.fork hm hlen hu ht hswap).comm hA

/-- One dictionary is merged into a side of the other. -/
theorem Merged.descend {x o : Y} {data other : C} (hdata : Merged S A m x b data)
    (hu : Augmented S A m u other o) (ha : A.calcAug x o = .ok a)
    (hcell : makeFork S (hashmapAug S A) p n data other bit = .ok cell) :
    Merged S A n a b cell := by
  obtain ⟨t, y', ht, hy'⟩ := merged_iff.mp hdata
  obtain ⟨v, y, hv, hy⟩ := merged_iff.mp (Merged.forkAt hA hm hlen ht hu hcell)
  exact merged_iff.mpr ⟨v, y, hv, hA.absorb ha hy' hy⟩

end

variable {slice : Slice C}

theorem IsNode.below (ht : t.WF n) {x : List Bool} (hm : p.length + 1 + m = n)
    (hx : t.label = p ++ bit :: x) (hs : IsNode S (hashmapAug S A) n t slice)
    (ha : extraOf A t = .ok a) :
    ∃ u : BitTrie (Slice C), u.label = x ∧ u.WF m ∧ IsNode S (hashmapAug S A) m u slice ∧
      extraOf A u = .ok a := by
  have hlong : t.label = (p ++ [bit]) ++ x := by
    rw [hx, List.append_assoc, List.singleton_append]
  obtain ⟨u, k, rfl, hlabel, hu, hk⟩ := ht.exists_prepend hlong
  obtain rfl : k = m := by
    rw [List.length_append, List.length_singleton] at hk
    omega
  rw [isNode_prepend hk] at hs
  rw [extraOf_prepend] at ha
  exact ⟨u, hlabel, hu, hs, ha⟩

/-- A round of the loop that descends: the label of the second goes on past the fork of
the first. -/
theorem Merged.into (hA : A.Lawful) (hlen : n ≤ maxDataBits) (ht : t.WF n) (hu : u.WF n)
    (hm : t.label.length + 1 + m = n) {x : List Bool} (hx : u.label = t.label ++ bit :: x)
    {slice1 slice2 : Slice C} (hs1 : IsNode S (hashmapAug S A) n t slice1)
    (hs2 : IsNode S (hashmapAug S A) n u slice2) (ha : extraOf A t = .ok a)
    (hb : extraOf A u = .ok b) {next other data : C} {label : List Bool}
    (hnext : slice1.reference bit.toNat = .ok next) (hload : loadNode S next m = .ok (label, slice))
    (hdata : ∀ v w : BitTrie (Slice C), v.WF m → w.WF m → v.label = label → w.label = x →
      IsNode S (hashmapAug S A) m v slice → IsNode S (hashmapAug S A) m w slice2 →
      ∀ c, extraOf A v = .ok c → extraOf A w = .ok b → Merged S A m c b data)
    (hother : slice1.reference (1 - bit.toNat) = .ok other)
    (hcell : makeFork S (hashmapAug S A) t.label n data other bit = .ok cell) :
    Merged S A n a b cell := by
  obtain ⟨l, r, hfork⟩ := ht.eq_fork (by omega)
  rw [hfork] at ht hs1 ha
  obtain ⟨hl, hr⟩ := ht.of_fork hm
  obtain ⟨k, left, right, extra, hk, hleft, hright, -, rfl⟩ := hs1
  obtain rfl : k = m := by omega
  rw [reference_side] at hnext
  rw [reference_other] at hother
  cases hnext
  cases hother
  obtain ⟨w, hwlabel, hw, hwnode, hwextra⟩ := hs2.below hu hm hx hb
  have hv := BitTrie.WF.side hl hr bit
  obtain ⟨slice', hslice', hload', -⟩ := exists_isNode hv (by omega) (encode_child hleft hright bit)
  rw [hload'] at hload
  cases hload
  have hside := hdata _ w hv hw rfl hwlabel hslice' hwnode
  obtain ⟨al, ar, hal, har, hlr⟩ := extraOf_fork.mp ha
  cases bit with
  | false => exact (hside al hal hwextra).descend hA hm hlen ⟨hr, hright, har⟩ hlr hcell
  | true => exact (hside ar har hwextra).descend hA hm hlen ⟨hl, hleft, hal⟩ (hA.comm hlr) hcell

theorem IsNode.load_sides (ht : t.WF n) (hlen : n ≤ maxDataBits) (hm : t.label.length + 1 + m = n)
    (hs : IsNode S (hashmapAug S A) n t slice) (ha : extraOf A t = .ok a) :
    ∃ l r al ar, extraOf A l = .ok al ∧ extraOf A r = .ok ar ∧ A.calcAug al ar = .ok a ∧
      (l.WF m ∧ ∃ cell data, slice.reference 0 = .ok cell ∧
        loadNode S cell m = .ok (l.label, data) ∧ IsNode S (hashmapAug S A) m l data) ∧
      (r.WF m ∧ ∃ cell data, slice.reference 1 = .ok cell ∧
        loadNode S cell m = .ok (r.label, data) ∧ IsNode S (hashmapAug S A) m r data) := by
  obtain ⟨l, r, hfork⟩ := ht.eq_fork (by omega)
  rw [hfork] at ht hs ha
  obtain ⟨hl, hr⟩ := ht.of_fork hm
  obtain ⟨al, ar, hal, har, hlr⟩ := extraOf_fork.mp ha
  obtain ⟨k, left, right, extra, hk, hleft, hright, -, rfl⟩ := hs
  obtain rfl : k = m := by omega
  obtain ⟨ldata, hldata, hlload, -⟩ := exists_isNode hl (by omega) hleft
  obtain ⟨rdata, hrdata, hrload, -⟩ := exists_isNode hr (by omega) hright
  exact ⟨l, r, al, ar, hal, har, hlr, ⟨hl, left, ldata, reference_zero, hlload, hldata⟩,
    hr, right, rdata, reference_one, hrload, hrdata⟩

/-- Merging the cells of two dictionaries gives those of one trie, whose extra combines
theirs. The induction is on the rounds of the loop; a round looks at one fork. -/
theorem mergeSlices_of_ok (hA : A.Lawful) {key : List Bool} {fuel : ℕ} {t1 t2 : BitTrie (Slice C)}
    (h1 : t1.WF n) (h2 : t2.WF n) (hlen : n ≤ maxDataBits) {slice1 slice2 : Slice C}
    (hs1 : IsNode S (hashmapAug S A) n t1 slice1) (hs2 : IsNode S (hashmapAug S A) n t2 slice2)
    (ha : extraOf A t1 = .ok a) (hb : extraOf A t2 = .ok b)
    (h : mergeSlices S (hashmapAug S A) key fuel t1.label slice1 t2.label slice2 n = .ok cell) :
    Merged S A n a b cell := by
  induction fuel generalizing n t1 t2 slice1 slice2 a b cell with
  | zero => cases h
  | succ fuel ih =>
    rcases prefix_cases t1.label t2.label with ⟨x, hx⟩ | ⟨bit, x, hx⟩ | ⟨p, bit, x, y, hx, hy⟩
    · cases x with
      | nil =>
        -- two forks with the same label
        rw [List.append_nil] at hx
        rw [mergeSlices, hx, commonPrefix_self] at h
        obtain ⟨m, hm, h⟩ := bind_eq_ok.mp h
        rw [present_eq_ok, checkedSub_eq_some] at hm
        obtain ⟨l1, r1, al, ar, hal, har, haa, ⟨hl1, cl1, dl1, hcl1, hdl1, hnl1⟩,
          hr1, cr1, dr1, hcr1, hdr1, hnr1⟩ := hs1.load_sides h1 hlen hm ha
        obtain ⟨l2, r2, bl, br, hbl, hbr, hbb, ⟨hl2, cl2, dl2, hcl2, hdl2, hnl2⟩,
          hr2, cr2, dr2, hcr2, hdr2, hnr2⟩ :=
          hs2.load_sides h2 hlen (hx ▸ hm) hb
        simp only [hcl1, hcl2, hdl1, hdl2, hcr1, hcr2, hdr1, hdr2, ok_bind, bind_eq_ok] at h
        obtain ⟨left, hleft, right, hright, hcell⟩ := h
        obtain ⟨l, yl, hl, hyl⟩ :=
          merged_iff.mp (ih hl1 hl2 (by omega) hnl1 hnl2 hal hbl hleft)
        obtain ⟨r, yr, hr, hyr⟩ :=
          merged_iff.mp (ih hr1 hr2 (by omega) hnr1 hnr2 har hbr hright)
        obtain ⟨u, y, hu, hy⟩ := merged_iff.mp (Merged.fork hm hlen hl hr hcell)
        exact merged_iff.mpr ⟨u, y, hu, hA.exchange haa hbb hyl hyr hy⟩
      | cons bit x =>
        -- the second goes into a side of the first
        simp only [mergeSlices, hx, commonPrefix_self_append, bind_eq_ok, present_eq_ok,
          checkedSub_eq_some, Prod.exists] at h
        obtain ⟨m, hm, next, hnext, label, slice, hload, data, hdata, other, hother, hcell⟩ := h
        apply Merged.into hA hlen h1 h2 hm hx hs1 hs2 ha hb hnext hload _ hother hcell
        intro v w hv hw hvlabel hwlabel hvslice hwslice c hc hbw
        rw [← hvlabel, ← hwlabel] at hdata
        exact ih hv hw (by omega) hvslice hwslice hc hbw hdata
    · -- the first goes into a side of the second
      simp only [mergeSlices, hx, commonPrefix_append_self, bind_eq_ok, present_eq_ok,
        checkedSub_eq_some, Prod.exists] at h
      obtain ⟨m, hm, next, hnext, label, slice, hload, data, hdata, other, hother, hcell⟩ := h
      apply Merged.comm hA
      apply Merged.into hA hlen h2 h1 hm hx hs2 hs1 hb ha hnext hload _ hother hcell
      intro v w hv hw hvlabel hwlabel hvslice hwslice c hc haw
      rw [← hvlabel, ← hwlabel] at hdata
      exact (ih hw hv (by omega) hwslice hvslice haw hc hdata).comm hA
    · -- the labels part
      rw [mergeSlices, hx, hy, commonPrefix_diverge] at h
      obtain ⟨m, hm, h⟩ := bind_eq_ok.mp h
      rw [present_eq_ok, checkedSub_eq_some] at hm
      obtain ⟨u, hul, hu, hunode, huextra⟩ := hs1.below h1 hm hx ha
      obtain ⟨w, hwl, hw, hwnode, hwextra⟩ := hs2.below h2 hm hy hb
      rw [← hul, ← hwl] at h
      cases bit with
      | false =>
        simp only [Bool.false_and, Bool.not_false, if_neg Bool.false_ne_true,
          bind_eq_ok, hunode.finalizeNode_iff, hwnode.finalizeNode_iff] at h
        obtain ⟨_, -, left, hleft, right, hright, hcell⟩ := h
        exact Merged.fork hm hlen ⟨hu, hleft, huextra⟩ ⟨hw, hright, hwextra⟩ hcell
      | true =>
        simp only [Bool.true_and, Bool.not_true, Bool.not_false, if_true,
          bind_eq_ok, hunode.finalizeNode_iff, hwnode.finalizeNode_iff] at h
        obtain ⟨_, -, left, hleft, right, hright, hcell⟩ := h
        exact (Merged.fork hm hlen ⟨hw, hleft, hwextra⟩ ⟨hu, hright, huextra⟩ hcell).comm hA

theorem mergeNodes_of_ok (hA : A.Lawful) (hlen : n ≤ maxDataBits) {t1 t2 : BitTrie (Slice C)}
    (h1 : t1.WF n) (h2 : t2.WF n) {cell1 cell2 : C}
    (hcell1 : encode S (hashmapAug S A) n t1 = .ok cell1)
    (hcell2 : encode S (hashmapAug S A) n t2 = .ok cell2) (ha : extraOf A t1 = .ok a)
    (hb : extraOf A t2 = .ok b) {key : List Bool}
    (h : mergeNodes S (hashmapAug S A) cell1 cell2 n key = .ok cell) : Merged S A n a b cell := by
  obtain ⟨slice1, hs1, hload1, -⟩ := exists_isNode h1 hlen hcell1
  obtain ⟨slice2, hs2, hload2, -⟩ := exists_isNode h2 hlen hcell2
  simp only [mergeNodes, hload1, hload2, ok_bind] at h
  exact mergeSlices_of_ok hA h1 h2 hlen hs1 hs2 ha hb h

end Merge

end TonNode.Hashmap
