import TonNode.HashmapMultiset

/-! Augmented dictionaries. Every leaf begins with an extra, and every fork stores what
`calc` makes of the extras of its sides. The extra of a node depends only on the trie
below it, so that insertion, which combines extras along its path, and the building of
forks, which reads them from the sides, store the same. -/
namespace TonNode.Hashmap

open Block Checked

instance {C : Type} : Append (Slice C) := ⟨fun a b => ⟨a.bits ++ b.bits, a.refs ++ b.refs⟩⟩

theorem append_empty {C : Type} (s : Slice C) : s ++ (⟨[], []⟩ : Slice C) = s := by
  obtain ⟨bits, refs⟩ := s
  show (⟨bits ++ [], refs ++ []⟩ : Slice C) = ⟨bits, refs⟩
  rw [List.append_nil, List.append_nil]

structure Augmentable (C Y : Type) where
  calcAug : Y → Y → Checked Y
  default : Y
  writeTo : Y → Slice C
  constructFrom : Slice C → Checked (Y × Slice C)
  constructFrom_writeTo : ∀ y s, constructFrom (writeTo y ++ s) = .ok (y, s)

/-- Combination is commutative and associative, also where it can fail. -/
structure Augmentable.Lawful {C Y : Type} (A : Augmentable C Y) : Prop where
  comm : ∀ {a b c}, A.calcAug a b = .ok c → A.calcAug b a = .ok c
  assoc : ∀ {a b c x y}, A.calcAug a b = .ok x → A.calcAug x c = .ok y →
    ∃ z, A.calcAug b c = .ok z ∧ A.calcAug a z = .ok y

section Model

variable {C Y : Type} (S : CellStore C) (A : Augmentable C Y)

def skipSides (label : List Bool) (bitLen : ℕ) (slice : Slice C) : Checked (Slice C) :=
  if label.length = bitLen then pure slice
  else do
    require (2 ≤ slice.refs.length) "CellUnderflow"
    pure ⟨slice.bits, slice.refs.drop 2⟩

def findExtra (cell : C) (bitLen : ℕ) : Checked Y := do
  let (label, slice) ← readNode S cell bitLen
  let slice ← skipSides label bitLen slice
  let (extra, _) ← A.constructFrom slice
  pure extra

def hashmapAug : HashmapType C where
  forkExtra := fun nextBitLen left right => do
    let nextBitLen ← present nextBitLen "fail too short label"
    let aug ← findExtra S A left nextBitLen
    let other ← findExtra S A right nextBitLen
    let aug ← A.calcAug aug other
    pure (A.writeTo aug)

def combine (extra : Y) (leaf : Slice C) : Slice C := A.writeTo extra ++ leaf

def sliceEdgeAug (slice : Slice C) (pre : List Bool) (labelBit : Bool) (label : List Bool)
    (bitLen : ℕ) (key : List Bool) (leaf : Slice C) (extra : Y) : Checked (Y × C) := do
  let length := bitLen - 1 - pre.length
  let existingCell ← finalizeNode S label length slice
  let slice ← skipSides label length slice
  let (forkExtra, _) ← A.constructFrom slice
  let forkExtra ← A.calcAug forkExtra extra
  let anotherCell ← finalizeNode S key length (combine A extra leaf)
  let sides := if labelBit then [anotherCell, existingCell] else [existingCell, anotherCell]
  let cell ← finalizeNode S pre bitLen (⟨[], sides⟩ ++ A.writeTo forkExtra)
  pure (forkExtra, cell)

/-- `put_to_node` and `put_to_fork`: the value that was there, the extra of the node,
and its cell. An empty label is a label that ends before the key does. -/
def putToNodeAug (leaf : Slice C) (extra : Y) :
    ℕ → C → ℕ → List Bool → Checked (Option (Slice C) × Y × C)
  | 0, _, _, _ => reject "the key has no more bits"
  | fuel + 1, cell, bitLen, key => do
    let (label, slice) ← readNode S cell bitLen
    if label = key then do
      let (_, old) ← A.constructFrom slice
      let cell ← finalizeNode S key bitLen (combine A extra leaf)
      pure (some old, extra, cell)
    else
      match commonPrefix label key with
      | (pre, labelBit :: label, _ :: key) => do
        let (extra, cell) ← sliceEdgeAug S A slice pre labelBit label bitLen key leaf extra
        pure (none, extra, cell)
      | (pre, [], bit :: key) => do
        require (2 ≤ slice.refs.length) "slice must contain 2 or more references"
        let references := slice.refs.take 2
        let other ← present references[1 - bit.toNat]? "CellUnderflow"
        let child ← present references[bit.toNat]? "CellUnderflow"
        let nextBitLen := bitLen - pre.length - 1
        let forkExtra ← findExtra S A other nextBitLen
        let (old, extra, child) ← putToNodeAug leaf extra fuel child nextBitLen key
        let forkExtra ← A.calcAug forkExtra extra
        let cell ← finalizeNode S label bitLen
          (⟨[], references.set bit.toNat child⟩ ++ A.writeTo forkExtra)
        pure (old, forkExtra, cell)
      | _ => reject "FatalError"

end Model

section Extra

variable {C Y : Type} {S : CellStore C} {A : Augmentable C Y} {n : ℕ}

/-- The extra of a trie: that of a leaf is stored before its value. -/
def extraOf (A : Augmentable C Y) : BitTrie (Slice C) → Checked Y
  | .leaf _ value => do
    let (extra, _) ← A.constructFrom value
    pure extra
  | .fork _ l r => do
    let aug ← extraOf A l
    let other ← extraOf A r
    A.calcAug aug other

variable {y : Y}

theorem extraOf_leaf {label : List Bool} {value : Slice C} :
    extraOf A (.leaf label value) = .ok y ↔ ∃ rest, A.constructFrom value = .ok (y, rest) := by
  simp only [extraOf, bind_eq_ok, pure_eq_ok, Prod.exists]
  constructor
  · rintro ⟨_, rest, h, rfl⟩
    exact ⟨rest, h⟩
  · rintro ⟨rest, h⟩
    exact ⟨y, rest, h, rfl⟩

theorem extraOf_fork {label : List Bool} {l r : BitTrie (Slice C)} :
    extraOf A (.fork label l r) = .ok y ↔
      ∃ a b, extraOf A l = .ok a ∧ extraOf A r = .ok b ∧ A.calcAug a b = .ok y := by
  simp only [extraOf, bind_eq_ok]
  constructor
  · rintro ⟨a, ha, b, hb, hy⟩
    exact ⟨a, b, ha, hb, hy⟩
  · rintro ⟨a, b, ha, hb, hy⟩
    exact ⟨a, ha, b, hb, hy⟩

theorem extraOf_prepend (pre : List Bool) (t : BitTrie (Slice C)) :
    extraOf A (t.prepend pre) = extraOf A t := by
  cases t with
  | leaf label value | fork label l r => rfl

theorem constructFrom_writeTo_self (y : Y) : A.constructFrom (A.writeTo y) = .ok (y, ⟨[], []⟩) := by
  have h := A.constructFrom_writeTo y ⟨[], []⟩
  rw [append_empty] at h
  exact h

theorem forkExtra_eq_ok {m : ℕ} {left right : C} {extra : Slice C} :
    (hashmapAug S A).forkExtra (some m) left right = .ok extra ↔
      ∃ a b y, findExtra S A left m = .ok a ∧ findExtra S A right m = .ok b ∧
        A.calcAug a b = .ok y ∧ extra = A.writeTo y := by
  simp only [hashmapAug, bind_eq_ok, present_eq_ok, Option.some.injEq, exists_eq_left', pure_eq_ok]
  constructor
  · rintro ⟨a, ha, b, hb, y, hy, rfl⟩
    exact ⟨a, b, y, ha, hb, hy, rfl⟩
  · rintro ⟨a, b, y, ha, hb, hy, rfl⟩
    exact ⟨a, ha, b, hb, y, hy, rfl⟩

theorem symmetric_hashmapAug (hA : A.Lawful) : (hashmapAug S A).Symmetric := by
  intro nextBitLen left right extra h
  simp only [hashmapAug, bind_eq_ok, present_eq_ok, pure_eq_ok] at h ⊢
  obtain ⟨m, hm, a, ha, b, hb, y, hy, rfl⟩ := h
  exact ⟨m, hm, b, hb, a, ha, y, hA.comm hy, rfl⟩

variable {t : BitTrie (Slice C)}

theorem IsNode.constructFrom (ht : t.WF n) {data : Slice C} (h : IsNode S (hashmapAug S A) n t data)
    (hfind : ∀ (u : BitTrie (Slice C)) (m : ℕ) (c : C), m < n → u.WF m →
      encode S (hashmapAug S A) m u = .ok c → findExtra S A c m = extraOf A u) :
    (do
      let slice ← skipSides t.label n data
      let (extra, _) ← A.constructFrom slice
      pure extra) = extraOf A t := by
  cases t with
  | leaf label value =>
    have hlabel : label.length = n := ht
    rw [show data = value from h, BitTrie.label, skipSides, if_pos hlabel]
    rfl
  | fork label l r =>
    obtain ⟨m, left, right, extra, hm, hleft, hright, hextra, rfl⟩ := h
    obtain ⟨m', hm', hl, hr⟩ := ht
    obtain rfl : m' = m := by omega
    obtain ⟨a, b, y, ha, hb, hy, rfl⟩ := forkExtra_eq_ok.mp hextra
    rw [hfind l m' left (by omega) hl hleft] at ha
    rw [hfind r m' right (by omega) hr hright] at hb
    have hy' : extraOf A (.fork label l r) = .ok y := extraOf_fork.mpr ⟨a, b, ha, hb, hy⟩
    have hskip : skipSides label n ⟨(A.writeTo y).bits, left :: right :: (A.writeTo y).refs⟩ =
        .ok (A.writeTo y) := by
      rw [skipSides, if_neg (by omega)]
      rfl
    rw [hy', BitTrie.label, hskip, ok_bind, constructFrom_writeTo_self]
    rfl

theorem findExtra_eq (ht : t.WF n) (hlen : n ≤ maxDataBits) {cell : C}
    (hcell : encode S (hashmapAug S A) n t = .ok cell) : findExtra S A cell n = extraOf A t := by
  induction n using Nat.strong_induction_on generalizing t cell with
  | _ n ih =>
    obtain ⟨data, hdata, -, hread⟩ := exists_isNode ht hlen hcell
    rw [findExtra, hread, ok_bind]
    apply hdata.constructFrom ht
    intro u m c hm hu hc
    exact ih m hm hu (by omega) hc

theorem IsNode.extra_eq (ht : t.WF n) (hlen : n ≤ maxDataBits) {data : Slice C}
    (h : IsNode S (hashmapAug S A) n t data) : (do
      let slice ← skipSides t.label n data
      let (extra, _) ← A.constructFrom slice
      pure extra) = extraOf A t := by
  apply h.constructFrom ht
  intro u m c hm hu hc
  exact findExtra_eq hu (by omega) hc

theorem encode_forkAt_of_extra (hA : A.Lawful) {p : List Bool} {m : ℕ} (hm : p.length + 1 + m = n)
    (hlen : n ≤ maxDataBits) {bit : Bool} {u : BitTrie (Slice C)} (ht : t.WF m) (hu : u.WF m)
    {c d : C} (hc : encode S (hashmapAug S A) m t = .ok c)
    (hd : encode S (hashmapAug S A) m u = .ok d) {a b : Y} (ha : extraOf A t = .ok a)
    (hb : extraOf A u = .ok b) (hy : A.calcAug a b = .ok y) {cell : C}
    (hcell : finalizeNode S p n (⟨[], if bit then [d, c] else [c, d]⟩ ++ A.writeTo y) = .ok cell) :
    encode S (hashmapAug S A) n (BitTrie.forkAt p bit t u) = .ok cell ∧
      extraOf A (BitTrie.forkAt p bit t u) = .ok y := by
  constructor
  · rw [encode_forkAt (symmetric_hashmapAug hA) hm]
    refine ⟨c, d, hc, hd, (makeFork_eq_ok hm).mpr ⟨A.writeTo y, ?_, hcell⟩⟩
    rw [← findExtra_eq ht (by omega) hc] at ha
    rw [← findExtra_eq hu (by omega) hd] at hb
    exact forkExtra_eq_ok.mpr ⟨a, b, y, ha, hb, hy, rfl⟩
  · cases bit with
    | false => exact extraOf_fork.mpr ⟨a, b, ha, hb, hy⟩
    | true => exact extraOf_fork.mpr ⟨b, a, hb, ha, hA.comm hy⟩

end Extra

section Put

variable {C Y : Type} {S : CellStore C} {A : Augmentable C Y} {n : ℕ} {leaf : Slice C} {extra : Y}

theorem extraOf_combine (label : List Bool) :
    extraOf A (.leaf label (combine A extra leaf)) = .ok extra :=
  extraOf_leaf.mpr ⟨leaf, A.constructFrom_writeTo extra leaf⟩

theorem sliceEdgeAug_of_ok (hA : A.Lawful) {p key : List Bool} {b : Bool} {m : ℕ}
    (hm : p.length + 1 + m = n) (hlen : n ≤ maxDataBits) {u : BitTrie (Slice C)} (hu : u.WF m)
    {data : Slice C} (hdata : IsNode S (hashmapAug S A) m u data) (hkey : key.length = m)
    {y : Y} {cell : C} (h : sliceEdgeAug S A data p b u.label n key leaf extra = .ok (y, cell)) :
    encode S (hashmapAug S A) n (BitTrie.forkAt p b u (.leaf key (combine A extra leaf))) =
        .ok cell ∧ extraOf A (BitTrie.forkAt p b u (.leaf key (combine A extra leaf))) = .ok y := by
  have hroom : n - 1 - p.length = m := by omega
  simp only [sliceEdgeAug, hroom, bind_eq_ok, Prod.exists, pure_eq_ok, Prod.mk.injEq] at h
  obtain ⟨existing, hexisting, slice, hslice, a, rest, ha, y', hy, another, hanother, cell', hcell,
    rfl, rfl⟩ := h
  have hextra : extraOf A u = .ok a := by
    rw [← hdata.extra_eq hu (by omega), hslice, ok_bind, ha]
    rfl
  have hleaf : BitTrie.WF m (.leaf key (combine A extra leaf)) := hkey
  exact encode_forkAt_of_extra hA hm hlen hu hleaf (hdata.finalizeNode_iff.mp hexisting) hanother
    hextra (extraOf_combine key) hy hcell

/-- Setting a value in the cells of an augmented dictionary gives the cells of the trie
with it, and returns its extra. -/
theorem putToNodeAug_of_ok (hA : A.Lawful) {t : BitTrie (Slice C)} (ht : t.WF n)
    (hlen : n ≤ maxDataBits) {cell : C} (hcell : encode S (hashmapAug S A) n t = .ok cell)
    {key : List Bool} (hkey : key.length = n) {fuel : ℕ} {old : Option (Slice C)} {y : Y}
    {cell' : C} (h : putToNodeAug S A leaf extra fuel cell n key = .ok (old, y, cell')) :
    encode S (hashmapAug S A) n (t.put key (combine A extra leaf)) = .ok cell' ∧
      extraOf A (t.put key (combine A extra leaf)) = .ok y := by
  induction fuel generalizing t n cell key old y cell' with
  | zero => cases h
  | succ fuel ih =>
    obtain ⟨data, hdata, -, hread⟩ := exists_isNode ht hlen hcell
    simp only [putToNodeAug, hread, ok_bind] at h
    have hlabel := ht.length_label_le
    rcases @prefix_cases_of_length t.label key (by omega) with ⟨x, rfl⟩ | ⟨p, b, x, z, hx, rfl⟩
    · cases x with
      | nil =>
        -- the leaf is replaced
        rw [List.append_nil] at hkey h ⊢
        obtain ⟨value, hleaf⟩ := ht.eq_leaf hkey
        simp only [if_true, bind_eq_ok, Prod.exists, pure_eq_ok, Prod.mk.injEq] at h
        obtain ⟨_, _, -, c, hc, rfl, rfl, rfl⟩ := h
        rw [hleaf, BitTrie.label, BitTrie.put_leaf_same]
        exact ⟨hc, extraOf_combine _⟩
      | cons bit rest =>
        rw [List.length_append, List.length_cons] at hkey
        obtain ⟨l, r, hfork⟩ := ht.eq_fork (by omega)
        rw [hfork] at ht hdata
        obtain ⟨m, left, right, e, hm, hleft, hright, -, rfl⟩ := hdata
        obtain ⟨m', hm', hl, hr⟩ := ht
        obtain rfl : m' = m := by omega
        have hne : ¬ t.label = t.label ++ bit :: rest := by simp
        have hroom : n - t.label.length - 1 = m' := by omega
        have hside : [left, right][bit.toNat]? = some (if bit then right else left) := by
          cases bit with
          | false | true => rfl
        have hother : [left, right][1 - bit.toNat]? = some (if bit then left else right) := by
          cases bit with
          | false | true => rfl
        simp only [if_neg hne, commonPrefix_self_append, bind_eq_ok, require_eq_ok, present_eq_ok,
          List.take_succ_cons, List.take_zero, hside, hother, Option.some.injEq, exists_eq_left',
          hroom, Prod.exists, pure_eq_ok, Prod.mk.injEq] at h
        obtain ⟨-, -, a, ha, old', y', child, hchild, y'', hy, c, hc, rfl, rfl, rfl⟩ := h
        have hsidewf := BitTrie.WF.side hl hr bit
        have hotherwf := BitTrie.WF.side hl hr (!bit)
        have hsidecell : encode S (hashmapAug S A) m' (BitTrie.child l r bit) =
            .ok (if bit then right else left) := by
          cases bit with
          | false => exact hleft
          | true => exact hright
        have hothercell : encode S (hashmapAug S A) m' (BitTrie.child l r !bit) =
            .ok (if bit then left else right) := by
          cases bit with
          | false => exact hright
          | true => exact hleft
        obtain ⟨hputcell, hputextra⟩ := ih hsidewf (by omega) hsidecell (by omega) hchild
        rw [findExtra_eq hotherwf (by omega) hothercell] at ha
        rw [hfork, BitTrie.label, BitTrie.put_fork_append]
        apply encode_forkAt_of_extra hA hm' hlen (hsidewf.put (by omega) _) hotherwf hputcell
          hothercell hputextra ha (hA.comm hy)
        rw [← hc]
        cases bit with
        | false | true => rfl
    · -- the key leaves the edge
      obtain ⟨u, m, hut, hux, hu, hm⟩ := ht.exists_prepend (hx.trans (List.append_cons p b x))
      have hdata' := (isNode_prepend hm).mp (hut ▸ hdata)
      rw [List.length_append, List.length_singleton] at hm
      rw [List.length_append, List.length_cons] at hkey
      have hne : ¬ p ++ b :: x = p ++ (!b) :: z := append_diverge_ne p x z b
      simp only [hx, if_neg hne, commonPrefix_diverge, bind_eq_ok, Prod.exists, pure_eq_ok,
        Prod.mk.injEq] at h
      obtain ⟨_, _, hedge, rfl, rfl, rfl⟩ := h
      rw [← hux] at hedge
      rw [hut, BitTrie.put_prepend_diverge]
      exact sliceEdgeAug_of_ok hA hm hlen hu hdata' (by omega) hedge

end Put

end TonNode.Hashmap
