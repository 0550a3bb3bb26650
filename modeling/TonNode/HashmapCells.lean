import TonNode.BitTrie
import TonNode.HashmapLabel

/-! Dictionaries as trees of cells. A node is a label with what follows it: the
value of a leaf, or the references to the two sides of a fork, after which an
augmented dictionary stores its extra. What the cells of a trie are is fixed by the
trie; the operations on cells are compared with those on tries. -/
namespace TonNode.Hashmap

open Block Checked
open BitTrie (join wfOpt_some)

variable (C : Type)

structure Slice where
  bits : List Bool
  refs : List C
deriving DecidableEq

def maxReferencesCount : ℕ := 4

def maxSafeDepth : ℕ := 2048

/-- Cells as dictionaries use them: ordinary cells are finalized and loaded again.
Only its size and the depth of its references, at any level, can forbid one. -/
structure CellStore where
  finalize : Slice C → Checked C
  load : C → Slice C
  isPruned : C → Bool
  depth : C → ℕ
  load_finalize : ∀ {s c}, finalize s = .ok c → load c = s
  isPruned_finalize : ∀ {s c}, finalize s = .ok c → isPruned c = false
  exists_finalize : ∀ s, (∃ c, finalize s = .ok c) ↔
    s.bits.length ≤ maxDataBits ∧ s.refs.length ≤ maxReferencesCount ∧
      ∀ r ∈ s.refs, depth r < maxSafeDepth
  depth_finalize : ∀ {s c d}, finalize s = .ok c → (∀ r ∈ s.refs, depth r < d) → depth c ≤ d

/-- What the kinds of dictionaries differ in: what `make_fork` writes after the two
references, from the length of the keys below, if the label leaves any, and the
sides. -/
structure HashmapType where
  forkExtra : Option ℕ → C → C → Checked (Slice C)

def hashmapE : HashmapType C where
  forkExtra := fun _ _ _ => pure ⟨[], []⟩

section Model

variable {C : Type} (S : CellStore C) (T : HashmapType C) (key : List Bool)

def makeCellWithLabelAndData (maxLen : ℕ) (data : Slice C) : Checked (Slice C) := do
  let label ← hmLabel key maxLen
  let bits := label ++ data.bits
  require (bits.length ≤ maxDataBits ∧ data.refs.length ≤ maxReferencesCount) "CellOverflow"
  pure ⟨bits, data.refs⟩

def finalizeNode (maxLen : ℕ) (data : Slice C) : Checked C := do
  let builder ← makeCellWithLabelAndData key maxLen data
  S.finalize builder

def loadNode (cell : C) (bitLen : ℕ) : Checked (List Bool × Slice C) := do
  let slice := S.load cell
  let (label, bits) ← readLabel slice.bits bitLen
  pure (label, ⟨bits, slice.refs⟩)

def readNode (cell : C) (bitLen : ℕ) : Checked (List Bool × Slice C) := do
  require (¬ S.isPruned cell) "PrunedCellAccess"
  loadNode S cell bitLen

def Slice.reference (s : Slice C) (index : ℕ) : Checked C := present s.refs[index]? "CellUnderflow"

def checkedSub (a b : ℕ) : Option ℕ := if b ≤ a then some (a - b) else none

def isFork (s : Slice C) : Bool := 1 < s.refs.length

def makeFork (bitLen : ℕ) (left right : C) (swap : Bool) : Checked C := do
  let extra ← T.forkExtra (checkedSub bitLen (key.length + 1)) left right
  let sides := if swap then [right, left] else [left, right]
  finalizeNode S key bitLen ⟨extra.bits, sides ++ extra.refs⟩

def makeEdge (bitLen : ℕ) (isLeft : Bool) (next : C) : Checked C := do
  let nextBitLen ← present (checkedSub bitLen (key.length + 1)) "CellUnderflow"
  let (label, data) ← loadNode S next nextBitLen
  let label := key ++ (!isLeft) :: label
  require (label.length ≤ maxDataBits) "CellOverflow"
  finalizeNode S label bitLen data

def makeSubtreeCell (label : List Bool) (bitLen : ℕ) : Option C → Option C → Checked (Option C)
  | none, none => pure none
  | some left, some right => do
    let cell ← makeFork S T label bitLen left right false
    pure (some cell)
  | some child, none => do
    let cell ← makeEdge S label bitLen true child
    pure (some cell)
  | none, some child => do
    let cell ← makeEdge S label bitLen false child
    pure (some cell)

def encode : ℕ → BitTrie (Slice C) → Checked C
  | bitLen, .leaf label value => finalizeNode S label bitLen value
  | bitLen, .fork label l r => do
    let left ← encode (bitLen - label.length - 1) l
    let right ← encode (bitLen - label.length - 1) r
    makeFork S T label bitLen left right false

def encodeOpt (bitLen : ℕ) : Option (BitTrie (Slice C)) → Checked (Option C)
  | none => pure none
  | some t => do
    let cell ← encode S T bitLen t
    pure (some cell)

end Model

section Nodes

variable {C : Type} {S : CellStore C} {T : HashmapType C} {bitLen : ℕ}

variable {key : List Bool} {data : Slice C} {cell : C}

theorem finalizeNode_eq_ok : finalizeNode S key bitLen data = .ok cell ↔
      ((labelBits key bitLen ++ data.bits).length ≤ maxDataBits ∧
        data.refs.length ≤ maxReferencesCount) ∧
      S.finalize ⟨labelBits key bitLen ++ data.bits, data.refs⟩ = .ok cell := by
  simp only [finalizeNode, makeCellWithLabelAndData, bind_eq_ok, require_eq_ok, pure_eq_ok,
    hmLabel_eq_ok]
  constructor
  · rintro ⟨_, ⟨_, ⟨-, rfl⟩, -, hfits, rfl⟩, hcell⟩
    exact ⟨hfits, hcell⟩
  · rintro ⟨hfits, hcell⟩
    have hlabel : (labelBits key bitLen).length ≤ maxDataBits := by
      have hlen := hfits.1
      rw [List.length_append] at hlen
      omega
    exact ⟨_, ⟨_, ⟨hlabel, rfl⟩, (), hfits, rfl⟩, hcell⟩

theorem exists_finalizeNode : (∃ cell, finalizeNode S key bitLen data = .ok cell) ↔
      (labelBits key bitLen ++ data.bits).length ≤ maxDataBits ∧
        data.refs.length ≤ maxReferencesCount ∧ ∀ r ∈ data.refs, S.depth r < maxSafeDepth := by
  simp only [finalizeNode_eq_ok]
  constructor
  · rintro ⟨cell, -, hcell⟩
    exact (S.exists_finalize _).mp ⟨cell, hcell⟩
  · intro hfits
    obtain ⟨cell, hcell⟩ := (S.exists_finalize ⟨_, _⟩).mpr hfits
    exact ⟨cell, ⟨hfits.1, hfits.2.1⟩, hcell⟩

section

variable (h : finalizeNode S key bitLen data = .ok cell) (hkey : key.length ≤ bitLen)
  (hlen : bitLen ≤ maxDataBits)
include h hkey hlen

theorem loadNode_finalizeNode : loadNode S cell bitLen = .ok (key, data) := by
  obtain ⟨-, hcell⟩ := finalizeNode_eq_ok.mp h
  simp only [loadNode, S.load_finalize hcell, readLabel_labelBits key data.bits hkey hlen, bind_eq_ok,
    pure_eq_ok]
  exact ⟨_, rfl, rfl⟩

theorem readNode_finalizeNode : readNode S cell bitLen = .ok (key, data) := by
  obtain ⟨-, hcell⟩ := finalizeNode_eq_ok.mp h
  simp only [readNode, S.isPruned_finalize hcell, loadNode_finalizeNode h hkey hlen, bind_eq_ok,
    require_eq_ok]
  exact ⟨(), by simp, trivial⟩

end

/-- A node with a part of the label and less room for it can be built too. -/
theorem finalizeNode_shorter {key' : List Bool} {bitLen' : ℕ}
    (h : finalizeNode S key bitLen data = .ok cell) (hpart : key' <:+: key)
    (hmax : bitLen' ≤ bitLen) (hkey : key.length ≤ bitLen) (hkey' : key'.length ≤ bitLen') :
    ∃ cell', finalizeNode S key' bitLen' data = .ok cell' := by
  obtain ⟨⟨hbits, hrefs⟩, hcell⟩ := finalizeNode_eq_ok.mp h
  have hlen := length_labelBits_le hpart hmax hkey hkey'
  have hshort : (labelBits key' bitLen' ++ data.bits).length ≤
      (labelBits key bitLen ++ data.bits).length := by
    simp only [List.length_append]
    omega
  obtain ⟨-, -, hdepth⟩ := (S.exists_finalize _).mp ⟨cell, hcell⟩
  exact exists_finalizeNode.mpr ⟨hshort.trans hbits, hrefs, hdepth⟩

theorem checkedSub_eq_some {a b c : ℕ} : checkedSub a b = some c ↔ b + c = a := by
  rw [checkedSub]
  split_ifs with h
  · rw [Option.some.injEq]
    omega
  · constructor
    · intro hc
      cases hc
    · intro hc
      omega

variable {label : List Bool}

theorem encode_leaf {value : Slice C} : encode S T bitLen (.leaf label value) = .ok cell ↔
      finalizeNode S label bitLen value = .ok cell := Iff.rfl

variable {m : ℕ}

theorem encode_fork (hm : label.length + 1 + m = bitLen) {l r : BitTrie (Slice C)} :
    encode S T bitLen (.fork label l r) = .ok cell ↔
      ∃ left right, encode S T m l = .ok left ∧ encode S T m r = .ok right ∧
        makeFork S T label bitLen left right false = .ok cell := by
  obtain rfl : m = bitLen - label.length - 1 := by omega
  simp only [encode, bind_eq_ok]
  constructor
  · rintro ⟨left, hl, right, hr, hcell⟩
    exact ⟨left, right, hl, hr, hcell⟩
  · rintro ⟨left, right, hl, hr, hcell⟩
    exact ⟨left, hl, right, hr, hcell⟩

variable {left right : C}

theorem makeFork_eq_ok (hm : key.length + 1 + m = bitLen) {swap : Bool} :
    makeFork S T key bitLen left right swap = .ok cell ↔
      ∃ extra, T.forkExtra (some m) left right = .ok extra ∧ finalizeNode S key bitLen
          ⟨extra.bits, (if swap then [right, left] else [left, right]) ++ extra.refs⟩ =
            .ok cell := by
  simp [makeFork, checkedSub_eq_some.mpr hm, bind_eq_ok]

def HashmapType.Symmetric (T : HashmapType C) : Prop :=
  ∀ nextBitLen left right extra, T.forkExtra nextBitLen left right = .ok extra →
    T.forkExtra nextBitLen right left = .ok extra

theorem makeFork_swap (hT : T.Symmetric) : makeFork S T key bitLen left right true = .ok cell ↔
      makeFork S T key bitLen right left false = .ok cell := by
  simp only [makeFork, bind_eq_ok]
  constructor
  · rintro ⟨extra, hextra, hcell⟩
    exact ⟨extra, hT _ _ _ _ hextra, hcell⟩
  · rintro ⟨extra, hextra, hcell⟩
    exact ⟨extra, hT _ _ _ _ hextra, hcell⟩

theorem symmetric_hashmapE : (hashmapE C).Symmetric := by
  intro nextBitLen left right extra h
  exact h

/-- What follows the label in the root cell of a trie. -/
def IsNode (S : CellStore C) (T : HashmapType C) (n : ℕ) : BitTrie (Slice C) → Slice C → Prop
  | .leaf _ value, data => data = value
  | .fork label l r, data => ∃ m left right extra, label.length + 1 + m = n ∧
      encode S T m l = .ok left ∧ encode S T m r = .ok right ∧
      T.forkExtra (some m) left right = .ok extra ∧ data = ⟨extra.bits, left :: right :: extra.refs⟩

variable {t : BitTrie (Slice C)}

theorem isNode_prepend {pre : List Bool} (hm : pre.length + m = bitLen) :
    IsNode S T bitLen (t.prepend pre) data ↔ IsNode S T m t data := by
  cases t with
  | leaf label value => exact Iff.rfl
  | fork label l r =>
    have hlen : ∀ k, (pre ++ label).length + 1 + k = bitLen ↔ label.length + 1 + k = m := by
      intro k
      rw [List.length_append]
      omega
    simp only [BitTrie.prepend, IsNode, hlen]

theorem IsNode.finalizeNode_iff (h : IsNode S T bitLen t data) :
    finalizeNode S t.label bitLen data = .ok cell ↔ encode S T bitLen t = .ok cell := by
  cases t with
  | leaf label value =>
    rw [show data = value from h]
    rfl
  | fork label l r =>
    obtain ⟨m, left, right, extra, hm, hleft, hright, hextra, rfl⟩ := h
    rw [encode_fork hm]
    constructor
    · intro hcell
      exact ⟨left, right, hleft, hright, (makeFork_eq_ok hm).mpr ⟨extra, hextra, hcell⟩⟩
    · rintro ⟨left', right', hleft', hright', hfork⟩
      rw [hleft, Except.ok.injEq] at hleft'
      rw [hright, Except.ok.injEq] at hright'
      subst hleft' hright'
      obtain ⟨extra', hextra', hcell⟩ := (makeFork_eq_ok hm).mp hfork
      rw [hextra, Except.ok.injEq] at hextra'
      subst hextra'
      exact hcell

theorem exists_isNode (ht : t.WF bitLen) (hlen : bitLen ≤ maxDataBits)
    (hcell : encode S T bitLen t = .ok cell) :
    ∃ data, IsNode S T bitLen t data ∧ loadNode S cell bitLen = .ok (t.label, data) ∧
      readNode S cell bitLen = .ok (t.label, data) := by
  have hnode : ∃ data, IsNode S T bitLen t data := by
    cases t with
    | leaf label value => exact ⟨value, rfl⟩
    | fork label l r =>
      obtain ⟨m, hm, -, -⟩ := ht
      obtain ⟨left, right, hleft, hright, hfork⟩ := (encode_fork hm).mp hcell
      obtain ⟨extra, hextra, -⟩ := (makeFork_eq_ok hm).mp hfork
      exact ⟨_, m, left, right, extra, hm, hleft, hright, hextra, rfl⟩
  obtain ⟨data, hdata⟩ := hnode
  have hfinal := hdata.finalizeNode_iff.mpr hcell
  exact ⟨data, hdata, loadNode_finalizeNode hfinal ht.length_label_le hlen,
    readNode_finalizeNode hfinal ht.length_label_le hlen⟩

theorem makeEdge_eq_ok (hm : key.length + 1 + m = bitLen) (hlen : bitLen ≤ maxDataBits)
    (ht : t.WF m) {child : C} (hchild : encode S T m t = .ok child) (isLeft : Bool) :
    makeEdge S key bitLen isLeft child = .ok cell ↔
      encode S T bitLen (t.prepend (key ++ [!isLeft])) = .ok cell := by
  have hsub : checkedSub bitLen (key.length + 1) = some m := checkedSub_eq_some.mpr hm
  obtain ⟨data, hdata, hload, -⟩ := exists_isNode ht (by omega) hchild
  have hlong : (key ++ [!isLeft]).length + m = bitLen := by
    rw [List.length_append, List.length_singleton]
    exact hm
  have hlabel := ht.length_label_le
  rw [← ((isNode_prepend hlong).mpr hdata).finalizeNode_iff, BitTrie.label_prepend]
  simp only [makeEdge, hsub, hload, bind_eq_ok, present_eq_ok, require_eq_ok, Except.ok.injEq,
    Option.some.injEq, exists_eq_left', Prod.exists, Prod.mk.injEq]
  constructor
  · rintro ⟨_, _, ⟨rfl, rfl⟩, -, -, hcell⟩
    rw [List.append_cons key] at hcell
    exact hcell
  · intro hcell
    refine ⟨_, _, ⟨rfl, rfl⟩, (), ?_, ?_⟩
    · simp only [List.length_append, List.length_cons]
      omega
    · rw [List.append_cons key]
      exact hcell

theorem encode_child {l r : BitTrie (Slice C)} (hleft : encode S T m l = .ok left)
    (hright : encode S T m r = .ok right) (bit : Bool) :
    encode S T m (BitTrie.child l r bit) = .ok (if bit then right else left) := by
  cases bit with
  | false => exact hleft
  | true => exact hright

theorem encodeOpt_some {cell : Option C} : encodeOpt S T bitLen (some t) = .ok cell ↔
      ∃ c, encode S T bitLen t = .ok c ∧ cell = some c := by
  simp only [encodeOpt, bind_eq_ok, pure_eq_ok]
  constructor
  · rintro ⟨c, hc, rfl⟩
    exact ⟨c, hc, rfl⟩
  · rintro ⟨c, hc, rfl⟩
    exact ⟨c, hc, rfl⟩

theorem encodeOpt_none {cell : Option C} : encodeOpt S T bitLen none = .ok cell ↔ cell = none := by
  simp only [encodeOpt, pure_eq_ok]
  exact eq_comm

theorem makeSubtreeCell_eq_ok (hm : label.length + 1 + m = bitLen) (hlen : bitLen ≤ maxDataBits)
    {l r : Option (BitTrie (Slice C))} (hl : BitTrie.WFOpt m l) (hr : BitTrie.WFOpt m r)
    {left right cell : Option C} (hleft : encodeOpt S T m l = .ok left)
    (hright : encodeOpt S T m r = .ok right) :
    makeSubtreeCell S T label bitLen left right = .ok cell ↔
      encodeOpt S T bitLen (join label l r) = .ok cell := by
  cases l with
  | none =>
    rw [encodeOpt_none] at hleft
    subst hleft
    cases r with
    | none =>
      rw [encodeOpt_none] at hright
      subst hright
      simp only [makeSubtreeCell, join, encodeOpt]
    | some r =>
      obtain ⟨c, hc, rfl⟩ := encodeOpt_some.mp hright
      simp only [makeSubtreeCell, join, encodeOpt, bind_eq_ok,
        makeEdge_eq_ok hm hlen (wfOpt_some.mp hr) hc, Bool.not_false]
  | some l =>
    obtain ⟨c, hc, rfl⟩ := encodeOpt_some.mp hleft
    cases r with
    | none =>
      rw [encodeOpt_none] at hright
      subst hright
      simp only [makeSubtreeCell, join, encodeOpt, bind_eq_ok,
        makeEdge_eq_ok hm hlen (wfOpt_some.mp hl) hc, Bool.not_true]
    | some r =>
      obtain ⟨d, hd, rfl⟩ := encodeOpt_some.mp hright
      simp only [makeSubtreeCell, join, encodeOpt, bind_eq_ok, encode_fork hm]
      constructor
      · rintro ⟨c', hc', hcell⟩
        exact ⟨c', ⟨c, d, hc, hd, hc'⟩, hcell⟩
      · rintro ⟨c', ⟨c1, d1, hc1, hd1, hc'⟩, hcell⟩
        rw [hc] at hc1
        rw [hd] at hd1
        cases hc1
        cases hd1
        exact ⟨c', hc', hcell⟩

/-- A trie that can be encoded with a longer label can be encoded alone. -/
theorem encode_of_prepend {pre : List Bool} (hm : pre.length + m = bitLen)
    (hlen : bitLen ≤ maxDataBits) (ht : t.WF m) (h : encode S T bitLen (t.prepend pre) = .ok cell) :
    ∃ c, encode S T m t = .ok c := by
  have hwf := ht.prepend pre
  rw [hm] at hwf
  obtain ⟨data, hdata, -, -⟩ := exists_isNode hwf hlen h
  have hlabel := ht.length_label_le
  have hfinal := hdata.finalizeNode_iff.mpr h
  rw [BitTrie.label_prepend] at hfinal
  obtain ⟨c, hc⟩ := finalizeNode_shorter hfinal (List.suffix_append pre t.label).isInfix
    (show m ≤ bitLen by omega) (by rw [List.length_append]; omega) hlabel
  exact ⟨c, ((isNode_prepend hm).mp hdata).finalizeNode_iff.mp hc⟩

theorem encodeOpt_of_join (hm : label.length + 1 + m = bitLen) (hlen : bitLen ≤ maxDataBits)
    {l r : Option (BitTrie (Slice C))} (hl : BitTrie.WFOpt m l) (hr : BitTrie.WFOpt m r)
    {cell : Option C} (h : encodeOpt S T bitLen (join label l r) = .ok cell) :
    (∃ left, encodeOpt S T m l = .ok left) ∧ ∃ right, encodeOpt S T m r = .ok right := by
  have hedge : ∀ (b : Bool) (t : BitTrie (Slice C)), t.WF m →
      encodeOpt S T bitLen (some (t.prepend (label ++ [b]))) = .ok cell →
      ∃ c, encodeOpt S T m (some t) = .ok c := by
    intro b t ht henc
    obtain ⟨c, hc, -⟩ := encodeOpt_some.mp henc
    obtain ⟨d, hd⟩ := encode_of_prepend (by simpa using hm) hlen ht hc
    exact ⟨some d, encodeOpt_some.mpr ⟨d, hd, rfl⟩⟩
  cases l with
  | none =>
    cases r with
    | none => exact ⟨⟨none, rfl⟩, none, rfl⟩
    | some r => exact ⟨⟨none, rfl⟩, hedge true r (wfOpt_some.mp hr) h⟩
  | some l =>
    cases r with
    | none => exact ⟨hedge false l (wfOpt_some.mp hl) h, none, rfl⟩
    | some r =>
      obtain ⟨c, hc, -⟩ := encodeOpt_some.mp h
      obtain ⟨left, right, hleft, hright, -⟩ := (encode_fork hm).mp hc
      exact ⟨⟨some left, encodeOpt_some.mpr ⟨left, hleft, rfl⟩⟩,
        some right, encodeOpt_some.mpr ⟨right, hright, rfl⟩⟩

end Nodes

inductive TreeCell where
  | mk (bits : List Bool) (refs : List TreeCell)

namespace TreeCell

def slice : TreeCell → Slice TreeCell
  | mk bits refs => ⟨bits, refs⟩

mutual

def depth : TreeCell → ℕ
  | mk _ refs => depthBelow refs

def depthBelow : List TreeCell → ℕ
  | [] => 0
  | cell :: cells => max (depth cell + 1) (depthBelow cells)

end

theorem depthBelow_le {cells : List TreeCell} {d : ℕ} :
    depthBelow cells ≤ d ↔ ∀ cell ∈ cells, cell.depth < d := by
  induction cells with
  | nil => simp [depthBelow]
  | cons cell cells ih =>
    rw [depthBelow, max_le_iff, ih, List.forall_mem_cons]
    exact Iff.rfl

def finalize (s : Slice TreeCell) : Checked TreeCell := do
  require (s.bits.length ≤ maxDataBits ∧ s.refs.length ≤ maxReferencesCount) "CellOverflow"
  require (depthBelow s.refs ≤ maxSafeDepth) "the cell is too deep"
  pure (mk s.bits s.refs)

theorem finalize_eq_ok {s : Slice TreeCell} {cell : TreeCell} : finalize s = .ok cell ↔
      (s.bits.length ≤ maxDataBits ∧ s.refs.length ≤ maxReferencesCount) ∧
        (∀ r ∈ s.refs, r.depth < maxSafeDepth) ∧ mk s.bits s.refs = cell := by
  simp only [finalize, bind_eq_ok, require_eq_ok, pure_eq_ok, depthBelow_le]
  constructor
  · rintro ⟨-, hsize, -, hdepth, hcell⟩
    exact ⟨hsize, hdepth, hcell⟩
  · rintro ⟨hsize, hdepth, hcell⟩
    exact ⟨(), hsize, (), hdepth, hcell⟩

def store : CellStore TreeCell where
  finalize := finalize
  load := slice
  isPruned := fun _ => false
  depth := depth
  load_finalize := by
    intro s cell h
    obtain ⟨-, -, rfl⟩ := finalize_eq_ok.mp h
    rfl
  isPruned_finalize := by
    intros
    rfl
  exists_finalize := by
    intro s
    simp [finalize_eq_ok, and_assoc]
  depth_finalize := by
    intro s cell d h hdepth
    obtain ⟨-, -, rfl⟩ := finalize_eq_ok.mp h
    exact depthBelow_le.mpr hdepth

end TreeCell

end TonNode.Hashmap
