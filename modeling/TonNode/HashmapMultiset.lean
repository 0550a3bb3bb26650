import TonNode.HashmapE
import TonNode.SortedBits

/-! Many keys at once. The updates are sorted and partitioned against the labels of
the dictionary in one pass; every case rebuilds the node from what is left of its two
sides, so that what the pass returns is the trie with all updates made. -/
namespace TonNode.Hashmap

open Block Checked
open BitTrie (getOpt getOpt_joinAt_append join wfOpt_none wfOpt_some get_leaf leaf getOpt_some child
  prepend_nil)

abbrev Update (C : Type) := List Bool × Option (Slice C)

section Model

variable {C : Type} (S : CellStore C) (T : HashmapType C) (key : List Bool) (offset : ℕ)

def getBit : Checked Bool :=
  present key[offset]? "FixedBitsKey: range exceeds bit_len"

def bitsSlice (len : ℕ) : Checked (List Bool) := do
  require (len = 0 ∨ offset + len ≤ key.length) "FixedBitsKey: range exceeds bit_len"
  pure ((key.drop offset).take len)

def commonPrefixBits (other : List Bool) (otherOffset maxLen : ℕ) : Checked ℕ := do
  require (offset + maxLen ≤ key.length ∧ otherOffset + maxLen ≤ other.length)
    "FixedBitsKey: range exceeds bit_len"
  pure (commonPrefix ((key.drop offset).take maxLen) ((other.drop otherOffset).take maxLen)).1.length

def partitionFrom (values : List (Update C)) (bitPos : ℕ) : ℕ → ℕ → ℕ → Checked ℕ
  | 0, lo, _ => pure lo
  | fuel + 1, lo, hi =>
    if lo < hi then do
      let mid := lo + (hi - lo) / 2
      let value ← present values[mid]? "index out of bounds"
      let bit ← getBit value.1 bitPos
      if bit then partitionFrom values bitPos fuel lo mid
      else partitionFrom values bitPos fuel (mid + 1) hi
    else pure lo

def partitionByBit (values : List (Update C)) (bitPos : ℕ) : Checked ℕ :=
  partitionFrom values bitPos values.length 0 values.length

def dictBuild : ℕ → List (Update C) → ℕ → ℕ → Checked (Option C)
  | _, [], _, _ => pure none
  | _, [(_, none)], _, _ => pure none
  | _, [(key, some data)], totalKeyLen, prefixLen => do
    let remaining := totalKeyLen - prefixLen
    let label ← bitsSlice key prefixLen remaining
    let cell ← finalizeNode S label remaining data
    pure (some cell)
  | 0, _ :: _ :: _, _, _ => reject "the keys have no more bits"
  | fuel + 1, first :: second :: rest, totalKeyLen, prefixLen => do
    let values := first :: second :: rest
    let remaining := totalKeyLen - prefixLen
    let last := rest.getLastD second
    let common ← commonPrefixBits first.1 prefixLen last.1 prefixLen remaining
    let splitPos := prefixLen + common
    let idx ← partitionByBit values splitPos
    let left ← dictBuild fuel (values.take idx) totalKeyLen (splitPos + 1)
    let right ← dictBuild fuel (values.drop idx) totalKeyLen (splitPos + 1)
    let label ← bitsSlice first.1 prefixLen common
    makeSubtreeCell S T label remaining left right

def splitValues (values : List (Update C)) (n totalKeyLen : ℕ) :
    Checked (ℕ × List (Update C) × List (Update C)) :=
  match values with
  | first :: second :: rest => do
    let prefixLen := totalKeyLen - n
    let last := rest.getLastD second
    let l2 ← commonPrefixBits first.1 prefixLen last.1 prefixLen n
    let splitPos := prefixLen + l2
    if splitPos < totalKeyLen then do
      let idx ← partitionByBit values splitPos
      pure (l2, values.take idx, values.drop idx)
    else pure (l2, [], values)
  | _ => pure (n, [], values)

/-- `dict_multiset_impl`: the first `skip` bits of the label of the dictionary are
above this level. -/
def dictMultiset : ℕ → Option C → List (Update C) → ℕ → ℕ → ℕ → Checked (Option C)
  | _, none, values, n, totalKeyLen, _ =>
    dictBuild S T (totalKeyLen + 1) values totalKeyLen (totalKeyLen - n)
  | _, some dict, [], _, _, _ => pure (some dict)
  | 0, some _, _ :: _, _, _, _ => reject "the keys have no more bits"
  | fuel + 1, some dict, first :: rest, n, totalKeyLen, skip => do
    let prefixLen := totalKeyLen - n
    let values := first :: rest
    let (l2, valuesLeft, valuesRight) ← splitValues values n totalKeyLen
    let (dictLabel, dictRem) ← loadNode S dict (n + skip)
    let l1 := dictLabel.length - skip
    let c ← commonPrefixBits first.1 prefixLen dictLabel skip (min l1 l2)
    if c < l1 ∧ c < l2 then do
      -- they part before either label ends
      let prunedLabel ← bitsSlice dictLabel (skip + c + 1) (l1 - c - 1)
      let dictSide ← finalizeNode S prunedLabel (n - c - 1) dictRem
      let valuesSide ← dictBuild S T (totalKeyLen + 1) values totalKeyLen (prefixLen + c + 1)
      let dictGoesRight ← getBit dictLabel (skip + c)
      let label ← bitsSlice dictLabel skip c
      if dictGoesRight then makeSubtreeCell S T label n valuesSide (some dictSide)
      else makeSubtreeCell S T label n (some dictSide) valuesSide
    else if c = l1 ∧ c = l2 then
      if c = n then
        match first.2 with
        | some data => do
          let label ← bitsSlice dictLabel skip c
          let cell ← finalizeNode S label n data
          pure (some cell)
        | none => pure none
      else do
        let leftChild ← dictRem.reference 0
        let rightChild ← dictRem.reference 1
        let c1 ← dictMultiset fuel (some leftChild) valuesLeft (n - c - 1) totalKeyLen 0
        let c2 ← dictMultiset fuel (some rightChild) valuesRight (n - c - 1) totalKeyLen 0
        let label ← bitsSlice dictLabel skip c
        makeSubtreeCell S T label n c1 c2
    else if c = l1 then do
      -- all updates go to one side of the fork
      let leftChild ← dictRem.reference 0
      let rightChild ← dictRem.reference 1
      let valuesGoRight ← getBit first.1 (prefixLen + c)
      if valuesGoRight then do
        let c2 ← dictMultiset fuel (some rightChild) values (n - c - 1) totalKeyLen 0
        let label ← bitsSlice dictLabel skip c
        makeSubtreeCell S T label n (some leftChild) c2
      else do
        let c1 ← dictMultiset fuel (some leftChild) values (n - c - 1) totalKeyLen 0
        let label ← bitsSlice dictLabel skip c
        makeSubtreeCell S T label n c1 (some rightChild)
    else do
      -- the updates part within the edge of the dictionary
      let dictGoesRight ← getBit dictLabel (skip + c)
      if dictGoesRight then do
        let c2 ← dictMultiset fuel (some dict) valuesRight (n - c - 1) totalKeyLen (skip + c + 1)
        let c1 ← dictBuild S T (totalKeyLen + 1) valuesLeft totalKeyLen (prefixLen + c + 1)
        let label ← bitsSlice first.1 prefixLen c
        makeSubtreeCell S T label n c1 c2
      else do
        let c1 ← dictMultiset fuel (some dict) valuesLeft (n - c - 1) totalKeyLen (skip + c + 1)
        let c2 ← dictBuild S T (totalKeyLen + 1) valuesRight totalKeyLen (prefixLen + c + 1)
        let label ← bitsSlice first.1 prefixLen c
        makeSubtreeCell S T label n c1 c2

def hashmapMultiset (data : Option C) (bitLen : ℕ) (values : List (Update C)) :
    Checked (Option C) :=
  if values = [] then pure data
  else do
    forM values fun value => require (value.1.length = bitLen) "multiset key bit_len"
    let values := values.insertionSort fun a b => a.1 ≤ b.1
    dictMultiset S T (bitLen + 1) data values bitLen bitLen 0

end Model

section Updates

variable {C : Type} (pre : List Bool)

theorem append_bit_append (p : List Bool) (b : Bool) (k : List Bool) :
    pre ++ p ++ [b] ++ k = pre ++ (p ++ b :: k) := by
  simp

theorem getElem?_append_bit {key pre p k : List Bool} {b : Bool} (h : key = pre ++ p ++ [b] ++ k) :
    key[pre.length + p.length]? = some b := by
  rw [h, List.append_assoc, List.getElem?_append_right (by simp), List.length_append]
  simp

/-- A map after updates of keys that all begin with `pre`, seen below `pre`. -/
def Updated (values : List (Update C)) (m m' : PartialMap C) : Prop :=
  (∀ key o, (pre ++ key, o) ∈ values → m' key = o) ∧
    ∀ key, (∀ o, (pre ++ key, o) ∉ values) → m' key = m key

theorem Updated.nil (m : PartialMap C) : Updated pre [] m m := by
  refine ⟨?_, fun _ _ => rfl⟩
  intro key o h
  cases h

theorem Updated.singleton {pre key : List Bool} {o : Option (Slice C)} {m m' : PartialMap C}
    (hkey : m' key = o) (hother : ∀ k, k ≠ key → m' k = m k) :
    Updated pre [(pre ++ key, o)] m m' := by
  constructor
  · intro k o' hmem
    have heq := List.mem_singleton.mp hmem
    rw [Prod.mk.injEq, List.append_cancel_left_eq] at heq
    rw [heq.1, heq.2, hkey]
  · intro k hk
    apply hother
    rintro rfl
    exact hk o (List.mem_singleton.mpr rfl)

theorem Updated.joinAt {pre p : List Bool} {bit : Bool} {values vt vu : List (Update C)}
    (hvalues : ∀ u, u ∈ values ↔ u ∈ vt ∨ u ∈ vu)
    (hvt : ∀ u ∈ vt, ∃ k, u.1 = pre ++ p ++ [bit] ++ k)
    (hvu : ∀ u ∈ vu, ∃ k, u.1 = pre ++ p ++ [!bit] ++ k) {t u t' u' : Option (BitTrie (Slice C))}
    (ht : Updated (pre ++ p ++ [bit]) vt (getOpt t) (getOpt t'))
    (hu : Updated (pre ++ p ++ [!bit]) vu (getOpt u) (getOpt u')) :
    Updated pre values (getOpt (BitTrie.joinAt p bit t u))
      (getOpt (BitTrie.joinAt p bit t' u')) := by
  have hform (b : Bool) (k : List Bool) := (append_bit_append pre p b k).symm
  constructor
  · intro key o h
    rcases (hvalues _).mp h with hmem | hmem
    · obtain ⟨k, hk⟩ := hvt _ hmem
      have hkey : key = p ++ bit :: k := by
        rw [← hform] at hk
        exact List.append_cancel_left hk
      subst hkey
      rw [getOpt_joinAt_append, if_pos rfl]
      exact ht.1 k o (by rw [← hform]; exact hmem)
    · obtain ⟨k, hk⟩ := hvu _ hmem
      have hkey : key = p ++ (!bit) :: k := by
        rw [← hform] at hk
        exact List.append_cancel_left hk
      subst hkey
      rw [getOpt_joinAt_append, if_neg (by simp)]
      exact hu.1 k o (by rw [← hform]; exact hmem)
  · intro key h
    by_cases hkey : ∃ b k, key = p ++ b :: k
    · obtain ⟨b, k, rfl⟩ := hkey
      rw [getOpt_joinAt_append, getOpt_joinAt_append]
      split_ifs with hb
      · subst hb
        apply ht.2 k
        intro o ho
        apply h o
        rw [hform]
        exact (hvalues _).mpr (.inl ho)
      · obtain rfl : b = !bit := by
          cases b with
          | false | true => simpa using hb
        apply hu.2 k
        intro o ho
        apply h o
        rw [hform]
        exact (hvalues _).mpr (.inr ho)
    · rw [BitTrie.getOpt_joinAt_eq_none, BitTrie.getOpt_joinAt_eq_none]
      · intro b k hk
        exact hkey ⟨b, k, hk⟩
      · intro b k hk
        exact hkey ⟨b, k, hk⟩

/-- Updates as the sort leaves them, with keys of `n` bits below `pre`. -/
structure OrderedUpdates (n : ℕ) (values : List (Update C)) : Prop where
  ordered : values.Pairwise fun a b => a.1 ≤ b.1
  keys : ∀ u ∈ values, ∃ k, k.length = n ∧ u.1 = pre ++ k

structure SortedUpdates (n : ℕ) (values : List (Update C)) : Prop where
  sorted : values.Pairwise fun a b => a.1 < b.1
  keys : ∀ u ∈ values, ∃ k, k.length = n ∧ u.1 = pre ++ k

variable {bitPos : ℕ}

theorem partitionFrom_eq {values : List (Update C)} {k : ℕ}
    (hbits : ∀ (i : ℕ) (u : Update C), values[i]? = some u → u.1[bitPos]? = some (decide (k ≤ i)))
    {fuel lo hi : ℕ} (hlo : lo ≤ k) (hhi : k ≤ hi) (hlen : hi ≤ values.length)
    (hfuel : hi - lo ≤ fuel) : partitionFrom values bitPos fuel lo hi = .ok k := by
  induction fuel generalizing lo hi with
  | zero =>
    obtain rfl : lo = k := by omega
    rfl
  | succ fuel ih =>
    rw [partitionFrom]
    split_ifs with hlt
    · have hmid : lo + (hi - lo) / 2 < values.length := by omega
      have hval := List.getElem?_eq_getElem hmid
      simp only [bind_eq_ok, present_eq_ok, getBit, hval, Option.some.injEq, exists_eq_left',
        hbits _ _ hval]
      by_cases hk : k ≤ lo + (hi - lo) / 2
      · rw [if_pos (decide_eq_true hk)]
        exact ih hlo hk (by omega) (by omega)
      · rw [if_neg (by simpa using hk)]
        exact ih (by omega) hhi hlen (by omega)
    · obtain rfl : lo = k := by omega
      rfl

variable {ls rs : List (Update C)}

/-- The search finds where the ones begin. -/
theorem partitionByBit_eq (hls : ∀ u ∈ ls, u.1[bitPos]? = some false)
    (hrs : ∀ u ∈ rs, u.1[bitPos]? = some true) :
    partitionByBit (ls ++ rs) bitPos = .ok ls.length := by
  apply partitionFrom_eq _ (Nat.zero_le _) _ le_rfl (Nat.sub_zero _).le
  · intro i u hu
    by_cases hi : i < ls.length
    · rw [List.getElem?_append_left hi] at hu
      rw [hls u (List.mem_of_getElem? hu), decide_eq_false (by omega)]
    · rw [List.getElem?_append_right (by omega)] at hu
      rw [hrs u (List.mem_of_getElem? hu), decide_eq_true (by omega)]
  · rw [List.length_append]
    omega

variable {u a : List Bool} {i : ℕ}

theorem commonPrefixBits_eq {b : List Bool} {j len : ℕ} {p w : List Bool} (ha : a.drop i = p ++ u)
    (hb : b.drop j = p ++ w) (hi : i + len ≤ a.length) (hj : j + len ≤ b.length)
    (hp : p.length ≤ len) (hend : p.length = len ∨ ∃ c u' w', u = c :: u' ∧ w = (!c) :: w') :
    commonPrefixBits a i b j len = .ok p.length := by
  have hfst : (commonPrefix ((a.drop i).take len) ((b.drop j).take len)).1 = p := by
    rw [ha, hb, List.take_append, List.take_append, List.take_of_length_le hp, commonPrefix_append]
    rcases hend with rfl | ⟨c, u', w', rfl, rfl⟩
    · simp
    · by_cases hlen : p.length = len
      · subst hlen
        simp
      · obtain ⟨k, hk⟩ : ∃ k, len - p.length = k + 1 := ⟨len - p.length - 1, by omega⟩
        rw [hk, List.take_succ_cons, List.take_succ_cons, commonPrefix_not, List.append_nil]
  simp only [commonPrefixBits, bind_eq_ok, require_eq_ok, pure_eq_ok, hfst]
  exact ⟨(), ⟨hi, hj⟩, trivial⟩

theorem bitsSlice_eq {p : List Bool} (ha : a.drop i = p ++ u) : bitsSlice a i p.length = .ok p := by
  have hlen : p.length = 0 ∨ i + p.length ≤ a.length := by
    have := congrArg List.length ha
    rw [List.length_drop, List.length_append] at this
    omega
  simp only [bitsSlice, bind_eq_ok, require_eq_ok, pure_eq_ok, ha, List.take_left]
  exact ⟨(), hlen, trivial⟩

theorem getBit_eq {p : List Bool} {b : Bool} (ha : a.drop i = p ++ b :: u) :
    getBit a (i + p.length) = .ok b := by
  rw [getBit, present_eq_ok, ← List.getElem?_drop, ha, List.getElem?_append_right le_rfl,
    Nat.sub_self]
  rfl

variable {rest : List (Update C)}

theorem le_getLastD {second : Update C} (h : (second :: rest).Pairwise fun a b => a.1 ≤ b.1) :
    ∀ u ∈ second :: rest, u.1 ≤ (rest.getLastD second).1 := by
  induction rest generalizing second with
  | nil =>
    intro u hu
    rw [List.mem_singleton.mp hu]
    exact le_refl _
  | cons third rest ih =>
    rw [List.getLastD_cons]
    rw [List.pairwise_cons] at h
    intro u hu
    rcases List.mem_cons.mp hu with rfl | hu
    · exact le_trans (h.1 third (by simp)) (ih h.2 third (by simp))
    · exact ih h.2 u hu

theorem OrderedUpdates.filter {pre p : List Bool} {n m : ℕ} {values : List (Update C)}
    (h : OrderedUpdates pre n values) (hm : p.length + 1 + m = n)
    (hpre : ∀ u ∈ values, ∃ b k, u.1 = pre ++ p ++ [b] ++ k) (b : Bool) :
    OrderedUpdates (pre ++ p ++ [b]) m
      (values.filter fun u => u.1[pre.length + p.length]? == some b) := by
  refine ⟨h.ordered.filter _, ?_⟩
  intro u hu
  obtain ⟨hmem, hbit⟩ := List.mem_filter.mp hu
  obtain ⟨c, k, hk⟩ := hpre u hmem
  obtain ⟨k', hk', hu'⟩ := h.keys u hmem
  have hlen : k.length = m := by
    rw [hk] at hu'
    have := congrArg List.length hu'
    simp only [List.length_append, List.length_singleton] at this
    omega
  have hc : c = b := by
    rw [getElem?_append_bit hk] at hbit
    simpa using hbit
  exact ⟨k, hlen, by rw [hk, hc]⟩

variable {pre p : List Bool}

/-- Every key between the first and the last starts with what these two share. -/
theorem OrderedUpdates.starts {n : ℕ} {first second : Update C} {x y : List Bool}
    (h : OrderedUpdates pre n (first :: second :: rest)) (hp : p.length < n)
    (hfirst : first.1 = pre ++ (p ++ x)) (hlast : (rest.getLastD second).1 = pre ++ (p ++ y)) :
    ∀ u ∈ first :: second :: rest, ∃ b k, u.1 = pre ++ p ++ [b] ++ k := by
  intro u hu
  have hmem : rest.getLastD second ∈ second :: rest := List.getLastD_mem_cons
  have hle : first.1 ≤ u.1 := by
    rcases List.mem_cons.mp hu with rfl | hu
    · exact le_refl _
    · exact (List.pairwise_cons.mp h.ordered).1 u hu
  have hge : u.1 ≤ (rest.getLastD second).1 := by
    rcases List.mem_cons.mp hu with rfl | hu
    · exact (List.pairwise_cons.mp h.ordered).1 _ hmem
    · exact le_getLastD (List.pairwise_cons.mp h.ordered).2 u hu
  obtain ⟨k, hk, hukey⟩ := h.keys u hu
  rw [hfirst, ← List.append_assoc] at hle
  rw [hlast, ← List.append_assoc] at hge
  obtain ⟨z, hz⟩ := SortedBits.prefix_of_between hle hge (by
    rw [hukey, List.length_append, List.length_append]
    omega)
  cases z with
  | nil =>
    have := congrArg List.length (hz.trans hukey)
    simp only [List.append_nil, List.length_append] at this
    omega
  | cons b z => exact ⟨b, z, by rw [append_bit_append, ← hz, List.append_assoc]⟩

/-- The bit below a common prefix grows along the list. -/
theorem OrderedUpdates.bits_grow {n : ℕ} {values : List (Update C)} (h : OrderedUpdates pre n values)
    (hpre : ∀ u ∈ values, ∃ b k, u.1 = pre ++ p ++ [b] ++ k) :
    values.Pairwise fun a b => (a.1[pre.length + p.length]? == some true) = true →
      (b.1[pre.length + p.length]? == some true) = true := by
  apply h.ordered.imp_of_mem
  intro a b ha hb hab
  obtain ⟨c, k, hk⟩ := hpre a ha
  obtain ⟨d, k', hk'⟩ := hpre b hb
  rw [getElem?_append_bit hk, getElem?_append_bit hk']
  rw [hk, hk', List.append_assoc (pre ++ p), List.append_assoc (pre ++ p),
    List.singleton_append, List.singleton_append] at hab
  cases c with
  | false => simp
  | true =>
    cases d with
    | false => exact absurd hab (SortedBits.not_true_le_false _ _ _)
    | true => simp

/-- At least two updates, not all of one key, part at a bit below their common prefix. -/
theorem OrderedUpdates.split {n : ℕ} {first second : Update C}
    (h : OrderedUpdates pre n (first :: second :: rest)) (hne : first.1 ≠ (rest.getLastD second).1) :
    ∃ p m ls rs, p.length + 1 + m = n ∧ first :: second :: rest = ls ++ rs ∧ ls ≠ [] ∧ rs ≠ [] ∧
      OrderedUpdates (pre ++ p ++ [false]) m ls ∧ OrderedUpdates (pre ++ p ++ [true]) m rs ∧
      commonPrefixBits first.1 pre.length (rest.getLastD second).1 pre.length n = .ok p.length ∧
      partitionByBit (first :: second :: rest) (pre.length + p.length) = .ok ls.length ∧
      ∃ x, first.1 = pre ++ (p ++ x) := by
  have hlast : rest.getLastD second ∈ second :: rest := List.getLastD_mem_cons
  have hlt : first.1 < (rest.getLastD second).1 := by
    rw [← not_le]
    intro hge
    exact hne (le_antisymm ((List.pairwise_cons.mp h.ordered).1 _ hlast) hge)
  obtain ⟨x, hx, hfirst⟩ := h.keys first (by simp)
  obtain ⟨y, hy, hlastkey⟩ := h.keys _ (List.mem_cons_of_mem first hlast)
  rw [hfirst, hlastkey, SortedBits.append_lt_append_iff] at hlt
  obtain ⟨p, x', y', rfl, rfl⟩ := SortedBits.lt_cases (hx.trans hy.symm) hlt
  have hm : p.length + 1 + x'.length = n := by
    rw [List.length_append, List.length_cons] at hx
    omega
  have hpre := h.starts (by omega) hfirst hlastkey
  have hsplit := SortedBits.eq_filter_append_filter (h.bits_grow hpre)
  have hnot : (first :: second :: rest).filter
        (fun u => !(u.1[pre.length + p.length]? == some true)) =
      (first :: second :: rest).filter (fun u => u.1[pre.length + p.length]? == some false) := by
    apply List.filter_congr
    intro u hu
    obtain ⟨b, k, hk⟩ := hpre u hu
    rw [getElem?_append_bit hk]
    cases b with
    | false | true => rfl
  rw [hnot] at hsplit
  have hls := h.filter hm hpre false
  have hrs := h.filter hm hpre true
  have hside : ∀ b, ∀ u ∈ (first :: second :: rest).filter
      (fun u => u.1[pre.length + p.length]? == some b), u.1[pre.length + p.length]? = some b := by
    intro b u hu
    exact eq_of_beq (List.mem_filter.mp hu).2
  have hsearch := partitionByBit_eq (hside false) (hside true)
  rw [← hsplit] at hsearch
  have hfirstbit : first.1[pre.length + p.length]? = some false :=
    getElem?_append_bit (hfirst.trans (append_bit_append pre p false x').symm)
  have hlastbit : (rest.getLastD second).1[pre.length + p.length]? = some true :=
    getElem?_append_bit (hlastkey.trans (append_bit_append pre p true y').symm)
  refine ⟨p, x'.length, _, _, hm, hsplit, ?_, ?_, hls, hrs, ?_, hsearch, _, hfirst⟩
  · apply List.ne_nil_of_mem (List.mem_filter.mpr ⟨List.mem_cons_self, _⟩)
    rw [hfirstbit]
    rfl
  · apply List.ne_nil_of_mem (List.mem_filter.mpr ⟨List.mem_cons_of_mem first hlast, _⟩)
    rw [hlastbit]
    rfl
  · have hdrop : ∀ k, (pre ++ k).drop pre.length = k := fun k => List.drop_left
    apply commonPrefixBits_eq (by rw [hfirst, hdrop]) (by rw [hlastkey, hdrop])
    · rw [hfirst, List.length_append]
      omega
    · rw [hlastkey, List.length_append]
      omega
    · omega
    · exact .inr ⟨false, x', y', rfl, rfl⟩

theorem commonPrefixBits_self {key pre k : List Bool} (hkey : key = pre ++ k) :
    commonPrefixBits key pre.length key pre.length k.length = .ok k.length := by
  have hdrop : key.drop pre.length = k ++ [] := by
    rw [hkey, List.drop_left, List.append_nil]
  have hlen : pre.length + k.length ≤ key.length := by
    rw [hkey, List.length_append]
  exact commonPrefixBits_eq hdrop hdrop hlen hlen le_rfl (.inl rfl)

theorem SortedUpdates.first_ne {n : ℕ} {first other : Update C}
    (h : SortedUpdates pre n (first :: rest)) (hmem : other ∈ rest) :
    first.1 ≠ other.1 := by
  have hlt := (List.pairwise_cons.mp h.sorted).1 other hmem
  intro heq
  rw [heq] at hlt
  exact List.lt_irrefl _ hlt

section Spec

variable {S : CellStore C} {T : HashmapType C} {label : List Bool}

theorem exists_makeSubtreeCell {m n : ℕ} (hm : label.length + 1 + m = n) (hlen : n ≤ maxDataBits)
    {l r : Option (BitTrie (Slice C))} (hl : BitTrie.WFOpt m l) (hr : BitTrie.WFOpt m r)
    {cell : Option C} :
    (∃ left, encodeOpt S T m l = .ok left ∧ ∃ right, encodeOpt S T m r = .ok right ∧
      makeSubtreeCell S T label n left right = .ok cell) ↔
      encodeOpt S T n (join label l r) = .ok cell := by
  constructor
  · rintro ⟨left, hleft, right, hright, hcell⟩
    exact (makeSubtreeCell_eq_ok hm hlen hl hr hleft hright).mp hcell
  · intro hcell
    obtain ⟨⟨left, hleft⟩, right, hright⟩ := encodeOpt_of_join hm hlen hl hr hcell
    exact ⟨left, hleft, right, hright, (makeSubtreeCell_eq_ok hm hlen hl hr hleft hright).mpr hcell⟩

/-- What a computation of updated cells has to do: give the cells of the updated trie
whenever they can be built. -/
def Computes (S : CellStore C) (T : HashmapType C) (pre : List Bool) (n : ℕ)
    (values : List (Update C)) (old : Option (BitTrie (Slice C)))
    (result : Checked (Option C)) : Prop :=
  ∃ t, BitTrie.WFOpt n t ∧ Updated pre values (getOpt old) (getOpt t) ∧
    ∀ cell, result = .ok cell ↔ encodeOpt S T n t = .ok cell

variable {values : List (Update C)}

/-- What a computation of updated cells does, also where a key is updated twice: it gives
the cells of a trie if any, and if no key is, these are the cells of the updated trie and
it gives them whenever they can be built. -/
def Attempts (S : CellStore C) (T : HashmapType C) (pre : List Bool) (n : ℕ)
    (values : List (Update C)) (old : Option (BitTrie (Slice C)))
    (result : Checked (Option C)) : Prop :=
  ∃ t, BitTrie.WFOpt n t ∧ (∀ cell, result = .ok cell → encodeOpt S T n t = .ok cell) ∧
    (SortedUpdates pre n values → Updated pre values (getOpt old) (getOpt t) ∧
      ∀ cell, encodeOpt S T n t = .ok cell → result = .ok cell)

section Attempts

variable {pre : List Bool} {n : ℕ} {old : Option (BitTrie (Slice C))} {result : Checked (Option C)}

theorem Attempts.isDictionary (h : Attempts S T pre n values old result) {data : Option C}
    (hok : result = .ok data) : IsDictionary S T n data := by
  obtain ⟨t, ht, hof, -⟩ := h
  exact ⟨t, ht, hof data hok⟩

theorem Attempts.computes (h : Attempts S T pre n values old result)
    (hvalues : SortedUpdates pre n values) : Computes S T pre n values old result := by
  obtain ⟨t, ht, hof, hto⟩ := h
  obtain ⟨hup, hto⟩ := hto hvalues
  exact ⟨t, ht, hup, fun cell => ⟨hof cell, hto cell⟩⟩

theorem Attempts.of_eq {t : Option (BitTrie (Slice C))} (ht : BitTrie.WFOpt n t)
    (hup : SortedUpdates pre n values → Updated pre values (getOpt old) (getOpt t))
    (hresult : result = encodeOpt S T n t) : Attempts S T pre n values old result := by
  subst hresult
  exact ⟨t, ht, fun _ h => h, fun hvalues => ⟨hup hvalues, fun _ h => h⟩⟩

theorem Attempts.nil (hold : BitTrie.WFOpt n old) :
    Attempts S T pre n [] old (encodeOpt S T n old) :=
  .of_eq hold (fun _ => .nil _ _) rfl

variable {t u : Option (BitTrie (Slice C))}

theorem exists_makeSubtreeCell_at {m n : ℕ} (hm : label.length + 1 + m = n) (hlen : n ≤ maxDataBits)
    (ht : BitTrie.WFOpt m t) (hu : BitTrie.WFOpt m u) (bit : Bool) (cell : Option C) :
    (∃ c, encodeOpt S T m t = .ok c ∧ ∃ d, encodeOpt S T m u = .ok d ∧
      (if bit then makeSubtreeCell S T label n d c else makeSubtreeCell S T label n c d) =
        .ok cell) ↔ encodeOpt S T n (BitTrie.joinAt label bit t u) = .ok cell := by
  cases bit with
  | false => exact exists_makeSubtreeCell hm hlen ht hu
  | true =>
    rw [BitTrie.joinAt, if_pos rfl, ← exists_makeSubtreeCell hm hlen hu ht]
    constructor
    · rintro ⟨c, hc, d, hd, hcell⟩
      exact ⟨d, hd, c, hc, hcell⟩
    · rintro ⟨d, hd, c, hc, hcell⟩
      exact ⟨c, hc, d, hd, hcell⟩

variable (bit : Bool)

variable {p : List Bool} {m : ℕ} (hm : p.length + 1 + m = n) (hlen : n ≤ maxDataBits)
include hm hlen

/-- The updates on the two sides of a fork, and the node rebuilt from what is left of
its sides. -/
theorem Attempts.joinAt {vt vu : List (Update C)}
    (hvalues : values = if bit then vu ++ vt else vt ++ vu)
    (hvt : OrderedUpdates (pre ++ p ++ [bit]) m vt) (hvu : OrderedUpdates (pre ++ p ++ [!bit]) m vu)
    {x y : Checked (Option C)} (hx : Attempts S T (pre ++ p ++ [bit]) m vt t x)
    (hy : Attempts S T (pre ++ p ++ [!bit]) m vu u y)
    (hresult : ∀ cell, result = .ok cell ↔ ∃ c, x = .ok c ∧ ∃ d, y = .ok d ∧
      (if bit then makeSubtreeCell S T p n d c else makeSubtreeCell S T p n c d) = .ok cell) :
    Attempts S T pre n values (BitTrie.joinAt p bit t u) result := by
  obtain ⟨t', ht', htof, htto⟩ := hx
  obtain ⟨u', hu', huof, huto⟩ := hy
  have hcells := exists_makeSubtreeCell_at (S := S) (T := T) hm hlen ht' hu' bit
  refine ⟨BitTrie.joinAt p bit t' u', ?_, ?_, ?_⟩
  · rw [← hm]
    exact BitTrie.wfOpt_joinAt ht' hu'
  · intro cell h
    obtain ⟨c, hc, d, hd, hcell⟩ := (hresult cell).mp h
    exact (hcells cell).mp ⟨c, htof c hc, d, huof d hd, hcell⟩
  · intro hs
    have hsides : vt.Pairwise (fun a b => a.1 < b.1) ∧ vu.Pairwise fun a b => a.1 < b.1 := by
      have hsorted := hs.sorted
      rw [hvalues] at hsorted
      cases bit with
      | false =>
        have := List.pairwise_append.mp hsorted
        exact ⟨this.1, this.2.1⟩
      | true =>
        have := List.pairwise_append.mp hsorted
        exact ⟨this.2.1, this.1⟩
    obtain ⟨htup, htto⟩ := htto ⟨hsides.1, hvt.keys⟩
    obtain ⟨huup, huto⟩ := huto ⟨hsides.2, hvu.keys⟩
    constructor
    · apply Updated.joinAt _ _ _ htup huup
      · intro v
        rw [hvalues]
        cases bit with
        | false => exact List.mem_append
        | true => exact List.mem_append.trans or_comm
      · intro v hv
        obtain ⟨k, -, hk⟩ := hvt.keys v hv
        exact ⟨k, hk⟩
      · intro v hv
        obtain ⟨k, -, hk⟩ := hvu.keys v hv
        exact ⟨k, hk⟩
    · intro cell h
      obtain ⟨c, hc, d, hd, hcell⟩ := (hcells cell).mpr h
      exact (hresult cell).mpr ⟨c, htto c hc, d, huto d hd, hcell⟩

theorem Attempts.oneSide (hvalues : OrderedUpdates (pre ++ p ++ [bit]) m values)
    (hu : BitTrie.WFOpt m u) {x : Checked (Option C)}
    (hx : Attempts S T (pre ++ p ++ [bit]) m values t x)
    (hresult : ∀ cell, result = .ok cell ↔ ∃ c, x = .ok c ∧ ∃ d, encodeOpt S T m u = .ok d ∧
      (if bit then makeSubtreeCell S T p n d c else makeSubtreeCell S T p n c d) = .ok cell) :
    Attempts S T pre n values (BitTrie.joinAt p bit t u) result := by
  have hnil : OrderedUpdates (pre ++ p ++ [!bit]) m ([] : List (Update C)) := by
    refine ⟨.nil, ?_⟩
    intro v hv
    cases hv
  apply Attempts.joinAt bit hm hlen _ hvalues hnil hx (.nil hu) hresult
  cases bit with
  | false => exact (List.append_nil values).symm
  | true => rfl

end Attempts

theorem lt_of_partitionByBit {total idx : ℕ} (hkeys : ∀ u ∈ values, u.1.length = total)
    (hne : values ≠ []) (h : partitionByBit values bitPos = .ok idx) : bitPos < total := by
  have hpos := List.length_pos_iff.mpr hne
  obtain ⟨k, hk⟩ := Nat.exists_eq_succ_of_ne_zero hpos.ne'
  simp only [partitionByBit, hk, partitionFrom, Nat.succ_pos, if_true, bind_eq_ok,
    present_eq_ok, getBit] at h
  obtain ⟨u, hu, bit, hbit, -⟩ := h
  rw [← hkeys u (List.mem_of_getElem? hu)]
  exact (List.getElem?_eq_some_iff.mp hbit).1

theorem dictBuild_attempts {n total : ℕ} (htotal : pre.length + n = total)
    (hlen : total ≤ maxDataBits) (h : OrderedUpdates pre n values) {fuel : ℕ} (hfuel : n < fuel) :
    Attempts S T pre n values none (dictBuild S T fuel values total pre.length) := by
  induction fuel generalizing pre n values with
  | zero => omega
  | succ fuel ih =>
    match values with
    | [] => exact .nil wfOpt_none
    | [(key, value)] =>
      obtain ⟨k, hk, hkey⟩ := h.keys (key, value) (by simp)
      have hkey' : key = pre ++ k := hkey
      subst hkey'
      cases value with
      | none => exact .of_eq wfOpt_none (fun _ => .singleton rfl fun _ _ => rfl) rfl
      | some data =>
        apply Attempts.of_eq (t := some (.leaf k data)) (wfOpt_some.mpr hk)
        · intro _
          apply Updated.singleton (BitTrie.get_leaf_self k data)
          intro k' hk'
          rw [get_leaf, if_neg hk', BitTrie.getOpt_none]
        · have hn : total - pre.length = k.length := by omega
          have hlabel : bitsSlice (pre ++ k) pre.length k.length = .ok k :=
            bitsSlice_eq (by rw [List.drop_left, List.append_nil])
          rw [dictBuild, hn, hlabel, ok_bind, ← hk]
          rfl
    | first :: second :: rest =>
      have hremaining : total - pre.length = n := by omega
      by_cases hne : first.1 = (rest.getLastD second).1
      · -- a key that occurs twice is searched for a bit it does not have
        obtain ⟨k, hk, hkey⟩ := h.keys first (by simp)
        refine ⟨none, wfOpt_none, ?_, fun hs =>
          absurd hne (hs.first_ne List.getLastD_mem_cons)⟩
        intro cell hcell
        simp only [dictBuild, bind_eq_ok, ← hne, hremaining, ← hk, commonPrefixBits_self hkey] at hcell
        obtain ⟨common, hcommon, idx, hidx, -⟩ := hcell
        have hkeys : ∀ u ∈ first :: second :: rest, u.1.length = total := by
          intro u hu
          obtain ⟨k', hk', hkey'⟩ := h.keys u hu
          rw [hkey', List.length_append, hk', htotal]
        have hpos := lt_of_partitionByBit hkeys (List.cons_ne_nil _ _) hidx
        cases hcommon
        omega
      · obtain ⟨p, m, ls, rs, hm, hvalues, -, -, hls, hrs, hcommon, hsearch, x, hfirst⟩ :=
          h.split hne
        have hside : ∀ bit : Bool, (pre ++ p ++ [bit]).length = pre.length + p.length + 1 := by
          intro bit
          simp only [List.length_append, List.length_singleton]
        have hleft := ih (by rw [hside]; omega) hls (by omega)
        have hright := ih (by rw [hside]; omega) hrs (by omega)
        rw [hside] at hleft hright
        apply Attempts.joinAt false hm (by omega) hvalues hls hrs hleft hright
        intro cell
        have hlabel : bitsSlice first.1 pre.length p.length = .ok p :=
          bitsSlice_eq (by rw [hfirst, List.drop_left])
        have htake : (first :: second :: rest).take ls.length = ls := by
          rw [hvalues, List.take_left]
        have hdrop : (first :: second :: rest).drop ls.length = rs := by
          rw [hvalues, List.drop_left]
        simp only [dictBuild, hremaining, hcommon, hsearch, htake, hdrop, hlabel, ok_bind,
          bind_eq_ok, Bool.false_eq_true, if_false]

/-- The updates go on from `pre ++ p` with one key only, or part there. -/
def PartAfter (pre p : List Bool) (n : ℕ) (first : Update C) (rest left right : List (Update C)) :
    Prop :=
  (p.length = n ∧ (rest = [] ∨ ∃ second ∈ rest, first.1 = second.1)) ∨
    ∃ m, p.length + 1 + m = n ∧ first :: rest = left ++ right ∧ left ≠ [] ∧ right ≠ [] ∧
      OrderedUpdates (pre ++ p ++ [false]) m left ∧ OrderedUpdates (pre ++ p ++ [true]) m right

/-- What `dict_multiset_impl` finds out about the updates alone: they share `p` below
`pre`, and they are all of one key or part after it. -/
theorem OrderedUpdates.splitValues {n total : ℕ} (htotal : pre.length + n = total)
    {first : Update C} (h : OrderedUpdates pre n (first :: rest)) :
    ∃ p left right, splitValues (first :: rest) n total = .ok (p.length, left, right) ∧
      (∀ u ∈ first :: rest, ∃ x, u.1 = pre ++ (p ++ x)) ∧ p.length ≤ n ∧
      PartAfter pre p n first rest left right := by
  have hpre : total - n = pre.length := by omega
  obtain ⟨k, hk, hkey⟩ := h.keys first (by simp)
  cases rest with
  | nil =>
    refine ⟨k, [], [first], by rw [hk]; rfl, ?_, hk.le, .inl ⟨hk, .inl rfl⟩⟩
    intro u hu
    rw [List.mem_singleton.mp hu]
    exact ⟨[], by rw [hkey, List.append_nil]⟩
  | cons second rest =>
    by_cases hne : first.1 = (rest.getLastD second).1
    · -- one key, several times
      have hlast : rest.getLastD second ∈ second :: rest := List.getLastD_mem_cons
      refine ⟨k, [], first :: second :: rest, ?_, ?_, hk.le, .inl ⟨hk, .inr ⟨_, hlast, hne⟩⟩⟩
      · have hsame := commonPrefixBits_self hkey
        have hend : ¬ pre.length + k.length < total := by omega
        subst hk
        simp only [Hashmap.splitValues, hpre, ← hne, hsame, ok_bind, if_neg hend]
        rfl
      · intro u hu
        have hu' : first.1 ≤ u.1 ∧ u.1 ≤ first.1 := by
          rcases List.mem_cons.mp hu with rfl | hu
          · exact ⟨le_refl _, le_refl _⟩
          · refine ⟨(List.pairwise_cons.mp h.ordered).1 u hu, ?_⟩
            rw [hne]
            exact le_getLastD (List.pairwise_cons.mp h.ordered).2 u hu
        exact ⟨[], by rw [List.append_nil, ← hkey]; exact le_antisymm hu'.2 hu'.1⟩
    · obtain ⟨p, m, ls, rs, hm, hvalues, hls', hrs', hls, hrs, hcommon, hsearch, -⟩ := h.split hne
      have hpos : pre.length + p.length < total := by omega
      refine ⟨p, ls, rs, ?_, ?_, by omega, .inr ⟨m, hm, hvalues, hls', hrs', hls, hrs⟩⟩
      · have htake : (first :: second :: rest).take ls.length = ls := by
          rw [hvalues, List.take_left]
        have hdrop : (first :: second :: rest).drop ls.length = rs := by
          rw [hvalues, List.drop_left]
        simp only [Hashmap.splitValues, hpre, hcommon, ok_bind, if_pos hpos, hsearch, htake, hdrop]
        rfl
      · intro u hu
        rw [hvalues, List.mem_append] at hu
        rcases hu with hu | hu
        · obtain ⟨k, -, hk⟩ := hls.keys u hu
          exact ⟨false :: k, hk.trans (append_bit_append _ _ _ _)⟩
        · obtain ⟨k, -, hk⟩ := hrs.keys u hu
          exact ⟨true :: k, hk.trans (append_bit_append _ _ _ _)⟩

variable {bit : Bool}

theorem OrderedUpdates.below {pre p : List Bool} {n m : ℕ} (h : OrderedUpdates pre n values)
    (hm : p.length + 1 + m = n) (hkeys : ∀ u ∈ values, ∃ x, u.1 = pre ++ (p ++ bit :: x)) :
    OrderedUpdates (pre ++ p ++ [bit]) m values := by
  refine ⟨h.ordered, ?_⟩
  intro u hu
  obtain ⟨x, hx⟩ := hkeys u hu
  obtain ⟨k, hk, hk'⟩ := h.keys u hu
  refine ⟨x, ?_, hx.trans (append_bit_append _ _ _ _).symm⟩
  rw [hx, List.append_cancel_left_eq] at hk'
  rw [← hk', List.length_append, List.length_cons] at hk
  omega

theorem length_below {pre q : List Bool} {n m total : ℕ} (htotal : pre.length + n = total)
    (hm : q.length + 1 + m = n) (b : Bool) : (pre ++ q ++ [b]).length + m = total := by
  simp only [List.length_append, List.length_singleton]
  omega

theorem length_above_le {pre pre' : List Bool} (h : pre'.length ≤ pre.length) (q : List Bool)
    (b : Bool) : (pre' ++ q ++ [b]).length ≤ (pre ++ q ++ [b]).length := by
  simp only [List.length_append]
  omega

/-- A node that `dict_multiset_impl` has loaded, with what it found out about the
updates: the first bits of the label, `pre'`, are above this level. -/
structure MultisetNode (S : CellStore C) (pre pre' p : List Bool) (n total : ℕ)
    (t : BitTrie (Slice C)) (cell : C) (data : Slice C) (first : Update C)
    (rest left right : List (Update C)) : Prop where
  total_eq : pre.length + n = total
  fits : total ≤ maxDataBits
  wf : t.WF n
  load : loadNode S cell (n + pre'.length) = .ok (pre' ++ t.label, data)
  split : Hashmap.splitValues (first :: rest) n total = .ok (p.length, left, right)
  keys : ∀ u ∈ first :: rest, ∃ x, u.1 = pre ++ (p ++ x)

namespace MultisetNode

variable {pre pre' p : List Bool} {n total : ℕ} {t : BitTrie (Slice C)} {cell : C}
  {data : Slice C} {first : Update C} {rest left right : List (Update C)}

theorem drop_label (pre' label : List Bool) : (pre' ++ label).drop pre'.length = label :=
  List.drop_left

theorem length_label (pre' label : List Bool) :
    (pre' ++ label).length - pre'.length = label.length := by
  rw [List.length_append]
  omega

variable (node : MultisetNode S pre pre' p n total t cell data first rest left right) {b : Bool}
  {y : List Bool}

include node

/-- Where the label ends first, all updates are on one side of the node. -/
theorem keys_label (hy : p = t.label ++ b :: y) :
    ∀ v ∈ first :: rest, ∃ x, v.1 = pre ++ (t.label ++ b :: x) := by
  intro v hv
  obtain ⟨x, hx⟩ := node.keys v hv
  exact ⟨y ++ x, by rw [hx, hy, List.append_assoc, List.cons_append]⟩

variable {q : List Bool}

/-- The common prefix of the label and the updates. -/
theorem common {w : List Bool} (hp : p = q ++ u) (hlabel : t.label = q ++ w)
    (hend : (u = [] ∨ w = []) ∨ ∃ c u' w', u = c :: u' ∧ w = (!c) :: w') :
    commonPrefixBits first.1 (total - n) (pre' ++ t.label) pre'.length
      (min t.label.length p.length) = .ok q.length := by
  obtain ⟨x, hx⟩ := node.keys first (by simp)
  have hpre : total - n = pre.length := by have := node.total_eq; omega
  have hfirst : first.1.length = pre.length + (p.length + x.length) := by
    rw [hx, List.length_append, List.length_append]
  have hq : q.length ≤ min t.label.length p.length := by
    rw [hp, hlabel, List.length_append, List.length_append]
    omega
  rw [hpre]
  apply commonPrefixBits_eq (u := u ++ x) (w := w)
  · rw [hx, List.drop_left, hp, List.append_assoc]
  · rw [drop_label, hlabel]
  · omega
  · rw [List.length_append]
    omega
  · exact hq
  · rcases hend with (rfl | rfl) | ⟨c, u', w', rfl, rfl⟩
    · left
      rw [hp, hlabel]
      simp
    · left
      rw [hp, hlabel]
      simp
    · exact .inr ⟨c, u' ++ x, w', rfl, rfl⟩

variable {m fuel : ℕ}

theorem eval_diverge {z : List Bool} (hlabel : t.label = q ++ b :: y) (hp : p = q ++ (!b) :: z)
    (hm : q.length + 1 + m = n) :
    dictMultiset S T (fuel + 1) (some cell) (first :: rest) n total pre'.length = (do
      let dictSide ← finalizeNode S y m data
      let valuesSide ← dictBuild S T (total + 1) (first :: rest) total (pre ++ q ++ [!b]).length
      if b then makeSubtreeCell S T q n valuesSide (some dictSide)
      else makeSubtreeCell S T q n (some dictSide) valuesSide) := by
  have htotal := node.total_eq
  have hcommon := node.common hp hlabel (.inr ⟨!b, z, y, rfl, by rw [Bool.not_not]⟩)
  have hlt : q.length < t.label.length ∧ q.length < p.length := by
    rw [hlabel, hp, List.length_append, List.length_append, List.length_cons, List.length_cons]
    omega
  have hpruned : bitsSlice (pre' ++ t.label) (pre'.length + q.length + 1)
      (t.label.length - q.length - 1) = .ok y := by
    have hy : t.label.length - q.length - 1 = y.length := by
      rw [hlabel, List.length_append, List.length_cons]
      omega
    rw [hy]
    apply bitsSlice_eq (u := [])
    rw [List.append_nil, hlabel, List.append_cons q, ← List.append_assoc pre']
    apply List.drop_left'
    simp only [List.length_append, List.length_singleton]
    omega
  have hbit : getBit (pre' ++ t.label) (pre'.length + q.length) = .ok b :=
    getBit_eq (by rw [drop_label, hlabel])
  have hslice : bitsSlice (pre' ++ t.label) pre'.length q.length = .ok q :=
    bitsSlice_eq (by rw [drop_label, hlabel])
  have hbuild : total - n + q.length + 1 = (pre ++ q ++ [!b]).length := by
    simp only [List.length_append, List.length_singleton]
    omega
  have hroom : n - q.length - 1 = m := by omega
  simp [dictMultiset, node.split, node.load, ok_bind, hcommon, if_pos hlt, hpruned, hbit, hslice,
    hbuild, hroom]

theorem eval_within (hlabel : t.label = p ++ b :: y) (hm : p.length + 1 + m = n) :
    dictMultiset S T (fuel + 1) (some cell) (first :: rest) n total pre'.length = (do
      let side ← dictMultiset S T fuel (some cell) (if b then right else left) m total
        (pre' ++ p ++ [b]).length
      let other ← dictBuild S T (total + 1) (if b then left else right) total
        (pre ++ p ++ [!b]).length
      if b then makeSubtreeCell S T p n other side else makeSubtreeCell S T p n side other) := by
  have htotal := node.total_eq
  have hcommon := node.common (List.append_nil p).symm hlabel (.inl (.inl rfl))
  have hlt : p.length < t.label.length := by
    rw [hlabel, List.length_append, List.length_cons]
    omega
  have hbit : getBit (pre' ++ t.label) (pre'.length + p.length) = .ok b :=
    getBit_eq (by rw [drop_label, hlabel])
  have hslice : bitsSlice first.1 (total - n) p.length = .ok p := by
    obtain ⟨x, hx⟩ := node.keys first (by simp)
    apply bitsSlice_eq (u := x)
    rw [show total - n = pre.length by omega, hx, List.drop_left]
  have hbuild : total - n + p.length + 1 = (pre ++ p ++ [!b]).length := by
    simp only [List.length_append, List.length_singleton]
    omega
  have hskip : pre'.length + p.length + 1 = (pre' ++ p ++ [b]).length := by
    simp only [List.length_append, List.length_singleton]
  have hroom : n - p.length - 1 = m := by omega
  simp only [dictMultiset, node.split, node.load, ok_bind, length_label, hcommon, lt_irrefl,
    and_false, if_false, hlt.ne, false_and, hbit, hslice, hbuild, hskip, hroom]
  cases b with
  | false | true => rfl

theorem eval_leaf (hlabel : t.label = p) (hp : p.length = n) :
    dictMultiset S T (fuel + 1) (some cell) (first :: rest) n total pre'.length =
      encodeOpt S T n (first.2.map (leaf p)) := by
  have hcommon := node.common (List.append_nil p).symm (hlabel.trans (List.append_nil p).symm)
    (.inl (.inl rfl))
  have hslice : bitsSlice (pre' ++ t.label) pre'.length p.length = .ok p :=
    bitsSlice_eq (by rw [drop_label, hlabel, List.append_nil])
  rw [hlabel] at hcommon hslice
  simp only [dictMultiset, node.split, node.load, ok_bind, hlabel, length_label, hcommon, lt_irrefl,
    and_self, if_false, if_true, if_pos hp, hslice]
  cases first.2 with
  | none | some value => rfl

variable {leftChild rightChild : C}

theorem eval_fork
    (hlabel : t.label = p) (hm : p.length + 1 + m = n) (hrefl : data.refs[0]? = some leftChild)
    (hrefr : data.refs[1]? = some rightChild) :
    dictMultiset S T (fuel + 1) (some cell) (first :: rest) n total pre'.length = (do
      let c1 ← dictMultiset S T fuel (some leftChild) left m total 0
      let c2 ← dictMultiset S T fuel (some rightChild) right m total 0
      makeSubtreeCell S T p n c1 c2) := by
  have hcommon := node.common (List.append_nil p).symm (hlabel.trans (List.append_nil p).symm)
    (.inl (.inl rfl))
  have hslice : bitsSlice (pre' ++ t.label) pre'.length p.length = .ok p :=
    bitsSlice_eq (by rw [drop_label, hlabel, List.append_nil])
  have hroom : n - p.length - 1 = m := by omega
  have hne : p.length ≠ n := by omega
  rw [hlabel] at hcommon hslice
  simp only [dictMultiset, node.split, node.load, ok_bind, hlabel, length_label, hcommon, lt_irrefl,
    and_self, if_false, if_true, hne, hroom, hslice, reference_eq_ok.mpr hrefl,
    reference_eq_ok.mpr hrefr]

theorem eval_oneSide (hp : p = t.label ++ b :: y) (hm : t.label.length + 1 + m = n)
    (hrefl : data.refs[0]? = some leftChild) (hrefr : data.refs[1]? = some rightChild) :
    dictMultiset S T (fuel + 1) (some cell) (first :: rest) n total pre'.length = (do
      let side ← dictMultiset S T fuel (some (if b then rightChild else leftChild))
        (first :: rest) m total 0
      if b then makeSubtreeCell S T t.label n (some leftChild) side
      else makeSubtreeCell S T t.label n side (some rightChild)) := by
  have htotal := node.total_eq
  have hcommon := node.common hp (List.append_nil t.label).symm (.inl (.inr rfl))
  have hlt : t.label.length < p.length := by
    rw [hp, List.length_append, List.length_cons]
    omega
  have hslice : bitsSlice (pre' ++ t.label) pre'.length t.label.length = .ok t.label :=
    bitsSlice_eq (by rw [drop_label, List.append_nil])
  have hbit : getBit first.1 (total - n + t.label.length) = .ok b := by
    obtain ⟨x, hx⟩ := node.keys first (by simp)
    rw [show total - n = pre.length by omega]
    apply getBit_eq
    rw [hx, List.drop_left, hp, List.append_assoc]
    rfl
  have hroom : n - t.label.length - 1 = m := by omega
  simp only [dictMultiset, node.split, node.load, ok_bind, length_label, hcommon, lt_irrefl,
    false_and, if_false, hlt.ne, and_false, if_true, hroom, hslice, hbit,
    reference_eq_ok.mpr hrefl, reference_eq_ok.mpr hrefr]
  cases b with
  | false | true => rfl

theorem attempts_diverge
    (h : OrderedUpdates pre n (first :: rest)) {z : List Bool} (hlabel : t.label = q ++ b :: y)
    (hp : p = q ++ (!b) :: z) {u : BitTrie (Slice C)} (hu : u.WF m) (hm : q.length + 1 + m = n)
    (hut : t = u.prepend (q ++ [b])) (huy : u.label = y) (hdata : IsNode S T m u data) :
    Attempts S T pre n (first :: rest) (some t)
      (dictMultiset S T (fuel + 1) (some cell) (first :: rest) n total pre'.length) := by
  have hfits := node.fits
  have htotal := node.total_eq
  have hkeys : ∀ v ∈ first :: rest, ∃ x, v.1 = pre ++ (q ++ (!b) :: x) := by
    intro v hv
    obtain ⟨x, hx⟩ := node.keys v hv
    exact ⟨z ++ x, by rw [hx, hp, List.append_assoc, List.cons_append]⟩
  have hbelow := h.below hm hkeys
  have hvalues := dictBuild_attempts (S := S) (T := T) (length_below htotal hm (!b)) hfits hbelow
    (show m < total + 1 by omega)
  rw [hut, BitTrie.some_prepend_eq_joinAt, ← BitTrie.joinAt_not]
  apply Attempts.oneSide _ hm (by omega) hbelow (wfOpt_some.mpr hu) hvalues
  intro c
  rw [node.eval_diverge hlabel hp hm]
  simp only [bind_eq_ok, ← huy, hdata.finalizeNode_iff, encodeOpt_some]
  constructor
  · rintro ⟨d, hd, e, he, hcell⟩
    refine ⟨e, he, some d, ⟨d, hd, rfl⟩, ?_⟩
    cases b with
    | false | true => exact hcell
  · rintro ⟨e, he, _, ⟨d, hd, rfl⟩, hcell⟩
    refine ⟨d, hd, e, he, ?_⟩
    cases b with
    | false | true => exact hcell

theorem attempts_within
    (hlabel : t.label = p ++ b :: y) {u : BitTrie (Slice C)} (hm : p.length + 1 + m = n)
    (hut : t = u.prepend (p ++ [b])) (hvalues : first :: rest = left ++ right)
    (hsides : ∀ c, OrderedUpdates (pre ++ p ++ [c]) m (if c then right else left))
    (hside : Attempts S T (pre ++ p ++ [b]) m (if b then right else left) (some u)
      (dictMultiset S T fuel (some cell) (if b then right else left) m total
        (pre' ++ p ++ [b]).length)) : Attempts S T pre n (first :: rest) (some t)
      (dictMultiset S T (fuel + 1) (some cell) (first :: rest) n total pre'.length) := by
  have hfits := node.fits
  have htotal := node.total_eq
  have hother := dictBuild_attempts (S := S) (T := T) (length_below htotal hm (!b)) hfits
    (hsides !b) (show m < total + 1 by omega)
  rw [hut, BitTrie.some_prepend_eq_joinAt]
  apply Attempts.joinAt b hm (by omega) _ (hsides b) (hsides !b) hside hother
  · intro c
    rw [node.eval_within hlabel hm]
    cases b with
    | false => simp only [bind_eq_ok, Bool.not_false, Bool.false_eq_true, if_false, if_true]
    | true => simp only [bind_eq_ok, Bool.not_true, Bool.false_eq_true, if_false, if_true]
  · rw [hvalues]
    cases b with
    | false | true => rfl

theorem attempts_leaf (hlabel : t.label = p) (hp : p.length = n)
    (hrest : rest = [] ∨ ∃ second ∈ rest, first.1 = second.1) :
    Attempts S T pre n (first :: rest) (some t)
      (dictMultiset S T (fuel + 1) (some cell) (first :: rest) n total pre'.length) := by
  apply Attempts.of_eq (BitTrie.wfOpt_map_leaf hp) _ (node.eval_leaf hlabel hp)
  intro hs
  obtain rfl : rest = [] := hrest.resolve_right fun ⟨_, hmem, heq⟩ => hs.first_ne hmem heq
  obtain ⟨value, ht⟩ := node.wf.eq_leaf (by rw [hlabel, hp])
  rw [hlabel] at ht
  obtain ⟨x, hx⟩ := node.keys first (by simp)
  have hfirst : first = (pre ++ p, first.2) := by
    obtain ⟨k, hk, hk'⟩ := hs.keys first (by simp)
    rw [hx, List.append_cancel_left_eq] at hk'
    rw [← hk', List.length_append] at hk
    obtain rfl : x = [] := List.length_eq_zero_iff.mp (by omega)
    exact Prod.ext (by rw [hx, List.append_nil]) rfl
  rw [hfirst]
  apply Updated.singleton
  · cases first.2 with
    | none => rfl
    | some data => exact BitTrie.get_leaf_self p data
  · intro k hk
    rw [ht]
    cases first.2 with
    | none => rw [getOpt_some, get_leaf, if_neg hk]; rfl
    | some data =>
      rw [Option.map_some, getOpt_some, getOpt_some, get_leaf,
        get_leaf, if_neg hk, if_neg hk]

theorem attempts_oneSide
    (hp : p = t.label ++ b :: y) {l r : BitTrie (Slice C)} (ht : t = .fork t.label l r)
    (hm : t.label.length + 1 + m = n) (hlwf : l.WF m) (hrwf : r.WF m)
    (hrefl : data.refs[0]? = some leftChild) (hrefr : data.refs[1]? = some rightChild)
    (hlenc : encode S T m l = .ok leftChild) (hrenc : encode S T m r = .ok rightChild)
    (hbelow : OrderedUpdates (pre ++ t.label ++ [b]) m (first :: rest))
    (hside : Attempts S T (pre ++ t.label ++ [b]) m (first :: rest) (some (child l r b))
      (dictMultiset S T fuel (some (if b then rightChild else leftChild)) (first :: rest) m
        total 0)) : Attempts S T pre n (first :: rest) (some t)
      (dictMultiset S T (fuel + 1) (some cell) (first :: rest) n total pre'.length) := by
  have hfits := node.fits
  have htotal := node.total_eq
  have hjoin : some t = BitTrie.joinAt t.label b (some (child l r b))
      (some (child l r !b)) := by
    rw [ht]
    cases b with
    | false | true => rfl
  rw [hjoin]
  apply Attempts.oneSide _ hm (by omega) hbelow
    (wfOpt_some.mpr (BitTrie.WF.side hlwf hrwf _)) hside
  intro c
  rw [node.eval_oneSide hp hm hrefl hrefr]
  cases b with
  | false =>
    simp [bind_eq_ok, encodeOpt_some, hrenc]
  | true =>
    simp [bind_eq_ok, encodeOpt_some, hlenc]

end MultisetNode

variable {t : BitTrie (Slice C)}

theorem exists_multisetNode {pre pre' : List Bool} {n total : ℕ} (htotal : pre.length + n = total)
    (hlen : total ≤ maxDataBits) (hpre' : pre'.length ≤ pre.length) (ht : t.WF n) {cell : C}
    (hcell : encode S T (n + pre'.length) (t.prepend pre') = .ok cell) {first : Update C}
    (h : OrderedUpdates pre n (first :: rest)) :
    ∃ p left right data, MultisetNode S pre pre' p n total t cell data first rest left right ∧
      IsNode S T n t data ∧ p.length ≤ n ∧
      PartAfter pre p n first rest left right := by
  obtain ⟨p, left, right, hsplit, hkeys, hp, hsides⟩ := h.splitValues htotal
  have hroom : pre'.length + n = n + pre'.length := Nat.add_comm _ _
  have hwf := ht.prepend pre'
  rw [hroom] at hwf
  obtain ⟨data, hdata, hload, -⟩ := exists_isNode hwf (by omega) hcell
  rw [BitTrie.label_prepend] at hload
  rw [isNode_prepend hroom] at hdata
  exact ⟨p, left, right, data, ⟨htotal, hlen, ht, hload, hsplit, hkeys⟩, hdata, hp, hsides⟩

theorem exists_below {pre' q y : List Bool} {b : Bool} {n : ℕ} (ht : t.WF n) {cell : C}
    (hcell : encode S T (n + pre'.length) (t.prepend pre') = .ok cell) {data : Slice C}
    (hdata : IsNode S T n t data) (hlabel : t.label = q ++ b :: y) :
    ∃ (u : BitTrie (Slice C)) (m : ℕ), t = u.prepend (q ++ [b]) ∧ u.label = y ∧ u.WF m ∧
      q.length + 1 + m = n ∧ IsNode S T m u data ∧
      encode S T (m + (pre' ++ q ++ [b]).length) (u.prepend (pre' ++ q ++ [b])) = .ok cell := by
  obtain ⟨u, m, hut, hul, hu, hm⟩ := ht.exists_prepend (hlabel.trans (List.append_cons q b y))
  have hn : (pre' ++ q ++ [b]).length + m = n + pre'.length := by
    rw [List.append_assoc, List.length_append]
    omega
  rw [hut, isNode_prepend hm] at hdata
  rw [hut, BitTrie.prepend_append, ← List.append_assoc] at hcell
  rw [List.length_append, List.length_singleton] at hm
  refine ⟨u, m, hut, hul, hu, hm, hdata, ?_⟩
  rw [Nat.add_comm m, hn]
  exact hcell

variable {n : ℕ}

theorem exists_sides (ht : t.WF n) (hlt : t.label.length < n) {data : Slice C}
    (hdata : IsNode S T n t data) :
    ∃ l r m left right, t = .fork t.label l r ∧ t.label.length + 1 + m = n ∧ l.WF m ∧ r.WF m ∧
      encode S T m l = .ok left ∧ encode S T m r = .ok right ∧ data.refs[0]? = some left ∧
      data.refs[1]? = some right := by
  obtain ⟨l, r, hfork⟩ := ht.eq_fork hlt
  have hdata' := hdata
  rw [hfork] at hdata' ht
  obtain ⟨m, left, right, extra, hm, hleft, hright, -, rfl⟩ := hdata'
  obtain ⟨hl, hr⟩ := ht.of_fork hm
  exact ⟨l, r, m, left, right, hfork, hm, hl, hr, hleft, hright, rfl, rfl⟩

theorem encode_prepend_nil {k : ℕ} {u : BitTrie (Slice C)} {c : C} (h : encode S T k u = .ok c) :
    encode S T (k + ([] : List Bool).length) (u.prepend []) = .ok c := by
  rw [prepend_nil]
  exact h

/-- `dict_multiset_impl` makes the updates below a node of which the first bits of the
label, `pre'`, are above this level. -/
theorem dictMultiset_attempts {pre pre' : List Bool} {n total : ℕ} (htotal : pre.length + n = total)
    (hlen : total ≤ maxDataBits) (hpre' : pre'.length ≤ pre.length) (ht : t.WF n) {cell : C}
    (hcell : encode S T (n + pre'.length) (t.prepend pre') = .ok cell)
    (h : OrderedUpdates pre n values) (hne : pre' ≠ [] → values ≠ []) {fuel : ℕ}
    (hfuel : n < fuel) : Attempts S T pre n values (some t)
      (dictMultiset S T fuel (some cell) values n total pre'.length) := by
  induction fuel generalizing pre pre' n t cell values with
  | zero => omega
  | succ fuel ih =>
    cases values with
    | nil =>
      obtain rfl : pre' = [] := by
        by_contra hpre
        exact hne hpre rfl
      rw [prepend_nil] at hcell
      apply Attempts.of_eq (wfOpt_some.mpr ht) fun _ => .nil _ _
      exact (encodeOpt_some.mpr ⟨cell, hcell, rfl⟩).symm
    | cons first rest =>
      obtain ⟨p, left, right, data, node, hdata, hp, hsides⟩ :=
        exists_multisetNode htotal hlen hpre' ht hcell h
      have hplain : ∀ {above : List Bool} {k : ℕ} {u : BitTrie (Slice C)} {c : C}
          {vs : List (Update C)}, above.length + k = total → u.WF k → encode S T k u = .ok c →
          OrderedUpdates above k vs → k < fuel → Attempts S T above k vs (some u)
            (dictMultiset S T fuel (some c) vs k total 0) := by
        intro above k u c vs habove hu hc hvs hk
        exact ih habove (Nat.zero_le _) hu (encode_prepend_nil hc) hvs (absurd rfl) hk
      rcases prefix_cases t.label p with ⟨y, hy⟩ | ⟨b, y, hy⟩ | ⟨q, b, y, z, hy, hz⟩
      · -- the label of the node ends first
        cases y with
        | nil =>
          rw [List.append_nil] at hy
          rcases hsides with ⟨hpn, hsame⟩ | ⟨m, hm, hvalues, -, -, hleft, hright⟩
          · exact node.attempts_leaf hy.symm hpn hsame
          · obtain ⟨l, r, k, lc, rc, htfork, hk, hl, hr, hlenc, hrenc, hrefl, hrefr⟩ :=
              exists_sides ht (by rw [← hy]; omega) hdata
            rw [← hy] at htfork hk
            obtain rfl : k = m := by omega
            have hbelow := length_below htotal hm
            have hl' := hplain (hbelow false) hl hlenc hleft (by omega)
            have hr' := hplain (hbelow true) hr hrenc hright (by omega)
            rw [htfork]
            apply Attempts.joinAt false hm (by omega) hvalues hleft hright hl' hr'
            intro c
            rw [node.eval_fork hy.symm hm hrefl hrefr]
            simp [bind_eq_ok]
        | cons b y =>
          have hlt : t.label.length < n := by
            rw [hy, List.length_append, List.length_cons] at hp
            omega
          obtain ⟨l, r, k, lc, rc, htfork, hk, hl, hr, hlenc, hrenc, hrefl, hrefr⟩ :=
            exists_sides ht hlt hdata
          have hbelow := h.below hk (node.keys_label hy)
          apply node.attempts_oneSide hy htfork hk hl hr hrefl hrefr hlenc hrenc hbelow
          exact hplain (length_below htotal hk b) (BitTrie.WF.side hl hr b)
            (encode_child hlenc hrenc b) hbelow (by omega)
      · -- the updates part within the label
        obtain ⟨u, m, hut, -, hu, hm, -, hucell⟩ := exists_below ht hcell hdata hy
        rcases hsides with ⟨hpn, -⟩ | ⟨k, hk, hvalues, hlne, hrne, hleft, hright⟩
        · omega
        · obtain rfl : k = m := by omega
          have hboth : ∀ c, OrderedUpdates (pre ++ p ++ [c]) k (if c then right else left) := by
            intro c
            cases c with
            | false => exact hleft
            | true => exact hright
          apply node.attempts_within hy hm hut hvalues hboth
          apply ih (length_below htotal hm b) (length_above_le hpre' p b) hu hucell (hboth b)
          · intro _
            cases b with
            | false => exact hlne
            | true => exact hrne
          · omega
      · -- the label and the updates part
        obtain ⟨u, m, hut, hul, hu, hm, hnode, -⟩ := exists_below ht hcell hdata hy
        exact node.attempts_diverge h hy hz hu hm hut hul hnode

theorem Updated.congr_mem {values' : List (Update C)} {m m' : PartialMap C}
    (h : Updated pre values m m') (hmem : ∀ u, u ∈ values ↔ u ∈ values') :
    Updated pre values' m m' := by
  constructor
  · intro key o ho
    exact h.1 key o ((hmem _).mpr ho)
  · intro key hkey
    apply h.2 key
    intro o ho
    exact hkey o ((hmem _).mp ho)

theorem sortedUpdates_insertionSort (hkeys : ∀ u ∈ values, u.1.length = n)
    (hdistinct : (values.map Prod.fst).Nodup) :
    SortedUpdates [] n (values.insertionSort fun a b => a.1 ≤ b.1) := by
  have hperm := List.perm_insertionSort (fun a b : Update C => a.1 ≤ b.1) values
  constructor
  · have hsorted := List.pairwise_insertionSort (fun a b : Update C => a.1 ≤ b.1) values
    have hnodup : ((values.insertionSort fun a b => a.1 ≤ b.1).map Prod.fst).Nodup :=
      (hperm.map Prod.fst).nodup_iff.mpr hdistinct
    rw [List.Nodup, List.pairwise_map] at hnodup
    apply (hsorted.and hnodup).imp
    rintro a b ⟨hle, hne⟩
    rw [← not_le]
    intro hge
    exact hne (le_antisymm hle hge)
  · intro u hu
    exact ⟨u.1, hkeys u (hperm.mem_iff.mp hu), rfl⟩

variable (hlen : n ≤ maxDataBits)
include hlen

theorem hashmapMultiset_attempts {t : Option (BitTrie (Slice C))} (ht : BitTrie.WFOpt n t)
    {data : Option C} (hdata : encodeOpt S T n t = .ok data) (hkeys : ∀ u ∈ values, u.1.length = n) :
    Attempts S T [] n (values.insertionSort fun a b => a.1 ≤ b.1) t
      (hashmapMultiset S T data n values) := by
  have hordered : OrderedUpdates [] n (values.insertionSort fun a b => a.1 ≤ b.1) := by
    refine ⟨List.pairwise_insertionSort _ values, fun u hu => ⟨u.1, ?_, rfl⟩⟩
    exact hkeys u ((List.perm_insertionSort _ values).mem_iff.mp hu)
  have hchecks : (forM values fun value =>
      require (value.1.length = n) "multiset key bit_len") = .ok () := by
    rw [forM_eq_ok]
    intro u hu
    rw [require_eq_ok]
    exact hkeys u hu
  by_cases hnil : values = []
  · subst hnil
    exact .of_eq ht (fun _ => .nil _ _) hdata.symm
  · rw [hashmapMultiset, if_neg hnil, hchecks, ok_bind]
    cases t with
    | none =>
      obtain rfl := encodeOpt_none.mp hdata
      rw [dictMultiset, Nat.sub_self]
      exact dictBuild_attempts (Nat.zero_add n) hlen hordered (Nat.lt_succ_self n)
    | some t =>
      obtain ⟨cell, hcell, rfl⟩ := encodeOpt_some.mp hdata
      exact dictMultiset_attempts (Nat.zero_add n) hlen le_rfl (wfOpt_some.mp ht)
        (encode_prepend_nil hcell) hordered (absurd rfl) (Nat.lt_succ_self n)

/-- Whatever updates `hashmap_multiset` accepts, it leaves a dictionary. -/
theorem hashmapMultiset_isDictionary {data data' : Option C} (hdata : IsDictionary S T n data)
    (h : hashmapMultiset S T data n values = .ok data') : IsDictionary S T n data' := by
  obtain ⟨t, ht, hroot⟩ := hdata
  by_cases hnil : values = []
  · rw [hashmapMultiset, if_pos hnil] at h
    cases h
    exact ⟨t, ht, hroot⟩
  · have hkeys : ∀ u ∈ values, u.1.length = n := by
      intro u hu
      rw [hashmapMultiset, if_neg hnil] at h
      obtain ⟨_, hchecks, -⟩ := bind_eq_ok.mp h
      exact (require_eq_ok _ _ _).mp (forM_eq_ok.mp hchecks u hu)
    exact (hashmapMultiset_attempts hlen ht hroot hkeys).isDictionary h

/-- `hashmap_multiset` makes all updates at once, whenever the cells of the updated
dictionary can be built. -/
theorem hashmapMultiset_computes {t : Option (BitTrie (Slice C))} (ht : BitTrie.WFOpt n t)
    {data : Option C} (hdata : encodeOpt S T n t = .ok data) (hkeys : ∀ u ∈ values, u.1.length = n)
    (hdistinct : (values.map Prod.fst).Nodup) :
    Computes S T [] n values t (hashmapMultiset S T data n values) := by
  obtain ⟨t', ht', hup, hcell⟩ := (hashmapMultiset_attempts (S := S) (T := T) hlen ht hdata
    hkeys).computes (sortedUpdates_insertionSort hkeys hdistinct)
  exact ⟨t', ht', hup.congr_mem fun u => (List.perm_insertionSort _ values).mem_iff, hcell⟩

end Spec

end Updates

end TonNode.Hashmap
