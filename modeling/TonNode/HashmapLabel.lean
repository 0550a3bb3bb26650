import TonNode.Bits
import TonNode.Checks

/-! Labels of dictionary edges. A label is written in the shortest of three shapes,
which depends on the bits and on the greatest length it could have; what was
written is read back whatever follows it. -/
namespace TonNode.Hashmap

open Block Checked

def maxDataBits : ℕ := 1023

def sameBit (key : List Bool) : Option Bool := key.head?.filter fun b => key.all (· = b)

def shortHead (len : ℕ) : List Bool := false :: (List.replicate len true ++ [false])

def longHead (k len : ℕ) : List Bool := true :: false :: natToBits k len

def hmLabelSame (len : ℕ) (same : Bool) (maxLen : ℕ) : List Bool :=
  let k := sizeBits maxLen
  if 1 < len ∧ k < 2 * len - 1 then true :: true :: same :: natToBits k len
  else if k < len then longHead k len ++ List.replicate len same
  else shortHead len ++ List.replicate len same

/-- The label in the shape that `hm_label` chooses. -/
def labelBits (key : List Bool) (maxLen : ℕ) : List Bool :=
  match sameBit key with
  | some bit => hmLabelSame key.length bit maxLen
  | none =>
    let k := sizeBits maxLen
    if k < key.length then longHead k key.length ++ key else shortHead key.length ++ key

/-- Every append to the builder checks the room, so that a label is written when the whole of it
fits. -/
def hmLabel (key : List Bool) (maxLen : ℕ) : Checked (List Bool) := do
  require ((labelBits key maxLen).length ≤ maxDataBits) "CellOverflow"
  pure (labelBits key maxLen)

def readUnary : List Bool → Checked (ℕ × List Bool)
  | [] => reject "CellUnderflow"
  | false :: rest => pure (0, rest)
  | true :: rest => do
    let (len, rest) ← readUnary rest
    pure (len + 1, rest)

variable (bits : List Bool)

def getNextSize (maxValue : ℕ) : Checked (ℕ × List Bool) :=
  if maxValue = 0 then pure (0, bits)
  else do
    let k := sizeBits maxValue
    require (k ≤ bits.length) "CellUnderflow"
    pure (bitsToNat (bits.take k), bits.drop k)

/-- `shrink_data(len..)`: nothing is taken when there are too few bits. -/
def shrinkData (len : ℕ) : List Bool × List Bool :=
  if len ≤ bits.length then (bits.take len, bits.drop len) else ([], bits)

def readLabel (maxLen : ℕ) : Checked (List Bool × List Bool) :=
  match bits with
  | [] => pure ([], [])
  | false :: bits => do
    let (len, bits) ← readUnary bits
    require (len ≤ maxLen) "CellUnderflow"
    pure (shrinkData bits len)
  | true :: false :: bits => do
    let (len, bits) ← getNextSize bits maxLen
    require (len ≤ maxLen) "CellUnderflow"
    pure (shrinkData bits len)
  | true :: true :: value :: bits => do
    let (len, bits) ← getNextSize bits maxLen
    require (len ≤ maxDataBits) "CellOverflow"
    require (len ≤ maxLen) "CellUnderflow"
    pure (List.replicate len value, bits)
  | _ => reject "CellUnderflow"

def readLabelLength (maxLen : ℕ) : Checked ℕ :=
  match bits with
  | [] => pure 0
  | false :: bits => do
    let (len, _) ← readUnary bits
    require (len ≤ maxLen) "CellUnderflow"
    pure len
  | true :: false :: bits => do
    let (len, _) ← getNextSize bits maxLen
    require (len ≤ maxLen) "CellUnderflow"
    pure len
  | true :: true :: _ :: bits => do
    let (len, _) ← getNextSize bits maxLen
    require (len ≤ maxLen) "CellUnderflow"
    pure len
  | _ => reject "CellUnderflow"

/-- `read_label_raw`: the label, how much of the key is left and the bits after the label.
A label that is cut short takes its whole length from the key. -/
def readLabelRaw (maxLen : ℕ) : Checked (List Bool × ℕ × List Bool) := do
  let (label, rest) ← readLabel bits maxLen
  let len ← readLabelLength bits maxLen
  pure (label, maxLen - len, rest)

section RoundTrip

theorem sameBit_eq_some {key : List Bool} {b : Bool} (h : sameBit key = some b) :
    key = List.replicate key.length b ∧ 0 < key.length := by
  rw [sameBit, Option.filter_eq_some_iff] at h
  obtain ⟨hhead, hall⟩ := h
  constructor
  · apply List.eq_replicate_of_mem
    intro a ha
    simpa using List.all_eq_true.mp hall a ha
  · cases key with
    | nil => cases hhead
    | cons a key => simp

theorem sameBit_of_forall {key : List Bool} {b : Bool} (hne : key ≠ []) (h : ∀ x ∈ key, x = b) :
    sameBit key = some b := by
  cases key with
  | nil => exact absurd rfl hne
  | cons a rest =>
    obtain rfl := h a List.mem_cons_self
    have hall : (a :: rest).all (· = a) = true := by
      rw [List.all_eq_true]
      intro x hx
      simp [h x hx]
    rw [sameBit, List.head?_cons, Option.filter_some, if_pos hall]

theorem readUnary_replicate (len : ℕ) (rest : List Bool) :
    readUnary (List.replicate len true ++ false :: rest) = .ok (len, rest) := by
  induction len with
  | zero => rfl
  | succ len ih =>
    rw [List.replicate_succ, List.cons_append, readUnary, ih]
    rfl

variable {maxLen : ℕ}

theorem getNextSize_natToBits {len : ℕ} (h : len ≤ maxLen) (rest : List Bool) :
    getNextSize (natToBits (sizeBits maxLen) len ++ rest) maxLen = .ok (len, rest) := by
  by_cases hmax : maxLen = 0
  · subst hmax
    obtain rfl : len = 0 := by omega
    rfl
  · have htake : (natToBits (sizeBits maxLen) len ++ rest).take (sizeBits maxLen) =
        natToBits (sizeBits maxLen) len :=
      List.take_left' (length_natToBits _ _)
    have hdrop : (natToBits (sizeBits maxLen) len ++ rest).drop (sizeBits maxLen) = rest :=
      List.drop_left' (length_natToBits _ _)
    simp only [getNextSize, if_neg hmax, bind_eq_ok, require_eq_ok, List.length_append,
      length_natToBits, htake, hdrop, pure_eq_ok]
    exact ⟨(), Nat.le_add_right _ _, by rw [bitsToNat_natToBits (lt_two_pow_sizeBits h)]⟩

variable (key rest : List Bool)

theorem shrinkData_append : shrinkData (key ++ rest) key.length = (key, rest) := by
  simp [shrinkData]

theorem readLabel_short (h : key.length ≤ maxLen) :
    readLabel (shortHead key.length ++ key ++ rest) maxLen = .ok (key, rest) := by
  have hunary : readUnary (List.replicate key.length true ++ [false] ++ key ++ rest) =
      .ok (key.length, key ++ rest) := by
    simpa using readUnary_replicate key.length (key ++ rest)
  simp only [shortHead, List.cons_append, readLabel, hunary, bind_eq_ok, Except.ok.injEq,
    require_eq_ok, pure_eq_ok]
  exact ⟨_, rfl, (), h, shrinkData_append key rest⟩

theorem readLabel_long (h : key.length ≤ maxLen) :
    readLabel (longHead (sizeBits maxLen) key.length ++ key ++ rest) maxLen = .ok (key, rest) := by
  have hsize := getNextSize_natToBits h (key ++ rest)
  rw [← List.append_assoc] at hsize
  simp only [longHead, List.cons_append, readLabel, hsize, bind_eq_ok, Except.ok.injEq,
    require_eq_ok, pure_eq_ok]
  exact ⟨_, rfl, (), h, shrinkData_append key rest⟩

theorem readLabel_same (len : ℕ) (b : Bool) (rest : List Bool) (h : len ≤ maxLen)
    (hmax : maxLen ≤ maxDataBits) :
    readLabel (true :: true :: b :: (natToBits (sizeBits maxLen) len ++ rest)) maxLen =
      .ok (List.replicate len b, rest) := by
  simp only [readLabel, getNextSize_natToBits h rest, bind_eq_ok, Except.ok.injEq, require_eq_ok,
    pure_eq_ok]
  exact ⟨_, rfl, (), h.trans hmax, (), h, rfl⟩

variable (h : key.length ≤ maxLen)
include h

theorem readLabel_labelBits (hmax : maxLen ≤ maxDataBits) :
    readLabel (labelBits key maxLen ++ rest) maxLen = .ok (key, rest) := by
  rw [labelBits]
  cases hsame : sameBit key with
  | none =>
    simp only
    split_ifs
    · exact readLabel_long key rest h
    · exact readLabel_short key rest h
  | some b =>
    obtain ⟨hkey, -⟩ := sameBit_eq_some hsame
    simp only [hmLabelSame]
    split_ifs
    · have hread := readLabel_same key.length b rest h hmax
      rw [← hkey] at hread
      exact hread
    · rw [← hkey]
      exact readLabel_long key rest h
    · rw [← hkey]
      exact readLabel_short key rest h

theorem readLabelLength_labelBits :
    readLabelLength (labelBits key maxLen ++ rest) maxLen = .ok key.length := by
  have hshort : ∀ rest, readLabelLength (shortHead key.length ++ rest) maxLen = .ok key.length := by
    intro rest
    have hunary : readUnary (List.replicate key.length true ++ [false] ++ rest) =
        .ok (key.length, rest) := by
      simpa using readUnary_replicate key.length rest
    simp only [shortHead, List.cons_append, readLabelLength, hunary, ok_bind, require, if_pos h]
    rfl
  have hlong : ∀ rest, readLabelLength (longHead (sizeBits maxLen) key.length ++ rest) maxLen =
      .ok key.length := by
    intro rest
    simp only [longHead, List.cons_append, readLabelLength, getNextSize_natToBits h rest, ok_bind,
      require, if_pos h]
    rfl
  rw [labelBits]
  cases hsame : sameBit key with
  | none =>
    simp only
    split_ifs
    · rw [List.append_assoc]
      exact hlong _
    · rw [List.append_assoc]
      exact hshort _
  | some b =>
    simp only [hmLabelSame]
    split_ifs
    · simp only [List.cons_append, readLabelLength, getNextSize_natToBits h rest, ok_bind, require,
        if_pos h]
      rfl
    · rw [List.append_assoc]
      exact hlong _
    · rw [List.append_assoc]
      exact hshort _

theorem readLabelRaw_labelBits (hmax : maxLen ≤ maxDataBits) :
    readLabelRaw (labelBits key maxLen ++ rest) maxLen = .ok (key, maxLen - key.length, rest) := by
  rw [readLabelRaw, readLabel_labelBits key rest h hmax, ok_bind, readLabelLength_labelBits key rest h]
  rfl

end RoundTrip

theorem hmLabel_eq_ok {key label : List Bool} {maxLen : ℕ} : hmLabel key maxLen = .ok label ↔
    (labelBits key maxLen).length ≤ maxDataBits ∧ labelBits key maxLen = label := by
  simp only [hmLabel, bind_eq_ok, require_eq_ok, pure_eq_ok, exists_const]

section Length

variable {key : List Bool}

theorem length_labelBits_none (h : sameBit key = none) (maxLen : ℕ) :
    (labelBits key maxLen).length = 2 + key.length + min (sizeBits maxLen) key.length := by
  simp only [labelBits, h]
  split_ifs with hk
  · simp only [longHead, List.length_append, List.length_cons, length_natToBits]
    omega
  · simp only [shortHead, List.length_append, List.length_cons, List.length_replicate,
      List.length_nil]
    omega

theorem length_labelBits_some {b : Bool} (h : sameBit key = some b) {maxLen : ℕ}
    (hmax : key.length ≤ maxLen) :
    (labelBits key maxLen).length = min (3 + sizeBits maxLen) (2 + 2 * key.length) := by
  obtain ⟨-, hpos⟩ := sameBit_eq_some h
  -- a length of at least one needs at least one bit
  have hk : 0 < sizeBits maxLen := by
    have hlt := lt_two_pow_sizeBits hmax
    rcases Nat.eq_zero_or_pos (sizeBits maxLen) with hz | hz
    · rw [hz, pow_zero] at hlt
      omega
    · exact hz
  simp only [labelBits, h, hmLabelSame]
  split_ifs with hsame hlong
  · simp only [List.length_cons, length_natToBits]
    omega
  · omega
  · simp only [shortHead, List.length_append, List.length_cons, List.length_replicate,
      List.length_nil]
    omega

theorem length_labelBits_bound {maxLen : ℕ} (hmax : key.length ≤ maxLen) :
    (labelBits key maxLen).length ≤ 2 + key.length + sizeBits maxLen := by
  cases hsame : sameBit key with
  | some b =>
    obtain ⟨-, hpos⟩ := sameBit_eq_some hsame
    rw [length_labelBits_some hsame hmax]
    omega
  | none =>
    rw [length_labelBits_none hsame]
    omega

theorem length_labelBits_le {key' : List Bool} {maxLen maxLen' : ℕ} (hpart : key' <:+: key)
    (hmax : maxLen' ≤ maxLen) (hkey : key.length ≤ maxLen) (hkey' : key'.length ≤ maxLen') :
    (labelBits key' maxLen').length ≤ (labelBits key maxLen).length := by
  have hlen := hpart.length_le
  have hk := sizeBits_le hmax
  cases hsame' : sameBit key' with
  | some b =>
    rw [length_labelBits_some hsame' hkey']
    obtain ⟨-, hpos⟩ := sameBit_eq_some hsame'
    cases hsame : sameBit key with
    | some c =>
      rw [length_labelBits_some hsame hkey]
      omega
    | none =>
      rw [length_labelBits_none hsame]
      omega
  | none =>
    rw [length_labelBits_none hsame']
    cases hsame : sameBit key with
    | some c =>
      rw [length_labelBits_some hsame hkey]
      -- a part of a run is a run, so that nothing is left of it
      obtain ⟨hrun, -⟩ := sameBit_eq_some hsame
      have hempty : key' = [] := by
        by_contra hne
        have hrun' := sameBit_of_forall hne fun x hx => by
          have hxkey := hpart.subset hx
          rw [hrun] at hxkey
          exact List.eq_of_mem_replicate hxkey
        rw [hrun'] at hsame'
        cases hsame'
      rw [hempty, List.length_nil]
      omega
    | none =>
      rw [length_labelBits_none hsame]
      omega

end Length

end TonNode.Hashmap
