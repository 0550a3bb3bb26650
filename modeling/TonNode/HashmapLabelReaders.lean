import TonNode.HashmapCells

/-! The readers of a label beside `read_label`: one that appends the label to a key, one that
only tells its length and one that skips it. All of them read the same head. They part when
a label is cut short: a window that is shrunk out of range stays as it is, a move out of
range is refused. -/
namespace TonNode.Hashmap

open Block Checked

section Model

variable (bits : List Bool)

def moveBy (offset : ℕ) : Checked (List Bool) := do
  require (offset ≤ bits.length) "CellUnderflow"
  pure (bits.drop offset)

variable (size : Checked (ℕ × List Bool)) (max : ℕ)

/-- `get_label_short` and `get_label_long` once the length is read: the label, what is left of
`max`, and the bits after the label. -/
def getLabelSized : Checked (List Bool × ℕ × List Bool) := do
  let (len, cursor) ← size
  let max ← present (checkedSub max len) "CellUnderflow"
  pure ((shrinkData cursor len).1, max, (shrinkData cursor len).2)

def getLabelShort (cursor : List Bool) (max : ℕ) : Checked (List Bool × ℕ × List Bool) :=
  getLabelSized (readUnary cursor) max

def getLabelLong (cursor : List Bool) (max : ℕ) : Checked (List Bool × ℕ × List Bool) :=
  getLabelSized (getNextSize cursor max) max

def getLabelSame (value : Bool) (cursor : List Bool) (max : ℕ) (key : List Bool) :
    Checked (List Bool × ℕ × List Bool) := do
  let (len, cursor) ← getNextSize cursor max
  require (key.length + len ≤ maxDataBits) "CellOverflow"
  let max ← present (checkedSub max len) "CellUnderflow"
  pure (key ++ List.replicate len value, max, cursor)

def appendLabel (key : List Bool) (read : Checked (List Bool × ℕ × List Bool)) :
    Checked (List Bool × ℕ × List Bool) := do
  let (label, max, cursor) ← read
  require (key.length + label.length ≤ maxDataBits) "CellOverflow"
  pure (key ++ label, max, cursor)

def readLabelOnto (key bits : List Bool) (max : ℕ) : Checked (List Bool × ℕ × List Bool) :=
  match bits with
  | [] => pure (key, max, [])
  | false :: cursor => appendLabel key (getLabelShort cursor max)
  | true :: false :: cursor => appendLabel key (getLabelLong cursor max)
  | true :: true :: value :: cursor => getLabelSame value cursor max key
  | _ => reject "CellUnderflow"

def checkLength : Checked (ℕ × List Bool) := do
  let (len, cursor) ← size
  require (len ≤ max) "CellUnderflow"
  pure (len, cursor)

def readLabelHead : Checked (ℕ × List Bool) :=
  match bits with
  | [] => pure (0, [])
  | false :: cursor => checkLength (readUnary cursor) max
  | true :: false :: cursor => checkLength (getNextSize cursor max) max
  | true :: true :: _ :: cursor => checkLength (getNextSize cursor max) max
  | _ => reject "CellUnderflow"

def skipSized : Checked (ℕ × List Bool) := do
  let (len, cursor) ← size
  let cursor ← moveBy cursor len
  let max ← present (checkedSub max len) "CellUnderflow"
  pure (max, cursor)

def skipLabel : Checked (ℕ × List Bool) :=
  match bits with
  | [] => pure (max, [])
  | false :: cursor => skipSized (readUnary cursor) max
  | true :: false :: cursor => skipSized (getNextSize cursor max) max
  | true :: true :: _ :: cursor => do
    let (len, cursor) ← getNextSize cursor max
    let max ← present (checkedSub max len) "CellUnderflow"
    pure (max, cursor)
  | _ => reject "CellUnderflow"

end Model

variable (bits : List Bool)

def WrittenOut : Prop := ¬ [true, true] <+: bits

instance : Decidable (WrittenOut bits) := inferInstanceAs (Decidable (¬ _))

/-- `read_label_length`, and then as many bits are skipped if the label is written out. -/
def skipLength (max : ℕ) : Checked (ℕ × List Bool) := do
  let (len, cursor) ← readLabelHead bits max
  let cursor ← if WrittenOut bits then moveBy cursor len else pure cursor
  pure (len, cursor)

/-- The readers all fail, or all find a label of the same length and leave the same bits.
The length is the declared one, that of the label that is read or by which the key grows,
and that by which `max` goes down. -/
structure LabelReadersAgree (max : ℕ) : Prop where
  reads : (readLabel bits max).toOption.map (fun r => (r.1.length, r.2)) =
    (skipLength bits max).toOption
  grows (key : List Bool) (hkey : key.length + max ≤ maxDataBits) :
    (readLabelOnto key bits max).toOption.map (fun r => (r.1.length, r.2)) =
      (skipLength bits max).toOption.map fun r => (key.length + r.1, max - r.1, r.2)
  skips : (skipLabel bits max).toOption =
    (skipLength bits max).toOption.map fun r => (max - r.1, r.2)

/-- A label of an admitted length is announced, and fewer bits follow. -/
def CutShort (max : ℕ) : Prop :=
  WrittenOut bits ∧ ∃ len cursor, readLabelHead bits max = .ok (len, cursor) ∧ cursor.length < len

section Agreement

variable {bits : List Bool} {max : ℕ}

theorem labelReadersAgree_of_ok (label rest : List Bool)
    (hread : readLabel bits max = .ok (label, rest))
    (hgrow : ∀ key, key.length + max ≤ maxDataBits →
      readLabelOnto key bits max = .ok (key ++ label, max - label.length, rest))
    (hlength : skipLength bits max = .ok (label.length, rest))
    (hskip : skipLabel bits max = .ok (max - label.length, rest)) : LabelReadersAgree bits max where
  reads := by
    rw [hread, hlength]
    rfl
  grows key hkey := by
    rw [hgrow key hkey, hlength]
    simp [Except.toOption]
  skips := by
    rw [hskip, hlength]
    rfl

theorem labelReadersAgree_of_error (hread : ∃ e, readLabel bits max = .error e)
    (hgrow : ∀ key, ∃ e, readLabelOnto key bits max = .error e)
    (hhead : ∃ e, readLabelHead bits max = .error e) (hskip : ∃ e, skipLabel bits max = .error e) :
    LabelReadersAgree bits max ↔ ¬ CutShort bits max := by
  obtain ⟨_, hread⟩ := hread
  obtain ⟨_, hskip⟩ := hskip
  obtain ⟨e, hhead⟩ := hhead
  have hlength : skipLength bits max = .error e := by
    rw [skipLength, hhead]
    rfl
  refine iff_of_true ⟨?_, ?_, ?_⟩ ?_
  · rw [hread, hlength]
    rfl
  · intro key _
    obtain ⟨_, hgrow⟩ := hgrow key
    rw [hgrow, hlength]
    rfl
  · rw [hskip, hlength]
    rfl
  · rintro ⟨-, len, cursor, hok, -⟩
    cases hhead.symm.trans hok

/-- What the readers of a label that is written out make of its length. -/
structure SizedReaders (bits : List Bool) (max : ℕ) (size : Checked (ℕ × List Bool)) : Prop where
  writtenOut : WrittenOut bits
  reads : readLabel bits max = size >>= fun s =>
    require (s.1 ≤ max) "CellUnderflow" >>= fun _ => pure (shrinkData s.2 s.1)
  grows (key : List Bool) : readLabelOnto key bits max = appendLabel key (getLabelSized size max)
  head : readLabelHead bits max = checkLength size max
  skips : skipLabel bits max = skipSized size max

theorem SizedReaders.agree_iff {size : Checked (ℕ × List Bool)} (h : SizedReaders bits max size) :
    LabelReadersAgree bits max ↔ ¬ CutShort bits max := by
  cases size with
  | error e =>
    exact labelReadersAgree_of_error ⟨e, h.reads⟩ (fun key => ⟨e, h.grows key⟩) ⟨e, h.head⟩
      ⟨e, h.skips⟩
  | ok size =>
    obtain ⟨len, cursor⟩ := size
    by_cases hlen : len ≤ max
    · have hsub : checkedSub max len = some (max - len) := if_pos hlen
      have hhead : readLabelHead bits max = .ok (len, cursor) := by
        rw [h.head]
        simp only [checkLength, ok_bind, require, if_pos hlen]
        rfl
      have hlength : skipLength bits max = moveBy cursor len >>= fun rest => pure (len, rest) := by
        simp only [skipLength, hhead, ok_bind, if_pos h.writtenOut]
      by_cases hbits : len ≤ cursor.length
      · have hshrink : shrinkData cursor len = (cursor.take len, cursor.drop len) := if_pos hbits
        have htake : (cursor.take len).length = len := List.length_take_of_le hbits
        refine iff_of_true (labelReadersAgree_of_ok (cursor.take len) (cursor.drop len) ?_ ?_ ?_ ?_) ?_
        · rw [h.reads]
          simp only [ok_bind, require, if_pos hlen, hshrink]
          rfl
        · intro key hkey
          have hfits : key.length + (cursor.take len).length ≤ maxDataBits := by omega
          rw [h.grows, htake]
          simp only [appendLabel, getLabelSized, ok_bind, hsub, present, hshrink, require]
          simp only [pure, Except.pure, ok_bind, if_pos hfits]
        · rw [hlength, htake]
          simp only [moveBy, require, if_pos hbits, ok_bind]
          rfl
        · rw [h.skips, htake]
          simp only [skipSized, moveBy, ok_bind, require, if_pos hbits, hsub]
          rfl
        · rintro ⟨-, len', cursor', hhead', hlt⟩
          cases hhead.symm.trans hhead'
          omega
      · -- `read_label` succeeds, and what is to be skipped is not there
        refine iff_of_false ?_ (not_not_intro ⟨h.writtenOut, len, cursor, hhead, by omega⟩)
        intro hagree
        have hread := hagree.reads
        rw [h.reads, hlength] at hread
        simp only [ok_bind, require, if_pos hlen, moveBy, if_neg hbits] at hread
        cases hread
    · have hsub : checkedSub max len = none := if_neg hlen
      let e := "CellUnderflow"
      refine labelReadersAgree_of_error ⟨e, ?_⟩ (fun key => ⟨e, ?_⟩) ⟨e, ?_⟩ ?_
      · rw [h.reads]
        simp only [ok_bind, require, if_neg hlen]
        rfl
      · rw [h.grows]
        simp only [appendLabel, getLabelSized, ok_bind, hsub]
        rfl
      · rw [h.head]
        simp only [checkLength, ok_bind, require, if_neg hlen]
        rfl
      · rw [h.skips]
        simp only [skipSized, moveBy, ok_bind, require, hsub]
        split_ifs
        · exact ⟨_, rfl⟩
        · exact ⟨_, rfl⟩

/-- A label of equal bits has nothing after its head that could be missing. -/
theorem sameForm_agree_iff (value : Bool) (cursor : List Bool) (hmax : max ≤ maxDataBits) :
    LabelReadersAgree (true :: true :: value :: cursor) max ↔
      ¬ CutShort (true :: true :: value :: cursor) max := by
  have hform : ¬ WrittenOut (true :: true :: value :: cursor) := fun h => h ⟨value :: cursor, rfl⟩
  cases hsize : getNextSize cursor max with
  | error e =>
    refine labelReadersAgree_of_error ⟨e, ?_⟩ (fun key => ⟨e, ?_⟩) ⟨e, ?_⟩ ⟨e, ?_⟩
    · simp only [readLabel, hsize]
      rfl
    · simp only [readLabelOnto, getLabelSame, hsize]
      rfl
    · simp only [readLabelHead, checkLength, hsize]
      rfl
    · simp only [skipLabel, hsize]
      rfl
  | ok size =>
    obtain ⟨len, rest⟩ := size
    by_cases hlen : len ≤ max
    · have hsub : checkedSub max len = some (max - len) := if_pos hlen
      have hle : len ≤ maxDataBits := hlen.trans hmax
      have hrun : (List.replicate len value).length = len := List.length_replicate
      refine iff_of_true (labelReadersAgree_of_ok (List.replicate len value) rest ?_ ?_ ?_ ?_)
        fun h => hform h.1
      · simp only [readLabel, hsize, ok_bind, require, if_pos hlen, if_pos hle]
        rfl
      · intro key hkey
        have hfits : key.length + len ≤ maxDataBits := by omega
        simp only [readLabelOnto, getLabelSame, hsize, ok_bind, require, if_pos hfits, hsub, hrun]
        rfl
      · simp only [skipLength, readLabelHead, checkLength, hsize, ok_bind, require, if_pos hlen,
          hrun]
        simp [if_neg hform]
      · simp only [skipLabel, hsize, ok_bind, hsub, hrun]
        rfl
    · have hsub : checkedSub max len = none := if_neg hlen
      let e := "CellUnderflow"
      refine labelReadersAgree_of_error ?_ (fun key => ?_) ⟨e, ?_⟩ ⟨e, ?_⟩
      · simp only [readLabel, hsize, ok_bind, require, if_neg hlen]
        split_ifs
        · exact ⟨_, rfl⟩
        · exact ⟨_, rfl⟩
      · simp only [readLabelOnto, getLabelSame, hsize, ok_bind, require, hsub]
        split_ifs
        · exact ⟨_, rfl⟩
        · exact ⟨_, rfl⟩
      · simp only [readLabelHead, checkLength, hsize, ok_bind, require, if_neg hlen]
        rfl
      · simp only [skipLabel, hsize, ok_bind, hsub]
        rfl

theorem labelReadersAgree_iff (bits : List Bool) (hmax : max ≤ maxDataBits) :
    LabelReadersAgree bits max ↔ ¬ CutShort bits max := by
  rcases bits with - | ⟨b, cursor⟩
  · refine iff_of_true (labelReadersAgree_of_ok [] [] rfl (fun key _ => ?_) rfl rfl) ?_
    · rw [List.append_nil]
      rfl
    · rintro ⟨-, len, cursor, hhead, hlt⟩
      cases hhead
      exact absurd hlt (Nat.lt_irrefl 0)
  · cases b with
    | false =>
      have hsized : SizedReaders (false :: cursor) max (readUnary cursor) :=
        ⟨by simp [WrittenOut], rfl, fun _ => rfl, rfl, rfl⟩
      exact hsized.agree_iff
    | true =>
      rcases cursor with - | ⟨b, cursor⟩
      · exact labelReadersAgree_of_error ⟨_, rfl⟩ (fun _ => ⟨_, rfl⟩) ⟨_, rfl⟩ ⟨_, rfl⟩
      · cases b with
        | false =>
          have hsized : SizedReaders (true :: false :: cursor) max (getNextSize cursor max) :=
            ⟨by simp [WrittenOut], rfl, fun _ => rfl, rfl, rfl⟩
          exact hsized.agree_iff
        | true =>
          rcases cursor with - | ⟨value, cursor⟩
          · exact labelReadersAgree_of_error ⟨_, rfl⟩ (fun _ => ⟨_, rfl⟩) ⟨_, rfl⟩ ⟨_, rfl⟩
          · exact sameForm_agree_iff value cursor hmax

/-- The three encodings of a label, one of them only for equal bits. -/
inductive Encodes (key : List Bool) (max : ℕ) : List Bool → Prop where
  | short : Encodes key max (shortHead key.length ++ key)
  | long : Encodes key max (longHead (sizeBits max) key.length ++ key)
  | same (bit : Bool) (h : ∀ b ∈ key, b = bit) :
    Encodes key max (true :: true :: bit :: natToBits (sizeBits max) key.length)

theorem labelBits_encodes (key : List Bool) (max : ℕ) : Encodes key max (labelBits key max) := by
  rw [labelBits]
  cases hsame : sameBit key with
  | none =>
    simp only
    split_ifs
    · exact .long
    · exact .short
  | some b =>
    obtain ⟨hkey, -⟩ := sameBit_eq_some hsame
    simp only [hmLabelSame, ← hkey]
    split_ifs
    · refine .same b fun x hx => ?_
      rw [hkey] at hx
      exact List.eq_of_mem_replicate hx
    · exact .long
    · exact .short

/-- None of the encodings is shorter than the one that `hm_label` takes. -/
theorem Encodes.length_le {key label : List Bool} (h : Encodes key max label)
    (hkey : key.length ≤ max) : (labelBits key max).length ≤ label.length := by
  have hbound := length_labelBits_bound hkey
  have hshort : (labelBits key max).length ≤ 2 + 2 * key.length := by
    cases hsame : sameBit key with
    | some b =>
      rw [length_labelBits_some hsame hkey]
      omega
    | none =>
      rw [length_labelBits_none hsame]
      omega
  cases h with
  | short =>
    simp only [shortHead, List.length_append, List.length_cons, List.length_replicate,
      List.length_nil]
    omega
  | long =>
    simp only [longHead, List.length_append, List.length_cons, length_natToBits]
    omega
  | same bit hall =>
    simp only [List.length_cons, length_natToBits]
    rcases List.eq_nil_or_concat key with rfl | ⟨init, last, rfl⟩
    · simp only [List.length_nil] at hshort
      omega
    · rw [length_labelBits_some (sameBit_of_forall (by simp) hall) hkey]
      omega

/-- `hm_label` writes the key in an encoding than which none is shorter, and it is read back
whatever follows it. -/
def WrittenShortest (key : List Bool) (max : ℕ) : Prop :=
  ∃ label, hmLabel key max = .ok label ∧ Encodes key max label ∧
    (∀ rest, readLabel (label ++ rest) max = .ok (key, rest)) ∧
      ∀ other, Encodes key max other → label.length ≤ other.length

/-- The bits are all the same, or there is room for them beside a length. -/
def LabelFits (key : List Bool) (max : ℕ) : Prop :=
  (∃ bit, ∀ b ∈ key, b = bit) ∨ 2 + sizeBits max + key.length ≤ maxDataBits

theorem length_labelBits_le_iff {key : List Bool} (hkey : key.length ≤ max) (hmax : max ≤ maxDataBits) :
    (labelBits key max).length ≤ maxDataBits ↔ LabelFits key max := by
  have hsize : sizeBits max ≤ 10 := sizeBits_le hmax
  rw [LabelFits]
  cases hsame : sameBit key with
  | some bit =>
    obtain ⟨hrun, -⟩ := sameBit_eq_some hsame
    have hall : ∀ b ∈ key, b = bit := by
      intro b hb
      rw [hrun] at hb
      exact List.eq_of_mem_replicate hb
    rw [length_labelBits_some hsame hkey]
    exact iff_of_true (by rw [maxDataBits]; omega) (.inl ⟨bit, hall⟩)
  | none =>
    rw [length_labelBits_none hsame]
    constructor
    · intro hlen
      rw [maxDataBits] at hlen ⊢
      omega
    · rintro (⟨bit, hall⟩ | hroom)
      · -- only the empty key is a run without a bit
        have hempty : key = [] := by
          by_contra hne
          rw [sameBit_of_forall hne hall] at hsame
          cases hsame
        rw [hempty, maxDataBits, List.length_nil]
        omega
      · omega

theorem writtenShortest_iff {key : List Bool} (hkey : key.length ≤ max) (hmax : max ≤ maxDataBits) :
    WrittenShortest key max ↔ LabelFits key max := by
  rw [← length_labelBits_le_iff hkey hmax]
  constructor
  · rintro ⟨label, hlabel, -⟩
    exact (hmLabel_eq_ok.mp hlabel).1
  · intro hfits
    refine ⟨_, hmLabel_eq_ok.mpr ⟨hfits, rfl⟩, labelBits_encodes key max, ?_, ?_⟩
    · intro rest
      exact readLabel_labelBits key rest hkey hmax
    · intro other h
      exact h.length_le hkey

/-- The readers of a label agree exactly when the label is not cut short. `hm_label` writes a key, to be
read back from the shortest encoding, exactly when the label fits into a cell. -/
theorem label_readers_agree_iff_not_cutShort (bits : List Bool) (hmax : max ≤ maxDataBits) :
    (LabelReadersAgree bits max ↔ ¬ CutShort bits max) ∧
      ∀ key, key.length ≤ max → (WrittenShortest key max ↔ LabelFits key max) := by
  refine ⟨labelReadersAgree_iff bits hmax, ?_⟩
  intro key hkey
  exact writtenShortest_iff hkey hmax

theorem label_readers_agree_on_two_bits :
    LabelReadersAgree [false, true, true, false, true, false, true] 4 ∧
      WrittenShortest [true, false] 4 := by
  have hwhole : ¬ CutShort [false, true, true, false, true, false, true] 4 := by
    rintro ⟨-, len, cursor, hhead, hlt⟩
    cases hhead
    exact absurd hlt (by decide)
  have hfits : LabelFits [true, false] 4 := .inr (by decide)
  obtain ⟨hagree, hwritten⟩ := label_readers_agree_iff_not_cutShort
    [false, true, true, false, true, false, true] (show 4 ≤ maxDataBits by decide)
  exact ⟨hagree.mpr hwhole, (hwritten [true, false] (by decide)).mpr hfits⟩

/-- A short label of one bit that is not there: it is read as the empty label, and cannot be
skipped. A key of 1012 mixed bits has no room beside its length. -/
theorem label_readers_disagree : readLabel [false, true, false] 1 = .ok ([], []) ∧
      readLabelOnto [] [false, true, false] 1 = .ok ([], 0, []) ∧
      readLabelHead [false, true, false] 1 = .ok (1, []) ∧
      skipLabel [false, true, false] 1 = .error "CellUnderflow" ∧
      ¬ LabelReadersAgree [false, true, false] 1 ∧
      hmLabel (true :: List.replicate 1011 false) 1012 = .error "CellOverflow" := by
  refine ⟨rfl, rfl, rfl, rfl, ?_, ?_⟩
  · intro h
    cases h.reads
  · have hmixed (n : ℕ) : sameBit (true :: List.replicate (n + 1) false) = none := by
      rw [List.replicate_succ]
      simp [sameBit]
    have hlong : ¬ (labelBits (true :: List.replicate 1011 false) 1012).length ≤ maxDataBits := by
      rw [length_labelBits_none (hmixed 1010), List.length_cons, List.length_replicate]
      decide
    rw [hmLabel, require, if_neg hlong]
    rfl

end Agreement

end TonNode.Hashmap
