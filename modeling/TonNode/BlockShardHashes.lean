import TonNode.AssocMap
import TonNode.BinTree
import TonNode.BlockCurrency
import TonNode.BlockShard
import TonNode.Guarded

/-! The shard configuration of the masterchain: for each workchain a binary tree
of shard descriptions. Shards are kept by the bits of their prefix; the code marks
the end of the prefix with a tag bit in a 64-bit word, which shows only where a
mask has no room for it. -/
namespace TonNode.Block

open Checked

structure ShardPath where
  workchainId : BitVec 32
  bits : List Bool
deriving DecidableEq

def maxSplitDepth : ℕ := 60

/-- The bits before the last set one, which is taken for the tag; a word without
any set bit is a prefix of 64 zeros. -/
def untag (bits : List Bool) : List Bool :=
  match bits.reverse.dropWhile (· = false) with
  | [] => List.replicate 64 false
  | _ :: rest => rest.reverse

def succBits (bits : List Bool) : Option (List Bool) :=
  if bits.all id then none
  else
    let ones := bits.reverse.takeWhile id
    some ((bits.reverse.drop (ones.length + 1)).reverse ++ true :: List.replicate ones.length false)

namespace ShardPath

variable (s : ShardPath)

def prefixWithTag : ℕ := (2 * bitsToNat s.bits + 1) * 2 ^ (63 - s.bits.length)

def isFull : Bool := s.bits = []

def isParentFor (child : ShardPath) : Bool :=
  s.workchainId = child.workchainId && child.bits ≠ [] && s.bits = child.bits.dropLast

def sibling : ShardPath :=
  match s.bits.getLast? with
  | none => s
  | some b => ⟨s.workchainId, s.bits.dropLast ++ [!b]⟩

/-- `left_ancestor_mask` as a key: the middle of the shard from the left. The word
has room for 59 bits and the tag; without room the last set bit of the prefix
becomes the tag. -/
def leftAncestorMask : ShardPath :=
  ⟨s.workchainId,
    if s.bits.length ≤ 58 then s.bits ++ false :: List.replicate (58 - s.bits.length) true
    else untag s.bits⟩

def rightAncestorMask : Guarded ShardPath :=
  if s.bits.length ≤ 58 then
    .ok ⟨s.workchainId, s.bits ++ true :: List.replicate (58 - s.bits.length) false⟩
  else
    match succBits s.bits with
    | none => Guarded.crash "attempt to add with overflow"
    | some bits => .ok ⟨s.workchainId, if s.bits.length = 59 then untag bits else bits⟩

theorem isParentFor_iff {s child : ShardPath} :
    s.isParentFor child ↔ ∃ b, child = ⟨s.workchainId, s.bits ++ [b]⟩ := by
  obtain ⟨wc, bits⟩ := child
  simp only [isParentFor, Bool.and_eq_true, decide_eq_true_eq, mk.injEq]
  constructor
  · rintro ⟨⟨hwc, hne⟩, hbits⟩
    exact ⟨bits.getLast hne, hwc.symm, by rw [hbits, List.dropLast_append_getLast]⟩
  · rintro ⟨b, rfl, rfl⟩
    simp

theorem sibling_concat (wc : BitVec 32) (p : List Bool) (b : Bool) :
    (⟨wc, p ++ [b]⟩ : ShardPath).sibling = ⟨wc, p ++ [!b]⟩ := by
  simp [sibling]

theorem length_untag (bits : List Bool) (h : bits.length ≤ 64) : (untag bits).length ≤ 64 := by
  have hdrop := (List.dropWhile_suffix (l := bits.reverse) (· = false)).length_le
  rw [untag]
  split
  · simp
  · next b rest heq =>
    rw [heq] at hdrop
    simp only [List.length_cons, List.length_reverse] at hdrop ⊢
    omega

/-- The mask extends the prefix, or is a part of it when there is no room. -/
theorem leftAncestorMask_prefix (h : s.bits.length ≤ maxSplitDepth) :
    s.bits <+: s.leftAncestorMask.bits ∨ s.leftAncestorMask.bits <+: s.bits := by
  simp only [leftAncestorMask]
  split_ifs with hroom
  · exact .inl (List.prefix_append _ _)
  · rw [untag]
    split
    · next hnil =>
      -- no bit is set: the word is read as 64 zeros
      rw [List.dropWhile_eq_nil_iff] at hnil
      have hzeros : s.bits = List.replicate s.bits.length false :=
        List.eq_replicate_of_mem fun b hb => by simpa using hnil b (List.mem_reverse.mpr hb)
      left
      refine ⟨List.replicate (64 - s.bits.length) false, ?_⟩
      rw [hzeros, List.length_replicate, ← List.replicate_add]
      simp only [maxSplitDepth] at h
      congr 1
      omega
    · next b rest heq =>
      right
      have hsuffix : b :: rest <:+ s.bits.reverse := by
        rw [← heq]
        exact List.dropWhile_suffix _
      have hpre := List.reverse_prefix.mpr hsuffix
      rw [List.reverse_reverse, List.reverse_cons] at hpre
      exact (List.prefix_append _ _).trans hpre

theorem length_leftAncestorMask (h : s.bits.length ≤ maxSplitDepth) :
    s.leftAncestorMask.bits.length ≤ 64 := by
  simp only [maxSplitDepth] at h
  simp only [leftAncestorMask]
  split_ifs with hroom
  · simp only [List.length_append, List.length_cons, List.length_replicate]
    omega
  · exact length_untag _ (by omega)

theorem length_rightAncestorMask {s mask : ShardPath} (hs : s.bits.length ≤ maxSplitDepth)
    (h : s.rightAncestorMask = .ok mask) : mask.bits.length ≤ 64 := by
  simp only [maxSplitDepth] at hs
  have hsucc : ∀ bits, succBits s.bits = some bits → bits.length ≤ s.bits.length := by
    intro bits hbits
    simp only [succBits] at hbits
    split_ifs at hbits with hall
    cases hbits
    have hones := (List.takeWhile_prefix (l := s.bits.reverse) id).length_le
    have hlt : (s.bits.reverse.takeWhile id).length < s.bits.length := by
      refine lt_of_le_of_ne (by simpa using hones) fun heq => hall ?_
      have hself : s.bits.reverse.takeWhile id = s.bits.reverse :=
        (List.takeWhile_prefix _).eq_of_length (by simpa using heq)
      rw [List.takeWhile_eq_self_iff] at hself
      exact List.all_eq_true.mpr fun b hb => hself b (List.mem_reverse.mpr hb)
    simp only [List.length_append, List.length_reverse, List.length_drop, List.length_cons,
      List.length_replicate]
    omega
  rw [rightAncestorMask] at h
  by_cases hroom : s.bits.length ≤ 58
  · rw [if_pos hroom] at h
    cases h
    simp only [List.length_append, List.length_cons, List.length_replicate]
    omega
  · rw [if_neg hroom] at h
    split at h
    · cases h
    · next bits hbits =>
      have hlen := hsucc bits hbits
      cases h
      simp only
      split_ifs
      · exact length_untag _ (by omega)
      · omega

/-- The mask from the right exists for a shard with an old child on the left: a
shard without next prefix is too deep for its mask to reach a child. -/
theorem noCrash_rightAncestorMask {s : ShardPath} {x : List Bool} {b : Bool}
    (h : s.bits ++ [b] <+: x) (hx : x = s.leftAncestorMask.bits) :
    Guarded.NoCrash s.rightAncestorMask := by
  subst hx
  rw [rightAncestorMask]
  by_cases hroom : s.bits.length ≤ 58
  · rw [if_pos hroom]
    intro text htext
    cases htext
  · rw [if_neg hroom]
    split
    · next hnone =>
      exfalso
      simp only [succBits] at hnone
      split_ifs at hnone with hall
      -- all bits are set, so that the mask is the shard without its last bit
      have hrev : s.bits.reverse = true :: s.bits.reverse.tail := by
        cases hbits : s.bits.reverse with
        | nil =>
          rw [List.reverse_eq_nil_iff] at hbits
          simp [hbits] at hroom
        | cons c rest =>
          have hc : c ∈ s.bits := List.mem_reverse.mp (by rw [hbits]; exact List.mem_cons_self)
          have := List.all_eq_true.mp hall c hc
          simp only [id] at this
          rw [this, List.tail_cons]
      have hmask : s.leftAncestorMask.bits = s.bits.reverse.tail.reverse := by
        simp only [leftAncestorMask, if_neg hroom, untag]
        rw [hrev]
        rfl
      have hlen := h.length_le
      rw [hmask] at hlen
      simp only [List.length_append, List.length_singleton, List.length_reverse,
        List.length_tail] at hlen
      omega
    · intro text htext
      cases htext

/-- `with_prefix_slice`: the length is counted in a byte, and the shift by
`64 - length` has to exist. -/
def withPrefixSlice (workchainId : BitVec 32) (bits : List Bool) : Guarded ShardPath :=
  if 64 < bits.length then Guarded.crash "attempt to subtract with overflow"
  else Guarded.check do
    require (bits.length ≤ maxSplitDepth) "Shard prefix length can't greater than 60"
    require (workchainId ≠ invalidWorkchainId) "Workchain id is invalid"
    pure ⟨workchainId, bits⟩

end ShardPath

structure BlockIdExt where
  shard : ShardPath
  seqNo : ℕ
  rootHash : UInt256
  fileHash : UInt256
deriving DecidableEq

inductive FutureSplitMerge where
  | none
  | split (splitUtime interval : ℕ)
  | merge (mergeUtime interval : ℕ)
deriving DecidableEq

structure ShardDescr where
  seqNo : ℕ
  regMcSeqno : ℕ
  startLt : ℕ
  endLt : ℕ
  rootHash : UInt256
  fileHash : UInt256
  beforeSplit : Bool
  beforeMerge : Bool
  wantSplit : Bool
  wantMerge : Bool
  nextCatchainSeqno : ℕ
  nextValidatorShard : ℕ
  minRefMcSeqno : ℕ
  genUtime : ℕ
  splitMergeAt : FutureSplitMerge
  feesCollected : CurrencyCollection
  fundsCreated : CurrencyCollection
deriving DecidableEq

namespace ShardDescr

variable (d : ShardDescr)

def isFsmMerge : Bool :=
  match d.splitMergeAt with
  | .merge _ _ => true
  | _ => false

def isFsmSplit : Bool :=
  match d.splitMergeAt with
  | .split _ _ => true
  | _ => false

def isFsmNone : Bool := d.splitMergeAt = .none

def fsmUtime : ℕ :=
  match d.splitMergeAt with
  | .none => 0
  | .split utime _ => utime
  | .merge utime _ => utime

def fsmInterval : ℕ :=
  match d.splitMergeAt with
  | .none => 0
  | .split _ interval => interval
  | .merge _ interval => interval

def fsmUtimeEnd : Guarded ℕ := Guarded.addU32 d.fsmUtime d.fsmInterval

end ShardDescr

structure McShardRecord where
  descr : ShardDescr
  blockId : BlockIdExt
deriving DecidableEq

namespace McShardRecord

def fromShardDescr (shard : ShardPath) (descr : ShardDescr) : McShardRecord :=
  ⟨descr, ⟨shard, descr.seqNo, descr.rootHash, descr.fileHash⟩⟩

def shard (r : McShardRecord) : ShardPath := r.blockId.shard

def basicInfoEqual (self other : McShardRecord) (compareFees compareRegSeqno : Bool) : Bool :=
  self.blockId = other.blockId && self.descr.startLt = other.descr.startLt
    && self.descr.endLt = other.descr.endLt
    && (!compareRegSeqno || self.descr.regMcSeqno = other.descr.regMcSeqno)
    && self.descr.genUtime = other.descr.genUtime
    && self.descr.minRefMcSeqno = other.descr.minRefMcSeqno
    && self.descr.beforeSplit = other.descr.beforeSplit
    && self.descr.wantSplit = other.descr.wantSplit && self.descr.wantMerge = other.descr.wantMerge
    && (!compareFees || (self.descr.feesCollected = other.descr.feesCollected
      && self.descr.fundsCreated = other.descr.fundsCreated))

end McShardRecord

abbrev ShardHashes := AList fun _ : BitVec 32 => BinTree ShardDescr

namespace ShardHashes

variable (shards : ShardHashes) (s : ShardPath)

/-- `find_shard`: the leaf on the way of the key of the shard; its own prefix must
be short enough. -/
def findShard : Guarded (Option McShardRecord) :=
  match shards.lookup s.workchainId with
  | none => pure none
  | some tree =>
    match tree.find s.bits with
    | none => pure none
    | some (key, descr) => do
      let found ← ShardPath.withPrefixSlice s.workchainId key
      pure (some (.fromShardDescr found descr))

theorem noCrash_findShard (h : s.bits.length ≤ 64) : Guarded.NoCrash (shards.findShard s) := by
  rw [findShard]
  split
  · exact Guarded.noCrash_pure _
  · next tree htree =>
    split
    · exact Guarded.noCrash_pure _
    · next key descr hfind =>
      -- the key that is found is not longer than the one looked for
      have hlen := (BinTree.find_eq_some.mp hfind).2.length_le
      rw [Guarded.noCrash_bind, ShardPath.withPrefixSlice, if_neg (by omega)]
      exact ⟨Guarded.noCrash_check _, fun found _ => Guarded.noCrash_pure _⟩

def getShard : Option McShardRecord :=
  match shards.lookup s.workchainId with
  | none => none
  | some tree => (tree.get s.bits).map (McShardRecord.fromShardDescr s)

variable {s : ShardPath} {shards : ShardHashes} {r : McShardRecord}

theorem getShard_eq_some :
    shards.getShard s = some r ↔ ∃ tree descr, shards.lookup s.workchainId = some tree ∧
      tree.get s.bits = some descr ∧ r = .fromShardDescr s descr := by
  cases h : shards.lookup s.workchainId with
  | none => simp [getShard, h]
  | some tree =>
    simp only [getShard, h, Option.map_eq_some_iff, Option.some.injEq]
    constructor
    · rintro ⟨descr, hget, rfl⟩
      exact ⟨tree, descr, rfl, hget, rfl⟩
    · rintro ⟨tree', descr, rfl, hget, rfl⟩
      exact ⟨descr, hget, rfl⟩

theorem getShard_shard (h : shards.getShard s = some r) : r.shard = s := by
  obtain ⟨tree, descr, -, -, rfl⟩ := getShard_eq_some.mp h
  rfl

theorem findShard_eq_some (h : shards.findShard s = .ok (some r)) :
    shards.getShard r.shard = some r ∧ r.shard.workchainId = s.workchainId ∧
      r.shard.bits <+: s.bits := by
  rw [findShard] at h
  cases htree : shards.lookup s.workchainId with
  | none =>
    rw [htree] at h
    cases h
  | some tree =>
    simp only [htree] at h
    cases hfind : tree.find s.bits with
    | none =>
      rw [hfind] at h
      cases h
    | some entry =>
      obtain ⟨key, descr⟩ := entry
      simp only [hfind, Guarded.bind_eq_ok, Guarded.pure_eq_ok, Option.some.injEq] at h
      obtain ⟨found, hfound, rfl⟩ := h
      have hpath : found = ⟨s.workchainId, key⟩ := by
        rw [ShardPath.withPrefixSlice] at hfound
        split_ifs at hfound with hlen
        · cases hfound
        · simp only [Guarded.check_eq_ok, Checked.bind_eq_ok, Checked.pure_eq_ok] at hfound
          obtain ⟨-, -, -, -, rfl⟩ := hfound
          rfl
      subst hpath
      obtain ⟨hget, hpre⟩ := BinTree.find_eq_some.mp hfind
      exact ⟨getShard_eq_some.mpr ⟨tree, descr, htree, hget, rfl⟩, rfl, hpre⟩

theorem not_prefix_of_findShard_none {s' : ShardPath} (h : shards.findShard s = .ok none)
    (h' : shards.getShard s' = some r) (hwc : s'.workchainId = s.workchainId) :
    ¬ s'.bits <+: s.bits := by
  intro hpre
  obtain ⟨tree, descr, htree, hget, -⟩ := getShard_eq_some.mp h'
  rw [hwc] at htree
  have hfind : tree.find s.bits = some (s'.bits, descr) := BinTree.find_eq_some.mpr ⟨hget, hpre⟩
  simp only [findShard, htree, hfind, Guarded.bind_eq_ok, Guarded.pure_eq_ok, reduceCtorEq,
    and_false, exists_false] at h

/-- No shard of a configuration lies in another one. -/
theorem eq_of_prefix {s' : ShardPath} {r' : McShardRecord} (h : shards.getShard s = some r)
    (h' : shards.getShard s' = some r') (hwc : s.workchainId = s'.workchainId)
    (hpre : s.bits <+: s'.bits) : s = s' := by
  obtain ⟨tree, descr, htree, hget, -⟩ := getShard_eq_some.mp h
  obtain ⟨tree', descr', htree', hget', -⟩ := getShard_eq_some.mp h'
  rw [hwc, htree'] at htree
  cases htree
  obtain ⟨wc, bits⟩ := s
  obtain ⟨wc', bits'⟩ := s'
  cases hwc
  obtain rfl : bits = bits' := BinTree.eq_of_prefix hget hget' hpre
  rfl

/-- A lookup that succeeds is exact: it finds the one shard of the configuration that the shard lies in,
and nothing if there is none. -/
theorem findShard_exact {found : Option McShardRecord} (h : shards.findShard s = .ok found)
    (r : McShardRecord) : found = some r ↔ shards.getShard r.shard = some r ∧
      r.shard.workchainId = s.workchainId ∧ r.shard.bits <+: s.bits := by
  constructor
  · rintro rfl
    exact findShard_eq_some h
  · rintro ⟨hget, hwc, hpre⟩
    cases found with
    | none => exact absurd hpre (not_prefix_of_findShard_none h hget hwc)
    | some r' =>
      obtain ⟨hget', hwc', hpre'⟩ := findShard_eq_some h
      -- both lie on the way of the key, so one of them is in the other
      have hsame : r'.shard = r.shard := by
        rcases List.prefix_or_prefix_of_prefix hpre' hpre with hle | hle
        · exact eq_of_prefix hget' hget (hwc'.trans hwc.symm) hle
        · symm
          exact eq_of_prefix hget hget' (hwc.trans hwc'.symm) hle
      rw [hsame] at hget'
      exact hget'.symm.trans hget

def soleDescr : ShardDescr :=
  ⟨1, 0, 0, 0, 0, 0, false, false, false, false, 0, 0, 0, 0, .none, .zero, .zero⟩

/-- A workchain of three shards. -/
def threeShards : ShardHashes :=
  AList.singleton 0 (.fork (.leaf soleDescr)
    (.fork (.leaf { soleDescr with seqNo := 2 }) (.leaf { soleDescr with seqNo := 3 })))

theorem findShard_exact_middle :
    threeShards.getShard ⟨0, [true, false]⟩ =
        some (.fromShardDescr ⟨0, [true, false]⟩ { soleDescr with seqNo := 2 }) ∧
      (0 : BitVec 32) = 0 ∧ [true, false] <+: [true, false, true] :=
  (findShard_exact (show threeShards.findShard ⟨0, [true, false, true]⟩ = .ok _ from rfl)
    (.fromShardDescr ⟨0, [true, false]⟩ { soleDescr with seqNo := 2 })).mp rfl

end ShardHashes

end TonNode.Block
