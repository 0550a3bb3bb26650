import TonNode.ValidatorShardLayout

/-! Which changes of the shard configuration the check lets through, and on which
inputs it stops without an answer. -/
namespace TonNode.Validator

open Block Guarded
open Checked (require_eq_ok present_eq_ok)
open ShardPath (isParentFor_iff withPrefixSlice)
open ShardHashes (getShard_eq_some eq_of_prefix getShard_shard findShard_eq_some)

section Legality

variable (inp : LayoutInput)

def ShardsRotate : Prop :=
  inp.keyBlock ∨ inp.prevNow / inp.shardCatchainLifetime < inp.now / inp.shardCatchainLifetime

def Follows (a b : BlockIdExt) : Prop :=
  ∃ id tsbd, inp.topBlockDescr id = .ok (some tsbd) ∧
    ∃ block ∈ tsbd.chain, block.id = a ∧ b ∈ block.prevs

def Descends : BlockIdExt → BlockIdExt → Prop :=
  Relation.TransGen (Follows inp)

def MergeAnnounced (old : ShardDescr) (genUtime : ℕ) : Prop :=
  old.isFsmMerge ∧ old.fsmUtime ≤ genUtime ∧ genUtime < old.fsmUtime + old.fsmInterval

/-- Where a leaf of the new configuration comes from, with the catchain seqno its
old leaves give it and whether the flag for a merge of the same shard was cleared. -/
inductive LeafOrigin (inp : LayoutInput) (s : ShardPath) (r : McShardRecord) : ℕ → Bool → Prop
  | unchanged (old : McShardRecord) (hold : inp.oldShards.getShard s = some old)
      (hsame : r.blockId = old.blockId) : LeafOrigin inp s r old.descr.nextCatchainSeqno
        (!r.descr.beforeMerge && old.descr.beforeMerge)
  | advanced (old : McShardRecord) (hold : inp.oldShards.getShard s = some old)
      (hdescends : Descends inp r.blockId old.blockId) :
      LeafOrigin inp s r old.descr.nextCatchainSeqno (!r.descr.beforeMerge && old.descr.beforeMerge)
  | split (parent : ShardPath) (old other : McShardRecord) (hparent : parent.isParentFor s)
      (hold : inp.oldShards.getShard parent = some old) (hsplit : old.descr.beforeSplit)
      (hother : inp.newShards.getShard s.sibling = some other)
      (hdescends : Descends inp r.blockId old.blockId) :
      LeafOrigin inp s r old.descr.nextCatchainSeqno false
  | merged (child : ShardPath) (old1 old2 : McShardRecord) (hchild : s.isParentFor child)
      (hold1 : inp.oldShards.getShard child = some old1)
      (hold2 : inp.oldShards.getShard child.sibling = some old2)
      (hmerge1 : old1.descr.beforeMerge) (hmerge2 : old2.descr.beforeMerge)
      (hwindow1 : MergeAnnounced old1.descr r.descr.genUtime)
      (hwindow2 : MergeAnnounced old2.descr r.descr.genUtime)
      (hdescends1 : Descends inp r.blockId old1.blockId)
      (hdescends2 : Descends inp r.blockId old2.blockId) :
      LeafOrigin inp s r (max old1.descr.nextCatchainSeqno old2.descr.nextCatchainSeqno + 1) false
  | created (wcInfo : WorkchainDescr) (hfull : s.isFull)
      (hnew : inp.oldShards.lookup s.workchainId = none)
      (hwc : inp.nextWorkchains.lookup s.workchainId = some wcInfo) (hactive : wcInfo.active)
      (hzero : r.blockId = ⟨s, 0, wcInfo.zerostateRootHash, wcInfo.zerostateFileHash⟩) :
      LeafOrigin inp s r 0 false

def Covers (shards : ShardHashes) (wc : BitVec 32) (account : List Bool) : Prop :=
  ∃ s r, shards.getShard s = some r ∧ s.workchainId = wc ∧ s.bits <+: account

structure LegalTransition : Prop where
  leaves : ∀ s r, inp.newShards.getShard s = some r → ∃ ccSeqno bmCleared,
    LeafOrigin inp s r ccSeqno bmCleared ∧
      ((ShardsRotate inp ∨ bmCleared) → r.descr.nextCatchainSeqno = ccSeqno + 1) ∧
      (¬ (ShardsRotate inp ∨ bmCleared) → r.descr.nextCatchainSeqno = ccSeqno)
  covered : ∀ wc account, account.length = 256 → Covers inp.oldShards wc account →
    Covers inp.newShards wc account

end Legality

section Fits

variable (inp : LayoutInput)

def WindowFits (d : ShardDescr) : Prop := d.fsmUtime + d.fsmInterval < 2 ^ 32

instance (d : ShardDescr) : Decidable (WindowFits d) :=
  inferInstanceAs (Decidable (d.fsmUtime + d.fsmInterval < 2 ^ 32))

/-- An old leaf that the mask of a full shard can meet, in a workchain of the previous
configuration, with room for the end of its interval and for the next catchain. -/
structure OldLeafFits (s : ShardPath) (d : ShardDescr) : Prop where
  depth : s.bits.length ≤ 59
  listed : s.workchainId ∈ inp.prevWorkchains
  window : WindowFits d
  seqno : d.beforeMerge → d.nextCatchainSeqno + 1 < 2 ^ 32

/-- A new leaf with a prefix of one word, in a workchain of the next configuration,
with room for the bounds of an interval it announces. -/
structure NewLeafFits (s : ShardPath) (d : ShardDescr) : Prop where
  depth : s.bits.length ≤ 64
  listed : (inp.nextWorkchains.lookup s.workchainId).isSome
  window : WindowFits d
  announced : ¬ d.isFsmNone → d.fsmUtime + minSplitMergeInterval < 2 ^ 32 ∧
    inp.now + maxSplitMergeDelay < 2 ^ 32

structure LayoutFits : Prop where
  lifetime : inp.shardCatchainLifetime ≠ 0
  mcLifetime : ¬ inp.keyBlock → inp.mcCatchainLifetime ≠ 0
  old : ∀ s r, inp.oldShards.getShard s = some r → OldLeafFits inp s r.descr
  new : ∀ s r, inp.newShards.getShard s = some r → NewLeafFits inp s r.descr

end Fits

section Descent

variable {inp : LayoutInput}

variable {id : BlockIdExt} {tsbd : TopBlockDescrStuff} (h : inp.topBlockDescr id = .ok (some tsbd))
include h

/-- Every block of a chain of proofs is an ancestor of the top one. -/
theorem reaches_chain (i : ℕ) {b : ProvenBlock} (hb : tsbd.chain[i]? = some b) :
    Relation.ReflTransGen (Follows inp) tsbd.proofFor b.id := by
  induction i generalizing b with
  | zero =>
    cases hb
    exact .refl
  | succ i ih =>
    obtain ⟨hlt, rfl⟩ := List.getElem?_eq_some_iff.mp hb
    have hlink := List.IsChain.getElem tsbd.linked i hlt
    have hprev : tsbd.chain[i]? = some tsbd.chain[i] := List.getElem?_eq_getElem (by omega)
    refine (ih hprev).tail ⟨id, tsbd, h, _, List.getElem_mem (by omega), rfl, ?_⟩
    exact List.mem_cons.mpr (.inl hlink)

theorem descends_getPrevAt {n : ℕ} (hpos : 0 < n) {ob : BlockIdExt} (hob : ob ∈ tsbd.getPrevAt n) :
    Descends inp tsbd.proofFor ob := by
  obtain ⟨k, rfl⟩ : ∃ k, n = k + 1 := ⟨n - 1, by omega⟩
  have hstep : ∀ a, tsbd.chain[k]? = some a → ob ∈ a.prevs → Descends inp tsbd.proofFor ob := by
    intro a ha hprev
    exact .tail' (reaches_chain h k ha) ⟨id, tsbd, h, a, List.mem_of_getElem? ha, rfl, hprev⟩
  rw [TopBlockDescrStuff.getPrevAt] at hob
  split at hob
  · next b hb =>
    -- inside the chain: the block is proved by its own link
    obtain ⟨hlt, rfl⟩ := List.getElem?_eq_some_iff.mp hb
    rw [List.mem_singleton] at hob
    subst hob
    have hlink := List.IsChain.getElem tsbd.linked k hlt
    exact hstep _ (List.getElem?_eq_getElem (by omega)) (List.mem_cons.mpr (.inl hlink))
  · split_ifs at hob with hlen
    · -- past the chain: the predecessors of its last block
      have hlast : tsbd.chain.getLast? = tsbd.chain[k]? := by
        rw [List.getLast?_eq_getElem?, ← hlen, Nat.add_sub_cancel]
      cases ha : tsbd.chain[k]? with
      | none => simp [hlast, ha] at hob
      | some a =>
        rw [hlast, ha] at hob
        exact hstep a ha hob
    · simp at hob

end Descent

variable {old : McShardRecord}

section Updates

variable {shards : ShardHashes} {newInfo : McShardRecord} {ob : BlockIdExt}

theorem matchStartBlock_eq_ok {beforeSplit beforeMerge : Bool}
    (h : matchStartBlock shards none beforeSplit beforeMerge ob = .ok old) :
    shards.getShard ob.shard = some old ∧ old.blockId = ob ∧
      old.descr.beforeSplit = beforeSplit ∧ old.descr.beforeMerge = beforeMerge := by
  simp only [matchStartBlock, Checked.bind_eq_ok, present_eq_ok, require_eq_ok,
    Checked.pure_eq_ok] at h
  obtain ⟨old', hget, -, ⟨hseq, hroot, hfile⟩, -, -, -, hsplit, -, hmerge, rfl⟩ := h
  refine ⟨hget, ?_, hsplit, hmerge⟩
  have hshard : old'.blockId.shard = ob.shard := getShard_shard hget
  cases hid : old'.blockId
  cases ob
  simp_all

theorem checkWindow_eq_ok {d : ShardDescr} {genUtime : ℕ} (h : checkWindow d genUtime = .ok ()) :
    d.fsmUtime ≤ genUtime ∧ genUtime < d.fsmUtime + d.fsmInterval := by
  simp only [checkWindow, bind_eq_ok, addU32_eq_ok, check_eq_ok, require_eq_ok] at h
  obtain ⟨_, ⟨-, rfl⟩, hwindow⟩ := h
  exact hwindow

theorem checkStartBlock_eq_ok {beforeSplit beforeMerge : Bool}
    (h : checkStartBlock shards none newInfo beforeSplit beforeMerge ob = .ok old) :
    shards.getShard ob.shard = some old ∧ old.blockId = ob ∧
      old.descr.beforeSplit = beforeSplit ∧ old.descr.beforeMerge = beforeMerge ∧
      (beforeMerge → MergeAnnounced old.descr newInfo.descr.genUtime) := by
  rw [checkStartBlock, bind_eq_ok] at h
  obtain ⟨old', hmatch, h⟩ := h
  rw [check_eq_ok] at hmatch
  obtain ⟨hget, hid, hsplit, hmerge⟩ := matchStartBlock_eq_ok hmatch
  split_ifs at h with hnew hbm
  · -- a block before a split does not come from a merge
    simp only [bind_eq_ok, check_eq_ok, require_eq_ok, pure_eq_ok, not_or] at h
    obtain ⟨-, ⟨hno, -⟩, -, -, -, -, rfl⟩ := h
    exact ⟨hget, hid, hsplit, hmerge, fun hbm => absurd hbm hno⟩
  · simp only [bind_eq_ok, check_eq_ok, require_eq_ok, pure_eq_ok] at h
    obtain ⟨-, hfsm, ⟨⟩, hwindow, rfl⟩ := h
    exact ⟨hget, hid, hsplit, hmerge, fun _ => ⟨hfsm, checkWindow_eq_ok hwindow⟩⟩
  · rw [pure_eq_ok] at h
    subst h
    exact ⟨hget, hid, hsplit, hmerge, fun hbm' => absurd hbm' hbm⟩

/-- Which old leaves the start blocks of an update of the shard are, and the catchain
seqno they give it. -/
inductive ShardUpdate (shards : ShardHashes) (s : ShardPath) (genUtime : ℕ) :
    List BlockIdExt → ℕ → Prop
  | same (old : McShardRecord) (hold : shards.getShard s = some old) :
      ShardUpdate shards s genUtime [old.blockId] old.descr.nextCatchainSeqno
  | split (old : McShardRecord) (hparent : old.shard.isParentFor s)
      (hold : shards.getShard old.shard = some old) (hsplit : old.descr.beforeSplit) :
      ShardUpdate shards s genUtime [old.blockId] old.descr.nextCatchainSeqno
  | merge (old1 old2 : McShardRecord) (hchild : s.isParentFor old1.shard)
      (hold1 : shards.getShard old1.shard = some old1)
      (hold2 : shards.getShard old1.shard.sibling = some old2)
      (hmerge1 : old1.descr.beforeMerge) (hmerge2 : old2.descr.beforeMerge)
      (hwindow1 : MergeAnnounced old1.descr genUtime)
      (hwindow2 : MergeAnnounced old2.descr genUtime) :
      ShardUpdate shards s genUtime [old1.blockId, old2.blockId]
        (max old1.descr.nextCatchainSeqno old2.descr.nextCatchainSeqno + 1)

theorem mayUpdateShardBlockInfo_eq_ok {oldBlkids : List BlockIdExt} {ltLimit : ℕ}
    {result : Bool × Option McShardRecord}
    (h : mayUpdateShardBlockInfo shards newInfo oldBlkids ltLimit none = .ok result) :
    ShardUpdate shards newInfo.shard newInfo.descr.genUtime oldBlkids
      newInfo.descr.nextCatchainSeqno := by
  simp only [mayUpdateShardBlockInfo, bind_eq_ok, check_eq_ok, require_eq_ok, pure_eq_ok,
    mapM_eq_ok, Prod.exists] at h
  obtain ⟨-, -, -, -, beforeSplit, beforeMerge, hshape, olds, holds, expected, hexpected, -, hcc,
    -, -, -⟩ := h
  rcases oldBlkids with _ | ⟨ob, _ | ⟨ob2, _ | ⟨_, _⟩⟩⟩
  · cases hshape
  · simp only [checkStartShards, Checked.bind_eq_ok, require_eq_ok, Checked.pure_eq_ok,
      Prod.mk.injEq] at hshape
    obtain ⟨-, hshard, rfl, rfl⟩ := hshape
    obtain ⟨old, rfl, hstart⟩ : ∃ old, olds = [old] ∧ checkStartBlock shards none newInfo
        (ob.shard.isParentFor newInfo.shard) false ob = .ok old := by
      simpa [List.forall₂_cons_left_iff, and_comm] using holds
    obtain ⟨hget, rfl, hsplit, -, -⟩ := checkStartBlock_eq_ok hstart
    have hseq : newInfo.descr.nextCatchainSeqno = old.descr.nextCatchainSeqno := by
      simp only [expectedCatchainSeqno, Bool.false_eq_true, if_false, pure_eq_ok] at hexpected
      rw [← hcc, ← hexpected]
      simp
    rw [hseq]
    rcases hshard with hsame | hparent
    · exact .same old (by rw [hsame]; exact hget)
    · exact .split old hparent hget (hsplit.trans hparent)
  · simp only [checkStartShards, Checked.bind_eq_ok, require_eq_ok, Checked.pure_eq_ok,
      Prod.mk.injEq] at hshape
    obtain ⟨-, hsibling, -, hchild, rfl, rfl⟩ := hshape
    rw [List.forall₂_cons_left_iff] at holds
    obtain ⟨old1, olds1, hstart1, hrest, rfl⟩ := holds
    obtain ⟨old2, rfl, hstart2⟩ : ∃ old, olds1 = [old] ∧ checkStartBlock shards none newInfo
        (ob.shard.isParentFor newInfo.shard) true ob2 = .ok old := by
      simpa [List.forall₂_cons_left_iff, and_comm] using hrest
    obtain ⟨hget1, rfl, -, hmerge1, hwindow1⟩ := checkStartBlock_eq_ok hstart1
    obtain ⟨hget2, rfl, -, hmerge2, hwindow2⟩ := checkStartBlock_eq_ok hstart2
    have hseq : newInfo.descr.nextCatchainSeqno =
        max old1.descr.nextCatchainSeqno old2.descr.nextCatchainSeqno + 1 := by
      simp only [expectedCatchainSeqno, if_true, addU32_eq_ok] at hexpected
      rw [← hcc, ← hexpected.2]
      simp
    rw [← hsibling] at hget2
    rw [hseq]
    exact .merge old1 old2 hchild hget1 hget2 hmerge1 hmerge2 (hwindow1 rfl) (hwindow2 rfl)
  · cases hshape

end Updates

section Leaves

variable {inp : LayoutInput}

theorem basicInfoEqual_blockId {a b : McShardRecord} {fees reg : Bool}
    (h : a.basicInfoEqual b fees reg) :
    a.blockId = b.blockId ∧ a.descr.genUtime = b.descr.genUtime := by
  simp only [McShardRecord.basicInfoEqual, Bool.and_eq_true, decide_eq_true_eq] at h
  obtain ⟨⟨⟨⟨⟨⟨⟨⟨⟨hid, -⟩, -⟩, -⟩, hutime⟩, -⟩, -⟩, -⟩, -⟩, -⟩ := h
  exact ⟨hid, hutime⟩

theorem checkTsbd_eq_ok {id : BlockIdExt} {tsbd : TopBlockDescrStuff} {n : ℕ}
    (h : checkTsbd inp id = .ok (tsbd, n)) :
    inp.topBlockDescr id = .ok (some tsbd) ∧ tsbd.proofFor = id ∧ 0 < n := by
  simp only [checkTsbd, Checked.bind_eq_ok, present_eq_ok, require_eq_ok,
    Checked.pure_eq_ok, Prod.mk.injEq] at h
  obtain ⟨found, hfound, tsbd', rfl, -, hproof, chainLen, -, -, ⟨hpos, -⟩, -, -, rfl, rfl⟩ := h
  exact ⟨hfound, hproof, by omega⟩

variable {info : McShardRecord} {prev : Option McShardRecord}

/-- The old leaf on the way tells the same shard from its parent and children. -/
theorem matchOldShard_eq_ok (h : matchOldShard inp old info = .ok prev) :
    (old.shard.isParentFor info.shard ∧ prev = none) ∨
      (info.shard.isParentFor old.shard ∧ prev = none) ∨
      (info.shard = old.shard ∧ prev = some old) := by
  rw [matchOldShard] at h
  split_ifs at h with hparent hchild hsame
  · rw [pure_eq_ok] at h
    exact .inl ⟨hparent, h.symm⟩
  · simp only [bind_eq_ok, pure_eq_ok] at h
    obtain ⟨_, -, _, -, _, -, -, -, rfl⟩ := h
    exact .inr (.inl ⟨hchild, rfl⟩)
  · rw [pure_eq_ok] at h
    exact .inr (.inr ⟨hsame, h.symm⟩)
  · rw [check_eq_ok] at h
    cases h

/-- Leaves do not lie in each other: next to a leaf neither a child nor the parent of its
shard is one. -/
theorem getShard_eq_none_of_isParentFor {shards : ShardHashes} {s s' : ShardPath}
    (hparent : s.isParentFor s') {r : McShardRecord} :
    (shards.getShard s = some r → shards.getShard s' = none) ∧
      (shards.getShard s' = some r → shards.getShard s = none) := by
  have hnot : ∀ r r', shards.getShard s = some r → shards.getShard s' ≠ some r' := by
    intro r r' h h'
    obtain ⟨b, rfl⟩ := isParentFor_iff.mp hparent
    have heq := eq_of_prefix h h' rfl (List.prefix_append _ _)
    have hlen := congrArg (fun s : ShardPath => s.bits.length) heq
    simp at hlen
  constructor
  · exact fun h => Option.eq_none_iff_forall_ne_some.mpr fun r' => hnot r r' h
  · exact fun h => Option.eq_none_iff_forall_ne_some.mpr fun r' h' => hnot r' r h' h

variable {ccSeqno : ℕ}

/-- A changed shard descends from start blocks that may be updated to it. -/
theorem checkChangedShard_eq_ok (hold : inp.oldShards.getShard old.shard = some old)
    (h : checkChangedShard inp old info = .ok (prev, ccSeqno)) :
    prev = inp.oldShards.getShard info.shard ∧ ∃ starts,
      ShardUpdate inp.oldShards info.shard info.descr.genUtime starts ccSeqno ∧
        ∀ ob ∈ starts, Descends inp info.blockId ob := by
  simp only [checkChangedShard, bind_eq_ok, check_eq_ok, require_eq_ok, pure_eq_ok,
    Prod.exists, Prod.mk.injEq] at h
  obtain ⟨-, -, tsbd, n, htsbd, descr, hdescr, -, -, beforeSplit, ancestor, hupdate, -, hinfo, -,
    -, prev', hprev, rfl, rfl⟩ := h
  obtain ⟨hfound, hproof, hpos⟩ := checkTsbd_eq_ok htsbd
  obtain ⟨hid, hutime⟩ := basicInfoEqual_blockId hinfo
  have hshard : descr.shard = info.shard := congrArg BlockIdExt.shard hid
  refine ⟨?_, tsbd.getPrevAt n, ?_, ?_⟩
  · rcases matchOldShard_eq_ok hprev with ⟨hparent, rfl⟩ | ⟨hchild, rfl⟩ | ⟨hsame, rfl⟩
    · exact ((getShard_eq_none_of_isParentFor hparent).1 hold).symm
    · exact ((getShard_eq_none_of_isParentFor hchild).2 hold).symm
    · rw [hsame, hold]
  · have hkind := mayUpdateShardBlockInfo_eq_ok hupdate
    rwa [hshard, hutime] at hkind
  · intro ob hob
    rw [← hproof]
    exact descends_getPrevAt hfound hpos hob

variable {wcInfo : Option WorkchainDescr}

theorem checkCreatedShard_eq_ok (h : checkCreatedShard inp info wcInfo = .ok ccSeqno) :
    ccSeqno = 0 ∧ info.shard.isFull ∧ ∃ wc, wcInfo = some wc ∧ wc.active ∧
      info.descr.seqNo = 0 ∧ info.descr.rootHash = wc.zerostateRootHash ∧
      info.descr.fileHash = wc.zerostateFileHash := by
  simp only [checkCreatedShard, Checked.bind_eq_ok, present_eq_ok, require_eq_ok,
    Checked.pure_eq_ok] at h
  obtain ⟨-, hfull, wc, hwc, -, hactive, -, hseq, -, ⟨hroot, hfile⟩, -, -, -, -, -, -, -, -, -, -,
    -, -, rfl⟩ := h
  exact ⟨rfl, hfull, wc, hwc, hactive, hseq, hroot, hfile⟩

theorem shardOrigin_eq_ok (h : shardOrigin inp info wcInfo = .ok (prev, ccSeqno)) :
    (inp.oldShards.findShard info.shard.leftAncestorMask = .ok none ∧ prev = none ∧
        checkCreatedShard inp info wcInfo = .ok ccSeqno) ∨
      ∃ old, inp.oldShards.findShard info.shard.leftAncestorMask = .ok (some old) ∧
        ((old.blockId = info.blockId ∧ prev = some old ∧ ccSeqno = old.descr.nextCatchainSeqno) ∨
          checkChangedShard inp old info = .ok (prev, ccSeqno)) := by
  simp only [shardOrigin, bind_eq_ok, check_eq_ok] at h
  obtain ⟨-, -, found, hfound, h⟩ := h
  cases found with
  | none =>
    simp only [bind_eq_ok, check_eq_ok, pure_eq_ok, Prod.mk.injEq] at h
    obtain ⟨cc, hcreated, rfl, rfl⟩ := h
    exact .inl ⟨hfound, rfl, hcreated⟩
  | some old =>
    simp only at h
    refine .inr ⟨old, hfound, ?_⟩
    split_ifs at h with hid
    · simp only [bind_eq_ok, check_eq_ok, pure_eq_ok, Prod.mk.injEq] at h
      obtain ⟨-, -, rfl, rfl⟩ := h
      exact .inl ⟨hid, rfl, rfl⟩
    · exact .inr h

/-- The leaf whose announcement is carried on is an old one. -/
theorem shardOrigin_prev (h : shardOrigin inp info wcInfo = .ok (some old, ccSeqno)) :
    ∃ s, inp.oldShards.getShard s = some old := by
  rcases shardOrigin_eq_ok h with ⟨-, hnone, -⟩ | ⟨old', hfound, ⟨-, hsame, -⟩ | hchanged⟩
  · cases hnone
  · cases hsame
    exact ⟨_, (findShard_eq_some hfound).1⟩
  · obtain ⟨hold, -⟩ := checkChangedShard_eq_ok (findShard_eq_some hfound).1 hchanged
    exact ⟨_, hold.symm⟩

theorem checkCatchainSeqno_eq_ok {updateShardCc bmCleared : Bool}
    (h : checkCatchainSeqno info ccSeqno updateShardCc bmCleared = .ok ()) :
    ((updateShardCc ∨ bmCleared) → info.descr.nextCatchainSeqno = ccSeqno + 1) ∧
      (¬ (updateShardCc ∨ bmCleared) → info.descr.nextCatchainSeqno = ccSeqno) := by
  simp only [checkCatchainSeqno, Checked.bind_eq_ok, require_eq_ok] at h
  obtain ⟨-, -, -, hstep, -, hrotate, -, hcleared, hreason⟩ := h
  by_cases heq : info.descr.nextCatchainSeqno = ccSeqno
  · simp only [heq, ne_eq, not_true_eq_false, decide_false, Bool.false_eq_true,
      not_false_eq_true, true_and] at hrotate hcleared
    refine ⟨?_, fun _ => heq⟩
    rintro (hupd | hbm)
    · exact absurd hupd hrotate
    · exact absurd hbm hcleared
  · simp only [heq, ne_eq, not_false_eq_true, decide_true, Bool.toNat_true] at hstep hreason
    refine ⟨fun _ => hstep, fun hno => ?_⟩
    simp [hno] at hreason

/-- A checked shard: its origin, and the catchain seqno that follows. -/
theorem checkOneShard_eq_ok {sibling : Option McShardRecord} {updateShardCc : Bool}
    (h : checkOneShard inp updateShardCc info sibling wcInfo = .ok ()) :
    ∃ prev ccSeqno, shardOrigin inp info wcInfo = .ok (prev, ccSeqno) ∧
      checkCatchainSeqno info ccSeqno updateShardCc
        (!info.descr.beforeMerge && prev.any (·.descr.beforeMerge)) = .ok () := by
  simp only [checkOneShard, bind_eq_ok, Prod.exists] at h
  obtain ⟨prev, ccSeqno, horigin, inherited, -, h⟩ := h
  cases wcInfo with
  | none => cases h
  | some wcInfo =>
    simp only [bind_eq_ok, check_eq_ok] at h
    obtain ⟨-, -, -, -, hcc⟩ := h
    exact ⟨prev, ccSeqno, horigin, hcc⟩

end Leaves

variable {wc : BitVec 32}

section Rounds

def LayoutRound.records (round : LayoutRound) (shard : ShardPath) :
    List (McShardRecord × Option McShardRecord) :=
  let descr := McShardRecord.fromShardDescr shard round.descr
  match round.sibling with
  | some sibling =>
    let sibling := McShardRecord.fromShardDescr shard.sibling sibling
    [(descr, some sibling), (sibling, some descr)]
  | none => [(descr, none)]

theorem LayoutRound.exists_records (round : LayoutRound) (shard : ShardPath) :
    ∃ r, r ∈ round.records shard := by
  rw [records]
  cases round.sibling with
  | none | some sibling => exact ⟨_, List.mem_cons_self⟩

variable (inp : LayoutInput)

theorem checkRound_eq (updateShardCc : Bool) (round : LayoutRound) :
    checkRound inp updateShardCc round = (do
      let shard ← withPrefixSlice round.workchainId round.key
      check (Checked.require (round.workchainId ≠ masterchainId)
        "new shard configuration contains shards of invalid workchain")
      forM (round.records shard) fun r => checkOneShard inp updateShardCc r.1 r.2
        (inp.nextWorkchains.lookup round.workchainId)) := by
  rw [checkRound]
  cases hsibling : round.sibling with
  | none | some sibling => simp [LayoutRound.records, hsibling]

theorem withPrefixSlice_eq_ok {bits : List Bool} {s : ShardPath}
    (h : withPrefixSlice wc bits = .ok s) : s = ⟨wc, bits⟩ ∧ bits.length ≤ maxSplitDepth := by
  rw [withPrefixSlice] at h
  split_ifs at h with hlong
  · cases h
  · simp only [check_eq_ok, Checked.bind_eq_ok, require_eq_ok, Checked.pure_eq_ok] at h
    obtain ⟨-, hlen, -, -, rfl⟩ := h
    exact ⟨rfl, hlen⟩

/-- What a round checks are leaves of the new configuration, two of them only when
they are siblings. -/
theorem records_leaf {inp : LayoutInput} {round : LayoutRound} (hround : round ∈ inp.rounds)
    {r : McShardRecord × Option McShardRecord}
    (hr : r ∈ round.records ⟨round.workchainId, round.key⟩) :
    inp.newShards.getShard r.1.shard = some r.1 ∧ r.1.shard.workchainId = round.workchainId ∧
      r.1.shard.bits.length = round.key.length := by
  obtain ⟨⟨wc, tree⟩, htree, hpairs⟩ := List.mem_flatMap.mp hround
  obtain ⟨⟨key, descr, sibling⟩, hpair, rfl⟩ := List.mem_map.mp hpairs
  have hlookup : inp.newShards.lookup wc = some tree := AList.mem_lookup_iff.mpr htree
  obtain ⟨hget, hsibling⟩ := BinTree.mem_pairs hpair
  have hleaf : ∀ k d, tree.get k = some d →
      inp.newShards.getShard ⟨wc, k⟩ = some (.fromShardDescr ⟨wc, k⟩ d) := by
    intro k d hk
    exact getShard_eq_some.mpr ⟨tree, d, hlookup, hk, rfl⟩
  cases sibling with
  | none =>
    obtain rfl : r = _ := by simpa [LayoutRound.records] using hr
    exact ⟨hleaf key descr hget, rfl, rfl⟩
  | some second =>
    obtain ⟨z, rfl, hsecond⟩ := hsibling second rfl
    have hpath := ShardPath.sibling_concat wc z false
    simp only [LayoutRound.records, hpath, List.mem_cons, List.not_mem_nil, or_false] at hr
    rcases hr with rfl | rfl
    · exact ⟨hleaf _ _ hget, rfl, rfl⟩
    · refine ⟨hleaf _ _ hsecond, rfl, ?_⟩
      simp [McShardRecord.fromShardDescr, McShardRecord.shard]

theorem periodEnded_eq_ok (lifetime : ℕ) (ended : Bool) : periodEnded inp lifetime = .ok ended ↔
      lifetime ≠ 0 ∧ ended = decide (inp.prevNow / lifetime < inp.now / lifetime) := by
  simp only [periodEnded, bind_eq_ok, divU32_eq_ok, pure_eq_ok]
  constructor
  · rintro ⟨_, ⟨hne, rfl⟩, _, ⟨-, rfl⟩, rfl⟩
    exact ⟨hne, rfl⟩
  · rintro ⟨hne, rfl⟩
    exact ⟨_, ⟨hne, rfl⟩, _, ⟨hne, rfl⟩, rfl⟩

theorem rotate_iff : (inp.keyBlock ||
      decide (inp.prevNow / inp.shardCatchainLifetime < inp.now / inp.shardCatchainLifetime)) = true ↔
      ShardsRotate inp := by
  simp [ShardsRotate]

end Rounds

section NoCrash

theorem noCrash_checkWindow {d : ShardDescr} (h : WindowFits d) (genUtime : ℕ) :
    NoCrash (checkWindow d genUtime) := by
  rw [checkWindow, noCrash_bind, noCrash_addU32]
  exact ⟨h, fun _ _ => noCrash_check _⟩

theorem noCrash_withPrefixSlice {bits : List Bool} :
    NoCrash (withPrefixSlice wc bits) ↔ bits.length ≤ 64 := by
  rw [withPrefixSlice]
  split_ifs with hlong
  · simp only [not_noCrash_crash, false_iff]
    omega
  · simp only [noCrash_check, true_iff]
    omega

theorem noCrash_periodEnded {inp : LayoutInput} {lifetime : ℕ} :
    NoCrash (periodEnded inp lifetime) ↔ lifetime ≠ 0 := by
  simp only [periodEnded, noCrash_bind, noCrash_divU32, noCrash_pure, implies_true, and_true]
  exact ⟨And.left, fun h => ⟨h, fun _ _ => h⟩⟩

/-- The second old leaf of a merge can always be looked up. -/
theorem noCrash_matchOldShard {inp : LayoutInput} {old info : McShardRecord}
    (hlen : info.shard.bits.length ≤ maxSplitDepth)
    (hfind : inp.oldShards.findShard info.shard.leftAncestorMask = .ok (some old)) :
    NoCrash (matchOldShard inp old info) := by
  rw [matchOldShard]
  split_ifs with hparent hchild hsame
  · exact noCrash_pure _
  · obtain ⟨-, -, hpre⟩ := findShard_eq_some hfind
    obtain ⟨b, hb⟩ := isParentFor_iff.mp hchild
    rw [hb] at hpre
    refine noCrash_bind.mpr ⟨ShardPath.noCrash_rightAncestorMask hpre rfl, ?_⟩
    intro mask hmask
    have hmasklen := ShardPath.length_rightAncestorMask hlen hmask
    refine noCrash_bind.mpr ⟨ShardHashes.noCrash_findShard _ _ hmasklen, ?_⟩
    intro found _
    simp [noCrash_bind]
  · exact noCrash_pure _
  · exact noCrash_check _

variable {inp : LayoutInput} (hfits : LayoutFits inp)
include hfits

theorem noCrash_checkStartBlock (newInfo : McShardRecord) (beforeSplit beforeMerge : Bool)
    (ob : BlockIdExt) :
    NoCrash (checkStartBlock inp.oldShards none newInfo beforeSplit beforeMerge ob) := by
  rw [checkStartBlock, noCrash_bind]
  refine ⟨noCrash_check _, ?_⟩
  intro old hold
  rw [check_eq_ok] at hold
  have hwindow := (hfits.old _ _ (matchStartBlock_eq_ok hold).1).window
  split_ifs with hsplit hmerge
  · simp [noCrash_bind, noCrash_checkWindow hwindow]
  · simp [noCrash_bind, noCrash_checkWindow hwindow]
  · simp

theorem noCrash_mayUpdateShardBlockInfo (newInfo : McShardRecord) (oldBlkids : List BlockIdExt)
    (ltLimit : ℕ) :
    NoCrash (mayUpdateShardBlockInfo inp.oldShards newInfo oldBlkids ltLimit none) := by
  simp only [mayUpdateShardBlockInfo, noCrash_bind, noCrash_check, noCrash_pure, true_and,
    and_true, implies_true, noCrash_mapM, noCrash_checkStartBlock hfits, mapM_eq_ok, Prod.forall]
  intro _ _ _ _ beforeSplit beforeMerge _ olds holds
  rw [expectedCatchainSeqno]
  split_ifs with hmerge
  · -- every start block of a merge is a leaf with its flag
    have hroom : ∀ seqno ∈ olds.map (·.descr.nextCatchainSeqno), seqno + 1 < 2 ^ 32 := by
      intro seqno hmem
      obtain ⟨old, hold, rfl⟩ := List.mem_map.mp hmem
      obtain ⟨i, hi, rfl⟩ := List.getElem_of_mem hold
      obtain ⟨hlen, hstart⟩ := List.forall₂_iff_get.mp holds
      obtain ⟨hget, -, -, hflag, -⟩ := checkStartBlock_eq_ok (hstart i (by omega) hi)
      exact (hfits.old _ _ hget).seqno (hflag.trans hmerge)
    have hmax : (olds.map (·.descr.nextCatchainSeqno)).foldl max 0 < 2 ^ 32 - 1 := by
      refine List.foldlRecOn (motive := (· < 2 ^ 32 - 1)) _ max (by norm_num) ?_
      intro acc hacc seqno hmem
      have := hroom seqno hmem
      omega
    rw [noCrash_addU32]
    omega
  · exact noCrash_pure _

variable {info : McShardRecord}

theorem noCrash_checkChangedShard (hlen : info.shard.bits.length ≤ maxSplitDepth)
    (hfind : inp.oldShards.findShard info.shard.leftAncestorMask = .ok (some old)) :
    NoCrash (checkChangedShard inp old info) := by
  simp [checkChangedShard, noCrash_bind, noCrash_mayUpdateShardBlockInfo hfits,
    noCrash_matchOldShard hlen hfind]

theorem noCrash_shardOrigin (hlen : info.shard.bits.length ≤ maxSplitDepth)
    (wcInfo : Option WorkchainDescr) : NoCrash (shardOrigin inp info wcInfo) := by
  have hfind := ShardHashes.noCrash_findShard inp.oldShards info.shard.leftAncestorMask
    (ShardPath.length_leftAncestorMask info.shard hlen)
  simp only [shardOrigin, noCrash_bind, noCrash_check, true_and, hfind]
  intro _ _ found hfound
  cases found with
  | none => simp
  | some old =>
    simp only
    split_ifs with hid
    · simp
    · exact noCrash_checkChangedShard hfits hlen hfound

theorem noCrash_checkInherited {prev : Option McShardRecord} {ccSeqno : ℕ}
    {wcInfo : Option WorkchainDescr} (h : shardOrigin inp info wcInfo = .ok (prev, ccSeqno)) :
    NoCrash (checkInherited inp prev info) := by
  cases prev with
  | none => simp [checkInherited]
  | some old =>
    obtain ⟨s, hold⟩ := shardOrigin_prev h
    have hwindow := (hfits.old _ _ hold).window
    by_cases hnone : old.descr.isFsmNone
    · simp [checkInherited, hnone]
    · simp only [checkInherited, hnone, Bool.false_eq_true, if_false, noCrash_bind,
        ShardDescr.fsmUtimeEnd, noCrash_addU32]
      refine ⟨hwindow, ?_⟩
      intro fsmEnd _
      split_ifs
      · simp
      · simp

omit hfits in
theorem noCrash_checkAnnounced {s : ShardPath} (h : NewLeafFits inp s info.descr)
    (sibling : Option McShardRecord) (wcInfo : WorkchainDescr) (inherited : Bool) :
    NoCrash (checkAnnounced inp info sibling wcInfo inherited) := by
  rw [checkAnnounced]
  split_ifs with hskip
  · exact noCrash_pure _
  · obtain ⟨hleast, hlatest⟩ := h.announced (not_or.mp hskip).2
    have hinterval : NoCrash (checkAnnouncedInterval inp info.descr) := by
      rw [checkAnnouncedInterval, noCrash_bind, ShardDescr.fsmUtimeEnd, noCrash_addU32]
      refine ⟨h.window, ?_⟩
      intro fsmEnd _
      split_ifs
      · exact noCrash_check _
      · rw [noCrash_bind, noCrash_addU32]
        refine ⟨hleast, ?_⟩
        intro least _
        split_ifs
        · exact noCrash_check _
        · rw [noCrash_bind, noCrash_addU32]
          exact ⟨hlatest, fun _ _ => noCrash_check _⟩
    simp [noCrash_bind, hinterval]

theorem noCrash_checkOneShard (hlen : info.shard.bits.length ≤ maxSplitDepth)
    (hnew : NewLeafFits inp info.shard info.descr) (updateShardCc : Bool)
    (sibling : Option McShardRecord) :
    NoCrash (checkOneShard inp updateShardCc info sibling
      (inp.nextWorkchains.lookup info.shard.workchainId)) := by
  obtain ⟨wcInfo, hwc⟩ := Option.isSome_iff_exists.mp hnew.listed
  rw [hwc, checkOneShard, noCrash_bind]
  refine ⟨noCrash_shardOrigin hfits hlen _, ?_⟩
  rintro ⟨prev, ccSeqno⟩ horigin
  simp [noCrash_bind, noCrash_checkInherited hfits horigin, noCrash_checkAnnounced hnew]

theorem noCrash_checkRound {round : LayoutRound} (hround : round ∈ inp.rounds)
    (updateShardCc : Bool) : NoCrash (checkRound inp updateShardCc round) := by
  have hdepth : round.key.length ≤ 64 := by
    obtain ⟨r, hr⟩ := round.exists_records ⟨round.workchainId, round.key⟩
    obtain ⟨hleaf, -, hlength⟩ := records_leaf hround hr
    rw [← hlength]
    exact (hfits.new _ _ hleaf).depth
  rw [checkRound_eq, noCrash_bind]
  constructor
  · exact noCrash_withPrefixSlice.mpr hdepth
  · intro shard hshard
    obtain ⟨rfl, hlen⟩ := withPrefixSlice_eq_ok hshard
    simp only [noCrash_bind, noCrash_check, true_and, noCrash_forM]
    intro _ _ pre r post heq _
    have hmem : r ∈ round.records ⟨round.workchainId, round.key⟩ := by
      rw [heq]
      simp
    obtain ⟨hleaf, hwc, hlength⟩ := records_leaf hround hmem
    rw [← hwc]
    rw [← hlength] at hlen
    exact noCrash_checkOneShard hfits hlen (hfits.new _ _ hleaf) _ _

theorem noCrash_checkShardLayout : NoCrash (checkShardLayout inp) := by
  have hmc : NoCrash (updateMcCatchain inp) := by
    rw [updateMcCatchain]
    split_ifs with hkey
    · exact noCrash_pure _
    · exact noCrash_periodEnded.mpr (hfits.mcLifetime hkey)
  simp only [checkShardLayout, noCrash_bind, noCrash_check, true_and, implies_true, and_true,
    noCrash_periodEnded.mpr hfits.lifetime, noCrash_forM, hmc]
  intro _ _ ended _ pre round post heq _
  exact noCrash_checkRound hfits (by rw [heq]; simp) _

end NoCrash

section Accepted

variable {inp : LayoutInput} {s : ShardPath} {r : McShardRecord}

/-- The mask of a full shard meets one of the old leaves of its workchain, as none
of them is longer. -/
theorem lookup_eq_none_of_findShard_none (hfits : LayoutFits inp) (hfull : s.isFull)
    (hnone : inp.oldShards.findShard s.leftAncestorMask = .ok none) :
    inp.oldShards.lookup s.workchainId = none := by
  rw [Option.eq_none_iff_forall_ne_some]
  intro tree htree
  have hleaf : ∀ k d, tree.get k = some d →
      inp.oldShards.getShard ⟨s.workchainId, k⟩ = some (.fromShardDescr ⟨s.workchainId, k⟩ d) := by
    intro k d hk
    exact getShard_eq_some.mpr ⟨tree, d, htree, hk, rfl⟩
  have hmask : s.leftAncestorMask = ⟨s.workchainId, false :: List.replicate 58 true⟩ := by
    have hnil : s.bits = [] := by simpa [ShardPath.isFull] using hfull
    simp [ShardPath.leftAncestorMask, hnil]
  rw [hmask] at hnone
  have hshort : ∀ k d, tree.get k = some d →
      k.length ≤ (false :: List.replicate 58 true).length := by
    intro k d hk
    simpa using (hfits.old _ _ (hleaf k d hk)).depth
  obtain ⟨⟨k, d⟩, hfind⟩ := BinTree.find_isSome hshort
  obtain ⟨hget, hpre⟩ := BinTree.find_eq_some.mp hfind
  exact ShardHashes.not_prefix_of_findShard_none hnone (hleaf k d hget) rfl hpre

variable (h : checkShardLayout inp = .ok ())
include h

theorem accepted_leaf (hr : inp.newShards.getShard s = some r) : s.bits.length ≤ maxSplitDepth ∧
      ∃ updateShardCc sibling, (updateShardCc = true ↔ ShardsRotate inp) ∧
        checkOneShard inp updateShardCc r sibling (inp.nextWorkchains.lookup s.workchainId) =
          .ok () := by
  obtain ⟨upd, hupd, hrounds⟩ : ∃ upd, (upd = true ↔ ShardsRotate inp) ∧
      ∀ round ∈ inp.rounds, checkRound inp upd round = .ok () := by
    simp only [checkShardLayout, bind_eq_ok, periodEnded_eq_ok] at h
    obtain ⟨-, -, _, ⟨-, rfl⟩, ⟨⟩, hrounds, -⟩ := h
    exact ⟨_, rotate_iff inp, forM_eq_ok.mp hrounds⟩
  obtain ⟨tree, descr, htree, hget, rfl⟩ := getShard_eq_some.mp hr
  have hmem : ∀ key first second, (key, first, second) ∈ tree.pairs →
      (⟨s.workchainId, key, first, second⟩ : LayoutRound) ∈ inp.rounds := by
    intro key first second hpair
    refine List.mem_flatMap.mpr ⟨⟨s.workchainId, tree⟩, ?_, ?_⟩
    · exact (AList.mem_lookup_iff).mp htree
    · exact List.mem_map.mpr ⟨_, hpair, rfl⟩
  have hpass : ∀ key first second, (key, first, second) ∈ tree.pairs → key.length ≤ maxSplitDepth ∧
      ∀ x ∈ (⟨s.workchainId, key, first, second⟩ : LayoutRound).records ⟨s.workchainId, key⟩,
        checkOneShard inp upd x.1 x.2 (inp.nextWorkchains.lookup s.workchainId) = .ok () := by
    intro key first second hpair
    have hround := hrounds _ (hmem key first second hpair)
    rw [checkRound_eq] at hround
    simp only [bind_eq_ok, check_eq_ok, forM_eq_ok] at hround
    obtain ⟨shard, hshard, -, -, hrecords⟩ := hround
    obtain ⟨rfl, hlen⟩ := withPrefixSlice_eq_ok hshard
    exact ⟨hlen, hrecords⟩
  rcases BinTree.get_mem_pairs hget with ⟨second, hpair⟩ | ⟨y, first, hkey, hpair⟩
  · obtain ⟨hlen, hrecords⟩ := hpass _ _ _ hpair
    refine ⟨hlen, upd, second.map (McShardRecord.fromShardDescr s.sibling), hupd, ?_⟩
    refine hrecords (.fromShardDescr s descr, _) ?_
    cases second with
    | none | some second => simp [LayoutRound.records]
  · -- the right one of two sibling leaves is checked in the round of the left one
    obtain ⟨hlen, hrecords⟩ := hpass _ _ _ hpair
    obtain ⟨wc, bits⟩ := s
    subst hkey
    refine ⟨by simpa using hlen, upd, some (.fromShardDescr ⟨wc, y ++ [false]⟩ first), hupd, ?_⟩
    refine hrecords (.fromShardDescr ⟨wc, y ++ [true]⟩ descr, _) ?_
    have hsibling := ShardPath.sibling_concat wc y false
    simp [LayoutRound.records, hsibling]

/-- Next to a new leaf below an old one there is another new leaf. -/
theorem split_sibling {p : List Bool} {b : Bool}
    (hr : inp.newShards.getShard ⟨wc, p ++ [b]⟩ = some r)
    (hold : inp.oldShards.getShard ⟨wc, p⟩ = some old) :
    ∃ other, inp.newShards.getShard ⟨wc, p ++ [!b]⟩ = some other := by
  obtain ⟨tree, descr, htree, hget, -⟩ := getShard_eq_some.mp hr
  obtain ⟨x, descr', hget'⟩ := BinTree.exists_sibling hget
  have hother : inp.newShards.getShard ⟨wc, p ++ [!b] ++ x⟩ = some (.fromShardDescr _ descr') :=
    getShard_eq_some.mpr ⟨tree, descr', htree, hget', rfl⟩
  obtain ⟨hlen, upd, sibling, -, hcheck⟩ := accepted_leaf h hother
  obtain ⟨prev, ccSeqno, horigin, -⟩ := checkOneShard_eq_ok hcheck
  rcases shardOrigin_eq_ok horigin with ⟨-, -, hcreated⟩ | ⟨old', hfound, hkind⟩
  · obtain ⟨-, hfull, -⟩ := checkCreatedShard_eq_ok hcreated
    simp [ShardPath.isFull, McShardRecord.shard, McShardRecord.fromShardDescr] at hfull
  · -- the old leaf on the way of the other leaf is the same one
    obtain ⟨hold', hwc, hpre⟩ := findShard_eq_some hfound
    have hself : p <+: p ++ [!b] ++ x := by
      rw [List.append_assoc]
      exact List.prefix_append _ _
    have hcompare : p <+: old'.shard.bits ∨ old'.shard.bits <+: p := by
      rcases ShardPath.leftAncestorMask_prefix ⟨wc, p ++ [!b] ++ x⟩ hlen with hlong | hshort
      · exact List.prefix_or_prefix_of_prefix (hself.trans hlong) hpre
      · exact List.prefix_or_prefix_of_prefix hself (hpre.trans hshort)
    have heq : old'.shard = ⟨wc, p⟩ := by
      rcases hcompare with hle | hle
      · exact ( eq_of_prefix hold hold' hwc.symm hle).symm
      · exact eq_of_prefix hold' hold hwc hle
    have hnear : old'.shard.isParentFor ⟨wc, p ++ [!b] ++ x⟩ ∨
        ShardPath.isParentFor ⟨wc, p ++ [!b] ++ x⟩ old'.shard ∨
        ⟨wc, p ++ [!b] ++ x⟩ = old'.shard := by
      rcases hkind with ⟨hid, -, -⟩ | hchanged
      · exact .inr (.inr (congrArg BlockIdExt.shard hid).symm)
      · simp only [checkChangedShard, bind_eq_ok, Prod.exists] at hchanged
        obtain ⟨-, -, _, _, -, _, -, -, -, _, _, -, -, -, -, -, _, hmatch, -⟩ := hchanged
        exact (matchOldShard_eq_ok hmatch).imp And.left (.imp And.left And.left)
    -- the other leaf is longer, so it is a child of the old one
    have hx : x = [] := by
      simp only [heq, isParentFor_iff, ShardPath.mk.injEq] at hnear
      rcases hnear with ⟨c, -, hc⟩ | ⟨c, -, hc⟩ | ⟨-, hc⟩ <;>
      · have hlength := congrArg List.length hc
        simp only [List.length_append, List.length_singleton] at hlength
        exact List.eq_nil_of_length_eq_zero (by omega)
    subst hx
    rw [List.append_nil] at hother
    exact ⟨_, hother⟩

theorem leaf_origin (hfits : LayoutFits inp) (hr : inp.newShards.getShard s = some r) :
    ∃ ccSeqno bmCleared, LeafOrigin inp s r ccSeqno bmCleared ∧
      ((ShardsRotate inp ∨ bmCleared) → r.descr.nextCatchainSeqno = ccSeqno + 1) ∧
      (¬ (ShardsRotate inp ∨ bmCleared) → r.descr.nextCatchainSeqno = ccSeqno) := by
  obtain ⟨-, upd, sibling, hupd, hcheck⟩ := accepted_leaf h hr
  obtain ⟨prev, ccSeqno, horigin, hcc⟩ := checkOneShard_eq_ok hcheck
  have hseqno := checkCatchainSeqno_eq_ok hcc
  rw [hupd] at hseqno
  have hshard : r.shard = s := getShard_shard hr
  refine ⟨ccSeqno, _, ?_, hseqno⟩
  rcases shardOrigin_eq_ok horigin with ⟨hnone, rfl, hcreated⟩ | ⟨old, hfound, hkind⟩
  · obtain ⟨rfl, hfull, wc, hwc, hactive, hseq, hroot, hfile⟩ := checkCreatedShard_eq_ok hcreated
    rw [hshard] at hnone hfull
    have hid : r.blockId = ⟨s, 0, wc.zerostateRootHash, wc.zerostateFileHash⟩ := by
      obtain ⟨tree, descr, -, -, rfl⟩ := getShard_eq_some.mp hr
      rw [← hseq, ← hroot, ← hfile]
      rfl
    have hnew := lookup_eq_none_of_findShard_none hfits hfull hnone
    have horig := @LeafOrigin.created inp s r wc hfull hnew hwc hactive hid
    simpa using horig
  · obtain ⟨hold, -, -⟩ := findShard_eq_some hfound
    rcases hkind with ⟨hid, rfl, rfl⟩ | hchanged
    · have hs : old.shard = s := (congrArg BlockIdExt.shard hid).trans hshard
      rw [hs] at hold
      exact .unchanged old hold hid.symm
    · obtain ⟨hprev, starts, hkind, hdescends⟩ := checkChangedShard_eq_ok hold hchanged
      rw [hshard] at hkind hprev
      cases hkind with
      | same old' hold' =>
        rw [hold'] at hprev
        subst hprev
        exact .advanced old' hold' (hdescends _ (by simp))
      | split old' hparent hold' hsplit =>
        rw [(getShard_eq_none_of_isParentFor hparent).1 hold'] at hprev
        subst hprev
        obtain ⟨b, hb⟩ := isParentFor_iff.mp hparent
        have hr' := hr
        rw [hb] at hr'
        obtain ⟨other, hother⟩ := split_sibling h hr' hold'
        have horig := @LeafOrigin.split inp s r old'.shard old' other hparent hold' hsplit
          (by rw [hb, ShardPath.sibling_concat]; exact hother) (hdescends _ (by simp))
        simpa using horig
      | merge old1 old2 hchild hold1 hold2 hmerge1 hmerge2 hwindow1 hwindow2 =>
        rw [(getShard_eq_none_of_isParentFor hchild).2 hold1] at hprev
        subst hprev
        have horig := @LeafOrigin.merged inp s r old1.shard old1 old2 hchild hold1 hold2 hmerge1
          hmerge2 hwindow1 hwindow2 (hdescends _ (by simp)) (hdescends _ (by simp))
        simpa using horig

theorem accepted_covers (hwc : (inp.newShards.lookup wc).isSome) {account : List Bool}
    (hlen : account.length = 256) : Covers inp.newShards wc account := by
  obtain ⟨tree, htree⟩ := Option.isSome_iff_exists.mp hwc
  have hget : ∀ k descr, tree.get k = some descr →
      inp.newShards.getShard ⟨wc, k⟩ = some (.fromShardDescr ⟨wc, k⟩ descr) := by
    intro k descr hk
    exact getShard_eq_some.mpr ⟨tree, descr, htree, hk, rfl⟩
  have hshort : ∀ k descr, tree.get k = some descr → k.length ≤ account.length := by
    intro k descr hk
    have hdepth := (accepted_leaf h (hget k descr hk)).1
    simp only [maxSplitDepth] at hdepth
    omega
  obtain ⟨⟨k, descr⟩, hfind⟩ := BinTree.find_isSome hshort
  obtain ⟨hk, hpre⟩ := BinTree.find_eq_some.mp hfind
  exact ⟨⟨wc, k⟩, _, hget k descr hk, rfl, hpre⟩

theorem accepted_keeps (hfits : LayoutFits inp) (hr : inp.oldShards.getShard s = some r) :
    (inp.newShards.lookup s.workchainId).isSome := by
  simp only [checkShardLayout, bind_eq_ok, check_eq_ok] at h
  obtain ⟨_, -, _, -, _, -, ⟨⟩, hworkchains, -⟩ := h
  rw [checkWorkchains, Checked.seq_eq_ok, Checked.forM_eq_ok] at hworkchains
  exact (require_eq_ok _ _ _).mp (hworkchains.1 _ (hfits.old s r hr).listed)

end Accepted

def baseShardDescr : ShardDescr where
  seqNo := 7
  regMcSeqno := 3
  startLt := 1
  endLt := 2
  rootHash := 1
  fileHash := 2
  beforeSplit := false
  beforeMerge := false
  wantSplit := false
  wantMerge := false
  nextCatchainSeqno := 5
  nextValidatorShard := 2 ^ 63
  minRefMcSeqno := 3
  genUtime := 100
  splitMergeAt := .none
  feesCollected := .zero
  fundsCreated := .zero

def twoShards : BinTree ShardDescr :=
  .fork (.leaf { baseShardDescr with nextValidatorShard := 2 ^ 62 })
    (.leaf { baseShardDescr with nextValidatorShard := 2 ^ 63 + 2 ^ 62 })

theorem twoShards_leaf {bits : List Bool} {d : ShardDescr} (h : twoShards.get bits = some d) :
    (bits = [false] ∧ d = { baseShardDescr with nextValidatorShard := 2 ^ 62 }) ∨
      (bits = [true] ∧ d = { baseShardDescr with nextValidatorShard := 2 ^ 63 + 2 ^ 62 }) := by
  rcases bits with _ | ⟨b, bits⟩
  · cases h
  · cases b with
    | false =>
      obtain ⟨rfl, rfl⟩ := BinTree.get_leaf h
      exact .inl ⟨rfl, rfl⟩
    | true =>
      obtain ⟨rfl, rfl⟩ := BinTree.get_leaf h
      exact .inr ⟨rfl, rfl⟩

def zerostateDescr : ShardDescr :=
  { baseShardDescr with
    seqNo := 0
    regMcSeqno := 10
    rootHash := 8
    fileHash := 9
    nextCatchainSeqno := 0
    minRefMcSeqno := 2 ^ 32 - 1 }

/-- Workchain 0 keeps its two shards, workchain 1 starts from its zerostate. -/
def startedWorkchain : LayoutInput where
  now := 200
  prevNow := 190
  startLt := 1000
  seqNo := 10
  keyBlock := false
  shardCatchainLifetime := 250
  mcCatchainLifetime := 250
  oldShards := AList.singleton 0 twoShards
  newShards := (AList.singleton 0 twoShards).insert 1 (.leaf zerostateDescr)
  prevWorkchains := [0]
  nextWorkchains := (AList.singleton 0 ⟨true, 1, 4, 1, 2⟩).insert 1 ⟨true, 0, 4, 8, 9⟩
  shardFees := fun _ => none
  topBlockDescr := fun _ => .ok none
  prevalidate := fun _ => .ok 1
  checkMcValidatorInfo := fun _ _ => .ok ()

theorem startedWorkchain_fits : LayoutFits startedWorkchain where
  lifetime := by decide
  mcLifetime := by decide
  old := by
    rintro ⟨wc, bits⟩ r hr
    obtain ⟨tree, d, htree, hget, rfl⟩ := getShard_eq_some.mp hr
    have hmem := AList.mem_lookup_iff.mp htree
    obtain ⟨rfl, rfl⟩ : wc = 0 ∧ tree = twoShards := by
      simpa [startedWorkchain, AList.singleton] using hmem
    rcases twoShards_leaf hget with ⟨rfl, rfl⟩ | ⟨rfl, rfl⟩
    · exact ⟨by decide, by decide, by decide, by decide⟩
    · exact ⟨by decide, by decide, by decide, by decide⟩
  new := by
    rintro ⟨wc, bits⟩ r hr
    obtain ⟨tree, d, htree, hget, rfl⟩ := getShard_eq_some.mp hr
    have hmem := AList.mem_lookup_iff.mp htree
    obtain ⟨rfl, rfl⟩ | ⟨rfl, rfl⟩ : (wc = 1 ∧ tree = .leaf zerostateDescr) ∨
        (wc = 0 ∧ tree = twoShards) := by
      simpa [startedWorkchain, AList.singleton] using hmem
    · obtain ⟨rfl, rfl⟩ := BinTree.get_leaf hget
      exact ⟨by decide, by decide, by decide, by decide⟩
    · rcases twoShards_leaf hget with ⟨rfl, rfl⟩ | ⟨rfl, rfl⟩
      · exact ⟨by decide, by decide, by decide, by decide⟩
      · exact ⟨by decide, by decide, by decide, by decide⟩

/-- A key block whose configuration has no workchain any more. -/
def droppedWorkchain : LayoutInput :=
  { startedWorkchain with
    keyBlock := true
    oldShards := AList.singleton 0 (.leaf baseShardDescr)
    newShards := AList.singleton 0 (.leaf baseShardDescr)
    nextWorkchains := ∅ }

end TonNode.Validator
