import TonNode.BlockShardHashes

/-! The check of a new shard configuration against the old one. Each leaf of the
new trees is compared with the leaf of the old trees it comes from; changed
leaves are backed by descriptions of top shard blocks. An overflow is a crash, as in
a debug build. -/
namespace TonNode.Validator

open Block Guarded
open Checked (require reject present)

section Model

structure ProvenBlock where
  id : BlockIdExt
  prev1 : BlockIdExt
  prev2 : Option BlockIdExt
  startLt : ℕ
  endLt : ℕ
  beforeSplit : Bool
  wantSplit : Bool
  wantMerge : Bool
  genCatchainSeqno : ℕ
  minRefMcSeqno : ℕ
  genUtime : ℕ
  feesCollected : CurrencyCollection
  created : CurrencyCollection

def ProvenBlock.prevs (b : ProvenBlock) : List BlockIdExt := b.prev1 :: b.prev2.toList

/-- `TopBlockDescrStuff`: the proofs from the top block down, each for the
predecessor of the one before. -/
structure TopBlockDescrStuff where
  top : ProvenBlock
  rest : List ProvenBlock
  linked : (top :: rest).IsChain fun a b => b.id = a.prev1

namespace TopBlockDescrStuff

variable (s : TopBlockDescrStuff)

def chain : List ProvenBlock := s.top :: s.rest

def proofFor : BlockIdExt := s.top.id

def genUtime : ℕ := s.top.genUtime

def getPrevAt (index : ℕ) : List BlockIdExt :=
  match s.chain[index]? with
  | some b => [b.id]
  | none => if index = s.chain.length then (s.chain.getLast?.map ProvenBlock.prevs).getD [] else []

def sumFees (amount : ProvenBlock → CurrencyCollection) (blocks : List ProvenBlock) :
    Checked CurrencyCollection :=
  blocks.foldlM (fun acc b => do
    let sum ← acc.add (amount b)
    pure sum.1) .zero

def getTopDescr (index : ℕ) : Checked McShardRecord := do
  require (index ≤ s.chain.length) "Invalid arguments"
  let fees ← sumFees ProvenBlock.feesCollected (s.chain.take index)
  let created ← sumFees ProvenBlock.created (s.chain.take index)
  pure ⟨{
    seqNo := s.top.id.seqNo
    regMcSeqno := 2 ^ 32 - 1
    startLt := s.top.startLt
    endLt := s.top.endLt
    rootHash := s.top.id.rootHash
    fileHash := s.top.id.fileHash
    beforeSplit := s.top.beforeSplit
    beforeMerge := false
    wantSplit := s.top.wantSplit
    wantMerge := s.top.wantMerge
    nextCatchainSeqno := s.top.genCatchainSeqno
    nextValidatorShard := s.top.id.shard.prefixWithTag
    minRefMcSeqno := s.top.minRefMcSeqno
    genUtime := s.top.genUtime
    splitMergeAt := .none
    feesCollected := fees
    fundsCreated := created }, s.top.id⟩

end TopBlockDescrStuff

structure WorkchainDescr where
  active : Bool
  minSplit : ℕ
  maxSplit : ℕ
  zerostateRootHash : UInt256
  zerostateFileHash : UInt256

/-- What a masterchain block is checked against. `topBlockDescr` looks up and
unpacks the description for a block in the collated data, `prevalidate` checks its
signatures and its place in the chain; both may reject. -/
structure LayoutInput where
  now : ℕ
  prevNow : ℕ
  startLt : ℕ
  seqNo : ℕ
  keyBlock : Bool
  shardCatchainLifetime : ℕ
  mcCatchainLifetime : ℕ
  oldShards : ShardHashes
  newShards : ShardHashes
  prevWorkchains : List (BitVec 32)
  nextWorkchains : AList fun _ : BitVec 32 => WorkchainDescr
  shardFees : ShardPath → Option (CurrencyCollection × CurrencyCollection)
  topBlockDescr : BlockIdExt → Checked (Option TopBlockDescrStuff)
  prevalidate : TopBlockDescrStuff → Checked ℤ
  checkMcValidatorInfo : Bool → Bool → Checked Unit

def unregisteredChainMaxLen : ℕ := 8

variable (inp : LayoutInput)

def checkTsbd (id : BlockIdExt) : Checked (TopBlockDescrStuff × ℕ) := do
  let found ← inp.topBlockDescr id
  let tsbd ← present found "no ShardTopBlockDescr is present in collated data"
  require (tsbd.proofFor = id) "ShardTopBlockDescr is for another block"
  let chainLen ← inp.prevalidate tsbd
  require (0 < chainLen ∧ chainLen ≤ unregisteredChainMaxLen) "its chain length is not in range"
  require (tsbd.genUtime ≤ inp.now) "it claims to be generated in the future"
  pure (tsbd, chainLen.toNat)

/-- The announced split or merge interval has the time of the block. The text of
the rejection shows the end of the interval, so it is always computed. -/
def checkWindow (old : ShardDescr) (genUtime : ℕ) : Guarded Unit := do
  let windowEnd ← addU32 old.fsmUtime old.fsmInterval
  check (require (old.fsmUtime ≤ genUtime ∧ genUtime < windowEnd)
    "fsm state was enabled for another time")

variable (shards : ShardHashes)

def matchStartBlock (shardsUpdated : Option (List ShardPath)) (beforeSplit beforeMerge : Bool)
    (ob : BlockIdExt) : Checked McShardRecord := do
  let oldInfo ← present (shards.getShard ob.shard)
    "the start block's shard is not contained in the previous shard configuration"
  require (oldInfo.blockId.seqNo = ob.seqNo ∧ oldInfo.blockId.rootHash = ob.rootHash
      ∧ oldInfo.blockId.fileHash = ob.fileHash)
    "the start block is not contained in the previous shard configuration"
  require (shardsUpdated.all (ob.shard ∉ ·))
    "the shard of the start block has been already updated"
  require (oldInfo.descr.beforeSplit = beforeSplit) "valid only for another before_split"
  require (oldInfo.descr.beforeMerge = beforeMerge) "valid only for another before_merge"
  pure oldInfo

def checkStartBlock (shardsUpdated : Option (List ShardPath)) (newInfo : McShardRecord)
    (beforeSplit beforeMerge : Bool) (ob : BlockIdExt) : Guarded McShardRecord := do
  let oldInfo ← check (matchStartBlock shards shardsUpdated beforeSplit beforeMerge ob)
  if newInfo.descr.beforeSplit then do
    check (require (¬ (beforeMerge ∨ beforeSplit))
      "cannot register a before-split block after a split/merge event")
    check (require oldInfo.descr.isFsmSplit "fsm_split state was not set beforehand")
    checkWindow oldInfo.descr newInfo.descr.genUtime
    pure oldInfo
  else if beforeMerge then do
    check (require oldInfo.descr.isFsmMerge "fsm_merge state was not set beforehand")
    checkWindow oldInfo.descr newInfo.descr.genUtime
    pure oldInfo
  else pure oldInfo

def checkStartShards (newInfo : McShardRecord) : List BlockIdExt → Checked (Bool × Bool)
  | [ob] => do
    let beforeSplit := ob.shard.isParentFor newInfo.shard
    require (newInfo.shard = ob.shard ∨ beforeSplit)
      "the start block must either coincide with the final shard or be its parent"
    pure (beforeSplit, false)
  | [ob, ob2] => do
    require (ob.shard.sibling = ob2.shard) "the two start blocks must be siblings"
    require (newInfo.shard.isParentFor ob.shard)
      "the two start blocks do not merge into expected final shard"
    pure (ob.shard.isParentFor newInfo.shard, true)
  | _ => reject "must have either one or two start blocks"

def expectedCatchainSeqno (olds : List McShardRecord) (beforeMerge : Bool) : Guarded ℕ :=
  let oldCcSeqno := (olds.map (·.descr.nextCatchainSeqno)).foldl max 0
  if beforeMerge then addU32 oldCcSeqno 1 else pure oldCcSeqno

def mayUpdateShardBlockInfo (newInfo : McShardRecord) (oldBlkids : List BlockIdExt) (ltLimit : ℕ)
    (shardsUpdated : Option (List ShardPath)) : Guarded (Bool × Option McShardRecord) := do
  let wc := newInfo.shard.workchainId
  check (require (wc ≠ invalidWorkchainId ∧ wc ≠ masterchainId) "invalid workchain")
  check (require (shards.lookup wc).isSome "an unknown or disabled workchain")
  let (beforeSplit, beforeMerge) ← check (checkStartShards newInfo oldBlkids)
  let olds ← oldBlkids.mapM (checkStartBlock shards shardsUpdated newInfo beforeSplit beforeMerge)
  let expected ← expectedCatchainSeqno olds beforeMerge
  check (require (expected = newInfo.descr.nextCatchainSeqno)
    "previous shard configuration expects another catchain_seqno")
  check (require (newInfo.descr.endLt < ltLimit) "end_lt is larger than the current limit")
  pure (beforeSplit, if beforeMerge ∨ beforeSplit then none else olds.getLast?)

variable (info : McShardRecord)

def checkCreatedShard (wcInfo : Option WorkchainDescr) : Checked ℕ := do
  require info.shard.isFull "contains split shard unknown before"
  let wcInfo ← present wcInfo "newly-created shard for an unknown workchain"
  require wcInfo.active "newly-created shard for an inactive workchain"
  require (info.descr.seqNo = 0) "newly-created shard starts with non-zero seqno"
  require (info.descr.rootHash = wcInfo.zerostateRootHash
    ∧ info.descr.fileHash = wcInfo.zerostateFileHash) "incorrect zerostate hashes"
  require (info.descr.endLt < inp.startLt) "incorrect logical time"
  require (info.descr.genUtime ≤ inp.now) "incorrect creation time"
  require (¬ (info.descr.beforeSplit ∨ info.descr.beforeMerge ∨ info.descr.wantSplit
    ∨ info.descr.wantMerge)) "merge/split flags (incorrectly) set"
  require (info.descr.minRefMcSeqno = 2 ^ 32 - 1) "finite min_ref_mc_seqno"
  require (info.descr.regMcSeqno = inp.seqNo) "different registration mc seqno"
  require info.descr.feesCollected.isZero "non-zero fees_collected"
  pure 0

def checkShardFees (shard : ShardPath) (descr : ShardDescr) : Checked Unit :=
  match inp.shardFees shard with
  | some (fees, create) => do
    require (fees = descr.feesCollected) "ShardFees declares another fees_collected"
    require (create = descr.fundsCreated) "ShardFees declares another funds_created"
  | none => require descr.feesCollected.isZero "no corresponding entry in ShardFees"

def matchOldShard (old info : McShardRecord) : Guarded (Option McShardRecord) :=
  if old.shard.isParentFor info.shard then pure none
  else if info.shard.isParentFor old.shard then do
    let mask ← info.shard.rightAncestorMask
    let found ← inp.oldShards.findShard mask
    let old2 ← check (present found "No plus_one shard")
    check (require (old.shard.sibling = old2.shard)
      "impossibly merged from more than two shards")
    pure none
  else if info.shard = old.shard then pure (some old)
  else check (reject "could not be obtained from previously existing shard")

def checkChangedShard (old info : McShardRecord) : Guarded (Option McShardRecord × ℕ) := do
  check (require (info.descr.regMcSeqno = inp.seqNo) "different reg_mc_seqno")
  let (tsbd, chainLen) ← check (checkTsbd inp info.blockId)
  let descr ← check (tsbd.getTopDescr chainLen)
  check (require (descr.blockId = tsbd.proofFor) "descr.block_id() != sh_bd.proof_for()")
  let _ ← mayUpdateShardBlockInfo inp.oldShards descr (tsbd.getPrevAt chainLen) inp.startLt none
  check (require (descr.basicInfoEqual info true false)
    "differs from that present in ShardTopBlockDescr")
  check (checkShardFees inp info.shard descr.descr)
  let prev ← matchOldShard inp old info
  pure (prev, descr.descr.nextCatchainSeqno)

/-- The first part of `check_one_shard`: where the shard comes from. The result is
the old leaf of the same shard, if the shard is unchanged or advanced, and the
catchain seqno to expect. -/
def shardOrigin (wcInfo : Option WorkchainDescr) : Guarded (Option McShardRecord × ℕ) := do
  check (require (info.descr.nextValidatorShard = info.shard.prefixWithTag)
    "contains different next_validator_shard")
  let old ← inp.oldShards.findShard info.shard.leftAncestorMask
  match old with
  | none => do
    let ccSeqno ← check (checkCreatedShard inp info wcInfo)
    pure (none, ccSeqno)
  | some old =>
    if old.blockId = info.blockId then do
      check (require (old.basicInfoEqual info true true)
        "differs from that present in the old shard configuration for the same block")
      pure (some old, old.descr.nextCatchainSeqno)
    else checkChangedShard inp old info

def checkInherited (prev : Option McShardRecord) (info : McShardRecord) : Guarded Bool :=
  match prev with
  | some prev =>
    if prev.descr.isFsmNone then pure false
    else do
      let fsmEnd ← prev.descr.fsmUtimeEnd
      if prev.descr.splitMergeAt = info.descr.splitMergeAt then do
        check (require (¬ (fsmEnd < inp.now ∨ info.descr.beforeSplit))
          "carried on to the new shard configuration, but expired or before_split is set")
        pure true
      else do
        check (require (¬ (inp.now < fsmEnd ∧ ¬ info.descr.beforeSplit))
          "arbitrarily changed without a good reason")
        pure false
  | none => do
    check (require (¬ info.descr.beforeSplit)
      "a newly-created, split or merged shard cannot have before_split set")
    pure false

def minSplitMergeInterval : ℕ := 30

def maxSplitMergeDelay : ℕ := 1000

def checkAnnouncedInterval (d : ShardDescr) : Guarded Unit := do
  let fsmEnd ← d.fsmUtimeEnd
  if d.fsmUtime < inp.now ∨ fsmEnd ≤ d.fsmUtime then
    check (reject "incorrect future split/merge interval")
  else do
    let least ← addU32 d.fsmUtime minSplitMergeInterval
    if fsmEnd < least then check (reject "incorrect future split/merge interval")
    else do
      let latest ← addU32 inp.now maxSplitMergeDelay
      check (require (fsmEnd ≤ latest) "incorrect future split/merge interval")

variable (sibling : Option McShardRecord) (wcInfo : WorkchainDescr)

def splitCond : Bool :=
  let depth := info.shard.bits.length
  (info.descr.wantSplit || depth < wcInfo.minSplit) && depth < wcInfo.maxSplit
    && depth < maxSplitDepth

def mergeCond : Bool :=
  let depth := info.shard.bits.length
  decide (wcInfo.minSplit < depth) && (info.descr.wantMerge || wcInfo.maxSplit < depth)
    && (sibling.any (·.descr.wantMerge) || wcInfo.maxSplit < depth)

def checkAnnounced (inherited : Bool) : Guarded Unit :=
  if inherited ∨ info.descr.isFsmNone then pure ()
  else do
    checkAnnouncedInterval inp info.descr
    check (require (¬ (info.descr.isFsmSplit ∧ ¬ splitCond info wcInfo))
      "announcing future split, but split conditions are not met")
    check (require (¬ (info.descr.isFsmMerge ∧ ¬ mergeCond info sibling wcInfo))
      "announcing future merge, but merge conditions are not met")

def checkBeforeMerge : Checked Unit :=
  Checked.provided info.descr.beforeMerge do
    require (sibling.any (·.descr.beforeMerge)) "before_merge is not set for its sibling"
    require info.descr.isFsmMerge "it has not been announced in future split/merge"
    require (mergeCond info sibling wcInfo) "merge conditions are not met"

def checkCatchainSeqno (ccSeqno : ℕ) (updateShardCc bmCleared : Bool) : Checked Unit := do
  require (ccSeqno ≠ 2 ^ 32 - 1) "cc_seqno != !0"
  let ccUpdated := decide (info.descr.nextCatchainSeqno ≠ ccSeqno)
  require (info.descr.nextCatchainSeqno = ccSeqno + ccUpdated.toNat)
    "only updates by at most one are allowed"
  require (¬ (¬ ccUpdated ∧ updateShardCc)) "it must have been updated for all shards"
  require (¬ (¬ ccUpdated ∧ bmCleared)) "the before_merge bit has been cleared"
  require (¬ (ccUpdated ∧ ¬ (updateShardCc ∨ bmCleared))) "without a good reason"

def checkOneShard (updateShardCc : Bool) (info : McShardRecord) (sibling : Option McShardRecord)
    (wcInfo : Option WorkchainDescr) : Guarded Unit := do
  let (prev, ccSeqno) ← shardOrigin inp info wcInfo
  let inherited ← checkInherited inp prev info
  match wcInfo with
  | none => crash "in ton node it is a bug"
  | some wcInfo => do
    checkAnnounced inp info sibling wcInfo inherited
    check (checkBeforeMerge info sibling wcInfo)
    let bmCleared := !info.descr.beforeMerge && prev.any (·.descr.beforeMerge)
    check (checkCatchainSeqno info ccSeqno updateShardCc bmCleared)

structure LayoutRound where
  workchainId : BitVec 32
  key : List Bool
  descr : ShardDescr
  sibling : Option ShardDescr

def LayoutInput.rounds : List LayoutRound :=
  inp.newShards.entries.flatMap fun e => e.2.pairs.map fun p => ⟨e.1, p.1, p.2.1, p.2.2⟩

def checkRound (updateShardCc : Bool) (round : LayoutRound) : Guarded Unit := do
  let shard ← ShardPath.withPrefixSlice round.workchainId round.key
  check (require (round.workchainId ≠ masterchainId)
    "new shard configuration contains shards of invalid workchain")
  let wcInfo := inp.nextWorkchains.lookup round.workchainId
  let descr := McShardRecord.fromShardDescr shard round.descr
  match round.sibling with
  | some sibling => do
    let sibling := McShardRecord.fromShardDescr shard.sibling sibling
    checkOneShard inp updateShardCc descr (some sibling) wcInfo
    checkOneShard inp updateShardCc sibling (some descr) wcInfo
  | none => checkOneShard inp updateShardCc descr none wcInfo

def checkWorkchains : Checked Unit := do
  forM inp.prevWorkchains fun wc =>
    require (inp.newShards.lookup wc).isSome "shards are absent from new configuration"
  forM inp.nextWorkchains.entries fun e =>
    require (¬ (e.2.active ∧ (inp.newShards.lookup e.1).isNone))
      "workchain is active, but is absent from new shard configuration"

def periodEnded (lifetime : ℕ) : Guarded Bool := do
  let period ← divU32 inp.now lifetime
  let prevPeriod ← divU32 inp.prevNow lifetime
  pure (prevPeriod < period)

def updateMcCatchain : Guarded Bool :=
  if inp.keyBlock then pure true else periodEnded inp inp.mcCatchainLifetime

def checkShardLayout : Guarded Unit := do
  check (require (inp.prevNow ≤ inp.now) "creation time is not monotonic")
  let ended ← periodEnded inp inp.shardCatchainLifetime
  let updateShardCc := inp.keyBlock || ended
  forM inp.rounds (checkRound inp updateShardCc)
  check (checkWorkchains inp)
  let updateMcCc ← updateMcCatchain inp
  check (inp.checkMcValidatorInfo updateShardCc updateMcCc)

end Model

end TonNode.Validator
