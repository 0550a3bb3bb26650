import TonNode.BlockMessages

/-! Outbound message queues as the validator sees them: enqueued messages with
their routing, the processed-upto records of a shard, and the queues of the
shard and of its neighbours. -/
namespace TonNode.Validator

open Block Checked

structure OutMsgQueueKey where
  nextPrefix : AccountIdPrefixFull
  hash : UInt256
deriving DecidableEq

abbrev OutMsgQueue := AugDict OutMsgQueueKey EnqueuedMsg ℕ

structure MsgEnvelopeStuff where
  env : MsgEnvelope
  msg : Message
  curPrefix : AccountIdPrefixFull
  nextPrefix : AccountIdPrefixFull
deriving DecidableEq

def MsgEnvelopeStuff.fromEnvelope (bag : Bag) (env : MsgEnvelope) : Checked MsgEnvelopeStuff := do
  let msg ← bag.readMessage env.msg
  let src ← present msg.srcRef "source address of message is invalid"
  let srcPrefix ← AccountIdPrefixFull.checkedPrefix src
  let dst ← present msg.dstRef "destination address of message is invalid"
  let dstPrefix ← AccountIdPrefixFull.ofAddress dst
  let curPrefix ← srcPrefix.interpolateAddrIntermediate dstPrefix env.curAddr
  let nextPrefix ← srcPrefix.interpolateAddrIntermediate dstPrefix env.nextAddr
  pure ⟨env, msg, curPrefix, nextPrefix⟩

structure MsgEnqueueStuff where
  enq : EnqueuedMsg
  env : MsgEnvelopeStuff
  lt : ℕ
deriving DecidableEq

namespace MsgEnqueueStuff

def checkedNew (enq : EnqueuedMsg) (env : MsgEnvelopeStuff) (lt : ℕ) : Checked MsgEnqueueStuff := do
  require (¬ ((env.env.emittedLt ≠ 0 ∧ env.env.emittedLt ≠ lt) ∨ enq.enqueuedLt < lt))
    "Inconsistent lt values"
  pure ⟨enq, env, lt⟩

def constructFrom (bag : Bag) (enq : EnqueuedMsg) (lt : ℕ) : Checked MsgEnqueueStuff := do
  let envelope ← bag.readEnvelope enq.outMsg
  let env ← MsgEnvelopeStuff.fromEnvelope bag envelope
  checkedNew enq env lt

def fromEnqueue (bag : Bag) (enq : EnqueuedMsg) (lt : ℕ) : Checked MsgEnqueueStuff := do
  let envelope ← bag.readEnvelope enq.outMsg
  let env ← MsgEnvelopeStuff.fromEnvelope bag envelope
  if lt = 0 then do
    let createdLt ← present env.msg.createdLt "wrong message type"
    checkedNew enq env createdLt
  else checkedNew enq env lt

variable (m : MsgEnqueueStuff)

def envelopeHash : UInt256 := m.enq.outMsg

def messageHash : UInt256 := m.env.env.msg

def enqueuedLt : ℕ := m.enq.enqueuedLt

def curPrefix : AccountIdPrefixFull := m.env.curPrefix

def nextPrefix : AccountIdPrefixFull := m.env.nextPrefix

def outMsgKey : OutMsgQueueKey := ⟨m.nextPrefix, m.messageHash⟩

def sameWorkchain : Bool :=
  m.env.msg.srcRef.map (·.workchainId) = m.env.msg.dstRef.map (·.workchainId)

end MsgEnqueueStuff

/-- `ProcessedUptoStuff`: all messages for `shard` up to this lt and hash are
processed, as far as masterchain block `seqno` knew of them. `refShards` are the
shards that block refers to, with the end lt of each. -/
structure ProcessedUptoStuff where
  shard : BitVec 64
  seqno : ℕ
  lastMsgLt : ℕ
  lastMsgHash : UInt256
  mcEndLt : ℕ
  refShards : Option (List (ShardIdent × ℕ))
deriving DecidableEq

namespace ProcessedUptoStuff

variable (self : ProcessedUptoStuff)

def contains (other : ProcessedUptoStuff) : Bool :=
  ShardIdent.isAncestor self.shard other.shard && other.seqno ≤ self.seqno
    && (other.lastMsgLt < self.lastMsgLt
      || (self.lastMsgLt = other.lastMsgLt && other.lastMsgHash ≤ self.lastMsgHash))

def computeShardEndLt (pfx : AccountIdPrefixFull) : Checked ℕ :=
  if pfx.isMasterchain then pure self.mcEndLt
  else do
    let refShards ← present self.refShards "ProcessedUpTo record has no info about shards"
    let shard ← present (refShards.find? fun s => s.1.containsFullPrefix pfx)
      "ProcessedUpTo record has no info about shard prefix"
    pure shard.2

def alreadyProcessed (enq : MsgEnqueueStuff) : Checked Bool :=
  if self.lastMsgLt < enq.lt then pure false
  else if ¬ ShardIdent.contains self.shard enq.nextPrefix.pfx then pure false
  else if enq.lt = self.lastMsgLt ∧ self.lastMsgHash < enq.messageHash then pure false
  else if enq.sameWorkchain ∧ ShardIdent.contains self.shard enq.curPrefix.pfx then
    -- generated in the same shard: processed without a masterchain reference
    pure true
  else do
    let shardEndLt ← self.computeShardEndLt enq.curPrefix
    pure (enq.enqueuedLt < shardEndLt)

end ProcessedUptoStuff

/-- `OutMsgQueueInfoStuff`: the queue of a shard with its size as stored, the
processed-upto entries and the end lt of the state. Stored sizes have 48 bits
(the sum of two after a merge 49), and a queue has as many leaves as cells fit
in memory. -/
structure OutMsgQueueInfoStuff where
  shard : ShardIdent
  outQueue : OutMsgQueue
  outQueueSize : ℕ
  entries : List ProcessedUptoStuff
  minSeqno : ℕ
  endLt : ℕ
  disabled : Bool
  size_lt : outQueueSize < 2 ^ 49
  length_lt : outQueue.entries.length < 2 ^ 62

namespace OutMsgQueueInfoStuff

def message (bag : Bag) (q : OutMsgQueueInfoStuff) (key : OutMsgQueueKey) :
    Checked (Option MsgEnqueueStuff) :=
  match q.outQueue.getWithAug key with
  | none => pure none
  | some (enq, lt) => do
    let stuff ← MsgEnqueueStuff.fromEnqueue bag enq lt
    pure (some stuff)

def anyProcessed (enq : MsgEnqueueStuff) : List ProcessedUptoStuff → Checked Bool
  | [] => pure false
  | entry :: rest => do
    let done ← entry.alreadyProcessed enq
    if done then pure true else anyProcessed enq rest

variable (q : OutMsgQueueInfoStuff)

def alreadyProcessed (enq : MsgEnqueueStuff) : Checked Bool :=
  if q.shard.containsFullPrefix enq.nextPrefix then anyProcessed enq q.entries else pure false

def isReducedEntries : List ProcessedUptoStuff → Bool
  | [] => true
  | entry :: rest =>
    rest.all (fun other => !other.contains entry && !entry.contains other) && isReducedEntries rest

def isReduced : Bool := isReducedEntries q.entries

def containsValue (value : ProcessedUptoStuff) : Bool :=
  q.entries.any (·.contains value)

def contains (self other : OutMsgQueueInfoStuff) : Bool := other.entries.all self.containsValue

def newEntries (other : OutMsgQueueInfoStuff) :
    List ProcessedUptoStuff → Option ProcessedUptoStuff → Bool × Option ProcessedUptoStuff
  | [], found => (true, found)
  | entry :: rest, found =>
    if other.containsValue entry then newEntries other rest found
    else if found.isSome then (false, found)
    else newEntries other rest (some entry)

def isSimpleUpdateOf (self other : OutMsgQueueInfoStuff) : Bool × Option ProcessedUptoStuff :=
  if ¬ self.contains other then (false, none)
  else if other.contains self then (true, none)
  else newEntries other self.entries none

end OutMsgQueueInfoStuff

/-- The queues a block is validated against: the own one before and after the
block, and those of the neighbours. -/
structure MsgQueueManager where
  prev : OutMsgQueueInfoStuff
  next : OutMsgQueueInfoStuff
  neighbors : List OutMsgQueueInfoStuff

theorem zero_size_lt : 0 < 2 ^ 49 := by decide

theorem one_size_lt : 1 < 2 ^ 49 := by decide

theorem length_empty_lt : (AugDict.empty 0 : OutMsgQueue).entries.length < 2 ^ 62 := by
  simp [AugDict.empty, AugDict.entries]

namespace MsgQueueManager

def isolated (shard : ShardIdent) : MsgQueueManager :=
  let queue : OutMsgQueueInfoStuff :=
    ⟨shard, .empty 0, 0, [], 0, 0, false, zero_size_lt, length_empty_lt⟩
  ⟨queue, queue, []⟩

def findMessage (bag : Bag) (m : MsgQueueManager) (key : OutMsgQueueKey)
    (pfx : AccountIdPrefixFull) : Checked (Option (Option MsgEnqueueStuff)) :=
  match m.neighbors.find? fun nb => !nb.disabled && nb.shard.containsFullPrefix pfx with
  | none => pure none
  | some nb => do
    let enq ← nb.message bag key
    pure (some enq)

structure QueueItem where
  key : OutMsgQueueKey
  enq : EnqueuedMsg
  lt : ℕ
deriving DecidableEq

def QueueItem.le (a b : QueueItem) : Prop :=
  a.lt < b.lt ∨ (a.lt = b.lt ∧ a.key.hash ≤ b.key.hash)

instance : DecidableRel QueueItem.le := fun a b =>
  inferInstanceAs (Decidable (a.lt < b.lt ∨ (a.lt = b.lt ∧ a.key.hash ≤ b.key.hash)))

def boundFor (shard : ShardIdent) (q : OutMsgQueueInfoStuff) : List QueueItem :=
  (q.outQueue.entries.map fun e => ⟨e.1, e.2.1, e.2.2⟩).filter
    fun item => shard.containsFullPrefix item.key.nextPrefix

def mergeOutQueueIter (m : MsgQueueManager) (shard : ShardIdent) : List QueueItem :=
  ((m.neighbors.filter fun nb => !nb.disabled).flatMap (boundFor shard)).insertionSort QueueItem.le

def QueueItem.parse (bag : Bag) (item : QueueItem) : Checked MsgEnqueueStuff :=
  MsgEnqueueStuff.constructFrom bag item.enq item.lt

end MsgQueueManager

end TonNode.Validator
