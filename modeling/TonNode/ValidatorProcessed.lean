import TonNode.ValidatorOutMsg

/-! The checks of the processed-upto records and of the merged inbound queue. -/
namespace TonNode.Validator

open Block Checked

variable (base : ValidateBase)

def claimedProcessed (upd : Option ProcessedUptoStuff) : Checked (ℕ × UInt256) :=
  match upd with
  | none => pure (0, 0)
  | some upd => do
    require (upd.shard = base.shard.pfx)
      "newly-added ProcessedInfo entry refers to shard distinct from the current shard"
    require (upd.seqno = if base.shard.isMasterchain then base.seqNo else base.mcSeqno)
      "newly-added ProcessedInfo entry refers to another masterchain block"
    require (upd.lastMsgLt < base.info.endLt)
      "newly-added ProcessedInfo entry claims an lt larger than this block's end lt"
    require (upd.lastMsgLt ≠ 0)
      "newly-added ProcessedInfo entry claims that the last processed message has zero lt"
    pure (upd.lastMsgLt, upd.lastMsgHash)

variable (manager : MsgQueueManager)

def checkProcessedUpto (r : ValidateResult) : Checked ValidateResult := do
  require manager.next.isReduced "new ProcessedInfo is not reduced"
  let update := manager.next.isSimpleUpdateOf manager.prev
  require (update.1 = true)
    "new ProcessedInfo is not obtained from old ProcessedInfo by adding at most one new entry"
  let claimed ← claimedProcessed base update.2
  require (¬ (claimed.1 < r.maxProcessed.1
      ∨ (claimed.1 = r.maxProcessed.1 ∧ r.maxProcessed.1 ≠ 0 ∧ claimed.2 < r.maxProcessed.2)))
    "there is a InMsg processing record for later message"
  require (¬ (r.minEnqueued.1 < claimed.1
      ∨ (r.minEnqueued.1 = claimed.1 ∧ r.minEnqueued.2 ≤ claimed.2)))
    "there is a OutMsg enqueuing record for earlier message"
  pure { r with claimedProc := claimed }

inductive MsgProcessedStatus where
  | notProcessed
  | processedInThisBlock
  | processedInPreviousBlock
deriving DecidableEq

def dequeuedEnvelope : Option OutMsg → Checked Cell
  | some (.dequeueShort msgEnvHash _ _ _) => pure msgEnvHash
  | some (.dequeueImmediate env _) => pure env
  | some _ => reject "msg_export_deq OutMsg record for already processed EnqueuedMsg"
  | none => reject "there is no ext_message_deq OutMsg record for this message in this block"

def importedEnvelope : Option InMsg → Checked Cell
  | some (.final info) => pure info.inMsg
  | some (.transit info) => pure info.inMsg
  | some _ => reject "expected either a msg_import_fin or a msg_import_tr InMsg record"
  | none => reject "there is no InMsg entry for processing EnqueuedMsg"

def checkNeighborOutboundMessageProcessed (enq : MsgEnqueueStuff) (key : OutMsgQueueKey)
    (r : ValidateResult) : Checked MsgProcessedStatus := do
  require (base.shard.containsFullPrefix enq.nextPrefix) "contains_full_prefix(next_prefix)"
  let f0 ← manager.prev.alreadyProcessed enq
  let f1 ← manager.next.alreadyProcessed enq
  match f0, f1 with
  | true, false => reject "a previously processed message has been un-processed"
  | true, true => do
    require (base.inMsgDescr.get key.hash).isNone
      "have an InMsg entry for processing again already processed EnqueuedMsg"
    provided (base.shard.containsFullPrefix enq.curPrefix) do
      let deqHash ← dequeuedEnvelope (base.outMsgDescr.get key.hash)
      require (deqHash = enq.envelopeHash)
        "ext_message_deq OutMsg record contains a different MsgEnvelope"
    pure .processedInPreviousBlock
  | false, true => do
    require (¬ (r.claimedProc.1 = 0 ∨ r.claimedProc.1 < enq.lt
        ∨ (r.claimedProc.1 = enq.lt ∧ r.claimedProc.2 < key.hash)))
      "we had somehow processed in this block a message after the claimed one"
    let hash ← importedEnvelope (base.inMsgDescr.get key.hash)
    require (hash = enq.envelopeHash) "contains a reference to a different MsgEnvelope"
    pure .processedInThisBlock
  | false, false => pure .notProcessed

def checkInQueueLoop (base : ValidateBase) (manager : MsgQueueManager) (r : ValidateResult) :
    ℕ → List MsgQueueManager.QueueItem → Checked Bool
  | _, [] => pure true
  | remaining, item :: rest => do
    let enq ← item.parse base.bag
    let status ← checkNeighborOutboundMessageProcessed base manager enq item.key r
    match status with
    | .notProcessed => pure false
    | .processedInPreviousBlock => checkInQueueLoop base manager r remaining rest
    | .processedInThisBlock =>
      -- the loop ends with the last import record, whatever follows in the queue
      if remaining - 1 = 0 then pure true
      else checkInQueueLoop base manager r (remaining - 1) rest

def checkInQueue (r : ValidateResult) : Checked Bool :=
  if r.totalImportedMsgs = 0 then pure true
  else checkInQueueLoop base manager r r.totalImportedMsgs (manager.mergeOutQueueIter base.shard)

end TonNode.Validator
