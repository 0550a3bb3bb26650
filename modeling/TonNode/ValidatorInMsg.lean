import TonNode.ValidatorBase

/-! `check_in_msg`: the check of one inbound message record, cut into the stages
of the code. -/
namespace TonNode.Validator

open Block Checked

variable (base : ValidateBase) (manager : MsgQueueManager)

/-- `check_imported_message`: the envelope was in the queue of a neighbour, and
no earlier block of this shard has processed it. -/
def checkImportedMessage (env : MsgEnvelope) (envHash : UInt256) (createdLt : ℕ)
    (r : ValidateResult) : Checked ValidateResult := do
  let (curPrefix, nextPrefix) ← base.bag.calcCurNextPrefix env
  require (base.shard.containsFullPrefix nextPrefix) "next hop address not in this shard"
  let key : OutMsgQueueKey := ⟨nextPrefix, env.msg⟩
  let found ← manager.findMessage base.bag key curPrefix
  let answer ← present found "previous address not belonging to any neighbor"
  let enq ← present answer "could not be found in the outbound message queue of neighbor"
  require (enq.envelopeHash = envHash) "has a different MsgEnvelope in that outbound message queue"
  let done ← manager.prev.alreadyProcessed enq
  require (done = false) "has been already imported by a previous block of this shardchain"
  pure (r.updateMaxProcessedLtHash createdLt key.hash)

def checkInMsgTransaction (msgHash : UInt256) (addr : AccountId) (transCell : Cell) :
    Checked Unit := do
  let transaction ← base.bag.readTransaction transCell
  base.isValidTransactionRef transaction transCell
  -- nothing is compared when the transaction has no inbound message
  whenPresent transaction.inMsg fun trMsg =>
    require (trMsg = msgHash) "refers to transaction that does not process this inbound message"
  require (addr = transaction.accountAddr)
    "claims that the message is processed by transaction of another account"

variable (key : UInt256) (m : InMsg) (env : MsgEnvelope)

def beginInMsg (createdLt : ℕ) (r : ValidateResult) : Checked (ValidateResult × Bool × ℕ) :=
  match m with
  | .immediate info =>
    let emittedLt := if env.emittedLt = 0 then createdLt else env.emittedLt
    let r := if base.isSpecialInMsg m then r else r.updateMaxProcessedLtHash emittedLt key
    pure (r, false, info.fwdFee)
  | .final info => pure (r.countImported, false, info.fwdFee)
  | .transit info => pure (r.countImported, false, info.transitFee)
  | .ihr _ _ _ _ => reject "is a msg_import_ihr, but IHR messages are not enabled"
  | .discardedTransit _ _ _ _ => reject "is a msg_discard_tr, but IHR messages are not enabled"
  | .discardedFinal _ _ _ => reject "is a msg_discard_fin, but IHR messages are not enabled"
  | .deferredFinal info => pure (r, true, info.fwdFee)
  | .deferredTransit _ _ => pure (r, true, 0)
  | .external _ _ => reject "has impossible tag"

structure InMsgRoute where
  header : InternalMessageHeader
  src : MsgAddressInt
  srcPrefix : AccountIdPrefixFull
  destPrefix : AccountIdPrefixFull
  curPrefix : AccountIdPrefixFull
  nextPrefix : AccountIdPrefixFull

def unpackRoute (msg : Message) (env : MsgEnvelope) : Checked InMsgRoute := do
  let header ← present msg.intHeader "does not refer to an inbound internal message"
  let src ← present header.src "source of inbound internal message is an invalid blockchain address"
  let srcPrefix ← AccountIdPrefixFull.checkedPrefix src
  let destPrefix ← AccountIdPrefixFull.checkedPrefix header.dst
  let curPrefix ← srcPrefix.interpolateAddrIntermediate destPrefix env.curAddr
  let nextPrefix ← srcPrefix.interpolateAddrIntermediate destPrefix env.nextAddr
  pure ⟨header, src, srcPrefix, destPrefix, curPrefix, nextPrefix⟩

variable (route : InMsgRoute)

def checkInMsgRoute (fromDispatchQueue : Bool) : Checked Unit := do
  require (countMatchingBits route.destPrefix route.curPrefix
      ≤ countMatchingBits route.destPrefix route.nextPrefix)
    "next hop address is further from its destination than its current address"
  require (base.shard.containsFullPrefix route.nextPrefix)
    "next hop address does not belong to the current block's shard"
  require (¬ (fromDispatchQueue = false ∧ route.nextPrefix = route.curPrefix
      ∧ route.curPrefix ≠ route.destPrefix))
    "next hop address coincides with its current address"
  require (¬ (fromDispatchQueue = true ∧ route.nextPrefix ≠ route.curPrefix))
    "next hop address of deferred message must coincide with its current prefix"
  require (¬ (m.transactionCell.isSome ∧ ¬ base.shard.containsFullPrefix route.destPrefix))
    "has destination address not in this shard, but it is processed nonetheless"
  require (¬ (m.transactionCell.isNone ∧ base.shard.containsFullPrefix route.destPrefix
      ∧ ¬ m.isDeferredTransit))
    "has destination address in this shard, but it is not processed by a transaction"
  require (env.fwdFeeRemaining ≤ route.header.fwdFee)
    "has remaining forwarding fee larger than the original forwarding fee"

def checkDispatched (src : MsgAddressInt) (env : MsgEnvelope) (createdLt : ℕ) (r : ValidateResult) :
    Checked ValidateResult := do
  let (_, addr) ← src.extractStdAddress
  let dispatched ← present (r.removedDispatchQueueMessages.lookup (addr, createdLt))
    "was not removed from the dispatch queue"
  let r := { r with
    removedDispatchQueueMessages := r.removedDispatchQueueMessages.erase (addr, createdLt) }
  require (env.emittedLt ≠ 0) "no dispatch_lt in deferred InMsg"
  require (base.info.startLt ≤ env.emittedLt ∧ env.emittedLt ≤ base.info.endLt)
    "dispatch_lt in deferred InMsg is not between start and end of the block"
  require (base.bag.serializeEnvelope { env with emittedLt := 0 } = dispatched)
    "msg envelope hash mismatch"
  match m with
  | .deferredFinal _ =>
    pure { r with msgEmittedLt := r.msgEmittedLt ++ [(addr, createdLt, env.emittedLt)] }
  | _ => pure r

def checkInMsgKind (fwdFee createdLt : ℕ) (outMsg : Option OutMsg) (r : ValidateResult) :
    Checked ValidateResult :=
  match m with
  | .immediate _ => do
    require (route.curPrefix = route.destPrefix)
      "its current address is somehow distinct from its final destination"
    require (base.shard.containsFullPrefix route.srcPrefix)
      "its source address does not belong to this shard"
    require (outMsg.any OutMsg.isImmediate ∨ base.isSpecialInMsg m)
      "the corresponding OutMsg does not exist, or is not a valid msg_export_imm$010"
    require (fwdFee = env.fwdFeeRemaining) "fwd_fee is not equal to fwd_fee_remaining"
    pure r
  | .final info => do
    let r ←
      if base.shard.containsFullPrefix route.curPrefix then do
        -- imported from our own queue
        require (outMsg.any OutMsg.isDequeueImmediate)
          "the corresponding OutMsg does not exist, or is not a valid msg_export_deq_imm$100"
        pure r
      else do
        require (route.curPrefix ≠ route.nextPrefix) "cur_prefix != next_prefix"
        checkImportedMessage base manager env info.inMsg createdLt r
    require (fwdFee = env.fwdFeeRemaining) "fwd_fee is not equal to fwd_fee_remaining"
    pure r
  | .deferredFinal info => do
    require (info.fwdFee = env.fwdFeeRemaining) "fwd_fee is not equal to fwd_fee_remaining"
    pure r
  | .transit info => do
    require (route.curPrefix ≠ route.destPrefix)
      "its current address is already equal to its final destination"
    let out ← present outMsg "the corresponding OutMsg does not exist"
    if base.shard.containsFullPrefix route.curPrefix then do
      -- imported from our own queue, possible only after a merge
      require (out.isTransitRequeued)
        "the corresponding OutMsg is not a valid msg_export_tr_req$111"
      pure r
    else do
      require (out.isTransit) "the corresponding OutMsg is not a valid msg_export_tr$011"
      checkImportedMessage base manager env info.inMsg createdLt r
  | .deferredTransit _ _ => do
    require outMsg.isSome "the corresponding OutMsg is not a valid msg_export_deferred_tr$10101"
    pure r
  | _ => reject "Forbiden InMsg type"

def checkTransitEnvelope (fromDispatchQueue : Bool) (fwdFee : ℕ) (outMsgEnv : Option Cell)
    (trEnvCell : Cell) : Checked Unit := do
  require (m.transactionCell = none) "trans_cell.is_none()"
  let routeInfo ← performHypercubeRouting route.nextPrefix route.destPrefix base.shard
  let newCurPrefix ← route.nextPrefix.interpolateAddrIntermediate route.destPrefix routeInfo.1
  let newNextPrefix ← route.nextPrefix.interpolateAddrIntermediate route.destPrefix routeInfo.2
  let trEnv ← base.bag.readEnvelope trEnvCell
  require (trEnv.msg = key) "refers to a rewritten message envelope containing another message"
  let trCurPrefix ← route.srcPrefix.interpolateAddrIntermediate route.destPrefix trEnv.curAddr
  let trNextPrefix ← route.srcPrefix.interpolateAddrIntermediate route.destPrefix trEnv.nextAddr
  require (trCurPrefix = newCurPrefix ∧ trNextPrefix = newNextPrefix)
    "adjusted to other addresses than those dictated by hypercube routing"
  require (trEnv.fwdFeeRemaining ≤ route.header.fwdFee
      ∧ (addCoins trEnv.fwdFeeRemaining fwdFee).1 = env.fwdFeeRemaining)
    "declares transit fees that do not match the decrease of fwd_fees_remaining"
  require (trEnv.metadata = env.metadata) "contains invalid MsgMetadata"
  require (trEnv.emittedLt = env.emittedLt) "contains invalid emitted_lt"
  require (some trEnvCell = outMsgEnv)
    "contains rewritten MsgEnvelope different from that stored in corresponding OutMsgDescr"
  let transitFee ←
    if fromDispatchQueue then pure 0 else base.config.nextFeeChecked env.fwdFeeRemaining
  require (transitFee = fwdFee) "we have computed another value of transit fees"

def checkInMsgReimport (reimport : Option InMsg) (outMsgEnv : Option Cell) : Checked Unit :=
  whenPresent reimport fun reimport => do
    require (m = reimport) "OutMsg refers to a different reimport InMsg"
    match m with
    | .transit _ => pure ()
    | .deferredTransit _ _ => pure ()
    | _ =>
      require (outMsgEnv = m.inMsgEnvelopeCell)
        "the corresponding OutMsg exports a MsgEnvelope with a different hash"

def checkOrigin (src : MsgAddressInt) (env : MsgEnvelope) (createdLt : ℕ) (fromDispatchQueue : Bool)
    (r : ValidateResult) : Checked ValidateResult :=
  if fromDispatchQueue then checkDispatched base m src env createdLt r else pure r

def readReimport : Checked (Option InMsg) :=
  match base.outMsgDescr.get key with
  | some out => base.bag.readReimportMessage out
  | none => pure none

def checkInternalInMsg (msg : Message) (r : ValidateResult) : Checked ValidateResult := do
  let createdLt := msg.createdLt.getD 0
  let (r, fromDispatchQueue, fwdFee) ← beginInMsg base key m env createdLt r
  require (¬ (fromDispatchQueue = false ∧ r.haveUnprocessedAccountDispatchQueue))
    "required DispatchQueue processing is not done, but some other internal messages are imported"
  let route ← unpackRoute msg env
  checkInMsgRoute base m env route fromDispatchQueue
  let r ← checkOrigin base m route.src env createdLt fromDispatchQueue r
  let outMsg := base.outMsgDescr.get key
  let outMsgEnv := outMsg.bind (·.msgEnvelopeCell)
  let reimport ← readReimport base key
  let r ← checkInMsgKind base manager m env route fwdFee createdLt outMsg r
  require (¬ (fromDispatchQueue = true ∧ route.curPrefix ≠ route.nextPrefix))
    "next hop address of deferred message must coincide with its current prefix"
  whenPresent m.outMsgEnvelopeCell
    (checkTransitEnvelope base key m env route fromDispatchQueue fwdFee outMsgEnv)
  checkInMsgReimport m reimport outMsgEnv
  pure r

def checkInMsg (r : ValidateResult) : Checked ValidateResult := do
  let msgHash ← base.bag.inMessageCell m
  require (msgHash = key) "InMsg refers to a message with different hash"
  let env ← base.bag.readInMsgEnvelope m
  let msg ← base.bag.readInMessage m
  let dst ← present msg.dstRef "InMsg refers to a message with no destination address"
  let (workchainId, addr) ← dst.extractStdAddress
  whenPresent m.transactionCell (checkInMsgTransaction base msgHash addr)
  match m with
  | .external _ _ => do
    let destPrefix ← AccountIdPrefixFull.stdPrefix workchainId addr
    require (base.shard.containsFullPrefix destPrefix)
      "inbound external message has destination address not in this shard"
    pure r
  | _ => do
    -- a record without envelope is of a kind the next match rejects
    let env ← present env "InMsg has impossible tag"
    checkInternalInMsg base manager key m env msg r

def checkInMsgDescr : List Task :=
  base.inMsgDescr.entries.map fun e => checkInMsg base manager e.1 e.2.1

section Facts

variable {base : ValidateBase} {manager : MsgQueueManager} {key : UInt256} {m : InMsg}
  {r r' : ValidateResult}

section

variable (h : checkInMsg base manager key m r = .ok r')
include h

theorem checkInMsg_message : base.bag.inMessageCell m = .ok key := by
  simp only [checkInMsg, bind_eq_ok, require_eq_ok] at h
  obtain ⟨msgHash, hmsg, -, rfl, -⟩ := h
  exact hmsg

/-- The transaction that a passed record names is listed in the block and belongs
to the destination; its inbound message, if it has one, is that of the record. -/
theorem checkInMsg_transaction {t : Cell} (ht : m.transactionCell = some t) :
    ∃ msg dst wc tr, base.bag.readInMessage m = .ok msg ∧ msg.dstRef = some dst ∧
      dst.extractStdAddress = .ok (wc, tr.accountAddr) ∧ base.bag.transaction t = some tr ∧
      base.lookupTransaction tr.accountAddr tr.lt = some t ∧ ∀ h, tr.inMsg = some h → h = key := by
  simp only [checkInMsg, bind_eq_ok, require_eq_ok, present_eq_ok, whenPresent_eq_ok] at h
  obtain ⟨msgHash, hmsg, -, rfl, env, henv, msg, hread, dst, hdst, ⟨wc, addr⟩, haddr, -,
    htrans, -⟩ := h
  have hcheck := htrans t ht
  simp only [checkInMsgTransaction, ValidateBase.isValidTransactionRef, Bag.readTransaction,
    bind_eq_ok, require_eq_ok, present_eq_ok, whenPresent_eq_ok] at hcheck
  obtain ⟨tr, htr, -, ⟨cell, hlookup, rfl⟩, -, hin, rfl⟩ := hcheck
  exact ⟨msg, dst, wc, tr, hread, hdst, haddr, htr, hlookup, hin⟩

/-- A passed record of another kind than external passed the internal checks. -/
theorem checkInMsg_internal (hm : ∀ msg t, m ≠ .external msg t) :
    ∃ env msg, base.bag.readInMsgEnvelope m = .ok (some env) ∧ base.bag.readInMessage m = .ok msg ∧
      checkInternalInMsg base manager key m env msg r = .ok r' := by
  simp only [checkInMsg, bind_eq_ok, require_eq_ok, present_eq_ok, whenPresent_eq_ok] at h
  obtain ⟨msgHash, hmsg, -, rfl, env, henv, msg, hread, dst, hdst, ⟨wc, addr⟩, haddr, -, -, hrest⟩ :=
    h
  have hkind : ∃ env', env = some env' ∧
      checkInternalInMsg base manager msgHash m env' msg r = .ok r' := by
    cases m with
    | external msg t => exact absurd rfl (hm msg t)
    | _ => simpa only [bind_eq_ok, present_eq_ok] using hrest
  obtain ⟨env', rfl, hinternal⟩ := hkind
  exact ⟨env', msg, henv, hread, hinternal⟩

end

/-- An internal record that names no transaction is bound for another shard, or
only moves a deferred message to the queue. -/
theorem checkInternalInMsg_destination {env : MsgEnvelope} {msg : Message}
    (h : checkInternalInMsg base manager key m env msg r = .ok r') :
    ∃ header destPrefix, msg = .intMsgInfo header ∧
      AccountIdPrefixFull.checkedPrefix header.dst = .ok destPrefix ∧
      (m.transactionCell.isSome → base.shard.containsFullPrefix destPrefix) ∧
      (m.transactionCell = none → base.shard.containsFullPrefix destPrefix →
        m.isDeferredTransit) := by
  simp only [checkInternalInMsg, bind_eq_ok, require_eq_ok] at h
  obtain ⟨⟨r1, fromDispatchQueue, fwdFee⟩, -, -, -, route, hroute, ⟨⟩, hcheck, -⟩ := h
  simp only [unpackRoute, bind_eq_ok, present_eq_ok, pure_eq_ok] at hroute
  obtain ⟨header, hheader, src, hsrc, srcPrefix, -, destPrefix, hdest, cur, -, next, -, rfl⟩ := hroute
  simp only [checkInMsgRoute, seq_eq_ok, require_eq_ok] at hcheck
  obtain ⟨-, -, -, -, hsome, hnone, -⟩ := hcheck
  have hmsg : msg = .intMsgInfo header := by
    cases msg with
    | intMsgInfo header' => simpa [Message.intHeader] using hheader
    | extInMsgInfo dst | extOutMsgInfo src lt => simp [Message.intHeader] at hheader
  refine ⟨header, destPrefix, hmsg, hdest, ?_, ?_⟩
  · intro htrans
    by_contra hout
    exact hsome ⟨htrans, hout⟩
  · intro htrans hin
    by_contra hkind
    exact hnone ⟨by simp [htrans], hin, hkind⟩

end Facts

end TonNode.Validator
