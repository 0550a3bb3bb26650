import TonNode.ValidatorInMsg

/-! `check_out_msg`: the check of one outbound message record, cut into the stages
of the code. -/
namespace TonNode.Validator

open Block Checked

def addsToQueue : OutMsg → Bool
  | .new _ _ => true
  | .transit _ _ => true
  | .transitRequeued _ _ => true
  | .deferredTransit _ _ => true
  | _ => false

def removesFromQueue : OutMsg → Bool
  | .dequeue _ _ => true
  | .dequeueShort _ _ _ _ => true
  | .dequeueImmediate _ _ => true
  | .transitRequeued _ _ => true
  | _ => false

structure OutMsgRoute where
  createdLt : ℕ
  srcWc : BitVec 32
  srcAddr : AccountId
  srcPrefix : AccountIdPrefixFull
  destPrefix : AccountIdPrefixFull
  curPrefix : AccountIdPrefixFull
  nextPrefix : AccountIdPrefixFull

def OutMsgRoute.unknown : OutMsgRoute :=
  ⟨0, invalidWorkchainId, zeroId, .invalid, .invalid, .invalid, .invalid⟩

variable (base : ValidateBase) (manager : MsgQueueManager) (key : UInt256)

def unpackExternalOutMsg (msgCell : Cell) : Checked OutMsgRoute := do
  require (msgCell = key) "OutMsg refers to a message with different hash"
  let msg ← base.bag.readMessage msgCell
  require msg.isOutboundExternal "does not refer to an external outbound message"
  let src ← present msg.srcRef "source of outbound message is an invalid blockchain address"
  let (srcWc, srcAddr) ← src.extractStdAddress
  let srcPrefix ← AccountIdPrefixFull.stdPrefix srcWc srcAddr
  require (base.shard.containsFullPrefix srcPrefix)
    "outbound external message has source address not in this shard"
  pure { OutMsgRoute.unknown with
    createdLt := msg.createdLt.getD 0, srcWc := srcWc, srcAddr := srcAddr, srcPrefix := srcPrefix }

variable (m : OutMsg)

def checkEmittedLt (env : MsgEnvelope) : Checked Unit :=
  match m with
  | .deferredTransit _ _ => do
    require (env.emittedLt ≠ 0) "msg_export_deferred_tr does not have emitted_lt in MsgEnvelope"
    require (base.info.startLt ≤ env.emittedLt ∧ env.emittedLt ≤ base.info.endLt)
      "emitted_lt for msg_export_deferred_tr is not between start and end lt of the block"
  | _ => pure ()

def unpackHops (env : MsgEnvelope) (srcPrefix destPrefix : AccountIdPrefixFull) :
    Checked (AccountIdPrefixFull × AccountIdPrefixFull) :=
  match m with
  | .newDefer _ _ => do
    require (env.curAddr.isZero ∧ env.nextAddr.isZero)
      "cur_addr and next_addr of the message in DispatchQueue must be zero"
    pure (destPrefix, destPrefix)
  | _ => do
    let curPrefix ← srcPrefix.interpolateAddrIntermediate destPrefix env.curAddr
    let nextPrefix ← srcPrefix.interpolateAddrIntermediate destPrefix env.nextAddr
    require (countMatchingBits destPrefix curPrefix ≤ countMatchingBits destPrefix nextPrefix)
      "next hop address is further from its destination than its current address"
    require (base.shard.containsFullPrefix curPrefix)
      "current address does not belong to the current block's shard"
    require (¬ (nextPrefix = curPrefix ∧ curPrefix ≠ destPrefix))
      "next hop address coincides with its current address"
    pure (curPrefix, nextPrefix)

def unpackOutMsg (env : MsgEnvelope) : Checked OutMsgRoute := do
  checkEmittedLt base m env
  require (env.msg = key) "OutMsg refers to a message with different hash"
  let msg ← base.bag.readMessage env.msg
  let header ← present msg.intHeader "does not refer to an internal message"
  let src ← present msg.srcRef "source of outbound message is an invalid blockchain address"
  let (srcWc, srcAddr) ← src.extractStdAddress
  let srcPrefix ← AccountIdPrefixFull.stdPrefix srcWc srcAddr
  let destPrefix ← AccountIdPrefixFull.checkedPrefix header.dst
  let (curPrefix, nextPrefix) ← unpackHops base m env srcPrefix destPrefix
  require (¬ (m.transactionCell.isSome ∧ ¬ base.shard.containsFullPrefix srcPrefix))
    "has source address not in this shard, but it has been created here nonetheless"
  require (env.fwdFeeRemaining ≤ header.fwdFee)
    "has remaining forwarding fee larger than the original forwarding fee"
  pure ⟨msg.createdLt.getD 0, srcWc, srcAddr, srcPrefix, destPrefix, curPrefix, nextPrefix⟩

variable (route : OutMsgRoute)

def checkOutMsgTransaction (transCell : Cell) : Checked Unit := do
  let transaction ← base.bag.readTransaction transCell
  base.isValidTransactionRef transaction transCell
  require (transaction.containsOutMsg route.createdLt key)
    "refers to transaction that does not create this outbound message"
  require (route.srcAddr = transaction.accountAddr)
    "claims that the message was created by transaction of another account"

variable (envHash : UInt256) (oldQEntry : Option MsgEnqueueStuff)

def checkNewDefer (qEntry : Option MsgEnqueueStuff) (r : ValidateResult) :
    Checked ValidateResult := do
  require (oldQEntry = none ∧ qEntry = none)
    "shouldn't exist in the old and the new message queues"
  let expected ← present (r.newDispatchQueueMessages.lookup (route.srcAddr, route.createdLt))
    "was not added to the dispatch queue"
  require (expected = envHash) "msg envelope hash mismatch"
  pure { r with
    newDispatchQueueMessages := r.newDispatchQueueMessages.erase (route.srcAddr, route.createdLt) }

def checkQueueEntry (qEntry : Option MsgEnqueueStuff) : Checked Unit := do
  require (¬ (oldQEntry.isSome ∧ qEntry.isSome))
    "it is present both in the old and in the new output queues"
  require (¬ ((addsToQueue m ∨ removesFromQueue m) ∧ oldQEntry.isNone ∧ qEntry.isNone))
    "it is absent both from the old and from the new output queues"
  require (¬ (¬ (addsToQueue m ∨ removesFromQueue m) ∧ (oldQEntry.isSome ∨ qEntry.isSome)))
    "it is present in either the old or the new output queue"
  if addsToQueue m then do
    let enq ← present qEntry "was expected to create OutMsgQueue entry but it did not"
    require (enq.envelopeHash = envHash) "has created OutMsgQueue entry with a different MsgEnvelope"
  else if removesFromQueue m then do
    let enq ← present oldQEntry "was expected to remove OutMsgQueue entry but it did not exist"
    require (enq.envelopeHash = envHash) "has dequeued OutMsgQueue entry with a different MsgEnvelope"
  else pure ()

def checkReimport (key : UInt256) : Checked (Option InMsg) :=
  match m.reimportCell with
  | none => pure none
  | some cell => do
    let inMsg ← present (base.inMsgDescr.get key) "there is no InMsg with such a key"
    let reimport ← base.bag.readInMsg cell
    require (inMsg = reimport) "the actual InMsg with this key is different from the one referred to"
    pure (some reimport)

def delivered (enq : MsgEnqueueStuff) : List OutMsgQueueInfoStuff → Checked Bool
  | [] => pure false
  | nb :: rest =>
    if nb.disabled then delivered enq rest
    else do
      let done ← nb.alreadyProcessed enq
      if done then pure true else delivered enq rest

def checkNewOutMsg (r : ValidateResult) : Checked ValidateResult := do
  let routeInfo ← performHypercubeRouting route.srcPrefix route.destPrefix base.shard
  let newCurPrefix ← route.srcPrefix.interpolateAddrIntermediate route.destPrefix routeInfo.1
  let newNextPrefix ← route.srcPrefix.interpolateAddrIntermediate route.destPrefix routeInfo.2
  require (route.curPrefix = newCurPrefix ∧ route.nextPrefix = newNextPrefix)
    "routed to other addresses than those dictated by hypercube routing"
  require (base.shard.containsFullPrefix route.srcPrefix) "contains_full_prefix(src_prefix)"
  if base.shard.containsFullPrefix route.destPrefix then do
    require (route.curPrefix = route.destPrefix ∧ route.nextPrefix = route.destPrefix)
      "next_prefix == dest_prefix"
    pure (r.updateMinEnqueuedLtHash route.createdLt key)
  else do
    require (base.shard.containsFullPrefix route.curPrefix
        ∧ ¬ base.shard.containsFullPrefix route.nextPrefix)
      "!contains_full_prefix(next_prefix)"
    pure r

/-- A message passed on: where its imported envelope was, and that it leaves the
shard. `requeued` says that it was in our own queue. -/
def checkTransitOutMsg (requeued : Bool) (info : InMsgTransit) : Checked AccountIdPrefixFull := do
  let inEnv ← base.bag.readEnvelope info.inMsg
  require (inEnv.msg = key) "the imported envelope contains another message"
  let inCurPrefix ← route.srcPrefix.interpolateAddrIntermediate route.destPrefix inEnv.curAddr
  let inNextPrefix ← route.srcPrefix.interpolateAddrIntermediate route.destPrefix inEnv.nextAddr
  require (base.shard.containsFullPrefix inCurPrefix = requeued)
    "the current imported message address is on the wrong side of the shard"
  require (base.shard.containsFullPrefix inNextPrefix ∧ base.shard.containsFullPrefix route.curPrefix
      ∧ ¬ base.shard.containsFullPrefix route.nextPrefix)
    "!contains_full_prefix(next_prefix)"
  pure inNextPrefix

def checkOutMsgKind (reimport : Option InMsg) (r : ValidateResult) : Checked ValidateResult :=
  match m with
  | .immediate _ _ _ =>
    match reimport with
    | some (.immediate info) => do
      require (info.inMsg = envHash) "re-imported a different MsgEnvelope"
      require (base.shard.containsFullPrefix route.destPrefix)
        "refers to a message with destination outside this shard"
      require (route.curPrefix = route.destPrefix ∧ route.nextPrefix = route.destPrefix)
        "refers to a message that has not been routed to its final destination"
      pure r
    | _ => reject "cannot unpack msg_import_imm InMsg record"
  | .new _ _ => checkNewOutMsg base key route r
  | .newDefer _ _ => pure r
  | .deferredTransit _ _ =>
    match reimport with
    | some (.deferredTransit inMsg _) => do
      let inEnv ← base.bag.readEnvelope inMsg
      require (inEnv.msg = key) "the imported envelope contains another message"
      let inCurPrefix ← route.srcPrefix.interpolateAddrIntermediate route.destPrefix inEnv.curAddr
      require (base.shard.containsFullPrefix inCurPrefix)
        "current imported message address NOT inside the current shard"
      pure r
    | _ => reject "cannot unpack msg_import_tr InMsg record"
  | .transit _ _ =>
    match reimport with
    | some (.transit info) => do
      let _ ← checkTransitOutMsg base key route false info
      pure r
    | _ => reject "cannot unpack msg_import_tr InMsg record"
  | .transitRequeued _ _ =>
    match reimport with
    | some (.transit info) => do
      let inNextPrefix ← checkTransitOutMsg base key route true info
      -- the rewritten envelope has been enqueued, the original one must be dequeued
      let qKey : OutMsgQueueKey := ⟨inNextPrefix, key⟩
      let qEntry ← manager.next.message base.bag qKey
      let oldEntry ← manager.prev.message base.bag qKey
      let enq ← present oldEntry "such a message is absent from the old OutMsgQueue"
      require (qEntry = none) "such a message is still present in the new OutMsgQueue"
      require (enq.envelopeHash = info.inMsg)
        "has re-imported a different MsgEnvelope from that present in the old OutMsgQueue"
      pure r
    | _ => reject "cannot unpack msg_import_tr InMsg record"
  | .dequeueImmediate _ _ =>
    match reimport with
    | some (.final info) => do
      require (info.inMsg = envHash) "somehow imported a different MsgEnvelope"
      require (base.shard.containsFullPrefix route.curPrefix)
        "dequeued a MsgEnvelope with current address outside current shard"
      require (base.shard.containsFullPrefix route.nextPrefix
          ∧ base.shard.containsFullPrefix route.destPrefix)
        "contains_full_prefix(dest_prefix)"
      pure r
    | _ => reject "cannot unpack msg_import_fin InMsg record"
  | .dequeue _ _ => do
    let enq ← present oldQEntry "cannot unpack old OutMsgQueue entry"
    let done ← delivered enq manager.neighbors
    require (done = true) "has not been yet processed by the corresponding neighbor"
    pure r
  | .dequeueShort _ _ _ _ => do
    let enq ← present oldQEntry "cannot unpack old OutMsgQueue entry"
    let done ← delivered enq manager.neighbors
    require (done = true) "has not been yet processed by the corresponding neighbor"
    pure r
  | .external _ _ => reject "unknown OutMsg tag"

def emitsMessage : OutMsg → Bool
  | .immediate _ _ _ => true
  | .dequeueImmediate _ _ => true
  | .new _ _ => true
  | .deferredTransit _ _ => true
  | _ => false

def recordEmittedLt (env : Option MsgEnvelope) (reimport : Option InMsg) (r : ValidateResult) :
    ValidateResult :=
  if emitsMessage m then
    if route.srcWc ≠ base.shard.workchainId then r
    else if m.isImmediate ∧ reimport.any base.isSpecialInMsg then r
    else
      let emittedLt := (env.map (·.emittedLt)).getD 0
      let emittedLt := if emittedLt = 0 then route.createdLt else emittedLt
      { r with msgEmittedLt := r.msgEmittedLt ++ [(route.srcAddr, route.createdLt, emittedLt)] }
  else r

def routeOutMsg (env : Option MsgEnvelope) : Checked OutMsgRoute :=
  match m with
  | .dequeueShort _ nextWorkchain nextAddrPfx _ =>
    pure { OutMsgRoute.unknown with nextPrefix := ⟨nextWorkchain, nextAddrPfx⟩ }
  | _ => do
    let env ← present env "OutMsg does not contain MsgEnvelope"
    unpackOutMsg base key m env

def checkQueueUpdate (qEntry : Option MsgEnqueueStuff) (r : ValidateResult) :
    Checked ValidateResult :=
  match m with
  | .newDefer _ _ => checkNewDefer route envHash oldQEntry qEntry r
  | _ => do
    checkQueueEntry m envHash oldQEntry qEntry
    pure r

def checkInternalOutMsg (r : ValidateResult) : Checked ValidateResult := do
  let env ← base.bag.readOutMsgEnvelope m
  let route ← routeOutMsg base key m env
  whenPresent m.transactionCell (checkOutMsgTransaction base key route)
  let envHash ← present m.envelopeMessageHash "OutMsg does not contain MsgEnvelope"
  let qEntry ← manager.next.message base.bag ⟨route.nextPrefix, key⟩
  let oldQEntry ← manager.prev.message base.bag ⟨route.nextPrefix, key⟩
  let r ← checkQueueUpdate m route envHash oldQEntry qEntry r
  let reimport ← checkReimport base m key
  let r ← checkOutMsgKind base manager key m route envHash oldQEntry reimport r
  pure (recordEmittedLt base m route env reimport r)

def checkOutMsg (r : ValidateResult) : Checked ValidateResult :=
  match m with
  | .external msgCell transCell => do
    let route ← unpackExternalOutMsg base key msgCell
    checkOutMsgTransaction base key route transCell
    pure r
  | m => checkInternalOutMsg base manager key m r

def checkOutMsgDescr : List Task :=
  base.outMsgDescr.entries.map fun e => checkOutMsg base manager e.1 e.2.1

section Facts

variable {base : ValidateBase} {manager : MsgQueueManager} {key : UInt256} {m : OutMsg}
  {r r' : ValidateResult}

structure OutMsgPassed (base : ValidateBase) (manager : MsgQueueManager) (key : UInt256) (m : OutMsg)
    (env : Option MsgEnvelope) (route : OutMsgRoute) (envHash : UInt256)
    (oldQEntry qEntry : Option MsgEnqueueStuff) (reimport : Option InMsg) : Prop where
  env_eq : base.bag.readOutMsgEnvelope m = .ok env
  route_eq : routeOutMsg base key m env = .ok route
  transaction : ∀ t, m.transactionCell = some t → checkOutMsgTransaction base key route t = .ok ()
  envHash_eq : m.envelopeMessageHash = some envHash
  qEntry_eq : manager.next.message base.bag ⟨route.nextPrefix, key⟩ = .ok qEntry
  oldQEntry_eq : manager.prev.message base.bag ⟨route.nextPrefix, key⟩ = .ok oldQEntry
  queue : ∃ r r', checkQueueUpdate m route envHash oldQEntry qEntry r = .ok r'
  reimport_eq : checkReimport base m key = .ok reimport
  kind : ∃ r r', checkOutMsgKind base manager key m route envHash oldQEntry reimport r = .ok r'

theorem checkInternalOutMsg_passed (h : checkInternalOutMsg base manager key m r = .ok r') :
    ∃ env route envHash oldQEntry qEntry reimport,
      OutMsgPassed base manager key m env route envHash oldQEntry qEntry reimport := by
  simp only [checkInternalOutMsg, bind_eq_ok, present_eq_ok, whenPresent_eq_ok] at h
  obtain ⟨env, henv, route, hroute, -, htrans, envHash, hhash, qEntry, hq, oldQEntry, hold, r1,
    hqueue, reimport, hreimport, r2, hkind, -⟩ := h
  exact ⟨env, route, envHash, oldQEntry, qEntry, reimport, henv, hroute, htrans, hhash, hq, hold,
    ⟨r, r1, hqueue⟩, hreimport, ⟨r1, r2, hkind⟩⟩

theorem checkOutMsg_passed (h : checkOutMsg base manager key m r = .ok r')
    (hm : ∀ msg t, m ≠ .external msg t) : ∃ env route envHash oldQEntry qEntry reimport,
      OutMsgPassed base manager key m env route envHash oldQEntry qEntry reimport := by
  cases m with
  | external msg t => exact absurd rfl (hm msg t)
  | _ => exact checkInternalOutMsg_passed h

variable {route : OutMsgRoute}

theorem checkOutMsgTransaction_ok {t : Cell}
    (h : checkOutMsgTransaction base key route t = .ok ()) : ∃ tr i, base.bag.transaction t = some tr ∧
      base.lookupTransaction tr.accountAddr tr.lt = some t ∧ tr.outMsgs.get i = some key := by
  simp only [checkOutMsgTransaction, ValidateBase.isValidTransactionRef, Bag.readTransaction,
    bind_eq_ok, require_eq_ok, present_eq_ok] at h
  obtain ⟨tr, htr, ⟨⟩, ⟨cell, hlookup, rfl⟩, ⟨⟩, hcontains, -⟩ := h
  refine ⟨tr, route.createdLt - tr.lt - 1, htr, hlookup, ?_⟩
  rw [Transaction.containsOutMsg] at hcontains
  split_ifs at hcontains with hrange
  exact of_decide_eq_true hcontains

theorem checkOutMsg_transaction (h : checkOutMsg base manager key m r = .ok r') {t : Cell}
    (ht : m.transactionCell = some t) : ∃ tr i, base.bag.transaction t = some tr ∧
      base.lookupTransaction tr.accountAddr tr.lt = some t ∧ tr.outMsgs.get i = some key := by
  by_cases hm : ∃ msg t, m = .external msg t
  · obtain ⟨msg, t', rfl⟩ := hm
    simp only [checkOutMsg, bind_eq_ok] at h
    obtain ⟨route, -, ⟨⟩, htrans, -⟩ := h
    cases ht
    exact checkOutMsgTransaction_ok htrans
  · obtain ⟨env, route, envHash, old, q, reimport, hpassed⟩ :=
      checkOutMsg_passed h fun msg t heq => hm ⟨msg, t, heq⟩
    exact checkOutMsgTransaction_ok (hpassed.transaction t ht)

theorem OutMsgPassed.envelope {env : Option MsgEnvelope} {envHash : UInt256}
    {oldQEntry qEntry : Option MsgEnqueueStuff} {reimport : Option InMsg}
    (h : OutMsgPassed base manager key m env route envHash oldQEntry qEntry reimport) {c : Cell}
    (hc : m.msgEnvelopeCell = some c) :
    ∃ e, base.bag.envelope c = some e ∧ unpackOutMsg base key m e = .ok route := by
  have henv := h.env_eq
  simp only [Bag.readOutMsgEnvelope, hc, bind_eq_ok, pure_eq_ok, Bag.readEnvelope,
    present_eq_ok] at henv
  obtain ⟨e, he, rfl⟩ := henv
  have hroute := h.route_eq
  refine ⟨e, he, ?_⟩
  cases m with
  | dequeueShort hash wc pfx lt => cases hc
  | _ =>
    simp only [routeOutMsg, bind_eq_ok, present_eq_ok, Option.some.injEq] at hroute
    obtain ⟨e', rfl, hunpack⟩ := hroute
    exact hunpack

theorem unpackOutMsg_message {env : MsgEnvelope} (h : unpackOutMsg base key m env = .ok route) :
    env.msg = key := by
  simp only [unpackOutMsg, bind_eq_ok, require_eq_ok] at h
  obtain ⟨-, -, -, hmsg, -⟩ := h
  exact hmsg

theorem checkOutMsg_message (h : checkOutMsg base manager key m r = .ok r') {msg : Cell}
    (hmsg : base.bag.outMessageCell m = .ok (some msg)) : msg = key := by
  by_cases hm : ∃ msg t, m = .external msg t
  · obtain ⟨msgCell, t, rfl⟩ := hm
    simp only [checkOutMsg, unpackExternalOutMsg, bind_eq_ok, require_eq_ok] at h
    obtain ⟨route, ⟨-, hkey, -⟩, -⟩ := h
    cases hmsg
    exact hkey
  · obtain ⟨env, route, envHash, old, q, reimport, hpassed⟩ :=
      checkOutMsg_passed h fun msg t heq => hm ⟨msg, t, heq⟩
    cases hcell : m.msgEnvelopeCell with
    | none =>
      cases m with
      | external msgCell t => exact absurd ⟨msgCell, t, rfl⟩ hm
      | dequeueShort hash wc pfx lt => cases hmsg
      | _ => cases hcell
    | some c =>
      obtain ⟨e, he, hunpack⟩ := hpassed.envelope hcell
      have hsome : base.bag.outMessageCell m = .ok (some e.msg) := by
        cases m with
        | external msgCell t => exact absurd ⟨msgCell, t, rfl⟩ hm
        | _ => simp [Bag.outMessageCell, hcell, Bag.readEnvelope, he, present]
      rw [hsome] at hmsg
      cases hmsg
      exact unpackOutMsg_message hunpack

end Facts

end TonNode.Validator
