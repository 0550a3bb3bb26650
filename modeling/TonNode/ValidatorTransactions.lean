import TonNode.ValidatorOutMsg

/-! The checks of account blocks and of single transactions. What the executor
computes is a parameter of the base; everything compared with it is modelled. -/
namespace TonNode.Validator

open Block Checked

structure AccountChain where
  prevTransLt : ℕ
  prevTransHash : UInt256
  prevTransLtLen : ℕ
  accStateHash : UInt256

variable (base : ValidateBase)

def precheckOneTransaction (accId : AccountId) (chain : AccountChain) (transLt : ℕ)
    (transRoot : Cell) : Checked AccountChain := do
  let trans ← base.bag.readTransaction transRoot
  require (trans.accountAddr = accId ∧ trans.lt = transLt) "claims to be another transaction"
  require (trans.now = base.info.genUtime) "claims another current time than the block header"
  require (trans.prevTransHash = chain.prevTransHash ∧ trans.prevTransLt = chain.prevTransLt)
    "claims another previous transaction"
  require (chain.prevTransLt + chain.prevTransLtLen ≤ transLt)
    "starts earlier than the previous transaction ends"
  let ltLen := trans.outmsgCnt + 1
  require (base.info.startLt < transLt ∧ transLt + ltLen ≤ base.info.endLt)
    "is not inside the logical time interval of the encompassing new block"
  require (trans.stateUpdate.oldHash = chain.accStateHash)
    "claims to start from account state with another hash"
  whenPresent trans.inMsg fun msg => do
    let _ ← base.bag.readMessage msg
    pure ()
  require (trans.outMsgs.entries.map Prod.fst = List.range trans.outMsgs.entries.length)
    "has invalid indices in the out_msg dictionary"
  pure ⟨transLt, transRoot, ltLen, trans.stateUpdate.newHash⟩

def emptyShardAccount : ShardAccount := ⟨base.bag.emptyAccount, 0, 0⟩

def precheckOneAccountBlock (accId : AccountId) (accBlk : AccountBlock) : Checked Unit := do
  let here ← base.shard.containsAccount accId
  require (here = true) "contains AccountBlock for account not belonging to the block's shard"
  require (accBlk.accountAddr = accId) "AccountBlock appears to belong to another account"
  let oldState := (base.prevAccounts.get accId).getD (emptyShardAccount base)
  let newState := base.nextAccounts.get accId
  require (accBlk.stateUpdate.oldHash = oldState.accountCell) "HASH_UPDATE has incorrect old hash"
  require (accBlk.stateUpdate.newHash = (newState.getD (emptyShardAccount base)).accountCell)
    "HASH_UPDATE has incorrect new hash"
  let minTrans ← present (accBlk.transactions.entries.head?.map Prod.fst) "cannot extract minimal key"
  let maxTrans ← present (accBlk.transactions.entries.getLast?.map Prod.fst)
    "cannot extract maximal key"
  require (base.info.startLt < minTrans ∧ maxTrans < base.info.endLt)
    "contains transactions outside of the block's lt range"
  let last ← accBlk.transactions.entries.foldlM
    (fun chain t => precheckOneTransaction base accId chain t.1 t.2)
    ⟨oldState.lastTransLt, oldState.lastTransHash, 1, accBlk.stateUpdate.oldHash⟩
  whenPresent newState fun newState =>
    require (last.prevTransLt = newState.lastTransLt ∧ last.prevTransHash = newState.lastTransHash)
      "last transaction mismatch"
  require (last.accStateHash = accBlk.stateUpdate.newHash) "final state hash mismatch"

def precheckAccountTransactions : List Task :=
  base.accountBlocks.entries.map fun e => fun r => do
    precheckOneAccountBlock base e.1 e.2.1
    pure r

structure Inbound where
  moneyImported : CurrencyCollection
  msgMetadata : Option MsgMetadata
  simpleMsgMetadata : Bool

variable (accountAddr : AccountId) (lt : ℕ)

def checkInternalInbound (msg : Message) (inMsg : InMsg) (r : ValidateResult) :
    Checked (Inbound × ValidateResult) := do
  let header ← present msg.intHeader "must have internal message header"
  require (header.createdLt < lt) "processed inbound message created later"
  let isSpecial := base.isSpecialInMsg inMsg
  let envOpt ← base.bag.readInMsgEnvelope inMsg
  let env ← present envOpt "does not have a valid MsgEnvelope"
  let metadata := if isSpecial then none else env.metadata.map MsgMetadata.addDepth
  let emittedLt := if env.emittedLt ≠ 0 then env.emittedLt else header.createdLt
  let r :=
    if header.createdLt ≠ base.info.startLt ∨ ¬ isSpecial then
      { r with msgProcLt := r.msgProcLt ++ [(accountAddr, lt, emittedLt)] }
    else r
  pure (⟨header.value, metadata, isSpecial⟩, r)

def checkInboundRecord (msg : Message) (inMsg : InMsg) (r : ValidateResult) :
    Checked (Inbound × ValidateResult) :=
  match inMsg with
  | .external _ _ => pure (⟨.zero, none, true⟩, r)
  | .ihr _ _ _ _ => checkInternalInbound base accountAddr lt msg inMsg r
  | .immediate _ => checkInternalInbound base accountAddr lt msg inMsg r
  | .final _ => checkInternalInbound base accountAddr lt msg inMsg r
  | .deferredFinal _ => checkInternalInbound base accountAddr lt msg inMsg r
  | _ => reject "has an invalid InMsg record"

def isLocalStd : Option MsgAddressInt → Bool
  | some (.addrStd _ wc address) =>
    wc = base.shard.workchainId.setWidth 8 && accountAddr = address
  | _ => false

variable (transRoot : Cell)

def checkInboundMessage (trans : Transaction) (r : ValidateResult) :
    Checked (Inbound × ValidateResult) :=
  match trans.inMsg with
  | none => pure (⟨.zero, none, true⟩, r)
  | some inMsgHash => do
    let msg ← base.bag.readMessage inMsgHash
    let inMsg ← present (base.inMsgDescr.get inMsgHash) "does not have a corresponding InMsg record"
    let result ← checkInboundRecord base accountAddr lt msg inMsg r
    require (isLocalStd base accountAddr msg.dstRef) "has a different destination address"
    require (inMsg.transactionCell = some transRoot) "refers to a different processing transaction"
    pure result

def checkDeferral (index : ℕ) (outMsg : OutMsg) (r : ValidateResult) : Checked ValidateResult :=
  let expected := r.accountExpectedDeferAllMessages.contains accountAddr
  match outMsg with
  | .external _ _ => pure r
  | .newDefer _ _ => do
    require (¬ (expected = false ∧ base.config.capDeferMessages = false))
      "is deferred, but deferring messages is disabled"
    require (¬ (expected = false ∧ index = 1)) "must not be deferred"
    pure { r with
      accountExpectedDeferAllMessages := accountAddr :: r.accountExpectedDeferAllMessages }
  | _ => do
    require (expected = false) "must be deferred because this account has earlier messages"
    pure r

def checkOutboundRecord (metadata : Option MsgMetadata) (msg : Message) (outMsg : OutMsg)
    (moneyExported : CurrencyCollection) : Checked CurrencyCollection :=
  match outMsg with
  | .external _ _ => pure moneyExported
  | .immediate env _ _ => exported env
  | .new env _ => exported env
  | .newDefer env _ => exported env
  | _ => reject "has an invalid OutMsg record"
where
  exported (envCell : Cell) : Checked CurrencyCollection := do
    let header ← present msg.intHeader "must have internal message header"
    let env ← base.bag.readEnvelope envCell
    let (sum, _) ← moneyExported.add header.value
    require (env.metadata = metadata) "has invalid metadata in an OutMsg record"
    pure { sum with coins := (addCoins sum.coins env.fwdFeeRemaining).1 }

def checkOutboundMessage (metadata : Option MsgMetadata)
    (state : CurrencyCollection × ValidateResult) (out : ℕ × Cell) :
    Checked (CurrencyCollection × ValidateResult) := do
  let outMsg ← present (base.outMsgDescr.get out.2) "does not have a corresponding record"
  let msg ← base.bag.readMessage out.2
  let moneyExported ← checkOutboundRecord base metadata msg outMsg state.1
  require (isLocalStd base accountAddr msg.srcRef) "has a different source address"
  let cell ← present outMsg.transactionCell "has no reference to its processing transaction"
  require (cell = transRoot) "refers to a different processing transaction"
  let r ← checkDeferral base accountAddr (out.1 + 1) outMsg state.2
  pure (moneyExported, r)

variable (account : Account) (trans : Transaction) (isFirst : Bool)

def checkSplitMerge (isLast : Bool) : Checked Unit :=
  let split := trans.description.isSplit
  if split ∨ trans.description.isMerge then do
    require (¬ base.shard.isMasterchain) "which is impossible in a masterchain block"
    require (¬ (split ∧ ¬ base.info.beforeSplit)) "but this block is not before a split"
    require (¬ (split ∧ ¬ isLast)) "but it is not the last transaction for this account"
    require (¬ (¬ split ∧ ¬ base.info.afterMerge)) "but this block is not immediately after a merge"
    require (¬ (¬ split ∧ ¬ isFirst)) "but it is not the first transaction for this account"
    reject "is a split/merge prepare/install transaction, which are globally disabled"
  else pure ()

def checkTickTock (tickTock : Option (Bool × Bool)) (lt : ℕ) (trans : Transaction)
    (isFirst isLast : Bool) : Checked Unit :=
  match trans.description with
  | .tickTock isTock => do
    require base.shard.isMasterchain "which is impossible outside a masterchain block"
    let (tick, tock) ← present tickTock "but this account is not listed as special"
    if isTock then do
      require isLast "but this is not the last transaction of this account"
      require tock "but this account has not enabled tock transactions"
    else do
      require isFirst "but this is not the first transaction of this account"
      require (lt = base.info.startLt + 1) "its logical start time differs by more than one"
      require tick "but this account has not enabled tick transactions"
  | _ => pure ()

def checkSpecialAccount (isLast : Bool) : Checked Unit :=
  whenPresent (account.bind (·.tickTock)) fun special => do
    require (¬ (isFirst ∧ base.shard.isMasterchain ∧ special.1
        ∧ trans.description ≠ .tickTock false ∧ account.isSome))
      "is the first transaction for this special tick account, but not a tick transaction"
    require (¬ (isLast ∧ base.shard.isMasterchain ∧ special.2
        ∧ trans.description ≠ .tickTock true ∧ trans.endActive))
      "is the last transaction for this special tock account, but not a tock transaction"

def checkExecutor : Checked Unit :=
  match trans.description with
  | .ordinary => require trans.inMsg.isSome "ordinary transaction has no inbound message"
  | .tickTock _ => require trans.inMsg.isNone "tick-tock transaction has an inbound message"
  | .storage => do
    require isFirst "is a storage transaction, but it is not the first transaction"
    reject "unable to verify storage transaction"
  | _ => reject "unable to verify split or merge transaction"

def balanceOf : CurrencyCollection := (account.map (·.balance)).getD .zero

/-- The currency flow condition of one transaction. Overflows are not looked at. -/
def checkCurrencyFlow (imported exported : CurrencyCollection) (trans : Transaction)
    (execution : Execution) : Checked Unit := do
  let (left, _) ← (balanceOf account).add imported
  let (right, _) ← (balanceOf execution.account).add exported
  let (right, _) ← right.add trans.totalFees
  require (left = { right with coins := (addCoins right.coins execution.blackholeBurned).1 })
    "violates the currency flow condition"

structure AccountRun where
  account : Account
  accountRoot : Cell
  result : ValidateResult

def checkOneTransaction (isLast : Bool) (run : AccountRun) : Checked AccountRun := do
  let trans ← base.bag.readTransaction transRoot
  let (inbound, r) ← checkInboundMessage base accountAddr lt transRoot trans run.result
  let own : MsgMetadata :=
    ⟨0, .addrStd none (base.shard.workchainId.setWidth 8) accountAddr, lt⟩
  let metadata := inbound.msgMetadata.or (if inbound.simpleMsgMetadata then some own else none)
  let (moneyExported, r) ← trans.outMsgs.entries.foldlM
    (checkOutboundMessage base accountAddr transRoot metadata) (.zero, r)
  checkSplitMerge base trans isFirst isLast
  checkTickTock base (run.account.bind (·.tickTock)) lt trans isFirst isLast
  checkSpecialAccount base run.account trans isFirst isLast
  require (trans.stateUpdate.oldHash = run.accountRoot)
    "claims that the original account state has another hash"
  checkExecutor trans isFirst
  let execution ← base.execute trans.description trans.inMsg run.account lt
  require (trans.stateUpdate.newHash = execution.accountRoot)
    "claims that the new account state has another hash"
  require (trans.outMsgs = execution.outMsgs) "has produced another set of outbound messages"
  require (execution.root trans.prevTransHash trans.prevTransLt trans.stateUpdate = transRoot)
    "re created transaction doesn't correspond"
  checkCurrencyFlow run.account inbound.moneyImported moneyExported trans execution
  pure ⟨execution.account, execution.accountRoot,
    { r with blackholeBurned := (addCoins r.blackholeBurned execution.blackholeBurned).1 }⟩

def unpackAccount (addr : AccountId) : Checked (Cell × Account) :=
  match base.prevAccounts.get addr with
  | some shardAcc => do
    let account ← base.bag.readAccount shardAcc.accountCell
    let here ← account.belongsToShard base.shard
    require (here = true) "old state of account does not really belong to current shard"
    pure (shardAcc.accountCell, account)
  | none => pure (base.bag.emptyAccount, none)

def checkAccountTransactions (accBlock : AccountBlock) (r : ValidateResult) :
    Checked ValidateResult := do
  let (accountRoot, account) ← unpackAccount base accountAddr
  let minTransLt ← present (accBlock.transactions.entries.head?.map Prod.fst) "no minimal transaction"
  let maxTransLt ← present (accBlock.transactions.entries.getLast?.map Prod.fst)
    "no maximal transaction"
  let run ← accBlock.transactions.entries.foldlM
    (fun run t => checkOneTransaction base accountAddr t.1 t.2 (t.1 = minTransLt)
      (t.1 = maxTransLt) run) ⟨account, accountRoot, r⟩
  pure run.result

def checkTransactions : List Task :=
  base.accountBlocks.entries.map fun e => checkAccountTransactions base e.1 e.2.1

section Facts

variable {base : ValidateBase}

theorem checkInboundMessage_record {accountAddr : AccountId} {lt : ℕ} {transRoot : Cell}
    {trans : Transaction} {r : ValidateResult} {result : Inbound × ValidateResult}
    (h : checkInboundMessage base accountAddr lt transRoot trans r = .ok result) {msg : Cell}
    (hmsg : trans.inMsg = some msg) :
    ∃ m, base.inMsgDescr.get msg = some m ∧ m.transactionCell = some transRoot := by
  simp only [checkInboundMessage, hmsg, bind_eq_ok, require_eq_ok, present_eq_ok] at h
  obtain ⟨-, -, m, hm, -, -, -, -, -, htrans, -⟩ := h
  exact ⟨m, hm, htrans⟩

theorem checkOutboundMessage_record {accountAddr : AccountId} {transRoot : Cell}
    {metadata : Option MsgMetadata} {state state' : CurrencyCollection × ValidateResult}
    {out : ℕ × Cell}
    (h : checkOutboundMessage base accountAddr transRoot metadata state out = .ok state') :
    ∃ m, base.outMsgDescr.get out.2 = some m ∧ m.transactionCell = some transRoot := by
  simp only [checkOutboundMessage, bind_eq_ok, require_eq_ok, present_eq_ok] at h
  obtain ⟨m, hm, -, -, -, -, -, -, cell, hcell, -, rfl, -⟩ := h
  exact ⟨m, hm, hcell⟩

structure TransactionRecorded (base : ValidateBase) (t : Cell) (tr : Transaction) : Prop where
  read : base.bag.transaction t = some tr
  inbound : ∀ msg, tr.inMsg = some msg →
    ∃ m, base.inMsgDescr.get msg = some m ∧ m.transactionCell = some t
  outbound : ∀ i msg, tr.outMsgs.get i = some msg →
    ∃ m, base.outMsgDescr.get msg = some m ∧ m.transactionCell = some t

theorem checkOneTransaction_recorded {accountAddr : AccountId} {lt : ℕ} {t : Cell}
    {isFirst isLast : Bool} {run run' : AccountRun}
    (h : checkOneTransaction base accountAddr lt t isFirst isLast run = .ok run') :
    ∃ tr, TransactionRecorded base t tr := by
  simp only [checkOneTransaction, bind_eq_ok, Bag.readTransaction, present_eq_ok] at h
  obtain ⟨tr, hread, ⟨inbound, r⟩, hin, ⟨exported, r'⟩, hout, -⟩ := h
  refine ⟨tr, hread, fun msg hmsg => checkInboundMessage_record hin hmsg, ?_⟩
  intro i msg hmsg
  obtain ⟨state, state', hround⟩ :=
    foldlM_rounds hout (i, msg) ((tr.outMsgs.get_eq_some_iff i msg).mp hmsg)
  exact checkOutboundMessage_record hround

theorem recorded_of_lookup
    (hpass : ∀ task ∈ checkTransactions base, ∃ r r', task r = .ok r') {addr : AccountId} {lt : ℕ}
    {t : Cell} (ht : base.lookupTransaction addr lt = some t) :
    ∃ tr, TransactionRecorded base t tr := by
  rw [ValidateBase.lookupTransaction] at ht
  cases hblk : base.accountBlocks.get addr with
  | none => simp [hblk] at ht
  | some blk =>
    simp only [hblk] at ht
    obtain ⟨fees, haug⟩ := (base.accountBlocks.get_eq_some addr blk).mp hblk
    have hentry := (base.accountBlocks.mem_entries_iff addr (blk, fees)).mpr haug
    obtain ⟨r, r', hcheck⟩ := hpass _ (List.mem_map.mpr ⟨_, hentry, rfl⟩)
    simp only [checkAccountTransactions, bind_eq_ok] at hcheck
    obtain ⟨⟨root, account⟩, -, minTransLt, -, maxTransLt, -, last, hfold, -⟩ := hcheck
    obtain ⟨run, run', hround⟩ :=
      foldlM_rounds hfold (lt, t) ((blk.transactions.get_eq_some_iff lt t).mp ht)
    exact checkOneTransaction_recorded hround

end Facts

end TonNode.Validator
