import TonNode.ValidatorQueues

/-! What a block is validated against, and the results its checks share. The
checks of single records are tasks that may run in any order; they meet only in
the shared results. -/
namespace TonNode.Validator

open Block Checked

structure BlockInfo where
  startLt : ℕ
  endLt : ℕ
  genUtime : ℕ
  beforeSplit : Bool
  afterSplit : Bool
  afterMerge : Bool

structure ValueFlow where
  fromPrevBlk : CurrencyCollection
  toNextBlk : CurrencyCollection
  imported : CurrencyCollection
  exported : CurrencyCollection
  feesCollected : CurrencyCollection
  feesImported : CurrencyCollection
  recovered : CurrencyCollection
  created : CurrencyCollection
  minted : CurrencyCollection
  burned : CurrencyCollection

/-- `BurningConfig`: the share of the fees that is burned; the denominator is
checked to be positive when the parameter is read. -/
structure BurningConfig where
  feeBurnNum : ℕ
  feeBurnDenom : ℕ
  denom_pos : 0 < feeBurnDenom

structure ConfigParams where
  nextFrac : Option ℕ
  blockCreateFees : ℕ
  burning : Option BurningConfig
  toMint : Option (SortedMap ℕ ℕ)
  capDeferMessages : Bool

def ConfigParams.nextFeeChecked (config : ConfigParams) (fwdFee : ℕ) : Checked ℕ := do
  let nextFrac ← present config.nextFrac "no forward prices parameter"
  coinsTryFrom ((fwdFee * nextFrac % 2 ^ 128) >>> 16)

structure ShardState where
  minRefMcSeqno : ℕ
  overloadHistory : BitVec 64
  underloadHistory : BitVec 64
  totalBalance : CurrencyCollection
  totalValidatorFees : CurrencyCollection
  hasLibraries : Bool
  hasMasterRef : Bool

/-- What the transaction executor returns: the account afterwards, its cell, the
messages it sent, the coins it burned, and the cell of the transaction once the
references to the previous one and the state update are filled in. -/
structure Execution where
  account : Account
  accountRoot : Cell
  outMsgs : SortedMap ℕ Cell
  blackholeBurned : ℕ
  root : UInt256 → ℕ → HashUpdate → Cell

/-- `ValidateBase`: the block, the states before and after it, the configuration.
The executor is a parameter: what it does to an account is not modelled. -/
structure ValidateBase where
  bag : Bag
  shard : ShardIdent
  seqNo : ℕ
  info : BlockInfo
  valueFlow : ValueFlow
  inMsgDescr : InMsgDescr
  outMsgDescr : OutMsgDescr
  accountBlocks : ShardAccountBlocks
  recoverCreateMsg : Option InMsg
  mintMsg : Option InMsg
  config : ConfigParams
  prevAccounts : ShardAccounts
  nextAccounts : ShardAccounts
  prevState : ShardState
  nextState : ShardState
  prevValidatorFees : CurrencyCollection
  globalBalance : CurrencyCollection
  mcFeesCreate : CurrencyCollection
  minShardRefMcSeqno : ℕ
  mcSeqno : ℕ
  execute : TransactionDescr → Option Cell → Account → ℕ → Checked Execution
  checkShardLibraries : Checked Unit

namespace ValidateBase

def emptyBlock (bag : Bag) (shard : ShardIdent) (info : BlockInfo) : ValidateBase where
  bag := bag
  shard := shard
  seqNo := 1
  info := info
  valueFlow := ⟨.zero, .zero, .zero, .zero, .zero, .zero, .zero, .zero, .zero, .zero⟩
  inMsgDescr := .empty .zero
  outMsgDescr := .empty .zero
  accountBlocks := .empty .zero
  recoverCreateMsg := none
  mintMsg := none
  config := ⟨some 0, 0, none, none, false⟩
  prevAccounts := .empty .zero
  nextAccounts := .empty .zero
  prevState := ⟨1, 0, 0, .zero, .zero, false, true⟩
  nextState := ⟨1, 0, 0, .zero, .zero, false, true⟩
  prevValidatorFees := .zero
  globalBalance := .zero
  mcFeesCreate := .zero
  minShardRefMcSeqno := 1
  mcSeqno := 1
  execute := fun _ _ _ _ => reject "nothing to execute"
  checkShardLibraries := pure ()

variable (base : ValidateBase)

def isSpecialInMsg (m : InMsg) : Bool :=
  base.recoverCreateMsg = some m || base.mintMsg = some m

def lookupTransaction (addr : AccountId) (lt : ℕ) : Option Cell :=
  match base.accountBlocks.get addr with
  | some block => block.transactions.get lt
  | none => none

def isValidTransactionRef (transaction : Transaction) (hash : UInt256) : Checked Unit := do
  let transCell ← present (base.lookupTransaction transaction.accountAddr transaction.lt)
    "transaction not found"
  require (transCell = hash) "transaction has a different hash"

end ValidateBase

/-- `ValidateResult`: what the checks of the records gather. The three entries of
`lt_hash` are the greatest imported, the least enqueued and the claimed lt and
hash. -/
structure ValidateResult where
  maxProcessed : ℕ × UInt256
  minEnqueued : ℕ × UInt256
  claimedProc : ℕ × UInt256
  totalImportedMsgs : ℕ
  msgProcLt : List (AccountId × ℕ × ℕ)
  msgEmittedLt : List (AccountId × ℕ × ℕ)
  haveUnprocessedAccountDispatchQueue : Bool
  removedDispatchQueueMessages : AList fun _ : AccountId × ℕ => Cell
  newDispatchQueueMessages : AList fun _ : AccountId × ℕ => Cell
  accountExpectedDeferAllMessages : List AccountId
  blackholeBurned : ℕ

def maxHash : UInt256 := Fin.last (2 ^ 256 - 1)

namespace ValidateResult

def new : ValidateResult where
  maxProcessed := (0, maxHash)
  minEnqueued := (2 ^ 64 - 1, maxHash)
  claimedProc := (2 ^ 64 - 1, maxHash)
  totalImportedMsgs := 0
  msgProcLt := []
  msgEmittedLt := []
  haveUnprocessedAccountDispatchQueue := false
  removedDispatchQueueMessages := ∅
  newDispatchQueueMessages := ∅
  accountExpectedDeferAllMessages := []
  blackholeBurned := 0

variable (r : ValidateResult)

def updateMaxProcessedLtHash (lt : ℕ) (hash : UInt256) : ValidateResult :=
  if r.maxProcessed.1 < lt ∨ (lt = r.maxProcessed.1 ∧ r.maxProcessed.2 < hash) then
    { r with maxProcessed := (lt, hash) }
  else r

def updateMinEnqueuedLtHash (lt : ℕ) (hash : UInt256) : ValidateResult :=
  if lt < r.minEnqueued.1 ∨ (lt = r.minEnqueued.1 ∧ hash < r.minEnqueued.2) then
    { r with minEnqueued := (lt, hash) }
  else r

def countImported : ValidateResult :=
  { r with totalImportedMsgs := (r.totalImportedMsgs + 1) % 2 ^ 32 }

end ValidateResult

abbrev Task := ValidateResult → Checked ValidateResult

def runTasks (tasks : List Task) (r : ValidateResult) : Checked ValidateResult :=
  tasks.foldlM (fun r task => task r) r

def TasksPass (tasks : List Task) (r r' : ValidateResult) : Prop :=
  ∃ order, order.Perm tasks ∧ runTasks order r = .ok r'

theorem TasksPass.rounds {tasks : List Task} {r r' : ValidateResult} (h : TasksPass tasks r r') :
    ∀ task ∈ tasks, ∃ t t', task t = .ok t' := by
  obtain ⟨order, hperm, hrun⟩ := h
  intro task htask
  exact foldlM_rounds hrun task (hperm.mem_iff.mpr htask)

theorem TasksPass.of_run {tasks : List Task} {r r' : ValidateResult}
    (h : runTasks tasks r = .ok r') : TasksPass tasks r r' :=
  ⟨tasks, List.Perm.refl tasks, h⟩

end TonNode.Validator
