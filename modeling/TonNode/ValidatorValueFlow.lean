import TonNode.ValidatorMatching

/-! The value flow of a block. It is checked on the extras stored at the roots of
the dictionaries; the extras of changed accounts are computed again, those of
forks, of roots and of message records are not. -/
namespace TonNode.Validator

open Block Checked
open CurrencyCollection (amount_add)

section Model

/-- `ValueFlow::validate`: what comes in goes out, and no sum overflows. -/
def ValueFlow.validate (flow : ValueFlow) : Checked Bool := do
  let (lhs, ok1) ← flow.fromPrevBlk.add flow.imported
  let (lhs, ok2) ← lhs.add flow.feesImported
  let (lhs, ok3) ← lhs.add flow.created
  let (lhs, ok4) ← lhs.add flow.minted
  let (lhs, ok5) ← lhs.add flow.recovered
  let (rhs, ok6) ← flow.toNextBlk.add flow.exported
  let (rhs, ok7) ← rhs.add flow.feesCollected
  let (rhs, ok8) ← rhs.add flow.burned
  pure (ok1 && ok2 && ok3 && ok4 && ok5 && ok6 && ok7 && ok8 && decide (lhs = rhs))

def readDict {K V Y : Type} [DecidableEq Y] (default : Y) (d : AugDict K V Y) : Checked Unit :=
  require (d.data.isSome ∨ d.rootExtra = default) "root extra for empty HashmapAugE is not default"

variable (base : ValidateBase)

def loadBlockData : Checked Unit := do
  readDict .zero base.inMsgDescr
  readDict .zero base.outMsgDescr
  readDict .zero base.accountBlocks
  readDict .zero base.nextAccounts

def BurningConfig.calculateBurnedFees (config : BurningConfig) (value : ℕ) : Checked ℕ :=
  if config.feeBurnNum = 0 ∨ value = 0 then pure 0
  else coinsTryFrom (value * config.feeBurnNum % 2 ^ 128 / config.feeBurnDenom)

/-- `expected_fee_burned`: a share of the fees of the block, and of the imported
fees that are not creation fees. -/
def expectedFeeBurned (transactionFees feesImport : CurrencyCollection) :
    Checked CurrencyCollection :=
  if ¬ base.shard.isMasterchain then pure .zero
  else
    match base.config.burning with
    | none => pure .zero
    | some config => do
      let burned ← config.calculateBurnedFees (transactionFees.coins + feesImport.coins)
      let (importedBase, enough) ← base.valueFlow.feesImported.sub base.mcFeesCreate
      require (enough = true) "fees_imported is smaller than imported created fees"
      let burnedImported ← config.calculateBurnedFees importedBase.coins
      pure (.fromCoins (addCoins burned burnedImported).1)

def mintStep (globalBalance : CurrencyCollection) (toMint : CurrencyCollection) (e : ℕ × ℕ) :
    Checked CurrencyCollection :=
  let existing := (globalBalance.other.get e.1).getD 0
  if existing < e.2 ∧ e.1 ≠ 0 then do
    let other ← setOther toMint.other e.1 (e.2 - existing)
    pure { toMint with other := other }
  else pure toMint

def computeMintedAmount : Checked CurrencyCollection :=
  if ¬ base.shard.isMasterchain then pure .zero
  else
    match base.config.toMint with
    | none => pure .zero
    | some toMint => toMint.entries.foldlM (mintStep base.globalBalance) .zero

def checkSpecialFlows : Checked Unit := do
  let flow := base.valueFlow
  require (base.shard.isMasterchain ∨ flow.minted.isZero)
    "non-zero minted value in a non-masterchain block"
  require (base.shard.isMasterchain ∨ flow.recovered.isZero)
    "non-zero recovered value in a non-masterchain block"
  require (¬ (¬ flow.recovered.isZero ∧ base.recoverCreateMsg.isNone))
    "has a non-zero recovered fees value, but there is no recovery InMsg"
  require (¬ (flow.recovered.isZero ∧ base.recoverCreateMsg.isSome))
    "has a zero recovered fees value, but there is a recovery InMsg"
  require (¬ (¬ flow.minted.isZero ∧ base.mintMsg.isNone))
    "has a non-zero minted value, but there is no mint InMsg"
  require (¬ (flow.minted.isZero ∧ base.mintMsg.isSome))
    "has a zero minted value, but there is a mint InMsg"
  provided (¬ flow.minted.isZero) do
    let toMint ← computeMintedAmount base
    require (flow.minted = toMint) "invalid extra currencies amount to be minted"
  require (flow.created = .fromCoins (base.config.blockCreateFees >>> base.shard.prefixLen))
    "declares another block creation fee than the current configuration expects"
  require (flow.feesImported.isZero ∨ base.shard.isMasterchain)
    "non-zero fees_imported in a non-masterchain block"

def checkDeclaredSums : Checked Unit := do
  let flow := base.valueFlow
  require (base.prevAccounts.rootExtra.balance = flow.fromPrevBlk)
    "declares another from_prev_blk than the sum over all accounts in the previous state"
  require (base.nextAccounts.rootExtra.balance = flow.toNextBlk)
    "declares another to_next_blk than the sum over all accounts in the new state"
  require (base.inMsgDescr.rootExtra.valueImported = flow.imported)
    "declares another imported value than the sum over all inbound messages"
  require (base.outMsgDescr.rootExtra = flow.exported)
    "declares another exported value than the sum over all outbound messages"

/-- The fees collected by the block; overflows are not looked at. -/
def expectedFees (transactionFees feesImport burned : CurrencyCollection) :
    Checked CurrencyCollection := do
  let (fees, _) ← transactionFees.add base.valueFlow.feesImported
  let (fees, _) ← fees.add base.valueFlow.created
  let (fees, _) ← fees.add feesImport
  let (fees, _) ← fees.sub burned
  pure fees

def precheckValueFlow : Checked Unit := do
  let valid ← base.valueFlow.validate
  require (valid = true) "in-balance is not equal to out-balance"
  checkSpecialFlows base
  checkDeclaredSums base
  let feesImport := CurrencyCollection.fromCoins base.inMsgDescr.rootExtra.feesCollected
  let burned ← expectedFeeBurned base base.accountBlocks.rootExtra feesImport
  require (base.shard.isMasterchain ∨ base.valueFlow.burned.isZero)
    "non-zero burned value in a non-masterchain block"
  let fees ← expectedFees base base.accountBlocks.rootExtra feesImport burned
  require (base.valueFlow.feesCollected = fees) "declares another fees_collected"

def checkBurnedValueFlow (r : ValidateResult) : Checked Unit :=
  if ¬ base.shard.isMasterchain then pure ()
  else do
    let feesImport := CurrencyCollection.fromCoins base.inMsgDescr.rootExtra.feesCollected
    let burned ← expectedFeeBurned base base.accountBlocks.rootExtra feesImport
    require (base.valueFlow.burned =
        { burned with coins := (addCoins burned.coins r.blackholeBurned).1 })
      "declares other burned fees"

def precheckOneAccountUpdate :
    AccountId × Option (ShardAccount × DepthBalanceInfo) × Option (ShardAccount × DepthBalanceInfo) →
      Checked Unit
  | (accId, old, new) => do
    let block ← present (base.accountBlocks.get accId) "the block contains no AccountBlock"
    require (accId = block.accountAddr) "AccountBlock appears to belong to another account"
    whenPresent old fun entry =>
      require (block.stateUpdate.oldHash = entry.1.accountCell) "has incorrect old hash"
    whenPresent new fun entry => do
      require (block.stateUpdate.newHash = entry.1.accountCell) "has incorrect new hash"
      let extra ← base.bag.augShardAccount entry.1
      require (extra = entry.2) "invalid account augmentation"

def precheckAccountUpdates : Checked Unit :=
  forM (AugDict.scanDiff base.prevAccounts base.nextAccounts) (precheckOneAccountUpdate base)

def checkLoadHistory : Checked Unit := do
  let prev := base.prevState
  let next := base.nextState
  require (next.overloadHistory &&& next.underloadHistory &&& 1 = 0)
    "block cannot be both overloaded and underloaded"
  if base.info.afterSplit ∨ base.info.afterMerge then
    require ((next.overloadHistory ||| next.underloadHistory) &&& ~~~1 = 0)
      "the old underload or overload history has not been cleared"
  else do
    require ((next.overloadHistory ^^^ (prev.overloadHistory <<< 1)) &&& ~~~1 = 0)
      "new overload history is not compatible with the old overload history"
    require ((next.underloadHistory ^^^ (prev.underloadHistory <<< 1)) &&& ~~~1 = 0)
      "new underload history is not compatible with the old underload history"

def checkValidatorFees : Checked Unit := do
  let (new, _) ← base.valueFlow.recovered.add base.nextState.totalValidatorFees
  let (old, _) ← base.valueFlow.feesCollected.add base.prevValidatorFees
  require (new = old) "new state declares other total validator fees"

def checkNewState (manager : MsgQueueManager) : Checked Unit := do
  let myMcSeqno := if base.shard.isMasterchain then base.seqNo else base.mcSeqno
  let minSeqno := if manager.next.minSeqno = 0 then 2 ^ 32 - 1 else manager.next.minSeqno
  require (base.nextState.minRefMcSeqno = min (min minSeqno myMcSeqno) base.minShardRefMcSeqno)
    "new state has another minimal referenced masterchain block seqno"
  checkLoadHistory base
  require (base.nextState.totalBalance = base.valueFlow.toNextBlk)
    "new state declares total balance different from to_next_blk in value flow"
  checkValidatorFees base
  provided base.shard.isMasterchain base.checkShardLibraries
  require (base.shard.isMasterchain ∨ base.nextState.hasLibraries = false)
    "new state contains a non-empty public library collection"
  require (base.nextState.hasMasterRef = !base.shard.isMasterchain)
    "master_ref is there exactly for non-masterchain blocks"

structure ValueChecksPass (manager : MsgQueueManager) (r : ValidateResult) : Prop where
  loaded : loadBlockData base = .ok ()
  valueFlow : precheckValueFlow base = .ok ()
  accounts : precheckAccountUpdates base = .ok ()
  tasks : TasksPass (messageTasks base manager) .new r
  burned : checkBurnedValueFlow base r = .ok ()
  newState : checkNewState base manager = .ok ()

end Model

section RealFlow

variable (bag : Bag)

def accountBalance (a : ShardAccount) : Option ℕ → ℕ :=
  match bag.augShardAccount a with
  | .ok extra => extra.balance.amount
  | .error _ => 0

def importedValue (m : InMsg) : Option ℕ → ℕ :=
  match bag.augInMsg m with
  | .ok extra => extra.valueImported.amount
  | .error _ => 0

def exportedValue (m : OutMsg) : Option ℕ → ℕ :=
  match bag.augOutMsg m with
  | .ok value => value.amount
  | .error _ => 0

def totalBalance (accounts : ShardAccounts) : Option ℕ → ℕ :=
  (accounts.entries.map fun e => accountBalance bag e.2.1).sum

def totalImported (messages : InMsgDescr) : Option ℕ → ℕ :=
  (messages.entries.map fun e => importedValue bag e.2.1).sum

def totalExported (messages : OutMsgDescr) : Option ℕ → ℕ :=
  (messages.entries.map fun e => exportedValue bag e.2.1).sum

abbrev AccountsCorrect (accounts : ShardAccounts) : Prop :=
  accounts.Correct .zero DepthBalanceInfo.combine bag.augShardAccount

structure RealValueFlow (base : ValidateBase) : Prop where
  balance : totalBalance base.bag base.nextAccounts + totalExported base.bag base.outMsgDescr
      + base.valueFlow.feesCollected.amount + base.valueFlow.burned.amount =
    totalBalance base.bag base.prevAccounts + totalImported base.bag base.inMsgDescr
      + base.valueFlow.feesImported.amount + base.valueFlow.created.amount
      + base.valueFlow.minted.amount + base.valueFlow.recovered.amount
  total : base.nextState.totalBalance.amount = totalBalance base.bag base.nextAccounts
  augmented : AccountsCorrect base.bag base.nextAccounts

/-- The stored extras that no check computes again are the right ones: those of the
forks and of the root of the new accounts, and, up to a common amount, those at the
roots of the message records. -/
structure ExtrasComputed (base : ValidateBase) : Prop where
  root : base.nextAccounts.RootCorrect .zero
  forks : base.nextAccounts.ForksCorrect DepthBalanceInfo.combine
  messages : base.inMsgDescr.rootExtra.valueImported.amount
      + totalExported base.bag base.outMsgDescr =
    totalImported base.bag base.inMsgDescr + base.outMsgDescr.rootExtra.amount

end RealFlow

section Facts

variable {base : ValidateBase} {manager : MsgQueueManager} {r : ValidateResult}

/-- A valid flow balances in every currency. -/
theorem validate_amount {flow : ValueFlow} (h : flow.validate = .ok true) :
    flow.fromPrevBlk.amount + flow.imported.amount + flow.feesImported.amount
        + flow.created.amount + flow.minted.amount + flow.recovered.amount =
      flow.toNextBlk.amount + flow.exported.amount + flow.feesCollected.amount
        + flow.burned.amount := by
  simp only [ValueFlow.validate, bind_eq_ok, pure_eq_ok, Bool.and_eq_true, decide_eq_true_eq] at h
  obtain ⟨⟨a1, ok1⟩, h1, ⟨a2, ok2⟩, h2, ⟨a3, ok3⟩, h3, ⟨a4, ok4⟩, h4, ⟨a5, ok5⟩, h5, ⟨b1, ok6⟩, h6,
    ⟨b2, ok7⟩, h7, ⟨b3, ok8⟩, h8, ⟨⟨⟨⟨⟨⟨⟨⟨k1, k2⟩, k3⟩, k4⟩, k5⟩, k6⟩, k7⟩, k8⟩, heq⟩⟩ := h
  dsimp only at h1 h2 h3 h4 h5 h6 h7 h8 k1 k2 k3 k4 k5 k6 k7 k8 heq
  subst k1 k2 k3 k4 k5 k6 k7 k8
  calc flow.fromPrevBlk.amount + flow.imported.amount + flow.feesImported.amount
        + flow.created.amount + flow.minted.amount + flow.recovered.amount = a5.amount := by
        rw [amount_add h5, amount_add h4, amount_add h3, amount_add h2, amount_add h1]
    _ = b3.amount := by rw [heq]
    _ = _ := by
        rw [amount_add h8, amount_add h7, amount_add h6]

section

variable (h : ValueChecksPass base manager r)
include h

/-- The sums an accepted block declares balance, as they stand at the roots. -/
theorem ValueChecksPass.declared :
    base.prevAccounts.rootExtra.balance.amount + base.inMsgDescr.rootExtra.valueImported.amount
        + base.valueFlow.feesImported.amount + base.valueFlow.created.amount
        + base.valueFlow.minted.amount + base.valueFlow.recovered.amount =
      base.nextAccounts.rootExtra.balance.amount + base.outMsgDescr.rootExtra.amount
        + base.valueFlow.feesCollected.amount + base.valueFlow.burned.amount := by
  have hflow := h.valueFlow
  simp only [precheckValueFlow, checkDeclaredSums, bind_eq_ok, require_eq_ok] at hflow
  obtain ⟨valid, hvalid, -, rfl, -, -, ⟨⟩, ⟨⟨⟩, hprev, ⟨⟩, hnext, ⟨⟩, hin, hout⟩, -⟩ := hflow
  rw [hprev, hnext, hin, hout]
  exact validate_amount hvalid

theorem ValueChecksPass.total :
    base.nextState.totalBalance = base.nextAccounts.rootExtra.balance := by
  have hflow := h.valueFlow
  simp only [precheckValueFlow, checkDeclaredSums, bind_eq_ok, require_eq_ok] at hflow
  obtain ⟨-, -, -, -, -, -, ⟨⟩, ⟨⟨⟩, -, ⟨⟩, hnext, -⟩, -⟩ := hflow
  have hstate := h.newState
  simp only [checkNewState, bind_eq_ok, require_eq_ok] at hstate
  obtain ⟨-, -, -, -, ⟨⟩, htotal, -⟩ := hstate
  rw [htotal, hnext]

/-- An unchanged account keeps its extra, that of a changed one is checked. -/
theorem ValueChecksPass.leaves (hprev : AccountsCorrect base.bag base.prevAccounts) :
    base.nextAccounts.LeavesCorrect base.bag.augShardAccount := by
  rintro ⟨accId, account, extra⟩ hmem
  have hget := (AugDict.mem_entries_iff _ _ _).mp hmem
  by_cases hsame : base.prevAccounts.getWithAug accId = some (account, extra)
  · exact hprev.leaves _ ((AugDict.mem_entries_iff _ _ _).mpr hsame)
  · have hdiff := (AugDict.mem_scanDiff base.prevAccounts base.nextAccounts accId _ _).mpr
      ⟨rfl, hget, hsame⟩
    have hcheck := forM_eq_ok.mp h.accounts _ hdiff
    simp only [precheckOneAccountUpdate, bind_eq_ok, whenPresent_eq_ok, require_eq_ok] at hcheck
    obtain ⟨block, -, ⟨⟩, -, ⟨⟩, -, hnew⟩ := hcheck
    obtain ⟨-, -, extra', haug, rfl⟩ := hnew _ rfl
    exact haug

end

theorem totalBalance_eq {bag : Bag} {accounts : ShardAccounts} (h : AccountsCorrect bag accounts) :
    totalBalance bag accounts = accounts.rootExtra.balance.amount := by
  have hleaf : ∀ e ∈ accounts.entries, accountBalance bag e.2.1 = e.2.2.balance.amount := by
    intro e he
    rw [accountBalance, h.leaves e he]
  calc totalBalance bag accounts
      = (accounts.entries.map fun e => e.2.2.balance.amount).sum := by
        rw [totalBalance, List.map_congr_left hleaf]
    _ = accounts.rootExtra.balance.amount :=
        (AugDict.measure_rootExtra (fun extra : DepthBalanceInfo => extra.balance.amount)
          CurrencyCollection.amount_zero (fun _ _ _ => DepthBalanceInfo.amount_combine) h.root
          h.forks).symm

end Facts

section FeesFromNothing

/-- The account pays its fees, and the validators collect them. -/
def honestBlock : ValidateBase :=
  { receivingBlock with
    valueFlow := { receivingBlock.valueFlow with
      fromPrevBlk := .fromCoins 1000, toNextBlk := .fromCoins 970, feesCollected := .fromCoins 30 }
    nextState := { receivingBlock.nextState with
      totalBalance := .fromCoins 970, totalValidatorFees := .fromCoins 30, hasMasterRef := false } }

/-- The same block with 50 coins more in the root extras of the messages and of the transactions. -/
def inflatedBlock : ValidateBase :=
  { honestBlock with
    inMsgDescr := { honestBlock.inMsgDescr with rootExtra := ⟨0, .fromCoins 50⟩ }
    accountBlocks := { honestBlock.accountBlocks with rootExtra := .fromCoins 80 }
    valueFlow := { honestBlock.valueFlow with
      imported := .fromCoins 50, feesCollected := .fromCoins 80 }
    nextState := { honestBlock.nextState with totalValidatorFees := .fromCoins 80 } }

theorem externalAccounts_correct (cell : Cell) (hash : UInt256) (lt coins : ℕ)
    (hcell : receivingBlock.bag.account cell = some (mcAccount coins none)) :
    AccountsCorrect receivingBlock.bag
      (.singleton zeroId ⟨0, .fromCoins coins⟩ ⟨cell, hash, lt⟩) where
  root := rfl
  forks := by
    intro t ht
    cases ht
    trivial
  leaves := by
    intro e he
    obtain rfl := List.mem_singleton.mp he
    simp only [Bag.augShardAccount, Bag.readAccount, hcell, present, bind_eq_ok]
    exact ⟨_, rfl, rfl⟩

end FeesFromNothing

end TonNode.Validator
