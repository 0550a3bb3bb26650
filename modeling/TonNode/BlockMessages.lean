import TonNode.AugDict
import TonNode.BlockCurrency
import TonNode.BlockShard

/-! Addresses, messages, message envelopes, the inbound and outbound message
records of a block, transactions and accounts. Cells are compared by their
representation hash throughout the code, so a cell is its hash here and a `Bag`
says what each cell holds. -/
namespace TonNode.Block

open Checked

structure BitString where
  len : ℕ
  val : ℕ
  bound : val < 2 ^ len
deriving DecidableEq

namespace BitString

def getInt (s : BitString) (n : ℕ) : Checked (BitVec 64) := do
  require (n ≤ s.len) "CellUnderflow"
  pure (BitVec.ofNat 64 (s.val >>> (s.len - n)))

theorem overwrite_bound {p q s n : ℕ} (hp : p < 2 ^ q) (hq : q ≤ n) :
    p * 2 ^ (n - q) + s % 2 ^ (n - q) < 2 ^ n := by
  have hmod : s % 2 ^ (n - q) < 2 ^ (n - q) := Nat.mod_lt _ (Nat.two_pow_pos _)
  calc p * 2 ^ (n - q) + s % 2 ^ (n - q) < p * 2 ^ (n - q) + 2 ^ (n - q) := by omega
    _ = (p + 1) * 2 ^ (n - q) := by ring
    _ ≤ 2 ^ q * 2 ^ (n - q) := Nat.mul_le_mul_right _ hp
    _ = 2 ^ n := by rw [← pow_add, Nat.add_sub_of_le hq]

def overwritePrefix (s p : BitString) : Checked BitString :=
  if p.len = 0 then pure s
  else if h : p.len ≤ s.len then
    pure ⟨s.len, p.val * 2 ^ (s.len - p.len) + s.val % 2 ^ (s.len - p.len),
      overwrite_bound p.bound h⟩
  else reject "Prefix should not be longer than self"

end BitString

abbrev AccountId := BitString

def zeroId : AccountId := ⟨256, 0, Nat.two_pow_pos 256⟩

inductive MsgAddressInt where
  | addrStd (anycast : Option BitString) (workchainId : BitVec 8) (address : AccountId)
  | addrVar (anycast : Option BitString) (workchainId : BitVec 32) (address : AccountId)
deriving DecidableEq

namespace MsgAddressInt

def workchainId : MsgAddressInt → BitVec 32
  | addrStd _ wc _ => wc.signExtend 32
  | addrVar _ wc _ => wc

def address : MsgAddressInt → AccountId
  | addrStd _ _ a => a
  | addrVar _ _ a => a

def rewritePfx : MsgAddressInt → Option BitString
  | addrStd p _ _ => p
  | addrVar p _ _ => p

def extractStdAddress (a : MsgAddressInt) : Checked (BitVec 32 × AccountId) :=
  match a.rewritePfx with
  | none => pure (a.workchainId, a.address)
  | some p => do
    let accountId ← a.address.overwritePrefix p
    pure (a.workchainId, accountId)

end MsgAddressInt

namespace AccountIdPrefixFull

def stdPrefix (workchainId : BitVec 32) (accountId : AccountId) : Checked AccountIdPrefixFull := do
  let pfx ← accountId.getInt 64
  pure ⟨workchainId, pfx⟩

def ofAddress (a : MsgAddressInt) : Checked AccountIdPrefixFull := do
  let (workchainId, accountId) ← a.extractStdAddress
  stdPrefix workchainId accountId

def checkedPrefix (a : MsgAddressInt) : Checked AccountIdPrefixFull := do
  let (workchainId, accountId) ← a.extractStdAddress
  require (workchainId ≠ invalidWorkchainId) "Address is invalid"
  stdPrefix workchainId accountId

end AccountIdPrefixFull

namespace ShardIdent

def containsAccount (s : ShardIdent) (a : AccountId) : Checked Bool :=
  if s.pfx = shardFull then pure true
  else do
    let addrPfx ← a.getInt s.prefixLen
    pure (addrPfx = s.pfx >>> (64 - s.prefixLen))

end ShardIdent

structure InternalMessageHeader where
  src : Option MsgAddressInt
  dst : MsgAddressInt
  value : CurrencyCollection
  fwdFee : ℕ
  createdLt : ℕ
deriving DecidableEq

inductive Message where
  | intMsgInfo (header : InternalMessageHeader)
  | extInMsgInfo (dst : MsgAddressInt)
  | extOutMsgInfo (src : Option MsgAddressInt) (createdLt : ℕ)
deriving DecidableEq

namespace Message

def intHeader : Message → Option InternalMessageHeader
  | intMsgInfo header => some header
  | _ => none

def srcRef : Message → Option MsgAddressInt
  | intMsgInfo header => header.src
  | extInMsgInfo _ => none
  | extOutMsgInfo src _ => src

def dstRef : Message → Option MsgAddressInt
  | intMsgInfo header => some header.dst
  | extInMsgInfo dst => some dst
  | extOutMsgInfo _ _ => none

def createdLt : Message → Option ℕ
  | intMsgInfo header => some header.createdLt
  | extInMsgInfo _ => none
  | extOutMsgInfo _ lt => some lt

def isOutboundExternal : Message → Bool
  | extOutMsgInfo _ _ => true
  | _ => false

def value (m : Message) : Option CurrencyCollection := m.intHeader.map (·.value)

end Message

abbrev Cell := UInt256

structure MsgMetadata where
  depth : ℕ
  initiatorAddr : MsgAddressInt
  initiatorLt : ℕ
deriving DecidableEq

def MsgMetadata.addDepth (m : MsgMetadata) : MsgMetadata := { m with depth := m.depth + 1 }

structure MsgEnvelope where
  curAddr : IntermediateAddress
  nextAddr : IntermediateAddress
  fwdFeeRemaining : ℕ
  msg : Cell
  emittedLt : ℕ
  metadata : Option MsgMetadata
deriving DecidableEq

structure EnqueuedMsg where
  enqueuedLt : ℕ
  outMsg : Cell
deriving DecidableEq

structure InMsgFinal where
  inMsg : Cell
  transaction : Cell
  fwdFee : ℕ
deriving DecidableEq

structure InMsgTransit where
  inMsg : Cell
  outMsg : Cell
  transitFee : ℕ
deriving DecidableEq

inductive InMsg where
  | external (msg transaction : Cell)
  | ihr (msg transaction : Cell) (ihrFee : ℕ) (proofCreated : Cell)
  | immediate (info : InMsgFinal)
  | final (info : InMsgFinal)
  | transit (info : InMsgTransit)
  | discardedFinal (inMsg : Cell) (transactionId fwdFee : ℕ)
  | discardedTransit (inMsg : Cell) (transactionId fwdFee : ℕ) (proofDelivered : Cell)
  | deferredFinal (info : InMsgFinal)
  | deferredTransit (inMsg outMsg : Cell)
deriving DecidableEq

namespace InMsg

def transactionCell : InMsg → Option Cell
  | external _ t => some t
  | ihr _ t _ _ => some t
  | immediate info => some info.transaction
  | final info => some info.transaction
  | deferredFinal info => some info.transaction
  | _ => none

def inMsgEnvelopeCell : InMsg → Option Cell
  | external _ _ => none
  | ihr _ _ _ _ => none
  | immediate info => some info.inMsg
  | final info => some info.inMsg
  | transit info => some info.inMsg
  | discardedFinal env _ _ => some env
  | discardedTransit env _ _ _ => some env
  | deferredFinal info => some info.inMsg
  | deferredTransit env _ => some env

def outMsgEnvelopeCell : InMsg → Option Cell
  | transit info => some info.outMsg
  | deferredTransit _ env => some env
  | _ => none

def isDeferredTransit : InMsg → Bool
  | deferredTransit _ _ => true
  | _ => false

def plainMessageCell : InMsg → Option Cell
  | external msg _ => some msg
  | ihr msg _ _ _ => some msg
  | _ => none

end InMsg

inductive OutMsg where
  | external (msg transaction : Cell)
  | new (outMsg transaction : Cell)
  | immediate (outMsg transaction reimport : Cell)
  | transit (outMsg imported : Cell)
  | dequeueImmediate (outMsg reimport : Cell)
  | dequeue (outMsg : Cell) (importBlockLt : ℕ)
  | dequeueShort (msgEnvHash : UInt256) (nextWorkchain : BitVec 32) (nextAddrPfx : BitVec 64)
      (importBlockLt : ℕ)
  | transitRequeued (outMsg imported : Cell)
  | newDefer (outMsg transaction : Cell)
  | deferredTransit (outMsg imported : Cell)
deriving DecidableEq

namespace OutMsg

def msgEnvelopeCell : OutMsg → Option Cell
  | external _ _ => none
  | new env _ => some env
  | immediate env _ _ => some env
  | transit env _ => some env
  | dequeueImmediate env _ => some env
  | dequeue env _ => some env
  | dequeueShort _ _ _ _ => none
  | transitRequeued env _ => some env
  | newDefer env _ => some env
  | deferredTransit env _ => some env

def envelopeMessageHash : OutMsg → Option UInt256
  | dequeueShort hash _ _ _ => some hash
  | out => out.msgEnvelopeCell

def transactionCell : OutMsg → Option Cell
  | external _ t => some t
  | new _ t => some t
  | immediate _ t _ => some t
  | newDefer _ t => some t
  | _ => none

def reimportCell : OutMsg → Option Cell
  | immediate _ _ c => some c
  | transit _ c => some c
  | dequeueImmediate _ c => some c
  | transitRequeued _ c => some c
  | deferredTransit _ c => some c
  | _ => none

def isImmediate : OutMsg → Bool
  | immediate _ _ _ => true
  | _ => false

def isDequeueImmediate : OutMsg → Bool
  | dequeueImmediate _ _ => true
  | _ => false

def isTransit : OutMsg → Bool
  | transit _ _ => true
  | _ => false

def isTransitRequeued : OutMsg → Bool
  | transitRequeued _ _ => true
  | _ => false

end OutMsg

inductive TransactionDescr where
  | ordinary
  | storage
  | tickTock (isTock : Bool)
  | splitPrepare
  | splitInstall
  | mergePrepare
  | mergeInstall
deriving DecidableEq

namespace TransactionDescr

def isSplit : TransactionDescr → Bool
  | splitPrepare => true
  | splitInstall => true
  | _ => false

def isMerge : TransactionDescr → Bool
  | mergePrepare => true
  | mergeInstall => true
  | _ => false

end TransactionDescr

structure HashUpdate where
  oldHash : UInt256
  newHash : UInt256
deriving DecidableEq

/-- The fields of a transaction the validator reads; `endActive` says that the
account is active afterwards. -/
structure Transaction where
  accountAddr : AccountId
  lt : ℕ
  prevTransHash : UInt256
  prevTransLt : ℕ
  now : ℕ
  outmsgCnt : ℕ
  endActive : Bool
  inMsg : Option Cell
  outMsgs : SortedMap ℕ Cell
  totalFees : CurrencyCollection
  stateUpdate : HashUpdate
  description : TransactionDescr
deriving DecidableEq

def Transaction.containsOutMsg (t : Transaction) (createdLt : ℕ) (hash : UInt256) : Bool :=
  if t.lt < createdLt ∧ createdLt ≤ t.lt + t.outmsgCnt then
    t.outMsgs.get (createdLt - t.lt - 1) = some hash
  else false

structure AccountStuff where
  addr : MsgAddressInt
  balance : CurrencyCollection
  tickTock : Option (Bool × Bool)
deriving DecidableEq

abbrev Account := Option AccountStuff

namespace Account

def aug : Account → Checked DepthBalanceInfo
  | none => pure .zero
  | some stuff =>
    match stuff.addr.rewritePfx with
    | none => pure ⟨0, stuff.balance⟩
    | some p => do
      require (p.len ≤ 30) "split depth is out of range"
      pure ⟨p.len, stuff.balance⟩

def belongsToShard (a : Account) (shard : ShardIdent) : Checked Bool := do
  let stuff ← present a "Account is None"
  if stuff.addr.workchainId = shard.workchainId then shard.containsAccount stuff.addr.address
  else pure false

end Account

structure ShardAccount where
  accountCell : Cell
  lastTransHash : UInt256
  lastTransLt : ℕ
deriving DecidableEq

structure AccountBlock where
  accountAddr : AccountId
  transactions : SortedMap ℕ Cell
  stateUpdate : HashUpdate
deriving DecidableEq

/-- The contents of the cells: what each parses to, if it does, and the cell an
envelope is written to. `emptyAccount` is the cell of `AccountNone`. -/
structure Bag where
  message : Cell → Option Message
  envelope : Cell → Option MsgEnvelope
  inMsg : Cell → Option InMsg
  transaction : Cell → Option Transaction
  account : Cell → Option Account
  serializeEnvelope : MsgEnvelope → Cell
  emptyAccount : Cell

namespace Bag

variable (bag : Bag) (c : Cell)

def readMessage : Checked Message := present (bag.message c) "not a Message"

def readEnvelope : Checked MsgEnvelope :=
  present (bag.envelope c) "not a MsgEnvelope"

def readInMsg : Checked InMsg := present (bag.inMsg c) "not an InMsg"

def readTransaction : Checked Transaction :=
  present (bag.transaction c) "not a Transaction"

def readAccount : Checked Account := present (bag.account c) "not an Account"

def augShardAccount (a : ShardAccount) : Checked DepthBalanceInfo := do
  let account ← bag.readAccount a.accountCell
  account.aug

variable (m : InMsg)

def readInMsgEnvelope : Checked (Option MsgEnvelope) :=
  match m.inMsgEnvelopeCell with
  | none => pure none
  | some c => do
    let env ← bag.readEnvelope c
    pure (some env)

def inMessageCell : Checked Cell :=
  match m.inMsgEnvelopeCell with
  | some c => do
    let env ← bag.readEnvelope c
    pure env.msg
  | none => present m.plainMessageCell "wrong message type"

def readInMessage : Checked Message := do
  let c ← bag.inMessageCell m
  bag.readMessage c

def readOutMsgEnvelope (m : OutMsg) : Checked (Option MsgEnvelope) :=
  match m.msgEnvelopeCell with
  | none => pure none
  | some c => do
    let env ← bag.readEnvelope c
    pure (some env)

def outMessageCell (m : OutMsg) : Checked (Option Cell) :=
  match m with
  | .external msg _ => pure (some msg)
  | _ =>
    match m.msgEnvelopeCell with
    | none => pure none
    | some c => do
      let env ← bag.readEnvelope c
      pure (some env.msg)

def readReimportMessage (m : OutMsg) : Checked (Option InMsg) :=
  match m.reimportCell with
  | none => pure none
  | some c => do
    let inMsg ← bag.readInMsg c
    pure (some inMsg)

def calcCurNextPrefix (env : MsgEnvelope) :
    Checked (AccountIdPrefixFull × AccountIdPrefixFull) := do
  let msg ← bag.readMessage env.msg
  let src ← present msg.srcRef "source address of message is invalid"
  let srcPrefix ← AccountIdPrefixFull.ofAddress src
  let dst ← present msg.dstRef "destination address of message is invalid"
  let dstPrefix ← AccountIdPrefixFull.ofAddress dst
  let curPrefix ← srcPrefix.interpolateAddrIntermediate dstPrefix env.curAddr
  let nextPrefix ← srcPrefix.interpolateAddrIntermediate dstPrefix env.nextAddr
  pure (curPrefix, nextPrefix)

/-! The extras of the records. An overflow of the coins is dropped, as in the
code. -/

def envelopeValue (value : CurrencyCollection) (env : MsgEnvelope) : CurrencyCollection :=
  { value with coins := (addCoins value.coins env.fwdFeeRemaining).1 }

def augInMsg : Checked ImportFees := do
  let msg ← bag.readInMessage m
  match msg.intHeader with
  | none => pure .zero
  | some header =>
    match m with
    | .external _ _ => pure .zero
    | .ihr _ _ _ _ => pure ⟨0, header.value⟩
    | .immediate _ => pure ⟨header.fwdFee, .zero⟩
    | .final info => do
      let env ← bag.readEnvelope info.inMsg
      require (env.fwdFeeRemaining = info.fwdFee) "fwd_fee_remaining not equal to fwd_fee"
      pure ⟨env.fwdFeeRemaining, envelopeValue header.value env⟩
    | .transit info => do
      let env ← bag.readEnvelope info.inMsg
      require (info.transitFee ≤ env.fwdFeeRemaining) "fwd_fee_remaining less than transit_fee"
      pure ⟨info.transitFee, envelopeValue header.value env⟩
    | .discardedFinal _ _ _ => pure ⟨header.fwdFee, .fromCoins header.fwdFee⟩
    | .discardedTransit _ _ _ _ => pure ⟨header.fwdFee, .fromCoins header.fwdFee⟩
    | .deferredFinal info => do
      let env ← bag.readEnvelope info.inMsg
      require (env.fwdFeeRemaining = info.fwdFee) "fwd_fee_remaining not equal to fwd_fee"
      pure ⟨env.fwdFeeRemaining, envelopeValue header.value env⟩
    | .deferredTransit inMsg _ => do
      let env ← bag.readEnvelope inMsg
      pure ⟨0, envelopeValue header.value env⟩

def augEnvelope : Checked CurrencyCollection := do
  let env ← bag.readEnvelope c
  let msg ← bag.readMessage env.msg
  let value ← present msg.value "message has no value"
  pure (envelopeValue value env)

def augOutMsg : OutMsg → Checked CurrencyCollection
  | .new env _ => bag.augEnvelope env
  | .transit env _ => bag.augEnvelope env
  | .transitRequeued env _ => bag.augEnvelope env
  | .newDefer env _ => bag.augEnvelope env
  | .deferredTransit env _ => bag.augEnvelope env
  | _ => pure .zero

end Bag

abbrev InMsgDescr := AugDict UInt256 InMsg ImportFees
abbrev OutMsgDescr := AugDict UInt256 OutMsg CurrencyCollection
abbrev ShardAccountBlocks := AugDict AccountId AccountBlock CurrencyCollection
abbrev ShardAccounts := AugDict AccountId ShardAccount DepthBalanceInfo

end TonNode.Block
