import TonNode.ValidatorTransactions

/-! How the message records of an accepted block correspond to its transactions.
Records are keyed by message hash, transactions by account and lt, and each side
is checked against the other; the one comparison made only when an optional field
is present leaves one way to break the correspondence. -/
namespace TonNode.Validator

open Block Checked
open AccountIdPrefixFull (checkedPrefix stdPrefix)

variable (base : ValidateBase)

def Listed (t : Cell) : Prop :=
  ∃ addr lt, base.lookupTransaction addr lt = some t

def Processes (t : Cell) (msg : UInt256) : Prop :=
  ∃ tr, base.bag.transaction t = some tr ∧ tr.inMsg = some msg

def DestinationIs (m : InMsg) (addr : AccountId) : Prop :=
  ∃ msg dst, base.bag.readInMessage m = .ok msg ∧ msg.dstRef = some dst ∧
    dst.extractStdAddress = .ok (base.shard.workchainId, addr)

def ImportsLocally (m : InMsg) : Prop :=
  (∀ msg t, m ≠ .external msg t) ∧ m.isDeferredTransit = false ∧
    ∃ header destPrefix, base.bag.readInMessage m = .ok (.intMsgInfo header) ∧
      checkedPrefix header.dst = .ok destPrefix ∧ base.shard.containsFullPrefix destPrefix

structure MessagesMatch : Prop where
  /-- An inbound record that names a transaction names the one that processes its
  message for the destination. -/
  inbound : ∀ key m t, base.inMsgDescr.get key = some m → m.transactionCell = some t →
    base.bag.inMessageCell m = .ok key ∧ Listed base t ∧
      ∃ tr, base.bag.transaction t = some tr ∧ tr.inMsg = some key ∧
        DestinationIs base m tr.accountAddr
  /-- A transaction with an inbound message is named by exactly one inbound record. -/
  processed : ∀ t msg, Listed base t → Processes base t msg →
    ∃! key, ∃ m, base.inMsgDescr.get key = some m ∧ m.transactionCell = some t
  /-- An outbound record that names a transaction names one that sends its message. -/
  outbound : ∀ key m t, base.outMsgDescr.get key = some m → m.transactionCell = some t →
    base.bag.outMessageCell m = .ok (some key) ∧ Listed base t ∧
      ∃ tr i, base.bag.transaction t = some tr ∧ tr.outMsgs.get i = some key
  /-- A message sent by a transaction has exactly one outbound record, which names
  the transaction. -/
  sent : ∀ t tr i msg, Listed base t → base.bag.transaction t = some tr →
    tr.outMsgs.get i = some msg →
    (∃ m, base.outMsgDescr.get msg = some m ∧ m.transactionCell = some t) ∧
      ∀ key m, base.outMsgDescr.get key = some m →
        base.bag.outMessageCell m = .ok (some msg) → key = msg
  /-- A message imported for an account of the shard is processed by exactly one
  transaction. -/
  localImport : ∀ key m, base.inMsgDescr.get key = some m → ImportsLocally base m →
    ∃! t, Listed base t ∧ Processes base t key

def NamesReceivers : Prop :=
  ∀ key m t tr, base.inMsgDescr.get key = some m → m.transactionCell = some t →
    base.bag.transaction t = some tr → tr.inMsg.isSome

def messageTasks (manager : MsgQueueManager) : List Task :=
  precheckAccountTransactions base ++ checkInMsgDescr base manager ++
    checkOutMsgDescr base manager ++ checkTransactions base

section Addresses

variable {p : AccountIdPrefixFull}

theorem containsFullPrefix_workchain {shard : ShardIdent} (h : shard.containsFullPrefix p) :
    p.workchainId = shard.workchainId := by
  rw [ShardIdent.containsFullPrefix] at h
  split_ifs at h with hwc
  · exact hwc.symm
  · exact hwc.symm

theorem stdPrefix_workchain {wc : BitVec 32} {addr : AccountId}
    (h : stdPrefix wc addr = .ok p) : p.workchainId = wc := by
  simp only [stdPrefix, bind_eq_ok, pure_eq_ok] at h
  obtain ⟨pfx, -, rfl⟩ := h
  rfl

theorem checkedPrefix_workchain {a : MsgAddressInt}
    (h : checkedPrefix a = .ok p) {wc : BitVec 32} {addr : AccountId}
    (hstd : a.extractStdAddress = .ok (wc, addr)) : p.workchainId = wc := by
  simp only [checkedPrefix, hstd, bind_eq_ok] at h
  obtain ⟨⟨wc', addr'⟩, hpair, -, -, hprefix⟩ := h
  cases hpair
  exact stdPrefix_workchain hprefix

end Addresses

section Facts

variable {base : ValidateBase} {manager : MsgQueueManager} {key : UInt256} {r r' : ValidateResult}

theorem checkInMsg_local {m : InMsg} (h : checkInMsg base manager key m r = .ok r') {t : Cell}
    (ht : m.transactionCell = some t) {msg : Message} {dst : MsgAddressInt} {wc : BitVec 32}
    {addr : AccountId} (hmsg : base.bag.readInMessage m = .ok msg) (hdst : msg.dstRef = some dst)
    (hstd : dst.extractStdAddress = .ok (wc, addr)) : wc = base.shard.workchainId := by
  by_cases hm : ∃ msg t, m = .external msg t
  · obtain ⟨msgCell, t', rfl⟩ := hm
    simp only [checkInMsg, hmsg, bind_eq_ok, require_eq_ok, present_eq_ok] at h
    obtain ⟨-, -, -, -, -, -, msg', hmsg', dst', hdst', ⟨wc', addr'⟩, hstd', -, -, p, hp, -, hin, -⟩ :=
      h
    cases hmsg'
    cases hdst.symm.trans hdst'
    cases hstd.symm.trans hstd'
    exact (stdPrefix_workchain hp).symm.trans (containsFullPrefix_workchain hin)
  · obtain ⟨env, msg', -, hmsg', hinternal⟩ :=
      checkInMsg_internal h fun msg t heq => hm ⟨msg, t, heq⟩
    cases hmsg.symm.trans hmsg'
    obtain ⟨header, p, rfl, hp, hin, -⟩ := checkInternalInMsg_destination hinternal
    cases hdst
    have hsome : m.transactionCell.isSome := by rw [ht]; rfl
    exact (checkedPrefix_workchain hp hstd).symm.trans (containsFullPrefix_workchain (hin hsome))

theorem checkOutMsg_holds {m : OutMsg} (h : checkOutMsg base manager key m r = .ok r') {t : Cell}
    (ht : m.transactionCell = some t) : base.bag.outMessageCell m = .ok (some key) := by
  have hsome : ∃ msg, base.bag.outMessageCell m = .ok (some msg) := by
    cases m with
    | external msg t' => exact ⟨msg, rfl⟩
    | new env t' | immediate env t' c | newDefer env t' =>
      obtain ⟨_, _, _, _, _, _, hpassed⟩ := checkInternalOutMsg_passed h
      obtain ⟨e, he, -⟩ := hpassed.envelope rfl
      exact ⟨e.msg, by simp [Bag.outMessageCell, OutMsg.msgEnvelopeCell, Bag.readEnvelope, he, present]⟩
    | _ => cases ht
  obtain ⟨msg, hmsg⟩ := hsome
  rw [hmsg, checkOutMsg_message h hmsg]

structure RecordsPassed (base : ValidateBase) (manager : MsgQueueManager) : Prop where
  inMsg : ∀ key m, base.inMsgDescr.get key = some m →
    ∃ r r', checkInMsg base manager key m r = .ok r'
  outMsg : ∀ key m, base.outMsgDescr.get key = some m →
    ∃ r r', checkOutMsg base manager key m r = .ok r'
  transaction : ∀ t, Listed base t → ∃ tr, TransactionRecorded base t tr

theorem TasksPass.records (h : TasksPass (messageTasks base manager) r r') :
    RecordsPassed base manager := by
  have hrounds := h.rounds
  refine ⟨?_, ?_, ?_⟩
  · intro key m hget
    obtain ⟨fees, haug⟩ := (base.inMsgDescr.get_eq_some key m).mp hget
    have hentry := (base.inMsgDescr.mem_entries_iff key (m, fees)).mpr haug
    apply hrounds
    simp only [messageTasks, List.mem_append]
    exact .inl (.inl (.inr (List.mem_map.mpr ⟨_, hentry, rfl⟩)))
  · intro key m hget
    obtain ⟨value, haug⟩ := (base.outMsgDescr.get_eq_some key m).mp hget
    have hentry := (base.outMsgDescr.mem_entries_iff key (m, value)).mpr haug
    apply hrounds
    simp only [messageTasks, List.mem_append]
    exact .inl (.inr (List.mem_map.mpr ⟨_, hentry, rfl⟩))
  · rintro t ⟨addr, lt, hlookup⟩
    apply recorded_of_lookup (fun task htask => hrounds task ?_) hlookup
    simp only [messageTasks, List.mem_append]
    exact .inr htask

end Facts

namespace RecordsPassed

variable {base : ValidateBase} {manager : MsgQueueManager} (h : RecordsPassed base manager)
include h

variable {t : Cell}

/-- The transaction an inbound record names, and what is compared with it. -/
theorem named {key : UInt256} {m : InMsg} (hget : base.inMsgDescr.get key = some m)
    (ht : m.transactionCell = some t) : base.bag.inMessageCell m = .ok key ∧ Listed base t ∧
      ∃ tr, base.bag.transaction t = some tr ∧ (∀ msg, tr.inMsg = some msg → msg = key) ∧
        DestinationIs base m tr.accountAddr := by
  obtain ⟨r, r', hcheck⟩ := h.inMsg key m hget
  obtain ⟨msg, dst, wc, tr, hmsg, hdst, hstd, htr, hlookup, hin⟩ := checkInMsg_transaction hcheck ht
  have hwc := checkInMsg_local hcheck ht hmsg hdst hstd
  subst hwc
  exact ⟨checkInMsg_message hcheck, ⟨_, _, hlookup⟩, tr, htr, hin, msg, dst, hmsg, hdst, hstd⟩

/-- The record under the inbound message of a transaction names it, and any record
that names it is this one. -/
theorem processed {msg : UInt256} (hlisted : Listed base t) (hproc : Processes base t msg) :
    ∃! key, ∃ m, base.inMsgDescr.get key = some m ∧ m.transactionCell = some t := by
  obtain ⟨tr, htr, hin⟩ := hproc
  obtain ⟨tr', hrec⟩ := h.transaction t hlisted
  cases htr.symm.trans hrec.read
  refine ⟨msg, hrec.inbound msg hin, ?_⟩
  rintro key ⟨m, hget, ht⟩
  obtain ⟨-, -, tr', htr', hmsg, -⟩ := h.named hget ht
  cases htr.symm.trans htr'
  exact (hmsg msg hin).symm

theorem outbound {key : UInt256} {m : OutMsg} (hget : base.outMsgDescr.get key = some m)
    (ht : m.transactionCell = some t) : base.bag.outMessageCell m = .ok (some key) ∧ Listed base t ∧
      ∃ tr i, base.bag.transaction t = some tr ∧ tr.outMsgs.get i = some key := by
  obtain ⟨r, r', hcheck⟩ := h.outMsg key m hget
  obtain ⟨tr, i, htr, hlookup, hout⟩ := checkOutMsg_transaction hcheck ht
  exact ⟨checkOutMsg_holds hcheck ht, ⟨_, _, hlookup⟩, tr, i, htr, hout⟩

theorem sent {tr : Transaction} {i : ℕ} {msg : Cell} (hlisted : Listed base t)
    (htr : base.bag.transaction t = some tr) (hout : tr.outMsgs.get i = some msg) :
    (∃ m, base.outMsgDescr.get msg = some m ∧ m.transactionCell = some t) ∧
      ∀ key m, base.outMsgDescr.get key = some m →
        base.bag.outMessageCell m = .ok (some msg) → key = msg := by
  obtain ⟨tr', hrec⟩ := h.transaction t hlisted
  cases htr.symm.trans hrec.read
  refine ⟨hrec.outbound i msg hout, ?_⟩
  intro key m hget hmsg
  obtain ⟨r, r', hcheck⟩ := h.outMsg key m hget
  exact (checkOutMsg_message hcheck hmsg).symm

/-- A message imported for the shard is processed once, if the transaction its
record names has an inbound message. -/
theorem localImport (hnames : NamesReceivers base) {key : UInt256} {m : InMsg}
    (hget : base.inMsgDescr.get key = some m) (hlocal : ImportsLocally base m) :
    ∃! t, Listed base t ∧ Processes base t key := by
  obtain ⟨hext, hdeferred, header, p, hmsg, hp, hin⟩ := hlocal
  obtain ⟨r, r', hcheck⟩ := h.inMsg key m hget
  obtain ⟨env, msg', -, hmsg', hinternal⟩ := checkInMsg_internal hcheck hext
  cases hmsg.symm.trans hmsg'
  obtain ⟨header', p', hheader, hp', -, hnone⟩ := checkInternalInMsg_destination hinternal
  cases hheader
  cases hp.symm.trans hp'
  cases ht : m.transactionCell with
  | none =>
    rw [hnone ht hin] at hdeferred
    cases hdeferred
  | some t =>
    obtain ⟨-, hlisted, tr, htr, hmsg, -⟩ := h.named hget ht
    obtain ⟨msg, hsome⟩ := Option.isSome_iff_exists.mp (hnames key m t tr hget ht htr)
    cases hmsg msg hsome
    refine ⟨t, ⟨hlisted, tr, htr, hsome⟩, ?_⟩
    -- another transaction with this message would be named by the same record
    rintro t' ⟨hlisted', tr', htr', hin'⟩
    obtain ⟨tr'', hrec⟩ := h.transaction t' hlisted'
    cases htr'.symm.trans hrec.read
    obtain ⟨m', hget', ht'⟩ := hrec.inbound key hin'
    cases hget.symm.trans hget'
    exact Option.some.inj (ht'.symm.trans ht)

end RecordsPassed

/-- In a block whose records, account blocks and transactions pass, messages and
transactions match exactly when every transaction named by an inbound record has
an inbound message. -/
theorem messages_match_iff_names_receivers {base : ValidateBase} {manager : MsgQueueManager}
    {r r' : ValidateResult} (hpass : TasksPass (messageTasks base manager) r r') :
    MessagesMatch base ↔ NamesReceivers base := by
  have h := hpass.records
  constructor
  · intro hmatch key m t tr hget ht htr
    obtain ⟨-, -, tr', htr', hin, -⟩ := hmatch.inbound key m t hget ht
    cases htr.symm.trans htr'
    rw [hin]
    rfl
  · intro hnames
    refine ⟨?_, fun t msg => h.processed, fun key m t => h.outbound, fun t tr i msg => h.sent,
      fun key m => h.localImport hnames⟩
    intro key m t hget ht
    obtain ⟨hmsg, hlisted, tr, htr, hin, hdest⟩ := h.named hget ht
    obtain ⟨msg, hsome⟩ := Option.isSome_iff_exists.mp (hnames key m t tr hget ht htr)
    cases hin msg hsome
    exact ⟨hmsg, hlisted, tr, htr, hsome, hdest⟩

section ExternalMessage

/-! An external message (cell 1) for an account of the masterchain, recorded as processed by
transaction 3. The account is cell 7 before, with 1000 coins, and 8 after. -/

def mcShard : ShardIdent := ⟨masterchainId, shardFull⟩

def mcAccount (coins : ℕ) (tickTock : Option (Bool × Bool)) : Account :=
  some ⟨.addrStd none 0xff#8 zeroId, .fromCoins coins, tickTock⟩

/-- The account pays 30 coins for the import of the message and for gas. The transactions of a special
account are free. -/
def callFees : TransactionDescr → ℕ
  | .ordinary => 30
  | _ => 0

def accountTransaction (inMsg : Option Cell) (description : TransactionDescr) : Transaction :=
  ⟨zeroId, 11, 0, 0, 0, 0, true, inMsg, .empty, .fromCoins (callFees description), ⟨7, 8⟩, description⟩

/-- The executor on this account: without coins left for gas an external message is refused. -/
def callAccount (description : TransactionDescr) (account : Account) : Checked Execution := do
  let state ← present account "account does not exist"
  require (callFees description < state.balance.coins) "compute phase of external message skipped"
  let account := some { state with balance := .fromCoins (state.balance.coins - callFees description) }
  pure ⟨account, 8, .empty, 0, fun _ _ _ => 3⟩

def externalBag (tickTock : Option (Bool × Bool)) (tr : Transaction) : Bag where
  message := fun c => if c = 1 then some (.extInMsgInfo (.addrStd none 0xff#8 zeroId)) else none
  envelope := fun _ => none
  inMsg := fun _ => none
  transaction := fun c => if c = 3 then some tr else none
  account := fun c =>
    if c = 7 then some (mcAccount 1000 tickTock)
    else if c = 8 then some (mcAccount (1000 - callFees tr.description) tickTock)
    else none
  serializeEnvelope := fun _ => 0
  emptyAccount := 0

def externalBlock (tickTock : Option (Bool × Bool)) (tr : Transaction) : ValidateBase :=
  let fees := callFees tr.description
  { ValidateBase.emptyBlock (externalBag tickTock tr) mcShard ⟨10, 20, 0, false, false, false⟩ with
    inMsgDescr := .singleton 1 .zero (.external 1 3)
    accountBlocks :=
      .singleton zeroId (.fromCoins fees) ⟨zeroId, .singleton 11 3, ⟨7, 8⟩⟩
    prevAccounts := .singleton zeroId ⟨0, .fromCoins 1000⟩ ⟨7, 0, 0⟩
    nextAccounts := .singleton zeroId ⟨0, .fromCoins (1000 - fees)⟩ ⟨8, 3, 11⟩
    execute := fun description _ account _ => callAccount description account }

def receivingBlock : ValidateBase := externalBlock none (accountTransaction (some 1) .ordinary)

def tickBlock : ValidateBase :=
  externalBlock (some (true, false)) (accountTransaction none (.tickTock false))

end ExternalMessage

theorem receivingBlock_messages_match :
    (runTasks (messageTasks receivingBlock (.isolated mcShard)) .new).isOk = true ∧
      MessagesMatch receivingBlock := by
  have hok : (runTasks (messageTasks receivingBlock (.isolated mcShard)) .new).isOk = true := by
    decide +kernel
  obtain ⟨r', hrun⟩ := exists_of_isOk hok
  refine ⟨hok, (messages_match_iff_names_receivers (.of_run hrun)).mpr ?_⟩
  intro key m t tr hget ht htr
  rw [receivingBlock, externalBlock, AugDict.get_singleton] at hget
  split_ifs at hget
  cases hget
  cases ht
  cases htr
  rfl

/-- A block passes that records an external message as processed by a tick
transaction, which does not process it. -/
theorem tickBlock_messages_differ :
    (runTasks (messageTasks tickBlock (.isolated mcShard)) .new).isOk = true ∧
      ¬ MessagesMatch tickBlock := by
  refine ⟨by decide +kernel, ?_⟩
  intro h
  obtain ⟨-, -, tr, htr, hin, -⟩ := h.inbound 1 (.external 1 3) 3 (by rfl) rfl
  cases htr
  cases hin

end TonNode.Validator
