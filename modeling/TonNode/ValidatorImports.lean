import TonNode.ValidatorProcessed

/-! Which inbound messages an accepted block settles. The scan of the merged queue
stops with the last import record, or at the first message left unprocessed, so
the position that the new processed-upto entry claims may lie beyond what the
block imports. -/
namespace TonNode.Validator

open Block Checked MsgQueueManager

variable (base : ValidateBase) (manager : MsgQueueManager)

def MarkedProcessed (enq : MsgEnqueueStuff) : Prop :=
  manager.next.alreadyProcessed enq = .ok true ∧ manager.prev.alreadyProcessed enq = .ok false

def ImportedBy (item : QueueItem) (enq : MsgEnqueueStuff) : Prop :=
  (∃ info, base.inMsgDescr.get item.key.hash = some (.final info) ∧ info.inMsg = enq.envelopeHash) ∨
    ∃ info, base.inMsgDescr.get item.key.hash = some (.transit info) ∧ info.inMsg = enq.envelopeHash

def Settled (item : QueueItem) : Prop :=
  ∀ enq, item.parse base.bag = .ok enq → (MarkedProcessed manager enq ↔ ImportedBy base item enq)

/-- The end lt of the shard a message comes from is known for every entry, and
grows with the masterchain block that the entry refers to. -/
structure RefsGrow (entries : List ProcessedUptoStuff) (enq : MsgEnqueueStuff) : Prop where
  tagged : ∀ e ∈ entries, e.shard ≠ 0
  known : ∀ e ∈ entries, ∃ endLt, e.computeShardEndLt enq.curPrefix = .ok endLt
  grows : ∀ e ∈ entries, ∀ p ∈ entries, e.seqno ≤ p.seqno → ∀ a b,
    e.computeShardEndLt enq.curPrefix = .ok a → p.computeShardEndLt enq.curPrefix = .ok b → a ≤ b

/-- Every message bound for the shard is newly marked exactly if it is imported.
Then a block that keeps this rule and comes later, from records that contain the
new ones, imports none of the messages again. -/
structure InboundExact : Prop where
  settled : ∀ item ∈ manager.mergeOutQueueIter base.shard, Settled base manager item
  notAgain : ∀ item ∈ manager.mergeOutQueueIter base.shard, ∀ enq,
    item.parse base.bag = .ok enq → ImportedBy base item enq →
    ∀ (later : ValidateBase) (laterManager : MsgQueueManager),
      laterManager.prev.contains manager.next = true →
      laterManager.prev.shard.containsFullPrefix enq.nextPrefix = true →
      RefsGrow (manager.next.entries ++ laterManager.prev.entries) enq →
      ∀ item', Settled later laterManager item' → item'.parse later.bag = .ok enq →
        ¬ ImportedBy later item' enq

def isImport : InMsg → Bool
  | .final _ => true
  | .transit _ => true
  | _ => false

def importRecords : List (Σ _ : UInt256, InMsg × ImportFees) :=
  base.inMsgDescr.entries.filter fun e => isImport e.2.1

/-- The entry that the new processed-upto records add to the old ones. -/
def newEntry : Option ProcessedUptoStuff := (manager.next.isSimpleUpdateOf manager.prev).2

/-- The queued message is at most the last one processed under the entry. -/
def Reaches (upd : ProcessedUptoStuff) (item : QueueItem) : Prop :=
  item.lt < upd.lastMsgLt ∨ (item.lt = upd.lastMsgLt ∧ item.key.hash ≤ upd.lastMsgHash)

/-- The merged queue and the records belong together: the entries of the queue
are readable under their keys, and the masterchain block of a new entry is the
one whose queues are merged. -/
structure QueuesFit : Prop where
  shard : base.shard.pfx ≠ 0
  prev : manager.prev.shard = base.shard
  next : manager.next.shard = base.shard
  parsed : ∀ item ∈ manager.mergeOutQueueIter base.shard, ∃ enq, item.parse base.bag = .ok enq ∧
    enq.outMsgKey = item.key
  distinct : ((manager.mergeOutQueueIter base.shard).map fun item => item.key.hash).Nodup
  refs : ∀ item ∈ manager.mergeOutQueueIter base.shard, ∀ enq, item.parse base.bag = .ok enq →
    RefsGrow (manager.next.entries ++ manager.prev.entries) enq
  seen : ∀ item ∈ manager.mergeOutQueueIter base.shard, ∀ enq, item.parse base.bag = .ok enq →
    ∀ upd ∈ newEntry manager, ∀ endLt, upd.computeShardEndLt enq.curPrefix = .ok endLt →
      enq.enqueuedLt < endLt
  few : (importRecords base).length < 2 ^ 32

/-- The new entry claims every message that the block imports, all of them not
processed before, and claims no other unprocessed message beyond the last of
them. -/
structure ClaimsImports : Prop where
  imported : ∀ item ∈ manager.mergeOutQueueIter base.shard, ∀ enq,
    item.parse base.bag = .ok enq → ImportedBy base item enq →
    manager.prev.alreadyProcessed enq = .ok false ∧ ∃ upd ∈ newEntry manager, Reaches upd item
  claimed : ∀ item ∈ manager.mergeOutQueueIter base.shard, ∀ enq,
    item.parse base.bag = .ok enq → manager.prev.alreadyProcessed enq = .ok false →
    ∀ upd ∈ newEntry manager, Reaches upd item →
      ∃ last ∈ manager.mergeOutQueueIter base.shard, item.le last ∧
        ∃ enq', last.parse base.bag = .ok enq' ∧ ImportedBy base last enq'

section Counter

variable {base : ValidateBase} {manager : MsgQueueManager} {r r' : ValidateResult}

@[simp] theorem updateMaxProcessedLtHash_total (r : ValidateResult) (lt : ℕ) (hash : UInt256) :
    (r.updateMaxProcessedLtHash lt hash).totalImportedMsgs = r.totalImportedMsgs := by
  unfold ValidateResult.updateMaxProcessedLtHash
  split
  · rfl
  · rfl

variable {env : MsgEnvelope} {createdLt : ℕ}

theorem checkImportedMessage_total {envHash : UInt256}
    (h : checkImportedMessage base manager env envHash createdLt r = .ok r') :
    r'.totalImportedMsgs = r.totalImportedMsgs := by
  simp only [checkImportedMessage, bind_eq_ok, pure_eq_ok] at h
  obtain ⟨⟨cur, next⟩, -, -, -, -, -, -, -, -, -, -, -, -, -, -, -, rfl⟩ := h
  exact updateMaxProcessedLtHash_total _ _ _

variable {m : InMsg}

theorem checkDispatched_total {src : MsgAddressInt}
    (h : checkDispatched base m src env createdLt r = .ok r') :
    r'.totalImportedMsgs = r.totalImportedMsgs := by
  simp only [checkDispatched, bind_eq_ok] at h
  obtain ⟨⟨wc, addr⟩, -, -, -, -, -, -, -, -, -, hlast⟩ := h
  cases m with
  | _ =>
    rw [pure_eq_ok] at hlast
    rw [← hlast]

theorem checkInMsgKind_total {route : InMsgRoute} {fwdFee : ℕ} {outMsg : Option OutMsg}
    (h : checkInMsgKind base manager m env route fwdFee createdLt outMsg r = .ok r') :
    r'.totalImportedMsgs = r.totalImportedMsgs := by
  cases m with
  | immediate info =>
    simp only [checkInMsgKind, bind_eq_ok, pure_eq_ok] at h
    obtain ⟨-, -, -, -, -, -, -, -, rfl⟩ := h
    rfl
  | final info =>
    rw [checkInMsgKind] at h
    split_ifs at h with hown
    · simp only [bind_eq_ok, pure_eq_ok] at h
      obtain ⟨-, -, r1, rfl, -, -, rfl⟩ := h
      rfl
    · simp only [bind_eq_ok, pure_eq_ok] at h
      obtain ⟨-, -, r1, himport, -, -, rfl⟩ := h
      exact checkImportedMessage_total himport
  | deferredFinal info =>
    simp only [checkInMsgKind, bind_eq_ok, pure_eq_ok] at h
    obtain ⟨-, -, rfl⟩ := h
    rfl
  | transit info =>
    simp only [checkInMsgKind, bind_eq_ok] at h
    obtain ⟨-, -, out, -, himport⟩ := h
    split_ifs at himport with hown
    · simp only [bind_eq_ok, pure_eq_ok] at himport
      obtain ⟨-, -, rfl⟩ := himport
      rfl
    · rw [seq_eq_ok] at himport
      exact checkImportedMessage_total himport.2
  | deferredTransit inMsg outMsg =>
    simp only [checkInMsgKind, bind_eq_ok, pure_eq_ok] at h
    obtain ⟨-, -, rfl⟩ := h
    rfl
  | _ => exact absurd h (reject_ne_ok _ _)

def countRecord (m : InMsg) (n : ℕ) : ℕ := if isImport m then (n + 1) % 2 ^ 32 else n

theorem beginInMsg_total {key : UInt256} {b : Bool} {fwdFee : ℕ}
    (h : beginInMsg base key m env createdLt r = .ok (r', b, fwdFee)) :
    r'.totalImportedMsgs = countRecord m r.totalImportedMsgs := by
  cases m with
  | immediate info =>
    simp only [beginInMsg, pure_eq_ok, Prod.mk.injEq] at h
    rw [← h.1]
    split_ifs with hspecial
    · rfl
    · exact updateMaxProcessedLtHash_total _ _ _
    · exact updateMaxProcessedLtHash_total _ _ _
  | final info | transit info | deferredFinal info | deferredTransit inMsg outMsg =>
    simp only [beginInMsg, pure_eq_ok, Prod.mk.injEq] at h
    rw [← h.1]
    rfl
  | _ => exact absurd h (reject_ne_ok _ _)

theorem checkInMsg_total {key : UInt256} (h : checkInMsg base manager key m r = .ok r') :
    r'.totalImportedMsgs = countRecord m r.totalImportedMsgs := by
  by_cases hm : ∃ msg t, m = .external msg t
  · obtain ⟨msg, t, rfl⟩ := hm
    simp only [checkInMsg, bind_eq_ok, pure_eq_ok] at h
    obtain ⟨-, -, -, -, -, -, -, -, -, -, ⟨wc, addr⟩, -, -, -, -, -, -, -, rfl⟩ := h
    rfl
  · obtain ⟨env, msg, -, -, hinternal⟩ := checkInMsg_internal h fun msg t heq => hm ⟨msg, t, heq⟩
    simp only [checkInternalInMsg, bind_eq_ok, pure_eq_ok] at hinternal
    obtain ⟨⟨r1, fromDispatchQueue, fwdFee⟩, hbegin, -, -, route, -, -, -, r2, hdispatch, reimport,
      -, r3, hkind, -, -, -, -, -, -, rfl⟩ := hinternal
    have hr2 : r2.totalImportedMsgs = r1.totalImportedMsgs := by
      rw [checkOrigin] at hdispatch
      split_ifs at hdispatch with hfrom
      · exact checkDispatched_total hdispatch
      · rw [pure_eq_ok] at hdispatch
        exact congrArg (·.totalImportedMsgs) hdispatch.symm
    calc r3.totalImportedMsgs = r2.totalImportedMsgs := checkInMsgKind_total hkind
      _ = r1.totalImportedMsgs := hr2
      _ = countRecord m r.totalImportedMsgs := beginInMsg_total hbegin

theorem runTasks_total {l : List (Σ _ : UInt256, InMsg × ImportFees)}
    (h : runTasks (l.map fun e => checkInMsg base manager e.1 e.2.1) r = .ok r')
    (hr : r.totalImportedMsgs < 2 ^ 32) : r'.totalImportedMsgs =
      (r.totalImportedMsgs + (l.filter fun e => isImport e.2.1).length) % 2 ^ 32 := by
  induction l generalizing r with
  | nil =>
    cases h
    exact (Nat.mod_eq_of_lt hr).symm
  | cons e l ih =>
    rw [List.map_cons, runTasks, List.foldlM_cons, bind_eq_ok] at h
    obtain ⟨r1, hhead, htail⟩ := h
    have hr1 := checkInMsg_total hhead
    rw [countRecord] at hr1
    by_cases hm : isImport e.2.1
    · rw [if_pos hm] at hr1
      rw [ih htail (by omega), hr1]
      simp only [List.filter_cons, hm, if_true, List.length_cons]
      omega
    · rw [if_neg hm] at hr1
      rw [ih htail (by omega), hr1]
      simp only [List.filter_cons, if_neg hm]

/-- Whatever the order of the tasks, the counter ends at the number of import
records. -/
theorem TasksPass.total (h : TasksPass (checkInMsgDescr base manager) r r')
    (hr : r.totalImportedMsgs = 0) : r'.totalImportedMsgs = (importRecords base).length % 2 ^ 32 := by
  obtain ⟨order, hperm, hrun⟩ := h
  obtain ⟨l, rfl, hl⟩ := (congrFun₂ (List.eq_map_comp_perm _) order _).mpr hperm
  rw [runTasks_total hrun (by omega), hr, Nat.zero_add, importRecords, (hl.filter _).length_eq]

theorem checkProcessedUpto_total (h : checkProcessedUpto base manager r = .ok r') :
    r'.totalImportedMsgs = r.totalImportedMsgs := by
  simp only [checkProcessedUpto, bind_eq_ok, pure_eq_ok] at h
  obtain ⟨-, -, -, -, claimed, -, -, -, -, -, rfl⟩ := h
  rfl

end Counter

section Scan

variable {base : ValidateBase} {manager : MsgQueueManager} {r : ValidateResult}

def StatusFacts (base : ValidateBase) (manager : MsgQueueManager) (enq : MsgEnqueueStuff)
    (key : OutMsgQueueKey) : MsgProcessedStatus → Prop
  | .notProcessed =>
    manager.prev.alreadyProcessed enq = .ok false ∧ manager.next.alreadyProcessed enq = .ok false
  | .processedInPreviousBlock =>
    manager.prev.alreadyProcessed enq = .ok true ∧ manager.next.alreadyProcessed enq = .ok true ∧
      base.inMsgDescr.get key.hash = none
  | .processedInThisBlock =>
    manager.prev.alreadyProcessed enq = .ok false ∧ manager.next.alreadyProcessed enq = .ok true ∧
      importedEnvelope (base.inMsgDescr.get key.hash) = .ok enq.envelopeHash

variable {enq : MsgEnqueueStuff}

theorem checkNeighbor_status {key : OutMsgQueueKey} {status : MsgProcessedStatus}
    (h : checkNeighborOutboundMessageProcessed base manager enq key r = .ok status) :
    StatusFacts base manager enq key status := by
  simp only [checkNeighborOutboundMessageProcessed, bind_eq_ok] at h
  obtain ⟨-, -, f0, hf0, f1, hf1, hrest⟩ := h
  cases f0 with
  | true =>
    cases f1 with
    | true =>
      simp only [bind_eq_ok, require_eq_ok, pure_eq_ok] at hrest
      obtain ⟨-, hnone, -, -, rfl⟩ := hrest
      exact ⟨hf0, hf1, Option.isNone_iff_eq_none.mp hnone⟩
    | false => exact absurd hrest (reject_ne_ok _ _)
  | false =>
    cases f1 with
    | true =>
      simp only [bind_eq_ok, require_eq_ok, pure_eq_ok] at hrest
      obtain ⟨-, -, hash, himport, -, rfl, rfl⟩ := hrest
      exact ⟨hf0, hf1, himport⟩
    | false =>
      rw [pure_eq_ok] at hrest
      subst hrest
      exact ⟨hf0, hf1⟩

variable {item : QueueItem}

theorem importedBy_iff : ImportedBy base item enq ↔
      importedEnvelope (base.inMsgDescr.get item.key.hash) = .ok enq.envelopeHash := by
  unfold ImportedBy
  cases hget : base.inMsgDescr.get item.key.hash with
  | none => simp [importedEnvelope]
  | some m => cases m with
    | final info | transit info | _ => simp [importedEnvelope]

/-- A message found processed before the block is settled: it has no record. -/
theorem settled_of_previous (hparse : item.parse base.bag = .ok enq)
    (h : StatusFacts base manager enq item.key .processedInPreviousBlock) :
    Settled base manager item := by
  intro enq' hparse'
  cases hparse.symm.trans hparse'
  obtain ⟨hprev, -, hnone⟩ := h
  rw [importedBy_iff, hnone]
  constructor
  · rintro ⟨-, hfalse⟩
    cases hprev.symm.trans hfalse
  · intro himport
    exact absurd himport (reject_ne_ok _ _)

/-- A message found processed by the block is settled: it has its record. -/
theorem settled_of_this (hparse : item.parse base.bag = .ok enq)
    (h : StatusFacts base manager enq item.key .processedInThisBlock) :
    Settled base manager item := by
  intro enq' hparse'
  cases hparse.symm.trans hparse'
  obtain ⟨hprev, hnext, himport⟩ := h
  exact ⟨fun _ => importedBy_iff.mpr himport, fun _ => ⟨hnext, hprev⟩⟩

/-- What a message of the queue before `item` can be to the scan: it stops at an
unprocessed one, and counts the newly processed ones. -/
theorem checkInQueueLoop_reaches {n : ℕ} {before after : List QueueItem} {b : Bool}
    (h : checkInQueueLoop base manager r (n + 1) (before ++ item :: after) = .ok b) :
    (∃ stop ∈ before ++ [item], ∃ enq, stop.parse base.bag = .ok enq ∧
        StatusFacts base manager enq stop.key .notProcessed) ∨
      (∃ counted : List QueueItem, counted.Sublist before ∧ counted.length = n + 1 ∧
        ∀ x ∈ counted, ∃ enq, x.parse base.bag = .ok enq ∧
          StatusFacts base manager enq x.key .processedInThisBlock) ∨
      Settled base manager item := by
  induction before generalizing n with
  | nil =>
    rw [List.nil_append, checkInQueueLoop, bind_eq_ok] at h
    obtain ⟨enq, hparse, h⟩ := h
    rw [bind_eq_ok] at h
    obtain ⟨status, hstatus, -⟩ := h
    have hfacts := checkNeighbor_status hstatus
    cases status with
    | notProcessed => exact .inl ⟨item, by simp, enq, hparse, hfacts⟩
    | processedInPreviousBlock => exact .inr (.inr (settled_of_previous hparse hfacts))
    | processedInThisBlock => exact .inr (.inr (settled_of_this hparse hfacts))
  | cons x before ih =>
    rw [List.cons_append, checkInQueueLoop, bind_eq_ok] at h
    obtain ⟨enq, hparse, h⟩ := h
    rw [bind_eq_ok] at h
    obtain ⟨status, hstatus, hrest⟩ := h
    have hfacts := checkNeighbor_status hstatus
    cases status with
    | notProcessed => exact .inl ⟨x, by simp, enq, hparse, hfacts⟩
    | processedInPreviousBlock =>
      rcases ih hrest with ⟨stop, hmem, hstop⟩ | ⟨counted, hsub, hrest⟩ | hsettled
      · exact .inl ⟨stop, List.mem_cons_of_mem _ hmem, hstop⟩
      · exact .inr (.inl ⟨counted, hsub.cons _, hrest⟩)
      · exact .inr (.inr hsettled)
    | processedInThisBlock =>
      have hx : ∃ enq, x.parse base.bag = .ok enq ∧
          StatusFacts base manager enq x.key .processedInThisBlock := ⟨enq, hparse, hfacts⟩
      cases n with
      | zero => exact .inr (.inl ⟨[x], by simp, rfl, by simpa using hx⟩)
      | succ n =>
        rcases ih (by simpa using hrest) with ⟨stop, hmem, hstop⟩ | ⟨counted, hsub, hlen, hall⟩ |
          hsettled
        · exact .inl ⟨stop, List.mem_cons_of_mem _ hmem, hstop⟩
        · refine .inr (.inl ⟨x :: counted, hsub.cons_cons _, by simp [hlen], ?_⟩)
          exact List.forall_mem_cons.mpr ⟨hx, hall⟩
        · exact .inr (.inr hsettled)

end Scan

section Records

variable {entries : List ProcessedUptoStuff} {e p : ProcessedUptoStuff} {enq : MsgEnqueueStuff}

/-- What an entry marks, where the end lt of the message's shard is known. -/
structure Marks (e : ProcessedUptoStuff) (enq : MsgEnqueueStuff) (endLt : ℕ) : Prop where
  reached : enq.lt < e.lastMsgLt ∨ (enq.lt = e.lastMsgLt ∧ enq.messageHash ≤ e.lastMsgHash)
  next : ShardIdent.contains e.shard enq.nextPrefix.pfx = true
  origin : (enq.sameWorkchain = true ∧ ShardIdent.contains e.shard enq.curPrefix.pfx = true) ∨
    enq.enqueuedLt < endLt

theorem alreadyProcessed_iff {endLt : ℕ} (h : e.computeShardEndLt enq.curPrefix = .ok endLt) :
    ∃ b : Bool, e.alreadyProcessed enq = .ok b ∧ (b = true ↔ Marks e enq endLt) := by
  rw [ProcessedUptoStuff.alreadyProcessed, h]
  have hreached (hlt : ¬ e.lastMsgLt < enq.lt)
      (hhash : ¬ (enq.lt = e.lastMsgLt ∧ e.lastMsgHash < enq.messageHash)) :
      enq.lt < e.lastMsgLt ∨ (enq.lt = e.lastMsgLt ∧ enq.messageHash ≤ e.lastMsgHash) := by
    have hle (heq : enq.lt = e.lastMsgLt) : enq.messageHash ≤ e.lastMsgHash :=
      not_lt.mp fun hless => hhash ⟨heq, hless⟩
    rcases Nat.lt_or_eq_of_le (not_lt.mp hlt) with hless | heq
    · exact .inl hless
    · exact .inr ⟨heq, hle heq⟩
  split_ifs with hlt hnext hhash hsame
  · refine ⟨false, rfl, nofun, fun hm => ?_⟩
    have hm := hm.reached
    omega
  · refine ⟨false, rfl, nofun, fun hm => ?_⟩
    rcases hm.reached with hless | ⟨-, hle⟩
    · omega
    · exact absurd hhash.2 (not_lt.mpr hle)
  · exact ⟨true, rfl, fun _ => ⟨hreached hlt hhash, hnext, .inl hsame⟩, fun _ => rfl⟩
  · refine ⟨decide (enq.enqueuedLt < endLt), rfl, ?_⟩
    rw [decide_eq_true_eq]
    exact ⟨fun hend => ⟨hreached hlt hhash, hnext, .inr hend⟩, fun hm => hm.origin.resolve_left hsame⟩
  · exact ⟨false, rfl, nofun, fun hm => absurd hm.next hnext⟩

theorem ProcessedUptoStuff.contains_iff : p.contains e = true ↔
    ShardIdent.isAncestor p.shard e.shard = true ∧ e.seqno ≤ p.seqno ∧ (e.lastMsgLt < p.lastMsgLt ∨
      (p.lastMsgLt = e.lastMsgLt ∧ e.lastMsgHash ≤ p.lastMsgHash)) := by
  simp [ProcessedUptoStuff.contains, and_assoc]

theorem RefsGrow.marks_of_contains (h : RefsGrow entries enq) (he : e ∈ entries) (hp : p ∈ entries)
    (hcontains : p.contains e = true) (hmarks : e.alreadyProcessed enq = .ok true) :
    p.alreadyProcessed enq = .ok true := by
  obtain ⟨a, ha⟩ := h.known e he
  obtain ⟨b, hb⟩ := h.known p hp
  obtain ⟨k, hk⟩ := ShardIdent.exists_tagAt (h.tagged p hp)
  obtain ⟨m, hm⟩ := ShardIdent.exists_tagAt (h.tagged e he)
  obtain ⟨hanc, hseqno, hlast⟩ := ProcessedUptoStuff.contains_iff.mp hcontains
  have hab := h.grows e he p hp hseqno a b ha hb
  obtain ⟨_, heq, hiff⟩ := alreadyProcessed_iff ha
  cases hmarks.symm.trans heq
  obtain ⟨hreached, hnext, horigin⟩ := hiff.mp rfl
  obtain ⟨done, hdone, hiff'⟩ := alreadyProcessed_iff hb
  rw [hdone, hiff'.mpr]
  refine ⟨?_, hk.contains_of_isAncestor hm hanc hnext, ?_⟩
  · rcases hlast with hless | ⟨heq, hle⟩
    · omega
    · rcases hreached with hlt | ⟨hlt, hhash⟩
      · omega
      · exact .inr ⟨hlt.trans heq.symm, hhash.trans hle⟩
  · rcases horigin with ⟨hsame, hcur⟩ | hend
    · exact .inl ⟨hsame, hk.contains_of_isAncestor hm hanc hcur⟩
    · exact .inr (by omega)

theorem RefsGrow.anyProcessed_iff (h : RefsGrow entries enq) {l : List ProcessedUptoStuff}
    (hl : l ⊆ entries) : ∃ b : Bool, OutMsgQueueInfoStuff.anyProcessed enq l = .ok b ∧
      (b = true ↔ ∃ e ∈ l, e.alreadyProcessed enq = .ok true) := by
  induction l with
  | nil => exact ⟨false, rfl, by simp⟩
  | cons e l ih =>
    obtain ⟨endLt, hend⟩ := h.known e (hl (by simp))
    obtain ⟨done, hdone, -⟩ := alreadyProcessed_iff hend
    obtain ⟨b, hb, hiff⟩ := ih fun x hx => hl (by simp [hx])
    rw [OutMsgQueueInfoStuff.anyProcessed, hdone]
    cases done with
    | true => exact ⟨true, rfl, by simp [hdone]⟩
    | false => exact ⟨b, hb, by simp [hdone, hiff]⟩

theorem RefsGrow.alreadyProcessed_iff (h : RefsGrow entries enq) {q : OutMsgQueueInfoStuff}
    (hq : q.entries ⊆ entries) (hshard : q.shard.containsFullPrefix enq.nextPrefix = true) :
    ∃ b : Bool, q.alreadyProcessed enq = .ok b ∧
      (b = true ↔ ∃ e ∈ q.entries, e.alreadyProcessed enq = .ok true) := by
  rw [OutMsgQueueInfoStuff.alreadyProcessed, if_pos hshard]
  exact h.anyProcessed_iff hq

theorem RefsGrow.marked_of_contains {q q' : OutMsgQueueInfoStuff}
    (h : RefsGrow (q.entries ++ q'.entries) enq) (hcontains : q'.contains q = true)
    (hshard : q'.shard.containsFullPrefix enq.nextPrefix = true)
    (hmarked : q.alreadyProcessed enq = .ok true) : q'.alreadyProcessed enq = .ok true := by
  rw [OutMsgQueueInfoStuff.alreadyProcessed] at hmarked
  split_ifs at hmarked with hown
  · obtain ⟨b, hb, hiff⟩ := h.anyProcessed_iff (List.subset_append_left q.entries q'.entries)
    cases hmarked.symm.trans hb
    obtain ⟨e, he, hmarks⟩ := hiff.mp rfl
    obtain ⟨p, hp, hpe⟩ := List.any_eq_true.mp (List.all_eq_true.mp hcontains e he)
    obtain ⟨b', hb', hiff'⟩ := h.alreadyProcessed_iff (List.subset_append_right q.entries _) hshard
    rw [hb', hiff'.mpr ⟨p, hp, h.marks_of_contains (by simp [he]) (by simp [hp]) hpe hmarks⟩]
  · cases hmarked

/-- A simple update holds the new entry, and every entry the old records do not
contain. -/
theorem newEntries_eq {other : OutMsgQueueInfoStuff} {l : List ProcessedUptoStuff}
    {found r : Option ProcessedUptoStuff}
    (h : OutMsgQueueInfoStuff.newEntries other l found = (true, r)) :
    (∀ x ∈ found, r = some x) ∧ (∀ x ∈ l, other.containsValue x = false → r = some x) ∧
      ∀ x ∈ r, x ∈ found ∨ x ∈ l := by
  induction l generalizing found with
  | nil =>
    cases h
    simp
  | cons e l ih =>
    rw [OutMsgQueueInfoStuff.newEntries] at h
    split_ifs at h with hold hsome
    · obtain ⟨hfound, hnew, hmem⟩ := ih h
      refine ⟨hfound, List.forall_mem_cons.mpr ⟨fun hnot => ?_, hnew⟩, fun x hx => ?_⟩
      · cases hold.symm.trans hnot
      · exact (hmem x hx).imp_right (List.mem_cons_of_mem _)
    · cases h
    · obtain ⟨hfound, hnew, hmem⟩ := ih h
      have he := hfound e rfl
      rw [Bool.not_eq_true, Option.isSome_eq_false_iff, Option.isNone_iff_eq_none] at hsome
      subst hsome
      refine ⟨nofun, List.forall_mem_cons.mpr ⟨fun _ => he, hnew⟩, fun x hx => ?_⟩
      cases he.symm.trans hx
      exact .inr (by simp)

end Records

section Claimed

variable {base : ValidateBase} {manager : MsgQueueManager} {item : QueueItem} {enq : MsgEnqueueStuff}

theorem parse_lt {bag : Bag} (h : item.parse bag = .ok enq) : enq.lt = item.lt := by
  simp only [QueueItem.parse, MsgEnqueueStuff.constructFrom, MsgEnqueueStuff.checkedNew, bind_eq_ok,
    pure_eq_ok] at h
  obtain ⟨-, -, -, -, -, -, rfl⟩ := h
  rfl

theorem mem_mergeOutQueueIter_next {shard : ShardIdent}
    (h : item ∈ manager.mergeOutQueueIter shard) :
    shard.containsFullPrefix item.key.nextPrefix = true := by
  rw [mergeOutQueueIter, List.mem_insertionSort, List.mem_flatMap] at h
  obtain ⟨nb, -, hitem⟩ := h
  exact (List.mem_filter.mp hitem).2

/-- The new entry is one of the new records, and the only one the old records do
not contain. -/
theorem simpleUpdate_newEntry {next prev : OutMsgQueueInfoStuff} {upd : Option ProcessedUptoStuff}
    (h : next.isSimpleUpdateOf prev = (true, upd)) :
    (∀ e ∈ upd, e ∈ next.entries) ∧
      ∀ e ∈ next.entries, prev.containsValue e = false → upd = some e := by
  rw [OutMsgQueueInfoStuff.isSimpleUpdateOf] at h
  split_ifs at h with hmore hsame
  · cases h
    refine ⟨nofun, fun e he hnot => ?_⟩
    cases hnot.symm.trans (List.all_eq_true.mp hsame e he)
  · obtain ⟨-, hnew, hmem⟩ := newEntries_eq h
    exact ⟨fun e he => (hmem e he).resolve_left nofun, hnew⟩
  · cases h

theorem checkProcessedUpto_newEntry {r r' : ValidateResult}
    (h : checkProcessedUpto base manager r = .ok r') :
    manager.next.isSimpleUpdateOf manager.prev = (true, newEntry manager) ∧
      ∀ upd ∈ newEntry manager, upd.shard = base.shard.pfx := by
  simp only [checkProcessedUpto, bind_eq_ok, require_eq_ok] at h
  obtain ⟨-, -, -, hsimple, claimed, hclaimed, -⟩ := h
  refine ⟨Prod.ext hsimple rfl, fun upd hupd => ?_⟩
  rw [← newEntry, hupd] at hclaimed
  simp only [claimedProcessed, bind_eq_ok, require_eq_ok] at hclaimed
  obtain ⟨-, hshard, -⟩ := hclaimed
  exact hshard

variable {r r' : ValidateResult}

/-- A queued message is newly marked if the old records do not mark it and the
new entry reaches it. -/
theorem QueuesFit.marked_iff (hfit : QueuesFit base manager)
    (hupto : checkProcessedUpto base manager r = .ok r')
    (hitem : item ∈ manager.mergeOutQueueIter base.shard) (hparse : item.parse base.bag = .ok enq) :
    MarkedProcessed manager enq ↔ manager.prev.alreadyProcessed enq = .ok false ∧
      ∃ upd ∈ newEntry manager, Reaches upd item := by
  obtain ⟨hsimple, hshard⟩ := checkProcessedUpto_newEntry hupto
  obtain ⟨hmem, honly⟩ := simpleUpdate_newEntry hsimple
  have hrefs := hfit.refs item hitem enq hparse
  have hkey : enq.outMsgKey = item.key := by
    obtain ⟨enq', hparse', hkey⟩ := hfit.parsed item hitem
    cases hparse.symm.trans hparse'
    exact hkey
  have hnext : base.shard.containsFullPrefix enq.nextPrefix = true := by
    have hbound := mem_mergeOutQueueIter_next hitem
    rwa [← hkey] at hbound
  have hreach (e : ProcessedUptoStuff) : Reaches e item ↔ enq.lt < e.lastMsgLt ∨
      (enq.lt = e.lastMsgLt ∧ enq.messageHash ≤ e.lastMsgHash) := by
    rw [Reaches, ← hkey, parse_lt hparse]
    rfl
  obtain ⟨b, hb, hiff⟩ := hrefs.alreadyProcessed_iff (List.subset_append_left _ _)
    (by rwa [hfit.next])
  rw [MarkedProcessed, and_comm, hb, Except.ok.injEq, hiff]
  refine and_congr_right fun hprev => ⟨?_, ?_⟩
  · rintro ⟨e, he, hmarks⟩
    have hnew : newEntry manager = some e := by
      apply honly e he
      rw [Bool.eq_false_iff]
      intro hold
      -- an old record that contains the entry would mark the message itself
      obtain ⟨p, hp, hpe⟩ := List.any_eq_true.mp hold
      obtain ⟨b', hb', hiff'⟩ := hrefs.alreadyProcessed_iff (List.subset_append_right _ _)
        (by rwa [hfit.prev])
      have hp' := hiff'.mpr ⟨p, hp, hrefs.marks_of_contains (by simp [he]) (by simp [hp]) hpe hmarks⟩
      rw [hb', hp'] at hprev
      cases hprev
    obtain ⟨endLt, hend⟩ := hrefs.known e (by simp [he])
    obtain ⟨done, hdone, hmarksIff⟩ := alreadyProcessed_iff hend
    cases hmarks.symm.trans hdone
    exact ⟨e, hnew, (hreach e).mpr (hmarksIff.mp rfl).reached⟩
  · rintro ⟨upd, hupd, hle⟩
    have he := hmem upd hupd
    obtain ⟨endLt, hend⟩ := hrefs.known upd (by simp [he])
    obtain ⟨done, hdone, hmarksIff⟩ := alreadyProcessed_iff hend
    obtain ⟨k, hk⟩ := ShardIdent.exists_tagAt hfit.shard
    have hmarks : Marks upd enq endLt := by
      refine ⟨(hreach upd).mp hle, ?_, .inr (hfit.seen item hitem enq hparse upd hupd endLt hend)⟩
      rw [hshard upd hupd]
      exact hk.contains_of_containsFullPrefix hnext
    rw [hmarksIff.mpr hmarks] at hdone
    exact ⟨upd, he, hdone⟩

theorem queueItem_le_iff (a b : QueueItem) :
    a.le b ↔ toLex (a.lt, a.key.hash) ≤ toLex (b.lt, b.key.hash) := by
  rw [Prod.Lex.toLex_le_toLex]
  rfl

theorem Reaches.mono {upd : ProcessedUptoStuff} {a b : QueueItem} (h : Reaches upd b)
    (hle : a.le b) : Reaches upd a := by
  have hiff (x : QueueItem) : Reaches upd x ↔
      toLex (x.lt, x.key.hash) ≤ toLex (upd.lastMsgLt, upd.lastMsgHash) := by
    rw [Prod.Lex.toLex_le_toLex]
    rfl
  rw [hiff] at h ⊢
  exact ((queueItem_le_iff a b).mp hle).trans h

instance : Std.Total QueueItem.le where
  total a b := by
    rw [queueItem_le_iff, queueItem_le_iff]
    exact le_total _ _

instance : IsTrans QueueItem QueueItem.le where
  trans a b c := by
    rw [queueItem_le_iff, queueItem_le_iff, queueItem_le_iff]
    exact le_trans

theorem pairwise_mergeOutQueueIter (manager : MsgQueueManager) (shard : ShardIdent) :
    (manager.mergeOutQueueIter shard).Pairwise QueueItem.le :=
  List.pairwise_insertionSort _ _

theorem ImportedBy.mem_importRecords (h : ImportedBy base item enq) :
    item.key.hash ∈ (importRecords base).map Sigma.fst := by
  have hrecord : ∃ m y, base.inMsgDescr.getWithAug item.key.hash = some (m, y) ∧ isImport m = true := by
    rcases h with ⟨info, hget, -⟩ | ⟨info, hget, -⟩
    · obtain ⟨y, hy⟩ := (base.inMsgDescr.get_eq_some _ _).mp hget
      exact ⟨_, y, hy, rfl⟩
    · obtain ⟨y, hy⟩ := (base.inMsgDescr.get_eq_some _ _).mp hget
      exact ⟨_, y, hy, rfl⟩
  obtain ⟨m, y, hget, him⟩ := hrecord
  exact List.mem_map.mpr ⟨⟨item.key.hash, m, y⟩,
    List.mem_filter.mpr ⟨(base.inMsgDescr.mem_entries_iff _ _).mpr hget, him⟩, rfl⟩

/-- When the scan has counted as many messages as there are import records, every
record belongs to a counted message. -/
theorem mem_counted {counted : List QueueItem} (hnodup : (counted.map (·.key.hash)).Nodup)
    (hlen : counted.length = (importRecords base).length)
    (hall : ∀ x ∈ counted, ∃ enq, x.parse base.bag = .ok enq ∧ ImportedBy base x enq) {key : UInt256}
    (hkey : key ∈ (importRecords base).map Sigma.fst) : ∃ x ∈ counted, x.key.hash = key := by
  have hsub : counted.map (·.key.hash) ⊆ (importRecords base).map Sigma.fst := by
    intro k hk
    obtain ⟨x, hx, rfl⟩ := List.mem_map.mp hk
    obtain ⟨enq, -, himported⟩ := hall x hx
    exact himported.mem_importRecords
  have hperm := (List.subperm_of_subset hnodup hsub).perm_of_length_le (by simp [hlen])
  exact List.mem_map.mp (hperm.mem_iff.mpr hkey)

/-- A message that is newly marked and not after the last imported one is
imported: the scan gets to it. -/
theorem QueuesFit.imported_of_le (hfit : QueuesFit base manager)
    (hupto : checkProcessedUpto base manager r = .ok r')
    (hcount : r'.totalImportedMsgs = (importRecords base).length) {b : Bool}
    (hqueue : checkInQueue base manager r' = .ok b)
    (hitem : item ∈ manager.mergeOutQueueIter base.shard) (hparse : item.parse base.bag = .ok enq)
    (hmarked : MarkedProcessed manager enq) {last : QueueItem} {enq' : MsgEnqueueStuff}
    (hlast : last ∈ manager.mergeOutQueueIter base.shard) (hle : item.le last)
    (hparse' : last.parse base.bag = .ok enq') (himported : ImportedBy base last enq') :
    ImportedBy base item enq := by
  have hkey := himported.mem_importRecords
  obtain ⟨n, hn⟩ : ∃ n, (importRecords base).length = n + 1 := by
    refine Nat.exists_eq_add_one_of_ne_zero fun hzero => ?_
    rw [List.length_eq_zero_iff.mp hzero] at hkey
    cases hkey
  obtain ⟨before, after, hsplit⟩ := List.append_of_mem hitem
  have hsorted := pairwise_mergeOutQueueIter manager base.shard
  have hsame {x y : QueueItem} (hx : x ∈ manager.mergeOutQueueIter base.shard)
      (hy : y ∈ manager.mergeOutQueueIter base.shard) (h : x.key.hash = y.key.hash) : x = y :=
    List.inj_on_of_nodup_map hfit.distinct hx hy h
  have hbefore : ∀ x ∈ before, x ∈ manager.mergeOutQueueIter base.shard ∧ x.le item := by
    rw [hsplit, List.pairwise_append] at hsorted
    intro x hx
    exact ⟨by simp [hsplit, hx], hsorted.2.2 x hx item (by simp)⟩
  rw [checkInQueue, hcount, hn, if_neg (Nat.succ_ne_zero n), hsplit] at hqueue
  rcases checkInQueueLoop_reaches hqueue with ⟨stop, hstop, enq'', hparse'', hfacts⟩ |
    ⟨counted, hsub, hlen, hall⟩ | hsettled
  · -- the new entry reaches the message the scan stopped at, so that one is marked
    obtain ⟨hstopMem, hstopLe⟩ : stop ∈ manager.mergeOutQueueIter base.shard ∧ stop.le item := by
      rcases List.mem_append.mp hstop with hmem | hmem
      · exact hbefore stop hmem
      · rw [List.mem_singleton.mp hmem]
        exact ⟨hitem, (queueItem_le_iff _ _).mpr le_rfl⟩
    obtain ⟨-, upd, hupd, hreach⟩ := (hfit.marked_iff hupto hitem hparse).mp hmarked
    have hmarkedStop := (hfit.marked_iff hupto hstopMem hparse'').mpr
      ⟨hfacts.1, upd, hupd, hreach.mono hstopLe⟩
    cases hmarkedStop.1.symm.trans hfacts.2
  · -- all records are used up before the message, also that of the last one
    have hcounted : (counted.map (·.key.hash)).Nodup := by
      have hdistinct := hfit.distinct
      rw [hsplit] at hdistinct
      exact hdistinct.sublist ((hsub.trans (List.sublist_append_left _ _)).map _)
    obtain ⟨x, hx, hxlast⟩ := mem_counted hcounted (hlen.trans hn.symm)
      (fun x hx => by
        obtain ⟨enq, hparse, -, -, himport⟩ := hall x hx
        exact ⟨enq, hparse, importedBy_iff.mpr himport⟩) hkey
    obtain ⟨hxmem, hxle⟩ := hbefore x (hsub.subset hx)
    cases hsame hxmem hlast hxlast
    have heq := le_antisymm ((queueItem_le_iff _ _).mp hle) ((queueItem_le_iff _ _).mp hxle)
    cases hsame hitem hlast (congrArg (fun k => (ofLex k).2) heq)
    cases hparse.symm.trans hparse'
    exact himported
  · exact (hsettled enq hparse).mp hmarked

end Claimed

def validateInbound : Checked Bool := do
  let r ← runTasks (checkInMsgDescr base manager) .new
  let r ← checkProcessedUpto base manager r
  checkInQueue base manager r

theorem validateInbound_ok {base : ValidateBase} {manager : MsgQueueManager}
    (h : (validateInbound base manager).isOk = true) :
    ∃ r1 r2 b, TasksPass (checkInMsgDescr base manager) .new r1 ∧
      checkProcessedUpto base manager r1 = .ok r2 ∧ checkInQueue base manager r2 = .ok b := by
  obtain ⟨b, hb⟩ := exists_of_isOk h
  simp only [validateInbound, bind_eq_ok] at hb
  obtain ⟨r1, hrun, r2, hupto, hqueue⟩ := hb
  exact ⟨r1, r2, b, .of_run hrun, hupto, hqueue⟩

section Transfer

/-! Two messages from the masterchain to an account of workchain 0 (cells 1 and 4,
envelopes 2 and 5). Transaction 3 processes the first. -/

def mcAddress : MsgAddressInt := .addrStd none 0xff#8 zeroId

def workchainAddress : MsgAddressInt := .addrStd none 0#8 zeroId

def transferMessage (createdLt : ℕ) : Message :=
  .intMsgInfo ⟨some mcAddress, workchainAddress, .fromCoins 100, 0, createdLt⟩

def transferEnvelope (msg : Cell) : MsgEnvelope := ⟨.regular 0, .regular 96, 0, msg, 0, none⟩

def transferTransaction : Transaction :=
  ⟨zeroId, 11, 0, 0, 0, 0, true, some 1, .empty, .zero, ⟨0, 0⟩, .ordinary⟩

def transferBag : Bag where
  message := fun c =>
    if c = 1 then some (transferMessage 5) else if c = 4 then some (transferMessage 8) else none
  envelope := fun c =>
    if c = 2 then some (transferEnvelope 1) else if c = 5 then some (transferEnvelope 4) else none
  inMsg := fun _ => none
  transaction := fun c => if c = 3 then some transferTransaction else none
  account := fun _ => none
  serializeEnvelope := fun _ => 0
  emptyAccount := 0

def fullShard : ShardIdent := ⟨0, shardFull⟩

def freshQueue : OutMsgQueueInfoStuff :=
  ⟨fullShard, .empty 0, 0, [], 0, 10, false, zero_size_lt, length_empty_lt⟩

def claimedQueue (lastMsgLt : ℕ) (lastMsgHash : UInt256) : OutMsgQueueInfoStuff :=
  { freshQueue with entries := [⟨shardFull, 1, lastMsgLt, lastMsgHash, 100, some []⟩] }

def firstTransfer : QueueItem := ⟨⟨⟨0, 0⟩, 1⟩, ⟨5, 2⟩, 5⟩

def secondTransfer : QueueItem := ⟨⟨⟨0, 0⟩, 4⟩, ⟨8, 5⟩, 8⟩

def mcQueue : OutMsgQueueInfoStuff :=
  ⟨⟨masterchainId, shardFull⟩,
    ⟨8, some (.fork 8 (.leaf firstTransfer.key 5 firstTransfer.enq)
      (.leaf secondTransfer.key 8 secondTransfer.enq)), List.nodup_iff_pairwise_ne.mpr (by decide)⟩,
    2, [], 0, 10, false, by decide, by decide⟩

def transferManager (lastMsgLt : ℕ) (lastMsgHash : UInt256) : MsgQueueManager :=
  ⟨freshQueue, claimedQueue lastMsgLt lastMsgHash, [mcQueue]⟩

def skippingBlock : ValidateBase :=
  .emptyBlock transferBag fullShard ⟨10, 20, 0, false, false, false⟩

def importingBlock : ValidateBase :=
  { skippingBlock with
    inMsgDescr := .singleton 1 ⟨0, .fromCoins 100⟩ (.final ⟨2, 3, 0⟩)
    accountBlocks := .singleton zeroId .zero ⟨zeroId, .singleton 11 3, ⟨0, 0⟩⟩ }

def transferEnqueued (item : QueueItem) (msg : Cell) : MsgEnqueueStuff :=
  ⟨item.enq, ⟨transferEnvelope msg, transferMessage item.lt, ⟨masterchainId, 0⟩, ⟨0, 0⟩⟩, item.lt⟩

/-- Both messages are bound for the shard, and readable. -/
theorem mem_transfers {lastMsgLt : ℕ} {lastMsgHash : UInt256} {item : QueueItem} {enq : MsgEnqueueStuff}
    (hitem : item ∈ (transferManager lastMsgLt lastMsgHash).mergeOutQueueIter fullShard)
    (hparse : item.parse transferBag = .ok enq) :
    (item = firstTransfer ∧ enq = transferEnqueued firstTransfer 1) ∨
      (item = secondTransfer ∧ enq = transferEnqueued secondTransfer 4) := by
  change item ∈ MsgQueueManager.mergeOutQueueIter ⟨freshQueue, freshQueue, [mcQueue]⟩ fullShard at hitem
  have hmerge : MsgQueueManager.mergeOutQueueIter ⟨freshQueue, freshQueue, [mcQueue]⟩ fullShard =
      [firstTransfer, secondTransfer] := by
    decide +kernel
  rw [hmerge, List.mem_cons, List.mem_singleton] at hitem
  rcases hitem with rfl | rfl
  · cases hparse
    exact .inl ⟨rfl, rfl⟩
  · cases hparse
    exact .inr ⟨rfl, rfl⟩

theorem transfers_fit : QueuesFit importingBlock (transferManager 5 1) where
  shard := by decide
  prev := rfl
  next := rfl
  parsed := by
    have hmerge : (transferManager 5 1).mergeOutQueueIter importingBlock.shard =
        [firstTransfer, secondTransfer] := by
      decide +kernel
    rw [hmerge]
    exact List.forall_mem_cons.mpr ⟨⟨transferEnqueued firstTransfer 1, rfl, rfl⟩,
      List.forall_mem_singleton.mpr ⟨transferEnqueued secondTransfer 4, rfl, rfl⟩⟩
  distinct := by decide +kernel
  refs item hitem enq hparse := by
    have hentries : (transferManager 5 1).next.entries ++ (transferManager 5 1).prev.entries =
        [⟨shardFull, 1, 5, 1, 100, some []⟩] := by
      decide
    have hknown : ∃ endLt, ProcessedUptoStuff.computeShardEndLt ⟨shardFull, 1, 5, 1, 100, some []⟩
        enq.curPrefix = .ok endLt := by
      rcases mem_transfers hitem hparse with ⟨-, rfl⟩ | ⟨-, rfl⟩
      · exact ⟨100, rfl⟩
      · exact ⟨100, rfl⟩
    rw [hentries]
    refine ⟨by decide, by simpa using hknown, fun e he p hp _ a b ha hb => ?_⟩
    cases List.mem_singleton.mp he
    cases List.mem_singleton.mp hp
    cases ha.symm.trans hb
    exact le_rfl
  seen item hitem enq hparse upd hupd endLt hend := by
    have hnew : newEntry (transferManager 5 1) = some ⟨shardFull, 1, 5, 1, 100, some []⟩ := by
      decide +kernel
    cases hnew.symm.trans hupd
    rcases mem_transfers hitem hparse with ⟨-, rfl⟩ | ⟨-, rfl⟩
    · cases hend
      decide
    · cases hend
      decide
  few := by decide +kernel

end Transfer

end TonNode.Validator
