import TonNode.ValidatorOutMsg

/-! The change of the outbound queue. `precheck_message_queue_update` goes through
the differences of the old and the new queue and looks for the record of each;
the check of a record looks for its entries in both queues. Together they make
the recorded changes the actual ones, except that a requeued transit message is
never let through. -/
namespace TonNode.Validator

open Block Checked
open AugDict (get_eq_some sizeChange scanDiff mem_scanDiff)
open MsgEnqueueStuff (fromEnqueue)
open OutMsgQueueInfoStuff (message)

section Model

abbrev QueueDiff := OutMsgQueueKey × Option (EnqueuedMsg × ℕ) × Option (EnqueuedMsg × ℕ)

def fitsChange (dequeue : Bool) : OutMsg → Bool
  | .new _ _ => !dequeue
  | .transit _ _ => !dequeue
  | .deferredTransit _ _ => !dequeue
  | .dequeue _ _ => dequeue
  | .dequeueImmediate _ _ => dequeue
  | .dequeueShort _ _ _ _ => dequeue
  | .transitRequeued _ _ => true
  | _ => false

variable (base : ValidateBase)

/-- The record has the envelope of the entry. For the removed entry of a requeued
message the code compares the hash of the new envelope with that of the message,
and asks for an immediate import. -/
def checkChangeEnvelope (key : OutMsgQueueKey) (enq : MsgEnqueueStuff) (dequeue : Bool)
    (outMsg : OutMsg) : Checked Unit :=
  match dequeue, outMsg with
  | true, .transitRequeued outMsg imported => do
    require (outMsg = key.hash) "MsgEnvelope contains a Message with incorrect hash"
    let inMsg ← base.bag.readInMsg imported
    match inMsg with
    | .immediate info =>
      require (info.inMsg = enq.envelopeHash)
        "reimport InMsgDescr contains a MsgEnvelope distinct from that in the old queue"
    | _ => reject "reimport InMsgDescr with invalid tag instead of msg_import_tr$100"
  | _, outMsg =>
    require (outMsg.envelopeMessageHash = some enq.envelopeHash)
      "OutMsgDescr contains a MsgEnvelope distinct from that in the queue"

def checkQueueChange (key : OutMsgQueueKey) (enq : MsgEnqueueStuff) (dequeue : Bool) :
    Checked Unit := do
  let outMsg ← present (base.outMsgDescr.get key.hash) "no OutMsgDescr corresponding to message"
  require (fitsChange dequeue outMsg) "OutMsgDescr corresponding to message has invalid tag"
  checkChangeEnvelope base key enq dequeue outMsg
  require (enq.messageHash = key.hash) "OutMsgDescr contains a message with different hash"
  require (enq.outMsgKey = key) "MsgEnvelope should be stored under different key"

/-- `precheck_one_message_queue_update`; the size is a 64-bit counter. -/
def precheckOneMessageQueueUpdate (size : ℕ) : QueueDiff → Checked ℕ
  | (_, some _, some _) => reject "EnqueuedMsg has been changed, but the key did not change"
  | (key, none, some (newEnq, lt)) => do
    require (base.info.startLt ≤ newEnq.enqueuedLt ∧ newEnq.enqueuedLt < base.info.endLt)
      "new EnqueuedMsg has enqueued_lt outside of this block's range"
    let enq ← fromEnqueue base.bag newEnq lt
    checkQueueChange base key enq false
    pure ((size + 1) % 2 ^ 64)
  | (key, some (oldEnq, lt), none) => do
    require (oldEnq.enqueuedLt < base.info.startLt)
      "EnqueuedMsg has enqueued_lt greater than or equal to this block's start_lt"
    let enq ← fromEnqueue base.bag oldEnq lt
    checkQueueChange base key enq true
    pure ((size + (2 ^ 64 - 1)) % 2 ^ 64)
  | (_, none, none) => pure size

def precheckMessageQueueUpdate (manager : MsgQueueManager) : Checked Unit := do
  let expected ← (scanDiff manager.prev.outQueue manager.next.outQueue).foldlM
    (precheckOneMessageQueueUpdate base) manager.prev.outQueueSize
  require (manager.next.outQueueSize = expected)
    "outbound message queue size in the new state is not correct"

end Model

section Transition

def envelopeKey (bag : Bag) (e : Cell) : Checked OutMsgQueueKey := do
  let envelope ← bag.readEnvelope e
  let stuff ← MsgEnvelopeStuff.fromEnvelope bag envelope
  pure ⟨stuff.nextPrefix, envelope.msg⟩

variable (base : ValidateBase)

def Enqueues (h : UInt256) (m : OutMsg) (k : OutMsgQueueKey) (e : Cell) : Prop :=
  addsToQueue m ∧ m.msgEnvelopeCell = some e ∧ envelopeKey base.bag e = .ok k ∧ k.hash = h

/-- The record listed under `h` takes envelope `e`, queued under `k`, out of the
queue. A requeued message leaves with the envelope it was imported in. -/
inductive Dequeues (base : ValidateBase) (h : UInt256) : OutMsg → OutMsgQueueKey → Cell → Prop where
  | dequeue {e : Cell} {lt : ℕ} {k : OutMsgQueueKey} (hkey : envelopeKey base.bag e = .ok k)
      (hhash : k.hash = h) : Dequeues base h (.dequeue e lt) k e
  | dequeueImmediate {e reimport : Cell} {k : OutMsgQueueKey}
      (hkey : envelopeKey base.bag e = .ok k) (hhash : k.hash = h) :
      Dequeues base h (.dequeueImmediate e reimport) k e
  | dequeueShort {e : Cell} {wc : BitVec 32} {pfx : BitVec 64} {lt : ℕ} :
      Dequeues base h (.dequeueShort e wc pfx lt) ⟨⟨wc, pfx⟩, h⟩ e
  | transitRequeued {out imported : Cell} {info : InMsgTransit} {k : OutMsgQueueKey}
      (himported : base.bag.inMsg imported = some (.transit info))
      (hlisted : base.inMsgDescr.get h = some (.transit info))
      (hkey : envelopeKey base.bag info.inMsg = .ok k) (hhash : k.hash = h) :
      Dequeues base h (.transitRequeued out imported) k info.inMsg

variable (manager : MsgQueueManager)

def Delivered (k : OutMsgQueueKey) : Prop :=
  ∃ enq, manager.prev.message base.bag k = .ok (some enq) ∧
    ∃ nb ∈ manager.neighbors, nb.disabled = false ∧ nb.alreadyProcessed enq = .ok true

def Reimported (h : UInt256) (e : Cell) : Prop :=
  ∃ m, base.inMsgDescr.get h = some m ∧ m.inMsgEnvelopeCell = some e

/-- The new queue is the old one with exactly the recorded changes. -/
structure QueueTransition : Prop where
  /-- What the records add was not there and is there now. -/
  added : ∀ h m, base.outMsgDescr.get h = some m → addsToQueue m →
    ∃ k e enq, Enqueues base h m k e ∧ manager.prev.outQueue.get k = none ∧
      manager.next.outQueue.get k = some enq ∧ enq.outMsg = e
  /-- What the records remove was there and no longer is. -/
  removed : ∀ h m, base.outMsgDescr.get h = some m → removesFromQueue m →
    ∃ k e enq, Dequeues base h m k e ∧ manager.prev.outQueue.get k = some enq ∧
      enq.outMsg = e ∧ manager.next.outQueue.get k = none
  /-- Nothing else changes. -/
  recorded : ∀ k, manager.prev.outQueue.getWithAug k ≠ manager.next.outQueue.getWithAug k →
    ∃ h m e, base.outMsgDescr.get h = some m ∧ (Enqueues base h m k e ∨ Dequeues base h m k e)
  /-- Entries come and go under the key of their own envelope. -/
  ownKey : ∀ k enq, (manager.prev.outQueue.get k = none ∧ manager.next.outQueue.get k = some enq) ∨
      (manager.prev.outQueue.get k = some enq ∧ manager.next.outQueue.get k = none) →
    envelopeKey base.bag enq.outMsg = .ok k
  /-- An entry leaves when it is delivered or imported by this block. -/
  justified : ∀ k enq, manager.prev.outQueue.get k = some enq → manager.next.outQueue.get k = none →
    Delivered base manager k ∨ Reimported base k.hash enq.outMsg
  /-- The stored size follows the number of entries. -/
  size : (manager.next.outQueueSize : ℤ) - manager.prev.outQueueSize =
    (manager.next.outQueue.entries.length : ℤ) - manager.prev.outQueue.entries.length

/-- The records describe a transition of the queue between well-formed entries:
they parse, new ones are enqueued during the block and old ones before it. -/
structure DescribedTransition : Prop extends QueueTransition base manager where
  enqueuedNow : ∀ k enq lt, manager.prev.outQueue.getWithAug k = none →
    manager.next.outQueue.getWithAug k = some (enq, lt) →
    (base.info.startLt ≤ enq.enqueuedLt ∧ enq.enqueuedLt < base.info.endLt) ∧
      ∃ stuff, fromEnqueue base.bag enq lt = .ok stuff
  enqueuedBefore : ∀ k enq lt, manager.prev.outQueue.getWithAug k = some (enq, lt) →
    manager.next.outQueue.getWithAug k = none → enq.enqueuedLt < base.info.startLt ∧
      ∃ stuff, fromEnqueue base.bag enq lt = .ok stuff

def QueueUpdateAccepted : Prop :=
  precheckMessageQueueUpdate base manager = .ok () ∧
    ∃ r r', TasksPass (checkInMsgDescr base manager ++ checkOutMsgDescr base manager) r r'

def RequeuesTransit : Prop :=
  ∃ h out imported, base.outMsgDescr.get h = some (.transitRequeued out imported)

end Transition

section Entries

variable {bag : Bag} {enq : EnqueuedMsg} {lt : ℕ} {stuff : MsgEnqueueStuff}

theorem checkedNew_eq_ok {env : MsgEnvelopeStuff}
    (h : MsgEnqueueStuff.checkedNew enq env lt = .ok stuff) : stuff.enq = enq ∧ stuff.env = env := by
  simp only [MsgEnqueueStuff.checkedNew, bind_eq_ok, pure_eq_ok] at h
  obtain ⟨-, -, rfl⟩ := h
  exact ⟨rfl, rfl⟩

theorem fromEnqueue_key (h : fromEnqueue bag enq lt = .ok stuff) :
    stuff.envelopeHash = enq.outMsg ∧ envelopeKey bag enq.outMsg = .ok stuff.outMsgKey := by
  simp only [fromEnqueue, bind_eq_ok] at h
  obtain ⟨envelope, henvelope, env, henv, hnew⟩ := h
  have hparts : stuff.enq = enq ∧ stuff.env = env := by
    split_ifs at hnew with hlt
    · rw [bind_eq_ok] at hnew
      obtain ⟨createdLt, -, hnew⟩ := hnew
      exact checkedNew_eq_ok hnew
    · exact checkedNew_eq_ok hnew
  have henvEq : env.env = envelope := by
    simp only [MsgEnvelopeStuff.fromEnvelope, bind_eq_ok, pure_eq_ok] at henv
    obtain ⟨-, -, -, -, -, -, -, -, -, -, -, -, -, -, rfl⟩ := henv
    rfl
  refine ⟨by rw [MsgEnqueueStuff.envelopeHash, hparts.1], ?_⟩
  simp only [envelopeKey, bind_eq_ok, pure_eq_ok]
  refine ⟨envelope, henvelope, env, henv, ?_⟩
  rw [MsgEnqueueStuff.outMsgKey, MsgEnqueueStuff.nextPrefix, MsgEnqueueStuff.messageHash, hparts.2,
    henvEq]

variable {q : OutMsgQueueInfoStuff} {k : OutMsgQueueKey}

theorem get_eq_none {q : OutMsgQueue} : q.get k = none ↔ q.getWithAug k = none := by
  simp [AugDict.get]

theorem message_eq_none : q.message bag k = .ok none ↔ q.outQueue.get k = none := by
  rw [get_eq_none]
  cases hget : q.outQueue.getWithAug k with
  | none => simp [message, hget]
  | some entry =>
    simp only [message, hget, bind_eq_ok, pure_eq_ok]
    simp

theorem message_entry (h : q.message bag k = .ok (some stuff)) :
    ∃ enq, q.outQueue.get k = some enq ∧ stuff.envelopeHash = enq.outMsg := by
  cases hget : q.outQueue.getWithAug k with
  | none => simp [message, hget] at h
  | some entry =>
    simp only [message, hget, bind_eq_ok, pure_eq_ok] at h
    obtain ⟨_, hstuff, hsome⟩ := h
    cases hsome
    exact ⟨entry.1, (AugDict.get_eq_some _ _ _).mpr ⟨entry.2, hget⟩, (fromEnqueue_key hstuff).1⟩

end Entries

section Precheck

variable {base : ValidateBase} {manager : MsgQueueManager} {k : OutMsgQueueKey}
  {stuff : MsgEnqueueStuff} {m : OutMsg}

theorem fitsChange_eq (dequeue : Bool) (m : OutMsg) :
    fitsChange dequeue m = if dequeue then removesFromQueue m else addsToQueue m := by
  cases dequeue with
  | false | true => cases m with | _ => rfl

theorem checkQueueChange_eq_ok {dequeue : Bool} : checkQueueChange base k stuff dequeue = .ok () ↔
      ∃ m, base.outMsgDescr.get k.hash = some m ∧ fitsChange dequeue m ∧
        checkChangeEnvelope base k stuff dequeue m = .ok () ∧ stuff.outMsgKey = k := by
  simp only [checkQueueChange, bind_eq_ok, present_eq_ok, require_eq_ok]
  constructor
  · rintro ⟨m, hm, -, hfits, ⟨⟩, henv, -, -, hkey⟩
    exact ⟨m, hm, hfits, henv, hkey⟩
  · rintro ⟨m, hm, hfits, henv, hkey⟩
    exact ⟨m, hm, (), hfits, (), henv, (), by rw [← hkey]; rfl, hkey⟩

theorem checkChangeEnvelope_eq_ok {dequeue : Bool}
    (hm : dequeue = true → ∀ out imported, m ≠ .transitRequeued out imported) :
    checkChangeEnvelope base k stuff dequeue m = .ok () ↔
      m.envelopeMessageHash = some stuff.envelopeHash := by
  cases dequeue with
  | false => rw [checkChangeEnvelope, require_eq_ok]; simp
  | true =>
    cases m with
    | transitRequeued out imported => exact absurd rfl (hm rfl out imported)
    | _ => simp [checkChangeEnvelope]

def ChangePassed (base : ValidateBase) : QueueDiff → Prop
  | (_, some _, some _) => False
  | (k, none, some (enq, lt)) =>
    (base.info.startLt ≤ enq.enqueuedLt ∧ enq.enqueuedLt < base.info.endLt) ∧
      ∃ stuff, fromEnqueue base.bag enq lt = .ok stuff ∧
        checkQueueChange base k stuff false = .ok ()
  | (k, some (enq, lt), none) =>
    enq.enqueuedLt < base.info.startLt ∧ ∃ stuff, fromEnqueue base.bag enq lt = .ok stuff ∧
        checkQueueChange base k stuff true = .ok ()
  | (_, none, none) => True

def countChange (size : ℕ) : QueueDiff → ℕ
  | (_, none, some _) => (size + 1) % 2 ^ 64
  | (_, some _, none) => (size + (2 ^ 64 - 1)) % 2 ^ 64
  | _ => size

theorem precheckOneMessageQueueUpdate_eq_ok (size : ℕ) (d : QueueDiff) (size' : ℕ) :
    precheckOneMessageQueueUpdate base size d = .ok size' ↔
      ChangePassed base d ∧ countChange size d = size' := by
  obtain ⟨k, old, new⟩ := d
  cases old with
  | none =>
    cases new with
    | none => simp [precheckOneMessageQueueUpdate, ChangePassed, countChange]
    | some entry =>
      simp only [precheckOneMessageQueueUpdate, ChangePassed, countChange, bind_eq_ok,
        require_eq_ok, pure_eq_ok, ← and_assoc, exists_and_right, Unique.exists_iff,
        PUnit.default_eq_unit]
  | some entry =>
    cases new with
    | none =>
      simp only [precheckOneMessageQueueUpdate, ChangePassed, countChange, bind_eq_ok,
        require_eq_ok, pure_eq_ok, ← and_assoc, exists_and_right, Unique.exists_iff,
        PUnit.default_eq_unit]
    | some entry' => simp [precheckOneMessageQueueUpdate, ChangePassed]

theorem countChange_lt {size : ℕ} (h : size < 2 ^ 64) (d : QueueDiff) :
    countChange size d < 2 ^ 64 := by
  obtain ⟨k, old, new⟩ := d
  cases old with
  | none =>
    cases new with
    | none => exact h
    | some entry => exact Nat.mod_lt _ (by norm_num)
  | some entry =>
    cases new with
    | none => exact Nat.mod_lt _ (by norm_num)
    | some entry' => exact h

/-- The counter follows the number of entries, as far as 64 bits can tell. -/
theorem countChange_modEq (size : ℕ) (d : QueueDiff) :
    (countChange size d : ℤ) ≡ size + sizeChange d [ZMOD 2 ^ 64] := by
  obtain ⟨k, old, new⟩ := d
  cases old with
  | none =>
    cases new with
    | none => simp [countChange, sizeChange]
    | some entry =>
      simp only [countChange, sizeChange, Int.ModEq]
      push_cast
      simp
  | some entry =>
    cases new with
    | none =>
      simp only [countChange, sizeChange, Int.ModEq]
      push_cast
      simp
      omega
    | some entry' => simp [countChange, sizeChange]

theorem foldl_countChange (l : List QueueDiff) {size : ℕ} (hsize : size < 2 ^ 64) :
    l.foldl countChange size < 2 ^ 64 ∧
      ((l.foldl countChange size : ℕ) : ℤ) ≡ size + (l.map sizeChange).sum [ZMOD 2 ^ 64] := by
  induction l generalizing size with
  | nil => exact ⟨hsize, by simp⟩
  | cons d l ih =>
    obtain ⟨hlt, hmod⟩ := ih (countChange_lt hsize d)
    refine ⟨hlt, hmod.trans ?_⟩
    have hstep := (countChange_modEq size d).add_right (l.map sizeChange).sum
    simpa [add_assoc] using hstep

/-- The counted size is the stored one exactly when the stored sizes differ by the
difference of the entries: neither is near the width of the counter. -/
theorem counted_size_iff (manager : MsgQueueManager) : manager.next.outQueueSize =
        (scanDiff manager.prev.outQueue manager.next.outQueue).foldl countChange
          manager.prev.outQueueSize ↔ (manager.next.outQueueSize : ℤ) - manager.prev.outQueueSize =
        (manager.next.outQueue.entries.length : ℤ) - manager.prev.outQueue.entries.length := by
  have hprev := manager.prev.size_lt
  have hnext := manager.next.size_lt
  have hprevLen := manager.prev.length_lt
  have hnextLen := manager.next.length_lt
  obtain ⟨hlt, hmod⟩ := foldl_countChange (scanDiff manager.prev.outQueue manager.next.outQueue)
    (show manager.prev.outQueueSize < 2 ^ 64 by omega)
  rw [AugDict.sum_sizeChange, Int.ModEq] at hmod
  omega

theorem precheckMessageQueueUpdate_eq_ok : precheckMessageQueueUpdate base manager = .ok () ↔
      (∀ d ∈ scanDiff manager.prev.outQueue manager.next.outQueue, ChangePassed base d) ∧
        (manager.next.outQueueSize : ℤ) - manager.prev.outQueueSize =
          (manager.next.outQueue.entries.length : ℤ) - manager.prev.outQueue.entries.length := by
  rw [← counted_size_iff]
  simp only [precheckMessageQueueUpdate, bind_eq_ok, require_eq_ok,
    foldlM_eq_ok_iff precheckOneMessageQueueUpdate_eq_ok]
  constructor
  · rintro ⟨size, ⟨hpassed, rfl⟩, hsize⟩
    exact ⟨hpassed, hsize⟩
  · rintro ⟨hpassed, hsize⟩
    exact ⟨_, ⟨hpassed, rfl⟩, hsize⟩

end Precheck

section Accepted

variable {base : ValidateBase} {manager : MsgQueueManager} {k : OutMsgQueueKey} {enq : EnqueuedMsg}
  {h : UInt256} {m : OutMsg}

section Passed

variable (hpassed : ∀ d ∈ scanDiff manager.prev.outQueue manager.next.outQueue, ChangePassed base d)

include hpassed

theorem passed_added (hprev : manager.prev.outQueue.get k = none)
    (hnext : manager.next.outQueue.get k = some enq) :
    envelopeKey base.bag enq.outMsg = .ok k ∧
      ∃ m, base.outMsgDescr.get k.hash = some m ∧ addsToQueue m ∧
        m.envelopeMessageHash = some enq.outMsg := by
  obtain ⟨lt, hlt⟩ := (get_eq_some _ _ _).mp hnext
  obtain ⟨-, stuff, hstuff, hcheck⟩ := hpassed (k, none, some (enq, lt))
    ((mem_scanDiff _ _ _ _ _).mpr ⟨get_eq_none.mp hprev, hlt, by simp⟩)
  obtain ⟨m, hm, hfits, henv, hkey⟩ := checkQueueChange_eq_ok.mp hcheck
  obtain ⟨hhash, hown⟩ := fromEnqueue_key hstuff
  rw [checkChangeEnvelope_eq_ok (by simp), hhash] at henv
  rw [fitsChange_eq] at hfits
  exact ⟨by rw [hown, hkey], m, hm, hfits, henv⟩

theorem passed_removed (hprev : manager.prev.outQueue.get k = some enq)
    (hnext : manager.next.outQueue.get k = none) :
    envelopeKey base.bag enq.outMsg = .ok k ∧
      ∃ m stuff, base.outMsgDescr.get k.hash = some m ∧ removesFromQueue m ∧
        stuff.envelopeHash = enq.outMsg ∧ checkChangeEnvelope base k stuff true m = .ok () := by
  obtain ⟨lt, hlt⟩ := (get_eq_some _ _ _).mp hprev
  obtain ⟨-, stuff, hstuff, hcheck⟩ := hpassed (k, some (enq, lt), none)
    ((mem_scanDiff _ _ _ _ _).mpr ⟨hlt, get_eq_none.mp hnext, by simp⟩)
  obtain ⟨m, hm, hfits, henv, hkey⟩ := checkQueueChange_eq_ok.mp hcheck
  obtain ⟨hhash, hown⟩ := fromEnqueue_key hstuff
  rw [fitsChange_eq] at hfits
  exact ⟨by rw [hown, hkey], m, stuff, hm, hfits, hhash, henv⟩

/-- The removed entry of a requeued message does not pass: its import is a transit. -/
theorem requeued_not_passed {out imported : Cell}
    (hm : base.outMsgDescr.get k.hash = some (.transitRequeued out imported))
    {info : InMsgTransit} (himported : base.bag.inMsg imported = some (.transit info))
    (hprev : manager.prev.outQueue.get k = some enq) (hnext : manager.next.outQueue.get k = none) :
    False := by
  obtain ⟨-, m, stuff, hm', -, -, hcheck⟩ := passed_removed hpassed hprev hnext
  cases hm.symm.trans hm'
  simp only [checkChangeEnvelope, Bag.readInMsg, himported, present, bind_eq_ok] at hcheck
  obtain ⟨-, -, inMsg, hin, hreject⟩ := hcheck
  cases hin
  exact reject_ne_ok _ _ hreject

end Passed

variable {r r' : ValidateResult}

/-- What the check of a record that changes the queue finds in the two queues. -/
theorem checkQueueUpdate_entries {route : OutMsgRoute} {envHash : UInt256}
    {oldQEntry qEntry : Option MsgEnqueueStuff}
    (hcheck : checkQueueUpdate m route envHash oldQEntry qEntry r = .ok r') :
    (addsToQueue m → oldQEntry = none ∧ ∃ stuff, qEntry = some stuff ∧
      stuff.envelopeHash = envHash) ∧
    (addsToQueue m = false → removesFromQueue m → qEntry = none ∧ ∃ stuff, oldQEntry = some stuff ∧
      stuff.envelopeHash = envHash) := by
  have hentry : (addsToQueue m ∨ removesFromQueue m) →
      checkQueueEntry m envHash oldQEntry qEntry = .ok () := by
    intro hchanges
    cases m with
    | newDefer env t => simp [addsToQueue, removesFromQueue] at hchanges
    | _ =>
      simp only [checkQueueUpdate, bind_eq_ok] at hcheck
      obtain ⟨⟨⟩, hok, -⟩ := hcheck
      exact hok
  constructor
  · intro hadds
    have hok := hentry (.inl hadds)
    simp only [checkQueueEntry, bind_eq_ok, require_eq_ok, hadds, if_true, present_eq_ok] at hok
    obtain ⟨-, hnot, -, -, -, -, stuff, rfl, hhash⟩ := hok
    exact ⟨by simpa using hnot, stuff, rfl, hhash⟩
  · intro hadds hremoves
    have hok := hentry (.inr hremoves)
    simp only [checkQueueEntry, bind_eq_ok, require_eq_ok, hadds, hremoves, if_true,
      present_eq_ok, Bool.false_eq_true, if_false] at hok
    obtain ⟨-, hnot, -, -, -, -, stuff, rfl, hhash⟩ := hok
    exact ⟨by simpa using hnot, stuff, rfl, hhash⟩

theorem delivered_neighbor {stuff : MsgEnqueueStuff} {neighbors : List OutMsgQueueInfoStuff}
    (hdone : delivered stuff neighbors = .ok true) :
    ∃ nb ∈ neighbors, nb.disabled = false ∧ nb.alreadyProcessed stuff = .ok true := by
  induction neighbors with
  | nil => cases hdone
  | cons nb rest ih =>
    rw [delivered] at hdone
    split_ifs at hdone with hdisabled
    · obtain ⟨nb', hnb', hrest⟩ := ih hdone
      exact ⟨nb', List.mem_cons_of_mem _ hnb', hrest⟩
    · rw [bind_eq_ok] at hdone
      obtain ⟨done, hnb, hrest⟩ := hdone
      split_ifs at hrest with hd
      · exact ⟨nb, List.mem_cons_self, by simpa using hdisabled, by rw [hnb, hd]⟩
      · obtain ⟨nb', hnb', hrest⟩ := ih hrest
        exact ⟨nb', List.mem_cons_of_mem _ hnb', hrest⟩

/-- A record that only removes names an entry of the old queue that is gone, and
why it may go. -/
theorem passed_dequeue (hcheck : checkOutMsg base manager h m r = .ok r')
    (hremoves : removesFromQueue m) (hadds : addsToQueue m = false) :
    ∃ k enq, k.hash = h ∧ m.envelopeMessageHash = some enq.outMsg ∧
      (∀ e wc pfx lt, m = .dequeueShort e wc pfx lt → k = ⟨⟨wc, pfx⟩, h⟩) ∧
      manager.prev.outQueue.get k = some enq ∧ manager.next.outQueue.get k = none ∧
      (Delivered base manager k ∨ Reimported base k.hash enq.outMsg) := by
  obtain ⟨env, route, envHash, oldQEntry, qEntry, reimport, hpassed⟩ :=
    checkOutMsg_passed hcheck (by rintro msg t rfl; simp [removesFromQueue] at hremoves)
  obtain ⟨r1, r1', hqueue⟩ := hpassed.queue
  obtain ⟨rfl, stuff, rfl, hhash⟩ := (checkQueueUpdate_entries hqueue).2 hadds hremoves
  have hmessage := hpassed.oldQEntry_eq
  obtain ⟨enq, hget, henv⟩ := message_entry hmessage
  refine ⟨⟨route.nextPrefix, h⟩, enq, rfl, ?_, ?_, hget, message_eq_none.mp hpassed.qEntry_eq, ?_⟩
  · rw [hpassed.envHash_eq, ← hhash, henv]
  · rintro e wc pfx lt rfl
    have hroute := hpassed.route_eq
    rw [routeOutMsg, pure_eq_ok] at hroute
    rw [← hroute]
  · obtain ⟨r2, r2', hkind⟩ := hpassed.kind
    cases m with
    | dequeue e lt | dequeueShort e wc pfx lt =>
      simp only [checkOutMsgKind, bind_eq_ok, present_eq_ok, require_eq_ok] at hkind
      obtain ⟨stuff', hstuff', done, hdone, -, rfl, -⟩ := hkind
      cases hstuff'
      exact .inl ⟨stuff, hmessage, delivered_neighbor hdone⟩
    | dequeueImmediate e cell =>
      have hreimport := hpassed.reimport_eq
      simp only [checkReimport, OutMsg.reimportCell, bind_eq_ok, present_eq_ok, require_eq_ok,
        pure_eq_ok] at hreimport
      obtain ⟨inMsg, hin, reimport', -, -, rfl, rfl⟩ := hreimport
      cases inMsg with
      | final info =>
        simp only [checkOutMsgKind, bind_eq_ok, require_eq_ok] at hkind
        obtain ⟨-, hinfo, -⟩ := hkind
        refine .inr ⟨.final info, hin, ?_⟩
        rw [InMsg.inMsgEnvelopeCell, hinfo, ← hhash, henv]
      | _ => exact absurd hkind (reject_ne_ok _ _)
    | transitRequeued out imported => cases hadds
    | _ => cases hremoves

theorem passed_enqueue (hcheck : checkOutMsg base manager h m r = .ok r') (hadds : addsToQueue m) :
    ∃ k enq, k.hash = h ∧ m.envelopeMessageHash = some enq.outMsg ∧
      manager.prev.outQueue.get k = none ∧ manager.next.outQueue.get k = some enq := by
  obtain ⟨env, route, envHash, oldQEntry, qEntry, reimport, hpassed⟩ :=
    checkOutMsg_passed hcheck (by rintro msg t rfl; simp [addsToQueue] at hadds)
  obtain ⟨r1, r1', hqueue⟩ := hpassed.queue
  obtain ⟨rfl, stuff, rfl, hhash⟩ := (checkQueueUpdate_entries hqueue).1 hadds
  obtain ⟨enq, hget, henv⟩ := message_entry hpassed.qEntry_eq
  refine ⟨⟨route.nextPrefix, h⟩, enq, rfl, ?_, message_eq_none.mp hpassed.oldQEntry_eq, hget⟩
  rw [hpassed.envHash_eq, ← hhash, henv]

/-- A passed record of a requeued message names the removed entry too. -/
theorem passed_requeue {out imported : Cell}
    (hcheck : checkOutMsg base manager h (.transitRequeued out imported) r = .ok r') :
    ∃ k enq info, k.hash = h ∧ base.bag.inMsg imported = some (.transit info) ∧
      manager.prev.outQueue.get k = some enq ∧ manager.next.outQueue.get k = none := by
  obtain ⟨env, route, envHash, oldQEntry, qEntry, reimport, hpassed⟩ :=
    checkOutMsg_passed hcheck (by simp)
  have hreimport := hpassed.reimport_eq
  simp only [checkReimport, OutMsg.reimportCell, bind_eq_ok, present_eq_ok, require_eq_ok,
    pure_eq_ok, Bag.readInMsg] at hreimport
  obtain ⟨inMsg, -, reimport', himported, -, rfl, rfl⟩ := hreimport
  obtain ⟨r2, r2', hkind⟩ := hpassed.kind
  cases inMsg with
  | transit info =>
    simp only [checkOutMsgKind, bind_eq_ok, present_eq_ok, require_eq_ok] at hkind
    obtain ⟨inNextPrefix, -, q, hq, old, hold, stuff, rfl, -, rfl, -⟩ := hkind
    obtain ⟨enq, hget, -⟩ := message_entry hold
    exact ⟨⟨inNextPrefix, h⟩, enq, info, rfl, himported, hget, message_eq_none.mp hq⟩
  | _ => exact absurd hkind (reject_ne_ok _ _)

variable (hacc : QueueUpdateAccepted base manager)
include hacc

theorem QueueUpdateAccepted.outMsg (hm : base.outMsgDescr.get h = some m) :
    ∃ r r', checkOutMsg base manager h m r = .ok r' := by
  obtain ⟨-, r, r', htasks⟩ := hacc
  obtain ⟨y, hy⟩ := (get_eq_some _ _ _).mp hm
  apply htasks.rounds
  apply List.mem_append_right
  exact List.mem_map.mpr ⟨⟨h, m, y⟩, (AugDict.mem_entries_iff _ _ _).mpr hy, rfl⟩

theorem QueueUpdateAccepted.passed :
    ∀ d ∈ scanDiff manager.prev.outQueue manager.next.outQueue, ChangePassed base d :=
  (precheckMessageQueueUpdate_eq_ok.mp hacc.1).1

theorem QueueUpdateAccepted.not_requeued : ¬ RequeuesTransit base := by
  rintro ⟨h, out, imported, hm⟩
  obtain ⟨r, r', hcheck⟩ := hacc.outMsg hm
  obtain ⟨k, enq, info, rfl, himported, hprev, hnext⟩ := passed_requeue hcheck
  exact requeued_not_passed hacc.passed hm himported hprev hnext

section

variable (hm : base.outMsgDescr.get h = some m) (hremoves : removesFromQueue m)
include hm hremoves

/-- A record that removes an entry only does that, as nothing is requeued. -/
theorem QueueUpdateAccepted.not_adds : addsToQueue m = false := by
  cases m with
  | transitRequeued out imported => exact absurd ⟨h, out, imported, hm⟩ hacc.not_requeued
  | _ => first | rfl | cases hremoves

theorem QueueUpdateAccepted.dequeues :
    ∃ k enq, Dequeues base h m k enq.outMsg ∧ m.envelopeMessageHash = some enq.outMsg ∧
      manager.prev.outQueue.get k = some enq ∧ manager.next.outQueue.get k = none ∧
      (Delivered base manager k ∨ Reimported base k.hash enq.outMsg) := by
  obtain ⟨r, r', hcheck⟩ := hacc.outMsg hm
  obtain ⟨k, enq, hhash, henv, hshort, hprev, hnext, hwhy⟩ :=
    passed_dequeue hcheck hremoves (hacc.not_adds hm hremoves)
  refine ⟨k, enq, ?_, henv, hprev, hnext, hwhy⟩
  obtain ⟨hkey, -⟩ := passed_removed hacc.passed hprev hnext
  cases m with
  | dequeue e lt =>
    cases henv
    exact .dequeue hkey hhash
  | dequeueImmediate e cell =>
    cases henv
    exact .dequeueImmediate hkey hhash
  | dequeueShort e wc pfx lt =>
    cases henv
    rw [hshort _ _ _ _ rfl]
    exact .dequeueShort
  | transitRequeued out imported => exact absurd ⟨h, out, imported, hm⟩ hacc.not_requeued
  | _ => cases hremoves

end

/-- An entry that is gone was removed by the record under its hash, and the entry
which that record names is this one: both have the same envelope. -/
theorem QueueUpdateAccepted.gone (hprev : manager.prev.outQueue.get k = some enq)
    (hnext : manager.next.outQueue.get k = none) :
    ∃ m, base.outMsgDescr.get k.hash = some m ∧ Dequeues base k.hash m k enq.outMsg ∧
      (Delivered base manager k ∨ Reimported base k.hash enq.outMsg) := by
  obtain ⟨hkey, m, stuff, hm, hremoves, hhash, hcheck⟩ := passed_removed hacc.passed hprev hnext
  obtain ⟨k', enq', hdeq, henv, hprev', hnext', hwhy⟩ := hacc.dequeues hm hremoves
  have hrequeue : ∀ out imported, m ≠ .transitRequeued out imported := by
    rintro out imported rfl
    exact hacc.not_requeued ⟨k.hash, out, imported, hm⟩
  rw [checkChangeEnvelope_eq_ok fun _ => hrequeue, henv, hhash] at hcheck
  have henvEq : enq'.outMsg = enq.outMsg := Option.some.inj hcheck
  obtain ⟨hkey', -⟩ := passed_removed hacc.passed hprev' hnext'
  rw [henvEq, hkey] at hkey'
  cases hkey'
  rw [henvEq] at hdeq hwhy
  exact ⟨m, hm, hdeq, hwhy⟩

theorem QueueUpdateAccepted.transition : QueueTransition base manager where
  added := by
    intro h m hm hadds
    obtain ⟨r, r', hcheck⟩ := hacc.outMsg hm
    obtain ⟨k, enq, hhash, henv, hprev, hnext⟩ := passed_enqueue hcheck hadds
    obtain ⟨hkey, -⟩ := passed_added hacc.passed hprev hnext
    refine ⟨k, enq.outMsg, enq, ⟨hadds, ?_, hkey, hhash⟩, hprev, hnext, rfl⟩
    cases m with
    | dequeueShort e wc pfx lt => cases hadds
    | _ => exact henv
  removed := by
    intro h m hm hremoves
    obtain ⟨k, enq, hdeq, -, hprev, hnext, -⟩ := hacc.dequeues hm hremoves
    exact ⟨k, enq.outMsg, enq, hdeq, hprev, rfl, hnext⟩
  recorded := by
    intro k hne
    have hpassed := hacc.passed (k, _, _) ((mem_scanDiff _ _ _ _ _).mpr ⟨rfl, rfl, hne⟩)
    cases hold : manager.prev.outQueue.getWithAug k with
    | none =>
      cases hnew : manager.next.outQueue.getWithAug k with
      | none => exact absurd (hold.trans hnew.symm) hne
      | some entry =>
        obtain ⟨enq, lt⟩ := entry
        obtain ⟨hkey, m, hm, hadds, henv⟩ := passed_added hacc.passed (get_eq_none.mpr hold)
          ((get_eq_some _ _ _).mpr ⟨lt, hnew⟩)
        refine ⟨k.hash, m, enq.outMsg, hm, .inl ⟨hadds, ?_, hkey, rfl⟩⟩
        cases m with
        | dequeueShort e wc pfx lt => cases hadds
        | _ => exact henv
    | some entry =>
      cases hnew : manager.next.outQueue.getWithAug k with
      | none =>
        obtain ⟨enq, lt⟩ := entry
        obtain ⟨m, hm, hdeq, -⟩ := hacc.gone ((get_eq_some _ _ _).mpr ⟨lt, hold⟩)
          (get_eq_none.mpr hnew)
        exact ⟨k.hash, m, enq.outMsg, hm, .inr hdeq⟩
      | some entry' =>
        rw [hold, hnew] at hpassed
        exact hpassed.elim
  ownKey := by
    rintro k enq (⟨hprev, hnext⟩ | ⟨hprev, hnext⟩)
    · exact (passed_added hacc.passed hprev hnext).1
    · exact (passed_removed hacc.passed hprev hnext).1
  justified := by
    intro k enq hprev hnext
    obtain ⟨m, -, -, hwhy⟩ := hacc.gone hprev hnext
    exact hwhy
  size := (precheckMessageQueueUpdate_eq_ok.mp hacc.1).2

end Accepted

section Described

variable {base : ValidateBase} {manager : MsgQueueManager} {k : OutMsgQueueKey} {enq : EnqueuedMsg}
  {h : UInt256} {m : OutMsg} {e : Cell}

theorem QueueTransition.enqueued (ht : QueueTransition base manager)
    (hm : base.outMsgDescr.get h = some m) (henq : Enqueues base h m k e) :
    manager.prev.outQueue.get k = none ∧
      ∃ enq, manager.next.outQueue.get k = some enq ∧ enq.outMsg = e := by
  obtain ⟨hadds, henv, hkey, hhash⟩ := henq
  obtain ⟨k', e', enq, ⟨-, henv', hkey', -⟩, hprev, hnext, hout⟩ := ht.added h m hm hadds
  cases henv.symm.trans henv'
  cases hkey.symm.trans hkey'
  exact ⟨hprev, enq, hnext, hout⟩

theorem Dequeues.removes (hdeq : Dequeues base h m k e) : removesFromQueue m := by
  cases hdeq with
  | _ => rfl

theorem Dequeues.hash_eq (hdeq : Dequeues base h m k e) : k.hash = h := by
  cases hdeq with
  | dequeue hkey hhash | dequeueImmediate hkey hhash => exact hhash
  | dequeueShort => rfl
  | transitRequeued himported hlisted hkey hhash => exact hhash

theorem Dequeues.unique {k' : OutMsgQueueKey} {e' : Cell} (hdeq : Dequeues base h m k e)
    (hdeq' : Dequeues base h m k' e') : k = k' ∧ e = e' := by
  cases hdeq with
  | dequeue hkey hhash =>
    cases hdeq' with
    | dequeue hkey' hhash' =>
      cases hkey.symm.trans hkey'
      exact ⟨rfl, rfl⟩
  | dequeueImmediate hkey hhash =>
    cases hdeq' with
    | dequeueImmediate hkey' hhash' =>
      cases hkey.symm.trans hkey'
      exact ⟨rfl, rfl⟩
  | dequeueShort =>
    cases hdeq' with
    | dequeueShort => exact ⟨rfl, rfl⟩
  | transitRequeued himported hlisted hkey hhash =>
    cases hdeq' with
    | transitRequeued himported' hlisted' hkey' hhash' =>
      cases himported.symm.trans himported'
      cases hkey.symm.trans hkey'
      exact ⟨rfl, rfl⟩

theorem QueueTransition.dequeued (ht : QueueTransition base manager)
    (hm : base.outMsgDescr.get h = some m) (hdeq : Dequeues base h m k e) :
    (∃ enq, manager.prev.outQueue.get k = some enq ∧ enq.outMsg = e) ∧
      manager.next.outQueue.get k = none := by
  obtain ⟨k', e', enq, hdeq', hprev, hout, hnext⟩ := ht.removed h m hm hdeq.removes
  obtain ⟨rfl, rfl⟩ := hdeq.unique hdeq'
  exact ⟨⟨enq, hprev, hout⟩, hnext⟩

theorem Dequeues.envelopeMessageHash_eq (hdeq : Dequeues base h m k e)
    (hm : ∀ out imported, m ≠ .transitRequeued out imported) : m.envelopeMessageHash = some e := by
  cases hdeq with
  | transitRequeued himported hlisted hkey hhash => exact absurd rfl (hm _ _)
  | _ => rfl

variable (hd : DescribedTransition base manager)
include hd

theorem DescribedTransition.changePassed (hrequeue : ¬ RequeuesTransit base) {d : QueueDiff}
    (hmem : d ∈ scanDiff manager.prev.outQueue manager.next.outQueue) : ChangePassed base d := by
  obtain ⟨k, old, new⟩ := d
  obtain ⟨hold, hnew, hne⟩ := (mem_scanDiff _ _ _ _ _).mp hmem
  subst hold hnew
  obtain ⟨h, m, e, hm, hchange⟩ := hd.recorded k hne
  rcases hchange with henq | hdeq
  · obtain ⟨hprev, enq, hnext, hout⟩ := hd.enqueued hm henq
    obtain ⟨lt, hlt⟩ := (get_eq_some _ _ _).mp hnext
    rw [get_eq_none] at hprev
    obtain ⟨hrange, stuff, hstuff⟩ := hd.enqueuedNow k enq lt hprev hlt
    obtain ⟨hhash, hown⟩ := fromEnqueue_key hstuff
    obtain ⟨hadds, henv, hkey, rfl⟩ := henq
    rw [hprev, hlt]
    refine ⟨hrange, stuff, hstuff, checkQueueChange_eq_ok.mpr ⟨m, hm, ?_, ?_, ?_⟩⟩
    · rw [fitsChange_eq]
      exact hadds
    · rw [checkChangeEnvelope_eq_ok (by simp), hhash, hout]
      cases m with
      | dequeueShort e wc pfx lt => cases hadds
      | _ => exact henv
    · rw [hout, hkey] at hown
      exact (Except.ok.inj hown).symm
  · obtain ⟨⟨enq, hprev, hout⟩, hnext⟩ := hd.dequeued hm hdeq
    have hown := hd.ownKey k enq (.inr ⟨hprev, hnext⟩)
    obtain ⟨lt, hlt⟩ := (get_eq_some _ _ _).mp hprev
    rw [get_eq_none] at hnext
    obtain ⟨hrange, stuff, hstuff⟩ := hd.enqueuedBefore k enq lt hlt hnext
    obtain ⟨hhash, hkey⟩ := fromEnqueue_key hstuff
    obtain rfl := hdeq.hash_eq
    have hnot : ∀ out imported, m ≠ .transitRequeued out imported := by
      rintro out imported rfl
      exact hrequeue ⟨k.hash, out, imported, hm⟩
    rw [hlt, hnext]
    refine ⟨hrange, stuff, hstuff, checkQueueChange_eq_ok.mpr ⟨m, hm, ?_, ?_, ?_⟩⟩
    · rw [fitsChange_eq]
      exact hdeq.removes
    · rw [checkChangeEnvelope_eq_ok fun _ => hnot, hhash, hout]
      exact hdeq.envelopeMessageHash_eq hnot
    · rw [hown] at hkey
      exact (Except.ok.inj hkey).symm

theorem DescribedTransition.requeue_rejected (hrequeue : RequeuesTransit base) :
    precheckMessageQueueUpdate base manager ≠ .ok () := by
  obtain ⟨h, out, imported, hm⟩ := hrequeue
  intro hok
  obtain ⟨k, e, enq, hdeq, hprev, -, hnext⟩ := hd.removed h _ hm rfl
  cases hdeq with
  | transitRequeued himported hlisted hkey hhash =>
    subst hhash
    exact requeued_not_passed (precheckMessageQueueUpdate_eq_ok.mp hok).1 hm himported hprev hnext

end Described

/-- The queue changes of accepted blocks are exactly the recorded ones. Conversely
a block whose records describe the change of the queue passes the precheck, except
when it requeues a transit message. -/
theorem queue_update_exact_iff_not_requeued (base : ValidateBase) (manager : MsgQueueManager) :
    ((QueueUpdateAccepted base manager → QueueTransition base manager) ∧
        (DescribedTransition base manager → precheckMessageQueueUpdate base manager = .ok ())) ↔
      ¬ (DescribedTransition base manager ∧ RequeuesTransit base) := by
  constructor
  · rintro ⟨-, hpre⟩ ⟨hd, hrequeue⟩
    exact hd.requeue_rejected hrequeue (hpre hd)
  · intro hnot
    refine ⟨QueueUpdateAccepted.transition, fun hd => ?_⟩
    have hrequeue : ¬ RequeuesTransit base := fun hr => hnot ⟨hd, hr⟩
    exact precheckMessageQueueUpdate_eq_ok.mpr ⟨fun d hmem => hd.changePassed hrequeue hmem, hd.size⟩

section Requeue

/-! A message (cell 1) from workchain 0 to workchain 1 waits in the queue of its
shard in the envelope 10, whose next hop is in workchain 1 with the prefix of the
source. One block imports it and queues it again in the envelope 11, for the
prefix of its destination; another takes it out once workchain 1 has it. -/

def farId : AccountId := ⟨256, 2 ^ 255, Nat.pow_lt_pow_right (by decide) (by decide)⟩

def crossingMessage : Message :=
  .intMsgInfo ⟨some (.addrStd none 0#8 zeroId), .addrStd none 1#8 farId, .fromCoins 100, 0, 5⟩

def requeueBag : Bag where
  message := fun c => if c = 1 then some crossingMessage else none
  envelope := fun c =>
    if c = 10 then some ⟨.regular 0, .regular 32, 0, 1, 0, none⟩
    else if c = 11 then some ⟨.regular 0, .regular 96, 0, 1, 0, none⟩
    else none
  inMsg := fun c => if c = 20 then some (.transit ⟨10, 11, 0⟩) else none
  transaction := fun _ => none
  account := fun _ => none
  serializeEnvelope := fun _ => 0
  emptyAccount := 0

def requeueBlock : ValidateBase :=
  { ValidateBase.emptyBlock requeueBag ⟨0, shardFull⟩ ⟨10, 20, 0, false, false, true⟩ with
    inMsgDescr := .singleton 1 .zero (.transit ⟨10, 11, 0⟩)
    outMsgDescr := .singleton 1 .zero (.transitRequeued 11 20) }

def requeueKey (pfx : BitVec 64) : OutMsgQueueKey := ⟨⟨1, pfx⟩, 1⟩

def requeueQueue (pfx : BitVec 64) (enq : EnqueuedMsg) : OutMsgQueueInfoStuff :=
  ⟨⟨0, shardFull⟩, .singleton (requeueKey pfx) 5 enq, 1, [], 0, 10, false, one_size_lt,
    by simp [AugDict.singleton, AugDict.entries, AugTree.entries]⟩

def requeueManager : MsgQueueManager :=
  ⟨requeueQueue 0 ⟨5, 10⟩, requeueQueue shardFull ⟨12, 11⟩, []⟩

theorem requeue_prev_get (k : OutMsgQueueKey) : requeueManager.prev.outQueue.getWithAug k =
    if k = requeueKey 0 then some (⟨5, 10⟩, 5) else none :=
  AugDict.getWithAug_singleton _ _ _ _

theorem requeue_next_get (k : OutMsgQueueKey) : requeueManager.next.outQueue.getWithAug k =
    if k = requeueKey shardFull then some (⟨12, 11⟩, 5) else none :=
  AugDict.getWithAug_singleton _ _ _ _

theorem requeue_record {h : UInt256} {m : OutMsg} (hm : requeueBlock.outMsgDescr.get h = some m) :
    h = 1 ∧ m = .transitRequeued 11 20 := by
  rw [requeueBlock, AugDict.get_singleton] at hm
  split_ifs at hm with h1
  exact ⟨h1, (Option.some.inj hm).symm⟩

theorem requeue_enqueues : Enqueues requeueBlock 1 (.transitRequeued 11 20) (requeueKey shardFull) 11 :=
  ⟨rfl, rfl, by decide +kernel, rfl⟩

theorem requeue_dequeues : Dequeues requeueBlock 1 (.transitRequeued 11 20) (requeueKey 0) 10 :=
  @Dequeues.transitRequeued requeueBlock 1 11 20 ⟨10, 11, 0⟩ (requeueKey 0) rfl rfl
    (by decide +kernel) rfl

theorem requeue_described : DescribedTransition requeueBlock requeueManager where
  added := by
    intro h m hm hadds
    obtain ⟨rfl, rfl⟩ := requeue_record hm
    exact ⟨requeueKey shardFull, 11, ⟨12, 11⟩, requeue_enqueues, by decide +kernel,
      by decide +kernel, rfl⟩
  removed := by
    intro h m hm hremoves
    obtain ⟨rfl, rfl⟩ := requeue_record hm
    exact ⟨requeueKey 0, 10, ⟨5, 10⟩, requeue_dequeues, by decide +kernel, rfl, by decide +kernel⟩
  recorded := by
    intro k hne
    rw [requeue_prev_get, requeue_next_get] at hne
    split_ifs at hne with h0 h1 h1
    · exact ⟨1, _, 11, rfl, .inl (h1 ▸ requeue_enqueues)⟩
    · exact ⟨1, _, 10, rfl, .inr (h0 ▸ requeue_dequeues)⟩
    · exact ⟨1, _, 11, rfl, .inl (h1 ▸ requeue_enqueues)⟩
    · exact absurd rfl hne
  ownKey := by
    rintro k enq (⟨-, hnext⟩ | ⟨hprev, -⟩)
    · obtain ⟨lt, hlt⟩ := (get_eq_some _ _ _).mp hnext
      rw [requeue_next_get] at hlt
      split_ifs at hlt with h1
      cases hlt
      rw [h1]
      decide +kernel
    · obtain ⟨lt, hlt⟩ := (get_eq_some _ _ _).mp hprev
      rw [requeue_prev_get] at hlt
      split_ifs at hlt with h0
      cases hlt
      rw [h0]
      decide +kernel
  justified := by
    intro k enq hprev hnext
    obtain ⟨lt, hlt⟩ := (get_eq_some _ _ _).mp hprev
    rw [requeue_prev_get] at hlt
    split_ifs at hlt with h0
    cases hlt
    rw [h0]
    exact .inr ⟨.transit ⟨10, 11, 0⟩, rfl, rfl⟩
  size := by decide
  enqueuedNow := by
    intro k enq lt hprev hnext
    rw [requeue_next_get] at hnext
    split_ifs at hnext with h1
    cases hnext
    exact ⟨by decide, exists_of_isOk (by decide +kernel)⟩
  enqueuedBefore := by
    intro k enq lt hprev hnext
    rw [requeue_prev_get] at hprev
    split_ifs at hprev with h0
    cases hprev
    exact ⟨by decide, exists_of_isOk (by decide +kernel)⟩

def deliveredBlock : ValidateBase :=
  { ValidateBase.emptyBlock requeueBag ⟨0, shardFull⟩ ⟨10, 20, 0, false, false, false⟩ with
    outMsgDescr := .singleton 1 .zero (.dequeue 10 7) }

def deliveredManager : MsgQueueManager where
  prev := requeueQueue 0 ⟨5, 10⟩
  next := ⟨⟨0, shardFull⟩, .empty 0, 0, [], 0, 10, false, zero_size_lt, length_empty_lt⟩
  neighbors := [⟨⟨1, shardFull⟩, .empty 0, 0,
    [⟨shardFull, 1, 5, 1, 100, some [(⟨0, shardFull⟩, 100)]⟩], 0, 10, false, zero_size_lt,
    length_empty_lt⟩]

/-- A block whose only change is the removal of a delivered message is accepted. -/
theorem deliveredBlock_exact : QueueUpdateAccepted deliveredBlock deliveredManager ∧
    QueueTransition deliveredBlock deliveredManager := by
  have hrun : (runTasks (checkInMsgDescr deliveredBlock deliveredManager ++
      checkOutMsgDescr deliveredBlock deliveredManager) .new).isOk = true := by decide +kernel
  obtain ⟨r, hr⟩ := exists_of_isOk hrun
  have haccepted : QueueUpdateAccepted deliveredBlock deliveredManager :=
    ⟨by decide +kernel, .new, r, .of_run hr⟩
  refine ⟨haccepted, ((queue_update_exact_iff_not_requeued _ _).mpr ?_).1 haccepted⟩
  rintro ⟨-, h, out, imported, hm⟩
  rw [deliveredBlock, AugDict.get_singleton] at hm
  split_ifs at hm
  cases hm

end Requeue

/-- A block that requeues a transit message after a merge, as its records say, is
rejected. -/
theorem requeueBlock_rejected : DescribedTransition requeueBlock requeueManager ∧
    precheckMessageQueueUpdate requeueBlock requeueManager ≠ .ok () :=
  ⟨requeue_described, requeue_described.requeue_rejected ⟨1, 11, 20, rfl⟩⟩

end TonNode.Validator
