import TonNode.SimplexVotes

/-! `SimplexState` and its slot and window plumbing. Leader windows form a deque
of consecutive windows; `leaderWindowOffset` is the index of the first one. -/
namespace TonNode.Simplex

/-- Per-slot consensus state. `availableBase` is `none` while the base is
unknown and `some none` for the genesis base. -/
structure Slot where
  availableBase : Option CandidateParent := none
  pendingBlock : Option Candidate := none
  isVoted : Bool := false
  votedNotar : Option CandidateParentInfo := none
  votedSkip : Bool := false
  votedFinal : Bool := false
  observedNotarCertificate : Option CandidateParentInfo := none
  skipped : Bool := false
  isCompleted : Bool := false
  isTimeoutSkipped : Bool := false
deriving DecidableEq, Repr

def Slot.addAvailableBaseMax (sl : Slot) (parent : CandidateParent) : Slot :=
  match sl.availableBase with
  | none => { sl with availableBase := some parent }
  | some existing =>
    if candidateParentGe parent existing then { sl with availableBase := some parent } else sl

/-- `BoundedByHorizon` respects `max_acceptable_slot`; `VerifiedCertificate`
bypasses it, for certificates that passed the quorum checks. -/
inductive WindowAlloc where
  | boundedByHorizon
  | verifiedCertificate
deriving DecidableEq, Repr

/-- A leader window. `slots` is the vector of `slots_per_leader_window` slots,
indexed by the offset in the window. -/
structure LeaderWindow where
  startSlot : ℕ
  slots : ℕ → Slot := fun _ => {}
  hadTimeouts : Bool := false

def LeaderWindow.new (desc : SessionDescription) (idx : ℕ) : LeaderWindow :=
  { startSlot := desc.windowStart idx }

def LeaderWindow.updateSlot (w : LeaderWindow) (offset : ℕ) (f : Slot → Slot) : LeaderWindow :=
  { w with slots := Function.update w.slots offset (f (w.slots offset)) }

/-- The state machine. `events` is the output queue, `pendingSlots` the heap of
slots with a pending block, `skipIntervals` the ordered set of first
non-skipped slots after skipped runs. -/
structure SimplexState where
  events : List SimplexEvent := []
  leaderWindows : List LeaderWindow := []
  leaderWindowOffset : ℕ := 0
  currentLeaderWindowIdx : ℕ := 0
  firstNonFinalizedSlot : ℕ := 0
  pendingSlots : List ℕ := []
  slotVotes : AList fun _ : ℕ => SlotVotes := ∅
  candidateIds : UInt256 → Option CandidateId := fun _ => none
  firstNonProgressedSlot : ℕ := 0
  skipIntervals : Finset ℕ := ∅
  skipSlot : ℕ := 0
  skipTimestamp : Option ℕ := none
  timeoutBase : Option ℕ := none
  firstBlockTimeout : ℕ := 0
  startupReplayActive : Bool := false

variable (desc : SessionDescription)

namespace SimplexState

variable (st : SimplexState)

def pushEventBack (event : SimplexEvent) : SimplexState :=
  { st with events := st.events ++ [event] }

def broadcastVote (vote : Vote) : SimplexState :=
  st.pushEventBack (.broadcastVote vote)

def maxFutureSlotSpan : ℕ := satMul desc.maxLeaderWindowDesync desc.slotsPerLeaderWindow

def maxAcceptableSlot : ℕ :=
  satAdd st.firstNonProgressedSlot (maxFutureSlotSpan desc)

variable (slot : ℕ)

def isSlotTooFarAhead : Bool :=
  maxAcceptableSlot desc st < slot

def firstTooNewVoteSlot : ℕ :=
  satMul (satAdd (satAdd (desc.windowIdx st.firstNonProgressedSlot) desc.maxLeaderWindowDesync) 1)
    desc.slotsPerLeaderWindow

def isVoteSlotTooFarAhead : Bool :=
  firstTooNewVoteSlot desc st ≤ slot

def maxWindow : ℕ := desc.windowIdx (maxAcceptableSlot desc st) + 1

variable (idx : ℕ)

def ensureWindowExists (alloc : WindowAlloc) : SimplexState :=
  if alloc = .boundedByHorizon ∧ maxWindow desc st < idx then st
  else
    -- the loop pushes windows `end ..= idx` and does nothing when `idx < end`
    let windowsEnd := st.leaderWindowOffset + st.leaderWindows.length
    { st with
      leaderWindows := st.leaderWindows ++
        (List.range' windowsEnd (idx + 1 - windowsEnd)).map (LeaderWindow.new desc) }

def getWindow : Option LeaderWindow :=
  if idx < st.leaderWindowOffset then none else st.leaderWindows[idx - st.leaderWindowOffset]?

def modifyWindow (f : LeaderWindow → LeaderWindow) : SimplexState :=
  if idx < st.leaderWindowOffset then st
  else { st with leaderWindows := st.leaderWindows.modify (idx - st.leaderWindowOffset) f }

def windowSlot : Option Slot :=
  (st.getWindow (desc.windowIdx slot)).map fun w => w.slots (desc.slotOffset slot)

def modifySlot (f : Slot → Slot) : SimplexState :=
  st.modifyWindow (desc.windowIdx slot) fun w => w.updateSlot (desc.slotOffset slot) f

def getSlotRef : Option Slot :=
  if slot < st.firstNonFinalizedSlot then none else windowSlot desc st slot

/-- `get_slot_mut` and the update of the slot it returns; `none` when it
returns `None`, which leaves the state as it was. -/
def updateSlotMut (alloc : WindowAlloc) (f : Slot → Slot) : Option SimplexState :=
  if slot < st.firstNonFinalizedSlot then none
  else
    let st := ensureWindowExists desc st (desc.windowIdx slot) alloc
    if (windowSlot desc st slot).isSome then some (modifySlot desc st slot f) else none

def getSlotAvailableBase : Option CandidateParent :=
  (getSlotRef desc st slot).bind (·.availableBase)

def isSlotSkippedCert : Bool :=
  (getSlotRef desc st slot).any (·.skipped)

def isSlotProgressed : Bool :=
  (getSlotRef desc st slot).any fun s => s.skipped || s.observedNotarCertificate.isSome

def slotVotesAt : SlotVotes :=
  (st.slotVotes.lookup slot).getD {}

def setSlotVotes (sv : SlotVotes) : SimplexState :=
  { st with slotVotes := st.slotVotes.insert slot sv }

def new : SimplexState :=
  let st : SimplexState := { firstBlockTimeout := desc.firstBlockTimeout }
  let st := ensureWindowExists desc st 0 .boundedByHorizon
  modifySlot desc st 0 fun sl => { sl with availableBase := some none }

def lowerBound (intervals : Finset ℕ) (slot : ℕ) : Option ℕ :=
  if h : (intervals.filter fun b => slot ≤ b).Nonempty then
    some ((intervals.filter fun b => slot ≤ b).min' h)
  else none

def pruneSkipIntervalsBefore (firstTracked : ℕ) : SimplexState :=
  { st with skipIntervals := st.skipIntervals.filter fun s => firstTracked ≤ s }

def checkValidatorInvariants (votes : ValidatorVotes) : Except Panic Unit :=
  match votes.notarize, votes.finalize with
  | some n, some f =>
    if ¬(n.slot = f.slot ∧ n.blockHash = f.blockHash) then
      .error (.conflictingNotarizeFinalize slot idx)
    else if votes.skip.isSome then .error (.finalizeAndSkip slot idx)
    else .ok ()
  | none, some _ => if votes.skip.isSome then .error (.finalizeAndSkip slot idx) else .ok ()
  | _, none => .ok ()

def checkInvariants : Except Panic Unit :=
  st.slotVotes.entries.forM fun e =>
    (List.range desc.totalNodes).forM fun idx => checkValidatorInvariants e.1 idx (e.2.votes idx)

end SimplexState

end TonNode.Simplex
