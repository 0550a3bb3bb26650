import TonNode.SimplexState

/-! The consensus pipeline of `SimplexState`: local votes, base propagation,
certificate import, threshold handling and timeouts. A Rust panic is an
`Except.error`; every other path returns the new state. -/
namespace TonNode.Simplex.SimplexState

variable (desc : SessionDescription) (st : SimplexState) (now slot : ℕ)

def tryFinal (blockHash : UInt256) : SimplexState :=
  let st := ensureWindowExists desc st (desc.windowIdx slot) .boundedByHorizon
  match windowSlot desc st slot with
  | none => st
  | some sl =>
    if (sl.observedNotarCertificate.any fun c => c.hash = blockHash) &&
        (sl.votedNotar.any fun c => c.hash = blockHash) && !sl.isCompleted && !sl.votedSkip then
      modifySlot desc (st.broadcastVote (.finalize ⟨slot, blockHash⟩)) slot fun sl =>
        { sl with isCompleted := true, votedFinal := true }
    else st

def tryNotar (blockHash : UInt256) (parent : CandidateParent) : SimplexState × Bool :=
  let st := ensureWindowExists desc st (desc.windowIdx slot) .boundedByHorizon
  -- only a previous notarize vote gates the vote, a skip vote does not
  if (windowSlot desc st slot).any fun sl => sl.votedNotar.isSome then (st, false)
  else if getSlotAvailableBase desc st slot = some parent then
    let st := modifySlot desc (st.broadcastVote (.notarize ⟨slot, blockHash⟩)) slot fun sl =>
      { sl with isVoted := true, votedNotar := some ⟨slot, blockHash⟩, pendingBlock := none }
    (tryFinal desc st slot blockHash, true)
  else (st, false)

def pendingBlockAt : Option Candidate :=
  (windowSlot desc st slot).bind (·.pendingBlock)

def retryPendingSlot : SimplexState :=
  if slot < st.firstNonFinalizedSlot then st
  else
    match pendingBlockAt desc st slot with
    | none => st
    | some c =>
      let r := tryNotar desc st slot c.id.hash c.parent
      -- still pending: queue the slot again
      if !r.2 && (pendingBlockAt desc r.1 slot).isSome then
        { r.1 with pendingSlots := slot :: r.1.pendingSlots }
      else r.1

def checkPendingBlocks : SimplexState :=
  (st.pendingSlots.insertionSort (· ≤ ·)).foldl (retryPendingSlot desc)
    { st with pendingSlots := [] }

def isSlotSkippedCertAt (alloc : WindowAlloc) : SimplexState × Bool :=
  match alloc with
  | .boundedByHorizon => (st, isSlotSkippedCert desc st slot)
  | .verifiedCertificate =>
    match updateSlotMut desc st slot .verifiedCertificate id with
    | some st => (st, (windowSlot desc st slot).any (·.skipped))
    | none => (st, false)

def fallbackScanFirstNonSkipped (alloc : WindowAlloc) :
    ℕ → SimplexState → ℕ → SimplexState × Option ℕ
  | 0, st, _ => (st, none)
  | limit + 1, st, slot =>
    let r := isSlotSkippedCertAt desc st slot alloc
    if r.2 then fallbackScanFirstNonSkipped alloc limit r.1 (slot + 1) else (r.1, some slot)

def findNextNonskippedFallbackLimit : ℕ := 10000

/-- `find_next_nonskipped_slot`: the successor if it is not skipped, else the
skip-interval boundary, else a bounded scan. -/
def findNextNonskippedSlot (alloc : WindowAlloc) : SimplexState × Option ℕ :=
  let r := isSlotSkippedCertAt desc st (slot + 1) alloc
  if !r.2 then (r.1, some (slot + 1))
  else
    match lowerBound r.1.skipIntervals (slot + 1) with
    | some b =>
      let q := isSlotSkippedCertAt desc r.1 b alloc
      if !q.2 then (q.1, some b)
      else fallbackScanFirstNonSkipped desc alloc findNextNonskippedFallbackLimit q.1 (slot + 1)
    | none =>
      fallbackScanFirstNonSkipped desc alloc findNextNonskippedFallbackLimit r.1 (slot + 1)

/-- The loop of `advance_progress_cursor`. Slots past the last tracked window
are not progressed, so the number of tracked slots ahead bounds the loop. -/
def advanceCursorLoop : ℕ → SimplexState → SimplexState
  | 0, st => st
  | fuel + 1, st =>
    if isSlotProgressed desc st st.firstNonProgressedSlot then
      advanceCursorLoop fuel { st with firstNonProgressedSlot := st.firstNonProgressedSlot + 1 }
    else st

def trackedEnd : ℕ :=
  desc.windowStart (st.leaderWindowOffset + st.leaderWindows.length)

def advanceProgressCursor : SimplexState :=
  advanceCursorLoop desc (trackedEnd desc st - st.firstNonProgressedSlot) st

def maybeJumpProgressCursorAfterFinalization (finalizedSlot : ℕ) : SimplexState :=
  if st.firstNonProgressedSlot ≤ finalizedSlot then
    { st with firstNonProgressedSlot := finalizedSlot + 1 }
  else st

/-- Merge `base` into the slot found by `find_next_nonskipped_slot`; a refused
window drops it. -/
def forwardBase (found : SimplexState × Option ℕ) (alloc : WindowAlloc) (base : CandidateParent) :
    SimplexState :=
  match found.2 with
  | some nextSlot =>
    (updateSlotMut desc found.1 nextSlot alloc (·.addAvailableBaseMax base)).getD found.1
  | none => found.1

def propagateBaseAfterNotarization (parent : CandidateParentInfo) : SimplexState :=
  let found := findNextNonskippedSlot desc st parent.slot .boundedByHorizon
  let st := forwardBase desc found .boundedByHorizon (some parent)
  checkPendingBlocks desc (advanceProgressCursor desc st)

def applyFinalCertParentChain (parent : CandidateParentInfo) : SimplexState :=
  match updateSlotMut desc st parent.slot .verifiedCertificate (fun sl =>
      if sl.observedNotarCertificate.isNone then { sl with observedNotarCertificate := some parent }
      else sl) with
  | none => st
  | some st =>
    let found := findNextNonskippedSlot desc st parent.slot .verifiedCertificate
    checkPendingBlocks desc (forwardBase desc found .verifiedCertificate (some parent))

def updateSkipIntervalsAfterSkipCert (nextSlot : ℕ) : SimplexState :=
  let intervals := st.skipIntervals.erase slot
  { st with skipIntervals := if nextSlot = slot + 1 then insert nextSlot intervals else intervals }

/-- `propagate_base_after_skip_cert`; the flag says whether the base was known
and went forward. -/
def propagateBaseAfterSkipCert : SimplexState × Bool :=
  let st := (updateSlotMut desc st slot .boundedByHorizon
    fun sl => { sl with skipped := true }).getD st
  let r := findNextNonskippedSlot desc st slot .boundedByHorizon
  match r.2 with
  | none =>
    let st := { r.1 with skipIntervals := r.1.skipIntervals.erase slot }
    (checkPendingBlocks desc (advanceProgressCursor desc st), false)
  | some nextSlot =>
    let st := updateSkipIntervalsAfterSkipCert r.1 slot nextSlot
    match getSlotAvailableBase desc st slot with
    | none => (checkPendingBlocks desc st, false)
    | some base =>
      let st := (updateSlotMut desc st nextSlot .boundedByHorizon
        (·.addAvailableBaseMax base)).getD st
      (checkPendingBlocks desc (advanceProgressCursor desc st), true)

def setTimeouts (st : SimplexState) : SimplexState :=
  { st with
    skipSlot := max st.firstNonProgressedSlot (desc.windowStart st.currentLeaderWindowIdx)
    timeoutBase := some (now + st.firstBlockTimeout)
    skipTimestamp := some (now + (st.firstBlockTimeout + desc.targetRate)) }

def applyAdaptiveTimeoutBackoff : SimplexState :=
  if (st.getWindow st.currentLeaderWindowIdx).any (·.hadTimeouts) then
    { st with firstBlockTimeout := desc.backoff st.firstBlockTimeout }
  else { st with firstBlockTimeout := desc.firstBlockTimeout }

def getProgressCursorBaseOrPanic : Except Panic (SimplexState × CandidateParent) :=
  if st.firstNonProgressedSlot = 0 then .ok (st, none)
  else
    match updateSlotMut desc st st.firstNonProgressedSlot .boundedByHorizon id with
    | none => .error (.missingProgressSlot st.firstNonProgressedSlot)
    | some st' =>
      match (windowSlot desc st' st.firstNonProgressedSlot).bind (·.availableBase) with
      | none => .error (.progressBaseUnknown st.firstNonProgressedSlot)
      | some base => .ok (st', base)

/-- Seed the first slot of a newly entered window when its base is unknown. -/
def seedWindowBase (window : ℕ) (base : CandidateParent) : SimplexState :=
  (updateSlotMut desc st (desc.windowStart window) .boundedByHorizon fun sl =>
    if sl.availableBase.isNone then { sl with availableBase := some base } else sl).getD st

def advanceLeaderWindowOnProgressCursor (st : SimplexState) : Except Panic SimplexState :=
  let nowWindow := desc.windowIdx st.firstNonProgressedSlot
  if nowWindow ≤ st.currentLeaderWindowIdx then .ok st
  else if st.startupReplayActive then .ok st
  else
    match getProgressCursorBaseOrPanic desc st with
    | .error p => .error p
    | .ok (st, base) =>
      let st := applyAdaptiveTimeoutBackoff desc st
      let st := setTimeouts desc now { st with currentLeaderWindowIdx := nowWindow }
      let st := ensureWindowExists desc st nowWindow .boundedByHorizon
      .ok (seedWindowBase desc st nowWindow base)

def advanceSkipTimer : SimplexState :=
  if st.skipSlot ≤ slot then
    match st.timeoutBase with
    | none => st
    | some base =>
      let nextSlot := slot + 1
      let timeoutSlot := if desc.slotOffset nextSlot = 0 then nextSlot else nextSlot + 1
      let offset := timeoutSlot - desc.windowStart st.currentLeaderWindowIdx
      { st with skipSlot := nextSlot, skipTimestamp := some (base + desc.targetRate * offset) }
  else st

def observeNotarization (parent : CandidateParentInfo) : SimplexState :=
  modifySlot desc
    (ensureWindowExists desc st (desc.windowIdx parent.slot) .boundedByHorizon) parent.slot
    fun sl => { sl with observedNotarCertificate := some parent }

def onBlockNotarized (st : SimplexState) (slot : ℕ) (blockHash : UInt256) :
    Except Panic SimplexState :=
  if slot < st.firstNonFinalizedSlot then .ok st
  else
    let st := observeNotarization desc st ⟨slot, blockHash⟩
    let st := propagateBaseAfterNotarization desc st ⟨slot, blockHash⟩
    match advanceLeaderWindowOnProgressCursor desc now st with
    | .error p => .error p
    | .ok st => .ok (tryFinal desc (advanceSkipTimer desc st slot) slot blockHash)

def advanceFinalized : SimplexState :=
  if st.firstNonFinalizedSlot < slot + 1 then
    pruneSkipIntervalsBefore { st with firstNonFinalizedSlot := slot + 1 } (slot + 1)
  else st

def advancePresentAfterFinalization (st : SimplexState) (slot : ℕ) : Except Panic SimplexState :=
  advanceLeaderWindowOnProgressCursor desc now
    (advanceProgressCursor desc (maybeJumpProgressCursorAfterFinalization st slot))

def setNotarizeCertificate (st : SimplexState) (slot : ℕ) (blockHash : UInt256)
    (certificate : NotarCert) : Except Panic (SimplexState × Except CertificateStoreError Bool) :=
  let sv := st.slotVotesAt slot
  match sv.storeNotarizeCertificate blockHash certificate with
  | .error e => .ok (st.setSlotVotes slot sv, .error e)
  | .ok (_, false) => .ok (st.setSlotVotes slot sv, .ok false)
  | .ok (sv, true) =>
    let sv := certificate.signatures.foldl (SlotVotes.importNotarizeSignature desc slot blockHash) sv
    let st' := st.setSlotVotes slot { sv with blockNotarizedPublished := true }
    -- a finalized slot keeps the certificate but no slot tracking
    if slot < st.firstNonFinalizedSlot then .ok (st', .ok true)
    else
      let st' := st'.pushEventBack (.notarizationReached slot blockHash certificate)
      match onBlockNotarized desc now st' slot blockHash with
      | .error p => .error p
      | .ok st' => .ok (st', .ok true)

/-- A new finalization certificate is announced and applied; whether the present
moves was decided on the cursor before the certificate. -/
def acceptFinalizeCertificate (st : SimplexState) (slot : ℕ) (blockHash : UInt256)
    (certificate : FinalCert) (shouldAdvancePresent : Bool) : Except Panic SimplexState :=
  let blockId := (st.candidateIds blockHash).map (·.block)
  let st := st.pushEventBack (.blockFinalized slot blockHash blockId certificate)
  let st := st.pushEventBack (.finalizationReached slot blockHash certificate)
  let st := applyFinalCertParentChain desc st ⟨slot, blockHash⟩
  let st := advanceFinalized st slot
  if shouldAdvancePresent then advancePresentAfterFinalization desc now st slot else .ok st

def setFinalizeCertificate (st : SimplexState) (slot : ℕ) (blockHash : UInt256)
    (certificate : FinalCert) : Except Panic (SimplexState × Except CertificateStoreError Bool) :=
  if slot < st.firstNonFinalizedSlot then .ok (st, .ok false)
  else
    let sv := st.slotVotesAt slot
    match sv.storeFinalizeCertificate blockHash certificate with
    | .error e => .ok (st.setSlotVotes slot sv, .error e)
    | .ok (_, false) => .ok (st.setSlotVotes slot sv, .ok false)
    | .ok (sv, true) =>
      let sv :=
        certificate.signatures.foldl (SlotVotes.importFinalizeSignature desc slot blockHash) sv
      let st' := st.setSlotVotes slot { sv with blockFinalizedPublished := true }
      match acceptFinalizeCertificate desc now st' slot blockHash certificate
          (st.firstNonProgressedSlot ≤ slot) with
      | .error p => .error p
      | .ok st => .ok (st, .ok true)

def acceptSkipCertificate (st : SimplexState) (slot : ℕ) (certificate : SkipCert) :
    Except Panic SimplexState :=
  let st := ensureWindowExists desc st (desc.windowIdx slot) .boundedByHorizon
  let st := modifySlot desc st slot fun sl => { sl with skipped := true }
  let r := propagateBaseAfterSkipCert desc st slot
  match if r.2 then advanceLeaderWindowOnProgressCursor desc now r.1 else .ok r.1 with
  | .error p => .error p
  | .ok st =>
    let st := st.pushEventBack (.slotSkipped slot)
    .ok (st.pushEventBack (.skipCertificateReached slot certificate))

def setSkipCertificate (st : SimplexState) (slot : ℕ) (certificate : SkipCert) :
    Except Panic (SimplexState × Except CertificateStoreError Bool) :=
  if slot < st.firstNonFinalizedSlot then .ok (st, .ok false)
  else
    match (st.slotVotesAt slot).storeSkipCertificate certificate with
    | (sv, false) => .ok (st.setSlotVotes slot sv, .ok false)
    | (sv, true) =>
      let sv := certificate.signatures.foldl (SlotVotes.importSkipSignature desc slot) sv
      let st := st.setSlotVotes slot { sv with slotSkippedPublished := true }
      match acceptSkipCertificate desc now st slot certificate with
      | .error p => .error p
      | .ok st => .ok (st, .ok true)

def announceNotarization (st : SimplexState) (block : UInt256) : Except Panic SimplexState :=
  match st.slotVotes.lookup slot with
  | none => .ok st
  | some sv =>
    let sv := { sv with blockNotarizedPublished := true }
    let cert := sv.createNotarizeCert desc.totalNodes slot block
    match sv.storeNotarizeCertificate block cert with
    | .error _ => .error (.notarizeCertConflict slot)
    | .ok (sv, true) =>
      .ok ((st.setSlotVotes slot sv).pushEventBack (.notarizationReached slot block cert))
    | .ok (sv, false) => .ok (st.setSlotVotes slot sv)

/-- The body of the notarize loop of `check_thresholds_and_trigger` for one
block; the published flag is the one read before the loop. -/
def notarizeThreshold (published : Bool) (st : SimplexState) (block : UInt256) (weight : ℕ) :
    Except Panic SimplexState :=
  if !published && desc.getThreshold66 ≤ weight then
    match announceNotarization desc slot st block with
    | .error p => .error p
    | .ok st => onBlockNotarized desc now st slot block
  else .ok st

/-- The parent chain and the present after a block reached the finalize
threshold. The slot is below the finalized boundary by then, so
`get_slot_ref` never shows its notarization marker. -/
def advanceAfterFinalizeThreshold (st : SimplexState) (block : UInt256) :
    Except Panic SimplexState :=
  let st := advanceFinalized st slot
  let shouldAdvancePresent := decide (st.firstNonProgressedSlot ≤ slot)
  let missingNotar :=
    ((getSlotRef desc st slot).map fun s => s.observedNotarCertificate.isNone).getD true
  let st :=
    if missingNotar then
      let st := (updateSlotMut desc st slot .boundedByHorizon
        fun s => { s with observedNotarCertificate := some ⟨slot, block⟩ }).getD st
      propagateBaseAfterNotarization desc st ⟨slot, block⟩
    else st
  if shouldAdvancePresent then advancePresentAfterFinalization desc now st slot else .ok st

/-- Store the finalization certificate of a block that reached the threshold;
the finalization is announced in any case, the certificate when it is new. -/
def announceFinalization (st : SimplexState) (sv : SlotVotes) (block : UInt256) :
    Except Panic SimplexState :=
  let sv := { sv with blockFinalizedPublished := true }
  let cert := sv.createFinalizeCert desc.totalNodes slot block
  match sv.storeFinalizeCertificate block cert with
  | .error _ => .error (.finalizeCertConflict slot)
  | .ok (sv, isNewCert) =>
    let st := st.setSlotVotes slot sv
    let blockId := (st.candidateIds block).map (·.block)
    let st := st.pushEventBack (.blockFinalized slot block blockId cert)
    .ok (if isNewCert then st.pushEventBack (.finalizationReached slot block cert) else st)

def finalizeThreshold (st : SimplexState) (sv : SlotVotes) (block : UInt256) :
    Except Panic SimplexState :=
  match announceFinalization desc slot st sv block with
  | .error p => .error p
  | .ok st => advanceAfterFinalizeThreshold desc now slot st block

def announceSkip (st : SimplexState) : SimplexState :=
  match st.slotVotes.lookup slot with
  | none => st.pushEventBack (.slotSkipped slot)
  | some sv =>
    let sv := { sv with slotSkippedPublished := true }
    let sv := (sv.storeSkipCertificate (sv.createSkipCert desc.totalNodes slot)).1
    let st := (st.setSlotVotes slot sv).pushEventBack (.slotSkipped slot)
    match sv.skipCertificate with
    | none => st
    | some cert => st.pushEventBack (.skipCertificateReached slot cert)

/-- The skip branch of `check_thresholds_and_trigger`; `sv` is the accounting
read before the other branches. -/
def skipPhase (sv : SlotVotes) (st : SimplexState) : Except Panic SimplexState :=
  if !sv.slotSkippedPublished && !sv.blockFinalizedPublished &&
      st.firstNonFinalizedSlot ≤ slot && desc.getThreshold66 ≤ sv.skipWeight then
    let r := propagateBaseAfterSkipCert desc (announceSkip desc slot st) slot
    if r.2 then advanceLeaderWindowOnProgressCursor desc now r.1 else .ok r.1
  else .ok st

def reachedFinalize (sv : SlotVotes) : Option (Σ _ : UInt256, ℕ) :=
  if sv.blockFinalizedPublished then none
  else sv.finalizeWeightByBlock.entries.find? fun e => desc.getThreshold66 ≤ e.2

def checkThresholdsAndTrigger (st : SimplexState) (slot : ℕ) : Except Panic SimplexState := do
  checkInvariants desc st
  match st.slotVotes.lookup slot with
  | none => pure st
  | some sv =>
    let st ← sv.notarizeWeightByBlock.entries.foldlM (fun st e =>
      notarizeThreshold desc now slot sv.blockNotarizedPublished st e.1 e.2) st
    match reachedFinalize desc sv with
    | none => skipPhase desc now slot sv st
    | some e =>
      match st.slotVotes.lookup slot with
      | none => pure st
      | some sv' =>
        let st ← finalizeThreshold desc now slot st sv' e.1
        skipPhase desc now slot sv st

def handleVote (idx : ℕ) (vote : Vote) (signature : SignatureBytes) (raw : RawVoteData) :
    SimplexState × VoteResult :=
  if vote.slot < st.firstNonFinalizedSlot then (st, .slotAlreadyFinalized)
  else
    let r := (st.slotVotesAt vote.slot).handle desc idx vote signature raw
    (st.setSlotVotes vote.slot r.1, r.2)

def onVote (st : SimplexState) (idx : ℕ) (vote : Vote) (signature : SignatureBytes)
    (raw : RawVoteData) : Except Panic (SimplexState × VoteResult) :=
  if desc.totalNodes ≤ idx then
    .ok (st, .rejected (.invalidValidatorIdx idx desc.totalNodes))
  else if isVoteSlotTooFarAhead desc st vote.slot then
    .ok (st, .rejected (.slotTooFarAhead vote.slot (firstTooNewVoteSlot desc st)))
  else
    let r := handleVote desc st idx vote signature raw
    if r.2.isApplied && r.1.firstNonFinalizedSlot ≤ vote.slot then
      match checkThresholdsAndTrigger desc now r.1 vote.slot with
      | .error p => .error p
      | .ok st => .ok (st, r.2)
    else .ok r

def storePending (candidate : Candidate) : SimplexState :=
  let slot := candidate.id.slot
  let st := ensureWindowExists desc st (desc.windowIdx slot) .boundedByHorizon
  match windowSlot desc st slot with
  | none => st
  | some sl =>
    if sl.votedNotar.isSome then st
    else if sl.pendingBlock.isSome then st
    else
      let st := modifySlot desc st slot fun sl => { sl with pendingBlock := some candidate }
      { st with pendingSlots := slot :: st.pendingSlots }

def onCandidate (candidate : Candidate) : Except CandidateError SimplexState :=
  let slot := candidate.id.slot
  if desc.totalNodes ≤ candidate.leader then
    .error (.invalidLeader candidate.leader desc.totalNodes slot)
  else if slot < st.firstNonFinalizedSlot then .ok st
  else if isSlotTooFarAhead desc st slot then .ok st
  else if candidate.parentId.any fun p => slot ≤ p.slot then
    .error (.parentSlotNotBefore ((candidate.parentId.map (·.slot)).getD 0) slot)
  else
    let st := { st with
      candidateIds := Function.update st.candidateIds candidate.id.hash (some candidate.id) }
    let r := tryNotar desc st slot candidate.id.hash candidate.parent
    .ok (if r.2 then checkPendingBlocks desc r.1 else storePending desc r.1 candidate)

def skipSlotVote : SimplexState :=
  modifySlot desc (st.broadcastVote (.skip ⟨slot⟩)) slot fun sl =>
    { sl with isVoted := true, votedSkip := true, isTimeoutSkipped := true }

def trySkipWindow (idx : ℕ) : SimplexState :=
  let st := ensureWindowExists desc st idx .boundedByHorizon
  match st.getWindow idx with
  | none => st
  | some w =>
    let offsets := (List.range desc.slotsPerLeaderWindow).filter fun i => !(w.slots i).votedFinal
    (offsets.map fun i => desc.windowStart idx + i).foldl (skipSlotVote desc) st

/-- The loop of `process_timeouts`, one expired deadline `ts` at a time. The
deadline grows by `target_rate > 0`, so `now + 1 - ts` iterations are enough. -/
def processTimeoutsLoop (now : ℕ) : ℕ → ℕ → SimplexState → SimplexState
  | 0, _, st => st
  | fuel + 1, ts, st =>
    if now < ts then st
    else
      let slot := st.skipSlot
      let ts := ts + desc.targetRate
      let st := { st with skipTimestamp := some ts, skipSlot := slot + 1 }
      if slot < st.firstNonFinalizedSlot then processTimeoutsLoop now fuel ts st
      else
        let window := desc.windowIdx slot
        let st := ensureWindowExists desc st window .boundedByHorizon
        match windowSlot desc st slot with
        | none => processTimeoutsLoop now fuel ts st
        | some sl =>
          if sl.votedFinal || sl.votedSkip then processTimeoutsLoop now fuel ts st
          else
            let st := st.modifyWindow window fun w => { w with hadTimeouts := true }
            let st := trySkipWindow desc st window
            -- the whole window is skipped and the alarm stays off
            { st with
              skipSlot := max st.skipSlot (desc.windowStart (window + 1))
              skipTimestamp := none
              timeoutBase := none }

def processTimeouts (st : SimplexState) : SimplexState :=
  match st.skipTimestamp with
  | none => st
  | some ts => processTimeoutsLoop desc now (now + 1 - ts) ts st

def checkAll (st : SimplexState) : Except Panic SimplexState :=
  match checkInvariants desc st with
  | .error p => .error p
  | .ok _ => .ok (processTimeouts desc now st)

def cleanupSlots (upToSlot : ℕ) : SimplexState :=
  let boundary := min upToSlot st.firstNonFinalizedSlot
  if boundary = 0 then st
  else
    let old (w : LeaderWindow) : Bool := w.startSlot + desc.slotsPerLeaderWindow ≤ boundary
    { st with
      leaderWindows := st.leaderWindows.dropWhile old
      leaderWindowOffset := st.leaderWindowOffset + (st.leaderWindows.takeWhile old).length
      slotVotes := st.slotVotes.retain fun s => boundary ≤ s
      candidateIds := fun h => (st.candidateIds h).filter fun id => boundary ≤ id.slot }

end SimplexState

inductive Op where
  | onCandidate (candidate : Candidate)
  | onVote (idx : ℕ) (vote : Vote) (signature : SignatureBytes) (raw : RawVoteData)
  | setNotarizeCertificate (certificate : NotarCert)
  | setFinalizeCertificate (certificate : FinalCert)
  | setSkipCertificate (certificate : SkipCert)
  | checkAll
  | cleanupSlots (upToSlot : ℕ)
deriving DecidableEq, Repr

open SimplexState in
/-- Run one operation at time `now`; certificates are stored under the slot and
hash of their own vote, as every caller does. -/
def applyOp (desc : SessionDescription) (now : ℕ) (st : SimplexState) :
    Op → Except Panic SimplexState
  | .onCandidate c =>
    -- a rejected candidate leaves the state as it was
    match onCandidate desc st c with
    | .error _ => .ok st
    | .ok st => .ok st
  | .onVote idx vote signature raw => (onVote desc now st idx vote signature raw).map (·.1)
  | .setNotarizeCertificate c =>
    (setNotarizeCertificate desc now st c.vote.slot c.vote.blockHash c).map (·.1)
  | .setFinalizeCertificate c =>
    (setFinalizeCertificate desc now st c.vote.slot c.vote.blockHash c).map (·.1)
  | .setSkipCertificate c => (setSkipCertificate desc now st c.vote.slot c).map (·.1)
  | .checkAll => checkAll desc now st
  | .cleanupSlots upToSlot => .ok (cleanupSlots desc st upToSlot)

def runOps (desc : SessionDescription) (st : SimplexState) (ops : List (ℕ × Op)) :
    Except Panic SimplexState :=
  ops.foldlM (fun st op => applyOp desc op.1 st op.2) st

end TonNode.Simplex
