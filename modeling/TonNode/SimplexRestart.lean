import TonNode.SimplexFsm

/-! Restart: the bootstrap functions of `SimplexState` and the recovery driver
`apply_bootstrap`, which replays the persisted votes and certificates into a
fresh state before the session goes live. -/
namespace TonNode.Simplex

def SlotVotes.certifiedHash (sv : SlotVotes) : Option UInt256 :=
  (sv.finalizeCertificate.map (·.vote.blockHash)).or (sv.notarizeCertificate.map (·.vote.blockHash))

namespace SimplexState

variable (desc : SessionDescription) (st : SimplexState)

def beginStartupReplay : SimplexState := { st with startupReplayActive := true }

def pruneWindows (needed : ℕ) : List LeaderWindow → ℕ → List LeaderWindow × ℕ
  | [], offset => ([], offset)
  | w :: ws, offset =>
    if offset < needed then pruneWindows needed ws (offset + 1) else (w :: ws, offset)

/-- `set_first_non_finalized_slot`: the boundary moves and old windows go, but
the progress cursor stays where it is. -/
def setFirstNonFinalizedSlot (slot : ℕ) : SimplexState :=
  let st :=
    if st.firstNonFinalizedSlot < slot then { st with firstNonFinalizedSlot := slot } else st
  let st := pruneSkipIntervalsBefore st st.firstNonFinalizedSlot
  let needed := desc.windowIdx st.firstNonFinalizedSlot
  let kept := pruneWindows needed st.leaderWindows st.leaderWindowOffset
  -- the offset moves even when no window is left
  { st with leaderWindows := kept.1, leaderWindowOffset := max kept.2 needed }

def restartFlags (vote : Vote) (sl : Slot) : Slot :=
  match vote with
  | .notarize v => { sl with isVoted := true, votedNotar := some ⟨v.slot, v.blockHash⟩ }
  | .finalize _ => { sl with isVoted := true, isCompleted := true, votedFinal := true }
  | .skip _ => { sl with isVoted := true, votedSkip := true, isTimeoutSkipped := true }

/-- `mark_slot_voted_on_restart`: a vote in a dropped window is ignored, and so
is a vote whose window `ensure_window_exists` refuses. -/
def markSlotVotedOnRestart (vote : Vote) : SimplexState :=
  if desc.windowIdx vote.slot < st.leaderWindowOffset then st
  else
    let st := ensureWindowExists desc st (desc.windowIdx vote.slot) .boundedByHorizon
    modifySlot desc st vote.slot (restartFlags vote)

def restartSkipSlot (slot : ℕ) : SimplexState :=
  if desc.windowIdx slot < st.leaderWindowOffset then st
  else
    let st := ensureWindowExists desc st (desc.windowIdx slot) .boundedByHorizon
    match windowSlot desc st slot with
    | none => st
    | some sl => if sl.isCompleted then st else skipSlotVote desc st slot

def generateRestartSkipVotes (firstNonannouncedWindow : ℕ) : SimplexState :=
  if firstNonannouncedWindow = 0 then st
  else
    (List.range' (desc.windowStart (firstNonannouncedWindow - 1)) desc.slotsPerLeaderWindow).foldl
      (restartSkipSlot desc) st

def setAvailableBaseAfterRestart (now : ℕ) (st : SimplexState) (parent : CandidateParentInfo) :
    Except Panic SimplexState :=
  let nextSlot := st.firstNonFinalizedSlot
  match updateSlotMut desc st nextSlot .boundedByHorizon
      (fun sl => { sl with availableBase := some (some parent) }) with
  | none => .ok (checkPendingBlocks desc st)
  | some st =>
    if (windowSlot desc st nextSlot).any (·.skipped) then
      let r := propagateBaseAfterSkipCert desc st nextSlot
      if r.2 then advanceLeaderWindowOnProgressCursor desc now r.1 else .ok r.1
    else .ok (checkPendingBlocks desc st)

def laterCandidate (best : Option CandidateParentInfo) (slot : ℕ) (hash : UInt256) :
    Option CandidateParentInfo :=
  match best with
  | none => some ⟨slot, hash⟩
  | some current => if current.slot < slot then some ⟨slot, hash⟩ else some current

def getLatestNotarizedCandidateUpTo (upToSlot : ℕ) : Option CandidateParentInfo :=
  st.slotVotes.entries.foldl (fun best e =>
    if upToSlot < e.1 then best
    else
      match e.2.certifiedHash with
      | none => best
      | some hash => laterCandidate best e.1 hash) none

def repairProgressCursorBaseAfterStartupReplay : SimplexState :=
  let progressSlot := st.firstNonProgressedSlot
  if progressSlot = 0 then st
  else if ((getSlotRef desc st progressSlot).map (·.availableBase.isNone)).getD true then
    match getLatestNotarizedCandidateUpTo st (progressSlot - 1) with
    | none => st
    | some parent =>
      (updateSlotMut desc st progressSlot .boundedByHorizon
        (·.addAvailableBaseMax (some parent))).getD st
  else st

def finishStartupReplay (now : ℕ) (st : SimplexState) : Except Panic SimplexState :=
  if !st.startupReplayActive then .ok st
  else
    let st := { st with startupReplayActive := false }
    advanceLeaderWindowOnProgressCursor desc now
      (repairProgressCursorBaseAfterStartupReplay desc st)

def resetTimeoutsOnStart (now : ℕ) (st : SimplexState) : SimplexState :=
  setTimeouts desc now { st with firstBlockTimeout := desc.firstBlockTimeout }

end SimplexState

structure VoteRecord where
  nodeIdx : ℕ
  data : RawVoteData
deriving DecidableEq, Repr

structure FinalizedBlockRecord where
  candidateId : CandidateParentInfo
deriving DecidableEq, Repr

/-- `hashData` is what `serialize_boxed` returns for the candidate hash data. -/
structure CandidateInfoRecord where
  candidateId : CandidateParentInfo
  hashData : Option (List UInt8)
deriving DecidableEq, Repr

structure NotarCertRecord where
  candidateId : CandidateParentInfo
  notarCertBytes : List UInt8
deriving DecidableEq, Repr

structure FinalCertRecord where
  candidateId : CandidateParentInfo
  certBytes : List UInt8
deriving DecidableEq, Repr

structure SkipCertRecord where
  slot : ℕ
  certBytes : List UInt8
deriving DecidableEq, Repr

structure PoolStateRecord where
  firstNonannouncedWindow : ℕ := 0
deriving DecidableEq, Repr

structure Bootstrap where
  finalizedBlocks : List FinalizedBlockRecord := []
  candidateInfos : List CandidateInfoRecord := []
  notarCerts : List NotarCertRecord := []
  finalCerts : List FinalCertRecord := []
  skipCerts : List SkipCertRecord := []
  votes : List VoteRecord := []
  poolState : Option PoolStateRecord := none
  candidatePayloads : List (CandidateParentInfo × List UInt8) := []
deriving DecidableEq, Repr

def Bootstrap.isEmpty (b : Bootstrap) : Bool :=
  b.finalizedBlocks.isEmpty && b.candidateInfos.isEmpty && b.notarCerts.isEmpty &&
    b.finalCerts.isEmpty && b.skipCerts.isEmpty && b.votes.isEmpty && b.poolState.isNone &&
    b.candidatePayloads.isEmpty

/-- What recovery takes from outside: the decoders of stored bytes (a decoded
certificate has passed `from_tl`), the index of this validator, the clock, and
the order in which the map of received candidates is iterated. -/
structure RecoveryContext where
  deserializeVoteRecord : RawVoteData → Option (Vote × SignatureBytes)
  certificateFromTl : List UInt8 → Option (Vote × List VoteSignature)
  signatureSetFromTl : List UInt8 → Option (List VoteSignature)
  selfIdx : ℕ
  now : ℕ
  iterReceived : List CandidateParentInfo → List CandidateParentInfo

namespace RecoveryContext

open SimplexState

variable (ctx : RecoveryContext) (desc : SessionDescription)

def replayVotesGlobal (votes : List VoteRecord) (st : SimplexState) : Except Panic SimplexState :=
  votes.foldlM (fun st r =>
    match ctx.deserializeVoteRecord r.data with
    | none => .ok st
    | some (vote, signature) =>
      (onVote desc ctx.now st r.nodeIdx vote signature r.data).map (·.1)) st

def applyFinalizedBoundary (blocks : List FinalizedBlockRecord) (st : SimplexState) :
    SimplexState :=
  if blocks.isEmpty then st
  else setFirstNonFinalizedSlot desc st ((blocks.map (·.candidateId.slot)).foldl max 0 + 1)

def restoreFinalCertState (certs : List FinalCertRecord) (st : SimplexState) :
    Except Panic SimplexState :=
  certs.foldlM (fun st r =>
    match ctx.certificateFromTl r.certBytes with
    | some (.finalize v, signatures) =>
      if v.slot ≠ r.candidateId.slot ∨ v.blockHash ≠ r.candidateId.hash then .ok st
      else
        (setFinalizeCertificate desc ctx.now st v.slot v.blockHash ⟨v, signatures⟩).map (·.1)
    | _ => .ok st) st

def restoreSkipCertState (certs : List SkipCertRecord) (st : SimplexState) :
    Except Panic SimplexState :=
  certs.foldlM (fun st r =>
    match ctx.certificateFromTl r.certBytes with
    | some (.skip v, signatures) =>
      if v.slot ≠ r.slot then .ok st
      else (setSkipCertificate desc ctx.now st v.slot ⟨v, signatures⟩).map (·.1)
    | _ => .ok st) st

def ownVotes (votes : List VoteRecord) : List Vote :=
  votes.filterMap fun r =>
    if r.nodeIdx ≠ ctx.selfIdx then none else (ctx.deserializeVoteRecord r.data).map (·.1)

def applyLocalVoteFlags (votes : List VoteRecord) (st : SimplexState) : SimplexState :=
  (ctx.ownVotes votes).foldl (markSlotVotedOnRestart desc) st

def applyPoolStateAndSkipVotes (pool : Option PoolStateRecord) (st : SimplexState) : SimplexState :=
  generateRestartSkipVotes desc st ((pool.map (·.firstNonannouncedWindow)).getD 0)

variable (boot : Bootstrap) (st : SimplexState)

def drainStartupEvents : List Vote × SimplexState :=
  (st.events.filterMap fun e =>
    match e with
    | .broadcastVote v => some v
    | _ => none, { st with events := [] })

def restoreNotarCertCache (certs : List NotarCertRecord) (st : SimplexState) :
    Except Panic SimplexState :=
  certs.foldlM (fun st r =>
    match ctx.signatureSetFromTl r.notarCertBytes with
    | none => .ok st
    | some signatures =>
      (setNotarizeCertificate desc ctx.now st r.candidateId.slot r.candidateId.hash
        ⟨⟨r.candidateId.slot, r.candidateId.hash⟩, signatures⟩).map (·.1)) st

def buildCandidateInfoMap (infos : List CandidateInfoRecord) :
    AList fun _ : UInt256 => CandidateInfoRecord :=
  infos.foldl (fun m i => m.insert i.candidateId.hash i) ∅

def receivedCandidates : List CandidateParentInfo :=
  let infos := (buildCandidateInfoMap boot.candidateInfos).entries.map (·.2)
  ((boot.finalizedBlocks.map (·.candidateId)) ++
    (infos.filter (·.hashData.isSome)).map (·.candidateId)).dedup

def restoreStartupVotes (kept : List Vote) (st : SimplexState) : SimplexState :=
  { st with events := kept.map .broadcastVote ++ st.events }

def finalizeParentChain (received : List CandidateParentInfo) (st : SimplexState) :
    Except Panic SimplexState :=
  if st.firstNonFinalizedSlot = 0 then .ok st
  else
    let parentSlot := st.firstNonFinalizedSlot - 1
    match ((ctx.iterReceived received).find? fun id => id.slot = parentSlot).or
        (getLatestNotarizedCandidateUpTo st parentSlot) with
    | none => .ok st
    | some parent => setAvailableBaseAfterRestart desc ctx.now st parent

def restoreGlobalState : Except Panic SimplexState := do
  let st := beginStartupReplay st
  let st ← ctx.replayVotesGlobal desc boot.votes st
  let st := applyFinalizedBoundary desc boot.finalizedBlocks st
  let st ← ctx.restoreFinalCertState desc boot.finalCerts st
  ctx.restoreSkipCertState desc boot.skipCerts st

def restoreLocalState : Except Panic SimplexState := do
  let st := ctx.applyLocalVoteFlags desc boot.votes st
  let st := applyPoolStateAndSkipVotes desc boot.poolState st
  let (keptVotes, st) := drainStartupEvents st
  let st ← ctx.restoreNotarCertCache desc boot.notarCerts st
  let st := restoreStartupVotes keptVotes st
  ctx.finalizeParentChain desc (receivedCandidates boot) st

def applyBootstrap : Except Panic SimplexState :=
  if boot.isEmpty then .ok st
  else
    match ctx.restoreGlobalState desc boot st with
    | .error p => .error p
    | .ok st => ctx.restoreLocalState desc boot st

end RecoveryContext

/-- What the session does after recovery: `start` once the overlay is up, and
the live operations. -/
inductive SessionOp where
  | start
  | live (op : Op)
deriving DecidableEq, Repr

open SimplexState in
def applySessionOp (desc : SessionDescription) (now : ℕ) (st : SimplexState) :
    SessionOp → Except Panic SimplexState
  | .start =>
    match finishStartupReplay desc now st with
    | .error p => .error p
    | .ok st => .ok (resetTimeoutsOnStart desc now st)
  | .live op => applyOp desc now st op

def runSession (desc : SessionDescription) (st : SimplexState) (ops : List (ℕ × SessionOp)) :
    Except Panic SimplexState :=
  ops.foldlM (fun st op => applySessionOp desc op.1 st op.2) st

def restartedRun (ctx : RecoveryContext) (desc : SessionDescription) (boot : Bootstrap)
    (ops : List (ℕ × SessionOp)) : Except Panic SimplexState :=
  match ctx.applyBootstrap desc boot (SimplexState.new desc) with
  | .error p => .error p
  | .ok st => runSession desc st ops

end TonNode.Simplex
