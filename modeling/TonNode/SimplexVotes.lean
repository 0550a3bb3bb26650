import TonNode.AssocMap
import TonNode.SimplexTypes

/-! Vote accounting: `ValidatorVotes`, `SlotVotes` and the three vote handlers. -/
namespace TonNode.Simplex

structure ValidatorVotes where
  notarize : Option NotarizeVote := none
  notarizeSignature : Option SignatureBytes := none
  notarizeRaw : Option RawVoteData := none
  skip : Option SkipVote := none
  skipSignature : Option SignatureBytes := none
  skipRaw : Option RawVoteData := none
  finalize : Option FinalizeVote := none
  finalizeSignature : Option SignatureBytes := none
  finalizeRaw : Option RawVoteData := none
deriving DecidableEq, Repr

abbrev WeightMap := AList fun _ : UInt256 => ℕ

variable (m : WeightMap)

def WeightMap.add (hash : UInt256) (weight : ℕ) : WeightMap :=
  m.insert hash ((m.lookup hash).getD 0 + weight)

def WeightMap.weight (hash : UInt256) : ℕ := (m.lookup hash).getD 0

theorem WeightMap.weight_add (a k : UInt256) (w : ℕ) :
    (m.add a w).weight k = m.weight k + if k = a then w else 0 := by
  unfold WeightMap.weight WeightMap.add
  rw [AList.lookup_insert_eq_ite]
  split_ifs with h
  · rw [h, Option.getD_some]
  · rw [Nat.add_zero]

structure SlotVotes where
  votes : ℕ → ValidatorVotes := fun _ => {}
  notarizeWeightByBlock : WeightMap := ∅
  finalizeWeightByBlock : WeightMap := ∅
  notarizeOrSkipWeight : ℕ := 0
  skipWeight : ℕ := 0
  blockNotarizedPublished : Bool := false
  blockFinalizedPublished : Bool := false
  slotSkippedPublished : Bool := false
  notarizeCertificate : Option NotarCert := none
  finalizeCertificate : Option FinalCert := none
  skipCertificate : Option SkipCert := none

namespace SlotVotes

variable (desc : SessionDescription) (sv : SlotVotes) (idx : ℕ)

def setVotes (v : ValidatorVotes) : SlotVotes :=
  { sv with votes := Function.update sv.votes idx v }

variable (n : ℕ) (blockHash : UInt256)

def storeNotarizeCertificate (certificate : NotarCert) :
    Except CertificateStoreError (SlotVotes × Bool) :=
  match sv.notarizeCertificate with
  | some existing =>
    if existing.vote.blockHash = blockHash then .ok (sv, false)
    else .error (.conflictingBlock existing.vote.blockHash blockHash)
  | none => .ok ({ sv with notarizeCertificate := some certificate }, true)

def storeFinalizeCertificate (certificate : FinalCert) :
    Except CertificateStoreError (SlotVotes × Bool) :=
  match sv.finalizeCertificate with
  | some existing =>
    if existing.vote.blockHash = blockHash then .ok (sv, false)
    else .error (.conflictingBlock existing.vote.blockHash blockHash)
  | none => .ok ({ sv with finalizeCertificate := some certificate }, true)

def storeSkipCertificate (certificate : SkipCert) : SlotVotes × Bool :=
  match sv.skipCertificate with
  | some _ => (sv, false)
  | none => ({ sv with skipCertificate := some certificate }, true)

def collectNotarizeSignatures : List VoteSignature :=
  (List.range n).filterMap fun idx =>
    match (sv.votes idx).notarize, (sv.votes idx).notarizeSignature with
    | some vote, some sig => if vote.blockHash = blockHash then some ⟨idx, sig⟩ else none
    | _, _ => none

def collectFinalizeSignatures : List VoteSignature :=
  (List.range n).filterMap fun idx =>
    match (sv.votes idx).finalize, (sv.votes idx).finalizeSignature with
    | some vote, some sig => if vote.blockHash = blockHash then some ⟨idx, sig⟩ else none
    | _, _ => none

def collectSkipSignatures : List VoteSignature :=
  (List.range n).filterMap fun idx =>
    match (sv.votes idx).skipSignature with
    | some sig => if (sv.votes idx).skip.isSome then some ⟨idx, sig⟩ else none
    | none => none

variable (slot : ℕ)

def createNotarizeCert (blockHash : UInt256) :
    NotarCert := ⟨⟨slot, blockHash⟩, sv.collectNotarizeSignatures n blockHash⟩

def createFinalizeCert (blockHash : UInt256) :
    FinalCert := ⟨⟨slot, blockHash⟩, sv.collectFinalizeSignatures n blockHash⟩

def createSkipCert : SkipCert :=
  ⟨⟨slot⟩, sv.collectSkipSignatures n⟩

def recordNotarize (vote : NotarizeVote) (signature : SignatureBytes) (raw : Option RawVoteData) :
    SlotVotes :=
  let votes := sv.votes idx
  let weight := desc.nodeWeight idx
  { sv.setVotes idx { votes with
      notarize := some vote, notarizeSignature := some signature, notarizeRaw := raw } with
    notarizeWeightByBlock := sv.notarizeWeightByBlock.add vote.blockHash weight
    notarizeOrSkipWeight := sv.notarizeOrSkipWeight +
      if votes.notarize.isSome || votes.skip.isSome then 0 else weight }

def recordFinalize (vote : FinalizeVote) (signature : SignatureBytes) (raw : Option RawVoteData) :
    SlotVotes :=
  { sv.setVotes idx { sv.votes idx with
      finalize := some vote, finalizeSignature := some signature, finalizeRaw := raw } with
    finalizeWeightByBlock := sv.finalizeWeightByBlock.add vote.blockHash (desc.nodeWeight idx) }

def recordSkip (vote : SkipVote) (signature : SignatureBytes) (raw : Option RawVoteData) :
    SlotVotes :=
  let votes := sv.votes idx
  let weight := desc.nodeWeight idx
  { sv.setVotes idx { votes with
      skip := some vote, skipSignature := some signature, skipRaw := raw } with
    notarizeOrSkipWeight := sv.notarizeOrSkipWeight +
      if votes.notarize.isSome || votes.skip.isSome then 0 else weight
    skipWeight := sv.skipWeight + if votes.skip.isSome then 0 else weight }

/-- One signature of an imported notarization certificate. A signature that
conflicts with a recorded finalize vote is ignored. -/
def importNotarizeSignature (blockHash : UInt256) (sv : SlotVotes) (sig : VoteSignature) :
    SlotVotes :=
  if desc.totalNodes ≤ sig.validatorIdx then sv
  else
    let votes := sv.votes sig.validatorIdx
    if votes.notarize.isSome then sv
    else if votes.finalize.any fun f => f.blockHash ≠ blockHash then sv
    else sv.recordNotarize desc sig.validatorIdx ⟨slot, blockHash⟩ sig.signature votes.notarizeRaw

def importFinalizeSignature (blockHash : UInt256) (sv : SlotVotes) (sig : VoteSignature) :
    SlotVotes :=
  if desc.totalNodes ≤ sig.validatorIdx then sv
  else
    let votes := sv.votes sig.validatorIdx
    if votes.finalize.isSome then sv
    else if votes.notarize.any fun n => n.blockHash ≠ blockHash then sv
    else if votes.skip.isSome then sv
    else sv.recordFinalize desc sig.validatorIdx ⟨slot, blockHash⟩ sig.signature votes.finalizeRaw

def importSkipSignature (sv : SlotVotes) (sig : VoteSignature) : SlotVotes :=
  if desc.totalNodes ≤ sig.validatorIdx then sv
  else
    let votes := sv.votes sig.validatorIdx
    if votes.skip.isSome then sv
    else if votes.finalize.isSome then sv
    else sv.recordSkip desc sig.validatorIdx ⟨slot⟩ sig.signature votes.skipRaw

def handleNotarize (vote : NotarizeVote) (signature : SignatureBytes) (raw : RawVoteData) :
    SlotVotes × VoteResult :=
  let votes := sv.votes idx
  match votes.notarize with
  | some existing =>
    if existing.blockHash ≠ vote.blockHash then
      (sv, .misbehavior (.conflictingVotes vote.slot idx .notarize existing.blockHash
        vote.blockHash (votes.notarizeRaw.getD []) raw))
    else (sv, .duplicate)
  | none =>
    match votes.finalize with
    | some finalize =>
      if finalize.blockHash ≠ vote.blockHash then
        (sv, .misbehavior (.conflictingVoteTypes vote.slot idx (.finalize finalize.blockHash)
          (.notarize vote.blockHash) (votes.finalizeRaw.getD []) raw .notarizeFinalizeHashMismatch))
      else (sv.recordNotarize desc idx vote signature (some raw), .applied)
    | none => (sv.recordNotarize desc idx vote signature (some raw), .applied)

def handleSkip (vote : SkipVote) (signature : SignatureBytes) (raw : RawVoteData) :
    SlotVotes × VoteResult :=
  let votes := sv.votes idx
  if votes.skip.isSome then (sv, .duplicate)
  else
    match votes.finalize with
    | some finalize =>
      (sv, .misbehavior (.conflictingVoteTypes vote.slot idx (.finalize finalize.blockHash)
        .skip (votes.finalizeRaw.getD []) raw .skipAfterFinalize))
    | none => (sv.recordSkip desc idx vote signature (some raw), .applied)

def handleFinalize (vote : FinalizeVote) (signature : SignatureBytes) (raw : RawVoteData) :
    SlotVotes × VoteResult :=
  let votes := sv.votes idx
  match votes.finalize with
  | some existing =>
    if existing.blockHash ≠ vote.blockHash then
      (sv, .misbehavior (.conflictingVotes vote.slot idx .finalize existing.blockHash
        vote.blockHash (votes.finalizeRaw.getD []) raw))
    else (sv, .duplicate)
  | none =>
    if votes.notarize.any fun n => n.blockHash ≠ vote.blockHash then
      (sv, .misbehavior (.conflictingVoteTypes vote.slot idx
        (.notarize ((votes.notarize.map (·.blockHash)).getD vote.blockHash))
        (.finalize vote.blockHash) (votes.notarizeRaw.getD []) raw .notarizeFinalizeHashMismatch))
    else if votes.skip.isSome then
      (sv, .misbehavior (.conflictingVoteTypes vote.slot idx .skip (.finalize vote.blockHash)
        (votes.skipRaw.getD []) raw .finalizeAfterSkip))
    else (sv.recordFinalize desc idx vote signature (some raw), .applied)

def handle (vote : Vote) (signature : SignatureBytes) (raw : RawVoteData) :
    SlotVotes × VoteResult :=
  match vote with
  | .notarize v => sv.handleNotarize desc idx v signature raw
  | .skip v => sv.handleSkip desc idx v signature raw
  | .finalize v => sv.handleFinalize desc idx v signature raw

def certificates : Option NotarCert × Option FinalCert × Option SkipCert :=
  (sv.notarizeCertificate, sv.finalizeCertificate, sv.skipCertificate)

end SlotVotes

end TonNode.Simplex
