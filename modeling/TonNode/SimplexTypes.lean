import TonNode.Bits

/-! The value types of the Simplex session: votes, certificates, candidates, output events and the
session description. `SlotIndex`, `WindowIndex`, `ValidatorIndex` and `ValidatorWeight` are natural
numbers: on the wire a slot is a nonnegative `i32`, so `slot + 1` stays far below the `u32` limit;
the saturating bounds are kept as such. -/
namespace TonNode.Simplex

abbrev UInt256 := Fin (2 ^ 256)

abbrev SignatureBytes := List UInt8
abbrev RawVoteData := List UInt8

structure NotarizeVote where
  slot : ℕ
  blockHash : UInt256
deriving DecidableEq, Repr

structure FinalizeVote where
  slot : ℕ
  blockHash : UInt256
deriving DecidableEq, Repr

structure SkipVote where
  slot : ℕ
deriving DecidableEq, Repr

inductive Vote where
  | notarize (v : NotarizeVote)
  | finalize (v : FinalizeVote)
  | skip (v : SkipVote)
deriving DecidableEq, Repr

def Vote.slot : Vote → ℕ
  | .notarize v => v.slot
  | .finalize v => v.slot
  | .skip v => v.slot

structure VoteSignature where
  validatorIdx : ℕ
  signature : SignatureBytes
deriving DecidableEq, Repr

structure Certificate (T : Type) where
  vote : T
  signatures : List VoteSignature
deriving DecidableEq, Repr

abbrev NotarCert := Certificate NotarizeVote
abbrev FinalCert := Certificate FinalizeVote
abbrev SkipCert := Certificate SkipVote

structure BlockIdExt where
  workchainId : ℤ
  shardPrefix : ℕ
  seqNo : ℕ
  rootHash : UInt256
  fileHash : UInt256
deriving DecidableEq, Repr

structure CandidateId where
  slot : ℕ
  hash : UInt256
  block : BlockIdExt
deriving DecidableEq, Repr

structure Candidate where
  id : CandidateId
  parentId : Option CandidateId
  leader : ℕ
deriving DecidableEq, Repr

structure CandidateParentInfo where
  slot : ℕ
  hash : UInt256
deriving DecidableEq, Repr

abbrev CandidateParent := Option CandidateParentInfo

def Candidate.parent (c : Candidate) : CandidateParent :=
  c.parentId.map fun p => ⟨p.slot, p.hash⟩

def candidateParentGe : CandidateParent → CandidateParent → Bool
  | none, none => true
  | some _, none => true
  | none, some _ => false
  | some a, some b => b.slot < a.slot || (a.slot == b.slot && b.hash ≤ a.hash)

inductive SimplexEvent where
  | broadcastVote (vote : Vote)
  | blockFinalized (slot : ℕ) (blockHash : UInt256) (blockId : Option BlockIdExt)
      (certificate : FinalCert)
  | slotSkipped (slot : ℕ)
  | notarizationReached (slot : ℕ) (blockHash : UInt256) (certificate : NotarCert)
  | skipCertificateReached (slot : ℕ) (certificate : SkipCert)
  | finalizationReached (slot : ℕ) (blockHash : UInt256) (certificate : FinalCert)
deriving DecidableEq, Repr

inductive ConflictingVoteType where
  | notarize
  | finalize
deriving DecidableEq, Repr

inductive VoteDescriptor where
  | skip
  | notarize (hash : UInt256)
  | finalize (hash : UInt256)
deriving DecidableEq, Repr

inductive ConflictReason where
  | notarizeFinalizeHashMismatch
  | finalizeAfterSkip
  | skipAfterFinalize
deriving DecidableEq, Repr

inductive MisbehaviorProof where
  | conflictingVotes (slot : ℕ) (validatorIdx : ℕ)
      (voteType : ConflictingVoteType) (hash1 hash2 : UInt256) (vote1 vote2 : RawVoteData)
  | conflictingVoteTypes (slot : ℕ) (validatorIdx : ℕ)
      (existingVote newVote : VoteDescriptor) (vote1 vote2 : RawVoteData) (reason : ConflictReason)
deriving DecidableEq, Repr

/-- The texts of `VoteResult::Rejected`, one constructor for each format string. -/
inductive RejectReason where
  | invalidValidatorIdx (validatorIdx : ℕ) (max : ℕ)
  | slotTooFarAhead (slot firstTooNew : ℕ)
  | validatorOutOfBounds (validatorIdx : ℕ) (slot : ℕ)
deriving DecidableEq, Repr

inductive VoteResult where
  | applied
  | duplicate
  | slotAlreadyFinalized
  | misbehavior (proof : MisbehaviorProof)
  | rejected (reason : RejectReason)
deriving DecidableEq, Repr

def VoteResult.isApplied : VoteResult → Bool
  | .applied => true
  | _ => false

inductive CertificateStoreError where
  | conflictingBlock (existingBlock newBlock : UInt256)
deriving DecidableEq, Repr

inductive CandidateError where
  | invalidLeader (leader : ℕ) (max : ℕ) (slot : ℕ)
  | parentSlotNotBefore (parentSlot slot : ℕ)
deriving DecidableEq, Repr

inductive Panic where
  | missingProgressSlot (progressSlot : ℕ)
  | progressBaseUnknown (progressSlot : ℕ)
  | conflictingNotarizeFinalize (slot : ℕ) (validatorIdx : ℕ)
  | finalizeAndSkip (slot : ℕ) (validatorIdx : ℕ)
  | notarizeCertConflict (slot : ℕ)
  | finalizeCertConflict (slot : ℕ)
deriving DecidableEq, Repr

def threshold66 (totalWeight : ℕ) : ℕ :=
  if totalWeight = 0 then 0 else totalWeight * 2 / 3 + 1

def satAdd (a b : ℕ) : ℕ := min (a + b) (2 ^ 32 - 1)
def satMul (a b : ℕ) : ℕ := min (a * b) (2 ^ 32 - 1)

/-- What the state machine reads of the session description. The positivity
fields are the checks of `SessionOptions::validate` and `SimplexState::new`;
`backoff` stands for `mul_f64(first_block_timeout_multiplier)` capped. -/
structure SessionDescription where
  weights : List ℕ
  slotsPerLeaderWindow : ℕ
  maxLeaderWindowDesync : ℕ
  targetRate : ℕ
  firstBlockTimeout : ℕ
  backoff : ℕ → ℕ
  nodes_pos : 0 < weights.length
  slots_pos : 0 < slotsPerLeaderWindow
  rate_pos : 0 < targetRate

namespace SessionDescription

variable (desc : SessionDescription)

def totalNodes : ℕ := desc.weights.length
def nodeWeight (idx : ℕ) : ℕ := desc.weights.getD idx 0
def totalWeight : ℕ := desc.weights.sum
def getThreshold66 : ℕ := threshold66 desc.totalWeight
def windowIdx (slot : ℕ) : ℕ := slot / desc.slotsPerLeaderWindow
def slotOffset (slot : ℕ) : ℕ := slot % desc.slotsPerLeaderWindow
def windowStart (idx : ℕ) : ℕ := idx * desc.slotsPerLeaderWindow

end SessionDescription

variable (desc : SessionDescription) (a : ℕ)

theorem slot_eq_of_window_offset (b : ℕ) (hw : desc.windowIdx a = desc.windowIdx b)
    (ho : desc.slotOffset a = desc.slotOffset b) : a = b := by
  have ha := Nat.div_add_mod a desc.slotsPerLeaderWindow
  have hb := Nat.div_add_mod b desc.slotsPerLeaderWindow
  unfold SessionDescription.windowIdx at hw
  unfold SessionDescription.slotOffset at ho
  rw [hw, ho] at ha
  exact ha.symm.trans hb

theorem windowIdx_mono {a b : ℕ} (h : a ≤ b) :
    desc.windowIdx a ≤ desc.windowIdx b := Nat.div_le_div_right h

theorem windowStart_le : desc.windowStart (desc.windowIdx a) ≤ a := Nat.div_mul_le_self a _

theorem windowIdx_windowStart (i : ℕ) :
    desc.windowIdx (desc.windowStart i) = i := Nat.mul_div_cancel i desc.slots_pos

theorem lt_windowStart_iff (i : ℕ) : a < desc.windowStart i ↔ desc.windowIdx a < i :=
  (Nat.div_lt_iff_lt_mul desc.slots_pos).symm

end TonNode.Simplex
