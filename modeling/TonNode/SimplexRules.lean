import TonNode.Outcome
import TonNode.SimplexPipeline

/-! One rule for each operation: what has to be shown at each of its ends for an
arbitrary postcondition. The control flow of the operations is analysed here and
nowhere else. -/
namespace TonNode.Simplex

variable (desc : SessionDescription) (slot : ℕ)

def SlotVotes.importNotarCert (hash : UInt256) (c : NotarCert) (sv : SlotVotes) : SlotVotes :=
  { c.signatures.foldl (importNotarizeSignature desc slot hash)
      { sv with notarizeCertificate := some c } with blockNotarizedPublished := true }

def SlotVotes.importFinalCert (hash : UInt256) (c : FinalCert) (sv : SlotVotes) : SlotVotes :=
  { c.signatures.foldl (importFinalizeSignature desc slot hash)
      { sv with finalizeCertificate := some c } with blockFinalizedPublished := true }

def SlotVotes.importSkipCert (c : SkipCert) (sv : SlotVotes) : SlotVotes :=
  { c.signatures.foldl (importSkipSignature desc slot)
      { sv with skipCertificate := some c } with slotSkippedPublished := true }

namespace SimplexState

variable {desc : SessionDescription} {st : SimplexState} {slot now : ℕ} {Q : Panic → Prop}

section Certificates

variable {P : SimplexState × Except CertificateStoreError Bool → Prop}

theorem setNotarizeCertificate_rule {hash : UInt256} {c : NotarCert}
    (hkept : ∀ r c0, (st.slotVotesAt slot).notarizeCertificate = some c0 →
      (∀ b, r = .ok b → c0.vote.blockHash = hash) → (∀ e, r = .error e → c0.vote.blockHash ≠ hash) →
      P (st.setSlotVotes slot (st.slotVotesAt slot), r))
    (hstored : slot < st.firstNonFinalizedSlot → P (st.setSlotVotes slot
      ((st.slotVotesAt slot).importNotarCert desc slot hash c), .ok true))
    (happlied : st.firstNonFinalizedSlot ≤ slot →
      Outcome Q (fun st' => P (st', .ok true)) (onBlockNotarized desc now ((st.setSlotVotes slot
        ((st.slotVotesAt slot).importNotarCert desc slot hash c)).pushEventBack
          (.notarizationReached slot hash c)) slot hash)) :
    Outcome Q P (setNotarizeCertificate desc now st slot hash c) := by
  unfold setNotarizeCertificate SlotVotes.storeNotarizeCertificate
  dsimp only
  cases hc : (st.slotVotesAt slot).notarizeCertificate with
  | some c0 =>
    by_cases hh : c0.vote.blockHash = hash
    · dsimp only
      rw [if_pos hh]
      exact hkept _ c0 hc (fun b _ => hh) nofun
    · dsimp only
      rw [if_neg hh]
      exact hkept _ c0 hc nofun fun e _ => hh
  | none =>
    dsimp only
    split_ifs with hfin
    · exact hstored hfin
    · exact Outcome.elim _ (happlied (Nat.not_lt.mp hfin)) (fun p hp => hp) fun st' h => h

theorem setFinalizeCertificate_rule {hash : UInt256} {c : FinalCert}
    (hold : slot < st.firstNonFinalizedSlot → P (st, .ok false))
    (hkept : st.firstNonFinalizedSlot ≤ slot → (st.slotVotesAt slot).finalizeCertificate.isSome →
      ∀ r, P (st.setSlotVotes slot (st.slotVotesAt slot), r))
    (hnew : st.firstNonFinalizedSlot ≤ slot → Outcome Q (fun st' => P (st', .ok true))
      (acceptFinalizeCertificate desc now (st.setSlotVotes slot
        ((st.slotVotesAt slot).importFinalCert desc slot hash c)) slot hash c
          (st.firstNonProgressedSlot ≤ slot))) :
    Outcome Q P (setFinalizeCertificate desc now st slot hash c) := by
  unfold setFinalizeCertificate SlotVotes.storeFinalizeCertificate
  dsimp only
  split_ifs with hfin
  · exact hold hfin
  have hle := Nat.not_lt.mp hfin
  cases hc : (st.slotVotesAt slot).finalizeCertificate with
  | some c0 =>
    dsimp only
    split_ifs <;> exact hkept hle (by rw [hc]; rfl) _
  | none =>
    dsimp only
    exact Outcome.elim _ (hnew hle) (fun p hp => hp) fun st' h => h

theorem setSkipCertificate_rule {c : SkipCert}
    (hold : slot < st.firstNonFinalizedSlot → P (st, .ok false))
    (hkept : st.firstNonFinalizedSlot ≤ slot → (st.slotVotesAt slot).skipCertificate.isSome →
      P (st.setSlotVotes slot (st.slotVotesAt slot), .ok false))
    (hnew : st.firstNonFinalizedSlot ≤ slot → Outcome Q (fun st' => P (st', .ok true))
      (acceptSkipCertificate desc now (st.setSlotVotes slot
        ((st.slotVotesAt slot).importSkipCert desc slot c)) slot c)) :
    Outcome Q P (setSkipCertificate desc now st slot c) := by
  unfold setSkipCertificate SlotVotes.storeSkipCertificate
  split_ifs with hfin
  · exact hold hfin
  have hle := Nat.not_lt.mp hfin
  cases hc : (st.slotVotesAt slot).skipCertificate with
  | some c0 => exact hkept hle (by rw [hc]; rfl)
  | none =>
    dsimp only
    exact Outcome.elim _ (hnew hle) (fun p hp => hp) fun st' h => h

end Certificates

variable {P R : SimplexState → Prop}

def skipAdvance (desc : SessionDescription) (now : ℕ) (st : SimplexState) (slot : ℕ) :
    Except Panic SimplexState :=
  let r := propagateBaseAfterSkipCert desc st slot
  if r.2 then advanceLeaderWindowOnProgressCursor desc now r.1 else .ok r.1

theorem acceptSkipCertificate_rule {c : SkipCert}
    (h : Outcome Q P (skipAdvance desc now (modifySlot desc (ensureWindowExists desc st
      (desc.windowIdx slot) .boundedByHorizon) slot fun sl => { sl with skipped := true }) slot))
    (hpush : ∀ st', P st' →
      R ((st'.pushEventBack (.slotSkipped slot)).pushEventBack (.skipCertificateReached slot c))) :
    Outcome Q R (acceptSkipCertificate desc now st slot c) := by
  unfold skipAdvance at h
  unfold acceptSkipCertificate
  dsimp only at h ⊢
  exact Outcome.elim _ h (fun p hp => hp) hpush

theorem announceNotarization_rule {block : UInt256} (hnone : st.slotVotes.lookup slot = none → P st)
    (hconflict : ∀ sv c0, st.slotVotes.lookup slot = some sv → sv.notarizeCertificate = some c0 →
      c0.vote.blockHash ≠ block → Q (.notarizeCertConflict slot))
    (hnew : ∀ sv cert, st.slotVotes.lookup slot = some sv → sv.notarizeCertificate = none →
      cert = sv.createNotarizeCert desc.totalNodes slot block → P ((st.setSlotVotes slot
        { sv with blockNotarizedPublished := true, notarizeCertificate := some cert }).pushEventBack
          (.notarizationReached slot block cert)))
    (hold : ∀ sv c0, st.slotVotes.lookup slot = some sv → sv.notarizeCertificate = some c0 →
      c0.vote.blockHash = block → P (st.setSlotVotes slot
        { sv with blockNotarizedPublished := true, notarizeCertificate := some c0 })) :
    Outcome Q P (announceNotarization desc slot st block) := by
  unfold announceNotarization SlotVotes.storeNotarizeCertificate
  cases hlook : st.slotVotes.lookup slot with
  | none => exact hnone hlook
  | some sv =>
    dsimp only
    cases hc : sv.notarizeCertificate with
    | none => exact hnew sv _ hlook hc rfl
    | some c0 =>
      dsimp only
      split_ifs with hh
      · exact hold sv c0 hlook hc hh
      · exact hconflict sv c0 hlook hc hh

theorem notarizeThreshold_rule {published : Bool} {block : UInt256} {weight : ℕ} (hst : R st)
    (hann : published = false → desc.getThreshold66 ≤ weight →
      Outcome Q P (announceNotarization desc slot st block))
    (hon : ∀ st', P st' → Outcome Q R (onBlockNotarized desc now st' slot block)) :
    Outcome Q R (notarizeThreshold desc now slot published st block weight) := by
  unfold notarizeThreshold
  split_ifs with h
  · simp only [Bool.and_eq_true, Bool.not_eq_true', decide_eq_true_eq] at h
    exact Outcome.elim _ (hann h.1 h.2) (fun p hp => hp) hon
  · exact hst

theorem announceFinalization_rule {sv : SlotVotes} {block : UInt256}
    (hconflict : ∀ c0, sv.finalizeCertificate = some c0 → c0.vote.blockHash ≠ block →
      Q (.finalizeCertConflict slot))
    (hdone : ∀ c cert st1, cert = sv.createFinalizeCert desc.totalNodes slot block →
      sv.finalizeCertificate = some c ∨ sv.finalizeCertificate = none ∧ c = cert →
      st1 = (st.setSlotVotes slot
        { sv with blockFinalizedPublished := true, finalizeCertificate := some c }).pushEventBack
          (.blockFinalized slot block ((st.candidateIds block).map (·.block)) cert) →
      P st1 ∧ P (st1.pushEventBack (.finalizationReached slot block cert))) :
    Outcome Q P (announceFinalization desc slot st sv block) := by
  unfold announceFinalization SlotVotes.storeFinalizeCertificate
  cases hc : sv.finalizeCertificate with
  | none => exact (hdone _ _ _ rfl (Or.inr ⟨hc, rfl⟩) rfl).2
  | some c0 =>
    dsimp only
    split_ifs with hh
    · exact (hdone c0 _ _ rfl (Or.inl hc) rfl).1
    · exact hconflict c0 hc hh

/-- The slot is below the new boundary, so its marker reads as missing and stays
so. -/
theorem advanceAfterFinalizeThreshold_eq (now : ℕ) (block : UInt256)
    (hfin : st.firstNonFinalizedSlot ≤ slot + 1) :
    advanceAfterFinalizeThreshold desc now slot st block =
      if st.firstNonProgressedSlot ≤ slot then advancePresentAfterFinalization desc now
        (propagateBaseAfterNotarization desc (advanceFinalized st slot) ⟨slot, block⟩) slot
      else .ok (propagateBaseAfterNotarization desc (advanceFinalized st slot) ⟨slot, block⟩) := by
  have hC : (advanceFinalized st slot).firstNonProgressedSlot = st.firstNonProgressedSlot := by
    rw [advanceFinalized_eq_with]
  have hbelow : slot < (advanceFinalized st slot).firstNonFinalizedSlot := by
    rw [advanceFinalized_finalized]
    omega
  unfold advanceAfterFinalizeThreshold
  dsimp only
  generalize advanceFinalized st slot = st1 at hC hbelow ⊢
  have hmissing : getSlotRef desc st1 slot = none := if_pos hbelow
  have hmut : updateSlotMut desc st1 slot .boundedByHorizon
      (fun s => { s with observedNotarCertificate := some ⟨slot, block⟩ }) = none := by
    rw [updateSlotMut_eq, if_pos hbelow]
  rw [hmissing, hmut, hC]
  simp

theorem announceSkip_rule
    (hnone : st.slotVotes.lookup slot = none → P (st.pushEventBack (.slotSkipped slot)))
    (hsome : ∀ sv cert, st.slotVotes.lookup slot = some sv →
      (sv.skipCertificate = some cert ∨ sv.skipCertificate = none ∧
        cert = sv.createSkipCert desc.totalNodes slot) → P (((st.setSlotVotes slot
        { sv with slotSkippedPublished := true, skipCertificate := some cert }).pushEventBack
          (.slotSkipped slot)).pushEventBack (.skipCertificateReached slot cert))) :
    P (announceSkip desc slot st) := by
  unfold announceSkip SlotVotes.storeSkipCertificate
  cases hlook : st.slotVotes.lookup slot with
  | none => exact hnone hlook
  | some sv =>
    dsimp only
    cases hc : sv.skipCertificate with
    | none => exact hsome sv _ hlook (Or.inr ⟨hc, rfl⟩)
    | some c0 => exact hsome sv c0 hlook (Or.inl hc)

theorem skipPhase_rule {sv : SlotVotes} (hst : R st)
    (h : sv.slotSkippedPublished = false → sv.blockFinalizedPublished = false →
      st.firstNonFinalizedSlot ≤ slot → desc.getThreshold66 ≤ sv.skipWeight →
      Outcome Q R (skipAdvance desc now (announceSkip desc slot st) slot)) :
    Outcome Q R (skipPhase desc now slot sv st) := by
  unfold skipPhase
  by_cases hc : (!sv.slotSkippedPublished && !sv.blockFinalizedPublished &&
      decide (st.firstNonFinalizedSlot ≤ slot) &&
      decide (desc.getThreshold66 ≤ sv.skipWeight)) = true
  · rw [if_pos hc]
    simp only [Bool.and_eq_true, Bool.not_eq_true', decide_eq_true_eq] at hc
    exact h hc.1.1.1 hc.1.1.2 hc.1.2 hc.2
  · rw [if_neg hc]
    exact hst

/-- The phases of `check_thresholds_and_trigger`; `I` holds between them, `F`
after a finalization. -/
theorem checkThresholdsAndTrigger_rule {I F : SimplexState → Prop}
    (hpanic : ∀ p, checkInvariants desc st = .error p → Q p) (hnone : R st)
    (hI : ∀ sv, st.slotVotes.lookup slot = some sv → I st)
    (hloop : ∀ sv, st.slotVotes.lookup slot = some sv → ∀ st1, ∀ e ∈ sv.notarizeWeightByBlock.entries,
      I st1 → Outcome Q I (notarizeThreshold desc now slot sv.blockNotarizedPublished st1 e.1 e.2))
    (hlost : ∀ st1, I st1 → R st1)
    (hfinal : ∀ sv e, st.slotVotes.lookup slot = some sv → reachedFinalize desc sv = some e →
      ∀ st1 sv1, I st1 → st1.slotVotes.lookup slot = some sv1 →
        Outcome Q F (finalizeThreshold desc now slot st1 sv1 e.1))
    (hskip : ∀ sv, st.slotVotes.lookup slot = some sv → ∀ st1, I st1 ∨ F st1 →
      Outcome Q R (skipPhase desc now slot sv st1)) :
    Outcome Q R (checkThresholdsAndTrigger desc now st slot) := by
  simp only [checkThresholdsAndTrigger, bind, Except.bind, pure, Except.pure]
  cases hinv : checkInvariants desc st with
  | error p => exact hpanic p hinv
  | ok u =>
    cases hlook : st.slotVotes.lookup slot with
    | none => exact hnone
    | some sv =>
      dsimp only
      refine Outcome.elim _ (Outcome.foldlM _ (hI sv hlook) (hloop sv hlook)) (fun p hp => hp)
        fun st1 h1 => ?_
      cases hreach : reachedFinalize desc sv with
      | none => exact hskip sv hlook st1 (Or.inl h1)
      | some e =>
        dsimp only
        cases hlook1 : st1.slotVotes.lookup slot with
        | none => exact hlost st1 h1
        | some sv1 =>
          dsimp only
          exact Outcome.elim _ (hfinal sv e hlook hreach st1 sv1 h1 hlook1) (fun p hp => hp)
            fun st2 h2 => hskip sv hlook st2 (Or.inr h2)

theorem onVote_rule {idx : ℕ} {vote : Vote} {signature : SignatureBytes} {raw : RawVoteData}
    {P : SimplexState × VoteResult → Prop} (hst : ∀ r, P (st, r))
    (hhandled : idx < desc.totalNodes → isVoteSlotTooFarAhead desc st vote.slot = false →
      st.firstNonFinalizedSlot ≤ vote.slot → ∀ sv r,
      (st.slotVotesAt vote.slot).handle desc idx vote signature raw = (sv, r) →
      P (st.setSlotVotes vote.slot sv, r) ∧ Outcome Q (fun st' => P (st', r))
        (checkThresholdsAndTrigger desc now (st.setSlotVotes vote.slot sv) vote.slot)) :
    Outcome Q P (onVote desc now st idx vote signature raw) := by
  unfold onVote handleVote
  by_cases hidx : desc.totalNodes ≤ idx
  · rw [if_pos hidx]
    exact hst _
  by_cases hfar : isVoteSlotTooFarAhead desc st vote.slot = true
  · rw [if_neg hidx, if_pos hfar]
    exact hst _
  rw [if_neg hidx, if_neg hfar]
  by_cases hfin : vote.slot < st.firstNonFinalizedSlot
  · rw [if_pos hfin]
    exact hst _
  rw [if_neg hfin]
  obtain ⟨hset, hcheck⟩ := hhandled (Nat.not_le.mp hidx) (Bool.eq_false_iff.mpr hfar)
    (Nat.not_lt.mp hfin) _ _ rfl
  dsimp only
  split_ifs
  · exact Outcome.elim _ hcheck (fun p hp => hp) fun st' h => h
  · exact hset

end SimplexState
end TonNode.Simplex
