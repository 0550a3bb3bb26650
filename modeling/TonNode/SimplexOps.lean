import TonNode.SimplexRules

/-! From the operations of the state machine to its steps: every operation that
returns is a sequence of `Step`s, given that its input is vouched for. -/
namespace TonNode.Simplex.SimplexState

open Relation
open Relation.ReflTransGen (head single)
open SlotVotes (importSkipSignature importNotarizeSignature importFinalizeSignature certificates)
open ReflTransGen (refl)

variable {desc : SessionDescription} {E : Evidence} {st st' : SimplexState} {slot : ℕ}

theorem foldl_field {α β γ : Type} {f : β → α → β} (g : β → γ) (hg : ∀ b a, g (f b a) = g b)
    (l : List α) (b : β) : g (l.foldl f b) = g b := by
  induction l generalizing b with
  | nil => rfl
  | cons a l ih => exact (ih (f b a)).trans (hg b a)

variable (sv : SlotVotes) (hash : UInt256)

theorem importNotarizeSignature_certificates (sv : SlotVotes) (sig : VoteSignature) :
    (importNotarizeSignature desc slot hash sv sig).certificates = sv.certificates := by
  unfold importNotarizeSignature SlotVotes.recordNotarize SlotVotes.setVotes
  split_ifs
  · rfl
  · dsimp only
    split_ifs <;> rfl

theorem importFinalizeSignature_certificates (sv : SlotVotes) (sig : VoteSignature) :
    (importFinalizeSignature desc slot hash sv sig).certificates = sv.certificates := by
  unfold importFinalizeSignature SlotVotes.recordFinalize SlotVotes.setVotes
  split_ifs
  · rfl
  · dsimp only
    split_ifs <;> rfl

theorem importSkipSignature_certificates (sig : VoteSignature) :
    (importSkipSignature desc slot sv sig).certificates = sv.certificates := by
  unfold importSkipSignature SlotVotes.recordSkip SlotVotes.setVotes
  split_ifs
  · rfl
  · dsimp only
    split_ifs <;> rfl

theorem handle_certificates (desc : SessionDescription) (sv : SlotVotes) (idx : ℕ) (vote : Vote)
    (signature : SignatureBytes) (raw : RawVoteData) :
    (sv.handle desc idx vote signature raw).1.certificates = sv.certificates := by
  cases vote with
  | notarize v =>
    unfold SlotVotes.handle SlotVotes.handleNotarize
    dsimp only
    split
    · split_ifs <;> rfl
    · split
      · split_ifs <;> rfl
      · rfl
  | finalize v =>
    unfold SlotVotes.handle SlotVotes.handleFinalize
    dsimp only
    split
    · split_ifs <;> rfl
    · split_ifs <;> rfl
  | skip v =>
    unfold SlotVotes.handle SlotVotes.handleSkip
    dsimp only
    split_ifs
    · rfl
    · split <;> rfl

theorem importNotarCert_certificates (c : NotarCert) :
    (sv.importNotarCert desc slot hash c).certificates =
      (some c, sv.finalizeCertificate, sv.skipCertificate) :=
  foldl_field certificates (importNotarizeSignature_certificates hash) _ _

theorem importFinalCert_certificates (c : FinalCert) :
    (sv.importFinalCert desc slot hash c).certificates =
      (sv.notarizeCertificate, some c, sv.skipCertificate) :=
  foldl_field certificates (importFinalizeSignature_certificates hash) _ _

theorem importSkipCert_certificates (c : SkipCert) : (sv.importSkipCert desc slot c).certificates =
      (sv.notarizeCertificate, sv.finalizeCertificate, some c) :=
  foldl_field certificates importSkipSignature_certificates _ _

theorem Grounded.rewrite_steps (hg : Grounded E st) (hs : E.Stable) (slot : ℕ) :
    Steps desc E st (st.setSlotVotes slot (st.slotVotesAt slot)) := by
  obtain ⟨hv, hc⟩ := hg.slotVotesAt hs slot
  exact single (Step.votes slot _ hv hc)

variable {now : ℕ} {hash : UInt256}

theorem setNotarizeCertificate_steps {c : NotarCert} (hs : E.Stable) (hg : Grounded E st)
    (hev : E.notar slot hash) (hhash : c.vote.blockHash = hash)
    (himport : ∀ sv, E.votes slot sv →
      E.votes slot (c.signatures.foldl (importNotarizeSignature desc slot hash) sv)) :
    Yields (fun r => Steps desc E st r.1) (setNotarizeCertificate desc now st slot hash c) := by
  have hvotes : E.votes slot ((st.slotVotesAt slot).importNotarCert desc slot hash c) :=
    hs.tally slot _ _ (himport { st.slotVotesAt slot with notarizeCertificate := some c }
      (hs.tally slot _ _ (hg.slotVotesAt hs slot).1 ⟨rfl, rfl, rfl, rfl⟩)) ⟨rfl, rfl, rfl, rfl⟩
  refine setNotarizeCertificate_rule (fun _ _ _ _ _ => hg.rewrite_steps hs slot) (fun hfin => ?_)
    fun hfin => Outcome.yields fun st' hon => ?_
  · exact single (Step.votes slot _ hvotes fun _ _ => Or.inl hfin)
  · have hann := announced_notarization E.past st slot hash c
    refine head (Step.event (.notarizationReached slot hash c) hev) ?_
    refine head (Step.votes slot _ hvotes fun c' hc' => Or.inr ?_)
      (Steps.of_chain (onBlockNotarized_steps hann hon))
    obtain rfl := Option.some.inj
      ((congrArg Prod.fst (importNotarCert_certificates _ hash c)).symm.trans hc')
    rwa [hhash]

theorem acceptFinalizeCertificate_steps {c : FinalCert} {adv : Bool} (hev : E.final slot hash) :
    Yields (Steps desc E st) (acceptFinalizeCertificate desc now st slot hash c adv) := by
  refine Outcome.yields fun st' h => ?_
  unfold acceptFinalizeCertificate at h
  dsimp only at h
  refine head (Step.event (.blockFinalized slot hash
    ((st.candidateIds hash).map (·.block)) c) hev) ?_
  refine head (Step.event (.finalizationReached slot hash c) hev) ?_
  have hann : Announced E.past ((st.pushEventBack (.blockFinalized slot hash
      ((st.candidateIds hash).map (·.block)) c)).pushEventBack
      (.finalizationReached slot hash c)) ⟨slot, hash⟩ :=
    (announced_finalization E.past st slot hash _ c).mono (List.prefix_append _ _)
  generalize (st.pushEventBack (.blockFinalized slot hash
    ((st.candidateIds hash).map (·.block)) c)).pushEventBack
    (.finalizationReached slot hash c) = st1 at h hann ⊢
  refine (Steps.of_chain (applyFinalCertParentChain_steps hann)).trans ?_
  refine head (Step.finalized slot) ?_
  split_ifs at h with hadv
  · exact Steps.of_chain (advancePresentAfterFinalization_steps h)
  · cases h
    exact refl

theorem setFinalizeCertificate_steps {c : FinalCert} (hs : E.Stable) (hg : Grounded E st)
    (hev : E.final slot hash)
    (himport : ∀ sv, E.votes slot sv →
      E.votes slot (c.signatures.foldl (importFinalizeSignature desc slot hash) sv)) :
    Yields (fun r => Steps desc E st r.1) (setFinalizeCertificate desc now st slot hash c) := by
  obtain ⟨hvotes0, hcert0⟩ := hg.slotVotesAt hs slot
  refine setFinalizeCertificate_rule (fun _ => refl)
    (fun _ _ _ => hg.rewrite_steps hs slot) fun _ => ?_
  refine (acceptFinalizeCertificate_steps hev).mono fun st' h =>
    head (Step.votes slot _ ?_ fun c' hc' => hcert0 c' ?_) h
  · exact hs.tally slot _ _ (himport { st.slotVotesAt slot with finalizeCertificate := some c }
      (hs.tally slot _ _ hvotes0 ⟨rfl, rfl, rfl, rfl⟩)) ⟨rfl, rfl, rfl, rfl⟩
  · exact (congrArg Prod.fst (importFinalCert_certificates _ hash c)).symm.trans hc'

/-- The marks `set_skip_certificate` makes before it propagates the base. -/
theorem setSkip_flagged (st : SimplexState) (slot : ℕ) :
    SkipFlagged desc st (modifySlot desc (ensureWindowExists desc st (desc.windowIdx slot)
      .boundedByHorizon) slot fun sl => { sl with skipped := true }) slot := by
  have hq := ensureWindowExists_quiet desc st (desc.windowIdx slot) .boundedByHorizon
  generalize ensureWindowExists desc st (desc.windowIdx slot) .boundedByHorizon = st1 at hq ⊢
  by_cases ht : Tracked desc st1 slot
  · exact Or.inr (hq.slotUpdate (modifySlot_update ht _))
  · rw [modifySlot_of_not_tracked ht]
    exact Or.inl hq

theorem skipAdvance_steps {st0 : SimplexState} (hflag : SkipFlagged desc st0 st slot)
    (hfin : st0.firstNonFinalizedSlot ≤ slot) (hev : E.skip slot) :
    Yields (Steps desc E st0) (skipAdvance desc now st slot) := by
  refine Outcome.yields fun st' h => ?_
  refine (Steps.of_chain (propagateBaseAfterSkipCert_steps hflag hfin hev)).trans ?_
  unfold skipAdvance at h
  dsimp only at h
  split_ifs at h
  · exact Steps.of_chain (advanceLeaderWindow_steps h)
  · cases h
    exact refl

theorem setSkipCertificate_steps {c : SkipCert} (hs : E.Stable) (hg : Grounded E st)
    (hev : E.skip slot)
    (himport : ∀ sv, E.votes slot sv →
      E.votes slot (c.signatures.foldl (importSkipSignature desc slot) sv)) :
    Yields (fun r => Steps desc E st r.1) (setSkipCertificate desc now st slot c) := by
  obtain ⟨hvotes0, hcert0⟩ := hg.slotVotesAt hs slot
  refine setSkipCertificate_rule (fun _ => refl)
    (fun _ _ => hg.rewrite_steps hs slot) fun hfin => ?_
  have hset : Step desc E st (st.setSlotVotes slot
      ((st.slotVotesAt slot).importSkipCert desc slot c)) := by
    refine Step.votes slot _ ?_ fun c' hc' => hcert0 c' ?_
    · exact hs.tally slot _ _ (himport { st.slotVotesAt slot with skipCertificate := some c }
        (hs.tally slot _ _ hvotes0 ⟨rfl, rfl, rfl, rfl⟩)) ⟨rfl, rfl, rfl, rfl⟩
    · exact (congrArg Prod.fst (importSkipCert_certificates _ c)).symm.trans hc'
  refine acceptSkipCertificate_rule (skipAdvance_steps (setSkip_flagged _ slot) hfin hev)
    fun st' h => ?_
  exact ((head hset h).tail (Step.event (.slotSkipped slot) hev)).tail
    (Step.event (.skipCertificateReached slot c) hev)

theorem lookup_setSlotVotes_isSome (st : SimplexState) (slot : ℕ) (sv : SlotVotes) :
    ((st.setSlotVotes slot sv).slotVotes.lookup slot).isSome := by
  unfold setSlotVotes
  rw [AList.lookup_insert]
  rfl

/-- What the threshold phases keep: the accounting of the slot and the boundary. -/
def StepsBelow (desc : SessionDescription) (E : Evidence) (st : SimplexState) (slot : ℕ)
    (st' : SimplexState) : Prop :=
  Steps desc E st st' ∧ (st'.slotVotes.lookup slot).isSome ∧
    st'.firstNonFinalizedSlot = st.firstNonFinalizedSlot

variable {block : UInt256}

theorem announceNotarization_steps (hs : E.Sound desc) (hg : Grounded E st)
    (hlook : (st.slotVotes.lookup slot).isSome) (hev : E.notar slot block) :
    Yields (fun st' => StepsBelow desc E st slot st' ∧
      (slot < st'.firstNonFinalizedSlot ∨ Announced E.past st' ⟨slot, block⟩))
      (announceNotarization desc slot st block) := by
  refine announceNotarization_rule (fun hnone => ?_) (fun _ _ _ _ _ => trivial)
    (fun sv c hsv _ hc => ?_) fun sv c0 hsv hc0 hhash => ?_
  · rw [hnone] at hlook
    cases hlook
  · have hann := announced_notarization E.past st slot block c
    refine ⟨⟨?_, lookup_setSlotVotes_isSome st slot _, rfl⟩, Or.inr hann⟩
    refine head (Step.event (.notarizationReached slot block c) hev) ?_
    refine single (Step.votes slot _
      (hs.tally slot sv _ (hg.votes slot sv hsv) ⟨rfl, rfl, rfl, rfl⟩) fun c' hc' => Or.inr ?_)
    obtain rfl := Option.some.inj hc'
    subst hc
    exact hann
  · -- the certificate was stored and announced before
    have hold := hg.certs slot sv c0 hsv hc0
    refine ⟨⟨?_, lookup_setSlotVotes_isSome st slot _, rfl⟩, hhash ▸ hold⟩
    refine single (Step.votes slot _
      (hs.tally slot sv _ (hg.votes slot sv hsv) ⟨rfl, rfl, rfl, rfl⟩) fun c' hc' => ?_)
    obtain rfl := Option.some.inj hc'
    exact hold

theorem StepsBelow.notarizeThreshold {st1 : SimplexState} {published : Bool} {weight : ℕ}
    (hs : E.Sound desc) (hg : Grounded E st)
    (hev : desc.getThreshold66 ≤ weight → E.notar slot block) (h : StepsBelow desc E st slot st1) :
    Yields (StepsBelow desc E st slot)
      (notarizeThreshold desc now slot published st1 block weight) := by
  refine notarizeThreshold_rule h
    (fun _ hthr => announceNotarization_steps hs (hg.steps h.1) h.2.1 (hev hthr)) fun st2 h2 => ?_
  obtain ⟨⟨hsteps, hlook, hsame⟩, hor⟩ := h2
  refine Outcome.yields fun st3 hon => ?_
  rcases hor with hfin | hp
  · unfold onBlockNotarized at hon
    rw [if_pos hfin] at hon
    cases hon
    exact ⟨h.1.trans hsteps, hlook, hsame.trans h.2.2⟩
  · have hchain : ChainSteps desc E st2 st3 := onBlockNotarized_steps hp hon
    have hk := hchain.keepsVotes
    refine ⟨(h.1.trans hsteps).trans (Steps.of_chain hchain), ?_, ?_⟩
    · rwa [hk.slotVotes]
    · exact (hk.finalized.trans hsame).trans h.2.2

theorem advanceAfterFinalizeThreshold_steps (hann : Announced E.past st ⟨slot, block⟩)
    (hfin : st.firstNonFinalizedSlot ≤ slot + 1) :
    Yields (Steps desc E st) (advanceAfterFinalizeThreshold desc now slot st block) := by
  have hann1 : Announced E.past (advanceFinalized st slot) ⟨slot, block⟩ :=
    hann.mono (by rw [advanceFinalized_events])
  have hfin1 : (advanceFinalized st slot).firstNonFinalizedSlot ≤ slot + 1 := by
    rw [advanceFinalized_finalized]
    exact max_le hfin le_rfl
  have hprop : Steps desc E st
      (propagateBaseAfterNotarization desc (advanceFinalized st slot) ⟨slot, block⟩) :=
    head (Step.finalized slot) (Steps.of_chain (propagateBaseAfterNotarization_steps hann1 hfin1))
  rw [advanceAfterFinalizeThreshold_eq now block hfin]
  split_ifs
  · exact Outcome.yields fun st' h =>
      hprop.trans (Steps.of_chain (advancePresentAfterFinalization_steps h))
  · exact hprop

variable {sv : SlotVotes}

section

variable (hs : E.Sound desc) (hg : Grounded E st) (hlook : st.slotVotes.lookup slot = some sv)
  (hev : E.final slot block)
include hs hg hlook hev

theorem announceFinalization_steps :
    Yields (fun st' => Steps desc E st st' ∧ Announced E.past st' ⟨slot, block⟩ ∧
      st'.firstNonFinalizedSlot = st.firstNonFinalizedSlot)
      (announceFinalization desc slot st sv block) := by
  refine announceFinalization_rule (fun _ _ _ => trivial) fun c cert st1 _ _ hst1 => ?_
  subst hst1
  have hset : Steps desc E st (st.setSlotVotes slot
      { sv with blockFinalizedPublished := true, finalizeCertificate := some c }) :=
    single (Step.votes slot _ (hs.tally slot sv _ (hg.votes slot sv hlook) ⟨rfl, rfl, rfl, rfl⟩)
      fun c' hc' => hg.certs slot sv c' hlook hc')
  have hpush := hset.tail (Step.event (.blockFinalized slot block
    ((st.candidateIds block).map (·.block)) cert) hev)
  have hann := announced_finalization E.past (st.setSlotVotes slot { sv with
    blockFinalizedPublished := true, finalizeCertificate := some c }) slot block
    ((st.candidateIds block).map (·.block)) cert
  exact ⟨⟨hpush, hann, rfl⟩, hpush.tail (Step.event (.finalizationReached slot block cert) hev),
    hann.mono (List.prefix_append _ _), rfl⟩

theorem finalizeThreshold_steps (hfin : st.firstNonFinalizedSlot ≤ slot + 1) :
    Yields (Steps desc E st) (finalizeThreshold desc now slot st sv block) := by
  unfold finalizeThreshold
  refine Outcome.elim _ (announceFinalization_steps hs hg hlook hev) (fun _ _ => trivial)
    fun st1 h1 => ?_
  obtain ⟨hsteps, hp, hsame⟩ := h1
  exact (advanceAfterFinalizeThreshold_steps hp (hsame.le.trans hfin)).mono fun _ h => hsteps.trans h

end

theorem skipPhase_steps (hs : E.Sound desc) (hg : Grounded E st)
    (hev : desc.getThreshold66 ≤ sv.skipWeight → E.skip slot) :
    Yields (Steps desc E st) (skipPhase desc now slot sv st) := by
  refine skipPhase_rule refl fun _ _ hfin hthr => ?_
  have hskip := hev hthr
  have hann : Steps desc E st (announceSkip desc slot st) ∧
      (announceSkip desc slot st).firstNonFinalizedSlot = st.firstNonFinalizedSlot := by
    refine announceSkip_rule (P := fun st' => Steps desc E st st' ∧
        st'.firstNonFinalizedSlot = st.firstNonFinalizedSlot)
      (fun _ => ⟨single (Step.event (.slotSkipped slot) hskip), rfl⟩) fun sv cert hsv _ => ⟨?_, rfl⟩
    have hset : Step desc E st (st.setSlotVotes slot
        { sv with slotSkippedPublished := true, skipCertificate := some cert }) :=
      Step.votes slot _ (hs.tally slot sv _ (hg.votes slot sv hsv) ⟨rfl, rfl, rfl, rfl⟩)
        fun c' hc' => hg.certs slot sv c' hsv hc'
    exact ((single hset).tail (Step.event (.slotSkipped slot) hskip)).tail
      (Step.event (.skipCertificateReached slot cert) hskip)
  exact (skipAdvance_steps (Or.inl (Quiet.refl _)) (hann.2.le.trans hfin) hskip).mono
    fun _ h => hann.1.trans h

theorem reachedFinalize_mem {e : Σ _ : UInt256, ℕ} (h : reachedFinalize desc sv = some e) :
    sv.finalizeWeightByBlock.lookup e.1 = some e.2 ∧ desc.getThreshold66 ≤ e.2 := by
  unfold reachedFinalize at h
  split_ifs at h
  refine ⟨?_, by simpa only [decide_eq_true_eq] using List.find?_some h⟩
  exact (AList.mem_entries_iff_lookup _ _ _).mp (List.mem_of_find?_eq_some h)

theorem checkThresholdsAndTrigger_steps (hs : E.Sound desc) (hg : Grounded E st)
    (hfin : st.firstNonFinalizedSlot ≤ slot) :
    Yields (Steps desc E st) (checkThresholdsAndTrigger desc now st slot) := by
  apply checkThresholdsAndTrigger_rule (I := StepsBelow desc E st slot) (F := Steps desc E st)
    (fun _ _ => trivial) refl
  · intro sv hsv
    exact ⟨refl, by rw [hsv]; rfl, rfl⟩
  · intro sv hsv st1 e he h1
    exact h1.notarizeThreshold hs hg fun hthr => hs.notar slot sv e.1 e.2 (hg.votes slot sv hsv)
      ((AList.mem_entries_iff_lookup _ _ _).mp he) hthr
  · exact fun st1 h1 => h1.1
  · intro sv e hsv hreach st1 sv1 h1 hsv1
    obtain ⟨hmem, hthr⟩ := reachedFinalize_mem hreach
    refine (finalizeThreshold_steps hs (hg.steps h1.1) hsv1
      (hs.final slot sv e.1 e.2 (hg.votes slot sv hsv) hmem hthr) ?_).mono fun _ h => h1.1.trans h
    rw [h1.2.2]
    exact hfin.trans (Nat.le_succ slot)
  · intro sv hsv st1 h1
    have hsteps : Steps desc E st st1 := h1.elim And.left id
    exact (skipPhase_steps hs (hg.steps hsteps) (hs.skip slot sv (hg.votes slot sv hsv))).mono
      fun _ h => hsteps.trans h

theorem onVote_steps {idx : ℕ} {vote : Vote} {signature : SignatureBytes} {raw : RawVoteData}
    (hs : E.Sound desc) (hg : Grounded E st)
    (hhandle : idx < desc.totalNodes → ∀ sv, E.votes vote.slot sv →
      E.votes vote.slot (sv.handle desc idx vote signature raw).1) :
    Yields (fun r => Steps desc E st r.1) (onVote desc now st idx vote signature raw) := by
  obtain ⟨hvotes, hcert⟩ := hg.slotVotesAt hs.toStable vote.slot
  refine onVote_rule (fun _ => refl) fun hidx _ hfin sv r hr => ?_
  have hsv := hhandle hidx _ hvotes
  have hcerts := handle_certificates desc (st.slotVotesAt vote.slot) idx vote signature raw
  rw [hr] at hsv hcerts
  have hset : Steps desc E st (st.setSlotVotes vote.slot sv) := by
    refine single (Step.votes vote.slot sv hsv fun c hc => hcert c ?_)
    rw [← hc]
    exact (congrArg Prod.fst hcerts).symm
  exact ⟨hset, (checkThresholdsAndTrigger_steps hs (hg.steps hset) hfin).mono
    fun _ h => hset.trans h⟩

def Evidence.Admits (desc : SessionDescription) (E : Evidence) : Op → Prop
  | .onCandidate c => (∀ p, c.parentId = some p → p.slot < c.id.slot) → E.cand c
  | .onVote idx vote signature raw => idx < desc.totalNodes → ∀ sv, E.votes vote.slot sv →
      E.votes vote.slot (sv.handle desc idx vote signature raw).1
  | .setNotarizeCertificate c => E.notar c.vote.slot c.vote.blockHash ∧
      ∀ sv, E.votes c.vote.slot sv → E.votes c.vote.slot (c.signatures.foldl
        (importNotarizeSignature desc c.vote.slot c.vote.blockHash) sv)
  | .setFinalizeCertificate c => E.final c.vote.slot c.vote.blockHash ∧
      ∀ sv, E.votes c.vote.slot sv → E.votes c.vote.slot (c.signatures.foldl
        (importFinalizeSignature desc c.vote.slot c.vote.blockHash) sv)
  | .setSkipCertificate c => E.skip c.vote.slot ∧
      ∀ sv, E.votes c.vote.slot sv → E.votes c.vote.slot (c.signatures.foldl
        (importSkipSignature desc c.vote.slot) sv)
  | .checkAll => E.alarm
  | .cleanupSlots _ => True

theorem map_fst_eq_ok {α β ε : Type} {x : Except ε (α × β)} {a : α}
    (h : x.map (·.1) = .ok a) : ∃ b, x = .ok (a, b) := by
  cases x with
  | error e => cases h
  | ok p =>
    cases h
    exact ⟨p.2, rfl⟩

theorem applyOp_steps {op : Op} (hs : E.Sound desc) (hg : Grounded E st) (ha : E.Admits desc op)
    (h : applyOp desc now st op = .ok st') : Steps desc E st st' := by
  cases op with
  | onCandidate c =>
    dsimp only [applyOp] at h
    cases hc : onCandidate desc st c with
    | error e =>
      rw [hc] at h
      cases h
      exact refl
    | ok st1 =>
      rw [hc] at h
      cases h
      exact Steps.of_local (onCandidate_steps hc ha)
  | onVote idx vote signature raw =>
    obtain ⟨r, hr⟩ := map_fst_eq_ok h
    exact (onVote_steps hs hg ha).of_ok hr
  | setNotarizeCertificate c =>
    obtain ⟨r, hr⟩ := map_fst_eq_ok h
    exact (setNotarizeCertificate_steps hs.toStable hg ha.1 rfl ha.2).of_ok hr
  | setFinalizeCertificate c =>
    obtain ⟨r, hr⟩ := map_fst_eq_ok h
    exact (setFinalizeCertificate_steps hs.toStable hg ha.1 ha.2).of_ok hr
  | setSkipCertificate c =>
    obtain ⟨r, hr⟩ := map_fst_eq_ok h
    exact (setSkipCertificate_steps hs.toStable hg ha.1 ha.2).of_ok hr
  | checkAll => exact Steps.of_local (checkAll_steps ha h)
  | cleanupSlots upToSlot =>
    cases h
    exact single (Step.prune upToSlot)

end TonNode.Simplex.SimplexState
