import TonNode.SimplexChain

/-! The steps of the state machine, and the steps taken by notarizations, skip
certificates and finalization certificates once they are accepted. -/
namespace TonNode.Simplex.SimplexState

open Relation
open ReflTransGen (mono single refl head)

variable {desc : SessionDescription} {E : Evidence} {st st' st'' : SimplexState} {slot : ℕ}

def Evidence.event (E : Evidence) : SimplexEvent → Prop
  | .broadcastVote _ => False
  | .blockFinalized slot hash _ _ => E.final slot hash
  | .finalizationReached slot hash _ => E.final slot hash
  | .notarizationReached slot hash _ => E.notar slot hash
  | .slotSkipped slot => E.skip slot
  | .skipCertificateReached slot _ => E.skip slot

inductive Step (desc : SessionDescription) (E : Evidence) : SimplexState → SimplexState → Prop
  | chain {st st' : SimplexState} (h : ChainStep desc E st st') : Step desc E st st'
  | event {st : SimplexState} (e : SimplexEvent) (he : E.event e) :
      Step desc E st (st.pushEventBack e)
  | votes {st : SimplexState} (slot : ℕ) (sv : SlotVotes) (hsv : E.votes slot sv)
      (hcert : ∀ c, sv.notarizeCertificate = some c →
        slot < st.firstNonFinalizedSlot ∨ Announced E.past st ⟨slot, c.vote.blockHash⟩) :
      Step desc E st (st.setSlotVotes slot sv)
  | finalized {st : SimplexState} (slot : ℕ) : Step desc E st (advanceFinalized st slot)
  | prune {st : SimplexState} (upToSlot : ℕ) : Step desc E st (cleanupSlots desc st upToSlot)

abbrev Steps (desc : SessionDescription) (E : Evidence) := ReflTransGen (Step desc E)

theorem Steps.of_chain (h : ChainSteps desc E st st') : Steps desc E st st' :=
  mono (fun _ _ => Step.chain) _ _ h

theorem Steps.of_local (h : LocalSteps desc E st st') : Steps desc E st st' :=
  Steps.of_chain (ChainSteps.of_local h)

/-- The stored accounting is vouched for, and the notarization certificate of a
slot that is not finalized was announced. -/
structure Grounded (E : Evidence) (st : SimplexState) : Prop where
  votes : ∀ s sv, st.slotVotes.lookup s = some sv → E.votes s sv
  certs : ∀ s sv c, st.slotVotes.lookup s = some sv → sv.notarizeCertificate = some c →
    s < st.firstNonFinalizedSlot ∨ Announced E.past st ⟨s, c.vote.blockHash⟩

structure SameTally (sv sv' : SlotVotes) : Prop where
  votes : sv'.votes = sv.votes
  notarize : sv'.notarizeWeightByBlock = sv.notarizeWeightByBlock
  finalize : sv'.finalizeWeightByBlock = sv.finalizeWeightByBlock
  skip : sv'.skipWeight = sv.skipWeight

structure Evidence.Stable (E : Evidence) : Prop where
  fresh : ∀ s, E.votes s {}
  tally : ∀ s sv sv', E.votes s sv → SameTally sv sv' → E.votes s sv'

structure Evidence.Sound (desc : SessionDescription) (E : Evidence) : Prop
    extends Evidence.Stable E where
  notar : ∀ s sv h w, E.votes s sv → sv.notarizeWeightByBlock.lookup h = some w →
    desc.getThreshold66 ≤ w → E.notar s h
  final : ∀ s sv h w, E.votes s sv → sv.finalizeWeightByBlock.lookup h = some w →
    desc.getThreshold66 ≤ w → E.final s h
  skip : ∀ s sv, E.votes s sv → desc.getThreshold66 ≤ sv.skipWeight → E.skip s

theorem Grounded.of_keepsVotes (hg : Grounded E st) (h : KeepsVotes st st') : Grounded E st' := by
  refine ⟨fun s sv hs => ?_, fun s sv c hs hc => ?_⟩
  · rw [h.slotVotes] at hs
    exact hg.votes s sv hs
  · rw [h.slotVotes] at hs
    rw [h.finalized]
    exact (hg.certs s sv c hs hc).imp_right fun ha => ha.mono h.events

section

variable (st : SimplexState)

theorem advanceFinalized_finalized (slot : ℕ) :
    (advanceFinalized st slot).firstNonFinalizedSlot = max st.firstNonFinalizedSlot (slot + 1) := by
  unfold advanceFinalized pruneSkipIntervalsBefore
  split_ifs with h
  · exact (Nat.max_eq_right h.le).symm
  · exact (Nat.max_eq_left (Nat.not_lt.mp h)).symm

theorem advanceFinalized_eq_with (slot : ℕ) : advanceFinalized st slot = { st with
      firstNonFinalizedSlot := (advanceFinalized st slot).firstNonFinalizedSlot
      skipIntervals := (advanceFinalized st slot).skipIntervals } := by
  unfold advanceFinalized pruneSkipIntervalsBefore
  split_ifs <;> rfl

theorem advanceFinalized_slotVotes (slot : ℕ) :
    (advanceFinalized st slot).slotVotes = st.slotVotes := by rw [advanceFinalized_eq_with]

theorem advanceFinalized_events (slot : ℕ) :
    (advanceFinalized st slot).events = st.events := by rw [advanceFinalized_eq_with]

end

section

variable (desc : SessionDescription) (st : SimplexState)

theorem cleanupSlots_lookup (upToSlot s : ℕ) (sv : SlotVotes)
    (h : (cleanupSlots desc st upToSlot).slotVotes.lookup s = some sv) :
    st.slotVotes.lookup s = some sv := by
  unfold cleanupSlots at h
  dsimp only at h
  split_ifs at h
  · exact h
  · rw [AList.lookup_retain] at h
    split_ifs at h
    exact h

theorem cleanupSlots_finalized (upToSlot : ℕ) :
    (cleanupSlots desc st upToSlot).firstNonFinalizedSlot = st.firstNonFinalizedSlot := by
  unfold cleanupSlots
  dsimp only
  split_ifs <;> rfl

theorem cleanupSlots_events (upToSlot : ℕ) : (cleanupSlots desc st upToSlot).events = st.events := by
  unfold cleanupSlots
  dsimp only
  split_ifs <;> rfl

end

theorem Grounded.step (hg : Grounded E st) (h : Step desc E st st') : Grounded E st' := by
  cases h with
  | chain h => exact hg.of_keepsVotes h.keepsVotes
  | event e _ => exact hg.of_keepsVotes ⟨List.prefix_append _ _, rfl, rfl, rfl, rfl⟩
  | votes slot sv hsv hcert =>
    refine ⟨fun s sv' hs => ?_, fun s sv' c hs hc => ?_⟩
    · unfold setSlotVotes at hs
      rw [AList.lookup_insert_eq_ite] at hs
      split_ifs at hs with he
      · obtain rfl := Option.some.inj hs
        exact he ▸ hsv
      · exact hg.votes s sv' hs
    · unfold setSlotVotes at hs
      rw [AList.lookup_insert_eq_ite] at hs
      split_ifs at hs with he
      · obtain rfl := Option.some.inj hs
        exact he ▸ hcert c hc
      · exact hg.certs s sv' c hs hc
  | finalized slot =>
    refine ⟨fun s sv hs => ?_, fun s sv c hs hc => ?_⟩
    · rw [advanceFinalized_slotVotes] at hs
      exact hg.votes s sv hs
    · rw [advanceFinalized_slotVotes] at hs
      rw [advanceFinalized_finalized]
      -- the boundary only moves up
      refine (hg.certs s sv c hs hc).imp (fun hlt => lt_max_of_lt_left hlt) fun ha => ?_
      exact ha.mono (by rw [advanceFinalized_events])
  | prune upToSlot =>
    refine ⟨fun s sv hs => ?_, fun s sv c hs hc => ?_⟩
    · exact hg.votes s sv (cleanupSlots_lookup desc st upToSlot s sv hs)
    · rw [cleanupSlots_finalized]
      refine (hg.certs s sv c (cleanupSlots_lookup desc st upToSlot s sv hs) hc).imp_right fun ha => ?_
      exact ha.mono (by rw [cleanupSlots_events])

theorem Steps.events_prefix (h : Steps desc E st st') : st.events <+: st'.events := by
  induction h with
  | refl => exact List.prefix_rfl
  | tail _ hstep ih =>
    refine ih.trans ?_
    cases hstep with
    | chain h => exact h.keepsVotes.events
    | event e _ => exact List.prefix_append _ _
    | votes slot sv _ _ => exact List.prefix_rfl
    | finalized slot => rw [advanceFinalized_events]
    | prune upToSlot => rw [cleanupSlots_events]

theorem Grounded.steps (hg : Grounded E st) (h : Steps desc E st st') : Grounded E st' := by
  induction h with
  | refl => exact hg
  | tail _ hstep ih => exact ih.step hstep

theorem Grounded.slotVotesAt (hg : Grounded E st) (hs : E.Stable) (slot : ℕ) :
    E.votes slot (st.slotVotesAt slot) ∧ ∀ c, (st.slotVotesAt slot).notarizeCertificate = some c →
      slot < st.firstNonFinalizedSlot ∨ Announced E.past st ⟨slot, c.vote.blockHash⟩ := by
  unfold SimplexState.slotVotesAt
  cases hl : st.slotVotes.lookup slot with
  | none => exact ⟨hs.fresh slot, nofun⟩
  | some sv => exact ⟨hg.votes slot sv hl, fun c hc => hg.certs slot sv c hl hc⟩

variable {p : CandidateParentInfo}

theorem propagateBaseAfterNotarization_steps (hp : Announced E.past st p)
    (hfin : st.firstNonFinalizedSlot ≤ p.slot + 1) :
    ChainSteps desc E st (propagateBaseAfterNotarization desc st p) := by
  unfold propagateBaseAfterNotarization
  refine (forwardBase_steps .boundedByHorizon hp hfin).trans ?_
  refine (advanceProgressCursor_steps _).trans ?_
  exact ChainSteps.of_local (checkPendingBlocks_steps _)

theorem observeNotarization_cases (st : SimplexState) (p : CandidateParentInfo) :
    Quiet desc st (observeNotarization desc st p) ∨
      SlotUpdate desc st (observeNotarization desc st p) p.slot
        fun sl => { sl with observedNotarCertificate := some p } := by
  have hq := ensureWindowExists_quiet desc st (desc.windowIdx p.slot) .boundedByHorizon
  unfold observeNotarization
  generalize ensureWindowExists desc st (desc.windowIdx p.slot) .boundedByHorizon = st1 at hq ⊢
  by_cases ht : Tracked desc st1 p.slot
  · exact Or.inr (hq.slotUpdate (modifySlot_update ht _))
  · rw [modifySlot_of_not_tracked ht]
    exact Or.inl hq

theorem observeNotarization_steps (hp : Announced E.past st p)
    (hfin : st.firstNonFinalizedSlot ≤ p.slot) :
    ChainSteps desc E st (observeNotarization desc st p) := by
  rcases observeNotarization_cases st p with hq | hu
  · exact ChainSteps.of_quiet hq
  · exact single (ChainStep.observe p hp hfin hu)

theorem advanceSkipTimer_quiet (st : SimplexState) (slot : ℕ) :
    Quiet desc st (advanceSkipTimer desc st slot) := by
  unfold advanceSkipTimer
  split_ifs
  · split
    · exact Quiet.refl st
    · exact quiet_of_windows_eq _ _ rfl rfl rfl rfl rfl rfl rfl rfl
  · exact Quiet.refl st

theorem onBlockNotarized_steps {now : ℕ} {hash : UInt256} (hp : Announced E.past st ⟨slot, hash⟩)
    (h : onBlockNotarized desc now st slot hash = .ok st') : ChainSteps desc E st st' := by
  unfold onBlockNotarized at h
  split_ifs at h with hfin
  · cases h
    exact refl
  · dsimp only at h
    have hobs : ChainSteps desc E st (observeNotarization desc st ⟨slot, hash⟩) :=
      observeNotarization_steps hp (Nat.not_lt.mp hfin)
    refine hobs.trans ?_
    have hk := hobs.keepsVotes
    generalize observeNotarization desc st ⟨slot, hash⟩ = st1 at h hk
    have hfin1 : st1.firstNonFinalizedSlot ≤ slot + 1 := by rw [hk.finalized]; omega
    refine (propagateBaseAfterNotarization_steps (hp.mono hk.events) hfin1).trans ?_
    cases hadv : advanceLeaderWindowOnProgressCursor desc now
        (propagateBaseAfterNotarization desc st1 ⟨slot, hash⟩) with
    | error p => rw [hadv] at h; cases h
    | ok st2 =>
      rw [hadv] at h
      cases h
      refine (advanceLeaderWindow_steps hadv).trans ?_
      refine (ChainSteps.of_quiet (advanceSkipTimer_quiet st2 slot)).trans ?_
      exact ChainSteps.of_local (tryFinal_steps _ slot hash)

theorem lowerBound_erase (s : Finset ℕ) (x : ℕ) :
    lowerBound (s.erase x) (x + 1) = lowerBound s (x + 1) := by
  have hfilter : (s.erase x).filter (fun b => x + 1 ≤ b) = s.filter fun b => x + 1 ≤ b := by
    ext b
    simp only [Finset.mem_filter, Finset.mem_erase]
    constructor
    · rintro ⟨⟨-, hb⟩, hle⟩
      exact ⟨hb, hle⟩
    · rintro ⟨hb, hle⟩
      exact ⟨⟨by omega, hb⟩, hle⟩
  unfold lowerBound
  simp only [hfilter]

/-- Marking a slot skipped twice is marking it once. -/
theorem SkipFlagged.trans (h1 : SkipFlagged desc st st' slot)
    (h2 : SkipFlagged desc st' st'' slot) : SkipFlagged desc st st'' slot := by
  rcases h1 with h1 | h1 <;> rcases h2 with h2 | h2
  · exact Or.inl (h1.trans h2)
  · exact Or.inr (h1.slotUpdate h2)
  · exact Or.inr (h1.quiet h2)
  · refine Or.inr ⟨h2.1, ?_⟩
    have h := h1.2.trans h2.2
    rwa [h1.2.slots, Function.update_self, Function.update_idem] at h

section

variable (h : SkipFlagged desc st st' slot)
include h

theorem SkipFlagged.slotAt_ne {s : ℕ} (hs : s ≠ slot) : slotAt desc st' s = slotAt desc st s := by
  rcases h with h | h
  · rw [h.slots]
  · exact h.slotAt_ne hs

theorem SkipFlagged.field {α : Type} (g : Slot → α)
    (hg : ∀ sl : Slot, g { sl with skipped := true } = g sl) (s : ℕ) :
    g (slotAt desc st' s) = g (slotAt desc st s) :=
  h.elim (fun hq => by rw [hq.slots]) fun hu => hu.field g (hg _) s

theorem SkipFlagged.keepsVotes : KeepsVotes st st' :=
  h.elim (fun hq => hq.keepsVotes) fun hu => hu.2.keepsVotes

theorem SkipFlagged.intervals : st'.skipIntervals = st.skipIntervals :=
  h.elim (fun hq => hq.intervals) fun hu => hu.2.intervals

end

section

variable {st0 : SimplexState} {x : ℕ} (hmark : SkipFlagged desc st0 st x)
  (hfin : st0.firstNonFinalizedSlot ≤ x)
include hmark hfin

/-- The three outcomes of `propagate_base_after_skip_cert`, after the marks of
the certificate (`st` may already carry the flag). -/
theorem propagateBaseAfterSkipCert_shape : ∃ st1, SkipMark desc st0 st1 x ∧
      (st.leaderWindowOffset ≤ desc.windowIdx x → WithinHorizon desc st x →
        (slotAt desc st1 x).skipped = true) ∧
      (SearchBlocked desc st1 x ∧ propagateBaseAfterSkipCert desc st x =
          (checkPendingBlocks desc (advanceProgressCursor desc st1), false) ∨
        (slotAt desc st1 x).availableBase = none ∧
          propagateBaseAfterSkipCert desc st x = (checkPendingBlocks desc st1, false) ∨
        ∃ n b, NextFrom desc st1 x n ∧ (slotAt desc st1 x).availableBase = some b ∧
          propagateBaseAfterSkipCert desc st x =
            (checkPendingBlocks desc (advanceProgressCursor desc
              ((updateSlotMut desc st1 n .boundedByHorizon
                (·.addAvailableBaseMax b)).getD st1)), true)) := by
  unfold propagateBaseAfterSkipCert
  dsimp only
  -- the flag is set (again) and the next slot is searched
  have hflag : SkipFlagged desc st ((updateSlotMut desc st x .boundedByHorizon
      fun sl => { sl with skipped := true }).getD st) x := by
    rcases updateSlotMut_getD_cases desc st x .boundedByHorizon
        (fun sl => { sl with skipped := true }) with hsame | ⟨-, hup⟩
    · rw [hsame]
      exact Or.inl (Quiet.refl st)
    · exact Or.inr hup
  -- where the window is not refused the flag ends up set
  have hset (hoff : st.leaderWindowOffset ≤ desc.windowIdx x) (hhor : WithinHorizon desc st x) :
      (slotAt desc ((updateSlotMut desc st x .boundedByHorizon
        fun sl => { sl with skipped := true }).getD st) x).skipped = true := by
    have hle : st.firstNonFinalizedSlot ≤ x := by rw [hmark.keepsVotes.finalized]; exact hfin
    obtain ⟨st2, hst2⟩ := Option.isSome_iff_exists.mp ((updateSlotMut_isSome_iff desc st x
      .boundedByHorizon fun sl => { sl with skipped := true }).mpr ⟨hle, hoff, Or.inr hhor⟩)
    rw [hst2, Option.getD_some, (updateSlotMut_spec hst2).2.slotAt_self]
  generalize (updateSlotMut desc st x .boundedByHorizon
    fun sl => { sl with skipped := true }).getD st = stf at hflag hset ⊢
  obtain ⟨hq, hnext, hblocked⟩ := findNextNonskippedSlot_spec desc stf x .boundedByHorizon
  generalize findNextNonskippedSlot desc stf x .boundedByHorizon = r at hq hnext hblocked ⊢
  have hall : SkipFlagged desc st0 r.1 x := (hmark.trans hflag).trans (Or.inl hq)
  have hint : r.1.skipIntervals = st0.skipIntervals := hall.intervals
  have hkeep := hall.keepsVotes
  have hsucc : SkippedAt desc stf (x + 1) ↔ (slotAt desc st0 (x + 1)).skipped = true := by
    rw [← hq.sameChain.skippedAt_iff]
    unfold SkippedAt
    rw [hkeep.finalized, hall.slotAt_ne (Nat.succ_ne_self x)]
    exact and_iff_right (by omega)
  have hskippedAt (s1 : SimplexState) (h1 : s1 = { r.1 with
      skipIntervals := intervalsAfterSkip desc st0 x }) (k : ℕ) :
      SkippedAt desc s1 k ↔ SkippedAt desc stf k := by
    rw [← hq.sameChain.skippedAt_iff, h1]
    rfl
  refine ⟨{ r.1 with skipIntervals := intervalsAfterSkip desc st0 x }, ⟨r.1, hall, rfl⟩,
    fun hoff hhor => ?_, ?_⟩
  · change (slotAt desc r.1 x).skipped = true
    rw [hq.slots]
    exact hset hoff hhor
  -- when the successor is skipped the boundaries after `x` are those before
  have hlower (h : SkippedAt desc stf (x + 1)) :
      lowerBound (intervalsAfterSkip desc st0 x) (x + 1) = lowerBound stf.skipIntervals (x + 1) := by
    unfold intervalsAfterSkip
    rw [if_pos (hsucc.mp h), lowerBound_erase, ← hint, hq.intervals]
  cases hr : r.2 with
  | none =>
    obtain ⟨hs, hb⟩ := hblocked hr
    refine Or.inl ⟨⟨(hskippedAt _ rfl _).mpr hs, fun b hb' => ?_⟩, ?_⟩
    · exact (hskippedAt _ rfl b).mpr (hb b (hlower hs ▸ hb'))
    · dsimp only
      unfold intervalsAfterSkip
      rw [if_pos (hsucc.mp hs), hint]
  | some n =>
    have hn := hnext n hr
    have hintervals : updateSkipIntervalsAfterSkipCert r.1 x n =
        { r.1 with skipIntervals := intervalsAfterSkip desc st0 x } := by
      unfold updateSkipIntervalsAfterSkipCert intervalsAfterSkip
      dsimp only
      rw [hint]
      by_cases hs : (slotAt desc st0 (x + 1)).skipped = true
      · rw [if_pos hs, if_neg (fun he => (hn.eq_succ_iff.mp he) (hsucc.mpr hs))]
      · have he := hn.eq_succ_iff.mpr fun h => hs (hsucc.mp h)
        rw [if_neg hs, if_pos he, he]
    have hbase : getSlotAvailableBase desc
        { r.1 with skipIntervals := intervalsAfterSkip desc st0 x } x =
        (slotAt desc { r.1 with skipIntervals := intervalsAfterSkip desc st0 x } x).availableBase := by
      rw [getSlotAvailableBase_eq, if_neg]
      rw [hkeep.finalized]
      omega
    dsimp only
    rw [hintervals, hbase]
    right
    cases hb : (slotAt desc { r.1 with
        skipIntervals := intervalsAfterSkip desc st0 x } x).availableBase with
    | none => exact Or.inl ⟨rfl, rfl⟩
    | some b =>
      refine Or.inr ⟨n, b, ?_, rfl, rfl⟩
      obtain ⟨hlt, hnot, hbetween⟩ := hn
      refine ⟨hlt, fun h => hnot ((hskippedAt _ rfl n).mp h), hbetween.imp ?_ ?_⟩
      · intro hb k hk hkn
        exact (hskippedAt _ rfl k).mpr (hb k hk hkn)
      · rintro ⟨hs, hl⟩
        exact ⟨(hskippedAt _ rfl _).mpr hs, (hlower hs).trans hl⟩

theorem propagateBaseAfterSkipCert_steps (hx : E.skip x) :
    ChainSteps desc E st0 (propagateBaseAfterSkipCert desc st x).1 := by
  obtain ⟨st1, hskip, -, hcases⟩ := propagateBaseAfterSkipCert_shape hmark hfin
  refine head (ChainStep.skip x hx hfin hskip) ?_
  have hpending (s : SimplexState) : ChainSteps desc E s (checkPendingBlocks desc s) :=
    ChainSteps.of_local (checkPendingBlocks_steps s)
  rcases hcases with ⟨-, heq⟩ | ⟨-, heq⟩ | ⟨n, b, hn, hb, heq⟩
  · rw [heq]
    exact (advanceProgressCursor_steps st1).trans (hpending _)
  · rw [heq]
    exact hpending st1
  · rw [heq]
    refine ReflTransGen.trans ?_ ((advanceProgressCursor_steps _).trans (hpending _))
    rcases updateSlotMut_getD_cases desc st1 n .boundedByHorizon (·.addAvailableBaseMax b) with
      hsame | ⟨hle, hup⟩
    · rw [hsame]
    · have hfin1 : st1.firstNonFinalizedSlot ≤ x := by rw [hskip.keepsVotes.finalized]; exact hfin
      exact mergeBase_steps hle (Or.inr (Or.inl ⟨x, hx, hfin1, hb, hn⟩)) hup

end

theorem applyFinalCertParentChain_steps (hp : Announced E.past st p) :
    ChainSteps desc E st (applyFinalCertParentChain desc st p) := by
  unfold applyFinalCertParentChain
  cases hu : updateSlotMut desc st p.slot .verifiedCertificate (fun sl =>
      if sl.observedNotarCertificate.isNone then { sl with observedNotarCertificate := some p }
      else sl) with
  | none => exact refl
  | some st1 =>
    obtain ⟨hfin, hup⟩ := updateSlotMut_spec hu
    have hobs : ChainSteps desc E st st1 := by
      by_cases hnone : (slotAt desc st p.slot).observedNotarCertificate = none
      · refine single (ChainStep.observe p hp hfin ⟨hup.1, ?_⟩)
        have h2 := hup.2
        dsimp only at h2
        rwa [hnone, Option.isNone_none, if_pos rfl] at h2
      · apply ChainSteps.of_quiet
        apply hup.toQuiet
        exact if_neg fun hn => hnone (Option.isNone_iff_eq_none.mp hn)
    refine hobs.trans ?_
    have hk := hobs.keepsVotes
    have hfin1 : st1.firstNonFinalizedSlot ≤ p.slot + 1 := by rw [hk.finalized]; omega
    refine (forwardBase_steps .verifiedCertificate (hp.mono hk.events) hfin1).trans ?_
    exact ChainSteps.of_local (checkPendingBlocks_steps _)

theorem advancePresentAfterFinalization_steps {now : ℕ}
    (h : advancePresentAfterFinalization desc now st slot = .ok st') :
    ChainSteps desc E st st' := by
  have hjump : ChainSteps desc E st (maybeJumpProgressCursorAfterFinalization st slot) := by
    unfold maybeJumpProgressCursorAfterFinalization
    split_ifs with hle
    · exact single (ChainStep.cursor (slot + 1) (hle.trans (Nat.le_succ slot)))
    · exact refl
  exact (hjump.trans (advanceProgressCursor_steps _)).trans (advanceLeaderWindow_steps h)

end TonNode.Simplex.SimplexState
