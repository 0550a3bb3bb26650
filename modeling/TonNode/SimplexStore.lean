import TonNode.SimplexCursorRuns

/-! The certificate store and the slot table. A certificate is stored in the
vote accounting, which has no horizon, and marked in the slot table, which has
one; where the window of every certified slot has room the two never differ. -/
namespace TonNode.Simplex.SimplexState

open Relation SkipRuns

variable {desc : SessionDescription} {st st' st'' : SimplexState} {slot : ℕ}

structure MarksExcept (desc : SessionDescription) (st st' : SimplexState) (x : ℕ) : Prop where
  observed : ∀ s, s ≠ x → (slotAt desc st' s).observedNotarCertificate =
    (slotAt desc st s).observedNotarCertificate
  skipped : ∀ s, s ≠ x → (slotAt desc st' s).skipped = (slotAt desc st s).skipped
  aligned : StartsAligned desc st → StartsAligned desc st'
  offset : st'.leaderWindowOffset = st.leaderWindowOffset
  finalized : st'.firstNonFinalizedSlot = st.firstNonFinalizedSlot
  slotVotes : st'.slotVotes = st.slotVotes
  horizon : HorizonLe desc st st'

def SameMarks (desc : SessionDescription) (st st' : SimplexState) : Prop :=
  ∀ x, MarksExcept desc st st' x

variable {x : ℕ}

theorem MarksExcept.trans (h : MarksExcept desc st st' x) (h' : MarksExcept desc st' st'' x) :
    MarksExcept desc st st'' x where
  observed s hs := (h'.observed s hs).trans (h.observed s hs)
  skipped s hs := (h'.skipped s hs).trans (h.skipped s hs)
  aligned ha := h'.aligned (h.aligned ha)
  offset := h'.offset.trans h.offset
  finalized := h'.finalized.trans h.finalized
  slotVotes := h'.slotVotes.trans h.slotVotes
  horizon := h.horizon.trans h'.horizon

theorem SameMarks.trans (h : SameMarks desc st st') (h' : SameMarks desc st' st'') :
    SameMarks desc st st'' := fun x => (h x).trans (h' x)

theorem SameMarks.refl (st : SimplexState) : SameMarks desc st st := fun _ =>
  ⟨fun _ _ => rfl, fun _ _ => rfl, fun h => h, rfl, rfl, rfl, HorizonLe.refl st⟩

theorem SameMarks.slot_observed (h : SameMarks desc st st') (s : ℕ) :
    (slotAt desc st' s).observedNotarCertificate = (slotAt desc st s).observedNotarCertificate :=
  (h (s + 1)).observed s (Nat.succ_ne_self s).symm

theorem SameMarks.slot_skipped (h : SameMarks desc st st') (s : ℕ) :
    (slotAt desc st' s).skipped = (slotAt desc st s).skipped :=
  (h (s + 1)).skipped s (Nat.succ_ne_self s).symm

theorem SlotUpdate.marksExcept {f : Slot → Slot} (h : SlotUpdate desc st st' slot f) :
    MarksExcept desc st st' slot where
  observed s hs := by rw [h.slotAt_ne hs]
  skipped s hs := by rw [h.slotAt_ne hs]
  aligned := h.2.aligned
  offset := h.2.offset
  finalized := h.2.finalized
  slotVotes := h.2.slotVotes
  horizon := h.horizon

theorem SameChain.sameMarks (h : SameChain desc st st') : SameMarks desc st st' := fun _ =>
  ⟨fun s _ => h.observed s, fun s _ => h.skipped s, h.aligned, h.offset, h.finalized, h.slotVotes,
    h.sameView.horizon⟩

theorem BaseUpdate.sameMarks {n : ℕ} {f : Slot → Slot} (h : BaseUpdate desc st st' n f) :
    SameMarks desc st st' := fun _ =>
  ⟨fun s _ => h.slot_observed s, fun s _ => h.slot_skipped s, h.update.2.aligned,
    h.update.2.offset, h.update.2.finalized, h.update.2.slotVotes, h.update.horizon⟩

theorem cursor_sameMarks {c : ℕ} (hc : st.firstNonProgressedSlot ≤ c) :
    SameMarks desc st { st with firstNonProgressedSlot := c } := fun _ =>
  ⟨fun _ _ => rfl, fun _ _ => rfl, fun h => h, rfl, rfl, rfl, HorizonLe.cursor hc⟩

section

variable (desc : SessionDescription) (st : SimplexState)

theorem checkPendingBlocks_sameMarks : SameMarks desc st (checkPendingBlocks desc st) := by
  have h : LocalSteps desc (Evidence.any []) st (checkPendingBlocks desc st) :=
    checkPendingBlocks_steps st
  exact h.sameChain.sameMarks

theorem advanceProgressCursor_sameMarks : SameMarks desc st (advanceProgressCursor desc st) := by
  obtain ⟨c, heq, hc, -⟩ := advanceProgressCursor_spec desc st
  rw [heq]
  exact cursor_sameMarks hc

theorem mergeBase_sameMarks (n : ℕ) (alloc : WindowAlloc) (b : CandidateParent) : SameMarks desc st
      ((updateSlotMut desc st n alloc (·.addAvailableBaseMax b)).getD st) := by
  rcases updateSlotMut_getD_cases desc st n alloc (·.addAvailableBaseMax b) with hsame | ⟨-, hu⟩
  · rw [hsame]
    exact SameMarks.refl st
  · exact (BaseUpdate.of_merge hu).sameMarks

theorem forwardBase_sameMarks (slot : ℕ)
    (alloc : WindowAlloc) (b : CandidateParent) : SameMarks desc st
      (forwardBase desc (findNextNonskippedSlot desc st slot alloc) alloc b) := by
  obtain ⟨hq, -, -⟩ := findNextNonskippedSlot_spec desc st slot alloc
  generalize findNextNonskippedSlot desc st slot alloc = r at hq ⊢
  refine hq.sameChain.sameMarks.trans ?_
  unfold forwardBase
  cases r.2 with
  | none => exact SameMarks.refl _
  | some n => exact mergeBase_sameMarks desc r.1 n alloc b

theorem propagateBaseAfterNotarization_sameMarks
    (p : CandidateParentInfo) : SameMarks desc st (propagateBaseAfterNotarization desc st p) :=
  ((forwardBase_sameMarks desc st p.slot .boundedByHorizon (some p)).trans
    (advanceProgressCursor_sameMarks desc _)).trans (checkPendingBlocks_sameMarks desc _)

end

variable {now : ℕ}

theorem advanceLeaderWindow_sameMarks
    (h : advanceLeaderWindowOnProgressCursor desc now st = .ok st') : SameMarks desc st st' := by
  rcases advanceLeaderWindow_shape h with hq | ⟨n, b, -, -, -, hnone, -, hu⟩
  · exact hq.sameChain.sameMarks
  · refine BaseUpdate.sameMarks (f := fun sl => { sl with availableBase := some b })
      ⟨hu, fun _ => rfl, fun _ => rfl, fun b0 h0 => ?_, fun _ => Option.some_ne_none b⟩
    rw [hnone] at h0
    cases h0

theorem advancePresent_sameMarks (h : advancePresentAfterFinalization desc now st slot = .ok st') :
    SameMarks desc st st' := by
  have hjump : SameMarks desc st (maybeJumpProgressCursorAfterFinalization st slot) := by
    unfold maybeJumpProgressCursorAfterFinalization
    split_ifs with hle
    · exact cursor_sameMarks (hle.trans (Nat.le_succ slot))
    · exact SameMarks.refl st
  exact (hjump.trans (advanceProgressCursor_sameMarks desc _)).trans
    (advanceLeaderWindow_sameMarks h)

variable {hash : UInt256}

theorem onBlockNotarized_marks (hfin : st.firstNonFinalizedSlot ≤ slot)
    (hoff : st.leaderWindowOffset ≤ desc.windowIdx slot) (hroom : WithinHorizon desc st slot)
    (h : onBlockNotarized desc now st slot hash = .ok st') : MarksExcept desc st st' slot ∧
      (slotAt desc st' slot).observedNotarCertificate = some ⟨slot, hash⟩ ∧
      (slotAt desc st' slot).skipped = (slotAt desc st slot).skipped := by
  unfold onBlockNotarized at h
  rw [if_neg (Nat.not_lt.mpr hfin)] at h
  dsimp only at h
  have hu := observeNotarization_update (p := ⟨slot, hash⟩) hoff hroom
  generalize observeNotarization desc st ⟨slot, hash⟩ = st1 at h hu
  have hprop := propagateBaseAfterNotarization_sameMarks desc st1 ⟨slot, hash⟩
  cases hadv : advanceLeaderWindowOnProgressCursor desc now
      (propagateBaseAfterNotarization desc st1 ⟨slot, hash⟩) with
  | error p => rw [hadv] at h; cases h
  | ok st2 =>
    rw [hadv] at h
    cases h
    have htimer : Quiet desc st2 (advanceSkipTimer desc st2 slot) := advanceSkipTimer_quiet st2 slot
    have hfinal : LocalSteps desc (Evidence.any []) (advanceSkipTimer desc st2 slot)
        (tryFinal desc (advanceSkipTimer desc st2 slot) slot hash) := tryFinal_steps _ slot hash
    have hrest := (hprop.trans (advanceLeaderWindow_sameMarks hadv)).trans
      (htimer.sameChain.trans hfinal.sameChain).sameMarks
    refine ⟨hu.marksExcept.trans (hrest slot), ?_, ?_⟩
    · rw [hrest.slot_observed, hu.slotAt_self]
    · rw [hrest.slot_skipped, hu.slotAt_self]

theorem skipAdvance_marks {st0 : SimplexState} (hflag : SkipFlagged desc st0 st slot)
    (hfin : st0.firstNonFinalizedSlot ≤ slot) (hoff : st0.leaderWindowOffset ≤ desc.windowIdx slot)
    (hroom : WithinHorizon desc st0 slot) (h : skipAdvance desc now st slot = .ok st') :
    MarksExcept desc st0 st' slot ∧ (slotAt desc st' slot).skipped = true ∧
      (slotAt desc st' slot).observedNotarCertificate =
        (slotAt desc st0 slot).observedNotarCertificate := by
  obtain ⟨st1, hmark, hset, hcases⟩ := propagateBaseAfterSkipCert_shape hflag hfin
  have hset1 : (slotAt desc st1 slot).skipped = true := by
    refine hset ?_ (hflag.horizon slot hroom)
    rw [hflag.keepsVotes.offset]
    exact hoff
  have hm := hmark.marked hset1 hfin
  have hfirst : MarksExcept desc st0 st1 slot := by
    refine ⟨fun s _ => hm.observed s, fun s hs => ?_, hm.aligned, hm.offset, hm.finalized,
      hmark.keepsVotes.slotVotes, hm.horizon⟩
    obtain ⟨st2, hflag2, rfl⟩ := hmark
    exact congrArg Slot.skipped (hflag2.slotAt_ne hs)
  -- base, cursor and pending blocks leave the marks alone
  have hprop : SameMarks desc st1 (propagateBaseAfterSkipCert desc st slot).1 := by
    rcases hcases with ⟨-, heq⟩ | ⟨-, heq⟩ | ⟨n, b, -, -, heq⟩
    · rw [heq]
      exact (advanceProgressCursor_sameMarks desc st1).trans (checkPendingBlocks_sameMarks desc _)
    · rw [heq]
      exact checkPendingBlocks_sameMarks desc st1
    · rw [heq]
      exact ((mergeBase_sameMarks desc st1 n .boundedByHorizon b).trans
        (advanceProgressCursor_sameMarks desc _)).trans (checkPendingBlocks_sameMarks desc _)
  have hrest : SameMarks desc st1 st' := by
    unfold skipAdvance at h
    dsimp only at h
    split_ifs at h
    · exact hprop.trans (advanceLeaderWindow_sameMarks h)
    · cases h
      exact hprop
  refine ⟨hfirst.trans (hrest slot), ?_, ?_⟩
  · rw [hrest.slot_skipped]
    exact hset1
  · rw [hrest.slot_observed]
    exact hm.observed slot

theorem applyFinalCertParentChain_marks (st : SimplexState) (p : CandidateParentInfo) :
    MarksExcept desc st (applyFinalCertParentChain desc st p) p.slot := by
  unfold applyFinalCertParentChain
  cases hu : updateSlotMut desc st p.slot .verifiedCertificate (fun sl =>
      if sl.observedNotarCertificate.isNone then { sl with observedNotarCertificate := some p }
      else sl) with
  | none => exact SameMarks.refl st p.slot
  | some st1 =>
    exact (updateSlotMut_spec hu).2.marksExcept.trans
      (((forwardBase_sameMarks desc st1 p.slot .verifiedCertificate (some p)).trans
        (checkPendingBlocks_sameMarks desc _)) p.slot)

structure SlotStored (desc : SessionDescription) (st : SimplexState) (s : ℕ) : Prop where
  skip : (st.slotVotesAt s).skipCertificate.isSome = (slotAt desc st s).skipped
  notar : ∀ c, (st.slotVotesAt s).notarizeCertificate = some c →
    (slotAt desc st s).observedNotarCertificate = some ⟨s, c.vote.blockHash⟩
  final : (st.slotVotesAt s).finalizeCertificate = none

structure StoreExcept (desc : SessionDescription) (st : SimplexState) (x : ℕ) : Prop where
  aligned : StartsAligned desc st
  dropped : desc.windowStart st.leaderWindowOffset ≤ st.firstNonFinalizedSlot
  stored : ∀ s, st.firstNonFinalizedSlot ≤ s → s ≠ x → SlotStored desc st s

structure StoreInv (desc : SessionDescription) (st : SimplexState) : Prop where
  aligned : StartsAligned desc st
  dropped : desc.windowStart st.leaderWindowOffset ≤ st.firstNonFinalizedSlot
  stored : ∀ s, st.firstNonFinalizedSlot ≤ s → SlotStored desc st s

theorem StoreInv.except (hi : StoreInv desc st) (x : ℕ) : StoreExcept desc st x :=
  ⟨hi.aligned, hi.dropped, fun s hs _ => hi.stored s hs⟩

theorem StoreExcept.offset_le (h : StoreExcept desc st x) (hle : st.firstNonFinalizedSlot ≤ slot) :
    st.leaderWindowOffset ≤ desc.windowIdx slot := by
  have hmono := windowIdx_mono desc (h.dropped.trans hle)
  rwa [windowIdx_windowStart] at hmono

theorem StoreExcept.close (h : StoreExcept desc st x)
    (hx : st.firstNonFinalizedSlot ≤ x → SlotStored desc st x) : StoreInv desc st := by
  refine ⟨h.aligned, h.dropped, fun s hs => ?_⟩
  by_cases hsx : s = x
  · subst hsx
    exact hx hs
  · exact h.stored s hs hsx

theorem slotVotesAt_setSlotVotes (st : SimplexState) (x s : ℕ) (sv : SlotVotes) :
    (st.setSlotVotes x sv).slotVotesAt s = if s = x then sv else st.slotVotesAt s := by
  unfold slotVotesAt setSlotVotes
  rw [AList.lookup_insert_eq_ite]
  split_ifs <;> rfl

theorem slotVotesAt_congr (h : st'.slotVotes = st.slotVotes) (s : ℕ) :
    st'.slotVotesAt s = st.slotVotesAt s := by
  unfold slotVotesAt
  rw [h]

theorem SlotStored.congr {s : ℕ} (h : SlotStored desc st s)
    (hv : (st'.slotVotesAt s).certificates = (st.slotVotesAt s).certificates)
    (hobs : (slotAt desc st' s).observedNotarCertificate =
      (slotAt desc st s).observedNotarCertificate)
    (hskip : (slotAt desc st' s).skipped = (slotAt desc st s).skipped) : SlotStored desc st' s := by
  have hn : (st'.slotVotesAt s).notarizeCertificate = (st.slotVotesAt s).notarizeCertificate :=
    congrArg Prod.fst hv
  have hf : (st'.slotVotesAt s).finalizeCertificate = (st.slotVotesAt s).finalizeCertificate :=
    congrArg (fun t => t.2.1) hv
  have hs : (st'.slotVotesAt s).skipCertificate = (st.slotVotesAt s).skipCertificate :=
    congrArg (fun t => t.2.2) hv
  refine ⟨?_, fun c hc => ?_, ?_⟩
  · rw [hs, hskip]
    exact h.skip
  · rw [hn] at hc
    rw [hobs]
    exact h.notar c hc
  · rw [hf]
    exact h.final

theorem StoreExcept.setSlotVotes (h : StoreExcept desc st x) (sv : SlotVotes) :
    StoreExcept desc (st.setSlotVotes x sv) x := by
  refine ⟨h.aligned, h.dropped, fun s hs hsx => ?_⟩
  refine (h.stored s hs hsx).congr ?_ rfl rfl
  rw [slotVotesAt_setSlotVotes, if_neg hsx]

theorem StoreExcept.marks (h : StoreExcept desc st x) (hm : MarksExcept desc st st' x) :
    StoreExcept desc st' x := by
  refine ⟨hm.aligned h.aligned, ?_, fun s hs hsx => ?_⟩
  · rw [hm.offset, hm.finalized]
    exact h.dropped
  · rw [hm.finalized] at hs
    refine (h.stored s hs hsx).congr ?_ (hm.observed s hsx) (hm.skipped s hsx)
    rw [slotVotesAt_congr hm.slotVotes]

theorem StoreInv.marks (hi : StoreInv desc st) (hm : SameMarks desc st st') : StoreInv desc st' := by
  have hex (x : ℕ) := (hi.except x).marks (hm x)
  exact ⟨(hex 0).aligned, (hex 0).dropped,
    fun s hs => (hex (s + 1)).stored s hs (Nat.succ_ne_self s).symm⟩

/-- Once the boundary has passed `x` nothing is left to agree on there. -/
theorem StoreExcept.finalized (h : StoreExcept desc st slot) :
    StoreInv desc (advanceFinalized st slot) := by
  have hF := advanceFinalized_finalized st slot
  have hslots : slotAt desc (advanceFinalized st slot) = slotAt desc st := by
    rw [advanceFinalized_eq_with]
    rfl
  have hoff : (advanceFinalized st slot).leaderWindowOffset = st.leaderWindowOffset := by
    rw [advanceFinalized_eq_with]
  refine ⟨?_, ?_, fun s hs => ?_⟩
  · rw [advanceFinalized_eq_with]
    exact h.aligned
  · rw [hoff, hF]
    exact h.dropped.trans (le_max_left _ _)
  · rw [hF] at hs
    refine (h.stored s (by omega) (by omega)).congr ?_ ?_ ?_
    · rw [slotVotesAt_congr (advanceFinalized_slotVotes st slot)]
    · rw [hslots]
    · rw [hslots]

structure MarksLe (desc : SessionDescription) (st st' : SimplexState) : Prop where
  finalized : st.firstNonFinalizedSlot ≤ st'.firstNonFinalizedSlot
  skipped : ∀ s, st'.firstNonFinalizedSlot ≤ s → (slotAt desc st s).skipped = true →
    (slotAt desc st' s).skipped = true
  observed : ∀ s, st'.firstNonFinalizedSlot ≤ s →
    (slotAt desc st s).observedNotarCertificate.isSome →
      (slotAt desc st' s).observedNotarCertificate.isSome

theorem MarksExcept.le (h : MarksExcept desc st st' x)
    (hs : (slotAt desc st x).skipped = true → (slotAt desc st' x).skipped = true)
    (ho : (slotAt desc st x).observedNotarCertificate.isSome →
      (slotAt desc st' x).observedNotarCertificate.isSome) :
    MarksLe desc st st' := by
  refine ⟨h.finalized.ge, fun s _ hss => ?_, fun s _ hso => ?_⟩
  · by_cases hsx : s = x
    · subst hsx
      exact hs hss
    · rwa [h.skipped s hsx]
  · by_cases hsx : s = x
    · subst hsx
      exact ho hso
    · rwa [h.observed s hsx]

theorem MarksLe.refl (st : SimplexState) : MarksLe desc st st :=
  ⟨le_rfl, fun _ _ h => h, fun _ _ h => h⟩

theorem MarksLe.trans (h : MarksLe desc st st') (h' : MarksLe desc st' st'') :
    MarksLe desc st st'' where
  finalized := h.finalized.trans h'.finalized
  skipped s hs hss := h'.skipped s hs (h.skipped s (h'.finalized.trans hs) hss)
  observed s hs hso := h'.observed s hs (h.observed s (h'.finalized.trans hs) hso)

theorem setSlotVotes_marksLe (desc : SessionDescription) (st : SimplexState) (slot : ℕ)
    (sv : SlotVotes) : MarksLe desc st (st.setSlotVotes slot sv) :=
  ⟨le_rfl, fun _ _ h => h, fun _ _ h => h⟩

theorem SameMarks.le (h : SameMarks desc st st') : MarksLe desc st st' := by
  refine ⟨(h 0).finalized.ge, fun s _ hs => ?_, fun s _ ho => ?_⟩
  · rwa [h.slot_skipped]
  · rwa [h.slot_observed]

theorem pushEventBack_sameMarks (desc : SessionDescription) (st : SimplexState)
    (e : SimplexEvent) : SameMarks desc st (st.pushEventBack e) := fun _ =>
  ⟨fun _ _ => rfl, fun _ _ => rfl, fun h => h, rfl, rfl, rfl,
    (pushEventBack_sameView desc st e).horizon⟩

theorem StoreInv.rewrite (hi : StoreInv desc st) (slot : ℕ) {sv : SlotVotes}
    (hsv : sv.certificates = (st.slotVotesAt slot).certificates) :
    StoreInv desc (st.setSlotVotes slot sv) := by
  refine ((hi.except slot).setSlotVotes sv).close fun hle => (hi.stored slot hle).congr ?_ rfl rfl
  rw [slotVotesAt_setSlotVotes, if_pos rfl, hsv]

theorem StoreExcept.onBlockNotarized (hex : StoreExcept desc st slot)
    (hle : st.firstNonFinalizedSlot ≤ slot) (hroom : WithinHorizon desc st slot)
    (hskip : (st.slotVotesAt slot).skipCertificate.isSome = (slotAt desc st slot).skipped)
    (hnotar : ∀ c, (st.slotVotesAt slot).notarizeCertificate = some c → c.vote.blockHash = hash)
    (hfinal : (st.slotVotesAt slot).finalizeCertificate = none)
    (h : onBlockNotarized desc now st slot hash = .ok st') :
    StoreInv desc st' ∧ MarksLe desc st st' ∧ HorizonLe desc st st' ∧
      st'.firstNonFinalizedSlot = st.firstNonFinalizedSlot ∧ st'.slotVotes = st.slotVotes ∧
      (slotAt desc st' slot).observedNotarCertificate = some ⟨slot, hash⟩ := by
  obtain ⟨hm, hobs, hskipped⟩ := onBlockNotarized_marks hle (hex.offset_le hle) hroom h
  have hvotes := slotVotesAt_congr hm.slotVotes slot
  refine ⟨(hex.marks hm).close fun _ => ⟨?_, fun c hc => ?_, ?_⟩,
    hm.le (fun hs => by rw [hskipped]; exact hs) (fun _ => by rw [hobs]; rfl), hm.horizon,
    hm.finalized, hm.slotVotes, hobs⟩
  · rw [hvotes, hskipped]
    exact hskip
  · rw [hvotes] at hc
    rw [hobs, hnotar c hc]
  · rw [hvotes]
    exact hfinal

theorem StoreInv.setNotarizeCertificate {c : NotarCert} (hi : StoreInv desc st)
    (hroom : st.firstNonFinalizedSlot ≤ slot → WithinHorizon desc st slot)
    (hhash : c.vote.blockHash = hash) : Yields (fun r => StoreInv desc r.1 ∧ MarksLe desc st r.1 ∧
      r.1.firstNonFinalizedSlot = st.firstNonFinalizedSlot ∧
      (st.firstNonFinalizedSlot ≤ slot → (∀ e, r.2 ≠ .error e) →
        (slotAt desc r.1 slot).observedNotarCertificate = some ⟨slot, hash⟩))
      (setNotarizeCertificate desc now st slot hash c) := by
  have hcerts : ((st.slotVotesAt slot).importNotarCert desc slot hash c).certificates = _ :=
    importNotarCert_certificates _ hash c
  refine setNotarizeCertificate_rule (fun r c0 hc0 hok _ => ?_) (fun hfin => ?_)
    fun hle => Outcome.yields fun st2 hon => ?_
  · refine ⟨hi.rewrite slot rfl, setSlotVotes_marksLe desc st slot _, rfl, fun hle hne => ?_⟩
    cases r with
    | error e => exact absurd rfl (hne e)
    | ok b =>
      rw [← hok b rfl]
      exact (hi.stored slot hle).notar c0 hc0
  · exact ⟨((hi.except slot).setSlotVotes _).close fun hle => absurd hfin (Nat.not_lt.mpr hle),
      setSlotVotes_marksLe desc st slot _, rfl, fun hle => absurd hfin (Nat.not_lt.mpr hle)⟩
  · generalize (st.slotVotesAt slot).importNotarCert desc slot hash c = sv at hcerts hon
    simp only [SlotVotes.certificates, Prod.mk.injEq] at hcerts
    obtain ⟨hnotar, hfinal, hskip⟩ := hcerts
    have hpush := pushEventBack_sameMarks desc (st.setSlotVotes slot sv)
      (.notarizationReached slot hash c)
    have hsv : ((st.setSlotVotes slot sv).pushEventBack
        (.notarizationReached slot hash c)).slotVotesAt slot = sv := by
      rw [slotVotesAt_congr (hpush slot).slotVotes, slotVotesAt_setSlotVotes, if_pos rfl]
    have hold := hi.stored slot hle
    obtain ⟨hst2, hmarks, -, hF, -, hobs⟩ :=
      (((hi.except slot).setSlotVotes sv).marks (hpush slot)).onBlockNotarized hle
        ((hpush slot).horizon _ (hroom hle)) (by rw [hsv, hskip]; exact hold.skip) (fun c' hc' => by
          rw [hsv, hnotar] at hc'
          obtain rfl := Option.some.inj hc'
          exact hhash)
        (by rw [hsv, hfinal]; exact hold.final) hon
    exact ⟨hst2, ((setSlotVotes_marksLe desc st slot sv).trans hpush.le).trans hmarks, hF,
      fun _ _ => hobs⟩

theorem StoreExcept.skipAdvance {st0 : SimplexState} (hex : StoreExcept desc st0 slot)
    (hflag : SkipFlagged desc st0 st slot) (hle : st0.firstNonFinalizedSlot ≤ slot)
    (hroom : WithinHorizon desc st0 slot)
    (hskip : (st0.slotVotesAt slot).skipCertificate.isSome = true)
    (hnotar : ∀ c, (st0.slotVotesAt slot).notarizeCertificate = some c →
      (slotAt desc st0 slot).observedNotarCertificate = some ⟨slot, c.vote.blockHash⟩)
    (hfinal : (st0.slotVotesAt slot).finalizeCertificate = none) :
    Yields (fun st' => StoreInv desc st' ∧ MarksLe desc st0 st' ∧
      st'.firstNonFinalizedSlot = st0.firstNonFinalizedSlot ∧
      (slotAt desc st' slot).skipped = true) (skipAdvance desc now st slot) := by
  refine Outcome.yields fun st' h => ?_
  obtain ⟨hm, hskipped, hobs⟩ := skipAdvance_marks hflag hle (hex.offset_le hle) hroom h
  have hvotes := slotVotesAt_congr hm.slotVotes slot
  refine ⟨(hex.marks hm).close fun _ => ⟨?_, fun c hc => ?_, ?_⟩,
    hm.le (fun _ => hskipped) (fun ho => by rw [hobs]; exact ho), hm.finalized, hskipped⟩
  · rw [hvotes, hskipped, hskip]
  · rw [hvotes] at hc
    rw [hobs]
    exact hnotar c hc
  · rw [hvotes]
    exact hfinal

theorem StoreInv.setSkipCertificate {c : SkipCert} (hi : StoreInv desc st)
    (hroom : st.firstNonFinalizedSlot ≤ slot → WithinHorizon desc st slot) :
    Yields (fun r => StoreInv desc r.1 ∧ MarksLe desc st r.1 ∧
      r.1.firstNonFinalizedSlot = st.firstNonFinalizedSlot ∧
      (st.firstNonFinalizedSlot ≤ slot → (slotAt desc r.1 slot).skipped = true))
      (setSkipCertificate desc now st slot c) := by
  have hcerts : ((st.slotVotesAt slot).importSkipCert desc slot c).certificates = _ :=
    importSkipCert_certificates _ c
  refine setSkipCertificate_rule
    (fun hfin => ⟨hi, MarksLe.refl st, rfl, fun hle => absurd hfin (Nat.not_lt.mpr hle)⟩)
    (fun hle hsome => ⟨hi.rewrite slot rfl, setSlotVotes_marksLe desc st slot _, rfl,
      fun _ => (hi.stored slot hle).skip.symm.trans hsome⟩) fun hle => ?_
  generalize (st.slotVotesAt slot).importSkipCert desc slot c = sv at hcerts ⊢
  simp only [SlotVotes.certificates, Prod.mk.injEq] at hcerts
  obtain ⟨hnotar, hfinal, hskip⟩ := hcerts
  have hsv : (st.setSlotVotes slot sv).slotVotesAt slot = sv := by
    rw [slotVotesAt_setSlotVotes, if_pos rfl]
  have hold := hi.stored slot hle
  refine acceptSkipCertificate_rule (((hi.except slot).setSlotVotes sv).skipAdvance
    (setSkip_flagged (st.setSlotVotes slot sv) slot) hle (hroom hle) (by rw [hsv, hskip]; rfl)
    (fun c' hc' => by rw [hsv, hnotar] at hc'; exact hold.notar c' hc')
    (by rw [hsv, hfinal]; exact hold.final)) fun st2 h2 => ?_
  obtain ⟨hst2, hmarks, hF, hflag⟩ := h2
  have hpush := (pushEventBack_sameMarks desc st2 (.slotSkipped slot)).trans
    (pushEventBack_sameMarks desc _ (.skipCertificateReached slot c))
  exact ⟨hst2.marks hpush, ((setSlotVotes_marksLe desc st slot sv).trans hmarks).trans hpush.le,
    hF, fun _ => hflag⟩

theorem StoreInv.setFinalizeCertificate {c : FinalCert} (hi : StoreInv desc st) :
    Yields (fun r => StoreInv desc r.1 ∧ MarksLe desc st r.1 ∧
      r.1.firstNonFinalizedSlot = max st.firstNonFinalizedSlot (slot + 1))
      (setFinalizeCertificate desc now st slot hash c) := by
  refine setFinalizeCertificate_rule
    (fun hfin => ⟨hi, MarksLe.refl st, (Nat.max_eq_left hfin).symm⟩) (fun hle hsome => ?_)
    fun hle => Outcome.yields fun st4 hacc => ?_
  · rw [(hi.stored slot hle).final] at hsome
    cases hsome
  generalize (st.slotVotesAt slot).importFinalCert desc slot hash c = sv at hacc
  have hex := (hi.except slot).setSlotVotes sv
  have hle1 := setSlotVotes_marksLe desc st slot sv
  have hF1 : (st.setSlotVotes slot sv).firstNonFinalizedSlot = st.firstNonFinalizedSlot := rfl
  generalize st.setSlotVotes slot sv = st1 at hacc hex hle1 hF1
  unfold acceptFinalizeCertificate at hacc
  dsimp only at hacc
  have hpush := (pushEventBack_sameMarks desc st1 (.blockFinalized slot hash
    ((st1.candidateIds hash).map (·.block)) c)).trans
    (pushEventBack_sameMarks desc _ (.finalizationReached slot hash c))
  generalize (st1.pushEventBack (.blockFinalized slot hash
    ((st1.candidateIds hash).map (·.block)) c)).pushEventBack
    (.finalizationReached slot hash c) = st2 at hacc hpush
  have happly : MarksExcept desc st2 (applyFinalCertParentChain desc st2 ⟨slot, hash⟩) slot :=
    applyFinalCertParentChain_marks st2 ⟨slot, hash⟩
  generalize applyFinalCertParentChain desc st2 ⟨slot, hash⟩ = st3 at hacc happly
  have hmarks := (hpush slot).trans happly
  have hinv := (hex.marks hmarks).finalized
  have hF3 : (advanceFinalized st3 slot).firstNonFinalizedSlot =
      max st.firstNonFinalizedSlot (slot + 1) := by
    rw [advanceFinalized_finalized, hmarks.finalized, hF1]
  -- the slot itself is behind the new boundary, so its marks do not matter
  have hmarksLe : MarksLe desc st (advanceFinalized st3 slot) := by
    have hslots : slotAt desc (advanceFinalized st3 slot) = slotAt desc st3 := by
      rw [advanceFinalized_eq_with]
      rfl
    refine ⟨by rw [hF3]; exact le_max_left _ _, fun s hs hss => ?_, fun s hs hso => ?_⟩
    · rw [hF3] at hs
      rw [hslots, hmarks.skipped s (by omega)]
      exact hle1.skipped s (by omega) hss
    · rw [hF3] at hs
      rw [hslots, hmarks.observed s (by omega)]
      exact hle1.observed s (by omega) hso
  split_ifs at hacc with hadv
  · have hpres := advancePresent_sameMarks hacc
    exact ⟨hinv.marks hpres, hmarksLe.trans hpres.le, (hpres 0).finalized.trans hF3⟩
  · cases hacc
    exact ⟨hinv, hmarksLe, hF3⟩

end TonNode.Simplex.SimplexState
