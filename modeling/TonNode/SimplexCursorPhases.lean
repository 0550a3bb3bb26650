import TonNode.SimplexCursor

/-! Notarizations, skip certificates and finalizations bring the parent chain
back to rest, as long as no window is refused. -/
namespace TonNode.Simplex.SimplexState

open Relation SkipRuns

variable {late : Prop} {desc : SessionDescription} {st st' : SimplexState} {slot : ℕ}

theorem checkPendingBlocks_sameView (desc : SessionDescription) (st : SimplexState) :
    SameView desc st (checkPendingBlocks desc st) := by
  have h : LocalSteps desc (Evidence.any []) st (checkPendingBlocks desc st) :=
    checkPendingBlocks_steps st
  exact h.sameChain.sameView

variable {p : CandidateParentInfo} {A : ℕ → Prop}

/-- A base handed over from `p` closes the anchor after `p`. -/
theorem propagateBaseAfterNotarization_linked (hi : ChainInv late desc st) (hr : BasesReach desc st A)
    (hA : ∀ a, Anchor desc st a → A a ∨ a = p.slot + 1)
    (hfin : st.firstNonFinalizedSlot ≤ p.slot + 1) (hroom : WithinHorizon desc st (p.slot + 1)) :
    Linked late desc (propagateBaseAfterNotarization desc st p) ∧
      (st.firstNonFinalizedSlot ≤ st.firstNonProgressedSlot →
        Resting late desc (propagateBaseAfterNotarization desc st p)) ∧
      HorizonLe desc st (propagateBaseAfterNotarization desc st p) ∧
      (propagateBaseAfterNotarization desc st p).firstNonFinalizedSlot =
        st.firstNonFinalizedSlot := by
  obtain ⟨n, hend, hu⟩ := forwardBase_update hi hfin (Or.inr hroom)
  unfold propagateBaseAfterNotarization
  dsimp only
  generalize forwardBase desc (findNextNonskippedSlot desc st p.slot .boundedByHorizon)
    .boundedByHorizon (some p) = st1 at hu ⊢
  have hb := BaseUpdate.of_merge hu
  have hlinked : Linked late desc st1 := by
    refine ⟨hi.merge hu (.of_runEnd hend), ?_⟩
    rw [hb.anchor]
    exact (hr.forward hend hu).mono hA
  obtain ⟨hadv, hrest, hhor⟩ := hlinked.advance
  have hview := checkPendingBlocks_sameView desc (advanceProgressCursor desc st1)
  have hsame : (advanceProgressCursor desc st1).firstNonFinalizedSlot =
      st1.firstNonFinalizedSlot := by
    obtain ⟨c, heq, -⟩ := advanceProgressCursor_spec desc st1
    rw [heq]
  refine ⟨hadv.of_view hview, fun hle => ?_, (hu.horizon.trans hhor).trans hview.horizon,
    (hview.finalized.trans hsame).trans hu.2.finalized⟩
  have hle1 : st1.firstNonFinalizedSlot ≤ st1.firstNonProgressedSlot := by
    rw [hu.2.finalized, hu.2.progressed]
    exact hle
  exact (hrest hle1).of_view hview

theorem observeNotarization_update (hoff : st.leaderWindowOffset ≤ desc.windowIdx p.slot)
    (hroom : WithinHorizon desc st p.slot) :
    SlotUpdate desc st (observeNotarization desc st p) p.slot
      fun sl => { sl with observedNotarCertificate := some p } := by
  unfold observeNotarization
  have ht := (ensureWindowExists_tracked_iff desc st p.slot .boundedByHorizon).mpr
    ⟨hoff, Or.inr hroom⟩
  exact (ensureWindowExists_quiet desc st _ _).slotUpdate (modifySlot_update ht _)

theorem anchor_of_observe {f : Slot → Slot} {a : ℕ} (h : SlotUpdate desc st st' p.slot f)
    (ha : Anchor desc st' a) : Anchor desc st a ∨ a = p.slot + 1 := by
  obtain ⟨hle, hor⟩ := ha
  rw [h.2.finalized] at hle hor
  rcases hor with heq | ⟨k, rfl, hk⟩
  · exact Or.inl ⟨hle, Or.inl heq⟩
  · by_cases hkp : k = p.slot
    · exact Or.inr (by rw [hkp])
    · rw [h.slotAt_ne hkp] at hk
      exact Or.inl ⟨hle, Or.inr ⟨k, rfl, hk⟩⟩

/-- An update outside base and skip flag keeps what bases reach. -/
theorem BasesReach.of_update {f : Slot → Slot} (hr : BasesReach desc st A)
    (h : SlotUpdate desc st st' slot f) (hskip : ∀ sl, (f sl).skipped = sl.skipped)
    (hbase : ∀ sl, (f sl).availableBase = sl.availableBase) : BasesReach desc st' A := by
  unfold BasesReach
  rw [skippedAt_congr h.2.finalized (h.field _ (hskip _)), baseLabel_congr (h.field _ (hbase _))]
  exact hr

theorem Resting.onBlockNotarized (hr : Resting late desc st) (now slot : ℕ) (hash : UInt256)
    (hroom : st.firstNonFinalizedSlot ≤ slot → WithinHorizon desc st (slot + 1)) :
    ∃ st', onBlockNotarized desc now st slot hash = .ok st' ∧ Resting late desc st' ∧
      HorizonLe desc st st' ∧ st'.firstNonFinalizedSlot = st.firstNonFinalizedSlot := by
  unfold SimplexState.onBlockNotarized
  split_ifs with hfin
  · exact ⟨st, rfl, hr, HorizonLe.refl st, rfl⟩
  have hle := Nat.not_lt.mp hfin
  have hu := observeNotarization_update (p := ⟨slot, hash⟩) (hr.chain.offset_le hle)
    (hroom hle).pred
  dsimp only at hu ⊢
  generalize observeNotarization desc st ⟨slot, hash⟩ = st1 at hu ⊢
  -- the marker alone keeps the bookkeeping and all bases
  have hi1 : ChainInv late desc st1 :=
    hr.chain.update hu (fun _ => rfl) (fun _ _ => rfl) (fun b hb => hr.chain.bases slot b hb)
      fun _ => id
  have hr1 : BasesReach desc st1 (Anchor desc st) :=
    hr.reach.of_update hu (fun _ => rfl) fun _ => rfl
  obtain ⟨-, hrest, hhor, hsame1⟩ := propagateBaseAfterNotarization_linked (p := ⟨slot, hash⟩) hi1 hr1
    (fun a ha => anchor_of_observe (p := ⟨slot, hash⟩) hu ha)
    (by rw [hu.2.finalized]; dsimp only; omega) (hu.horizon _ (hroom hle))
  have hle1 : st1.firstNonFinalizedSlot ≤ st1.firstNonProgressedSlot := by
    rw [hu.2.finalized, hu.2.progressed]
    exact hr.finalized_le
  obtain ⟨st2, hst2, hr2, hhor2, hsame2⟩ := (hrest hle1).advanceLeaderWindow now
  rw [hst2]
  have hfinal : LocalSteps desc (Evidence.any []) (advanceSkipTimer desc st2 slot)
      (tryFinal desc (advanceSkipTimer desc st2 slot) slot hash) := tryFinal_steps _ slot hash
  have htimer : Quiet desc st2 (advanceSkipTimer desc st2 slot) := advanceSkipTimer_quiet st2 slot
  have hview := (htimer.sameChain.trans hfinal.sameChain).sameView
  exact ⟨_, rfl, hr2.of_view hview, ((hu.horizon.trans hhor).trans hhor2).trans hview.horizon,
    ((hview.finalized.trans hsame2).trans hsame1).trans hu.2.finalized⟩

variable {x : ℕ}

theorem SkipFlagged.horizon (h : SkipFlagged desc st st' x) : HorizonLe desc st st' :=
  h.elim (fun hq => HorizonLe.of_tracked hq.tracked hq.offset hq.progressed) fun hu => hu.horizon

structure SkipMarked (desc : SessionDescription) (st st' : SimplexState) (x : ℕ) : Prop where
  base : ∀ s, (slotAt desc st' s).availableBase = (slotAt desc st s).availableBase
  observed : ∀ s, (slotAt desc st' s).observedNotarCertificate =
    (slotAt desc st s).observedNotarCertificate
  below : st.firstNonFinalizedSlot ≤ x
  marked : ∀ s, Marked desc st' s ↔ Marked desc st s ∨ s = x
  intervals : st'.skipIntervals = intervalsAfterSkip desc st x
  aligned : StartsAligned desc st → StartsAligned desc st'
  offset : st'.leaderWindowOffset = st.leaderWindowOffset
  finalized : st'.firstNonFinalizedSlot = st.firstNonFinalizedSlot
  progressed : st'.firstNonProgressedSlot = st.firstNonProgressedSlot
  horizon : HorizonLe desc st st'

theorem SkipMarked.skipped (h : SkipMarked desc st st' x) (s : ℕ) :
    SkippedAt desc st' s ↔ SkippedAt desc st s ∨ s = x := by
  have hle : s = x → st.firstNonFinalizedSlot ≤ s := fun hs => hs ▸ h.below
  change st'.firstNonFinalizedSlot ≤ s ∧ Marked desc st' s ↔
    st.firstNonFinalizedSlot ≤ s ∧ Marked desc st s ∨ s = x
  rw [h.finalized, h.marked, and_or_left, and_iff_right_of_imp hle]

theorem SkipMark.marked (h : SkipMark desc st st' x) (hset : (slotAt desc st' x).skipped = true)
    (hfin : st.firstNonFinalizedSlot ≤ x) : SkipMarked desc st st' x := by
  have hkeep := h.keepsVotes
  obtain ⟨st1, hflag, rfl⟩ := h
  have hslots : slotAt desc { st1 with skipIntervals := intervalsAfterSkip desc st x } =
      slotAt desc st1 := rfl
  rw [hslots] at hset
  refine ⟨hflag.field _ fun _ => rfl, hflag.field _ fun _ => rfl, hfin, fun s => ?_, rfl, ?_,
    hkeep.offset,
    hkeep.finalized, ?_, ?_⟩
  · unfold Marked
    rw [hslots]
    by_cases hs : s = x
    · subst hs
      simp [hset]
    · rw [hflag.slotAt_ne hs]
      simp [hs]
  · exact hflag.elim (fun hq => hq.aligned) fun hu => hu.2.aligned
  · exact hflag.elim (fun hq => hq.progressed) fun hu => hu.2.progressed
  · intro k hk
    exact hflag.horizon k hk

section

variable (h : SkipMarked desc st st' x)
include h

theorem SkipMarked.chainInv (hi : ChainInv late desc st) (hroom : WithinHorizon desc st (x + 1))
    (hstart : desc.slotOffset x = 0 → (slotAt desc st x).availableBase = none → late) :
    ChainInv late desc st' where
  aligned := h.aligned hi.aligned
  dropped := by
    rw [h.offset, h.finalized]
    exact hi.dropped
  intervals := by
    rw [h.intervals, forgotten_congr h.offset h.finalized, h.finalized]
    unfold intervalsAfterSkip
    refine hi.intervals.mark h.marked h.below (fun m hm hne => ?_) (fun hfree => ?_) fun m hm => ?_
    · split_ifs
      · exact Finset.mem_erase.mpr ⟨hne, hm⟩
      · exact Finset.mem_insert_of_mem (Finset.mem_erase.mpr ⟨hne, hm⟩)
    · unfold Marked at hfree
      rw [if_neg hfree]
      exact Finset.mem_insert_self _ _
    · split_ifs at hm with hs
      · exact Or.inl (Finset.mem_erase.mp hm).symm
      · rcases Finset.mem_insert.mp hm with rfl | hm
        · exact Or.inr ⟨rfl, hs⟩
        · exact Or.inl (Finset.mem_erase.mp hm).symm
  room k hk := by
    apply h.horizon
    rcases (h.skipped k).mp hk with hold | rfl
    · exact hi.room k hold
    · exact hroom
  passed k hk hkc := by
    rw [h.finalized] at hk
    rw [h.progressed] at hkc
    have hp := hi.passed k hk hkc
    rw [isSlotProgressed_eq] at hp ⊢
    simp only [Bool.and_eq_true, decide_eq_true_eq, Bool.or_eq_true] at hp ⊢
    rw [h.observed]
    refine ⟨h.finalized ▸ hk, hp.2.imp_left fun hs => ?_⟩
    exact ((h.skipped k).mpr (Or.inl ⟨hk, hs⟩)).2
  bases n b hb := by
    rw [h.base] at hb
    obtain ⟨hheight, hrun⟩ := hi.bases n b hb
    refine ⟨h.progressed ▸ hheight, fun k hk hbk hkn => (h.skipped k).mpr (Or.inl ?_)⟩
    exact hrun k (h.finalized ▸ hk) hbk hkn
  starts k hk hoff hmark hnone := by
    rw [h.base] at hnone
    rcases (h.marked k).mp hmark with hold | rfl
    · exact hi.starts k (h.finalized ▸ hk) hoff hold hnone
    · exact hstart hoff hnone

theorem SkipMarked.anchor : Anchor desc st' = Anchor desc st := anchor_congr h.finalized h.observed

theorem SkipMarked.baseLabel : baseLabel desc st' = baseLabel desc st := baseLabel_congr h.base

end

theorem Resting.skip {st0 : SimplexState} (hr : Resting late desc st0)
    (hflag : SkipFlagged desc st0 st x) (hfin : st0.firstNonFinalizedSlot ≤ x)
    (hroom : WithinHorizon desc st0 (x + 1))
    (hstart : desc.slotOffset x = 0 → (slotAt desc st0 x).availableBase = none → late) :
    Resting late desc (propagateBaseAfterSkipCert desc st x).1 ∧
      HorizonLe desc st0 (propagateBaseAfterSkipCert desc st x).1 := by
  obtain ⟨st1, hmark, hset, hcases⟩ := propagateBaseAfterSkipCert_shape hflag hfin
  have hset1 : (slotAt desc st1 x).skipped = true := by
    refine hset ?_ (hflag.horizon x hroom.pred)
    rw [hflag.keepsVotes.offset]
    exact hr.chain.offset_le hfin
  have hm := hmark.marked hset1 hfin
  have hi1 := hm.chainInv hr.chain hroom hstart
  rcases hcases with ⟨hblocked, -⟩ | ⟨hnone, heq⟩ | ⟨n, b, hnext, hb, heq⟩
  · exact absurd hblocked hi1.not_searchBlocked
  · -- no base yet: the slot is not the cursor, which has one
    rw [heq]
    have hview := checkPendingBlocks_sameView desc st1
    refine ⟨Resting.of_view ⟨⟨hi1, ?_⟩, ?_, ?_⟩ hview, hm.horizon.trans hview.horizon⟩
    · unfold BasesReach
      rw [hm.anchor, hm.baseLabel]
      refine hr.reach.mark_unlabelled hm.skipped ?_
      unfold baseLabel
      rw [← hm.base, hnone]
      rfl
    · rw [hm.finalized, hm.progressed]
      exact hr.finalized_le
    · obtain ⟨b, hb, -⟩ := hr.base_known
      have hne : st0.firstNonProgressedSlot ≠ x := by
        intro he
        rw [hm.base, ← he, hb] at hnone
        cases hnone
      have hstop := hr.stopped
      rw [isSlotProgressed_eq, decide_eq_true hr.finalized_le, Bool.true_and,
        Bool.or_eq_false_iff] at hstop
      rw [hm.progressed, isSlotProgressed_eq, hm.observed, hstop.2, Bool.or_false,
        hm.finalized, decide_eq_true hr.finalized_le, Bool.true_and]
      by_contra hs
      rw [Bool.not_eq_false] at hs
      have hs1 := (hm.skipped _).mp ⟨hm.finalized ▸ hr.finalized_le, hs⟩
      have hs0 := (hs1.resolve_right hne).2
      rw [hstop.1] at hs0
      cases hs0
  · -- the base moves to the end of the run and the cursor is walked
    rw [heq]
    have hend := hi1.runEnd_of_next hnext
    have hle : st1.firstNonFinalizedSlot ≤ n := by
      rw [hm.finalized]
      exact hfin.trans ((Nat.le_succ x).trans hend.le)
    have hsome := (updateSlotMut_isSome_iff desc st1 n .boundedByHorizon
      (·.addAvailableBaseMax b)).mpr ⟨hle, hi1.offset_le hle,
        Or.inr (hi1.room_runEnd (hm.horizon _ hroom) hend)⟩
    obtain ⟨st2, hst2⟩ := Option.isSome_iff_exists.mp hsome
    rw [hst2, Option.getD_some]
    have hu := (updateSlotMut_spec hst2).2
    have hbu := BaseUpdate.of_merge hu
    have hlinked : Linked late desc st2 := by
      have hx : SkippedAt desc st1 x := (hm.skipped x).mpr (Or.inr rfl)
      refine ⟨hi1.merge hu ((hi1.bases x b hb).travel hx hend), ?_⟩
      · obtain ⟨v, hv, hvb⟩ := merge_label hu
        unfold BasesReach
        rw [hbu.anchor, hm.anchor, hbu.skippedAt]
        refine hr.reach.mark hm.skipped ?_ hend hv hvb (hm.baseLabel ▸ hbu.labels)
        rw [← hm.baseLabel]
        exact baseLabel_eq_some.mpr ⟨b, hb, rfl⟩
    obtain ⟨-, hrest, hhor⟩ := hlinked.advance
    have hview := checkPendingBlocks_sameView desc (advanceProgressCursor desc st2)
    refine ⟨(hrest ?_).of_view hview,
      ((hm.horizon.trans hu.horizon).trans hhor).trans hview.horizon⟩
    rw [hu.2.finalized, hu.2.progressed, hm.finalized, hm.progressed]
    exact hr.finalized_le

/-- Moving the boundary to the successor of `slot` keeps the bases of the
anchors from there on. -/
theorem advanceFinalized_below (hi : ChainInv late desc st) (hr : BasesReach desc st A)
    (hfin : st.firstNonFinalizedSlot ≤ slot) (hA : ∀ a, A a → slot + 1 ≤ a) :
    ChainInv late desc (advanceFinalized st slot) ∧ BasesReach desc (advanceFinalized st slot) A := by
  have hF : (advanceFinalized st slot).firstNonFinalizedSlot = slot + 1 := by
    rw [advanceFinalized_finalized]
    omega
  have hI : (advanceFinalized st slot).skipIntervals =
      st.skipIntervals.filter fun s => slot + 1 ≤ s := by
    unfold advanceFinalized pruneSkipIntervalsBefore
    rw [if_pos (by omega)]
  have heq := advanceFinalized_eq_with st slot
  rw [hF, hI] at heq
  rw [heq]
  have hS (k : ℕ) : SkippedAt desc { st with
      firstNonFinalizedSlot := slot + 1
      skipIntervals := st.skipIntervals.filter fun s => slot + 1 ≤ s } k ↔
      SkippedAt desc st k ∧ slot + 1 ≤ k := by
    constructor
    · rintro ⟨hk, hs⟩
      exact ⟨⟨by dsimp only at hk; omega, hs⟩, hk⟩
    · rintro ⟨⟨-, hs⟩, hk⟩
      exact ⟨hk, hs⟩
  refine ⟨⟨hi.aligned, ?_, ?_, fun k hk => ?_, fun k hk hkc => ?_, fun n b hb => ?_,
    fun k hk => hi.starts k (by dsimp only at hk; omega)⟩, ?_⟩
  · have hd := hi.dropped
    dsimp only
    omega
  · exact hi.intervals.raise (Nat.lt_succ_of_le hfin) fun m => Finset.mem_filter
  · exact hi.room k ((hS k).mp hk).1
  · have hp := hi.passed k (by dsimp only at hk; omega) hkc
    rw [isSlotProgressed_eq] at hp ⊢
    rw [Bool.and_eq_true] at hp ⊢
    exact ⟨decide_eq_true hk, hp.2⟩
  · obtain ⟨hheight, hrun⟩ := hi.bases n b hb
    refine ⟨hheight, fun k hk hbk hkn => (hS k).mpr ⟨hrun k ?_ hbk hkn, hk⟩⟩
    exact hfin.trans ((Nat.le_succ slot).trans hk)
  · refine hr.congr fun a ha k hk => ?_
    rw [hS]
    exact and_iff_left ((hA a ha).trans hk)

/-- The cursor jumps over the finalized slot and is walked from there. -/
theorem Linked.advancePresent (hl : Linked late desc st) (now : ℕ)
    (hfin : st.firstNonFinalizedSlot = slot + 1) :
    ∃ st', advancePresentAfterFinalization desc now st slot = .ok st' ∧ Resting late desc st' ∧
      HorizonLe desc st st' ∧ slot < st'.firstNonFinalizedSlot := by
  have hjump : Linked late desc (maybeJumpProgressCursorAfterFinalization st slot) ∧
      (maybeJumpProgressCursorAfterFinalization st slot).firstNonFinalizedSlot ≤
        (maybeJumpProgressCursorAfterFinalization st slot).firstNonProgressedSlot ∧
      HorizonLe desc st (maybeJumpProgressCursorAfterFinalization st slot) ∧
      (maybeJumpProgressCursorAfterFinalization st slot).firstNonFinalizedSlot = slot + 1 := by
    unfold maybeJumpProgressCursorAfterFinalization
    split_ifs with hle
    · refine ⟨⟨hl.chain.cursor (by omega) fun k hk _ hkc => ?_, hl.reach⟩, hfin.le,
        HorizonLe.cursor (by omega), hfin⟩
      omega
    · exact ⟨hl, by omega, HorizonLe.refl st, hfin⟩
  obtain ⟨hl1, hle1, hhor1, hF1⟩ := hjump
  obtain ⟨-, hrest, hhor2⟩ := hl1.advance
  obtain ⟨c, hcursor, -⟩ := advanceProgressCursor_spec desc
    (maybeJumpProgressCursorAfterFinalization st slot)
  obtain ⟨st', hst', hr', hhor3, hsame⟩ := (hrest hle1).advanceLeaderWindow now
  refine ⟨st', hst', hr', (hhor1.trans hhor2).trans hhor3, ?_⟩
  rw [hsame, hcursor]
  exact hF1.ge

/-- A finalization certificate leaves its marker and hands its base over,
whatever the horizon. -/
theorem applyFinalCertParentChain_reach (hi : ChainInv late desc st) (hr : BasesReach desc st A)
    (hfin : st.firstNonFinalizedSlot ≤ p.slot) :
    ChainInv late desc (applyFinalCertParentChain desc st p) ∧
      BasesReach desc (applyFinalCertParentChain desc st p) (fun a => A a ∨ a = p.slot + 1) ∧
      (∀ k, k ≠ p.slot →
        (slotAt desc (applyFinalCertParentChain desc st p) k).observedNotarCertificate =
          (slotAt desc st k).observedNotarCertificate) ∧
      (∀ k, (slotAt desc (applyFinalCertParentChain desc st p) k).skipped =
        (slotAt desc st k).skipped) ∧
      (applyFinalCertParentChain desc st p).firstNonFinalizedSlot = st.firstNonFinalizedSlot ∧
      (applyFinalCertParentChain desc st p).firstNonProgressedSlot = st.firstNonProgressedSlot ∧
      HorizonLe desc st (applyFinalCertParentChain desc st p) := by
  set f : Slot → Slot := fun sl =>
    if sl.observedNotarCertificate.isNone then { sl with observedNotarCertificate := some p }
    else sl with hf
  have hskip (sl : Slot) : (f sl).skipped = sl.skipped := by
    rw [hf]
    dsimp only
    split_ifs <;> rfl
  have hbase (sl : Slot) : (f sl).availableBase = sl.availableBase := by
    rw [hf]
    dsimp only
    split_ifs <;> rfl
  have hobs (sl : Slot) (ho : sl.observedNotarCertificate.isSome) :
      (f sl).observedNotarCertificate.isSome := by
    rw [hf]
    dsimp only
    split_ifs
    · rfl
    · exact ho
  obtain ⟨st1, hst1⟩ := Option.isSome_iff_exists.mp ((updateSlotMut_isSome_iff desc st p.slot
    .verifiedCertificate f).mpr ⟨hfin, hi.offset_le hfin, Or.inl rfl⟩)
  have hu := (updateSlotMut_spec hst1).2
  unfold applyFinalCertParentChain
  rw [hst1]
  dsimp only
  have hi1 : ChainInv late desc st1 := by
    refine hi.update hu hskip hobs (fun b hb => ?_) fun sl => (hbase sl).symm.trans
    rw [hbase] at hb
    exact hi.bases _ b hb
  have hr1 : BasesReach desc st1 A := hr.of_update hu hskip hbase
  obtain ⟨n, hend, hu2⟩ := forwardBase_update (p := p) hi1
    (by rw [hu.2.finalized]; omega) (Or.inl rfl)
  generalize forwardBase desc (findNextNonskippedSlot desc st1 p.slot .verifiedCertificate)
    .verifiedCertificate (some p) = st2 at hu2 ⊢
  have hb2 := BaseUpdate.of_merge hu2
  have hview := checkPendingBlocks_sameView desc st2
  refine ⟨(hi1.merge hu2 (.of_runEnd hend)).of_view hview,
    (hr1.forward hend hu2).of_view hview, fun k hk => ?_, fun k => ?_,
    (hview.finalized.trans hu2.2.finalized).trans hu.2.finalized,
    (hview.progressed.trans hu2.2.progressed).trans hu.2.progressed,
    (hu.horizon.trans hu2.horizon).trans hview.horizon⟩
  · rw [hview.observed, hb2.slot_observed, hu.slotAt_ne hk]
  · rw [hview.skipped, hb2.slot_skipped]
    exact hu.field _ (hskip _) k

end TonNode.Simplex.SimplexState
