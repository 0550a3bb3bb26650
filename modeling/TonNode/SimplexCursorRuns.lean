import TonNode.SimplexCursorPhases

/-! The progress cursor over whole runs: as long as the successor of every
certified slot has room in the window horizon, entering a leader window never
meets an unknown base. -/
namespace TonNode.Simplex.SimplexState

open Relation SkipRuns

variable {late : Prop} {desc : SessionDescription} {st st' : SimplexState} {slot : ℕ}

def Panic.AtCursor : Panic → Prop
  | .missingProgressSlot _ => True
  | .progressBaseUnknown _ => True
  | _ => False

def SafeResult {α : Type} (P : α → Prop) : Except Panic α → Prop
  | .ok a => P a
  | .error p => ¬ Panic.AtCursor p

theorem SafeResult.of_outcome {α : Type} {P : α → Prop} {x : Except Panic α}
    (h : Outcome (¬ Panic.AtCursor ·) P x) : SafeResult P x :=
  Outcome.elim x h (fun _ hp => hp) fun _ ha => ha

def RestsFrom (late : Prop) (desc : SessionDescription) (st st' : SimplexState) : Prop :=
  Resting late desc st' ∧ HorizonLe desc st st'

theorem pushEventBack_sameView (desc : SessionDescription) (st : SimplexState) (e : SimplexEvent) :
    SameView desc st (st.pushEventBack e) :=
  SameView.of_windows_eq _ _ rfl rfl rfl rfl rfl

theorem setSlotVotes_sameView (desc : SessionDescription) (st : SimplexState) (slot : ℕ)
    (sv : SlotVotes) : SameView desc st (st.setSlotVotes slot sv) :=
  SameView.of_windows_eq _ _ rfl rfl rfl rfl rfl

section

variable (hr : Resting late desc st)
include hr

theorem Resting.restsFrom_view (h : SameView desc st st') : RestsFrom late desc st st' :=
  ⟨hr.of_view h, h.horizon⟩

theorem Resting.setNotarizeCertificate (now : ℕ) (hash : UInt256)
    (c : NotarCert) (hroom : st.firstNonFinalizedSlot ≤ slot → WithinHorizon desc st (slot + 1)) :
    Outcome (fun _ => False) (fun r => RestsFrom late desc st r.1)
      (setNotarizeCertificate desc now st slot hash c) := by
  have hset := setSlotVotes_sameView desc st slot
  refine setNotarizeCertificate_rule (fun _ _ _ _ _ => hr.restsFrom_view (hset _))
    (fun _ => hr.restsFrom_view (hset _)) fun hfin => ?_
  have hview := (hset ((st.slotVotesAt slot).importNotarCert desc slot hash c)).trans
    (pushEventBack_sameView desc _ (.notarizationReached slot hash c))
  obtain ⟨st3, hst3, hr3, hhor3, -⟩ := (hr.of_view hview).onBlockNotarized now slot hash
    fun _ => hview.horizon _ (hroom hfin)
  exact .of_eq hst3 ⟨hr3, hview.horizon.trans hhor3⟩

/-- The boundary and the anchors after a finalization of `slot`. -/
theorem Resting.finalize (hash : UInt256) (hfin : st.firstNonFinalizedSlot ≤ slot) :
    Linked late desc (advanceFinalized (applyFinalCertParentChain desc st ⟨slot, hash⟩) slot) ∧
      (slot < st.firstNonProgressedSlot →
        Resting late desc (advanceFinalized (applyFinalCertParentChain desc st ⟨slot, hash⟩) slot)) ∧
      HorizonLe desc st (advanceFinalized (applyFinalCertParentChain desc st ⟨slot, hash⟩) slot) ∧
      (advanceFinalized (applyFinalCertParentChain desc st ⟨slot, hash⟩)
        slot).firstNonFinalizedSlot = slot + 1 := by
  obtain ⟨hi1, hr1, hobs, hskip, hF, hC, hhor⟩ :=
    applyFinalCertParentChain_reach (p := ⟨slot, hash⟩) hr.chain hr.reach hfin
  generalize applyFinalCertParentChain desc st ⟨slot, hash⟩ = st1 at hi1 hr1 hobs hskip hF hC hhor ⊢
  have hF1 : (advanceFinalized st1 slot).firstNonFinalizedSlot = slot + 1 := by
    rw [advanceFinalized_finalized, hF]
    omega
  have hslots : slotAt desc (advanceFinalized st1 slot) = slotAt desc st1 := by
    rw [advanceFinalized_eq_with]
    rfl
  have hC1 : (advanceFinalized st1 slot).firstNonProgressedSlot = st.firstNonProgressedSlot := by
    rw [advanceFinalized_eq_with]
    exact hC
  -- only the finalized slot got a marker, and its successor is the new boundary
  have hA (a : ℕ) (ha : Anchor desc (advanceFinalized st1 slot) a) :
      Anchor desc st a ∨ a = slot + 1 := by
    obtain ⟨hle, hor⟩ := ha
    rw [hF1] at hle hor
    rw [hslots] at hor
    rcases hor with heq | ⟨k, rfl, hk⟩
    · exact Or.inr heq
    · by_cases hks : k = slot
      · exact Or.inr (by rw [hks])
      · rw [hobs k hks] at hk
        exact Or.inl ⟨by omega, Or.inr ⟨k, rfl, hk⟩⟩
  have hlinked : Linked late desc (advanceFinalized st1 slot) := by
    obtain ⟨hi2, hr2⟩ := advanceFinalized_below hi1 (hr1.mono hA) (by rw [hF]; exact hfin)
      fun a ha => hF1 ▸ ha.1
    exact ⟨hi2, hr2⟩
  refine ⟨hlinked, fun hlt => ⟨hlinked, ?_, ?_⟩, ?_, hF1⟩
  · rw [hF1, hC1]
    exact hlt
  · have hstop := hr.stopped
    rw [isSlotProgressed_eq, decide_eq_true hr.finalized_le, Bool.true_and] at hstop
    rw [hC1, isSlotProgressed_eq, hslots, hskip, hobs _ (Nat.ne_of_gt hlt), hstop, Bool.and_false]
  · refine hhor.trans (HorizonLe.of_windows ?_ ?_)
    · rw [advanceFinalized_eq_with]
    · rw [hC1, hC]

theorem Resting.setFinalizeCertificate (now slot : ℕ) (hash : UInt256)
    (c : FinalCert) : Outcome (fun _ => False) (fun r => RestsFrom late desc st r.1)
      (setFinalizeCertificate desc now st slot hash c) := by
  refine setFinalizeCertificate_rule (fun _ => ⟨hr, HorizonLe.refl st⟩)
    (fun _ _ _ => hr.restsFrom_view (setSlotVotes_sameView desc st slot _)) fun hle => ?_
  have hview := setSlotVotes_sameView desc st slot
    ((st.slotVotesAt slot).importFinalCert desc slot hash c)
  generalize st.setSlotVotes slot ((st.slotVotesAt slot).importFinalCert desc slot hash c) = st1
    at hview ⊢
  unfold acceptFinalizeCertificate
  dsimp only
  have hpush := hview.trans ((pushEventBack_sameView desc st1 (.blockFinalized slot hash
    ((st1.candidateIds hash).map (·.block)) c)).trans
    (pushEventBack_sameView desc _ (.finalizationReached slot hash c)))
  generalize (st1.pushEventBack (.blockFinalized slot hash
    ((st1.candidateIds hash).map (·.block)) c)).pushEventBack
    (.finalizationReached slot hash c) = st2 at hpush ⊢
  obtain ⟨hl3, hr3, hhor3, hF3⟩ := (hr.of_view hpush).finalize hash (hpush.finalized.le.trans hle)
  by_cases hadv : st.firstNonProgressedSlot ≤ slot
  · rw [decide_eq_true hadv, if_pos rfl]
    obtain ⟨st4, hst4, hr4, hhor4, -⟩ := hl3.advancePresent now hF3
    exact .of_eq hst4 ⟨hr4, (hpush.horizon.trans hhor3).trans hhor4⟩
  · rw [decide_eq_false hadv, if_neg Bool.false_ne_true]
    refine ⟨hr3 ?_, hpush.horizon.trans hhor3⟩
    rw [hpush.progressed]
    exact Nat.not_le.mp hadv

end

theorem Resting.skipAdvance {st0 : SimplexState} (hr : Resting late desc st0) (now : ℕ)
    (hflag : SkipFlagged desc st0 st slot) (hfin : st0.firstNonFinalizedSlot ≤ slot)
    (hroom : WithinHorizon desc st0 (slot + 1))
    (hstart : desc.slotOffset slot = 0 → (slotAt desc st0 slot).availableBase = none → late) :
    Outcome (fun _ => False) (RestsFrom late desc st0) (skipAdvance desc now st slot) := by
  obtain ⟨hr1, hhor1⟩ := hr.skip hflag hfin hroom hstart
  unfold SimplexState.skipAdvance
  dsimp only
  split_ifs
  · obtain ⟨st', hst', hr', hhor', -⟩ := hr1.advanceLeaderWindow now
    exact .of_eq hst' ⟨hr', hhor1.trans hhor'⟩
  · exact ⟨hr1, hhor1⟩

theorem Resting.setSkipCertificate (hr : Resting late desc st) (now : ℕ) (c : SkipCert)
    (hroom : st.firstNonFinalizedSlot ≤ slot → WithinHorizon desc st (slot + 1))
    (hstart : st.firstNonFinalizedSlot ≤ slot → desc.slotOffset slot = 0 →
      (slotAt desc st slot).availableBase = none → late) :
    Outcome (fun _ => False) (fun r => RestsFrom late desc st r.1)
      (setSkipCertificate desc now st slot c) := by
  refine setSkipCertificate_rule (fun _ => ⟨hr, HorizonLe.refl st⟩)
    (fun _ _ => hr.restsFrom_view (setSlotVotes_sameView desc st slot _)) fun hle => ?_
  have hview := setSlotVotes_sameView desc st slot
    ((st.slotVotesAt slot).importSkipCert desc slot c)
  refine acceptSkipCertificate_rule ((hr.of_view hview).skipAdvance now (setSkip_flagged _ slot)
    (hview.finalized.le.trans hle) (hview.horizon _ (hroom hle))
    (hview.base slot ▸ hstart hle)) fun st2 h2 => ?_
  have hpush := (pushEventBack_sameView desc st2 (.slotSkipped slot)).trans
    (pushEventBack_sameView desc _ (.skipCertificateReached slot c))
  exact ⟨h2.1.of_view hpush, (hview.horizon.trans h2.2).trans hpush.horizon⟩

theorem announceNotarization_safe (block : UInt256) :
    Outcome (¬ Panic.AtCursor ·) (SameView desc st) (announceNotarization desc slot st block) :=
  announceNotarization_rule (fun _ => SameView.of_windows_eq _ _ rfl rfl rfl rfl rfl)
    (fun _ _ _ _ _ => id) (fun _ _ _ _ _ => (setSlotVotes_sameView desc st slot _).trans
      (pushEventBack_sameView desc _ _)) fun _ _ _ _ _ => setSlotVotes_sameView desc st slot _

def RestsBelow (late : Prop) (desc : SessionDescription) (st st' : SimplexState) : Prop :=
  RestsFrom late desc st st' ∧ st'.firstNonFinalizedSlot = st.firstNonFinalizedSlot ∧
    ∀ s, (slotAt desc st' s).availableBase = none → (slotAt desc st s).availableBase = none

theorem ChainSteps.base_none {E : Evidence} (h : ChainSteps desc E st st') {s : ℕ}
    (hnone : (slotAt desc st' s).availableBase = none) :
    (slotAt desc st s).availableBase = none := by
  induction h with
  | refl => exact hnone
  | tail _ hstep ih =>
    apply ih
    cases hstep with
    | vote h => rwa [← h.sameChain.base s]
    | cursor c _ => exact hnone
    | base n b _ _ h =>
      by_cases hs : s = n
      · subst hs
        rw [h.slotAt_self] at hnone
        cases hnone
      · rwa [h.slotAt_ne hs] at hnone
    | observe p _ _ h => rwa [h.field Slot.availableBase rfl s] at hnone
    | skip x _ _ h =>
      obtain ⟨st1, hf, rfl⟩ := h
      rwa [← hf.field Slot.availableBase (fun _ => rfl) s]

theorem RestsBelow.notarizeThreshold (h : RestsBelow late desc st st') (now : ℕ) (published : Bool)
    (block : UInt256) (weight : ℕ) (hroom : WithinHorizon desc st (slot + 1)) :
    Outcome (¬ Panic.AtCursor ·) (RestsBelow late desc st)
      (notarizeThreshold desc now slot published st' block weight) := by
  obtain ⟨⟨hr, hhor⟩, hsame, hbase⟩ := h
  refine notarizeThreshold_rule ⟨⟨hr, hhor⟩, hsame, hbase⟩ (fun _ _ => announceNotarization_safe block)
    fun st2 hview => ?_
  obtain ⟨st3, hst3, hr3, hhor3, hsame3⟩ := (hr.of_view hview).onBlockNotarized now slot block
    fun _ => hview.horizon _ (hhor _ hroom)
  have hsteps : ChainSteps desc (Evidence.any [.notarizationReached slot block ⟨⟨slot, block⟩, []⟩])
      st2 st3 := onBlockNotarized_steps (.inl ⟨_, List.mem_cons_self⟩) hst3
  refine .of_eq hst3 ⟨⟨hr3, (hhor.trans hview.horizon).trans hhor3⟩,
    (hsame3.trans hview.finalized).trans hsame, fun s hnone => hbase s ?_⟩
  rw [← hview.base]
  exact hsteps.base_none hnone

theorem announceFinalization_safe (sv : SlotVotes) (block : UInt256) :
    Outcome (¬ Panic.AtCursor ·) (SameView desc st)
      (announceFinalization desc slot st sv block) := by
  refine announceFinalization_rule (fun _ _ _ => id) fun c cert st1 _ _ hst1 => ?_
  subst hst1
  have hview := (setSlotVotes_sameView desc st slot { sv with
    blockFinalizedPublished := true, finalizeCertificate := some c }).trans
    (pushEventBack_sameView desc _ (.blockFinalized slot block
      ((st.candidateIds block).map (·.block)) cert))
  exact ⟨hview, hview.trans (pushEventBack_sameView desc _ _)⟩

/-- A block at the finalize threshold: the boundary moves first, then the base
is handed over and the cursor jumps. -/
theorem Resting.advanceAfterFinalizeThreshold (hr : Resting late desc st) (now : ℕ) (block : UInt256)
    (hfin : st.firstNonFinalizedSlot ≤ slot) (hroom : WithinHorizon desc st (slot + 1)) :
    Outcome (fun _ => False)
      (fun st' => RestsFrom late desc st st' ∧ slot < st'.firstNonFinalizedSlot)
      (advanceAfterFinalizeThreshold desc now slot st block) := by
  have hF1 : (advanceFinalized st slot).firstNonFinalizedSlot = slot + 1 := by
    rw [advanceFinalized_finalized]
    omega
  have hC1 : (advanceFinalized st slot).firstNonProgressedSlot = st.firstNonProgressedSlot := by
    rw [advanceFinalized_eq_with]
  have hhor1 : HorizonLe desc st (advanceFinalized st slot) := by
    apply HorizonLe.of_windows
    · rw [advanceFinalized_eq_with]
    · rw [hC1]
  -- the bookkeeping moves; the base of the new boundary is still missing
  have hA : ∀ a, Anchor desc st a ∧ slot + 1 < a → Anchor desc st a := fun a ha => ha.1
  obtain ⟨hi1, hr1⟩ := advanceFinalized_below hr.chain (hr.reach.mono hA) hfin fun a ha => ha.2.le
  have hanchor (a : ℕ) (ha : Anchor desc (advanceFinalized st slot) a) :
      (Anchor desc st a ∧ slot + 1 < a) ∨ a = slot + 1 := by
    obtain ⟨hle, hor⟩ := ha
    rw [hF1] at hle hor
    rcases Nat.eq_or_lt_of_le hle with heq | hlt
    · exact Or.inr heq.symm
    · rcases hor with heq | ⟨k, rfl, hk⟩
      · exact Or.inr heq
      · rw [show slotAt desc (advanceFinalized st slot) = slotAt desc st by
          rw [advanceFinalized_eq_with]; rfl] at hk
        exact Or.inl ⟨⟨by omega, Or.inr ⟨k, rfl, hk⟩⟩, hlt⟩
  rw [advanceAfterFinalizeThreshold_eq now block (hfin.trans (Nat.le_succ slot))]
  generalize advanceFinalized st slot = st1 at hF1 hC1 hhor1 hi1 hr1 hanchor ⊢
  obtain ⟨hl2, hr2, hhor2, hsame2⟩ := propagateBaseAfterNotarization_linked
    (p := ⟨slot, block⟩) hi1 hr1 hanchor hF1.le (hhor1 _ hroom)
  split_ifs with hadv
  · obtain ⟨st3, hst3, hr3, hhor3, hF3⟩ := hl2.advancePresent now (hsame2.trans hF1)
    exact .of_eq hst3 ⟨⟨hr3, (hhor1.trans hhor2).trans hhor3⟩, hF3⟩
  · exact ⟨⟨hr2 (by omega), hhor1.trans hhor2⟩, (hsame2.trans hF1).ge⟩

theorem announceSkip_sameView (desc : SessionDescription) (slot : ℕ) (st : SimplexState) :
    SameView desc st (announceSkip desc slot st) :=
  announceSkip_rule (P := SameView desc st) (fun _ => pushEventBack_sameView desc st _) fun _ _ _ _ =>
    ((setSlotVotes_sameView desc st slot _).trans (pushEventBack_sameView desc _ _)).trans
      (pushEventBack_sameView desc _ _)

theorem Resting.skipPhase (hr : Resting late desc st) (now : ℕ) (sv : SlotVotes)
    (hroom : WithinHorizon desc st (slot + 1)) (hstart : st.firstNonFinalizedSlot ≤ slot →
      desc.getThreshold66 ≤ sv.skipWeight → desc.slotOffset slot = 0 →
      (slotAt desc st slot).availableBase = none → late) :
    Outcome (fun _ => False) (Resting late desc) (skipPhase desc now slot sv st) := by
  have hview := announceSkip_sameView desc slot st
  refine skipPhase_rule hr fun _ _ hfin hweight => ?_
  exact ((hr.of_view hview).skipAdvance now (Or.inl (Quiet.refl _)) (hview.finalized.le.trans hfin)
    (hview.horizon _ hroom) (hview.base slot ▸ hstart hfin hweight)).mono fun _ h => h.1

theorem forM_error {α : Type} {f : α → Except Panic Unit} (Q : Panic → Prop) (l : List α)
    (hf : ∀ a ∈ l, ∀ p, f a = .error p → Q p) (p : Panic) (h : l.forM f = .error p) : Q p := by
  induction l with
  | nil => cases h
  | cons a l ih =>
    change (f a >>= fun _ => l.forM f) = .error p at h
    cases ha : f a with
    | error q =>
      rw [ha] at h
      cases h
      exact hf a List.mem_cons_self p ha
    | ok u =>
      rw [ha] at h
      exact ih (fun a' ha' => hf a' (List.mem_cons_of_mem a ha')) h

/-- The vote invariants have panics of their own. -/
theorem checkInvariants_error (p : Panic) (h : checkInvariants desc st = .error p) :
    ¬ Panic.AtCursor p := by
  refine forM_error (¬ Panic.AtCursor ·) _ (fun e _ q hq => ?_) p h
  refine forM_error (¬ Panic.AtCursor ·) _ (fun idx _ q' hq' => ?_) q hq
  unfold checkValidatorInvariants at hq'
  split at hq'
  · split_ifs at hq'
    · cases hq'
      exact id
    · cases hq'
      exact id
  · split_ifs at hq'
    cases hq'
    exact id
  · cases hq'

theorem Resting.finalizeThreshold (hr : Resting late desc st) (now : ℕ) (sv : SlotVotes)
    (block : UInt256) (hfin : st.firstNonFinalizedSlot ≤ slot)
    (hroom : WithinHorizon desc st (slot + 1)) : Outcome (¬ Panic.AtCursor ·)
      (fun st' => RestsFrom late desc st st' ∧ slot < st'.firstNonFinalizedSlot)
      (finalizeThreshold desc now slot st sv block) := by
  unfold SimplexState.finalizeThreshold
  refine Outcome.elim _ (announceFinalization_safe sv block) (fun p hp => hp) fun st1 hview => ?_
  exact ((hr.of_view hview).advanceAfterFinalizeThreshold now block
    (hview.finalized.le.trans hfin) (hview.horizon _ hroom)).of_total.mono
    fun _ h => ⟨⟨h.1.1, hview.horizon.trans h.1.2⟩, h.2⟩

theorem Resting.checkThresholdsAndTrigger (hr : Resting late desc st) (now : ℕ)
    (hfin : st.firstNonFinalizedSlot ≤ slot) (hroom : WithinHorizon desc st (slot + 1))
    (hstart : ∀ sv, st.slotVotes.lookup slot = some sv → desc.getThreshold66 ≤ sv.skipWeight →
      desc.slotOffset slot = 0 → (slotAt desc st slot).availableBase = none → late) :
    Outcome (¬ Panic.AtCursor ·) (Resting late desc) (checkThresholdsAndTrigger desc now st slot) := by
  apply checkThresholdsAndTrigger_rule (I := RestsBelow late desc st) (F := fun st' =>
      RestsFrom late desc st st' ∧ slot < st'.firstNonFinalizedSlot) checkInvariants_error hr
  · exact fun sv _ => ⟨⟨hr, HorizonLe.refl st⟩, rfl, fun _ => id⟩
  · exact fun sv _ st1 e _ h1 => h1.notarizeThreshold now _ e.1 e.2 hroom
  · exact fun st1 h1 => h1.1.1
  · intro sv e _ _ st1 sv1 h1 _
    exact (h1.1.1.finalizeThreshold now sv1 e.1 (h1.2.1.le.trans hfin) (h1.1.2 _ hroom)).mono
      fun _ h => ⟨⟨h.1.1, h1.1.2.trans h.1.2⟩, h.2⟩
  · intro sv hsv st1 h1
    have hrest : RestsFrom late desc st st1 := h1.elim And.left And.left
    refine (hrest.1.skipPhase now sv (hrest.2 _ hroom) fun hfin1 hweight hoff hnone => ?_).of_total
    rcases h1 with h1 | h1
    · exact hstart sv hsv hweight hoff (h1.2.2 slot hnone)
    · exact absurd hfin1 (Nat.not_le.mpr h1.2)

/-- What the proof needs of an operation: the successor of a certified slot that
is not finalized has room. Votes are bounded by the state machine itself and
finalization certificates bypass the horizon. -/
def SuccessorHasRoom (desc : SessionDescription) (st : SimplexState) : Op → Prop
  | .setNotarizeCertificate c =>
    st.firstNonFinalizedSlot ≤ c.vote.slot → WithinHorizon desc st (c.vote.slot + 1)
  | .setSkipCertificate c =>
    st.firstNonFinalizedSlot ≤ c.vote.slot → WithinHorizon desc st (c.vote.slot + 1)
  | _ => True

/-- The weight of the skip votes for the slot of a vote, once the vote is counted. -/
def skipWeightAfter (desc : SessionDescription) (st : SimplexState) (idx : ℕ) : Vote → ℕ
  | .skip v => (st.slotVotesAt v.slot).skipWeight + desc.nodeWeight idx
  | .notarize v => (st.slotVotesAt v.slot).skipWeight
  | .finalize v => (st.slotVotesAt v.slot).skipWeight

def BasedStart (desc : SessionDescription) (st : SimplexState) (slot : ℕ) : Prop :=
  st.firstNonFinalizedSlot ≤ slot → desc.slotOffset slot = 0 →
    (getSlotAvailableBase desc st slot).isSome

/-- The first slot of a leader window has a base when a certificate or a quorum of
votes skips it. -/
def SkipsBasedStart (desc : SessionDescription) (st : SimplexState) : Op → Prop
  | .setSkipCertificate c => BasedStart desc st c.vote.slot
  | .onVote idx vote _ _ =>
    desc.getThreshold66 ≤ skipWeightAfter desc st idx vote → BasedStart desc st vote.slot
  | _ => True

theorem late_of_bare (h : late ∨ BasedStart desc st slot)
    (hfin : st.firstNonFinalizedSlot ≤ slot) (hoff : desc.slotOffset slot = 0)
    (hnone : (slotAt desc st slot).availableBase = none) : late := by
  refine h.resolve_right fun hstart => ?_
  have hbase := hstart hfin hoff
  rw [getSlotAvailableBase_eq, if_neg (Nat.not_lt.mpr hfin), hnone] at hbase
  cases hbase

theorem skipWeight_handle (desc : SessionDescription) (st : SimplexState) (idx : ℕ) (vote : Vote)
    (signature : SignatureBytes) (raw : RawVoteData) :
    ((st.slotVotesAt vote.slot).handle desc idx vote signature raw).1.skipWeight ≤
      skipWeightAfter desc st idx vote := by
  cases vote with
  | notarize v =>
    refine le_of_eq ?_
    dsimp only [SlotVotes.handle, SlotVotes.handleNotarize, skipWeightAfter]
    repeat' split
    all_goals rfl
  | finalize v =>
    refine le_of_eq ?_
    dsimp only [SlotVotes.handle, SlotVotes.handleFinalize, skipWeightAfter]
    repeat' split
    all_goals rfl
  | skip v =>
    dsimp only [SlotVotes.handle, SlotVotes.handleSkip, skipWeightAfter]
    split_ifs with hvoted
    · exact Nat.le_add_right _ _
    · split
      · exact Nat.le_add_right _ _
      · rw [SlotVotes.recordSkip]
        dsimp only
        rw [if_neg hvoted]
        exact le_rfl

instance (desc : SessionDescription) (st : SimplexState) (op : Op) :
    Decidable (SkipsBasedStart desc st op) :=
  match op with
  | .setSkipCertificate _ => inferInstanceAs (Decidable (_ → _))
  | .onVote _ _ _ _ => inferInstanceAs (Decidable (_ → _ → _))
  | .setNotarizeCertificate _ => isTrue trivial
  | .setFinalizeCertificate _ => isTrue trivial
  | .onCandidate _ => isTrue trivial
  | .checkAll => isTrue trivial
  | .cleanupSlots _ => isTrue trivial

instance (desc : SessionDescription) (st : SimplexState) (op : Op) :
    Decidable (SuccessorHasRoom desc st op) :=
  match op with
  | .setNotarizeCertificate _ => inferInstanceAs (Decidable (_ → _))
  | .setSkipCertificate _ => inferInstanceAs (Decidable (_ → _))
  | .setFinalizeCertificate _ => isTrue trivial
  | .onVote _ _ _ _ => isTrue trivial
  | .onCandidate _ => isTrue trivial
  | .checkAll => isTrue trivial
  | .cleanupSlots _ => isTrue trivial

theorem Resting.onVote (hr : Resting late desc st) (now idx : ℕ) (vote : Vote)
    (signature : SignatureBytes) (raw : RawVoteData)
    (hstart : late ∨ SkipsBasedStart desc st (.onVote idx vote signature raw)) :
    Outcome (¬ Panic.AtCursor ·) (fun r => Resting late desc r.1)
      (onVote desc now st idx vote signature raw) := by
  refine onVote_rule (fun _ => hr) fun _ hfar hfin sv r hsv => ?_
  have hview := setSlotVotes_sameView desc st vote.slot sv
  have hr1 := hr.of_view hview
  refine ⟨hr1, hr1.checkThresholdsAndTrigger now (hview.finalized.le.trans hfin)
    (hview.horizon _ (withinHorizon_of_vote hfar)) fun sv' hlook hweight hoff hnone => ?_⟩
  obtain rfl : sv = sv' := Option.some.inj ((AList.lookup_insert _).symm.trans hlook)
  rw [hview.base] at hnone
  refine late_of_bare (hstart.imp_right fun h => h (hweight.trans ?_)) hfin hoff hnone
  have hle := skipWeight_handle desc st idx vote signature raw
  rwa [hsv] at hle

theorem cleanupSlots_eq_with (desc : SessionDescription) (st : SimplexState) (upToSlot : ℕ) :
    (cleanupSlots desc st upToSlot).firstNonProgressedSlot = st.firstNonProgressedSlot ∧
      (cleanupSlots desc st upToSlot).skipIntervals = st.skipIntervals := by
  unfold cleanupSlots
  dsimp only
  split_ifs <;> exact ⟨rfl, rfl⟩

/-- Dropping windows below the boundary changes nothing from the boundary on. -/
theorem Resting.cleanupSlots (hr : Resting late desc st) (upToSlot : ℕ) :
    Resting late desc (cleanupSlots desc st upToSlot) := by
  obtain ⟨k, hwin, hoff, -⟩ := cleanupSlots_windows hr.chain.aligned upToSlot
  obtain ⟨haligned, hdropped, hkeep⟩ :=
    cleanupSlots_kept hr.chain.aligned hr.chain.dropped upToSlot
  have hF := cleanupSlots_finalized desc st upToSlot
  obtain ⟨hC, hI⟩ := cleanupSlots_eq_with desc st upToSlot
  have hlive (s : ℕ) := cleanupSlots_slotAt hr.chain.aligned upToSlot s
  have hslots (s : ℕ) : slotAt desc (SimplexState.cleanupSlots desc st upToSlot) s =
      slotAt desc st s ∨ slotAt desc (SimplexState.cleanupSlots desc st upToSlot) s = {} := by
    by_cases hl : Live desc (SimplexState.cleanupSlots desc st upToSlot) s
    · exact Or.inl (hlive s hl)
    · exact Or.inr (cleanupSlots_slotAt_dropped upToSlot s hl)
  have hhor : HorizonLe desc st (SimplexState.cleanupSlots desc st upToSlot) := by
    refine HorizonLe.of_windows ?_ hC.ge
    rw [hwin, hoff, List.length_drop]
    omega
  generalize SimplexState.cleanupSlots desc st upToSlot = st1 at *
  have hS : SkippedAt desc st1 = SkippedAt desc st := by
    funext s
    unfold SkippedAt
    rw [hF]
    refine propext (and_congr_right fun hs => ?_)
    rw [hkeep s hs]
  have hprog (s : ℕ) : isSlotProgressed desc st1 s = isSlotProgressed desc st s := by
    rw [isSlotProgressed_eq, isSlotProgressed_eq, hF]
    by_cases hs : st.firstNonFinalizedSlot ≤ s
    · rw [hkeep s hs]
    · rw [decide_eq_false hs, Bool.false_and, Bool.false_and]
  refine ⟨⟨⟨haligned, ?_, ?_, fun s hs => ?_, fun s hs hsc => ?_, fun n b hb => ?_,
    fun s hs => ?_⟩, ?_⟩, ?_, ?_⟩
  · rw [hF]
    exact hdropped
  · rw [hF, hI]
    refine hr.chain.intervals.forget (fun s hs => ?_) (fun s hs => ?_) ?_ fun s hs hm => ?_
    · unfold Marked at hs ⊢
      rcases hslots s with heq | heq
      · rwa [heq] at hs
      · rw [heq] at hs
        cases hs
    · unfold Marked
      rw [hkeep s hs]
      exact id
    · rintro ⟨s, hs, hdead⟩
      refine ⟨s, hF.trans hs, fun hl => hdead (le_trans ?_ hl)⟩
      omega
    · by_cases hl : Live desc st1 s
      · unfold Marked
        rw [hlive s hl]
        exact Or.inl hm
      · exact Or.inr ⟨s, hF.trans hs, hl⟩
  · rw [hS] at hs
    exact hhor _ (hr.chain.room s hs)
  · rw [hprog]
    exact hr.chain.passed s (hF ▸ hs) (hC ▸ hsc)
  · unfold BaseFits
    rw [hC, hF, hS]
    rcases hslots n with heq | heq
    · rw [heq] at hb
      exact hr.chain.bases n b hb
    · rw [heq] at hb
      cases hb
  · rw [hF] at hs
    unfold Marked
    rw [hkeep s hs]
    exact hr.chain.starts s hs
  · intro a n ha hn
    rw [hS] at hn
    -- a surviving marker was there before
    have ha0 : Anchor desc st a := by
      obtain ⟨hle, hor⟩ := ha
      rw [hF] at hle hor
      refine ⟨hle, hor.imp_right fun ⟨j, hj, ho⟩ => ⟨j, hj, ?_⟩⟩
      rcases hslots j with heq | heq
      · rwa [heq] at ho
      · rw [heq] at ho
        cases ho
    have hlabel : baseLabel desc st1 n = baseLabel desc st n := by
      unfold baseLabel
      rw [hkeep n (ha0.1.trans hn.le)]
    rw [hlabel]
    exact hr.reach a n ha0 hn
  · rw [hF, hC]
    exact hr.finalized_le
  · rw [hC, hprog]
    exact hr.stopped

theorem Resting.applyOp (hr : Resting late desc st) (now : ℕ) (op : Op)
    (hroom : SuccessorHasRoom desc st op) (hstart : late ∨ SkipsBasedStart desc st op) :
    Outcome (¬ Panic.AtCursor ·) (Resting late desc) (applyOp desc now st op) := by
  have hlocal {st1 : SimplexState} (h : LocalSteps desc (Evidence.any []) st st1) :
      Resting late desc st1 := hr.of_view h.sameChain.sameView
  cases op with
  | onCandidate c =>
    dsimp only [Simplex.applyOp]
    cases hc : onCandidate desc st c with
    | error e => exact hr
    | ok st1 => exact hlocal (onCandidate_steps hc fun _ => trivial)
  | onVote idx vote signature raw =>
    exact (hr.onVote now idx vote signature raw hstart).map fun _ h => h
  | setNotarizeCertificate c =>
    exact (hr.setNotarizeCertificate now c.vote.blockHash c hroom).of_total.map fun _ h => h.1
  | setFinalizeCertificate c =>
    exact (hr.setFinalizeCertificate now c.vote.slot c.vote.blockHash c).of_total.map fun _ h => h.1
  | setSkipCertificate c =>
    exact (hr.setSkipCertificate now c hroom (late_of_bare hstart)).of_total.map fun _ h => h.1
  | checkAll =>
    dsimp only [Simplex.applyOp]
    cases h : checkAll desc now st with
    | error p =>
      unfold checkAll at h
      cases hinv : checkInvariants desc st with
      | error q =>
        rw [hinv] at h
        cases h
        exact checkInvariants_error _ hinv
      | ok u =>
        rw [hinv] at h
        cases h
    | ok st1 => exact hlocal (checkAll_steps trivial h)
  | cleanupSlots upToSlot => exact hr.cleanupSlots upToSlot

def RunMeets (desc : SessionDescription) (P : SimplexState → Op → Prop) :
    SimplexState → List (ℕ × Op) → Prop
  | _, [] => True
  | st, (now, op) :: rest => P st op ∧
    ∀ st', applyOp desc now st op = .ok st' → RunMeets desc P st' rest

def decideRunMeets (desc : SessionDescription) (P : SimplexState → Op → Prop)
    [∀ st op, Decidable (P st op)] :
    (st : SimplexState) → (ops : List (ℕ × Op)) → Decidable (RunMeets desc P st ops)
  | _, [] => isTrue trivial
  | st, (now, op) :: rest =>
    match h : applyOp desc now st op with
    | .error p => decidable_of_iff (P st op)
        ⟨fun hp => ⟨hp, fun st' h' => by rw [h] at h'; cases h'⟩, fun hm => hm.1⟩
    | .ok st1 =>
      have := decideRunMeets desc P st1 rest
      decidable_of_iff (P st op ∧ RunMeets desc P st1 rest)
        ⟨fun hp => ⟨hp.1, fun st' h' => by rw [h] at h'; cases h'; exact hp.2⟩,
          fun hm => ⟨hm.1, hm.2 st1 h⟩⟩

instance (desc : SessionDescription) (P : SimplexState → Op → Prop) [∀ st op, Decidable (P st op)]
    (st : SimplexState) (ops : List (ℕ × Op)) : Decidable (RunMeets desc P st ops) :=
  decideRunMeets desc P st ops

theorem new_resting (desc : SessionDescription) : Resting late desc (new desc) := by
  have h := (new_update desc).2
  have hF : (new desc).firstNonFinalizedSlot = 0 := h.finalized
  have hC : (new desc).firstNonProgressedSlot = 0 := h.progressed
  have hskip (s : ℕ) : (slotAt desc (new desc) s).skipped = false ∧
      (slotAt desc (new desc) s).observedNotarCertificate = none := by
    rw [new_slotAt]
    split_ifs <;> exact ⟨rfl, rfl⟩
  have hS (s : ℕ) : ¬ SkippedAt desc (new desc) s := by
    rintro ⟨-, hs⟩
    rw [(hskip s).1] at hs
    cases hs
  refine ⟨⟨⟨(new_voteInv desc).aligned, (new_voteInv desc).dropped, ?_, ?_, ?_, ?_,
    fun k hk _ hmark => absurd ⟨hk, hmark⟩ (hS k)⟩, ?_⟩, by rw [hF, hC], ?_⟩
  · have hM (s : ℕ) : ¬ Marked desc (new desc) s := by
      unfold Marked
      rw [(hskip s).1]
      exact Bool.false_ne_true
    rw [show (new desc).skipIntervals = ∅ from h.intervals]
    exact ⟨fun k _ hk => absurd hk (hM k), fun n hn => absurd hn (Finset.notMem_empty n),
      fun n hn => absurd hn (Finset.notMem_empty n)⟩
  · exact fun k hk => absurd hk (hS k)
  · intro k _ hk
    exact absurd hk (Nat.not_lt_zero k)
  · intro n b hb
    rw [new_slotAt] at hb
    split_ifs at hb
    obtain rfl := Option.some.inj hb
    exact ⟨.inl (Nat.zero_le _), fun k _ _ hk => by omega⟩
  · -- the only anchor is slot 0, with genesis as its base
    rintro a n ⟨-, ha⟩ hn
    have ha0 : a = 0 := by
      rcases ha with ha | ⟨k, -, hk⟩
      · rw [ha, hF]
      · rw [(hskip k).2] at hk
        cases hk
    subst ha0
    have hn0 : n = 0 := by
      by_contra hne
      exact hS 0 (hn.run 0 le_rfl (Nat.pos_of_ne_zero hne))
    subst hn0
    refine ⟨0, baseLabel_eq_some.mpr ⟨none, ?_, rfl⟩, le_rfl⟩
    rw [new_slotAt, if_pos rfl]
  · rw [isSlotProgressed_eq, (hskip _).1, (hskip _).2, Option.isSome_none, Bool.or_false,
      Bool.and_false]

/-- An invariant that every step keeps under its condition holds along a run. -/
theorem RunMeets.runOps {I : SimplexState → Prop} {C : SimplexState → Op → Prop}
    {Q : Panic → Prop} (hstep : ∀ st now op, I st → C st op → Outcome Q I (applyOp desc now st op))
    {ops : List (ℕ × Op)} (hmeets : RunMeets desc C st ops) (hst : I st) :
    Outcome Q I (runOps desc st ops) := by
  induction ops generalizing st with
  | nil => exact hst
  | cons op rest ih =>
    obtain ⟨hop, hrest⟩ := hmeets
    unfold Simplex.runOps
    rw [List.foldlM_cons]
    have hfirst := hstep st op.1 op.2 hst hop
    cases h : Simplex.applyOp desc op.1 st op.2 with
    | error p =>
      rw [h] at hfirst
      exact hfirst
    | ok st1 =>
      rw [h] at hfirst
      exact ih (hrest st1 h) hfirst

theorem Resting.runOps {ops : List (ℕ × Op)} (hr : Resting True desc st)
    (hmeets : RunMeets desc (SuccessorHasRoom desc) st ops) :
    SafeResult (Resting True desc) (runOps desc st ops) :=
  .of_outcome (hmeets.runOps (fun _ now op hr hop => hr.applyOp now op hop (.inl trivial)) hr)

/-- In every run that leaves room for the successor of each certified slot, the
slot at the cursor is materialized with a known base in every state reached,
and entering a leader window never panics. -/
theorem runOps_cursor_base_known (desc : SessionDescription) (ops : List (ℕ × Op))
    (h : RunMeets desc (SuccessorHasRoom desc) (new desc) ops) :
    (∀ st, runOps desc (new desc) ops = .ok st → Tracked desc st st.firstNonProgressedSlot ∧
        ∃ b, getSlotAvailableBase desc st st.firstNonProgressedSlot = some b) ∧
    ∀ p, runOps desc (new desc) ops = .error p → ¬ Panic.AtCursor p := by
  have hsafe := (new_resting desc).runOps h
  refine ⟨fun st hst => ?_, fun p hp => ?_⟩
  · rw [hst] at hsafe
    have hr : Resting True desc st := hsafe
    obtain ⟨b, hb, -⟩ := hr.base_known
    refine ⟨tracked_of_base hb, b, ?_⟩
    rw [getSlotAvailableBase_eq, if_neg (Nat.not_lt.mpr hr.finalized_le), hb]
  · rw [hp] at hsafe
    exact hsafe

def skipsBackwards : List (ℕ × Op) :=
  [(0, .setSkipCertificate ⟨⟨1⟩, soloSignatures⟩), (0, .setSkipCertificate ⟨⟨0⟩, soloSignatures⟩)]

def earlyNotarization : List (ℕ × Op) :=
  [(0, .setNotarizeCertificate ⟨⟨1, 5⟩, soloSignatures⟩),
    (0, .setSkipCertificate ⟨⟨0⟩, soloSignatures⟩)]

def panicOf (r : Except Panic SimplexState) : Option Panic :=
  match r with
  | .ok _ => none
  | .error p => some p

theorem eq_error_of_panicOf {r : Except Panic SimplexState} {p : Panic} (h : panicOf r = some p) :
    r = .error p := by
  cases r with
  | ok st => cases h
  | error q => rw [Option.some.inj h]

/-- With one-slot windows and no desync allowance, slot 2 lies past the horizon
while the cursor is at 0: the base for slot 2 is dropped, the cursor walks to
slot 2 and entering its window panics. -/
theorem cursor_panics_past_horizon :
    runOps (soloSession 1 0 Nat.one_pos) (new (soloSession 1 0 Nat.one_pos)) skipsBackwards =
        .error (.progressBaseUnknown 2) ∧
      runOps (soloSession 1 0 Nat.one_pos) (new (soloSession 1 0 Nat.one_pos)) earlyNotarization =
        .error (.progressBaseUnknown 2) :=
  ⟨eq_error_of_panicOf (by decide +kernel), eq_error_of_panicOf (by decide +kernel)⟩

/-- With a desync allowance of one window the same certificates have room. -/
theorem skipsBackwards_cursor_base_known :
    RunMeets (soloSession 1 1 Nat.one_pos) (SuccessorHasRoom (soloSession 1 1 Nat.one_pos))
        (new (soloSession 1 1 Nat.one_pos)) skipsBackwards ∧
      ∃ st, runOps (soloSession 1 1 Nat.one_pos) (new (soloSession 1 1 Nat.one_pos))
        skipsBackwards = .ok st ∧ st.firstNonProgressedSlot = 2 ∧
        ∃ b, getSlotAvailableBase (soloSession 1 1 Nat.one_pos) st 2 = some b := by
  have hmeets : RunMeets (soloSession 1 1 Nat.one_pos)
      (SuccessorHasRoom (soloSession 1 1 Nat.one_pos))
      (new (soloSession 1 1 Nat.one_pos)) skipsBackwards := by
    decide +kernel
  have hrun : returnsWith (runOps (soloSession 1 1 Nat.one_pos)
      (new (soloSession 1 1 Nat.one_pos)) skipsBackwards)
      (fun st => st.firstNonProgressedSlot == 2) = true := by
    decide +kernel
  obtain ⟨st, hst, hcur⟩ := exists_of_returnsWith hrun
  have hcur2 : st.firstNonProgressedSlot = 2 := beq_iff_eq.mp hcur
  have hbase := ((runOps_cursor_base_known _ _ hmeets).1 st hst).2
  rw [hcur2] at hbase
  exact ⟨hmeets, st, hst, hcur2, hbase⟩

end TonNode.Simplex.SimplexState
