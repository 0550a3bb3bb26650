import TonNode.SimplexSteps

/-! What the parent-chain code can do to a state: search for the next slot that
is not skipped, base propagation, the progress cursor and the leader window. -/
namespace TonNode.Simplex.SimplexState

open Relation

variable {desc : SessionDescription} {E : Evidence} {st st' st'' : SimplexState} {slot : ℕ}

structure SameChain (desc : SessionDescription) (st st' : SimplexState) : Prop where
  base : ∀ s, (slotAt desc st' s).availableBase = (slotAt desc st s).availableBase
  observed : ∀ s, (slotAt desc st' s).observedNotarCertificate =
    (slotAt desc st s).observedNotarCertificate
  skipped : ∀ s, (slotAt desc st' s).skipped = (slotAt desc st s).skipped
  tracked : ∀ s, Tracked desc st s → Tracked desc st' s
  aligned : StartsAligned desc st → StartsAligned desc st'
  events : st.events <+: st'.events
  offset : st'.leaderWindowOffset = st.leaderWindowOffset
  finalized : st'.firstNonFinalizedSlot = st.firstNonFinalizedSlot
  slotVotes : st'.slotVotes = st.slotVotes
  progressed : st'.firstNonProgressedSlot = st.firstNonProgressedSlot
  intervals : st'.skipIntervals = st.skipIntervals
  replay : st'.startupReplayActive = st.startupReplayActive

theorem SameChain.refl (st : SimplexState) : SameChain desc st st :=
  ⟨fun _ => rfl, fun _ => rfl, fun _ => rfl, fun _ h => h, fun h => h, List.prefix_rfl,
    rfl, rfl, rfl, rfl, rfl, rfl⟩

theorem SameChain.trans (hab : SameChain desc st st') (hbc : SameChain desc st' st'') :
    SameChain desc st st'' where
  base s := (hbc.base s).trans (hab.base s)
  observed s := (hbc.observed s).trans (hab.observed s)
  skipped s := (hbc.skipped s).trans (hab.skipped s)
  tracked s hs := hbc.tracked s (hab.tracked s hs)
  aligned ha := hbc.aligned (hab.aligned ha)
  events := hab.events.trans hbc.events
  offset := hbc.offset.trans hab.offset
  finalized := hbc.finalized.trans hab.finalized
  slotVotes := hbc.slotVotes.trans hab.slotVotes
  progressed := hbc.progressed.trans hab.progressed
  intervals := hbc.intervals.trans hab.intervals
  replay := hbc.replay.trans hab.replay

theorem Quiet.sameChain (h : Quiet desc st st') : SameChain desc st st' where
  base s := by rw [h.slots]
  observed s := by rw [h.slots]
  skipped s := by rw [h.slots]
  tracked := h.tracked
  aligned := h.aligned
  events := by rw [h.events]
  offset := h.offset
  finalized := h.finalized
  slotVotes := h.slotVotes
  progressed := h.progressed
  intervals := h.intervals
  replay := h.replay

theorem broadcastVote_sameChain (st : SimplexState) (v : Vote) :
    SameChain desc st (st.broadcastVote v) :=
  ⟨fun _ => rfl, fun _ => rfl, fun _ => rfl, fun _ h => h, fun h => h, List.prefix_append _ _,
    rfl, rfl, rfl, rfl, rfl, rfl⟩

theorem SlotUpdate.sameChain {f : Slot → Slot} (h : SlotUpdate desc st st' slot f)
    (hbase : ∀ sl, (f sl).availableBase = sl.availableBase)
    (hobs : ∀ sl, (f sl).observedNotarCertificate = sl.observedNotarCertificate)
    (hskip : ∀ sl, (f sl).skipped = sl.skipped) : SameChain desc st st' :=
  ⟨h.field _ (hbase _), h.field _ (hobs _), h.field _ (hskip _), h.2.tracked, h.2.aligned,
    by rw [h.2.events], h.2.offset, h.2.finalized, h.2.slotVotes, h.2.progressed, h.2.intervals,
    h.2.replay⟩

theorem LocalStep.sameChain (h : LocalStep desc E st st') : SameChain desc st st' := by
  cases h with
  | quiet h => exact Quiet.sameChain h
  | pending c _ h => exact h.sameChain (fun _ => rfl) (fun _ => rfl) (fun _ => rfl)
  | notarize s c _ _ _ _ h | finalize s hash _ _ _ _ _ h | skip s _ _ _ h =>
    exact (broadcastVote_sameChain st _).trans
      (h.sameChain (fun _ => rfl) (fun _ => rfl) (fun _ => rfl))

theorem LocalSteps.sameChain (h : LocalSteps desc E st st') : SameChain desc st st' := by
  induction h with
  | refl => exact SameChain.refl st
  | tail _ hstep ih => exact ih.trans hstep.sameChain

def SkippedAt (desc : SessionDescription) (st : SimplexState) (slot : ℕ) : Prop :=
  st.firstNonFinalizedSlot ≤ slot ∧ (slotAt desc st slot).skipped = true

theorem SameChain.skippedAt_iff (h : SameChain desc st st') (k : ℕ) :
    SkippedAt desc st' k ↔ SkippedAt desc st k := by
  unfold SkippedAt
  rw [h.finalized, h.skipped]

def NextFrom (desc : SessionDescription) (st : SimplexState) (slot next : ℕ) : Prop :=
  slot < next ∧ ¬ SkippedAt desc st next ∧ ((∀ k, slot < k → k < next → SkippedAt desc st k) ∨
      SkippedAt desc st (slot + 1) ∧ lowerBound st.skipIntervals (slot + 1) = some next)

def SearchBlocked (desc : SessionDescription) (st : SimplexState) (slot : ℕ) : Prop :=
  SkippedAt desc st (slot + 1) ∧
    ∀ b, lowerBound st.skipIntervals (slot + 1) = some b → SkippedAt desc st b

theorem lowerBound_spec {I : Finset ℕ} {a n : ℕ} (h : lowerBound I a = some n) :
    n ∈ I ∧ a ≤ n ∧ ∀ m ∈ I, a ≤ m → n ≤ m := by
  unfold lowerBound at h
  split_ifs at h with hne
  obtain rfl := Option.some.inj h
  obtain ⟨hmem, hle⟩ := Finset.mem_filter.mp (Finset.min'_mem _ hne)
  exact ⟨hmem, hle, fun m hm ham => Finset.min'_le _ _ (Finset.mem_filter.mpr ⟨hm, ham⟩)⟩

theorem lowerBound_isSome {I : Finset ℕ} {a n : ℕ} (hn : n ∈ I) (han : a ≤ n) :
    ∃ m, lowerBound I a = some m := by
  have hne : (I.filter fun b => a ≤ b).Nonempty := ⟨n, Finset.mem_filter.mpr ⟨hn, han⟩⟩
  exact ⟨_, dif_pos hne⟩

section

variable (desc : SessionDescription)

theorem isSlotSkippedCertAt_spec (st : SimplexState) (slot : ℕ) (alloc : WindowAlloc) :
    Quiet desc st (isSlotSkippedCertAt desc st slot alloc).1 ∧
      ((isSlotSkippedCertAt desc st slot alloc).2 = true ↔ SkippedAt desc st slot) := by
  cases alloc with
  | boundedByHorizon =>
    refine ⟨Quiet.refl st, ?_⟩
    change isSlotSkippedCert desc st slot = true ↔ _
    rw [isSlotSkippedCert_eq, Bool.and_eq_true, decide_eq_true_eq]
    rfl
  | verifiedCertificate =>
    unfold isSlotSkippedCertAt
    cases hu : updateSlotMut desc st slot .verifiedCertificate id with
    | none =>
      refine ⟨Quiet.refl st, ?_⟩
      -- only finalized or dropped slots are refused under the verified policy
      have hnone := (updateSlotMut_isSome_iff desc st slot .verifiedCertificate id).not
      rw [hu] at hnone
      simp only [Option.isSome_none, Bool.false_eq_true, not_false_iff, true_or, and_true,
        true_iff] at hnone
      simp only [Bool.false_eq_true, false_iff]
      rintro ⟨hfin, hskip⟩
      exact hnone ⟨hfin, (tracked_of_skipped hskip).1⟩
    | some st1 =>
      obtain ⟨hfin, hup⟩ := updateSlotMut_spec hu
      refine ⟨hup.toQuiet rfl, ?_⟩
      dsimp only
      rw [windowSlot_of_tracked hup.1, Option.any_some, hup.slotAt_self]
      exact (and_iff_right hfin).symm

theorem fallbackScan_spec (alloc : WindowAlloc) (limit : ℕ) (st : SimplexState) (slot : ℕ) :
    Quiet desc st (fallbackScanFirstNonSkipped desc alloc limit st slot).1 ∧
      ∀ n, (fallbackScanFirstNonSkipped desc alloc limit st slot).2 = some n →
        slot ≤ n ∧ ¬ SkippedAt desc st n ∧ ∀ k, slot ≤ k → k < n → SkippedAt desc st k := by
  induction limit generalizing st slot with
  | zero => exact ⟨Quiet.refl st, nofun⟩
  | succ limit ih =>
    obtain ⟨hq, hiff⟩ := isSlotSkippedCertAt_spec desc st slot alloc
    unfold fallbackScanFirstNonSkipped
    generalize isSlotSkippedCertAt desc st slot alloc = r at hq hiff ⊢
    by_cases hr : r.2 = true
    · rw [if_pos hr]
      obtain ⟨hq2, hscan⟩ := ih r.1 (slot + 1)
      refine ⟨hq.trans hq2, fun n hn => ?_⟩
      obtain ⟨hle, hnot, hall⟩ := hscan n hn
      refine ⟨by omega, fun h => hnot ((hq.sameChain.skippedAt_iff n).mpr h), fun k hk hkn => ?_⟩
      rcases Nat.eq_or_lt_of_le hk with rfl | hlt
      · exact hiff.mp hr
      · exact (hq.sameChain.skippedAt_iff k).mp (hall k hlt hkn)
    · rw [if_neg hr]
      refine ⟨hq, fun n hn => ?_⟩
      obtain rfl := Option.some.inj hn
      exact ⟨le_rfl, fun h => hr (hiff.mpr h), fun k hk hkn => by omega⟩

theorem findNextNonskippedSlot_spec (st : SimplexState) (slot : ℕ) (alloc : WindowAlloc) :
    Quiet desc st (findNextNonskippedSlot desc st slot alloc).1 ∧
      (∀ n, (findNextNonskippedSlot desc st slot alloc).2 = some n → NextFrom desc st slot n) ∧
      ((findNextNonskippedSlot desc st slot alloc).2 = none → SearchBlocked desc st slot) := by
  obtain ⟨hq, hiff⟩ := isSlotSkippedCertAt_spec desc st (slot + 1) alloc
  unfold findNextNonskippedSlot
  generalize isSlotSkippedCertAt desc st (slot + 1) alloc = r at hq hiff ⊢
  by_cases hr : r.2 = true
  · rw [if_neg (by simp only [hr, Bool.not_true, Bool.false_eq_true, not_false_iff])]
    have hsucc : SkippedAt desc st (slot + 1) := hiff.mp hr
    -- what the fallback scan finds, from any state with the same slots
    have hfallback (s1 : SimplexState) (h1 : Quiet desc st s1) (n : ℕ)
        (hn : (fallbackScanFirstNonSkipped desc alloc findNextNonskippedFallbackLimit s1
          (slot + 1)).2 = some n) : NextFrom desc st slot n := by
      obtain ⟨hle, hnot, hall⟩ := (fallbackScan_spec desc alloc _ s1 (slot + 1)).2 n hn
      refine ⟨hle, fun h => hnot ((h1.sameChain.skippedAt_iff n).mpr h), Or.inl ?_⟩
      intro k hk hkn
      exact (h1.sameChain.skippedAt_iff k).mp (hall k hk hkn)
    cases hb : lowerBound r.1.skipIntervals (slot + 1) with
    | none =>
      rw [hq.intervals] at hb
      refine ⟨hq.trans (fallbackScan_spec desc alloc _ r.1 (slot + 1)).1, hfallback r.1 hq, ?_⟩
      intro _
      refine ⟨hsucc, fun b hb' => ?_⟩
      rw [hb] at hb'
      cases hb'
    | some b =>
      rw [hq.intervals] at hb
      obtain ⟨hq2, hiff2⟩ := isSlotSkippedCertAt_spec desc r.1 b alloc
      dsimp only
      generalize isSlotSkippedCertAt desc r.1 b alloc = q at hq2 hiff2 ⊢
      rw [hq.sameChain.skippedAt_iff] at hiff2
      by_cases hqv : q.2 = true
      · rw [if_neg (by simp only [hqv, Bool.not_true, Bool.false_eq_true, not_false_iff])]
        refine ⟨(hq.trans hq2).trans (fallbackScan_spec desc alloc _ q.1 (slot + 1)).1,
          hfallback q.1 (hq.trans hq2), fun _ => ⟨hsucc, fun b' hb' => ?_⟩⟩
        rw [hb] at hb'
        obtain rfl := Option.some.inj hb'
        exact hiff2.mp hqv
      · rw [if_pos (by simp only [Bool.eq_false_iff.mpr hqv, Bool.not_false])]
        refine ⟨hq.trans hq2, fun n hn => ?_, nofun⟩
        obtain rfl := Option.some.inj hn
        exact ⟨(lowerBound_spec hb).2.1, fun h => hqv (hiff2.mpr h), Or.inr ⟨hsucc, hb⟩⟩
  · rw [if_pos (by simp only [Bool.eq_false_iff.mpr hr, Bool.not_false])]
    refine ⟨hq, fun n hn => ?_, nofun⟩
    obtain rfl := Option.some.inj hn
    exact ⟨Nat.lt_succ_self slot, fun h => hr (hiff.mpr h), Or.inl fun k hk hkn => by omega⟩

end

theorem NextFrom.eq_succ_iff {n : ℕ} (h : NextFrom desc st slot n) :
    n = slot + 1 ↔ ¬ SkippedAt desc st (slot + 1) := by
  obtain ⟨hlt, hnot, hbetween⟩ := h
  constructor
  · rintro rfl
    exact hnot
  · intro hsucc
    rcases hbetween with hall | ⟨hs, -⟩
    · by_contra hne
      exact hsucc (hall (slot + 1) (Nat.lt_succ_self slot) (by omega))
    · exact absurd hs hsucc

def Announced (past : List SimplexEvent) (st : SimplexState) (p : CandidateParentInfo) : Prop :=
  (∃ c, SimplexEvent.notarizationReached p.slot p.hash c ∈ past ++ st.events) ∨
    ∃ id c, SimplexEvent.blockFinalized p.slot p.hash id c ∈ past ++ st.events

/-- Where a base of slot `n` comes from: an announced block, the base of a
skipped slot, or the base of the progress cursor when a window is entered. -/
def BaseFrom (desc : SessionDescription) (E : Evidence) (st : SimplexState) (n : ℕ)
    (b : CandidateParent) : Prop :=
  (∃ p, b = some p ∧ Announced E.past st p ∧ st.firstNonFinalizedSlot ≤ p.slot + 1 ∧
      NextFrom desc st p.slot n) ∨ (∃ x, E.skip x ∧ st.firstNonFinalizedSlot ≤ x ∧
      (slotAt desc st x).availableBase = some b ∧ NextFrom desc st x n) ∨
    (n ≤ st.firstNonProgressedSlot ∧
      (slotAt desc st st.firstNonProgressedSlot).availableBase = some b)

def intervalsAfterSkip (desc : SessionDescription) (st : SimplexState) (x : ℕ) : Finset ℕ :=
  if (slotAt desc st (x + 1)).skipped then st.skipIntervals.erase x
  else insert (x + 1) (st.skipIntervals.erase x)

abbrev SkipFlagged (desc : SessionDescription) (st st' : SimplexState) (x : ℕ) : Prop :=
  Quiet desc st st' ∨ SlotUpdate desc st st' x fun sl => { sl with skipped := true }

def SkipMark (desc : SessionDescription) (st st' : SimplexState) (x : ℕ) : Prop :=
  ∃ st1, SkipFlagged desc st st1 x ∧
    st' = { st1 with skipIntervals := intervalsAfterSkip desc st x }

inductive ChainStep (desc : SessionDescription) (E : Evidence) : SimplexState → SimplexState → Prop
  | vote {st st' : SimplexState} (h : LocalStep desc E st st') : ChainStep desc E st st'
  | cursor {st : SimplexState} (c : ℕ) (hc : st.firstNonProgressedSlot ≤ c) :
      ChainStep desc E st { st with firstNonProgressedSlot := c }
  | base {st st' : SimplexState} (n : ℕ) (b : CandidateParent)
      (hfin : st.firstNonFinalizedSlot ≤ n) (hfrom : BaseFrom desc E st n b)
      (h : SlotUpdate desc st st' n fun sl => { sl with availableBase := some b }) :
      ChainStep desc E st st'
  | observe {st st' : SimplexState} (p : CandidateParentInfo) (hp : Announced E.past st p)
      (hfin : st.firstNonFinalizedSlot ≤ p.slot)
      (h : SlotUpdate desc st st' p.slot fun sl => { sl with observedNotarCertificate := some p }) :
      ChainStep desc E st st'
  | skip {st st' : SimplexState} (x : ℕ) (hx : E.skip x) (hfin : st.firstNonFinalizedSlot ≤ x)
      (h : SkipMark desc st st' x) : ChainStep desc E st st'

abbrev ChainSteps (desc : SessionDescription) (E : Evidence) := ReflTransGen (ChainStep desc E)

theorem ChainSteps.of_local (h : LocalSteps desc E st st') : ChainSteps desc E st st' :=
  ReflTransGen.mono (fun _ _ => ChainStep.vote) _ _ h

theorem ChainSteps.of_quiet (h : Quiet desc st st') : ChainSteps desc E st st' :=
  ReflTransGen.single (ChainStep.vote (LocalStep.quiet h))

structure KeepsVotes (st st' : SimplexState) : Prop where
  events : st.events <+: st'.events
  offset : st'.leaderWindowOffset = st.leaderWindowOffset
  finalized : st'.firstNonFinalizedSlot = st.firstNonFinalizedSlot
  slotVotes : st'.slotVotes = st.slotVotes
  replay : st'.startupReplayActive = st.startupReplayActive

theorem Rewrites.keepsVotes {g : ℕ → Slot} (h : Rewrites desc st st' g) : KeepsVotes st st' :=
  ⟨by rw [h.events], h.offset, h.finalized, h.slotVotes, h.replay⟩

theorem SkipMark.keepsVotes {x : ℕ} (h : SkipMark desc st st' x) : KeepsVotes st st' := by
  obtain ⟨st1, h1, rfl⟩ := h
  have hk : KeepsVotes st st1 := h1.elim (fun hq => hq.keepsVotes) fun hu => hu.2.keepsVotes
  exact ⟨hk.events, hk.offset, hk.finalized, hk.slotVotes, hk.replay⟩

theorem ChainStep.keepsVotes (h : ChainStep desc E st st') : KeepsVotes st st' := by
  cases h with
  | vote h =>
    have hs := h.sameChain
    exact ⟨hs.events, hs.offset, hs.finalized, hs.slotVotes, hs.replay⟩
  | cursor c _ => exact ⟨List.prefix_rfl, rfl, rfl, rfl, rfl⟩
  | base n b _ _ h | observe p _ _ h => exact h.2.keepsVotes
  | skip x _ _ h => exact h.keepsVotes

theorem ChainSteps.keepsVotes (h : ChainSteps desc E st st') : KeepsVotes st st' := by
  induction h with
  | refl => exact ⟨List.prefix_rfl, rfl, rfl, rfl, rfl⟩
  | tail _ hstep ih =>
    have hs := hstep.keepsVotes
    exact ⟨ih.events.trans hs.events, hs.offset.trans ih.offset, hs.finalized.trans ih.finalized,
      hs.slotVotes.trans ih.slotVotes, hs.replay.trans ih.replay⟩

theorem Announced.mono {past : List SimplexEvent} {p : CandidateParentInfo}
    (h : Announced past st p) (hev : st.events <+: st'.events) : Announced past st' p := by
  have hsub : past ++ st.events ⊆ past ++ st'.events :=
    List.append_subset.mpr ⟨List.subset_append_left _ _,
      List.subset_append_of_subset_right _ hev.subset⟩
  exact h.imp (fun ⟨c, hc⟩ => ⟨c, hsub hc⟩) fun ⟨id, c, hc⟩ => ⟨id, c, hsub hc⟩

section

variable (past : List SimplexEvent) (st : SimplexState) (slot : ℕ) (hash : UInt256)
include hash

theorem announced_notarization (c : NotarCert) :
    Announced past (st.pushEventBack (.notarizationReached slot hash c)) ⟨slot, hash⟩ :=
  Or.inl ⟨c, List.mem_append_right _ (List.mem_append_right _ (List.mem_singleton.mpr rfl))⟩

theorem announced_finalization (id : Option BlockIdExt) (c : FinalCert) :
    Announced past (st.pushEventBack (.blockFinalized slot hash id c)) ⟨slot, hash⟩ :=
  Or.inr ⟨id, c, List.mem_append_right _ (List.mem_append_right _ (List.mem_singleton.mpr rfl))⟩

end

theorem Slot.addAvailableBaseMax_eq (sl : Slot) (b : CandidateParent) :
    sl.addAvailableBaseMax b = { sl with availableBase := some b } ∨
      sl.addAvailableBaseMax b = sl := by
  unfold Slot.addAvailableBaseMax
  split
  · exact Or.inl rfl
  · split_ifs
    · exact Or.inl rfl
    · exact Or.inr rfl

theorem mergeBase_steps {n : ℕ} {b : CandidateParent} (hfin : st.firstNonFinalizedSlot ≤ n)
    (hfrom : BaseFrom desc E st n b)
    (h : SlotUpdate desc st st' n (·.addAvailableBaseMax b)) : ChainSteps desc E st st' := by
  rcases Slot.addAvailableBaseMax_eq (slotAt desc st n) b with heq | heq
  · refine ReflTransGen.single (ChainStep.base n b hfin hfrom ⟨h.1, ?_⟩)
    have h2 := h.2
    dsimp only at h2
    rwa [heq] at h2
  · exact ChainSteps.of_quiet (h.toQuiet heq)

theorem NextFrom.of_sameChain {n : ℕ} (hs : SameChain desc st st') (h : NextFrom desc st slot n) :
    NextFrom desc st' slot n := by
  unfold NextFrom at h ⊢
  rw [hs.intervals, hs.skippedAt_iff]
  simp only [hs.skippedAt_iff]
  exact h

theorem forwardBase_steps {p : CandidateParentInfo} (alloc : WindowAlloc) (hp : Announced E.past st p)
    (hfin : st.firstNonFinalizedSlot ≤ p.slot + 1) :
    ChainSteps desc E st (forwardBase desc (findNextNonskippedSlot desc st p.slot alloc) alloc
      (some p)) := by
  obtain ⟨hq, hnext, -⟩ := findNextNonskippedSlot_spec desc st p.slot alloc
  generalize findNextNonskippedSlot desc st p.slot alloc = r at hq hnext ⊢
  refine (ChainSteps.of_quiet hq).trans ?_
  unfold forwardBase
  cases hr : r.2 with
  | none => exact ReflTransGen.refl
  | some n =>
    rcases updateSlotMut_getD_cases desc r.1 n alloc (·.addAvailableBaseMax (some p)) with
      hsame | ⟨hle, hup⟩
    · dsimp only
      rw [hsame]
    · refine mergeBase_steps hle (Or.inl ⟨p, rfl, hp.mono hq.sameChain.events, ?_, ?_⟩) hup
      · rw [hq.finalized]
        exact hfin
      · exact (hnext n hr).of_sameChain hq.sameChain

theorem advanceCursorLoop_spec (desc : SessionDescription) (fuel : ℕ) (st : SimplexState) :
    ∃ c, advanceCursorLoop desc fuel st = { st with firstNonProgressedSlot := c } ∧
      st.firstNonProgressedSlot ≤ c ∧
      (∀ k, st.firstNonProgressedSlot ≤ k → k < c → isSlotProgressed desc st k = true) ∧
      (isSlotProgressed desc st c = true → c = st.firstNonProgressedSlot + fuel) := by
  induction fuel generalizing st with
  | zero => exact ⟨st.firstNonProgressedSlot, rfl, le_rfl, fun k hk hkc => by omega, fun _ => rfl⟩
  | succ fuel ih =>
    unfold advanceCursorLoop
    split_ifs with hp
    · obtain ⟨c, heq, hle, hall, hend⟩ :=
        ih { st with firstNonProgressedSlot := st.firstNonProgressedSlot + 1 }
      refine ⟨c, heq, (Nat.le_succ _).trans hle, fun k hk hkc => ?_, fun hc => ?_⟩
      · rcases Nat.eq_or_lt_of_le hk with rfl | hlt
        · exact hp
        · exact hall k hlt hkc
      · have h := hend hc
        dsimp only at h
        omega
    · exact ⟨st.firstNonProgressedSlot, rfl, le_rfl, fun k hk hkc => by omega,
        fun hc => absurd hc hp⟩

theorem tracked_of_progressed (h : isSlotProgressed desc st slot = true) :
    Tracked desc st slot := by
  by_contra ht
  rw [isSlotProgressed_eq, slotAt_of_not_tracked ht] at h
  simp only [Option.isSome_none, Bool.or_false, Bool.and_false, Bool.false_eq_true] at h

/-- The cursor stops at the first slot from its old place that is not progressed. -/
theorem advanceProgressCursor_spec (desc : SessionDescription) (st : SimplexState) :
    ∃ c, advanceProgressCursor desc st = { st with firstNonProgressedSlot := c } ∧
      st.firstNonProgressedSlot ≤ c ∧
      (∀ k, st.firstNonProgressedSlot ≤ k → k < c → isSlotProgressed desc st k = true) ∧
      isSlotProgressed desc st c = false := by
  obtain ⟨c, heq, hle, hall, hend⟩ := advanceCursorLoop_spec desc
    (trackedEnd desc st - st.firstNonProgressedSlot) st
  refine ⟨c, heq, hle, hall, ?_⟩
  by_contra hc
  rw [Bool.not_eq_false] at hc
  have hlt : c < trackedEnd desc st :=
    (lt_windowStart_iff desc c _).mpr (tracked_of_progressed hc).2
  have hce := hend hc
  omega

theorem advanceProgressCursor_steps (st : SimplexState) :
    ChainSteps desc E st (advanceProgressCursor desc st) := by
  obtain ⟨c, heq, hle, -, -⟩ := advanceProgressCursor_spec desc st
  rw [heq]
  exact ReflTransGen.single (ChainStep.cursor c hle)

variable {now : ℕ} (h : advanceLeaderWindowOnProgressCursor desc now st = .ok st')
include h

/-- Entering a window allocates, sets timers and may seed the first slot of the
window with the base of the cursor. -/
theorem advanceLeaderWindow_shape :
    Quiet desc st st' ∨ ∃ n b, n ≤ st.firstNonProgressedSlot ∧ st.firstNonFinalizedSlot ≤ n ∧
      desc.slotOffset n = 0 ∧ (slotAt desc st n).availableBase = none ∧
      (slotAt desc st st.firstNonProgressedSlot).availableBase = some b ∧
      SlotUpdate desc st st' n fun sl => { sl with availableBase := some b } := by
  unfold advanceLeaderWindowOnProgressCursor at h
  dsimp only at h
  split_ifs at h with hwin hreplay
  · cases h
    exact Or.inl (Quiet.refl st)
  · cases h
    exact Or.inl (Quiet.refl st)
  · have hpos : st.firstNonProgressedSlot ≠ 0 := by
      intro h0
      rw [h0] at hwin
      unfold SessionDescription.windowIdx at hwin
      rw [Nat.zero_div] at hwin
      omega
    unfold getProgressCursorBaseOrPanic at h
    rw [if_neg hpos] at h
    cases hu : updateSlotMut desc st st.firstNonProgressedSlot .boundedByHorizon id with
    | none => rw [hu] at h; cases h
    | some st1 =>
      obtain ⟨hfin, hup⟩ := updateSlotMut_spec hu
      have hq1 : Quiet desc st st1 := hup.toQuiet rfl
      rw [hu] at h
      dsimp only at h
      rw [windowSlot_of_tracked hup.1, Option.bind_some, hup.slotAt_self, id] at h
      cases hb : (slotAt desc st st.firstNonProgressedSlot).availableBase with
      | none => rw [hb] at h; cases h
      | some b =>
        rw [hb] at h
        cases h
        set nowWindow := desc.windowIdx st.firstNonProgressedSlot
        -- backoff, timers and the window itself are bookkeeping
        have hq2 : Quiet desc st1 (ensureWindowExists desc (setTimeouts desc now
            { applyAdaptiveTimeoutBackoff desc st1 with currentLeaderWindowIdx := nowWindow })
            nowWindow .boundedByHorizon) := by
          refine Quiet.trans ?_ (ensureWindowExists_quiet desc _ _ _)
          unfold applyAdaptiveTimeoutBackoff setTimeouts
          split_ifs
          · exact quiet_of_windows_eq _ _ rfl rfl rfl rfl rfl rfl rfl rfl
          · exact quiet_of_windows_eq _ _ rfl rfl rfl rfl rfl rfl rfl rfl
        generalize ensureWindowExists desc _ nowWindow .boundedByHorizon = st2 at hq2 ⊢
        have hq := hq1.trans hq2
        unfold seedWindowBase
        rcases updateSlotMut_getD_cases desc st2 (desc.windowStart nowWindow)
            .boundedByHorizon (fun sl => if sl.availableBase.isNone
              then { sl with availableBase := some b } else sl) with hsame | ⟨hle, hseed⟩
        · rw [hsame]
          exact Or.inl hq
        · have hseed' := hq.slotUpdate hseed
          by_cases hnone : (slotAt desc st (desc.windowStart nowWindow)).availableBase = none
          · refine Or.inr ⟨_, b, windowStart_le desc _, hq.finalized ▸ hle,
              Nat.mul_mod_left _ _, hnone, rfl,
              hseed'.1, ?_⟩
            have h2 := hseed'.2
            dsimp only at h2
            rwa [hnone, Option.isNone_none, if_pos rfl] at h2
          · left
            apply hseed'.toQuiet
            exact if_neg fun hn => hnone (Option.isNone_iff_eq_none.mp hn)

theorem advanceLeaderWindow_steps : ChainSteps desc E st st' := by
  rcases advanceLeaderWindow_shape h with hq | ⟨n, b, hn, hfin, -, -, hb, hu⟩
  · exact ChainSteps.of_quiet hq
  · exact ReflTransGen.single (ChainStep.base n b hfin (Or.inr (Or.inr ⟨hn, hb⟩)) hu)

end TonNode.Simplex.SimplexState
