import TonNode.SimplexVoteSafety
import TonNode.SkipRuns

/-! The progress cursor. The base of a notarized block travels over skipped
slots to the first slot that is not skipped, so the cursor, which passes only
notarized and skipped slots, stops at a slot whose base is known. -/
namespace TonNode.Simplex.SimplexState

open Relation SkipRuns

variable {late : Prop} {desc : SessionDescription} {st st' : SimplexState} {slot : ℕ}

def baseHeight : CandidateParent → ℕ
  | none => 0
  | some p => p.slot + 1

variable {b : CandidateParent}

theorem baseHeight_le_of_ge {a : CandidateParent} (h : candidateParentGe a b = true) :
    baseHeight b ≤ baseHeight a := by
  cases a with
  | none =>
    cases b with
    | none => exact le_rfl
    | some q => cases h
  | some p =>
    cases b with
    | none => exact Nat.zero_le _
    | some q =>
      simp only [candidateParentGe, Bool.or_eq_true, decide_eq_true_eq, Bool.and_eq_true,
        beq_iff_eq] at h
      simp only [baseHeight]
      omega

theorem baseHeight_le_of_not_ge {a : CandidateParent} (h : candidateParentGe a b = false) :
    baseHeight a ≤ baseHeight b := by
  cases a with
  | none => exact Nat.zero_le _
  | some p =>
    cases b with
    | none => cases h
    | some q =>
      simp only [candidateParentGe, Bool.or_eq_false_iff, decide_eq_false_iff_not] at h
      simp only [baseHeight]
      omega

theorem Slot.addAvailableBaseMax_height (sl : Slot) (b : CandidateParent) :
    ∃ b', (sl.addAvailableBaseMax b).availableBase = some b' ∧ baseHeight b ≤ baseHeight b' ∧
      (b' = b ∨ sl.availableBase = some b') ∧
      ∀ b0, sl.availableBase = some b0 → baseHeight b0 ≤ baseHeight b' := by
  unfold Slot.addAvailableBaseMax
  cases hb : sl.availableBase with
  | none => exact ⟨b, rfl, le_rfl, Or.inl rfl, nofun⟩
  | some old =>
    dsimp only
    split_ifs with hge
    · refine ⟨b, rfl, le_rfl, Or.inl rfl, fun b0 h0 => ?_⟩
      obtain rfl := Option.some.inj h0
      exact baseHeight_le_of_ge hge
    · refine ⟨old, hb, baseHeight_le_of_not_ge (Bool.eq_false_iff.mpr hge), Or.inr rfl,
        fun b0 h0 => ?_⟩
      obtain rfl := Option.some.inj h0
      exact le_rfl

def baseLabel (desc : SessionDescription) (st : SimplexState) (slot : ℕ) : Option ℕ :=
  (slotAt desc st slot).availableBase.map baseHeight

theorem baseLabel_eq_some {v : ℕ} : baseLabel desc st slot = some v ↔
    ∃ b, (slotAt desc st slot).availableBase = some b ∧ baseHeight b = v := by
  unfold baseLabel
  rw [Option.map_eq_some_iff]

def HorizonLe (desc : SessionDescription) (st st' : SimplexState) : Prop :=
  ∀ k, WithinHorizon desc st k → WithinHorizon desc st' k

theorem HorizonLe.refl (st : SimplexState) : HorizonLe desc st st := fun _ h => h

theorem HorizonLe.trans {st'' : SimplexState} (h : HorizonLe desc st st')
    (h' : HorizonLe desc st' st'') : HorizonLe desc st st'' := fun k hk => h' k (h k hk)

variable {c : ℕ}

theorem satAdd_mono {a b : ℕ} (h : a ≤ b) : satAdd a c ≤ satAdd b c := by
  unfold satAdd
  omega

theorem maxWindow_mono (h : st.firstNonProgressedSlot ≤ st'.firstNonProgressedSlot) :
    maxWindow desc st ≤ maxWindow desc st' := by
  unfold maxWindow maxAcceptableSlot
  exact Nat.succ_le_succ (windowIdx_mono desc (satAdd_mono h))

theorem HorizonLe.of_windows (hend : st.leaderWindowOffset + st.leaderWindows.length ≤
      st'.leaderWindowOffset + st'.leaderWindows.length)
    (hcur : st.firstNonProgressedSlot ≤ st'.firstNonProgressedSlot) : HorizonLe desc st st' := by
  intro k hk
  have hmax : maxWindow desc st ≤ maxWindow desc st' := maxWindow_mono hcur
  unfold WithinHorizon at hk ⊢
  omega

theorem HorizonLe.cursor (hc : st.firstNonProgressedSlot ≤ c) :
    HorizonLe desc st { st with firstNonProgressedSlot := c } := by
  apply HorizonLe.of_windows
  · exact le_rfl
  · exact hc

theorem HorizonLe.of_tracked (htr : ∀ s, Tracked desc st s → Tracked desc st' s)
    (hoff : st'.leaderWindowOffset = st.leaderWindowOffset)
    (hcur : st'.firstNonProgressedSlot = st.firstNonProgressedSlot) : HorizonLe desc st st' := by
  intro k hk
  have hmax : maxWindow desc st ≤ maxWindow desc st' := maxWindow_mono hcur.ge
  by_cases ht : Tracked desc st k
  · exact Or.inl (htr k ht).2
  · unfold WithinHorizon at hk ⊢
    unfold Tracked at ht
    omega

theorem WithinHorizon.of_tracked (h : Tracked desc st slot) : WithinHorizon desc st slot :=
  Or.inl h.2

theorem WithinHorizon.pred (h : WithinHorizon desc st (slot + 1)) : WithinHorizon desc st slot := by
  have hmono := windowIdx_mono desc (Nat.le_add_right slot 1)
  unfold WithinHorizon at h ⊢
  omega

/-- A vote that is not too far ahead leaves room for the successor of its slot. -/
theorem withinHorizon_of_vote (h : isVoteSlotTooFarAhead desc st slot = false) :
    WithinHorizon desc st (slot + 1) := by
  refine Or.inr ?_
  have hlt : slot < firstTooNewVoteSlot desc st := by
    exact Nat.not_le.mp (of_decide_eq_false h)
  unfold firstTooNewVoteSlot satMul satAdd at hlt
  have hwin : slot < (desc.windowIdx st.firstNonProgressedSlot + desc.maxLeaderWindowDesync + 1) *
      desc.slotsPerLeaderWindow := by
    refine lt_of_lt_of_le hlt ((Nat.min_le_left _ _).trans (Nat.mul_le_mul_right _ ?_))
    omega
  have hmax : slot + 1 ≤ 2 ^ 32 - 1 := lt_of_lt_of_le hlt (Nat.min_le_right _ _)
  unfold maxWindow maxAcceptableSlot maxFutureSlotSpan satAdd satMul
  set C := st.firstNonProgressedSlot
  set spw := desc.slotsPerLeaderWindow with hspw
  set d := desc.maxLeaderWindowDesync
  by_cases hsat : C + d * spw ≤ 2 ^ 32 - 1
  · -- no saturation: the horizon is `desync` windows after the cursor
    have hspan : min (d * spw) (2 ^ 32 - 1) = d * spw := by omega
    rw [hspan, Nat.min_eq_left hsat]
    unfold SessionDescription.windowIdx at hwin ⊢
    rw [← hspw] at hwin ⊢
    rw [Nat.add_mul_div_right _ _ (hspw ▸ desc.slots_pos)]
    have hdiv := (Nat.div_lt_iff_lt_mul (hspw ▸ desc.slots_pos)).mpr hwin
    have hsucc : (slot + 1) / spw ≤ slot / spw + 1 := by
      rw [Nat.succ_div]
      split_ifs <;> omega
    omega
  · -- saturated: every representable slot is inside
    have hbound : slot + 1 ≤ min (C + min (d * spw) (2 ^ 32 - 1)) (2 ^ 32 - 1) := by omega
    exact (windowIdx_mono desc hbound).trans (Nat.le_succ _)

structure SameView (desc : SessionDescription) (st st' : SimplexState) : Prop where
  base : ∀ s, (slotAt desc st' s).availableBase = (slotAt desc st s).availableBase
  observed : ∀ s, (slotAt desc st' s).observedNotarCertificate =
    (slotAt desc st s).observedNotarCertificate
  skipped : ∀ s, (slotAt desc st' s).skipped = (slotAt desc st s).skipped
  aligned : StartsAligned desc st → StartsAligned desc st'
  offset : st'.leaderWindowOffset = st.leaderWindowOffset
  finalized : st'.firstNonFinalizedSlot = st.firstNonFinalizedSlot
  progressed : st'.firstNonProgressedSlot = st.firstNonProgressedSlot
  intervals : st'.skipIntervals = st.skipIntervals
  horizon : HorizonLe desc st st'

theorem SameChain.sameView (h : SameChain desc st st') : SameView desc st st' where
  base := h.base
  observed := h.observed
  skipped := h.skipped
  aligned := h.aligned
  offset := h.offset
  finalized := h.finalized
  progressed := h.progressed
  intervals := h.intervals
  horizon := HorizonLe.of_tracked h.tracked h.offset h.progressed

theorem SameView.trans {st'' : SimplexState} (h : SameView desc st st')
    (h' : SameView desc st' st'') : SameView desc st st'' where
  base s := (h'.base s).trans (h.base s)
  observed s := (h'.observed s).trans (h.observed s)
  skipped s := (h'.skipped s).trans (h.skipped s)
  aligned ha := h'.aligned (h.aligned ha)
  offset := h'.offset.trans h.offset
  finalized := h'.finalized.trans h.finalized
  progressed := h'.progressed.trans h.progressed
  intervals := h'.intervals.trans h.intervals
  horizon := h.horizon.trans h'.horizon

theorem SameView.of_windows_eq (st st' : SimplexState) (hw : st'.leaderWindows = st.leaderWindows)
    (hoff : st'.leaderWindowOffset = st.leaderWindowOffset)
    (hfin : st'.firstNonFinalizedSlot = st.firstNonFinalizedSlot)
    (hcur : st'.firstNonProgressedSlot = st.firstNonProgressedSlot)
    (hint : st'.skipIntervals = st.skipIntervals) : SameView desc st st' := by
  have hslots : slotAt desc st' = slotAt desc st := by
    funext s
    unfold slotAt windowSlot getWindow
    rw [hw, hoff]
  refine ⟨fun s => ?_, fun s => ?_, fun s => ?_, fun ha => ?_, hoff, hfin, hcur, hint, ?_⟩
  · rw [hslots]
  · rw [hslots]
  · rw [hslots]
  · unfold StartsAligned at ha ⊢
    rwa [hw, hoff]
  · exact HorizonLe.of_windows (by rw [hw, hoff]) hcur.ge

/-- Where a known base must reach: the finalized boundary and the successors of
notarized slots from there on. -/
def Anchor (desc : SessionDescription) (st : SimplexState) (a : ℕ) : Prop :=
  st.firstNonFinalizedSlot ≤ a ∧ (a = st.firstNonFinalizedSlot ∨
    ∃ k, a = k + 1 ∧ (slotAt desc st k).observedNotarCertificate.isSome)

def Marked (desc : SessionDescription) (st : SimplexState) (slot : ℕ) : Prop :=
  (slotAt desc st slot).skipped = true

def Forgotten (desc : SessionDescription) (st : SimplexState) : Prop :=
  ∃ k, st.firstNonFinalizedSlot = k + 1 ∧ ¬ Live desc st k

/-- A base for slot `n`: not from the future, and every slot since is skipped.
A base seeded `late` may come from the slots that the cursor has passed. -/
def BaseFits (late : Prop) (desc : SessionDescription) (st : SimplexState) (n : ℕ)
    (b : CandidateParent) : Prop :=
  (baseHeight b ≤ n ∨ late ∧ baseHeight b ≤ st.firstNonProgressedSlot) ∧
    ∀ k, st.firstNonFinalizedSlot ≤ k → baseHeight b ≤ k → k < n → SkippedAt desc st k

/-- The bookkeeping of the parent chain: windows, boundaries of skipped runs,
the slots behind the cursor, and where the bases come from. Only in a `late`
chain is the first slot of a window skipped before its base is known. -/
structure ChainInv (late : Prop) (desc : SessionDescription) (st : SimplexState) : Prop where
  aligned : StartsAligned desc st
  dropped : desc.windowStart st.leaderWindowOffset ≤ st.firstNonFinalizedSlot
  intervals : Exact (Marked desc st) st.firstNonFinalizedSlot (Forgotten desc st) st.skipIntervals
  room : ∀ k, SkippedAt desc st k → WithinHorizon desc st (k + 1)
  passed : ∀ k, st.firstNonFinalizedSlot ≤ k → k < st.firstNonProgressedSlot →
    isSlotProgressed desc st k = true
  bases : ∀ n b, (slotAt desc st n).availableBase = some b → BaseFits late desc st n b
  starts : ∀ k, st.firstNonFinalizedSlot ≤ k → desc.slotOffset k = 0 → Marked desc st k →
    (slotAt desc st k).availableBase = none → late

theorem ChainInv.boundaries (hi : ChainInv late desc st) :
    Boundaries (SkippedAt desc st) st.skipIntervals := hi.intervals.boundaries

theorem ChainInv.height (hi : ChainInv late desc st) (n : ℕ) (b : CandidateParent)
    (hb : (slotAt desc st n).availableBase = some b) :
    baseHeight b ≤ max n st.firstNonProgressedSlot :=
  (hi.bases n b hb).1.elim (fun h => h.trans (le_max_left _ _))
    fun h => h.2.trans (le_max_right _ _)

/-- Every anchor's base, or a higher one, is at the end of its skipped run. -/
abbrev BasesReach (desc : SessionDescription) (st : SimplexState) (A : ℕ → Prop) : Prop :=
  Labelled (SkippedAt desc st) A (baseLabel desc st)

section

variable (hfin : st'.firstNonFinalizedSlot = st.firstNonFinalizedSlot)
include hfin

theorem skippedAt_congr (hskip : ∀ k, (slotAt desc st' k).skipped = (slotAt desc st k).skipped) :
    SkippedAt desc st' = SkippedAt desc st := by
  funext k
  unfold SkippedAt
  rw [hfin, hskip]

theorem anchor_congr
    (hobs : ∀ k, (slotAt desc st' k).observedNotarCertificate =
      (slotAt desc st k).observedNotarCertificate) : Anchor desc st' = Anchor desc st := by
  funext a
  unfold Anchor
  rw [hfin]
  simp only [hobs]

end

theorem baseLabel_congr (hbase : ∀ k, (slotAt desc st' k).availableBase =
    (slotAt desc st k).availableBase) : baseLabel desc st' = baseLabel desc st := by
  funext k
  unfold baseLabel
  rw [hbase]

theorem SameView.skippedAt (h : SameView desc st st') : SkippedAt desc st' = SkippedAt desc st :=
  skippedAt_congr h.finalized h.skipped

theorem SameView.marked (h : SameView desc st st') : Marked desc st' = Marked desc st := by
  funext k
  unfold Marked
  rw [h.skipped]

theorem forgotten_congr (hoff : st'.leaderWindowOffset = st.leaderWindowOffset)
    (hfin : st'.firstNonFinalizedSlot = st.firstNonFinalizedSlot) :
    Forgotten desc st' = Forgotten desc st := by
  unfold Forgotten Live
  rw [hoff, hfin]

theorem SameView.baseLabel (h : SameView desc st st') : baseLabel desc st' = baseLabel desc st :=
  baseLabel_congr h.base

theorem SameView.isSlotProgressed (h : SameView desc st st') (k : ℕ) :
    isSlotProgressed desc st' k = isSlotProgressed desc st k := by
  rw [isSlotProgressed_eq, isSlotProgressed_eq, h.finalized, h.skipped, h.observed]

theorem SameView.anchor (h : SameView desc st st') : Anchor desc st' = Anchor desc st :=
  anchor_congr h.finalized h.observed

theorem ChainInv.of_view (hi : ChainInv late desc st) (h : SameView desc st st') :
    ChainInv late desc st' where
  aligned := h.aligned hi.aligned
  dropped := by
    rw [h.offset, h.finalized]
    exact hi.dropped
  intervals := by
    rw [h.marked, forgotten_congr h.offset h.finalized, h.finalized, h.intervals]
    exact hi.intervals
  room k hk := by
    rw [h.skippedAt] at hk
    exact h.horizon _ (hi.room k hk)
  passed k hk hkc := by
    rw [h.finalized] at hk
    rw [h.progressed] at hkc
    rw [h.isSlotProgressed]
    exact hi.passed k hk hkc
  bases n b hb := by
    rw [h.base] at hb
    unfold BaseFits
    rw [h.progressed, h.finalized, h.skippedAt]
    exact hi.bases n b hb
  starts k := by
    rw [h.finalized, h.marked, h.base]
    exact hi.starts k

variable {A : ℕ → Prop}

theorem BasesReach.of_view (hr : BasesReach desc st A) (h : SameView desc st st') :
    BasesReach desc st' A := by
  unfold BasesReach
  rw [h.skippedAt, h.baseLabel]
  exact hr

theorem ChainInv.offset_le (hi : ChainInv late desc st) (h : st.firstNonFinalizedSlot ≤ slot) :
    st.leaderWindowOffset ≤ desc.windowIdx slot := by
  have hle := windowIdx_mono desc (hi.dropped.trans h)
  rwa [windowIdx_windowStart] at hle

/-- Only tracked slots are skipped, so every skipped run ends. -/
theorem exists_skippedRunEnd (desc : SessionDescription) (st : SimplexState) (a : ℕ) :
    ∃ n, RunEnd (SkippedAt desc st) a n := by
  refine exists_runEnd (trackedEnd desc st) (fun k hk hs => ?_) a
  have ht := (tracked_of_skipped hs.2).2
  rw [← lt_windowStart_iff] at ht
  unfold trackedEnd at hk
  omega

/-- The search for the next slot finds the end of the skipped run. -/
theorem ChainInv.runEnd_of_next {n : ℕ} (hi : ChainInv late desc st) (h : NextFrom desc st slot n) :
    RunEnd (SkippedAt desc st) (slot + 1) n := by
  obtain ⟨hlt, hfree, hrun | ⟨hsucc, hlow⟩⟩ := h
  · exact ⟨hlt, fun k hk hkn => hrun k hk hkn, hfree⟩
  · obtain ⟨hmem, hle, hleast⟩ := lowerBound_spec hlow
    exact hi.boundaries.runEnd_of_least hsucc (exists_skippedRunEnd desc st _) hmem hle hleast

/-- The search never gives up: the run after a skipped successor has a boundary. -/
theorem ChainInv.not_searchBlocked (hi : ChainInv late desc st) : ¬ SearchBlocked desc st slot := by
  rintro ⟨hsucc, hall⟩
  obtain ⟨n, hn⟩ := exists_skippedRunEnd desc st (slot + 1)
  obtain ⟨b, hb⟩ := lowerBound_isSome (hi.boundaries.runEnd_mem hsucc hn) hn.le
  exact hi.boundaries.free b (lowerBound_spec hb).1 (hall b hb)

/-- The end of a run has room for its window when the first slot of the run has. -/
theorem ChainInv.room_runEnd {a n : ℕ} (hi : ChainInv late desc st) (ha : WithinHorizon desc st a)
    (h : RunEnd (SkippedAt desc st) a n) : WithinHorizon desc st n := by
  rcases Nat.eq_or_lt_of_le h.le with rfl | hlt
  · exact ha
  · obtain ⟨m, rfl⟩ := Nat.exists_eq_add_of_lt hlt
    exact hi.room _ (h.run (a + m) (Nat.le_add_right _ _) (Nat.lt_succ_self _))

theorem SlotUpdate.horizon {f : Slot → Slot} (h : SlotUpdate desc st st' slot f) :
    HorizonLe desc st st' := HorizonLe.of_tracked h.2.tracked h.2.offset h.2.progressed

theorem ChainInv.update {f : Slot → Slot} (hi : ChainInv late desc st)
    (h : SlotUpdate desc st st' slot f) (hskip : ∀ sl, (f sl).skipped = sl.skipped)
    (hobs : ∀ sl, sl.observedNotarCertificate.isSome → (f sl).observedNotarCertificate.isSome)
    (hbase : ∀ b, (f (slotAt desc st slot)).availableBase = some b →
      BaseFits late desc st slot b)
    (hnone : ∀ sl, (f sl).availableBase = none → sl.availableBase = none) :
    ChainInv late desc st' := by
  have hskipped := h.field Slot.skipped (hskip _)
  have hS := skippedAt_congr h.2.finalized hskipped
  have hM : Marked desc st' = Marked desc st := by
    funext k
    unfold Marked
    rw [hskipped]
  refine ⟨h.2.aligned hi.aligned, ?_, ?_, fun k hk => ?_, fun k hk hkc => ?_, fun n b hb => ?_,
    fun k hk hstart hmark hbare => ?_⟩
  · rw [h.2.offset, h.2.finalized]
    exact hi.dropped
  · rw [hM, forgotten_congr h.2.offset h.2.finalized, h.2.finalized, h.2.intervals]
    exact hi.intervals
  · rw [hS] at hk
    exact h.horizon _ (hi.room k hk)
  · rw [h.2.finalized] at hk
    rw [h.2.progressed] at hkc
    have hold := hi.passed k hk hkc
    rw [isSlotProgressed_eq] at hold ⊢
    rw [h.2.finalized, hskipped]
    simp only [Bool.and_eq_true, Bool.or_eq_true] at hold ⊢
    refine ⟨hold.1, hold.2.imp_right ?_⟩
    exact h.forall_slots (P := fun s sl => (slotAt desc st s).observedNotarCertificate.isSome →
      sl.observedNotarCertificate.isSome) (hobs _) (fun _ => id) k
  · unfold BaseFits
    rw [h.2.progressed, h.2.finalized, hS]
    exact h.forall_slots (P := fun n sl => ∀ b, sl.availableBase = some b → BaseFits late desc st n b)
      hbase hi.bases n b hb
  · rw [h.2.finalized] at hk
    rw [hM] at hmark
    refine hi.starts k hk hstart hmark (h.forall_slots (P := fun s sl => sl.availableBase = none →
      (slotAt desc st s).availableBase = none) (hnone _) (fun _ => id) k hbare)

@[simp] theorem Slot.addAvailableBaseMax_skipped (sl : Slot) (b : CandidateParent) :
    (sl.addAvailableBaseMax b).skipped = sl.skipped := by
  rcases Slot.addAvailableBaseMax_eq sl b with h | h <;> rw [h]

@[simp] theorem Slot.addAvailableBaseMax_observed (sl : Slot) (b : CandidateParent) :
    (sl.addAvailableBaseMax b).observedNotarCertificate = sl.observedNotarCertificate := by
  rcases Slot.addAvailableBaseMax_eq sl b with h | h <;> rw [h]

structure BaseUpdate (desc : SessionDescription) (st st' : SimplexState) (n : ℕ)
    (f : Slot → Slot) : Prop where
  update : SlotUpdate desc st st' n f
  skipped : ∀ sl, (f sl).skipped = sl.skipped
  observed : ∀ sl, (f sl).observedNotarCertificate = sl.observedNotarCertificate
  raises : ∀ b, (slotAt desc st n).availableBase = some b →
    ∃ b', (f (slotAt desc st n)).availableBase = some b' ∧ baseHeight b ≤ baseHeight b'
  based : ∀ sl, (f sl).availableBase ≠ none

section BaseUpdate

variable {n : ℕ} {f : Slot → Slot} (h : BaseUpdate desc st st' n f)
include h

theorem BaseUpdate.slot_skipped (k : ℕ) :
    (slotAt desc st' k).skipped = (slotAt desc st k).skipped :=
  h.update.field _ (h.skipped _) k

theorem BaseUpdate.slot_observed (k : ℕ) : (slotAt desc st' k).observedNotarCertificate =
      (slotAt desc st k).observedNotarCertificate :=
  h.update.field _ (h.observed _) k

theorem BaseUpdate.skippedAt : SkippedAt desc st' = SkippedAt desc st :=
  skippedAt_congr h.update.2.finalized h.slot_skipped

theorem BaseUpdate.anchor : Anchor desc st' = Anchor desc st :=
  anchor_congr h.update.2.finalized h.slot_observed

theorem BaseUpdate.isSlotProgressed (k : ℕ) :
    isSlotProgressed desc st' k = isSlotProgressed desc st k := by
  rw [isSlotProgressed_eq, isSlotProgressed_eq, h.update.2.finalized, h.slot_skipped,
    h.slot_observed]

theorem BaseUpdate.labels : Raises (baseLabel desc st) (baseLabel desc st') := by
  intro k v hv
  obtain ⟨b, hb, rfl⟩ := baseLabel_eq_some.mp hv
  by_cases hk : k = n
  · subst hk
    obtain ⟨b', hb', hle⟩ := h.raises b hb
    exact ⟨_, baseLabel_eq_some.mpr ⟨b', by rw [h.update.slotAt_self]; exact hb', rfl⟩, hle⟩
  · exact ⟨_, baseLabel_eq_some.mpr ⟨b, by rw [h.update.slotAt_ne hk]; exact hb, rfl⟩, le_rfl⟩

theorem BaseUpdate.reach (hr : BasesReach desc st A) : BasesReach desc st' A := by
  unfold BasesReach
  rw [h.skippedAt]
  exact hr.raise h.labels

theorem BaseUpdate.chainInv (hi : ChainInv late desc st)
    (hbase : ∀ b, (f (slotAt desc st n)).availableBase = some b → BaseFits late desc st n b) :
    ChainInv late desc st' :=
  hi.update h.update h.skipped (fun sl ho => by rw [h.observed]; exact ho) hbase
    fun sl hnone => absurd hnone (h.based sl)

end BaseUpdate

variable {n : ℕ}

section

variable (h : SlotUpdate desc st st' n (·.addAvailableBaseMax b))
include h

theorem BaseUpdate.of_merge : BaseUpdate desc st st' n (·.addAvailableBaseMax b) := by
  refine ⟨h, fun sl => ?_, fun sl => ?_, fun b0 h0 => ?_, fun sl => ?_⟩
  · exact Slot.addAvailableBaseMax_skipped sl b
  · exact Slot.addAvailableBaseMax_observed sl b
  · obtain ⟨b', hb', -, -, hold⟩ := Slot.addAvailableBaseMax_height (slotAt desc st n) b
    exact ⟨b', hb', hold b0 h0⟩
  · obtain ⟨b', hb', -⟩ := Slot.addAvailableBaseMax_height sl b
    rw [hb']
    exact Option.some_ne_none b'

theorem merge_label : ∃ v, baseLabel desc st' n = some v ∧ baseHeight b ≤ v := by
  obtain ⟨b', hb', hle, -, -⟩ := Slot.addAvailableBaseMax_height (slotAt desc st n) b
  exact ⟨_, baseLabel_eq_some.mpr ⟨b', by rw [h.slotAt_self]; exact hb', rfl⟩, hle⟩

end

theorem ChainInv.merge (hi : ChainInv late desc st)
    (h : SlotUpdate desc st st' n (·.addAvailableBaseMax b)) (hb : BaseFits late desc st n b) :
    ChainInv late desc st' := by
  refine (BaseUpdate.of_merge h).chainInv hi fun b1 h1 => ?_
  obtain ⟨b', hb', -, hfrom, -⟩ := Slot.addAvailableBaseMax_height (slotAt desc st n) b
  rw [hb'] at h1
  obtain rfl := Option.some.inj h1
  rcases hfrom with rfl | hold
  · exact hb
  · exact hi.bases n b' hold

theorem BaseFits.of_runEnd (h : RunEnd (SkippedAt desc st) (baseHeight b) n) :
    BaseFits late desc st n b :=
  ⟨.inl h.le, fun k _ hk hkn => h.run k hk hkn⟩

/-- A base travels from a skipped slot to the end of the run after it. -/
theorem BaseFits.travel (h : BaseFits late desc st slot b) (hslot : SkippedAt desc st slot)
    (hend : RunEnd (SkippedAt desc st) (slot + 1) n) : BaseFits late desc st n b := by
  have hle := hend.le
  refine ⟨h.1.imp_left fun hheight => by omega, fun k hk hb hkn => ?_⟩
  rcases Nat.lt_trichotomy k slot with hlt | rfl | hgt
  · exact h.2 k hk hb hlt
  · exact hslot
  · exact hend.run k hgt hkn

/-- A notarized or finalized block hands its base to the end of the run after it. -/
theorem forwardBase_update {p : CandidateParentInfo} {alloc : WindowAlloc} (hi : ChainInv late desc st)
    (hfin : st.firstNonFinalizedSlot ≤ p.slot + 1)
    (hroom : alloc = .verifiedCertificate ∨ WithinHorizon desc st (p.slot + 1)) :
    ∃ n, RunEnd (SkippedAt desc st) (p.slot + 1) n ∧ SlotUpdate desc st
      (forwardBase desc (findNextNonskippedSlot desc st p.slot alloc) alloc (some p)) n
      (·.addAvailableBaseMax (some p)) := by
  obtain ⟨hq, hnext, hblocked⟩ := findNextNonskippedSlot_spec desc st p.slot alloc
  generalize findNextNonskippedSlot desc st p.slot alloc = r at hq hnext hblocked ⊢
  unfold forwardBase
  cases hr : r.2 with
  | none => exact absurd (hblocked hr) hi.not_searchBlocked
  | some n =>
    have hend := hi.runEnd_of_next (hnext n hr)
    refine ⟨n, hend, ?_⟩
    have hle : st.firstNonFinalizedSlot ≤ n := hfin.trans hend.le
    have hsome : (updateSlotMut desc r.1 n alloc (·.addAvailableBaseMax (some p))).isSome := by
      rw [updateSlotMut_isSome_iff, hq.finalized, hq.offset]
      refine ⟨hle, hi.offset_le hle, hroom.imp_right fun hw => ?_⟩
      exact HorizonLe.of_tracked hq.tracked hq.offset hq.progressed n (hi.room_runEnd hw hend)
    obtain ⟨st1, hst1⟩ := Option.isSome_iff_exists.mp hsome
    dsimp only
    rw [hst1, Option.getD_some]
    exact hq.slotUpdate (updateSlotMut_spec hst1).2

theorem BasesReach.forward {p : CandidateParentInfo} {n : ℕ} (hr : BasesReach desc st A)
    (hend : RunEnd (SkippedAt desc st) (p.slot + 1) n)
    (h : SlotUpdate desc st st' n (·.addAvailableBaseMax (some p))) :
    BasesReach desc st' fun a => A a ∨ a = p.slot + 1 := by
  have hb := BaseUpdate.of_merge h
  obtain ⟨v, hv, hle⟩ := merge_label h
  exact (hb.reach hr).insert (by rw [hb.skippedAt]; exact hend) hv hle

structure Linked (late : Prop) (desc : SessionDescription) (st : SimplexState) : Prop where
  chain : ChainInv late desc st
  reach : BasesReach desc st (Anchor desc st)

/-- The parent chain between two operations: the cursor has been walked. -/
structure Resting (late : Prop) (desc : SessionDescription) (st : SimplexState) : Prop
    extends Linked late desc st where
  finalized_le : st.firstNonFinalizedSlot ≤ st.firstNonProgressedSlot
  stopped : isSlotProgressed desc st st.firstNonProgressedSlot = false

theorem Linked.of_view (hl : Linked late desc st) (h : SameView desc st st') :
    Linked late desc st' where
  chain := hl.chain.of_view h
  reach := by
    rw [h.anchor]
    exact hl.reach.of_view h

theorem Resting.of_view (hr : Resting late desc st) (h : SameView desc st st') :
    Resting late desc st' where
  toLinked := hr.toLinked.of_view h
  finalized_le := by
    rw [h.finalized, h.progressed]
    exact hr.finalized_le
  stopped := by
    rw [h.progressed, h.isSlotProgressed]
    exact hr.stopped

theorem ChainInv.cursor (hi : ChainInv late desc st) (hc : st.firstNonProgressedSlot ≤ c)
    (hpass : ∀ k, st.firstNonFinalizedSlot ≤ k → st.firstNonProgressedSlot ≤ k → k < c →
      isSlotProgressed desc st k = true) :
    ChainInv late desc { st with firstNonProgressedSlot := c } where
  aligned := hi.aligned
  dropped := hi.dropped
  intervals := hi.intervals
  room k hk := HorizonLe.cursor hc _ (hi.room k hk)
  passed k hk hkc := by
    rcases Nat.lt_or_ge k st.firstNonProgressedSlot with hlt | hge
    · exact hi.passed k hk hlt
    · exact hpass k hk hge hkc
  bases n b hb := (hi.bases n b hb).imp_left (.imp_right (.imp_right hc.trans'))
  starts := hi.starts

/-- Walking the cursor keeps the chain linked and, from the boundary on, brings
it to rest. -/
theorem Linked.advance (hl : Linked late desc st) : Linked late desc (advanceProgressCursor desc st) ∧
      (st.firstNonFinalizedSlot ≤ st.firstNonProgressedSlot →
        Resting late desc (advanceProgressCursor desc st)) ∧
      HorizonLe desc st (advanceProgressCursor desc st) := by
  obtain ⟨c, heq, hc, hpass, hstop⟩ := advanceProgressCursor_spec desc st
  rw [heq]
  have hlinked : Linked late desc { st with firstNonProgressedSlot := c } :=
    ⟨hl.chain.cursor hc fun k _ => hpass k, hl.reach⟩
  exact ⟨hlinked, fun hle => ⟨hlinked, hle.trans hc, hstop⟩, HorizonLe.cursor hc⟩

/-- A slot up to the cursor that is not skipped has a known base, at least as
high as every anchor before it. -/
theorem Linked.base_known {n : ℕ} (hl : Linked late desc st) (hfin : st.firstNonFinalizedSlot ≤ n)
    (hn : n ≤ st.firstNonProgressedSlot) (hfree : ¬ SkippedAt desc st n) :
    ∃ b, (slotAt desc st n).availableBase = some b ∧
      ∀ a, Anchor desc st a → a ≤ n → a ≤ baseHeight b := by
  -- a slot behind the cursor is skipped, or its successor is an anchor
  have hwalk (k : ℕ) (hk : st.firstNonFinalizedSlot ≤ k) (hkn : k < n) :
      SkippedAt desc st k ∨ Anchor desc st (k + 1) := by
    have hp := hl.chain.passed k hk (hkn.trans_le hn)
    rw [isSlotProgressed_eq, decide_eq_true hk, Bool.true_and, Bool.or_eq_true] at hp
    exact hp.imp (fun hs => ⟨hk, hs⟩) fun ho => ⟨by omega, Or.inr ⟨k, rfl, ho⟩⟩
  obtain ⟨v, hv, hmax⟩ := hl.reach.walk ⟨le_rfl, Or.inl rfl⟩ hfin hwalk hfree
  obtain ⟨b, hb, rfl⟩ := baseLabel_eq_some.mp hv
  exact ⟨b, hb, hmax⟩

theorem Resting.base_known (hr : Resting late desc st) :
    ∃ b, (slotAt desc st st.firstNonProgressedSlot).availableBase = some b ∧
      ∀ a, Anchor desc st a → a ≤ st.firstNonProgressedSlot → a ≤ baseHeight b := by
  have hstop := hr.stopped
  rw [isSlotProgressed_eq, decide_eq_true hr.finalized_le, Bool.true_and,
    Bool.or_eq_false_iff] at hstop
  apply hr.toLinked.base_known hr.finalized_le le_rfl
  rintro ⟨-, hs⟩
  rw [hs] at hstop
  exact Bool.noConfusion hstop.1

theorem Resting.advanceLeaderWindow (hr : Resting late desc st) (now : ℕ) :
    ∃ st', advanceLeaderWindowOnProgressCursor desc now st = .ok st' ∧ Resting late desc st' ∧
      HorizonLe desc st st' ∧ st'.firstNonFinalizedSlot = st.firstNonFinalizedSlot := by
  obtain ⟨b, hb, -⟩ := hr.base_known
  have hok : ∃ st', advanceLeaderWindowOnProgressCursor desc now st = .ok st' := by
    unfold advanceLeaderWindowOnProgressCursor
    dsimp only
    split_ifs
    · exact ⟨_, rfl⟩
    · exact ⟨_, rfl⟩
    · unfold getProgressCursorBaseOrPanic
      split_ifs
      · exact ⟨_, rfl⟩
      · have hsome := (updateSlotMut_isSome_iff desc st st.firstNonProgressedSlot
          .boundedByHorizon id).mpr ⟨hr.finalized_le, hr.chain.offset_le hr.finalized_le,
            Or.inr (WithinHorizon.of_tracked (tracked_of_base hb))⟩
        obtain ⟨st1, hst1⟩ := Option.isSome_iff_exists.mp hsome
        have hup := (updateSlotMut_spec hst1).2
        rw [hst1]
        dsimp only
        rw [windowSlot_of_tracked hup.1, Option.bind_some, hup.slotAt_self, id, hb]
        exact ⟨_, rfl⟩
  obtain ⟨st', hst'⟩ := hok
  refine ⟨st', hst', ?_⟩
  rcases advanceLeaderWindow_shape hst' with hq | ⟨n, b', hn, hfin, hstart, hnone, hb', hu⟩
  · have hview := hq.sameChain.sameView
    exact ⟨hr.of_view hview, hview.horizon, hq.finalized⟩
  · -- the first slot of the window takes the base of the cursor
    have hbu : BaseUpdate desc st st' n fun sl => { sl with availableBase := some b' } := by
      refine ⟨hu, fun _ => rfl, fun _ => rfl, fun b0 h0 => ?_, fun _ => Option.some_ne_none b'⟩
      rw [hnone] at h0
      cases h0
    -- a slot without a base was passed because it was skipped
    have hlate : late := by
      by_cases hs : SkippedAt desc st n
      · exact hr.chain.starts n hfin hstart hs.2 hnone
      · obtain ⟨b0, h0, -⟩ := hr.toLinked.base_known hfin hn hs
        rw [hnone] at h0
        cases h0
    have hfits : BaseFits late desc st n b' := by
      have hheight := hr.chain.height _ _ hb'
      rw [max_self] at hheight
      exact ⟨.inr ⟨hlate, hheight⟩,
        fun k hk hbk hkn => (hr.chain.bases _ _ hb').2 k hk hbk (hkn.trans_le hn)⟩
    refine ⟨⟨⟨hbu.chainInv hr.chain fun b0 h0 => ?_, ?_⟩, ?_, ?_⟩, hu.horizon, hu.2.finalized⟩
    · obtain rfl := Option.some.inj h0
      exact hfits
    · rw [hbu.anchor]
      exact hbu.reach hr.reach
    · rw [hu.2.finalized, hu.2.progressed]
      exact hr.finalized_le
    · rw [hu.2.progressed, hbu.isSlotProgressed]
      exact hr.stopped

end TonNode.Simplex.SimplexState
