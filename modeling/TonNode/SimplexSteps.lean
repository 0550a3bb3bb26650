import TonNode.SimplexWindows

/-! What the local vote rules can do to a state. Every path through the vote
code is a sequence of the five `LocalStep`s, each with the guard under which the
code takes it; invariants are proved once per step. -/
namespace TonNode.Simplex.SimplexState

open Relation
open Relation.ReflTransGen (head single)
open ReflTransGen (refl)

/-- What is known from outside about the inputs of a state: `cand` of delivered
candidates, `notar`, `final` and `skip` of certified votes, `votes` of the
vote accounting of a slot. `past` are events already taken from the queue and
`alarm` says whether the skip alarm may fire. -/
structure Evidence where
  cand : Candidate → Prop
  notar : ℕ → UInt256 → Prop
  final : ℕ → UInt256 → Prop
  skip : ℕ → Prop
  votes : ℕ → SlotVotes → Prop
  past : List SimplexEvent := []
  alarm : Prop := True

inductive LocalStep (desc : SessionDescription) (E : Evidence) : SimplexState → SimplexState → Prop
  | quiet {st st' : SimplexState} (h : Quiet desc st st') : LocalStep desc E st st'
  | pending {st st' : SimplexState} (c : Candidate) (hc : E.cand c)
      (h : SlotUpdate desc st st' c.id.slot fun sl => { sl with pendingBlock := some c }) :
      LocalStep desc E st st'
  | notarize {st st' : SimplexState} (slot : ℕ) (c : Candidate)
      (hc : E.cand c ∧ c.id.slot = slot ∨ (slotAt desc st slot).pendingBlock = some c)
      (hfin : st.firstNonFinalizedSlot ≤ slot) (hvoted : (slotAt desc st slot).votedNotar = none)
      (hbase : (slotAt desc st slot).availableBase = some c.parent)
      (h : SlotUpdate desc (st.broadcastVote (.notarize ⟨slot, c.id.hash⟩)) st' slot fun sl =>
        { sl with isVoted := true, votedNotar := some ⟨slot, c.id.hash⟩, pendingBlock := none }) :
      LocalStep desc E st st'
  | finalize {st st' : SimplexState} (slot : ℕ) (hash : UInt256) (ht : Tracked desc st slot)
      (hobs : ∃ p, (slotAt desc st slot).observedNotarCertificate = some p ∧ p.hash = hash)
      (hnotar : ∃ p, (slotAt desc st slot).votedNotar = some p ∧ p.hash = hash)
      (hcompleted : (slotAt desc st slot).isCompleted = false)
      (hskip : (slotAt desc st slot).votedSkip = false)
      (h : SlotUpdate desc (st.broadcastVote (.finalize ⟨slot, hash⟩)) st' slot fun sl =>
        { sl with isCompleted := true, votedFinal := true }) :
      LocalStep desc E st st'
  | skip {st st' : SimplexState} (slot : ℕ) (halarm : E.alarm) (ht : Tracked desc st slot)
      (hfinal : (slotAt desc st slot).votedFinal = false)
      (h : SlotUpdate desc (st.broadcastVote (.skip ⟨slot⟩)) st' slot fun sl =>
        { sl with isVoted := true, votedSkip := true, isTimeoutSkipped := true }) :
      LocalStep desc E st st'

abbrev LocalSteps (desc : SessionDescription) (E : Evidence) := ReflTransGen (LocalStep desc E)

variable {desc : SessionDescription} {E : Evidence} {st st' : SimplexState} {slot : ℕ}

theorem LocalSteps.of_quiet (h : Quiet desc st st') : LocalSteps desc E st st' :=
  single (LocalStep.quiet h)

theorem reflTransGen_foldl {α β : Type} {r : α → α → Prop} {f : α → β → α}
    (hf : ∀ a b, ReflTransGen r a (f a b)) (l : List β) (a : α) :
    ReflTransGen r a (l.foldl f a) := by
  induction l generalizing a with
  | nil => exact refl
  | cons b l ih => exact (hf a b).trans (ih (f a b))

theorem quiet_of_windows_eq (st st' : SimplexState) (h1 : st'.leaderWindows = st.leaderWindows)
    (h2 : st'.leaderWindowOffset = st.leaderWindowOffset) (h3 : st'.events = st.events)
    (h4 : st'.firstNonFinalizedSlot = st.firstNonFinalizedSlot) (h5 : st'.slotVotes = st.slotVotes)
    (h6 : st'.firstNonProgressedSlot = st.firstNonProgressedSlot)
    (h7 : st'.skipIntervals = st.skipIntervals)
    (h8 : st'.startupReplayActive = st.startupReplayActive) : Quiet desc st st' where
  slots := by
    funext s
    simp only [slotAt, windowSlot, getWindow, h1, h2]
  tracked s hs := by
    unfold Tracked at hs ⊢
    rwa [h1, h2]
  aligned ha := by
    unfold StartsAligned at ha ⊢
    rwa [h1, h2]
  events := h3
  offset := h2
  finalized := h4
  slotVotes := h5
  progressed := h6
  intervals := h7
  replay := h8

section

variable (st : SimplexState)

theorem modifyWindow_hadTimeouts_quiet (i : ℕ) :
    Quiet desc st (st.modifyWindow i fun w => { w with hadTimeouts := true }) := by
  have h := modifyWindow_rewrites desc st i (fun w => { w with hadTimeouts := true }) fun w => rfl
  have hslots : slotAt desc (st.modifyWindow i fun w => { w with hadTimeouts := true }) =
      slotAt desc st := by
    funext s
    unfold slotAt windowSlot
    rw [getWindow_modifyWindow]
    split_ifs with hs
    · rw [hs, Option.map_map]
      rfl
    · rfl
  rwa [hslots] at h

theorem tryFinal_steps (slot : ℕ) (hash : UInt256) :
    LocalSteps desc E st (tryFinal desc st slot hash) := by
  have hq := ensureWindowExists_quiet desc st (desc.windowIdx slot) .boundedByHorizon
  unfold tryFinal
  generalize ensureWindowExists desc st (desc.windowIdx slot) .boundedByHorizon = st1 at hq ⊢
  refine (LocalSteps.of_quiet hq).trans ?_
  dsimp only
  cases hw : windowSlot desc st1 slot with
  | none => exact refl
  | some sl =>
    obtain ⟨ht, hsl⟩ := (windowSlot_eq_some_iff sl).mp hw
    dsimp only
    split_ifs with hc
    · simp only [Bool.and_eq_true, Bool.not_eq_true', Option.any_eq_true, decide_eq_true_eq] at hc
      obtain ⟨⟨⟨hobs, hnotar⟩, hcompl⟩, hskip⟩ := hc
      subst hsl
      exact single (LocalStep.finalize slot hash ht hobs hnotar hcompl hskip
        (modifySlot_update (show Tracked desc (st1.broadcastVote _) slot from ht) _))
    · exact refl

theorem tryNotar_steps (slot : ℕ) (c : Candidate)
    (hc : E.cand c ∧ c.id.slot = slot ∨ (slotAt desc st slot).pendingBlock = some c) :
    LocalSteps desc E st (tryNotar desc st slot c.id.hash c.parent).1 := by
  have hq := ensureWindowExists_quiet desc st (desc.windowIdx slot) .boundedByHorizon
  unfold tryNotar
  rw [← hq.slots] at hc
  generalize ensureWindowExists desc st (desc.windowIdx slot) .boundedByHorizon = st1 at hq hc ⊢
  refine (LocalSteps.of_quiet hq).trans ?_
  dsimp only
  split_ifs with hvoted hbase
  · exact refl
  · rw [getSlotAvailableBase_eq] at hbase
    split_ifs at hbase with hfin
    have ht := tracked_of_base hbase
    rw [windowSlot_of_tracked ht, Option.any_some, Option.not_isSome_iff_eq_none] at hvoted
    refine head (LocalStep.notarize slot c hc (Nat.not_lt.mp hfin) hvoted hbase
      (modifySlot_update (show Tracked desc (st1.broadcastVote _) slot from ht) _)) ?_
    exact tryFinal_steps _ slot c.id.hash
  · exact refl

theorem pendingBlockAt_eq (slot : ℕ) :
    pendingBlockAt desc st slot = (slotAt desc st slot).pendingBlock := by
  unfold pendingBlockAt
  by_cases ht : Tracked desc st slot
  · rw [windowSlot_of_tracked ht, Option.bind_some]
  · rw [windowSlot_of_not_tracked ht, slotAt_of_not_tracked ht, Option.bind_none]

theorem retryPendingSlot_steps (slot : ℕ) : LocalSteps desc E st (retryPendingSlot desc st slot) := by
  unfold retryPendingSlot
  split_ifs with hfin
  · exact refl
  · cases hp : pendingBlockAt desc st slot with
    | none => exact refl
    | some c =>
      rw [pendingBlockAt_eq] at hp
      refine (tryNotar_steps st slot c (Or.inr hp)).trans ?_
      dsimp only
      split_ifs
      · exact LocalSteps.of_quiet (quiet_of_windows_eq _ _ rfl rfl rfl rfl rfl rfl rfl rfl)
      · exact refl

theorem checkPendingBlocks_steps : LocalSteps desc E st (checkPendingBlocks desc st) := by
  unfold checkPendingBlocks
  refine head (LocalStep.quiet
    (quiet_of_windows_eq st { st with pendingSlots := [] } rfl rfl rfl rfl rfl rfl rfl rfl)) ?_
  exact reflTransGen_foldl (fun st slot => retryPendingSlot_steps st slot) _ _

theorem storePending_steps (c : Candidate) (hc : E.cand c) :
    LocalSteps desc E st (storePending desc st c) := by
  have hq := ensureWindowExists_quiet desc st (desc.windowIdx c.id.slot) .boundedByHorizon
  unfold storePending
  dsimp only
  generalize ensureWindowExists desc st (desc.windowIdx c.id.slot) .boundedByHorizon = st1 at hq ⊢
  refine (LocalSteps.of_quiet hq).trans ?_
  cases hw : windowSlot desc st1 c.id.slot with
  | none => exact refl
  | some sl =>
    obtain ⟨ht, -⟩ := (windowSlot_eq_some_iff sl).mp hw
    dsimp only
    split_ifs
    · exact refl
    · exact refl
    · refine head (LocalStep.pending c hc (modifySlot_update ht _)) ?_
      exact LocalSteps.of_quiet (quiet_of_windows_eq _ _ rfl rfl rfl rfl rfl rfl rfl rfl)

end

/-- `on_candidate` on an accepted candidate, whose parent is older. -/
theorem onCandidate_steps {c : Candidate} (h : onCandidate desc st c = .ok st')
    (hc : (∀ p, c.parentId = some p → p.slot < c.id.slot) → E.cand c) :
    LocalSteps desc E st st' := by
  unfold onCandidate at h
  dsimp only at h
  split_ifs at h with h1 h2 h3 h4 h5
  · cases h
    exact refl
  · cases h
    exact refl
  all_goals
    have hcand : E.cand c := by
      apply hc
      intro p hp
      rw [hp] at h4
      simp only [Option.any_some, decide_eq_true_eq] at h4
      exact Nat.not_le.mp h4
    cases h
    refine head (LocalStep.quiet (quiet_of_windows_eq st { st with
      candidateIds := Function.update st.candidateIds c.id.hash (some c.id) }
      rfl rfl rfl rfl rfl rfl rfl rfl)) ?_
    refine (tryNotar_steps _ c.id.slot c (Or.inl ⟨hcand, rfl⟩)).trans ?_
  · exact checkPendingBlocks_steps _
  · exact storePending_steps _ c hcand

/-- The slots of a skip loop are tracked and not voted final; a skip vote for
one of them keeps that for the others. -/
theorem skipSlotVote_foldl_steps (ha : E.alarm) (l : List ℕ) (st : SimplexState)
    (hl : ∀ s ∈ l, Tracked desc st s ∧ (slotAt desc st s).votedFinal = false) :
    LocalSteps desc E st (l.foldl (skipSlotVote desc) st) := by
  induction l generalizing st with
  | nil => exact refl
  | cons s l ih =>
    obtain ⟨ht, hfinal⟩ := hl s List.mem_cons_self
    have hu : SlotUpdate desc (st.broadcastVote (.skip ⟨s⟩)) (skipSlotVote desc st s) s _ :=
      modifySlot_update (show Tracked desc (st.broadcastVote _) s from ht) _
    refine head (LocalStep.skip s ha ht hfinal hu) (ih _ ?_)
    intro s' hs'
    obtain ⟨ht', hfinal'⟩ := hl s' (List.mem_cons_of_mem s hs')
    exact ⟨hu.2.tracked s' ht', (hu.field Slot.votedFinal rfl s').trans hfinal'⟩

section

variable (i k : ℕ) (hk : k < desc.slotsPerLeaderWindow)
include hk

theorem windowIdx_windowStart_add : desc.windowIdx (desc.windowStart i + k) = i := by
  unfold SessionDescription.windowIdx SessionDescription.windowStart
  rw [Nat.add_comm, Nat.add_mul_div_right k i desc.slots_pos, Nat.div_eq_of_lt hk, Nat.zero_add]

theorem slotOffset_windowStart_add : desc.slotOffset (desc.windowStart i + k) = k := by
  unfold SessionDescription.slotOffset SessionDescription.windowStart
  rw [Nat.add_comm, Nat.add_mul_mod_self_right, Nat.mod_eq_of_lt hk]

end

theorem trySkipWindow_steps (ha : E.alarm) (st : SimplexState) (idx : ℕ) :
    LocalSteps desc E st (trySkipWindow desc st idx) := by
  have hq := ensureWindowExists_quiet desc st idx .boundedByHorizon
  unfold trySkipWindow
  generalize ensureWindowExists desc st idx .boundedByHorizon = st1 at hq ⊢
  refine (LocalSteps.of_quiet hq).trans ?_
  dsimp only
  cases hw : st1.getWindow idx with
  | none => exact refl
  | some w =>
    apply skipSlotVote_foldl_steps ha
    intro s hs
    simp only [List.mem_map, List.mem_filter, List.mem_range, Bool.not_eq_true'] at hs
    obtain ⟨k, ⟨hk, hfinal⟩, rfl⟩ := hs
    have hslot : windowSlot desc st1 (desc.windowStart idx + k) = some (w.slots k) := by
      unfold windowSlot
      rw [windowIdx_windowStart_add idx k hk, slotOffset_windowStart_add idx k hk, hw,
        Option.map_some]
    obtain ⟨ht, hsl⟩ := (windowSlot_eq_some_iff _).mp hslot
    refine ⟨ht, ?_⟩
    rw [hsl]
    exact hfinal

theorem processTimeoutsLoop_steps (ha : E.alarm) (now fuel ts : ℕ) (st : SimplexState) :
    LocalSteps desc E st (processTimeoutsLoop desc now fuel ts st) := by
  induction fuel generalizing ts st with
  | zero => exact refl
  | succ fuel ih =>
    unfold processTimeoutsLoop
    dsimp only
    split_ifs with hnow hfin
    · exact refl
    · refine ReflTransGen.trans (LocalSteps.of_quiet ?_) (ih _ _)
      exact quiet_of_windows_eq _ _ rfl rfl rfl rfl rfl rfl rfl rfl
    · -- the alarm moved to the next slot, then the window of this slot is looked at
      refine head (LocalStep.quiet (quiet_of_windows_eq st { st with
        skipTimestamp := some (ts + desc.targetRate), skipSlot := st.skipSlot + 1 }
        rfl rfl rfl rfl rfl rfl rfl rfl)) ?_
      refine head (LocalStep.quiet
        (ensureWindowExists_quiet desc _ (desc.windowIdx st.skipSlot) .boundedByHorizon)) ?_
      generalize ensureWindowExists desc _ (desc.windowIdx st.skipSlot) .boundedByHorizon = st1
      cases windowSlot desc st1 st.skipSlot with
      | none => exact ih _ _
      | some sl =>
        dsimp only
        split_ifs
        · exact ih _ _
        · refine head (LocalStep.quiet
            (modifyWindow_hadTimeouts_quiet st1 (desc.windowIdx st.skipSlot))) ?_
          refine (trySkipWindow_steps ha _ (desc.windowIdx st.skipSlot)).trans ?_
          exact LocalSteps.of_quiet (quiet_of_windows_eq _ _ rfl rfl rfl rfl rfl rfl rfl rfl)

theorem checkAll_steps {now : ℕ} (ha : E.alarm) (h : checkAll desc now st = .ok st') :
    LocalSteps desc E st st' := by
  unfold checkAll at h
  split at h
  · cases h
  · cases h
    unfold processTimeouts
    split
    · exact refl
    · exact processTimeoutsLoop_steps ha _ _ _ _

end TonNode.Simplex.SimplexState
