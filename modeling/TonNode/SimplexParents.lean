import TonNode.SimplexCursorRuns

/-! The parents given out for collation. The base of a slot is a block that was
announced, and every slot since is skipped. It is older than the slot unless the
first slot of a leader window was skipped before its base was known. -/
namespace TonNode.Simplex.SimplexState

open Relation

variable {desc : SessionDescription} {E : Evidence} {st st' : SimplexState} {slot : ℕ}

def hasNotarizedBlock (desc : SessionDescription) (st : SimplexState) (slot : ℕ) : Bool :=
  if slot < st.firstNonFinalizedSlot then true
  else
    match st.leaderWindows.find? fun w =>
        w.startSlot ≤ slot && slot < w.startSlot + desc.slotsPerLeaderWindow with
    | some w => (w.slots (slot - w.startSlot)).observedNotarCertificate.isSome
    | none => false

def isParentValid (desc : SessionDescription) (st : SimplexState) (parentSlot : ℕ) : Bool :=
  if parentSlot < st.firstNonFinalizedSlot then true else hasNotarizedBlock desc st parentSlot

def getAvailableParent (desc : SessionDescription) (st : SimplexState) (slot : ℕ) :
    Option CandidateParentInfo :=
  match getSlotAvailableBase desc st slot with
  | none => none
  | some none => none
  | some (some parent) => if isParentValid desc st parent.slot then some parent else none

theorem base_of_availableParent {p : CandidateParentInfo}
    (h : getAvailableParent desc st slot = some p) :
    getSlotAvailableBase desc st slot = some (some p) := by
  unfold getAvailableParent at h
  cases hb : getSlotAvailableBase desc st slot with
  | none => rw [hb] at h; cases h
  | some b =>
    rw [hb] at h
    cases b with
    | none => cases h
    | some q =>
      dsimp only at h
      split_ifs at h
      cases h
      rfl

def BasesAnnounced (desc : SessionDescription) (st : SimplexState) : Prop :=
  ∀ n p, (slotAt desc st n).availableBase = some (some p) → Announced [] st p

section

variable (hb : BasesAnnounced desc st) (hev : st.events <+: st'.events)
include hb hev

theorem BasesAnnounced.of_bases
    (h : ∀ n p, (slotAt desc st' n).availableBase = some (some p) →
      (∃ m, (slotAt desc st m).availableBase = some (some p)) ∨ Announced [] st p) :
    BasesAnnounced desc st' := by
  intro n p hp
  rcases h n p hp with ⟨m, hm⟩ | ha
  · exact (hb m p hm).mono hev
  · exact ha.mono hev

theorem BasesAnnounced.of_same
    (h : ∀ n, (slotAt desc st' n).availableBase = (slotAt desc st n).availableBase) :
    BasesAnnounced desc st' :=
  hb.of_bases hev fun n _ hp => Or.inl ⟨n, (h n).symm.trans hp⟩

end

theorem BasesAnnounced.chainStep (hpast : E.past = []) (hb : BasesAnnounced desc st)
    (h : ChainStep desc E st st') : BasesAnnounced desc st' := by
  have hev := h.keepsVotes.events
  cases h with
  | vote h => exact hb.of_same hev h.sameChain.base
  | cursor c _ => exact hb.of_same hev fun _ => rfl
  | base n b _ hfrom h =>
    refine hb.of_bases hev fun m p hp => ?_
    by_cases hm : m = n
    · subst hm
      rw [h.slotAt_self] at hp
      obtain rfl := Option.some.inj hp
      rcases hfrom with ⟨q, hq, ha, -⟩ | ⟨x, -, -, hx, -⟩ | ⟨-, hc⟩
      · obtain rfl := Option.some.inj hq
        exact Or.inr (hpast ▸ ha)
      · exact Or.inl ⟨x, hx⟩
      · exact Or.inl ⟨_, hc⟩
    · rw [h.slotAt_ne hm] at hp
      exact Or.inl ⟨m, hp⟩
  | observe p _ _ h => exact hb.of_same hev (h.field Slot.availableBase rfl)
  | skip x _ _ h =>
    obtain ⟨st1, hf, rfl⟩ := h
    exact hb.of_same hev (hf.field Slot.availableBase fun _ => rfl)

theorem BasesAnnounced.steps (hpast : E.past = []) (hb : BasesAnnounced desc st)
    (hvotes : VoteInv desc E.past st) (h : Steps desc E st st') : BasesAnnounced desc st' := by
  induction h with
  | refl => exact hb
  | @tail st1 st2 hsteps hstep ih =>
    have hi := hvotes.steps hsteps
    cases hstep with
    | chain h => exact ih.chainStep hpast h
    | event e _ => exact ih.of_same (List.prefix_append _ _) fun _ => rfl
    | votes slot sv _ _ => exact ih.of_same List.prefix_rfl fun _ => rfl
    | finalized slot =>
      rw [advanceFinalized_eq_with]
      exact ih.of_same List.prefix_rfl fun _ => rfl
    | prune upToSlot =>
      refine ih.of_bases (by rw [cleanupSlots_events]) fun n p hp => Or.inl ⟨n, ?_⟩
      by_cases hl : Live desc (cleanupSlots desc st1 upToSlot) n
      · rwa [cleanupSlots_slotAt hi.aligned upToSlot n hl] at hp
      · rw [cleanupSlots_slotAt_dropped upToSlot n hl] at hp
        cases hp

theorem runOps_basesAnnounced (desc : SessionDescription) (ops : List (ℕ × Op))
    (h : runOps desc (new desc) ops = .ok st) : BasesAnnounced desc st := by
  have hsteps : Steps desc (Evidence.any []) (new desc) st :=
    runOps_steps (Evidence.any_sound [] desc) (new_grounded desc _)
      (fun op _ => Evidence.any_admits [] desc op.2) h
  refine BasesAnnounced.steps rfl ?_ (new_voteInv desc) hsteps
  intro n p hp
  rw [new_slotAt] at hp
  split_ifs at hp
  cases hp

def SoundParent (desc : SessionDescription) (st : SimplexState) (s : ℕ)
    (p : CandidateParentInfo) : Prop :=
  p.slot < s ∧ Announced [] st p ∧
    ∀ k, p.slot < k → k < s → st.firstNonFinalizedSlot ≤ k → Marked desc st k

/-- In every run that leaves room for the successor of each certified slot, and
skips the first slot of a leader window only once its base is known, every parent
is sound, and genesis is the base only behind skipped slots. -/
theorem runOps_available_parent (desc : SessionDescription) (ops : List (ℕ × Op))
    (h : RunMeets desc (fun st op => SuccessorHasRoom desc st op ∧ SkipsBasedStart desc st op)
      (new desc) ops) (st : SimplexState) (hrun : runOps desc (new desc) ops = .ok st) (s : ℕ) :
    (∀ p, getAvailableParent desc st s = some p → SoundParent desc st s p) ∧
    (getSlotAvailableBase desc st s = some none →
      ∀ k < s, st.firstNonFinalizedSlot ≤ k → Marked desc st k) := by
  have hrest : Outcome (¬ Panic.AtCursor ·) (Resting False desc) (runOps desc (new desc) ops) :=
    h.runOps (fun _ now op hr hop => hr.applyOp now op hop.1 (.inr hop.2)) (new_resting desc)
  have hi := (hrest.of_ok hrun).chain
  have hbase {b : CandidateParent} (hb : getSlotAvailableBase desc st s = some b) :
      (slotAt desc st s).availableBase = some b := by
    rw [getSlotAvailableBase_eq] at hb
    split_ifs at hb
    exact hb
  refine ⟨fun p hp => ?_, fun hb k hk hfin => ?_⟩
  · have hb := hbase (base_of_availableParent hp)
    obtain ⟨hheight, hsince⟩ := hi.bases s _ hb
    have hlt : p.slot + 1 ≤ s := hheight.resolve_right fun hlate => hlate.1
    exact ⟨hlt, runOps_basesAnnounced desc ops hrun s p hb,
      fun k hk hks hfin => (hsince k hfin hk hks).2⟩
  · exact ((hi.bases s none (hbase hb)).2 k hfin (Nat.zero_le k) hk).2

/-- Slot 3 opens the second window and is skipped after its base came from slot 2. -/
def basedWindowStart : List (ℕ × Op) :=
  [(0, .setNotarizeCertificate ⟨⟨0, 5⟩, soloSignatures⟩),
    (0, .setNotarizeCertificate ⟨⟨2, 6⟩, soloSignatures⟩),
    (0, .setSkipCertificate ⟨⟨3⟩, soloSignatures⟩),
    (0, .setSkipCertificate ⟨⟨1⟩, soloSignatures⟩)]

/-- The cursor stands at slot 4; parents are given out behind it, too. -/
theorem basedWindowStart_available_parent :
    ∃ st, runOps (soloSession 3 1 three_pos) (new (soloSession 3 1 three_pos))
        basedWindowStart = .ok st ∧ SoundParent (soloSession 3 1 three_pos) st 2 ⟨0, 5⟩ ∧
      SoundParent (soloSession 3 1 three_pos) st 4 ⟨2, 6⟩ := by
  have hrun : returnsWith (runOps (soloSession 3 1 three_pos)
      (new (soloSession 3 1 three_pos)) basedWindowStart) (fun st =>
        decide (getAvailableParent (soloSession 3 1 three_pos) st 2 = some ⟨0, 5⟩ ∧
          getAvailableParent (soloSession 3 1 three_pos) st 4 = some ⟨2, 6⟩)) = true := by
    decide +kernel
  obtain ⟨st, hst, hcheck⟩ := exists_of_returnsWith hrun
  obtain ⟨hbehind, hcursor⟩ := of_decide_eq_true hcheck
  have hsound := runOps_available_parent _ basedWindowStart (by decide +kernel) st hst
  exact ⟨st, hst, (hsound 2).1 _ hbehind, (hsound 4).1 _ hcursor⟩

def skippedWindowStart : List (ℕ × Op) :=
  [(0, .setSkipCertificate ⟨⟨3⟩, soloSignatures⟩),
    (0, .setNotarizeCertificate ⟨⟨4, 7⟩, soloSignatures⟩),
    (0, .setFinalizeCertificate ⟨⟨2, 6⟩, soloSignatures⟩)]

/-- Entering the window seeds slot 3 with the block of slot 4. -/
theorem available_parent_from_future :
    RunMeets (soloSession 3 1 three_pos) (SuccessorHasRoom (soloSession 3 1 three_pos))
        (new (soloSession 3 1 three_pos)) skippedWindowStart ∧
      ∃ st, runOps (soloSession 3 1 three_pos) (new (soloSession 3 1 three_pos))
          skippedWindowStart = .ok st ∧ st.firstNonFinalizedSlot = 3 ∧
        getAvailableParent (soloSession 3 1 three_pos) st 3 = some ⟨4, 7⟩ := by
  refine ⟨by decide +kernel, ?_⟩
  have hrun : returnsWith (runOps (soloSession 3 1 three_pos)
      (new (soloSession 3 1 three_pos)) skippedWindowStart) (fun st =>
        decide (st.firstNonFinalizedSlot = 3 ∧
          getAvailableParent (soloSession 3 1 three_pos) st 3 = some ⟨4, 7⟩)) = true := by
    decide +kernel
  obtain ⟨st, hst, hcheck⟩ := exists_of_returnsWith hrun
  exact ⟨st, hst, of_decide_eq_true hcheck⟩

end TonNode.Simplex.SimplexState
