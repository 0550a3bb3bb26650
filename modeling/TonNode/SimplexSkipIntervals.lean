import TonNode.SimplexCursorRuns

/-! The skip intervals against the plain scan: as long as every certificate is for
a slot that votes could still be for, the boundaries are those of the runs of
skipped slots, and the search for the next slot never scans. -/
namespace TonNode.Simplex.SimplexState

open SkipRuns

variable {desc : SessionDescription} {st : SimplexState} {slot : ℕ}

def takesFallback (desc : SessionDescription) (st : SimplexState) (slot : ℕ)
    (alloc : WindowAlloc) : Bool :=
  let r := isSlotSkippedCertAt desc st (slot + 1) alloc
  r.2 && match lowerBound r.1.skipIntervals (slot + 1) with
    | some b => (isSlotSkippedCertAt desc r.1 b alloc).2
    | none => true

theorem searchBlocked_of_fallback {alloc : WindowAlloc}
    (h : takesFallback desc st slot alloc = true) : SearchBlocked desc st slot := by
  obtain ⟨hq, hiff⟩ := isSlotSkippedCertAt_spec desc st (slot + 1) alloc
  unfold takesFallback at h
  generalize isSlotSkippedCertAt desc st (slot + 1) alloc = r at hq hiff h
  rw [Bool.and_eq_true, hq.intervals] at h
  refine ⟨hiff.mp h.1, fun b hb => ?_⟩
  have hb2 := h.2
  rw [hb] at hb2
  exact (hq.sameChain.skippedAt_iff b).mp ((isSlotSkippedCertAt_spec desc r.1 b alloc).2.mp hb2)

theorem ChainInv.findNext {late : Prop} (hi : ChainInv late desc st)
    (hfin : st.firstNonFinalizedSlot ≤ slot + 1)
    (alloc : WindowAlloc) : takesFallback desc st slot alloc = false ∧
      ∃ t, (findNextNonskippedSlot desc st slot alloc).2 = some t ∧ slot < t ∧
        ¬ Marked desc st t ∧ ∀ k, slot < k → k < t → Marked desc st k := by
  constructor
  · by_contra h
    exact hi.not_searchBlocked (searchBlocked_of_fallback (Bool.eq_true_of_not_eq_false h))
  · obtain ⟨-, hnext, hblocked⟩ := findNextNonskippedSlot_spec desc st slot alloc
    cases hr : (findNextNonskippedSlot desc st slot alloc).2 with
    | none => exact absurd (hblocked hr) hi.not_searchBlocked
    | some t =>
      have hend := hi.runEnd_of_next (hnext t hr)
      exact ⟨t, rfl, hend.le, fun hm => hend.free ⟨hfin.trans hend.le, hm⟩,
        fun k hk hkt => (hend.run k hk hkt).2⟩

def CertificateInReach (desc : SessionDescription) (st : SimplexState) : Op → Prop
  | .setNotarizeCertificate c => c.vote.slot < firstTooNewVoteSlot desc st
  | .setFinalizeCertificate c => c.vote.slot < firstTooNewVoteSlot desc st
  | .setSkipCertificate c => c.vote.slot < firstTooNewVoteSlot desc st
  | _ => True

instance (desc : SessionDescription) (st : SimplexState) (op : Op) :
    Decidable (CertificateInReach desc st op) :=
  match op with
  | .setNotarizeCertificate _ => inferInstanceAs (Decidable (_ < _))
  | .setFinalizeCertificate _ => inferInstanceAs (Decidable (_ < _))
  | .setSkipCertificate _ => inferInstanceAs (Decidable (_ < _))
  | .onVote _ _ _ _ => isTrue trivial
  | .onCandidate _ => isTrue trivial
  | .checkAll => isTrue trivial
  | .cleanupSlots _ => isTrue trivial

theorem CertificateInReach.hasRoom {op : Op} (h : CertificateInReach desc st op) :
    SuccessorHasRoom desc st op := by
  have hroom {s : ℕ} (hs : s < firstTooNewVoteSlot desc st) : WithinHorizon desc st (s + 1) :=
    withinHorizon_of_vote (decide_eq_false (Nat.not_le.mpr hs))
  cases op with
  | setNotarizeCertificate c | setSkipCertificate c => exact fun _ => hroom h
  | _ => trivial

/-- The boundaries of every state reached are the unmarked successors of marked
slots from the finalized boundary on. Only the finalized boundary itself may be
in the set for a predecessor whose window has been dropped. -/
theorem runOps_skipIntervals_exact (desc : SessionDescription) (ops : List (ℕ × Op))
    (h : RunMeets desc (CertificateInReach desc) (new desc) ops) (st : SimplexState)
    (hrun : runOps desc (new desc) ops = .ok st) :
    (∀ b, (∀ k, b = k + 1 → b = st.firstNonFinalizedSlot → Live desc st k) →
      (b ∈ st.skipIntervals ↔ st.firstNonFinalizedSlot ≤ b ∧ ¬ Marked desc st b ∧
        ∃ k, b = k + 1 ∧ Marked desc st k)) ∧
    (∀ b ∈ st.skipIntervals, st.firstNonFinalizedSlot ≤ b ∧ ¬ Marked desc st b) ∧
    ∀ s alloc, st.firstNonFinalizedSlot ≤ s + 1 → takesFallback desc st s alloc = false ∧
        ∃ t, (findNextNonskippedSlot desc st s alloc).2 = some t ∧ s < t ∧
          ¬ Marked desc st t ∧ ∀ k, s < k → k < t → Marked desc st k := by
  have hrest := h.runOps (fun _ now op hr hop => hr.applyOp now op hop.hasRoom (.inl trivial))
    (new_resting desc)
  have hi : ChainInv True desc st := (hrest.of_ok hrun).chain
  refine ⟨fun b hb => hi.intervals.mem_iff fun heq hf => ?_, fun b hb => ?_,
    fun s alloc hs => hi.findNext hs alloc⟩
  · obtain ⟨k, hk, hdead⟩ := hf
    exact hdead (hb k (heq.trans hk) heq)
  · exact ⟨(hi.intervals.starts b hb).1, hi.intervals.free b hb⟩

def skippedAndFinalized : List (ℕ × Op) :=
  [(0, .setSkipCertificate ⟨⟨0⟩, soloSignatures⟩),
    (0, .setFinalizeCertificate ⟨⟨0, 5⟩, soloSignatures⟩), (0, .cleanupSlots 1)]

/-- The boundary after the dropped slot stays in the set. -/
theorem skipInterval_after_dropped_slot :
    RunMeets (soloSession 1 1 Nat.one_pos) (CertificateInReach (soloSession 1 1 Nat.one_pos))
        (new (soloSession 1 1 Nat.one_pos)) skippedAndFinalized ∧
      ∃ st, runOps (soloSession 1 1 Nat.one_pos) (new (soloSession 1 1 Nat.one_pos))
          skippedAndFinalized = .ok st ∧ st.firstNonFinalizedSlot = 1 ∧ 1 ∈ st.skipIntervals ∧
        ¬ Tracked (soloSession 1 1 Nat.one_pos) st 0 ∧
        ¬ Marked (soloSession 1 1 Nat.one_pos) st 0 := by
  refine ⟨by decide +kernel, ?_⟩
  have hrun : returnsWith (runOps (soloSession 1 1 Nat.one_pos)
      (new (soloSession 1 1 Nat.one_pos)) skippedAndFinalized) (fun st =>
        decide (st.firstNonFinalizedSlot = 1 ∧ 1 ∈ st.skipIntervals ∧
          ¬ Tracked (soloSession 1 1 Nat.one_pos) st 0)) = true := by
    decide +kernel
  obtain ⟨st, hst, hcheck⟩ := exists_of_returnsWith hrun
  obtain ⟨hfin, hmem, htracked⟩ := of_decide_eq_true hcheck
  exact ⟨st, hst, hfin, hmem, htracked, fun hm => htracked (tracked_of_skipped hm)⟩

/-- After the skips of slots 1 and 0 the search from slot 0 ends at slot 2. -/
theorem skipsBackwards_skipIntervals_exact :
    RunMeets (soloSession 1 1 Nat.one_pos) (CertificateInReach (soloSession 1 1 Nat.one_pos))
        (new (soloSession 1 1 Nat.one_pos)) skipsBackwards ∧
      ∃ st, runOps (soloSession 1 1 Nat.one_pos) (new (soloSession 1 1 Nat.one_pos))
          skipsBackwards = .ok st ∧ ∃ t, (findNextNonskippedSlot (soloSession 1 1 Nat.one_pos) st 0
          .boundedByHorizon).2 = some t ∧ 0 < t := by
  have hmeets : RunMeets (soloSession 1 1 Nat.one_pos)
      (CertificateInReach (soloSession 1 1 Nat.one_pos))
      (new (soloSession 1 1 Nat.one_pos)) skipsBackwards := by
    decide +kernel
  have hrun : returnsWith (runOps (soloSession 1 1 Nat.one_pos)
      (new (soloSession 1 1 Nat.one_pos)) skipsBackwards)
      (fun st => decide (st.firstNonFinalizedSlot ≤ 0 + 1)) = true := by
    decide +kernel
  obtain ⟨st, hst, hfin⟩ := exists_of_returnsWith hrun
  obtain ⟨-, t, ht, hlt, -⟩ := (runOps_skipIntervals_exact _ _ hmeets st hst).2.2 0
    .boundedByHorizon (of_decide_eq_true hfin)
  exact ⟨hmeets, st, hst, t, ht, hlt⟩

end TonNode.Simplex.SimplexState
