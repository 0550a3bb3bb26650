import TonNode.SimplexStore

/-! Store and slot table over whole runs: thresholds reached by votes store and
mark their certificates together, and so does every imported certificate whose
window has room. -/
namespace TonNode.Simplex.SimplexState

open Relation

variable {desc : SessionDescription} {st st' : SimplexState} {slot : ℕ}

theorem slotVotesAt_of_lookup {sv : SlotVotes} (h : st.slotVotes.lookup slot = some sv) :
    st.slotVotesAt slot = sv := by
  unfold slotVotesAt
  rw [h, Option.getD_some]

structure NotarAnnounced (desc : SessionDescription) (st st' : SimplexState) (slot : ℕ)
    (block : UInt256) : Prop where
  except : StoreExcept desc st' slot
  view : SameView desc st st'
  slots : slotAt desc st' = slotAt desc st
  lookup : (st.slotVotes.lookup slot).isSome → (st'.slotVotes.lookup slot).isSome
  skip : (st'.slotVotesAt slot).skipCertificate = (st.slotVotesAt slot).skipCertificate
  final : (st'.slotVotesAt slot).finalizeCertificate = (st.slotVotesAt slot).finalizeCertificate
  notar : ∀ c, (st'.slotVotesAt slot).notarizeCertificate = some c → c.vote.blockHash = block

theorem announceNotarization_store {block : UInt256} (hi : StoreInv desc st) :
    Yields (fun st' => NotarAnnounced desc st st' slot block)
      (announceNotarization desc slot st block) := by
  -- where there is accounting, it is replaced
  have hset (sv : SlotVotes) (c : NotarCert) (hlook : st.slotVotes.lookup slot = some sv)
      (hc : c.vote.blockHash = block) : NotarAnnounced desc st (st.setSlotVotes slot
        { sv with blockNotarizedPublished := true, notarizeCertificate := some c }) slot block := by
    refine ⟨(hi.except slot).setSlotVotes _, setSlotVotes_sameView desc st slot _, rfl,
      fun _ => lookup_setSlotVotes_isSome st slot _, ?_, ?_, fun c' hc' => ?_⟩
    · rw [slotVotesAt_setSlotVotes, if_pos rfl, slotVotesAt_of_lookup hlook]
    · rw [slotVotesAt_setSlotVotes, if_pos rfl, slotVotesAt_of_lookup hlook]
    · rw [slotVotesAt_setSlotVotes, if_pos rfl] at hc'
      obtain rfl := Option.some.inj hc'
      exact hc
  refine announceNotarization_rule (fun hlook => ?_) (fun _ _ _ _ _ => trivial)
    (fun sv c hlook _ hc => ?_) fun sv c0 hlook _ hh => hset sv c0 hlook hh
  · refine ⟨hi.except slot, SameView.of_windows_eq _ _ rfl rfl rfl rfl rfl, rfl, fun h => h, rfl,
      rfl, fun c hc => ?_⟩
    unfold slotVotesAt at hc
    rw [hlook] at hc
    cases hc
  · have hna := hset sv c hlook (by rw [hc]; rfl)
    exact ⟨hna.except.marks (pushEventBack_sameMarks desc _ _ slot),
      hna.view.trans (pushEventBack_sameView desc _ _), hna.slots, hna.lookup, hna.skip,
      hna.final, hna.notar⟩

structure StoreBelow (desc : SessionDescription) (st : SimplexState) (slot : ℕ)
    (st' : SimplexState) : Prop where
  inv : StoreInv desc st'
  horizon : HorizonLe desc st st'
  finalized : st'.firstNonFinalizedSlot = st.firstNonFinalizedSlot
  lookup : (st'.slotVotes.lookup slot).isSome

theorem StoreBelow.notarizeThreshold {now : ℕ} {published : Bool} {block : UInt256} {weight : ℕ}
    (h : StoreBelow desc st slot st') (hle : st.firstNonFinalizedSlot ≤ slot)
    (hroom : WithinHorizon desc st slot) : Yields (StoreBelow desc st slot)
      (notarizeThreshold desc now slot published st' block weight) := by
  refine notarizeThreshold_rule h (fun _ _ => announceNotarization_store h.inv)
    fun st1 ha => Outcome.yields fun st2 hon => ?_
  have hle' : st'.firstNonFinalizedSlot ≤ slot := h.finalized.le.trans hle
  have hold := h.inv.stored slot hle'
  obtain ⟨hst2, -, hhor, hF, hvotes, -⟩ := ha.except.onBlockNotarized
    (ha.view.finalized.le.trans hle') (ha.view.horizon _ (h.horizon _ hroom))
    (by rw [ha.skip, ha.slots]; exact hold.skip) ha.notar (by rw [ha.final]; exact hold.final) hon
  refine ⟨hst2, (h.horizon.trans ha.view.horizon).trans hhor,
    (hF.trans ha.view.finalized).trans h.finalized, ?_⟩
  rw [hvotes]
  exact ha.lookup h.lookup

section

variable (hi : StoreInv desc st)
include hi

/-- A finalization reached by votes moves the boundary past its slot. -/
theorem StoreInv.finalizeThreshold {now : ℕ} {sv : SlotVotes} {block : UInt256}
    (hle : st.firstNonFinalizedSlot ≤ slot) :
    Yields (fun st' => StoreInv desc st' ∧ slot < st'.firstNonFinalizedSlot)
      (finalizeThreshold desc now slot st sv block) := by
  have hann : Yields (fun st1 => StoreExcept desc st1 slot ∧
      st1.firstNonFinalizedSlot = st.firstNonFinalizedSlot)
      (announceFinalization desc slot st sv block) := by
    refine announceFinalization_rule (fun _ _ _ => trivial) fun c cert st1 _ _ hst1 => ?_
    subst hst1
    have hex := ((hi.except slot).setSlotVotes { sv with
      blockFinalizedPublished := true, finalizeCertificate := some c }).marks
      (pushEventBack_sameMarks desc _ (.blockFinalized slot block
        ((st.candidateIds block).map (·.block)) cert) slot)
    exact ⟨⟨hex, rfl⟩, hex.marks (pushEventBack_sameMarks desc _ _ slot), rfl⟩
  unfold SimplexState.finalizeThreshold
  refine Outcome.elim _ hann (fun _ _ => trivial) fun st1 h1 => ?_
  obtain ⟨hex, hF⟩ := h1
  have hinv := hex.finalized
  have hle1 : st1.firstNonFinalizedSlot ≤ slot + 1 := by omega
  have hF1 : slot < (advanceFinalized st1 slot).firstNonFinalizedSlot := by
    rw [advanceFinalized_finalized]
    omega
  dsimp only
  rw [advanceAfterFinalizeThreshold_eq now block hle1]
  generalize advanceFinalized st1 slot = st2 at hinv hF1
  have hprop := propagateBaseAfterNotarization_sameMarks desc st2 ⟨slot, block⟩
  split_ifs
  · refine Outcome.yields fun st3 h => ?_
    have hall := hprop.trans (advancePresent_sameMarks h)
    exact ⟨hinv.marks hall, hF1.trans_eq (hall 0).finalized.symm⟩
  · exact ⟨hinv.marks hprop, hF1.trans_eq (hprop 0).finalized.symm⟩

/-- A skip threshold stores and marks its certificate; the accounting of the
slot is there, since votes have just been counted in it. -/
theorem StoreInv.skipPhase {now : ℕ} {sv : SlotVotes}
    (hroom : st.firstNonFinalizedSlot ≤ slot → WithinHorizon desc st slot)
    (hlook : st.firstNonFinalizedSlot ≤ slot → (st.slotVotes.lookup slot).isSome) :
    Yields (StoreInv desc) (skipPhase desc now slot sv st) := by
  refine skipPhase_rule hi fun _ _ hle _ => ?_
  have hold := hi.stored slot hle
  apply announceSkip_rule (P := fun st1 => Yields (StoreInv desc) (skipAdvance desc now st1 slot))
  · intro hnone
    have hsome := hlook hle
    rw [hnone] at hsome
    cases hsome
  · intro sv0 cert hsv0 _
    have hat := slotVotesAt_of_lookup hsv0
    have hm := (pushEventBack_sameMarks desc (st.setSlotVotes slot
      { sv0 with slotSkippedPublished := true, skipCertificate := some cert })
      (.slotSkipped slot)).trans (pushEventBack_sameMarks desc _ (.skipCertificateReached slot cert))
    have hex := ((hi.except slot).setSlotVotes _).marks (hm slot)
    have hat1 := slotVotesAt_congr (hm slot).slotVotes slot
    rw [slotVotesAt_setSlotVotes, if_pos rfl] at hat1
    refine (hex.skipAdvance (Or.inl (Quiet.refl _)) hle ((hm slot).horizon _ (hroom hle))
      (by rw [hat1]; rfl) (fun c' hc' => ?_) ?_).mono fun _ h => h.1
    · rw [hat1, ← hat] at hc'
      exact hold.notar c' hc'
    · rw [hat1, ← hat]
      exact hold.final

theorem StoreInv.checkThresholdsAndTrigger {now : ℕ}
    (hle : st.firstNonFinalizedSlot ≤ slot) (hroom : WithinHorizon desc st slot) :
    Yields (StoreInv desc) (checkThresholdsAndTrigger desc now st slot) := by
  apply checkThresholdsAndTrigger_rule (I := StoreBelow desc st slot)
    (F := fun st' => StoreInv desc st' ∧ slot < st'.firstNonFinalizedSlot) (fun _ _ => trivial) hi
  · exact fun sv hsv => ⟨hi, HorizonLe.refl st, rfl, by rw [hsv]; rfl⟩
  · exact fun sv _ st1 e _ h1 => h1.notarizeThreshold hle hroom
  · exact fun st1 h1 => h1.inv
  · exact fun sv e _ _ st1 sv1 h1 _ => h1.inv.finalizeThreshold (h1.finalized.le.trans hle)
  · rintro sv - st1 (h1 | ⟨hi1, hlt⟩)
    · exact h1.inv.skipPhase (fun _ => h1.horizon _ hroom) fun _ => h1.lookup
    · -- the slot is finalized now, so the skip phase does nothing
      exact hi1.skipPhase (fun h => absurd hlt (Nat.not_lt.mpr h))
        fun h => absurd hlt (Nat.not_lt.mpr h)

def SlotHasRoom (desc : SessionDescription) (st : SimplexState) : Op → Prop
  | .setNotarizeCertificate c =>
    st.firstNonFinalizedSlot ≤ c.vote.slot → WithinHorizon desc st c.vote.slot
  | .setSkipCertificate c =>
    st.firstNonFinalizedSlot ≤ c.vote.slot → WithinHorizon desc st c.vote.slot
  | _ => True

instance (desc : SessionDescription) (st : SimplexState) (op : Op) :
    Decidable (SlotHasRoom desc st op) :=
  match op with
  | .setNotarizeCertificate _ => inferInstanceAs (Decidable (_ → _))
  | .setSkipCertificate _ => inferInstanceAs (Decidable (_ → _))
  | .setFinalizeCertificate _ => isTrue trivial
  | .onVote _ _ _ _ => isTrue trivial
  | .onCandidate _ => isTrue trivial
  | .checkAll => isTrue trivial
  | .cleanupSlots _ => isTrue trivial

theorem StoreInv.onVote {now idx : ℕ} {vote : Vote} {signature : SignatureBytes}
    {raw : RawVoteData} :
    Yields (fun r => StoreInv desc r.1) (onVote desc now st idx vote signature raw) := by
  refine onVote_rule (fun _ => hi) fun _ hfar hfin sv r hr => ?_
  have hcerts := handle_certificates desc (st.slotVotesAt vote.slot) idx vote signature raw
  rw [hr] at hcerts
  have hi1 := hi.rewrite vote.slot hcerts
  exact ⟨hi1, hi1.checkThresholdsAndTrigger hfin
    ((setSlotVotes_sameView desc st _ _).horizon _ (withinHorizon_of_vote hfar).pred)⟩

theorem StoreInv.cleanupSlots (upToSlot : ℕ) : StoreInv desc (cleanupSlots desc st upToSlot) := by
  obtain ⟨haligned, hdropped, hkeep⟩ := cleanupSlots_kept hi.aligned hi.dropped upToSlot
  have hF := cleanupSlots_finalized desc st upToSlot
  refine ⟨haligned, hF.symm ▸ hdropped, fun s hs => ?_⟩
  rw [hF] at hs
  refine (hi.stored s hs).congr ?_ (by rw [hkeep s hs]) (by rw [hkeep s hs])
  -- the accounting from the boundary on is retained
  have hvotes : (SimplexState.cleanupSlots desc st upToSlot).slotVotes.lookup s =
      st.slotVotes.lookup s := by
    unfold SimplexState.cleanupSlots
    dsimp only
    split_ifs
    · rfl
    · rw [AList.lookup_retain]
      exact if_pos (decide_eq_true ((min_le_right _ _).trans hs))
  unfold slotVotesAt
  rw [hvotes]

theorem StoreInv.applyOp {now : ℕ} {op : Op}
    (hroom : SlotHasRoom desc st op) : Yields (StoreInv desc) (applyOp desc now st op) := by
  have hlocal {st1 : SimplexState} (h : LocalSteps desc (Evidence.any []) st st1) :
      StoreInv desc st1 := hi.marks h.sameChain.sameMarks
  cases op with
  | onCandidate c =>
    dsimp only [Simplex.applyOp]
    cases hc : onCandidate desc st c with
    | error e => exact hi
    | ok st1 => exact hlocal (onCandidate_steps hc fun _ => trivial)
  | onVote idx vote signature raw => exact hi.onVote.map fun _ h => h
  | setNotarizeCertificate c => exact (hi.setNotarizeCertificate hroom rfl).map fun _ h => h.1
  | setFinalizeCertificate c => exact hi.setFinalizeCertificate.map fun _ h => h.1
  | setSkipCertificate c => exact (hi.setSkipCertificate hroom).map fun _ h => h.1
  | checkAll => exact Outcome.yields fun st1 h => hlocal (checkAll_steps trivial h)
  | cleanupSlots upToSlot => exact hi.cleanupSlots upToSlot

end

theorem new_storeInv (desc : SessionDescription) : StoreInv desc (new desc) := by
  have hvotes (s : ℕ) : (new desc).slotVotesAt s = {} := by
    unfold slotVotesAt
    rw [(new_update desc).2.slotVotes]
    rfl
  refine ⟨(new_voteInv desc).aligned, (new_voteInv desc).dropped, fun s _ => ⟨?_, ?_, ?_⟩⟩
  · rw [hvotes, new_slotAt]
    split_ifs <;> rfl
  · intro c hc
    cases hc
  · rw [hvotes]

theorem StoreInv.runOps {ops : List (ℕ × Op)} (hi : StoreInv desc st)
    (hmeets : RunMeets desc (SlotHasRoom desc) st ops) :
    Yields (StoreInv desc) (runOps desc st ops) :=
  hmeets.runOps (fun _ _ _ hi hop => hi.applyOp hop) hi

/-- In every state of a run in which the window of each certified slot has room,
a stored skip certificate and the skip flag go together, and a stored
notarization certificate has its marker. -/
theorem runOps_certificates_applied (desc : SessionDescription) (ops : List (ℕ × Op))
    (st : SimplexState) (hmeets : RunMeets desc (SlotHasRoom desc) (new desc) ops)
    (h : runOps desc (new desc) ops = .ok st) (s : ℕ) (hs : st.firstNonFinalizedSlot ≤ s) :
    ((∃ sv, st.slotVotes.lookup s = some sv ∧ sv.skipCertificate.isSome) ↔
      Tracked desc st s ∧ (slotAt desc st s).skipped = true) ∧
    ∀ sv c, st.slotVotes.lookup s = some sv → sv.notarizeCertificate = some c → Tracked desc st s ∧
        (slotAt desc st s).observedNotarCertificate = some ⟨s, c.vote.blockHash⟩ := by
  have hstored := (((new_storeInv desc).runOps hmeets).of_ok h).stored s hs
  refine ⟨⟨?_, ?_⟩, fun sv c hsv hc => ?_⟩
  · rintro ⟨sv, hsv, hsome⟩
    have hflag := hstored.skip
    rw [slotVotesAt_of_lookup hsv, hsome] at hflag
    exact ⟨tracked_of_skipped hflag.symm, hflag.symm⟩
  · rintro ⟨-, hflag⟩
    have hsome := hstored.skip
    rw [hflag] at hsome
    unfold slotVotesAt at hsome
    cases hl : st.slotVotes.lookup s with
    | none =>
      rw [hl] at hsome
      cases hsome
    | some sv =>
      rw [hl, Option.getD_some] at hsome
      exact ⟨sv, rfl, hsome⟩
  · have hobs := hstored.notar c (by rw [slotVotesAt_of_lookup hsv]; exact hc)
    refine ⟨?_, hobs⟩
    by_contra ht
    rw [slotAt_of_not_tracked ht] at hobs
    cases hobs

/-- With one-slot windows and no desync allowance the window of slot 2 is
refused: both certificates of the slot are stored and leave no mark, and a
second delivery is a duplicate. -/
theorem certificates_half_applied :
    (∃ st, runOps (soloSession 1 0 Nat.one_pos) (new (soloSession 1 0 Nat.one_pos))
        [(0, .setSkipCertificate ⟨⟨2⟩, soloSignatures⟩),
          (0, .setSkipCertificate ⟨⟨2⟩, soloSignatures⟩)] = .ok st ∧
      st.firstNonFinalizedSlot ≤ 2 ∧ (st.slotVotesAt 2).skipCertificate.isSome ∧
      (slotAt (soloSession 1 0 Nat.one_pos) st 2).skipped = false) ∧
    ∃ st, runOps (soloSession 1 0 Nat.one_pos) (new (soloSession 1 0 Nat.one_pos))
        [(0, .setNotarizeCertificate ⟨⟨2, 5⟩, soloSignatures⟩)] = .ok st ∧
      st.firstNonFinalizedSlot ≤ 2 ∧ (st.slotVotesAt 2).notarizeCertificate.isSome ∧
      (slotAt (soloSession 1 0 Nat.one_pos) st 2).observedNotarCertificate = none := by
  have hskip : returnsWith (runOps (soloSession 1 0 Nat.one_pos)
      (new (soloSession 1 0 Nat.one_pos)) [(0, .setSkipCertificate ⟨⟨2⟩, soloSignatures⟩),
        (0, .setSkipCertificate ⟨⟨2⟩, soloSignatures⟩)]) (fun st =>
          decide (st.firstNonFinalizedSlot ≤ 2) && ((st.slotVotesAt 2).skipCertificate.isSome &&
            (slotAt (soloSession 1 0 Nat.one_pos) st 2).skipped == false)) = true := by
    decide +kernel
  have hnotar : returnsWith (runOps (soloSession 1 0 Nat.one_pos)
      (new (soloSession 1 0 Nat.one_pos)) [(0, .setNotarizeCertificate ⟨⟨2, 5⟩, soloSignatures⟩)])
        (fun st => decide (st.firstNonFinalizedSlot ≤ 2) &&
          ((st.slotVotesAt 2).notarizeCertificate.isSome && (slotAt (soloSession 1 0 Nat.one_pos)
            st 2).observedNotarCertificate == none)) = true := by
    decide +kernel
  obtain ⟨st, hst, hcheck⟩ := exists_of_returnsWith hskip
  obtain ⟨st2, hst2, hcheck2⟩ := exists_of_returnsWith hnotar
  simp only [Bool.and_eq_true, decide_eq_true_eq, beq_iff_eq] at hcheck hcheck2
  exact ⟨⟨st, hst, hcheck⟩, st2, hst2, hcheck2⟩

/-- With a desync allowance of one window the skip certificate is applied. -/
theorem skip_certificate_applied :
    ∃ st, runOps (soloSession 1 1 Nat.one_pos) (new (soloSession 1 1 Nat.one_pos))
        [(0, .setSkipCertificate ⟨⟨2⟩, soloSignatures⟩)] = .ok st ∧
      (∃ sv, st.slotVotes.lookup 2 = some sv ∧ sv.skipCertificate.isSome) ∧
      (slotAt (soloSession 1 1 Nat.one_pos) st 2).skipped = true := by
  have hmeets : RunMeets (soloSession 1 1 Nat.one_pos) (SlotHasRoom (soloSession 1 1 Nat.one_pos))
      (new (soloSession 1 1 Nat.one_pos)) [(0, .setSkipCertificate ⟨⟨2⟩, soloSignatures⟩)] := by
    decide +kernel
  have hrun : returnsWith (runOps (soloSession 1 1 Nat.one_pos)
      (new (soloSession 1 1 Nat.one_pos)) [(0, .setSkipCertificate ⟨⟨2⟩, soloSignatures⟩)])
      (fun st => decide (st.firstNonFinalizedSlot ≤ 2) &&
        (st.slotVotes.lookup 2).any fun sv => sv.skipCertificate.isSome) = true := by
    decide +kernel
  obtain ⟨st, hst, hcheck⟩ := exists_of_returnsWith hrun
  rw [Bool.and_eq_true, decide_eq_true_eq, Option.any_eq_true] at hcheck
  have happlied := (runOps_certificates_applied _ _ st hmeets hst 2 hcheck.1).1
  exact ⟨st, hst, hcheck.2, (happlied.mp hcheck.2).2⟩

end TonNode.Simplex.SimplexState
