import TonNode.SimplexVoteSafety
import TonNode.SimplexRestart

/-! A restarted validator and its earlier votes. The replay of votes and
certificates casts no vote; the persisted votes then return as flags, except
those whose window is refused; from there on the flags keep every later vote
in agreement with the earlier ones. -/
namespace TonNode.Simplex

open List (mem_append mem_singleton mem_append_left mem_append_right append_nil)

def Vote.Conflicts : Vote → Vote → Prop
  | .notarize a, .notarize b => a.slot = b.slot ∧ a.blockHash ≠ b.blockHash
  | .finalize a, .skip b => a.slot = b.slot
  | .skip a, .finalize b => a.slot = b.slot
  | _, _ => False

instance (v w : Vote) : Decidable (v.Conflicts w) := by
  cases v <;> cases w <;> unfold Vote.Conflicts <;> infer_instance

theorem Vote.Conflicts.symm {v w : Vote} (h : v.Conflicts w) : w.Conflicts v := by
  cases v <;> cases w
  case notarize.notarize a b => exact ⟨h.1.symm, h.2.symm⟩
  case finalize.skip a b => exact Eq.symm h
  case skip.finalize a b => exact Eq.symm h
  all_goals exact h

def Coherent (votes : List Vote) : Prop := ∀ v ∈ votes, ∀ w ∈ votes, ¬ v.Conflicts w

instance (votes : List Vote) : Decidable (Coherent votes) :=
  inferInstanceAs (Decidable (∀ v ∈ votes, ∀ w ∈ votes, ¬ v.Conflicts w))

theorem Coherent.concat {votes : List Vote} {v : Vote} (h : Coherent votes)
    (hself : ¬ v.Conflicts v) (hnew : ∀ w ∈ votes, ¬ v.Conflicts w) : Coherent (votes ++ [v]) := by
  intro a ha b hb
  rcases mem_append.mp ha with ha | ha
  · rcases mem_append.mp hb with hb | hb
    · exact h a ha b hb
    · rw [mem_singleton.mp hb]
      intro hc
      exact hnew a ha hc.symm
  · rw [mem_singleton.mp ha]
    rcases mem_append.mp hb with hb | hb
    · exact hnew b hb
    · rw [mem_singleton.mp hb]
      exact hself

namespace SimplexState

open Relation

variable {desc : SessionDescription} {E : Evidence} {st st' : SimplexState} {slot : ℕ}
  {past : List SimplexEvent}

/-- The flags rule out a vote against the stream. -/
theorem VoteInv.coherent_localStep (hi : VoteInv desc E.past st)
    (hc : Coherent (votesOf E.past ++ st.emitted)) (h : LocalStep desc E st st') :
    Coherent (votesOf E.past ++ st'.emitted) := by
  have hsame (hev : st'.events = st.events) : Coherent (votesOf E.past ++ st'.emitted) := by
    rw [emitted_of_events hev]
    exact hc
  -- one more vote, which contradicts none of the stream
  have hcast {v : Vote} (hev : st'.events = (st.broadcastVote v).events) (hself : ¬ v.Conflicts v)
      (hnew : ∀ w ∈ votesOf E.past ++ st.emitted, ¬ v.Conflicts w) :
      Coherent (votesOf E.past ++ st'.emitted) := by
    rw [emitted_of_events hev, emitted_broadcastVote, ← List.append_assoc]
    exact hc.concat hself hnew
  cases h with
  | quiet h => exact hsame h.events
  | pending c _ h => exact hsame h.2.events
  | notarize s c _ hfin hvoted _ h =>
    refine hcast h.2.events (fun hx => hx.2 rfl) fun w hw hx => ?_
    cases w with
    | notarize b =>
      obtain ⟨bs, bh⟩ := b
      obtain ⟨hs, -⟩ : s = bs ∧ _ := hx
      subst hs
      have hflag := hi.notarize s bh (hi.live hfin) hw
      rw [hvoted] at hflag
      cases hflag
    | finalize b | skip b => exact hx
  | finalize s hash ht _ _ _ hskip h =>
    refine hcast h.2.events (fun hx => hx) fun w hw hx => ?_
    cases w with
    | skip b =>
      obtain ⟨bs⟩ := b
      have hs : s = bs := hx
      subst hs
      have hflag := hi.skip s ht.1 hw
      rw [hskip] at hflag
      cases hflag
    | notarize b | finalize b => exact hx
  | skip s _ ht hfinal h =>
    refine hcast h.2.events (fun hx => hx) fun w hw hx => ?_
    cases w with
    | finalize b =>
      obtain ⟨bs, bh⟩ := b
      have hs : s = bs := hx
      subst hs
      have hflag := hi.finalize s bh ht.1 hw
      rw [hfinal] at hflag
      cases hflag
    | notarize b | skip b => exact hx

theorem Step.emitted_eq (h : Step desc E st st') :
    LocalStep desc E st st' ∨ st'.emitted = st.emitted := by
  cases h with
  | chain h =>
    cases h with
    | vote h => exact Or.inl h
    | cursor c _ => exact Or.inr rfl
    | base n b _ _ h | observe p _ _ h => exact Or.inr (emitted_of_events h.2.events)
    | skip x _ _ h =>
      obtain ⟨st1, hq | hu, rfl⟩ := h
      · exact Or.inr (emitted_of_events hq.events)
      · exact Or.inr (emitted_of_events hu.2.events)
  | event e he => exact Or.inr (emitted_pushEventBack he)
  | votes slot sv _ _ => exact Or.inr rfl
  | finalized slot => exact Or.inr (emitted_of_events (advanceFinalized_events st slot))
  | prune upToSlot => exact Or.inr (emitted_of_events (cleanupSlots_events desc st upToSlot))

theorem VoteInv.coherent_step (hi : VoteInv desc E.past st)
    (hc : Coherent (votesOf E.past ++ st.emitted)) (h : Step desc E st st') :
    Coherent (votesOf E.past ++ st'.emitted) := by
  rcases h.emitted_eq with hl | heq
  · exact hi.coherent_localStep hc hl
  · rw [heq]
    exact hc

def replayEvidence : Evidence :=
  { Evidence.any [] with cand := fun _ => False, alarm := False }

theorem replayEvidence_sound (desc : SessionDescription) : replayEvidence.Sound desc :=
  ⟨⟨fun _ => trivial, fun _ _ _ _ _ => trivial⟩, fun _ _ _ _ _ _ _ => trivial,
    fun _ _ _ _ _ _ _ => trivial, fun _ _ _ _ => trivial⟩

structure Replayed (desc : SessionDescription) (st : SimplexState) : Prop where
  votes : VoteInv desc [] st
  grounded : Grounded replayEvidence st
  silent : st.emitted = []
  pending : ∀ s, (slotAt desc st s).pendingBlock = none

theorem Replayed.not_voted (h : Replayed desc st) (s : ℕ) :
    (slotAt desc st s).votedNotar = none := by
  cases hv : (slotAt desc st s).votedNotar with
  | none => rfl
  | some p =>
    have hm := (h.votes.notarized s p hv).2
    rw [h.silent] at hm
    cases hm

theorem SlotUpdate.pending_none {f : Slot → Slot} (h : SlotUpdate desc st st' slot f)
    (hf : ∀ sl, sl.pendingBlock = none → (f sl).pendingBlock = none)
    (hp : ∀ s, (slotAt desc st s).pendingBlock = none) (s : ℕ) :
    (slotAt desc st' s).pendingBlock = none :=
  h.forall_slots (P := fun _ sl => sl.pendingBlock = none) (hf _ (hp slot)) hp s

theorem pending_none_step (ha : StartsAligned desc st)
    (hp : ∀ s, (slotAt desc st s).pendingBlock = none) (h : Step desc replayEvidence st st')
    (s : ℕ) : (slotAt desc st' s).pendingBlock = none := by
  have hquiet {st1 : SimplexState} (hq : Quiet desc st st1) :
      (slotAt desc st1 s).pendingBlock = none := by
    rw [hq.slots]
    exact hp s
  cases h with
  | chain h =>
    cases h with
    | vote h =>
      cases h with
      | quiet hq => exact hquiet hq
      | pending c hc _ => exact hc.elim
      | notarize s' c _ _ _ _ hu => exact hu.pending_none (fun _ _ => rfl) hp s
      | finalize s' hash _ _ _ _ _ hu | skip s' _ _ _ hu =>
        exact hu.pending_none (fun _ hsl => hsl) hp s
    | cursor c _ => exact hp s
    | base n b _ _ hu | observe p _ _ hu => exact hu.pending_none (fun _ hsl => hsl) hp s
    | skip x _ _ hm =>
      obtain ⟨st1, hq | hu, rfl⟩ := hm
      · have hp1 := hquiet hq
        exact hp1
      · exact hu.pending_none (fun _ hsl => hsl) hp s
  | event e _ | votes s' sv _ _ => exact hp s
  | finalized s' =>
    rw [advanceFinalized_eq_with]
    exact hp s
  | prune upToSlot =>
    by_cases hl : Live desc (cleanupSlots desc st upToSlot) s
    · rw [cleanupSlots_slotAt ha upToSlot s hl]
      exact hp s
    · rw [cleanupSlots_slotAt_dropped upToSlot s hl]

/-- A replay step casts no vote: there is no block to notarize, no own
notarization to finalize, and no alarm to skip by. -/
theorem Replayed.silent_step (h : Replayed desc st) (hstep : Step desc replayEvidence st st') :
    st'.emitted = [] := by
  rcases hstep.emitted_eq with hl | heq
  · cases hl with
    | quiet hq => exact (emitted_of_events hq.events).trans h.silent
    | pending c hc _ => exact hc.elim
    | notarize s c hc _ _ _ _ =>
      rcases hc with ⟨hc, -⟩ | hc
      · exact hc.elim
      · rw [h.pending s] at hc
        cases hc
    | finalize s hash _ _ hnotar _ _ _ =>
      obtain ⟨p, hp, -⟩ := hnotar
      rw [h.not_voted s] at hp
      cases hp
    | skip s ha _ _ _ => exact ha.elim
  · exact heq.trans h.silent

theorem Replayed.steps (h : Replayed desc st) (hsteps : Steps desc replayEvidence st st') :
    Replayed desc st' := by
  induction hsteps with
  | refl => exact h
  | tail _ hstep ih =>
    exact ⟨ih.votes.step hstep, ih.grounded.step hstep, ih.silent_step hstep,
      pending_none_step ih.votes.aligned ih.pending hstep⟩

variable {now : ℕ}

theorem Replayed.op (h : Replayed desc st) (op : Op) (ha : replayEvidence.Admits desc op) :
    Yields (Replayed desc) (applyOp desc now st op) :=
  Outcome.yields fun _ hop =>
    h.steps (applyOp_steps (replayEvidence_sound desc) h.grounded ha hop)

/-- What the pruning loop leaves: windows go from the front, and if any is left
the loop has reached the needed window. -/
theorem pruneWindows_spec (needed : ℕ) (ws : List LeaderWindow) (offset : ℕ) :
    ∃ k, k ≤ ws.length ∧ pruneWindows needed ws offset = (ws.drop k, offset + k) ∧
      offset + k ≤ max offset needed ∧ (k < ws.length → needed ≤ offset + k) := by
  induction ws generalizing offset with
  | nil => exact ⟨0, le_rfl, rfl, le_max_left _ _, fun h => absurd h (Nat.not_lt_zero 0)⟩
  | cons w ws ih =>
    rw [pruneWindows]
    split_ifs with hlt
    · obtain ⟨k, hk, heq, hle, hend⟩ := ih (offset + 1)
      refine ⟨k + 1, Nat.succ_le_succ hk, ?_, ?_, fun h => ?_⟩
      · rw [heq, List.drop_succ_cons]
        congr 1
        omega
      · omega
      · have := hend (Nat.lt_of_succ_lt_succ h)
        omega
    · exact ⟨0, Nat.zero_le _, rfl, le_max_left _ _, fun _ => by omega⟩

section

variable (desc : SessionDescription) (st : SimplexState)

/-- The boundary after `set_first_non_finalized_slot`, with the windows it keeps. -/
theorem setFirstNonFinalizedSlot_windows (slot : ℕ) : ∃ k, k ≤ st.leaderWindows.length ∧
      (setFirstNonFinalizedSlot desc st slot).leaderWindows = st.leaderWindows.drop k ∧
      (setFirstNonFinalizedSlot desc st slot).firstNonFinalizedSlot =
        max st.firstNonFinalizedSlot slot ∧
      (setFirstNonFinalizedSlot desc st slot).leaderWindowOffset =
        max st.leaderWindowOffset (desc.windowIdx (max st.firstNonFinalizedSlot slot)) ∧
      st.leaderWindowOffset + k ≤
        max st.leaderWindowOffset (desc.windowIdx (max st.firstNonFinalizedSlot slot)) ∧
      (k < st.leaderWindows.length →
        desc.windowIdx (max st.firstNonFinalizedSlot slot) ≤ st.leaderWindowOffset + k) := by
  have hmax : (if st.firstNonFinalizedSlot < slot then { st with firstNonFinalizedSlot := slot }
      else st) = { st with firstNonFinalizedSlot := max st.firstNonFinalizedSlot slot } := by
    split_ifs with hlt
    · rw [max_eq_right hlt.le]
    · rw [max_eq_left (Nat.not_lt.mp hlt)]
  obtain ⟨k, hk, heq, hle, hend⟩ := pruneWindows_spec
    (desc.windowIdx (max st.firstNonFinalizedSlot slot)) st.leaderWindows st.leaderWindowOffset
  refine ⟨k, hk, ?_, ?_, ?_, hle, hend⟩
  · unfold setFirstNonFinalizedSlot
    rw [hmax]
    exact congrArg Prod.fst heq
  · unfold setFirstNonFinalizedSlot
    rw [hmax]
    rfl
  · unfold setFirstNonFinalizedSlot
    rw [hmax]
    have hmove : max (st.leaderWindowOffset + k)
        (desc.windowIdx (max st.firstNonFinalizedSlot slot)) =
        max st.leaderWindowOffset (desc.windowIdx (max st.firstNonFinalizedSlot slot)) := by omega
    rw [← hmove]
    exact congrArg (fun r : List LeaderWindow × ℕ =>
      max r.2 (desc.windowIdx (max st.firstNonFinalizedSlot slot))) heq

theorem setFirstNonFinalizedSlot_same (slot : ℕ) :
    (setFirstNonFinalizedSlot desc st slot).events = st.events ∧
      (setFirstNonFinalizedSlot desc st slot).slotVotes = st.slotVotes := by
  unfold setFirstNonFinalizedSlot pruneSkipIntervalsBefore
  split_ifs <;> exact ⟨rfl, rfl⟩

theorem setFirstNonFinalizedSlot_slotAt
    (slot s : ℕ) (hl : Live desc (setFirstNonFinalizedSlot desc st slot) s) :
    slotAt desc (setFirstNonFinalizedSlot desc st slot) s = slotAt desc st s := by
  obtain ⟨k, hk, hwin, -, hoff, hle, hend⟩ := setFirstNonFinalizedSlot_windows desc st slot
  unfold Live at hl
  generalize setFirstNonFinalizedSlot desc st slot = st1 at hwin hoff hl ⊢
  generalize desc.windowIdx (max st.firstNonFinalizedSlot slot) = needed at hoff hle hend
  rcases Nat.lt_or_ge k st.leaderWindows.length with hlt | hge
  · -- some windows are left, so the offset is that of the first of them
    have hneed := hend hlt
    have hoff' : st1.leaderWindowOffset = st.leaderWindowOffset + k := by omega
    unfold slotAt windowSlot getWindow
    rw [hwin, hoff', if_neg (by omega), if_neg (by omega), List.getElem?_drop]
    congr 4
    omega
  · -- no window is left, and the slot was beyond them before
    rw [slotAt_of_not_tracked, slotAt_of_not_tracked]
    · intro ht
      have := ht.2
      omega
    · intro ht
      have hlen := ht.2
      rw [hwin, List.length_drop] at hlen
      omega

end

theorem VoteInv.setFirstNonFinalizedSlot (hi : VoteInv desc past st) (slot : ℕ) :
    VoteInv desc past (setFirstNonFinalizedSlot desc st slot) := by
  obtain ⟨k, hk, hwin, hfin, hoff, hle, hend⟩ := setFirstNonFinalizedSlot_windows desc st slot
  have hslot := setFirstNonFinalizedSlot_slotAt desc st slot
  have hev := (setFirstNonFinalizedSlot_same desc st slot).1
  generalize SimplexState.setFirstNonFinalizedSlot desc st slot = st1 at hwin hfin hoff hslot hev ⊢
  refine hi.dropWindows ?_ ?_ ?_ hev hslot
  · intro i w hw
    rw [hwin, List.getElem?_drop] at hw
    have hlt : k + i < st.leaderWindows.length := (List.getElem?_eq_some_iff.mp hw).1
    have hneed := hend (by omega)
    rw [hi.aligned (k + i) w hw, hoff]
    congr 1
    omega
  · rw [hfin, hoff]
    rcases max_cases st.leaderWindowOffset (desc.windowIdx (max st.firstNonFinalizedSlot slot)) with
      ⟨heq, -⟩ | ⟨heq, -⟩
    · rw [heq]
      exact hi.dropped.trans (le_max_left _ _)
    · rw [heq]
      exact windowStart_le desc _
  · rw [hoff]
    exact le_max_left _ _

theorem Replayed.setFirstNonFinalizedSlot (h : Replayed desc st) (slot : ℕ) :
    Replayed desc (setFirstNonFinalizedSlot desc st slot) := by
  obtain ⟨hev, hvotes⟩ := setFirstNonFinalizedSlot_same desc st slot
  obtain ⟨k, -, -, hfin, -⟩ := setFirstNonFinalizedSlot_windows desc st slot
  refine ⟨h.votes.setFirstNonFinalizedSlot slot, ⟨fun s sv _ => trivial, ?_⟩, ?_, ?_⟩
  · intro s sv c hs hc
    rw [hvotes] at hs
    rw [hfin]
    -- the boundary only moves up
    refine (h.grounded.certs s sv c hs hc).imp (fun hlt => lt_max_of_lt_left hlt) fun hann => ?_
    exact hann.mono (by rw [hev])
  · exact (emitted_of_events hev).trans h.silent
  · intro s
    by_cases hl : Live desc (SimplexState.setFirstNonFinalizedSlot desc st slot) s
    · rw [setFirstNonFinalizedSlot_slotAt desc st slot s hl]
      exact h.pending s
    · rw [slotAt_of_not_tracked fun ht => hl ht.1]

theorem mem_votesOf_iff (l : List SimplexEvent) (v : Vote) :
    v ∈ votesOf l ↔ SimplexEvent.broadcastVote v ∈ l :=
  mem_emitted_iff { events := l } v

theorem votesOf_append (l l' : List SimplexEvent) : votesOf (l ++ l') = votesOf l ++ votesOf l' :=
  List.filterMap_append

theorem votesOf_broadcasts (votes : List Vote) : votesOf (votes.map .broadcastVote) = votes := by
  induction votes with
  | nil => rfl
  | cons v votes ih => exact congrArg (v :: ·) ih

/-- The same table under another stream of events, in which every vote for a
live slot was there before. -/
theorem VoteInv.restream {past' events : List SimplexEvent} (hi : VoteInv desc past st)
    (hlive : ∀ w : Vote, Live desc st w.slot → w ∈ votesOf past' ++ votesOf events →
      w ∈ votesOf past ++ st.emitted) (hsub : past ++ st.events ⊆ past' ++ events) :
    VoteInv desc past' { st with events := events } where
  aligned := hi.aligned
  dropped := hi.dropped
  notarize s h hl hm := hi.notarize s h hl (hlive _ hl hm)
  notarized s p hp := by
    obtain ⟨hs, hm⟩ := hi.notarized s p hp
    refine ⟨hs, ?_⟩
    unfold emitted at hm ⊢
    rw [← votesOf_append, mem_votesOf_iff] at hm ⊢
    exact hsub hm
  finalize s h hl hm := hi.finalize s h hl (hlive _ hl hm)
  completed := hi.completed
  skip s hl hm := hi.skip s hl (hlive _ hl hm)
  observed s p hp := ⟨(hi.observed s p hp).1, (hi.observed s p hp).2.subset hsub⟩

/-- The window of the vote is dropped, allocated, or within the horizon: then
`mark_slot_voted_on_restart` does not lose the vote. -/
def HasFlagRoom (desc : SessionDescription) (st : SimplexState) (v : Vote) : Prop :=
  desc.windowIdx v.slot < st.leaderWindowOffset ∨ WithinHorizon desc st v.slot

instance (desc : SessionDescription) (st : SimplexState) (v : Vote) :
    Decidable (HasFlagRoom desc st v) := inferInstanceAs (Decidable (_ ∨ _))

variable {v : Vote}

/-- A vote of a dropped window is ignored; any other vote with room is marked. -/
theorem markSlotVotedOnRestart_cases (hroom : HasFlagRoom desc st v) :
    (¬ Live desc st v.slot ∧ markSlotVotedOnRestart desc st v = st) ∨
      SlotUpdate desc st (markSlotVotedOnRestart desc st v) v.slot (restartFlags v) := by
  unfold markSlotVotedOnRestart Live
  split_ifs with hlt
  · exact Or.inl ⟨Nat.not_le.mpr hlt, rfl⟩
  · right
    have hle := Nat.not_lt.mp hlt
    have hwithin : WithinHorizon desc st v.slot := hroom.resolve_left hlt
    have ht := (ensureWindowExists_tracked_iff desc st v.slot .boundedByHorizon).mpr
      ⟨hle, Or.inr hwithin⟩
    exact (ensureWindowExists_quiet desc st _ _).slotUpdate (modifySlot_update ht _)

/-- Marking one vote adds it to the past. -/
theorem VoteInv.mark (hi : VoteInv desc past st) (hroom : HasFlagRoom desc st v)
    (hco : ∀ w ∈ votesOf past ++ st.emitted, ¬ v.Conflicts w) :
    VoteInv desc (past ++ [.broadcastVote v]) (markSlotVotedOnRestart desc st v) := by
  have hsub : past ++ st.events ⊆ (past ++ [.broadcastVote v]) ++ st.events := by
    intro e he
    rcases mem_append.mp he with he | he
    · exact mem_append_left _ (mem_append_left _ he)
    · exact mem_append_right _ he
  have hstream (w : Vote) : w ∈ votesOf (past ++ [.broadcastVote v]) ++ votesOf st.events ↔
      w ∈ (votesOf past ++ st.emitted) ++ [v] := by
    rw [votesOf_append]
    simp only [mem_append, emitted]
    exact or_right_comm
  rcases markSlotVotedOnRestart_cases hroom with ⟨hdead, heq⟩ | hu
  · rw [heq]
    refine hi.restream (fun w hl hw => ?_) hsub
    refine mem_concat_of_ne ((hstream w).mp hw) ?_
    rintro rfl
    exact hdead hl
  · have hlive : Live desc st v.slot := by
      have ht := hu.1.1
      rwa [hu.2.offset] at ht
    refine hi.record hu rfl hstream hsub ?_ ?_ ?_ ?_ ?_ ?_
    · cases v <;> rfl
    · intro hash hm
      cases v with
      | notarize b =>
        obtain ⟨bs, bh⟩ := b
        change some (⟨bs, bh⟩ : CandidateParentInfo) = some ⟨bs, hash⟩
        by_cases he : bh = hash
        · rw [he]
        · -- an earlier notarize vote of the slot names the same block
          refine absurd ⟨rfl, he⟩ (hco (.notarize ⟨bs, hash⟩) (mem_concat_of_ne hm ?_))
          intro heq
          cases heq
          exact he rfl
      | finalize b | skip b =>
        exact hi.notarize _ hash hlive (mem_concat_of_ne hm (by intro he; cases he))
    · intro p hp
      cases v with
      | notarize b =>
        obtain rfl := Option.some.inj hp
        exact ⟨rfl, mem_append_right _ (mem_singleton.mpr rfl)⟩
      | finalize b | skip b =>
        exact ⟨(hi.notarized _ p hp).1, mem_append_left _ (hi.notarized _ p hp).2⟩
    · intro hash hm
      cases v with
      | finalize b => rfl
      | notarize b | skip b =>
        exact hi.finalize _ hash hlive (mem_concat_of_ne hm (by intro he; cases he))
    · intro hf
      cases v with
      | finalize b => rfl
      | notarize b | skip b => exact hi.completed _ hf
    · intro hm
      cases v with
      | skip b => rfl
      | notarize b | finalize b =>
        exact hi.skip _ hlive (mem_concat_of_ne hm (by intro he; cases he))

theorem HasFlagRoom.rewrites {g : ℕ → Slot} (h : HasFlagRoom desc st v)
    (hr : Rewrites desc st st' g) : HasFlagRoom desc st' v := by
  have hmax : maxWindow desc st' = maxWindow desc st := by
    unfold maxWindow maxAcceptableSlot
    rw [hr.progressed]
  rcases Nat.lt_or_ge (desc.windowIdx v.slot) st.leaderWindowOffset with hlt | hge
  · left
    rwa [hr.offset]
  · rcases h with hlt | hlt | hle
    · omega
    · exact Or.inr (Or.inl (hr.tracked v.slot ⟨hge, hlt⟩).2)
    · refine Or.inr (Or.inr ?_)
      rwa [hmax]

structure FlagsSet (desc : SessionDescription) (done : List Vote) (st st' : SimplexState) :
    Prop where
  votes : VoteInv desc (done.map .broadcastVote) st'
  events : st'.events = st.events
  slotVotes : st'.slotVotes = st.slotVotes
  finalized : st'.firstNonFinalizedSlot = st.firstNonFinalizedSlot

/-- The loop over the own votes: coherent votes with room all become flags. -/
theorem FlagsSet.markAll {st0 : SimplexState} (hsilent : st0.emitted = []) (todo : List Vote) :
    ∀ (done : List Vote) (st : SimplexState), FlagsSet desc done st0 st →
      Coherent (done ++ todo) → (∀ v ∈ todo, HasFlagRoom desc st v) →
      FlagsSet desc (done ++ todo) st0 (todo.foldl (markSlotVotedOnRestart desc) st) := by
  induction todo with
  | nil =>
    intro done st h _ _
    rwa [append_nil]
  | cons v todo ih =>
    intro done st h hco hroom
    have hv := hroom v List.mem_cons_self
    have hemit : votesOf (done.map .broadcastVote) ++ st.emitted = done := by
      rw [emitted_of_events h.events, hsilent, votesOf_broadcasts, append_nil]
    have hnew : ∀ w ∈ votesOf (done.map .broadcastVote) ++ st.emitted, ¬ v.Conflicts w := by
      rw [hemit]
      intro w hw
      exact hco v (mem_append_right _ List.mem_cons_self) w (mem_append_left _ hw)
    have hvotes := h.votes.mark hv hnew
    -- the mark keeps everything but the flags of its slot
    have hkeeps : ∃ g, Rewrites desc st (markSlotVotedOnRestart desc st v) g := by
      rcases markSlotVotedOnRestart_cases hv with ⟨-, heq⟩ | hu
      · refine ⟨slotAt desc st, ?_⟩
        rw [heq]
        exact Quiet.refl st
      · exact ⟨_, hu.2⟩
    obtain ⟨g, hr⟩ := hkeeps
    have hstep : FlagsSet desc (done ++ [v]) st0 (markSlotVotedOnRestart desc st v) := by
      refine ⟨?_, hr.events.trans h.events, hr.slotVotes.trans h.slotVotes,
        hr.finalized.trans h.finalized⟩
      rw [List.map_append]
      exact hvotes
    have happ : done ++ v :: todo = (done ++ [v]) ++ todo := by
      rw [List.append_assoc, List.singleton_append]
    rw [happ] at hco ⊢
    exact ih _ _ hstep hco fun w hw => (hroom w (List.mem_cons_of_mem v hw)).rewrites hr

/-- The invariant of a recovered session: `past` holds the earlier votes and the
events recovery has drained. -/
structure Restored (desc : SessionDescription) (past : List SimplexEvent) (st : SimplexState) :
    Prop where
  votes : VoteInv desc past st
  grounded : Grounded (Evidence.any past) st
  coherent : Coherent (votesOf past ++ st.emitted)

section

variable (h : Restored desc past st)
include h

theorem Restored.steps (hsteps : Steps desc (Evidence.any past) st st') : Restored desc past st' := by
  induction hsteps with
  | refl => exact h
  | tail _ hstep ih =>
    exact ⟨ih.votes.step hstep, ih.grounded.step hstep, ih.votes.coherent_step ih.coherent hstep⟩

theorem Restored.op (op : Op) : Yields (Restored desc past) (applyOp desc now st op) :=
  Outcome.yields fun _ hop => h.steps (applyOp_steps (Evidence.any_sound past desc) h.grounded
    (Evidence.any_admits past desc op) hop)

theorem Restored.base {f : Slot → Slot} {b : Slot → Option CandidateParent}
    (hu : SlotUpdate desc st st' slot f)
    (hf : ∀ sl, f sl = { sl with availableBase := b sl }) : Restored desc past st' := by
  refine ⟨?_, h.grounded.of_keepsVotes hu.2.keepsVotes, ?_⟩
  · refine h.votes.update hu ?_ ?_ ?_ ?_ ?_
    all_goals
      intro sl
      rw [hf]
  · rw [emitted_of_events hu.2.events]
    exact h.coherent

theorem Restored.of_eq (h1 : st'.leaderWindows = st.leaderWindows)
    (h2 : st'.leaderWindowOffset = st.leaderWindowOffset) (h3 : st'.events = st.events)
    (h4 : st'.firstNonFinalizedSlot = st.firstNonFinalizedSlot)
    (h5 : st'.slotVotes = st.slotVotes) : Restored desc past st' := by
  have hemit := emitted_of_events h3
  refine ⟨h.votes.of_windows_eq h1 h2 (by rw [h3]) hemit (by rw [h4]), ⟨fun _ _ _ => trivial, ?_⟩,
    hemit ▸ h.coherent⟩
  intro s sv c hs hc
  rw [h5] at hs
  rw [h4]
  exact (h.grounded.certs s sv c hs hc).imp_right fun ha => ha.mono (by rw [h3])

theorem Restored.restream {past' events : List SimplexEvent}
    (hvotes : ∀ w : Vote, w ∈ votesOf past' ++ votesOf events → w ∈ votesOf past ++ st.emitted)
    (hsub : past ++ st.events ⊆ past' ++ events) :
    Restored desc past' { st with events := events } where
  votes := h.votes.restream (fun w _ hw => hvotes w hw) hsub
  grounded := ⟨fun _ _ _ => trivial, fun s sv c hs hc =>
    (h.grounded.certs s sv c hs hc).imp_right fun ha => ha.subset hsub⟩
  coherent v hv w hw := h.coherent v (hvotes v hv) w (hvotes w hw)

end

/-- One slot of the restart skip votes: a completed slot is left alone, and a
slot that is not completed carries no finalize vote. -/
theorem restartSkipSlot_steps (hi : VoteInv desc past st) (s : ℕ) :
    LocalSteps desc (Evidence.any past) st (restartSkipSlot desc st s) := by
  unfold restartSkipSlot
  split_ifs with hlt
  · exact ReflTransGen.refl
  · have hq := ensureWindowExists_quiet desc st (desc.windowIdx s) .boundedByHorizon
    refine (LocalSteps.of_quiet hq).trans ?_
    have hi1 := hi.quiet hq
    generalize ensureWindowExists desc st (desc.windowIdx s) .boundedByHorizon = st1 at hi1 ⊢
    dsimp only
    cases hw : windowSlot desc st1 s with
    | none => exact ReflTransGen.refl
    | some sl =>
      obtain ⟨ht, hsl⟩ := (windowSlot_eq_some_iff sl).mp hw
      dsimp only
      split_ifs with hcomp
      · exact ReflTransGen.refl
      · have hfinal : (slotAt desc st1 s).votedFinal = false := by
          by_contra hne
          have hc := hi1.completed s (Bool.not_eq_false _ ▸ hne)
          rw [hsl] at hc
          exact hcomp hc
        exact ReflTransGen.single (LocalStep.skip s trivial ht hfinal
          (modifySlot_update (show Tracked desc (st1.broadcastVote _) s from ht) _))

theorem Restored.restartSkips (h : Restored desc past st) (window : ℕ) :
    Restored desc past (generateRestartSkipVotes desc st window) := by
  have hloop (l : List ℕ) : ∀ st, Restored desc past st →
      Restored desc past (l.foldl (restartSkipSlot desc) st) := by
    induction l with
    | nil => exact fun st h => h
    | cons s l ih =>
      intro st h
      exact ih _ (h.steps (Steps.of_local (restartSkipSlot_steps h.votes s)))
  unfold generateRestartSkipVotes
  split_ifs
  · exact h
  · exact hloop _ st h

theorem Restored.setAvailableBase {parent : CandidateParentInfo} (h : Restored desc past st)
    (hrun : setAvailableBaseAfterRestart desc now st parent = .ok st') :
    Restored desc past st' := by
  have hpending {st1 : SimplexState} (h1 : Restored desc past st1) :
      Restored desc past (checkPendingBlocks desc st1) :=
    h1.steps (Steps.of_local (checkPendingBlocks_steps st1))
  unfold setAvailableBaseAfterRestart at hrun
  dsimp only at hrun
  cases hu : updateSlotMut desc st st.firstNonFinalizedSlot .boundedByHorizon
      (fun sl => { sl with availableBase := some (some parent) }) with
  | none =>
    rw [hu] at hrun
    cases hrun
    exact hpending h
  | some st1 =>
    rw [hu] at hrun
    obtain ⟨-, hup⟩ := updateSlotMut_spec hu
    have h1 : Restored desc past st1 := h.base hup fun _ => rfl
    dsimp only at hrun
    split_ifs at hrun with hskip hflag
    · -- the slot was skipped: its base moves on like after a skip certificate
      have hsteps : ChainSteps desc (Evidence.any past) st1
          (propagateBaseAfterSkipCert desc st1 st.firstNonFinalizedSlot).1 :=
        propagateBaseAfterSkipCert_steps (Or.inl (Quiet.refl st1)) hup.2.finalized.le trivial
      have h2 := h1.steps (Steps.of_chain hsteps)
      exact h2.steps (Steps.of_chain (advanceLeaderWindow_steps hrun))
    · cases hrun
      exact h1.steps (Steps.of_chain
        (propagateBaseAfterSkipCert_steps (Or.inl (Quiet.refl st1)) hup.2.finalized.le trivial))
    · cases hrun
      exact hpending h1

variable (h : Restored desc past st)
include h

theorem Restored.repair :
    Restored desc past (repairProgressCursorBaseAfterStartupReplay desc st) := by
  unfold repairProgressCursorBaseAfterStartupReplay
  dsimp only
  split_ifs
  · exact h
  · split
    · exact h
    · rename_i parent _
      rcases updateSlotMut_getD_cases desc st st.firstNonProgressedSlot .boundedByHorizon
        (·.addAvailableBaseMax (some parent)) with heq | ⟨-, hup⟩
      · rw [heq]
        exact h
      · refine h.base (b := fun sl => (sl.addAvailableBaseMax (some parent)).availableBase) hup ?_
        intro sl
        rcases Slot.addAvailableBaseMax_eq sl (some parent) with heq | heq
        · rw [heq]
        · rw [heq]
  · exact h

theorem Restored.start : Yields (Restored desc past) (applySessionOp desc now st .start) := by
  have h0 : Restored desc past { st with startupReplayActive := false } :=
    h.of_eq rfl rfl rfl rfl rfl
  have hfinish : Yields (Restored desc past) (finishStartupReplay desc now st) := by
    unfold finishStartupReplay
    split_ifs
    · exact h
    · exact Outcome.yields fun _ hadv =>
        h0.repair.steps (Steps.of_chain (advanceLeaderWindow_steps hadv))
  unfold applySessionOp
  exact Outcome.elim _ hfinish (fun _ _ => trivial) fun st1 h1 => h1.of_eq rfl rfl rfl rfl rfl

theorem Restored.run (ops : List (ℕ × SessionOp)) :
    Yields (Restored desc past) (runSession desc st ops) := by
  refine Outcome.foldlM ops h fun st op _ h => ?_
  obtain ⟨now, op⟩ := op
  cases op with
  | start => exact h.start
  | live op => exact h.op op

end SimplexState

namespace RecoveryContext

open SimplexState

variable {ctx : RecoveryContext} {desc : SessionDescription} {boot : Bootstrap}
  {st st' : SimplexState} {past : List SimplexEvent}

theorem new_replayed (desc : SessionDescription) : Replayed desc (SimplexState.new desc) where
  votes := new_voteInv desc
  grounded := new_grounded desc _
  silent := emitted_of_events (new_update desc).2.events
  pending s := by
    rw [new_slotAt]
    split_ifs <;> rfl

/-- Steps 1 to 2c restore votes and certificates without casting a vote. -/
theorem restoreGlobalState_replayed (h : Replayed desc st) :
    Yields (Replayed desc) (ctx.restoreGlobalState desc boot st) := by
  have hbegin : Replayed desc (beginStartupReplay st) :=
    ⟨h.votes.of_windows_eq rfl rfl List.prefix_rfl rfl le_rfl,
      ⟨h.grounded.votes, h.grounded.certs⟩, h.silent, h.pending⟩
  have hvotes : Yields (Replayed desc)
      (ctx.replayVotesGlobal desc boot.votes (beginStartupReplay st)) := by
    refine Outcome.foldlM _ hbegin fun st r _ h => ?_
    cases ctx.deserializeVoteRecord r.data with
    | none => exact h
    | some d => exact h.op (.onVote r.nodeIdx d.1 d.2 r.data) fun _ _ _ => trivial
  have hfinal {st : SimplexState} (h : Replayed desc st) :
      Yields (Replayed desc) (ctx.restoreFinalCertState desc boot.finalCerts st) := by
    refine Outcome.foldlM _ h fun st r _ h => ?_
    split
    · split_ifs
      · exact h
      · exact h.op (.setFinalizeCertificate ⟨_, _⟩) ⟨trivial, fun _ _ => trivial⟩
    · exact h
  have hskip {st : SimplexState} (h : Replayed desc st) :
      Yields (Replayed desc) (ctx.restoreSkipCertState desc boot.skipCerts st) := by
    refine Outcome.foldlM _ h fun st r _ h => ?_
    split
    · split_ifs
      · exact h
      · exact h.op (.setSkipCertificate ⟨_, _⟩) ⟨trivial, fun _ _ => trivial⟩
    · exact h
  unfold restoreGlobalState
  refine Outcome.bind hvotes fun st1 h1 => Outcome.bind (hfinal ?_) fun st2 h2 => hskip h2
  unfold applyFinalizedBoundary
  split_ifs
  · exact h1
  · exact h1.setFirstNonFinalizedSlot _

/-- Whatever votes and certificates were stored, replaying them casts no vote,
and the restored table holds no own notarization and no pending block. -/
theorem restoreGlobalState_silent (ctx : RecoveryContext) (desc : SessionDescription)
    (boot : Bootstrap) (st : SimplexState)
    (h : ctx.restoreGlobalState desc boot (SimplexState.new desc) = .ok st) : st.emitted = [] ∧
      ∀ s, (slotAt desc st s).votedNotar = none ∧ (slotAt desc st s).pendingBlock = none := by
  have hreplayed := (restoreGlobalState_replayed (new_replayed desc)).of_ok h
  exact ⟨hreplayed.silent, fun s => ⟨hreplayed.not_voted s, hreplayed.pending s⟩⟩

theorem drainStartupEvents_votes (st : SimplexState) : (drainStartupEvents st).1 = st.emitted := by
  unfold drainStartupEvents emitted votesOf
  congr 1

/-- Step 3: with coherent earlier votes and room for their flags, the earlier
votes become the past of the session. -/
theorem applyLocalVoteFlags_restored (h : Replayed desc st)
    (hco : Coherent (ctx.ownVotes boot.votes))
    (hroom : ∀ v ∈ ctx.ownVotes boot.votes, HasFlagRoom desc st v) :
    Restored desc ((ctx.ownVotes boot.votes).map .broadcastVote)
      (ctx.applyLocalVoteFlags desc boot.votes st) := by
  unfold applyLocalVoteFlags
  generalize ctx.ownVotes boot.votes = own at hco hroom
  have hset : FlagsSet desc ([] ++ own) st (own.foldl (markSlotVotedOnRestart desc) st) :=
    FlagsSet.markAll h.silent own [] st ⟨h.votes, rfl, rfl, rfl⟩ hco hroom
  refine ⟨hset.votes, ⟨fun _ _ _ => trivial, ?_⟩, ?_⟩
  · intro s sv c hs hc
    rw [hset.slotVotes] at hs
    rw [hset.finalized]
    refine (h.grounded.certs s sv c hs hc).imp_right fun ha => ha.subset ?_
    rw [hset.events]
    exact List.subset_append_right _ _
  · rw [emitted_of_events hset.events, h.silent, votesOf_broadcasts, append_nil]
    exact hco

theorem restoreNotarCertCache_restored (h : Restored desc past st) (certs : List NotarCertRecord) :
    Yields (Restored desc past) (ctx.restoreNotarCertCache desc certs st) := by
  refine Outcome.foldlM certs h fun st r _ h => ?_
  cases ctx.signatureSetFromTl r.notarCertBytes with
  | none => exact h
  | some signatures =>
    exact h.op (.setNotarizeCertificate ⟨⟨r.candidateId.slot, r.candidateId.hash⟩, signatures⟩)

theorem finalizeParentChain_restored (h : Restored desc past st)
    {received : List CandidateParentInfo}
    (hrun : ctx.finalizeParentChain desc received st = .ok st') : Restored desc past st' := by
  unfold finalizeParentChain at hrun
  split_ifs at hrun
  · cases hrun
    exact h
  · dsimp only at hrun
    split at hrun
    · cases hrun
      exact h
    · exact h.setAvailableBase hrun

/-- Steps 3 to 12: the drained events join the past, and the kept votes go back
into the queue. -/
theorem restoreLocalState_restored (h : Replayed desc st) (hco : Coherent (ctx.ownVotes boot.votes))
    (hroom : ∀ v ∈ ctx.ownVotes boot.votes, HasFlagRoom desc st v)
    (hrun : ctx.restoreLocalState desc boot st = .ok st') :
    ∃ past, (ctx.ownVotes boot.votes).map .broadcastVote ⊆ past ∧ Restored desc past st' := by
  have hflags := applyLocalVoteFlags_restored h hco hroom
  have hskips : Restored desc ((ctx.ownVotes boot.votes).map .broadcastVote)
      (applyPoolStateAndSkipVotes desc boot.poolState
        (ctx.applyLocalVoteFlags desc boot.votes st)) := hflags.restartSkips _
  unfold restoreLocalState at hrun
  dsimp only at hrun
  generalize applyPoolStateAndSkipVotes desc boot.poolState
    (ctx.applyLocalVoteFlags desc boot.votes st) = st1 at hskips hrun
  generalize (ctx.ownVotes boot.votes).map SimplexEvent.broadcastVote = own at hskips
  have hdrained : Restored desc (own ++ st1.events) (drainStartupEvents st1).2 := by
    refine hskips.restream (fun w hw => ?_) ?_
    · change w ∈ votesOf (own ++ st1.events) ++ [] at hw
      rw [append_nil, votesOf_append] at hw
      exact hw
    · exact List.subset_append_left _ _
  cases hnotar : ctx.restoreNotarCertCache desc boot.notarCerts (drainStartupEvents st1).2 with
  | error p =>
    rw [hnotar] at hrun
    cases hrun
  | ok st2 =>
    rw [hnotar] at hrun
    have h2 := (restoreNotarCertCache_restored hdrained _).of_ok hnotar
    have h3 : Restored desc (own ++ st1.events)
        (restoreStartupVotes (drainStartupEvents st1).1 st2) := by
      refine h2.restream (fun w hw => ?_) ?_
      · rw [votesOf_append (List.map _ _), votesOf_broadcasts, drainStartupEvents_votes] at hw
        rcases mem_append.mp hw with hw | hw
        · exact mem_append_left _ hw
        · rcases mem_append.mp hw with hw | hw
          · -- a kept vote was among the drained events
            rw [votesOf_append]
            exact mem_append_left _ (mem_append_right _ hw)
          · exact mem_append_right _ hw
      · intro e he
        rcases mem_append.mp he with he | he
        · exact mem_append_left _ he
        · exact mem_append_right _ (mem_append_right _ he)
    exact ⟨own ++ st1.events, List.subset_append_left _ _, finalizeParentChain_restored h3 hrun⟩

end RecoveryContext

open SimplexState RecoveryContext

/-- A restarted validator does not contradict the votes it persisted, provided
that none of them is lost: at the moment the flags are set, the window of each
vote is dropped, allocated, or within the horizon. -/
theorem restartedRun_agrees_with_past (ctx : RecoveryContext) (desc : SessionDescription)
    (boot : Bootstrap) (ops : List (ℕ × SessionOp)) (st : SimplexState)
    (hco : Coherent (ctx.ownVotes boot.votes))
    (hroom : ∀ st0, ctx.restoreGlobalState desc boot (SimplexState.new desc) = .ok st0 →
      ∀ v ∈ ctx.ownVotes boot.votes, HasFlagRoom desc st0 v)
    (hrun : restartedRun ctx desc boot ops = .ok st) :
    ∀ v ∈ ctx.ownVotes boot.votes, ∀ w, SimplexEvent.broadcastVote w ∈ st.events →
      ¬ v.Conflicts w := by
  intro v hv w hw
  have hrestored : ∃ past st1, (ctx.ownVotes boot.votes).map .broadcastVote ⊆ past ∧
      Restored desc past st1 ∧ runSession desc st1 ops = .ok st := by
    unfold restartedRun applyBootstrap at hrun
    split_ifs at hrun with hempty
    · -- a fresh start has no earlier votes
      refine ⟨[], SimplexState.new desc, ?_, ?_, hrun⟩
      · unfold Bootstrap.isEmpty at hempty
        simp only [Bool.and_eq_true, List.isEmpty_iff] at hempty
        rw [hempty.1.1.2]
        exact List.Subset.refl _
      · have hnew := new_replayed desc
        refine ⟨hnew.votes, ⟨fun _ _ _ => trivial, hnew.grounded.certs⟩, ?_⟩
        rw [hnew.silent]
        exact fun v hv => absurd hv List.not_mem_nil
    · cases hglobal : ctx.restoreGlobalState desc boot (SimplexState.new desc) with
      | error p =>
        rw [hglobal] at hrun
        cases hrun
      | ok st0 =>
        rw [hglobal] at hrun
        dsimp only at hrun
        cases hlocal : ctx.restoreLocalState desc boot st0 with
        | error p =>
          rw [hlocal] at hrun
          cases hrun
        | ok st1 =>
          rw [hlocal] at hrun
          have hreplayed := (restoreGlobalState_replayed (new_replayed desc)).of_ok hglobal
          obtain ⟨past, hsub, hres⟩ :=
            restoreLocalState_restored hreplayed hco (hroom st0 hglobal) hlocal
          exact ⟨past, st1, hsub, hres, hrun⟩
  obtain ⟨past, st1, hsub, hres, hlive⟩ := hrestored
  have hfinal := ((hres.run ops).of_ok hlive).coherent
  have hpast : v ∈ votesOf past := (mem_votesOf_iff past v).mpr (hsub (List.mem_map_of_mem hv))
  exact hfinal v (mem_append_left _ hpast) w
    (mem_append_right _ ((mem_emitted_iff st w).mpr hw))

def quartetSession : SessionDescription :=
  { soloSession 1 0 Nat.one_pos with weights := [1, 1, 1, 1], nodes_pos := four_pos }

def quartetContext : RecoveryContext where
  deserializeVoteRecord data :=
    match data with
    | [slot, hash] => some (.notarize ⟨slot.toNat, Fin.ofNat _ hash.toNat⟩, [])
    | _ => none
  certificateFromTl _ := none
  signatureSetFromTl _ := none
  selfIdx := 3
  now := 0
  iterReceived := id

def quartetBoot (slot : UInt8) : Bootstrap :=
  { finalizedBlocks := [⟨⟨0, 4⟩⟩], votes := [⟨3, [slot, 5]⟩] }

def quartetOps : List (ℕ × SessionOp) :=
  let block : BlockIdExt := ⟨0, 0, 0, 0, 0⟩
  [(0, .start), (0, .live (.setFinalizeCertificate ⟨⟨1, 9⟩, [⟨0, []⟩, ⟨1, []⟩, ⟨2, []⟩]⟩)),
    (0, .live (.onCandidate ⟨⟨2, 6, block⟩, some ⟨1, 9, block⟩, 0⟩))]

/-- The vote for slot 2 is outside the horizon when the flags are set, so the
restarted validator notarizes a second block there. -/
theorem restart_double_vote : Coherent (quartetContext.ownVotes (quartetBoot 2).votes) ∧
      ∃ st, restartedRun quartetContext quartetSession (quartetBoot 2) quartetOps = .ok st ∧
        ∃ v ∈ quartetContext.ownVotes (quartetBoot 2).votes, ∃ w,
          SimplexEvent.broadcastVote w ∈ st.events ∧ v.Conflicts w := by
  have hrun : returnsWith (restartedRun quartetContext quartetSession (quartetBoot 2) quartetOps)
      (fun st => decide (SimplexEvent.broadcastVote (.notarize ⟨2, 6⟩) ∈ st.events)) = true := by
    decide +kernel
  obtain ⟨st, hst, hcheck⟩ := exists_of_returnsWith hrun
  refine ⟨by decide, st, hst, .notarize ⟨2, 5⟩, by decide, .notarize ⟨2, 6⟩,
    of_decide_eq_true hcheck, rfl, by decide⟩

/-- With the vote in slot 1, inside the horizon, the same session is safe. -/
theorem quartetRun_agrees_with_past :
    quartetContext.ownVotes (quartetBoot 1).votes = [.notarize ⟨1, 5⟩] ∧
      ∃ st, restartedRun quartetContext quartetSession (quartetBoot 1) quartetOps = .ok st ∧
        ∀ v ∈ quartetContext.ownVotes (quartetBoot 1).votes, ∀ w,
          SimplexEvent.broadcastVote w ∈ st.events → ¬ v.Conflicts w := by
  have hrun : returnsWith (restartedRun quartetContext quartetSession (quartetBoot 1) quartetOps)
      (fun _ => true) = true := by
    decide +kernel
  have hroom : returnsWith (quartetContext.restoreGlobalState quartetSession (quartetBoot 1)
      (SimplexState.new quartetSession)) (fun st0 =>
        decide (∀ v ∈ quartetContext.ownVotes (quartetBoot 1).votes,
          HasFlagRoom quartetSession st0 v)) = true := by
    decide +kernel
  obtain ⟨st, hst, -⟩ := exists_of_returnsWith hrun
  refine ⟨by decide, st, hst, restartedRun_agrees_with_past _ _ _ _ st (by decide) ?_ hst⟩
  intro st0 hst0
  rw [hst0] at hroom
  exact of_decide_eq_true hroom

theorem quartetRestore_silent : ∃ st, quartetContext.restoreGlobalState quartetSession
    (quartetBoot 1) (SimplexState.new quartetSession) = .ok st ∧ st.emitted = [] := by
  have hrun : returnsWith (quartetContext.restoreGlobalState quartetSession (quartetBoot 1)
      (SimplexState.new quartetSession)) (fun _ => true) = true := by
    decide +kernel
  obtain ⟨st, hst, -⟩ := exists_of_returnsWith hrun
  exact ⟨st, hst, (restoreGlobalState_silent _ _ _ st hst).1⟩

end TonNode.Simplex
