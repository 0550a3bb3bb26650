import TonNode.SimplexCursorRuns
import TonNode.SimplexRestartSafety

/-! Skip votes and the finalized boundary. Both places that vote skip decide by
the flags of a slot and never look at the boundary: an expired alarm skips the
whole window, a restart what is left of the last announced one. -/
namespace TonNode.Simplex.SimplexState

variable {desc : SessionDescription} {st st' : SimplexState} {slot : ℕ}

def skipVotesSince (st st' : SimplexState) : List ℕ :=
  (votesOf (st'.events.drop st.events.length)).filterMap fun
    | .skip v => some v.slot
    | _ => none

def EmitsSkips (st st' : SimplexState) (P : ℕ → Prop) : Prop :=
  ∃ l : List ℕ, st'.events = st.events ++ (l.map (Vote.skip ⟨·⟩)).map .broadcastVote ∧
    ∀ s, s ∈ l ↔ P s

theorem EmitsSkips.mem_skipVotesSince {P : ℕ → Prop} (h : EmitsSkips st st' P) (s : ℕ) :
    s ∈ skipVotesSince st st' ↔ P s := by
  obtain ⟨l, hevents, hl⟩ := h
  unfold skipVotesSince
  rw [hevents, List.drop_left, votesOf_broadcasts, List.filterMap_map, ← hl]
  exact iff_of_eq (congrArg (s ∈ ·) List.filterMap_some)

theorem EmitsSkips.congr {P Q : ℕ → Prop} {st1 st2 : SimplexState} (h : EmitsSkips st st' P)
    (hst : st.events = st1.events) (hst' : st'.events = st2.events) (hP : ∀ s, P s ↔ Q s) :
    EmitsSkips st1 st2 Q := by
  obtain ⟨l, hevents, hl⟩ := h
  exact ⟨l, by rw [← hst, ← hst', hevents], fun s => (hl s).trans (hP s)⟩

theorem EmitsSkips.none {P : ℕ → Prop} (h : st.events = st'.events) (hP : ∀ s, ¬ P s) :
    EmitsSkips st st' P :=
  ⟨[], h.symm.trans (List.append_nil _).symm, fun s => by simp [hP s]⟩

theorem modifySlot_events (st : SimplexState) (f : Slot → Slot) :
    (modifySlot desc st slot f).events = st.events := by
  unfold modifySlot
  rw [modifyWindow_eq_with]

theorem foldl_skipSlotVote_events (l : List ℕ) (st : SimplexState) :
    (l.foldl (skipSlotVote desc) st).events =
      st.events ++ (l.map (Vote.skip ⟨·⟩)).map .broadcastVote := by
  induction l generalizing st with
  | nil => exact (List.append_nil _).symm
  | cons s l ih =>
    rw [List.foldl_cons, ih]
    unfold skipSlotVote
    rw [modifySlot_events]
    exact (List.append_cons _ _ _).symm

theorem trySkipWindow_emits (ht : Tracked desc st slot) :
    EmitsSkips st (trySkipWindow desc st (desc.windowIdx slot)) fun s =>
      desc.windowIdx slot = desc.windowIdx s ∧ (slotAt desc st s).votedFinal = false := by
  have hq := ensureWindowExists_quiet desc st (desc.windowIdx slot) .boundedByHorizon
  unfold trySkipWindow
  generalize ensureWindowExists desc st (desc.windowIdx slot) .boundedByHorizon = st1 at hq ⊢
  obtain ⟨w, hw⟩ := Option.isSome_iff_exists.mp
    ((getWindow_isSome_iff st1 _).mpr (hq.tracked slot ht))
  dsimp only
  rw [hw]
  refine ⟨_, by rw [foldl_skipSlotVote_events, hq.events], fun s => ?_⟩
  -- slot `k` of the window is read through the slot table
  have hslot (k : ℕ) (hk : k < desc.slotsPerLeaderWindow) :
      slotAt desc st (desc.windowStart (desc.windowIdx slot) + k) = w.slots k := by
    rw [← hq.slots]
    unfold slotAt windowSlot
    rw [windowIdx_windowStart_add _ k hk, slotOffset_windowStart_add _ k hk, hw, Option.map_some,
      Option.getD_some]
  simp only [List.mem_map, List.mem_filter, List.mem_range, Bool.not_eq_true']
  constructor
  · rintro ⟨k, ⟨hk, hfinal⟩, rfl⟩
    rw [windowIdx_windowStart_add _ k hk, hslot k hk]
    exact ⟨rfl, hfinal⟩
  · rintro ⟨hidx, hfinal⟩
    have hk : desc.slotOffset s < desc.slotsPerLeaderWindow := Nat.mod_lt _ desc.slots_pos
    have hs : desc.windowStart (desc.windowIdx slot) + desc.slotOffset s = s := by
      rw [hidx]
      exact Nat.div_add_mod' s _
    refine ⟨desc.slotOffset s, ⟨hk, ?_⟩, hs⟩
    rw [← hslot _ hk, hs]
    exact hfinal

theorem ensureWindowExists_withinHorizon_iff (desc : SessionDescription) (st : SimplexState)
    (idx s : ℕ) : WithinHorizon desc (ensureWindowExists desc st idx .boundedByHorizon) s ↔
      WithinHorizon desc st s := by
  unfold WithinHorizon ensureWindowExists
  split_ifs with h
  · exact Iff.rfl
  · have hidx : idx ≤ maxWindow desc st := Nat.not_lt.mp fun hlt => h ⟨rfl, hlt⟩
    have hmax (ws : List LeaderWindow) :
        maxWindow desc { st with leaderWindows := ws } = maxWindow desc st := rfl
    simp only [hmax, List.length_append, List.length_map, List.length_range']
    omega

/-- The deadline of the slot has expired, and the slot is not finalized, can be looked up
and has neither of the two votes. The alarm is set for `skipSlot` at `ts`, and every later
slot has `targetRate` more. -/
structure TimesOut (desc : SessionDescription) (now ts : ℕ) (st : SimplexState) (slot : ℕ) :
    Prop where
  armed : st.skipSlot ≤ slot
  expired : ts + (slot - st.skipSlot) * desc.targetRate ≤ now
  live : st.firstNonFinalizedSlot ≤ slot
  kept : st.leaderWindowOffset ≤ desc.windowIdx slot
  room : WithinHorizon desc st slot
  noFinal : (slotAt desc st slot).votedFinal = false
  noSkip : (slotAt desc st slot).votedSkip = false

def FirstTimedOut (desc : SessionDescription) (now ts : ℕ) (st : SimplexState) (slot : ℕ) : Prop :=
  TimesOut desc now ts st slot ∧ ∀ s < slot, ¬ TimesOut desc now ts st s

/-- The state after a round that passed over its slot. -/
structure Passes (desc : SessionDescription) (st st' : SimplexState) : Prop where
  skipSlot : st'.skipSlot = st.skipSlot + 1
  finalized : st'.firstNonFinalizedSlot = st.firstNonFinalizedSlot
  offset : st'.leaderWindowOffset = st.leaderWindowOffset
  horizon : ∀ s, WithinHorizon desc st' s ↔ WithinHorizon desc st s
  slots : slotAt desc st' = slotAt desc st
  events : st'.events = st.events

variable {now ts : ℕ}

theorem Passes.timesOut_iff (h : Passes desc st st') (hpassed : ¬ TimesOut desc now ts st st.skipSlot)
    (s : ℕ) : TimesOut desc now ts st s ↔ TimesOut desc now (ts + desc.targetRate) st' s := by
  have hlater (hlt : st.skipSlot < s) : ts + (s - st.skipSlot) * desc.targetRate =
      ts + desc.targetRate + (s - (st.skipSlot + 1)) * desc.targetRate := by
    obtain ⟨k, rfl⟩ := Nat.exists_eq_add_of_lt hlt
    rw [show st.skipSlot + k + 1 - st.skipSlot = k + 1 by omega,
      show st.skipSlot + k + 1 - (st.skipSlot + 1) = k by omega]
    ring
  constructor
  · intro ht
    have hlt : st.skipSlot < s := lt_of_le_of_ne ht.armed fun heq => hpassed (heq ▸ ht)
    have hexpired := ht.expired
    rw [hlater hlt, ← h.skipSlot] at hexpired
    exact ⟨by rw [h.skipSlot]; exact hlt, hexpired, h.finalized ▸ ht.live, h.offset ▸ ht.kept,
      (h.horizon s).mpr ht.room, h.slots ▸ ht.noFinal, h.slots ▸ ht.noSkip⟩
  · intro ht
    have hlt : st.skipSlot < s := by
      rw [← Nat.succ_le_iff, Nat.succ_eq_add_one, ← h.skipSlot]
      exact ht.armed
    have hexpired := ht.expired
    rw [h.skipSlot, ← hlater hlt] at hexpired
    exact ⟨hlt.le, hexpired, h.finalized ▸ ht.live, h.offset ▸ ht.kept, (h.horizon s).mp ht.room,
      h.slots ▸ ht.noFinal, h.slots ▸ ht.noSkip⟩

/-- The slot has no final vote and is in the window of the first slot that times out. -/
def SkippedSlot (desc : SessionDescription) (now ts : ℕ) (st : SimplexState) (s : ℕ) : Prop :=
  (∃ t, FirstTimedOut desc now ts st t ∧ desc.windowIdx s = desc.windowIdx t) ∧
    (slotAt desc st s).votedFinal = false

theorem not_skippedSlot (hnow : now < ts) (s : ℕ) : ¬ SkippedSlot desc now ts st s := by
  rintro ⟨⟨t, ⟨ht, -⟩, -⟩, -⟩
  have hexpired := ht.expired
  omega

theorem processTimeoutsLoop_emits (fuel : ℕ) (hfuel : now < ts + fuel) (st : SimplexState) :
    EmitsSkips st (processTimeoutsLoop desc now fuel ts st) (SkippedSlot desc now ts st) := by
  induction fuel generalizing ts st with
  | zero => exact .none rfl (not_skippedSlot hfuel)
  | succ fuel ih =>
    have hnext {st' : SimplexState} (h : Passes desc st st')
        (hpassed : ¬ TimesOut desc now ts st st.skipSlot) :
        EmitsSkips st (processTimeoutsLoop desc now fuel (ts + desc.targetRate) st')
          (SkippedSlot desc now ts st) := by
      have hrate := desc.rate_pos
      refine (ih (by omega) st').congr h.events rfl fun s => ?_
      simp only [SkippedSlot, FirstTimedOut, h.timesOut_iff hpassed, h.slots]
    unfold processTimeoutsLoop
    dsimp only
    split_ifs with hnow hfin
    · exact .none rfl (not_skippedSlot hnow)
    · exact hnext ⟨rfl, rfl, rfl, fun _ => Iff.rfl, rfl, rfl⟩
        fun h => Nat.not_le.mpr hfin h.live
    · generalize hst0 : ({ st with
        skipTimestamp := some (ts + desc.targetRate), skipSlot := st.skipSlot + 1 } :
          SimplexState) = st0
      have hq := ensureWindowExists_quiet desc st0 (desc.windowIdx st.skipSlot) .boundedByHorizon
      have hroom := ensureWindowExists_withinHorizon_iff desc st0 (desc.windowIdx st.skipSlot)
      have htracked := ensureWindowExists_tracked_iff desc st0 st.skipSlot .boundedByHorizon
      have hskip : (ensureWindowExists desc st0 (desc.windowIdx st.skipSlot)
          .boundedByHorizon).skipSlot = st0.skipSlot := by
        rw [ensureWindowExists_eq_with]
      generalize ensureWindowExists desc st0 (desc.windowIdx st.skipSlot) .boundedByHorizon = st1
        at hq hroom htracked hskip ⊢
      subst hst0
      have hpasses : Passes desc st st1 :=
        ⟨hskip, hq.finalized, hq.offset, hroom, hq.slots, hq.events⟩
      cases hw : windowSlot desc st1 st.skipSlot with
      | none =>
        refine hnext hpasses fun h => ?_
        rw [windowSlot_of_tracked (htracked.mpr ⟨h.kept, .inr h.room⟩)] at hw
        cases hw
      | some sl =>
        obtain ⟨ht, hsl⟩ := (windowSlot_eq_some_iff sl).mp hw
        rw [hpasses.slots] at hsl
        dsimp only
        split_ifs with hvoted
        · refine hnext hpasses fun h => ?_
          rw [← hsl, h.noFinal, h.noSkip] at hvoted
          cases hvoted
        · obtain ⟨hkept, hwithin⟩ := htracked.mp ht
          rw [Bool.or_eq_true, not_or, Bool.not_eq_true, Bool.not_eq_true, ← hsl] at hvoted
          have hself : TimesOut desc now ts st st.skipSlot :=
            ⟨le_rfl, by rw [Nat.sub_self]; omega, Nat.le_of_not_lt hfin, hkept,
              hwithin.resolve_left (fun h => by cases h), hvoted.1, hvoted.2⟩
          have hfirst (t : ℕ) : FirstTimedOut desc now ts st t ↔ t = st.skipSlot := by
            constructor
            · rintro ⟨hout, hmin⟩
              exact le_antisymm (Nat.le_of_not_lt fun hlt => hmin _ hlt hself) hout.armed
            · rintro rfl
              exact ⟨hself, fun s hlt hout => Nat.not_le.mpr hlt hout.armed⟩
          have hmark : Quiet desc st1 _ :=
            modifyWindow_hadTimeouts_quiet st1 (desc.windowIdx st.skipSlot)
          refine (trySkipWindow_emits (hmark.tracked _ ht)).congr
            (hmark.events.trans hq.events) rfl fun s => ?_
          simp only [hmark.slots, hpasses.slots, SkippedSlot, hfirst, exists_eq_left, eq_comm]

theorem processTimeouts_emits (desc : SessionDescription) (now : ℕ) (st : SimplexState) :
    EmitsSkips st (processTimeouts desc now st) fun s =>
      ∃ ts, st.skipTimestamp = some ts ∧ SkippedSlot desc now ts st s := by
  unfold processTimeouts
  cases hts : st.skipTimestamp with
  | none => exact .none rfl fun s hs => by obtain ⟨ts, h, -⟩ := hs; cases h
  | some ts =>
    refine (processTimeoutsLoop_emits (now + 1 - ts) (by omega) st).congr rfl rfl fun s => ?_
    simp

/-- `generate_restart_skip_votes` votes skip for a slot of its window that is
not completed, if the window is not dropped and can be allocated. -/
def RestartSkips (desc : SessionDescription) (st : SimplexState) (slot : ℕ) : Prop :=
  st.leaderWindowOffset ≤ desc.windowIdx slot ∧ WithinHorizon desc st slot ∧
    (slotAt desc st slot).isCompleted = false

theorem modifySlot_withinHorizon_iff (f : Slot → Slot) (s : ℕ) :
    WithinHorizon desc (modifySlot desc st slot f) s ↔ WithinHorizon desc st s := by
  unfold WithinHorizon modifySlot
  rw [modifyWindow_length, modifyWindow_eq_with]
  exact Iff.rfl

/-- What one slot of the loop emits, and that it does not change what the other
slots will. -/
theorem restartSkipSlot_emits (desc : SessionDescription) (st : SimplexState) (slot : ℕ) :
    EmitsSkips st (restartSkipSlot desc st slot) (fun s => s = slot ∧ RestartSkips desc st s) ∧
      ∀ s, RestartSkips desc (restartSkipSlot desc st slot) s ↔ RestartSkips desc st s := by
  unfold restartSkipSlot
  split_ifs with hlt
  · refine ⟨.none rfl fun s hs => ?_, fun s => Iff.rfl⟩
    obtain ⟨rfl, hle, -⟩ := hs
    exact absurd hlt (Nat.not_lt.mpr hle)
  have hq := ensureWindowExists_quiet desc st (desc.windowIdx slot) .boundedByHorizon
  have hhor := ensureWindowExists_withinHorizon_iff desc st (desc.windowIdx slot)
  have htr := ensureWindowExists_tracked_iff desc st slot .boundedByHorizon
  generalize ensureWindowExists desc st (desc.windowIdx slot) .boundedByHorizon = st1
    at hq hhor htr ⊢
  have hkeep (s : ℕ) : RestartSkips desc st1 s ↔ RestartSkips desc st s := by
    unfold RestartSkips
    rw [hq.offset, hq.slots, hhor]
  dsimp only
  cases hw : windowSlot desc st1 slot with
  | none =>
    refine ⟨.none hq.events.symm fun s hs => ?_, hkeep⟩
    obtain ⟨rfl, hle, hroom, -⟩ := hs
    have hnot : ¬ Tracked desc st1 s := fun ht => by rw [windowSlot_of_tracked ht] at hw; cases hw
    exact hnot (htr.mpr ⟨hle, Or.inr hroom⟩)
  | some sl =>
    obtain ⟨ht, hsl⟩ := (windowSlot_eq_some_iff sl).mp hw
    dsimp only
    split_ifs with hcomp
    · refine ⟨.none hq.events.symm fun s hs => ?_, hkeep⟩
      obtain ⟨rfl, -, -, hnot⟩ := hs
      rw [← hq.slots, hsl, hcomp] at hnot
      cases hnot
    · have hu : SlotUpdate desc (st1.broadcastVote (.skip ⟨slot⟩)) (skipSlotVote desc st1 slot)
          slot _ := modifySlot_update (show Tracked desc (st1.broadcastVote _) slot from ht) _
      constructor
      · refine ⟨[slot], hu.2.events.trans (congrArg (· ++ _) hq.events), fun s => ?_⟩
        rw [List.mem_singleton]
        refine ⟨fun hs => ⟨hs, ?_⟩, And.left⟩
        rw [hs, ← hkeep]
        refine ⟨ht.1, Or.inl ht.2, ?_⟩
        rw [hsl]
        exact Bool.eq_false_iff.mpr hcomp
      · intro s
        rw [← hkeep]
        have hcompleted : (slotAt desc (skipSlotVote desc st1 slot) s).isCompleted =
            (slotAt desc st1 s).isCompleted := hu.field Slot.isCompleted rfl s
        unfold RestartSkips
        rw [hcompleted, hu.2.offset]
        unfold skipSlotVote
        rw [modifySlot_withinHorizon_iff]
        exact Iff.rfl

theorem foldl_restartSkipSlot_emits (l : List ℕ) (st : SimplexState) :
    EmitsSkips st (l.foldl (restartSkipSlot desc) st) fun s => s ∈ l ∧ RestartSkips desc st s := by
  induction l generalizing st with
  | nil => exact .none rfl fun s hs => by cases hs.1
  | cons slot l ih =>
    obtain ⟨⟨l1, hevents1, hl1⟩, hkeep⟩ := restartSkipSlot_emits desc st slot
    obtain ⟨l2, hevents2, hl2⟩ := ih (restartSkipSlot desc st slot)
    refine ⟨l1 ++ l2, ?_, fun s => ?_⟩
    · rw [List.foldl_cons, hevents2, hevents1, List.map_append, List.map_append, List.append_assoc]
    · simp [hl1, hl2, hkeep, or_and_right]

theorem generateRestartSkipVotes_emits (desc : SessionDescription) (st : SimplexState)
    (window : ℕ) : EmitsSkips st (generateRestartSkipVotes desc st window) fun s =>
      window = desc.windowIdx s + 1 ∧ RestartSkips desc st s := by
  unfold generateRestartSkipVotes
  split_ifs with h0
  · exact .none rfl fun s hs => Nat.succ_ne_zero _ (hs.1.symm.trans h0)
  · refine (foldl_restartSkipSlot_emits _ st).congr rfl rfl fun s => ?_
    have hmem : s ∈ List.range' (desc.windowStart (window - 1)) desc.slotsPerLeaderWindow ↔
        window = desc.windowIdx s + 1 := by
      rw [List.mem_range'_1]
      unfold SessionDescription.windowStart SessionDescription.windowIdx
      rw [← Nat.succ_mul, ← Nat.le_div_iff_mul_le desc.slots_pos,
        ← Nat.div_lt_iff_lt_mul desc.slots_pos]
      omega
    rw [hmem]

/-- Both emitters keep to slots that are not finalized exactly where the flags
make up for the boundary they do not look at: the slots below it of the window
that timed out are voted final, and those of the restarted window completed. -/
theorem skip_votes_not_finalized_iff (desc : SessionDescription) (st : SimplexState)
    (now window : ℕ) :
    ((∀ s ∈ skipVotesSince st (processTimeouts desc now st), st.firstNonFinalizedSlot ≤ s) ↔
      ∀ ts t, st.skipTimestamp = some ts → FirstTimedOut desc now ts st t →
        ∀ s < st.firstNonFinalizedSlot, desc.windowIdx s = desc.windowIdx t →
          (slotAt desc st s).votedFinal = true) ∧
    ((∀ s ∈ skipVotesSince st (generateRestartSkipVotes desc st window),
        st.firstNonFinalizedSlot ≤ s) ↔
      ∀ s < st.firstNonFinalizedSlot, window = desc.windowIdx s + 1 →
        st.leaderWindowOffset ≤ desc.windowIdx s → WithinHorizon desc st s →
          (slotAt desc st s).isCompleted = true) := by
  have htimeouts := (processTimeouts_emits desc now st).mem_skipVotesSince
  have hrestart := (generateRestartSkipVotes_emits desc st window).mem_skipVotesSince
  simp only [htimeouts, hrestart]
  constructor
  · constructor
    · intro h ts t hts ht s hs hidx
      by_contra hfinal
      exact Nat.not_le.mpr hs (h s ⟨ts, hts, ⟨t, ht, hidx⟩, Bool.eq_false_iff.mpr hfinal⟩)
    · rintro h s ⟨ts, hts, ⟨t, ht, hidx⟩, hfinal⟩
      by_contra hs
      rw [h ts t hts ht s (Nat.not_le.mp hs) hidx] at hfinal
      cases hfinal
  · constructor
    · intro h s hs hidx hle hroom
      by_contra hcomp
      exact Nat.not_le.mpr hs (h s ⟨hidx, hle, hroom, Bool.eq_false_iff.mpr hcomp⟩)
    · rintro h s ⟨hidx, hle, hroom, hcomp⟩
      by_contra hs
      rw [h s (Nat.not_le.mp hs) hidx hle hroom] at hcomp
      cases hcomp

/-- Slots 1 and 2 are finalized by certificates of the others; then the alarm
of window 1 expires at slot 3, or the node restarts, and slot 2 is voted skip. -/
theorem skip_vote_below_boundary :
    ∃ st, runOps (soloSession 2 1 Nat.two_pos) (new (soloSession 2 1 Nat.two_pos))
        [(0, .setFinalizeCertificate ⟨⟨1, 5⟩, soloSignatures⟩),
          (0, .setFinalizeCertificate ⟨⟨2, 6⟩, soloSignatures⟩)] = .ok st ∧
      st.firstNonFinalizedSlot = 3 ∧
      (checkAll (soloSession 2 1 Nat.two_pos) 9 st).map (skipVotesSince st) = .ok [2, 3] ∧
      2 ∈ skipVotesSince st (generateRestartSkipVotes (soloSession 2 1 Nat.two_pos) st 2) := by
  have hrun : returnsWith (runOps (soloSession 2 1 Nat.two_pos)
      (new (soloSession 2 1 Nat.two_pos)) [(0, .setFinalizeCertificate ⟨⟨1, 5⟩, soloSignatures⟩),
        (0, .setFinalizeCertificate ⟨⟨2, 6⟩, soloSignatures⟩)]) (fun st =>
          decide (st.firstNonFinalizedSlot = 3) &&
            (decide ((checkAll (soloSession 2 1 Nat.two_pos) 9 st).map (skipVotesSince st) =
              .ok [2, 3]) && decide (2 ∈ skipVotesSince st (generateRestartSkipVotes
                (soloSession 2 1 Nat.two_pos) st 2)))) = true := by
    decide +kernel
  obtain ⟨st, hst, hcheck⟩ := exists_of_returnsWith hrun
  simp only [Bool.and_eq_true, decide_eq_true_eq] at hcheck
  exact ⟨st, hst, hcheck⟩

end TonNode.Simplex.SimplexState
