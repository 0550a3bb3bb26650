import TonNode.SimplexOps
import TonNode.SimplexRestart

/-! Local vote safety: the vote flags of the slot table record what was
broadcast, so a state never contradicts its own votes. -/
namespace TonNode.Simplex

def SimplexEvent.castVote : SimplexEvent → Option Vote
  | .broadcastVote v => some v
  | _ => none

def SimplexEvent.notarizes (slot : ℕ) (hash : UInt256) : SimplexEvent → Bool
  | .notarizationReached s h _ => s == slot && h == hash
  | _ => false

namespace SimplexState

open Relation

variable {desc : SessionDescription} {E : Evidence} {st st' : SimplexState} {slot : ℕ}

def votesOf (events : List SimplexEvent) : List Vote := events.filterMap SimplexEvent.castVote

def emitted (st : SimplexState) : List Vote := votesOf st.events

theorem mem_emitted_iff (st : SimplexState) (v : Vote) :
    v ∈ st.emitted ↔ SimplexEvent.broadcastVote v ∈ st.events := by
  unfold emitted votesOf
  rw [List.mem_filterMap]
  constructor
  · rintro ⟨e, he, hv⟩
    cases e with
    | broadcastVote w => obtain rfl := Option.some.inj hv; exact he
    | _ => cases hv
  · intro h
    exact ⟨_, h, rfl⟩

theorem emitted_broadcastVote (st : SimplexState) (v : Vote) :
    (st.broadcastVote v).emitted = st.emitted ++ [v] := by
  unfold emitted votesOf broadcastVote pushEventBack
  rw [List.filterMap_append]
  rfl

theorem emitted_of_events (h : st'.events = st.events) : st'.emitted = st.emitted := by
  unfold emitted
  rw [h]

def Live (desc : SessionDescription) (st : SimplexState) (slot : ℕ) : Prop :=
  st.leaderWindowOffset ≤ desc.windowIdx slot

/-- The vote flags of every live slot record the votes of `past` and of the
queue; `past` are events that were taken from the queue, or whose votes were
cast before this state was created. -/
structure VoteInv (desc : SessionDescription) (past : List SimplexEvent) (st : SimplexState) :
    Prop where
  aligned : StartsAligned desc st
  dropped : desc.windowStart st.leaderWindowOffset ≤ st.firstNonFinalizedSlot
  notarize : ∀ s h, Live desc st s → Vote.notarize ⟨s, h⟩ ∈ votesOf past ++ st.emitted →
    (slotAt desc st s).votedNotar = some ⟨s, h⟩
  notarized : ∀ s p, (slotAt desc st s).votedNotar = some p →
    p.slot = s ∧ Vote.notarize ⟨s, p.hash⟩ ∈ votesOf past ++ st.emitted
  finalize : ∀ s h, Live desc st s → Vote.finalize ⟨s, h⟩ ∈ votesOf past ++ st.emitted →
    (slotAt desc st s).votedFinal = true
  completed : ∀ s, (slotAt desc st s).votedFinal = true → (slotAt desc st s).isCompleted = true
  skip : ∀ s, Live desc st s → Vote.skip ⟨s⟩ ∈ votesOf past ++ st.emitted →
    (slotAt desc st s).votedSkip = true
  observed : ∀ s p, (slotAt desc st s).observedNotarCertificate = some p →
    p.slot = s ∧ Announced past st p

structure SameFlags (desc : SessionDescription) (st st' : SimplexState) : Prop where
  notar : ∀ s, (slotAt desc st' s).votedNotar = (slotAt desc st s).votedNotar
  final : ∀ s, (slotAt desc st' s).votedFinal = (slotAt desc st s).votedFinal
  skip : ∀ s, (slotAt desc st' s).votedSkip = (slotAt desc st s).votedSkip
  completed : ∀ s, (slotAt desc st' s).isCompleted = (slotAt desc st s).isCompleted
  emitted : st'.emitted = st.emitted
  events : st.events <+: st'.events
  offset : st'.leaderWindowOffset = st.leaderWindowOffset
  finalized : st.firstNonFinalizedSlot ≤ st'.firstNonFinalizedSlot
  aligned : StartsAligned desc st → StartsAligned desc st'

variable {past : List SimplexEvent}

theorem VoteInv.frame (hi : VoteInv desc past st) (hf : SameFlags desc st st')
    (hobs : ∀ s p, (slotAt desc st' s).observedNotarCertificate = some p →
      (slotAt desc st s).observedNotarCertificate = some p ∨ p.slot = s ∧ Announced past st' p) :
    VoteInv desc past st' where
  aligned := hf.aligned hi.aligned
  dropped := by
    rw [hf.offset]
    exact hi.dropped.trans hf.finalized
  notarize s h hl hm := by
    unfold Live at hl
    rw [hf.offset] at hl
    rw [hf.emitted] at hm
    rw [hf.notar]
    exact hi.notarize s h hl hm
  notarized s p hp := by
    rw [hf.notar] at hp
    rw [hf.emitted]
    exact hi.notarized s p hp
  finalize s h hl hm := by
    unfold Live at hl
    rw [hf.offset] at hl
    rw [hf.emitted] at hm
    rw [hf.final]
    exact hi.finalize s h hl hm
  completed s hs := by
    rw [hf.final] at hs
    rw [hf.completed]
    exact hi.completed s hs
  skip s hl hm := by
    unfold Live at hl
    rw [hf.offset] at hl
    rw [hf.emitted] at hm
    rw [hf.skip]
    exact hi.skip s hl hm
  observed s p hp := by
    rcases hobs s p hp with hold | hnew
    · exact ⟨(hi.observed s p hold).1, (hi.observed s p hold).2.mono hf.events⟩
    · exact hnew

theorem SlotUpdate.sameFlags {f : Slot → Slot} (h : SlotUpdate desc st st' slot f)
    (hn : ∀ sl, (f sl).votedNotar = sl.votedNotar) (hfin : ∀ sl, (f sl).votedFinal = sl.votedFinal)
    (hs : ∀ sl, (f sl).votedSkip = sl.votedSkip)
    (hc : ∀ sl, (f sl).isCompleted = sl.isCompleted) : SameFlags desc st st' := by
  refine ⟨h.field _ (hn _), h.field _ (hfin _), h.field _ (hs _), h.field _ (hc _), ?_, ?_,
    h.2.offset, ?_, h.2.aligned⟩
  · unfold SimplexState.emitted
    rw [h.2.events]
  · rw [h.2.events]
  · rw [h.2.finalized]

theorem Quiet.sameFlags (h : Quiet desc st st') : SameFlags desc st st' := by
  refine ⟨?_, ?_, ?_, ?_, ?_, ?_, h.offset, ?_, h.aligned⟩
  · intro s; rw [h.slots]
  · intro s; rw [h.slots]
  · intro s; rw [h.slots]
  · intro s; rw [h.slots]
  · unfold SimplexState.emitted
    rw [h.events]
  · rw [h.events]
  · rw [h.finalized]

theorem VoteInv.quiet (hi : VoteInv desc past st) (h : Quiet desc st st') :
    VoteInv desc past st' := by
  refine hi.frame h.sameFlags fun s p hp => Or.inl ?_
  rwa [h.slots] at hp

theorem VoteInv.update {f : Slot → Slot} (hi : VoteInv desc past st)
    (h : SlotUpdate desc st st' slot f) (hn : ∀ sl, (f sl).votedNotar = sl.votedNotar)
    (hfin : ∀ sl, (f sl).votedFinal = sl.votedFinal) (hs : ∀ sl, (f sl).votedSkip = sl.votedSkip)
    (hc : ∀ sl, (f sl).isCompleted = sl.isCompleted)
    (ho : ∀ sl, (f sl).observedNotarCertificate = sl.observedNotarCertificate) :
    VoteInv desc past st' := by
  refine hi.frame (h.sameFlags hn hfin hs hc) fun s p hp => Or.inl ?_
  exact (h.field Slot.observedNotarCertificate (ho _) s).symm.trans hp

theorem Announced.subset {past' : List SimplexEvent} {p : CandidateParentInfo}
    (h : Announced past st p) (hsub : past ++ st.events ⊆ past' ++ st'.events) :
    Announced past' st' p :=
  h.imp (fun ⟨c, hc⟩ => ⟨c, hsub hc⟩) fun ⟨id, c, hc⟩ => ⟨id, c, hsub hc⟩

/-- The stream of votes gains `v`, a vote for `slot`, whether in the queue or in
the past. The flags of the slot are given, the other slots are as before. -/
theorem VoteInv.record {past' events : List SimplexEvent} {v : Vote} {f : Slot → Slot}
    (hi : VoteInv desc past st) (h : SlotUpdate desc { st with events := events } st' slot f)
    (hv : v.slot = slot)
    (hstream : ∀ w, w ∈ votesOf past' ++ votesOf events ↔ w ∈ (votesOf past ++ st.emitted) ++ [v])
    (hsub : past ++ st.events ⊆ past' ++ events)
    (hobs : (f (slotAt desc st slot)).observedNotarCertificate =
      (slotAt desc st slot).observedNotarCertificate)
    (hnotarize : ∀ hash, Vote.notarize ⟨slot, hash⟩ ∈ (votesOf past ++ st.emitted) ++ [v] →
      (f (slotAt desc st slot)).votedNotar = some ⟨slot, hash⟩)
    (hnotarized : ∀ p, (f (slotAt desc st slot)).votedNotar = some p →
      p.slot = slot ∧ Vote.notarize ⟨slot, p.hash⟩ ∈ (votesOf past ++ st.emitted) ++ [v])
    (hfinalize : ∀ hash, Vote.finalize ⟨slot, hash⟩ ∈ (votesOf past ++ st.emitted) ++ [v] →
      (f (slotAt desc st slot)).votedFinal = true)
    (hcompleted : (f (slotAt desc st slot)).votedFinal = true →
      (f (slotAt desc st slot)).isCompleted = true)
    (hskip : Vote.skip ⟨slot⟩ ∈ (votesOf past ++ st.emitted) ++ [v] →
      (f (slotAt desc st slot)).votedSkip = true) : VoteInv desc past' st' := by
  have hcast (w : Vote) : w ∈ votesOf past' ++ st'.emitted ↔
      w ∈ (votesOf past ++ st.emitted) ++ [v] := by
    rw [← hstream]
    unfold emitted
    rw [h.2.events]
  have hself : slotAt desc st' slot = f (slotAt desc st slot) := h.slotAt_self
  have hne {s : ℕ} (hs : s ≠ slot) : slotAt desc st' s = slotAt desc st s := h.slotAt_ne hs
  have hlive {s : ℕ} (hl : Live desc st' s) : Live desc st s := by
    unfold Live at hl
    rwa [h.2.offset] at hl
  -- a vote for another slot was cast before
  have hold {s : ℕ} {w : Vote} (hs : s ≠ slot) (hw : w.slot = s)
      (hm : w ∈ votesOf past' ++ st'.emitted) : w ∈ votesOf past ++ st.emitted := by
    rcases List.mem_append.mp ((hcast w).mp hm) with hm | hm
    · exact hm
    · rw [List.mem_singleton] at hm
      subst hm
      exact absurd (hw.symm.trans hv) hs
  have hevents : past ++ st.events ⊆ past' ++ st'.events := by
    rw [h.2.events]
    exact hsub
  refine ⟨h.2.aligned hi.aligned, ?_, ?_, ?_, ?_, ?_, ?_, ?_⟩
  · rw [h.2.offset, h.2.finalized]
    exact hi.dropped
  · intro s hash hl hm
    by_cases hs : s = slot
    · subst hs
      rw [hself]
      exact hnotarize hash ((hcast _).mp hm)
    · rw [hne hs]
      exact hi.notarize s hash (hlive hl) (hold hs rfl hm)
  · intro s p hp
    rw [hcast]
    by_cases hs : s = slot
    · subst hs
      rw [hself] at hp
      exact hnotarized p hp
    · rw [hne hs] at hp
      exact ⟨(hi.notarized s p hp).1, List.mem_append_left _ (hi.notarized s p hp).2⟩
  · intro s hash hl hm
    by_cases hs : s = slot
    · subst hs
      rw [hself]
      exact hfinalize hash ((hcast _).mp hm)
    · rw [hne hs]
      exact hi.finalize s hash (hlive hl) (hold hs rfl hm)
  · intro s hfin
    by_cases hs : s = slot
    · subst hs
      rw [hself] at hfin ⊢
      exact hcompleted hfin
    · rw [hne hs] at hfin ⊢
      exact hi.completed s hfin
  · intro s hl hm
    by_cases hs : s = slot
    · subst hs
      rw [hself]
      exact hskip ((hcast _).mp hm)
    · rw [hne hs]
      exact hi.skip s (hlive hl) (hold hs rfl hm)
  · intro s p hp
    have hp' : (slotAt desc st s).observedNotarCertificate = some p := by
      by_cases hs : s = slot
      · subst hs
        rw [hself, hobs] at hp
        exact hp
      · rwa [hne hs] at hp
    exact ⟨(hi.observed s p hp').1, (hi.observed s p hp').2.subset hevents⟩

section

variable (past : List SimplexEvent) (st : SimplexState) (v : Vote)

theorem broadcast_stream (w : Vote) : w ∈ votesOf past ++ votesOf (st.broadcastVote v).events ↔
      w ∈ (votesOf past ++ st.emitted) ++ [v] := by
  have h := emitted_broadcastVote st v
  unfold emitted at h
  rw [h, List.append_assoc]
  rfl

theorem broadcast_subset : past ++ st.events ⊆ past ++ (st.broadcastVote v).events := by
  intro e he
  rcases List.mem_append.mp he with he | he
  · exact List.mem_append_left _ he
  · exact List.mem_append_right _ (List.mem_append_left _ he)

end

variable {α : Type}

theorem mem_concat_of_ne {l : List α} {v w : α} (h : w ∈ l ++ [v]) (hne : w ≠ v) : w ∈ l := by
  rcases List.mem_append.mp h with h | h
  · exact h
  · exact absurd (List.mem_singleton.mp h) hne

theorem VoteInv.live (hi : VoteInv desc past st) (h : st.firstNonFinalizedSlot ≤ slot) :
    Live desc st slot := by
  have hle : desc.windowStart st.leaderWindowOffset ≤ slot := hi.dropped.trans h
  have hmono := windowIdx_mono desc hle
  rwa [windowIdx_windowStart] at hmono

theorem VoteInv.localStep (hi : VoteInv desc E.past st)
    (h : LocalStep desc E st st') : VoteInv desc E.past st' := by
  cases h with
  | quiet h => exact hi.quiet h
  | pending c _ h =>
    exact hi.update h (fun _ => rfl) (fun _ => rfl) (fun _ => rfl) (fun _ => rfl) fun _ => rfl
  | notarize s c _ hfin hvoted _ h =>
    have hlive := hi.live hfin
    -- no notarize vote for this slot was cast, or the flag would show it
    have hnone (hash : UInt256) : Vote.notarize ⟨s, hash⟩ ∉ votesOf E.past ++ st.emitted := by
      intro hm
      have hflag := hi.notarize s hash hlive hm
      rw [hvoted] at hflag
      cases hflag
    refine hi.record h rfl (broadcast_stream _ st _) (broadcast_subset _ st _) rfl ?_ ?_ ?_
      (hi.completed s) ?_
    · intro hash hm
      by_cases he : hash = c.id.hash
      · rw [he]
      · refine absurd (mem_concat_of_ne hm ?_) (hnone hash)
        intro heq
        cases heq
        exact he rfl
    · intro p hp
      obtain rfl := Option.some.inj hp
      exact ⟨rfl, List.mem_append_right _ (List.mem_singleton.mpr rfl)⟩
    · intro hash hm
      exact hi.finalize s hash hlive (mem_concat_of_ne hm (by intro he; cases he))
    · intro hm
      exact hi.skip s hlive (mem_concat_of_ne hm (by intro he; cases he))
  | finalize s hash ht hobs hnotar hcompl hskip h =>
    refine hi.record h rfl (broadcast_stream _ st _) (broadcast_subset _ st _) rfl ?_ ?_
      (fun _ _ => rfl) (fun _ => rfl) ?_
    · intro hash' hm
      exact hi.notarize s hash' ht.1 (mem_concat_of_ne hm (by intro he; cases he))
    · intro p hp
      exact ⟨(hi.notarized s p hp).1, List.mem_append_left _ (hi.notarized s p hp).2⟩
    · intro hm
      exact hi.skip s ht.1 (mem_concat_of_ne hm (by intro he; cases he))
  | skip s _ ht hfinal h =>
    refine hi.record h rfl (broadcast_stream _ st _) (broadcast_subset _ st _) rfl ?_ ?_ ?_
      (hi.completed s) (fun _ => rfl)
    · intro hash' hm
      exact hi.notarize s hash' ht.1 (mem_concat_of_ne hm (by intro he; cases he))
    · intro p hp
      exact ⟨(hi.notarized s p hp).1, List.mem_append_left _ (hi.notarized s p hp).2⟩
    · intro hash' hm
      exact hi.finalize s hash' ht.1 (mem_concat_of_ne hm (by intro he; cases he))

theorem VoteInv.of_windows_eq (hi : VoteInv desc past st)
    (h1 : st'.leaderWindows = st.leaderWindows)
    (h2 : st'.leaderWindowOffset = st.leaderWindowOffset) (h3 : st.events <+: st'.events)
    (h4 : st'.emitted = st.emitted) (h5 : st.firstNonFinalizedSlot ≤ st'.firstNonFinalizedSlot) :
    VoteInv desc past st' := by
  have hslots : slotAt desc st' = slotAt desc st := by
    funext s
    simp only [slotAt, windowSlot, getWindow, h1, h2]
  refine hi.frame ⟨?_, ?_, ?_, ?_, h4, h3, h2, h5, ?_⟩ fun s p hp => Or.inl ?_
  · intro s; rw [hslots]
  · intro s; rw [hslots]
  · intro s; rw [hslots]
  · intro s; rw [hslots]
  · intro ha
    unfold StartsAligned at ha ⊢
    rwa [h1, h2]
  · rwa [hslots] at hp

theorem VoteInv.chainStep (hi : VoteInv desc E.past st)
    (h : ChainStep desc E st st') : VoteInv desc E.past st' := by
  cases h with
  | vote h => exact hi.localStep h
  | cursor c _ => exact hi.of_windows_eq rfl rfl List.prefix_rfl rfl le_rfl
  | base n b _ _ h =>
    exact hi.update h (fun _ => rfl) (fun _ => rfl) (fun _ => rfl) (fun _ => rfl) fun _ => rfl
  | observe p hp _ h =>
    refine hi.frame (h.sameFlags (fun _ => rfl) (fun _ => rfl) (fun _ => rfl) fun _ => rfl) ?_
    intro s q hq
    by_cases hs : s = p.slot
    · subst hs
      rw [h.slotAt_self] at hq
      obtain rfl := Option.some.inj hq
      exact Or.inr ⟨rfl, hp.mono (by rw [h.2.events])⟩
    · rw [h.slotAt_ne hs] at hq
      exact Or.inl hq
  | skip x _ _ h =>
    obtain ⟨st1, hq | hu, rfl⟩ := h
    · exact (hi.quiet hq).of_windows_eq rfl rfl List.prefix_rfl rfl le_rfl
    · have h1 : VoteInv desc E.past st1 :=
        hi.update hu (fun _ => rfl) (fun _ => rfl) (fun _ => rfl) (fun _ => rfl) fun _ => rfl
      exact h1.of_windows_eq rfl rfl List.prefix_rfl rfl le_rfl

theorem emitted_pushEventBack {e : SimplexEvent} (he : E.event e) :
    (st.pushEventBack e).emitted = st.emitted := by
  have hnone : SimplexEvent.castVote e = none := by
    cases e with
    | broadcastVote v => exact he.elim
    | _ => rfl
  unfold emitted votesOf pushEventBack
  rw [List.filterMap_append, List.filterMap_cons_none hnone, List.filterMap_nil, List.append_nil]

/-- The deque after `cleanup_slots`: whole windows below the boundary are gone,
the others keep their place. -/
theorem cleanupSlots_windows (ha : StartsAligned desc st) (upToSlot : ℕ) :
    ∃ k, (cleanupSlots desc st upToSlot).leaderWindows = st.leaderWindows.drop k ∧
      (cleanupSlots desc st upToSlot).leaderWindowOffset = st.leaderWindowOffset + k ∧
      (k = 0 ∨ desc.windowStart (st.leaderWindowOffset + k) ≤ st.firstNonFinalizedSlot) := by
  unfold cleanupSlots
  dsimp only
  split_ifs with hb
  · exact ⟨0, rfl, rfl, Or.inl rfl⟩
  · set old := fun w : LeaderWindow => decide
      (w.startSlot + desc.slotsPerLeaderWindow ≤ min upToSlot st.firstNonFinalizedSlot)
    have happend := List.takeWhile_append_dropWhile (p := old) (l := st.leaderWindows)
    refine ⟨(st.leaderWindows.takeWhile old).length, ?_, rfl, ?_⟩
    · change st.leaderWindows.dropWhile old = _
      nth_rewrite 3 [← happend]
      exact (List.drop_left).symm
    rcases Nat.eq_zero_or_pos (st.leaderWindows.takeWhile old).length with hk | hk
    · exact Or.inl hk
    · right
      -- the last dropped window ends at or before the boundary
      have hlt : (st.leaderWindows.takeWhile old).length - 1 <
          (st.leaderWindows.takeWhile old).length := by omega
      have hget := (List.takeWhile_prefix old).getElem hlt
      have hold := List.mem_takeWhile_imp (List.getElem_mem hlt)
      have hstart := ha _ _ (List.getElem?_eq_getElem
        (hlt.trans_le (List.takeWhile_prefix old).length_le))
      rw [hget, decide_eq_true_eq, hstart] at hold
      generalize (st.leaderWindows.takeWhile old).length = k at hk hold
      have harith : desc.windowStart (st.leaderWindowOffset + (k - 1)) +
          desc.slotsPerLeaderWindow = desc.windowStart (st.leaderWindowOffset + k) := by
        unfold SessionDescription.windowStart
        rw [← Nat.succ_mul]
        congr 1
        omega
      rw [harith] at hold
      exact hold.trans (min_le_right _ _)

theorem cleanupSlots_slotAt (ha : StartsAligned desc st) (upToSlot s : ℕ)
    (hl : Live desc (cleanupSlots desc st upToSlot) s) :
    slotAt desc (cleanupSlots desc st upToSlot) s = slotAt desc st s := by
  obtain ⟨k, hwin, hoff, -⟩ := cleanupSlots_windows ha upToSlot
  unfold Live at hl
  unfold slotAt windowSlot getWindow
  rw [hwin, hoff, if_neg (by omega), if_neg (by omega), List.getElem?_drop]
  have hidx : k + (desc.windowIdx s - (st.leaderWindowOffset + k)) =
      desc.windowIdx s - st.leaderWindowOffset := by omega
  rw [hidx]

theorem cleanupSlots_slotAt_dropped (upToSlot s : ℕ)
    (hl : ¬ Live desc (cleanupSlots desc st upToSlot) s) :
    slotAt desc (cleanupSlots desc st upToSlot) s = {} :=
  slotAt_of_not_tracked fun ht => hl ht.1

theorem cleanupSlots_kept (ha : StartsAligned desc st)
    (hd : desc.windowStart st.leaderWindowOffset ≤ st.firstNonFinalizedSlot) (upToSlot : ℕ) :
    StartsAligned desc (cleanupSlots desc st upToSlot) ∧
      desc.windowStart (cleanupSlots desc st upToSlot).leaderWindowOffset ≤
        st.firstNonFinalizedSlot ∧ ∀ s, st.firstNonFinalizedSlot ≤ s →
        slotAt desc (cleanupSlots desc st upToSlot) s = slotAt desc st s := by
  obtain ⟨k, hwin, hoff, hbound⟩ := cleanupSlots_windows ha upToSlot
  have hdropped : desc.windowStart (cleanupSlots desc st upToSlot).leaderWindowOffset ≤
      st.firstNonFinalizedSlot := by
    rw [hoff]
    rcases hbound with rfl | hle
    · exact hd
    · exact hle
  refine ⟨fun i w hw => ?_, hdropped, fun s hs => ?_⟩
  · rw [hwin, List.getElem?_drop] at hw
    rw [hoff, Nat.add_assoc]
    exact ha (k + i) w hw
  · refine cleanupSlots_slotAt ha upToSlot s ?_
    have hle := windowIdx_mono desc (hdropped.trans hs)
    rwa [windowIdx_windowStart] at hle

/-- Windows are dropped from the front: a slot that is still live is as before. -/
theorem VoteInv.dropWindows (hi : VoteInv desc past st) (haligned : StartsAligned desc st')
    (hdropped : desc.windowStart st'.leaderWindowOffset ≤ st'.firstNonFinalizedSlot)
    (hoff : st.leaderWindowOffset ≤ st'.leaderWindowOffset) (hev : st'.events = st.events)
    (hslot : ∀ s, Live desc st' s → slotAt desc st' s = slotAt desc st s) :
    VoteInv desc past st' := by
  have hlive {s : ℕ} (hl : Live desc st' s) : Live desc st s := hoff.trans hl
  have hemit := emitted_of_events hev
  -- a dropped slot is blank, so a set flag belongs to a live slot
  have hblank {s : ℕ} {P : Prop} (hb : slotAt desc st' s = {} → False)
      (hrest : Live desc st' s → P) : P := by
    by_cases hl : Live desc st' s
    · exact hrest hl
    · exact (hb (slotAt_of_not_tracked fun ht => hl ht.1)).elim
  refine ⟨haligned, hdropped, ?_, ?_, ?_, ?_, ?_, ?_⟩
  · intro s h hl hm
    rw [hemit] at hm
    rw [hslot s hl]
    exact hi.notarize s h (hlive hl) hm
  · intro s p hp
    rw [hemit]
    refine hblank (fun hb => by rw [hb] at hp; cases hp) fun hl => ?_
    rw [hslot s hl] at hp
    exact hi.notarized s p hp
  · intro s h hl hm
    rw [hemit] at hm
    rw [hslot s hl]
    exact hi.finalize s h (hlive hl) hm
  · intro s hs
    refine hblank (fun hb => by rw [hb] at hs; cases hs) fun hl => ?_
    rw [hslot s hl] at hs ⊢
    exact hi.completed s hs
  · intro s hl hm
    rw [hemit] at hm
    rw [hslot s hl]
    exact hi.skip s (hlive hl) hm
  · intro s p hp
    refine hblank (fun hb => by rw [hb] at hp; cases hp) fun hl => ?_
    rw [hslot s hl] at hp
    exact ⟨(hi.observed s p hp).1, (hi.observed s p hp).2.mono (by rw [hev])⟩

theorem VoteInv.prune (hi : VoteInv desc past st) (upToSlot : ℕ) :
    VoteInv desc past (cleanupSlots desc st upToSlot) := by
  obtain ⟨k, -, hoff, -⟩ := cleanupSlots_windows hi.aligned upToSlot
  obtain ⟨haligned, hdropped, -⟩ := cleanupSlots_kept hi.aligned hi.dropped upToSlot
  have hfin := cleanupSlots_finalized desc st upToSlot
  refine hi.dropWindows haligned (hfin.symm ▸ hdropped) ?_ (cleanupSlots_events desc st upToSlot)
    (cleanupSlots_slotAt hi.aligned upToSlot)
  omega

theorem VoteInv.step (hi : VoteInv desc E.past st) (h : Step desc E st st') :
    VoteInv desc E.past st' := by
  cases h with
  | chain h => exact hi.chainStep h
  | event e he =>
    exact hi.of_windows_eq rfl rfl (List.prefix_append _ _) (emitted_pushEventBack he) le_rfl
  | votes slot sv _ _ => exact hi.of_windows_eq rfl rfl List.prefix_rfl rfl le_rfl
  | finalized slot =>
    refine hi.of_windows_eq ?_ ?_ ?_ ?_ ?_
    · rw [advanceFinalized_eq_with]
    · rw [advanceFinalized_eq_with]
    · rw [advanceFinalized_events]
    · exact emitted_of_events (advanceFinalized_events st slot)
    · rw [advanceFinalized_finalized]
      exact le_max_left _ _
  | prune upToSlot => exact hi.prune upToSlot

theorem VoteInv.steps (hi : VoteInv desc E.past st) (h : Steps desc E st st') :
    VoteInv desc E.past st' := by
  induction h with
  | refl => exact hi
  | tail _ hstep ih => exact ih.step hstep

/-- What the event stream of one state machine says about its own votes. A
finalize vote follows a notarize vote for the same block, and follows the
announcement of that block. -/
structure LocalVoteSafety (events : List SimplexEvent) : Prop where
  notarize_once : ∀ s h h' pre post, events = pre ++ .broadcastVote (.notarize ⟨s, h⟩) :: post →
      SimplexEvent.broadcastVote (.notarize ⟨s, h'⟩) ∉ pre
  finalize_once : ∀ s h h' pre post, events = pre ++ .broadcastVote (.finalize ⟨s, h⟩) :: post →
      SimplexEvent.broadcastVote (.finalize ⟨s, h'⟩) ∉ pre
  finalize_notarized : ∀ s h pre post, events = pre ++ .broadcastVote (.finalize ⟨s, h⟩) :: post →
      SimplexEvent.broadcastVote (.notarize ⟨s, h⟩) ∈ pre
  finalize_observed : ∀ s h pre post, events = pre ++ .broadcastVote (.finalize ⟨s, h⟩) :: post →
      (∃ c, SimplexEvent.notarizationReached s h c ∈ pre) ∨
        ∃ id c, SimplexEvent.blockFinalized s h id c ∈ pre
  finalize_or_skip : ∀ s h, SimplexEvent.broadcastVote (.finalize ⟨s, h⟩) ∈ events →
    SimplexEvent.broadcastVote (.skip ⟨s⟩) ∉ events

theorem concat_eq_append_cons {l pre post : List α} {e x : α} (h : l ++ [e] = pre ++ x :: post) :
    (∃ post', l = pre ++ x :: post') ∨ pre = l ∧ x = e := by
  rcases List.eq_nil_or_concat post with rfl | ⟨post', y, rfl⟩
  · obtain ⟨hpre, hx⟩ := List.append_inj' h rfl
    exact Or.inr ⟨hpre.symm, (List.cons.inj hx).1.symm⟩
  · have h' : l ++ [e] = (pre ++ x :: post') ++ [y] := by
      rw [h, List.append_assoc, List.concat_eq_append]
      rfl
    exact Or.inl ⟨post', (List.append_inj' h' rfl).1⟩

/-- One more event: what has to be checked for each kind of vote. -/
theorem LocalVoteSafety.append {events : List SimplexEvent} (hs : LocalVoteSafety events)
    {e : SimplexEvent} (hnotarize : ∀ s h, e = .broadcastVote (.notarize ⟨s, h⟩) →
      ∀ h', SimplexEvent.broadcastVote (.notarize ⟨s, h'⟩) ∉ events)
    (hfinalize : ∀ s h, e = .broadcastVote (.finalize ⟨s, h⟩) →
      (∀ h', SimplexEvent.broadcastVote (.finalize ⟨s, h'⟩) ∉ events) ∧
      SimplexEvent.broadcastVote (.notarize ⟨s, h⟩) ∈ events ∧
      ((∃ c, SimplexEvent.notarizationReached s h c ∈ events) ∨
        ∃ id c, SimplexEvent.blockFinalized s h id c ∈ events) ∧
      SimplexEvent.broadcastVote (.skip ⟨s⟩) ∉ events)
    (hskip : ∀ s, e = .broadcastVote (.skip ⟨s⟩) →
      ∀ h, SimplexEvent.broadcastVote (.finalize ⟨s, h⟩) ∉ events) :
    LocalVoteSafety (events ++ [e]) := by
  refine ⟨?_, ?_, ?_, ?_, ?_⟩
  · intro s h h' pre post heq
    rcases concat_eq_append_cons heq with ⟨post', hold⟩ | ⟨rfl, hx⟩
    · exact hs.notarize_once s h h' pre post' hold
    · exact hnotarize s h hx.symm h'
  · intro s h h' pre post heq
    rcases concat_eq_append_cons heq with ⟨post', hold⟩ | ⟨rfl, hx⟩
    · exact hs.finalize_once s h h' pre post' hold
    · exact (hfinalize s h hx.symm).1 h'
  · intro s h pre post heq
    rcases concat_eq_append_cons heq with ⟨post', hold⟩ | ⟨rfl, hx⟩
    · exact hs.finalize_notarized s h pre post' hold
    · exact (hfinalize s h hx.symm).2.1
  · intro s h pre post heq
    rcases concat_eq_append_cons heq with ⟨post', hold⟩ | ⟨rfl, hx⟩
    · exact hs.finalize_observed s h pre post' hold
    · exact (hfinalize s h hx.symm).2.2.1
  · -- the new event may be either of the two votes
    intro s h hf hk
    rcases List.mem_append.mp hf with hf | hf
    · rcases List.mem_append.mp hk with hk | hk
      · exact hs.finalize_or_skip s h hf hk
      · exact hskip s (List.mem_singleton.mp hk).symm h hf
    · have hx := (List.mem_singleton.mp hf).symm
      refine (hfinalize s h hx).2.2.2 (mem_concat_of_ne hk ?_)
      rw [hx]
      intro he
      cases he

section

variable (hi : VoteInv desc [] st) (hs : LocalVoteSafety st.events)
include hi hs

theorem LocalVoteSafety.localStep (h : LocalStep desc E st st') : LocalVoteSafety st'.events := by
  have hcast {v : Vote} (hv : SimplexEvent.broadcastVote v ∈ st.events) :
      v ∈ votesOf [] ++ st.emitted :=
    List.mem_append_right _ ((mem_emitted_iff st v).mpr hv)
  cases h with
  | quiet h =>
    rw [h.events]
    exact hs
  | pending c _ h =>
    rw [h.2.events]
    exact hs
  | notarize s c _ hfin hvoted _ h =>
    rw [h.2.events]
    refine hs.append ?_ nofun nofun
    rintro s1 h1 he h' hm
    cases he
    have hflag := hi.notarize s h' (hi.live hfin) (hcast hm)
    rw [hvoted] at hflag
    cases hflag
  | finalize s hash ht hobs hnotar hcompl hskip h =>
    rw [h.2.events]
    obtain ⟨p, hp, hhash⟩ := hobs
    obtain ⟨q, hq, hqhash⟩ := hnotar
    refine hs.append nofun ?_ nofun
    rintro s1 h1 he
    cases he
    refine ⟨?_, ?_, ?_, ?_⟩
    · -- a finalize vote for the slot would have completed it
      intro h' hm
      have hflag := hi.completed s (hi.finalize s h' ht.1 (hcast hm))
      rw [hcompl] at hflag
      cases hflag
    · have hm := (hi.notarized s q hq).2
      rw [hqhash] at hm
      exact (mem_emitted_iff st _).mp hm
    · obtain ⟨hslot, hann⟩ := hi.observed s p hp
      unfold Announced at hann
      rw [hslot, hhash] at hann
      exact hann
    · intro hm
      have hflag := hi.skip s ht.1 (hcast hm)
      rw [hskip] at hflag
      cases hflag
  | skip s _ ht hfinal h =>
    rw [h.2.events]
    refine hs.append nofun nofun ?_
    rintro s1 he h' hm
    cases he
    have hflag := hi.finalize s h' ht.1 (hcast hm)
    rw [hfinal] at hflag
    cases hflag

theorem LocalVoteSafety.step (h : Step desc E st st') : LocalVoteSafety st'.events := by
  cases h with
  | chain h =>
    cases h with
    | vote h => exact hs.localStep hi h
    | cursor c _ => exact hs
    | base n b _ _ h | observe p _ _ h => rw [h.2.events]; exact hs
    | skip x _ _ h =>
      obtain ⟨st1, hq | hu, rfl⟩ := h
      · dsimp only
        rw [hq.events]
        exact hs
      · dsimp only
        rw [hu.2.events]
        exact hs
  | event e he =>
    have hvote (v : Vote) : e ≠ .broadcastVote v := by
      rintro rfl
      exact he
    exact hs.append (fun _ _ hv => absurd hv (hvote _)) (fun _ _ hv => absurd hv (hvote _))
      fun _ hv => absurd hv (hvote _)
  | votes slot sv _ _ => exact hs
  | finalized slot =>
    rw [advanceFinalized_events]
    exact hs
  | prune upToSlot =>
    rw [cleanupSlots_events]
    exact hs

end

theorem LocalVoteSafety.steps (hpast : E.past = []) (hi : VoteInv desc [] st)
    (hs : LocalVoteSafety st.events) (h : Steps desc E st st') : LocalVoteSafety st'.events := by
  have hi' : VoteInv desc E.past st := hpast ▸ hi
  induction h with
  | refl => exact hs
  | tail hsteps hstep ih => exact ih.step (hpast ▸ hi'.steps hsteps) hstep

def Evidence.any (past : List SimplexEvent) : Evidence where
  cand _ := True
  notar _ _ := True
  final _ _ := True
  skip _ := True
  votes _ _ := True
  past := past

section

variable (past : List SimplexEvent) (desc : SessionDescription)

theorem Evidence.any_sound : (Evidence.any past).Sound desc :=
  ⟨⟨fun _ => trivial, fun _ _ _ _ _ => trivial⟩, fun _ _ _ _ _ _ _ => trivial,
    fun _ _ _ _ _ _ _ => trivial, fun _ _ _ _ => trivial⟩

theorem Evidence.any_admits (op : Op) : (Evidence.any past).Admits desc op := by
  cases op with
  | onCandidate c => exact fun _ => trivial
  | onVote idx vote signature raw => exact fun _ _ _ => trivial
  | setNotarizeCertificate c | setFinalizeCertificate c | setSkipCertificate c =>
    exact ⟨trivial, fun _ _ => trivial⟩
  | checkAll | cleanupSlots upToSlot => trivial

end

theorem runOps_steps (hs : E.Sound desc) (hg : Grounded E st) {ops : List (ℕ × Op)}
    (ha : ∀ op ∈ ops, E.Admits desc op.2) (h : runOps desc st ops = .ok st') :
    Steps desc E st st' := by
  unfold runOps at h
  induction ops generalizing st with
  | nil =>
    cases h
    exact ReflTransGen.refl
  | cons op ops ih =>
    rw [List.foldlM_cons] at h
    cases hop : applyOp desc op.1 st op.2 with
    | error p => rw [hop] at h; cases h
    | ok st1 =>
      rw [hop] at h
      have hsteps := applyOp_steps hs hg (ha op List.mem_cons_self) hop
      exact hsteps.trans (ih (hg.steps hsteps)
        (fun op' h' => ha op' (List.mem_cons_of_mem op h')) h)

section

variable (desc : SessionDescription)

theorem new_update : SlotUpdate desc { firstBlockTimeout := desc.firstBlockTimeout } (new desc) 0
      fun sl => { sl with availableBase := some none } := by
  have hidx : desc.windowIdx 0 = 0 := Nat.zero_div _
  have hq := ensureWindowExists_quiet desc { firstBlockTimeout := desc.firstBlockTimeout } 0
    .boundedByHorizon
  have ht : Tracked desc (ensureWindowExists desc { firstBlockTimeout := desc.firstBlockTimeout } 0
      .boundedByHorizon) 0 := by
    have h := (ensureWindowExists_tracked_iff desc
      { firstBlockTimeout := desc.firstBlockTimeout } 0 .boundedByHorizon).mpr
      ⟨Nat.zero_le _, Or.inr (Or.inr (by rw [hidx]; exact Nat.zero_le _))⟩
    rwa [hidx] at h
  exact hq.slotUpdate (modifySlot_update ht _)

theorem blank_slotAt (s : ℕ) : slotAt desc { firstBlockTimeout := desc.firstBlockTimeout } s = {} :=
  slotAt_of_not_tracked fun ht => absurd ht.2 (Nat.not_lt_zero _)

theorem new_slotAt (s : ℕ) :
    slotAt desc (new desc) s = if s = 0 then { availableBase := some none } else {} := by
  split_ifs with hs
  · rw [hs, (new_update desc).slotAt_self, blank_slotAt]
  · rw [(new_update desc).slotAt_ne hs, blank_slotAt]

theorem new_voteInv : VoteInv desc [] (new desc) := by
  have h := (new_update desc).2
  have hblank : StartsAligned desc { firstBlockTimeout := desc.firstBlockTimeout } :=
    nofun
  have hflags (s : ℕ) : (slotAt desc (new desc) s).votedNotar = none ∧
      (slotAt desc (new desc) s).votedFinal = false ∧
      (slotAt desc (new desc) s).observedNotarCertificate = none := by
    rw [new_slotAt]
    split_ifs <;> exact ⟨rfl, rfl, rfl⟩
  have hemit (v : Vote) : v ∉ votesOf [] ++ (new desc).emitted := by
    unfold emitted
    rw [h.events]
    exact List.not_mem_nil
  refine ⟨h.aligned hblank, ?_, ?_, ?_, ?_, ?_, ?_, ?_⟩
  · rw [h.offset, h.finalized]
    exact (Nat.zero_mul _).le
  · exact fun s hash _ hm => absurd hm (hemit _)
  · intro s p hp
    rw [(hflags s).1] at hp
    cases hp
  · exact fun s hash _ hm => absurd hm (hemit _)
  · intro s hs
    rw [(hflags s).2.1] at hs
    cases hs
  · exact fun s _ hm => absurd hm (hemit _)
  · intro s p hp
    rw [(hflags s).2.2] at hp
    cases hp

theorem new_grounded (E : Evidence) : Grounded E (new desc) := by
  have h : (new desc).slotVotes = ∅ := (new_update desc).2.slotVotes
  refine ⟨fun s sv hs => ?_, fun s sv c hs => ?_⟩
  · rw [h, AList.lookup_empty] at hs
    cases hs
  · rw [h, AList.lookup_empty] at hs
    cases hs

end

theorem LocalVoteSafety.nil : LocalVoteSafety [] := by
  -- an empty stream has no position to speak about
  have hne (pre post : List SimplexEvent) (e : SimplexEvent) : [] ≠ pre ++ e :: post :=
    (List.append_ne_nil_of_right_ne_nil _ (List.cons_ne_nil _ _)).symm
  refine ⟨?_, ?_, ?_, ?_, ?_⟩
  · intro s h h' pre post heq
    exact absurd heq (hne _ _ _)
  · intro s h h' pre post heq
    exact absurd heq (hne _ _ _)
  · intro s h pre post heq
    exact absurd heq (hne _ _ _)
  · intro s h pre post heq
    exact absurd heq (hne _ _ _)
  · intro s h hf
    exact absurd hf List.not_mem_nil

theorem new_localVoteSafety (desc : SessionDescription) : LocalVoteSafety (new desc).events := by
  rw [(new_update desc).2.events]
  exact LocalVoteSafety.nil

/-- Local vote safety of every run from `SimplexState::new`, whatever the inputs. -/
theorem runOps_localVoteSafety (desc : SessionDescription) (ops : List (ℕ × Op))
    (st : SimplexState) (h : runOps desc (new desc) ops = .ok st) : LocalVoteSafety st.events := by
  have hsteps : Steps desc (Evidence.any []) (new desc) st :=
    runOps_steps (Evidence.any_sound [] desc) (new_grounded desc _)
      (fun op _ => Evidence.any_admits [] desc op.2) h
  exact (new_localVoteSafety desc).steps rfl (new_voteInv desc) hsteps

/-- No step moves one of the two boundaries back or begins a startup replay. -/
theorem Step.boundaries_le (h : Step desc E st st') :
    st.firstNonFinalizedSlot ≤ st'.firstNonFinalizedSlot ∧
      st.firstNonProgressedSlot ≤ st'.firstNonProgressedSlot ∧
      st'.startupReplayActive = st.startupReplayActive := by
  cases h with
  | chain h =>
    cases h with
    | vote h => exact ⟨h.sameChain.finalized.ge, h.sameChain.progressed.ge, h.sameChain.replay⟩
    | cursor c hc => exact ⟨le_rfl, hc, rfl⟩
    | base n b _ _ h | observe p _ _ h =>
      exact ⟨h.2.finalized.ge, h.2.progressed.ge, h.2.replay⟩
    | skip x _ _ h =>
      obtain ⟨st1, hq | hu, rfl⟩ := h
      · exact ⟨hq.finalized.ge, hq.progressed.ge, hq.replay⟩
      · exact ⟨hu.2.finalized.ge, hu.2.progressed.ge, hu.2.replay⟩
  | event e _ | votes slot sv _ _ => exact ⟨le_rfl, le_rfl, rfl⟩
  | finalized slot =>
    rw [advanceFinalized_finalized, advanceFinalized_eq_with]
    exact ⟨le_max_left _ _, le_rfl, rfl⟩
  | prune upToSlot =>
    unfold cleanupSlots
    dsimp only
    split_ifs <;> exact ⟨le_rfl, le_rfl, rfl⟩

theorem Steps.boundaries_le (h : Steps desc E st st') :
    st.firstNonFinalizedSlot ≤ st'.firstNonFinalizedSlot ∧
      st.firstNonProgressedSlot ≤ st'.firstNonProgressedSlot ∧
      st'.startupReplayActive = st.startupReplayActive := by
  induction h with
  | refl => exact ⟨le_rfl, le_rfl, rfl⟩
  | tail _ hstep ih =>
    obtain ⟨hfinalized, hprogressed, hreplay⟩ := hstep.boundaries_le
    exact ⟨ih.1.trans hfinalized, ih.2.1.trans hprogressed, hreplay.trans ih.2.2⟩

/-- Without a replay to finish, `start` only arms the timeouts. -/
theorem applySessionOp_steps {now : ℕ} {op : SessionOp} (hs : E.Sound desc) (hg : Grounded E st)
    (hreplay : st.startupReplayActive = false) (ha : ∀ o, op = .live o → E.Admits desc o)
    (h : applySessionOp desc now st op = .ok st') : Steps desc E st st' := by
  cases op with
  | start =>
    simp only [applySessionOp, finishStartupReplay, hreplay, Bool.not_false, if_true] at h
    cases h
    exact Steps.of_local (LocalSteps.of_quiet
      (quiet_of_windows_eq _ _ rfl rfl rfl rfl rfl rfl rfl rfl))
  | live op => exact applyOp_steps hs hg (ha op rfl) h

theorem runSession_steps {ops : List (ℕ × SessionOp)} (hg : Grounded (Evidence.any []) st)
    (hreplay : st.startupReplayActive = false) (h : runSession desc st ops = .ok st') :
    Steps desc (Evidence.any []) st st' := by
  unfold runSession at h
  induction ops generalizing st with
  | nil =>
    cases h
    exact ReflTransGen.refl
  | cons op ops ih =>
    rw [List.foldlM_cons] at h
    cases hop : applySessionOp desc op.1 st op.2 with
    | error p => rw [hop] at h; cases h
    | ok st1 =>
      rw [hop] at h
      have hsteps := applySessionOp_steps (Evidence.any_sound [] desc) hg hreplay
        (fun o _ => Evidence.any_admits [] desc o) hop
      exact hsteps.trans (ih (hg.steps hsteps) (hsteps.boundaries_le.2.2.trans hreplay) h)

/-- Whatever follows a run of a session, no event is withdrawn and neither the
finalized boundary nor the progress cursor moves back. -/
theorem runSession_monotone (desc : SessionDescription) (ops ops' : List (ℕ × SessionOp))
    (st st' : SimplexState) (h : runSession desc (new desc) ops = .ok st)
    (h' : runSession desc st ops' = .ok st') : st.events <+: st'.events ∧
      st.firstNonFinalizedSlot ≤ st'.firstNonFinalizedSlot ∧
      st.firstNonProgressedSlot ≤ st'.firstNonProgressedSlot := by
  have hnew : (new desc).startupReplayActive = false := (new_update desc).2.replay
  have hg := new_grounded desc (Evidence.any [])
  have hsteps := runSession_steps hg hnew h
  have hsteps' := runSession_steps (hg.steps hsteps) (hsteps.boundaries_le.2.2.trans hnew) h'
  exact ⟨hsteps'.events_prefix, hsteps'.boundaries_le.1, hsteps'.boundaries_le.2.1⟩

def soloSession (slots desync : ℕ) (hslots : 0 < slots) : SessionDescription where
  weights := [1]
  slotsPerLeaderWindow := slots
  maxLeaderWindowDesync := desync
  targetRate := 1
  firstBlockTimeout := 1
  backoff := id
  nodes_pos := Nat.zero_lt_one
  slots_pos := hslots
  rate_pos := Nat.zero_lt_one

def soloSignatures : List VoteSignature := [⟨0, []⟩]

def returnsWith (r : Except Panic SimplexState) (check : SimplexState → Bool) : Bool :=
  match r with
  | .ok st => check st
  | .error _ => false

theorem exists_of_returnsWith {r : Except Panic SimplexState} {check : SimplexState → Bool}
    (h : returnsWith r check = true) : ∃ st, r = .ok st ∧ check st = true := by
  cases r with
  | error p => cases h
  | ok st => exact ⟨st, rfl, h⟩

/-- Slot 2 is skipped before its base is known and holds a pending block; the
notarization of slot 1 enters window 1 and seeds slot 2, which is retried only
inside the finalization certificate of slot 2. -/
def seededSlotRun : List (ℕ × Op) :=
  let block : BlockIdExt := ⟨0, 0, 0, 0, 0⟩
  [(0, .setSkipCertificate ⟨⟨0⟩, soloSignatures⟩),
    (0, .onCandidate ⟨⟨2, 7, block⟩, some ⟨1, 5, block⟩, 0⟩),
    (0, .setSkipCertificate ⟨⟨2⟩, soloSignatures⟩),
    (0, .setNotarizeCertificate ⟨⟨1, 5⟩, soloSignatures⟩),
    (0, .setFinalizeCertificate ⟨⟨2, 7⟩, soloSignatures⟩)]

/-- A finalize vote with no notarization of its block, neither by certificate
nor by threshold: only the finalization certificate was seen. -/
theorem finalize_without_notarization :
    ∃ st, runOps (soloSession 2 1 Nat.two_pos) (new (soloSession 2 1 Nat.two_pos)) seededSlotRun =
        .ok st ∧ SimplexEvent.broadcastVote (.finalize ⟨2, 7⟩) ∈ st.events ∧
      ∀ c, SimplexEvent.notarizationReached 2 7 c ∉ st.events := by
  have hrun : returnsWith (runOps (soloSession 2 1 Nat.two_pos)
      (new (soloSession 2 1 Nat.two_pos)) seededSlotRun) (fun st =>
        decide (SimplexEvent.broadcastVote (.finalize ⟨2, 7⟩) ∈ st.events) &&
          st.events.all fun e => !SimplexEvent.notarizes 2 7 e) = true := by
    decide +kernel
  obtain ⟨st, hst, hcheck⟩ := exists_of_returnsWith hrun
  rw [Bool.and_eq_true, decide_eq_true_eq, List.all_eq_true] at hcheck
  refine ⟨st, hst, hcheck.1, fun c hc => ?_⟩
  have hno := hcheck.2 _ hc
  cases hno

/-- The same run is safe in the sense above. -/
theorem seededSlotRun_safe :
    ∃ st, runOps (soloSession 2 1 Nat.two_pos) (new (soloSession 2 1 Nat.two_pos)) seededSlotRun =
        .ok st ∧ LocalVoteSafety st.events := by
  have hrun : returnsWith (runOps (soloSession 2 1 Nat.two_pos)
      (new (soloSession 2 1 Nat.two_pos)) seededSlotRun) (fun _ => true) = true := by
    decide +kernel
  obtain ⟨st, hst, -⟩ := exists_of_returnsWith hrun
  exact ⟨st, hst, runOps_localVoteSafety _ _ st hst⟩

/-- A session that starts and then runs into the timeouts of its first window. -/
def skippingSession : List (ℕ × SessionOp) :=
  [(0, .start), (0, .live (.setSkipCertificate ⟨⟨0⟩, soloSignatures⟩)), (5, .live .checkAll)]

theorem skippingSession_monotone : ∃ st st',
    runSession (soloSession 2 1 Nat.two_pos) (new (soloSession 2 1 Nat.two_pos))
        (skippingSession.take 2) = .ok st ∧
      runSession (soloSession 2 1 Nat.two_pos) st (skippingSession.drop 2) = .ok st' ∧
      SimplexEvent.broadcastVote (.skip ⟨1⟩) ∈ st'.events ∧
      st.events <+: st'.events ∧ st.firstNonFinalizedSlot ≤ st'.firstNonFinalizedSlot ∧
      st.firstNonProgressedSlot ≤ st'.firstNonProgressedSlot := by
  have hrun : returnsWith (runSession (soloSession 2 1 Nat.two_pos)
      (new (soloSession 2 1 Nat.two_pos)) (skippingSession.take 2)) (fun st => returnsWith
        (runSession (soloSession 2 1 Nat.two_pos) st (skippingSession.drop 2)) fun st' =>
          decide (SimplexEvent.broadcastVote (.skip ⟨1⟩) ∈ st'.events)) = true := by
    decide +kernel
  obtain ⟨st, hst, hrest⟩ := exists_of_returnsWith hrun
  obtain ⟨st', hst', hvote⟩ := exists_of_returnsWith hrest
  exact ⟨st, st', hst, hst', of_decide_eq_true hvote, runSession_monotone _ _ _ st st' hst hst'⟩

end SimplexState

end TonNode.Simplex
