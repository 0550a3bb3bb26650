import TonNode.SimplexVoteSafety

/-! Justified bases: whatever the order of certificates and whatever windows are
refused, a base known to a state is a certified block and only slots with a skip
certificate lie between that block and the slot. -/
namespace TonNode.Simplex.SimplexState

open Relation

variable {desc : SessionDescription} {E E' : Evidence} {st st' : SimplexState} {slot : ℕ}

def BaseOk (E : Evidence) (n : ℕ) : CandidateParent → Prop
  | none => ∀ k, k < n → E.skip k
  | some p => (E.notar p.slot p.hash ∨ E.final p.slot p.hash) ∧ ∀ k, p.slot < k → k < n → E.skip k

structure Justified (desc : SessionDescription) (E : Evidence) (st : SimplexState) : Prop where
  announced : ∀ p, Announced E.past st p → E.notar p.slot p.hash ∨ E.final p.slot p.hash
  skipped : ∀ s, (slotAt desc st s).skipped = true → E.skip s
  intervals : ∀ x, st.firstNonFinalizedSlot ≤ x → (slotAt desc st x).skipped = true →
    ∀ y, x ≤ y → (∀ z, x < z → z ≤ y → z ∉ st.skipIntervals) → E.skip y
  base : ∀ n b, (slotAt desc st n).availableBase = some b → BaseOk E n b
  pending : ∀ s c, (slotAt desc st s).pendingBlock = some c → E.cand c ∧ c.id.slot = s
  notarized : ∀ s h, Vote.notarize ⟨s, h⟩ ∈ st.emitted →
    ∃ c, E.cand c ∧ c.id.slot = s ∧ c.id.hash = h ∧ BaseOk E s c.parent

structure Evidence.Le (E E' : Evidence) : Prop where
  cand : ∀ c, E.cand c → E'.cand c
  notar : ∀ s h, E.notar s h → E'.notar s h
  final : ∀ s h, E.final s h → E'.final s h
  skip : ∀ s, E.skip s → E'.skip s
  votes : ∀ s sv, E.votes s sv → E'.votes s sv
  past : E'.past = E.past

variable {n : ℕ} {b : CandidateParent}

theorem BaseOk.mono (h : BaseOk E n b) (hle : E.Le E') : BaseOk E' n b := by
  cases b with
  | none => exact fun k hk => hle.skip k (h k hk)
  | some p => exact ⟨h.1.imp (hle.notar _ _) (hle.final _ _),
      fun k hk hkn => hle.skip k (h.2 k hk hkn)⟩

theorem BaseOk.earlier {m : ℕ} (h : BaseOk E n b) (hmn : m ≤ n) : BaseOk E m b := by
  cases b with
  | none => exact fun k hk => h k (by omega)
  | some p => exact ⟨h.1, fun k hk hkm => h.2 k hk (by omega)⟩

variable {x : ℕ}

theorem BaseOk.across (h : BaseOk E x b) (hx : E.skip x)
    (hbetween : ∀ k, x < k → k < n → E.skip k) : BaseOk E n b := by
  have hfrom (k : ℕ) (hxk : x ≤ k) (hkn : k < n) : E.skip k := by
    rcases Nat.eq_or_lt_of_le hxk with rfl | hlt
    · exact hx
    · exact hbetween k hlt hkn
  cases b with
  | none =>
    intro k hk
    rcases Nat.lt_or_ge k x with hlt | hge
    · exact h k hlt
    · exact hfrom k hge hk
  | some p =>
    refine ⟨h.1, fun k hpk hk => ?_⟩
    rcases Nat.lt_or_ge k x with hlt | hge
    · exact h.2 k hpk hlt
    · exact hfrom k hge hk

theorem Justified.mono (hj : Justified desc E st) (hle : E.Le E') : Justified desc E' st where
  announced p hp := (hj.announced p (hle.past ▸ hp)).imp (hle.notar _ _) (hle.final _ _)
  skipped s hs := hle.skip s (hj.skipped s hs)
  intervals x hx hs y hxy hz := hle.skip y (hj.intervals x hx hs y hxy hz)
  base n b hb := (hj.base n b hb).mono hle
  pending s c hc := (hj.pending s c hc).imp_left (hle.cand c)
  notarized s h hv := by
    obtain ⟨c, hc, hs, hh, hb⟩ := hj.notarized s h hv
    exact ⟨c, hle.cand c hc, hs, hh, hb.mono hle⟩

theorem Grounded.mono (hg : Grounded E st) (hle : E.Le E') : Grounded E' st :=
  ⟨fun s sv hs => hle.votes s sv (hg.votes s sv hs), hle.past ▸ hg.certs⟩

theorem announced_of_vote {v : Vote} {p : CandidateParentInfo}
    (h : Announced E.past st' p) (hev : st'.events = st.events ++ [.broadcastVote v]) :
    Announced E.past st p := by
  unfold Announced at h ⊢
  rw [hev, ← List.append_assoc] at h
  refine h.imp ?_ ?_
  · rintro ⟨c, hc⟩
    exact ⟨c, mem_concat_of_ne hc (by intro he; cases he)⟩
  · rintro ⟨id, c, hc⟩
    exact ⟨id, c, mem_concat_of_ne hc (by intro he; cases he)⟩

section

variable (hj : Justified desc E st)
include hj

theorem Justified.frame (hev : st'.events = st.events) (hslots : slotAt desc st' = slotAt desc st)
    (hfin : st'.firstNonFinalizedSlot = st.firstNonFinalizedSlot)
    (hint : st'.skipIntervals = st.skipIntervals) : Justified desc E st' := by
  refine ⟨?_, ?_, ?_, ?_, ?_, ?_⟩
  · intro p hp
    unfold Announced at hp
    rw [hev] at hp
    exact hj.announced p hp
  · rw [hslots]; exact hj.skipped
  · rw [hslots, hfin, hint]; exact hj.intervals
  · rw [hslots]; exact hj.base
  · rw [hslots]; exact hj.pending
  · rw [emitted_of_events hev]; exact hj.notarized

theorem Justified.quiet (h : Quiet desc st st') : Justified desc E st' :=
  hj.frame h.events h.slots h.finalized h.intervals

theorem Justified.update {f : Slot → Slot} (h : SlotUpdate desc st st' slot f)
    (hskipped : (f (slotAt desc st slot)).skipped = (slotAt desc st slot).skipped)
    (hbase : ∀ b, (f (slotAt desc st slot)).availableBase = some b → BaseOk E slot b)
    (hpending : ∀ c, (f (slotAt desc st slot)).pendingBlock = some c →
      E.cand c ∧ c.id.slot = slot) : Justified desc E st' := by
  have hflag := h.field Slot.skipped hskipped
  refine ⟨?_, ?_, ?_, ?_, ?_, ?_⟩
  · intro p hp
    unfold Announced at hp
    rw [h.2.events] at hp
    exact hj.announced p hp
  · intro s hs
    rw [hflag] at hs
    exact hj.skipped s hs
  · intro x hx hs
    rw [hflag] at hs
    rw [h.2.finalized] at hx
    rw [h.2.intervals]
    exact hj.intervals x hx hs
  · exact h.forall_slots (P := fun n sl => ∀ b, sl.availableBase = some b → BaseOk E n b)
      hbase hj.base
  · exact h.forall_slots (P := fun s sl => ∀ c, sl.pendingBlock = some c →
      E.cand c ∧ c.id.slot = s) hpending hj.pending
  · rw [emitted_of_events h.2.events]
    exact hj.notarized

theorem Justified.broadcast (v : Vote) (hv : ∀ s h, v = .notarize ⟨s, h⟩ →
      ∃ c, E.cand c ∧ c.id.slot = s ∧ c.id.hash = h ∧ BaseOk E s c.parent) :
    Justified desc E (st.broadcastVote v) := by
  refine ⟨fun p hp => hj.announced p (announced_of_vote hp rfl), hj.skipped, hj.intervals, hj.base,
    hj.pending, fun s h hm => ?_⟩
  rw [emitted_broadcastVote] at hm
  rcases List.mem_append.mp hm with hm | hm
  · exact hj.notarized s h hm
  · exact hv s h (List.mem_singleton.mp hm).symm

theorem Justified.localStep (h : LocalStep desc E st st') : Justified desc E st' := by
  cases h with
  | quiet h => exact hj.quiet h
  | pending c hc h =>
    refine hj.update h rfl (hj.base _) fun c' hc' => ?_
    obtain rfl := Option.some.inj hc'
    exact ⟨hc, rfl⟩
  | notarize s c hc _ _ hbase h =>
    have hcand : E.cand c ∧ c.id.slot = s := hc.elim id (hj.pending s c)
    have hb := hj.base s c.parent hbase
    refine (hj.broadcast _ fun s1 h1 he => ?_).update h rfl (hj.base _) nofun
    cases he
    exact ⟨c, hcand.1, hcand.2, rfl, hb⟩
  | finalize s hash _ _ _ _ _ h | skip s _ _ _ h =>
    exact (hj.broadcast _ fun _ _ he => by cases he).update h rfl (hj.base _) (hj.pending _)

end

section

variable (hj : Justified desc E st)
include hj

/-- Every slot the search passes over has a skip certificate. -/
theorem Justified.nextFrom (h : NextFrom desc st x n) : ∀ k, x < k → k < n → E.skip k := by
  obtain ⟨-, -, hall | ⟨hsucc, hlow⟩⟩ := h
  · exact fun k hk hkn => hj.skipped k (hall k hk hkn).2
  · -- from a skipped successor up to the next boundary
    intro k hk hkn
    refine hj.intervals (x + 1) hsucc.1 hsucc.2 k hk fun z hz hzk hmem => ?_
    have hle := (lowerBound_spec hlow).2.2 _ hmem hz.le
    omega

theorem Justified.baseFrom (h : BaseFrom desc E st n b) : BaseOk E n b := by
  rcases h with ⟨p, rfl, hp, -, hn⟩ | ⟨x, hx, -, hb, hn⟩ | ⟨hle, hb⟩
  · exact ⟨hj.announced p hp, hj.nextFrom hn⟩
  · exact (hj.base x b hb).across hx (hj.nextFrom hn)
  · exact (hj.base _ b hb).earlier hle

theorem Justified.skipMark (hx : E.skip x) (hfin : st.firstNonFinalizedSlot ≤ x)
    (h : SkipMark desc st st' x) : Justified desc E st' := by
  obtain ⟨st1, hflag, rfl⟩ := h
  have hev : st1.events = st.events := hflag.elim (fun hq => hq.events) fun hu => hu.2.events
  -- a flag of the new table is old or is the flag of `x`
  have hold {s : ℕ} (hs : (slotAt desc st1 s).skipped = true) :
      s = x ∨ (slotAt desc st s).skipped = true := by
    by_cases hsx : s = x
    · exact Or.inl hsx
    · rw [hflag.slotAt_ne hsx] at hs
      exact Or.inr hs
  refine ⟨?_, ?_, ?_, ?_, ?_, ?_⟩
  · intro p hp
    unfold Announced at hp
    rw [hev] at hp
    exact hj.announced p hp
  · intro s hs
    rcases hold hs with rfl | hs
    · exact hx
    · exact hj.skipped s hs
  · intro s hsfin hs y hsy hnone
    have hsfin' : st.firstNonFinalizedSlot ≤ s := by
      have hk := hflag.keepsVotes.finalized
      dsimp only at hsfin
      omega
    -- boundaries other than `x` are still there
    have hkeep {z : ℕ} (hz : z ∈ st.skipIntervals) (hzx : z ≠ x) :
        z ∈ intervalsAfterSkip desc st x := by
      unfold intervalsAfterSkip
      split_ifs
      · exact Finset.mem_erase.mpr ⟨hzx, hz⟩
      · exact Finset.mem_insert_of_mem (Finset.mem_erase.mpr ⟨hzx, hz⟩)
    have hpast (hxy : x < y) (hsx : s ≤ x) : E.skip y := by
      -- `x + 1` is not a boundary, so it was skipped already
      have hsucc : (slotAt desc st (x + 1)).skipped = true := by
        by_contra hno
        apply hnone (x + 1) (by omega) (by omega)
        unfold intervalsAfterSkip
        rw [if_neg hno]
        exact Finset.mem_insert_self _ _
      refine hj.intervals (x + 1) (by omega) hsucc y hxy fun z hz hzy hmem => ?_
      exact hnone z (by omega) hzy (hkeep hmem (by omega))
    rcases Nat.lt_trichotomy y x with hyx | rfl | hxy
    · have hsflag := (hold hs).resolve_left (by omega)
      refine hj.intervals s hsfin' hsflag y hsy fun z hz hzy hmem => ?_
      exact hnone z hz hzy (hkeep hmem (by omega))
    · exact hx
    · by_cases hsx : s ≤ x
      · exact hpast hxy hsx
      · have hsflag := (hold hs).resolve_left (by omega)
        refine hj.intervals s hsfin' hsflag y hsy fun z hz hzy hmem => ?_
        exact hnone z hz hzy (hkeep hmem (by omega))
  · intro n b hb
    have hb' : (slotAt desc st1 n).availableBase = some b := hb
    rw [hflag.field Slot.availableBase (fun _ => rfl)] at hb'
    exact hj.base n b hb'
  · intro s c hc
    have hc' : (slotAt desc st1 s).pendingBlock = some c := hc
    rw [hflag.field Slot.pendingBlock (fun _ => rfl)] at hc'
    exact hj.pending s c hc'
  · intro s h hm
    unfold emitted at hm
    rw [hev] at hm
    exact hj.notarized s h hm

theorem Justified.chainStep (h : ChainStep desc E st st') : Justified desc E st' := by
  cases h with
  | vote h => exact hj.localStep h
  | cursor c _ => exact hj.frame rfl rfl rfl rfl
  | base n b _ hfrom h =>
    refine hj.update h rfl (fun b' hb' => ?_) (hj.pending n)
    obtain rfl := Option.some.inj hb'
    exact hj.baseFrom hfrom
  | observe p _ _ h => exact hj.update h rfl (hj.base p.slot) (hj.pending p.slot)
  | skip x hx hfin h => exact hj.skipMark hx hfin h

end

section

variable (hj : Justified desc E st)
include hj

theorem Justified.event {e : SimplexEvent} (he : E.event e) :
    Justified desc E (st.pushEventBack e) := by
  refine ⟨fun p hp => ?_, hj.skipped, hj.intervals, hj.base, hj.pending, ?_⟩
  · unfold Announced pushEventBack at hp
    rw [← List.append_assoc] at hp
    rcases hp with ⟨c, hc⟩ | ⟨id, c, hc⟩
    · rcases List.mem_append.mp hc with hc | hc
      · exact hj.announced p (Or.inl ⟨c, hc⟩)
      · rw [← List.mem_singleton.mp hc] at he
        exact Or.inl he
    · rcases List.mem_append.mp hc with hc | hc
      · exact hj.announced p (Or.inr ⟨id, c, hc⟩)
      · rw [← List.mem_singleton.mp hc] at he
        exact Or.inr he
  · rw [emitted_pushEventBack he]
    exact hj.notarized

theorem Justified.finalized (slot : ℕ) : Justified desc E (advanceFinalized st slot) := by
  unfold advanceFinalized
  split_ifs with h
  · refine ⟨hj.announced, hj.skipped, ?_, hj.base, hj.pending, hj.notarized⟩
    -- boundaries above the new first slot survive the pruning
    intro x hx hs y hxy hnone
    have hx' : slot + 1 ≤ x := hx
    refine hj.intervals x (by omega) hs y hxy fun z hz hzy hmem => hnone z hz hzy ?_
    exact Finset.mem_filter.mpr ⟨hmem, by omega⟩
  · exact hj

theorem Justified.prune (ha : StartsAligned desc st) (upToSlot : ℕ) :
    Justified desc E (cleanupSlots desc st upToSlot) := by
  have hev := cleanupSlots_events desc st upToSlot
  have hint : (cleanupSlots desc st upToSlot).skipIntervals = st.skipIntervals := by
    unfold cleanupSlots
    dsimp only
    split_ifs <;> rfl
  -- a slot of the pruned table is blank or as before
  have hslot (s : ℕ) : slotAt desc (cleanupSlots desc st upToSlot) s = {} ∨
      slotAt desc (cleanupSlots desc st upToSlot) s = slotAt desc st s := by
    by_cases hl : Live desc (cleanupSlots desc st upToSlot) s
    · exact Or.inr (cleanupSlots_slotAt ha upToSlot s hl)
    · exact Or.inl (cleanupSlots_slotAt_dropped upToSlot s hl)
  refine ⟨?_, ?_, ?_, ?_, ?_, ?_⟩
  · intro p hp
    unfold Announced at hp
    rw [hev] at hp
    exact hj.announced p hp
  · intro s hs
    rcases hslot s with hb | hb
    · rw [hb] at hs; cases hs
    · rw [hb] at hs; exact hj.skipped s hs
  · intro x hx hs
    rw [cleanupSlots_finalized] at hx
    rw [hint]
    rcases hslot x with hb | hb
    · rw [hb] at hs; cases hs
    · rw [hb] at hs; exact hj.intervals x hx hs
  · intro n b hn
    rcases hslot n with hb | hb
    · rw [hb] at hn; cases hn
    · rw [hb] at hn; exact hj.base n b hn
  · intro s c hc
    rcases hslot s with hb | hb
    · rw [hb] at hc; cases hc
    · rw [hb] at hc; exact hj.pending s c hc
  · rw [emitted_of_events hev]
    exact hj.notarized

theorem Justified.step (ha : StartsAligned desc st) (h : Step desc E st st') :
    Justified desc E st' := by
  cases h with
  | chain h => exact hj.chainStep h
  | event e he => exact hj.event he
  | votes slot sv _ _ => exact hj.frame rfl rfl rfl rfl
  | finalized slot => exact hj.finalized slot
  | prune upToSlot => exact hj.prune ha upToSlot

theorem Justified.steps (hi : VoteInv desc E.past st) (h : Steps desc E st st') :
    Justified desc E st' := by
  induction h with
  | refl => exact hj
  | tail hsteps hstep ih => exact ih.step (hi.steps hsteps).aligned hstep

end

theorem new_justified (desc : SessionDescription) (hpast : E.past = []) :
    Justified desc E (new desc) := by
  have hev : (new desc).events = [] := (new_update desc).2.events
  refine ⟨?_, ?_, ?_, ?_, ?_, ?_⟩
  · rintro p (⟨c, hc⟩ | ⟨id, c, hc⟩)
    · rw [hpast, hev] at hc; cases hc
    · rw [hpast, hev] at hc; cases hc
  · intro s hs
    rw [new_slotAt] at hs
    split_ifs at hs
  · intro x _ hs
    rw [new_slotAt] at hs
    split_ifs at hs
  · intro n b hb
    rw [new_slotAt] at hb
    split_ifs at hb with hn
    obtain rfl := Option.some.inj hb
    exact fun k hk => by omega
  · intro s c hc
    rw [new_slotAt] at hc
    split_ifs at hc
  · intro s h hm
    cases hm

end TonNode.Simplex.SimplexState
