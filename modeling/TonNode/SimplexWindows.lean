import TonNode.SimplexFsm

/-! The slot table. Leader windows are allocated and dropped lazily; seen as a
total map from slots to slot states (`slotAt`), allocation changes nothing and
an update changes one slot. -/
namespace TonNode.Simplex.SimplexState

variable (desc : SessionDescription) (st st' : SimplexState) (slot : ℕ)

def Tracked : Prop :=
  st.leaderWindowOffset ≤ desc.windowIdx slot ∧
    desc.windowIdx slot < st.leaderWindowOffset + st.leaderWindows.length

instance : Decidable (Tracked desc st slot) := inferInstanceAs (Decidable (_ ∧ _))

def slotAt : Slot :=
  (windowSlot desc st slot).getD {}

def StartsAligned : Prop :=
  ∀ i w, st.leaderWindows[i]? = some w → w.startSlot = desc.windowStart (st.leaderWindowOffset + i)

/-- `st'` is `st` with the slot table `slots`; windows are only added, and
everything outside the table and the bookkeeping fields is kept. -/
structure Rewrites (slots : ℕ → Slot) : Prop where
  slots : slotAt desc st' = slots
  tracked : ∀ s, Tracked desc st s → Tracked desc st' s
  aligned : StartsAligned desc st → StartsAligned desc st'
  events : st'.events = st.events
  offset : st'.leaderWindowOffset = st.leaderWindowOffset
  finalized : st'.firstNonFinalizedSlot = st.firstNonFinalizedSlot
  slotVotes : st'.slotVotes = st.slotVotes
  progressed : st'.firstNonProgressedSlot = st.firstNonProgressedSlot
  intervals : st'.skipIntervals = st.skipIntervals
  replay : st'.startupReplayActive = st.startupReplayActive

abbrev Quiet : Prop :=
  Rewrites desc st st' (slotAt desc st)

def SlotUpdate (f : Slot → Slot) : Prop :=
  Tracked desc st' slot ∧
    Rewrites desc st st' (Function.update (slotAt desc st) slot (f (slotAt desc st slot)))

variable {desc : SessionDescription} {st st' st'' : SimplexState} {slot : ℕ}

theorem Rewrites.trans {g h : ℕ → Slot} (hab : Rewrites desc st st' g)
    (hbc : Rewrites desc st' st'' h) : Rewrites desc st st'' h where
  slots := hbc.slots
  tracked s hs := hbc.tracked s (hab.tracked s hs)
  aligned ha := hbc.aligned (hab.aligned ha)
  events := hbc.events.trans hab.events
  offset := hbc.offset.trans hab.offset
  finalized := hbc.finalized.trans hab.finalized
  slotVotes := hbc.slotVotes.trans hab.slotVotes
  progressed := hbc.progressed.trans hab.progressed
  intervals := hbc.intervals.trans hab.intervals
  replay := hbc.replay.trans hab.replay

theorem Quiet.refl (st : SimplexState) : Quiet desc st st :=
  ⟨rfl, fun _ h => h, fun h => h, rfl, rfl, rfl, rfl, rfl, rfl, rfl⟩

theorem Quiet.trans (hab : Quiet desc st st') (hbc : Quiet desc st' st'') : Quiet desc st st'' := by
  have h := Rewrites.trans hab hbc
  rwa [hab.slots] at h

variable {f : Slot → Slot}

theorem Quiet.slotUpdate (hab : Quiet desc st st') (hbc : SlotUpdate desc st' st'' slot f) :
    SlotUpdate desc st st'' slot f := by
  refine ⟨hbc.1, ?_⟩
  have h := Rewrites.trans hab hbc.2
  rwa [hab.slots] at h

theorem SlotUpdate.quiet (hab : SlotUpdate desc st st' slot f) (hbc : Quiet desc st' st'') :
    SlotUpdate desc st st'' slot f := by
  refine ⟨hbc.tracked slot hab.1, ?_⟩
  have h := Rewrites.trans hab.2 hbc
  rwa [hab.2.slots] at h

section

variable (h : SlotUpdate desc st st' slot f)
include h

theorem SlotUpdate.slotAt_self : slotAt desc st' slot = f (slotAt desc st slot) := by
  rw [h.2.slots, Function.update_self]

theorem SlotUpdate.slotAt_ne {s : ℕ} (hs : s ≠ slot) : slotAt desc st' s = slotAt desc st s := by
  rw [h.2.slots, Function.update_of_ne hs]

theorem SlotUpdate.forall_slots {P : ℕ → Slot → Prop} (hslot : P slot (f (slotAt desc st slot)))
    (hall : ∀ s, P s (slotAt desc st s)) (s : ℕ) : P s (slotAt desc st' s) := by
  by_cases hs : s = slot
  · subst hs
    rw [h.slotAt_self]
    exact hslot
  · rw [h.slotAt_ne hs]
    exact hall s

end

theorem SlotUpdate.field {α : Type} (h : SlotUpdate desc st st' slot f) (g : Slot → α)
    (hg : g (f (slotAt desc st slot)) = g (slotAt desc st slot)) (s : ℕ) :
    g (slotAt desc st' s) = g (slotAt desc st s) :=
  h.forall_slots (P := fun s sl => g sl = g (slotAt desc st s)) hg (fun _ => rfl) s

theorem SlotUpdate.toQuiet (h : SlotUpdate desc st st' slot f)
    (hf : f (slotAt desc st slot) = slotAt desc st slot) : Quiet desc st st' := by
  have h2 := h.2
  rwa [hf, Function.update_eq_self] at h2

theorem getWindow_isSome_iff (st : SimplexState) (idx : ℕ) : (st.getWindow idx).isSome ↔
      st.leaderWindowOffset ≤ idx ∧ idx < st.leaderWindowOffset + st.leaderWindows.length := by
  unfold getWindow
  split_ifs with h
  · simp only [Option.isSome_none, Bool.false_eq_true, false_iff]
    omega
  · rw [isSome_getElem?]
    omega

theorem windowSlot_isSome_iff (desc : SessionDescription) (st : SimplexState) (slot : ℕ) :
    (windowSlot desc st slot).isSome ↔ Tracked desc st slot := by
  unfold windowSlot
  rw [Option.isSome_map]
  exact getWindow_isSome_iff st _

theorem windowSlot_of_tracked (h : Tracked desc st slot) :
    windowSlot desc st slot = some (slotAt desc st slot) := by
  obtain ⟨sl, hsl⟩ := Option.isSome_iff_exists.mp ((windowSlot_isSome_iff desc st slot).mpr h)
  unfold slotAt
  rw [hsl, Option.getD_some]

theorem windowSlot_of_not_tracked (h : ¬ Tracked desc st slot) :
    windowSlot desc st slot = none := by
  rw [← windowSlot_isSome_iff] at h
  exact Option.not_isSome_iff_eq_none.mp h

theorem slotAt_of_not_tracked (h : ¬ Tracked desc st slot) : slotAt desc st slot = {} := by
  unfold slotAt
  rw [windowSlot_of_not_tracked h, Option.getD_none]

theorem windowSlot_eq_some_iff (sl : Slot) :
    windowSlot desc st slot = some sl ↔ Tracked desc st slot ∧ slotAt desc st slot = sl := by
  by_cases h : Tracked desc st slot
  · rw [windowSlot_of_tracked h]
    simp [h]
  · rw [windowSlot_of_not_tracked h]
    simp [h]

theorem getSlotAvailableBase_eq (st : SimplexState) (slot : ℕ) : getSlotAvailableBase desc st slot =
      if slot < st.firstNonFinalizedSlot then none else (slotAt desc st slot).availableBase := by
  unfold getSlotAvailableBase getSlotRef
  split_ifs with h
  · rfl
  · by_cases ht : Tracked desc st slot
    · rw [windowSlot_of_tracked ht, Option.bind_some]
    · rw [windowSlot_of_not_tracked ht, slotAt_of_not_tracked ht, Option.bind_none]

theorem getSlotRef_any (st : SimplexState) (slot : ℕ) {p : Slot → Bool} (hp : p {} = false) :
    (getSlotRef desc st slot).any p =
      (decide (st.firstNonFinalizedSlot ≤ slot) && p (slotAt desc st slot)) := by
  unfold getSlotRef
  split_ifs with h
  · simp [Nat.not_le.mpr h]
  · simp only [Nat.not_lt.mp h, decide_true, Bool.true_and]
    by_cases ht : Tracked desc st slot
    · rw [windowSlot_of_tracked ht, Option.any_some]
    · rw [windowSlot_of_not_tracked ht, slotAt_of_not_tracked ht, Option.any_none, hp]

theorem isSlotSkippedCert_eq (st : SimplexState) (slot : ℕ) : isSlotSkippedCert desc st slot =
      (decide (st.firstNonFinalizedSlot ≤ slot) && (slotAt desc st slot).skipped) :=
  getSlotRef_any st slot rfl

theorem isSlotProgressed_eq (st : SimplexState) (slot : ℕ) :
    isSlotProgressed desc st slot = (decide (st.firstNonFinalizedSlot ≤ slot) &&
      ((slotAt desc st slot).skipped || (slotAt desc st slot).observedNotarCertificate.isSome)) :=
  getSlotRef_any st slot rfl

theorem tracked_of_base {b : CandidateParent}
    (h : (slotAt desc st slot).availableBase = some b) : Tracked desc st slot := by
  by_contra ht
  rw [slotAt_of_not_tracked ht] at h
  cases h

theorem tracked_of_skipped (h : (slotAt desc st slot).skipped = true) : Tracked desc st slot := by
  by_contra ht
  rw [slotAt_of_not_tracked ht] at h
  cases h

theorem getElem?_append_new (ws : List LeaderWindow) (a n i : ℕ) (w : LeaderWindow)
    (h : (ws ++ (List.range' (a + ws.length) n).map (LeaderWindow.new desc))[i]? = some w) :
    ws[i]? = some w ∨ ws.length ≤ i ∧ w = LeaderWindow.new desc (a + i) := by
  rcases Nat.lt_or_ge i ws.length with hi | hi
  · rw [List.getElem?_append_left hi] at h
    exact Or.inl h
  · rw [List.getElem?_append_right hi, List.getElem?_map, Option.map_eq_some_iff] at h
    obtain ⟨k, hk, rfl⟩ := h
    obtain ⟨hlt, -⟩ := List.getElem?_eq_some_iff.mp hk
    rw [List.length_range'] at hlt
    rw [List.getElem?_range' hlt] at hk
    obtain rfl := Option.some.inj hk
    refine Or.inr ⟨hi, ?_⟩
    congr 1
    omega

section

variable (desc : SessionDescription) (st : SimplexState) (idx : ℕ) (alloc : WindowAlloc)

/-- A window of an extended deque is an old window or a new, blank one. -/
theorem ensureWindowExists_windows :
    (ensureWindowExists desc st idx alloc).leaderWindows = st.leaderWindows ++
      (List.range' (st.leaderWindowOffset + st.leaderWindows.length)
        ((ensureWindowExists desc st idx alloc).leaderWindows.length -
          st.leaderWindows.length)).map (LeaderWindow.new desc) := by
  unfold ensureWindowExists
  split_ifs with h
  · simp
  · simp

theorem ensureWindowExists_eq_with : ensureWindowExists desc st idx alloc =
    { st with leaderWindows := (ensureWindowExists desc st idx alloc).leaderWindows } := by
  unfold ensureWindowExists
  split_ifs <;> rfl

theorem ensureWindowExists_length :
    st.leaderWindows.length ≤ (ensureWindowExists desc st idx alloc).leaderWindows.length := by
  unfold ensureWindowExists
  split_ifs
  · exact le_rfl
  · simp

theorem slotAt_ensureWindowExists :
    slotAt desc (ensureWindowExists desc st idx alloc) = slotAt desc st := by
  have hwin := ensureWindowExists_windows desc st idx alloc
  generalize hst : ensureWindowExists desc st idx alloc = st1 at hwin
  have hoff : st1.leaderWindowOffset = st.leaderWindowOffset := by
    rw [← hst, ensureWindowExists_eq_with]
  funext s
  unfold slotAt windowSlot getWindow
  rw [hoff]
  split_ifs with hs
  · rfl
  · cases hw : st1.leaderWindows[desc.windowIdx s - st.leaderWindowOffset]? with
    | none =>
      -- past the end of the longer deque, hence past the end of the old one
      have hlen := List.getElem?_eq_none_iff.mp hw
      have hle : st.leaderWindows.length ≤ st1.leaderWindows.length := by
        rw [← hst]
        exact ensureWindowExists_length desc st idx alloc
      rw [List.getElem?_eq_none_iff.mpr (hle.trans hlen)]
    | some w =>
      rw [hwin] at hw
      rcases getElem?_append_new _ _ _ _ _ hw with hold | ⟨hi, hnew⟩
      · rw [hold]
      · rw [List.getElem?_eq_none_iff.mpr hi, hnew]
        rfl

theorem ensureWindowExists_quiet : Quiet desc st (ensureWindowExists desc st idx alloc) := by
  have hlen := ensureWindowExists_length desc st idx alloc
  have hwin := ensureWindowExists_windows desc st idx alloc
  have heq := ensureWindowExists_eq_with desc st idx alloc
  have hslots := slotAt_ensureWindowExists desc st idx alloc
  generalize ensureWindowExists desc st idx alloc = st1 at hlen hwin heq hslots
  have hoff : st1.leaderWindowOffset = st.leaderWindowOffset := by rw [heq]
  refine ⟨hslots, ?_, ?_, ?_, hoff, ?_, ?_, ?_, ?_, ?_⟩
  · rintro s ⟨h1, h2⟩
    unfold Tracked
    rw [hoff]
    exact ⟨h1, by omega⟩
  · intro ha i w hw
    rw [hwin] at hw
    rw [hoff]
    rcases getElem?_append_new _ _ _ _ _ hw with hold | ⟨-, hnew⟩
    · exact ha i w hold
    · rw [hnew]
      rfl
  all_goals rw [heq]

end

def WithinHorizon (desc : SessionDescription) (st : SimplexState) (slot : ℕ) : Prop :=
  desc.windowIdx slot < st.leaderWindowOffset + st.leaderWindows.length ∨
    desc.windowIdx slot ≤ maxWindow desc st

instance (desc : SessionDescription) (st : SimplexState) (slot : ℕ) :
    Decidable (WithinHorizon desc st slot) := inferInstanceAs (Decidable (_ ∨ _))

theorem ensureWindowExists_tracked_iff (desc : SessionDescription) (st : SimplexState) (slot : ℕ)
    (alloc : WindowAlloc) :
    Tracked desc (ensureWindowExists desc st (desc.windowIdx slot) alloc) slot ↔
      st.leaderWindowOffset ≤ desc.windowIdx slot ∧
        (alloc = .verifiedCertificate ∨ WithinHorizon desc st slot) := by
  unfold Tracked WithinHorizon ensureWindowExists
  split_ifs with h
  · have halloc : alloc ≠ .verifiedCertificate := by
      rw [h.1]
      exact fun he => WindowAlloc.noConfusion he
    have hmax : ¬ desc.windowIdx slot ≤ maxWindow desc st := Nat.not_le.mpr h.2
    simp [halloc, hmax]
  · have hok : alloc = .verifiedCertificate ∨ desc.windowIdx slot ≤ maxWindow desc st := by
      cases alloc with
      | verifiedCertificate => exact Or.inl rfl
      | boundedByHorizon => exact Or.inr (Nat.not_lt.mp fun hlt => h ⟨rfl, hlt⟩)
    simp only [List.length_append, List.length_map, List.length_range']
    constructor
    · rintro ⟨h1, -⟩
      exact ⟨h1, hok.imp_right Or.inr⟩
    · rintro ⟨h1, -⟩
      exact ⟨h1, by omega⟩

theorem getWindow_modifyWindow (st : SimplexState) (i j : ℕ) (f : LeaderWindow → LeaderWindow) :
    (st.modifyWindow i f).getWindow j =
      if j = i then (st.getWindow i).map f else st.getWindow j := by
  unfold modifyWindow
  by_cases hi : i < st.leaderWindowOffset
  · rw [if_pos hi]
    split_ifs with hj
    · subst hj
      unfold getWindow
      rw [if_pos hi, Option.map_none]
    · rfl
  · rw [if_neg hi]
    unfold getWindow
    by_cases hj : j < st.leaderWindowOffset
    · rw [if_pos hj, if_neg (by omega)]
      exact (if_pos hj).symm
    · rw [if_neg hj, if_neg hi, List.getElem?_modify]
      by_cases hji : j = i
      · subst hji
        simp
      · rw [if_neg hji, if_neg hj]
        have hne : i - st.leaderWindowOffset ≠ j - st.leaderWindowOffset := by omega
        simp [hne]

section

variable (st : SimplexState) (i : ℕ) (f : LeaderWindow → LeaderWindow)

theorem modifyWindow_eq_with : st.modifyWindow i f =
    { st with leaderWindows := (st.modifyWindow i f).leaderWindows } := by
  unfold modifyWindow
  split_ifs <;> rfl

theorem modifyWindow_length : (st.modifyWindow i f).leaderWindows.length = st.leaderWindows.length := by
  unfold modifyWindow
  split_ifs
  · rfl
  · exact List.length_modify _ _ _

end

theorem modifyWindow_rewrites (desc : SessionDescription) (st : SimplexState) (i : ℕ)
    (f : LeaderWindow → LeaderWindow) (hf : ∀ w, (f w).startSlot = w.startSlot) :
    Rewrites desc st (st.modifyWindow i f) (slotAt desc (st.modifyWindow i f)) := by
  have heq := modifyWindow_eq_with st i f
  have hlen := modifyWindow_length st i f
  have hwin (k : ℕ) (w : LeaderWindow) (hw : (st.modifyWindow i f).leaderWindows[k]? = some w) :
      ∃ w', st.leaderWindows[k]? = some w' ∧ w.startSlot = w'.startSlot := by
    unfold modifyWindow at hw
    split_ifs at hw with hi
    · exact ⟨w, hw, rfl⟩
    · rw [List.getElem?_modify] at hw
      cases hk : st.leaderWindows[k]? with
      | none => rw [hk] at hw; cases hw
      | some w' =>
        rw [hk] at hw
        obtain rfl := Option.some.inj hw
        refine ⟨w', rfl, ?_⟩
        split_ifs
        · exact hf w'
        · rfl
  generalize st.modifyWindow i f = st1 at heq hlen hwin
  have hoff : st1.leaderWindowOffset = st.leaderWindowOffset := by rw [heq]
  refine ⟨rfl, ?_, ?_, ?_, hoff, ?_, ?_, ?_, ?_, ?_⟩
  · rintro s ⟨h1, h2⟩
    unfold Tracked
    rw [hoff, hlen]
    exact ⟨h1, h2⟩
  · intro ha k w hw
    obtain ⟨w', hw', hstart⟩ := hwin k w hw
    rw [hstart, hoff]
    exact ha k w' hw'
  all_goals rw [heq]

theorem modifySlot_of_not_tracked (h : ¬ Tracked desc st slot) (f : Slot → Slot) :
    modifySlot desc st slot f = st := by
  unfold modifySlot modifyWindow
  split_ifs with hi
  · rfl
  · have hlen : st.leaderWindows.length ≤ desc.windowIdx slot - st.leaderWindowOffset := by
      unfold Tracked at h
      omega
    rw [List.modify_eq_self hlen]

theorem modifySlot_update (h : Tracked desc st slot) (f : Slot → Slot) :
    SlotUpdate desc st (modifySlot desc st slot f) slot f := by
  have hrw : Rewrites desc st (modifySlot desc st slot f)
      (slotAt desc (modifySlot desc st slot f)) :=
    modifyWindow_rewrites desc st _ _ fun w => rfl
  have hslots : slotAt desc (modifySlot desc st slot f) =
      Function.update (slotAt desc st) slot (f (slotAt desc st slot)) := by
    funext s
    have hold := windowSlot_of_tracked h
    unfold slotAt windowSlot at hold ⊢
    unfold modifySlot
    rw [getWindow_modifyWindow]
    obtain ⟨w, hw⟩ := Option.isSome_iff_exists.mp ((getWindow_isSome_iff st _).mpr h)
    by_cases hidx : desc.windowIdx s = desc.windowIdx slot
    · rw [if_pos hidx, hw]
      by_cases hs : s = slot
      · subst hs
        rw [Function.update_self]
        simp [Option.map_some, LeaderWindow.updateSlot, Function.update_self, Option.getD_some]
      · have hne : desc.slotOffset s ≠ desc.slotOffset slot := fun ho =>
          hs (slot_eq_of_window_offset desc s slot hidx ho)
        rw [Function.update_of_ne hs]
        simp [LeaderWindow.updateSlot, Function.update_of_ne hne, Option.getD_some, hidx, hw]
    · have hs : s ≠ slot := fun he => hidx (by rw [he])
      rw [if_neg hidx, Function.update_of_ne hs]
  refine ⟨hrw.tracked slot h, ?_⟩
  rwa [hslots] at hrw

theorem updateSlotMut_eq (desc : SessionDescription) (st : SimplexState) (slot : ℕ)
    (alloc : WindowAlloc) (f : Slot → Slot) :
    updateSlotMut desc st slot alloc f =
      if slot < st.firstNonFinalizedSlot then none
      else if (windowSlot desc (ensureWindowExists desc st (desc.windowIdx slot) alloc) slot).isSome
        then some (modifySlot desc (ensureWindowExists desc st (desc.windowIdx slot) alloc) slot f)
      else none := rfl

theorem updateSlotMut_spec {alloc : WindowAlloc}
    (h : updateSlotMut desc st slot alloc f = some st') :
    st.firstNonFinalizedSlot ≤ slot ∧ SlotUpdate desc st st' slot f := by
  rw [updateSlotMut_eq] at h
  split_ifs at h with hfin hsome
  obtain rfl := Option.some.inj h
  refine ⟨Nat.not_lt.mp hfin, ?_⟩
  have ht := (windowSlot_isSome_iff desc _ slot).mp hsome
  exact (ensureWindowExists_quiet desc st _ alloc).slotUpdate (modifySlot_update ht f)

section

variable (desc : SessionDescription) (st : SimplexState) (slot : ℕ) (alloc : WindowAlloc)

theorem updateSlotMut_isSome_iff (f : Slot → Slot) :
    (updateSlotMut desc st slot alloc f).isSome ↔ st.firstNonFinalizedSlot ≤ slot ∧
      st.leaderWindowOffset ≤ desc.windowIdx slot ∧
        (alloc = .verifiedCertificate ∨ WithinHorizon desc st slot) := by
  rw [← ensureWindowExists_tracked_iff, ← windowSlot_isSome_iff]
  rw [updateSlotMut_eq]
  split_ifs with hfin hsome
  · simp [Bool.false_eq_true, Nat.not_le.mpr hfin]
  · simp [hsome, Nat.not_lt.mp hfin]
  · simp [hsome, Bool.false_eq_true]

theorem updateSlotMut_getD_cases
    (f : Slot → Slot) : (updateSlotMut desc st slot alloc f).getD st = st ∨
      st.firstNonFinalizedSlot ≤ slot ∧
        SlotUpdate desc st ((updateSlotMut desc st slot alloc f).getD st) slot f := by
  cases h : updateSlotMut desc st slot alloc f with
  | none => exact Or.inl rfl
  | some st1 => exact Or.inr (updateSlotMut_spec h)

end

end TonNode.Simplex.SimplexState
