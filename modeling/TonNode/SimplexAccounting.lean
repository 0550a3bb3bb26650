import TonNode.SimplexOps
import TonNode.WeightedQuorum

/-! The vote accounting of a slot is exact: recorded votes were signed, and each
weight is the weight of the validators recorded for it. -/
namespace TonNode.Simplex.SlotVotes

open WeightedQuorum

variable {desc : SessionDescription} {signed : ℕ → Vote → Prop} {slot : ℕ} {sv sv' : SlotVotes}

structure Accounted (desc : SessionDescription) (signed : ℕ → Vote → Prop) (slot : ℕ)
    (sv : SlotVotes) : Prop where
  notarize : ∀ i v, (sv.votes i).notarize = some v → v.slot = slot ∧ signed i (.notarize v)
  finalize : ∀ i v, (sv.votes i).finalize = some v → v.slot = slot ∧ signed i (.finalize v)
  skip : ∀ i v, (sv.votes i).skip = some v → v.slot = slot ∧ signed i (.skip v)
  notarizeWeight : ∀ h, sv.notarizeWeightByBlock.weight h =
    tally desc.nodeWeight (Finset.range desc.totalNodes)
      fun i => decide ((sv.votes i).notarize = some ⟨slot, h⟩)
  finalizeWeight : ∀ h, sv.finalizeWeightByBlock.weight h =
    tally desc.nodeWeight (Finset.range desc.totalNodes)
      fun i => decide ((sv.votes i).finalize = some ⟨slot, h⟩)
  skipWeight : sv.skipWeight = tally desc.nodeWeight (Finset.range desc.totalNodes)
    fun i => (sv.votes i).skip.isSome

theorem Accounted.mono {signed' : ℕ → Vote → Prop} (ha : Accounted desc signed slot sv)
    (h : ∀ i v, signed i v → signed' i v) : Accounted desc signed' slot sv :=
  ⟨fun i v hv => (ha.notarize i v hv).imp_right (h i _),
    fun i v hv => (ha.finalize i v hv).imp_right (h i _),
    fun i v hv => (ha.skip i v hv).imp_right (h i _),
    ha.notarizeWeight, ha.finalizeWeight, ha.skipWeight⟩

theorem accounted_fresh (desc : SessionDescription) (signed : ℕ → Vote → Prop) (slot : ℕ) :
    Accounted desc signed slot {} := by
  have hzero (p : ℕ → Bool) (hp : ∀ i, p i = false) :
      tally desc.nodeWeight (Finset.range desc.totalNodes) p = 0 := by
    unfold tally
    refine Finset.sum_eq_zero fun i _ => ?_
    rw [hp i]
    rfl
  refine ⟨?_, ?_, ?_, ?_, ?_, ?_⟩
  · intro i v hv; cases hv
  · intro i v hv; cases hv
  · intro i v hv; cases hv
  · exact fun h => (hzero _ fun i => rfl).symm
  · exact fun h => (hzero _ fun i => rfl).symm
  · exact (hzero _ fun i => rfl).symm

theorem Accounted.of_sameTally (ha : Accounted desc signed slot sv)
    (h : SimplexState.SameTally sv sv') : Accounted desc signed slot sv' := by
  obtain ⟨h1, h2, h3, h4⟩ := h
  refine ⟨?_, ?_, ?_, ?_, ?_, ?_⟩
  · rw [h1]; exact ha.notarize
  · rw [h1]; exact ha.finalize
  · rw [h1]; exact ha.skip
  · rw [h1, h2]; exact ha.notarizeWeight
  · rw [h1, h3]; exact ha.finalizeWeight
  · rw [h1, h4]; exact ha.skipWeight

theorem setVotes_votes (sv : SlotVotes) (idx i : ℕ) (v : ValidatorVotes) :
    (sv.setVotes idx v).votes i = if i = idx then v else sv.votes i := by
  unfold setVotes
  dsimp only
  rw [Function.update_apply]

variable {idx : ℕ}

theorem setVotes_kept {α : Type} (f : ValidatorVotes → α) {v : ValidatorVotes}
    (h : f v = f (sv.votes idx)) (i : ℕ) : f ((sv.setVotes idx v).votes i) = f (sv.votes i) := by
  rw [setVotes_votes]
  split_ifs with hi
  · rw [hi, h]
  · rfl

theorem tally_setVotes {α : Type} [DecidableEq α] (f : ValidatorVotes → Option α)
    {v : ValidatorVotes} {a : α} (hidx : idx < desc.totalNodes) (hnone : f (sv.votes idx) = none)
    (hv : f v = some a) (x : α) : tally desc.nodeWeight (Finset.range desc.totalNodes)
        (fun i => decide (f ((sv.setVotes idx v).votes i) = some x)) =
      tally desc.nodeWeight (Finset.range desc.totalNodes)
        (fun i => decide (f (sv.votes i) = some x)) + if a = x then desc.nodeWeight idx else 0 := by
  rw [tally_record (a := idx) (p := fun i => decide (f (sv.votes i) = some x))
    (Finset.mem_range.mpr hidx)]
  · simp [setVotes_votes, hv]
  · rw [hnone]
    rfl
  · intro i _ hi
    rw [setVotes_votes, if_neg hi]

variable {signature : SignatureBytes} {raw : Option RawVoteData}

section

variable (ha : Accounted desc signed slot sv) (hidx : idx < desc.totalNodes)
include ha hidx

theorem Accounted.recordNotarize {vote : NotarizeVote} (hnone : (sv.votes idx).notarize = none)
    (hslot : vote.slot = slot) (hsigned : signed idx (.notarize vote)) :
    Accounted desc signed slot (sv.recordNotarize desc idx vote signature raw) := by
  have hfinalize (i : ℕ) : ((sv.recordNotarize desc idx vote signature raw).votes i).finalize =
      (sv.votes i).finalize := setVotes_kept (·.finalize) (by rfl) i
  have hskip (i : ℕ) : ((sv.recordNotarize desc idx vote signature raw).votes i).skip =
      (sv.votes i).skip := setVotes_kept (·.skip) (by rfl) i
  refine ⟨?_, ?_, ?_, ?_, ?_, ?_⟩
  · intro i v hv
    rw [SlotVotes.recordNotarize, setVotes_votes] at hv
    split_ifs at hv with hi
    · obtain rfl := Option.some.inj hv
      exact ⟨hslot, hi ▸ hsigned⟩
    · exact ha.notarize i v hv
  · exact fun i v hv => ha.finalize i v ((hfinalize i).symm.trans hv)
  · exact fun i v hv => ha.skip i v ((hskip i).symm.trans hv)
  · intro h
    have hvote : vote = ⟨slot, h⟩ ↔ h = vote.blockHash := by
      rw [← hslot]
      exact ⟨fun he => by rw [he], fun he => by rw [he]⟩
    refine (WeightMap.weight_add _ _ _ _).trans ?_
    rw [ha.notarizeWeight h]
    refine .trans ?_ (tally_setVotes (·.notarize) hidx hnone rfl _).symm
    simp [hvote]
  · simp only [hfinalize]
    exact ha.finalizeWeight
  · simp only [hskip]
    exact ha.skipWeight

theorem Accounted.recordFinalize {vote : FinalizeVote} (hnone : (sv.votes idx).finalize = none)
    (hslot : vote.slot = slot) (hsigned : signed idx (.finalize vote)) :
    Accounted desc signed slot (sv.recordFinalize desc idx vote signature raw) := by
  have hnotarize (i : ℕ) : ((sv.recordFinalize desc idx vote signature raw).votes i).notarize =
      (sv.votes i).notarize := setVotes_kept (·.notarize) (by rfl) i
  have hskip (i : ℕ) : ((sv.recordFinalize desc idx vote signature raw).votes i).skip =
      (sv.votes i).skip := setVotes_kept (·.skip) (by rfl) i
  refine ⟨?_, ?_, ?_, ?_, ?_, ?_⟩
  · exact fun i v hv => ha.notarize i v ((hnotarize i).symm.trans hv)
  · intro i v hv
    rw [SlotVotes.recordFinalize, setVotes_votes] at hv
    split_ifs at hv with hi
    · obtain rfl := Option.some.inj hv
      exact ⟨hslot, hi ▸ hsigned⟩
    · exact ha.finalize i v hv
  · exact fun i v hv => ha.skip i v ((hskip i).symm.trans hv)
  · simp only [hnotarize]
    exact ha.notarizeWeight
  · intro h
    have hvote : vote = ⟨slot, h⟩ ↔ h = vote.blockHash := by
      rw [← hslot]
      exact ⟨fun he => by rw [he], fun he => by rw [he]⟩
    refine (WeightMap.weight_add _ _ _ _).trans ?_
    rw [ha.finalizeWeight h]
    refine .trans ?_ (tally_setVotes (·.finalize) hidx hnone rfl _).symm
    simp [hvote]
  · simp only [hskip]
    exact ha.skipWeight

theorem Accounted.recordSkip {vote : SkipVote} (hnone : (sv.votes idx).skip = none)
    (hslot : vote.slot = slot)
    (hsigned : signed idx (.skip vote)) :
    Accounted desc signed slot (sv.recordSkip desc idx vote signature raw) := by
  have hnotarize (i : ℕ) : ((sv.recordSkip desc idx vote signature raw).votes i).notarize =
      (sv.votes i).notarize := setVotes_kept (·.notarize) (by rfl) i
  have hfinalize (i : ℕ) : ((sv.recordSkip desc idx vote signature raw).votes i).finalize =
      (sv.votes i).finalize := setVotes_kept (·.finalize) (by rfl) i
  refine ⟨?_, ?_, ?_, ?_, ?_, ?_⟩
  · exact fun i v hv => ha.notarize i v ((hnotarize i).symm.trans hv)
  · exact fun i v hv => ha.finalize i v ((hfinalize i).symm.trans hv)
  · intro i v hv
    rw [SlotVotes.recordSkip, setVotes_votes] at hv
    split_ifs at hv with hi
    · obtain rfl := Option.some.inj hv
      exact ⟨hslot, hi ▸ hsigned⟩
    · exact ha.skip i v hv
  · simp only [hnotarize]
    exact ha.notarizeWeight
  · simp only [hfinalize]
    exact ha.finalizeWeight
  · have hadd : (sv.recordSkip desc idx vote signature raw).skipWeight =
        sv.skipWeight + desc.nodeWeight idx := by
      unfold SlotVotes.recordSkip
      dsimp only
      rw [hnone, Option.isSome_none, if_neg Bool.false_ne_true]
    rw [hadd, ha.skipWeight]
    refine .trans ?_ (tally_record (p := fun i => (sv.votes i).skip.isSome)
      (Finset.mem_range.mpr hidx) ?_ ?_).symm
    · simp [SlotVotes.recordSkip, setVotes_votes]
    · rw [hnone]
      rfl
    · intro i _ hi
      rw [SlotVotes.recordSkip, setVotes_votes, if_neg hi]

end

theorem Accounted.handle {vote : Vote} {raw : RawVoteData} (ha : Accounted desc signed vote.slot sv)
    (hidx : idx < desc.totalNodes) (hsigned : signed idx vote) :
    Accounted desc signed vote.slot (sv.handle desc idx vote signature raw).1 := by
  cases vote with
  | notarize v =>
    unfold SlotVotes.handle SlotVotes.handleNotarize
    dsimp only
    cases hn : (sv.votes idx).notarize with
    | some existing =>
      dsimp only
      split_ifs <;> exact ha
    | none =>
      have hrec : Accounted desc signed v.slot
          (sv.recordNotarize desc idx v signature (some raw)) :=
        Accounted.recordNotarize ha hidx hn rfl hsigned
      dsimp only
      split
      · split_ifs
        · exact ha
        · exact hrec
      · exact hrec
  | finalize v =>
    unfold SlotVotes.handle SlotVotes.handleFinalize
    dsimp only
    cases hn : (sv.votes idx).finalize with
    | some existing =>
      dsimp only
      split_ifs <;> exact ha
    | none =>
      split_ifs
      · exact ha
      · exact ha
      · exact Accounted.recordFinalize ha hidx hn rfl hsigned
  | skip v =>
    unfold SlotVotes.handle SlotVotes.handleSkip
    dsimp only
    split_ifs with hn
    · exact ha
    · split
      · exact ha
      · exact Accounted.recordSkip ha hidx (Option.not_isSome_iff_eq_none.mp hn) rfl hsigned

variable {v : Vote}

theorem Accounted.foldl {f : SlotVotes → VoteSignature → SlotVotes}
    (hf : ∀ sv sig, Accounted desc signed slot sv → signed sig.validatorIdx v →
      Accounted desc signed slot (f sv sig))
    (l : List VoteSignature) (hl : ∀ sig ∈ l, signed sig.validatorIdx v)
    (ha : Accounted desc signed slot sv) : Accounted desc signed slot (l.foldl f sv) := by
  induction l generalizing sv with
  | nil => exact ha
  | cons sig l ih =>
    exact ih (fun s hs => hl s (List.mem_cons_of_mem sig hs))
      (hf sv sig ha (hl sig List.mem_cons_self))

section

variable {hash : UInt256} (sv : SlotVotes) (sig : VoteSignature)
  (ha : Accounted desc signed slot sv)
include ha

theorem Accounted.importNotarizeSignature
    (hsigned : signed sig.validatorIdx (.notarize ⟨slot, hash⟩)) :
    Accounted desc signed slot (SlotVotes.importNotarizeSignature desc slot hash sv sig) := by
  unfold SlotVotes.importNotarizeSignature
  dsimp only
  split_ifs with hidx hn hf
  · exact ha
  · exact ha
  · exact ha
  · exact ha.recordNotarize (Nat.not_le.mp hidx) (Option.not_isSome_iff_eq_none.mp hn) rfl hsigned

theorem Accounted.importFinalizeSignature
    (hsigned : signed sig.validatorIdx (.finalize ⟨slot, hash⟩)) :
    Accounted desc signed slot (SlotVotes.importFinalizeSignature desc slot hash sv sig) := by
  unfold SlotVotes.importFinalizeSignature
  dsimp only
  split_ifs with hidx hn hf hs
  · exact ha
  · exact ha
  · exact ha
  · exact ha
  · exact ha.recordFinalize (Nat.not_le.mp hidx) (Option.not_isSome_iff_eq_none.mp hn) rfl hsigned

end

theorem Accounted.importSkipSignature (sv : SlotVotes) (sig : VoteSignature)
    (ha : Accounted desc signed slot sv) (hsigned : signed sig.validatorIdx (.skip ⟨slot⟩)) :
    Accounted desc signed slot (SlotVotes.importSkipSignature desc slot sv sig) := by
  unfold SlotVotes.importSkipSignature
  dsimp only
  split_ifs with hidx hn hf
  · exact ha
  · exact ha
  · exact ha
  · exact ha.recordSkip (Nat.not_le.mp hidx) (Option.not_isSome_iff_eq_none.mp hn) rfl hsigned

def SignedQuorum (desc : SessionDescription) (signed : ℕ → Vote → Prop) (v : Vote) : Prop :=
  ∃ A ⊆ Finset.range desc.totalNodes,
    desc.getThreshold66 ≤ ∑ i ∈ A, desc.nodeWeight i ∧ ∀ i ∈ A, signed i v

theorem SignedQuorum.mono {signed' : ℕ → Vote → Prop} (hq : SignedQuorum desc signed v)
    (h : ∀ i v, signed i v → signed' i v) : SignedQuorum desc signed' v := by
  obtain ⟨A, hA, hw, hs⟩ := hq
  exact ⟨A, hA, hw, fun i hi => h i v (hs i hi)⟩

/-- A tally at the threshold is a quorum of those who pass the test. -/
theorem signedQuorum_of_tally {p : ℕ → Bool}
    (h : desc.getThreshold66 ≤ tally desc.nodeWeight (Finset.range desc.totalNodes) p)
    (hp : ∀ i, p i = true → signed i v) : SignedQuorum desc signed v := by
  rw [tally_eq_sum_filter] at h
  refine ⟨_, Finset.filter_subset _ _, h, fun i hi => hp i ?_⟩
  exact (Finset.mem_filter.mp hi).2

variable (ha : Accounted desc signed slot sv)
include ha

theorem Accounted.notarize_quorum {h : UInt256} {w : ℕ}
    (hw : sv.notarizeWeightByBlock.lookup h = some w) (hthr : desc.getThreshold66 ≤ w) :
    SignedQuorum desc signed (.notarize ⟨slot, h⟩) := by
  have hweight : sv.notarizeWeightByBlock.weight h = w := by
    unfold WeightMap.weight
    rw [hw, Option.getD_some]
  rw [← hweight, ha.notarizeWeight h] at hthr
  refine signedQuorum_of_tally hthr fun i hi => ?_
  exact (ha.notarize i _ (of_decide_eq_true hi)).2

theorem Accounted.finalize_quorum {h : UInt256} {w : ℕ}
    (hw : sv.finalizeWeightByBlock.lookup h = some w) (hthr : desc.getThreshold66 ≤ w) :
    SignedQuorum desc signed (.finalize ⟨slot, h⟩) := by
  have hweight : sv.finalizeWeightByBlock.weight h = w := by
    unfold WeightMap.weight
    rw [hw, Option.getD_some]
  rw [← hweight, ha.finalizeWeight h] at hthr
  refine signedQuorum_of_tally hthr fun i hi => ?_
  exact (ha.finalize i _ (of_decide_eq_true hi)).2

theorem Accounted.skip_quorum (hthr : desc.getThreshold66 ≤ sv.skipWeight) :
    SignedQuorum desc signed (.skip ⟨slot⟩) := by
  rw [ha.skipWeight] at hthr
  refine signedQuorum_of_tally hthr fun i hi => ?_
  obtain ⟨v, hv⟩ := Option.isSome_iff_exists.mp hi
  obtain ⟨hslot, hsigned⟩ := ha.skip i v hv
  subst hslot
  exact hsigned

end TonNode.Simplex.SlotVotes
