import TonNode.SimplexAccounting
import TonNode.SimplexJustified

/-! Agreement of a Simplex session: non-faulty validators run `SimplexState`,
faulty ones send what they like, and votes, certificates, candidates and timer
checks are delivered in any order. A validator arms its timeouts when it starts. -/
namespace TonNode.Simplex

open Relation SimplexState

structure Network where
  desc : SessionDescription
  faulty : Finset ℕ

structure NetState where
  nodes : ℕ → SimplexState
  candidates : List Candidate

variable {net : Network} {g g' : NetState}

def NetState.Signed (net : Network) (g : NetState) (i : ℕ) (v : Vote) : Prop :=
  i ∈ net.faulty ∨ SimplexEvent.broadcastVote v ∈ (g.nodes i).events

/-- What `Certificate::from_tl` checks of the signatures of a certificate for
`v`: indices in range, no duplicates, valid signatures, enough weight. -/
structure Verified (net : Network) (g : NetState) (v : Vote) (signatures : List VoteSignature) :
    Prop where
  bounds : ∀ s ∈ signatures, s.validatorIdx < net.desc.totalNodes
  nodup : (signatures.map (·.validatorIdx)).Nodup
  signed : ∀ s ∈ signatures, g.Signed net s.validatorIdx v
  weight : net.desc.getThreshold66 ≤
    (signatures.map fun s => net.desc.nodeWeight s.validatorIdx).sum

def Deliverable (net : Network) (g : NetState) : Op → Prop
  | .onVote idx vote _ _ => g.Signed net idx vote
  | .setNotarizeCertificate c => Verified net g (.notarize c.vote) c.signatures
  | .setFinalizeCertificate c => Verified net g (.finalize c.vote) c.signatures
  | .setSkipCertificate c => Verified net g (.skip c.vote) c.signatures
  | .onCandidate _ => True
  | .checkAll => True
  | .cleanupSlots _ => True

def SessionOp.Admissible (net : Network) (g : NetState) : SessionOp → Prop
  | .start => True
  | .live op => Deliverable net g op

def SessionOp.candidates : SessionOp → List Candidate
  | .live (.onCandidate c) => [c]
  | _ => []

inductive NetStep (net : Network) : NetState → NetState → Prop
  | act {g : NetState} {st : SimplexState} (i now : ℕ) (op : SessionOp) (hi : i ∉ net.faulty)
      (hop : op.Admissible net g) (h : applySessionOp net.desc now (g.nodes i) op = .ok st) :
      NetStep net g ⟨Function.update g.nodes i st, op.candidates ++ g.candidates⟩

def NetState.init (net : Network) : NetState := ⟨fun _ => new net.desc, []⟩

abbrev NetReachable (net : Network) (g : NetState) : Prop :=
  ReflTransGen (NetStep net) (NetState.init net) g

def NetState.evidence (net : Network) (g : NetState) : Evidence where
  cand c := c ∈ g.candidates ∧ ∀ p, c.parentId = some p → p.slot < c.id.slot
  notar s h := SlotVotes.SignedQuorum net.desc (g.Signed net) (.notarize ⟨s, h⟩)
  final s h := SlotVotes.SignedQuorum net.desc (g.Signed net) (.finalize ⟨s, h⟩)
  skip s := SlotVotes.SignedQuorum net.desc (g.Signed net) (.skip ⟨s⟩)
  votes s sv := SlotVotes.Accounted net.desc (g.Signed net) s sv

theorem evidence_sound (net : Network) (g : NetState) : (g.evidence net).Sound net.desc where
  fresh s := SlotVotes.accounted_fresh net.desc _ s
  tally _ _ _ ha h := SlotVotes.Accounted.of_sameTally ha h
  notar _ _ _ _ ha hw hthr := SlotVotes.Accounted.notarize_quorum ha hw hthr
  final _ _ _ _ ha hw hthr := SlotVotes.Accounted.finalize_quorum ha hw hthr
  skip _ _ ha hthr := SlotVotes.Accounted.skip_quorum ha hthr

variable {v : Vote}

theorem Verified.quorum {l : List VoteSignature} (h : Verified net g v l) :
    SlotVotes.SignedQuorum net.desc (g.Signed net) v := by
  refine ⟨(l.map (·.validatorIdx)).toFinset, ?_, ?_, ?_⟩
  · intro i hi
    obtain ⟨s, hs, rfl⟩ := List.mem_map.mp (List.mem_toFinset.mp hi)
    exact Finset.mem_range.mpr (h.bounds s hs)
  · rw [List.sum_toFinset _ h.nodup, List.map_map]
    exact h.weight
  · intro i hi
    obtain ⟨s, hs, rfl⟩ := List.mem_map.mp (List.mem_toFinset.mp hi)
    exact h.signed s hs

variable {op : Op}

theorem admits_of_deliverable (h : Deliverable net g op)
    (hc : ∀ c ∈ (SessionOp.live op).candidates, c ∈ g.candidates) :
    (g.evidence net).Admits net.desc op := by
  cases op with
  | onCandidate c => exact fun hp => ⟨hc c List.mem_cons_self, hp⟩
  | onVote idx vote signature raw => exact fun hidx sv ha => ha.handle hidx h
  | setNotarizeCertificate c =>
    exact ⟨Verified.quorum h, fun sv ha => SlotVotes.Accounted.foldl
      (fun sv sig ha hs => ha.importNotarizeSignature sv sig hs) _ h.signed ha⟩
  | setFinalizeCertificate c =>
    exact ⟨Verified.quorum h, fun sv ha => SlotVotes.Accounted.foldl
      (fun sv sig ha hs => ha.importFinalizeSignature sv sig hs) _ h.signed ha⟩
  | setSkipCertificate c =>
    exact ⟨Verified.quorum h, fun sv ha => SlotVotes.Accounted.foldl
      (fun sv sig ha hs => ha.importSkipSignature sv sig hs) _ h.signed ha⟩
  | checkAll | cleanupSlots upToSlot => trivial

structure NodeInv (net : Network) (g : NetState) (st : SimplexState) : Prop where
  votes : VoteInv net.desc [] st
  safe : LocalVoteSafety st.events
  grounded : Grounded (g.evidence net) st
  justified : Justified net.desc (g.evidence net) st
  live : st.startupReplayActive = false

section

variable (hn : ∀ i, (g.nodes i).events <+: (g'.nodes i).events)
include hn

theorem signed_mono (i : ℕ) (v : Vote) (h : g.Signed net i v) : g'.Signed net i v :=
  h.imp_right fun hv => (hn i).subset hv

theorem evidence_mono (hc : ∀ c ∈ g.candidates, c ∈ g'.candidates) :
    (g.evidence net).Le (g'.evidence net) where
  cand c h := h.imp_left (hc c)
  notar _ _ h := h.mono (signed_mono hn)
  final _ _ h := h.mono (signed_mono hn)
  skip _ h := h.mono (signed_mono hn)
  votes _ _ h := h.mono (signed_mono hn)
  past := rfl

end

theorem Deliverable.mono (h : Deliverable net g op)
    (hn : ∀ i, (g.nodes i).events <+: (g'.nodes i).events) : Deliverable net g' op := by
  have hv {v : Vote} {l : List VoteSignature} (h : Verified net g v l) : Verified net g' v l :=
    ⟨h.bounds, h.nodup, fun s hs => signed_mono hn _ _ (h.signed s hs), h.weight⟩
  cases op with
  | onVote idx vote signature raw => exact signed_mono hn _ _ h
  | setNotarizeCertificate c | setFinalizeCertificate c | setSkipCertificate c => exact hv h
  | _ => trivial

theorem NodeInv.mono {st : SimplexState} (h : NodeInv net g st)
    (hle : (g.evidence net).Le (g'.evidence net)) : NodeInv net g' st :=
  ⟨h.votes, h.safe, h.grounded.mono hle, h.justified.mono hle, h.live⟩

/-- One input of one validator keeps the invariant of all. -/
theorem nodeInv_step (hinv : ∀ i, i ∉ net.faulty → NodeInv net g (g.nodes i))
    (h : NetStep net g g') : ∀ i, i ∉ net.faulty → NodeInv net g' (g'.nodes i) := by
  obtain ⟨i, now, op, hi, hop, hrun⟩ := h
  rename_i st
  -- with evidence that asks nothing the operation already extends the events
  have hany : Steps net.desc (Evidence.any []) (g.nodes i) st :=
    applySessionOp_steps (Evidence.any_sound [] _)
      ⟨fun _ _ _ => trivial, (hinv i hi).grounded.certs⟩ (hinv i hi).live
      (fun o _ => Evidence.any_admits [] _ o) hrun
  set g1 : NetState := ⟨Function.update g.nodes i st, op.candidates ++ g.candidates⟩ with hg1
  have hprefix (j : ℕ) : (g.nodes j).events <+: (g1.nodes j).events := by
    by_cases hj : j = i
    · subst hj
      change _ <+: (Function.update g.nodes j st j).events
      rw [Function.update_self]
      exact Steps.events_prefix hany
    · change _ <+: (Function.update g.nodes i st j).events
      rw [Function.update_of_ne hj]
  have hle : (g.evidence net).Le (g1.evidence net) :=
    evidence_mono hprefix fun c hc => List.mem_append_right _ hc
  intro j hj
  by_cases hji : j = i
  · subst hji
    change NodeInv net g1 (Function.update g.nodes j st j)
    rw [Function.update_self]
    have hold := (hinv j hj).mono hle
    have hadmits (o : Op) (ho : op = .live o) : (g1.evidence net).Admits net.desc o := by
      subst ho
      exact admits_of_deliverable (Deliverable.mono hop hprefix)
        fun c hc => List.mem_append_left _ hc
    have hsteps : Steps net.desc (g1.evidence net) (g.nodes j) st :=
      applySessionOp_steps (evidence_sound net g1) hold.grounded hold.live hadmits hrun
    exact ⟨hold.votes.steps hsteps, hold.safe.steps rfl hold.votes hsteps, hold.grounded.steps hsteps,
      hold.justified.steps hold.votes hsteps, hsteps.boundaries_le.2.2.trans hold.live⟩
  · change NodeInv net g1 (Function.update g.nodes i st j)
    rw [Function.update_of_ne hji]
    exact (hinv j hj).mono hle

theorem nodeInv_reachable (h : NetReachable net g) :
    ∀ i, i ∉ net.faulty → NodeInv net g (g.nodes i) := by
  induction h with
  | refl =>
    intro i _
    exact ⟨new_voteInv _, new_localVoteSafety _, new_grounded _ _, new_justified _ rfl,
      (new_update _).2.replay⟩
  | tail _ hstep ih => exact nodeInv_step ih hstep

theorem totalWeight_eq_sum (desc : SessionDescription) :
    desc.totalWeight = ∑ i ∈ Finset.range desc.totalNodes, desc.nodeWeight i := by
  unfold SessionDescription.totalWeight SessionDescription.totalNodes SessionDescription.nodeWeight
  rw [Finset.sum_range, ← Fin.sum_univ_getElem]
  refine Finset.sum_congr rfl fun i _ => ?_
  exact (List.getElem_eq_getD 0).trans rfl

def Network.FaultBound (net : Network) : Prop :=
  3 * ∑ i ∈ net.faulty, net.desc.nodeWeight i < net.desc.totalWeight

instance (net : Network) : Decidable net.FaultBound := inferInstanceAs (Decidable (_ < _))

theorem threshold_bound (desc : SessionDescription) (h : 0 < desc.totalWeight) :
    2 * desc.totalWeight < 3 * desc.getThreshold66 := by
  unfold SessionDescription.getThreshold66 threshold66
  rw [if_neg (by omega)]
  omega

section

variable (hf : net.FaultBound) (hq : SlotVotes.SignedQuorum net.desc (g.Signed net) v)
include hf hq

/-- A quorum has a non-faulty member, who broadcast the vote. -/
theorem exists_honest_signer :
    ∃ i, i ∉ net.faulty ∧ SimplexEvent.broadcastVote v ∈ (g.nodes i).events := by
  obtain ⟨A, -, hw, hs⟩ := hq
  have hb := threshold_bound net.desc (Nat.zero_lt_of_lt hf)
  unfold Network.FaultBound at hf
  obtain ⟨i, hi, hif⟩ := WeightedQuorum.exists_mem_not_mem (A := A) (F := net.faulty)
    (w := net.desc.nodeWeight) (by omega)
  exact ⟨i, hif, (hs i hi).resolve_left hif⟩

/-- Two quorums share a non-faulty member, who broadcast both votes. -/
theorem exists_honest_both {v' : Vote} (hq' : SlotVotes.SignedQuorum net.desc (g.Signed net) v') :
    ∃ i, i ∉ net.faulty ∧ SimplexEvent.broadcastVote v ∈ (g.nodes i).events ∧
      SimplexEvent.broadcastVote v' ∈ (g.nodes i).events := by
  obtain ⟨A, hA, hwA, hsA⟩ := hq
  obtain ⟨B, hB, hwB, hsB⟩ := hq'
  have hb := threshold_bound net.desc (Nat.zero_lt_of_lt hf)
  have htotal := totalWeight_eq_sum net.desc
  unfold Network.FaultBound at hf
  obtain ⟨i, hiA, hiB, hif⟩ := WeightedQuorum.exists_mem_inter_not_mem (F := net.faulty)
    (w := net.desc.nodeWeight) hA hB (by omega)
  exact ⟨i, hif, (hsA i hiA).resolve_left hif, (hsB i hiB).resolve_left hif⟩

end

theorem SimplexState.LocalVoteSafety.notarize_unique {events : List SimplexEvent}
    (hs : LocalVoteSafety events) {s : ℕ} {h h' : UInt256}
    (h1 : SimplexEvent.broadcastVote (.notarize ⟨s, h⟩) ∈ events)
    (h2 : SimplexEvent.broadcastVote (.notarize ⟨s, h'⟩) ∈ events) : h = h' := by
  obtain ⟨pre, post, heq⟩ := List.append_of_mem h1
  rw [heq] at h2
  rcases List.mem_append.mp h2 with hpre | hpost
  · exact absurd hpre (hs.notarize_once s h h' pre post heq)
  · rcases List.mem_cons.mp hpost with he | hpost
    · cases he
      rfl
    · -- the other order: `h` stands before `h'`
      obtain ⟨mid, post', rfl⟩ := List.append_of_mem hpost
      have heq' : events = (pre ++ .broadcastVote (.notarize ⟨s, h⟩) :: mid) ++
          .broadcastVote (.notarize ⟨s, h'⟩) :: post' := by
        rw [heq, List.append_assoc]
        rfl
      refine absurd ?_ (hs.notarize_once s h' h _ post' heq')
      exact List.mem_append_right _ List.mem_cons_self

section Agreement

variable (hf : net.FaultBound) (hinv : ∀ i, i ∉ net.faulty → NodeInv net g (g.nodes i))
include hf hinv

variable {s : ℕ} {h : UInt256}

section

variable (hfin : (g.evidence net).final s h)
include hfin

theorem not_final_and_skip : ¬ (g.evidence net).skip s := by
  intro hskip
  obtain ⟨i, hi, h1, h2⟩ := exists_honest_both hf hfin hskip
  exact (hinv i hi).safe.finalize_or_skip s h h1 h2

theorem final_notar_hash {h' : UInt256} (hnotar : (g.evidence net).notar s h') : h' = h := by
  obtain ⟨i, hi, h1, h2⟩ := exists_honest_both hf hfin hnotar
  have hsafe := (hinv i hi).safe
  obtain ⟨pre, post, heq⟩ := List.append_of_mem h1
  have hpre := hsafe.finalize_notarized s h pre post heq
  have hm : SimplexEvent.broadcastVote (.notarize ⟨s, h⟩) ∈ (g.nodes i).events := by
    rw [heq]
    exact List.mem_append_left _ hpre
  exact hsafe.notarize_unique h2 hm

omit hf in
/-- Whoever finalizes a block notarized it. -/
theorem notar_of_final : (g.evidence net).notar s h := by
  obtain ⟨A, hA, hw, hs⟩ := hfin
  refine ⟨A, hA, hw, fun i hi => ?_⟩
  by_cases hif : i ∈ net.faulty
  · exact Or.inl hif
  · obtain ⟨pre, post, heq⟩ := List.append_of_mem ((hs i hi).resolve_left hif)
    refine Or.inr ?_
    rw [heq]
    exact List.mem_append_left _ ((hinv i hif).safe.finalize_notarized s h pre post heq)

/-- A notarized block above a finalized one was built on a notarized parent at
or above the finalized slot. -/
theorem notar_parent {s' : ℕ} {h' : UInt256}
    (hnotar : (g.evidence net).notar s' h') (hlt : s < s') :
    ∃ c ∈ g.candidates, c.id.slot = s' ∧ c.id.hash = h' ∧ ∃ p, c.parent = some p ∧
      s ≤ p.slot ∧ p.slot < s' ∧ (g.evidence net).notar p.slot p.hash := by
  obtain ⟨i, hi, hv⟩ := exists_honest_signer hf hnotar
  have hnode := hinv i hi
  obtain ⟨c, hc, hslot, hhash, hbase⟩ :=
    hnode.justified.notarized s' h' ((mem_emitted_iff _ _).mpr hv)
  have hnoskip := not_final_and_skip hf hinv hfin
  refine ⟨c, hc.1, hslot, hhash, ?_⟩
  cases hparent : c.parent with
  | none =>
    -- genesis as parent would need a skip certificate of the finalized slot
    rw [hparent] at hbase
    exact absurd (hbase s hlt) hnoskip
  | some p =>
    rw [hparent] at hbase
    refine ⟨p, rfl, ?_, ?_, hbase.1.elim id (notar_of_final hinv)⟩
    · by_contra hps
      exact hnoskip (hbase.2 s (by omega) hlt)
    · obtain ⟨q, hq, rfl⟩ := Option.map_eq_some_iff.mp hparent
      rw [← hslot]
      exact hc.2 q hq

end

end Agreement

def NetState.ParentLink (g : NetState) (p b : CandidateParentInfo) : Prop :=
  ∃ c ∈ g.candidates, c.id.slot = b.slot ∧ c.id.hash = b.hash ∧ c.parent = some p

abbrev NetState.Ancestor (g : NetState) : CandidateParentInfo → CandidateParentInfo → Prop :=
  TransGen g.ParentLink

/-- Every block notarized at or above a finalized block extends it. -/
theorem final_extends (hf : net.FaultBound)
    (hinv : ∀ i, i ∉ net.faulty → NodeInv net g (g.nodes i)) {s : ℕ} {h : UInt256}
    (hfin : (g.evidence net).final s h) (s' : ℕ) (h' : UInt256)
    (hnotar : (g.evidence net).notar s' h') (hle : s ≤ s') :
    (⟨s', h'⟩ : CandidateParentInfo) = ⟨s, h⟩ ∨ g.Ancestor ⟨s, h⟩ ⟨s', h'⟩ := by
  induction s' using Nat.strong_induction_on generalizing h' with
  | _ s' ih =>
    rcases Nat.eq_or_lt_of_le hle with rfl | hlt
    · rw [final_notar_hash hf hinv hfin hnotar]
      exact Or.inl rfl
    · obtain ⟨c, hc, hslot, hhash, p, hp, hsp, hps, hpn⟩ := notar_parent hf hinv hfin hnotar hlt
      have hlink : g.ParentLink p ⟨s', h'⟩ := ⟨c, hc, hslot, hhash, hp⟩
      right
      rcases ih p.slot hps p.hash hpn hsp with heq | hanc
      · exact TransGen.single (heq ▸ hlink)
      · exact TransGen.tail hanc hlink

/-- Simplex agreement: with less than a third of the weight faulty, a notarized
block at or above a finalized block is that block or extends it, in every state
of every interleaving; so two finalized blocks never conflict. -/
theorem simplex_agreement (net : Network) (hf : net.FaultBound) (g : NetState)
    (hg : NetReachable net g) :
    (∀ (c : FinalCert) (c' : NotarCert), Verified net g (.finalize c.vote) c.signatures →
      Verified net g (.notarize c'.vote) c'.signatures → c.vote.slot ≤ c'.vote.slot →
        (⟨c'.vote.slot, c'.vote.blockHash⟩ : CandidateParentInfo) =
            ⟨c.vote.slot, c.vote.blockHash⟩ ∨
          g.Ancestor ⟨c.vote.slot, c.vote.blockHash⟩ ⟨c'.vote.slot, c'.vote.blockHash⟩) ∧
    ∀ c c' : FinalCert, Verified net g (.finalize c.vote) c.signatures →
      Verified net g (.finalize c'.vote) c'.signatures → c.vote.slot ≤ c'.vote.slot →
        (⟨c'.vote.slot, c'.vote.blockHash⟩ : CandidateParentInfo) =
            ⟨c.vote.slot, c.vote.blockHash⟩ ∨
          g.Ancestor ⟨c.vote.slot, c.vote.blockHash⟩ ⟨c'.vote.slot, c'.vote.blockHash⟩ := by
  have hinv := nodeInv_reachable hg
  refine ⟨fun c c' hc hc' hle => ?_, fun c c' hc hc' hle => ?_⟩
  · exact final_extends hf hinv hc.quorum _ _ hc'.quorum hle
  · exact final_extends hf hinv hc.quorum _ _ (notar_of_final hinv hc'.quorum) hle

/-- Certificates of one slot exclude each other: it has one notarized block at
most, and none of its blocks is finalized while it is skipped. -/
theorem certificates_exclusive (net : Network) (hf : net.FaultBound) (g : NetState)
    (hg : NetReachable net g) :
    (∀ c c' : NotarCert, Verified net g (.notarize c.vote) c.signatures →
      Verified net g (.notarize c'.vote) c'.signatures → c.vote.slot = c'.vote.slot →
        c.vote = c'.vote) ∧
    ∀ (c : FinalCert) (c' : SkipCert), Verified net g (.finalize c.vote) c.signatures →
      Verified net g (.skip c'.vote) c'.signatures → c.vote.slot ≠ c'.vote.slot := by
  have hinv := nodeInv_reachable hg
  refine ⟨fun c c' hc hc' hslot => ?_, fun c c' hc hc' hslot => ?_⟩
  · obtain ⟨⟨s, h⟩, l⟩ := c
    obtain ⟨⟨s', h'⟩, l'⟩ := c'
    obtain rfl : s = s' := hslot
    obtain ⟨i, hi, h1, h2⟩ := exists_honest_both hf hc.quorum hc'.quorum
    exact congrArg (NotarizeVote.mk s) ((hinv i hi).safe.notarize_unique h1 h2)
  · apply not_final_and_skip hf hinv hc.quorum
    rw [hslot]
    exact hc'.quorum

/-- A block whose slots below are all accounted for: each is the slot of a
notarized ancestor or has a skip certificate. -/
inductive Rooted (net : Network) (g : NetState) : CandidateParentInfo → Prop
  | genesis {c : Candidate} (hc : c ∈ g.candidates) (hp : c.parent = none)
      (hskip : ∀ k < c.id.slot, (g.evidence net).skip k) : Rooted net g ⟨c.id.slot, c.id.hash⟩
  | child {c : Candidate} {p : CandidateParentInfo} (hc : c ∈ g.candidates)
      (hp : c.parent = some p) (hlt : p.slot < c.id.slot)
      (hnotar : (g.evidence net).notar p.slot p.hash)
      (hskip : ∀ k, p.slot < k → k < c.id.slot → (g.evidence net).skip k)
      (h : Rooted net g p) : Rooted net g ⟨c.id.slot, c.id.hash⟩

theorem rooted_of_notar (hf : net.FaultBound)
    (hinv : ∀ i, i ∉ net.faulty → NodeInv net g (g.nodes i)) (s : ℕ) (h : UInt256)
    (hnotar : (g.evidence net).notar s h) : Rooted net g ⟨s, h⟩ := by
  induction s using Nat.strong_induction_on generalizing h with
  | _ s ih =>
    -- an honest signer had the candidate and a base for it
    obtain ⟨i, hi, hv⟩ := exists_honest_signer hf hnotar
    obtain ⟨c, hc, rfl, rfl, hbase⟩ :=
      (hinv i hi).justified.notarized s h ((mem_emitted_iff _ _).mpr hv)
    cases hp : c.parent with
    | none =>
      rw [hp] at hbase
      exact Rooted.genesis hc.1 hp hbase
    | some p =>
      rw [hp] at hbase
      obtain ⟨q, hq, rfl⟩ := Option.map_eq_some_iff.mp hp
      have hparent := hbase.1.elim id (notar_of_final hinv)
      exact Rooted.child hc.1 hp (hc.2 q hq) hparent hbase.2 (ih _ (hc.2 q hq) _ hparent)

/-- Every notarized block of every interleaving is rooted. -/
theorem notarized_rooted (net : Network) (hf : net.FaultBound) (g : NetState)
    (hg : NetReachable net g) (c : NotarCert) (hc : Verified net g (.notarize c.vote) c.signatures) :
    Rooted net g ⟨c.vote.slot, c.vote.blockHash⟩ :=
  rooted_of_notar hf (nodeInv_reachable hg) _ _ hc.quorum

instance (net : Network) (g : NetState) (i : ℕ) (v : Vote) : Decidable (g.Signed net i v) :=
  inferInstanceAs (Decidable (_ ∨ _))

instance (net : Network) (g : NetState) (v : Vote) (l : List VoteSignature) :
    Decidable (Verified net g v l) :=
  decidable_of_iff
    ((∀ s ∈ l, s.validatorIdx < net.desc.totalNodes) ∧ (l.map (·.validatorIdx)).Nodup ∧
      (∀ s ∈ l, g.Signed net s.validatorIdx v) ∧
      net.desc.getThreshold66 ≤ (l.map fun s => net.desc.nodeWeight s.validatorIdx).sum)
    ⟨fun h => ⟨h.1, h.2.1, h.2.2.1, h.2.2.2⟩, fun h => ⟨h.bounds, h.nodup, h.signed, h.weight⟩⟩

instance (net : Network) (g : NetState) (op : Op) : Decidable (Deliverable net g op) :=
  match op with
  | .onVote _ _ _ _ => inferInstanceAs (Decidable (g.Signed net _ _))
  | .setNotarizeCertificate _ => inferInstanceAs (Decidable (Verified net g _ _))
  | .setFinalizeCertificate _ => inferInstanceAs (Decidable (Verified net g _ _))
  | .setSkipCertificate _ => inferInstanceAs (Decidable (Verified net g _ _))
  | .onCandidate _ => isTrue trivial
  | .checkAll => isTrue trivial
  | .cleanupSlots _ => isTrue trivial

instance (net : Network) (g : NetState) (op : SessionOp) : Decidable (op.Admissible net g) :=
  match op with
  | .start => isTrue trivial
  | .live op => inferInstanceAs (Decidable (Deliverable net g op))

def NetState.deliver (net : Network) (g : NetState) (i now : ℕ) (op : SessionOp) :
    Option NetState :=
  if i ∉ net.faulty ∧ op.Admissible net g then
    match applySessionOp net.desc now (g.nodes i) op with
    | .ok st => some ⟨Function.update g.nodes i st, op.candidates ++ g.candidates⟩
    | .error _ => none
  else none

def NetState.deliverAll (net : Network) : NetState → List (ℕ × ℕ × SessionOp) → Option NetState
  | g, [] => some g
  | g, (i, now, op) :: rest => (g.deliver net i now op).bind fun g' => g'.deliverAll net rest

theorem netStep_of_deliver {i now : ℕ} {op : SessionOp} (h : g.deliver net i now op = some g') :
    NetStep net g g' := by
  unfold NetState.deliver at h
  split_ifs at h with hcond
  cases hrun : applySessionOp net.desc now (g.nodes i) op with
  | error p =>
    rw [hrun] at h
    cases h
  | ok st =>
    rw [hrun] at h
    cases h
    exact NetStep.act i now op hcond.1 hcond.2 hrun

theorem steps_of_deliverAll {schedule : List (ℕ × ℕ × SessionOp)}
    (h : g.deliverAll net schedule = some g') : ReflTransGen (NetStep net) g g' := by
  induction schedule generalizing g with
  | nil =>
    cases h
    exact ReflTransGen.refl
  | cons entry rest ih =>
    obtain ⟨g1, h1, h2⟩ := Option.bind_eq_some_iff.mp h
    exact ReflTransGen.head (netStep_of_deliver h1) (ih h2)

def fourValidators : Network where
  desc :=
    { weights := [1, 1, 1, 1]
      slotsPerLeaderWindow := 2
      maxLeaderWindowDesync := 1
      targetRate := 1
      firstBlockTimeout := 1
      backoff := id
      nodes_pos := by decide
      slots_pos := by decide
      rate_pos := by decide }
  faulty := {3}

def threeSignatures : List VoteSignature := [⟨0, []⟩, ⟨1, []⟩, ⟨3, []⟩]

/-- Slot 1 is skipped: its timeout, at time 3, comes before the candidate. -/
def childSchedule : List (ℕ × ℕ × SessionOp) :=
  let block : BlockIdExt := ⟨0, 0, 0, 0, 0⟩
  let first : Candidate := ⟨⟨0, 5, block⟩, none, 0⟩
  let child : Candidate := ⟨⟨2, 7, block⟩, some first.id, 0⟩
  let notar : NotarCert := ⟨⟨0, 5⟩, threeSignatures⟩
  let skip : SkipCert := ⟨⟨1⟩, threeSignatures⟩
  [(0, 0, .start), (1, 0, .start), (0, 0, .live (.onCandidate first)),
    (1, 0, .live (.onCandidate first)), (0, 0, .live (.setNotarizeCertificate notar)),
    (1, 0, .live (.setNotarizeCertificate notar)), (0, 3, .live .checkAll), (1, 3, .live .checkAll),
    (0, 3, .live (.setSkipCertificate skip)), (1, 3, .live (.setSkipCertificate skip)),
    (0, 3, .live (.onCandidate child)), (1, 3, .live (.onCandidate child))]

theorem childSchedule_certified : fourValidators.FaultBound ∧ ∃ g, NetReachable fourValidators g ∧
      Verified fourValidators g (.finalize ⟨0, 5⟩) threeSignatures ∧
      Verified fourValidators g (.skip ⟨1⟩) threeSignatures ∧
      Verified fourValidators g (.notarize ⟨2, 7⟩) threeSignatures := by
  have hrun : ((NetState.init fourValidators).deliverAll fourValidators childSchedule).any
      (fun g => decide (Verified fourValidators g (.finalize ⟨0, 5⟩) threeSignatures ∧
        Verified fourValidators g (.skip ⟨1⟩) threeSignatures ∧
        Verified fourValidators g (.notarize ⟨2, 7⟩) threeSignatures)) = true := by
    decide +kernel
  obtain ⟨g, hg, hcheck⟩ := (Option.any_eq_true _ _).mp hrun
  exact ⟨by decide +kernel, g, steps_of_deliverAll hg, of_decide_eq_true hcheck⟩

theorem childSchedule_agreement : ∃ g, NetReachable fourValidators g ∧
      Verified fourValidators g (.finalize ⟨0, 5⟩) threeSignatures ∧
      Verified fourValidators g (.notarize ⟨2, 7⟩) threeSignatures ∧ g.Ancestor ⟨0, 5⟩ ⟨2, 7⟩ := by
  obtain ⟨hbound, g, hg, hfin, -, hnotar⟩ := childSchedule_certified
  have hagree := (simplex_agreement fourValidators hbound g hg).1
    ⟨⟨0, 5⟩, threeSignatures⟩ ⟨⟨2, 7⟩, threeSignatures⟩ hfin hnotar (Nat.zero_le 2)
  exact ⟨g, hg, hfin, hnotar, hagree.resolve_left (by decide)⟩

theorem childSchedule_exclusive : ∃ g, NetReachable fourValidators g ∧
      Verified fourValidators g (.notarize ⟨2, 7⟩) threeSignatures ∧
      (∀ h l, Verified fourValidators g (.notarize ⟨2, h⟩) l → h = 7) ∧
      (∀ l, ¬ Verified fourValidators g (.skip ⟨0⟩) l) ∧
      ∀ h l, ¬ Verified fourValidators g (.finalize ⟨1, h⟩) l := by
  obtain ⟨hbound, g, hg, hfin, hskipped, hnotar⟩ := childSchedule_certified
  obtain ⟨hone, hskip⟩ := certificates_exclusive fourValidators hbound g hg
  refine ⟨g, hg, hnotar, fun h l hl => ?_, fun l hl => ?_, fun h l hl => ?_⟩
  · exact congrArg NotarizeVote.blockHash (hone ⟨⟨2, h⟩, l⟩ ⟨⟨2, 7⟩, threeSignatures⟩ hl hnotar rfl)
  · exact hskip ⟨⟨0, 5⟩, threeSignatures⟩ ⟨⟨0⟩, l⟩ hfin hl rfl
  · exact hskip ⟨⟨1, h⟩, l⟩ ⟨⟨1⟩, threeSignatures⟩ hl hskipped rfl

theorem childSchedule_rooted : ∃ g, NetReachable fourValidators g ∧
    Rooted fourValidators g ⟨2, 7⟩ := by
  obtain ⟨hbound, g, hg, -, -, hnotar⟩ := childSchedule_certified
  exact ⟨g, hg, notarized_rooted fourValidators hbound g hg ⟨⟨2, 7⟩, threeSignatures⟩ hnotar⟩

end TonNode.Simplex
