import TonNode.SimplexStoreRuns
import TonNode.SimplexJustified

/-! Order independence of certificates. What a set of certificates says about
the parent chain is stated without a state machine; a fresh state to which the
certificates are delivered, in any order and with repetitions, ends there. -/
namespace TonNode.Simplex

inductive AnyCert where
  | notar (certificate : NotarCert)
  | final (certificate : FinalCert)
  | skip (certificate : SkipCert)
deriving DecidableEq

def AnyCert.slot : AnyCert → ℕ
  | .notar c => c.vote.slot
  | .final c => c.vote.slot
  | .skip c => c.vote.slot

def AnyCert.op : AnyCert → Op
  | .notar c => .setNotarizeCertificate c
  | .final c => .setFinalizeCertificate c
  | .skip c => .setSkipCertificate c

section CertSet

variable (S : Finset AnyCert)

def Notarized (s : ℕ) (h : UInt256) : Prop := ∃ c, .notar c ∈ S ∧ c.vote = ⟨s, h⟩
def Finalized (s : ℕ) (h : UInt256) : Prop := ∃ c, .final c ∈ S ∧ c.vote = ⟨s, h⟩
def Skipped (s : ℕ) : Prop := ∃ c, .skip c ∈ S ∧ c.vote = ⟨s⟩

structure ConsistentCerts : Prop where
  one_block : ∀ s h h', Notarized S s h ∨ Finalized S s h → Notarized S s h' ∨ Finalized S s h' →
    h = h'
  skip_final : ∀ s h, Finalized S s h → ¬ Skipped S s

/-- The base of the cursor `c`: the last block notarized before it, or the last
finalized block, or genesis. -/
def CursorBase (first c : ℕ) : CandidateParent → Prop
  | none => first = 0 ∧ ∀ s h, Notarized S s h → c ≤ s
  | some p => (Notarized S p.slot p.hash ∨ Finalized S p.slot p.hash) ∧ p.slot < c ∧
      first ≤ p.slot + 1 ∧ ∀ s h, Notarized S s h → first ≤ s → s < c → s ≤ p.slot

/-- The finalized boundary, the cursor and its base, as the certificates
determine them. -/
structure ChainHead (first c : ℕ) (b : CandidateParent) : Prop where
  final_lt : ∀ s h, Finalized S s h → s < first
  first_eq : first = 0 ∨ ∃ s h, Finalized S s h ∧ first = s + 1
  le : first ≤ c
  passed : ∀ k, first ≤ k → k < c → Skipped S k ∨ ∃ h, Notarized S k h
  stopped : ¬ Skipped S c ∧ ∀ h, ¬ Notarized S c h
  base : CursorBase S first c b

variable {S} {first first' c c' : ℕ} {b b' : CandidateParent}

theorem ChainHead.first_le (h : ChainHead S first c b) (h' : ChainHead S first' c' b') :
    first ≤ first' := by
  rcases h.first_eq with rfl | ⟨s, hash, hs, rfl⟩
  · exact Nat.zero_le _
  · exact h'.final_lt s hash hs

theorem ChainHead.cursor_le (h : ChainHead S first c b) (h' : ChainHead S first c' b') :
    c ≤ c' := by
  by_contra hlt
  rcases h.passed c' h'.le (Nat.not_le.mp hlt) with hs | ⟨hash, hn⟩
  · exact h'.stopped.1 hs
  · exact h'.stopped.2 hash hn

theorem ChainHead.base_le {p q : CandidateParentInfo} (h : ChainHead S first c (some p))
    (h' : ChainHead S first c (some q)) : p.slot ≤ q.slot := by
  obtain ⟨hcert, hlt, -, -⟩ := h.base
  obtain ⟨-, -, hfirst, hmax⟩ := h'.base
  rcases Nat.lt_or_ge p.slot first with hbelow | hge
  · omega
  · -- above the boundary the block is notarized, not finalized
    rcases hcert with hn | hf
    · exact hmax p.slot p.hash hn hge hlt
    · exact absurd (h.final_lt p.slot p.hash hf) (Nat.not_lt.mpr hge)

theorem ChainHead.not_genesis {p : CandidateParentInfo} (h : ChainHead S first c (some p)) :
    ¬ ChainHead S first c none := by
  intro h'
  obtain ⟨hzero, hnone⟩ := h'.base
  obtain ⟨hcert, hlt, -, -⟩ := h.base
  rcases hcert with hn | hf
  · exact absurd (hnone p.slot p.hash hn) (Nat.not_le.mpr hlt)
  · have hbelow := h.final_lt p.slot p.hash hf
    omega

theorem ChainHead.unique (hS : ConsistentCerts S) (h : ChainHead S first c b)
    (h' : ChainHead S first' c' b') : first = first' ∧ c = c' ∧ b = b' := by
  obtain rfl := le_antisymm (h.first_le h') (h'.first_le h)
  obtain rfl := le_antisymm (h.cursor_le h') (h'.cursor_le h)
  refine ⟨rfl, rfl, ?_⟩
  cases b with
  | none =>
    cases b' with
    | none => rfl
    | some q => exact absurd h h'.not_genesis
  | some p =>
    cases b' with
    | none => exact absurd h' h.not_genesis
    | some q =>
      have hslot := le_antisymm (h.base_le h') (h'.base_le h)
      have hq := h'.base.1
      rw [← hslot] at hq
      have hhash := hS.one_block p.slot p.hash q.hash h.base.1 hq
      obtain ⟨s, hash⟩ := p
      obtain ⟨s', hash'⟩ := q
      dsimp only at hslot hhash
      rw [hslot, hhash]

end CertSet

namespace SimplexState

open Relation SkipRuns

variable {desc : SessionDescription} {S : Finset AnyCert} {st st' : SimplexState}

def certEvidence (S : Finset AnyCert) : Evidence where
  cand _ := True
  notar := Notarized S
  final := Finalized S
  skip := Skipped S
  votes _ _ := True

theorem certEvidence_stable (S : Finset AnyCert) : (certEvidence S).Stable :=
  ⟨fun _ => trivial, fun _ _ _ _ _ => trivial⟩

structure Delivered (desc : SessionDescription) (S done : Finset AnyCert) (st : SimplexState) :
    Prop where
  resting : Resting True desc st
  store : StoreInv desc st
  votes : VoteInv desc [] st
  grounded : Grounded (certEvidence S) st
  justified : Justified desc (certEvidence S) st
  horizon : HorizonLe desc (new desc) st
  final_lt : ∀ c, .final c ∈ done → c.vote.slot < st.firstNonFinalizedSlot
  first_eq : st.firstNonFinalizedSlot = 0 ∨
    ∃ c, .final c ∈ done ∧ st.firstNonFinalizedSlot = c.vote.slot + 1
  skip : ∀ c, .skip c ∈ done → st.firstNonFinalizedSlot ≤ c.vote.slot →
    (slotAt desc st c.vote.slot).skipped = true
  notar : ∀ c, .notar c ∈ done → st.firstNonFinalizedSlot ≤ c.vote.slot →
    (slotAt desc st c.vote.slot).observedNotarCertificate.isSome

theorem new_delivered (desc : SessionDescription) (S : Finset AnyCert) :
    Delivered desc S ∅ (new desc) where
  resting := new_resting desc
  store := new_storeInv desc
  votes := new_voteInv desc
  grounded := new_grounded desc _
  justified := new_justified desc rfl
  horizon := HorizonLe.refl _
  final_lt _ hc := absurd hc (Finset.notMem_empty _)
  first_eq := Or.inl (new_update desc).2.finalized
  skip _ hc := absurd hc (Finset.notMem_empty _)
  notar _ hc := absurd hc (Finset.notMem_empty _)

theorem setNotarizeCertificate_conflict {now slot : ℕ} {hash : UInt256} {c : NotarCert}
    {e : CertificateStoreError}
    (h : setNotarizeCertificate desc now st slot hash c = .ok (st', .error e)) :
    ∃ c0, (st.slotVotesAt slot).notarizeCertificate = some c0 ∧ c0.vote.blockHash ≠ hash := by
  have hkept : Yields (fun r => ∀ e, r.2 = .error e → ∃ c0,
      (st.slotVotesAt slot).notarizeCertificate = some c0 ∧ c0.vote.blockHash ≠ hash)
      (setNotarizeCertificate desc now st slot hash c) :=
    setNotarizeCertificate_rule (fun r c0 hc0 _ hne e he => ⟨c0, hc0, hne e he⟩)
      nofun fun _ => Outcome.yields nofun
  exact hkept.of_ok h e rfl

variable {done : Finset AnyCert}

theorem Delivered.extend {c : AnyCert} (hd : Delivered desc S done st)
    (hrest : RestsFrom True desc st st') (hstore : StoreInv desc st') (hmarks : MarksLe desc st st')
    (hsteps : Steps desc (certEvidence S) st st')
    (hfinal : ∀ f, c = .final f → f.vote.slot < st'.firstNonFinalizedSlot)
    (hfirst : st'.firstNonFinalizedSlot = st.firstNonFinalizedSlot ∨ ∃ f, c = .final f ∧
      st'.firstNonFinalizedSlot = f.vote.slot + 1)
    (hskip : ∀ k, c = .skip k → st'.firstNonFinalizedSlot ≤ k.vote.slot →
      (slotAt desc st' k.vote.slot).skipped = true)
    (hnotar : ∀ n, c = .notar n → st'.firstNonFinalizedSlot ≤ n.vote.slot →
      (slotAt desc st' n.vote.slot).observedNotarCertificate.isSome) :
    Delivered desc S (insert c done) st' where
  resting := hrest.1
  store := hstore
  votes := hd.votes.steps hsteps
  grounded := hd.grounded.steps hsteps
  justified := hd.justified.steps hd.votes hsteps
  horizon := hd.horizon.trans hrest.2
  final_lt f hf := by
    rcases Finset.mem_insert.mp hf with heq | hold
    · exact hfinal f heq.symm
    · exact lt_of_lt_of_le (hd.final_lt f hold) hmarks.finalized
  first_eq := by
    rcases hfirst with hsame | ⟨f, rfl, heq⟩
    · rw [hsame]
      exact hd.first_eq.imp_right fun ⟨f, hf, heq⟩ => ⟨f, Finset.mem_insert_of_mem hf, heq⟩
    · exact Or.inr ⟨f, Finset.mem_insert_self _ _, heq⟩
  skip k hk hle := by
    rcases Finset.mem_insert.mp hk with heq | hold
    · exact hskip k heq.symm hle
    · exact hmarks.skipped _ hle (hd.skip k hold (hmarks.finalized.trans hle))
  notar n hn hle := by
    rcases Finset.mem_insert.mp hn with heq | hold
    · exact hnotar n heq.symm hle
    · exact hmarks.observed _ hle (hd.notar n hold (hmarks.finalized.trans hle))

/-- Certificates below the initial vote horizon always have room. -/
theorem Delivered.room {slot : ℕ} (hd : Delivered desc S done st)
    (hslot : slot < firstTooNewVoteSlot desc (new desc)) : WithinHorizon desc st (slot + 1) :=
  hd.horizon _ (withinHorizon_of_vote (decide_eq_false (Nat.not_le.mpr hslot)))

section

variable (hd : Delivered desc S done st)
include hd

theorem Delivered.notarization (hS : ConsistentCerts S) (c : NotarCert) (hc : .notar c ∈ S)
    (hslot : c.vote.slot < firstTooNewVoteSlot desc (new desc)) (now : ℕ) :
    ∃ st', applyOp desc now st (.setNotarizeCertificate c) = .ok st' ∧
      Delivered desc S (insert (.notar c) done) st' := by
  have hroom := hd.room hslot
  obtain ⟨⟨st', r⟩, hst', hrest⟩ :=
    (hd.resting.setNotarizeCertificate now c.vote.blockHash c fun _ => hroom).exists_ok
  obtain ⟨hstore, hmarks, hF, hobs⟩ :=
    (hd.store.setNotarizeCertificate (fun _ => hroom.pred) rfl).of_ok hst'
  have hsteps : Steps desc (certEvidence S) st st' := (setNotarizeCertificate_steps
    (certEvidence_stable S) hd.grounded ⟨c, hc, rfl⟩ rfl fun _ _ => trivial).of_ok hst'
  -- another stored block would be certified by the set as well
  have hnoconflict (hle : st.firstNonFinalizedSlot ≤ c.vote.slot) (e : CertificateStoreError) :
      r ≠ .error e := by
    rintro rfl
    obtain ⟨c0, hc0, hne⟩ := setNotarizeCertificate_conflict hst'
    have hmarker := (hd.store.stored _ hle).notar c0 hc0
    have hann := (hd.votes.observed _ _ hmarker).2
    exact hne (hS.one_block _ _ _ (hd.justified.announced _ hann) (Or.inl ⟨c, hc, rfl⟩))
  refine ⟨st', ?_, hd.extend hrest hstore hmarks hsteps nofun (Or.inl hF)
    nofun fun n hn hle => ?_⟩
  · dsimp only [applyOp]
    rw [hst']
    rfl
  · cases hn
    rw [hF] at hle
    rw [hobs hle (hnoconflict hle)]
    rfl

theorem Delivered.skipCertificate (c : SkipCert) (hc : .skip c ∈ S)
    (hslot : c.vote.slot < firstTooNewVoteSlot desc (new desc)) (now : ℕ) :
    ∃ st', applyOp desc now st (.setSkipCertificate c) = .ok st' ∧
      Delivered desc S (insert (.skip c) done) st' := by
  have hroom := hd.room hslot
  obtain ⟨⟨st', r⟩, hst', hrest⟩ :=
    (hd.resting.setSkipCertificate now c (fun _ => hroom) fun _ _ _ => trivial).exists_ok
  obtain ⟨hstore, hmarks, hF, hskip⟩ :=
    (hd.store.setSkipCertificate fun _ => hroom.pred).of_ok hst'
  have hsteps : Steps desc (certEvidence S) st st' := (setSkipCertificate_steps
    (certEvidence_stable S) hd.grounded ⟨c, hc, rfl⟩ fun _ _ => trivial).of_ok hst'
  refine ⟨st', ?_, hd.extend hrest hstore hmarks hsteps nofun (Or.inl hF)
    (fun k hk hle => ?_) nofun⟩
  · dsimp only [applyOp]
    rw [hst']
    rfl
  · cases hk
    exact hskip (hF ▸ hle)

theorem Delivered.finalization (c : FinalCert) (hc : .final c ∈ S) (now : ℕ) :
    ∃ st', applyOp desc now st (.setFinalizeCertificate c) = .ok st' ∧
      Delivered desc S (insert (.final c) done) st' := by
  obtain ⟨⟨st', r⟩, hst', hrest⟩ :=
    (hd.resting.setFinalizeCertificate now c.vote.slot c.vote.blockHash c).exists_ok
  obtain ⟨hstore, hmarks, hF⟩ := hd.store.setFinalizeCertificate.of_ok hst'
  have hsteps : Steps desc (certEvidence S) st st' := (setFinalizeCertificate_steps
    (certEvidence_stable S) hd.grounded ⟨c, hc, rfl⟩ fun _ _ => trivial).of_ok hst'
  refine ⟨st', ?_, hd.extend hrest hstore hmarks hsteps (fun f hf => ?_) ?_
    nofun nofun⟩
  · dsimp only [applyOp]
    rw [hst']
    rfl
  · cases hf
    rw [hF]
    omega
  · rcases Nat.lt_or_ge c.vote.slot st.firstNonFinalizedSlot with hlt | hge
    · exact Or.inl (hF.trans (Nat.max_eq_left hlt))
    · exact Or.inr ⟨c, rfl, hF.trans (Nat.max_eq_right (by omega))⟩

theorem Delivered.step (hS : ConsistentCerts S) (c : AnyCert) (hc : c ∈ S)
    (hslot : c.slot < firstTooNewVoteSlot desc (new desc)) (now : ℕ) :
    ∃ st', applyOp desc now st c.op = .ok st' ∧ Delivered desc S (insert c done) st' := by
  cases c with
  | notar c => exact hd.notarization hS c hc hslot now
  | final c => exact hd.finalization c hc now
  | skip c => exact hd.skipCertificate c hc hslot now

end

def deliveries (l : List (ℕ × AnyCert)) : List (ℕ × Op) := l.map fun e => (e.1, e.2.op)

theorem Delivered.run (hd : Delivered desc S done st) (hS : ConsistentCerts S)
    (l : List (ℕ × AnyCert)) (hl : ∀ e ∈ l, e.2 ∈ S)
    (hslots : ∀ c ∈ S, c.slot < firstTooNewVoteSlot desc (new desc)) :
    ∃ st', runOps desc st (deliveries l) = .ok st' ∧
      Delivered desc S ((l.map Prod.snd).toFinset ∪ done) st' := by
  induction l generalizing st done with
  | nil => exact ⟨st, rfl, by simpa using hd⟩
  | cons e l ih =>
    have he := hl e List.mem_cons_self
    obtain ⟨st1, hst1, hd1⟩ := hd.step hS e.2 he (hslots e.2 he) e.1
    obtain ⟨st', hst', hd'⟩ := ih hd1 fun e' he' => hl e' (List.mem_cons_of_mem e he')
    refine ⟨st', ?_, ?_⟩
    · unfold runOps deliveries
      rw [List.map_cons, List.foldlM_cons, hst1]
      exact hst'
    · have hset : ((e :: l).map Prod.snd).toFinset ∪ done =
          (l.map Prod.snd).toFinset ∪ insert e.2 done := by
        ext c
        simp only [List.map_cons, List.toFinset_cons, Finset.mem_union, Finset.mem_insert]
        tauto
      rw [hset]
      exact hd'

theorem Delivered.chainHead (hd : Delivered desc S S st) :
    ∃ b, getSlotAvailableBase desc st st.firstNonProgressedSlot = some b ∧
      ChainHead S st.firstNonFinalizedSlot st.firstNonProgressedSlot b := by
  have hle := hd.resting.finalized_le
  have hstop := hd.resting.stopped
  rw [isSlotProgressed_eq, decide_eq_true hle, Bool.true_and, Bool.or_eq_false_iff] at hstop
  have hfinal (s : ℕ) (h : UInt256) (hf : Finalized S s h) : s < st.firstNonFinalizedSlot := by
    obtain ⟨c, hc, hv⟩ := hf
    have hlt := hd.final_lt c hc
    rwa [hv] at hlt
  have hmarker (s : ℕ) (h : UInt256) (hn : Notarized S s h) (hs : st.firstNonFinalizedSlot ≤ s) :
      (slotAt desc st s).observedNotarCertificate.isSome := by
    obtain ⟨c, hc, hv⟩ := hn
    have hobs := hd.notar c hc
    rw [hv] at hobs
    exact hobs hs
  have hanchor (s : ℕ) (h : UInt256) (hn : Notarized S s h) (hs : st.firstNonFinalizedSlot ≤ s) :
      Anchor desc st (s + 1) := ⟨by omega, Or.inr ⟨s, rfl, hmarker s h hn hs⟩⟩
  obtain ⟨b, hb, hmax⟩ := hd.resting.base_known
  have hheight := hd.resting.chain.height _ _ hb
  rw [max_self] at hheight
  have hfirst := hmax _ ⟨le_rfl, Or.inl rfl⟩ hle
  refine ⟨b, ?_, hfinal, ?_, hle, fun k hk hkc => ?_, ⟨fun hs => ?_, fun h hn => ?_⟩, ?_⟩
  · rw [getSlotAvailableBase_eq, if_neg (Nat.not_lt.mpr hle), hb]
  · exact hd.first_eq.imp_right fun ⟨c, hc, heq⟩ => ⟨_, _, ⟨c, hc, rfl⟩, heq⟩
  · -- every slot behind the cursor got its mark from a certificate
    have hp := hd.resting.chain.passed k hk hkc
    rw [isSlotProgressed_eq, decide_eq_true hk, Bool.true_and, Bool.or_eq_true] at hp
    refine hp.imp (hd.justified.skipped k) fun ho => ?_
    obtain ⟨p, hobs⟩ := Option.isSome_iff_exists.mp ho
    obtain ⟨rfl, hann⟩ := hd.votes.observed k p hobs
    rcases hd.justified.announced p hann with hn | hf
    · exact ⟨p.hash, hn⟩
    · exact absurd (hfinal _ _ hf) (Nat.not_lt.mpr hk)
  · obtain ⟨c, hc, hv⟩ := hs
    have hflag := hd.skip c hc
    rw [hv] at hflag
    rw [hflag hle] at hstop
    exact Bool.noConfusion hstop.1
  · rw [hmarker _ h hn hle] at hstop
    exact Bool.noConfusion hstop.2
  · cases b with
    | none =>
      have hzero : st.firstNonFinalizedSlot = 0 := Nat.le_zero.mp hfirst
      refine ⟨hzero, fun s h hn => ?_⟩
      by_contra hlt
      have hs := hmax _ (hanchor s h hn (by omega)) (by omega)
      exact absurd hs (Nat.not_succ_le_zero s)
    | some p =>
      refine ⟨(hd.justified.base _ _ hb).1, hheight, hfirst, fun s h hn hs hsc => ?_⟩
      exact Nat.le_of_succ_le_succ (hmax _ (hanchor s h hn hs) hsc)

/-- Certificates below the initial vote horizon lead to the same boundary, the
same cursor and the same base of the cursor in any order and with any
repetitions; no order panics. -/
theorem certificates_order_independent (desc : SessionDescription) (S : Finset AnyCert)
    (hS : ConsistentCerts S) (hslots : ∀ c ∈ S, c.slot < firstTooNewVoteSlot desc (new desc))
    (l l' : List (ℕ × AnyCert)) (hl : (l.map Prod.snd).toFinset = S)
    (hl' : (l'.map Prod.snd).toFinset = S) :
    ∃ st st', runOps desc (new desc) (deliveries l) = .ok st ∧
      runOps desc (new desc) (deliveries l') = .ok st' ∧
      st.firstNonFinalizedSlot = st'.firstNonFinalizedSlot ∧
      st.firstNonProgressedSlot = st'.firstNonProgressedSlot ∧
      getSlotAvailableBase desc st st.firstNonProgressedSlot =
        getSlotAvailableBase desc st' st'.firstNonProgressedSlot := by
  have hrun (m : List (ℕ × AnyCert)) (hm : (m.map Prod.snd).toFinset = S) :
      ∃ st, runOps desc (new desc) (deliveries m) = .ok st ∧ Delivered desc S S st := by
    obtain ⟨st, hst, hd⟩ := (new_delivered desc S).run hS m
      (fun e he => hm ▸ List.mem_toFinset.mpr (List.mem_map_of_mem he)) hslots
    rw [hm, Finset.union_empty] at hd
    exact ⟨st, hst, hd⟩
  obtain ⟨st, hst, hd⟩ := hrun l hl
  obtain ⟨st', hst', hd'⟩ := hrun l' hl'
  obtain ⟨b, hb, hhead⟩ := hd.chainHead
  obtain ⟨b', hb', hhead'⟩ := hd'.chainHead
  obtain ⟨hF, hC, rfl⟩ := hhead.unique hS hhead'
  exact ⟨st, st', hst, hst', hF, hC, hb.trans hb'.symm⟩

def soloCerts : List AnyCert :=
  [.skip ⟨⟨0⟩, soloSignatures⟩, .notar ⟨⟨1, 5⟩, soloSignatures⟩, .final ⟨⟨1, 5⟩, soloSignatures⟩,
    .skip ⟨⟨2⟩, soloSignatures⟩]

/-- Both orders of delivery end with boundary 2 and the block of slot 1 as the
base of cursor 3. -/
theorem soloCerts_order_independent :
    ∃ st st', runOps (soloSession 2 1 Nat.two_pos) (new (soloSession 2 1 Nat.two_pos))
        (deliveries (soloCerts.map fun c => (0, c))) = .ok st ∧
      runOps (soloSession 2 1 Nat.two_pos) (new (soloSession 2 1 Nat.two_pos))
        (deliveries ((soloCerts.reverse ++ soloCerts).map fun c => (0, c))) = .ok st' ∧
      st.firstNonFinalizedSlot = 2 ∧ st'.firstNonFinalizedSlot = 2 ∧
      st'.firstNonProgressedSlot = 3 ∧
      getSlotAvailableBase (soloSession 2 1 Nat.two_pos) st' 3 = some (some ⟨1, 5⟩) := by
  have hcons : ConsistentCerts soloCerts.toFinset := by
    have hblock (s : ℕ) (h : UInt256) (hb : Notarized soloCerts.toFinset s h ∨
        Finalized soloCerts.toFinset s h) : s = 1 ∧ h = 5 := by
      rcases hb with ⟨c, hc, hv⟩ | ⟨c, hc, hv⟩
      · simp only [soloCerts, List.mem_toFinset, List.mem_cons, AnyCert.notar.injEq, reduceCtorEq,
          List.not_mem_nil, or_false, false_or] at hc
        subst hc
        cases hv
        exact ⟨rfl, rfl⟩
      · simp only [soloCerts, List.mem_toFinset, List.mem_cons, AnyCert.final.injEq, reduceCtorEq,
          List.not_mem_nil, or_false, false_or] at hc
        subst hc
        cases hv
        exact ⟨rfl, rfl⟩
    refine ⟨fun s h h' hb hb' => (hblock s h hb).2.trans (hblock s h' hb').2.symm,
      fun s h hf hs => ?_⟩
    obtain ⟨c, hc, hv⟩ := hs
    have hs1 := (hblock s h (Or.inr hf)).1
    simp only [soloCerts, List.mem_toFinset, List.mem_cons, AnyCert.skip.injEq, reduceCtorEq,
      List.not_mem_nil, or_false, false_or] at hc
    subst hs1
    rcases hc with rfl | rfl
    · cases hv
    · cases hv
  have hslots : ∀ c ∈ soloCerts.toFinset, c.slot <
      firstTooNewVoteSlot (soloSession 2 1 Nat.two_pos) (new (soloSession 2 1 Nat.two_pos)) := by
    decide +kernel
  obtain ⟨st, st', hst, hst', hF, hC, hbase⟩ := certificates_order_independent
    (soloSession 2 1 Nat.two_pos) soloCerts.toFinset hcons hslots
    (soloCerts.map fun c => (0, c)) ((soloCerts.reverse ++ soloCerts).map fun c => (0, c))
    (by decide +kernel) (by decide +kernel)
  have hrun : returnsWith (runOps (soloSession 2 1 Nat.two_pos)
      (new (soloSession 2 1 Nat.two_pos)) (deliveries (soloCerts.map fun c => (0, c))))
      (fun st => st.firstNonFinalizedSlot == 2 && (st.firstNonProgressedSlot == 3 &&
        getSlotAvailableBase (soloSession 2 1 Nat.two_pos) st 3 == some (some ⟨1, 5⟩))) = true := by
    decide +kernel
  rw [hst] at hrun
  simp only [returnsWith, Bool.and_eq_true, beq_iff_eq] at hrun
  obtain ⟨hF2, hC3, hb⟩ := hrun
  rw [hC3] at hC hbase
  rw [← hC] at hbase
  exact ⟨st, st', hst, hst', hF2, hF.symm.trans hF2, hC.symm, hbase.symm.trans hb⟩

end SimplexState

end TonNode.Simplex
