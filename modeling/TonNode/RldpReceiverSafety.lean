import TonNode.RaptorqDecoder

/-!
The chunks of a transfer come from a peer that may send anything.  The sizes are safe whatever comes:
the total size is at most the cap, and the data is at most the total size.  The slots of a version 2
transfer are not: the window test counts the slots there are, and the loop after it adds slots up to
the number in the chunk.  Nor does the decoder survive every packet: it does if every packet has the
symbol size and the number of its symbol can be written in 24 bits.
-/
namespace TonNode.Rldp

open Constraints
open Guarded (NoCrash Safe noCrash_ok noCrash_bind index_eq_ok)
open RecvTransfer (processV2 storeV2 fillSlot settle processV1 collect)
open RecvPartV2 (new slide mark)

variable {D : DecoderEngine}

theorem le_length_takeWhile_iff {α : Type} (P : α → Bool) (l : List α) (n : ℕ) :
    n ≤ (l.takeWhile P).length ↔ ∀ j < n, ∃ a, l[j]? = some a ∧ P a = true := by
  induction l generalizing n with
  | nil =>
    cases n with
    | zero => simp
    | succ n =>
      rw [Nat.forall_lt_succ_left]
      simp
  | cons a l ih =>
    cases n with
    | zero => simp
    | succ n =>
      rw [Nat.forall_lt_succ_left]
      by_cases ha : P a = true
      · simp [ha, ih]
      · simp [ha]

variable {parts : List (RecvPartV2 D)}

theorem le_leading_iff {n : ℕ} :
    n ≤ (leading parts).length ↔ ∀ j < n, ∃ p, parts[j]? = some p ∧ p.data.isSome = true :=
  le_length_takeWhile_iff _ _ _

theorem leading_length_le (parts : List (RecvPartV2 D)) : (leading parts).length ≤ parts.length :=
  (List.takeWhile_prefix _).length_le

variable {i : ℕ} {p : RecvPartV2 D}

theorem leading_le_of_isNone (hp : parts[i]? = some p) (hdata : p.data = none) :
    (leading parts).length ≤ i := by
  by_contra hlt
  obtain ⟨q, hq, hsome⟩ := le_leading_iff.mp (Nat.lt_of_not_le hlt) i (Nat.lt_succ_self i)
  rw [hp] at hq
  cases hq
  rw [hdata] at hsome
  cases hsome

variable {q : RecvPartV2 D}

/-- Replacing a part that has no data loses no leading part. -/
theorem leading_le_set (hp : parts[i]? = some p) (hdata : p.data = none) :
    (leading parts).length ≤ (leading (parts.set i q)).length := by
  have hi := leading_le_of_isNone hp hdata
  rw [le_leading_iff]
  intro j hj
  obtain ⟨a, ha, hsome⟩ := le_leading_iff.mp le_rfl j hj
  have hne : i ≠ j := by omega
  exact ⟨a, by rw [List.getElem?_set_ne hne, ha], hsome⟩

/-- A replacement behind the first part without data changes no leading part. -/
theorem leading_set_le {k : ℕ} (hp : parts[k]? = some p) (hdata : p.data = none) (hne : i ≠ k) :
    (leading (parts.set i q)).length ≤ k := by
  refine leading_le_of_isNone (p := p) ?_ hdata
  rw [List.getElem?_set_ne hne, hp]

/-- The count of a slot is the number of different sequence numbers seen, as far as the window
remembers: a number inside the window that has been counted is marked. -/
def RecvPartV2.Counted (part : RecvPartV2 D) : Prop :=
  part.core.maxSeqno < 2 ^ 24 ∧ ∃ seen : Finset ℕ, seen.card = part.receivedCount ∧
      (∀ s ∈ seen, s ≤ part.core.maxSeqno) ∧ ∀ s ∈ seen, part.core.maxSeqno - s < 32 →
        part.receivedMask.getLsbD (part.core.maxSeqno - s) = true

structure RecvTransfer.Bounded (r : RecvTransfer D) : Prop where
  total (t : ℕ) (ht : r.totalSize = some t) : t ≤ r.cap ∧ r.data.length ≤ t
  fresh (h : r.totalSize = none) : r.data = []

structure RecvTransfer.Open (r : RecvTransfer D) : Prop extends r.Bounded where
  v1 (part : RecvPartV1 D) (h : r.parts = .v1 part) : part.part ≤ r.data.length
  v2 (parts : List (RecvPartV2 D)) (h : r.parts = .v2 parts) :
    r.data = [] ∧ leadingSize parts ≤ r.cap ∧ ∀ p ∈ parts, p.Counted ∧ p.data ≠ some []

def DecoderEngine.Yields (D : DecoderEngine) : Prop :=
  ∀ s seqno data result s', D.decode s seqno data = .ok (some result, s') → result ≠ []

theorem raptorqEngine_yields (R : Raptorq) : (raptorqEngine R).Yields :=
  fun _ _ _ _ _ h => Decoder.decode_ne_nil h

theorem cap_le (r : RecvTransfer D) : r.cap ≤ 2 ^ 24 + 64 := by
  unfold RecvTransfer.cap MAX_TOTAL_TRANSFER_SIZE RLDP_ANSWER_TL_OVERHEAD
  cases r.expectedTotalSize with
  | none => exact le_rfl
  | some size => exact min_le_right _ _

theorem RecvTransfer.open_new (v2 : Bool) (expected : Option ℕ) :
    (RecvTransfer.new v2 expected : RecvTransfer D).Open where
  total t ht := by cases ht
  fresh _ := rfl
  v1 part h := by
    cases v2 with
    | true => cases h
    | false =>
      cases h
      exact le_rfl
  v2 parts h := by
    cases v2 with
    | false => cases h
    | true =>
      cases h
      exact ⟨rfl, Nat.zero_le _, by simp⟩

/-- The decoded parts at the front are fewer than the bytes they hold. -/
theorem leading_length_le_size (h : ∀ p ∈ parts, p.data ≠ some []) :
    (leading parts).length ≤ leadingSize parts := by
  unfold leadingSize
  rw [← List.length_map (f := fun part : RecvPartV2 D => (part.data.getD []).length)]
  refine List.length_le_sum_of_one_le _ ?_
  intro n hn
  obtain ⟨p, hp, rfl⟩ := List.mem_map.mp hn
  have hsome : p.data.isSome = true := by
    have hall := List.all_takeWhile (p := fun part : RecvPartV2 D => part.data.isSome) (l := parts)
    exact List.all_eq_true.mp hall p hp
  obtain ⟨data, hdata⟩ := Option.isSome_iff_exists.mp hsome
  have hne := h p ((List.takeWhile_prefix _).subset hp)
  rw [hdata] at hne ⊢
  exact List.length_pos_iff.mpr fun hnil => hne (congrArg some hnil)

theorem counted_new : (new : RecvPartV2 D).Counted :=
  ⟨Nat.two_pow_pos 24, ∅, rfl, by simp, by simp⟩

variable {part : RecvPartV2 D} {seqno : ℕ}

theorem counted_slide (h : part.Counted) (hs : seqno < 2 ^ 24) :
    (part.slide seqno).Counted ∧ seqno ≤ (part.slide seqno).core.maxSeqno := by
  unfold slide
  by_cases hlt : part.core.maxSeqno < seqno
  · rw [if_pos hlt]
    obtain ⟨hmax, seen, hcard, hle, hmask⟩ := h
    have hseen : (part.core.seen seqno).maxSeqno = seqno := by
      rw [RecvPart.seen, if_pos hlt]
    refine ⟨⟨by rw [hseen]; exact hs, seen, hcard, ?_, ?_⟩, hseen.ge⟩
    · intro s hs'
      rw [hseen]
      have := hle s hs'
      omega
    · -- a number still inside the window has moved up with the mask
      intro s hs' hwindow
      simp only [hseen] at hwindow ⊢
      have hsle := hle s hs'
      have hsmall : ¬ 32 ≤ seqno - part.core.maxSeqno := by omega
      have hshift : seqno - s - (seqno - part.core.maxSeqno) = part.core.maxSeqno - s := by omega
      rw [if_neg hsmall, BitVec.getLsbD_shiftLeft, hshift, hmask s hs' (by omega)]
      simp only [Bool.and_true, Bool.and_eq_true, decide_eq_true_eq, Bool.not_eq_true',
        decide_eq_false_iff_not, not_lt]
      omega
  · rw [if_neg hlt]
    exact ⟨h, Nat.le_of_not_lt hlt⟩

/-- The count stays below the number of sequence numbers, so adding to it does not overflow. -/
theorem counted_mark (h : part.Counted) (hs : seqno ≤ part.core.maxSeqno) :
    ∃ part', part.mark seqno = .ok part' ∧
      part'.Counted ∧ part'.data = part.data ∧ part'.core = part.core := by
  obtain ⟨hmax, seen, hcard, hle, hmask⟩ := id h
  unfold mark
  by_cases hnew : part.core.maxSeqno - seqno < 32 ∧
      part.receivedMask.getLsbD (part.core.maxSeqno - seqno) = false
  · have hnotin : seqno ∉ seen := by
      intro hin
      have := hmask seqno hin hnew.1
      rw [hnew.2] at this
      cases this
    have hbound : seen.card ≤ part.core.maxSeqno + 1 := by
      have hsub : seen ⊆ Finset.range (part.core.maxSeqno + 1) := by
        intro s hs'
        exact Finset.mem_range.mpr (Nat.lt_succ_of_le (hle s hs'))
      simpa using Finset.card_le_card hsub
    have hsum : part.receivedCount + 1 < 2 ^ 32 := by omega
    simp only [if_pos hnew, Guarded.addU32, if_pos hsum]
    refine ⟨_, rfl, ⟨hmax, insert seqno seen, ?_, ?_, ?_⟩, rfl, rfl⟩
    · rw [Finset.card_insert_of_notMem hnotin, hcard]
    · intro s hs'
      rcases Finset.mem_insert.mp hs' with rfl | hs'
      · exact hs
      · exact hle s hs'
    · intro s hs' hwindow
      simp only [BitVec.getLsbD_or, Bool.or_eq_true]
      rcases Finset.mem_insert.mp hs' with rfl | hs'
      · right
        simp only [BitVec.getLsbD_shiftLeft, hwindow, decide_true, lt_self_iff_false,
          decide_false, Bool.not_false, Bool.and_self, Nat.sub_self, Bool.true_and]
        rfl
      · exact Or.inl (hmask s hs' hwindow)
  · simp only [if_neg hnew]
    exact ⟨part, rfl, h, rfl, rfl⟩

structure Settled (r : RecvTransfer D) (o : RecvTransfer D × Guarded (Option Reply)) : Prop where
  bounded : o.1.Bounded
  expected : o.1.expectedTotalSize = r.expectedTotalSize
  next (reply : Option Reply) (h : o.2 = .ok reply) :
    o.1.Open ∨ o.1.totalSize = some o.1.data.length

variable {r : RecvTransfer D}

theorem Settled.of_error (h : r.Bounded) (parts : RecvParts D) (e : Failure) :
    Settled r ({ r with parts }, .error e) :=
  ⟨⟨h.total, h.fresh⟩, rfl, nofun⟩

theorem Settled.of_open (r : RecvTransfer D) {r' : RecvTransfer D} (h : r'.Open)
    (hexpected : r'.expectedTotalSize = r.expectedTotalSize) (reply : Option Reply) :
    Settled r (r', .ok reply) :=
  ⟨h.toBounded, hexpected, fun _ _ => .inl h⟩

variable {t : ℕ}

theorem RecvTransfer.Open.withTotal (h : r.Open) (size : BitVec 64)
    (ht : r.acceptTotalSize size = .ok (some t)) : { r with totalSize := some t }.Open := by
  have hsizes : t ≤ r.cap ∧ r.data.length ≤ t := by
    unfold acceptTotalSize at ht
    cases htotal : r.totalSize with
    | some t' =>
      simp only [htotal, Except.ok.injEq] at ht
      split_ifs at ht with heq
      cases ht
      exact h.total t htotal
    | none =>
      simp only [htotal] at ht
      split_ifs at ht with hcap
      cases ht
      rw [h.fresh htotal]
      exact ⟨Nat.le_of_not_lt hcap, Nat.zero_le _⟩
  refine ⟨⟨?_, ?_⟩, h.v1, h.v2⟩
  · intro t' ht'
    cases ht'
    exact hsizes
  · intro hnone
    cases hnone

theorem RecvTransfer.Bounded.withParts (h : r.Bounded) (parts : RecvParts D) :
    { r with parts }.Bounded :=
  ⟨h.total, h.fresh⟩

/-- Whether the decoder crashes does not depend on the sequence numbers seen. -/
theorem noCrash_decode_congr {p q : RecvPart D} (h : p.decoder = q.decoder)
    (fecType : FecTypeRaptorQ) (seqno : ℕ) (data : Bytes) :
    NoCrash (p.decode fecType seqno data) ↔
      NoCrash (q.decode fecType seqno data) := by
  have hget : p.getDecoder fecType = q.getDecoder fecType := by
    unfold RecvPart.getDecoder
    rw [h]
  simp [RecvPart.decode, noCrash_bind, hget]

@[simp] theorem decoder_seen (p : RecvPart D) (seqno : ℕ) : (p.seen seqno).decoder = p.decoder := by
  unfold RecvPart.seen
  split_ifs
  · rfl
  · rfl

@[simp] theorem decoder_slide (p : RecvPartV2 D) (seqno : ℕ) :
    (p.slide seqno).core.decoder = p.core.decoder := by
  unfold slide
  by_cases h : p.core.maxSeqno < seqno
  · rw [if_pos h]
    exact decoder_seen p.core seqno
  · rw [if_neg h]

@[simp] theorem data_slide (p : RecvPartV2 D) (seqno : ℕ) : (p.slide seqno).data = p.data := by
  unfold slide
  by_cases h : p.core.maxSeqno < seqno
  · rw [if_pos h]
  · rw [if_neg h]

theorem mark_eq_ok {part part' : RecvPartV2 D} {seqno : ℕ} (h : part.mark seqno = .ok part') :
    part'.core = part.core ∧ part'.data = part.data := by
  unfold RecvPartV2.mark at h
  dsimp only at h
  split_ifs at h
  · simp only [Guarded.bind_eq_ok, Guarded.addU32_eq_ok, Guarded.pure_eq_ok] at h
    obtain ⟨count, -, rfl⟩ := h
    exact ⟨rfl, rfl⟩
  · rw [Guarded.pure_eq_ok] at h
    exact ⟨congrArg RecvPartV2.core h.symm, congrArg RecvPartV2.data h.symm⟩

variable {data : Bytes}

theorem RecvPart.decode_ne_nil (hD : D.Yields) {p p' : RecvPart D} {fecType : FecTypeRaptorQ}
    {result : Bytes} (h : p.decode fecType seqno data = .ok (some result, p')) : result ≠ [] := by
  simp only [RecvPart.decode, Guarded.bind_eq_ok, Guarded.pure_eq_ok, Prod.mk.injEq] at h
  obtain ⟨decoder, -, ⟨_, engine⟩, hdecode, rfl, -⟩ := h
  exact hD _ _ _ _ _ hdecode

/-- A packet changes the decoder of a part and nothing else. -/
theorem RecvPart.decode_maxSeqno {p p' : RecvPart D} {fecType : FecTypeRaptorQ}
    {result : Option Bytes} (h : p.decode fecType seqno data = .ok (result, p')) :
    p'.maxSeqno = p.maxSeqno := by
  simp only [RecvPart.decode, Guarded.bind_eq_ok, Guarded.pure_eq_ok, Prod.mk.injEq] at h
  obtain ⟨decoder, -, ⟨_, engine⟩, -, -, rfl⟩ := h
  rfl

section

variable (hr : r.Bounded) (part : RecvPartV1 D) (hpart : part.part ≤ r.data.length)
include hr hpart

theorem storeV1_settled (ht : r.totalSize = some t) (number : BitVec 32) (hdata : data ≠ []) :
    Settled r (r.storeV1 part t number data) ∧ NoCrash (r.storeV1 part t number data).2 := by
  obtain ⟨hcap, hlen⟩ := hr.total t ht
  have hpos : 0 < data.length := List.length_pos_iff.mpr hdata
  have hsmall := cap_le r
  unfold RecvTransfer.storeV1
  by_cases hbig : t < data.length + r.data.length
  · rw [if_pos hbig]
    refine ⟨Settled.of_error hr _ _, ?_⟩
    intro text h
    cases h
  · rw [if_neg hbig]
    have hfit : (r.data ++ data).length ≤ t := by
      rw [List.length_append]
      omega
    have hbounded (parts : RecvParts D) : { r with data := r.data ++ data, parts }.Bounded := by
      refine ⟨?_, ?_⟩
      · intro t' ht'
        obtain rfl : t = t' := Option.some.inj (ht.symm.trans ht')
        exact ⟨hcap, hfit⟩
      · intro hnone
        rw [ht] at hnone
        cases hnone
    by_cases hmore : (r.data ++ data).length < t
    · have hnext : part.part + 1 < 2 ^ 32 := by omega
      rw [if_pos hmore, Guarded.addU32, if_pos hnext]
      refine ⟨Settled.of_open r ⟨hbounded _, ?_, ?_⟩ rfl _, noCrash_ok _⟩
      · intro part' h
        cases h
        show part.part + 1 ≤ (r.data ++ data).length
        rw [List.length_append]
        omega
      · intro parts h
        cases h
    · rw [if_neg hmore]
      refine ⟨⟨hbounded _, rfl, ?_⟩, noCrash_ok _⟩
      intro reply _
      right
      show r.totalSize = some (r.data ++ data).length
      rw [ht, le_antisymm hfit (Nat.le_of_not_lt hmore)]

theorem waitV1_settled : Settled r (r.waitV1 part) ∧ NoCrash (r.waitV1 part).2 := by
  have hopen (n : ℕ) : { r with parts := .v1 { part with confirmCount := n } }.Open := by
    refine ⟨hr.withParts _, ?_, ?_⟩
    · intro part' h
      cases h
      exact hpart
    · intro parts h
      cases h
  unfold RecvTransfer.waitV1
  split_ifs
  · exact ⟨Settled.of_open r (hopen 0) rfl _, noCrash_ok _⟩
  · exact ⟨Settled.of_open r (hopen _) rfl _, noCrash_ok _⟩

end

/-- A version 1 chunk keeps the transfer in bounds, and crashes only when the decoder does. -/
theorem processV1_settled (hD : D.Yields) (hr : r.Open) (part : RecvPartV1 D)
    (hparts : r.parts = .v1 part) (ht : r.totalSize = some t) (chunk : RldpChunk)
    (fecType : FecTypeRaptorQ) : Settled r (r.processV1 part t chunk fecType) ∧
      (NoCrash (r.processV1 part t chunk fecType).2 ↔ (part.part = chunk.part.toNat →
          NoCrash (part.core.decode fecType chunk.seqno.toNat chunk.data))) := by
  have hpart := hr.v1 part hparts
  unfold processV1
  by_cases hcurrent : part.part = chunk.part.toNat
  · rw [if_pos hcurrent, imp_iff_right hcurrent,
      noCrash_decode_congr (decoder_seen part.core chunk.seqno.toNat).symm]
    dsimp only
    cases hdecode : (part.core.seen chunk.seqno.toNat).decode fecType chunk.seqno.toNat chunk.data
      with
    | error e =>
      refine ⟨Settled.of_error hr.toBounded _ _, ?_⟩
      simp [NoCrash]
    | ok result =>
      obtain ⟨result, core⟩ := result
      cases result with
      | none =>
        obtain ⟨hsettled, hno⟩ := waitV1_settled hr.toBounded { part with core } hpart
        exact ⟨hsettled, iff_of_true hno (noCrash_ok _)⟩
      | some data =>
        have hne := RecvPart.decode_ne_nil hD hdecode
        obtain ⟨hsettled, hno⟩ :=
          storeV1_settled hr.toBounded { part with core } hpart ht chunk.part hne
        exact ⟨hsettled, iff_of_true hno (noCrash_ok _)⟩
  · rw [if_neg hcurrent, iff_true_right fun h => absurd h hcurrent]
    split_ifs
    · exact ⟨Settled.of_open r hr rfl _, noCrash_ok _⟩
    · exact ⟨Settled.of_open r hr rfl _, noCrash_ok _⟩

theorem leading_length_congr {ps qs : List (RecvPartV2 D)}
    (h : qs.map (fun p => p.data.isSome) = ps.map (fun p => p.data.isSome)) :
    (leading qs).length = (leading ps).length := by
  have hlen (l : List (RecvPartV2 D)) :
      (leading l).length = ((l.map fun p => p.data.isSome).takeWhile id).length := by
    rw [List.takeWhile_map, List.length_map]
    rfl
  rw [hlen, hlen, h]

theorem leading_set_isNone (hp : parts[i]? = some p) (hdata : p.data = none) (hq : q.data = none) :
    leading (parts.set i q) = leading parts := by
  induction parts generalizing i with
  | nil => rfl
  | cons a l ih =>
    cases i with
    | zero =>
      cases hp
      simp [leading, hdata, hq]
    | succ i =>
      have hcons (l : List (RecvPartV2 D)) :
          leading (a :: l) = if a.data.isSome then a :: leading l else [] := List.takeWhile_cons
      rw [List.set_cons_succ, hcons, hcons, ih hp]

theorem leading_append_new (parts : List (RecvPartV2 D)) (n : ℕ) :
    leading (parts ++ List.replicate n new) = leading parts := by
  unfold leading
  rw [List.takeWhile_append]
  split_ifs with hall
  · rw [List.takeWhile_replicate]
    simp only [new, Option.isSome_none, Bool.false_eq_true, if_false, List.append_nil]
    exact ((List.takeWhile_prefix _).eq_of_length hall).symm
  · rfl

theorem leadingSize_congr {ps qs : List (RecvPartV2 D)} (h : leading qs = leading ps) :
    leadingSize qs = leadingSize ps := by
  unfold leadingSize
  rw [h]

def Slots (parts : List (RecvPartV2 D)) : Prop := ∀ p ∈ parts, p.Counted ∧ p.data ≠ some []

theorem Slots.set (h : Slots parts) (i : ℕ) (hq : q.Counted ∧ q.data ≠ some []) :
    Slots (parts.set i q) := by
  intro p hp
  rcases List.mem_or_eq_of_mem_set hp with hp | rfl
  · exact h p hp
  · exact hq

theorem Slots.append_new (h : Slots parts) (n : ℕ) :
    Slots (parts ++ List.replicate n new) := by
  intro p hp
  rcases List.mem_append.mp hp with hp | hp
  · exact h p hp
  · obtain rfl := List.eq_of_mem_replicate hp
    exact ⟨counted_new, nofun⟩

theorem open_withSlots (hr : r.Bounded) (hdata : r.data = []) (hslots : Slots parts)
    (hsize : leadingSize parts ≤ r.cap) : { r with parts := .v2 parts }.Open := by
  refine ⟨hr.withParts _, ?_, ?_⟩
  · intro part h
    cases h
  · intro parts' h
    cases h
    exact ⟨hdata, hsize, hslots⟩

theorem collect_settled (hr : r.Bounded) (hdata : r.data = []) (ht : r.totalSize = some t)
    (hsize : leadingSize parts = t) (reply : Reply) :
    Settled r (r.collect parts reply) ∧ NoCrash (r.collect parts reply).2 := by
  have hlen : (r.collect parts reply).1.data.length = t := by
    show (r.data ++ _).length = t
    rw [hdata, List.nil_append, List.length_flatMap, ← hsize]
    rfl
  have htotal : (r.collect parts reply).1.totalSize = some t := ht
  refine ⟨⟨⟨?_, ?_⟩, rfl, ?_⟩, ?_⟩
  · intro t' ht'
    obtain rfl : t = t' := Option.some.inj (htotal.symm.trans ht')
    exact ⟨(hr.total t ht).1, hlen.le⟩
  · intro hnone
    rw [htotal] at hnone
    cases hnone
  · intro _ _
    right
    rw [htotal, hlen]
  · unfold collect
    dsimp only
    split_ifs
    · exact noCrash_ok _
    · intro text h
      cases h

/-- Moving the data out leaves every part that had data with some, if only the empty data. -/
theorem collect_slots (r : RecvTransfer D) (parts : List (RecvPartV2 D)) (reply : Reply) :
    ∃ qs : List (RecvPartV2 D), (r.collect parts reply).1.parts = .v2 qs ∧
      qs.map (fun p => p.data.isSome) = parts.map fun p => p.data.isSome := by
  refine ⟨_, rfl, ?_⟩
  have hsome : ∀ p ∈ leading parts, p.data.isSome = true :=
    fun p hp => List.all_eq_true.mp List.all_takeWhile p hp
  have hsplit := List.takeWhile_append_dropWhile (p := fun part : RecvPartV2 D => part.data.isSome)
    (l := parts)
  conv_rhs => rw [← hsplit]
  rw [List.map_append, List.map_append, List.map_map]
  congr 1
  exact List.map_congr_left fun p hp => (hsome p hp).symm

theorem storeV2_settled (hr : r.Bounded) (hdata : r.data = []) (ht : r.totalSize = some t)
    (hslots : Slots parts) (number : BitVec 32) :
    Settled r (r.storeV2 parts t number) ∧ NoCrash (r.storeV2 parts t number).2 := by
  unfold storeV2
  by_cases hbig : t < leadingSize parts
  · rw [if_pos hbig]
    refine ⟨Settled.of_error hr _ _, ?_⟩
    intro text h
    cases h
  · rw [if_neg hbig]
    by_cases hfull : leadingSize parts = t
    · rw [if_pos hfull]
      exact collect_settled hr hdata ht hfull _
    · rw [if_neg hfull]
      have hcap : leadingSize parts ≤ r.cap := (Nat.le_of_not_lt hbig).trans (hr.total t ht).1
      exact ⟨Settled.of_open r (open_withSlots hr hdata hslots hcap) rfl _, noCrash_ok _⟩

variable {index : ℕ} {chunk : RldpChunk}

/-- A chunk for an open slot keeps the transfer in bounds, and crashes only when the decoder does. -/
theorem fillSlot_settled (hD : D.Yields) (hr : r.Bounded) (hdata : r.data = [])
    (ht : r.totalSize = some t) (hslots : Slots parts) (hsize : leadingSize parts ≤ r.cap)
    (hpart : parts[index]? = some part) (hnone : part.data = none)
    (hseqno : chunk.seqno.toNat < 2 ^ 24) (now : ℕ) (fecType : FecTypeRaptorQ) :
    Settled r (r.fillSlot now parts part index t chunk fecType) ∧
      (NoCrash (r.fillSlot now parts part index t chunk fecType).2 ↔
        NoCrash (part.core.decode fecType chunk.seqno.toNat chunk.data)) := by
  obtain ⟨hslide, hle⟩ := counted_slide (hslots part (List.mem_of_getElem? hpart)).1 hseqno
  obtain ⟨marked, hmark, hcounted, hmdata, hmcore⟩ := counted_mark hslide hle
  have hmnone : marked.data = none := by rw [hmdata, data_slide, hnone]
  have hdecoder : part.core.decoder = marked.core.decoder := by rw [hmcore, decoder_slide]
  rw [noCrash_decode_congr hdecoder]
  unfold fillSlot
  rw [hmark]
  dsimp only
  have hsame (q : RecvPartV2 D) (hq : q.data = none) : leadingSize (parts.set index q) ≤ r.cap :=
    (leadingSize_congr (leading_set_isNone hpart hnone hq)).trans_le hsize
  cases hdecode : marked.core.decode fecType chunk.seqno.toNat chunk.data with
  | error e =>
    refine ⟨Settled.of_error hr _ _, ?_⟩
    simp [NoCrash]
  | ok result =>
    obtain ⟨result, core⟩ := result
    have hcore := RecvPart.decode_maxSeqno hdecode
    cases result with
    | none =>
      have hq : ({ marked with core, confirmAt := now + ACK_DELAY_MS } : RecvPartV2 D).Counted := by
        unfold RecvPartV2.Counted
        rw [hcore]
        exact hcounted
      have hq' : marked.data ≠ some [] := by
        rw [hmnone]
        exact fun h => by cases h
      refine ⟨Settled.of_open r (open_withSlots hr hdata (hslots.set _ ⟨hq, hq'⟩) ?_) rfl _, ?_⟩
      · exact hsame _ hmnone
      · exact iff_of_true (noCrash_ok _) (noCrash_ok _)
    | some data =>
      have hne := RecvPart.decode_ne_nil hD hdecode
      have hq : ({ marked with core, data := some data } : RecvPartV2 D).Counted := by
        unfold RecvPartV2.Counted
        rw [hcore]
        exact hcounted
      have hq' : some data ≠ some ([] : Bytes) := fun h => hne (Option.some.inj h)
      obtain ⟨hsettled, hno⟩ := storeV2_settled hr hdata ht (hslots.set index ⟨hq, hq'⟩) chunk.part
      exact ⟨hsettled, iff_of_true hno (noCrash_ok _)⟩

/-- The slots after a chunk for an open slot: as many as before, with the same leading parts and
perhaps more, but none past another slot without data. -/
theorem fillSlot_slots (hpart : parts[index]? = some part) (hnone : part.data = none) (now t : ℕ)
    (chunk : RldpChunk) (fecType : FecTypeRaptorQ) :
    ∃ qs, (r.fillSlot now parts part index t chunk fecType).1.parts = .v2 qs ∧
      qs.length = parts.length ∧ (leading parts).length ≤ (leading qs).length ∧
      ∀ k p, parts[k]? = some p → p.data = none → index ≠ k → (leading qs).length ≤ k := by
  have hset (q : RecvPartV2 D) : (parts.set index q).length = parts.length ∧
        (leading parts).length ≤ (leading (parts.set index q)).length ∧
        ∀ k p, parts[k]? = some p → p.data = none → index ≠ k →
          (leading (parts.set index q)).length ≤ k :=
    ⟨List.length_set, leading_le_set hpart hnone, fun _ _ hp hdata hne => leading_set_le hp hdata hne⟩
  unfold fillSlot
  cases (part.slide chunk.seqno.toNat).mark chunk.seqno.toNat with
  | error e =>
    exact ⟨parts, rfl, rfl, le_rfl, fun _ _ hp hdata _ => leading_le_of_isNone hp hdata⟩
  | ok marked =>
    dsimp only
    cases marked.core.decode fecType chunk.seqno.toNat chunk.data with
    | error e => exact ⟨_, rfl, hset marked⟩
    | ok result =>
      obtain ⟨result, core⟩ := result
      cases result with
      | none => exact ⟨_, rfl, hset _⟩
      | some data =>
        dsimp only
        generalize hparts' : parts.set index { marked with core, data := some data } = parts'
        obtain ⟨hlen, hlead, hpast⟩ := hparts' ▸ hset { marked with core, data := some data }
        unfold storeV2
        split_ifs
        · exact ⟨parts', rfl, hlen, hlead, hpast⟩
        · obtain ⟨qs, hqs, hmap⟩ := collect_slots r parts' (.complete chunk.part)
          refine ⟨qs, hqs, ?_⟩
          have hlength := congrArg List.length hmap
          rw [List.length_map, List.length_map] at hlength
          rw [hlength, leading_length_congr hmap]
          exact ⟨hlen, hlead, hpast⟩
        · exact ⟨parts', rfl, hlen, hlead, hpast⟩

/-- The slots of a version 2 transfer exceed the leading parts by no more than the window and one. -/
def RecvTransfer.Windowed (r : RecvTransfer D) : Prop :=
  ∀ parts, r.parts = .v2 parts → parts.length ≤ (leading parts).length + MAX_PARTS_IN_TRANSIT + 1

/-- A chunk that the window test lets pass asks for a slot inside the window. -/
def RecvParts.InWindow (parts : RecvParts D) (chunk : RldpChunk) : Prop :=
  match parts with
  | .v1 _ => True
  | .v2 parts => parts.length ≤ asUsize chunk.part → inTransit parts ≤ MAX_PARTS_IN_TRANSIT →
    asUsize chunk.part ≤ (leading parts).length + MAX_PARTS_IN_TRANSIT

theorem windowed_of_parts (h : r.parts = .v2 parts) :
    r.Windowed ↔ parts.length ≤ (leading parts).length + MAX_PARTS_IN_TRANSIT + 1 := by
  constructor
  · intro hw
    exact hw parts h
  · intro hle parts' h'
    obtain rfl : parts = parts' := RecvParts.v2.inj (h.symm.trans h')
    exact hle

theorem findSlot_known (h : parts[index]? = some part) :
    findSlot parts index = .ok (if part.data.isNone then .opened parts part else .finished) := by
  have hlt : index < parts.length := (List.getElem?_eq_some_iff.mp h).1
  rw [findSlot, if_neg (Nat.not_le.mpr hlt), (index_eq_ok ..).mpr h]
  rfl

section

variable (h : parts.length ≤ index)
include h

theorem findSlot_tooFar (hfar : MAX_PARTS_IN_TRANSIT < inTransit parts) :
    findSlot parts index = .ok .tooFar := by
  rw [findSlot, if_pos h, if_pos hfar]

theorem getElem?_grown :
    (parts ++ List.replicate (index + 1 - parts.length) new)[index]? = some .new := by
  rw [List.getElem?_append_right h, List.getElem?_replicate, if_pos (by omega)]

theorem findSlot_new (hwindow : inTransit parts ≤ MAX_PARTS_IN_TRANSIT) (hfits : index + 1 < 2 ^ 63) :
    findSlot parts index =
      .ok (.opened (parts ++ List.replicate (index + 1 - parts.length) .new) .new) := by
  rw [findSlot, if_pos h, if_neg (Nat.not_lt.mpr hwindow), growSlots, if_pos hfits]
  show (Guarded.index _ index >>= fun part => pure (Slot.opened _ part)) = _
  rw [(index_eq_ok ..).mpr (getElem?_grown h)]
  rfl

end

theorem findSlot_opened {grown : List (RecvPartV2 D)}
    (h : findSlot parts index = .ok (.opened grown part)) :
    (∀ p ∈ grown, p ∈ parts ∨ p = new) ∧ part ∈ grown := by
  unfold findSlot at h
  split_ifs at h
  · cases h
  · simp only [Guarded.bind_eq_ok, Guarded.pure_eq_ok] at h
    obtain ⟨grown', hgrow, part', hpart, heq⟩ := h
    cases heq
    refine ⟨?_, List.mem_of_getElem? ((index_eq_ok ..).mp hpart)⟩
    obtain ⟨-, rfl⟩ := Guarded.ite_eq_ok.mp hgrow
    intro p hp
    exact (List.mem_append.mp hp).imp_right List.eq_of_mem_replicate
  · simp only [Guarded.bind_eq_ok, Guarded.pure_eq_ok] at h
    obtain ⟨part', hpart, heq⟩ := h
    split_ifs at heq
    cases heq
    exact ⟨fun p hp => .inl hp, List.mem_of_getElem? ((index_eq_ok ..).mp hpart)⟩

variable {P : Option (RaptorqDecoder D) → Prop} {fecType : FecTypeRaptorQ}

def RecvParts.All (P : Option (RaptorqDecoder D) → Prop) : RecvParts D → Prop
  | .v1 part => P part.core.decoder
  | .v2 parts => ∀ p ∈ parts, P p.core.decoder

/-- A new part has the property, and the packet of the chunk keeps it. -/
structure Keeps (P : Option (RaptorqDecoder D) → Prop) (chunk : RldpChunk)
    (fecType : FecTypeRaptorQ) : Prop where
  new : P none
  decode (core : RecvPart D) (h : P core.decoder) (result : Option Bytes × RecvPart D)
    (hdecode : core.decode fecType chunk.seqno.toNat chunk.data = .ok result) : P result.2.decoder

/-- The packet keeps the property without a crash. -/
structure Suits (P : Option (RaptorqDecoder D) → Prop) (chunk : RldpChunk)
    (fecType : FecTypeRaptorQ) : Prop extends Keeps P chunk fecType where
  noCrash (core : RecvPart D) (h : P core.decoder) :
    NoCrash (core.decode fecType chunk.seqno.toNat chunk.data)

def SuitsAll (P : Option (RaptorqDecoder D) → Prop) (chunk : RldpChunk) : Prop :=
  ∀ fecType, chunk.fecType = .raptorQ fecType → Suits P chunk fecType

section

variable (hkeeps : Keeps P chunk fecType)
include hkeeps

theorem Keeps.processV1 {part : RecvPartV1 D} (hparts : r.parts = .v1 part)
    (h : P part.core.decoder) (t : ℕ) :
    ∃ part', (r.processV1 part t chunk fecType).1.parts = .v1 part' ∧ P part'.core.decoder := by
  unfold RecvTransfer.processV1
  split_ifs
  · dsimp only
    have hseen : P (part.core.seen chunk.seqno.toNat).decoder := by
      rw [decoder_seen]
      exact h
    have hcore := hkeeps.decode _ hseen
    split
    · exact ⟨_, rfl, hseen⟩
    · rename_i hdecode
      unfold RecvTransfer.storeV1
      split_ifs
      · exact ⟨_, rfl, hcore _ hdecode⟩
      · split
        · exact ⟨_, rfl, hcore _ hdecode⟩
        · exact ⟨_, rfl, hkeeps.new⟩
      · exact ⟨_, rfl, hcore _ hdecode⟩
    · rename_i hdecode
      unfold RecvTransfer.waitV1
      split_ifs
      · exact ⟨_, rfl, hcore _ hdecode⟩
      · exact ⟨_, rfl, hcore _ hdecode⟩
  · exact ⟨part, hparts, h⟩
  · exact ⟨part, hparts, h⟩

theorem Keeps.fillSlot (h : ∀ p ∈ parts, P p.core.decoder) (hpart : P part.core.decoder)
    (now index t : ℕ) : ∃ qs, (r.fillSlot now parts part index t chunk fecType).1.parts = .v2 qs ∧
      ∀ q ∈ qs, P q.core.decoder := by
  have hset (q : RecvPartV2 D) (hq : P q.core.decoder) : ∀ p ∈ parts.set index q, P p.core.decoder := by
    intro p hp
    rcases List.mem_or_eq_of_mem_set hp with hp | rfl
    · exact h p hp
    · exact hq
  unfold RecvTransfer.fillSlot
  split
  · exact ⟨_, rfl, h⟩
  · rename_i marked hmark
    have hmarked : P marked.core.decoder := by
      rw [(mark_eq_ok hmark).1, decoder_slide]
      exact hpart
    have hcore := hkeeps.decode _ hmarked
    split
    · exact ⟨_, rfl, hset _ hmarked⟩
    · rename_i data core hdecode
      have hstored := hset { marked with core, data := some data } (hcore _ hdecode)
      unfold RecvTransfer.storeV2
      split_ifs
      · exact ⟨_, rfl, hstored⟩
      · refine ⟨_, rfl, fun p hp => ?_⟩
        rcases List.mem_append.mp hp with hp | hp
        · obtain ⟨q, hq, rfl⟩ := List.mem_map.mp hp
          exact hstored q ((List.takeWhile_sublist _).mem hq)
        · exact hstored p ((List.dropWhile_sublist _).mem hp)
      · exact ⟨_, rfl, hstored⟩
    · rename_i hdecode
      exact ⟨_, rfl, hset _ (hcore _ hdecode)⟩

theorem Keeps.processV2 (hparts : r.parts = .v2 parts) (h : ∀ p ∈ parts, P p.core.decoder)
    (now t : ℕ) :
    ∃ qs, (r.processV2 now parts t chunk fecType).1.parts = .v2 qs ∧ ∀ q ∈ qs, P q.core.decoder := by
  unfold RecvTransfer.processV2
  split
  · exact ⟨parts, hparts, h⟩
  · exact ⟨parts, hparts, h⟩
  · exact ⟨parts, hparts, h⟩
  · rename_i grown slot hslot
    obtain ⟨hgrown, hmem⟩ := findSlot_opened hslot
    have hall : ∀ p ∈ grown, P p.core.decoder := by
      intro p hp
      rcases hgrown p hp with hp | rfl
      · exact h p hp
      · exact hkeeps.new
    exact hkeeps.fillSlot hall (hall slot hmem) now _ t

end

section

variable (hD : D.Yields) (hr : r.Open) (hparts : r.parts = .v2 parts) (ht : r.totalSize = some t)
  (hseqno : chunk.seqno.toNat < 2 ^ 24)
include hD hr hparts ht hseqno

section

variable (now : ℕ) (fecType : FecTypeRaptorQ)

theorem processV2_known (hknown : asUsize chunk.part < parts.length) :
    Settled r (r.processV2 now parts t chunk fecType) ∧ (r.Windowed →
      (∀ p ∈ parts, NoCrash (p.core.decode fecType chunk.seqno.toNat chunk.data)) →
        NoCrash (r.processV2 now parts t chunk fecType).2 ∧
          (r.processV2 now parts t chunk fecType).1.Windowed) := by
  obtain ⟨hdata, hsize, hslots⟩ := hr.v2 parts hparts
  have hget : parts[asUsize chunk.part]? = some parts[asUsize chunk.part] :=
    List.getElem?_eq_getElem hknown
  generalize hpart : parts[asUsize chunk.part] = part at hget
  unfold processV2
  rw [findSlot_known hget]
  cases hnone : part.data with
  | some data => exact ⟨Settled.of_open r hr rfl _, fun hw _ => ⟨noCrash_ok _, hw⟩⟩
  | none =>
    simp only [Option.isNone_none, if_true]
    obtain ⟨hsettled, hcrash⟩ := fillSlot_settled hD hr.toBounded hdata ht hslots hsize hget hnone
      hseqno now fecType
    obtain ⟨qs, hqs, hlen, hlead, -⟩ := fillSlot_slots (r := r) hget hnone now t chunk fecType
    refine ⟨hsettled, fun hw hno => ⟨hcrash.mpr (hno part (List.mem_of_getElem? hget)), ?_⟩⟩
    have hbefore := (windowed_of_parts hparts).mp hw
    exact (windowed_of_parts hqs).mpr (by omega)

/-- A chunk whose part has no slot yet, when the window test lets it pass. -/
theorem processV2_new
    (hnew : parts.length ≤ asUsize chunk.part) (hwindow : inTransit parts ≤ MAX_PARTS_IN_TRANSIT) :
    Settled r (r.processV2 now parts t chunk fecType) ∧
      (asUsize chunk.part ≤ (leading parts).length + MAX_PARTS_IN_TRANSIT →
        NoCrash ((new : RecvPartV2 D).core.decode fecType chunk.seqno.toNat chunk.data) →
        NoCrash (r.processV2 now parts t chunk fecType).2 ∧
          (r.processV2 now parts t chunk fecType).1.Windowed) := by
  obtain ⟨hdata, hsize, hslots⟩ := hr.v2 parts hparts
  have hlead : (leading parts).length ≤ r.cap :=
    (leading_length_le_size fun p hp => (hslots p hp).2).trans hsize
  have hcap := cap_le r
  unfold processV2
  generalize asUsize chunk.part = index at hnew ⊢
  by_cases hfits : index + 1 < 2 ^ 63
  · rw [findSlot_new hnew hwindow hfits]
    generalize hgrown : parts ++ List.replicate (index + 1 - parts.length) new = grown
    have hlength : grown.length = index + 1 := by
      rw [← hgrown, List.length_append, List.length_replicate]
      omega
    have hget : grown[index]? = some new := hgrown ▸ getElem?_grown hnew
    have hgleading : leading grown = leading parts := by rw [← hgrown, leading_append_new]
    have hgslots : Slots grown := hgrown ▸ Slots.append_new hslots _
    have hgsize : leadingSize grown ≤ r.cap := by
      rw [leadingSize_congr hgleading]
      exact hsize
    obtain ⟨hsettled, hcrash⟩ := fillSlot_settled hD hr.toBounded hdata ht hgslots hgsize hget rfl
      hseqno now fecType
    obtain ⟨qs, hqs, hlen, hmono, -⟩ := fillSlot_slots (r := r) hget rfl now t chunk fecType
    rw [hgleading] at hmono
    refine ⟨hsettled, fun hle hno => ⟨hcrash.mpr hno, ?_⟩⟩
    exact (windowed_of_parts hqs).mpr (by omega)
  · rw [findSlot, if_pos hnew, if_neg (Nat.not_lt.mpr hwindow), growSlots, if_neg hfits]
    refine ⟨Settled.of_error hr.toBounded _ _, fun hle => ?_⟩
    unfold MAX_PARTS_IN_TRANSIT at hle
    omega

theorem processV2_settled : Settled r (r.processV2 now parts t chunk fecType) ∧ (r.Windowed →
      (RecvParts.v2 parts).InWindow chunk → Suits P chunk fecType → r.parts.All P →
        NoCrash (r.processV2 now parts t chunk fecType).2 ∧
          (r.processV2 now parts t chunk fecType).1.Windowed) := by
  by_cases hnew : parts.length ≤ asUsize chunk.part
  · by_cases hwindow : inTransit parts ≤ MAX_PARTS_IN_TRANSIT
    · obtain ⟨hsettled, hsafe⟩ := processV2_new hD hr hparts ht hseqno now fecType hnew hwindow
      refine ⟨hsettled, fun _ hin hsuits _ => ?_⟩
      exact hsafe (hin hnew hwindow) (hsuits.noCrash _ hsuits.new)
    · unfold processV2
      rw [findSlot_tooFar hnew (Nat.lt_of_not_le hwindow)]
      exact ⟨Settled.of_open r hr rfl _, fun hw _ _ _ => ⟨noCrash_ok _, hw⟩⟩
  · obtain ⟨hsettled, hsafe⟩ :=
      processV2_known hD hr hparts ht hseqno now fecType (Nat.lt_of_not_le hnew)
    refine ⟨hsettled, fun hw _ hsuits hall => hsafe hw fun p hp => ?_⟩
    rw [hparts] at hall
    exact hsuits.noCrash _ (hall p hp)

end

end

/-- Nothing crashed, the slots are in the window, and the decoders have the property. -/
structure Held (P : Option (RaptorqDecoder D) → Prop) (o : RecvTransfer D × Guarded (Option Reply)) :
    Prop where
  noCrash : NoCrash o.2
  windowed : o.1.Windowed
  decoders : o.1.parts.All P

theorem acceptFecType_eq_ok {t : FecType} : acceptFecType t = .ok fecType ↔ t = .raptorQ fecType := by
  cases t with
  | raptorQ params => simp [acceptFecType]
  | _ => simp [acceptFecType]

theorem processPart_settled (hD : D.Yields) (hr : r.Open) (ht : r.totalSize = some t)
    (hseqno : chunk.seqno.toNat < 2 ^ 24) (now : ℕ) (fecType : FecTypeRaptorQ) :
    Settled r (r.processPart now t chunk fecType) ∧ (r.Windowed → r.parts.InWindow chunk →
      Suits P chunk fecType → r.parts.All P → Held P (r.processPart now t chunk fecType)) := by
  unfold RecvTransfer.processPart
  cases hparts : r.parts with
  | v1 part =>
    obtain ⟨hsettled, hiff⟩ := processV1_settled hD hr _ hparts ht chunk fecType
    refine ⟨hsettled, fun _ _ hsuits hall => ?_⟩
    obtain ⟨part', hpart', hdecoder⟩ := hsuits.toKeeps.processV1 hparts hall t
    refine ⟨hiff.mpr fun _ => hsuits.noCrash _ hall, ?_, ?_⟩
    · intro parts h
      cases hpart'.symm.trans h
    · rw [hpart']
      exact hdecoder
  | v2 parts =>
    obtain ⟨hsettled, hsafe⟩ := processV2_settled (P := P) hD hr hparts ht hseqno now fecType
    refine ⟨hsettled, fun hw hin hsuits hall => ?_⟩
    obtain ⟨hno, hw'⟩ := hsafe hw hin hsuits (hparts ▸ hall)
    obtain ⟨qs, hqs, hdecoders⟩ := hsuits.toKeeps.processV2 hparts hall now t
    refine ⟨hno, hw', ?_⟩
    rw [hqs]
    exact hdecoders

theorem seqno_lt_of_checked (h : chunk.Checked) : chunk.seqno.toNat < 2 ^ 24 := by
  have hmask : chunk.seqno &&& 0xff000000#32 = 0 := by
    simp only [RldpChunk.Checked, checkMessage, checkSeqno, Checked.bind_eq_ok] at h
    obtain ⟨_, -, h⟩ := h
    exact (Checked.require_eq_ok ..).mp h
  refine Nat.lt_pow_two_of_testBit _ fun i hi => ?_
  rw [BitVec.testBit_toNat]
  by_cases hi' : i < 32
  · have hbit := congrArg (fun v => v.getLsbD i) hmask
    simp only [BitVec.getLsbD_and] at hbit
    have hone : (0xff000000#32).getLsbD i = true := by
      interval_cases i
      all_goals rfl
    rw [hone, Bool.and_true] at hbit
    exact hbit.trans (BitVec.getLsbD_zero ..)
  · exact BitVec.getLsbD_of_ge _ _ (Nat.le_of_not_lt hi')

/-- One chunk that passed the checks: the sizes stay in bounds; and nothing crashes and the slots stay
in the window, if the chunk asks for a slot inside the window and its packet suits the decoders. -/
theorem processChunk_settled (hD : D.Yields) (hr : r.Open) {chunk : Chunk}
    (hchunk : chunk.body.Checked) (now : ℕ) : Settled r (r.processChunk now chunk) ∧ (r.Windowed →
      r.parts.InWindow chunk.body → SuitsAll P chunk.body → r.parts.All P →
        Held P (r.processChunk now chunk)) := by
  unfold RecvTransfer.processChunk
  have hskip (result : Guarded (Option Reply)) (hno : NoCrash result) : Settled r (r, result) ∧
      (r.Windowed → r.parts.InWindow chunk.body → SuitsAll P chunk.body → r.parts.All P →
        Held P (r, result)) :=
    ⟨⟨hr.toBounded, rfl, fun _ _ => .inl hr⟩, fun hw _ _ hall => ⟨hno, hw, hall⟩⟩
  have hrejected (text : String) :
      NoCrash (.error (.rejected text) : Guarded (Option Reply)) := by
    intro text h
    cases h
  cases hversion : r.acceptVersion chunk with
  | error text => exact hskip _ (hrejected text)
  | ok c =>
    obtain rfl : c = chunk.body := by
      unfold RecvTransfer.acceptVersion at hversion
      split at hversion
      · exact (Except.ok.inj hversion).symm
      · exact (Except.ok.inj hversion).symm
      · cases hversion
      · cases hversion
    dsimp only
    cases hfec : acceptFecType chunk.body.fecType with
    | error text => exact hskip _ (hrejected text)
    | ok fecType =>
      dsimp only
      cases htotal : r.acceptTotalSize chunk.body.totalSize with
      | error text => exact hskip _ (hrejected text)
      | ok total =>
        cases total with
        | none => exact hskip _ (noCrash_ok _)
        | some t =>
          obtain ⟨hsettled, hsafe⟩ := processPart_settled (P := P) hD (hr.withTotal _ htotal) rfl
            (seqno_lt_of_checked hchunk) now fecType
          refine ⟨⟨hsettled.bounded, hsettled.expected, hsettled.next⟩, fun hw hin hsuits hall => ?_⟩
          exact hsafe hw hin (hsuits fecType (acceptFecType_eq_ok.mp hfec)) hall

theorem sendConfirmations_open (hr : r.Open) (now : ℕ) : (r.sendConfirmations now).1.Open ∧
      (r.sendConfirmations now).1.expectedTotalSize = r.expectedTotalSize ∧
      (r.Windowed → (r.sendConfirmations now).1.Windowed) ∧
      (r.parts.All P → (r.sendConfirmations now).1.parts.All P) := by
  unfold RecvTransfer.sendConfirmations
  cases hparts : r.parts with
  | v1 part =>
    refine ⟨hr, rfl, id, fun hall => ?_⟩
    rw [hparts]
    exact hall
  | v2 parts =>
    generalize hf : (fun part : RecvPartV2 D =>
      if part.Due now then { part with confirmAt := 0 } else part) = f
    have hdata (p : RecvPartV2 D) : (f p).data = p.data := by
      subst hf
      dsimp only
      split_ifs
      · rfl
      · rfl
    have hcore (p : RecvPartV2 D) : (f p).core = p.core := by
      subst hf
      dsimp only
      split_ifs
      · rfl
      · rfl
    have hcounted (p : RecvPartV2 D) (hp : p.Counted) : (f p).Counted := by
      subst hf
      dsimp only
      split_ifs
      · exact hp
      · exact hp
    have hleading : leading (parts.map f) = (leading parts).map f := by
      unfold leading
      rw [List.takeWhile_map]
      congr 2
      funext p
      exact congrArg Option.isSome (hdata p)
    obtain ⟨hempty, hsize, hslots⟩ := hr.v2 parts hparts
    refine ⟨?_, rfl, ?_, ?_⟩
    · refine open_withSlots hr.toBounded hempty ?_ ?_
      · intro p hp
        obtain ⟨q, hq, rfl⟩ := List.mem_map.mp hp
        rw [hdata]
        exact ⟨hcounted q (hslots q hq).1, (hslots q hq).2⟩
      · refine (le_of_eq ?_).trans hsize
        unfold leadingSize
        rw [hleading, List.map_map]
        congr 1
        exact List.map_congr_left fun p _ => congrArg (fun d => (d.getD []).length) (hdata p)
    · intro hw
      have hbefore := (windowed_of_parts hparts).mp hw
      refine (windowed_of_parts rfl).mpr ?_
      rw [hleading, List.length_map, List.length_map]
      exact hbefore
    · intro hall p hp
      obtain ⟨q, hq, rfl⟩ := List.mem_map.mp hp
      rw [hcore]
      exact hall q hq

structure RecvContext.Sound (expected : Option ℕ) (c : RecvContext D) : Prop where
  bounded : c.recvTransfer.Bounded
  expected : c.recvTransfer.expectedTotalSize = expected
  running (h : c.loop = .running) : c.recvTransfer.Open

def AllChecked (ws : List Wakeup) : Prop :=
  ∀ now chunk, .chunk now chunk ∈ ws → chunk.body.Checked

def RecvContext.InWindow (c : RecvContext D) (w : Wakeup) : Prop :=
  ∀ now chunk, c.loop = .running → w = .chunk now chunk → c.recvTransfer.parts.InWindow chunk.body

/-- The loop has not crashed, the slots are in the window, and the decoders have the property. -/
structure RecvContext.Held (P : Option (RaptorqDecoder D) → Prop) (c : RecvContext D) : Prop where
  noCrash : c.loop ≠ .crashed
  windowed : c.recvTransfer.Windowed
  decoders : c.recvTransfer.parts.All P

theorem settle_ne_crashed {result : Guarded (Option Reply)} :
    r.settle result ≠ .crashed ↔ NoCrash result := by
  cases result with
  | ok reply =>
    refine iff_of_true ?_ (noCrash_ok _)
    unfold settle
    split_ifs
    · exact nofun
    · exact nofun
  | error e =>
    cases e with
    | rejected text => exact iff_of_true nofun nofun
    | crashed text => exact iff_of_false (fun h => h rfl) fun h => h text rfl

variable {expected : Option ℕ} {c : RecvContext D}

section

variable (hD : D.Yields) (hc : c.Sound expected)
include hD hc

theorem round_sound {w : Wakeup}
    (hw : ∀ now chunk, w = .chunk now chunk → chunk.body.Checked) : (c.round w).1.Sound expected ∧
      (c.InWindow w → (∀ now chunk, w = .chunk now chunk → SuitsAll P chunk.body) →
        c.Held P → (c.round w).1.Held P) := by
  obtain ⟨r, loop⟩ := c
  cases loop with
  | running =>
    have hopen := hc.running rfl
    cases w with
    | chunk now chunk =>
      obtain ⟨hsettled, hsafe⟩ := processChunk_settled (P := P) hD hopen (hw now chunk rfl) now
      refine ⟨⟨hsettled.bounded, hsettled.expected.trans hc.expected, ?_⟩, ?_⟩
      · intro hrunning
        change (r.processChunk now chunk).1.settle (r.processChunk now chunk).2 = .running at hrunning
        change (r.processChunk now chunk).1.Open
        cases hresult : (r.processChunk now chunk).2 with
        | error e =>
          rw [hresult] at hrunning
          cases e with
          | rejected text | crashed text => cases hrunning
        | ok reply =>
          rw [hresult] at hrunning
          unfold settle at hrunning
          split_ifs at hrunning with hfull
          exact (hsettled.next reply hresult).resolve_right hfull
      · intro hin hsuits hheld
        obtain ⟨hno, hwindowed, hall⟩ := hsafe hheld.windowed (hin now chunk rfl rfl)
          (hsuits now chunk rfl) hheld.decoders
        exact ⟨settle_ne_crashed.mpr hno, hwindowed, hall⟩
    | spin now =>
      obtain ⟨hopen', hexpected, hwindowed, hall⟩ := sendConfirmations_open (P := P) hopen now
      refine ⟨⟨hopen'.toBounded, hexpected.trans hc.expected, fun _ => hopen'⟩, ?_⟩
      intro _ _ hheld
      exact ⟨nofun, hwindowed hheld.windowed, hall hheld.decoders⟩
  | completed | dropped | crashed => exact ⟨hc, fun _ _ hheld => hheld⟩

/-- Every chunk asks for a slot inside the window as it then is. -/
def RecvContext.InWindowRun (c : RecvContext D) : List Wakeup → Prop
  | [] => True
  | w :: ws => c.InWindow w ∧ (c.round w).1.InWindowRun ws

omit hD hc in
theorem inWindowRun_of_small (c : RecvContext D) {ws : List Wakeup} (h : ∀ now chunk,
    .chunk now chunk ∈ ws → asUsize chunk.body.part ≤ MAX_PARTS_IN_TRANSIT) : c.InWindowRun ws := by
  induction ws generalizing c with
  | nil => trivial
  | cons w ws ih =>
    refine ⟨?_, ih _ fun now chunk hmem => h now chunk (List.mem_cons_of_mem w hmem)⟩
    rintro now chunk - rfl
    have hsmall := h now chunk List.mem_cons_self
    cases c.recvTransfer.parts with
    | v1 part => trivial
    | v2 parts => exact fun _ _ => hsmall.trans (Nat.le_add_left _ _)

/-- The sizes are in bounds in every run; and a run inside the window, whose packets suit the
decoders, does not crash and keeps the slots in the window. -/
theorem receiveLoop_sound {ws : List Wakeup} (hws : AllChecked ws) :
    (c.receiveLoop ws).Sound expected ∧ (c.InWindowRun ws →
      (∀ now chunk, .chunk now chunk ∈ ws → SuitsAll P chunk.body) → c.Held P →
        (c.receiveLoop ws).Held P) := by
  induction ws generalizing c with
  | nil => exact ⟨hc, fun _ _ hheld => hheld⟩
  | cons w ws ih =>
    obtain ⟨hsound, hround⟩ := round_sound (P := P) hD hc (w := w) <| by
      rintro now chunk rfl
      exact hws now chunk List.mem_cons_self
    obtain ⟨hrun, hheld⟩ := ih hsound fun now chunk hmem => hws now chunk (List.mem_cons_of_mem w hmem)
    refine ⟨hrun, fun hin hsuits h => hheld hin.2 ?_ (hround hin.1 ?_ h)⟩
    · intro now chunk hmem
      exact hsuits now chunk (List.mem_cons_of_mem w hmem)
    · rintro now chunk rfl
      exact hsuits now chunk List.mem_cons_self

end

theorem RecvContext.sound_new (v2 : Bool) (expected : Option ℕ) :
    (RecvContext.new v2 expected : RecvContext D).Sound expected :=
  ⟨(RecvTransfer.open_new v2 expected).toBounded, rfl, fun _ => RecvTransfer.open_new v2 expected⟩

theorem windowed_new (v2 : Bool) (expected : Option ℕ) :
    (RecvTransfer.new v2 expected : RecvTransfer D).Windowed := by
  intro parts h
  cases v2 with
  | false => cases h
  | true =>
    cases h
    exact Nat.zero_le _

theorem all_new (v2 : Bool) (expected : Option ℕ) (h : P none) :
    (RecvTransfer.new v2 expected : RecvTransfer D).parts.All P := by
  cases v2 with
  | false => exact h
  | true => exact fun p hp => by cases hp

def sourceSymbols (fecType : FecTypeRaptorQ) : ℕ :=
  (fecType.dataSize.toInt.toNat + SYMBOL - 1) / SYMBOL

/-- The packet has the size of a symbol, and the number of its symbol, which skips the padding of the
block, has no more than 24 bits. -/
structure RldpChunk.Fits (R : Raptorq) (chunk : RldpChunk) : Prop where
  length_eq : chunk.data.length = SYMBOL
  number (fecType : FecTypeRaptorQ) (h : chunk.fecType = .raptorQ fecType)
    (hpast : sourceSymbols fecType ≤ chunk.seqno.toNat) : chunk.seqno.toNat +
      (R.extendedSourceBlockSymbols (sourceSymbols fecType) - sourceSymbols fecType) < 2 ^ 24

def EvenDecoder {R : Raptorq} (decoder : Option (RaptorqDecoder (raptorqEngine R))) : Prop :=
  ∀ d, decoder = some d → Decoder.Even (sourceSymbols d.params) SYMBOL d.engine

theorem toInt_of_asUsize {n : BitVec 32} (h : asUsize n = SYMBOL) : n.toInt = SYMBOL := by
  have hint : (n.signExtend 64).toInt = n.toInt := BitVec.toInt_signExtend_of_le (by decide)
  rw [← hint, BitVec.toInt_eq_toNat_cond, if_pos]
  · exact congrArg Nat.cast h
  · rw [asUsize] at h
    rw [h]
    decide

theorem even_withParams {R : Raptorq} {params : FecTypeRaptorQ}
    {d : RaptorqDecoder (raptorqEngine R)} (hsize : asUsize params.symbolSize = SYMBOL)
    (h : RaptorqDecoder.withParams params = .ok d) :
    d.params = params ∧ Decoder.Even (sourceSymbols params) SYMBOL d.engine := by
  have hsymbol := toInt_of_asUsize hsize
  simp only [RaptorqDecoder.withParams, Checked.bind_eq_ok, positive] at h
  obtain ⟨symbolSize, hsymbolSize, dataSize, hdataSize, -, -, h⟩ := h
  split_ifs at hsymbolSize hdataSize
  cases hsymbolSize
  cases hdataSize
  cases h
  refine ⟨rfl, Decoder.even_new R ⟨params.dataSize.toInt.toNat, by omega⟩
    ⟨params.symbolSize.toInt.toNat, by omega⟩ SYMBOL ?_⟩
  rw [PNat.mk_coe, hsymbol, Int.toNat_natCast]

theorem RldpChunk.Checked.symbolSize {chunk : RldpChunk} (h : chunk.Checked)
    (hfec : chunk.fecType = .raptorQ fecType) : asUsize fecType.symbolSize = SYMBOL := by
  simp only [RldpChunk.Checked, checkMessage, hfec, Checked.bind_eq_ok] at h
  obtain ⟨_, h, -⟩ := h
  simp only [Checked.whenPresent, checkFecType, Checked.bind_eq_ok] at h
  obtain ⟨_, h, -⟩ := h
  exact (Checked.require_eq_ok ..).mp h

/-- A packet that fits suits the decoders that only such packets have reached. -/
theorem RldpChunk.Fits.suits {R : Raptorq} {chunk : RldpChunk} (hfits : chunk.Fits R)
    (hchunk : chunk.Checked) : SuitsAll (D := raptorqEngine R) EvenDecoder chunk := by
  intro fecType hfec
  have hsafe (core : RecvPart (raptorqEngine R)) (hcore : EvenDecoder core.decoder) :
      Safe (core.decode fecType chunk.seqno.toNat chunk.data)
        fun result => EvenDecoder result.2.decoder := by
    refine Safe.check.bind fun decoder hdecoder _ => ?_
    have heven : decoder.params = fecType ∧
        Decoder.Even (sourceSymbols fecType) SYMBOL decoder.engine := by
      have hget := (Guarded.check_eq_ok ..).mp hdecoder
      unfold RecvPart.getDecoder at hget
      cases hold : core.decoder with
      | none =>
        rw [hold] at hget
        exact even_withParams (hchunk.symbolSize hfec) hget
      | some old =>
        rw [hold] at hget
        dsimp only at hget
        split_ifs at hget with hparams
        cases hget
        rw [not_not] at hparams
        exact ⟨hparams.symm, hparams ▸ hcore _ hold⟩
    obtain ⟨rfl, heven⟩ := heven
    refine (heven.decode (seqno_lt_of_checked hchunk) hfits.length_eq
      (hfits.number _ hfec)).bind fun result _ heven' => .pure ?_
    rintro d ⟨⟩
    exact heven'
  exact ⟨⟨nofun, fun core h => (hsafe core h).2⟩, fun core h => (hsafe core h).1⟩

def starvedEngine : Raptorq where
  extendedSourceBlockSymbols k := k + 10
  le_extended k := Nat.le_add_right k 10
  solve _ _ _ := .ok none
  noCrash_solve _ _ _ _ := noCrash_ok _

def plainChunk (part seqno : BitVec 32) (size : ℕ) (data : Bytes) : RldpChunk where
  fecType := .raptorQ ⟨BitVec.ofNat 32 size, 768, 0⟩
  part
  totalSize := BitVec.ofNat 64 size
  seqno
  data

/-- Packets for the parts 0 and 5, among them one of a repair symbol. -/
def sparsePackets : List Wakeup :=
  [.chunk 0 (.v2 (plainChunk 0 0 1000 (List.replicate 768 7))), .spin 5,
    .chunk 6 (.v2 (plainChunk 5 1 1000 (List.replicate 768 7))),
    .chunk 7 (.v2 (plainChunk 0 2 1000 (List.replicate 768 9)))]

/-- A packet without bytes completes a stream of one byte, and the decoder reads past its end. -/
theorem decode_empty_packet (R : Raptorq) : ¬ NoCrash
      ((RecvPart.new : RecvPart (raptorqEngine R)).decode ⟨1, 768, 0⟩ 0 []) := by
  have hroom := R.le_extended 1
  have hfresh : 0 ∉ Finset.Ico 1 (R.extendedSourceBlockSymbols 1) := by simp
  have hsource : ¬ R.extendedSourceBlockSymbols 1 ≤ 0 := by omega
  have hreceive : ∃ d, (Decoder.new R 1 768).receive R 0 [] = .ok d ∧
      d.sourceSymbols = [some []] := by
    unfold Decoder.receive
    exact ⟨_, (if_neg hfresh).trans (if_neg hsource), rfl⟩
  obtain ⟨d, hd, hsymbols⟩ := hreceive
  have hassemble : ¬ NoCrash (d.assemble R) := by
    intro h
    have hall : d.receivedSourceSymbols = d.sourceBlockSymbols := by
      rw [Decoder.receivedSourceSymbols, Decoder.sourceBlockSymbols, hsymbols]
      rfl
    rw [Decoder.assemble, if_pos hall, hsymbols] at h
    have hunpack := (noCrash_bind.mp ((noCrash_bind.mp h).2 [[]] rfl)).1
    have hslice := Guarded.noCrash_mapM.mp (noCrash_bind.mp hunpack).1 [] [] [] rfl (by simp)
    exact d.symbolSize.ne_zero (Nat.le_zero.mp ((Guarded.noCrash_slice ..).mp hslice).2)
  have hadvance : ¬ NoCrash ((Decoder.new R 1 768).advance R 0 []) := by
    intro h
    refine hassemble (Decoder.noCrash_finish.mp ?_)
    exact (noCrash_bind.mp h).2 d hd
  intro h
  have hdecode := (noCrash_bind.mp h).2 ⟨Decoder.new R 1 768, ⟨1, 768, 0⟩⟩ rfl
  have hengine := (noCrash_bind.mp hdecode).1
  exact hadvance (noCrash_bind.mp ((noCrash_bind.mp hengine).2 0 rfl)).1

end TonNode.Rldp
