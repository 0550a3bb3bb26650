import TonNode.RldpReceiverSafety
import TonNode.RldpTransfer

/-!
The receiver follows the payload: what it has decoded is a part of the payload at the right place, and
what it has joined is the beginning of the payload.  So it never refuses a chunk of the sender, and data
of the full size is the payload.  What the receive loop reports complete has been decoded.  A closed
entry reports whatever it is asked about, which is right if the loop closed it and not the timer.
-/
namespace TonNode.Rldp

open Constraints

variable {C : Codec} {payload : Bytes}

def FollowsPart (payload : Bytes) (part : ℕ) (core : RecvPart C.decoder) : Prop :=
  ∀ d, core.decoder = some d →
    d.params = C.params (partOf payload part) ∧ C.Fed (partOf payload part) d.engine

structure FollowsSlot (payload : Bytes) (part : ℕ) (slot : RecvPartV2 C.decoder) : Prop where
  inside : part * SLICE < payload.length
  core : FollowsPart payload part slot.core
  data (x : Bytes) (h : slot.data = some x) : x = partOf payload part

structure Follows (payload : Bytes) (r : RecvTransfer C.decoder) : Prop where
  cap : payload.length ≤ r.cap
  total : r.totalSize = none ∨ r.totalSize = some payload.length
  v1 (part : RecvPartV1 C.decoder) (h : r.parts = .v1 part) :
    r.data = payload.take (part.part * SLICE) ∧ part.part * SLICE < payload.length ∧
      FollowsPart payload part.part part.core
  v2 (parts : List (RecvPartV2 C.decoder)) (h : r.parts = .v2 parts) :
    r.data = [] ∧ ∀ p slot, parts[p]? = some slot → FollowsSlot payload p slot

def RecvTransfer.Decoded {D : DecoderEngine} (r : RecvTransfer D) (part : ℕ) : Prop :=
  match r.parts with
  | .v1 p => part < p.part ∨ (r.totalSize = some r.data.length ∧ part = p.part)
  | .v2 parts => ∃ slot, parts[part]? = some slot ∧ slot.data.isSome = true

variable {r : RecvTransfer C.decoder} {part : ℕ}

theorem part_lt (h : payload.length ≤ r.cap) (hpart : part * SLICE < payload.length) :
    part < 2 ^ 31 := by
  have hcap := cap_le r
  unfold SLICE at hpart
  omega

theorem toNat_part (h : part < 2 ^ 31) : (BitVec.ofNat 32 part).toNat = part := by
  rw [BitVec.toNat_ofNat]
  exact Nat.mod_eq_of_lt (by omega)

theorem asUsize_part (h : part < 2 ^ 31) : asUsize (BitVec.ofNat 32 part) = part := by
  have hmsb : (BitVec.ofNat 32 part).msb = false := by
    rw [BitVec.msb_eq_false_iff_two_mul_lt, toNat_part h]
    omega
  unfold asUsize
  rw [BitVec.signExtend_eq_setWidth_of_msb_false hmsb, BitVec.toNat_setWidth, toNat_part h]
  exact Nat.mod_eq_of_lt (by omega)

theorem partOf_length_pos (h : part * SLICE < payload.length) :
    0 < (partOf payload part).length := by
  rw [partOf_length]
  unfold SLICE at h ⊢
  omega

theorem withParams_genuine (h : part * SLICE < payload.length) : ∃ d : RaptorqDecoder C.decoder,
      RaptorqDecoder.withParams (C.params (partOf payload part)) = .ok d ∧
        d.params = C.params (partOf payload part) ∧ C.Fed (partOf payload part) d.engine := by
  have hpos := partOf_length_pos h
  have hle : (partOf payload part).length ≤ 2000000 := by
    rw [partOf_length]
    exact min_le_left _ _
  generalize hdata : partOf payload part = data at hpos hle ⊢
  have hsize : (BitVec.ofNat 32 data.length).toInt = data.length := by
    rw [BitVec.toInt_eq_toNat_cond, BitVec.toNat_ofNat]
    omega
  have hsizePos : 0 < (BitVec.ofNat 32 data.length).toInt := by omega
  have hdataSize : positive (C.params data).dataSize
      "Invalid FEC params: data_size must be > 0" =
        .ok ⟨(BitVec.ofNat 32 data.length).toInt.toNat, by omega⟩ := dif_pos hsizePos
  have hsymbol : positive (C.params data).symbolSize
      "Invalid FEC params: symbol_size must be > 0" = .ok ⟨SYMBOL, by decide⟩ := rfl
  refine ⟨⟨C.decoder.new ⟨(BitVec.ofNat 32 data.length).toInt.toNat, by omega⟩
    ⟨SYMBOL, by decide⟩, C.params data⟩, ?_, rfl, ?_⟩
  · unfold RaptorqDecoder.withParams
    rw [hsymbol, hdataSize]
    rfl
  · refine .new ?_ rfl
    show (BitVec.ofNat 32 data.length).toInt.toNat = data.length
    omega

/-- A genuine packet reaches the decoder of its part, and what comes out is that part. -/
theorem decode_genuine (hC : C.Exact) {core : RecvPart C.decoder}
    (hcore : FollowsPart payload part core) (hinside : part * SLICE < payload.length)
    {seqno : BitVec 32} {packet : Bytes} (hpacket : C.Packet (partOf payload part) seqno packet) :
    (∀ text, core.decode (C.params (partOf payload part)) seqno.toNat packet ≠
        .error (.rejected text)) ∧
      ∀ result core', core.decode (C.params (partOf payload part)) seqno.toNat packet =
          .ok (result, core') →
        FollowsPart payload part core' ∧ ∀ x, result = some x → x = partOf payload part := by
  have hdecoder : ∃ d, core.getDecoder (C.params (partOf payload part)) = .ok d ∧
      d.params = C.params (partOf payload part) ∧ C.Fed (partOf payload part) d.engine := by
    unfold RecvPart.getDecoder
    cases hd : core.decoder with
    | none => exact withParams_genuine hinside
    | some d =>
      obtain ⟨hparams, hfed⟩ := hcore d hd
      refine ⟨d, ?_, hparams, hfed⟩
      exact if_neg fun hne => hne hparams.symm
  obtain ⟨d, hget, hparams, hfed⟩ := hdecoder
  have hdecode : core.decode (C.params (partOf payload part)) seqno.toNat packet =
      C.decoder.decode d.engine seqno.toNat packet >>= fun o =>
        pure (o.1, { core with decoder := some { d with engine := o.2 } }) := by
    unfold RecvPart.decode
    rw [hget]
    rfl
  rw [hdecode]
  constructor
  · intro text h
    cases hout : C.decoder.decode d.engine seqno.toNat packet with
    | ok o =>
      rw [hout] at h
      cases h
    | error e =>
      rw [hout] at h
      cases h
      exact C.decode_total _ _ _ _ hout
  · intro result core' h
    obtain ⟨⟨result', engine⟩, hout, h⟩ := Guarded.bind_eq_ok.mp h
    obtain ⟨rfl, rfl⟩ := Prod.mk.inj (Except.ok.inj h)
    constructor
    · intro d' hd'
      cases hd'
      exact ⟨hparams, .step hfed hpacket hout⟩
    · rintro x rfl
      exact hC _ _ _ _ _ _ hfed hpacket hout

structure Finished (payload : Bytes) (r : RecvTransfer C.decoder) : Prop where
  total : r.totalSize = some payload.length
  data : r.data = payload
  decoded (part : ℕ) (h : part * SLICE < payload.length) : r.Decoded part

structure Progress (payload : Bytes) (r : RecvTransfer C.decoder)
    (o : RecvTransfer C.decoder × Guarded (Option Reply)) : Prop where
  accepted (text : String) : o.2 ≠ .error (.rejected text)
  next : Follows payload o.1 ∨ (∃ reply, o.2 = .ok reply) ∧ Finished payload o.1
  reported (number : BitVec 32) (h : o.2 = .ok (some (.complete number))) : o.1.Decoded number.toNat
  keeps (part : ℕ) (h : r.Decoded part) : o.1.Decoded part

theorem Progress.unchanged (h : Follows payload r) {reply : Option Reply}
    (hreply : ∀ number, reply = some (.complete number) → r.Decoded number.toNat) :
    Progress payload r (r, .ok reply) :=
  ⟨nofun, .inl h, fun number h => hreply number (Except.ok.inj h), fun _ h => h⟩

theorem Follows.withV1 (h : Follows payload r) {part : RecvPartV1 C.decoder} {data : Bytes}
    (hdata : data = payload.take (part.part * SLICE))
    (hinside : part.part * SLICE < payload.length)
    (hcore : FollowsPart payload part.part part.core) :
    Follows payload { r with data, parts := .v1 part } := by
  refine ⟨h.cap, h.total, ?_, ?_⟩
  · intro part' heq
    cases heq
    exact ⟨hdata, hinside, hcore⟩
  · intro parts heq
    cases heq

theorem FollowsPart.congr {p q : RecvPart C.decoder} (h : FollowsPart payload part p)
    (heq : q.decoder = p.decoder) : FollowsPart payload part q := by
  intro d hd
  exact h d (heq ▸ hd)

theorem Genuine.toNat_part {p : ℕ} {chunk : RldpChunk} (hchunk : Genuine C payload p chunk)
    (h : Follows payload r) : chunk.part.toNat = p := by
  rw [hchunk.number]
  exact Rldp.toNat_part (part_lt h.cap hchunk.inside)

theorem storeV1_progress (h : Follows payload r) (htotal : r.totalSize = some payload.length)
    (part : RecvPartV1 C.decoder) {before : RecvPartV1 C.decoder} (hbefore : r.parts = .v1 before)
    (hnumber : part.part = before.part) {number : BitVec 32} (hchunk : number.toNat = part.part) :
    Progress payload r (r.storeV1 part payload.length number (partOf payload part.part)) := by
  obtain ⟨hdata, hinside, -⟩ := h.v1 before hbefore
  rw [← hnumber] at hdata hinside
  have hsmall := part_lt h.cap hinside
  have hjoined : r.data ++ partOf payload part.part = payload.take ((part.part + 1) * SLICE) := by
    rw [hdata, take_mul_append_partOf]
  have hlength : (r.data ++ partOf payload part.part).length =
      min ((part.part + 1) * SLICE) payload.length := by
    rw [hjoined, List.length_take]
  have hfits : ¬ payload.length < (partOf payload part.part).length + r.data.length := by
    rw [List.length_append] at hlength
    omega
  have hopen : payload.length ≠ r.data.length := by
    rw [hdata, List.length_take]
    omega
  have hkeep (q : ℕ) (hq : r.Decoded q) : q < part.part := by
    unfold RecvTransfer.Decoded at hq
    rw [hbefore, htotal] at hq
    rcases hq with hq | ⟨hfull, -⟩
    · rw [hnumber]
      exact hq
    · exact absurd (Option.some.inj hfull) hopen
  unfold RecvTransfer.storeV1
  rw [if_neg hfits, hlength]
  by_cases hmore : min ((part.part + 1) * SLICE) payload.length < payload.length
  · have hnext : part.part + 1 < 2 ^ 32 := by omega
    have hinside' : (part.part + 1) * SLICE < payload.length := by omega
    rw [if_pos hmore, Guarded.addU32, if_pos hnext]
    refine ⟨fun _ h => (by cases h), .inl (h.withV1 hjoined hinside' fun _ h => by cases h), ?_, ?_⟩
    · intro number' heq
      cases heq
      refine Or.inl ?_
      show number.toNat < part.part + 1
      omega
    · intro q hq
      refine Or.inl ?_
      show q < part.part + 1
      have := hkeep q hq
      omega
  · rw [if_neg hmore]
    have hall : r.data ++ partOf payload part.part = payload := by
      rw [hjoined]
      exact List.take_of_length_le (by omega)
    have hfull : r.totalSize = some (r.data ++ partOf payload part.part).length := by
      rw [hall, htotal]
    refine ⟨fun _ h => (by cases h), .inr ⟨⟨_, rfl⟩, htotal, hall, ?_⟩, ?_, ?_⟩
    · intro q hq
      have hle : q ≤ part.part := by
        by_contra hlt
        have := Nat.mul_le_mul_right SLICE (Nat.lt_of_not_le hlt)
        rw [Nat.succ_eq_add_one] at this
        omega
      exact (Nat.lt_or_eq_of_le hle).imp id fun heq => ⟨hfull, heq⟩
    · intro number' heq
      cases heq
      exact Or.inr ⟨hfull, hchunk⟩
    · intro q hq
      exact Or.inl (hkeep q hq)

variable {p : ℕ} {chunk : RldpChunk}

theorem processV1_progress (hC : C.Exact) (h : Follows payload r)
    (htotal : r.totalSize = some payload.length) {part : RecvPartV1 C.decoder}
    (hparts : r.parts = .v1 part) (hchunk : Genuine C payload p chunk) : Progress payload r
      (r.processV1 part payload.length chunk (C.params (partOf payload p))) := by
  obtain ⟨hdata, hinside, hcore⟩ := h.v1 part hparts
  have hp := hchunk.toNat_part h
  unfold RecvTransfer.processV1
  rw [hp]
  by_cases hcurrent : part.part = p
  · subst hcurrent
    rw [if_pos rfl]
    dsimp only
    have hseen : FollowsPart payload part.part (part.core.seen chunk.seqno.toNat) :=
      hcore.congr (decoder_seen _ _)
    obtain ⟨hnoreject, hdecoded⟩ := decode_genuine hC hseen hinside hchunk.packet
    -- a change of the core alone changes neither the data nor what is decoded
    have hkeeps (core : RecvPart C.decoder) (n q : ℕ) (hq : r.Decoded q) :
        { r with parts := .v1 ⟨core, n, part.part⟩ }.Decoded q := by
      unfold RecvTransfer.Decoded at hq ⊢
      rw [hparts] at hq
      exact hq
    cases hdecode : (part.core.seen chunk.seqno.toNat).decode
        (C.params (partOf payload part.part)) chunk.seqno.toNat chunk.data with
    | error e =>
      cases e with
      | rejected text => exact absurd hdecode (hnoreject text)
      | crashed text =>
        exact ⟨nofun, .inl (h.withV1 hdata hinside hseen), nofun, hkeeps _ _⟩
    | ok o =>
      obtain ⟨result, core⟩ := o
      obtain ⟨hcore', hresult⟩ := hdecoded result core hdecode
      cases result with
      | none =>
        dsimp only
        unfold RecvTransfer.waitV1
        split_ifs
        · exact ⟨nofun, .inl (h.withV1 hdata hinside hcore'), nofun, hkeeps _ _⟩
        · exact ⟨nofun, .inl (h.withV1 hdata hinside hcore'), nofun, hkeeps _ _⟩
      | some x =>
        obtain rfl := hresult x rfl
        exact storeV1_progress h htotal { part with core } hparts rfl hp
  · rw [if_neg hcurrent]
    split_ifs with hold
    · refine Progress.unchanged h ?_
      intro number heq
      cases heq
      unfold RecvTransfer.Decoded
      rw [hparts, hp]
      exact Or.inl hold
    · exact Progress.unchanged h nofun

variable {D : DecoderEngine}

theorem mark_ne_rejected (part : RecvPartV2 D) (seqno : ℕ) (text : String) :
    part.mark seqno ≠ .error (.rejected text) := by
  unfold RecvPartV2.mark Guarded.addU32
  dsimp only
  split_ifs
  · exact nofun
  · exact nofun
  · exact nofun

def FollowsSlots (payload : Bytes) (parts : List (RecvPartV2 C.decoder)) : Prop :=
  ∀ p slot, parts[p]? = some slot → FollowsSlot payload p slot

variable {parts : List (RecvPartV2 C.decoder)} {slot : RecvPartV2 C.decoder}

section

variable (h : FollowsSlots payload parts)
include h

theorem FollowsSlots.set {i : ℕ} (hslot : FollowsSlot payload i slot) :
    FollowsSlots payload (parts.set i slot) := by
  intro p q hq
  rw [List.getElem?_set] at hq
  split_ifs at hq with hp hlt
  · cases hp
    cases hq
    exact hslot
  · exact h p q hq

/-- The leading parts together are the beginning of the payload. -/
theorem flatMap_leading : (leading parts).flatMap (fun part => part.data.getD []) =
      payload.take ((leading parts).length * SLICE) := by
  have hmap : (leading parts).map (fun part => part.data.getD []) =
      (List.range (leading parts).length).map (partOf payload) := by
    apply List.ext_getElem
    · simp
    · intro i hi _
      rw [List.length_map] at hi
      obtain ⟨slot, hslot, hsome⟩ := le_leading_iff.mp le_rfl i hi
      obtain ⟨x, hx⟩ := Option.isSome_iff_exists.mp hsome
      have hget : (leading parts)[i] = slot := by
        have hpre := (List.takeWhile_prefix (l := parts)
          (p := fun part : RecvPartV2 C.decoder => part.data.isSome)).getElem hi
        have hi' := (leading_length_le parts).trans_lt' hi
        rw [List.getElem?_eq_getElem hi'] at hslot
        exact hpre.trans (Option.some.inj hslot)
      rw [List.getElem_map, List.getElem_map, List.getElem_range, hget, hx, Option.getD_some]
      exact (h i slot hslot).data x hx
  rw [List.flatMap_def, hmap, ← List.flatMap_def, flatMap_partOf]

theorem leadingSize_eq :
    leadingSize parts = min ((leading parts).length * SLICE) payload.length := by
  have hlen := congrArg List.length (flatMap_leading h)
  rw [List.length_flatMap, List.length_take] at hlen
  exact hlen

end

theorem Follows.withV2 (h : Follows payload r) (hdata : r.data = [])
    (hslots : FollowsSlots payload parts) : Follows payload { r with parts := .v2 parts } := by
  refine ⟨h.cap, h.total, ?_, ?_⟩
  · intro part heq
    cases heq
  · intro parts' heq
    cases heq
    exact ⟨hdata, hslots⟩

def KeepsData {D : DecoderEngine} (parts qs : List (RecvPartV2 D)) : Prop :=
  ∀ (p : ℕ) (slot : RecvPartV2 D), parts[p]? = some slot → slot.data.isSome = true →
    ∃ slot' : RecvPartV2 D, qs[p]? = some slot' ∧ slot'.data.isSome = true

theorem KeepsData.set {parts : List (RecvPartV2 D)} {i : ℕ} {slot : RecvPartV2 D}
    (h : parts[i]? = some slot) (hnone : slot.data = none) (slot' : RecvPartV2 D) :
    KeepsData parts (parts.set i slot') := by
  intro p q hq hsome
  have hne : i ≠ p := by
    rintro rfl
    cases h.symm.trans hq
    rw [hnone] at hsome
    cases hsome
  exact ⟨q, by rw [List.getElem?_set_ne hne, hq], hsome⟩

theorem KeepsData.of_map {parts qs : List (RecvPartV2 D)}
    (h : qs.map (fun p => p.data.isSome) = parts.map fun p => p.data.isSome) :
    KeepsData parts qs := by
  intro p slot hslot hsome
  have hp := congrArg (fun l : List Bool => l[p]?) h
  simp only [List.getElem?_map, hslot, Option.map_some] at hp
  obtain ⟨slot', hslot', heq⟩ := Option.map_eq_some_iff.mp hp
  exact ⟨slot', hslot', heq.trans hsome⟩

theorem KeepsData.trans {parts qs rs : List (RecvPartV2 D)} (h : KeepsData parts qs)
    (h' : KeepsData qs rs) : KeepsData parts rs := by
  intro p slot hslot hsome
  obtain ⟨slot', hslot', hsome'⟩ := h p slot hslot hsome
  exact h' p slot' hslot' hsome'

/-- `Progress` of a version 2 transfer, with the slots before and after. -/
structure SlotsProgress (payload : Bytes) (parts : List (RecvPartV2 C.decoder))
    (o : RecvTransfer C.decoder × Guarded (Option Reply)) : Prop where
  accepted (text : String) : o.2 ≠ .error (.rejected text)
  next : Follows payload o.1 ∨ (∃ reply, o.2 = .ok reply) ∧ Finished payload o.1
  slots : ∃ qs, o.1.parts = .v2 qs ∧ KeepsData parts qs ∧
    ∀ number, o.2 = .ok (some (.complete number)) →
      ∃ slot, qs[number.toNat]? = some slot ∧ slot.data.isSome = true

theorem storeV2_progress (h : Follows payload r) (htotal : r.totalSize = some payload.length)
    (hdata : r.data = []) (hslots : FollowsSlots payload parts) {number : BitVec 32}
    (hslot : parts[number.toNat]? = some slot) (hsome : slot.data.isSome = true) :
    SlotsProgress payload parts (r.storeV2 parts payload.length number) := by
  have hsize := leadingSize_eq hslots
  unfold RecvTransfer.storeV2
  rw [if_neg (by omega)]
  by_cases hfull : leadingSize parts = payload.length
  · rw [if_pos hfull]
    have hall : payload.length ≤ (leading parts).length * SLICE := by omega
    -- a slot behind the leading parts would be a part behind the end of the payload
    have hlength : (leading parts).length = parts.length := by
      by_contra hneq
      have hlt : (leading parts).length < parts.length :=
        lt_of_le_of_ne (leading_length_le parts) hneq
      have hinside := (hslots _ _ (List.getElem?_eq_getElem hlt)).inside
      omega
    have hrest : (parts.dropWhile fun part => part.data.isSome) = [] := by
      have hsplit := congrArg List.length (List.takeWhile_append_dropWhile (l := parts)
        (p := fun part : RecvPartV2 C.decoder => part.data.isSome))
      rw [List.length_append] at hsplit
      change (leading parts).length + _ = _ at hsplit
      exact List.length_eq_zero_iff.mp (by omega)
    have hresult : (r.collect parts (.complete number)).2 = .ok (some (.complete number)) := by
      unfold RecvTransfer.collect
      rw [hrest]
      rfl
    have hpayload : (r.collect parts (.complete number)).1.data = payload := by
      show r.data ++ _ = payload
      rw [hdata, List.nil_append, flatMap_leading hslots]
      exact List.take_of_length_le hall
    obtain ⟨qs, hqs, hmap⟩ := collect_slots r parts (.complete number)
    have hkeeps := KeepsData.of_map hmap
    refine ⟨?_, .inr ⟨⟨_, hresult⟩, htotal, hpayload, ?_⟩, qs, hqs, hkeeps, ?_⟩
    · rw [hresult]
      exact nofun
    · intro q hq
      have hlt : q < (leading parts).length := Nat.lt_of_mul_lt_mul_right (hq.trans_le hall)
      obtain ⟨slot', hslot', hsome'⟩ := le_leading_iff.mp le_rfl q hlt
      unfold RecvTransfer.Decoded
      rw [hqs]
      exact hkeeps q slot' hslot' hsome'
    · intro number' heq
      cases hresult.symm.trans heq
      exact hkeeps _ slot hslot hsome
  · rw [if_neg hfull]
    refine ⟨nofun, .inl (h.withV2 hdata hslots), parts, rfl, fun p q hq hs => ⟨q, hq, hs⟩, ?_⟩
    intro number' heq
    cases heq
    exact ⟨slot, hslot, hsome⟩

/-- A genuine chunk for the open slot of its part. -/
theorem fillSlot_progress (hC : C.Exact) (h : Follows payload r)
    (htotal : r.totalSize = some payload.length) (hdata : r.data = [])
    (hslots : FollowsSlots payload parts) (hchunk : Genuine C payload p chunk)
    (hslot : parts[p]? = some slot) (hnone : slot.data = none) (now : ℕ) :
    SlotsProgress payload parts
      (r.fillSlot now parts slot p payload.length chunk (C.params (partOf payload p))) := by
  have hslotF := hslots p slot hslot
  have hp := hchunk.toNat_part h
  unfold RecvTransfer.fillSlot
  cases hmark : (slot.slide chunk.seqno.toNat).mark chunk.seqno.toNat with
  | error e =>
    cases e with
    | rejected text => exact absurd hmark (mark_ne_rejected _ _ _)
    | crashed text =>
      exact ⟨nofun, .inl (h.withV2 hdata hslots), parts, rfl, fun p q hq hs => ⟨q, hq, hs⟩, nofun⟩
  | ok marked =>
    obtain ⟨hcore, hmdata⟩ := mark_eq_ok hmark
    have hmnone : marked.data = none := by rw [hmdata, data_slide, hnone]
    have hdecoder : marked.core.decoder = slot.core.decoder := by rw [hcore, decoder_slide]
    have hmcore : FollowsPart payload p marked.core := hslotF.core.congr hdecoder
    -- a slot that stays open
    have hopen {q : RecvPartV2 C.decoder} (hq : q.data = none) (hqcore : FollowsPart payload p q.core)
        {result : Guarded (Option Reply)} (haccept : ∀ text, result ≠ .error (.rejected text))
        (hreply : ∀ reply, result ≠ .ok (some reply)) : SlotsProgress payload parts
          ({ r with parts := .v2 (parts.set p q) }, result) :=
      ⟨haccept, .inl (h.withV2 hdata (hslots.set
        ⟨hchunk.inside, hqcore, fun x hx => by rw [hq] at hx; cases hx⟩)), _, rfl,
        KeepsData.set hslot hnone _, fun _ heq => absurd heq (hreply _)⟩
    obtain ⟨hnoreject, hdecoded⟩ := decode_genuine hC hmcore hchunk.inside hchunk.packet
    dsimp only
    cases hdecode : marked.core.decode (C.params (partOf payload p)) chunk.seqno.toNat
        chunk.data with
    | error e =>
      cases e with
      | rejected text => exact absurd hdecode (hnoreject text)
      | crashed text => exact hopen hmnone hmcore nofun nofun
    | ok o =>
      obtain ⟨result, core⟩ := o
      obtain ⟨hcore', hresult⟩ := hdecoded result core hdecode
      cases result with
      | none => exact hopen (q := { marked with core, confirmAt := _ }) hmnone hcore' nofun nofun
      | some x =>
        obtain rfl := hresult x rfl
        have hlt : p < parts.length := (List.getElem?_eq_some_iff.mp hslot).1
        have hfilled : FollowsSlots payload
            (parts.set p { marked with core, data := some (partOf payload p) }) :=
          hslots.set ⟨hchunk.inside, hcore', fun x hx => (Option.some.inj hx).symm⟩
        have hget : (parts.set p { marked with core, data := some (partOf payload p) })[
            chunk.part.toNat]? = some { marked with core, data := some (partOf payload p) } := by
          rw [hp, List.getElem?_set_self hlt]
        obtain ⟨haccept, hnext, qs, hqs, hkeeps, hreported⟩ :=
          storeV2_progress h htotal hdata hfilled hget rfl
        exact ⟨haccept, hnext, qs, hqs, (KeepsData.set hslot hnone _).trans hkeeps, hreported⟩

theorem FollowsSlots.grow (h : FollowsSlots payload parts) (hinside : p * SLICE < payload.length) :
    FollowsSlots payload (parts ++ List.replicate (p + 1 - parts.length) .new) := by
  intro q slot hq
  by_cases hlt : q < parts.length
  · rw [List.getElem?_append_left hlt] at hq
    exact h q slot hq
  · rw [List.getElem?_append_right (Nat.le_of_not_lt hlt), List.getElem?_replicate] at hq
    split_ifs at hq with hsmall
    cases hq
    have hle : q * SLICE ≤ p * SLICE := Nat.mul_le_mul_right _ (by omega)
    exact ⟨by omega, nofun, nofun⟩

theorem processV2_progress (hC : C.Exact) (h : Follows payload r)
    (htotal : r.totalSize = some payload.length) (hparts : r.parts = .v2 parts)
    (hchunk : Genuine C payload p chunk) (now : ℕ) : Progress payload r
      (r.processV2 now parts payload.length chunk (C.params (partOf payload p))) := by
  obtain ⟨hdata, hslots⟩ := h.v2 parts hparts
  have hsmall := part_lt h.cap hchunk.inside
  have hindex : asUsize chunk.part = p := by
    rw [hchunk.number]
    exact asUsize_part hsmall
  have hp := hchunk.toNat_part h
  -- what a chunk for an open slot does, read as progress
  have hfill {parts' : List (RecvPartV2 C.decoder)} (hslots' : FollowsSlots payload parts')
      {slot : RecvPartV2 C.decoder} (hslot : parts'[p]? = some slot) (hnone : slot.data = none)
      (hsub : KeepsData parts parts') : Progress payload r
        (r.fillSlot now parts' slot p payload.length chunk (C.params (partOf payload p))) := by
    obtain ⟨haccept, hnext, qs, hqs, hkeeps, hreported⟩ :=
      fillSlot_progress hC h htotal hdata hslots' hchunk hslot hnone now
    refine ⟨haccept, hnext, ?_, ?_⟩
    · intro number heq
      unfold RecvTransfer.Decoded
      rw [hqs]
      exact hreported number heq
    · intro q hq
      unfold RecvTransfer.Decoded at hq ⊢
      rw [hparts] at hq
      rw [hqs]
      obtain ⟨s, hs, hsome⟩ := hq
      exact hsub.trans hkeeps q s hs hsome
  unfold RecvTransfer.processV2
  rw [hindex]
  by_cases hnew : parts.length ≤ p
  · by_cases hfar : MAX_PARTS_IN_TRANSIT < inTransit parts
    · rw [findSlot_tooFar hnew hfar]
      exact Progress.unchanged h nofun
    · rw [findSlot_new hnew (Nat.le_of_not_lt hfar) (by omega)]
      refine hfill (FollowsSlots.grow hslots hchunk.inside) (getElem?_grown hnew) rfl ?_
      intro q s hs hsome
      have hlt : q < parts.length := (List.getElem?_eq_some_iff.mp hs).1
      exact ⟨s, by rw [List.getElem?_append_left hlt, hs], hsome⟩
  · have hget := List.getElem?_eq_getElem (Nat.lt_of_not_le hnew)
    generalize parts[p] = slot at hget
    rw [findSlot_known hget]
    cases hnone : slot.data with
    | none => exact hfill hslots hget hnone fun q s hs hsome => ⟨s, hs, hsome⟩
    | some x =>
      refine Progress.unchanged h ?_
      intro number heq
      cases heq
      unfold RecvTransfer.Decoded
      rw [hparts, hp]
      exact ⟨slot, hget, by rw [hnone]; rfl⟩

def RecvParts.isV2 : RecvParts D → Bool
  | .v1 _ => false
  | .v2 _ => true

theorem isV2_processPart (r : RecvTransfer D) (now t : ℕ) (chunk : RldpChunk)
    (fecType : FecTypeRaptorQ) :
    (r.processPart now t chunk fecType).1.parts.isV2 = r.parts.isV2 := by
  have hkeeps : Keeps (D := D) (fun _ => True) chunk fecType := ⟨trivial, fun _ _ _ _ => trivial⟩
  unfold RecvTransfer.processPart
  cases hparts : r.parts with
  | v1 part =>
    obtain ⟨part', h, -⟩ := hkeeps.processV1 hparts trivial t
    exact (congrArg RecvParts.isV2 h : _ = false)
  | v2 parts =>
    obtain ⟨qs, h, -⟩ := hkeeps.processV2 hparts (fun _ _ => trivial) now t
    exact (congrArg RecvParts.isV2 h : _ = true)

theorem Follows.incomplete (h : Follows payload r) (hne : payload ≠ []) :
    r.totalSize ≠ some r.data.length := by
  have hpos : 0 < payload.length := List.length_pos_iff.mpr hne
  have hlt : r.data.length < payload.length := by
    cases hparts : r.parts with
    | v1 part =>
      obtain ⟨hdata, hinside, -⟩ := h.v1 part hparts
      rw [hdata, List.length_take]
      omega
    | v2 parts =>
      rw [(h.v2 parts hparts).1]
      exact hpos
  intro heq
  rcases h.total with htotal | htotal
  · cases htotal.symm.trans heq
  · have := Option.some.inj (htotal.symm.trans heq)
    omega

variable {v2 : Bool}

theorem processChunk_genuine (h : Follows payload r) (hversion : r.parts.isV2 = v2) {chunk : Chunk}
    (hchunk : chunk.isV2 = v2) (hgenuine : Genuine C payload p chunk.body) (now : ℕ) :
    r.processChunk now chunk =
      { r with totalSize := some payload.length }.processPart now payload.length chunk.body
        (C.params (partOf payload p)) := by
  have haccept : r.acceptVersion chunk = .ok chunk.body := by
    unfold RecvTransfer.acceptVersion
    cases hparts : r.parts with
    | v1 part =>
      rw [hparts] at hversion
      cases chunk with
      | v1 c => rfl
      | v2 c => cases hversion.trans hchunk.symm
    | v2 parts =>
      rw [hparts] at hversion
      cases chunk with
      | v1 c => cases hversion.trans hchunk.symm
      | v2 c => rfl
  have hsmall := cap_le r
  have hcap := h.cap
  have hsize : chunk.body.totalSize.toNat = payload.length := by
    rw [hgenuine.size, BitVec.toNat_ofNat]
    exact Nat.mod_eq_of_lt (by omega)
  have htotal : r.acceptTotalSize chunk.body.totalSize = .ok (some payload.length) := by
    unfold RecvTransfer.acceptTotalSize
    rw [hsize]
    rcases h.total with htotal | htotal
    · rw [htotal]
      exact if_neg (by omega)
    · rw [htotal]
      simp
  unfold RecvTransfer.processChunk
  simp only [haccept, hgenuine.params, acceptFecType, htotal]

theorem processChunk_progress (hC : C.Exact) (hne : payload ≠ []) (h : Follows payload r)
    (hversion : r.parts.isV2 = v2) {chunk : Chunk} (hchunk : GenuineChunk C payload v2 chunk)
    (now : ℕ) : Progress payload r (r.processChunk now chunk) ∧
      (r.processChunk now chunk).1.parts.isV2 = v2 := by
  obtain ⟨hv, p, hgenuine⟩ := hchunk
  rw [processChunk_genuine h hversion hv hgenuine now, isV2_processPart]
  refine ⟨?_, hversion⟩
  have hfollows : Follows payload { r with totalSize := some payload.length } :=
    ⟨h.cap, .inr rfl, h.v1, h.v2⟩
  have hprogress : Progress payload { r with totalSize := some payload.length }
      ({ r with totalSize := some payload.length }.processPart now payload.length chunk.body
        (C.params (partOf payload p))) := by
    unfold RecvTransfer.processPart
    cases hparts : r.parts with
    | v1 part =>
      have := processV1_progress hC hfollows rfl hparts hgenuine
      rw [hparts] at this
      exact this
    | v2 parts =>
      have := processV2_progress hC hfollows rfl hparts hgenuine now
      rw [hparts] at this
      exact this
  refine ⟨hprogress.accepted, hprogress.next, hprogress.reported, ?_⟩
  intro q hq
  refine hprogress.keeps q ?_
  unfold RecvTransfer.Decoded at hq ⊢
  cases hparts : r.parts with
  | v1 part =>
    rw [hparts] at hq
    exact hq.imp id fun hfull => absurd hfull.1 (h.incomplete hne)
  | v2 parts =>
    rw [hparts] at hq
    exact hq

def Tracks (payload : Bytes) (v2 : Bool) (c : RecvContext C.decoder) : Prop :=
  c.recvTransfer.parts.isV2 = v2 ∧
    match c.loop with
    | .running => Follows payload c.recvTransfer
    | .crashed => Follows payload c.recvTransfer
    | .completed => Finished payload c.recvTransfer
    | .dropped => False

theorem sendConfirmations_follows (h : Follows payload r) (now : ℕ) :
    Follows payload (r.sendConfirmations now).1 ∧
      (r.sendConfirmations now).1.parts.isV2 = r.parts.isV2 ∧
      (∀ number, .complete number ∉ (r.sendConfirmations now).2) ∧
      ∀ part, r.Decoded part → (r.sendConfirmations now).1.Decoded part := by
  unfold RecvTransfer.sendConfirmations
  cases hparts : r.parts with
  | v1 part => exact ⟨h, congrArg RecvParts.isV2 hparts, nofun, fun _ hq => hq⟩
  | v2 parts =>
    obtain ⟨hdata, hslots⟩ := h.v2 parts hparts
    refine ⟨h.withV2 hdata ?_, rfl, ?_, ?_⟩
    · intro p slot hslot
      rw [List.getElem?_map] at hslot
      obtain ⟨slot', hslot', rfl⟩ := Option.map_eq_some_iff.mp hslot
      have hfollows := hslots p slot' hslot'
      split_ifs
      · exact ⟨hfollows.inside, hfollows.core, hfollows.data⟩
      · exact hfollows
    · intro number hmem
      obtain ⟨_, -, heq⟩ := List.mem_map.mp hmem
      cases heq
    · intro part hq
      unfold RecvTransfer.Decoded at hq ⊢
      rw [hparts] at hq
      obtain ⟨slot, hslot, hsome⟩ := hq
      refine ⟨_, by rw [List.getElem?_map, hslot, Option.map_some], ?_⟩
      split_ifs
      · exact hsome
      · exact hsome

theorem round_tracks (hC : C.Exact) (hne : payload ≠ []) {c : RecvContext C.decoder}
    (hc : Tracks payload v2 c) {w : Wakeup}
    (hw : ∀ now chunk, w = .chunk now chunk → GenuineChunk C payload v2 chunk) :
    Tracks payload v2 (c.round w).1 ∧ (∀ number, .complete number ∈ (c.round w).2 →
        (c.round w).1.recvTransfer.Decoded number.toNat) ∧
      ∀ part, c.recvTransfer.Decoded part → (c.round w).1.recvTransfer.Decoded part := by
  obtain ⟨r, loop⟩ := c
  cases loop with
  | running =>
    obtain ⟨hversion, hfollows⟩ := hc
    cases w with
    | spin now =>
      obtain ⟨hfollows', hversion', hnone, hkeeps⟩ := sendConfirmations_follows hfollows now
      exact ⟨⟨hversion'.trans hversion, hfollows'⟩, fun number h => absurd h (hnone number), hkeeps⟩
    | chunk now chunk =>
      obtain ⟨hprogress, hversion'⟩ :=
        processChunk_progress hC hne hfollows hversion (hw now chunk rfl) now
      refine ⟨⟨hversion', ?_⟩, ?_, hprogress.keeps⟩
      · unfold RecvContext.round
        dsimp only
        generalize r.processChunk now chunk = o at hprogress
        obtain ⟨r', result⟩ := o
        cases result with
        | error e =>
          cases e with
          | rejected text => exact absurd rfl (hprogress.accepted text)
          | crashed text =>
            rcases hprogress.next with hnext | ⟨⟨reply, hreply⟩, -⟩
            · exact hnext
            · cases hreply
        | ok reply =>
          unfold RecvTransfer.settle
          rcases hprogress.next with hnext | ⟨-, hfinished⟩
          · rw [if_neg (hnext.incomplete hne)]
            exact hnext
          · have hfull : r'.totalSize = some r'.data.length := by
              rw [hfinished.data]
              exact hfinished.total
            rw [if_pos hfull]
            exact hfinished
      · intro number hmem
        have hresult : (r.processChunk now chunk).2 = .ok (some (.complete number)) := by
          change .complete number ∈ ((r.processChunk now chunk).2.toOption.join).toList at hmem
          cases hresult : (r.processChunk now chunk).2 with
          | error e =>
            rw [hresult] at hmem
            cases hmem
          | ok reply =>
            rw [hresult] at hmem
            cases reply with
            | none => cases hmem
            | some reply =>
              rw [List.mem_singleton.mp hmem]
        exact hprogress.reported number hresult
  | completed | dropped | crashed => exact ⟨hc, nofun, fun _ h => h⟩

structure Net.Good (payload : Bytes) (v2 : Bool) (n : Net C) : Prop where
  sender : n.sender.Ready payload v2
  chunks (c : Chunk) (h : c ∈ n.chunks) : GenuineChunk C payload v2 c
  queue (c : Chunk) (h : c ∈ n.queue) : GenuineChunk C payload v2 c
  context (c : RecvContext C.decoder) (h : n.context = some c) : Tracks payload v2 c
  past (c : RecvContext C.decoder) (h : c ∈ n.past) : Tracks payload v2 c
  absent (h : n.entry = .absent) : n.context = none

def Net.Decoded (n : Net C) (part : ℕ) : Prop :=
  (∃ c, n.context = some c ∧ c.recvTransfer.Decoded part) ∨
    ∃ c ∈ n.past, c.recvTransfer.Decoded part

def Net.Truthful (n : Net C) : Prop :=
  ∀ number, .complete number ∈ n.replies → n.Decoded number.toNat

/-- The timer fires only when the entry has been closed already. -/
def Net.Timely (n : Net C) (e : Event) : Prop := e = .expire → n.entry ≠ .recv

/-- What was reported is decoded, and an entry is closed only behind a loop that is complete. -/
structure Net.Honest (n : Net C) : Prop where
  truthful : n.Truthful
  closed (h : n.entry = .done) : ∃ c, n.context = some c ∧ c.loop = .completed

theorem Net.good_new (hne : payload ≠ []) (v2 : Bool) :
    (Net.new payload v2 : Net C).Good payload v2 :=
  ⟨SendTransfer.ready_new hne v2, nofun, nofun, nofun, nofun, fun _ => rfl⟩

variable {cap : ℕ}

theorem tracks_new (v2 : Bool)
    (hcap : payload.length ≤ (RecvTransfer.new v2 (some cap) : RecvTransfer C.decoder).cap)
    (hne : payload ≠ []) :
    Tracks payload v2 (RecvContext.new v2 (some cap) : RecvContext C.decoder) := by
  have hpos : 0 < payload.length := List.length_pos_iff.mpr hne
  cases v2 with
  | false =>
    refine ⟨rfl, hcap, .inl rfl, ?_, nofun⟩
    intro part h
    cases h
    refine ⟨by simp [RecvContext.new, RecvTransfer.new], by rwa [Nat.zero_mul], nofun⟩
  | true =>
    refine ⟨rfl, hcap, .inl rfl, nofun, ?_⟩
    intro parts h
    cases h
    exact ⟨rfl, nofun⟩

variable {n : Net C}

theorem Net.Truthful.congr {n' : Net C} (hn : n.Truthful) (hreplies : n'.replies = n.replies)
    (hdecoded : ∀ part, n.Decoded part → n'.Decoded part) : n'.Truthful := by
  intro number hmem
  rw [hreplies] at hmem
  exact hdecoded _ (hn number hmem)

theorem consumeChunk_good (hne : payload ≠ [])
    (hcap : payload.length ≤ (RecvTransfer.new v2 (some cap) : RecvTransfer C.decoder).cap)
    (hn : n.Good payload v2) {chunk : Chunk} (hgenuine : GenuineChunk C payload v2 chunk) :
    (n.consumeChunk cap chunk).Good payload v2 ∧
      (n.Honest → (n.consumeChunk cap chunk).Honest) := by
  unfold Net.consumeChunk
  by_cases hchecked : chunk.body.Checked
  · rw [if_pos hchecked]
    cases hentry : n.entry with
    | absent =>
      have hnone := hn.absent hentry
      refine ⟨⟨hn.sender, hn.chunks, ?_, ?_, hn.past, nofun⟩, ?_⟩
      · intro c hc
        rw [List.mem_singleton.mp hc]
        exact hgenuine
      · intro c hc
        cases hc
        rw [hgenuine.1]
        exact tracks_new v2 hcap hne
      · refine fun hhonest => ⟨hhonest.truthful.congr rfl ?_, nofun⟩
        intro part hpart
        rcases hpart with ⟨c, hc, -⟩ | hpast
        · cases hnone.symm.trans hc
        · exact Or.inr hpast
    | recv =>
      refine ⟨⟨hn.sender, hn.chunks, ?_, hn.context, hn.past, nofun⟩, ?_⟩
      · exact List.forall_mem_append.mpr ⟨hn.queue, List.forall_mem_singleton.mpr hgenuine⟩
      · exact fun hhonest => ⟨hhonest.truthful.congr rfl fun _ h => h, nofun⟩
    | done =>
      refine ⟨{ hn with absent := nofun }, ?_⟩
      intro hhonest
      obtain ⟨c, hc, hcompleted⟩ := hhonest.closed hentry
      refine ⟨?_, fun _ => ⟨c, hc, hcompleted⟩⟩
      intro number hmem
      rcases List.mem_append.mp hmem with hmem | hmem
      · exact hhonest.truthful number hmem
      · -- the loop is complete, so that every part is decoded
        cases List.mem_singleton.mp hmem
        obtain ⟨-, p, hp⟩ := hgenuine
        have hfinished := (hn.context c hc).2
        rw [hcompleted] at hfinished
        rw [hp.number, toNat_part (part_lt hcap hp.inside)]
        exact Or.inl ⟨c, hc, hfinished.decoded p hp.inside⟩
  · rw [if_neg hchecked]
    exact ⟨hn, id⟩

theorem wakeLoop_good (hC : C.Exact) (hne : payload ≠ []) (hn : n.Good payload v2)
    {context : RecvContext C.decoder} (hcontext : n.context = some context) {w : Wakeup}
    (hw : ∀ now chunk, w = .chunk now chunk → GenuineChunk C payload v2 chunk) {rest : List Chunk}
    (hrest : ∀ c ∈ rest, GenuineChunk C payload v2 c) :
    (n.wakeLoop context w rest).Good payload v2 ∧
      (n.Honest → (n.wakeLoop context w rest).Honest) := by
  obtain ⟨htracks, hreported, hkeeps⟩ := round_tracks hC hne (hn.context context hcontext) hw
  refine ⟨⟨hn.sender, hn.chunks, ?_, ?_, hn.past, ?_⟩, fun hhonest => ⟨?_, ?_⟩⟩
  · intro c hc
    unfold Net.wakeLoop at hc
    dsimp only at hc
    split_ifs at hc
    · exact hrest c hc
    · cases hc
  · intro c hc
    cases hc
    exact htracks
  · intro habsent
    unfold Net.wakeLoop at habsent
    dsimp only at habsent
    split_ifs at habsent
    cases (hn.absent habsent).symm.trans hcontext
  · intro number hmem
    rcases List.mem_append.mp hmem with hmem | hmem
    · rcases hhonest.truthful number hmem with ⟨c, hc, hpart⟩ | hpast
      · cases hcontext.symm.trans hc
        exact Or.inl ⟨_, rfl, hkeeps _ hpart⟩
      · exact Or.inr hpast
    · exact Or.inl ⟨_, rfl, hreported number hmem⟩
  · intro hdone
    refine ⟨_, rfl, ?_⟩
    unfold Net.wakeLoop at hdone
    dsimp only at hdone
    split_ifs at hdone with hended
    · refine hended.resolve_right fun hdropped => ?_
      obtain ⟨-, hfalse⟩ := htracks
      rw [hdropped] at hfalse
      exact hfalse
    · -- the entry was closed before, and a complete loop stays as it is
      obtain ⟨c, hc, hcompleted⟩ := hhonest.closed hdone
      cases hcontext.symm.trans hc
      unfold RecvContext.round
      rw [hcompleted]
      cases w with
      | chunk now chunk | spin now => exact hcompleted

section Runs

variable (hC : C.Exact) (hne : payload ≠ [])
  (hcap : payload.length ≤ (RecvTransfer.new v2 (some cap) : RecvTransfer C.decoder).cap)
  (hn : n.Good payload v2)

include hC hne hcap hn

theorem step_good (e : Event) : (n.step cap e).Good payload v2 ∧
      (n.Timely e → n.Honest → (n.step cap e).Honest) := by
  cases e with
  | start i =>
    exact ⟨{ hn with sender := hn.sender.start i }, fun _ h => ⟨h.truthful, h.closed⟩⟩
  | giveUp i =>
    exact ⟨{ hn with sender := hn.sender.giveUp i }, fun _ h => ⟨h.truthful, h.closed⟩⟩
  | send i =>
    obtain ⟨hready, hgenuine⟩ := hn.sender.send i
    refine ⟨⟨hready, ?_, hn.queue, hn.context, hn.past, hn.absent⟩,
      fun _ h => ⟨h.truthful, h.closed⟩⟩
    intro c hc
    rcases List.mem_append.mp hc with hc | hc
    · exact hn.chunks c hc
    · exact hgenuine c (Option.mem_toList.mp hc)
  | reply k =>
    unfold Net.step
    dsimp only
    cases hk : n.replies[k]? with
    | none => exact ⟨hn, fun _ h => h⟩
    | some reply =>
      exact ⟨{ hn with sender := hn.sender.consume reply }, fun _ h => ⟨h.truthful, h.closed⟩⟩
  | chunk k =>
    unfold Net.step
    dsimp only
    cases hk : n.chunks[k]? with
    | none => exact ⟨hn, fun _ h => h⟩
    | some chunk =>
      obtain ⟨hgood, hhonest⟩ :=
        consumeChunk_good hne hcap hn (hn.chunks chunk (List.mem_of_getElem? hk))
      exact ⟨hgood, fun _ => hhonest⟩
  | wake now =>
    unfold Net.step
    cases hcontext : n.context with
    | none => exact ⟨hn, fun _ h => h⟩
    | some context =>
      cases hqueue : n.queue with
      | nil => exact ⟨hn, fun _ h => h⟩
      | cons chunk rest =>
        have hall := List.forall_mem_cons.mp (hqueue ▸ hn.queue)
        obtain ⟨hgood, hhonest⟩ := wakeLoop_good hC hne hn hcontext (w := .chunk now chunk)
          (fun _ _ heq => by cases heq; exact hall.1) hall.2
        exact ⟨hgood, fun _ => hhonest⟩
  | spin now =>
    unfold Net.step
    cases hcontext : n.context with
    | none => exact ⟨hn, fun _ h => h⟩
    | some context =>
      obtain ⟨hgood, hhonest⟩ :=
        wakeLoop_good hC hne hn hcontext (w := .spin now) (fun _ _ heq => by cases heq) hn.queue
      exact ⟨hgood, fun _ => hhonest⟩
  | expire =>
    unfold Net.step
    dsimp only
    split_ifs with hrecv
    · exact ⟨{ hn with absent := nofun }, fun htimely => absurd hrecv (htimely rfl)⟩
    · exact ⟨hn, fun _ h => h⟩
  | forget =>
    unfold Net.step
    dsimp only
    split_ifs
    · refine ⟨⟨hn.sender, hn.chunks, hn.queue, nofun, ?_, fun _ => rfl⟩,
        fun _ h => ⟨h.truthful.congr rfl ?_, nofun⟩⟩
      · intro c hc
        rcases List.mem_append.mp hc with hc | hc
        · exact hn.past c hc
        · exact hn.context c (Option.mem_toList.mp hc)
      · intro part hpart
        rcases hpart with ⟨c, hc, hdec⟩ | ⟨c, hc, hdec⟩
        · exact Or.inr ⟨c, List.mem_append_right _ (Option.mem_toList.mpr hc), hdec⟩
        · exact Or.inr ⟨c, List.mem_append_left _ hc, hdec⟩
    · exact ⟨hn, fun _ h => h⟩

def Net.TimelyRun (cap : ℕ) (n : Net C) : List Event → Prop
  | [] => True
  | e :: events => n.Timely e ∧ (n.step cap e).TimelyRun cap events

theorem run_good (events : List Event) : (n.run cap events).Good payload v2 ∧
      (n.TimelyRun cap events → n.Honest → (n.run cap events).Honest) := by
  induction events generalizing n with
  | nil => exact ⟨hn, fun _ h => h⟩
  | cons e events ih =>
    obtain ⟨hgood, hhonest⟩ := step_good hC hne hcap hn e
    obtain ⟨hrun, hrunHonest⟩ := ih hgood
    exact ⟨hrun, fun htimely h => hrunHonest htimely.2 (hhonest htimely.1 h)⟩

end Runs

/-- Ranges that follow each other, cover the payload and are neither empty nor too long. -/
theorem partRanges_partition (hne : payload ≠ []) :
    (partRanges payload.length).flatMap (fun range => range.slice payload) = payload ∧
      ∀ range ∈ partRanges payload.length,
        0 < (range.slice payload).length ∧ (range.slice payload).length ≤ SLICE := by
  have hpos : 0 < payload.length := List.length_pos_iff.mpr hne
  have hget (k : ℕ) (hk : k < (partRanges payload.length).length) :
      nextRange payload.length k = some (partRanges payload.length)[k] := by
    rw [← getElem?_partRanges hpos, List.getElem?_eq_getElem hk]
  constructor
  · have hmap : (partRanges payload.length).map (fun range => range.slice payload) =
        (List.range (partRanges payload.length).length).map (partOf payload) := by
      apply List.ext_getElem
      · simp
      · intro i hi _
        rw [List.length_map] at hi
        rw [List.getElem_map, List.getElem_map, List.getElem_range, slice_nextRange (hget i hi)]
    have hend : payload.length ≤ (partRanges payload.length).length * SLICE := by
      rw [← nextRange_eq_none, ← getElem?_partRanges hpos]
      exact List.getElem?_eq_none le_rfl
    rw [List.flatMap_def, hmap, ← List.flatMap_def, flatMap_partOf]
    exact List.take_of_length_le hend
  · intro range hmem
    obtain ⟨k, hk, rfl⟩ := List.getElem_of_mem hmem
    have hinside : k * SLICE < payload.length := by
      by_contra hout
      cases (nextRange_eq_none.mpr (Nat.le_of_not_lt hout)).symm.trans (hget k hk)
    rw [slice_nextRange (hget k hk)]
    refine ⟨partOf_length_pos hinside, ?_⟩
    rw [partOf_length]
    exact min_le_left _ _

def copyCodec : Codec where
  decoder :=
    { State := Bool
      new := fun _ _ => false
      decode := fun ready _ packet => .ok (if ready then some packet else none, true) }
  Encoder := Bytes
  withData data := data
  symbolsCount _ := 1
  encode data seqno := .ok (seqno, data, data)
  decode_total _ _ _ _ := nofun

theorem copyCodec_reached {data : Bytes} {e : copyCodec.Encoder} (h : copyCodec.Reached data e) :
    e = data := by
  induction h with
  | start => rfl
  | step _ hencode ih =>
    cases hencode
    exact ih

theorem copyCodec_exact : copyCodec.Exact := by
  intro data s s' seqno packet result _ hpacket hdecode
  obtain ⟨e, e', seqno', hreached, hencode⟩ := hpacket
  obtain rfl := copyCodec_reached hreached
  cases hencode
  cases s with
  | false => cases hdecode
  | true =>
    cases hdecode
    rfl

/-- Two chunks complete the transfer, one of them comes again, and the timer fires late. -/
def lateCopy : List Event :=
  [.start 0, .send 0, .send 0, .chunk 0, .wake 0, .chunk 1, .wake 0, .expire, .chunk 0, .forget]

end TonNode.Rldp
