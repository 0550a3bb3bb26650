import TonNode.RldpReceiver

/-! The sender cuts its data into parts of at most `SLICE` bytes and gives each part to an
encoder of its own, which puts out packets without end. Version 1 sends one part at a time
and goes on when it is told that the part is complete. Version 2 sends its parts side by
side and stops sending a part when it is told that it is complete. -/
namespace TonNode.Rldp

open Constraints

structure Codec where
  decoder : DecoderEngine
  Encoder : Type
  withData : Bytes → Encoder
  symbolsCount : Encoder → BitVec 32
  encode : Encoder → BitVec 32 → Checked (BitVec 32 × Bytes × Encoder)
  decode_total (s : decoder.State) (seqno : ℕ) (data : Bytes) (text : String) :
    decoder.decode s seqno data ≠ .error (.rejected text)

variable {C : Codec}

structure Range where
  start : ℕ
  stop : ℕ
deriving DecidableEq

def Range.slice (range : Range) (data : Bytes) : Bytes :=
  (data.drop range.start).take (range.stop - range.start)

def moreOffsets (len offset : ℕ) : List ℕ :=
  if _h : offset < len ∧ ¬ len - offset ≤ SLICE then
    (offset + SLICE) :: moreOffsets len (offset + SLICE)
  else []
termination_by len - offset
decreasing_by
  unfold SLICE at _h ⊢
  omega

def rangesFrom (len : ℕ) : ℕ → List ℕ → List Range
  | offset, [] => [⟨offset, len⟩]
  | offset, next :: rest => ⟨offset, next⟩ :: rangesFrom len next rest

def partRanges (len : ℕ) : List Range := rangesFrom len 0 (moreOffsets len 0)

def nextRange (total part : ℕ) : Option Range :=
  if total ≤ part * SLICE then none
  else some ⟨part * SLICE, part * SLICE + min SLICE (total - part * SLICE)⟩

structure SendPart (C : Codec) where
  data : Bytes
  encoder : Option C.Encoder
  chunk : RldpChunk

def SendPart.new (data : Bytes) : SendPart C where
  data
  encoder := none
  chunk :=
    { fecType := .raptorQ ⟨0, BitVec.ofNat 32 SYMBOL, 0⟩
      part := 0
      totalSize := BitVec.ofNat 64 data.length
      seqno := 0
      data := [] }

def Codec.params (C : Codec) (data : Bytes) : FecTypeRaptorQ :=
  ⟨BitVec.ofNat 32 data.length, BitVec.ofNat 32 SYMBOL, C.symbolsCount (C.withData data)⟩

def SendPart.start (p : SendPart C) (part : ℕ) (range : Range) : SendPart C :=
  let data := range.slice p.data
  { p with
    encoder := some (C.withData data)
    chunk := { p.chunk with part := BitVec.ofNat 32 part, fecType := .raptorQ (C.params data) } }

def SendPart.encodeChunk (p : SendPart C) (seqno : BitVec 32) : Checked (SendPart C) :=
  match p.encoder with
  | none => .error "Encoder is not ready"
  | some encoder => do
    let (seqno, data, encoder) ← C.encode encoder seqno
    pure { p with encoder := some encoder, chunk := { p.chunk with seqno, data } }

def raise (seqno seqno' : BitVec 32) : BitVec 32 :=
  if seqno.toNat < seqno'.toNat then seqno' else seqno

structure SendPartV1 (C : Codec) where
  core : SendPart C
  part : ℕ
  seqnoSend : BitVec 32
  seqnoRecv : BitVec 32
  total : ℕ

def SendPartV1.WINDOW : ℕ := 1000

def SendPartV1.new (data : Bytes) : SendPartV1 C := ⟨.new data, 0, 0, 0, data.length⟩

variable (p : SendPartV1 C)

def SendPartV1.startNextPart : SendPartV1 C :=
  match nextRange p.total p.part with
  | none => p
  | some range => { p with core := p.core.start p.part range }

def SendPartV1.prepareChunk : Checked (SendPartV1 C × RldpChunk) := do
  let core ← p.core.encodeChunk p.seqnoSend
  let sent := core.chunk.seqno
  let next := if p.seqnoSend = sent then sent + 1 else sent
  let seqnoSend :=
    if (sent - p.seqnoRecv).toNat ≤ SendPartV1.WINDOW then raise p.seqnoSend next else p.seqnoSend
  pure ({ p with core, seqnoSend }, core.chunk)

def SendPartV1.setNextPart (part : ℕ) : SendPartV1 C :=
  if p.part = part - 1 then { p with part, seqnoRecv := 0, seqnoSend := 0 } else p

def SendPartV1.setSeqnoRecv (seqno : BitVec 32) : SendPartV1 C :=
  if seqno.toNat < p.seqnoSend.toNat ∧ p.seqnoRecv.toNat < seqno.toNat then
    { p with seqnoRecv := seqno }
  else p

inductive SendStatus where
  | idle
  | started
  | success
  | failure
deriving DecidableEq

structure SendPartV2 (C : Codec) where
  core : SendPart C
  part : ℕ
  range : Range
  seqnoSend : BitVec 32
  status : SendStatus

def SendPartV2.new (data : Bytes) (part : ℕ) (range : Range) : SendPartV2 C :=
  ⟨.new data, part, range, 0, .idle⟩

def SendPartV2.start (p : SendPartV2 C) : SendPartV2 C :=
  { p with core := p.core.start p.part p.range, status := .started }

def SendPartV2.prepareChunk (p : SendPartV2 C) : Checked (SendPartV2 C × RldpChunk) := do
  let core ← p.core.encodeChunk p.seqnoSend
  let sent := core.chunk.seqno
  let next := if p.seqnoSend = sent then sent + 1 else sent
  pure ({ p with core, seqnoSend := raise p.seqnoSend next }, core.chunk)

inductive SendTransfer (C : Codec) where
  | v1 (part : SendPartV1 C)
  | v2 (parts : List (SendPartV2 C))

def SendTransfer.new (data : Bytes) (v2 : Bool) : SendTransfer C :=
  if v2 then
    .v2 ((partRanges data.length).zipIdx.map fun p => SendPartV2.new data p.2 p.1)
  else .v1 (SendPartV1.new data)

variable (s : SendTransfer C)

def SendTransfer.start (i : ℕ) : SendTransfer C :=
  match s with
  | .v1 part => .v1 part.startNextPart
  | .v2 parts =>
    .v2 (parts.modify i fun part => if part.status = .idle then part.start else part)

def SendTransfer.send (i : ℕ) : SendTransfer C × Option Chunk :=
  match s with
  | .v1 part =>
    match part.prepareChunk with
    | .error _ => (s, none)
    | .ok (part, chunk) => (.v1 part, some (.v1 chunk))
  | .v2 parts =>
    match parts[i]? with
    | none => (s, none)
    | some part =>
      if part.status = .started then
        match part.prepareChunk with
        | .error _ => (s, none)
        | .ok (part, chunk) => (.v2 (parts.set i part), some (.v2 chunk))
      else (s, none)

def SendTransfer.consume (reply : Reply) : SendTransfer C :=
  match s, reply with
  | .v1 part, .complete number =>
    if part.part = number.toNat then .v1 (part.setNextPart (number.toNat + 1)) else s
  | .v1 part, .confirmV1 number seqno =>
    if checkMessage none seqno = .ok () ∧ part.part = number.toNat then
      .v1 (part.setSeqnoRecv seqno)
    else s
  | .v2 parts, .complete number =>
    .v2 (parts.modify number.toNat fun part => { part with status := .success })
  -- a confirmation of version 2 only changes when chunks are sent
  | _, _ => s

def SendTransfer.giveUp (i : ℕ) : SendTransfer C :=
  match s with
  | .v1 _ => s
  | .v2 parts => .v2 (parts.modify i fun part => { part with status := .failure })

theorem nextRange_eq_none {total part : ℕ} : nextRange total part = none ↔ total ≤ part * SLICE := by
  unfold nextRange
  split_ifs with h
  · simp [h]
  · simp [h]

variable (payload : Bytes)

def partOf (part : ℕ) : Bytes := (payload.drop (part * SLICE)).take SLICE

theorem slice_nextRange {payload : Bytes} {part : ℕ} {range : Range}
    (h : nextRange payload.length part = some range) : range.slice payload = partOf payload part := by
  unfold nextRange at h
  split_ifs at h
  cases h
  unfold Range.slice partOf
  rw [Nat.add_sub_cancel_left]
  by_cases hle : SLICE ≤ payload.length - part * SLICE
  · rw [min_eq_left hle]
  · rw [min_eq_right (Nat.le_of_not_le hle), List.take_of_length_le (by rw [List.length_drop]),
      List.take_of_length_le (by rw [List.length_drop]; omega)]

/-- The loop of version 2 makes the same cuts as version 1. -/
theorem getElem?_rangesFrom (len part k : ℕ) (h : part * SLICE < len) :
    (rangesFrom len (part * SLICE) (moreOffsets len (part * SLICE)))[k]? =
      nextRange len (part + k) := by
  induction k generalizing part with
  | zero =>
    rw [moreOffsets, Nat.add_zero, nextRange, if_neg (Nat.not_le.mpr h)]
    by_cases hmore : len - part * SLICE ≤ SLICE
    · rw [dif_neg (fun hc => hc.2 hmore), min_eq_right hmore, Nat.add_sub_cancel' h.le]
      rfl
    · rw [dif_pos ⟨h, hmore⟩, min_eq_left (Nat.le_of_not_le hmore)]
      rfl
  | succ k ih =>
    have hnext : part * SLICE + SLICE = (part + 1) * SLICE := (Nat.succ_mul part SLICE).symm
    rw [moreOffsets]
    by_cases hmore : len - part * SLICE ≤ SLICE
    · -- this was the last part
      rw [dif_neg (fun hc => hc.2 hmore)]
      have hend : len ≤ (part + (k + 1)) * SLICE := by
        have hmul : (part + (k + 1)) * SLICE = part * SLICE + SLICE + k * SLICE := by ring
        omega
      rw [nextRange_eq_none.mpr hend]
      rfl
    · rw [dif_pos ⟨h, hmore⟩, hnext]
      have hlt : (part + 1) * SLICE < len := by omega
      have hindex : part + 1 + k = part + (k + 1) := by omega
      rw [rangesFrom, List.getElem?_cons_succ, ih (part + 1) hlt, hindex]

theorem getElem?_partRanges {len : ℕ} (h : 0 < len) (k : ℕ) :
    (partRanges len)[k]? = nextRange len k := by
  have hstart := getElem?_rangesFrom len 0 k (by rwa [Nat.zero_mul])
  rwa [Nat.zero_mul, Nat.zero_add] at hstart

theorem take_mul_append_partOf (part : ℕ) :
    payload.take (part * SLICE) ++ partOf payload part = payload.take ((part + 1) * SLICE) := by
  rw [Nat.succ_mul, List.take_add, partOf]

theorem partOf_length (part : ℕ) :
    (partOf payload part).length = min SLICE (payload.length - part * SLICE) := by
  rw [partOf, List.length_take, List.length_drop]

/-- The first parts together are the beginning of the data. -/
theorem flatMap_partOf (n : ℕ) :
    (List.range n).flatMap (partOf payload) = payload.take (n * SLICE) := by
  induction n with
  | zero => simp
  | succ n ih =>
    rw [List.range_succ, List.flatMap_append, ih, List.flatMap_singleton, take_mul_append_partOf]

end TonNode.Rldp
