import TonNode.RldpSender

/-! The network may lose, repeat, delay and reorder what the two sides send, but it does not
make up messages: whatever has been sent may arrive at any time, any number of times, or
never. The sender's and the receiver's own choices of time are open too. The receiving node
keeps an entry for the transfer. While the entry is open, chunks go to the queue of the
receive loop. A closed entry answers every chunk with "complete". The entry is closed when
the loop ends, and also by a timer that does not ask whether the loop has ended. -/
namespace TonNode.Rldp

open Constraints

variable {C : Codec}

inductive Entry where
  | absent
  | recv
  | done
deriving DecidableEq

structure Net (C : Codec) where
  sender : SendTransfer C
  /-- Every chunk the sender has sent. -/
  chunks : List Chunk
  /-- Every reply the receiving node has sent. -/
  replies : List Reply
  entry : Entry
  context : Option (RecvContext C.decoder)
  queue : List Chunk
  /-- The contexts the receiving node has forgotten. -/
  past : List (RecvContext C.decoder)

def Net.new (payload : Bytes) (v2 : Bool) : Net C :=
  ⟨.new payload v2, [], [], .absent, none, [], []⟩

inductive Event where
  | start (i : ℕ)
  | send (i : ℕ)
  | giveUp (i : ℕ)
  | reply (k : ℕ)
  | chunk (k : ℕ)
  | wake (now : ℕ)
  | spin (now : ℕ)
  | expire
  | forget

def Chunk.isV2 : Chunk → Bool
  | .v1 _ => false
  | .v2 _ => true

/-- A chunk arrives (`consume_message_part` and `consume_chunk_message`); `cap` is the inbound cap of
the peer. -/
def Net.consumeChunk (n : Net C) (cap : ℕ) (chunk : Chunk) : Net C :=
  if chunk.body.Checked then
    match n.entry with
    | .absent =>
      { n with entry := .recv, context := some (.new chunk.isV2 (some cap)), queue := [chunk] }
    | .recv => { n with queue := n.queue ++ [chunk] }
    | .done => { n with replies := n.replies ++ [.complete chunk.body.part] }
  else n

def Net.wakeLoop (n : Net C) (context : RecvContext C.decoder) (w : Wakeup) (rest : List Chunk) :
    Net C :=
  let o := context.round w
  { n with
    context := some o.1
    replies := n.replies ++ o.2
    queue := if o.1.loop = .running then rest else []
    entry := if o.1.loop = .completed ∨ o.1.loop = .dropped then .done else n.entry }

def Net.step (cap : ℕ) (n : Net C) : Event → Net C
  | .start i => { n with sender := n.sender.start i }
  | .send i =>
    let o := n.sender.send i
    { n with sender := o.1, chunks := n.chunks ++ o.2.toList }
  | .giveUp i => { n with sender := n.sender.giveUp i }
  | .reply k =>
    match n.replies[k]? with
    | some reply => { n with sender := n.sender.consume reply }
    | none => n
  | .chunk k =>
    match n.chunks[k]? with
    | some chunk => n.consumeChunk cap chunk
    | none => n
  | .wake now =>
    match n.context, n.queue with
    | some context, chunk :: rest => n.wakeLoop context (.chunk now chunk) rest
    | _, _ => n
  | .spin now =>
    match n.context with
    | some context => n.wakeLoop context (.spin now) n.queue
    | none => n
  | .expire => if n.entry = .recv then { n with entry := .done } else n
  | .forget =>
    if n.entry = .done ∧ n.queue = [] then
      { n with entry := .absent, context := none, past := n.past ++ n.context.toList }
    else n

def Net.run (cap : ℕ) (n : Net C) (events : List Event) : Net C := events.foldl (Net.step cap) n

inductive Codec.Reached (C : Codec) (data : Bytes) : C.Encoder → Prop where
  | start : Codec.Reached C data (C.withData data)
  | step {e e' : C.Encoder} {seqno seqno' : BitVec 32} {packet : Bytes} (h : Codec.Reached C data e)
      (hencode : C.encode e seqno = .ok (seqno', packet, e')) : Codec.Reached C data e'

def Codec.Packet (C : Codec) (data : Bytes) (seqno : BitVec 32) (packet : Bytes) : Prop :=
  ∃ e e' seqno', C.Reached data e ∧ C.encode e seqno' = .ok (seqno, packet, e')

inductive Codec.Fed (C : Codec) (data : Bytes) : C.decoder.State → Prop where
  | new {size symbol : ℕ+} (hsize : (size : ℕ) = data.length) (hsymbol : (symbol : ℕ) = SYMBOL) :
      Codec.Fed C data (C.decoder.new size symbol)
  | step {s s' : C.decoder.State} {seqno : BitVec 32} {packet : Bytes} {result : Option Bytes}
      (h : Codec.Fed C data s) (hpacket : C.Packet data seqno packet)
      (hdecode : C.decoder.decode s seqno.toNat packet = .ok (result, s')) : Codec.Fed C data s'

def Codec.Exact (C : Codec) : Prop :=
  ∀ (data : Bytes) (s s' : C.decoder.State) (seqno : BitVec 32) (packet result : Bytes),
    C.Fed data s → C.Packet data seqno packet →
      C.decoder.decode s seqno.toNat packet = .ok (some result, s') → result = data

structure Genuine (C : Codec) (payload : Bytes) (part : ℕ) (chunk : RldpChunk) : Prop where
  inside : part * SLICE < payload.length
  number : chunk.part = BitVec.ofNat 32 part
  size : chunk.totalSize = BitVec.ofNat 64 payload.length
  params : chunk.fecType = .raptorQ (C.params (partOf payload part))
  packet : C.Packet (partOf payload part) chunk.seqno chunk.data

def GenuineChunk (C : Codec) (payload : Bytes) (v2 : Bool) (chunk : Chunk) : Prop :=
  chunk.isV2 = v2 ∧ ∃ part, Genuine C payload part chunk.body

structure SendPart.Ready (p : SendPart C) (payload : Bytes) : Prop where
  data : p.data = payload
  size : p.chunk.totalSize = BitVec.ofNat 64 payload.length
  encoder (e : C.Encoder) (h : p.encoder = some e) : ∃ part, part * SLICE < payload.length ∧
    p.chunk.part = BitVec.ofNat 32 part ∧
      p.chunk.fecType = .raptorQ (C.params (partOf payload part)) ∧
        C.Reached (partOf payload part) e

theorem SendPart.ready_new (payload : Bytes) : (SendPart.new payload : SendPart C).Ready payload :=
  ⟨rfl, rfl, nofun⟩

variable {payload : Bytes}

theorem SendPart.Ready.start {p : SendPart C} (h : p.Ready payload) {part : ℕ} {range : Range}
    (hrange : nextRange payload.length part = some range) : (p.start part range).Ready payload := by
  have hslice : range.slice p.data = partOf payload part := by
    rw [h.data]
    exact slice_nextRange hrange
  have hinside : part * SLICE < payload.length := by
    by_contra hout
    rw [nextRange_eq_none.mpr (Nat.le_of_not_lt hout)] at hrange
    cases hrange
  refine ⟨h.data, h.size, ?_⟩
  intro e he
  cases he
  refine ⟨part, hinside, rfl, ?_, ?_⟩
  · show FecType.raptorQ (C.params (range.slice p.data)) = _
    rw [hslice]
  · rw [hslice]
    exact .start

theorem SendPart.Ready.encodeChunk {p p' : SendPart C} (h : p.Ready payload) {seqno : BitVec 32}
    (hp' : p.encodeChunk seqno = .ok p') :
    p'.Ready payload ∧ ∃ part, Genuine C payload part p'.chunk := by
  unfold SendPart.encodeChunk at hp'
  cases he : p.encoder with
  | none =>
    rw [he] at hp'
    cases hp'
  | some e =>
    simp only [he, Checked.bind_eq_ok, Checked.pure_eq_ok] at hp'
    obtain ⟨⟨seqno', packet, e'⟩, hencode, rfl⟩ := hp'
    obtain ⟨part, hinside, hnumber, hparams, hreach⟩ := h.encoder e he
    refine ⟨⟨h.data, h.size, ?_⟩, part, hinside, hnumber, h.size, hparams, e, e', seqno, hreach,
      hencode⟩
    intro e'' he''
    cases he''
    exact ⟨part, hinside, hnumber, hparams, .step hreach hencode⟩

inductive SendTransfer.Ready (payload : Bytes) : Bool → SendTransfer C → Prop where
  | v1 {part : SendPartV1 C} (hcore : part.core.Ready payload)
      (htotal : part.total = payload.length) : SendTransfer.Ready payload false (.v1 part)
  | v2 {parts : List (SendPartV2 C)}
      (h : ∀ p ∈ parts, p.core.Ready payload ∧ nextRange payload.length p.part = some p.range) :
      SendTransfer.Ready payload true (.v2 parts)

theorem SendTransfer.ready_new (hne : payload ≠ []) (v2 : Bool) :
    (SendTransfer.new payload v2 : SendTransfer C).Ready payload v2 := by
  cases v2 with
  | false => exact .v1 (SendPart.ready_new payload) rfl
  | true =>
    refine .v2 ?_
    intro p hp
    obtain ⟨⟨range, i⟩, hmem, rfl⟩ := List.mem_map.mp hp
    refine ⟨SendPart.ready_new payload, ?_⟩
    show nextRange payload.length i = some range
    rw [← getElem?_partRanges (List.length_pos_iff.mpr hne)]
    exact (List.mem_zipIdx_iff_getElem?.mp hmem)

/-- A change of one part that keeps its number, its range and what is ready. -/
theorem ready_modify {parts : List (SendPartV2 C)}
    (h : ∀ p ∈ parts, p.core.Ready payload ∧ nextRange payload.length p.part = some p.range) (i : ℕ)
    {f : SendPartV2 C → SendPartV2 C}
    (hf : ∀ p, p.core.Ready payload → nextRange payload.length p.part = some p.range →
      (f p).core.Ready payload ∧ (f p).part = p.part ∧ (f p).range = p.range) :
    SendTransfer.Ready payload true (.v2 (parts.modify i f)) := by
  refine .v2 ?_
  intro q hq
  obtain ⟨j, hj⟩ := List.mem_iff_getElem?.mp hq
  rw [List.getElem?_modify] at hj
  obtain ⟨p, hp, hpq⟩ := Option.map_eq_some_iff.mp hj
  obtain ⟨hready, hrange⟩ := h p (List.mem_of_getElem? hp)
  split_ifs at hpq
  · obtain ⟨hready', hpart, hrange'⟩ := hf p hready hrange
    rw [← hpq, hpart, hrange']
    exact ⟨hready', hrange⟩
  · rw [← hpq]
    exact ⟨hready, hrange⟩

variable {v2 : Bool} {s : SendTransfer C}

variable (h : s.Ready payload v2)
include h

theorem SendTransfer.Ready.start (i : ℕ) : (s.start i).Ready payload v2 := by
  cases h with
  | @v1 part hcore htotal =>
    unfold SendTransfer.start SendPartV1.startNextPart
    dsimp only
    cases hrange : nextRange part.total part.part with
    | none => exact .v1 hcore htotal
    | some range => exact .v1 (hcore.start (htotal ▸ hrange)) htotal
  | @v2 parts hparts =>
    refine ready_modify hparts i ?_
    intro p hready hrange
    split_ifs
    · exact ⟨hready.start hrange, rfl, rfl⟩
    · exact ⟨hready, rfl, rfl⟩

theorem SendTransfer.Ready.giveUp (i : ℕ) : (s.giveUp i).Ready payload v2 := by
  cases h with
  | v1 hcore htotal => exact .v1 hcore htotal
  | v2 hparts => exact ready_modify hparts i fun p hready _ => ⟨hready, rfl, rfl⟩

theorem SendTransfer.Ready.consume (reply : Reply) : (s.consume reply).Ready payload v2 := by
  cases h with
  | @v1 part hcore htotal =>
    unfold SendTransfer.consume SendPartV1.setNextPart SendPartV1.setSeqnoRecv
    cases reply with
    | complete number | confirmV1 number seqno =>
      dsimp only
      split_ifs
      · exact .v1 hcore htotal
      · exact .v1 hcore htotal
      · exact .v1 hcore htotal
    | confirmV2 => exact .v1 hcore htotal
  | @v2 parts hparts =>
    cases reply with
    | complete number => exact ready_modify hparts _ fun p hready _ => ⟨hready, rfl, rfl⟩
    | confirmV1 | confirmV2 => exact .v2 hparts

/-- Every chunk the sender puts on the wire carries a packet of a part of the payload. -/
theorem SendTransfer.Ready.send (i : ℕ) : (s.send i).1.Ready payload v2 ∧
      ∀ chunk, (s.send i).2 = some chunk → GenuineChunk C payload v2 chunk := by
  cases h with
  | @v1 part hcore htotal =>
    unfold SendTransfer.send
    dsimp only
    cases hprepare : part.prepareChunk with
    | error e => exact ⟨.v1 hcore htotal, fun _ h => by cases h⟩
    | ok result =>
      simp only [SendPartV1.prepareChunk, Checked.bind_eq_ok, Checked.pure_eq_ok] at hprepare
      obtain ⟨core, hencode, rfl⟩ := hprepare
      obtain ⟨hcore', hgenuine⟩ := hcore.encodeChunk hencode
      refine ⟨.v1 hcore' htotal, ?_⟩
      intro chunk hchunk
      cases hchunk
      exact ⟨rfl, hgenuine⟩
  | @v2 parts hparts =>
    unfold SendTransfer.send
    dsimp only
    cases hget : parts[i]? with
    | none => exact ⟨.v2 hparts, fun _ h => by cases h⟩
    | some part =>
      obtain ⟨hready, hrange⟩ := hparts part (List.mem_of_getElem? hget)
      dsimp only
      split_ifs
      · cases hprepare : part.prepareChunk with
        | error e => exact ⟨.v2 hparts, fun _ h => by cases h⟩
        | ok result =>
          simp only [SendPartV2.prepareChunk, Checked.bind_eq_ok, Checked.pure_eq_ok] at hprepare
          obtain ⟨core, hencode, rfl⟩ := hprepare
          obtain ⟨hcore', hgenuine⟩ := hready.encodeChunk hencode
          refine ⟨.v2 ?_, ?_⟩
          · intro p hp
            rcases List.mem_or_eq_of_mem_set hp with hp | rfl
            · exact hparts p hp
            · exact ⟨hcore', hrange⟩
          · intro chunk hchunk
            cases hchunk
            exact ⟨rfl, hgenuine⟩
      · exact ⟨.v2 hparts, fun _ h => by cases h⟩

end TonNode.Rldp
