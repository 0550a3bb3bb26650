import TonNode.Guarded

/-! A transfer comes in parts, a part as a stream of RaptorQ packets (chunks) in any
order. The receiver keeps a decoder for each open part, answers every chunk, and joins the
decoded parts to the data of the transfer. The two versions of the protocol differ in how
parts are kept: version 1 has one open part and takes the parts in order, version 2 has a
slot for every part it has heard of. The RaptorQ engine is a parameter here. A function
that may fail after it has changed the transfer returns the transfer beside its result.
The build is a debug build, in which the overflow of a counter is a crash. -/
namespace TonNode.Rldp

abbrev Bytes := List UInt8

structure FecTypeRaptorQ where
  dataSize : BitVec 32
  symbolSize : BitVec 32
  symbolsCount : BitVec 32
deriving DecidableEq

inductive FecType where
  | raptorQ (params : FecTypeRaptorQ)
  | roundRobin (params : FecTypeRaptorQ)
  | online (params : FecTypeRaptorQ)
deriving DecidableEq

structure RldpChunk where
  fecType : FecType
  part : BitVec 32
  totalSize : BitVec 64
  seqno : BitVec 32
  data : Bytes
deriving DecidableEq

inductive Chunk where
  | v1 (chunk : RldpChunk)
  | v2 (chunk : RldpChunk)
deriving DecidableEq

def Chunk.body : Chunk → RldpChunk
  | .v1 chunk => chunk
  | .v2 chunk => chunk

def asUsize (part : BitVec 32) : ℕ := (part.signExtend 64).toNat

inductive Reply where
  | complete (part : BitVec 32)
  | confirmV1 (part seqno : BitVec 32)
  | confirmV2 (part maxSeqno receivedCount receivedMask : BitVec 32)
deriving DecidableEq

namespace Constraints

def MAX_PARTS_IN_TRANSIT : ℕ := 20
def MAX_TOTAL_TRANSFER_SIZE : ℕ := 16 <<< 20
def RLDP_ANSWER_TL_OVERHEAD : ℕ := 64
def SLICE : ℕ := 2000000
def SYMBOL : ℕ := 768

def checkDataSize (limit : ℕ) (dataSize : BitVec 32) : Checked Unit := do
  Checked.require (dataSize ≠ 0) "Empty RaptorQ data payload"
  Checked.require (asUsize dataSize ≤ limit) "Too big RaptorQ data payload"

def checkFecType (limit : ℕ) : FecType → Checked Unit
  | .raptorQ params => do
    Checked.require (asUsize params.symbolSize = SYMBOL) "Bad RaptorQ symbol size"
    checkDataSize limit params.dataSize
  | _ => .error "Bad FEC type"

def checkSeqno (seqno : BitVec 32) : Checked Unit :=
  Checked.require (seqno &&& 0xff000000#32 = 0) "RaptorQ seqno is longer than 24 bits"

end Constraints

open Constraints

def checkMessage (fecType : Option FecType) (seqno : BitVec 32) : Checked Unit := do
  Checked.whenPresent fecType (checkFecType SLICE)
  checkSeqno seqno

def RldpChunk.Checked (chunk : RldpChunk) : Prop :=
  checkMessage (some chunk.fecType) chunk.seqno = .ok ()

instance (chunk : RldpChunk) : Decidable chunk.Checked :=
  inferInstanceAs (Decidable (checkMessage (some chunk.fecType) chunk.seqno = .ok ()))

structure DecoderEngine where
  State : Type
  new : (dataSize symbolSize : ℕ+) → State
  decode : State → ℕ → Bytes → Guarded (Option Bytes × State)

structure RaptorqDecoder (D : DecoderEngine) where
  engine : D.State
  params : FecTypeRaptorQ

variable {D : DecoderEngine}

def RaptorqDecoder.MAX_SOURCE_SYMBOLS : ℕ := 56403

def positive (n : BitVec 32) (text : String) : Checked ℕ+ :=
  if h : 0 < n.toInt then .ok ⟨n.toInt.toNat, by omega⟩ else .error text

def RaptorqDecoder.withParams (params : FecTypeRaptorQ) : Checked (RaptorqDecoder D) := do
  let symbolSize ← positive params.symbolSize "Invalid FEC params: symbol_size must be > 0"
  let dataSize ← positive params.dataSize "Invalid FEC params: data_size must be > 0"
  Checked.provided ((symbolSize : ℕ) ≠ SYMBOL) <| Checked.require
      ((((dataSize : ℕ) + symbolSize - 1) / symbolSize : ℕ) ≤ RaptorqDecoder.MAX_SOURCE_SYMBOLS)
      "Invalid FEC params: source symbol count exceeds raptorq limit"
  pure ⟨D.new dataSize symbolSize, params⟩

structure RecvPart (D : DecoderEngine) where
  decoder : Option (RaptorqDecoder D)
  maxSeqno : ℕ

def RecvPart.new : RecvPart D := ⟨none, 0⟩

def RecvPart.getDecoder (part : RecvPart D) (fecType : FecTypeRaptorQ) :
    Checked (RaptorqDecoder D) :=
  match part.decoder with
  | some decoder =>
    if fecType ≠ decoder.params then .error "Incorrect parameters in RLDP packet" else .ok decoder
  | none => RaptorqDecoder.withParams fecType

def RecvPart.decode (part : RecvPart D) (fecType : FecTypeRaptorQ) (seqno : ℕ) (data : Bytes) :
    Guarded (Option Bytes × RecvPart D) := do
  let decoder ← Guarded.check (part.getDecoder fecType)
  let (result, engine) ← D.decode decoder.engine seqno data
  pure (result, { part with decoder := some { decoder with engine } })

structure RecvPartV1 (D : DecoderEngine) where
  core : RecvPart D
  confirmCount : ℕ
  part : ℕ

structure RecvPartV2 (D : DecoderEngine) where
  confirmAt : ℕ
  core : RecvPart D
  data : Option Bytes
  receivedCount : ℕ
  receivedMask : BitVec 32

def RecvPartV2.new : RecvPartV2 D := ⟨0, .new, none, 0, 0⟩

inductive RecvParts (D : DecoderEngine) where
  | v1 (part : RecvPartV1 D)
  | v2 (parts : List (RecvPartV2 D))

structure RecvTransfer (D : DecoderEngine) where
  data : Bytes
  totalSize : Option ℕ
  expectedTotalSize : Option ℕ
  parts : RecvParts D

def RecvTransfer.new (v2 : Bool) (expectedTotalSize : Option ℕ) : RecvTransfer D where
  data := []
  totalSize := none
  expectedTotalSize
  parts := if v2 then .v2 [] else .v1 ⟨.new, 0, 0⟩

variable (r : RecvTransfer D)

def RecvTransfer.cap : ℕ :=
  let maxWire := MAX_TOTAL_TRANSFER_SIZE + RLDP_ANSWER_TL_OVERHEAD
  match r.expectedTotalSize with
  | some size => min size maxWire
  | none => maxWire

def RecvTransfer.acceptVersion (chunk : Chunk) : Checked RldpChunk :=
  match r.parts, chunk with
  | .v1 _, .v1 chunk => .ok chunk
  | .v2 _, .v2 chunk => .ok chunk
  | .v2 _, .v1 _ => .error "RLDP version mismatch in RLDP packet: expected v1, got v2"
  | .v1 _, .v2 _ => .error "RLDP version mismatch in RLDP packet: expected v2, got v1"

def acceptFecType : FecType → Checked FecTypeRaptorQ
  | .raptorQ params => .ok params
  | _ => .error "Unsupported FEC type in RLDP packet"

def RecvTransfer.acceptTotalSize (size : BitVec 64) : Checked (Option ℕ) :=
  match r.totalSize with
  | some totalSize => .ok (if totalSize ≠ size.toNat then none else some totalSize)
  | none =>
    if r.cap < size.toNat then .error "RLDP total size exceeds cap" else .ok (some size.toNat)

def RecvPart.seen (part : RecvPart D) (seqno : ℕ) : RecvPart D :=
  if part.maxSeqno < seqno then { part with maxSeqno := seqno } else part

variable (part : RecvPartV1 D)

def RecvTransfer.storeV1 (totalSize : ℕ) (number : BitVec 32) (data : Bytes) :
    RecvTransfer D × Guarded (Option Reply) :=
  if totalSize < data.length + r.data.length then
    ({ r with parts := .v1 part }, .error (.rejected "Too big size for RLDP transfer"))
  else if (r.data ++ data).length < totalSize then
    match Guarded.addU32 part.part 1 with
    | .error e => ({ r with data := r.data ++ data, parts := .v1 part }, .error e)
    | .ok next =>
      ({ r with data := r.data ++ data, parts := .v1 ⟨.new, 0, next⟩ },
        .ok (some (.complete number)))
  else
    ({ r with data := r.data ++ data, parts := .v1 part }, .ok (some (.complete number)))

def RecvTransfer.waitV1 : RecvTransfer D × Guarded (Option Reply) :=
  if part.confirmCount = 9 then
    ({ r with parts := .v1 { part with confirmCount := 0 } },
      .ok (some (.confirmV1 (BitVec.ofNat 32 part.part) (BitVec.ofNat 32 part.core.maxSeqno))))
  else
    ({ r with parts := .v1 { part with confirmCount := part.confirmCount + 1 } }, .ok none)

def RecvTransfer.processV1 (totalSize : ℕ) (chunk : RldpChunk) (fecType : FecTypeRaptorQ) :
    RecvTransfer D × Guarded (Option Reply) :=
  if part.part = chunk.part.toNat then
    let core := part.core.seen chunk.seqno.toNat
    match core.decode fecType chunk.seqno.toNat chunk.data with
    | .error e => ({ r with parts := .v1 { part with core } }, .error e)
    | .ok (some data, core) => r.storeV1 { part with core } totalSize chunk.part data
    | .ok (none, core) => r.waitV1 { part with core }
  else if chunk.part.toNat < part.part then (r, .ok (some (.complete chunk.part)))
  else (r, .ok none)

variable (parts : List (RecvPartV2 D))

def leading : List (RecvPartV2 D) :=
  parts.takeWhile fun part => part.data.isSome

/-- The number of parts that count against the window.  The decoded parts at the front are
subtracted only when there are many parts. -/
def inTransit : ℕ :=
  if MAX_PARTS_IN_TRANSIT < parts.length then parts.length - (leading parts).length
  else parts.length

/-- The loop that adds slots until there is one for the part.  A vector has less than `2^63`
elements, however much memory there is. -/
def growSlots (index : ℕ) : Guarded (List (RecvPartV2 D)) :=
  if index + 1 < 2 ^ 63 then
    .ok (parts ++ List.replicate (index + 1 - parts.length) RecvPartV2.new)
  else Guarded.crash "capacity overflow"

inductive Slot (D : DecoderEngine) where
  | opened (parts : List (RecvPartV2 D)) (part : RecvPartV2 D)
  | finished
  | tooFar

def findSlot (index : ℕ) : Guarded (Slot D) :=
  if parts.length ≤ index then
    if MAX_PARTS_IN_TRANSIT < inTransit parts then .ok .tooFar
    else do
      let parts ← growSlots parts index
      let part ← Guarded.index parts index
      pure (.opened parts part)
  else do
    let part ← Guarded.index parts index
    pure (if part.data.isNone then .opened parts part else .finished)

variable (part : RecvPartV2 D)

def RecvPartV2.slide (seqno : ℕ) : RecvPartV2 D :=
  if part.core.maxSeqno < seqno then
    { part with
      core := part.core.seen seqno
      receivedMask :=
        if 32 ≤ seqno - part.core.maxSeqno then 0
        else part.receivedMask <<< (seqno - part.core.maxSeqno) }
  else part

/-- Mark a sequence number as received, unless it has left the window or is marked already. -/
def RecvPartV2.mark (seqno : ℕ) : Guarded (RecvPartV2 D) :=
  let diff := part.core.maxSeqno - seqno
  if diff < 32 ∧ part.receivedMask.getLsbD diff = false then do
    let receivedCount ← Guarded.addU32 part.receivedCount 1
    pure { part with receivedCount, receivedMask := part.receivedMask ||| (1#32 <<< diff) }
  else pure part

def RecvTransfer.collect (reply : Reply) : RecvTransfer D × Guarded (Option Reply) :=
  let emptied := (leading parts).map fun part => { part with data := some [] }
  let rest := parts.dropWhile fun part => part.data.isSome
  ({ r with
      data := r.data ++ (leading parts).flatMap fun part => part.data.getD []
      parts := .v2 (emptied ++ rest) },
    if rest.isEmpty then .ok (some reply)
    else .error (.rejected "RLDP transfer is completed by size, but not finished"))

def leadingSize : ℕ :=
  ((leading parts).map fun part => (part.data.getD []).length).sum

def RecvTransfer.storeV2 (totalSize : ℕ) (number : BitVec 32) :
    RecvTransfer D × Guarded (Option Reply) :=
  if totalSize < leadingSize parts then
    ({ r with parts := .v2 parts }, .error (.rejected "Too big size for RLDP transfer"))
  else if leadingSize parts = totalSize then r.collect parts (.complete number)
  else ({ r with parts := .v2 parts }, .ok (some (.complete number)))

def ACK_DELAY_MS : ℕ := 1

variable (now : ℕ)

def RecvTransfer.fillSlot (parts : List (RecvPartV2 D)) (part : RecvPartV2 D) (index totalSize : ℕ)
    (chunk : RldpChunk) (fecType : FecTypeRaptorQ) : RecvTransfer D × Guarded (Option Reply) :=
  match (part.slide chunk.seqno.toNat).mark chunk.seqno.toNat with
  | .error e => ({ r with parts := .v2 parts }, .error e)
  | .ok part =>
    match part.core.decode fecType chunk.seqno.toNat chunk.data with
    | .error e => ({ r with parts := .v2 (parts.set index part) }, .error e)
    | .ok (some data, core) =>
      r.storeV2 (parts.set index { part with core, data := some data }) totalSize chunk.part
    | .ok (none, core) =>
      ({ r with parts := .v2 (parts.set index { part with core, confirmAt := now + ACK_DELAY_MS }) },
        .ok none)

def RecvTransfer.processV2 (parts : List (RecvPartV2 D)) (totalSize : ℕ) (chunk : RldpChunk)
    (fecType : FecTypeRaptorQ) : RecvTransfer D × Guarded (Option Reply) :=
  match findSlot parts (asUsize chunk.part) with
  | .error e => (r, .error e)
  | .ok .tooFar => (r, .ok none)
  | .ok .finished => (r, .ok (some (.complete chunk.part)))
  | .ok (.opened parts part) =>
    r.fillSlot now parts part (asUsize chunk.part) totalSize chunk fecType

def RecvTransfer.processPart (totalSize : ℕ) (chunk : RldpChunk) (fecType : FecTypeRaptorQ) :
    RecvTransfer D × Guarded (Option Reply) :=
  match r.parts with
  | .v1 part => r.processV1 part totalSize chunk fecType
  | .v2 parts => r.processV2 now parts totalSize chunk fecType

def RecvTransfer.processChunk (chunk : Chunk) : RecvTransfer D × Guarded (Option Reply) :=
  match r.acceptVersion chunk with
  | .error text => (r, .error (.rejected text))
  | .ok chunk =>
    match acceptFecType chunk.fecType with
    | .error text => (r, .error (.rejected text))
    | .ok fecType =>
      match r.acceptTotalSize chunk.totalSize with
      | .error text => (r, .error (.rejected text))
      | .ok none => (r, .ok none)
      | .ok (some totalSize) =>
        { r with totalSize := some totalSize }.processPart now totalSize chunk fecType

def RecvPartV2.Due : Prop :=
  part.confirmAt ≠ 0 ∧ part.confirmAt ≤ now

instance : Decidable (part.Due now) :=
  inferInstanceAs (Decidable (_ ∧ _))

def RecvTransfer.sendConfirmations : RecvTransfer D × List Reply :=
  match r.parts with
  | .v1 _ => (r, [])
  | .v2 parts =>
    ({ r with
        parts := .v2 (parts.map fun part =>
          if part.Due now then { part with confirmAt := 0 } else part) },
      (parts.zipIdx.filter fun p => p.1.Due now).map fun p =>
        .confirmV2 (BitVec.ofNat 32 p.2) (BitVec.ofNat 32 p.1.core.maxSeqno)
          (BitVec.ofNat 32 p.1.receivedCount) p.1.receivedMask)

inductive LoopState where
  | running
  | completed
  | dropped
  | crashed
deriving DecidableEq

structure RecvContext (D : DecoderEngine) where
  recvTransfer : RecvTransfer D
  loop : LoopState

def RecvContext.new (v2 : Bool) (expectedTotalSize : Option ℕ) : RecvContext D :=
  ⟨.new v2 expectedTotalSize, .running⟩

inductive Wakeup where
  | chunk (now : ℕ) (chunk : Chunk)
  | spin (now : ℕ)

def RecvTransfer.settle : Guarded (Option Reply) → LoopState
  | .error (.crashed _) => .crashed
  | .error (.rejected _) => .dropped
  | .ok _ => if r.totalSize = some r.data.length then .completed else .running

def RecvContext.round (c : RecvContext D) (w : Wakeup) : RecvContext D × List Reply :=
  match c.loop, w with
  | .running, .chunk now chunk =>
    let (r, result) := c.recvTransfer.processChunk now chunk
    (⟨r, r.settle result⟩, (result.toOption.join).toList)
  | .running, .spin now =>
    let (r, replies) := c.recvTransfer.sendConfirmations now
    (⟨r, .running⟩, replies)
  | _, _ => (c, [])

def RecvContext.receiveLoop (c : RecvContext D) (ws : List Wakeup) : RecvContext D :=
  ws.foldl (fun c w => (c.round w).1) c

end TonNode.Rldp
