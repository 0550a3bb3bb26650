import TonNode.CellBuilder
import TonNode.Nested

/-! `boc_decompress_improved_structure_lz4`: a bag of cells from a stream of bits that
holds the shape of the graph apart from the data of its cells. The shape comes from the
wire; the cells are built by a recursion along it. -/
namespace TonNode.Compression

open Guarded Cells Boc
open Guarded (index)
open Nested (free require call)

def maxImprovedNodeCount : ℕ := 500000

def maxCellDataLengthBits : ℕ := 1024

structure BitSliceReader where
  data : Bytes
  pos : ℕ

namespace BitSliceReader

variable (r : BitSliceReader)

def remainingBits : ℕ := r.data.length * 8 - r.pos

def bitAt (data : Bytes) (pos : ℕ) : Guarded Bool := do
  let byte ← index data (pos / 8)
  pure (byte.toNat.testBit (7 - pos % 8))

def readUint (bits : ℕ) : Guarded (ℕ × BitSliceReader) :=
  if bits = 0 then pure (0, r)
  else do
    require (bits ≤ 32) "BOC decompression failed: too many bits to read"
    require (bits ≤ r.remainingBits) "BOC decompression failed: not enough bits to read"
    let read ← (List.range bits).mapM fun i => bitAt r.data (r.pos + i)
    pure (Block.bitsToNat read, { r with pos := r.pos + bits })

def readBits (bits : ℕ) : Guarded (List Bool × BitSliceReader) := do
  require (bits ≤ r.remainingBits) "BOC decompression failed: not enough bits to read"
  let read ← (List.range bits).mapM fun i => bitAt r.data (r.pos + i)
  pure (read, { r with pos := r.pos + bits })

end BitSliceReader

def readRootIndex (s : List ℕ × BitSliceReader) (_k : ℕ) : Guarded (List ℕ × BitSliceReader) := do
  let (index, r) ← s.2.readUint 32
  pure (s.1 ++ [index], r)

/-- Section 3: the roots and the number of nodes. -/
def readHeader (decompressedSize : ℕ) (r : BitSliceReader) :
    Guarded ((List ℕ × ℕ) × BitSliceReader) := do
  let (rootCount, r) ← r.readUint 32
  require (1 ≤ rootCount) "BOC decompression failed: invalid root count"
  require (rootCount ≤ maxImprovedNodeCount) "BOC decompression failed: root count exceeds limit"
  require (rootCount ≤ decompressedSize) "BOC decompression failed: invalid root count"
  let (rootIndexes, r) ← (List.range rootCount).foldlM readRootIndex ([], r)
  let (nodeCount, r) ← r.readUint 32
  require (1 ≤ nodeCount) "BOC decompression failed: invalid node count"
  require (nodeCount ≤ maxImprovedNodeCount) "BOC decompression failed: node count exceeds limit"
  require (nodeCount ≤ decompressedSize) "BOC decompression failed: incorrect node count provided"
  require (∀ index ∈ rootIndexes, index < nodeCount) "BOC decompression failed: invalid root index"
  pure ((rootIndexes, nodeCount), r)

structure NodeInfo where
  isDepthBalance : Bool
  isSpecial : Bool
  prunedBranchLevel : ℕ
  refsCnt : ℕ
  isDataSmall : Bool
  dataLength : ℕ

def countOnes (n : ℕ) : ℕ := n % 2 + n / 2 % 2 + n / 4 % 2 + n / 8 % 2

def readLength (level : ℕ) (r : BitSliceReader) : Guarded ((Bool × ℕ) × BitSliceReader) :=
  if level ≠ 0 then pure ((false, (256 + 16) * countOnes level), r)
  else do
    require (8 ≤ r.remainingBits) "BOC decompression failed: not enough bits for data length"
    let (small, r) ← r.readUint 1
    let (value, r) ← r.readUint 7
    -- zero stands for the largest number of bytes
    pure ((small = 1, if small = 1 then value else if value * 8 = 0 then 1024 else value * 8), r)

def finishNode (cellType refs : ℕ) (r : BitSliceReader) : Guarded (NodeInfo × BitSliceReader) :=
  if cellType = 9 then pure (⟨true, false, 0, refs, false, 0⟩, r)
  else do
    let level := cellType - 1
    let ((small, length), r) ← readLength level r
    require (length ≤ maxCellDataLengthBits) "BOC decompression failed: invalid cell data length"
    pure (⟨false, cellType ≠ 0, level, refs, small, length⟩, r)

def readNode (s : List NodeInfo × BitSliceReader) (_i : ℕ) :
    Guarded (List NodeInfo × BitSliceReader) := do
  require (8 ≤ s.2.remainingBits) "BOC decompression failed: not enough bits for cell metadata"
  let (cellType, r) ← s.2.readUint 4
  let (refs, r) ← r.readUint 4
  require (refs ≤ 4) "BOC decompression failed: invalid cell refs count"
  let (node, r) ← finishNode cellType refs r
  pure (s.1 ++ [node], r)

/-- One edge in section 6: the next node, or zero for an edge that is still open. -/
def readEdge (i : ℕ) (s : List ℕ × BitSliceReader) (_j : ℕ) : Guarded (List ℕ × BitSliceReader) := do
  let (edge, r) ← s.2.readUint 1
  pure (s.1 ++ [if edge = 1 then i + 1 else 0], r)

def readEdges (nodes : List NodeInfo) (s : List (List ℕ) × BitSliceReader) (i : ℕ) :
    Guarded (List (List ℕ) × BitSliceReader) := do
  let node ← index nodes i
  let (row, r) ← (List.range node.refsCnt).foldlM (readEdge i) ([], s.2)
  pure (s.1 ++ [row], r)

variable (nodeCount : ℕ)

def requiredBitsForDelta (i : ℕ) : ℕ := Block.sizeBits (nodeCount - i - 3)

def readDelta (requiredBits : ℕ) (r : BitSliceReader) : Guarded (ℕ × BitSliceReader) :=
  if requiredBits < 8 - (r.pos + 1) % 8 + 1 then r.readUint requiredBits
  else do
    let (edge, r) ← r.readUint 1
    if edge = 1 then r.readUint (8 - r.pos % 8) else r.readUint requiredBits

/-- One edge in section 8. -/
def closeEdge (i : ℕ) (s : List ℕ × BitSliceReader) (child : ℕ) :
    Guarded (List ℕ × BitSliceReader) :=
  if child ≠ 0 then pure (s.1 ++ [child], s.2)
  else if nodeCount ≤ i + 3 then pure (s.1 ++ [i + 2], s.2)
  else do
    let (delta, r) ← readDelta (requiredBitsForDelta nodeCount i) s.2
    pure (s.1 ++ [delta + i + 2], r)

def closeEdges (graph : List (List ℕ)) (s : List (List ℕ) × BitSliceReader) (i : ℕ) :
    Guarded (List (List ℕ) × BitSliceReader) := do
  let row ← index graph i
  let (row, r) ← row.foldlM (closeEdge nodeCount i) ([], s.2)
  pure (s.1 ++ [row], r)

def checkEdges (graph : List (List ℕ)) (node : ℕ) : Guarded Unit := do
  let row ← index graph node
  row.forM fun child => do
    require (child < nodeCount) "BOC decompression failed: invalid graph connection"
    require (node < child) "BOC decompression failed: circular reference in graph"

structure Draft where
  bits : List Bool
  cellType : CellType

def Draft.appendRaw (d : Draft) (bits : List Bool) : Guarded Draft := do
  require (bits = [] ∨ d.bits.length + bits.length ≤ maxDataBits) "CellOverflow"
  pure { d with bits := d.bits ++ bits }

variable (node : NodeInfo)

/-- The header of a pruned branch in section 7. -/
def draftHead : Guarded Draft :=
  if node.prunedBranchLevel ≠ 0 then
    Draft.appendRaw ⟨[], .prunedBranch⟩ (Block.natToBits 16 (256 + node.prunedBranchLevel))
  else pure ⟨[], .ordinary⟩

variable (r : BitSliceReader)

def readRemainder : Guarded (Draft × BitSliceReader) := do
  let draft ← draftHead node
  require (node.dataLength % 8 ≤ r.remainingBits)
    "BOC decompression failed: not enough bits for initial cell data"
  let (bits, r) ← r.readBits (node.dataLength % 8)
  let draft ← draft.appendRaw bits
  pure (draft, r)

def nodeRemainder : Guarded (Draft × BitSliceReader) :=
  if node.isDepthBalance then pure (⟨[], .ordinary⟩, r) else readRemainder node r

def readRemainders (nodes : List NodeInfo) (s : List Draft × BitSliceReader) (i : ℕ) :
    Guarded (List Draft × BitSliceReader) := do
  let node ← index nodes i
  let (draft, r) ← nodeRemainder node s.2
  pure (s.1 ++ [draft], r)

def skipBit (_k : ℕ) : Guarded BitSliceReader := do
  let (_, r) ← r.readUint 1
  pure r

def alignToByte : Guarded BitSliceReader :=
  (List.range ((8 - r.pos % 8) % 8)).foldlM skipBit r

def skipZeros : ℕ → BitSliceReader → Guarded (ℕ × BitSliceReader)
  | 0, r => pure (0, r)
  | fuel + 1, r => do
    let bit ← BitSliceReader.bitAt r.data r.pos
    if bit then pure (0, r)
    else do
      let (zeros, r) ← skipZeros fuel { r with pos := r.pos + 1 }
      pure (zeros + 1, r)

def readPadding : Guarded (ℕ × BitSliceReader) :=
  if node.prunedBranchLevel = 0 ∧ node.isDataSmall = false then do
    let (zeros, r) ← skipZeros r.remainingBits r
    let (_, r) ← r.readUint 1
    pure (zeros + 1, r)
  else pure (0, r)

def readData (draft : Draft) (r : BitSliceReader) : Guarded (Draft × BitSliceReader) := do
  let (padding, r) ← readPadding node r
  let length := node.dataLength - node.dataLength % 8
  require (padding ≤ length) "BOC decompression failed: invalid cell data length"
  require (length - padding ≤ r.remainingBits)
    "BOC decompression failed: not enough bits for remaining cell data"
  let (bits, r) ← r.readBits (length - padding)
  let draft ← draft.appendRaw bits
  pure (draft, r)

def nodeData (draft : Draft) (r : BitSliceReader) : Guarded (Draft × BitSliceReader) :=
  if node.isDepthBalance then pure (draft, r) else readData node draft r

def readDatas (nodes : List NodeInfo) (drafts : List Draft) (s : List Draft × BitSliceReader) (i : ℕ) :
    Guarded (List Draft × BitSliceReader) := do
  let node ← index nodes i
  let draft ← index drafts i
  let (draft, r) ← nodeData node draft s.2
  pure (s.1 ++ [draft], r)

structure Decoded where
  rootIndexes : List ℕ
  nodes : List NodeInfo
  graph : List (List ℕ)
  drafts : List Draft

def decode (serialized : Bytes) : Guarded Decoded := do
  let ((rootIndexes, nodeCount), r) ← readHeader serialized.length ⟨serialized, 0⟩
  let (nodes, r) ← (List.range nodeCount).foldlM readNode ([], r)
  let (graph, r) ← (List.range nodeCount).foldlM (readEdges nodes) ([], r)
  let (drafts, r) ← (List.range nodeCount).foldlM (readRemainders nodes) ([], r)
  let (graph, r) ← (List.range nodeCount).foldlM (closeEdges nodeCount graph) ([], r)
  (List.range nodeCount).forM (checkEdges nodeCount graph)
  let r ← alignToByte r
  let (drafts, _) ← (List.range nodeCount).foldlM (readDatas nodes drafts) ([], r)
  pure ⟨rootIndexes, nodes, graph, drafts⟩

def takeUint (len : ℕ) (bits : List Bool) : Option (ℕ × List Bool) :=
  if len ≤ bits.length then some (Block.bitsToNat (bits.take len), bits.drop len) else none

/-- `Coins` from a slice: an encoding with a leading zero byte is refused. -/
def readCoins (bits : List Bool) : Option (ℕ × List Bool) := do
  let (bytes, bits) ← takeUint 4 bits
  if bytes = 0 then some (0, bits)
  else do
    let (first, bits) ← takeUint 8 bits
    if first = 0 then none
    else do
      let (rest, bits) ← takeUint (8 * (bytes - 1)) bits
      some (first * 256 ^ (bytes - 1) + rest, bits)

def cellBits (c : Cell) : List Bool :=
  (c.buf.data.flatMap fun b => Block.natToBits 8 b.toNat).take (bitLen c.buf.d2 c.buf.data)

/-- `extract_depth_balance_coins`. A set bit after the coins means extra currencies, with
which there is no result either. -/
def extractDepthBalanceCoins (c : Cell) : Option ℕ := do
  let (label, bits) ← takeUint 2 (cellBits c)
  let (splitDepth, bits) ← if label = 0 then takeUint 5 bits else none
  let (coins, bits) ← if splitDepth = 0 then readCoins bits else none
  let (other, bits) ← takeUint 1 bits
  if other = 0 ∧ bits = [] then some coins else none

def processShardAccountsVertex (left right : Cell) : Option ℤ := do
  let leftCoins ← extractDepthBalanceCoins left
  let rightCoins ← extractDepthBalanceCoins right
  some ((rightCoins : ℤ) - leftCoins)

def writeDepthBalanceCoins (d : Draft) (coins : ℕ) : Guarded Draft := do
  let d ← d.appendRaw (List.replicate 7 false)
  require (coins < 2 ^ 120) "value is bigger than 15 bytes"
  let bytes := (Block.sizeBits coins + 7) / 8
  let d ← d.appendRaw (Block.natToBits 4 bytes)
  let d ← d.appendRaw (Block.natToBits (8 * bytes) coins)
  d.appendRaw [false]

def checkedAdd (a b : ℤ) : Guarded ℤ := do
  require (-2 ^ 127 ≤ a + b ∧ a + b < 2 ^ 127) "BOC decompression failed: integer overflow"
  pure (a + b)

def addDiff (sum diff : Option ℤ) : Guarded (Option ℤ) :=
  match sum, diff with
  | some sum, some diff => do
    let sum ← checkedAdd sum diff
    pure (some sum)
  | sum, _ => pure sum

def Draft.tag (d : Draft) : ℕ := Block.bitsToNat (d.bits.take 8)

def isMerkleUpdateNode (isSpecial : Bool) (d : Draft) : Bool :=
  isSpecial && decide (8 ≤ d.bits.length) && decide (d.tag = 4)

def specialCellType (isSpecial : Bool) (d : Draft) : Guarded CellType :=
  if isSpecial = false then pure d.cellType
  else do
    require (8 ≤ d.bits.length) "BOC decompression failed: invalid special cell"
    match d.tag with
    | 1 => pure .prunedBranch
    | 2 => pure .libraryReference
    | 3 => pure .merkleProof
    | 4 => pure .merkleUpdate
    | _ => check (Checked.reject "BOC decompression failed: unknown special cell type")

def packBytes (bits : List Bool) : Bytes :=
  (List.range ((bits.length + 7) / 8)).map fun k =>
    let byte := (bits.drop (8 * k)).take 8
    UInt8.ofNat (Block.bitsToNat (byte ++ List.replicate (8 - byte.length) false))

structure BuildState where
  cells : List (Option Cell)
  drafts : List (Option Draft)

section Build

variable (sha256 : Bytes → Bytes) (d : Decoded)

def childCell (s : BuildState) (child : ℕ) : Guarded Cell := do
  let cell ← index s.cells child
  check (Checked.present cell "BOC decompression failed: child cell not yet built")

def finalizeNode (idx : ℕ) (s : BuildState) : Guarded BuildState := do
  let draft ← index s.drafts idx
  let draft ← check (Checked.present draft "BOC decompression failed: builder missing")
  let row ← index d.graph idx
  let children ← row.mapM (childCell s)
  require (children.length ≤ Hashmap.maxReferencesCount) "CellOverflow"
  let node ← index d.nodes idx
  let type ← specialCellType node.isSpecial draft
  let cell ← finalize sha256 Hashmap.maxSafeDepth
    ⟨packBytes draft.bits, draft.bits.length, children, type⟩
  pure ⟨s.cells.set idx (some cell), s.drafts.set idx none⟩

def vertexDiff (s : BuildState) (left : Option ℕ) (right : ℕ) : Guarded (Option ℤ) :=
  match left with
  | none => pure none
  | some left => do
    let leftCell ← index s.cells left
    let rightCell ← index s.cells right
    match leftCell, rightCell with
    | some l, some r => pure (processShardAccountsVertex l r)
    | _, _ => pure none

def leftChild (left : Option ℕ) (j : ℕ) : Guarded (Option ℕ) :=
  match left with
  | none => pure none
  | some left => do
    let row ← index d.graph left
    pure row[j]?

/-- The data of a depth-balance node, from its left node and the sum of the differences
below it. -/
def restoreCoins (right : ℕ) (left : Option ℕ) (sum : ℤ) (s : BuildState) : Guarded BuildState := do
  let left ← check (Checked.present left
    "BOC decompression failed: depth-balance left vertex is missing")
  let leftCell ← childCell s left
  let leftCoins ← check (Checked.present (extractDepthBalanceCoins leftCell)
    "BOC decompression failed: depth-balance left vertex has no coins")
  let expected ← checkedAdd leftCoins sum
  require (0 ≤ expected) "BOC decompression failed: depth-balance coins became negative"
  let draft ← index s.drafts right
  let draft ← check (Checked.present draft "BOC decompression failed: builder missing")
  let draft ← writeDepthBalanceCoins draft expected.toNat
  pure { s with drafts := s.drafts.set right (some draft) }

/-- The part of `build_right_under_mu` after its children: a depth-balance node hands on
the sum of the differences below it, any other node its own difference. -/
def finishRight (right : ℕ) (left : Option ℕ) (out : Option ℤ) (sum : ℤ) (s : BuildState) :
    Guarded (BuildState × Option ℤ) := do
  let node ← index d.nodes right
  if node.isDepthBalance then do
    let s ← restoreCoins right left sum s
    let s ← finalizeNode sha256 d right s
    let out ← addDiff out (some sum)
    pure (s, out)
  else do
    let s ← finalizeNode sha256 d right s
    let diff ← vertexDiff s left right
    let out ← addDiff out diff
    pure (s, out)

def buildRightUnderMu : ℕ → ℕ → Option ℕ → Option ℤ → BuildState →
    Nested (BuildState × Option ℤ)
  | 0, _, _, _, _ => free (crash "the recursion does not end")
  | fuel + 1, right, left, out, s => call do
    let built ← free (index s.cells right)
    if built.isSome then do
      -- a node that is built before still counts for its parent
      let diff ← free (vertexDiff s left right)
      let out ← free (addDiff out diff)
      pure (s, out)
    else do
      let row ← free (index d.graph right)
      let (s, sum) ← row.zipIdx.foldlM (fun p child => do
        let left ← free (leftChild d left child.2)
        buildRightUnderMu fuel child.1 left p.2 p.1) (s, some 0)
      free (finishRight sha256 d right left out (sum.getD 0) s)

def buildNode : ℕ → BuildState → ℕ → Nested BuildState
  | 0, _, _ => free (crash "the recursion does not end")
  | fuel + 1, s, idx => call do
    let built ← free (index s.cells idx)
    if built.isSome then pure s
    else do
      let draft ← free (index s.drafts idx)
      let node ← free (index d.nodes idx)
      let row ← free (index d.graph idx)
      if draft.any (isMerkleUpdateNode node.isSpecial) then do
        require (2 ≤ node.refsCnt) "BOC decompression failed: invalid MerkleUpdate node"
        let left ← free (index row 0)
        let right ← free (index row 1)
        let s ← buildNode fuel s left
        let (s, _) ← buildRightUnderMu sha256 d fuel right (some left) none s
        free (finalizeNode sha256 d idx s)
      else do
        let s ← row.foldlM (buildNode fuel) s
        free (finalizeNode sha256 d idx s)

def Decoded.start : BuildState := ⟨d.nodes.map fun _ => none, d.drafts.map some⟩

def buildRoots : Nested (List Cell) := do
  let s ← d.rootIndexes.foldlM (buildNode sha256 d d.nodes.length) d.start
  free (d.rootIndexes.mapM fun idx => do
    let cell ← index s.cells idx
    check (Checked.present cell "BOC decompression failed: root cell not found"))

end Build

/-- `boc_decompress_improved_structure_lz4`, over an implementation of LZ4 that is given
the bytes and the expected size. -/
def bocDecompressImprovedStructureLz4 (sha256 : Bytes → Bytes) (lz4 : Bytes → ℕ → Checked Bytes)
    (compressed : Bytes) (maxSize : ℕ) : Nested (List Cell) := do
  require (4 ≤ compressed.length) "BOC decompression failed: input too small for header"
  let decompressedSize := beUint (compressed.take 4)
  require (decompressedSize ≤ maxSize)
    "BOC decompression failed: invalid decompressed size"
  let serialized ← free (check (lz4 (compressed.drop 4) decompressedSize))
  require (serialized.length = decompressedSize)
    "BOC decompression failed: decompressed size mismatch"
  let d ← free (decode serialized)
  buildRoots sha256 d

end TonNode.Compression
