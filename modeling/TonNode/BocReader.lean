import TonNode.CellData

/-! Reading a bag of cells from a string of bytes (`BocReader::read`). All arithmetic is
that of 64-bit machine integers, an overflow is a crash as in a debug build, and every
access to bytes is bounded. -/
namespace TonNode.Boc

open Guarded Cells

def bocIndexedTag : ℕ := 0x68ff65f3

def bocIndexedCrc32Tag : ℕ := 0xacc3a728

def bocGenericTag : ℕ := 0xb5ee9c72

def maxRootsCount : ℕ := 1024

structure BocHeader where
  magic : ℕ
  rootsCount : ℕ
  refSize : ℕ
  indexIncluded : Bool
  cellsCount : ℕ
  offsetSize : ℕ
  hasCrc : Bool
  hasCacheBits : Bool
  rootsIndexes : List ℕ
  totCellsSize : ℕ

structure BocFlags where
  index : Bool
  crc32 : Bool
  cacheBits : Bool
  topHash : Bool
  intHashes : Bool

inductive Cell where
  | mk (buf : CellBuf) (refs : List Cell)

def Cell.buf : Cell → CellBuf
  | .mk buf _ => buf

inductive AbortPoint where
  | header
  | offset (index : ℕ)
  | cell (index : ℕ)

/-- `BocReader`, without an arena. The depth limit that can be set is at most the
largest depth a cell may have. -/
structure BocReader where
  abort : AbortPoint → Bool
  loadCellCallback : CellBuf → Bool
  maxDepth : ℕ
  maxDepth_le : maxDepth ≤ Cells.maxDepth

def BocReader.new : BocReader where
  abort := fun _ => false
  loadCellCallback := fun _ => true
  maxDepth := Hashmap.maxSafeDepth
  maxDepth_le := by decide

structure Cursor where
  data : Bytes
  pos : ℕ

def Cursor.readExact (t : Cursor) (n : ℕ) : Guarded (Bytes × Cursor) := do
  require (n ≤ t.data.length - t.pos) "failed to fill whole buffer"
  pure ((t.data.drop t.pos).take n, ⟨t.data, t.pos + n⟩)

def readBeUint (t : Cursor) (size : ℕ) : Guarded (ℕ × Cursor) := do
  let (bytes, t) ← t.readExact size
  pure (beUint bytes, t)

structure HeaderForm where
  indexIncluded : Bool
  hasCrc : Bool
  hasCacheBits : Bool
  refSize : ℕ

def headerForm (magic first : ℕ) : Checked HeaderForm :=
  if magic = bocIndexedTag then pure ⟨true, false, false, first⟩
  else if magic = bocIndexedCrc32Tag then pure ⟨true, true, false, first⟩
  else if magic = bocGenericTag then do
    Checked.require (first / 8 % 4 = 0) "non-zero flags field is not supported"
    pure ⟨decide (first / 128 % 2 = 1), decide (first / 64 % 2 = 1), decide (first / 32 % 2 = 1),
      first % 8⟩
  else Checked.reject "unknown BOC_TAG"

def maxCellSize (refSize : ℕ) : ℕ :=
  2 + 4 * (depthSize + sha256Size) + maxDataBytes + Hashmap.maxReferencesCount * refSize

def leastCellsSize (cells roots refSize : ℕ) : Guarded ℕ := do
  let all ← mulWithin 64 cells (2 + refSize)
  let unreferenced ← mulWithin 64 refSize roots
  subtract all unreferenced

def readRootIndex (refSize cells : ℕ) (s : List ℕ × Cursor) (_k : ℕ) : Guarded (List ℕ × Cursor) := do
  let (index, t) ← readBeUint s.2 refSize
  require (index < cells) "Invalid root index"
  require (index ∉ s.1) "Duplicate root index"
  pure (s.1 ++ [index], t)

def readRootsIndexes (magic refSize cells roots : ℕ) (t : Cursor) : Guarded (List ℕ × Cursor) :=
  if magic = bocGenericTag then
    (List.range roots).foldlM (readRootIndex refSize cells) ([], t)
  else pure ([0], t)

def readHeader (t : Cursor) : Guarded ((BocHeader × BocFlags) × Cursor) := do
  let (magic, t) ← readBeUint t 4
  let (first, t) ← readBeUint t 1
  let form ← check (headerForm magic first)
  require (¬ (form.hasCacheBits = true ∧ form.indexIncluded = false)) "invalid header"
  require (0 < form.refSize ∧ form.refSize ≤ 4)
    "ref size has to be more than 0 and less or equal 4"
  let (offsetSize, t) ← readBeUint t 1
  require (0 < offsetSize ∧ offsetSize ≤ 8) "offset size has to be less or equal 8"
  let (cells, t) ← readBeUint t form.refSize
  let (roots, t) ← readBeUint t form.refSize
  let (absent, t) ← readBeUint t form.refSize
  require (cells ≠ 0) "cell count is zero"
  require (roots ≠ 0) "root cell count is zero"
  require (roots ≤ maxRootsCount) "too many roots"
  require (¬ ((magic = bocIndexedTag ∨ magic = bocIndexedCrc32Tag) ∧ 1 < roots))
    "roots count has to be less or equal 1"
  let listed ← addWithin 64 roots absent
  require (listed ≤ cells) "roots count + absent count has to be less or equal than cells count"
  require (absent = 0) "absent cells are not supported"
  let (total, t) ← readBeUint t offsetSize
  let least ← leastCellsSize cells roots form.refSize
  require (least ≤ total) "tot_cells_size is too small with respect to cells_count"
  let most ← mulWithin 64 (maxCellSize form.refSize) cells
  require (total ≤ most) "tot_cells_size is too big with respect to cells_count"
  let (rootsIndexes, t) ← readRootsIndexes magic form.refSize cells roots t
  pure ((⟨magic, roots, form.refSize, form.indexIncluded, cells, offsetSize, form.hasCrc,
    form.hasCacheBits, rootsIndexes, total⟩,
    ⟨form.indexIncluded, form.hasCrc, form.hasCacheBits, false, false⟩), t)

def bocLen (header : BocHeader) (headerLen : ℕ) : Guarded ℕ := do
  let perIndex ← mulWithin 64 header.cellsCount header.offsetSize
  let indexSize ← mulWithin 64 header.indexIncluded.toNat perIndex
  let withIndex ← addWithin 64 headerLen indexSize
  let withCells ← addWithin 64 withIndex header.totCellsSize
  addWithin 64 withCells (header.hasCrc.toNat * 4)

def precheckCellsTreeLen (header : BocHeader) (headerLen actualLen : ℕ) (unbounded : Bool) :
    Guarded Unit := do
  let len ← bocLen header headerLen
  if unbounded then require (len ≤ actualLen) "Actual boc length is smaller than calculated one"
  else require (actualLen = len) "Actual boc length is not equal calculated one"

def readBeUintAt (data : Bytes) (offset size : ℕ) : Guarded ℕ := do
  Guarded.assert (0 < size ∧ size ≤ 8)
  let stop ← addWithin 64 offset size
  Guarded.assert (stop ≤ data.length)
  let bytes ← slice data offset stop
  pure (beUint bytes)

structure BocReaderResult where
  roots : List Cell
  header : BocHeader
  flags : BocFlags
  interrupted : Bool

section Reader

variable (R : BocReader) (sha256 : Bytes → Bytes) (crc32 : Bytes → ℕ)

def checkAbort (point : AbortPoint) : Guarded Unit :=
  require (R.abort point = false) "Operation was aborted"

def checkAbortEach (point : ℕ → AbortPoint) (i : ℕ) : Guarded Unit :=
  if i &&& 0x3FF = 0 then checkAbort R (point i) else pure ()

def leUint (bytes : Bytes) : ℕ := beUint bytes.reverse

variable (header : BocHeader) (data : Bytes)

def checkCrc : Guarded Unit :=
  if header.hasCrc then do
    let stop ← subtract data.length 4
    let summed ← slice data 0 stop
    let stored ← sliceFrom data stop
    require (stored.length = 4) "data too short for CRC"
    require (crc32 summed = leUint stored) "crc not the same"
  else pure ()

def indexRound (headerLen start : ℕ) (s : List ℕ × ℕ) (i : ℕ) : Guarded (List ℕ × ℕ) := do
  checkAbortEach R .offset i
  require (start + s.2 < 2 ^ 64) "cell offset overflow"
  require (start + s.2 ≤ data.length) "cell offset out of bounds"
  let skipped ← mulWithin 64 i header.offsetSize
  let at' ← addWithin 64 headerLen skipped
  let entry ← readBeUintAt data at' header.offsetSize
  let entry := if header.hasCacheBits then entry / 2 else entry
  require (entry ≤ header.totCellsSize) "cell index entry out of bounds"
  require (s.2 ≤ entry) "cell index entries are not monotonic"
  require (2 ≤ entry - s.2) "cell too small in index"
  pure (s.1 ++ [start + s.2], entry)

def scanRound (s : List ℕ × ℕ) (i : ℕ) : Guarded (List ℕ × ℕ) := do
  checkAbortEach R .offset i
  let afterDescriptors ← addWithin 64 s.2 2
  require (afterDescriptors ≤ data.length) "data truncated"
  let d ← sliceFrom data s.2
  let d1 ← index d 0
  let d2 ← index d 1
  let next ← addWithin 64 s.2 (fullLen d1 d2 + refsCount d1 * header.refSize)
  pure (s.1 ++ [s.2], next)

def cellOffsets (headerLen : ℕ) : Guarded (List ℕ × ℕ) :=
  if header.indexIncluded then do
    require (header.cellsCount * header.offsetSize < 2 ^ 64) "index size overflow"
    require (headerLen + header.cellsCount * header.offsetSize < 2 ^ 64)
      "cells_data_start overflow"
    let start := headerLen + header.cellsCount * header.offsetSize
    let (offsets, last) ← (List.range header.cellsCount).foldlM
      (indexRound R header data headerLen start) ([], 0)
    require (last = header.totCellsSize)
      "actual data size disagrees with the size from header"
    pure (offsets, start)
  else do
    let (offsets, last) ← (List.range header.cellsCount).foldlM
      (scanRound R header data) ([], headerLen)
    let size ← subtract last headerLen
    require (size = header.totCellsSize)
      "actual data size disagrees with the size from header"
    pure (offsets, headerLen)

structure Prepared where
  header : BocHeader
  flags : BocFlags
  offsets : List ℕ
  cellsDataEnd : ℕ

def prepare : Guarded Prepared := do
  let ((header, flags), cursor) ← readHeader ⟨data, 0⟩
  checkAbort R .header
  precheckCellsTreeLen header cursor.pos data.length false
  checkCrc crc32 header data
  let (offsets, start) ← cellOffsets R header data cursor.pos
  let cellsDataEnd ← addWithin 64 start header.totCellsSize
  pure ⟨header, flags, offsets, cellsDataEnd⟩

def resolveRef (cells : List Cell) (i refsOff : ℕ) (refs : List Cell) (k : ℕ) :
    Guarded (List Cell) := do
  let skipped ← mulWithin 64 k header.refSize
  let at' ← addWithin 64 refsOff skipped
  let ref ← readBeUintAt data at' header.refSize
  require (ref < header.cellsCount ∧ i < ref) "reference out of range"
  let last ← subtract header.cellsCount 1
  let rev ← subtract last ref
  let cell ← index cells rev
  pure (refs ++ [cell])

def checkTag (raw : Bytes) (d2 : UInt8) (wireLen : ℕ) : Guarded Unit :=
  if d2.toNat % 2 ≠ 0 ∧ 2 < wireLen then do
    let last ← index raw (wireLen - 1)
    require (last.toNat % 128 ≠ 0) "overly long tag-completed encoding"
  else pure ()

structure CellArgs where
  raw : Bytes
  refs : List Cell
  stored : Bool

def cellArgs (p : Prepared) (data : Bytes) (cells : List Cell) (i : ℕ) : Guarded CellArgs := do
  checkAbortEach R .cell i
  let off ← index p.offsets i
  let raw ← sliceFrom data off
  let d1 ← index raw 0
  let d2 ← index raw 1
  let refsOff ← addWithin 64 off (fullLen d1 d2)
  let stop ← addWithin 64 refsOff (refsCount d1 * p.header.refSize)
  require (stop ≤ p.cellsDataEnd) "cell wire data exceeds cells area"
  checkTag raw d2 (fullLen d1 d2)
  let refs ← (List.range (refsCount d1)).foldlM (resolveRef p.header data cells i refsOff) []
  pure ⟨raw, refs, storeHashes d1⟩

/-- The state of the loop that builds cells: the cells from the last to the first, the
flags, and whether the callback stopped the loop. -/
structure BuildState where
  cells : List Cell
  flags : BocFlags
  interrupted : Bool

def BocFlags.noteHashes (flags : BocFlags) (header : BocHeader) (i : ℕ) (stored : Bool) :
    BocFlags :=
  { flags with intHashes := flags.intHashes || (stored && !header.rootsIndexes.contains i) }

def buildCell (p : Prepared) (s : BuildState) (i : ℕ) (args : CellArgs) :
    Guarded (BuildState) := do
  let buf ← withDataAndRefs sha256 R.maxDepth args.raw true (args.refs.map Cell.buf)
  pure ⟨s.cells ++ [.mk buf args.refs], s.flags.noteHashes p.header i args.stored,
    !R.loadCellCallback buf⟩

def buildRound (p : Prepared) (data : Bytes) (s : BuildState) (i : ℕ) :
    Guarded (BuildState) :=
  if s.interrupted then pure s
  else do
    let args ← cellArgs R p data s.cells i
    buildCell R sha256 p s i args

def collectRoot (cells : List Cell) (s : List Cell × Bool) (index : ℕ) :
    Guarded (List Cell × Bool) := do
  let last ← subtract header.cellsCount 1
  let rev ← subtract last index
  let root ← check (Checked.present cells[rev]? "Cell was not found")
  pure (s.1 ++ [root], s.2 && storeHashes root.buf.d1)

def collectRoots (s : BuildState) : Guarded (BocReaderResult) :=
  if s.interrupted then pure ⟨[], header, s.flags, true⟩
  else do
    let (roots, allStored) ←
      header.rootsIndexes.foldlM (collectRoot header s.cells) ([], true)
    pure ⟨roots, header, { s.flags with topHash := s.flags.topHash || allStored }, false⟩

def read : Guarded (BocReaderResult) := do
  let p ← prepare R crc32 data
  let s ← (List.range p.header.cellsCount).reverse.foldlM (buildRound R sha256 p data)
    ⟨[], p.flags, false⟩
  collectRoots p.header s

end Reader

end TonNode.Boc
