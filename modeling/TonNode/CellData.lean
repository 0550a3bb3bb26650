import TonNode.Guarded
import TonNode.HashmapCells

/-! The bytes of a cell: two descriptor bytes, stored hashes and depths, and the data with
its completion tag. A cell is checked (`check_data`), its hashes and depths are computed
level by level (`compute_hashes`), and then it can be asked for the hash and the depth at
any level. The build is a debug build: a failed debug assertion is a crash. -/
namespace TonNode.Cells

open Guarded

abbrev Bytes := List UInt8

def maxDataBytes : ℕ := 128

def maxDataBits : ℕ := 1023

def maxDepth : ℕ := 65534

def sha256Size : ℕ := 32

def depthSize : ℕ := 2

def maxLevel : ℕ := 3

inductive CellType where
  | unknown
  | ordinary
  | prunedBranch
  | libraryReference
  | merkleProof
  | merkleUpdate
deriving DecidableEq

def CellType.tryFrom (num : UInt8) : Checked CellType :=
  if num = 1 then pure .prunedBranch
  else if num = 2 then pure .libraryReference
  else if num = 3 then pure .merkleProof
  else if num = 4 then pure .merkleUpdate
  else if num = 0xff then pure .ordinary
  else Checked.reject "unknown cell type"

abbrev LevelMask := BitVec 3

namespace LevelMask

def withMask (mask : ℕ) : LevelMask := if mask ≤ 7 then BitVec.ofNat 3 mask else 0

def withLevel : ℕ → LevelMask
  | 0 => 0
  | 1 => 1
  | 2 => 3
  | 3 => 7
  | _ => 0

def level (m : LevelMask) : ℕ := m.toNat % 2 + m.toNat / 2 % 2 + m.toNat / 4 % 2

def calcHashIndex (m : LevelMask) (index : ℕ) : ℕ := level (m &&& withLevel (min index 3))

def has (m : LevelMask) (i : ℕ) : Bool := m.getLsbD i

end LevelMask

variable (d1 : UInt8)

def levelMask : LevelMask := LevelMask.withMask (d1.toNat / 32)

def storeHashes : Bool := d1.toNat / 16 % 2 = 1

def exotic : Bool := d1.toNat / 8 % 2 = 1

def refsCount : ℕ := d1.toNat % 8

def calcD1 (mask : LevelMask) (storeHashes : Bool) (type : CellType) (refs : ℕ) : UInt8 :=
  UInt8.ofNat (mask.toNat * 32 + storeHashes.toNat * 16 +
    (decide (type ≠ .ordinary)).toNat * 8 + refs)

def cellDataLen (d2 : UInt8) : ℕ := d2.toNat / 2 + d2.toNat % 2

/-- `hashes_count`: a pruned branch is recognised by having a level and no references. -/
def hashesCount : ℕ :=
  if exotic d1 = true ∧ refsCount d1 = 0 ∧ (levelMask d1).level ≠ 0 then 1
  else (levelMask d1).level + 1

def dataOffset : ℕ :=
  2 + (storeHashes d1).toNat * hashesCount d1 * (sha256Size + depthSize)

def fullLen (d2 : UInt8) : ℕ := dataOffset d1 + cellDataLen d2

variable (raw : Bytes)

def cellData (d1 d2 : UInt8) : Guarded Bytes :=
  slice raw (dataOffset d1) (dataOffset d1 + cellDataLen d2)

def trailingZeros (x : UInt8) : ℕ := ((List.range 8).takeWhile fun i => !x.toNat.testBit i).length

def findTagLoop : ℕ → Bytes → ℕ
  | length, [] => length
  | length, x :: xs =>
    if x = 0 then findTagLoop (length - 8) xs else length - (1 + trailingZeros x)

def findTag (bytes : Bytes) : ℕ := findTagLoop (bytes.length * 8) bytes.reverse

def bitLen (d2 : UInt8) (data : Bytes) : ℕ :=
  if d2.toNat % 2 = 0 then d2.toNat / 2 * 8 else findTag data

def beUint (bytes : Bytes) : ℕ := bytes.foldl (fun v b => v * 256 + b.toNat) 0

def storedDepth (d1 : UInt8) (i : ℕ) : Guarded ℕ := do
  let offset := 2 + hashesCount d1 * sha256Size + i * depthSize
  let d ← slice raw offset (offset + depthSize)
  pure (beUint d)

def storedHash (i : ℕ) : Guarded Bytes :=
  slice raw (2 + i * sha256Size) (2 + i * sha256Size + sha256Size)

structure CellRawInfo where
  d1 : UInt8
  d2 : UInt8
  data : Bytes
  bitLen : ℕ

def require (c : Prop) [Decidable c] (text : String) : Guarded Unit := check (Checked.require c text)

variable (data : Bytes)

def prunedDepth (lvl index : ℕ) : Guarded ℕ := do
  let offset := 1 + 1 + lvl * sha256Size + index * depthSize
  let hi ← Guarded.index data offset
  let lo ← Guarded.index data (offset + 1)
  pure (hi.toNat * 256 + lo.toNat)

def checkPruned (bits : ℕ) : Guarded Unit := do
  let lvl := (levelMask d1).level
  require (refsCount d1 = 0) "pruned branch must have 0 references"
  require (lvl ≠ 0) "pruned branch must have non-zero level"
  require (bits = 8 * (1 + 1 + lvl * (sha256Size + depthSize))) "pruned branch bit_len != expected"
  let mask ← Guarded.index data 1
  require (mask.toNat = (levelMask d1).toNat) "pruned branch data[1] != level_mask"
  (List.range lvl).forM fun i => do
    let d ← prunedDepth data lvl i
    require (d ≤ maxDepth) "pruned branch depth exceeds MAX_DEPTH"

def checkExotic (bits : ℕ) : Guarded Unit := do
  require (data ≠ []) "exotic cell must have non-empty data"
  let byte ← Guarded.index data 0
  let type ← check (CellType.tryFrom byte)
  match type with
  | .prunedBranch => checkPruned d1 data bits
  | .merkleProof => do
    require (bits = 8 * (1 + sha256Size + depthSize)) "merkle proof bit_len != expected"
    require (refsCount d1 = 1) "merkle proof must have 1 reference"
  | .merkleUpdate => do
    require (bits = 8 * (1 + 2 * (sha256Size + depthSize))) "merkle update bit_len != expected"
    require (refsCount d1 = 2) "merkle update must have 2 references"
  | .libraryReference => do
    require (bits = 8 * (1 + sha256Size)) "library reference bit_len != expected"
    require (refsCount d1 = 0) "library reference must have 0 references"
  | _ => require False "unknown exotic cell type byte"

def checkLength (unbounded : Bool) (d1 d2 : UInt8) : Guarded Unit :=
  if unbounded then require (fullLen d1 d2 ≤ raw.length) "raw data too short"
  else require (raw.length = fullLen d1 d2) "raw data length mismatch"

def checkStoredDepths (d1 : UInt8) : Guarded Unit :=
  if storeHashes d1 then
    (List.range (hashesCount d1)).forM fun i => do
      let d ← storedDepth raw d1 i
      require (d ≤ maxDepth) "stored depth exceeds MAX_DEPTH"
  else pure ()

def checkType (bits : ℕ) : Guarded Unit :=
  if exotic d1 then checkExotic d1 data bits
  else require (bits ≤ maxDataBits) "ordinary cell bit_len > 1023"

/-- `check_data`. The three bits of the level mask are always valid. -/
def checkData (unbounded : Bool) : Guarded CellRawInfo := do
  require (2 ≤ raw.length) "raw data too short"
  let d1 ← Guarded.index raw 0
  let d2 ← Guarded.index raw 1
  require (refsCount d1 ≤ Hashmap.maxReferencesCount) "references count > 4"
  require (cellDataLen d2 ≤ maxDataBytes) "cell data length > 128"
  checkLength raw unbounded d1 d2
  let data ← cellData raw d1 d2
  require (¬ (d2.toNat % 2 ≠ 0 ∧ data.getLast? = some 0))
    "invalid completion tag: zero last byte with tag bit set in d2"
  let bits := bitLen d2 data
  checkStoredDepths raw d1
  checkType d1 data bits
  pure ⟨d1, d2, data, bits⟩

def depthBytes (d : ℕ) : Bytes := [UInt8.ofNat (d / 256), UInt8.ofNat d]

/-- What a cell holds in memory beside its references: the descriptors, with the flag
of stored hashes set, the data and the computed hashes and depths. -/
structure CellBuf where
  d1 : UInt8
  d2 : UInt8
  data : Bytes
  hashes : List Bytes
  depths : List ℕ
deriving DecidableEq

namespace CellBuf

variable (b : CellBuf)

def cellType : Guarded CellType :=
  if exotic b.d1 = false then pure .ordinary
  else match b.data with
    | byte :: _ => pure (match CellType.tryFrom byte with
      | .ok type => type
      | .error _ => .unknown)
    | [] => crash "empty exotic cell data"

/-- The entry after the last one lies over the depths and the data. -/
def hashAt (i : ℕ) : Guarded Bytes :=
  if i < b.hashes.length then Guarded.index b.hashes i
  else
    let start := (i - b.hashes.length) * sha256Size
    slice ((b.depths.map depthBytes).flatten ++ b.data) start (start + sha256Size)

def depthAt (i : ℕ) : Guarded ℕ :=
  if i < b.depths.length then Guarded.index b.depths i
  else do
    let start := (i - b.depths.length) * depthSize
    let d ← slice b.data start (start + depthSize)
    pure (beUint d)

def hashDepth (index : ℕ) : Guarded (Bytes × ℕ) := do
  let mask := levelMask b.d1
  let i := mask.calcHashIndex index
  let type ← b.cellType
  if type = .prunedBranch ∧ i < mask.level then do
    let h ← slice b.data (1 + 1 + i * sha256Size) (1 + 1 + i * sha256Size + sha256Size)
    let d ← prunedDepth b.data mask.level i
    pure (h, d)
  else do
    let i := if type = .prunedBranch then 0 else i
    let h ← b.hashAt i
    let d ← b.depthAt i
    pure (h, d)

end CellBuf

/-- What `compute_hashes` needs to know of a cell: the descriptors, the data, and, if the
cell came with hashes, those hashes and depths. -/
structure HashInput where
  d1 : UInt8
  d2 : UInt8
  data : Bytes
  stored : Option (List Bytes × List ℕ)

namespace HashInput

variable (c : HashInput)

def cellType : Guarded CellType :=
  if exotic c.d1 then do
    let byte ← Guarded.index c.data 0
    check (CellType.tryFrom byte)
  else pure .ordinary

end HashInput

section Hashing

variable (sha256 : Bytes → Bytes) (limit : ℕ)

def hashChild (children : ℕ → ℕ → Guarded (Bytes × ℕ)) (level : ℕ)
    (s : ℕ × List ℕ × List Bytes) (r : ℕ) : Guarded (ℕ × List ℕ × List Bytes) := do
  let (childHash, childDepth) ← children r level
  let next ← addWithin 16 childDepth 1
  let depth := max s.1 next
  require (depth ≤ limit) "depth > max_depth"
  pure (depth, s.2.1 ++ [childDepth], s.2.2 ++ [childHash])

variable (c : HashInput) (type : CellType) (i : ℕ)

def skipsLevel : Prop :=
  i ≠ 0 ∧ (type = .prunedBranch ∨ (levelMask c.d1).has (i - 1) = false)

instance : Decidable (skipsLevel c type i) := by
  unfold skipsLevel
  infer_instance

def levelStart (hashes : List Bytes) (i : ℕ) : Guarded Bytes :=
  if i = 0 then
    slice c.data 0 (bitLen c.d2 c.data / 8 + (decide (bitLen c.d2 c.data % 8 ≠ 0)).toNat)
  else Guarded.index hashes (hashes.length - 1)

/-- The comparison with the hash and the depth that the cell came with. What stands at
the place of an entry after the last one are the stored depths and the data. -/
def verifyStored (hashIndex : ℕ) (computed : Bytes) (depth : ℕ) : Guarded Unit :=
  match c.stored with
  | some (hashes, depths) => do
    let h ← CellBuf.hashAt ⟨c.d1, c.d2, c.data, hashes, depths⟩ hashIndex
    require (computed = h) "stored hash mismatch"
    let d ← CellBuf.depthAt ⟨c.d1, c.d2, c.data, hashes, depths⟩ hashIndex
    require (depth = d) "stored depth mismatch"
  | none => pure ()

def levelBytes (first : Bytes) (childDepths : List ℕ) (childHashes : List Bytes) : Bytes :=
  let curMask := if type = .prunedBranch then levelMask c.d1 else LevelMask.withLevel i
  calcD1 curMask false type (refsCount c.d1) :: c.d2 :: first ++
    (childDepths.map depthBytes).flatten ++ childHashes.flatten

def childLevel : ℕ :=
  i + (decide (type = .merkleProof ∨ type = .merkleUpdate)).toNat

/-- The hash and the depth of an entry are written inside the block of the cell, which
ends with the data. -/
def entryFits (i : ℕ) : Prop :=
  (i + 1) * sha256Size ≤ hashesCount c.d1 * (sha256Size + depthSize) + c.data.length ∧
    hashesCount c.d1 * sha256Size + (i + 1) * depthSize ≤
      hashesCount c.d1 * (sha256Size + depthSize) + c.data.length

instance : Decidable (entryFits c i) := by
  unfold entryFits
  infer_instance

/-- One level of the loop of `compute_hashes`. The area for hashes has `hashes_count`
entries; an entry after the last one is written over what follows the area. -/
def hashLevel (children : ℕ → ℕ → Guarded (Bytes × ℕ)) (s : List Bytes × List ℕ) (i : ℕ) :
    Guarded (List Bytes × List ℕ) :=
  if skipsLevel c type i then pure s
  else do
    let first ← levelStart c s.1 i
    let (depth, childDepths, childHashes) ← (List.range (refsCount c.d1)).foldlM
      (hashChild limit children (childLevel type i)) (0, [], [])
    let computed := sha256 (levelBytes c type i first childDepths childHashes)
    verifyStored c s.1.length computed depth
    if entryFits c s.1.length then pure (s.1 ++ [computed], s.2 ++ [depth])
    else crash "write past the end of the cell"

def computeHashes (children : ℕ → ℕ → Guarded (Bytes × ℕ)) : Guarded (List Bytes × List ℕ) := do
  let type ← c.cellType
  [0, 1, 2, 3].foldlM (hashLevel sha256 limit c type children) ([], [])

def cellRefs (refs : List CellBuf) (r level : ℕ) : Guarded (Bytes × ℕ) := do
  let child ← Guarded.index refs r
  child.hashDepth level

def storedHashes (d1 : UInt8) : Guarded (Option (List Bytes × List ℕ)) :=
  if storeHashes d1 then do
    let hashes ← (List.range (hashesCount d1)).mapM (storedHash raw)
    let depths ← (List.range (hashesCount d1)).mapM (storedDepth raw d1)
    pure (some (hashes, depths))
  else pure none

def overwrite (bytes : Bytes) (start len : ℕ) (new : Bytes) : Bytes :=
  bytes.mapIdx fun i b => if start ≤ i ∧ i < start + len then new.getD (i - start) 0 else b

def writeEntry (count : ℕ) (area : Bytes) (entry : (Bytes × ℕ) × ℕ) : Bytes :=
  overwrite (overwrite area (entry.2 * sha256Size) sha256Size entry.1.1)
    (count * sha256Size + entry.2 * depthSize) depthSize (depthBytes entry.1.2)

/-- The hashes, the depths and the data of a cell after more entries were written than
there is room for. -/
def overwritten (c : HashInput) (s : List Bytes × List ℕ) : Bytes :=
  (s.1.zip s.2).zipIdx.foldl (writeEntry (hashesCount c.d1))
    (List.replicate (hashesCount c.d1 * (sha256Size + depthSize)) 0 ++ c.data)

/-- The cell that `compute_hashes` leaves behind under the descriptor `d1`. -/
def HashInput.finish (c : HashInput) (d1 : UInt8) (s : List Bytes × List ℕ) : CellBuf :=
  let count := hashesCount c.d1
  if s.1.length ≤ count then ⟨d1, c.d2, c.data, s.1, s.2⟩
  else
    let area := overwritten c s
    ⟨d1, c.d2, area.drop (count * (sha256Size + depthSize)),
      (List.range count).map fun i => (area.drop (i * sha256Size)).take sha256Size,
      (List.range count).map fun i =>
        beUint ((area.drop (count * sha256Size + i * depthSize)).take depthSize)⟩

def rawCellType : Guarded CellType :=
  if exotic d1 then do
    let byte ← Guarded.index data 0
    pure (match CellType.tryFrom byte with
      | .ok type => type
      | .error _ => .unknown)
  else pure .ordinary

def withDataAndRefs (raw : Bytes) (unbounded : Bool) (refs : List CellBuf) : Guarded CellBuf := do
  let info ← checkData raw unbounded
  require (refs.length = refsCount info.d1) "references.len() != d1 refs_count"
  let mask := levelMask info.d1
  let type ← rawCellType info.d1 info.data
  let stored ← storedHashes raw info.d1
  let input : HashInput := ⟨calcD1 mask false type refs.length, info.d2, info.data, stored⟩
  let s ← computeHashes sha256 limit input (cellRefs refs)
  pure (input.finish (calcD1 mask true type refs.length) s)

end Hashing

end TonNode.Cells
