import TonNode.BocReader
import TonNode.CellDataSafety

/-! Building a cell from its type, data and references (`BuilderData::finalize`), and
when this does not crash. -/
namespace TonNode.Boc

open Guarded Cells
open Checked (require_eq_ok)
open List (length_append length_singleton take_length)

structure BuilderData where
  data : Bytes
  lengthInBits : ℕ
  references : List Cell
  cellType : CellType

def Cell.refs : Cell → List Cell
  | .mk _ refs => refs

def modifyLast (f : UInt8 → UInt8) (bytes : Bytes) : Bytes :=
  match bytes.getLast? with
  | some b => bytes.dropLast ++ [f b]
  | none => bytes

def keepBits (shift : ℕ) (b : UInt8) : UInt8 :=
  (b >>> UInt8.ofNat (8 - shift)) <<< UInt8.ofNat (8 - shift)

def withRaw (data : Bytes) (lengthInBits : ℕ) : Checked Bytes := do
  Checked.require (lengthInBits ≤ data.length * 8) "FatalError"
  Checked.require (lengthInBits ≤ maxDataBits) "CellOverflow"
  let shift := lengthInBits % 8
  pure (if shift = 0 then data.take (lengthInBits / 8)
    else modifyLast (keepBits shift) (data.take (1 + lengthInBits / 8)))

def fromCell (c : Cell) : Guarded BuilderData := do
  let bits := bitLen c.buf.d2 c.buf.data
  let data ← check (withRaw c.buf.data bits)
  let type ← c.buf.cellType
  pure ⟨data, bits, c.refs, type⟩

def tagBits (shift : ℕ) (b : UInt8) : UInt8 :=
  ((b >>> UInt8.ofNat (7 - shift)) ||| 1) <<< UInt8.ofNat (7 - shift)

def appendTag (data : Bytes) (bits : ℕ) : Bytes :=
  let shift := bits % 8
  if shift = 0 ∨ data = [] then data.take (bits / 8) ++ [0x80]
  -- the byte that the source pops exists: the data is not empty and keeps a byte
  else modifyLast (tagBits shift) (data.take (1 + bits / 8))

def calcD2 (bits : ℕ) : UInt8 := UInt8.ofNat (bits / 8 * 2 + (decide (bits % 8 ≠ 0)).toNat)

def buildData (data : Bytes) (type : CellType) (mask : LevelMask) (refs : ℕ) : Guarded Bytes := do
  require (data.length ≤ maxDataBytes) "data len must be <= 128"
  require (refs ≤ Hashmap.maxReferencesCount) "data len must be <= 4"
  let d2 := calcD2 (findTag data)
  let kept ← slice data 0 (cellDataLen d2)
  pure (calcD1 mask false type refs :: d2 :: kept)

def childrenMask (refs : List Cell) : LevelMask :=
  refs.foldl (fun mask r => mask ||| levelMask r.buf.d1) 0

def checkShownHash (b : BuilderData) (i : ℕ) (text : String) : Guarded Unit := do
  let r ← Guarded.index b.references i
  let (hash, _) ← r.buf.hashDepth 0
  let shown ← slice b.data (1 + sha256Size * i) (1 + sha256Size * i + sha256Size)
  require (hash = shown) text

def finalizeMask (b : BuilderData) : Guarded LevelMask :=
  match b.cellType with
  | .unknown => check (Checked.reject "failed to finalize a cell of unknown type")
  | .ordinary => pure (childrenMask b.references)
  | .prunedBranch => do
    require (16 ≤ b.lengthInBits) "failed to get level mask for pruned branch cell"
    -- whether the mask is valid is only checked with the finished cell
    let mask ← Guarded.index b.data 1
    pure (LevelMask.withMask mask.toNat)
  | .libraryReference => pure 0
  | .merkleProof => do
    require (b.references.length = 1) "Merkle proof cell must have exactly one reference, but got"
    require (33 ≤ b.data.length) "Merkle proof cell data too short"
    checkShownHash b 0 "Merkle proof cell reference hash does not match the hash in the data"
    pure (childrenMask b.references >>> 1)
  | .merkleUpdate => do
    require (b.references.length = 2) "Merkle update cell must have exactly two references, but got"
    require (65 ≤ b.data.length) "Merkle update cell data too short"
    checkShownHash b 0
      "Merkle update cell first reference hash does not match the first hash in the data"
    checkShownHash b 1
      "Merkle update cell second reference hash does not match the second hash in the data"
    pure (childrenMask b.references >>> 1)

section Finalize

variable (sha256 : Bytes → Bytes) (limit : ℕ)

def finalize (b : BuilderData) : Guarded Cell := do
  let mask ← finalizeMask b
  let raw ← buildData (appendTag b.data b.lengthInBits) b.cellType mask b.references.length
  let buf ← withDataAndRefs sha256 limit raw false (b.references.map Cell.buf)
  pure (.mk buf b.references)

end Finalize

theorem modifyLast_concat (f : UInt8 → UInt8) (init : Bytes) (b : UInt8) :
    modifyLast f (init ++ [b]) = init ++ [f b] := by
  simp [modifyLast]

/-- A byte with a tag that leaves room for a bit of data: cutting the byte after its data
and adding the tag gives the byte again. -/
theorem tagBits_keepBits {b : UInt8} (h : b.toNat % 128 ≠ 0) :
    trailingZeros b ≤ 6 ∧ tagBits (7 - trailingZeros b) (keepBits (7 - trailingZeros b) b) = b := by
  have hall : ∀ n : Fin 256, n.val % 128 ≠ 0 → trailingZeros (UInt8.ofNat n.val) ≤ 6 ∧
        tagBits (7 - trailingZeros (UInt8.ofNat n.val))
          (keepBits (7 - trailingZeros (UInt8.ofNat n.val)) (UInt8.ofNat n.val)) =
            UInt8.ofNat n.val := by
    decide +kernel
  have hb := hall ⟨b.toNat, b.toNat_lt⟩ h
  rwa [UInt8.ofNat_toNat] at hb

theorem findTag_concat {b : UInt8} (h : b ≠ 0) (init : Bytes) :
    findTag (init ++ [b]) = (init.length + 1) * 8 - (1 + trailingZeros b) := by
  rw [findTag, List.reverse_append, List.reverse_singleton, List.singleton_append, findTagLoop,
    if_neg h, length_append, length_singleton]

/-- The data has the length that the second descriptor byte says, and if it ends with a
tag, a bit of data stands before the tag in the last byte. -/
def Tagged (d2 : UInt8) (data : Bytes) : Prop :=
  data.length = cellDataLen d2 ∧
    (d2.toNat % 2 ≠ 0 → ∃ init b, data = init ++ [b] ∧ b.toNat % 128 ≠ 0)

variable {d2 : UInt8}

/-- The builder cuts the data of a cell after its last bit, adds the tag, and finds the
second descriptor byte and the data again. -/
theorem Tagged.repack {data : Bytes} (h : Tagged d2 data) :
    ∃ kept, withRaw data (bitLen d2 data) = .ok kept ∧
      (appendTag kept (bitLen d2 data)).length ≤ maxDataBytes ∧
      calcD2 (findTag (appendTag kept (bitLen d2 data))) = d2 ∧
      cellDataLen d2 ≤ (appendTag kept (bitLen d2 data)).length ∧
      (appendTag kept (bitLen d2 data)).take (cellDataLen d2) = data ∧
      (bitLen d2 data % 8 = 0 → kept = data) := by
  have hd2 := d2.toNat_lt
  obtain ⟨hlen, htag⟩ := h
  by_cases heven : d2.toNat % 2 = 0
  · -- whole bytes: the tag is a byte of its own and is dropped again
    have hbytes : cellDataLen d2 = d2.toNat / 2 := by
      rw [cellDataLen]
      omega
    have hbits : bitLen d2 data = data.length * 8 := by
      rw [bitLen, if_pos heven, hlen, hbytes]
    have hmod : data.length * 8 % 8 = 0 := Nat.mul_mod_left _ _
    have hdiv : data.length * 8 / 8 = data.length := Nat.mul_div_cancel _ (by decide)
    have htagged : appendTag data (data.length * 8) = data ++ [0x80] := by
      rw [appendTag, if_pos (Or.inl hmod), hdiv, take_length]
    have hfind : findTag (data ++ [0x80]) = data.length * 8 := by
      rw [findTag_concat (by decide), show trailingZeros 0x80 = 7 from by decide]
      omega
    refine ⟨data, ?_, ?_⟩
    · simp only [withRaw, hbits, hmod, hdiv, if_true, take_length]
      rw [Checked.require, if_pos le_rfl, Checked.require, if_pos (by rw [maxDataBits]; omega)]
      rfl
    · rw [hbits, htagged, hfind, length_append, length_singleton, ← hlen, List.take_left]
      refine ⟨by rw [maxDataBytes]; omega, ?_, Nat.le_succ _, rfl, fun _ => rfl⟩
      rw [calcD2, hmod, hdiv]
      apply UInt8.toNat_inj.mp
      rw [UInt8.toNat_ofNat']
      simp only [ne_eq, not_true_eq_false, decide_false, Bool.toNat_false]
      omega
  · obtain ⟨init, b, rfl, hb⟩ := htag heven
    obtain ⟨hzeros, hbyte⟩ := tagBits_keepBits hb
    have hne : b ≠ 0 := by
      rintro rfl
      exact hb rfl
    rw [length_append, length_singleton, cellDataLen] at hlen
    -- between one and seven bits of the last byte are data
    have hbits : bitLen d2 (init ++ [b]) = 8 * init.length + (7 - trailingZeros b) := by
      rw [bitLen, if_neg heven, findTag_concat hne]
      omega
    have hmod : (8 * init.length + (7 - trailingZeros b)) % 8 = 7 - trailingZeros b := by omega
    have hdiv : 1 + (8 * init.length + (7 - trailingZeros b)) / 8 = (init ++ [b]).length := by
      rw [length_append, length_singleton]
      omega
    have hlast (c : UInt8) : 1 + (8 * init.length + (7 - trailingZeros b)) / 8 =
        (init ++ [c]).length := by
      rw [hdiv, length_append, length_append]
      rfl
    have htagged : appendTag (init ++ [keepBits (7 - trailingZeros b) b])
        (8 * init.length + (7 - trailingZeros b)) = init ++ [b] := by
      rw [appendTag, if_neg (by simp; omega), hmod, hlast, take_length, modifyLast_concat,
        hbyte]
    refine ⟨init ++ [keepBits (7 - trailingZeros b) b], ?_, ?_⟩
    · simp only [withRaw, hbits, hmod]
      rw [if_neg (by omega), hdiv, take_length, modifyLast_concat, Checked.require,
        if_pos (by simp; omega), Checked.require, if_pos (by rw [maxDataBits]; omega)]
      rfl
    · rw [hbits, htagged, findTag_concat hne, length_append, length_singleton]
      have hfull : cellDataLen d2 = (init ++ [b]).length := by
        rw [cellDataLen, length_append, length_singleton]
        omega
      refine ⟨by rw [maxDataBytes]; omega, ?_, by rw [cellDataLen]; omega,
        by rw [hfull, take_length], fun hzero => by omega⟩
      have hround : (init.length + 1) * 8 - (1 + trailingZeros b) =
          8 * init.length + (7 - trailingZeros b) := by omega
      rw [hround, calcD2, hmod]
      apply UInt8.toNat_inj.mp
      rw [UInt8.toNat_ofNat', decide_eq_true (by omega), Bool.toNat_true]
      omega

theorem getElem?_zero_modifyLast {f : UInt8 → UInt8} {bytes : Bytes} (h : 2 ≤ bytes.length) :
    (modifyLast f bytes)[0]? = bytes[0]? := by
  have hne : bytes ≠ [] := by
    rintro rfl
    simp at h
  have hsplit := List.dropLast_append_getLast hne
  have hlong : 0 < bytes.dropLast.length := by
    rw [List.length_dropLast]
    omega
  rw [← hsplit, modifyLast_concat, List.getElem?_append_left hlong, List.getElem?_append_left hlong]

theorem getElem?_zero_appendTag {data : Bytes} {bits : ℕ} (hbyte : 8 ≤ bits)
    (hroom : bits ≤ 8 * data.length) : (appendTag data bits)[0]? = data[0]? := by
  rw [appendTag]
  by_cases hwhole : bits % 8 = 0 ∨ data = []
  · rw [if_pos hwhole, List.getElem?_append_left (by rw [List.length_take]; omega),
      List.getElem?_take_of_lt (by omega)]
  · rw [if_neg hwhole, getElem?_zero_modifyLast (by rw [List.length_take]; omega),
      List.getElem?_take_of_lt (by omega)]

theorem cellDataLen_calcD2_le (bits : ℕ) : cellDataLen (calcD2 bits) ≤ (bits + 7) / 8 := by
  rw [cellDataLen, calcD2, UInt8.toNat_ofNat']
  by_cases hpart : bits % 8 ≠ 0
  · rw [decide_eq_true hpart, Bool.toNat_true]
    omega
  · rw [decide_eq_false hpart, Bool.toNat_false]
    omega

theorem buildData_safe (data : Bytes) (type : CellType) (mask : LevelMask) (refs : ℕ) :
    Safe (buildData data type mask refs) fun raw => ∃ kept, refs ≤ 4 ∧
      raw = calcD1 mask false type refs :: calcD2 (findTag data) :: kept ∧
      ∀ b, kept[0]? = some b → data[0]? = some b := by
  have hfind : findTag data ≤ data.length * 8 := findTagLoop_le _ _
  have hlen := cellDataLen_calcD2_le (findTag data)
  rw [buildData]
  refine Safe.require.bind fun _ _ _ => Safe.require.bind fun _ _ hrefs => ?_
  refine (Safe.slice (Nat.zero_le _) (by omega)).bind fun kept _ hkept => Safe.pure ?_
  refine ⟨kept, hrefs, rfl, ?_⟩
  intro b hb
  rw [hkept, List.drop_zero, List.getElem?_take] at hb
  split_ifs at hb with hpos
  exact hb

/-- The type that the builder was given is the one its first byte says, unless the cell
is ordinary. -/
def BuilderData.Typed (b : BuilderData) : Prop :=
  b.cellType = .ordinary ∨
    (8 ≤ b.lengthInBits ∧ (b.data[0]? = some 2 → b.cellType = .libraryReference))

section NoCrash

variable {sha256 : Bytes → Bytes} {limit : ℕ}

variable {b : BuilderData}

theorem checkShownHash_safe {i : ℕ} (text : String) (hrefs : ∀ r ∈ b.references, r.buf.Sound)
    (hi : i < b.references.length) (hroom : 1 + sha256Size * i + sha256Size ≤ b.data.length) :
    Safe (checkShownHash b i text) fun _ => True := by
  rw [checkShownHash]
  refine (Safe.index hi).bind fun r _ hr => ?_
  refine ((hrefs r (List.mem_of_getElem? hr)).hashDepth_safe 0).bind ?_
  rintro ⟨hash, depth⟩ - -
  refine (Safe.slice (Nat.le_add_right _ _) hroom).bind fun _ _ _ => ?_
  exact Safe.require.mono fun _ _ _ => trivial

/-- The level mask is derived without a crash, and a library reference has none. -/
theorem finalizeMask_safe (hrefs : ∀ r ∈ b.references, r.buf.Sound)
    (hroom : b.lengthInBits ≤ 8 * b.data.length) :
    Safe (finalizeMask b) fun mask => b.cellType = .libraryReference → mask = 0 := by
  rw [finalizeMask]
  cases htype : b.cellType with
  | unknown => exact ⟨noCrash_check _, nofun⟩
  | ordinary => exact Safe.pure fun h => CellType.noConfusion h
  | libraryReference => exact Safe.pure fun _ => rfl
  | prunedBranch =>
    refine Safe.require.bind fun _ _ hbits => ?_
    exact (Safe.index (by omega)).bind fun _ _ _ => Safe.pure fun h => CellType.noConfusion h
  | merkleProof =>
    refine Safe.require.bind fun _ _ hone => Safe.require.bind fun _ _ hlen => ?_
    refine (checkShownHash_safe _ hrefs (by omega) (by rw [sha256Size]; omega)).bind fun _ _ _ => ?_
    exact Safe.pure fun h => CellType.noConfusion h
  | merkleUpdate =>
    refine Safe.require.bind fun _ _ htwo => Safe.require.bind fun _ _ hlen => ?_
    refine (checkShownHash_safe _ hrefs (by omega) (by rw [sha256Size]; omega)).bind fun _ _ _ => ?_
    refine (checkShownHash_safe _ hrefs (by omega) (by rw [sha256Size]; omega)).bind fun _ _ _ => ?_
    exact Safe.pure fun h => CellType.noConfusion h

theorem tryFrom_library {byte : UInt8} (h : CellType.tryFrom byte = .ok .libraryReference) :
    byte = 2 := by
  rw [CellType.tryFrom] at h
  by_cases h1 : byte = 1
  · rw [if_pos h1] at h
    cases h
  · rw [if_neg h1] at h
    by_contra h2
    split_ifs at h <;> cases h

/-- The builder never makes a library reference with a level, whose hashes would not fit. -/
theorem not_leveledLibrary {type : CellType} {mask : LevelMask} {refs : ℕ} {kept : Bytes}
    (hrefs : refs ≤ 4) (hmask : type = .libraryReference → mask = 0)
    (htype : type = .ordinary ∨ (kept[0]? = some 2 → type = .libraryReference)) :
    ¬ LeveledLibrary (calcD1 mask false type refs :: d2 :: kept) false := by
  rintro ⟨info, hinfo, hlibrary, hlevel⟩
  have hlt : refs < 8 := by omega
  have hok := (checkData_safe _ false).2 info hinfo
  have hd1 : info.d1 = calcD1 mask false type refs := (Option.some.inj hok.d1_eq).symm
  obtain ⟨type', hraw, hcase⟩ := hok.rawCellType
  obtain rfl : type' = .libraryReference := Except.ok.inj (hraw.symm.trans hlibrary)
  rcases hcase with ⟨-, hne⟩ | ⟨hexotic, ⟨byte, hbyte, hfrom⟩, -⟩
  · cases hne
  · rw [hd1, exotic_calcD1 _ _ _ hlt, decide_eq_true_eq] at hexotic
    -- the data of the cell starts where the kept bytes do
    obtain ⟨-, hdata⟩ := (slice_eq_ok _ _ _ _).mp hok.data_eq
    have hoffset : dataOffset info.d1 = 2 := by
      rw [dataOffset, hd1, storeHashes_calcD1 _ _ _ hlt]
      simp
    rw [hoffset, Nat.add_sub_cancel_left] at hdata
    have hfirst : kept[0]? = some 2 := by
      rw [← hdata, List.getElem?_take, tryFrom_library hfrom] at hbyte
      split_ifs at hbyte with hpos
      exact hbyte
    have hlib : type = .libraryReference := by
      rcases htype with hordinary | htag
      · exact absurd hordinary hexotic
      · exact htag hfirst
    rw [hd1, levelMask_calcD1 _ _ _ hlt, hmask hlib] at hlevel
    exact hlevel rfl

/-- Building a cell from sound references and a type that agrees with the data does not
crash, and the cell is sound. -/
theorem finalize_safe (hlimit : limit ≤ maxDepth) (hrefs : ∀ r ∈ b.references, r.buf.Sound)
    (hroom : b.lengthInBits ≤ 8 * b.data.length) (htyped : b.Typed) :
    Safe (finalize sha256 limit b) fun c => c.buf.Sound := by
  rw [finalize]
  refine (finalizeMask_safe hrefs hroom).bind fun mask _ hmask => ?_
  refine (buildData_safe _ _ _ _).bind ?_
  rintro raw - ⟨kept, hcount, rfl, hkept⟩
  have hsound : ∀ buf ∈ b.references.map Cell.buf, buf.Sound := by
    intro buf hbuf
    obtain ⟨r, hr, rfl⟩ := List.mem_map.mp hbuf
    exact hrefs r hr
  have hcalm : ¬ LeveledLibrary (calcD1 mask false b.cellType b.references.length ::
      calcD2 (findTag (appendTag b.data b.lengthInBits)) :: kept) false := by
    refine not_leveledLibrary hcount hmask ?_
    rcases htyped with hordinary | ⟨hbyte, htag⟩
    · exact Or.inl hordinary
    · refine Or.inr fun hfirst => htag ?_
      rw [← getElem?_zero_appendTag hbyte hroom]
      exact hkept 2 hfirst
  exact (withDataAndRefs_safe sha256 hlimit hcalm hsound).bind fun buf _ hs => Safe.pure hs

end NoCrash

end TonNode.Boc
