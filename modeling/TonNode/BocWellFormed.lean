import TonNode.BocLayout
import TonNode.BocLevels

/-! Whether the cells that a reader accepts could have been built. A cell from the wire
brings its level mask in its first descriptor byte, and a Merkle cell the hashes and
depths of what it refers to in its data; the reader believes both, the builder derives
the one and compares the hashes. -/
namespace TonNode.Boc

open Guarded Cells
open Checked (require_eq_ok)
open List (length_map replicate)

section Definitions

variable (sha256 : Bytes → Bytes) (limit : ℕ)

def rebuild (c : Cell) : Guarded Cell := do
  let b ← fromCell c
  finalize sha256 limit b

/-- The data of a Merkle cell with `count` references shows the hash and the depth of
reference `i` at level zero. The hashes stand before the depths. -/
def MerkleShows (c : Cell) (count i : ℕ) : Prop :=
  ∃ r hash depth, c.refs[i]? = some r ∧ r.buf.hashDepth 0 = .ok (hash, depth) ∧
    (c.buf.data.drop (1 + sha256Size * i)).take sha256Size = hash ∧
    beUint ((c.buf.data.drop (1 + sha256Size * count + depthSize * i)).take depthSize) = depth

def MerkleLaw (type : CellType) (c : Cell) : Prop :=
  match type with
  | .merkleProof => MerkleShows c 1 0
  | .merkleUpdate => MerkleShows c 2 0 ∧ MerkleShows c 2 1
  | _ => True

/-- The builder makes a cell of the same level mask and the same representation hash and
depth from the type, the data and the references, and what a Merkle cell says of its
references is true. -/
def WellFormed (c : Cell) : Prop :=
  (∃ c', rebuild sha256 limit c = .ok c' ∧ levelMask c'.buf.d1 = levelMask c.buf.d1 ∧
      c'.buf.hashDepth maxLevel = c.buf.hashDepth maxLevel) ∧
    ∀ type, c.buf.cellType = .ok type → MerkleLaw type c

inductive Within : Cell → Cell → Prop where
  | self (c : Cell) : Within c c
  | child {c r : Cell} {buf : CellBuf} {refs : List Cell} (hmem : r ∈ refs) (h : Within c r) :
      Within c (.mk buf refs)

end Definitions

/-- The bag holds the cell under this index. -/
inductive Holds (data : Bytes) : ℕ → Serialized → Prop where
  | mk {i : ℕ} {refs : List Serialized} (hlen : refs.length = refsCount (Bag.d1 data i))
      (hrefs : ∀ (k : ℕ) r, refs[k]? = some r → Holds data (Bag.refIndex data i k) r) :
      Holds data i (.mk (Bag.d1 data i) (Bag.d2 data i) (Bag.cellData data i) refs)

namespace Serialized

def refsMask (s : Serialized) : LevelMask := s.refs.foldl (fun mask r => mask ||| levelMask r.d1) 0

def derivedMask (s : Serialized) : LevelMask :=
  match s.type with
  | .ordinary => s.refsMask
  | .prunedBranch => LevelMask.withMask (s.data.getD 1 0).toNat
  | .merkleProof => s.refsMask >>> 1
  | .merkleUpdate => s.refsMask >>> 1
  | .libraryReference => 0
  | .unknown => 0

variable (sha256 : Bytes → Bytes) (s : Serialized)

def Shows (count i : ℕ) : Prop :=
  ∃ r, s.refs[i]? = some r ∧
    (s.data.drop (1 + sha256Size * i)).take sha256Size = (r.hashDepth sha256 0).1 ∧
    beUint ((s.data.drop (1 + sha256Size * count + depthSize * i)).take depthSize) =
      (r.hashDepth sha256 0).2

def ShowsRefs : Prop :=
  match s.type with
  | .merkleProof => s.Shows sha256 1 0
  | .merkleUpdate => s.Shows sha256 2 0 ∧ s.Shows sha256 2 1
  | _ => True

/-- The cell declares the level mask that follows from its type, data and references, and
a Merkle cell shows the hashes and depths of its references. -/
structure Lawful : Prop where
  mask : levelMask s.d1 = s.derivedMask
  shows : s.ShowsRefs sha256

inductive Inside : Serialized → Serialized → Prop where
  | self (s : Serialized) : Inside s s
  | child {s r : Serialized} {d1 d2 : UInt8} {data : Bytes} {refs : List Serialized} (hmem : r ∈ refs)
      (h : Inside s r) : Inside s (.mk d1 d2 data refs)

def Leveled : Prop := s.type = .libraryReference ∧ (levelMask s.d1).level ≠ 0

end Serialized

/-- Every cell in the bag that can be reached from a root is lawful. -/
def BagLawful (sha256 : Bytes → Bytes) (data : Bytes) : Prop :=
  ∀ k < Bag.rootsCount data, ∀ root, Holds data (Bag.rootIndex data k) root →
    ∀ s : Serialized, s.Inside root → s.Lawful sha256

theorem Holds.unique {data : Bytes} {i : ℕ} {s s' : Serialized} (h : Holds data i s)
    (h' : Holds data i s') : s = s' := by
  induction h generalizing s' with
  | @mk i refs hlen _ ih =>
    cases h' with
    | @mk _ refs' hlen' hrefs' =>
    have hsame : refs = refs' := by
      refine List.ext_getElem (hlen.trans hlen'.symm) fun k hk hk' => ?_
      exact ih k _ (List.getElem?_eq_getElem hk) (hrefs' k _ (List.getElem?_eq_getElem hk'))
    rw [hsame]

section Made

variable (sha256 : Bytes → Bytes) (limit : ℕ)

/-- The cell is what `read` makes of the serialized cell. -/
inductive Made : Serialized → Cell → Prop where
  | mk {raw : Bytes} {info : CellRawInfo} {type : CellType}
      {stored : Option (List Bytes × List ℕ)} {s : List Bytes × List ℕ} {refs : List Cell}
      {serialized : List Serialized} (hinfo : checkData raw true = .ok info)
      (htag : checkTag raw info.d2 (fullLen info.d1 info.d2) = .ok ())
      (htype : rawCellType info.d1 info.data = .ok type) (hlen : refs.length = refsCount info.d1)
      (hstored : storedHashes raw info.d1 = .ok stored)
      (hhashes : computeHashes sha256 limit (info.hashInput type false stored)
        (cellRefs (refs.map Cell.buf)) = .ok s) (hsame : serialized.length = refs.length)
      (hrefs : ∀ (k : ℕ) t r, serialized[k]? = some t → refs[k]? = some r → Made t r) :
      Made (.mk info.d1 info.d2 info.data serialized)
        (.mk ((info.hashInput type false stored).finish
          (calcD1 (levelMask info.d1) true type (refsCount info.d1)) s) refs)

end Made

theorem typeOf_eq {d1 : UInt8} {data : Bytes} {type : CellType} (h : rawCellType d1 data = .ok type) :
    Serialized.typeOf d1 data = type := by
  rw [rawCellType] at h
  rw [Serialized.typeOf]
  split_ifs at h ⊢ with hex
  · cases data with
    | nil => cases h
    | cons byte rest =>
      rw [← Except.ok.inj h, List.head?_cons, Option.bind_some]
      cases CellType.tryFrom byte with
      | ok type | error e => rfl
  · exact Except.ok.inj h

variable {sha256 : Bytes → Bytes} {limit : ℕ} {s : Serialized} {c : Cell}

theorem Made.buf_eq (h : Made sha256 limit s c) (hs : ¬ s.Leveled) : c.buf.cellType = .ok s.type ∧
    c.buf.d2 = s.d2 ∧ c.buf.data = s.data := by
  cases h with
  | @mk raw info type stored hashes refs serialized hinfo htag htype hlen hstored hhashes hsame hrefs =>
  have hok := (checkData_safe raw true).2 info hinfo
  have hinput := hok.hashInput_stored htype hstored
  obtain rfl : Serialized.typeOf info.d1 info.data = type := typeOf_eq htype
  rw [Cell.buf, finish_eq hinput hs hhashes]
  exact ⟨hok.cellType_kept htype (refsCount_lt _), rfl, rfl⟩

theorem d1_finish (input : HashInput) (d1 : UInt8) (hashes : List Bytes × List ℕ) :
    (input.finish d1 hashes).d1 = d1 := by
  rw [HashInput.finish]
  split_ifs <;> rfl

theorem Made.spilled (h : Made sha256 limit s c) (hs : s.Leveled) : c.buf.cellType = .ok .unknown := by
  cases h with
  | @mk raw info type stored hashes refs serialized hinfo htag htype hlen hstored hhashes hsame hrefs =>
  have hok := (checkData_safe raw true).2 info hinfo
  have hinput := hok.hashInput_stored htype hstored
  obtain rfl : type = .libraryReference := (typeOf_eq htype).symm.trans hs.1
  exact (hok.spilled_finish htype hs.2 hinput hhashes).type_eq

/-- Every cell that was read and has no leveled library reference in it answers for its
levels as the format defines. -/
theorem Made.hashDepth_eq (h : Made sha256 limit s c)
    (hs : ∀ t : Serialized, t.Inside s → ¬ t.Leveled) (level : ℕ) :
    c.buf.hashDepth level = .ok (s.hashDepth sha256 level) := by
  induction h generalizing level with
  | @mk raw info type stored hashes refs serialized hinfo htag htype hlen hstored hhashes hsame
      hrefs ih =>
  have hok := (checkData_safe raw true).2 info hinfo
  have hinput := hok.hashInput_stored htype hstored
  obtain rfl : Serialized.typeOf info.d1 info.data = type := typeOf_eq htype
  have hbuf : ((info.hashInput (Serialized.typeOf info.d1 info.data) false stored).finish
      (calcD1 (levelMask info.d1) true (Serialized.typeOf info.d1 info.data) (refsCount info.d1))
        hashes) =
      ⟨calcD1 (levelMask info.d1) true (Serialized.typeOf info.d1 info.data) (refsCount info.d1),
        info.d2, info.data, hashes.1, hashes.2⟩ := finish_eq hinput (hs _ (.self _)) hhashes _
  have hkeeps : Keeps (info.hashInput (Serialized.typeOf info.d1 info.data) false stored) info.d1
      serialized.length :=
    ⟨levelMask_hashInput _ _ _ _, (refsCount_hashInput _ _ _ _).trans (hsame.trans hlen).symm,
      hinput.type_eq⟩
  have hkids : ∀ l, ∀ k e, (Serialized.hashDepths sha256 serialized l)[k]? = some e →
      cellRefs (refs.map Cell.buf) k l = .ok e := by
    intro l k e he
    rw [Serialized.hashDepths_eq_map, List.getElem?_map, Option.map_eq_some_iff] at he
    obtain ⟨t, ht, rfl⟩ := he
    have hk : k < refs.length := hsame ▸ (List.getElem?_eq_some_iff.mp ht).1
    have hr := List.getElem?_eq_getElem hk
    have hinside : ∀ u : Serialized, u.Inside t → ¬ u.Leveled := fun u hu =>
      hs u (.child (List.mem_of_getElem? ht) hu)
    rw [cellRefs, (index_eq_ok _ _ _).mpr (by rw [List.getElem?_map, hr]; rfl)]
    exact ih k t _ ht hr hinside l
  have hkind : CellBuf.cellType ⟨calcD1 (levelMask info.d1) true
      (Serialized.typeOf info.d1 info.data) (refsCount info.d1), info.d2, info.data, hashes.1,
        hashes.2⟩ = .ok (Serialized.typeOf info.d1 info.data) :=
    hok.cellType_kept htype (refsCount_lt info.d1)
  have hmask := levelMask_calcD1 (levelMask info.d1) true (Serialized.typeOf info.d1 info.data)
    (refsCount_lt info.d1)
  rw [Cell.buf, hbuf, Serialized.hashDepth]
  split_ifs with hpruned
  · obtain ⟨hrefs0, hroom⟩ := hok.pruned_room (hpruned ▸ htype)
    have hentry := computeHashes_pruned ((hsame.trans hlen).trans hrefs0 ▸ hkeeps) hpruned hhashes
    rw [hpruned] at hkind hmask ⊢
    rw [hashDepth_pruned hkind hmask (congrArg Prod.fst hentry) (congrArg Prod.snd hentry) hroom]
    rfl
  · have hanswer : Answer (cellRefs (refs.map Cell.buf)) (Serialized.typeOf info.d1 info.data)
        serialized.length (fun l => Serialized.hashDepths sha256 serialized
          (childLevel (Serialized.typeOf info.d1 info.data) l)) := fun l =>
      ⟨by simp only [Serialized.hashDepths_eq_map, length_map], hkids _⟩
    have hfilled := computeHashes_filled hkeeps hpruned hanswer hhashes
    exact hfilled.hashDepth (fun j l hle hnone => Serialized.atLevel_eq _ _ _ _ _ hle hnone) hkind
      hpruned hmask rfl rfl level

theorem withDataAndRefs_eq_ok {raw : Bytes} {unbounded : Bool} {refs : List CellBuf} {buf : CellBuf} :
    withDataAndRefs sha256 limit raw unbounded refs = .ok buf ↔
    ∃ info type stored hashes, checkData raw unbounded = .ok info ∧
      refs.length = refsCount info.d1 ∧ rawCellType info.d1 info.data = .ok type ∧
      storedHashes raw info.d1 = .ok stored ∧
      computeHashes sha256 limit (info.hashInput type false stored) (cellRefs refs) = .ok hashes ∧
      buf = (info.hashInput type false stored).finish
        (calcD1 (levelMask info.d1) true type (refsCount info.d1)) hashes := by
  simp only [withDataAndRefs, require, bind_eq_ok, check_eq_ok, require_eq_ok, pure_eq_ok]
  constructor
  · rintro ⟨info, hinfo, -, hlen, type, htype, stored, hstored, hashes, hhashes, rfl⟩
    rw [hlen] at hhashes ⊢
    exact ⟨info, type, stored, hashes, hinfo, rfl, htype, hstored, hhashes, rfl⟩
  · rintro ⟨info, type, stored, hashes, hinfo, hlen, htype, hstored, hhashes, rfl⟩
    refine ⟨info, hinfo, (), hlen, type, htype, stored, hstored, hashes, ?_, ?_⟩
    · rw [hlen]
      exact hhashes
    · rw [hlen]
      rfl

theorem computeHashes_forget {d1 d2 : UInt8} {data : Bytes} {stored : Option (List Bytes × List ℕ)}
    {children : ℕ → ℕ → Guarded (Bytes × ℕ)} {r : List Bytes × List ℕ}
    (h : computeHashes sha256 limit ⟨d1, d2, data, stored⟩ children = .ok r) :
    computeHashes sha256 limit ⟨d1, d2, data, none⟩ children = .ok r := by
  have hlevel : ∀ type s i t, hashLevel sha256 limit ⟨d1, d2, data, stored⟩ type children s i = .ok t →
      hashLevel sha256 limit ⟨d1, d2, data, none⟩ type children s i = .ok t := by
    intro type s i t hs
    -- whether a level is passed over does not depend on the stored hashes
    have hiff : skipsLevel ⟨d1, d2, data, none⟩ type i ↔ skipsLevel ⟨d1, d2, data, stored⟩ type i :=
      Iff.rfl
    rw [hashLevel] at hs ⊢
    by_cases hskip : skipsLevel ⟨d1, d2, data, stored⟩ type i
    · rw [if_pos hskip] at hs
      rw [if_pos (hiff.mpr hskip)]
      exact hs
    · rw [if_neg hskip] at hs
      rw [if_neg (hskip ∘ hiff.mp)]
      obtain ⟨first, hfirst, hs⟩ := bind_eq_ok.mp hs
      obtain ⟨loop, hloop, hs⟩ := bind_eq_ok.mp hs
      obtain ⟨-, -, hs⟩ := bind_eq_ok.mp hs
      refine bind_eq_ok.mpr ⟨first, hfirst, bind_eq_ok.mpr ⟨loop, hloop, ?_⟩⟩
      exact bind_eq_ok.mpr ⟨(), rfl, hs⟩
  have hlevels : ∀ type (levels : List ℕ) s,
      levels.foldlM (hashLevel sha256 limit ⟨d1, d2, data, stored⟩ type children) s = .ok r →
      levels.foldlM (hashLevel sha256 limit ⟨d1, d2, data, none⟩ type children) s = .ok r := by
    intro type levels
    induction levels with
    | nil => exact fun s hs => hs
    | cons i levels ih =>
      intro s hs
      rw [List.foldlM_cons, bind_eq_ok] at hs ⊢
      obtain ⟨t, ht, hs⟩ := hs
      exact ⟨t, hlevel type s i t ht, ih t hs⟩
  rw [computeHashes, bind_eq_ok] at h ⊢
  obtain ⟨type, htype, hs⟩ := h
  exact ⟨type, htype, hlevels type _ _ hs⟩

/-- `check_data` looks at three fields of the first descriptor byte when it checks the
data of a type. -/
theorem checkType_congr {d1 d1' : UInt8} (hexotic : exotic d1' = exotic d1)
    (hmask : levelMask d1' = levelMask d1) (hrefs : refsCount d1' = refsCount d1) (data : Bytes)
    (bits : ℕ) : checkType d1' data bits = checkType d1 data bits := by
  simp only [checkType, checkExotic, checkPruned, hexotic, hmask, hrefs]

variable {raw : Bytes} {info : CellRawInfo}

/-- Bytes that pass the checks pass them again without the stored hashes. -/
theorem checkData_repacked {unbounded : Bool} {type : CellType}
    (h : checkData raw unbounded = .ok info) (htype : rawCellType info.d1 info.data = .ok type) :
    checkData (calcD1 (levelMask info.d1) false type (refsCount info.d1) :: info.d2 :: info.data)
      false = .ok ⟨calcD1 (levelMask info.d1) false type (refsCount info.d1), info.d2, info.data,
        bitLen info.d2 info.data⟩ := by
  have hok := (checkData_safe raw unbounded).2 info h
  have hexotic := hok.exotic_eq htype
  have hlt : refsCount info.d1 < 8 := by
    have hle := hok.refs_le
    omega
  simp only [checkData, require, bind_eq_ok, check_eq_ok, require_eq_ok, index_eq_ok,
    pure_eq_ok] at h
  obtain ⟨-, -, d1, -, d2, -, -, hrefs, -, hsize, -, -, data, -, -, htag, -, -, ⟨⟩, hchecked, rfl⟩ := h
  have hlen := hok.length_data
  have hoffset : dataOffset (calcD1 (levelMask d1) false type (refsCount d1)) = 2 := by
    rw [dataOffset, storeHashes_calcD1 _ _ _ hlt]
    simp
  have hsame := checkType_congr (hexotic ▸ exotic_calcD1 (levelMask d1) false type hlt)
    (levelMask_calcD1 (levelMask d1) false type hlt)
    (refsCount_calcD1 (levelMask d1) false type hlt) data (bitLen d2 data)
  simp only [checkData, require, bind_eq_ok, check_eq_ok, require_eq_ok, index_eq_ok, pure_eq_ok]
  refine ⟨(), by simp, _, rfl, d2, rfl, (), ?_, (), hsize, (), ?_, data, ?_, (), htag, (), ?_, (),
    hsame.trans hchecked, rfl⟩
  · rw [refsCount_calcD1 _ _ _ hlt]
    exact hrefs
  · rw [checkLength, if_neg Bool.false_ne_true, require, check_eq_ok, require_eq_ok, fullLen,
      hoffset, ← hlen]
    simp
    omega
  · rw [cellData, hoffset, slice_eq_ok, ← hlen]
    simp
    omega
  · rw [checkStoredDepths, storeHashes_calcD1 _ _ _ hlt]
    rfl

theorem checkTag_last (h : DataOk raw info)
    (htag : checkTag raw info.d2 (fullLen info.d1 info.d2) = .ok ()) :
    Tagged info.d2 info.data := by
  refine ⟨h.length_data, ?_⟩
  intro hodd
  have hpos : 0 < cellDataLen info.d2 := by
    rw [cellDataLen]
    omega
  have hlong : 2 < fullLen info.d1 info.d2 := by
    rw [fullLen, dataOffset]
    omega
  rw [checkTag, if_pos ⟨hodd, hlong⟩, bind_eq_ok] at htag
  obtain ⟨last, hlast, hbyte⟩ := htag
  rw [index_eq_ok] at hlast
  rw [require, check_eq_ok, require_eq_ok] at hbyte
  obtain ⟨-, hdata⟩ := (slice_eq_ok _ _ _ _).mp h.data_eq
  -- the last byte of the cell is the last byte of its data
  have hend : info.data[cellDataLen info.d2 - 1]? = some last := by
    rw [← hdata, List.getElem?_take_of_lt (by omega), List.getElem?_drop, ← hlast, fullLen]
    congr 1
    omega
  have hlen := h.length_data
  refine ⟨info.data.dropLast, last, ?_, hbyte⟩
  have hne : info.data ≠ [] := by
    intro hnil
    rw [hnil, List.length_nil] at hlen
    omega
  rw [← hlen, ← List.getLast?_eq_getElem?, List.getLast?_eq_some_getLast hne] at hend
  rw [← Option.some.inj hend, List.dropLast_append_getLast]

theorem Made.fromCell (h : Made sha256 limit s c) (hs : ¬ s.Leveled) :
    ∃ b, Boc.fromCell c = .ok b ∧ b.cellType = s.type ∧ b.references = c.refs ∧
      b.lengthInBits = bitLen s.d2 s.data ∧ (bitLen s.d2 s.data % 8 = 0 → b.data = s.data) ∧
      (∀ c', finalize sha256 limit b = .ok c' → finalizeMask b = .ok (levelMask c'.buf.d1)) ∧
      (finalizeMask b = .ok (levelMask s.d1) → finalize sha256 limit b = .ok c) := by
  obtain ⟨hkind, hd2, hdata⟩ := h.buf_eq hs
  cases h with
  | @mk raw info type stored hashes refs serialized hinfo htag htype hlen hstored hhashes hsame hrefs =>
  have hok := (checkData_safe raw true).2 info hinfo
  have hlt := refsCount_lt info.d1
  obtain rfl : Serialized.typeOf info.d1 info.data = type := typeOf_eq htype
  obtain ⟨kept, hkept, hroom, hbyte, hcut, hagain, hwhole⟩ := (checkTag_last hok htag).repack
  refine ⟨⟨kept, bitLen info.d2 info.data, refs, Serialized.typeOf info.d1 info.data⟩, ?_, rfl, rfl,
    rfl, hwhole, ?_, ?_⟩
  · rw [Boc.fromCell, hd2, hdata, hkind, bind_eq_ok]
    exact ⟨kept, (check_eq_ok _ _).mpr hkept, rfl⟩
  · intro c' hc'
    simp only [finalize, bind_eq_ok, pure_eq_ok] at hc'
    obtain ⟨mask, hmask, raw', hraw', buf, hbuf, rfl⟩ := hc'
    simp only [buildData, require, bind_eq_ok, check_eq_ok, require_eq_ok, pure_eq_ok] at hraw'
    obtain ⟨-, -, -, -, data, -, rfl⟩ := hraw'
    obtain ⟨info', type', stored', hashes', hinfo', -, -, -, -, rfl⟩ := withDataAndRefs_eq_ok.mp hbuf
    have hd1 := ((checkData_safe _ false).2 info' hinfo').d1_eq
    simp only [List.getElem?_cons_zero, Option.some.injEq] at hd1
    rw [hmask, Cell.buf, d1_finish, levelMask_calcD1 _ _ _ (refsCount_lt _), ← hd1,
      levelMask_calcD1 _ _ _ (hlen ▸ hlt)]
  · intro hmask
    simp only [finalize, bind_eq_ok, pure_eq_ok]
    refine ⟨levelMask info.d1, hmask, calcD1 (levelMask info.d1) false
      (Serialized.typeOf info.d1 info.data) refs.length :: info.d2 :: info.data, ?_, _, ?_, rfl⟩
    · simp only [buildData, require, bind_eq_ok, check_eq_ok, require_eq_ok, pure_eq_ok]
      refine ⟨(), hroom, (), by rw [hlen]; exact hok.refs_le, info.data, ?_, by rw [hbyte]⟩
      rw [hbyte, slice_eq_ok]
      exact ⟨⟨Nat.zero_le _, hcut⟩, hagain⟩
    · rw [withDataAndRefs_eq_ok]
      have hcheck := checkData_repacked hinfo htype
      have hmask' := levelMask_calcD1 (levelMask info.d1) false
        (Serialized.typeOf info.d1 info.data) hlt
      have hcount := refsCount_calcD1 (levelMask info.d1) false
        (Serialized.typeOf info.d1 info.data) hlt
      rw [hlen]
      refine ⟨_, Serialized.typeOf info.d1 info.data, none, hashes, hcheck, ?_, ?_, ?_, ?_, ?_⟩
      · rw [length_map, hcount, hlen]
      · rw [rawCellType, exotic_calcD1 _ _ _ hlt, ← hok.exotic_eq htype]
        exact htype
      · rw [storedHashes, storeHashes_calcD1 _ _ _ hlt]
        rfl
      · rw [CellRawInfo.hashInput, hmask', hcount]
        exact computeHashes_forget hhashes
      · -- what is left behind does not depend on the stored hashes
        simp only [CellRawInfo.hashInput, hmask', hcount]
        rfl

theorem Made.levelMask_eq (h : Made sha256 limit s c) : levelMask c.buf.d1 = levelMask s.d1 := by
  cases h with
  | mk =>
    rw [Cell.buf, d1_finish, levelMask_calcD1 _ _ _ (refsCount_lt _)]
    rfl

theorem Made.refs_made (h : Made sha256 limit s c) : s.refs.length = c.refs.length ∧
    ∀ (k : ℕ) t r, s.refs[k]? = some t → c.refs[k]? = some r → Made sha256 limit t r := by
  cases h with
  | mk _ _ _ _ _ _ hsame hrefs => exact ⟨hsame, hrefs⟩

theorem Made.exists_cell (h : Made sha256 limit s c) {k : ℕ} {t : Serialized}
    (ht : s.refs[k]? = some t) : ∃ r, c.refs[k]? = some r ∧ Made sha256 limit t r := by
  obtain ⟨hlen, hmade⟩ := h.refs_made
  have hr := List.getElem?_eq_getElem (hlen ▸ (List.getElem?_eq_some_iff.mp ht).1)
  exact ⟨_, hr, hmade k t _ ht hr⟩

theorem Made.exists_serialized (h : Made sha256 limit s c) {k : ℕ} {r : Cell}
    (hr : c.refs[k]? = some r) : ∃ t, s.refs[k]? = some t ∧ Made sha256 limit t r := by
  obtain ⟨hlen, hmade⟩ := h.refs_made
  have ht := List.getElem?_eq_getElem (hlen ▸ (List.getElem?_eq_some_iff.mp hr).1)
  exact ⟨_, ht, hmade k _ r ht hr⟩

theorem Made.childrenMask_eq (h : Made sha256 limit s c) : childrenMask c.refs = s.refsMask := by
  have hmasks : (c.refs.map fun r => levelMask r.buf.d1) = s.refs.map fun t => levelMask t.d1 := by
    refine List.ext_getElem? fun k => ?_
    rw [List.getElem?_map, List.getElem?_map]
    cases ht : s.refs[k]? with
    | none =>
      rw [List.getElem?_eq_none_iff] at ht
      rw [List.getElem?_eq_none_iff.mpr (h.refs_made.1 ▸ ht)]
      rfl
    | some t =>
      obtain ⟨r, hr, hmade⟩ := h.exists_cell ht
      rw [hr, Option.map_some, Option.map_some, hmade.levelMask_eq]
  have hfold := congrArg (List.foldl (· ||| ·) 0) hmasks
  rwa [List.foldl_map, List.foldl_map] at hfold

theorem Made.typed (h : Made sha256 limit s c) : c.refs.length = refsCount s.d1 ∧
      bitLen s.d2 s.data ≤ 8 * s.data.length ∧
      (s.type = .ordinary ∨ ExoticOk s.d1 s.data (bitLen s.d2 s.data) s.type) := by
  cases h with
  | @mk raw info type stored hashes refs serialized hinfo htag htype hlen =>
  have hok := (checkData_safe raw true).2 info hinfo
  obtain rfl : Serialized.typeOf info.d1 info.data = type := typeOf_eq htype
  refine ⟨hlen, bitLen_le hok.length_data, ?_⟩
  rcases hok.type_cases htype with ⟨-, hord⟩ | ⟨-, -, hexotic⟩
  · exact .inl hord
  · rw [hok.bitLen_eq] at hexotic
    exact .inr hexotic

/-- What a Merkle cell shows of a reference is compared with the hash of the format. -/
theorem Made.shows_iff (h : Made sha256 limit s c)
    (hs : ∀ t : Serialized, t.Inside s → ¬ t.Leveled) (count i : ℕ) :
    MerkleShows c count i ↔ s.Shows sha256 count i := by
  obtain ⟨-, -, hdata⟩ := h.buf_eq (hs s (.self s))
  have hchild : ∀ t, s.refs[i]? = some t → ∀ u : Serialized, u.Inside t → ¬ u.Leveled := by
    intro t ht u hu
    cases s with
    | mk d1 d2 data refs => exact hs u (.child (List.mem_of_getElem? ht) hu)
  constructor
  · rintro ⟨r, hash, depth, hr, hhash, hshown, hdepth⟩
    obtain ⟨t, ht, hmade⟩ := h.exists_serialized hr
    rw [hmade.hashDepth_eq (hchild t ht)] at hhash
    have hpair := Except.ok.inj hhash
    rw [hdata] at hshown hdepth
    exact ⟨t, ht, hshown.trans (congrArg Prod.fst hpair).symm,
      hdepth.trans (congrArg Prod.snd hpair).symm⟩
  · rintro ⟨t, ht, hshown, hdepth⟩
    obtain ⟨r, hr, hmade⟩ := h.exists_cell ht
    refine ⟨r, _, _, hr, hmade.hashDepth_eq (hchild t ht) 0, ?_, ?_⟩
    · rw [hdata, hshown]
    · rw [hdata, hdepth]

theorem Made.merkleLaw_iff (h : Made sha256 limit s c)
    (hs : ∀ t : Serialized, t.Inside s → ¬ t.Leveled) :
    MerkleLaw s.type c ↔ s.ShowsRefs sha256 := by
  rw [Serialized.ShowsRefs]
  cases s.type with
  | merkleProof => exact h.shows_iff hs 1 0
  | merkleUpdate => exact and_congr (h.shows_iff hs 2 0) (h.shows_iff hs 2 1)
  | ordinary | prunedBranch | libraryReference | unknown => exact Iff.rfl

theorem checkShownHash_of_shows {b : BuilderData} {count i : ℕ} (text : String)
    (hrefs : b.references = c.refs) (hdata : b.data = c.buf.data)
    (hroom : 1 + sha256Size * i + sha256Size ≤ c.buf.data.length) (h : MerkleShows c count i) :
    checkShownHash b i text = .ok () := by
  obtain ⟨r, hash, depth, hr, hhash, hshown, -⟩ := h
  rw [checkShownHash, hrefs, hdata]
  refine bind_eq_ok.mpr ⟨r, (index_eq_ok _ _ _).mpr hr, ?_⟩
  refine bind_eq_ok.mpr ⟨(hash, depth), hhash, ?_⟩
  refine bind_eq_ok.mpr ⟨hash, ?_, (check_eq_ok _ _).mpr ((require_eq_ok _ _ _).mpr rfl)⟩
  rw [slice_eq_ok, Nat.add_sub_cancel_left]
  exact ⟨⟨Nat.le_add_right _ _, hroom⟩, hshown⟩

/-- On a cell that was read and says the truth of its references, `finalize` derives the
mask that follows from the type. -/
theorem Made.finalizeMask_eq (h : Made sha256 limit s c) (hs : ¬ s.Leveled) {b : BuilderData}
    (htype : b.cellType = s.type) (hrefs : b.references = c.refs)
    (hbits : b.lengthInBits = bitLen s.d2 s.data)
    (hdata : bitLen s.d2 s.data % 8 = 0 → b.data = s.data) (hlaw : MerkleLaw s.type c) :
    finalizeMask b = .ok s.derivedMask := by
  obtain ⟨-, -, hbuf⟩ := h.buf_eq hs
  obtain ⟨hlen, hroom, hcase⟩ := h.typed
  have hmask := h.childrenMask_eq
  rw [Serialized.derivedMask]
  generalize hkind : s.type = type at hcase hlaw htype
  rcases hcase with rfl | hok
  · rw [finalizeMask, htype, hrefs, ← hmask]
    rfl
  · cases hok with
    | pruned hr hl hb hm hd =>
      obtain ⟨byte, hbyte, -⟩ := hm
      have hwhole : b.data = s.data := hdata (by rw [hb]; exact Nat.mul_mod_right 8 _)
      rw [finalizeMask, htype]
      refine bind_eq_ok.mpr ⟨(), ?_, bind_eq_ok.mpr ⟨byte, ?_, ?_⟩⟩
      · rw [require, check_eq_ok, require_eq_ok, hbits, hb]
        omega
      · rw [index_eq_ok, hwhole]
        exact hbyte
      · rw [List.getD_eq_getElem?_getD, hbyte]
        rfl
    | library hb hr =>
      rw [finalizeMask, htype]
      rfl
    | proof hb hr =>
      have hwhole : b.data = s.data := hdata (by rw [hb]; exact Nat.mul_mod_right 8 _)
      simp only [sha256Size, depthSize] at hb
      have hfirst := checkShownHash_of_shows (i := 0)
        "Merkle proof cell reference hash does not match the hash in the data"
        hrefs (hwhole.trans hbuf.symm) (by rw [hbuf, sha256Size]; omega) hlaw
      rw [finalizeMask, htype]
      simp only [require, bind_eq_ok, check_eq_ok, require_eq_ok, pure_eq_ok]
      refine ⟨(), by rw [hrefs, hlen, hr], (), by rw [hwhole]; omega, (), hfirst, ?_⟩
      rw [hrefs, hmask]
    | update hb hr =>
      have hwhole : b.data = s.data := hdata (by rw [hb]; exact Nat.mul_mod_right 8 _)
      simp only [sha256Size, depthSize] at hb
      have hfirst := checkShownHash_of_shows (i := 0)
        "Merkle update cell first reference hash does not match the first hash in the data"
        hrefs (hwhole.trans hbuf.symm) (by rw [hbuf, sha256Size]; omega) hlaw.1
      have hsecond := checkShownHash_of_shows (i := 1)
        "Merkle update cell second reference hash does not match the second hash in the data"
        hrefs (hwhole.trans hbuf.symm) (by rw [hbuf, sha256Size]; omega) hlaw.2
      rw [finalizeMask, htype]
      simp only [require, bind_eq_ok, check_eq_ok, require_eq_ok, pure_eq_ok]
      refine ⟨(), by rw [hrefs, hlen, hr], (), by rw [hwhole]; omega, (), hfirst, (), hsecond, ?_⟩
      rw [hrefs, hmask]

/-- A cell that was read keeps the laws of the builder exactly when the serialized one is
lawful. -/
theorem Made.wellFormed_iff (h : Made sha256 limit s c)
    (hs : ∀ t : Serialized, t.Inside s → ¬ t.Leveled) :
    WellFormed sha256 limit c ↔ s.Lawful sha256 := by
  have hself := hs s (.self s)
  obtain ⟨b, hb, htype, hrefs, hbits, hdata, hmask, hsame⟩ := h.fromCell hself
  obtain ⟨hkind, -, -⟩ := h.buf_eq hself
  have hlevel := h.levelMask_eq
  have hresult : rebuild sha256 limit c = finalize sha256 limit b := by
    rw [rebuild, hb]
    rfl
  constructor
  · rintro ⟨⟨c', hc', hequal, -⟩, hlaw⟩
    rw [hresult] at hc'
    have hderived := h.finalizeMask_eq hself htype hrefs hbits hdata (hlaw _ hkind)
    refine ⟨?_, (h.merkleLaw_iff hs).mp (hlaw _ hkind)⟩
    rw [← hlevel, ← hequal]
    exact Except.ok.inj ((hmask c' hc').symm.trans hderived)
  · rintro ⟨hequal, hshows⟩
    have hlaw := (h.merkleLaw_iff hs).mpr hshows
    have hderived := h.finalizeMask_eq hself htype hrefs hbits hdata hlaw
    rw [← hequal] at hderived
    refine ⟨⟨c, hresult.trans (hsame hderived), rfl, rfl⟩, ?_⟩
    intro type htype'
    rwa [← Except.ok.inj (hkind.symm.trans htype')]

theorem Made.not_wellFormed (h : Made sha256 limit s c) (hs : s.Leveled) :
    ¬ WellFormed sha256 limit c := by
  rintro ⟨⟨c', hc', -, -⟩, -⟩
  have hunknown := h.spilled hs
  simp only [rebuild, Boc.fromCell, hunknown, bind_eq_ok, pure_eq_ok, Except.ok.injEq] at hc'
  obtain ⟨b, ⟨data, -, type, rfl, rfl⟩, hfinal⟩ := hc'
  cases hfinal

theorem Serialized.Leveled.not_lawful (hs : s.Leveled) : ¬ s.Lawful sha256 := by
  rintro ⟨hmask, -⟩
  rw [Serialized.derivedMask, hs.1] at hmask
  have hzero : levelMask s.d1 = 0 := hmask
  exact hs.2 (by rw [hzero]; decide)

theorem Made.exists_within {t : Serialized} (ht : t.Inside s) {root : Cell}
    (h : Made sha256 limit s root) : ∃ c, Within c root ∧ Made sha256 limit t c := by
  induction ht generalizing root with
  | self => exact ⟨root, .self root, h⟩
  | child hmem _ ih =>
    obtain ⟨k, hk⟩ := List.mem_iff_getElem?.mp hmem
    obtain ⟨r, hr, hmade⟩ := h.exists_cell hk
    obtain ⟨c, hc, ht⟩ := ih hmade
    cases root with
    | mk buf refs => exact ⟨c, .child (List.mem_of_getElem? hr) hc, ht⟩

theorem Made.exists_inside {root : Cell} (hc : Within c root) (h : Made sha256 limit s root) :
    ∃ t : Serialized, t.Inside s ∧ Made sha256 limit t c := by
  induction hc generalizing s with
  | self => exact ⟨s, .self s, h⟩
  | child hmem _ ih =>
    obtain ⟨k, hk⟩ := List.mem_iff_getElem?.mp hmem
    obtain ⟨t, ht, hmade⟩ := h.exists_serialized hk
    obtain ⟨u, hu, hcell⟩ := ih hmade
    cases s with
    | mk d1 d2 data refs => exact ⟨u, .child (List.mem_of_getElem? ht) hu, hcell⟩

theorem Serialized.Inside.trans {t u : Serialized} (h : u.Inside t) (ht : t.Inside s) :
    u.Inside s := by
  induction ht with
  | self => exact h
  | child hmem _ ih => exact .child hmem ih

/-- All cells of a tree that was read keep the laws exactly when all serialized ones are
lawful. -/
theorem Made.all_wellFormed_iff {root : Cell} (h : Made sha256 limit s root) :
    (∀ c, Within c root → WellFormed sha256 limit c) ↔
      ∀ t : Serialized, t.Inside s → t.Lawful sha256 := by
  by_cases hs : ∀ t : Serialized, t.Inside s → ¬ t.Leveled
  · have hbelow (t : Serialized) (ht : t.Inside s) (u : Serialized) (hu : u.Inside t) : ¬ u.Leveled :=
      hs u (hu.trans ht)
    constructor
    · intro hall t ht
      obtain ⟨c, hc, hmade⟩ := h.exists_within ht
      exact (hmade.wellFormed_iff (hbelow t ht)).mp (hall c hc)
    · intro hall c hc
      obtain ⟨t, ht, hmade⟩ := h.exists_inside hc
      exact (hmade.wellFormed_iff (hbelow t ht)).mpr (hall t ht)
  · -- with a leveled library reference in the tree neither side holds
    push Not at hs
    obtain ⟨t, ht, hleveled⟩ := hs
    obtain ⟨c, hc, hmade⟩ := h.exists_within ht
    exact iff_of_false (fun hall => hmade.not_wellFormed hleveled (hall c hc))
      fun hall => hleveled.not_lawful (hall t ht)

section Reader

variable {R : BocReader} {crc32 : Bytes → ℕ} {data : Bytes} {p : Prepared}

/-- The cells that were built stand in the bag under the indexes from the last one down. -/
def CellsMade (sha256 : Bytes → Bytes) (limit : ℕ) (data : Bytes) (cells : List Cell) : Prop :=
  ∀ (j : ℕ) c, cells[j]? = some c →
    ∃ s, Holds data (Bag.cellsCount data - 1 - j) s ∧ Made sha256 limit s c

theorem getElem?_concat_imp {α : Type} {l : List α} {a : α} {P : ℕ → α → Prop}
    (h : ∀ (k : ℕ) b, l[k]? = some b → P k b) (ha : P l.length a) :
    ∀ (k : ℕ) b, (l ++ [a])[k]? = some b → P k b := by
  intro k b hb
  rcases Nat.lt_trichotomy k l.length with hk | rfl | hk
  · rw [List.getElem?_append_left hk] at hb
    exact h k b hb
  · rw [List.getElem?_concat_length] at hb
    exact Option.some.inj hb ▸ ha
  · rw [List.getElem?_eq_none_iff.mpr (by simpa using hk)] at hb
    cases hb

theorem resolveRefs_made {cells refs : List Cell} {i n : ℕ} (hp : p.header.Describes data)
    (hcells : CellsMade sha256 limit data cells)
    (h : (List.range n).foldlM (resolveRef p.header data cells i
      (Bag.offset data i + fullLen (Bag.d1 data i) (Bag.d2 data i))) [] = .ok refs) :
    ∃ ts : List Serialized, ts.length = n ∧ refs.length = n ∧ ∀ (k : ℕ) t, ts[k]? = some t →
      Holds data (Bag.refIndex data i k) t ∧
        ∀ r, refs[k]? = some r → Made sha256 limit t r := by
  refine foldlM_range (fun n refs => ∃ ts : List Serialized, ts.length = n ∧ refs.length = n ∧
    ∀ (k : ℕ) t, ts[k]? = some t → Holds data (Bag.refIndex data i k) t ∧
      ∀ r, refs[k]? = some r → Made sha256 limit t r) ⟨[], rfl, rfl, by simp⟩ ?_ h
  rintro n - refs refs' ⟨ts, hts, hrefs, hmade⟩ hround
  simp only [resolveRef, bind_eq_ok, pure_eq_ok, index_eq_ok, mulWithin_eq_ok, addWithin_eq_ok,
    subtract_eq_ok] at hround
  obtain ⟨_, ⟨-, rfl⟩, _, ⟨-, rfl⟩, ref, href, -, -, _, ⟨-, rfl⟩, _, ⟨hle, rfl⟩, cell, hcell, rfl⟩ :=
    hround
  rw [hp.cellsCount] at hle hcell
  obtain ⟨t, hholds, ht⟩ := hcells _ cell hcell
  rw [Nat.sub_sub_self hle, readBeUintAt_ok href, hp.refSize] at hholds
  refine ⟨ts ++ [t], by simp [hts], by simp [hrefs], getElem?_concat_imp ?_ ⟨?_, ?_⟩⟩
  · intro k u hu
    have hk : k < refs.length := by
      rw [hrefs, ← hts]
      exact (List.getElem?_eq_some_iff.mp hu).1
    rw [List.getElem?_append_left hk]
    exact hmade k u hu
  · rw [hts]
    exact hholds
  · intro r hr
    rw [hts, ← hrefs, List.getElem?_concat_length] at hr
    exact Option.some.inj hr ▸ ht

theorem buildCell_made {i : ℕ} {args : CellArgs} {st st' : BuildState}
    (hp : p.header.Describes data)
    (hoffsets : p.offsets = (List.range (Bag.cellsCount data)).map (Bag.offset data))
    (hcells : CellsMade sha256 R.maxDepth data st.cells)
    (hargs : cellArgs R p data st.cells i = .ok args)
    (h : buildCell R sha256 p st i args = .ok st') :
    ∃ s c, st'.cells = st.cells ++ [c] ∧ Holds data i s ∧ Made sha256 R.maxDepth s c := by
  simp only [cellArgs, bind_eq_ok, pure_eq_ok, addWithin_eq_ok] at hargs
  obtain ⟨_, -, off, hoff, raw, hraw, d1, hd1, d2, hd2, _, ⟨-, rfl⟩, _, -, _, -, ⟨⟩, htag, refs, hrefs,
    rfl⟩ := hargs
  simp only [buildCell, bind_eq_ok, pure_eq_ok] at h
  obtain ⟨buf, hbuf, rfl⟩ := h
  obtain ⟨info, type, stored, hashes, hinfo, hlen, htype, hstored, hhashes, rfl⟩ :=
    withDataAndRefs_eq_ok.mp hbuf
  have hok := (checkData_safe raw true).2 info hinfo
  obtain rfl : d1 = info.d1 :=
    Option.some.inj (((index_eq_ok _ _ _).mp hd1).symm.trans hok.d1_eq)
  obtain rfl : d2 = info.d2 :=
    Option.some.inj (((index_eq_ok _ _ _).mp hd2).symm.trans hok.d2_eq)
  obtain rfl : off = Bag.offset data i := by
    rw [index_eq_ok, hoffsets, List.getElem?_map, Option.map_eq_some_iff] at hoff
    obtain ⟨j, hj, rfl⟩ := hoff
    obtain ⟨-, rfl⟩ := List.getElem?_eq_some_iff.mp hj
    rw [List.getElem_range]
  have hfirst : Bag.d1 data i = info.d1 := index_drop_ok hraw hd1
  have hsecond : Bag.d2 data i = info.d2 := index_drop_ok hraw hd2
  have hbytes : Bag.cellData data i = info.data := by
    obtain ⟨-, hslice⟩ := (slice_eq_ok _ _ _ _).mp hok.data_eq
    obtain ⟨-, rfl⟩ := (sliceFrom_eq_ok _ _ _).mp hraw
    rw [List.drop_drop, Nat.add_sub_cancel_left] at hslice
    rw [Bag.cellData, hfirst, hsecond, hslice]
  rw [← hfirst, ← hsecond] at hrefs
  obtain ⟨ts, hts, hcount, hmade⟩ := resolveRefs_made hp hcells hrefs
  refine ⟨_, _, rfl, .mk hts fun k t ht => (hmade k t ht).1, ?_⟩
  rw [hfirst, hsecond, hbytes]
  rw [length_map] at hlen
  exact .mk hinfo htag htype hlen hstored hhashes (hts.trans hcount.symm)
    fun k t r ht hr => (hmade k t ht).2 r hr

theorem buildLoop_made {st : BuildState} (hp : p.header.Describes data)
    (hoffsets : p.offsets = (List.range (Bag.cellsCount data)).map (Bag.offset data))
    (h : (List.range (Bag.cellsCount data)).reverse.foldlM (buildRound R sha256 p data)
      ⟨[], p.flags, false⟩ = .ok st) (hst : st.interrupted = false) :
    CellsMade sha256 R.maxDepth data st.cells := by
  have hall := foldlM_inv_count (fun k (st : BuildState) => st.interrupted = false →
    st.cells.length = k ∧ CellsMade sha256 R.maxDepth data st.cells)
    (fun _ => ⟨rfl, fun j c hc => by cases hc⟩) ?_ h
  · exact (hall hst).2
  · intro k i st st' hi hinv hround hst'
    rw [buildRound] at hround
    split_ifs at hround with hint
    · obtain rfl := (pure_eq_ok _ _).mp hround
      rw [hint] at hst'
      cases hst'
    · rw [bind_eq_ok] at hround
      obtain ⟨args, hargs, hcell⟩ := hround
      obtain ⟨hlen, hcells⟩ := hinv (Bool.not_eq_true _ ▸ hint)
      obtain ⟨s, c, hadd, hholds, hmade⟩ := buildCell_made hp hoffsets hcells hargs hcell
      obtain ⟨hk, hat⟩ := List.getElem?_eq_some_iff.mp hi
      rw [List.getElem_reverse, List.getElem_range, List.length_range] at hat
      rw [hadd]
      refine ⟨by simp [hlen], getElem?_concat_imp hcells ⟨s, ?_, hmade⟩⟩
      rw [hlen, hat]
      exact hholds

theorem read_roots {r : BocReaderResult} (h : read R sha256 crc32 data = .ok r)
    (hr : r.interrupted = false) : r.roots.length = Bag.rootsCount data ∧
      ∀ (k : ℕ) root, r.roots[k]? = some root →
        ∃ s, Holds data (Bag.rootIndex data k) s ∧ Made sha256 R.maxDepth s root := by
  simp only [read, bind_eq_ok] at h
  obtain ⟨p, hp, st, hst, hroots⟩ := h
  obtain ⟨hdescribes, hoffsets⟩ := prepare_ok hp
  rw [hdescribes.cellsCount] at hst
  rw [collectRoots] at hroots
  split_ifs at hroots with hint
  · obtain rfl := (pure_eq_ok _ _).mp hroots
    cases hr
  · have hcells := buildLoop_made hdescribes hoffsets hst (Bool.not_eq_true _ ▸ hint)
    simp only [bind_eq_ok, pure_eq_ok] at hroots
    obtain ⟨⟨roots, stored⟩, hloop, rfl⟩ := hroots
    rw [hdescribes.rootsIndexes] at hloop
    have hall := foldlM_inv_count (fun k (q : List Cell × Bool) => q.1.length = k ∧
      ∀ (j : ℕ) root, q.1[j]? = some root → ∃ s, Holds data (Bag.rootIndex data j) s ∧
        Made sha256 R.maxDepth s root) ⟨rfl, by simp⟩ ?_ hloop
    · rwa [length_map, List.length_range] at hall
    · rintro k index q q' hindex ⟨hlen, hq⟩ hround
      simp only [collectRoot, bind_eq_ok, pure_eq_ok, check_eq_ok, Checked.present_eq_ok,
        subtract_eq_ok] at hround
      obtain ⟨_, ⟨-, rfl⟩, _, ⟨hle, rfl⟩, root, hroot, rfl⟩ := hround
      rw [hdescribes.cellsCount] at hle hroot
      obtain ⟨s, hholds, hmade⟩ := hcells _ root hroot
      rw [Nat.sub_sub_self hle] at hholds
      rw [List.getElem?_map, Option.map_eq_some_iff] at hindex
      obtain ⟨j, hj, rfl⟩ := hindex
      obtain ⟨_, rfl⟩ := List.getElem?_eq_some_iff.mp hj
      rw [List.getElem_range] at hholds
      refine ⟨by simp [hlen], getElem?_concat_imp hq ⟨s, ?_, hmade⟩⟩
      rw [hlen]
      exact hholds

end Reader

/-- The cells of an accepted bag keep the laws of the builder exactly when every cell in
the bag declares the level mask that follows from its type, data and references, and the
Merkle cells the hashes and depths of their references. -/
theorem read_wellFormed_iff (R : BocReader) (sha256 : Bytes → Bytes) (crc32 : Bytes → ℕ)
    (data : Bytes) (r : BocReaderResult) (hread : read R sha256 crc32 data = .ok r)
    (hr : r.interrupted = false) :
    (∀ root ∈ r.roots, ∀ c, Within c root → WellFormed sha256 R.maxDepth c) ↔
      BagLawful sha256 data := by
  obtain ⟨hlen, hroots⟩ := read_roots hread hr
  constructor
  · intro hall k hk s hs
    rw [← hlen] at hk
    have hroot := List.getElem?_eq_getElem hk
    obtain ⟨s', hs', hmade⟩ := hroots k _ hroot
    obtain rfl := hs.unique hs'
    exact hmade.all_wellFormed_iff.mp (hall _ (List.mem_of_getElem? hroot))
  · intro hall root hroot
    obtain ⟨k, hk⟩ := List.mem_iff_getElem?.mp hroot
    obtain ⟨s, hs, hmade⟩ := hroots k root hk
    refine hmade.all_wellFormed_iff.mpr (hall k ?_ s hs)
    rw [← hlen]
    exact (List.getElem?_eq_some_iff.mp hk).1

def singleCellBag (d1 : UInt8) : Bytes :=
  [0xb5, 0xee, 0x9c, 0x72, 1, 1, 1, 1, 0, 2, 0, d1, 0]

def deepProofBag : Bytes :=
  [0xb5, 0xee, 0x9c, 0x72, 1, 1, 2, 1, 0, 40, 0, 9, 70, 3] ++ replicate 32 0 ++ [0, 1, 1, 0, 0]

variable (sha256 : Bytes → Bytes)

def emptyCell : Cell := .mk ⟨16, 0, [], [sha256 [0, 0]], [0]⟩ []

/-- A Merkle proof over a pruned branch, which shows its hash and its depth. -/
def prunedProofBag : Bytes :=
  [0xb5, 0xee, 0x9c, 0x72, 1, 1, 2, 1, 0, 76, 0, 9, 70, 3] ++ replicate 32 0 ++
    [0, 5, 1, 40, 72, 1, 1] ++ replicate 32 0 ++ [0, 5]

def prunedProof : Serialized :=
  .mk 9 70 (3 :: replicate 32 0 ++ [0, 5]) [.mk 40 72 (1 :: 1 :: replicate 32 0 ++ [0, 5]) []]

set_option maxRecDepth 8000 in
theorem prunedProofBag_holds : Holds prunedProofBag 0 prunedProof := by
  have hchild : Holds prunedProofBag 1 (.mk 40 72 (1 :: 1 :: replicate 32 0 ++ [0, 5]) []) :=
    .mk (i := 1) rfl fun k r hr => by cases hr
  refine .mk (i := 0) rfl fun k r hr => ?_
  cases k with
  | zero => exact Option.some.inj hr ▸ hchild
  | succ k => cases hr

set_option maxRecDepth 8000 in
theorem prunedProofBag_lawful : BagLawful (fun _ => replicate 32 0) prunedProofBag := by
  intro k hk root hroot s hs
  have hone : Bag.rootsCount prunedProofBag = 1 := rfl
  obtain rfl : k = 0 := by omega
  obtain rfl := hroot.unique prunedProofBag_holds
  cases hs with
  | self => exact ⟨rfl, _, rfl, rfl, rfl⟩
  | child hmem hs =>
    obtain rfl := List.mem_singleton.mp hmem
    cases hs with
    | self => exact ⟨rfl, trivial⟩
    | child hmem => cases hmem

set_option maxRecDepth 8000 in
theorem read_prunedProofBag_wellFormed : ∃ r,
    read .new (fun _ => replicate 32 0) (fun _ => 0) prunedProofBag = .ok r ∧
      r.interrupted = false ∧ r.roots.length = 1 ∧ ∀ root ∈ r.roots, ∀ c, Within c root →
        WellFormed (fun _ => replicate 32 0) BocReader.new.maxDepth c :=
  ⟨_, rfl, rfl, rfl, (read_wellFormed_iff .new _ (fun _ => 0) prunedProofBag _ rfl rfl).mpr
    prunedProofBag_lawful⟩

def leveledCell : Cell :=
  .mk ⟨0x30, 0, [], [sha256 [0, 0], sha256 (0x20 :: 0 :: (sha256 [0, 0] ++ [] ++ []))], [0, 0]⟩ []

set_option maxRecDepth 8000 in
theorem read_leveledCell (crc32 : Bytes → ℕ) : ∃ r,
    (read .new sha256 crc32 (singleCellBag 0x20)) = .ok r ∧ r.roots = [leveledCell sha256] :=
  ⟨_, rfl, rfl⟩

set_option maxRecDepth 8000 in
theorem rebuild_leveledCell : (rebuild sha256 BocReader.new.maxDepth (leveledCell sha256)) =
      .ok (emptyCell sha256) := by
  -- numerals are only evaluated once the hash function is out of the way
  have hd1 : (leveledCell sha256).buf.d1 = 0x30 := rfl
  have hd2 : (leveledCell sha256).buf.d2 = 0 := rfl
  have hdata : (leveledCell sha256).buf.data = [] := rfl
  have hopen : fromCell (leveledCell sha256) = .ok ⟨[], 0, [], .ordinary⟩ := by
    rw [fromCell, CellBuf.cellType, hd1, hd2, hdata]
    rfl
  have hbuild : (finalize sha256 BocReader.new.maxDepth ⟨[], 0, [], .ordinary⟩) =
      .ok (emptyCell sha256) := rfl
  rw [rebuild, hopen]
  exact hbuild

/-- The Merkle proof of `deepProofBag`, under the hash function that is constantly zero: the
hash that the proof gives is right, and only the depth is wrong. -/
def deepProof : Cell :=
  .mk ⟨25, 70, 3 :: (replicate 32 0 ++ [0, 1]), [replicate 32 0], [1]⟩
    [emptyCell fun _ => replicate 32 0]

set_option maxRecDepth 8000 in
theorem read_deepProof : ∃ r,
    (read .new (fun _ => replicate 32 0) (fun _ => 0) deepProofBag) = .ok r ∧
      r.roots = [deepProof] :=
  ⟨_, rfl, rfl⟩

/-- `read` accepts an ordinary cell without references that declares level one, whatever
the hash function, and a Merkle proof that gives a wrong depth; neither keeps the laws. -/
theorem read_accepts_unlawful : (∀ (sha256 : Bytes → Bytes) (crc32 : Bytes → ℕ), ∃ r,
      (read .new sha256 crc32 (singleCellBag 0x20)) = .ok r ∧ leveledCell sha256 ∈ r.roots ∧
      (rebuild sha256 BocReader.new.maxDepth (leveledCell sha256)) = .ok (emptyCell sha256) ∧
      ¬ WellFormed sha256 BocReader.new.maxDepth (leveledCell sha256)) ∧
    ∃ r, (read .new (fun _ => replicate 32 0) (fun _ => 0) deepProofBag) = .ok r ∧
      deepProof ∈ r.roots ∧
      ¬ WellFormed (fun _ => replicate 32 0) BocReader.new.maxDepth deepProof := by
  constructor
  · intro sha256 crc32
    obtain ⟨r, hread, hroots⟩ := read_leveledCell sha256 crc32
    have hrebuild := rebuild_leveledCell sha256
    refine ⟨r, hread, by rw [hroots]; exact List.mem_singleton_self _, hrebuild, ?_⟩
    rintro ⟨⟨c', hc', hlevel, -⟩, -⟩
    obtain rfl := Except.ok.inj (hrebuild.symm.trans hc')
    have hmasks : levelMask 16 ≠ levelMask 0x30 := by decide
    exact hmasks hlevel
  · obtain ⟨r, hread, hroots⟩ := read_deepProof
    refine ⟨r, hread, by rw [hroots]; exact List.mem_singleton_self _, ?_⟩
    rintro ⟨-, hlaw⟩
    obtain ⟨child, hash, depth, hchild, hhash, -, hdepth⟩ := hlaw .merkleProof rfl
    obtain rfl := Option.some.inj hchild
    -- the child has depth zero, the data says one
    have hzero : (emptyCell fun _ => replicate 32 0).buf.hashDepth 0 =
        .ok (replicate 32 0, 0) := rfl
    obtain ⟨-, rfl⟩ := Prod.mk.inj (Except.ok.inj (hzero.symm.trans hhash))
    exact absurd hdepth (by decide)

end TonNode.Boc
