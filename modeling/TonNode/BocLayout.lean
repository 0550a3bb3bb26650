import TonNode.BocReader

/-! Where the parts of a bag of cells stand in its bytes, and that the reader finds them
there. -/
namespace TonNode.Boc

open Guarded Cells

def uintAt (data : Bytes) (off size : ℕ) : ℕ := beUint ((data.drop off).take size)

namespace Bag

variable (data : Bytes)

def magic : ℕ := uintAt data 0 4

def generic : Bool := magic data = bocGenericTag

def first : ℕ := uintAt data 4 1

def refSize : ℕ := if generic data then first data % 8 else first data

def hasIndex : Bool := if generic data then first data / 128 % 2 = 1 else true

def cacheBits : Bool := generic data && decide (first data / 32 % 2 = 1)

def offsetSize : ℕ := uintAt data 5 1

def cellsCount : ℕ := uintAt data 6 (refSize data)

def rootsCount : ℕ := uintAt data (6 + refSize data) (refSize data)

/-- The numbers of cells, roots and absent cells and the size of all cells stand before
the roots. -/
def rootsStart : ℕ := 6 + 3 * refSize data + offsetSize data

/-- A bag with one of the old tags has one root, its first cell. -/
def rootIndex (k : ℕ) : ℕ :=
  if generic data then uintAt data (rootsStart data + k * refSize data) (refSize data) else 0

def indexStart : ℕ :=
  rootsStart data + if generic data then rootsCount data * refSize data else 0

def indexEntry (i : ℕ) : ℕ :=
  let entry := uintAt data (indexStart data + i * offsetSize data) (offsetSize data)
  if cacheBits data then entry / 2 else entry

def cellsStart : ℕ :=
  indexStart data + if hasIndex data then cellsCount data * offsetSize data else 0

def cellLen (off : ℕ) : ℕ :=
  fullLen (data.getD off 0) (data.getD (off + 1) 0) + refsCount (data.getD off 0) * refSize data

/-- An entry of the index is the end of a cell; without an index the cells follow each
other. -/
def offset : ℕ → ℕ
  | 0 => cellsStart data
  | i + 1 => if hasIndex data then cellsStart data + indexEntry data i
    else offset i + cellLen data (offset i)

def d1 (i : ℕ) : UInt8 := data.getD (offset data i) 0

def d2 (i : ℕ) : UInt8 := data.getD (offset data i + 1) 0

def cellData (i : ℕ) : Bytes :=
  (data.drop (offset data i + dataOffset (d1 data i))).take (cellDataLen (d2 data i))

/-- The index of reference `k` of the cell under index `i`. -/
def refIndex (i k : ℕ) : ℕ :=
  uintAt data (offset data i + fullLen (d1 data i) (d2 data i) + k * refSize data) (refSize data)

end Bag

variable {data : Bytes} {R : BocReader} {crc32 : Bytes → ℕ}

theorem readBeUint_ok {pos n v : ℕ} {t : Cursor} (h : readBeUint ⟨data, pos⟩ n = .ok (v, t)) :
    v = uintAt data pos n ∧ t = ⟨data, pos + n⟩ := by
  simp only [readBeUint, Cursor.readExact, bind_eq_ok, pure_eq_ok] at h
  obtain ⟨_, ⟨_, -, rfl⟩, hr⟩ := h
  exact (Prod.mk.inj hr).imp Eq.symm Eq.symm

theorem readBeUintAt_ok {off n v : ℕ} (h : readBeUintAt data off n = .ok v) :
    v = uintAt data off n := by
  simp only [readBeUintAt, bind_eq_ok, pure_eq_ok, slice_eq_ok, addWithin_eq_ok] at h
  obtain ⟨_, -, stop, ⟨-, rfl⟩, _, -, bytes, ⟨-, rfl⟩, rfl⟩ := h
  rw [uintAt, Nat.add_sub_cancel_left]

/-- What the header says is what stands in the bytes. -/
structure BocHeader.Describes (header : BocHeader) (data : Bytes) : Prop where
  refSize : header.refSize = Bag.refSize data
  indexIncluded : header.indexIncluded = Bag.hasIndex data
  hasCacheBits : header.hasCacheBits = Bag.cacheBits data
  cellsCount : header.cellsCount = Bag.cellsCount data
  offsetSize : header.offsetSize = Bag.offsetSize data
  rootsIndexes : header.rootsIndexes = (List.range (Bag.rootsCount data)).map (Bag.rootIndex data)

theorem headerForm_ok {form : HeaderForm}
    (h : headerForm (Bag.magic data) (Bag.first data) = .ok form) :
    form.refSize = Bag.refSize data ∧ form.indexIncluded = Bag.hasIndex data ∧
      form.hasCacheBits = Bag.cacheBits data ∧ (Bag.generic data = false →
        Bag.magic data = bocIndexedTag ∨ Bag.magic data = bocIndexedCrc32Tag) := by
  have hold (heq : Bag.magic data = bocIndexedTag ∨ Bag.magic data = bocIndexedCrc32Tag) :
      Bag.generic data = false := by
    rcases heq with heq | heq <;> rw [Bag.generic, heq] <;> decide
  rw [headerForm] at h
  split_ifs at h with hindexed hcrc hgeneric
  · obtain rfl := Except.ok.inj h
    simp [Bag.refSize, Bag.hasIndex, Bag.cacheBits, hold (.inl hindexed), hindexed]
  · obtain rfl := Except.ok.inj h
    simp [Bag.refSize, Bag.hasIndex, Bag.cacheBits, hold (.inr hcrc), hcrc]
  · simp only [Checked.bind_eq_ok] at h
    obtain ⟨-, -, h⟩ := h
    obtain rfl := Except.ok.inj h
    simp [Bag.refSize, Bag.hasIndex, Bag.cacheBits, Bag.generic, hgeneric]
  · cases h

theorem readRootsIndexes_ok {magic refSize cells roots pos : ℕ} {r : List ℕ × Cursor}
    (h : readRootsIndexes magic refSize cells roots ⟨data, pos⟩ = .ok r) :
    r = if magic = bocGenericTag then
      ((List.range roots).map fun k => uintAt data (pos + k * refSize) refSize,
        ⟨data, pos + roots * refSize⟩) else ([0], ⟨data, pos⟩) := by
  rw [readRootsIndexes] at h
  split_ifs at h ⊢ with hgeneric
  · refine foldlM_range (fun k (s : List ℕ × Cursor) =>
      s = ((List.range k).map fun j => uintAt data (pos + j * refSize) refSize,
        ⟨data, pos + k * refSize⟩)) (by simp) ?_ h
    rintro k - s s' rfl hround
    simp only [readRootIndex, bind_eq_ok, pure_eq_ok] at hround
    obtain ⟨⟨index, t⟩, hindex, -, -, -, -, rfl⟩ := hround
    obtain ⟨rfl, rfl⟩ := readBeUint_ok hindex
    rw [List.range_succ, List.map_append, Nat.succ_mul, ← Nat.add_assoc]
    rfl
  · exact (Except.ok.inj h).symm

variable {header : BocHeader}

theorem readHeader_ok {flags : BocFlags} {t : Cursor}
    (h : readHeader ⟨data, 0⟩ = .ok ((header, flags), t)) :
    header.Describes data ∧ t.pos = Bag.indexStart data := by
  simp only [readHeader, bind_eq_ok, check_eq_ok, pure_eq_ok] at h
  obtain ⟨⟨magic, t⟩, hmagic, ⟨first, t'⟩, hfirst, form, hform, -, -, -, -, ⟨offsetSize, t₁⟩, hoffset,
    -, -, ⟨cells, t₂⟩, hcells, ⟨roots, t₃⟩, hroots, ⟨absent, t₄⟩, habsent, -, -, ⟨⟩, hsome, -, -, ⟨⟩,
    hsole, -, -, -, -, -, -, ⟨total, t₅⟩, htotal, -, -, -, -, -, -, -, -, ⟨indexes, t₆⟩,
      hindexes, h⟩ := h
  obtain ⟨rfl, rfl⟩ := readBeUint_ok hmagic
  obtain ⟨rfl, rfl⟩ := readBeUint_ok hfirst
  obtain ⟨rfl, rfl⟩ := readBeUint_ok hoffset
  obtain ⟨rfl, rfl⟩ := readBeUint_ok hcells
  obtain ⟨rfl, rfl⟩ := readBeUint_ok hroots
  obtain ⟨rfl, rfl⟩ := readBeUint_ok habsent
  obtain ⟨rfl, rfl⟩ := readBeUint_ok htotal
  obtain ⟨hsize, hindex, hcache, hold⟩ := headerForm_ok hform
  obtain ⟨hpair, rfl⟩ := Prod.mk.inj h
  obtain ⟨rfl, -⟩ := Prod.mk.inj hpair
  simp only [Nat.zero_add, hsize] at hindexes hsole hsome
  have hlist := readRootsIndexes_ok hindexes
  have hpos : 4 + 1 + 1 + Bag.refSize data + Bag.refSize data + Bag.refSize data + uintAt data 5 1 =
      Bag.rootsStart data := by
    rw [Bag.rootsStart, Bag.offsetSize]
    omega
  change (indexes, t₆) = if Bag.magic data = bocGenericTag then _ else _ at hlist
  rw [hpos] at hlist
  by_cases hgeneric : Bag.generic data = true
  · rw [if_pos (of_decide_eq_true hgeneric)] at hlist
    obtain ⟨rfl, rfl⟩ := Prod.mk.inj hlist
    refine ⟨⟨hsize, hindex, hcache, ?_, rfl, ?_⟩, ?_⟩
    · rw [Bag.cellsCount, hsize]
    · exact List.map_congr_left fun k _ => (if_pos hgeneric).symm
    · rw [Bag.indexStart, if_pos hgeneric]
      rfl
  · rw [if_neg fun heq => hgeneric (decide_eq_true heq)] at hlist
    obtain ⟨rfl, rfl⟩ := Prod.mk.inj hlist
    have hfalse := Bool.not_eq_true _ ▸ hgeneric
    simp only [Cells.require, check_eq_ok, Checked.require_eq_ok] at hsome hsole
    have hone : Bag.rootsCount data = 1 := by
      have hle : ¬ 1 < Bag.rootsCount data := fun hlt => hsole ⟨hold hfalse, hlt⟩
      have hne : Bag.rootsCount data ≠ 0 := hsome
      omega
    refine ⟨⟨hsize, hindex, hcache, ?_, rfl, ?_⟩, ?_⟩
    · rw [Bag.cellsCount, hsize]
    · rw [hone]
      simp [Bag.rootIndex, hfalse]
    · rw [Bag.indexStart, hfalse]
      rfl

theorem index_drop_ok {off i : ℕ} {raw : Bytes} {b : UInt8} (hraw : sliceFrom data off = .ok raw)
    (h : index raw i = .ok b) : data.getD (off + i) 0 = b := by
  obtain ⟨-, rfl⟩ := (sliceFrom_eq_ok _ _ _).mp hraw
  rw [index_eq_ok, List.getElem?_drop] at h
  rw [List.getD_eq_getElem?_getD, h]
  rfl

theorem indexRound_ok (hd : header.Describes data) (hindex : Bag.hasIndex data = true) {i : ℕ}
    {s t : List ℕ × ℕ} (hs : Bag.cellsStart data + s.2 = Bag.offset data i)
    (h : indexRound R header data (Bag.indexStart data) (Bag.cellsStart data) s i = .ok t) :
    t.1 = s.1 ++ [Bag.offset data i] ∧ Bag.cellsStart data + t.2 = Bag.offset data (i + 1) := by
  simp only [indexRound, bind_eq_ok, pure_eq_ok, mulWithin_eq_ok, addWithin_eq_ok] at h
  obtain ⟨-, -, -, -, -, -, _, ⟨-, rfl⟩, _, ⟨-, rfl⟩, entry, hentry, -, -, -, -, -, -, rfl⟩ := h
  obtain rfl := readBeUintAt_ok hentry
  refine ⟨by rw [hs], ?_⟩
  simp only [Bag.offset, Bag.indexEntry, if_pos hindex, hd.hasCacheBits, hd.offsetSize]

theorem scanRound_ok (hd : header.Describes data) (hindex : Bag.hasIndex data = false) {i : ℕ}
    {s t : List ℕ × ℕ} (hs : s.2 = Bag.offset data i) (h : scanRound R header data s i = .ok t) :
    t.1 = s.1 ++ [Bag.offset data i] ∧ t.2 = Bag.offset data (i + 1) := by
  simp only [scanRound, bind_eq_ok, pure_eq_ok, addWithin_eq_ok] at h
  obtain ⟨-, -, -, -, -, -, raw, hraw, d1, hd1, d2, hd2, _, ⟨-, rfl⟩, rfl⟩ := h
  refine ⟨by rw [hs], ?_⟩
  simp only [Bag.offset, hindex, Bool.false_eq_true, if_false, Bag.cellLen, ← hs, ← hd.refSize,
    index_drop_ok hraw hd2, ← index_drop_ok hraw hd1, Nat.add_zero]

theorem cellOffsets_ok {offsets : List ℕ} {start : ℕ} (hd : header.Describes data)
    (h : cellOffsets R header data (Bag.indexStart data) = .ok (offsets, start)) :
    offsets = (List.range (Bag.cellsCount data)).map (Bag.offset data) := by
  have hlisted (k : ℕ) (l : List ℕ) (hl : l = (List.range k).map (Bag.offset data)) :
      l ++ [Bag.offset data k] = (List.range (k + 1)).map (Bag.offset data) := by
    rw [hl, List.range_succ, List.map_append, List.map_singleton]
  rw [cellOffsets, hd.cellsCount, hd.indexIncluded] at h
  split_ifs at h with hindex
  · have hstart : Bag.indexStart data + Bag.cellsCount data * header.offsetSize =
        Bag.cellsStart data := by
      rw [Bag.cellsStart, if_pos hindex, hd.offsetSize]
    simp only [bind_eq_ok, pure_eq_ok, hstart] at h
    obtain ⟨-, -, -, -, ⟨list, last⟩, hloop, -, -, heq⟩ := h
    obtain ⟨rfl, -⟩ := Prod.mk.inj heq
    refine (foldlM_range (fun k (s : List ℕ × ℕ) => s.1 = (List.range k).map (Bag.offset data) ∧
      Bag.cellsStart data + s.2 = Bag.offset data k) ⟨rfl, rfl⟩ ?_ hloop).1
    rintro k - s t ⟨hlist, hs⟩ hround
    obtain ⟨ht, hnext⟩ := indexRound_ok hd hindex hs hround
    exact ⟨ht.trans (hlisted _ _ hlist), hnext⟩
  · have hfalse := Bool.not_eq_true _ ▸ hindex
    simp only [bind_eq_ok, pure_eq_ok] at h
    obtain ⟨⟨list, last⟩, hloop, -, -, -, -, heq⟩ := h
    obtain ⟨rfl, -⟩ := Prod.mk.inj heq
    refine (foldlM_range (fun k (s : List ℕ × ℕ) => s.1 = (List.range k).map (Bag.offset data) ∧
      s.2 = Bag.offset data k) ⟨rfl, ?_⟩ ?_ hloop).1
    · rw [Bag.offset, Bag.cellsStart, hfalse]
      rfl
    · rintro k - s t ⟨hlist, hs⟩ hround
      obtain ⟨ht, hnext⟩ := scanRound_ok hd hfalse hs hround
      exact ⟨ht.trans (hlisted _ _ hlist), hnext⟩

theorem prepare_ok {p : Prepared} (h : prepare R crc32 data = .ok p) :
    p.header.Describes data ∧
      p.offsets = (List.range (Bag.cellsCount data)).map (Bag.offset data) := by
  simp only [prepare, bind_eq_ok, pure_eq_ok] at h
  obtain ⟨⟨⟨header, flags⟩, cursor⟩, hheader, -, -, -, -, -, -, ⟨offsets, start⟩, hoffsets, _,
    -, rfl⟩ := h
  obtain ⟨hd, hpos⟩ := readHeader_ok hheader
  rw [hpos] at hoffsets
  exact ⟨hd, cellOffsets_ok hd hoffsets⟩

end TonNode.Boc
