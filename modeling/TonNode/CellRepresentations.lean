import TonNode.CellBuilder

/-! The representations of a cell that answer for another one: a cell rebuilt around a
loader of its children, a cell that records its use, a pruned branch, and a cell that is
loaded on demand from a pruned branch. Each keeps a list of hashes and depths and a level
mask, and finds the entry of a level by counting bits of the mask. -/
namespace TonNode

namespace Cells

namespace LevelMask

def isSignificantIndex (m : LevelMask) (index : ℕ) : Bool :=
  decide (index = 0 ∨ m &&& withLevel index ≠ 0)

def significantLevels (m : LevelMask) : List ℕ := 0 :: [1, 2, 3].filter fun i => m.has (i - 1)

/-- The loop that takes the next significant index until it has `count` of them. `none`: the
rounds did not suffice. -/
def takeLevels (m : LevelMask) (count : ℕ) : ℕ → ℕ → List ℕ → Option (List ℕ)
  | rounds, i, taken =>
    if count ≤ taken.length then some taken
    else match rounds with
      | 0 => none
      | rounds + 1 =>
        m.takeLevels count rounds (i + 1) (if m.isSignificantIndex i then taken ++ [i] else taken)

end LevelMask

end Cells

namespace Boc

open Guarded Cells

namespace Cell

variable (c : Cell)

def levelMask : LevelMask := Cells.levelMask c.buf.d1

def hashDepth (index : ℕ) : Guarded (Bytes × ℕ) := c.buf.hashDepth index

def taken (count : ℕ) : Guarded (List (Bytes × ℕ)) :=
  match c.levelMask.takeLevels count 4 0 [] with
  | some levels => levels.mapM c.hashDepth
  | none => crash "endless loop"

def hashes : Guarded (List Bytes) := do
  let entries ← c.taken (c.levelMask.level + 1)
  pure (entries.map Prod.fst)

def depths : Guarded (List ℕ) := do
  let entries ← c.taken (c.levelMask.level + 1)
  pure (entries.map Prod.snd)

def hashCount (type : CellType) : ℕ :=
  if type ≠ .ordinary ∧ refsCount c.buf.d1 = 0 ∧ c.levelMask.level ≠ 0 then 1
  else c.levelMask.level + 1

/-- The data of a pruned branch already has the hashes and depths but the last. -/
def written (type : CellType) : Guarded (List (Bytes × ℕ)) :=
  if type = .prunedBranch then do
    let repr ← c.hashDepth maxLevel
    pure [repr]
  else c.taken (c.hashCount type)

def withCellAndLoader : Guarded CellBuf := do
  let type ← c.buf.cellType
  let entries ← c.written type
  pure ⟨calcD1 c.levelMask true type (refsCount c.buf.d1), c.buf.d2, c.buf.data,
    entries.map Prod.fst, entries.map Prod.snd⟩

end Cell

structure UsageCell where
  inner : Cell

def UsageCell.levelMask (u : UsageCell) : LevelMask := u.inner.levelMask

def UsageCell.hashDepth (u : UsageCell) (index : ℕ) : Guarded (Bytes × ℕ) := u.inner.hashDepth index

/-- The data of a pruned branch, whose bytes are the mask, the hashes and then the depths. -/
structure PrunedBranch where
  mask : LevelMask
  hashes : List Bytes
  depths : List ℕ

def addOneHash (mask : LevelMask) (depth : ℕ) : Checked LevelMask :=
  if 2 < depth then .error "depth"
  else if mask.has depth then .error "attempt to add hash with depth into mask"
  else .ok (mask ||| BitVec.ofNat 3 (2 ^ depth))

def makePrunedBranchCell (c : Cell) (merkleDepth : ℕ) : Guarded PrunedBranch := do
  let mask ← check (addOneHash c.levelMask merkleDepth)
  let hashes ← c.hashes
  let depths ← c.depths
  pure ⟨mask, hashes, depths⟩

structure LazyLoadCell where
  levelMask : LevelMask
  hashes : List Bytes
  depths : List ℕ

def LazyLoadCell.hashDepth (l : LazyLoadCell) (index : ℕ) : Guarded (Bytes × ℕ) := do
  let h ← Guarded.index l.hashes (l.levelMask.calcHashIndex index)
  let d ← Guarded.index l.depths (l.levelMask.calcHashIndex index)
  pure (h, d)

def lazyFromPruned (pruned : PrunedBranch) (merkleDepth : ℕ) : Guarded LazyLoadCell := do
  require (merkleDepth ≤ 2) "lazy_from_pruned: merkle_depth > 2"
  require (pruned.mask.has merkleDepth) "lazy_from_pruned: pruning bit not set in mask"
  let mask := pruned.mask &&& ~~~(BitVec.ofNat 3 (2 ^ merkleDepth))
  require (mask.level + 1 ≤ pruned.hashes.length ∧ mask.level + 1 ≤ pruned.depths.length)
    "pruned data too short"
  pure ⟨mask, pruned.hashes.take (mask.level + 1), pruned.depths.take (mask.level + 1)⟩

/-- A level mask and answers for the levels that are those of the cell. -/
def Cell.AnsweredBy (c : Cell) (mask : LevelMask) (hashDepth : ℕ → Guarded (Bytes × ℕ)) : Prop :=
  mask = c.levelMask ∧ ∀ i ≤ maxLevel, hashDepth i = c.hashDepth i

/-- The other representations answer like the cell. -/
structure Cell.Represented (c : Cell) : Prop where
  listed : ∃ entries, c.levelMask.significantLevels.mapM c.hashDepth = .ok entries ∧
    entries.getLast?.map .ok = some (c.hashDepth maxLevel) ∧
    c.hashes = .ok (entries.map Prod.fst) ∧ c.depths = .ok (entries.map Prod.snd) ∧
    ∀ depth pruned, makePrunedBranchCell c depth = .ok pruned →
      pruned.hashes = entries.map Prod.fst ∧ pruned.depths = entries.map Prod.snd
  loaded : ∃ buf, c.withCellAndLoader = .ok buf ∧
    c.AnsweredBy (Cells.levelMask buf.d1) buf.hashDepth
  usage : c.AnsweredBy (UsageCell.mk c).levelMask (UsageCell.mk c).hashDepth
  lazy : ∀ depth pruned, makePrunedBranchCell c depth = .ok pruned →
    ∃ l, lazyFromPruned pruned depth = .ok l ∧ c.AnsweredBy l.levelMask l.hashDepth

/-- The cells that `into_cell` returns, from references that it returned before. -/
inductive Built (sha256 : Bytes → Bytes) (limit : ℕ) : Cell → Prop
  | mk {b : BuilderData} {c : Cell} (hrefs : ∀ r ∈ b.references, Built sha256 limit r)
      (h : finalize sha256 limit b = .ok c) : Built sha256 limit c

section

variable {sha256 : Bytes → Bytes} {limit : ℕ} (hlimit : limit ≤ maxDepth) {c : Cell}
  (h : Built sha256 limit c)
include hlimit h

/-- The type in the data may be another than that of the builder, so that a library
reference with a level can be built. -/
theorem Built.sound_or_spilled :
    (c.buf.Sound ∧ ∀ type, c.buf.cellType = .ok type → type ≠ .prunedBranch →
      c.hashCount type = c.levelMask.level + 1) ∨ c.buf.Spilled := by
  cases h with
  | @mk b _ _ h =>
    simp only [finalize, bind_eq_ok, pure_eq_ok] at h
    obtain ⟨mask, -, raw, -, buf, hbuf, rfl⟩ := h
    rcases withDataAndRefs_ok hlimit hbuf with ⟨hsound, hleaf⟩ | hspilled
    · refine .inl ⟨hsound, fun type htype hpruned => if_neg ?_⟩
      rintro ⟨hexotic, hrefs, hlevel⟩
      exact hpruned (hleaf type htype hexotic hrefs hlevel)
    · exact .inr hspilled

theorem Built.exists_answers : ∃ E : ℕ → Bytes × ℕ, ∀ i, c.hashDepth i = .ok (E i) := by
  have hall (i : ℕ) : ∃ e, c.hashDepth i = .ok e := by
    rcases h.sound_or_spilled hlimit with ⟨hsound, -⟩ | hspilled
    · obtain ⟨e, he, -⟩ := hsound.hashDepth_ok i
      exact ⟨e, he⟩
    · exact hspilled.hashDepth_ok i
  exact Classical.skolem.mp hall

end

section Levels

variable (m : LevelMask)

theorem takeLevels_eq : m.takeLevels (m.level + 1) 4 0 [] =
    some (if m = 5 then [0, 1, 2] else m.significantLevels) := by
  decide +revert

theorem calcHashIndex_zero : m.calcHashIndex 0 = 0 := by
  decide +revert

theorem calcHashIndex_maxLevel : m.calcHashIndex maxLevel = m.level := by
  decide +revert

/-- The levels with a hash of their own stand in the order of their hashes. -/
theorem significantLevels_at (i : Fin 4) : ∃ j : Fin 4,
    m.significantLevels[m.calcHashIndex i]? = some j.val ∧
      m.calcHashIndex j = m.calcHashIndex i := by
  decide +revert

theorem length_significantLevels : m.significantLevels.length = m.level + 1 := by
  decide +revert

theorem getLast?_significantLevels : ∃ i : Fin 4,
    m.significantLevels.getLast? = some i.val ∧ m.calcHashIndex i = m.level := by
  decide +revert

end Levels

section Answers

variable {c : Cell} {entries : List (Bytes × ℕ)}

theorem index_pair {k : ℕ} {e : Bytes × ℕ} (h : entries[k]? = some e) :
    (do
      let h ← Guarded.index (entries.map Prod.fst) k
      let d ← Guarded.index (entries.map Prod.snd) k
      pure (h, d)) = .ok e := by
  have hh : Guarded.index (entries.map Prod.fst) k = .ok e.1 := by simp [h]
  have hd : Guarded.index (entries.map Prod.snd) k = .ok e.2 := by simp [h]
  rw [hh, hd]
  rfl

theorem entry_pair {k : ℕ} {e : Bytes × ℕ} (h : entries[k]? = some e) {b : CellBuf}
    (hhashes : b.hashes = entries.map Prod.fst) (hdepths : b.depths = entries.map Prod.snd) :
    (do
      let h ← b.hashAt k
      let d ← b.depthAt k
      pure (h, d)) = .ok e := by
  have hk := (List.getElem?_eq_some_iff.mp h).1
  rw [CellBuf.hashAt, CellBuf.depthAt, hhashes, hdepths, if_pos (by simpa using hk),
    if_pos (by simpa using hk)]
  exact index_pair h

theorem mask_without_added {mask added : LevelMask} {depth : ℕ}
    (h : addOneHash mask depth = .ok added) :
    depth ≤ 2 ∧ added.has depth = true ∧ added &&& ~~~(BitVec.ofNat 3 (2 ^ depth)) = mask := by
  rw [addOneHash] at h
  split_ifs at h with hdepth hfree
  cases h
  have hall : ∀ (depth : Fin 3) (mask : LevelMask), mask.has depth ≠ true →
      (mask ||| BitVec.ofNat 3 (2 ^ depth.val)).has depth = true ∧
        (mask ||| BitVec.ofNat 3 (2 ^ depth.val)) &&& ~~~(BitVec.ofNat 3 (2 ^ depth.val)) = mask := by
    decide
  exact ⟨Nat.le_of_not_lt hdepth, hall ⟨depth, by omega⟩ mask hfree⟩

theorem makePruned_of_taken (htaken : c.taken (c.levelMask.level + 1) = .ok entries) {depth : ℕ}
    {pruned : PrunedBranch} (h : makePrunedBranchCell c depth = .ok pruned) :
    addOneHash c.levelMask depth = .ok pruned.mask ∧ pruned.hashes = entries.map Prod.fst ∧
      pruned.depths = entries.map Prod.snd := by
  simp only [makePrunedBranchCell, Cell.hashes, Cell.depths, htaken, bind_eq_ok, check_eq_ok,
    pure_eq_ok] at h
  obtain ⟨mask, hmask, _, ⟨_, h1, rfl⟩, _, ⟨_, h2, rfl⟩, rfl⟩ := h
  cases h1
  cases h2
  exact ⟨hmask, rfl, rfl⟩

theorem cellType_loaded {b : CellBuf} {type : CellType} (h : b.cellType = .ok type)
    (hashes : List Bytes) (depths : List ℕ) :
    CellBuf.cellType ⟨calcD1 (levelMask b.d1) true type (refsCount b.d1), b.d2, b.data, hashes,
      depths⟩ = .ok type := by
  rw [CellBuf.cellType, exotic_calcD1 _ _ _ (Nat.lt_succ_of_le (refsCount_le b.d1))]
  by_cases hordinary : type = .ordinary
  · rw [if_pos (by simp [hordinary]), hordinary]
    rfl
  · rw [CellBuf.cellType] at h
    split_ifs at h with hexotic
    · cases h
      exact absurd rfl hordinary
    · rw [if_neg (by simp [hordinary])]
      exact h

theorem loaded_spilled (h : c.buf.Spilled) :
    ∃ buf, c.withCellAndLoader = .ok buf ∧ c.AnsweredBy (levelMask buf.d1) buf.hashDepth := by
  obtain ⟨hash, hhash⟩ := List.length_eq_one_iff.mp h.hashes_length
  obtain ⟨depth, hdepth⟩ := List.length_eq_one_iff.mp h.depths_length
  have hfirst : c.hashDepth 0 = .ok (hash, depth) := by
    rw [Cell.hashDepth, CellBuf.hashDepth, h.type_eq, calcHashIndex_zero]
    simp only [CellBuf.hashAt, CellBuf.depthAt, hhash, hdepth]
    rfl
  have hrefs : refsCount c.buf.d1 = 0 := by
    rw [h.d1_eq, refsCount_calcD1 _ _ _ (by omega)]
  have hcount : c.hashCount .unknown = 1 := if_pos ⟨by simp, hrefs, h.level_ne⟩
  have hlevels : c.levelMask.takeLevels 1 4 0 [] = some [0] := by
    simp [LevelMask.takeLevels, LevelMask.isSignificantIndex]
  have hbuf : c.withCellAndLoader = .ok c.buf := by
    rw [Cell.withCellAndLoader, h.type_eq]
    simp only [Checked.ok_bind, Cell.written, Cell.taken, hcount, hlevels]
    rw [if_neg (by simp), List.mapM_cons, List.mapM_nil, hfirst, hrefs]
    change Except.ok (CellBuf.mk (calcD1 c.levelMask true .unknown 0) c.buf.d2 c.buf.data [hash]
      [depth]) = .ok c.buf
    -- both types set the same bit of the descriptor byte
    have hd1 : calcD1 c.levelMask true .unknown 0 = c.buf.d1 := h.d1_eq.symm
    rw [hd1, ← hhash, ← hdepth]
  exact ⟨c.buf, hbuf, rfl, fun _ _ => rfl⟩

variable {E : ℕ → Bytes × ℕ} (hE : ∀ i, c.hashDepth i = .ok (E i))

include hE

theorem answers_congr {i j : ℕ}
    (h : c.levelMask.calcHashIndex i = c.levelMask.calcHashIndex j) : E i = E j := by
  have hsame : c.hashDepth i = c.hashDepth j := by
    rw [Cell.levelMask] at h
    rw [Cell.hashDepth, Cell.hashDepth, CellBuf.hashDepth, CellBuf.hashDepth, h]
  rw [hE, hE] at hsame
  exact Except.ok.inj hsame

theorem mapM_answers (levels : List ℕ) : levels.mapM c.hashDepth = .ok (levels.map E) := by
  rw [funext hE]
  exact List.mapM_pure

theorem taken_eq : c.taken (c.levelMask.level + 1) =
    .ok ((if c.levelMask = 5 then [0, 1, 2] else c.levelMask.significantLevels).map E) := by
  rw [Cell.taken, takeLevels_eq]
  exact mapM_answers hE _

/-- Where the loop takes an index without a hash of its own, the entry of the last level is
missing. -/
theorem answers_of_taken (h : c.levelMask = 5 → c.hashDepth 1 = c.hashDepth 3) :
    c.taken (c.levelMask.level + 1) = .ok (c.levelMask.significantLevels.map E) := by
  rw [taken_eq hE]
  by_cases hm : c.levelMask = 5
  · have h12 : E 1 = E 2 := answers_congr hE (by rw [hm]; rfl)
    have h13 := h hm
    rw [hE, hE, Except.ok.injEq] at h13
    have hlevels : c.levelMask.significantLevels = [0, 1, 3] := by
      rw [hm]
      rfl
    rw [if_pos hm, hlevels]
    simp [← h12, h13]
  · rw [if_neg hm]

theorem answer_at {i : ℕ} (hi : i ≤ maxLevel) :
    (c.levelMask.significantLevels.map E)[c.levelMask.calcHashIndex i]? = some (E i) := by
  obtain ⟨j, hj, hsame⟩ := significantLevels_at c.levelMask ⟨i, Nat.lt_succ_of_le hi⟩
  rw [List.getElem?_map, hj, Option.map_some, answers_congr hE hsame]

theorem lazy_answers
    (htaken : c.taken (c.levelMask.level + 1) = .ok (c.levelMask.significantLevels.map E))
    {depth : ℕ} {pruned : PrunedBranch} (hpruned : makePrunedBranchCell c depth = .ok pruned) :
    ∃ l, lazyFromPruned pruned depth = .ok l ∧ c.AnsweredBy l.levelMask l.hashDepth := by
  obtain ⟨hadd, hhashes, hdepths⟩ := makePruned_of_taken htaken hpruned
  obtain ⟨hdepth, hbit, hmask⟩ := mask_without_added hadd
  have hlength : (c.levelMask.significantLevels.map E).length = c.levelMask.level + 1 := by
    rw [List.length_map, length_significantLevels]
  refine ⟨⟨c.levelMask, pruned.hashes, pruned.depths⟩, ?_, rfl, ?_⟩
  · simp only [lazyFromPruned, hmask, bind_eq_ok, require, check_eq_ok, Checked.require_eq_ok]
    refine ⟨(), hdepth, (), hbit, (), ?_, ?_⟩
    · simp only [hhashes, hdepths, List.length_map, hlength, le_refl, and_self]
    · rw [List.take_of_length_le (by rw [hhashes, List.length_map, hlength]),
        List.take_of_length_le (by rw [hdepths, List.length_map, hlength])]
      rfl
  · intro i hi
    rw [LazyLoadCell.hashDepth, hhashes, hdepths, hE]
    exact index_pair (answer_at hE hi)

theorem loaded_answers (h : c.buf.Sound)
    (hcount : ∀ type, c.buf.cellType = .ok type → type ≠ .prunedBranch →
      c.hashCount type = c.levelMask.level + 1)
    (htaken : c.taken (c.levelMask.level + 1) = .ok (c.levelMask.significantLevels.map E)) :
    ∃ buf, c.withCellAndLoader = .ok buf ∧ c.AnsweredBy (levelMask buf.d1) buf.hashDepth := by
  obtain ⟨type, htype, -⟩ := h.typed
  have hmask := levelMask_calcD1 (levelMask c.buf.d1) true type
    (Nat.lt_succ_of_le (refsCount_le c.buf.d1))
  have hwritten : ∃ entries, c.written type = .ok entries ∧ ∀ i ≤ maxLevel,
      (type = .prunedBranch → c.levelMask.level ≤ c.levelMask.calcHashIndex i) →
      entries[if type = .prunedBranch then 0 else c.levelMask.calcHashIndex i]? = some (E i) := by
    rw [Cell.written]
    split_ifs with hpruned
    · refine ⟨[E maxLevel], by rw [hE]; rfl, fun i _ hlevel => congrArg some ?_⟩
      refine answers_congr hE ?_
      rw [calcHashIndex_maxLevel]
      exact le_antisymm (hlevel hpruned) (c.levelMask.calcHashIndex_le i)
    · rw [hcount type htype hpruned]
      exact ⟨_, htaken, fun i hi _ => answer_at hE hi⟩
  obtain ⟨entries, hentries, hat⟩ := hwritten
  refine ⟨_, bind_eq_ok.mpr ⟨type, htype, bind_eq_ok.mpr ⟨entries, hentries, rfl⟩⟩, hmask, ?_⟩
  intro i hi
  have hc := hE i
  simp only [Cell.hashDepth, CellBuf.hashDepth, htype, Checked.ok_bind] at hc
  simp only [hE, Cell.levelMask, CellBuf.hashDepth, cellType_loaded htype, Checked.ok_bind, hmask]
  by_cases hlow : type = .prunedBranch ∧
      (levelMask c.buf.d1).calcHashIndex i < (levelMask c.buf.d1).level
  · rw [if_pos hlow] at hc ⊢
    exact hc
  · rw [if_neg hlow]
    have hentry := hat i hi fun hpruned => Nat.le_of_not_lt fun hlt => hlow ⟨hpruned, hlt⟩
    exact entry_pair hentry rfl rfl

/-- Where the list has the entry of every significant level, levels 1 and 3 of a cell of mask
5 cannot be told apart. -/
theorem answers_of_represented (hrep : c.Represented) (hm : c.levelMask = 5) :
    c.hashDepth 1 = c.hashDepth 3 := by
  obtain ⟨entries, hlist, -, hhashes, hdepths, -⟩ := hrep.listed
  rw [mapM_answers hE, Except.ok.injEq] at hlist
  rw [← hlist, Cell.hashes, taken_eq hE, if_pos hm] at hhashes
  rw [← hlist, Cell.depths, taken_eq hE, if_pos hm] at hdepths
  have h12 : E 1 = E 2 := answers_congr hE (by rw [hm]; rfl)
  have hlevels : c.levelMask.significantLevels = [0, 1, 3] := by
    rw [hm]
    rfl
  have h := (List.zip_of_prod (Except.ok.inj hhashes) (Except.ok.inj hdepths)).trans
    (List.zip_of_prod rfl rfl).symm
  rw [hlevels] at h
  simp only [List.map_cons, List.map_nil, List.cons.injEq, and_true, true_and] at h
  rw [hE, hE, h12, h]

end Answers

/-- The cells of every representation answer like the built cell they stand for, unless the
built cell has level mask 5 and its entries of levels 1 and 3 differ. -/
theorem represented_iff {sha256 : Bytes → Bytes} {limit : ℕ} (hlimit : limit ≤ maxDepth) {c : Cell}
    (h : Built sha256 limit c) :
    c.Represented ↔ (c.levelMask = 5 → c.hashDepth 1 = c.hashDepth 3) := by
  obtain ⟨E, hE⟩ := h.exists_answers hlimit
  constructor
  · exact answers_of_represented hE
  · intro hcond
    have htaken := answers_of_taken hE hcond
    have hloaded : ∃ buf, c.withCellAndLoader = .ok buf ∧
        c.AnsweredBy (levelMask buf.d1) buf.hashDepth := by
      rcases h.sound_or_spilled hlimit with ⟨hsound, hcount⟩ | hspilled
      · exact loaded_answers hE hsound hcount htaken
      · exact loaded_spilled hspilled
    refine ⟨⟨_, mapM_answers hE _, ?_, ?_, ?_, ?_⟩, hloaded, ⟨rfl, fun _ _ => rfl⟩,
      fun depth pruned => lazy_answers hE htaken⟩
    · obtain ⟨i, hlast, hi⟩ := getLast?_significantLevels c.levelMask
      rw [List.getLast?_map, hlast, hE, ← answers_congr hE (hi.trans (calcHashIndex_maxLevel _).symm)]
      rfl
    · rw [Cell.hashes, htaken]
      rfl
    · rw [Cell.depths, htaken]
      rfl
    · intro depth pruned hpruned
      exact (makePruned_of_taken htaken hpruned).2

/-- A pruned branch of mask 5 in which all hashes and depths are the same. -/
def evenBranch : BuilderData := ⟨[1, 5] ++ List.replicate 68 0, 560, [], .prunedBranch⟩

theorem evenBranch_represented : ∃ c, Built (fun _ => List.replicate 32 0) maxDepth c ∧
    c.levelMask = 5 ∧ c.Represented := by
  have hbuilt : Built (fun _ => List.replicate 32 0) maxDepth
      (.mk ⟨calcD1 5 true .prunedBranch 0, 140, evenBranch.data, [List.replicate 32 0], [0]⟩ []) :=
    .mk (b := evenBranch) (by simp [evenBranch]) rfl
  exact ⟨_, hbuilt, rfl, (represented_iff le_rfl hbuilt).mpr fun _ => rfl⟩

def sparseBranch : BuilderData := ⟨[1, 5] ++ List.replicate 67 0 ++ [7], 560, [], .prunedBranch⟩

/-- A pruned branch of mask 5 whose data gives depth 7 for level 1. -/
theorem sparseBranch_not_represented : ∃ c, Built (fun _ => []) maxDepth c ∧
    c.levelMask = 5 ∧ ¬ c.Represented := by
  have hbuilt : Built (fun _ => []) maxDepth
      (.mk ⟨calcD1 5 true .prunedBranch 0, 140, sparseBranch.data, [[]], [0]⟩ []) :=
    .mk (b := sparseBranch) (by simp [sparseBranch]) rfl
  refine ⟨_, hbuilt, rfl, fun hrep => ?_⟩
  obtain ⟨E, hE⟩ := hbuilt.exists_answers le_rfl
  exact absurd (answers_of_represented hE hrep rfl) (by decide)

end Boc

end TonNode
