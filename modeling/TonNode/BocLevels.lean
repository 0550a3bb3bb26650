import TonNode.CellBuilder

/-! The hashes and depths of a cell as the format defines them, for a cell as a bag holds
it, and that `compute_hashes` finds them. -/
namespace TonNode.Boc

open Guarded Cells

/-- A cell in a bag: its descriptor bytes, its data and the cells it refers to. -/
inductive Serialized where
  | mk (d1 d2 : UInt8) (data : Bytes) (refs : List Serialized)

namespace Serialized

def d1 : Serialized → UInt8
  | .mk d1 _ _ _ => d1

def d2 : Serialized → UInt8
  | .mk _ d2 _ _ => d2

def data : Serialized → Bytes
  | .mk _ _ data _ => data

def refs : Serialized → List Serialized
  | .mk _ _ _ refs => refs

def typeOf (d1 : UInt8) (data : Bytes) : CellType :=
  if exotic d1 then (data.head?.bind fun byte => (CellType.tryFrom byte).toOption).getD .unknown
  else .ordinary

def type (s : Serialized) : CellType := typeOf s.d1 s.data

section Hashes

variable (sha256 : Bytes → Bytes) (d1 d2 : UInt8) (data : Bytes)

/-- A hash and a depth from what is hashed first and those of the references. -/
def entry (mask : LevelMask) (first : Bytes) (refs : List (Bytes × ℕ)) : Bytes × ℕ :=
  (sha256 (calcD1 mask false (typeOf d1 data) refs.length :: d2 :: first ++
      (refs.map fun r => depthBytes r.2).flatten ++ (refs.map Prod.fst).flatten),
    refs.foldl (fun depth r => max depth (r.2 + 1)) 0)

def whole : Bytes := data.take ((bitLen d2 data + 7) / 8)

/-- Each level of the mask hashes the hash of the level below. -/
def atLevel (refs : ℕ → List (Bytes × ℕ)) : ℕ → Bytes × ℕ
  | 0 => entry sha256 d1 d2 data 0 (whole d2 data) (refs 0)
  | l + 1 =>
    if (levelMask d1).has l then
      entry sha256 d1 d2 data (LevelMask.withLevel (l + 1)) (atLevel refs l).1 (refs (l + 1))
    else atLevel refs l

/-- A pruned branch shows the hashes and depths of the levels below its own. -/
def prunedAt (level : ℕ) : Bytes × ℕ :=
  let mask := levelMask d1
  let i := mask.calcHashIndex level
  if i < mask.level then
    ((data.drop (2 + i * sha256Size)).take sha256Size,
      beUint ((data.drop (2 + mask.level * sha256Size + i * depthSize)).take depthSize))
  else entry sha256 d1 d2 data mask (whole d2 data) []

mutual

def hashDepth : Serialized → ℕ → Bytes × ℕ
  | .mk d1 d2 data refs, level =>
    if typeOf d1 data = .prunedBranch then prunedAt sha256 d1 d2 data level
    else atLevel sha256 d1 d2 data (fun l => hashDepths refs (childLevel (typeOf d1 data) l))
      (min level 3)

def hashDepths : List Serialized → ℕ → List (Bytes × ℕ)
  | [], _ => []
  | r :: rs, level => hashDepth r level :: hashDepths rs level

end

end Hashes

theorem hashDepths_eq_map (sha256 : Bytes → Bytes) (refs : List Serialized) (level : ℕ) :
    hashDepths sha256 refs level = refs.map fun r => hashDepth sha256 r level := by
  induction refs with
  | nil => rw [hashDepths, List.map_nil]
  | cons r rs ih => rw [hashDepths, ih, List.map_cons]

/-- Levels without a bit of the mask between them have the same hash. -/
theorem atLevel_eq (sha256 : Bytes → Bytes) (d1 d2 : UInt8) (data : Bytes)
    (refs : ℕ → List (Bytes × ℕ)) {j l : ℕ} (hle : j ≤ l)
    (hnone : ∀ i, j ≤ i → i < l → (levelMask d1).has i = false) :
    atLevel sha256 d1 d2 data refs l = atLevel sha256 d1 d2 data refs j := by
  induction l, hle using Nat.le_induction with
  | base => rfl
  | succ l hle ih =>
    rw [atLevel, hnone l hle (Nat.lt_succ_self l), if_neg Bool.false_ne_true]
    exact ih fun i hi hl => hnone i hi (Nat.lt_succ_of_lt hl)

end Serialized

section Levels

variable {sha256 : Bytes → Bytes} {limit : ℕ} {children : ℕ → ℕ → Guarded (Bytes × ℕ)}
  {kids : List (Bytes × ℕ)}

theorem hashChildren_eq {level : ℕ} {t : ℕ × List ℕ × List Bytes}
    (hkids : ∀ k e, kids[k]? = some e → children k level = .ok e)
    (h : (List.range kids.length).foldlM (hashChild limit children level) (0, [], []) = .ok t) :
    t = (kids.foldl (fun depth r => max depth (r.2 + 1)) 0, kids.map Prod.snd,
      kids.map Prod.fst) := by
  have hinv := foldlM_range (fun k (t : ℕ × List ℕ × List Bytes) =>
    t = ((kids.take k).foldl (fun depth r => max depth (r.2 + 1)) 0,
      (kids.take k).map Prod.snd, (kids.take k).map Prod.fst)) rfl ?_ h
  · rwa [List.take_length] at hinv
  · intro k hk t t' ht hstep
    simp only [hashChild, hkids k _ (List.getElem?_eq_getElem hk), require, bind_eq_ok, check_eq_ok,
      Checked.require_eq_ok, pure_eq_ok, addWithin_eq_ok, Except.ok.injEq, exists_eq_left'] at hstep
    obtain ⟨_, ⟨-, rfl⟩, -, -, rfl⟩ := hstep
    have htake : kids.take (k + 1) = kids.take k ++ [kids[k]] := by
      rw [List.take_add_one, List.getElem?_eq_getElem hk]
      rfl
    rw [ht, htake, List.foldl_append, List.map_append, List.map_append]
    rfl

variable {c : HashInput} {d1 : UInt8}

/-- The cell in memory is hashed under its own descriptor byte, which keeps the mask. -/
structure Keeps (c : HashInput) (d1 : UInt8) (refs : ℕ) : Prop where
  mask : levelMask c.d1 = levelMask d1
  refs : refsCount c.d1 = refs
  type : c.cellType = .ok (Serialized.typeOf d1 c.data)

theorem levelStart_zero {first : Bytes} (h : levelStart c [] 0 = .ok first) :
    first = Serialized.whole c.d2 c.data := by
  rw [levelStart, if_pos rfl, slice_eq_ok, List.drop_zero, Nat.sub_zero] at h
  rw [← h.2, Serialized.whole]
  congr 1
  by_cases hmod : bitLen c.d2 c.data % 8 = 0
  · simp only [hmod, ne_eq, not_true_eq_false, decide_false, Bool.toNat_false]
    omega
  · rw [decide_eq_true hmod, Bool.toNat_true]
    omega

theorem hashLevel_eq (hc : Keeps c d1 kids.length) {i : ℕ} {s t : List Bytes × List ℕ}
    (hskip : ¬ skipsLevel c (Serialized.typeOf d1 c.data) i)
    (hkids : ∀ k e, kids[k]? = some e →
      children k (childLevel (Serialized.typeOf d1 c.data) i) = .ok e)
    (h : hashLevel sha256 limit c (Serialized.typeOf d1 c.data) children s i = .ok t) :
    ∃ first e, levelStart c s.1 i = .ok first ∧ e = Serialized.entry sha256 d1 c.d2 c.data
      (if Serialized.typeOf d1 c.data = .prunedBranch then levelMask d1 else LevelMask.withLevel i)
      first kids ∧ t = (s.1 ++ [e.1], s.2 ++ [e.2]) := by
  rw [hashLevel, if_neg hskip, hc.refs] at h
  simp only [bind_eq_ok] at h
  obtain ⟨first, hfirst, p, hp, -, -, hwrite⟩ := h
  obtain rfl := hashChildren_eq hkids hp
  split_ifs at hwrite with hfits
  · refine ⟨first, _, hfirst, rfl, ?_⟩
    rw [pure_eq_ok] at hwrite
    rw [← hwrite, levelBytes, hc.refs, hc.mask, List.map_map]
    rfl
  · exact absurd hwrite (crash_ne_ok _ _)

/-- The state of the loop before level `i` of a cell that is not a pruned branch: the
entries of the levels with one below `i`, the last of them that of the level before. -/
def Filled (A : ℕ → Bytes × ℕ) (mask : LevelMask) (i : ℕ) (s : List Bytes × List ℕ) : Prop :=
  let levels := (List.range i).filter fun l => l = 0 ∨ mask.has (l - 1)
  s = (levels.map fun l => (A l).1, levels.map fun l => (A l).2) ∧
    (i ≠ 0 → s.1.getLast? = some (A (i - 1)).1)

theorem Filled.step (hc : Keeps c d1 kids.length)
    (hpruned : Serialized.typeOf d1 c.data ≠ .prunedBranch)
    {refs : ℕ → List (Bytes × ℕ)} {i : ℕ} (hrefs : refs i = kids)
    (hkids : ∀ k e, kids[k]? = some e →
      children k (childLevel (Serialized.typeOf d1 c.data) i) = .ok e) {s t : List Bytes × List ℕ}
    (hs : Filled (Serialized.atLevel sha256 d1 c.d2 c.data refs) (levelMask d1) i s)
    (h : hashLevel sha256 limit c (Serialized.typeOf d1 c.data) children s i = .ok t) :
    Filled (Serialized.atLevel sha256 d1 c.d2 c.data refs) (levelMask d1) (i + 1) t := by
  obtain ⟨hlist, hlast⟩ := hs
  have hiff : skipsLevel c (Serialized.typeOf d1 c.data) i ↔
      i ≠ 0 ∧ (levelMask d1).has (i - 1) = false := by
    simp [skipsLevel, hpruned, hc.mask]
  rw [Filled, List.range_succ, List.filter_append]
  by_cases hskip : skipsLevel c (Serialized.typeOf d1 c.data) i
  · obtain ⟨hi, hno⟩ := hiff.mp hskip
    obtain ⟨l, rfl⟩ := Nat.exists_eq_succ_of_ne_zero hi
    rw [hashLevel, if_pos hskip, pure_eq_ok] at h
    subst h
    rw [Nat.succ_sub_one] at hno hlast
    refine ⟨?_, fun _ => ?_⟩
    · simpa [hno] using hlist
    · rw [hlast hi, Nat.add_sub_cancel, Serialized.atLevel, hno, if_neg Bool.false_ne_true]
  · obtain ⟨first, e, hfirst, he, rfl⟩ := hashLevel_eq hc hskip hkids h
    rw [if_neg hpruned] at he
    have hbit : i = 0 ∨ (levelMask d1).has (i - 1) = true := by
      rw [hiff, not_and, Bool.not_eq_false] at hskip
      exact or_iff_not_imp_left.mpr hskip
    have hA : e = Serialized.atLevel sha256 d1 c.d2 c.data refs i := by
      cases i with
      | zero =>
        rw [hlist] at hfirst
        rw [he, levelStart_zero hfirst, Serialized.atLevel, hrefs]
        rfl
      | succ l =>
        rw [Nat.succ_sub_one] at hbit hlast
        have hone := hbit.resolve_left (Nat.succ_ne_zero l)
        rw [levelStart, if_neg (Nat.succ_ne_zero l), index_eq_ok, ← List.getLast?_eq_getElem?,
          hlast (Nat.succ_ne_zero l), Option.some.injEq] at hfirst
        rw [he, ← hfirst, Serialized.atLevel, if_pos hone, hrefs]
    have hfilter : List.filter (fun l => decide (l = 0 ∨ (levelMask d1).has (l - 1) = true)) [i] =
        [i] := by
      rw [List.filter_cons_of_pos (by simpa using hbit)]
      rfl
    rw [hfilter, hA, hlist]
    exact ⟨by simp, by simp⟩

theorem levels_at (mask : LevelMask) (level : Fin 4) : ∃ j : Fin 4, j ≤ level ∧
    ((List.range 4).filter fun l => decide (l = 0 ∨ mask.has (l - 1) = true))[
      mask.calcHashIndex level]? = some j.val ∧ ∀ i : Fin 4, j ≤ i → i < level →
        mask.has i = false := by
  decide +revert

variable {refs : ℕ → List (Bytes × ℕ)} {n : ℕ} {s : List Bytes × List ℕ}

/-- What the references answer, by the level of the cell. -/
def Answer (children : ℕ → ℕ → Guarded (Bytes × ℕ)) (type : CellType) (n : ℕ)
    (refs : ℕ → List (Bytes × ℕ)) : Prop :=
  ∀ l, (refs l).length = n ∧ ∀ k e, (refs l)[k]? = some e → children k (childLevel type l) = .ok e

theorem computeHashes_filled (hc : Keeps c d1 n)
    (hpruned : Serialized.typeOf d1 c.data ≠ .prunedBranch)
    (hrefs : Answer children (Serialized.typeOf d1 c.data) n refs)
    (h : computeHashes sha256 limit c children = .ok s) :
    Filled (Serialized.atLevel sha256 d1 c.d2 c.data refs) (levelMask d1) 4 s := by
  rw [computeHashes, hc.type] at h
  refine foldlM_range (n := 4) (fun i s => Filled (Serialized.atLevel sha256 d1 c.d2 c.data refs)
    (levelMask d1) i s) ⟨rfl, fun h => absurd rfl h⟩ ?_ h
  intro i _ s t hs hstep
  obtain ⟨hlen, hkids⟩ := hrefs i
  have hkeeps : Keeps c d1 (refs i).length := hlen ▸ hc
  exact hs.step hkeeps hpruned rfl hkids hstep

theorem Filled.hashDepth {mask : LevelMask} {A : ℕ → Bytes × ℕ} (hs : Filled A mask 4 s)
    (hA : ∀ j l, j ≤ l → (∀ i, j ≤ i → i < l → mask.has i = false) → A l = A j) {b : CellBuf}
    {type : CellType} (htype : b.cellType = .ok type) (hpruned : type ≠ .prunedBranch)
    (hmask : levelMask b.d1 = mask) (hhashes : b.hashes = s.1) (hdepths : b.depths = s.2)
    (level : ℕ) : b.hashDepth level = .ok (A (min level 3)) := by
  obtain ⟨j, hj, hat, hnone⟩ := levels_at mask ⟨min level 3, by omega⟩
  have hindex : mask.calcHashIndex level = mask.calcHashIndex (min level 3) := by
    simp [LevelMask.calcHashIndex]
  have hsame : A (min level 3) = A j := by
    refine hA j (min level 3) hj fun i hji hi => ?_
    exact hnone ⟨i, by omega⟩ hji hi
  have hhash : b.hashes[mask.calcHashIndex level]? = some (A (min level 3)).1 := by
    rw [hhashes, hs.1, hindex, List.getElem?_map, hat, hsame]
    rfl
  have hdepth : b.depths[mask.calcHashIndex level]? = some (A (min level 3)).2 := by
    rw [hdepths, hs.1, hindex, List.getElem?_map, hat, hsame]
    rfl
  rw [CellBuf.hashDepth, htype]
  simp only [Checked.ok_bind, hmask, hpruned, false_and, if_false, CellBuf.hashAt, CellBuf.depthAt]
  rw [if_pos (List.getElem?_eq_some_iff.mp hhash).1, if_pos (List.getElem?_eq_some_iff.mp hdepth).1,
    (index_eq_ok _ _ _).mpr hhash, (index_eq_ok _ _ _).mpr hdepth]
  rfl

theorem computeHashes_pruned (hc : Keeps c d1 0)
    (hpruned : Serialized.typeOf d1 c.data = .prunedBranch)
    (h : computeHashes sha256 limit c children = .ok s) :
    s = ([(Serialized.entry sha256 d1 c.d2 c.data (levelMask d1)
        (Serialized.whole c.d2 c.data) []).1], [0]) := by
  have hskip (i : ℕ) (hi : i ≠ 0) : skipsLevel c (Serialized.typeOf d1 c.data) i :=
    ⟨hi, .inl hpruned⟩
  have hpass (i : ℕ) (hi : i ≠ 0) (t : List Bytes × List ℕ) :
      hashLevel sha256 limit c (Serialized.typeOf d1 c.data) children t i = .ok t := by
    rw [hashLevel, if_pos (hskip i hi)]
    rfl
  rw [computeHashes, hc.type] at h
  change [0, 1, 2, 3].foldlM (hashLevel sha256 limit c _ children) ([], []) = .ok s at h
  rw [List.foldlM_cons, bind_eq_ok] at h
  obtain ⟨t, ht, hrest⟩ := h
  simp only [List.foldlM_cons, List.foldlM_nil, hpass 1 one_ne_zero, hpass 2 two_ne_zero,
    hpass 3 three_ne_zero, Checked.ok_bind, pure_eq_ok] at hrest
  subst hrest
  have hkeeps : Keeps c d1 ([] : List (Bytes × ℕ)).length := hc
  obtain ⟨first, e, hfirst, he, rfl⟩ := hashLevel_eq hkeeps (by simp [skipsLevel]) (by simp) ht
  rw [if_pos hpruned] at he
  rw [he, levelStart_zero hfirst]
  rfl

theorem beUint_pair (a b : UInt8) : beUint [a, b] = a.toNat * 256 + b.toNat := by
  simp [beUint]

theorem prunedDepth_eq {data : Bytes} {lvl i : ℕ}
    (h : 1 + 1 + lvl * sha256Size + i * depthSize + 1 < data.length) :
    prunedDepth data lvl i =
      .ok (beUint ((data.drop (2 + lvl * sha256Size + i * depthSize)).take depthSize)) := by
  rw [prunedDepth, index_of_lt h, index_of_lt (Nat.lt_of_succ_lt h)]
  simp only [sha256Size, depthSize] at h ⊢
  rw [List.drop_eq_getElem_cons (by omega), List.drop_eq_getElem_cons (by omega), List.take_succ_cons,
    List.take_succ_cons, List.take_zero, beUint_pair]
  rfl

theorem hashDepth_pruned {b : CellBuf} {e : Bytes × ℕ} (htype : b.cellType = .ok .prunedBranch)
    (hmask : levelMask b.d1 = levelMask d1) (hhashes : b.hashes = [e.1]) (hdepths : b.depths = [e.2])
    (hroom : 2 + (levelMask d1).level * (sha256Size + depthSize) ≤ b.data.length) (level : ℕ) :
    b.hashDepth level = .ok (if (levelMask d1).calcHashIndex level < (levelMask d1).level then
      ((b.data.drop (2 + (levelMask d1).calcHashIndex level * sha256Size)).take sha256Size,
        beUint ((b.data.drop (2 + (levelMask d1).level * sha256Size +
          (levelMask d1).calcHashIndex level * depthSize)).take depthSize))
      else e) := by
  rw [CellBuf.hashDepth, htype]
  simp only [Checked.ok_bind, hmask, true_and, if_true]
  simp only [sha256Size, depthSize] at hroom
  split_ifs with hlow
  · have hslice : slice b.data (1 + 1 + (levelMask d1).calcHashIndex level * sha256Size)
        (1 + 1 + (levelMask d1).calcHashIndex level * sha256Size + sha256Size) =
          .ok ((b.data.drop (2 + (levelMask d1).calcHashIndex level * sha256Size)).take
              sha256Size) := by
      rw [slice_eq_ok, Nat.add_sub_cancel_left]
      refine ⟨⟨Nat.le_add_right _ _, ?_⟩, rfl⟩
      simp only [sha256Size]
      omega
    rw [hslice, prunedDepth_eq (by simp only [sha256Size, depthSize]; omega)]
    rfl
  · rw [CellBuf.hashAt, CellBuf.depthAt, hhashes, hdepths]
    rfl

end Levels

end TonNode.Boc
