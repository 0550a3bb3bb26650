import TonNode.CellData

/-! When the functions on the bytes of a cell do not crash. Checking bytes never does.
Computing the hashes of checked bytes may for one kind of cell: a library reference with
a level, for which `hashes_count` makes room for one hash only. With one level the second
hash is written over the cell itself, with more the hashes do not fit into its block. -/
namespace TonNode

namespace Guarded

variable {α : Type}

variable {l : List α}

theorem index_of_lt {i : ℕ} (h : i < l.length) : index l i = .ok l[i] :=
  (index_eq_ok l i _).mpr (List.getElem?_eq_getElem h)

theorem Safe.index {i : ℕ} (h : i < l.length) : Safe (index l i) fun a => l[i]? = some a :=
  ⟨(noCrash_index l i).mpr h, fun a ha => (index_eq_ok l i a).mp ha⟩

theorem Safe.slice {start stop : ℕ} (hle : start ≤ stop) (hstop : stop ≤ l.length) :
    Safe (slice l start stop) fun r => r = (l.drop start).take (stop - start) :=
  ⟨(noCrash_slice l start stop).mpr ⟨hle, hstop⟩,
    fun r hr => ((slice_eq_ok l start stop r).mp hr).2.symm⟩

variable {a b : ℕ}

theorem Safe.addWithin {width : ℕ} (h : a + b < 2 ^ width) :
    Safe (addWithin width a b) fun c => c = a + b :=
  ⟨(noCrash_addWithin width a b).mpr h, fun c hc => ((addWithin_eq_ok width a b c).mp hc).2.symm⟩

theorem Safe.forM {f : α → Guarded Unit} {post : α → Prop}
    (h : ∀ a ∈ l, Safe (f a) fun _ => post a) : Safe (forM l f) fun _ => ∀ a ∈ l, post a := by
  constructor
  · refine noCrash_forM.mpr ?_
    intro done a todo hl _
    exact (h a (by rw [hl]; simp)).1
  · intro u hu a ha
    exact (h a ha).2 () (forM_eq_ok.mp hu a ha)

theorem Safe.mapM {β : Type} {f : α → Guarded β} {P : β → Prop} (h : ∀ a ∈ l, Safe (f a) P) :
    Safe (l.mapM f) fun r => r.length = l.length ∧ ∀ b ∈ r, P b := by
  induction l with
  | nil => exact Safe.pure ⟨rfl, nofun⟩
  | cons a l ih =>
    obtain ⟨ha, hl⟩ := List.forall_mem_cons.mp h
    rw [List.mapM_cons]
    refine ha.bind fun b _ hb => (ih hl).bind fun r _ hr => Safe.pure ⟨?_, ?_⟩
    · rw [List.length_cons, List.length_cons, hr.1]
    · exact List.forall_mem_cons.mpr ⟨hb, hr.2⟩

end Guarded

namespace Cells

open Guarded

theorem Safe.require {c : Prop} [Decidable c] {text : String} : Safe (require c text) fun _ => c :=
  Safe.check.mono fun _ _ h => (Checked.require_eq_ok c text ()).mp h

theorem LevelMask.level_le (m : LevelMask) : m.level ≤ 3 := by
  rw [LevelMask.level]
  omega

theorem LevelMask.calcHashIndex_le (m : LevelMask) (index : ℕ) :
    m.calcHashIndex index ≤ m.level := by
  have hsub : ∀ m w : LevelMask, (m &&& w).level ≤ m.level := by decide
  exact hsub m _

theorem hashesCount_pos (d1 : UInt8) : 0 < hashesCount d1 := by
  rw [hashesCount]
  split_ifs
  · exact Nat.one_pos
  · exact Nat.succ_pos _

theorem refsCount_le (d1 : UInt8) : refsCount d1 ≤ 7 := by
  rw [refsCount]
  omega

section Descriptor

variable (mask : LevelMask) (stored : Bool) (type : CellType) {refs : ℕ}

variable (h : refs < 8)
include h

theorem calcD1_toNat : (calcD1 mask stored type refs).toNat =
    mask.toNat * 32 + stored.toNat * 16 + (decide (type ≠ .ordinary)).toNat * 8 + refs := by
  have hmask : mask.toNat < 8 := mask.isLt
  have hstored := Bool.toNat_le stored
  have hexotic := Bool.toNat_le (decide (type ≠ .ordinary))
  rw [calcD1, UInt8.toNat_ofNat']
  exact Nat.mod_eq_of_lt (by omega)

@[simp] theorem levelMask_calcD1 : levelMask (calcD1 mask stored type refs) = mask := by
  have hmask : mask.toNat < 8 := mask.isLt
  have hstored := Bool.toNat_le stored
  have hexotic := Bool.toNat_le (decide (type ≠ .ordinary))
  have hdiv : (calcD1 mask stored type refs).toNat / 32 = mask.toNat := by
    rw [calcD1_toNat mask stored type h]
    omega
  rw [levelMask, hdiv, LevelMask.withMask, if_pos (by omega), BitVec.ofNat_toNat, BitVec.setWidth_eq]

@[simp] theorem refsCount_calcD1 : refsCount (calcD1 mask stored type refs) = refs := by
  rw [refsCount, calcD1_toNat mask stored type h]
  omega

@[simp] theorem exotic_calcD1 :
    exotic (calcD1 mask stored type refs) = decide (type ≠ .ordinary) := by
  have hbit : (calcD1 mask stored type refs).toNat / 8 % 2 = (decide (type ≠ .ordinary)).toNat := by
    have hexotic := Bool.toNat_le (decide (type ≠ .ordinary))
    rw [calcD1_toNat mask stored type h]
    omega
  rw [exotic, hbit]
  cases decide (type ≠ .ordinary) with
  | false | true => rfl

@[simp] theorem storeHashes_calcD1 : storeHashes (calcD1 mask stored type refs) = stored := by
  have hbit : (calcD1 mask stored type refs).toNat / 16 % 2 = stored.toNat := by
    have hexotic := Bool.toNat_le (decide (type ≠ .ordinary))
    have hstored := Bool.toNat_le stored
    rw [calcD1_toNat mask stored type h]
    omega
  rw [storeHashes, hbit]
  cases stored with
  | false | true => rfl

end Descriptor

theorem findTagLoop_le (length : ℕ) (bytes : Bytes) : findTagLoop length bytes ≤ length := by
  induction bytes generalizing length with
  | nil => exact le_rfl
  | cons x xs ih =>
    rw [findTagLoop]
    split_ifs
    · exact (ih _).trans (Nat.sub_le _ _)
    · exact Nat.sub_le _ _

variable {d2 : UInt8} {data : Bytes}

theorem bitLen_le (h : data.length = cellDataLen d2) : bitLen d2 data ≤ 8 * data.length := by
  rw [bitLen]
  split_ifs with heven
  · rw [h, cellDataLen]
    omega
  · have hle := findTagLoop_le (data.length * 8) data.reverse
    rw [findTag]
    omega

inductive ExoticOk (d1 : UInt8) (data : Bytes) (bits : ℕ) : CellType → Prop where
  | pruned (hrefs : refsCount d1 = 0) (hlevel : (levelMask d1).level ≠ 0)
      (hbits : bits = 8 * (1 + 1 + (levelMask d1).level * (sha256Size + depthSize)))
      (hmask : ∃ byte, data[1]? = some byte ∧ byte.toNat = (levelMask d1).toNat)
      (hdepths : ∀ i < (levelMask d1).level,
        Safe (prunedDepth data (levelMask d1).level i) fun d => d ≤ maxDepth) :
      ExoticOk d1 data bits .prunedBranch
  | library (hbits : bits = 8 * (1 + sha256Size)) (hrefs : refsCount d1 = 0) :
      ExoticOk d1 data bits .libraryReference
  | proof (hbits : bits = 8 * (1 + sha256Size + depthSize)) (hrefs : refsCount d1 = 1) :
      ExoticOk d1 data bits .merkleProof
  | update (hbits : bits = 8 * (1 + 2 * (sha256Size + depthSize))) (hrefs : refsCount d1 = 2) :
      ExoticOk d1 data bits .merkleUpdate

structure DataOk (raw : Bytes) (info : CellRawInfo) : Prop where
  d1_eq : raw[0]? = some info.d1
  d2_eq : raw[1]? = some info.d2
  refs_le : refsCount info.d1 ≤ 4
  full_le : fullLen info.d1 info.d2 ≤ raw.length
  data_eq : cellData raw info.d1 info.d2 = .ok info.data
  length_data : info.data.length = cellDataLen info.d2
  bitLen_eq : info.bitLen = bitLen info.d2 info.data
  stored : storeHashes info.d1 = true → ∀ i < hashesCount info.d1,
    Safe (storedDepth raw info.d1 i) fun d => d ≤ maxDepth
  typed : ∃ type, (exotic info.d1 = false ∧ type = .ordinary ∧ info.bitLen ≤ maxDataBits) ∨
    (exotic info.d1 = true ∧ (∃ byte, info.data[0]? = some byte ∧ CellType.tryFrom byte = .ok type) ∧
      ExoticOk info.d1 info.data info.bitLen type)

theorem boundedDepth_safe {x : Guarded ℕ} {text : String} (hx : Safe x fun _ => True) : Safe (do
      let d ← x
      require (d ≤ maxDepth) text) fun _ => Safe x fun d => d ≤ maxDepth := by
  refine hx.bind fun d hd _ => Safe.require.mono fun _ _ hle => ⟨hx.1, ?_⟩
  intro d' hd'
  rw [hd] at hd'
  obtain rfl := Except.ok.inj hd'
  exact hle

theorem prunedDepth_ok {lvl i : ℕ} (h : 1 + 1 + lvl * (sha256Size + depthSize) ≤ data.length)
    (hi : i < lvl) : ∃ d, prunedDepth data lvl i = .ok d := by
  simp only [sha256Size, depthSize] at h
  have hlow : 1 + 1 + lvl * sha256Size + i * depthSize + 1 < data.length := by
    rw [sha256Size, depthSize]
    omega
  rw [prunedDepth, index_of_lt hlow, index_of_lt (Nat.lt_of_succ_lt hlow)]
  exact ⟨_, rfl⟩

variable {d1 : UInt8}

theorem checkPruned_safe {bits : ℕ} (hbits : bits ≤ 8 * data.length) :
    Safe (checkPruned d1 data bits) fun _ => ExoticOk d1 data bits .prunedBranch := by
  rw [checkPruned]
  refine Safe.require.bind fun _ _ hrefs => ?_
  refine Safe.require.bind fun _ _ hlevel => ?_
  refine Safe.require.bind fun _ _ hlen => ?_
  -- the declared length covers the mask and all hashes and depths
  have hroom : 1 + 1 + (levelMask d1).level * (sha256Size + depthSize) ≤ data.length := by omega
  refine (Safe.index (by omega)).bind fun mask _ hmask => ?_
  refine Safe.require.bind fun _ _ hmaskEq => ?_
  have hdepth : ∀ i ∈ List.range (levelMask d1).level,
      Safe (prunedDepth data (levelMask d1).level i) fun _ => True := by
    intro i hi
    obtain ⟨d, hd⟩ := prunedDepth_ok hroom (List.mem_range.mp hi)
    rw [hd]
    exact Safe.pure trivial
  refine (Safe.forM fun i hi => boundedDepth_safe (hdepth i hi)).mono fun _ _ hdepths => ?_
  exact .pruned hrefs hlevel hlen ⟨mask, hmask, hmaskEq⟩
    fun i hi => hdepths i (List.mem_range.mpr hi)

theorem checkExotic_safe {bits : ℕ} (hbits : bits ≤ 8 * data.length) :
    Safe (checkExotic d1 data bits) fun _ => ∃ type,
      (∃ byte, data[0]? = some byte ∧ CellType.tryFrom byte = .ok type) ∧
        ExoticOk d1 data bits type := by
  rw [checkExotic]
  refine Safe.require.bind fun _ _ hne => ?_
  refine (Safe.index (List.length_pos_iff.mpr hne)).bind fun byte _ hbyte => ?_
  refine Safe.check.bind fun type _ htype => ?_
  have hfirst : ∃ byte, data[0]? = some byte ∧ CellType.tryFrom byte = .ok type :=
    ⟨byte, hbyte, htype⟩
  cases type with
  | prunedBranch => exact (checkPruned_safe hbits).mono fun _ _ h => ⟨_, hfirst, h⟩
  | merkleProof =>
    refine Safe.require.bind fun _ _ hlen => Safe.require.mono fun _ _ hrefs => ?_
    exact ⟨_, hfirst, .proof hlen hrefs⟩
  | merkleUpdate =>
    refine Safe.require.bind fun _ _ hlen => Safe.require.mono fun _ _ hrefs => ?_
    exact ⟨_, hfirst, .update hlen hrefs⟩
  | libraryReference =>
    refine Safe.require.bind fun _ _ hlen => Safe.require.mono fun _ _ hrefs => ?_
    exact ⟨_, hfirst, .library hlen hrefs⟩
  | unknown | ordinary => exact Safe.require.mono fun _ _ h => h.elim

theorem storedDepth_safe {raw : Bytes} {i : ℕ} (hi : i < hashesCount d1)
    (h : 2 + hashesCount d1 * (sha256Size + depthSize) ≤ raw.length) :
    Safe (storedDepth raw d1 i) fun _ => True := by
  simp only [sha256Size, depthSize] at h
  rw [storedDepth]
  refine (Safe.slice (Nat.le_add_right _ _) ?_).bind fun _ _ _ => Safe.pure trivial
  simp only [sha256Size, depthSize]
  omega

theorem dataOffset_of_stored (h : storeHashes d1 = true) :
    dataOffset d1 = 2 + hashesCount d1 * (sha256Size + depthSize) := by
  rw [dataOffset, h, Bool.toNat_true, one_mul]

theorem checkLength_safe (raw : Bytes) (unbounded : Bool) (d1 d2 : UInt8) :
    Safe (checkLength raw unbounded d1 d2) fun _ => fullLen d1 d2 ≤ raw.length := by
  cases unbounded with
  | true => exact Safe.require
  | false => exact Safe.require.mono fun _ _ h => h.ge

theorem checkStoredDepths_safe {raw : Bytes} (hfull : fullLen d1 d2 ≤ raw.length) :
    Safe (checkStoredDepths raw d1) fun _ => storeHashes d1 = true → ∀ i < hashesCount d1,
      Safe (storedDepth raw d1 i) fun d => d ≤ maxDepth := by
  rw [checkStoredDepths]
  by_cases hsh : storeHashes d1 = true
  · rw [if_pos hsh]
    have hroom : 2 + hashesCount d1 * (sha256Size + depthSize) ≤ raw.length := by
      rw [fullLen, dataOffset_of_stored hsh] at hfull
      omega
    refine (Safe.forM fun i hi => boundedDepth_safe (storedDepth_safe (List.mem_range.mp hi)
      hroom)).mono ?_
    intro _ _ h _ i hi
    exact h i (List.mem_range.mpr hi)
  · rw [if_neg hsh]
    exact Safe.pure fun h => absurd h hsh

theorem checkType_safe (h : data.length = cellDataLen d2) :
    Safe (checkType d1 data (bitLen d2 data)) fun _ => ∃ type,
      (exotic d1 = false ∧ type = .ordinary ∧ bitLen d2 data ≤ maxDataBits) ∨
        (exotic d1 = true ∧ (∃ byte, data[0]? = some byte ∧ CellType.tryFrom byte = .ok type) ∧
          ExoticOk d1 data (bitLen d2 data) type) := by
  rw [checkType]
  by_cases hex : exotic d1 = true
  · rw [if_pos hex]
    refine (checkExotic_safe (bitLen_le h)).mono fun _ _ h => ?_
    obtain ⟨type, hfirst, hok⟩ := h
    exact ⟨type, Or.inr ⟨hex, hfirst, hok⟩⟩
  · rw [if_neg hex]
    exact Safe.require.mono fun _ _ h =>
      ⟨.ordinary, Or.inl ⟨Bool.eq_false_iff.mpr hex, rfl, h⟩⟩

theorem checkData_safe (raw : Bytes) (unbounded : Bool) :
    Safe (checkData raw unbounded) (DataOk raw) := by
  rw [checkData]
  refine Safe.require.bind fun _ _ htwo => ?_
  refine (Safe.index (by omega)).bind fun d1 _ hd1 => ?_
  refine (Safe.index (by omega)).bind fun d2 _ hd2 => ?_
  refine Safe.require.bind fun _ _ hrefs => ?_
  refine Safe.require.bind fun _ _ _ => ?_
  refine (checkLength_safe raw unbounded d1 d2).bind fun _ _ hfull => ?_
  refine (Safe.slice (Nat.le_add_right _ _) hfull).bind fun data hdata hslice => ?_
  refine Safe.require.bind fun _ _ _ => ?_
  have hlen : data.length = cellDataLen d2 := by
    rw [fullLen] at hfull
    rw [hslice, List.length_take, List.length_drop]
    omega
  refine (checkStoredDepths_safe hfull).bind fun _ _ hstored => ?_
  refine (checkType_safe hlen).bind fun _ _ htyped => Safe.pure ?_
  exact ⟨hd1, hd2, hrefs, hfull, hdata, hlen, rfl, hstored, htyped⟩

structure CellBuf.Sound (b : CellBuf) : Prop where
  typed : ∃ type, b.cellType = .ok type ∧ ((type = .prunedBranch ∧
        1 + 1 + (levelMask b.d1).level * (sha256Size + depthSize) ≤ b.data.length ∧
        (∀ i < (levelMask b.d1).level,
          Safe (prunedDepth b.data (levelMask b.d1).level i) fun d => d ≤ maxDepth) ∧
        0 < b.hashes.length ∧ 0 < b.depths.length) ∨
      (type ≠ .prunedBranch ∧ (levelMask b.d1).level < b.hashes.length ∧
        (levelMask b.d1).level < b.depths.length))
  depths_le : ∀ d ∈ b.depths, d ≤ maxDepth

/-- A sound cell answers for every level, and no depth is the largest `u16`. -/
theorem CellBuf.Sound.hashDepth_ok {b : CellBuf} (h : b.Sound) (index : ℕ) :
    ∃ p, b.hashDepth index = .ok p ∧ p.2 ≤ maxDepth := by
  obtain ⟨type, htype, hcase⟩ := h.typed
  have hstored : ∀ i, i < b.hashes.length → i < b.depths.length → ∃ p, (do
      let h ← b.hashAt i
      let d ← b.depthAt i
      pure (h, d)) = .ok p ∧ p.2 ≤ maxDepth := by
    intro i hhash hdepth
    rw [CellBuf.hashAt, if_pos hhash, CellBuf.depthAt, if_pos hdepth, index_of_lt hhash,
      index_of_lt hdepth]
    exact ⟨_, rfl, h.depths_le _ (List.getElem_mem hdepth)⟩
  simp only [CellBuf.hashDepth, htype, Checked.ok_bind]
  rcases hcase with ⟨rfl, hroom, hdepths, hhash, hdepth⟩ | ⟨hne, hhash, hdepth⟩
  · by_cases hlow : (levelMask b.d1).calcHashIndex index < (levelMask b.d1).level
    · rw [if_pos ⟨rfl, hlow⟩]
      obtain ⟨d, hd⟩ := prunedDepth_ok hroom hlow
      have hend : 1 + 1 + (levelMask b.d1).calcHashIndex index * sha256Size + sha256Size ≤
          b.data.length := by
        simp only [sha256Size, depthSize] at hroom ⊢
        omega
      have hslice := (slice_eq_ok b.data _ _ _).mpr ⟨⟨Nat.le_add_right _ _, hend⟩, rfl⟩
      exact ⟨(_, d), by rw [hslice, hd]; rfl, (hdepths _ hlow).2 d hd⟩
    · rw [if_neg fun hc => hlow hc.2, if_pos rfl]
      exact hstored 0 hhash hdepth
  · have hle := (levelMask b.d1).calcHashIndex_le index
    rw [if_neg fun hc => hne hc.1, if_neg hne]
    exact hstored _ (by omega) (by omega)

theorem CellBuf.Sound.hashDepth_safe {b : CellBuf} (h : b.Sound) (index : ℕ) :
    Safe (b.hashDepth index) fun p => p.2 ≤ maxDepth := by
  obtain ⟨p, hp, hle⟩ := h.hashDepth_ok index
  rw [hp]
  exact Safe.pure hle

section Hashing

variable {sha256 : Bytes → Bytes} {limit : ℕ} {children : ℕ → ℕ → Guarded (Bytes × ℕ)}

def ChildrenOk (children : ℕ → ℕ → Guarded (Bytes × ℕ)) (refs : ℕ) : Prop :=
  ∀ r < refs, ∀ level, Safe (children r level) fun p => p.2 ≤ maxDepth

theorem hashChildren_noCrash {refs : ℕ} (hchildren : ChildrenOk children refs) (level : ℕ) :
    NoCrash ((List.range refs).foldlM (hashChild limit children level) (0, [], [])) := by
  refine (Safe.foldlM (fun _ (_ : ℕ × List ℕ × List Bytes) => True) trivial ?_).1
  intro done r todo s hl _
  have hr : r < refs := List.mem_range.mp (by rw [hl]; simp)
  rw [hashChild]
  refine (hchildren r hr level).bind fun p _ hdepth => ?_
  -- a depth is below the largest `u16`, so that one can be added
  have hroom : p.2 + 1 < 2 ^ 16 := by
    simp only [maxDepth] at hdepth
    omega
  refine (Safe.addWithin hroom).andThen ?_
  exact Safe.require.bind fun _ _ _ => Safe.pure trivial

structure HashInput.Ok (c : HashInput) (type : CellType) : Prop where
  type_eq : c.cellType = .ok type
  ordinary_iff : exotic c.d1 = false ↔ type = .ordinary
  pruned : type = .prunedBranch → refsCount c.d1 = 0 ∧ (levelMask c.d1).level ≠ 0
  noRefs : type = .merkleProof ∨ type = .merkleUpdate → refsCount c.d1 ≠ 0
  ne_unknown : type ≠ .unknown
  bits_le : bitLen c.d2 c.data ≤ 8 * c.data.length
  stored : ∀ hashes depths, c.stored = some (hashes, depths) →
    hashes.length = hashesCount c.d1 ∧ depths.length = hashesCount c.d1

variable {c : HashInput} {type : CellType}

variable {i : ℕ} {hashes : List Bytes}

theorem levelStart_safe (hc : c.Ok type) (hi : i ≠ 0 → hashes ≠ []) :
    Safe (levelStart c hashes i) fun _ => True := by
  rw [levelStart]
  by_cases h0 : i = 0
  · rw [if_pos h0]
    have hbits := hc.bits_le
    have hround := Bool.toNat_le (decide (bitLen c.d2 c.data % 8 ≠ 0))
    refine (Safe.slice (Nat.zero_le _) ?_).mono fun _ _ _ => trivial
    by_cases hrest : bitLen c.d2 c.data % 8 = 0
    · simp only [hrest, ne_eq, not_true_eq_false, decide_false, Bool.toNat_false]
      omega
    · omega
  · rw [if_neg h0]
    have hpos := List.length_pos_iff.mpr (hi h0)
    exact (Safe.index (by omega)).mono fun _ _ _ => trivial

theorem verifyStored_safe (hc : c.Ok type) {hashIndex : ℕ} (h : hashIndex < hashesCount c.d1)
    (computed : Bytes) (depth : ℕ) : Safe (verifyStored c hashIndex computed depth) fun _ => True := by
  rw [verifyStored]
  cases hstored : c.stored with
  | none => exact Safe.pure trivial
  | some p =>
    obtain ⟨hhashes, hdepths⟩ := hc.stored p.1 p.2 hstored
    simp only [CellBuf.hashAt, CellBuf.depthAt]
    rw [if_pos (by omega), if_pos (by omega)]
    refine (Safe.index (by omega)).bind fun _ _ _ => ?_
    refine Safe.require.bind fun _ _ _ => ?_
    refine (Safe.index (by omega)).bind fun _ _ _ => ?_
    exact Safe.require.mono fun _ _ _ => trivial

theorem entryFits_of_lt (h : i < hashesCount c.d1) : entryFits c i := by
  simp only [entryFits, sha256Size, depthSize]
  omega

variable {s : List Bytes × List ℕ}

theorem hashLevel_noCrash (hc : c.Ok type) (hchildren : ChildrenOk children (refsCount c.d1))
    (hi : i ≠ 0 → s.1 ≠ []) (hskip : ¬ skipsLevel c type i)
    (hroom : s.1.length < hashesCount c.d1) : NoCrash (hashLevel sha256 limit c type children s i) := by
  rw [hashLevel, if_neg hskip]
  refine ((levelStart_safe hc hi).bind fun _ _ _ => ?_ : Safe _ fun _ => True).1
  refine Safe.bind ⟨hashChildren_noCrash hchildren (childLevel type i), fun _ _ => trivial⟩
    fun p _ _ => ?_
  refine (verifyStored_safe hc hroom _ _).bind fun _ _ _ => ?_
  rw [if_pos (entryFits_of_lt hroom)]
  exact Safe.pure trivial

def takenLevels (c : HashInput) (type : CellType) (levels : List ℕ) : ℕ :=
  (levels.filter fun i => ¬ skipsLevel c type i).length

/-- A hash is computed for every level of the mask and for the representation; of a
pruned branch there is only one. -/
theorem takenLevels_all (c : HashInput) (type : CellType) : takenLevels c type [0, 1, 2, 3] =
      if type = .prunedBranch then 1 else (levelMask c.d1).level + 1 := by
  have hcount : ∀ m : LevelMask, (([0, 1, 2, 3] : List ℕ).filter fun i =>
      ¬ (i ≠ 0 ∧ m.has (i - 1) = false)).length = m.level + 1 := by decide
  rw [takenLevels]
  by_cases hpruned : type = .prunedBranch
  · simp [skipsLevel, hpruned]
  · simp only [skipsLevel, hpruned, false_or, if_false]
    exact hcount (levelMask c.d1)

theorem takenLevels_concat (levels : List ℕ) (i : ℕ) : takenLevels c type (levels ++ [i]) =
      takenLevels c type levels + if skipsLevel c type i then 0 else 1 := by
  rw [takenLevels, List.filter_append, List.length_append, takenLevels]
  by_cases hskip : skipsLevel c type i
  · simp [hskip]
  · simp [hskip]

/-- There is room for all hashes unless the cell is a library reference with a level. -/
theorem takenLevels_le (hc : c.Ok type)
    (h : ¬ (type = .libraryReference ∧ (levelMask c.d1).level ≠ 0 ∧ refsCount c.d1 = 0)) :
    takenLevels c type [0, 1, 2, 3] ≤ hashesCount c.d1 := by
  rw [takenLevels_all]
  by_cases hpruned : type = .prunedBranch
  · rw [if_pos hpruned]
    exact hashesCount_pos c.d1
  · rw [if_neg hpruned, hashesCount]
    refine le_of_eq (if_neg ?_).symm
    rintro ⟨hex, hrefs, hlevel⟩
    have hne : type ≠ .ordinary := fun ht => by
      rw [hc.ordinary_iff.mpr ht] at hex
      exact Bool.false_ne_true hex
    have hmerkle : ¬ (type = .merkleProof ∨ type = .merkleUpdate) := fun ht => hc.noRefs ht hrefs
    have hunknown := hc.ne_unknown
    cases type with
    | libraryReference => exact h ⟨rfl, hlevel, hrefs⟩
    | ordinary => exact hne rfl
    | prunedBranch => exact hpruned rfl
    | merkleProof => exact hmerkle (Or.inl rfl)
    | merkleUpdate => exact hmerkle (Or.inr rfl)
    | unknown => exact hunknown rfl

theorem hashChildren_le {refs level : ℕ} {s : ℕ × List ℕ × List Bytes}
    (h : (List.range refs).foldlM (hashChild limit children level) (0, [], []) = .ok s) :
    s.1 ≤ limit := by
  refine foldlM_inv (fun _ (t : ℕ × List ℕ × List Bytes) => t.1 ≤ limit) (Nat.zero_le limit) ?_ h
  intro done r todo t t' _ _ ht
  simp only [hashChild, require, bind_eq_ok, check_eq_ok, Checked.require_eq_ok, pure_eq_ok] at ht
  obtain ⟨p, -, next, -, -, hle, rfl⟩ := ht
  exact hle

theorem hashChildren_none (h : refsCount c.d1 = 0) (level : ℕ) :
    (List.range (refsCount c.d1)).foldlM (hashChild limit children level) (0, [], []) =
      .ok (0, [], []) := by
  rw [h]
  rfl

theorem hashLevel_ok {t : List Bytes × List ℕ} (hskip : ¬ skipsLevel c type i)
    (h : hashLevel sha256 limit c type children s i = .ok t) :
    ∃ computed depth, depth ≤ limit ∧ (refsCount c.d1 = 0 → depth = 0) ∧ entryFits c s.1.length ∧
      t = (s.1 ++ [computed], s.2 ++ [depth]) := by
  rw [hashLevel, if_neg hskip] at h
  simp only [bind_eq_ok] at h
  obtain ⟨first, -, p, hp, -, -, hwrite⟩ := h
  split_ifs at hwrite with hroom
  · obtain rfl := (pure_eq_ok _ _).mp hwrite
    refine ⟨_, _, hashChildren_le hp, fun hrefs => ?_, hroom, rfl⟩
    rw [hashChildren_none hrefs] at hp
    exact congrArg Prod.fst (Except.ok.inj hp).symm
  · exact absurd hwrite (crash_ne_ok _ _)

/-- The state of the loop: one hash and one depth for each level taken so far, all of
them inside the block of the cell. -/
structure HashLevels (limit : ℕ) (c : HashInput) (type : CellType) (levels : List ℕ)
    (s : List Bytes × List ℕ) : Prop where
  hashes : s.1.length = takenLevels c type levels
  depths : s.2.length = takenLevels c type levels
  depths_le : ∀ d ∈ s.2, d ≤ limit
  depths_zero : refsCount c.d1 = 0 → ∀ d ∈ s.2, d = 0
  fits : ∀ k < s.1.length, entryFits c k

theorem hashLevels_ok {levels : List ℕ}
    (h : levels.foldlM (hashLevel sha256 limit c type children) ([], []) = .ok s) :
    HashLevels limit c type levels s := by
  refine foldlM_inv (fun done s => HashLevels limit c type done s)
    ⟨rfl, rfl, by simp, by simp, by simp⟩ ?_ h
  rintro done i todo s t hl hs hstep
  by_cases hskip : skipsLevel c type i
  · rw [hashLevel, if_pos hskip, pure_eq_ok] at hstep
    subst hstep
    have hsame : takenLevels c type (done ++ [i]) = takenLevels c type done := by
      rw [takenLevels_concat, if_pos hskip, add_zero]
    exact ⟨hs.hashes.trans hsame.symm, hs.depths.trans hsame.symm, hs.depths_le, hs.depths_zero,
      hs.fits⟩
  · obtain ⟨computed, depth, hdepth, hzero, hfits, rfl⟩ := hashLevel_ok hskip hstep
    have hmore : takenLevels c type (done ++ [i]) = takenLevels c type done + 1 := by
      rw [takenLevels_concat, if_neg hskip]
    refine ⟨by simp [hs.hashes, hmore], by simp [hs.depths, hmore], ?_, fun hrefs => ?_, ?_⟩
    · exact List.forall_mem_append.mpr ⟨hs.depths_le, List.forall_mem_singleton.mpr hdepth⟩
    · exact List.forall_mem_append.mpr
        ⟨hs.depths_zero hrefs, List.forall_mem_singleton.mpr (hzero hrefs)⟩
    · intro k hk
      rw [List.length_append, List.length_singleton, Nat.lt_succ_iff_lt_or_eq] at hk
      rcases hk with hlt | rfl
      · exact hs.fits k hlt
      · exact hfits

theorem computeHashes_ok (hc : c.cellType = .ok type)
    (h : computeHashes sha256 limit c children = .ok s) :
    HashLevels limit c type [0, 1, 2, 3] s := by
  rw [computeHashes, hc] at h
  exact hashLevels_ok h

theorem computeHashes_noCrash (hc : c.Ok type) (hchildren : ChildrenOk children (refsCount c.d1))
    (hroom : takenLevels c type [0, 1, 2, 3] ≤ hashesCount c.d1) :
    NoCrash (computeHashes sha256 limit c children) := by
  rw [computeHashes, hc.type_eq]
  change NoCrash ([0, 1, 2, 3].foldlM (hashLevel sha256 limit c type children) ([], []))
  -- the state holds one hash for each level taken so far
  refine (Safe.foldlM (fun done (s : List Bytes × List ℕ) =>
    s.1.length = takenLevels c type done) rfl ?_).1
  intro done i todo s hl hhashes
  by_cases hskip : skipsLevel c type i
  · rw [hashLevel, if_pos hskip]
    refine Safe.pure ?_
    rw [takenLevels_concat, if_pos hskip]
    exact hhashes
  · have hcount : takenLevels c type (done ++ [i]) ≤ takenLevels c type [0, 1, 2, 3] := by
      rw [hl, takenLevels, takenLevels, List.filter_append, List.filter_append, List.length_append,
        List.length_append]
      refine Nat.add_le_add_left ?_ _
      exact ((List.sublist_append_left [i] todo).filter _).length_le
    rw [takenLevels_concat, if_neg hskip] at hcount
    have hfirst : i ≠ 0 → s.1 ≠ [] := by
      intro hi
      have hdone : 0 ∈ done := by
        cases done with
        | nil => exact absurd (List.cons.inj hl).1.symm hi
        | cons a done => rw [(List.cons.inj hl).1]; simp
      have hpos : 0 < takenLevels c type done :=
        List.length_pos_of_mem (List.mem_filter.mpr ⟨hdone, by simp [skipsLevel]⟩)
      exact List.ne_nil_of_length_pos (by omega)
    refine ⟨hashLevel_noCrash hc hchildren hfirst hskip (by omega), ?_⟩
    intro t ht
    obtain ⟨computed, depth, -, -, -, rfl⟩ := hashLevel_ok hskip ht
    rw [takenLevels_concat, if_neg hskip]
    simp [hhashes]

variable {raw : Bytes} {info : CellRawInfo}

variable {stored : Option (List Bytes × List ℕ)} {flag : Bool} {depths : List ℕ} {b : CellBuf}
  {refs : List CellBuf}

theorem DataOk.rawCellType (h : DataOk raw info) :
    ∃ type, rawCellType info.d1 info.data = .ok type ∧
      ((exotic info.d1 = false ∧ type = .ordinary) ∨
        (exotic info.d1 = true ∧ (∃ byte, info.data[0]? = some byte ∧
          CellType.tryFrom byte = .ok type) ∧ ExoticOk info.d1 info.data info.bitLen type)) := by
  obtain ⟨type, ⟨hex, rfl, -⟩ | ⟨hex, ⟨byte, hbyte, hfrom⟩, hok⟩⟩ := h.typed
  · refine ⟨_, ?_, Or.inl ⟨hex, rfl⟩⟩
    rw [Cells.rawCellType, hex]
    rfl
  · refine ⟨type, ?_, Or.inr ⟨hex, ⟨byte, hbyte, hfrom⟩, hok⟩⟩
    rw [Cells.rawCellType, if_pos hex, (index_eq_ok _ _ _).mpr hbyte]
    simp only [bind, Except.bind, hfrom]
    rfl

theorem DataOk.type_cases (h : DataOk raw info)
    (htype : Cells.rawCellType info.d1 info.data = .ok type) :
    (exotic info.d1 = false ∧ type = .ordinary) ∨
      (exotic info.d1 = true ∧ (∃ byte, info.data[0]? = some byte ∧
        CellType.tryFrom byte = .ok type) ∧ ExoticOk info.d1 info.data info.bitLen type) := by
  obtain ⟨type', htype', hcase⟩ := h.rawCellType
  rwa [Except.ok.inj (htype'.symm.trans htype)] at hcase

theorem DataOk.exoticOk (h : DataOk raw info)
    (htype : Cells.rawCellType info.d1 info.data = .ok type) (hne : type ≠ .ordinary) :
    ExoticOk info.d1 info.data info.bitLen type := by
  rcases h.type_cases htype with ⟨-, heq⟩ | ⟨-, -, hok⟩
  · exact absurd heq hne
  · exact hok

theorem DataOk.rawCellType_safe (h : DataOk raw info) :
    Safe (Cells.rawCellType info.d1 info.data) fun _ => True := by
  obtain ⟨type, htype, -⟩ := h.rawCellType
  exact ⟨htype ▸ noCrash_ok type, fun _ _ => trivial⟩

theorem storedHashes_safe (h : DataOk raw info) :
    Safe (storedHashes raw info.d1) fun stored => ∀ hashes depths, stored = some (hashes, depths) →
      hashes.length = hashesCount info.d1 ∧ depths.length = hashesCount info.d1 ∧
        ∀ d ∈ depths, d ≤ maxDepth := by
  rw [storedHashes]
  by_cases hsh : storeHashes info.d1 = true
  · rw [if_pos hsh]
    have hroom : 2 + hashesCount info.d1 * (sha256Size + depthSize) ≤ raw.length := by
      have hfull := h.full_le
      rw [fullLen, dataOffset_of_stored hsh] at hfull
      omega
    have hhash := Safe.mapM (f := storedHash raw) (P := fun _ => True)
      fun i (hi : i ∈ List.range (hashesCount info.d1)) => by
        rw [List.mem_range] at hi
        refine (Safe.slice (Nat.le_add_right _ _) ?_).mono fun _ _ _ => trivial
        simp only [sha256Size, depthSize] at hroom ⊢
        omega
    have hdepth := Safe.mapM fun i hi => h.stored hsh i (List.mem_range.mp hi)
    rw [List.length_range] at hhash hdepth
    refine hhash.bind fun hashes _ hlen => hdepth.bind fun depths _ hlen' => Safe.pure ?_
    intro hashes' depths' heq
    obtain ⟨rfl, rfl⟩ := Prod.mk.inj (Option.some.inj heq)
    exact ⟨hlen.1, hlen'⟩
  · rw [if_neg hsh]
    refine Safe.pure ?_
    intro hashes depths heq
    exact absurd heq (by simp)

section

variable (info : CellRawInfo) (type : CellType) (flag : Bool) (stored : Option (List Bytes × List ℕ))

/-- Checked bytes with the descriptor they are kept under. -/
def CellRawInfo.hashInput : HashInput :=
  ⟨calcD1 (levelMask info.d1) flag type (refsCount info.d1), info.d2, info.data, stored⟩

theorem refsCount_lt (d1 : UInt8) : refsCount d1 < 8 := Nat.lt_succ_of_le (refsCount_le d1)

@[simp] theorem refsCount_hashInput : refsCount (info.hashInput type flag stored).d1 =
    refsCount info.d1 := refsCount_calcD1 _ _ _ (refsCount_lt _)

@[simp] theorem levelMask_hashInput : levelMask (info.hashInput type flag stored).d1 =
    levelMask info.d1 := levelMask_calcD1 _ _ _ (refsCount_lt _)

@[simp] theorem exotic_hashInput : exotic (info.hashInput type flag stored).d1 =
    decide (type ≠ .ordinary) := exotic_calcD1 _ _ _ (refsCount_lt _)

end

theorem DataOk.exotic_eq (h : DataOk raw info)
    (htype : Cells.rawCellType info.d1 info.data = .ok type) :
    exotic info.d1 = decide (type ≠ .ordinary) := by
  rcases h.type_cases htype with ⟨hex, rfl⟩ | ⟨hex, -, hok⟩
  · exact hex
  · rw [hex]
    cases hok with
    | pruned | library | proof | update => rfl

theorem DataOk.cellType_kept (h : DataOk raw info)
    (htype : Cells.rawCellType info.d1 info.data = .ok type) {mask : LevelMask} {refs : ℕ}
    (hrefs : refs < 8) {hashes : List Bytes} :
    CellBuf.cellType ⟨calcD1 mask flag type refs, info.d2, info.data, hashes, depths⟩ = .ok type := by
  rw [CellBuf.cellType, exotic_calcD1 _ _ _ hrefs, ← h.exotic_eq htype]
  rw [Cells.rawCellType] at htype
  by_cases hex : exotic info.d1 = true
  · rw [if_pos hex] at htype
    rw [if_neg (by rw [hex]; exact Bool.noConfusion)]
    cases hbytes : info.data with
    | nil =>
      rw [hbytes] at htype
      cases htype
    | cons byte rest =>
      rw [hbytes] at htype
      exact htype
  · rw [if_neg hex] at htype
    rw [if_pos (Bool.eq_false_iff.mpr hex)]
    exact htype

theorem DataOk.hashInput_ok (h : DataOk raw info)
    (htype : Cells.rawCellType info.d1 info.data = .ok type) (flag : Bool)
    (hstored : ∀ hashes depths, stored = some (hashes, depths) →
      hashes.length = hashesCount info.d1 ∧ depths.length = hashesCount info.d1) :
    (info.hashInput type flag stored).Ok type ∧
      hashesCount (info.hashInput type flag stored).d1 = hashesCount info.d1 := by
  have hexotic := h.exotic_eq htype
  have hcount : hashesCount (info.hashInput type flag stored).d1 = hashesCount info.d1 := by
    rw [hashesCount, hashesCount, exotic_hashInput, refsCount_hashInput, levelMask_hashInput,
      hexotic]
  refine ⟨⟨?_, ?_, ?_, ?_, ?_, bitLen_le h.length_data, ?_⟩, hcount⟩
  · rw [HashInput.cellType, exotic_hashInput, CellRawInfo.hashInput]
    rcases h.type_cases htype with ⟨hex, rfl⟩ | ⟨hex, ⟨byte, hbyte, hfrom⟩, hok⟩
    · rfl
    · rw [← hexotic, if_pos hex, (index_eq_ok _ _ _).mpr hbyte]
      exact (check_eq_ok _ _).mpr hfrom
  · simp
  · rintro rfl
    rw [refsCount_hashInput, levelMask_hashInput]
    cases h.exoticOk htype CellType.noConfusion with
    | pruned hrefs hlevel => exact ⟨hrefs, hlevel⟩
  · intro hmerkle
    rw [refsCount_hashInput]
    rcases h.type_cases htype with ⟨-, rfl⟩ | ⟨-, -, hok⟩
    · simp at hmerkle
    · cases hok with
      | proof _ hrefs => rw [hrefs]; exact Nat.one_ne_zero
      | update _ hrefs => rw [hrefs]; exact Nat.succ_ne_zero 1
      | pruned | library => simp at hmerkle
  · rcases h.type_cases htype with ⟨-, rfl⟩ | ⟨-, -, hok⟩
    · exact CellType.noConfusion
    · rintro rfl
      cases hok
  · intro hashes depths heq
    rw [hcount]
    exact hstored hashes depths heq

theorem DataOk.library_refs (h : DataOk raw info)
    (htype : Cells.rawCellType info.d1 info.data = .ok .libraryReference) :
    refsCount info.d1 = 0 ∧ info.bitLen = 8 * (1 + sha256Size) := by
  cases h.exoticOk htype CellType.noConfusion with
  | library hbits hrefs => exact ⟨hrefs, hbits⟩

theorem DataOk.pruned_room (h : DataOk raw info)
    (htype : Cells.rawCellType info.d1 info.data = .ok .prunedBranch) : refsCount info.d1 = 0 ∧
      2 + (levelMask info.d1).level * (sha256Size + depthSize) ≤ info.data.length := by
  cases h.exoticOk htype CellType.noConfusion with
  | pruned hrefs hlevel hbits =>
    have hroom := bitLen_le h.length_data
    rw [← h.bitLen_eq, hbits] at hroom
    exact ⟨hrefs, by omega⟩

section

variable (h : DataOk raw info) (htype : Cells.rawCellType info.d1 info.data = .ok type)
include h htype

theorem DataOk.sound
    (hhashes : takenLevels (info.hashInput type flag none) type [0, 1, 2, 3] ≤ hashes.length)
    (hlen : depths.length = hashes.length) (hle : ∀ d ∈ depths, d ≤ maxDepth) :
    CellBuf.Sound ⟨calcD1 (levelMask info.d1) true type (refsCount info.d1), info.d2, info.data,
      hashes, depths⟩ := by
  rw [takenLevels_all, levelMask_hashInput] at hhashes
  refine ⟨⟨type, h.cellType_kept htype (refsCount_lt _), ?_⟩, hle⟩
  rw [levelMask_calcD1 _ _ _ (refsCount_lt _)]
  by_cases hpruned : type = .prunedBranch
  · subst hpruned
    refine Or.inl ⟨rfl, ?_⟩
    rw [if_pos rfl] at hhashes
    cases h.exoticOk htype CellType.noConfusion with
    | pruned hrefs hlevel hbits hmask hdepths =>
      have hroom := bitLen_le h.length_data
      rw [← h.bitLen_eq, hbits] at hroom
      exact ⟨by simp only; omega, hdepths, by simp only; omega, by simp only; omega⟩
  · rw [if_neg hpruned] at hhashes
    exact Or.inr ⟨hpruned, by simp only; omega, by simp only; omega⟩

theorem DataOk.hashInput_stored (hstored : storedHashes raw info.d1 = .ok stored) :
    (info.hashInput type false stored).Ok type := by
  refine (h.hashInput_ok htype false ?_).1
  intro hashes depths heq
  have hlens := (storedHashes_safe h).2 stored hstored hashes depths heq
  exact ⟨hlens.1, hlens.2.1⟩

omit h htype in
/-- The cell that is left behind has its own data when there is room for all its hashes. -/
theorem finish_eq (hinput : (info.hashInput type false stored).Ok type)
    (hlib : ¬ (type = .libraryReference ∧ (levelMask info.d1).level ≠ 0))
    (hs : computeHashes sha256 limit (info.hashInput type false stored) children = .ok s)
    (d1 : UInt8) : (info.hashInput type false stored).finish d1 s =
      ⟨d1, info.d2, info.data, s.1, s.2⟩ := by
  have hroom := takenLevels_le hinput fun hc => hlib ⟨hc.1, by simpa using hc.2.1⟩
  exact if_pos ((computeHashes_ok hinput.type_eq hs).hashes.trans_le hroom)

theorem DataOk.sound_computeHashes (hinput : (info.hashInput type false stored).Ok type)
    (hlimit : limit ≤ maxDepth)
    (hs : computeHashes sha256 limit (info.hashInput type false stored) children = .ok s) :
    CellBuf.Sound ⟨calcD1 (levelMask info.d1) true type (refsCount info.d1), info.d2, info.data, s.1,
      s.2⟩ := by
  have hlevels := computeHashes_ok hinput.type_eq hs
  exact h.sound htype hlevels.hashes.ge (hlevels.depths.trans hlevels.hashes.symm)
    fun d hd => (hlevels.depths_le d hd).trans hlimit

end

/-- A library reference whose second hash and depth were written over its first depth
and its data. Its type can no longer be told. -/
structure CellBuf.Spilled (b : CellBuf) : Prop where
  type_eq : b.cellType = .ok .unknown
  level_ne : (levelMask b.d1).level ≠ 0
  d1_eq : b.d1 = calcD1 (levelMask b.d1) true .libraryReference 0
  hashes_length : b.hashes.length = 1
  depths_length : b.depths.length = 1
  fits : (levelMask b.d1).level * sha256Size ≤ depthSize + b.data.length

/-- Only a pruned branch has a level and no references. -/
def CellBuf.PrunedLeaf (b : CellBuf) : Prop :=
  ∀ type, b.cellType = .ok type → type ≠ .ordinary → refsCount b.d1 = 0 →
    (levelMask b.d1).level ≠ 0 → type = .prunedBranch

theorem DataOk.prunedLeaf (h : DataOk raw info)
    (htype : Cells.rawCellType info.d1 info.data = .ok type)
    (hlib : ¬ (type = .libraryReference ∧ (levelMask info.d1).level ≠ 0)) {hashes : List Bytes} :
    CellBuf.PrunedLeaf ⟨calcD1 (levelMask info.d1) true type (refsCount info.d1),
      info.d2, info.data, hashes, depths⟩ := by
  intro type' htype' hordinary hrefs hlevel
  obtain rfl := Except.ok.inj ((h.cellType_kept htype (refsCount_lt _)).symm.trans htype')
  rw [refsCount_calcD1 _ _ _ (refsCount_lt _)] at hrefs
  rw [levelMask_calcD1 _ _ _ (refsCount_lt _)] at hlevel
  cases h.exoticOk htype hordinary with
  | pruned => rfl
  | library => exact absurd ⟨rfl, hlevel⟩ hlib
  | proof _ hone => omega
  | update _ htwo => omega

section Overwrite

variable {bytes new : Bytes} {start len i : ℕ}

theorem getElem?_overwrite_of_not (h : ¬ (start ≤ i ∧ i < start + len)) :
    (overwrite bytes start len new)[i]? = bytes[i]? := by
  rw [overwrite, List.getElem?_mapIdx]
  simp only [if_neg h]
  exact Option.map_id_apply

theorem getElem?_overwrite_of_mem (h : start ≤ i ∧ i < start + len) (hi : i < bytes.length) :
    (overwrite bytes start len new)[i]? = some (new.getD (i - start) 0) := by
  rw [overwrite, List.getElem?_mapIdx, List.getElem?_eq_getElem hi]
  simp only [if_pos h]
  rfl

end Overwrite

@[simp] theorem length_writeEntries (count : ℕ) (entries : List ((Bytes × ℕ) × ℕ)) (area : Bytes) :
    (entries.foldl (writeEntry count) area).length = area.length := by
  induction entries generalizing area with
  | nil => rfl
  | cons entry entries ih => simp [ih, writeEntry, overwrite]

theorem getElem?_laterEntries {entries : List (Bytes × ℕ)} {k : ℕ} (hk : 2 ≤ k) (area : Bytes) :
    ((entries.zipIdx k).foldl (writeEntry 1) area)[34]? = area[34]? := by
  induction entries generalizing k area with
  | nil => rfl
  | cons entry entries ih =>
    rw [List.zipIdx_cons, List.foldl_cons, ih (by omega), writeEntry, getElem?_overwrite_of_not,
      getElem?_overwrite_of_not]
    · simp only [sha256Size]
      omega
    · simp only [sha256Size, depthSize]
      omega

theorem getElem?_overwritten {c : HashInput} (hcount : hashesCount c.d1 = 1) (hdata : c.data ≠ [])
    (hhashes : 2 ≤ s.1.length) (hdepths : s.2.length = s.1.length) (hzero : ∀ d ∈ s.2, d = 0) :
    (overwritten c s)[34]? = some 0 := by
  obtain ⟨h0, h1, hashes, hs1⟩ : ∃ h0 h1 hashes, s.1 = h0 :: h1 :: hashes := by
    match hs1 : s.1, hhashes with
    | h0 :: h1 :: hashes, _ => exact ⟨h0, h1, hashes, rfl⟩
  obtain ⟨d0, d1, depths, hs2⟩ : ∃ d0 d1 depths, s.2 = d0 :: d1 :: depths := by
    rw [← hdepths] at hhashes
    match hs2 : s.2, hhashes with
    | d0 :: d1 :: depths, _ => exact ⟨d0, d1, depths, rfl⟩
  have hd1 : d1 = 0 := hzero d1 (by simp [hs2])
  have hlong : 34 < (List.replicate (1 * (sha256Size + depthSize)) (0 : UInt8) ++ c.data).length := by
    rw [List.length_append, List.length_replicate, sha256Size, depthSize]
    have hpos := List.length_pos_iff.mpr hdata
    omega
  rw [overwritten, hcount, hs1, hs2, List.zip_cons_cons, List.zip_cons_cons, List.zipIdx_cons,
    List.zipIdx_cons, List.foldl_cons, List.foldl_cons, getElem?_laterEntries (by omega), writeEntry,
    getElem?_overwrite_of_mem (show 34 ≤ 34 ∧ 34 < 36 by decide)
      (by simpa [overwrite, writeEntry] using hlong), hd1]
  simp [depthBytes, sha256Size, depthSize]

theorem DataOk.spilled_finish (h : DataOk raw info)
    (htype : Cells.rawCellType info.d1 info.data = .ok .libraryReference)
    (hlevel : (levelMask info.d1).level ≠ 0)
    (hinput : (info.hashInput .libraryReference false stored).Ok .libraryReference)
    (hs : computeHashes sha256 limit
      (info.hashInput .libraryReference false stored) children = .ok s) :
    ((info.hashInput .libraryReference false stored).finish (calcD1 (levelMask info.d1) true
      .libraryReference (refsCount info.d1)) s).Spilled := by
  obtain ⟨hrefs, hbits⟩ := h.library_refs htype
  have hlevels := computeHashes_ok hinput.type_eq hs
  have hlen : s.1.length = (levelMask info.d1).level + 1 := by
    rw [hlevels.hashes, takenLevels_all, if_neg CellType.noConfusion, levelMask_hashInput]
  have hcount : hashesCount (info.hashInput .libraryReference false stored).d1 = 1 := by
    rw [hashesCount, exotic_hashInput, refsCount_hashInput, levelMask_hashInput, if_pos]
    exact ⟨rfl, hrefs, hlevel⟩
  have hdata : info.data ≠ [] := by
    intro hnil
    have hle := bitLen_le h.length_data
    rw [← h.bitLen_eq, hbits, hnil, List.length_nil] at hle
    omega
  have htypeByte := getElem?_overwritten (c := info.hashInput .libraryReference false stored) hcount
    hdata (by omega) (hlevels.depths.trans hlevels.hashes.symm)
    (hlevels.depths_zero (by rwa [refsCount_hashInput]))
  have hfits := (hlevels.fits (levelMask info.d1).level (by omega)).1
  rw [hcount] at hfits
  have hmask := levelMask_calcD1 (levelMask info.d1) true .libraryReference (refsCount_lt info.d1)
  rw [HashInput.finish, if_neg (by omega), hcount]
  refine ⟨?_, by rwa [hmask], by rw [hmask, hrefs], by simp, by simp, ?_⟩
  · obtain ⟨rest, hrest⟩ : ∃ rest, (overwritten (info.hashInput .libraryReference false stored) s).drop
        (1 * (sha256Size + depthSize)) = 0 :: rest := by
      rw [← List.getElem?_drop (i := 34) (j := 0), ← List.head?_eq_getElem?] at htypeByte
      exact List.head?_eq_some_iff.mp htypeByte
    rw [CellBuf.cellType, exotic_calcD1 _ _ _ (refsCount_lt _), if_neg (by simp)]
    simp only [hrest]
    rfl
  · rw [hmask, List.length_drop, overwritten, length_writeEntries, hcount, List.length_append,
      List.length_replicate]
    simp only [sha256Size, depthSize, CellRawInfo.hashInput] at hfits ⊢
    omega

theorem CellBuf.Spilled.hashDepth_ok (h : b.Spilled) (index : ℕ) :
    ∃ e, b.hashDepth index = .ok e := by
  have hindex := (levelMask b.d1).calcHashIndex_le index
  have hlevel := (levelMask b.d1).level_le
  have hne := h.level_ne
  have hfits := h.fits
  have hhashes := h.hashes_length
  have hdepths := h.depths_length
  simp only [sha256Size, depthSize] at hfits
  rw [CellBuf.hashDepth, h.type_eq]
  simp only [Checked.ok_bind, reduceCtorEq, false_and, if_false, CellBuf.hashAt, CellBuf.depthAt]
  generalize (levelMask b.d1).calcHashIndex index = i at hindex
  by_cases hi : i < 1
  · rw [if_pos (by omega), if_pos (by omega), index_of_lt (by omega), index_of_lt (by omega)]
    exact ⟨_, rfl⟩
  · have hbytes : ((b.depths.map depthBytes).flatten).length = 2 := by
      obtain ⟨d, hd⟩ := List.length_eq_one_iff.mp hdepths
      rw [hd]
      rfl
    rw [if_neg (by omega), if_neg (by omega), (slice_eq_ok _ _ _ _).mpr ⟨⟨by omega, ?_⟩, rfl⟩,
      (slice_eq_ok _ _ _ _).mpr ⟨⟨by omega, ?_⟩, rfl⟩]
    · exact ⟨_, rfl⟩
    · simp only [depthSize]
      omega
    · rw [List.length_append, hbytes, sha256Size]
      omega

theorem cellRefs_ok (hrefs : ∀ b ∈ refs, b.Sound) :
    ChildrenOk (cellRefs refs) refs.length := by
  intro r hr level
  rw [cellRefs]
  refine (Safe.index hr).bind fun b _ hb => ?_
  exact (hrefs b (List.mem_of_getElem? hb)).hashDepth_safe level

/-- The bytes are those of a library reference with a level. -/
def LeveledLibrary (raw : Bytes) (unbounded : Bool) : Prop :=
  ∃ info, checkData raw unbounded = .ok info ∧
    rawCellType info.d1 info.data = .ok .libraryReference ∧ (levelMask info.d1).level ≠ 0

/-- Whatever the references are, a cell that is built is sound, or its own hashes were
written over it. -/
theorem withDataAndRefs_ok (hlimit : limit ≤ maxDepth) {unbounded : Bool}
    (h : withDataAndRefs sha256 limit raw unbounded refs = .ok b) :
    (b.Sound ∧ b.PrunedLeaf) ∨ b.Spilled := by
  simp only [withDataAndRefs, require, bind_eq_ok, check_eq_ok, Checked.require_eq_ok,
    pure_eq_ok] at h
  obtain ⟨info, hinfo, -, hlen, type, htype, stored, hstored, s, hs, rfl⟩ := h
  have hok := (checkData_safe raw unbounded).2 info hinfo
  have hinput := hok.hashInput_stored htype hstored
  rw [hlen] at hs ⊢
  by_cases hlib : type = .libraryReference ∧ (levelMask info.d1).level ≠ 0
  · obtain ⟨rfl, hlevel⟩ := hlib
    exact .inr (hok.spilled_finish htype hlevel hinput hs)
  · refine .inl ?_
    rw [← CellRawInfo.hashInput, finish_eq hinput hlib hs]
    exact ⟨hok.sound_computeHashes htype hinput hlimit hs, hok.prunedLeaf htype hlib⟩

theorem withDataAndRefs_safe (sha256 : Bytes → Bytes) (hlimit : limit ≤ maxDepth) {unbounded : Bool}
    (hlib : ¬ LeveledLibrary raw unbounded) (hrefs : ∀ b ∈ refs, b.Sound) :
    Safe (withDataAndRefs sha256 limit raw unbounded refs) CellBuf.Sound := by
  rw [withDataAndRefs]
  refine (checkData_safe raw unbounded).bind fun info hinfo hok => ?_
  refine Safe.require.bind fun _ _ hlen => ?_
  refine hok.rawCellType_safe.bind fun type htype _ => ?_
  refine (storedHashes_safe hok).bind fun stored hstored _ => ?_
  have hchildren := cellRefs_ok hrefs
  rw [hlen] at hchildren ⊢
  have hinput := hok.hashInput_stored htype hstored
  have hlib' : ¬ (type = .libraryReference ∧ (levelMask info.d1).level ≠ 0) := by
    rintro ⟨rfl, hlevel⟩
    exact hlib ⟨info, hinfo, htype, hlevel⟩
  have hroom := takenLevels_le hinput fun hc => hlib' ⟨hc.1, by simpa using hc.2.1⟩
  have hcalm : Safe (computeHashes sha256 limit (info.hashInput type false stored)
      (cellRefs refs)) fun _ => True :=
    ⟨computeHashes_noCrash hinput (by rwa [refsCount_hashInput]) hroom, fun _ _ => trivial⟩
  refine hcalm.bind fun s hs _ => Safe.pure ?_
  rw [← CellRawInfo.hashInput, finish_eq hinput hlib' hs]
  exact hok.sound_computeHashes htype hinput hlimit hs

end Hashing

end Cells

end TonNode
