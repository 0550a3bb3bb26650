import TonNode.BocDecompressSafety

/-! A stream whose graph is a chain: every node is a depth-balance marker with one edge to
the next node. It spends nine bits on a node, the least that is possible, and its cells
are only built after the recursion has come to the last one. -/
namespace TonNode.Compression

open Guarded Cells Boc
open BitSliceReader (readUint bitAt remainingBits)
open Block (bitsToNat natToBits)
open List (replicate range)

theorem testBit_bitsToNat {bits : List Bool} {j : ℕ} (h : j < bits.length) :
    (bitsToNat bits).testBit (bits.length - 1 - j) = bits[j] := by
  induction bits using List.reverseRecOn with
  | nil => simp at h
  | append_singleton bits b ih =>
    rw [Block.bitsToNat_concat]
    rw [List.length_append, List.length_singleton] at h
    rcases Nat.lt_succ_iff_lt_or_eq.mp h with hlt | rfl
    · -- a bit before the last one is a bit of the half
      have hshift : (bits ++ [b]).length - 1 - j = (bits.length - 1 - j) + 1 := by
        rw [List.length_append, List.length_singleton]
        omega
      have hhalf : (2 * bitsToNat bits + b.toNat) / 2 = bitsToNat bits := by
        have hb := Bool.toNat_lt b
        omega
      rw [hshift, Nat.testBit_succ, hhalf, ih hlt, List.getElem_append_left hlt]
    · rw [List.length_append, List.length_singleton, Nat.add_sub_cancel, Nat.sub_self]
      cases b with
      | false | true => simp

variable {pos : ℕ}

theorem bitAt_packBytes {bits : List Bool} (h : pos < bits.length) :
    bitAt (packBytes bits) pos = .ok bits[pos] := by
  have hindex : (packBytes bits)[pos / 8]? = some (UInt8.ofNat (bitsToNat
      ((bits.drop (8 * (pos / 8))).take 8 ++
        replicate (8 - ((bits.drop (8 * (pos / 8))).take 8).length) false))) := by
    rw [packBytes, List.getElem?_map, List.getElem?_range (by omega)]
    rfl
  generalize hbyte : (bits.drop (8 * (pos / 8))).take 8 ++
    replicate (8 - ((bits.drop (8 * (pos / 8))).take 8).length) false = byte at hindex
  have hlen : byte.length = 8 := by
    rw [← hbyte, List.length_append, List.length_replicate, List.length_take]
    omega
  have hbound : bitsToNat byte < 256 := by
    have hlt := Block.bitsToNat_lt byte
    rwa [hlen] at hlt
  have hbit : byte[pos % 8]? = some bits[pos] := by
    have hin : pos % 8 < ((bits.drop (8 * (pos / 8))).take 8).length := by
      rw [List.length_take, List.length_drop]
      omega
    rw [← hbyte, List.getElem?_append_left hin, List.getElem?_take_of_lt (by omega),
      List.getElem?_drop, Nat.div_add_mod, List.getElem?_eq_getElem h]
  obtain ⟨hlt, hvalue⟩ := List.getElem?_eq_some_iff.mp hbit
  rw [bitAt, (index_eq_ok _ _ _).mpr hindex]
  change Except.ok _ = _
  have htest := testBit_bitsToNat hlt
  rw [hlen] at htest
  rw [UInt8.toNat_ofNat', Nat.mod_eq_of_lt hbound, ← hvalue, ← htest]

def stream (total : ℕ) (bit : ℕ → Bool) : Bytes := packBytes ((range total).map bit)

theorem length_stream (total : ℕ) (bit : ℕ → Bool) : (stream total bit).length = (total + 7) / 8 := by
  rw [stream, length_packBytes, List.length_map, List.length_range]

theorem readUint_stream {total bits : ℕ} {bit : ℕ → Bool} (hbits : 0 < bits) (hmax : bits ≤ 32)
    (h : pos + bits ≤ total) : readUint ⟨stream total bit, pos⟩ bits =
      .ok (bitsToNat ((range bits).map fun i => bit (pos + i)),
        ⟨stream total bit, pos + bits⟩) := by
  have hread : ((range bits).mapM fun i =>
      bitAt (stream total bit) (pos + i)) = .ok ((range bits).map fun i => bit (pos + i)) := by
    apply mapM_eq_ok.mpr
    rw [List.forall₂_map_right_iff, List.forall₂_same]
    intro i hi
    have hi := List.mem_range.mp hi
    rw [stream, bitAt_packBytes (by rw [List.length_map, List.length_range]; omega)]
    simp
  rw [readUint, if_neg (by omega)]
  simp only [require, bind_eq_ok, check_eq_ok, Checked.require_eq_ok]
  refine ⟨(), hmax, (), ?_, _, hread, rfl⟩
  rw [remainingBits, length_stream]
  simp only
  omega

/-- A loop whose rounds are known passes through the known states. -/
theorem foldlM_range_eq {σ : Type} {f : σ → ℕ → Guarded σ} (state : ℕ → σ) (count : ℕ)
    (h : ∀ i < count, f (state i) i = .ok (state (i + 1))) :
    (range count).foldlM f (state 0) = .ok (state count) := by
  induction count with
  | zero => rfl
  | succ count ih =>
    rw [List.range_succ, List.foldlM_append]
    refine bind_eq_ok.mpr ⟨state count, ih fun i hi => h i (by omega), ?_⟩
    rw [List.foldlM_cons, h count (Nat.lt_succ_self count)]
    rfl

section

variable {r : BitSliceReader} {size : ℕ} (h : r.Within size)
include h

theorem bitAt_ok (hpos : pos < size * 8) : ∃ bit, bitAt r.data pos = .ok bit := by
  have hlt : pos / 8 < r.data.length := by
    rw [h.1]
    omega
  have hbyte := List.getElem?_eq_getElem hlt
  rw [bitAt, (index_eq_ok _ _ _).mpr hbyte]
  exact ⟨_, rfl⟩

/-- The padding is there, since the stream is one of whole bytes. -/
theorem alignToByte_ok : ∃ r', alignToByte r = .ok r' := by
  have hpos := h.2
  refine ⟨_, foldlM_range_eq (fun k => (⟨r.data, r.pos + k⟩ : BitSliceReader)) _ ?_⟩
  intro k hk
  obtain ⟨bit, hbit⟩ := bitAt_ok h (show r.pos + k < size * 8 by omega)
  rw [skipBit]
  refine bind_eq_ok.mpr ⟨(bitsToNat [bit], ⟨r.data, r.pos + k + 1⟩), ?_, rfl⟩
  rw [readUint, if_neg Nat.one_ne_zero]
  simp only [require, bind_eq_ok, check_eq_ok, Checked.require_eq_ok]
  refine ⟨(), by decide, (), ?_, [bit], ?_, rfl⟩
  · rw [remainingBits, h.1]
    simp only
    omega
  · rw [List.range_one, List.mapM_cons, Nat.add_zero, hbit]
    rfl

end

variable (n : ℕ)

def chainHeader : List Bool :=
  natToBits 32 1 ++ natToBits 32 0 ++ natToBits 32 n

def chainBit (pos : ℕ) : Bool :=
  if pos < 96 then (chainHeader n).getD pos false
  else if pos < 96 + 8 * n then
    (if (pos - 96) / 8 + 1 < n then 0x91 else 0x90 : ℕ).testBit (7 - (pos - 96) % 8)
  else true

def chainStream : Bytes := stream (9 * n + 95) (chainBit n)

def chainNode (i : ℕ) : NodeInfo := ⟨true, false, 0, if i + 1 < n then 1 else 0, false, 0⟩

def chainRow (i : ℕ) : List ℕ := if i + 1 < n then [i + 1] else []

def chain : Decoded where
  rootIndexes := [0]
  nodes := (range n).map (chainNode n)
  graph := (range n).map (chainRow n)
  drafts := (range n).map fun _ => ⟨[], .ordinary⟩

theorem length_chainStream : (chainStream n).length = (9 * n + 102) / 8 := by
  rw [chainStream, length_stream]

theorem map_range_getD (l : List Bool) {start len : ℕ} (h : start + len ≤ l.length) :
    (range len).map (fun i => l.getD (start + i) false) = (l.drop start).take len := by
  apply List.ext_getElem
  · rw [List.length_map, List.length_range, List.length_take, List.length_drop]
    omega
  · intro i hi _
    rw [List.length_map, List.length_range] at hi
    rw [List.getElem_map, List.getElem_range, List.getElem_take, List.getElem_drop,
      List.getD_eq_getElem?_getD, List.getElem?_eq_getElem (by omega), Option.getD_some]

variable {n : ℕ}

theorem readUint_header (start : ℕ) (hstart : start + 32 ≤ 96) (hn : 1 ≤ n) :
    readUint ⟨chainStream n, start⟩ 32 =
      .ok (bitsToNat (((chainHeader n).drop start).take 32), ⟨chainStream n, start + 32⟩) := by
  have hlen : (chainHeader n).length = 96 := by
    simp [chainHeader]
  have hbits : ((range 32).map fun i => chainBit n (start + i)) =
      ((chainHeader n).drop start).take 32 := by
    rw [← map_range_getD (chainHeader n) (by omega)]
    apply List.map_congr_left
    intro i hi
    have hi := List.mem_range.mp hi
    rw [chainBit, if_pos (by omega)]
  rw [chainStream, readUint_stream (by decide) (by decide) (by omega), hbits]

theorem readHeader_chain (hn : 1 ≤ n) (hmax : n ≤ maxImprovedNodeCount) :
    readHeader (chainStream n).length ⟨chainStream n, 0⟩ = .ok (([0], n), ⟨chainStream n, 96⟩) := by
  have hsmall : n < 2 ^ 32 := by
    rw [maxImprovedNodeCount] at hmax
    omega
  have hsize := length_chainStream n
  have hroots := readUint_header 0 (by decide) hn
  have hroot := readUint_header 32 (by decide) hn
  have hcount := readUint_header 64 (by decide) hn
  have hone : ((chainHeader n).drop 0).take 32 = natToBits 32 1 := by
    rw [chainHeader, List.drop_zero, List.append_assoc, List.take_left' (Block.length_natToBits _ _)]
  have hzero : ((chainHeader n).drop 32).take 32 = natToBits 32 0 := by
    rw [chainHeader, List.append_assoc, List.drop_left' (Block.length_natToBits _ _),
      List.take_left' (Block.length_natToBits _ _)]
  have hlast : ((chainHeader n).drop 64).take 32 = natToBits 32 n := by
    rw [chainHeader, List.drop_left' (by simp), List.take_of_length_le (by simp)]
  rw [hone, Block.bitsToNat_natToBits (by decide)] at hroots
  rw [hlast, Block.bitsToNat_natToBits hsmall] at hcount
  rw [readHeader]
  refine bind_eq_ok.mpr ⟨_, hroots, ?_⟩
  simp only [require, bind_eq_ok, check_eq_ok, Checked.require_eq_ok]
  refine ⟨(), le_rfl, (), by decide, (), by omega, ([0], ⟨chainStream n, 64⟩), ?_, ?_⟩
  · rw [List.range_one, List.foldlM_cons, readRootIndex, hroot]
    rfl
  · refine ⟨_, hcount, (), hn, (), hmax, (), by omega, (), ?_, rfl⟩
    intro index hindex
    rw [List.mem_singleton.mp hindex]
    exact hn

variable {i : ℕ}

theorem chainBit_node {k : ℕ} (hi : i < n) (hk : k < 8) : chainBit n (96 + 8 * i + k) =
    (if i + 1 < n then 0x91 else 0x90 : ℕ).testBit (7 - k) := by
  have hdiv : (96 + 8 * i + k - 96) / 8 = i := by omega
  have hmod : (96 + 8 * i + k - 96) % 8 = k := by omega
  rw [chainBit, if_neg (by omega), if_pos (by omega), hdiv, hmod]

theorem readNode_chain (hi : i < n) :
    readNode ((range i).map (chainNode n), ⟨chainStream n, 96 + 8 * i⟩) i =
      .ok ((range (i + 1)).map (chainNode n), ⟨chainStream n, 96 + 8 * (i + 1)⟩) := by
  have hsize := length_chainStream n
  have htype : readUint ⟨chainStream n, 96 + 8 * i⟩ 4 =
      .ok (9, ⟨chainStream n, 96 + 8 * i + 4⟩) := by
    have hbits : ((range 4).map fun k => chainBit n (96 + 8 * i + k)) =
        [true, false, false, true] := by
      rw [show range 4 = [0, 1, 2, 3] from rfl]
      simp only [List.map_cons, List.map_nil]
      rw [chainBit_node hi (by decide), chainBit_node hi (by decide), chainBit_node hi (by decide),
        chainBit_node hi (by decide)]
      by_cases hlast : i + 1 < n
      · rw [if_pos hlast]
        rfl
      · rw [if_neg hlast]
        rfl
    rw [chainStream, readUint_stream (by decide) (by decide) (by omega), hbits]
    rfl
  have hrefs : readUint ⟨chainStream n, 96 + 8 * i + 4⟩ 4 =
      .ok (if i + 1 < n then 1 else 0, ⟨chainStream n, 96 + 8 * i + 4 + 4⟩) := by
    have hbits : ((range 4).map fun k => chainBit n (96 + 8 * i + 4 + k)) =
        [false, false, false, decide (i + 1 < n)] := by
      rw [show range 4 = [0, 1, 2, 3] from rfl]
      simp only [List.map_cons, List.map_nil, Nat.add_assoc (96 + 8 * i)]
      rw [chainBit_node hi (by decide), chainBit_node hi (by decide), chainBit_node hi (by decide),
        chainBit_node hi (by decide)]
      by_cases hlast : i + 1 < n
      · rw [if_pos hlast, decide_eq_true hlast]
        rfl
      · rw [if_neg hlast, decide_eq_false hlast]
        rfl
    rw [chainStream, readUint_stream (by decide) (by decide) (by omega), hbits]
    by_cases hlast : i + 1 < n
    · rw [decide_eq_true hlast, if_pos hlast]
      rfl
    · rw [decide_eq_false hlast, if_neg hlast]
      rfl
  rw [readNode]
  simp only [require, bind_eq_ok, check_eq_ok, Checked.require_eq_ok]
  refine ⟨(), ?_, _, htype, _, hrefs, (), ?_, (chainNode n i, ⟨chainStream n, 96 + 8 * i + 4 + 4⟩),
    ?_, ?_⟩
  · rw [remainingBits]
    simp only
    omega
  · simp only
    split_ifs
    · decide
    · decide
  · rw [finishNode, if_pos rfl]
    rfl
  · rw [List.range_succ, List.map_append]
    rfl

/-- Before the edges of node `i`, one bit was read for each earlier node. -/
theorem readEdges_chain (hi : i < n) : readEdges ((range n).map (chainNode n))
        ((range i).map (chainRow n), ⟨chainStream n, 96 + 8 * n + min i (n - 1)⟩) i =
      .ok ((range (i + 1)).map (chainRow n),
        ⟨chainStream n, 96 + 8 * n + min (i + 1) (n - 1)⟩) := by
  have hnode : ((range n).map (chainNode n))[i]? = some (chainNode n i) := by
    rw [List.getElem?_map, List.getElem?_range hi]
    rfl
  rw [readEdges]
  refine bind_eq_ok.mpr ⟨_, (index_eq_ok _ _ _).mpr hnode, ?_⟩
  refine bind_eq_ok.mpr ⟨(chainRow n i, ⟨chainStream n, 96 + 8 * n + min (i + 1) (n - 1)⟩), ?_, ?_⟩
  · by_cases hlast : i + 1 < n
    · have hpos : min i (n - 1) = i := by omega
      have hnext : min (i + 1) (n - 1) = i + 1 := by omega
      have hedge : readUint ⟨chainStream n, 96 + 8 * n + i⟩ 1 =
          .ok (1, ⟨chainStream n, 96 + 8 * n + i + 1⟩) := by
        have hbits : ((range 1).map fun k => chainBit n (96 + 8 * n + i + k)) = [true] := by
          rw [List.range_one, List.map_singleton, chainBit, if_neg (by omega), if_neg (by omega)]
        rw [chainStream, readUint_stream (by decide) (by decide) (by omega), hbits]
        rfl
      simp only [chainNode, if_pos hlast, hpos, hnext, List.range_one, List.foldlM_cons]
      refine bind_eq_ok.mpr ⟨([i + 1], ⟨chainStream n, 96 + 8 * n + i + 1⟩), ?_, ?_⟩
      · rw [readEdge]
        exact bind_eq_ok.mpr ⟨_, hedge, rfl⟩
      · rw [chainRow, if_pos hlast]
        rfl
    · have hpos : min i (n - 1) = min (i + 1) (n - 1) := by omega
      simp only [chainNode, if_neg hlast, List.range_zero, List.foldlM_nil, chainRow, hpos]
      rfl
  · rw [List.range_succ, List.map_append]
    rfl

/-- No section after the edges reads anything of a chain but the padding. -/
theorem decode_chain (hn : 1 ≤ n) (hmax : n ≤ maxImprovedNodeCount) :
    decode (chainStream n) = .ok (chain n) := by
  have hsize := length_chainStream n
  have hlen : ((range n).map (chainNode n)).length = n := by
    rw [List.length_map, List.length_range]
  have hnode {i : ℕ} (hi : i < n) : Guarded.index ((range n).map (chainNode n)) i =
      .ok (chainNode n i) := by
    rw [index_eq_ok, List.getElem?_map, List.getElem?_range hi]
    rfl
  have hrow {i : ℕ} (hi : i < n) : Guarded.index ((range n).map (chainRow n)) i =
      .ok (chainRow n i) := by
    rw [index_eq_ok, List.getElem?_map, List.getElem?_range hi]
    rfl
  have hdraft {i : ℕ} (hi : i < n) :
      Guarded.index ((range n).map fun _ => (⟨[], .ordinary⟩ : Draft)) i =
        .ok ⟨[], .ordinary⟩ := by
    rw [index_eq_ok, List.getElem?_map, List.getElem?_range hi]
    rfl
  -- the reader after the edges
  generalize hr : (⟨chainStream n, 96 + 8 * n + min n (n - 1)⟩ : BitSliceReader) = r
  have hnodes := foldlM_range_eq (f := readNode) (fun i =>
    ((range i).map (chainNode n), (⟨chainStream n, 96 + 8 * i⟩ : BitSliceReader))) n
    fun i (hi : i < n) => readNode_chain hi
  have hedges := foldlM_range_eq (f := readEdges ((range n).map (chainNode n))) (fun i =>
    ((range i).map (chainRow n),
      (⟨chainStream n, 96 + 8 * n + min i (n - 1)⟩ : BitSliceReader))) n
    fun i (hi : i < n) => readEdges_chain hi
  have hremainders := foldlM_range_eq (f := readRemainders ((range n).map (chainNode n)))
    (fun i => ((range i).map fun _ => (⟨[], .ordinary⟩ : Draft), r)) n (by
      intro i (hi : i < n)
      rw [readRemainders]
      refine bind_eq_ok.mpr ⟨_, hnode hi, bind_eq_ok.mpr ⟨(⟨[], .ordinary⟩, r), rfl, ?_⟩⟩
      rw [List.range_succ, List.map_append]
      rfl)
  have hclose := foldlM_range_eq (f := closeEdges n ((range n).map (chainRow n)))
    (fun i => ((range i).map (chainRow n), r)) n (by
      intro i (hi : i < n)
      rw [closeEdges]
      refine bind_eq_ok.mpr ⟨_, hrow hi, bind_eq_ok.mpr ⟨(chainRow n i, r), ?_, ?_⟩⟩
      · rw [chainRow]
        by_cases hlast : i + 1 < n
        · rw [if_pos hlast, List.foldlM_cons, closeEdge, if_pos (Nat.succ_ne_zero i)]
          rfl
        · rw [if_neg hlast]
          rfl
      · rw [List.range_succ, List.map_append]
        rfl)
  have hchecks : (range n).forM (checkEdges n ((range n).map (chainRow n))) = .ok () := by
    apply forM_eq_ok.mpr
    intro i hi
    have hi := List.mem_range.mp hi
    rw [checkEdges]
    refine bind_eq_ok.mpr ⟨_, hrow hi, forM_eq_ok.mpr ?_⟩
    intro c hc
    rw [chainRow] at hc
    split_ifs at hc with hlast
    · rw [List.mem_singleton.mp hc]
      simp only [require, bind_eq_ok, check_eq_ok, Checked.require_eq_ok]
      exact ⟨(), hlast, Nat.lt_succ_self i⟩
    · cases hc
  have hwithin : r.Within (chainStream n).length := by
    rw [← hr]
    exact ⟨rfl, by simp only; omega⟩
  obtain ⟨r', hr'⟩ := alignToByte_ok hwithin
  have hdatas := foldlM_range_eq (f := readDatas ((range n).map (chainNode n))
    ((range n).map fun _ => (⟨[], .ordinary⟩ : Draft)))
    (fun i => ((range i).map fun _ => (⟨[], .ordinary⟩ : Draft), r')) n (by
      intro i (hi : i < n)
      rw [readDatas]
      refine bind_eq_ok.mpr ⟨_, hnode hi, bind_eq_ok.mpr ⟨_, hdraft hi, ?_⟩⟩
      refine bind_eq_ok.mpr ⟨(⟨[], .ordinary⟩, r'), rfl, ?_⟩
      rw [List.range_succ, List.map_append]
      rfl)
  rw [decode]
  refine bind_eq_ok.mpr ⟨_, readHeader_chain hn hmax, ?_⟩
  refine bind_eq_ok.mpr ⟨_, hnodes, bind_eq_ok.mpr ⟨_, hedges, ?_⟩⟩
  simp only [hr]
  refine bind_eq_ok.mpr ⟨_, hremainders, bind_eq_ok.mpr ⟨_, hclose, ?_⟩⟩
  refine bind_eq_ok.mpr ⟨(), hchecks, bind_eq_ok.mpr ⟨r', hr', ?_⟩⟩
  exact bind_eq_ok.mpr ⟨_, hdatas, rfl⟩

theorem chain_firstPath (k : ℕ) (hk : k < n) : (chain n).FirstPath (n - 1 - k) (k + 1) := by
  have hlen : (chain n).nodes.length = n := by rw [chain, List.length_map, List.length_range]
  induction k with
  | zero => exact .one (by rw [hlen]; omega)
  | succ k ih =>
    have hi : n - 1 - (k + 1) < n := by omega
    have hnext : n - 1 - (k + 1) + 1 = n - 1 - k := by omega
    have hnode : (chain n).nodes[n - 1 - (k + 1)]? = some (chainNode n (n - 1 - (k + 1))) := by
      rw [chain, List.getElem?_map, List.getElem?_range hi]
      rfl
    have hdraft : (chain n).drafts[n - 1 - (k + 1)]? = some ⟨[], .ordinary⟩ := by
      rw [chain, List.getElem?_map, List.getElem?_range hi]
      rfl
    have hrow : (chain n).graph[n - 1 - (k + 1)]? = some [n - 1 - k] := by
      rw [chain, List.getElem?_map, List.getElem?_range hi, Option.map_some, chainRow,
        if_pos (by omega),
        hnext]
    exact .step hnode hdraft hrow (by simp [isMerkleUpdateNode]) (ih (by omega))

section Input

variable {lz4 : Bytes → ℕ → Checked Bytes}
  (hlz4 : ∀ s : Bytes, s.length < 2 ^ 31 → ∃ c, lz4 c s.length = .ok s) {maxSize : ℕ}
include hlz4

/-- The chain is held by an input when its stream fits under the limit. -/
theorem exists_holdsGraph_chain (hpos : 1 ≤ n) (hmax : n ≤ maxImprovedNodeCount)
    (hsize : 9 * n + 95 ≤ maxSize * 8) :
    ∃ compressed, HoldsGraph lz4 compressed maxSize (chain n) := by
  have hlen := length_chainStream n
  have hsmall : (chainStream n).length < 2 ^ 24 := by
    rw [maxImprovedNodeCount] at hmax
    omega
  obtain ⟨c, hc⟩ := hlz4 (chainStream n) (by omega)
  generalize hn : (chainStream n).length = size at hlen hsmall hc
  let bytes : Bytes := [0, UInt8.ofNat (size / 65536), UInt8.ofNat (size / 256), UInt8.ofNat size]
  have hbytes : beUint bytes = size := by
    simp only [bytes, beUint, List.foldl_cons, List.foldl_nil, UInt8.toNat_ofNat', UInt8.toNat_zero]
    omega
  have htake : (bytes ++ c).take 4 = bytes := List.take_left' rfl
  have hdrop : (bytes ++ c).drop 4 = c := List.drop_left' rfl
  refine ⟨bytes ++ c, ?_, ?_, chainStream n, ?_, ?_, decode_chain hpos hmax⟩
  · rw [List.length_append]
    exact Nat.le_add_right _ _
  · rw [htake, hbytes]
    omega
  · rw [htake, hdrop, hbytes]
    exact hc
  · rw [htake, hbytes]
    exact hn

theorem exists_deep_input (sha256 : Bytes → Bytes) (hpos : 1 ≤ n) (hmax : n ≤ maxImprovedNodeCount)
    (hsize : 9 * n + 95 ≤ maxSize * 8) : ∃ compressed,
      n ≤ (bocDecompressImprovedStructureLz4 sha256 lz4 compressed maxSize).height := by
  obtain ⟨compressed, hheld⟩ := exists_holdsGraph_chain hlz4 hpos hmax hsize
  have hpath := chain_firstPath (n - 1) (show n - 1 < n by omega)
  rw [Nat.sub_self, Nat.sub_add_cancel hpos] at hpath
  exact ⟨compressed, hheld.le_height rfl hpath⟩

end Input

/-- A compression that leaves the bytes as they are. -/
def plain (c : Bytes) (_size : ℕ) : Checked Bytes := .ok c

theorem exists_plain (s : Bytes) (_h : s.length < 2 ^ 31) : ∃ c, plain c s.length = .ok s := ⟨s, rfl⟩

end TonNode.Compression
