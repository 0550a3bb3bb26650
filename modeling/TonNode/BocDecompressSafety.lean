import TonNode.BocDecompress

/-! Decompression of arbitrary bytes ends with a result or an error, and its recursion is
no deeper than the longest path of the graph that the bytes hold. -/
namespace TonNode.Compression

open Guarded Cells Boc
open Nested (Spec)
open Nested.Spec (freeThen requireThen)

namespace BitSliceReader

def Within (size : ℕ) (r : BitSliceReader) : Prop := r.data.length = size ∧ r.pos ≤ size * 8

variable {r : BitSliceReader} {size : ℕ}

variable (h : r.Within size)
include h

theorem bitAt_noCrash {pos : ℕ} (hpos : pos < size * 8) : NoCrash (bitAt r.data pos) := by
  rw [bitAt, noCrash_bind, noCrash_index, h.1]
  exact ⟨by omega, fun _ _ => noCrash_pure _⟩

theorem bits_safe {bits : ℕ} (hbits : bits ≤ r.remainingBits) :
    Safe ((List.range bits).mapM fun i => bitAt r.data (r.pos + i)) fun l => l.length = bits := by
  rw [remainingBits, h.1] at hbits
  refine (Safe.mapM (P := fun _ => True) fun i hi => ⟨?_, fun _ _ => trivial⟩).mono
    fun l _ hl => hl.1.trans List.length_range
  rw [List.mem_range] at hi
  exact bitAt_noCrash h (by omega)

theorem readUint_safe (bits : ℕ) : Safe (r.readUint bits) fun p => p.2.Within size := by
  rw [readUint]
  by_cases hzero : bits = 0
  · rw [if_pos hzero]
    exact Safe.pure h
  · rw [if_neg hzero]
    refine Safe.require.bind fun _ _ _ => ?_
    refine Safe.require.bind fun _ _ hroom => ?_
    refine (bits_safe h hroom).bind fun l _ _ => Safe.pure ⟨h.1, ?_⟩
    rw [remainingBits, h.1] at hroom
    have hpos := h.2
    simp only
    omega

theorem readBits_safe (bits : ℕ) : Safe (r.readBits bits) fun p => p.2.Within size := by
  rw [readBits]
  refine Safe.require.bind fun _ _ hroom => ?_
  refine (bits_safe h hroom).bind fun l _ _ => Safe.pure ⟨h.1, ?_⟩
  rw [remainingBits, h.1] at hroom
  have hpos := h.2
  simp only
  omega

end BitSliceReader

open BitSliceReader

variable {r : BitSliceReader} {size : ℕ}

theorem readHeader_safe (h : r.Within size) : Safe (readHeader size r) fun p =>
    (∀ index ∈ p.1.1, index < p.1.2) ∧ p.2.Within size := by
  rw [readHeader]
  refine (readUint_safe h 32).bind ?_
  rintro ⟨rootCount, r₁⟩ - h₁
  refine Safe.require.bind fun _ _ _ => ?_
  refine Safe.require.bind fun _ _ _ => Safe.require.bind fun _ _ _ => ?_
  have hloop : Safe ((List.range rootCount).foldlM readRootIndex ([], r₁)) fun p =>
      p.2.Within size := by
    refine Safe.foldlM (fun _ (p : List ℕ × BitSliceReader) => p.2.Within size) h₁ ?_
    intro done k todo p _ hp
    rw [readRootIndex]
    refine (readUint_safe hp 32).bind ?_
    rintro ⟨index, r'⟩ - hr'
    exact Safe.pure hr'
  refine hloop.bind ?_
  rintro ⟨rootIndexes, r₂⟩ - h₂
  refine (readUint_safe h₂ 32).bind ?_
  rintro ⟨nodeCount, r₃⟩ - h₃
  refine Safe.require.bind fun _ _ _ => Safe.require.bind fun _ _ _ => ?_
  refine Safe.require.bind fun _ _ _ => Safe.require.bind fun _ _ hindexes => Safe.pure ?_
  exact ⟨hindexes, h₃⟩

def NodeInfo.Ok (node : NodeInfo) : Prop := node.isSpecial = false → node.prunedBranchLevel = 0

theorem finishNode_safe (h : r.Within size) (cellType refs : ℕ) :
    Safe (finishNode cellType refs r) fun p => p.1.Ok ∧ p.2.Within size := by
  rw [finishNode]
  by_cases hmarker : cellType = 9
  · rw [if_pos hmarker]
    exact Safe.pure ⟨fun _ => rfl, h⟩
  · rw [if_neg hmarker]
    have hlength : Safe (readLength (cellType - 1) r) fun p => p.2.Within size := by
      rw [readLength]
      by_cases hlevel : cellType - 1 ≠ 0
      · rw [if_pos hlevel]
        exact Safe.pure h
      · rw [if_neg hlevel]
        refine Safe.require.bind fun _ _ _ => (readUint_safe h 1).bind ?_
        rintro ⟨small, r₁⟩ - h₁
        refine (readUint_safe h₁ 7).bind ?_
        rintro ⟨value, r₂⟩ - h₂
        exact Safe.pure h₂
    refine hlength.bind ?_
    rintro ⟨⟨small, length⟩, r₁⟩ - h₁
    refine Safe.require.bind fun _ _ _ => Safe.pure ⟨?_, h₁⟩
    intro hordinary
    have hzero : cellType = 0 := by simpa using hordinary
    simp only [hzero]

theorem readNodes_safe (h : r.Within size) (nodeCount : ℕ) :
    Safe ((List.range nodeCount).foldlM readNode ([], r)) fun p =>
      p.1.length = nodeCount ∧ (∀ node ∈ p.1, node.Ok) ∧ p.2.Within size := by
  refine (Safe.foldlM (fun (done : List ℕ) (p : List NodeInfo × BitSliceReader) =>
    p.1.length = done.length ∧ (∀ node ∈ p.1, node.Ok) ∧ p.2.Within size)
    ⟨rfl, by simp, h⟩ ?_).mono fun p _ hp => by rwa [List.length_range] at hp
  rintro done i todo ⟨nodes, r₀⟩ - ⟨hlen, hnodes, h₀⟩
  rw [readNode]
  refine Safe.require.bind fun _ _ _ => (readUint_safe h₀ 4).bind ?_
  rintro ⟨cellType, r₁⟩ - h₁
  refine (readUint_safe h₁ 4).bind ?_
  rintro ⟨refs, r₂⟩ - h₂
  refine Safe.require.bind fun _ _ _ => (finishNode_safe h₂ cellType refs).bind ?_
  rintro ⟨node, r₃⟩ - ⟨hnode, h₃⟩
  refine Safe.pure ⟨?_, ?_, h₃⟩
  · rw [List.length_append, hlen, List.length_append]
    rfl
  · exact List.forall_mem_append.mpr ⟨hnodes, List.forall_mem_singleton.mpr hnode⟩

variable (nodes : List NodeInfo)

def Rows (graph : List (List ℕ)) : Prop :=
  List.Forall₂ (fun node row => row.length = node.refsCnt) nodes graph

variable {nodes : List NodeInfo} {node : NodeInfo}

theorem Rows.concat {graph : List (List ℕ)} {k : ℕ} {row : List ℕ} (h : Rows (nodes.take k) graph)
    (hnode : nodes[k]? = some node) (hrow : row.length = node.refsCnt) :
    Rows (nodes.take (k + 1)) (graph ++ [row]) := by
  rw [List.take_add_one, hnode]
  exact List.rel_append h (.cons hrow .nil)

theorem readEdgeRow_safe (h : r.Within size) (i refs : ℕ) :
    Safe ((List.range refs).foldlM (readEdge i) ([], r)) fun p =>
      p.1.length = refs ∧ p.2.Within size := by
  refine (Safe.foldlM (fun (done : List ℕ) (p : List ℕ × BitSliceReader) =>
    p.1.length = done.length ∧ p.2.Within size) ⟨rfl, h⟩ ?_).mono
    fun p _ hp => by rwa [List.length_range] at hp
  rintro done k todo ⟨row, r₀⟩ - ⟨hlen, h₀⟩
  rw [readEdge]
  refine (readUint_safe h₀ 1).bind ?_
  rintro ⟨edge, r₁⟩ - h₁
  refine Safe.pure ⟨?_, h₁⟩
  rw [List.length_append, hlen, List.length_append]
  rfl

theorem readGraph_safe (h : r.Within size) (nodes : List NodeInfo) :
    Safe ((List.range nodes.length).foldlM (readEdges nodes) ([], r)) fun p =>
      Rows nodes p.1 ∧ p.2.Within size := by
  refine (Safe.foldlM (fun (done : List ℕ) (p : List (List ℕ) × BitSliceReader) =>
    Rows (nodes.take done.length) p.1 ∧ p.2.Within size)
    ?_ ?_).mono fun p _ hp => by rwa [List.length_range, List.take_length] at hp
  · exact ⟨List.Forall₂.nil, h⟩
  rintro done i todo ⟨graph, r₀⟩ hl ⟨hrows, h₀⟩
  obtain ⟨rfl, hlt⟩ := range_split hl
  rw [readEdges]
  refine (Safe.index hlt).bind fun node _ hnode => ?_
  refine (readEdgeRow_safe h₀ done.length node.refsCnt).bind ?_
  rintro ⟨row, r₁⟩ - ⟨hrow, h₁⟩
  rw [List.length_append, List.length_singleton]
  exact Safe.pure ⟨hrows.concat hnode hrow, h₁⟩

theorem perNode_safe {β : Type} {f : List β × BitSliceReader → ℕ → Guarded (List β × BitSliceReader)}
    (post : ℕ → β → Prop) (h : r.Within size) (count : ℕ)
    (hstep : ∀ i < count, ∀ (l : List β) (r₀ : BitSliceReader), r₀.Within size →
      Safe (f (l, r₀) i) fun p => ∃ b, p.1 = l ++ [b] ∧ post i b ∧ p.2.Within size) :
    Safe ((List.range count).foldlM f ([], r)) fun p =>
      p.1.length = count ∧ (∀ i b, p.1[i]? = some b → post i b) ∧ p.2.Within size := by
  refine (Safe.foldlM (fun (done : List ℕ) (p : List β × BitSliceReader) =>
    p.1.length = done.length ∧ (∀ i b, p.1[i]? = some b → post i b) ∧ p.2.Within size)
    ⟨rfl, by simp, h⟩ ?_).mono fun p _ hp => by rwa [List.length_range] at hp
  rintro done i todo ⟨l, r₀⟩ hl ⟨hlen, hposts, h₀⟩
  obtain ⟨rfl, hlt⟩ := range_split hl
  refine (hstep done.length hlt l r₀ h₀).mono ?_
  rintro p - ⟨b, hp, hb, hr⟩
  rw [hp]
  refine ⟨by simp [hlen], ?_, hr⟩
  intro k b' hk
  rcases Nat.lt_or_ge k l.length with hlow | hhigh
  · rw [List.getElem?_append_left hlow] at hk
    exact hposts k b' hk
  · rw [List.getElem?_append_right hhigh, List.getElem?_singleton] at hk
    by_cases hzero : k - l.length = 0
    · rw [if_pos hzero] at hk
      obtain rfl := Option.some.inj hk
      have hki : k = done.length := by
        simp only at hlen
        omega
      rw [hki]
      exact hb
    · rw [if_neg hzero] at hk
      cases hk

def Draft.Ok (d : Draft) : Prop := d.bits.length ≤ maxDataBits

theorem appendRaw_safe {d : Draft} (h : d.Ok) (bits : List Bool) :
    Safe (d.appendRaw bits) fun d' => d'.Ok ∧ d'.cellType = d.cellType := by
  rw [Draft.appendRaw]
  refine Safe.require.bind fun _ _ hroom => Safe.pure ⟨?_, rfl⟩
  rw [Draft.Ok, List.length_append]
  rcases hroom with rfl | hroom
  · exact h
  · exact hroom

def Draft.Fits (node : NodeInfo) (d : Draft) : Prop :=
  d.Ok ∧ (node.isSpecial = false → d.cellType = .ordinary)

theorem Draft.Fits.appendRaw_safe {d : Draft} (h : d.Fits node) (bits : List Bool) :
    Safe (d.appendRaw bits) (Draft.Fits node) :=
  (Compression.appendRaw_safe h.1 bits).mono fun _ _ hd =>
    ⟨hd.1, fun hordinary => hd.2.trans (h.2 hordinary)⟩

section

variable (h : r.Within size)
include h

theorem readRemainder_safe (hnode : node.Ok) :
    Safe (readRemainder node r) fun p => p.1.Fits node ∧ p.2.Within size := by
  have hhead : Safe (draftHead node) (Draft.Fits node) := by
    rw [draftHead]
    by_cases hlevel : node.prunedBranchLevel ≠ 0
    · rw [if_pos hlevel]
      have hempty : Draft.Fits node ⟨[], .prunedBranch⟩ :=
        ⟨Nat.zero_le _, fun hordinary => absurd (hnode hordinary) hlevel⟩
      exact hempty.appendRaw_safe _
    · rw [if_neg hlevel]
      exact Safe.pure ⟨Nat.zero_le _, fun _ => rfl⟩
  rw [readRemainder]
  refine hhead.bind fun draft _ hdraft => Safe.require.bind fun _ _ _ => ?_
  refine (readBits_safe h _).bind ?_
  rintro ⟨bits, r₁⟩ - h₁
  exact (hdraft.appendRaw_safe bits).bind fun d _ hd => Safe.pure ⟨hd, h₁⟩

theorem nodeRemainder_safe (hnode : node.Ok) :
    Safe (nodeRemainder node r) fun p => p.1.Fits node ∧ p.2.Within size := by
  rw [nodeRemainder]
  by_cases hmarker : node.isDepthBalance = true
  · rw [if_pos hmarker]
    exact Safe.pure ⟨⟨Nat.zero_le _, fun _ => rfl⟩, h⟩
  · rw [if_neg hmarker]
    exact readRemainder_safe h hnode

theorem readDelta_safe (requiredBits : ℕ) :
    Safe (readDelta requiredBits r) fun p => p.2.Within size := by
  rw [readDelta]
  by_cases hshort : requiredBits < 8 - (r.pos + 1) % 8 + 1
  · rw [if_pos hshort]
    exact readUint_safe h _
  · rw [if_neg hshort]
    refine (readUint_safe h 1).bind ?_
    rintro ⟨edge, r₁⟩ - h₁
    by_cases hedge : edge = 1
    · simp only [if_pos hedge]
      exact readUint_safe h₁ _
    · simp only [if_neg hedge]
      exact readUint_safe h₁ _

theorem closeRow_safe (nodeCount i : ℕ) (row : List ℕ) :
    Safe (row.foldlM (closeEdge nodeCount i) ([], r)) fun p =>
      p.1.length = row.length ∧ p.2.Within size := by
  refine Safe.foldlM (fun (done : List ℕ) (p : List ℕ × BitSliceReader) =>
    p.1.length = done.length ∧ p.2.Within size) ⟨rfl, h⟩ ?_
  rintro done child todo ⟨l, r₀⟩ - ⟨hlen, h₀⟩
  rw [closeEdge]
  by_cases hset : child ≠ 0
  · rw [if_pos hset]
    exact Safe.pure ⟨by simp [hlen], h₀⟩
  · rw [if_neg hset]
    by_cases hsmall : nodeCount ≤ i + 3
    · rw [if_pos hsmall]
      exact Safe.pure ⟨by simp [hlen], h₀⟩
    · rw [if_neg hsmall]
      refine (readDelta_safe h₀ _).bind ?_
      rintro ⟨delta, r₁⟩ - h₁
      exact Safe.pure ⟨by simp [hlen], h₁⟩

end

theorem checkGraph_safe {nodeCount : ℕ} {graph : List (List ℕ)} (h : graph.length = nodeCount) :
    Safe ((List.range nodeCount).forM (checkEdges nodeCount graph)) fun _ =>
      ∀ i row, graph[i]? = some row → ∀ c ∈ row, i < c ∧ c < nodeCount := by
  have hedge (node child : ℕ) : NoCrash (do
      require (child < nodeCount) "BOC decompression failed: invalid graph connection"
      require (node < child) "BOC decompression failed: circular reference in graph") :=
    noCrash_bind.mpr ⟨noCrash_check _, fun _ _ => noCrash_check _⟩
  constructor
  · apply noCrash_forM.mpr
    intro done i todo hl _
    obtain ⟨rfl, hlt⟩ := range_split hl
    rw [checkEdges, noCrash_bind, noCrash_index, h]
    refine ⟨hlt, fun row _ => noCrash_forM.mpr ?_⟩
    intro _ child _ _ _
    exact hedge done.length child
  · rintro ⟨⟩ hall i row hrow c hc
    have hi : i < nodeCount := by
      rw [← h]
      exact (List.getElem?_eq_some_iff.mp hrow).1
    have hchecked := forM_eq_ok.mp hall i (List.mem_range.mpr hi)
    rw [checkEdges, bind_eq_ok] at hchecked
    obtain ⟨row', hrow', hrows⟩ := hchecked
    obtain rfl : row = row' := Option.some.inj (hrow.symm.trans ((index_eq_ok _ _ _).mp hrow'))
    have hboth := forM_eq_ok.mp hrows c hc
    simp only [require, bind_eq_ok, check_eq_ok, Checked.require_eq_ok] at hboth
    obtain ⟨-, hless, hmore⟩ := hboth
    exact ⟨hmore, hless⟩

theorem alignToByte_safe (h : r.Within size) : Safe (alignToByte r) (BitSliceReader.Within size) := by
  refine Safe.foldlM (fun _ (r : BitSliceReader) => r.Within size) h ?_
  intro done k todo r₀ _ h₀
  rw [skipBit]
  refine (readUint_safe h₀ 1).bind ?_
  rintro ⟨bit, r₁⟩ - h₁
  exact Safe.pure h₁

/-- The zeros before the marker end with the stream at the latest. -/
theorem skipZeros_safe (fuel : ℕ) (h : r.Within size) (hfuel : fuel ≤ r.remainingBits) :
    Safe (skipZeros fuel r) fun p => p.2.Within size := by
  induction fuel generalizing r with
  | zero => exact Safe.pure h
  | succ fuel ih =>
    have hroom := hfuel
    rw [remainingBits, h.1] at hroom
    rw [skipZeros]
    have hbit : Safe (bitAt r.data r.pos) fun _ => True :=
      ⟨bitAt_noCrash h (by omega), fun _ _ => trivial⟩
    refine hbit.bind fun bit _ _ => ?_
    cases bit with
    | true => exact Safe.pure h
    | false =>
      have hnext : BitSliceReader.Within size { r with pos := r.pos + 1 } :=
        ⟨h.1, by simp only; omega⟩
      refine (ih hnext (by rw [remainingBits, h.1]; simp only; omega)).bind ?_
      rintro ⟨zeros, r₁⟩ - h₁
      exact Safe.pure h₁

variable {draft : Draft}

theorem readData_safe (h : r.Within size) (hdraft : draft.Fits node) :
    Safe (readData node draft r) fun p => p.1.Fits node ∧ p.2.Within size := by
  have hpadding : Safe (readPadding node r) fun p => p.2.Within size := by
    rw [readPadding]
    by_cases hmarked : node.prunedBranchLevel = 0 ∧ node.isDataSmall = false
    · rw [if_pos hmarked]
      refine (skipZeros_safe _ h le_rfl).bind ?_
      rintro ⟨zeros, r₁⟩ - h₁
      refine (readUint_safe h₁ 1).bind ?_
      rintro ⟨marker, r₂⟩ - h₂
      exact Safe.pure h₂
    · rw [if_neg hmarked]
      exact Safe.pure h
  rw [readData]
  refine hpadding.bind ?_
  rintro ⟨padding, r₁⟩ - h₁
  refine Safe.require.bind fun _ _ _ => Safe.require.bind fun _ _ _ => ?_
  refine (readBits_safe h₁ _).bind ?_
  rintro ⟨bits, r₂⟩ - h₂
  exact (hdraft.appendRaw_safe bits).bind fun d _ hd => Safe.pure ⟨hd, h₂⟩

theorem nodeData_safe (h : r.Within size) (hdraft : draft.Fits node) :
    Safe (nodeData node draft r) fun p => p.1.Fits node ∧ p.2.Within size := by
  rw [nodeData]
  by_cases hmarker : node.isDepthBalance = true
  · rw [if_pos hmarker]
    exact Safe.pure ⟨hdraft, h⟩
  · rw [if_neg hmarker]
    exact readData_safe h hdraft

structure Decoded.Ok (d : Decoded) : Prop where
  roots_lt : ∀ idx ∈ d.rootIndexes, idx < d.nodes.length
  length_graph : d.graph.length = d.nodes.length
  length_drafts : d.drafts.length = d.nodes.length
  length_row : ∀ (i : ℕ) (node : NodeInfo) (row : List ℕ), d.nodes[i]? = some node →
    d.graph[i]? = some row → row.length = node.refsCnt
  edge_lt : ∀ (i : ℕ) (row : List ℕ), d.graph[i]? = some row → ∀ c ∈ row, i < c ∧ c < d.nodes.length
  drafts_fit : ∀ (i : ℕ) (draft : Draft), d.drafts[i]? = some draft →
    ∀ node, d.nodes[i]? = some node → draft.Fits node

theorem decode_safe (serialized : Bytes) : Safe (decode serialized) Decoded.Ok := by
  have hstart : BitSliceReader.Within serialized.length ⟨serialized, 0⟩ := ⟨rfl, Nat.zero_le _⟩
  rw [decode]
  refine (readHeader_safe hstart).bind ?_
  rintro ⟨⟨rootIndexes, nodeCount⟩, r₁⟩ - ⟨hroots, h₁⟩
  refine (readNodes_safe h₁ nodeCount).bind ?_
  rintro ⟨nodes, r₂⟩ - ⟨hnodes, hnodesOk, h₂⟩
  simp only at hnodes hnodesOk h₂ ⊢
  subst hnodes
  refine (readGraph_safe h₂ nodes).bind ?_
  rintro ⟨graph, r₃⟩ - ⟨hrows, h₃⟩
  have hremainders := perNode_safe (f := readRemainders nodes)
    (fun i d => ∀ node, nodes[i]? = some node → Draft.Fits node d) h₃ nodes.length (by
      intro i hi l r₀ h₀
      rw [readRemainders]
      refine (Safe.index hi).bind fun node _ hnode => ?_
      refine (nodeRemainder_safe h₀ (hnodesOk node (List.mem_of_getElem? hnode))).bind ?_
      rintro ⟨draft, r'⟩ - ⟨hdraft, hr'⟩
      refine Safe.pure ⟨draft, rfl, ?_, hr'⟩
      intro node' hnode'
      rwa [Option.some.inj (hnode'.symm.trans hnode)])
  refine hremainders.bind ?_
  rintro ⟨drafts, r₄⟩ - ⟨hdrafts, hdraftsOk, h₄⟩
  have hclose := perNode_safe (f := closeEdges nodes.length graph)
    (fun i row => ∀ old, graph[i]? = some old → row.length = old.length) h₄ nodes.length (by
      intro i hi l r₀ h₀
      rw [closeEdges]
      refine (Safe.index (by rw [← hrows.length_eq]; exact hi)).bind fun row _ hrow => ?_
      refine (closeRow_safe h₀ nodes.length i row).bind ?_
      rintro ⟨row', r'⟩ - ⟨hlen, hr'⟩
      refine Safe.pure ⟨row', rfl, ?_, hr'⟩
      intro old hold
      obtain rfl : row = old := Option.some.inj (hrow.symm.trans hold)
      exact hlen)
  refine hclose.bind ?_
  rintro ⟨closed, r₅⟩ - ⟨hclosed, hsame, h₅⟩
  refine (checkGraph_safe hclosed).bind fun _ _ hedges => ?_
  refine (alignToByte_safe h₅).bind fun r₆ _ h₆ => ?_
  have hdatas := perNode_safe (f := readDatas nodes drafts)
    (fun i d => ∀ node, nodes[i]? = some node → Draft.Fits node d) h₆ nodes.length (by
      intro i hi l r₀ h₀
      rw [readDatas]
      refine (Safe.index hi).bind fun node _ hnode => ?_
      refine (Safe.index (by rw [hdrafts]; exact hi)).bind fun draft _ hdraft => ?_
      refine (nodeData_safe h₀ (hdraftsOk i draft hdraft node hnode)).bind ?_
      rintro ⟨draft', r'⟩ - ⟨hdraft', hr'⟩
      refine Safe.pure ⟨draft', rfl, ?_, hr'⟩
      intro node' hnode'
      rwa [Option.some.inj (hnode'.symm.trans hnode)])
  refine hdatas.bind ?_
  rintro ⟨final, r₇⟩ - ⟨hfinal, hfinalOk, -⟩
  refine Safe.pure ⟨hroots, hclosed, hfinal, ?_, hedges, hfinalOk⟩
  intro i node row hnode hrow
  have hi : i < graph.length := by
    rw [← hrows.length_eq]
    exact (List.getElem?_eq_some_iff.mp hnode).1
  have hold : graph[i]? = some graph[i] := List.getElem?_eq_getElem hi
  have hwidth := (List.forall₂_iff_get.mp hrows).2 i (List.getElem?_eq_some_iff.mp hnode).1 hi
  rw [hsame i row hrow _ hold]
  obtain ⟨hlt, rfl⟩ := List.getElem?_eq_some_iff.mp hnode
  exact hwidth

/-- There is a path of `n` nodes from the node. -/
inductive Decoded.Path (d : Decoded) : ℕ → ℕ → Prop where
  | one (idx : ℕ) : d.Path idx 1
  | step {idx c n : ℕ} {row : List ℕ} (hrow : d.graph[idx]? = some row) (hc : c ∈ row)
      (h : d.Path c n) : d.Path idx (n + 1)

/-- No path from a root has more than `limit` nodes. -/
def Decoded.Shallow (d : Decoded) (limit : ℕ) : Prop :=
  ∀ root ∈ d.rootIndexes, ∀ n, d.Path root n → n ≤ limit

variable {idx : ℕ} {d : Decoded}

theorem Decoded.Path.of_child {c n : ℕ} {row : List ℕ} (hn : ∀ m, d.Path idx m → m ≤ n + 1)
    (hrow : d.graph[idx]? = some row) (hc : c ∈ row) : ∀ m, d.Path c m → m ≤ n :=
  fun m hm => Nat.le_of_succ_le_succ (hn (m + 1) (.step hrow hc hm))

theorem Decoded.Ok.path_le (hd : d.Ok) {n : ℕ} (h : d.Path idx n) (hidx : idx < d.nodes.length) :
    n ≤ d.nodes.length - idx := by
  induction h with
  | one => omega
  | @step idx c n row hrow hc _ ih =>
    obtain ⟨hlow, hhigh⟩ := hd.edge_lt idx row hrow c hc
    have hrest := ih hhigh
    omega

theorem Decoded.Ok.shallow (hd : d.Ok) : d.Shallow d.nodes.length :=
  fun root hroot _ hpath => (hd.path_le hpath (hd.roots_lt root hroot)).trans (Nat.sub_le _ _)

structure StateOk (d : Decoded) (s : BuildState) : Prop where
  length_cells : s.cells.length = d.nodes.length
  length_drafts : s.drafts.length = d.nodes.length
  sound : ∀ (i : ℕ) (c : Cell), s.cells[i]? = some (some c) → c.buf.Sound
  drafts_fit : ∀ (i : ℕ) (draft : Draft), s.drafts[i]? = some (some draft) →
    ∀ node, d.nodes[i]? = some node → draft.Fits node

theorem length_packBytes (bits : List Bool) : (packBytes bits).length = (bits.length + 7) / 8 := by
  rw [packBytes, List.length_map, List.length_range]

theorem packBytes_zero {d : Draft} (h : 8 ≤ d.bits.length) :
    (packBytes d.bits)[0]? = some (UInt8.ofNat d.tag) := by
  have hlen : (d.bits.take 8).length = 8 := by
    rw [List.length_take]
    omega
  rw [packBytes, List.getElem?_map, List.getElem?_range (by omega), Option.map_some]
  simp only [Nat.mul_zero, List.drop_zero, hlen, Nat.sub_self, List.replicate_zero, List.append_nil]
  rfl

theorem specialCellType_safe (h : draft.Fits node) (children : List Cell) :
    Safe (specialCellType node.isSpecial draft) fun type =>
      BuilderData.Typed ⟨packBytes draft.bits, draft.bits.length, children, type⟩ := by
  rw [specialCellType]
  by_cases hordinary : node.isSpecial = false
  · rw [if_pos hordinary]
    exact Safe.pure (Or.inl (h.2 hordinary))
  · rw [if_neg hordinary]
    refine Safe.require.bind fun _ _ hbyte => ?_
    have htag : draft.tag < 256 := by
      have hlt := Block.bitsToNat_lt (draft.bits.take 8)
      rw [List.length_take, Nat.min_eq_left hbyte] at hlt
      exact hlt
    -- a first byte of two is a tag of two
    have htwo (hfirst : (packBytes draft.bits)[0]? = some 2) : draft.tag = 2 := by
      rw [packBytes_zero hbyte] at hfirst
      have hnat := congrArg UInt8.toNat (Option.some.inj hfirst)
      rwa [UInt8.toNat_ofNat', Nat.mod_eq_of_lt htag] at hnat
    split
    · next heq => exact Safe.pure (Or.inr ⟨hbyte, fun hfirst => by rw [htwo hfirst] at heq; cases heq⟩)
    · exact Safe.pure (Or.inr ⟨hbyte, fun _ => rfl⟩)
    · next heq => exact Safe.pure (Or.inr ⟨hbyte, fun hfirst => by rw [htwo hfirst] at heq; cases heq⟩)
    · next heq => exact Safe.pure (Or.inr ⟨hbyte, fun hfirst => by rw [htwo hfirst] at heq; cases heq⟩)
    · exact ⟨noCrash_check _, nofun⟩

section Build

variable {sha256 : Bytes → Bytes} {d : Decoded} {s : BuildState}

theorem childCell_safe (hs : StateOk d s) {c : ℕ} (hc : c < d.nodes.length) :
    Safe (childCell s c) fun cell => cell.buf.Sound := by
  rw [childCell]
  refine (Safe.index (by rw [hs.length_cells]; exact hc)).bind fun cell _ hcell => ?_
  refine Safe.check.mono fun c' _ hpresent => ?_
  rw [Checked.present_eq_ok] at hpresent
  rw [hpresent] at hcell
  exact hs.sound c c' hcell

theorem StateOk.set (hs : StateOk d s) {cell : Cell} (hcell : cell.buf.Sound) :
    StateOk d ⟨s.cells.set idx (some cell), s.drafts.set idx none⟩ := by
  refine ⟨by rw [List.length_set]; exact hs.length_cells,
    by rw [List.length_set]; exact hs.length_drafts, ?_, ?_⟩
  · intro i c hc
    simp only [List.getElem?_set] at hc
    split_ifs at hc with hi hlt
    · rw [← Option.some.inj (Option.some.inj hc)]
      exact hcell
    · exact hs.sound i c hc
  · intro i draft hdraft
    simp only [List.getElem?_set] at hdraft
    split_ifs at hdraft with hi hlt
    · cases Option.some.inj hdraft
    · exact hs.drafts_fit i draft hdraft

theorem finalizeNode_safe (hd : d.Ok) (hs : StateOk d s) (hidx : idx < d.nodes.length) :
    Safe (finalizeNode sha256 d idx s) (StateOk d) := by
  rw [finalizeNode]
  refine (Safe.index (by rw [hs.length_drafts]; exact hidx)).bind fun draft _ hdraft => ?_
  refine Safe.check.bind fun draft' _ hpresent => ?_
  rw [Checked.present_eq_ok] at hpresent
  rw [hpresent] at hdraft
  refine (Safe.index (by rw [hd.length_graph]; exact hidx)).bind fun row _ hrow => ?_
  have hchildren := Safe.mapM fun c hc => childCell_safe hs (hd.edge_lt idx row hrow c hc).2
  refine hchildren.bind fun children _ ⟨_, hsound⟩ => Safe.require.bind fun _ _ _ => ?_
  refine (Safe.index hidx).bind fun node _ hnode => ?_
  have hfits := hs.drafts_fit idx draft' hdraft node hnode
  refine (specialCellType_safe hfits children).bind fun type _ htyped => ?_
  have hlimit : Hashmap.maxSafeDepth ≤ Cells.maxDepth := by decide
  refine (finalize_safe hlimit hsound ?_ htyped).bind fun cell _ hcell => Safe.pure (hs.set hcell)
  simp only [length_packBytes]
  omega

variable {left : Option ℕ} {right : ℕ}

theorem vertexDiff_noCrash (hs : StateOk d s) (hleft : ∀ l ∈ left, l < d.nodes.length)
    (hright : right < d.nodes.length) : NoCrash (vertexDiff s left right) := by
  cases left with
  | none => exact noCrash_pure _
  | some l =>
    rw [vertexDiff, noCrash_bind, noCrash_index, hs.length_cells]
    refine ⟨hleft l rfl, fun leftCell _ => ?_⟩
    rw [noCrash_bind, noCrash_index, hs.length_cells]
    refine ⟨hright, fun rightCell _ => ?_⟩
    cases leftCell with
    | none => exact noCrash_pure _
    | some _ =>
      cases rightCell with
      | none | some _ => exact noCrash_pure _

theorem checkedAdd_noCrash (a b : ℤ) : NoCrash (checkedAdd a b) :=
  noCrash_bind.mpr ⟨noCrash_check _, fun _ _ => noCrash_pure _⟩

theorem addDiff_noCrash (sum diff : Option ℤ) : NoCrash (addDiff sum diff) := by
  cases sum with
  | none => exact noCrash_pure _
  | some sum =>
    cases diff with
    | none => exact noCrash_pure _
    | some diff => exact noCrash_bind.mpr ⟨checkedAdd_noCrash _ _, fun _ _ => noCrash_pure _⟩

theorem writeDepthBalanceCoins_safe (h : draft.Fits node) (coins : ℕ) :
    Safe (writeDepthBalanceCoins draft coins) (Draft.Fits node) := by
  rw [writeDepthBalanceCoins]
  refine (h.appendRaw_safe _).bind fun d₁ _ h₁ => Safe.require.bind fun _ _ _ => ?_
  refine (h₁.appendRaw_safe _).bind fun d₂ _ h₂ => ?_
  exact (h₂.appendRaw_safe _).bind fun d₃ _ h₃ => h₃.appendRaw_safe _

theorem restoreCoins_safe (hs : StateOk d s) (sum : ℤ) (hleft : ∀ l ∈ left, l < d.nodes.length)
    (hright : right < d.nodes.length) : Safe (restoreCoins right left sum s) (StateOk d) := by
  rw [restoreCoins]
  refine Safe.check.bind fun l _ hpresent => ?_
  rw [Checked.present_eq_ok] at hpresent
  refine (childCell_safe hs (hleft l hpresent)).bind fun leftCell _ _ => ?_
  refine Safe.check.bind fun coins _ _ => ?_
  have hadd : Safe (checkedAdd coins sum) fun _ => True :=
    ⟨checkedAdd_noCrash _ _, fun _ _ => trivial⟩
  refine hadd.bind fun expected _ _ => Safe.require.bind fun _ _ _ => ?_
  refine (Safe.index (by rw [hs.length_drafts]; exact hright)).bind fun draft _ hdraft => ?_
  refine Safe.check.bind fun draft' _ hsome => ?_
  rw [Checked.present_eq_ok] at hsome
  rw [hsome] at hdraft
  have hnode : d.nodes[right]? = some d.nodes[right] := List.getElem?_eq_getElem hright
  have hfits := hs.drafts_fit right draft' hdraft _ hnode
  refine (writeDepthBalanceCoins_safe hfits _).bind fun written _ hwritten => Safe.pure ?_
  refine ⟨hs.length_cells, by rw [List.length_set]; exact hs.length_drafts, hs.sound, ?_⟩
  intro i draft'' hi node hnode'
  simp only [List.getElem?_set] at hi
  split_ifs at hi with heq hlt
  · subst heq
    rw [← Option.some.inj (Option.some.inj hi), Option.some.inj (hnode'.symm.trans hnode)]
    exact hwritten
  · exact hs.drafts_fit i draft'' hi node hnode'

section

variable (hd : d.Ok)
include hd

theorem finishRight_safe (hs : StateOk d s) (out : Option ℤ) (sum : ℤ)
    (hleft : ∀ l ∈ left, l < d.nodes.length) (hright : right < d.nodes.length) :
    Safe (finishRight sha256 d right left out sum s) fun p => StateOk d p.1 := by
  have hout (s : BuildState) (hs : StateOk d s) (diff : Option ℤ) : Safe (do
      let out ← addDiff out diff
      pure (s, out)) fun p => StateOk d p.1 := by
    have hdiff : Safe (addDiff out diff) fun _ => True := ⟨addDiff_noCrash _ _, fun _ _ => trivial⟩
    exact hdiff.bind fun _ _ _ => Safe.pure hs
  rw [finishRight]
  refine (Safe.index hright).bind fun node _ _ => ?_
  by_cases hmarker : node.isDepthBalance = true
  · rw [if_pos hmarker]
    refine (restoreCoins_safe hs sum hleft hright).bind fun s₁ _ h₁ => ?_
    exact (finalizeNode_safe hd h₁ hright).bind fun s₂ _ h₂ => hout s₂ h₂ _
  · rw [if_neg hmarker]
    refine (finalizeNode_safe hd hs hright).bind fun s₁ _ h₁ => ?_
    have hdiff : Safe (vertexDiff s₁ left right) fun _ => True :=
      ⟨vertexDiff_noCrash h₁ hleft hright, fun _ _ => trivial⟩
    exact hdiff.bind fun diff _ _ => hout s₁ h₁ diff

theorem leftChild_safe (j : ℕ) (hleft : ∀ l ∈ left, l < d.nodes.length) :
    Safe (leftChild d left j) fun child => ∀ l ∈ child, l < d.nodes.length := by
  cases left with
  | none => exact Safe.pure nofun
  | some left =>
    rw [leftChild]
    refine (Safe.index (by rw [hd.length_graph]; exact hleft left rfl)).bind fun row _ hrow => ?_
    exact Safe.pure fun l hl => (hd.edge_lt left row hrow l (List.mem_of_getElem? hl)).2

/-- The right side of a Merkle update is built without a crash, as deep as the paths from
its node are long. -/
theorem buildRightUnderMu_spec (fuel right : ℕ) (left : Option ℕ) (out : Option ℤ)
    (s : BuildState) {n : ℕ} (hs : StateOk d s) (hleft : ∀ l ∈ left, l < d.nodes.length)
    (hright : right < d.nodes.length) (hfuel : d.nodes.length - right ≤ fuel)
    (hn : ∀ m, d.Path right m → m ≤ n) :
    Spec (buildRightUnderMu sha256 d fuel right left out s) n fun p => StateOk d p.1 := by
  induction fuel generalizing right left out s n with
  | zero => omega
  | succ fuel ih =>
    obtain ⟨k, rfl⟩ := Nat.exists_eq_add_of_le' (hn 1 (.one right))
    rw [buildRightUnderMu]
    refine Spec.call ?_
    refine freeThen (Safe.index (by rw [hs.length_cells]; exact hright)) fun built _ => ?_
    by_cases hbuilt : built.isSome = true
    · rw [if_pos hbuilt]
      have hdiff : Safe (vertexDiff s left right) fun _ => True :=
        ⟨vertexDiff_noCrash hs hleft hright, fun _ _ => trivial⟩
      refine freeThen hdiff fun diff _ => ?_
      have hout : Safe (addDiff out diff) fun _ => True := ⟨addDiff_noCrash _ _, fun _ _ => trivial⟩
      exact freeThen hout fun out' _ => Spec.pure hs
    · rw [if_neg hbuilt]
      refine freeThen (Safe.index (by rw [hd.length_graph]; exact hright)) fun row hrow => ?_
      have hloop : Spec (row.zipIdx.foldlM (fun p child => do
          let left ← Nested.free (leftChild d left child.2)
          buildRightUnderMu sha256 d fuel child.1 left p.2 p.1) (s, some 0)) k
          fun p : BuildState × Option ℤ => StateOk d p.1 := by
        refine Spec.foldlM (fun _ (p : BuildState × Option ℤ) => StateOk d p.1) hs ?_
        rintro done ⟨c, j⟩ todo ⟨t, sum⟩ hl ht
        have hmem : c ∈ row := by
          have hpair : (c, j) ∈ row.zipIdx := by
            rw [hl]
            simp
          exact List.fst_mem_of_mem_zipIdx hpair
        obtain ⟨hlow, hhigh⟩ := hd.edge_lt right row hrow c hmem
        refine freeThen (leftChild_safe hd j hleft) fun l hl' => ?_
        exact ih c l sum t ht hl' hhigh (by omega) (Decoded.Path.of_child hn hrow hmem)
      refine hloop.bind ?_
      rintro ⟨t, sum⟩ ht
      exact Spec.free (finishRight_safe hd ht out (sum.getD 0) hleft hright)

/-- A node is built without a crash, as deep as the paths from it are long. -/
theorem buildNode_spec (fuel idx : ℕ) (s : BuildState) {n : ℕ} (hs : StateOk d s)
    (hidx : idx < d.nodes.length) (hfuel : d.nodes.length - idx ≤ fuel)
    (hn : ∀ m, d.Path idx m → m ≤ n) : Spec (buildNode sha256 d fuel s idx) n (StateOk d) := by
  induction fuel generalizing idx s n with
  | zero => omega
  | succ fuel ih =>
    obtain ⟨k, rfl⟩ := Nat.exists_eq_add_of_le' (hn 1 (.one idx))
    have hfinish (t : BuildState) (ht : StateOk d t) :
        Spec (Nested.free (finalizeNode sha256 d idx t)) k (StateOk d) :=
      Spec.free (finalizeNode_safe hd ht hidx)
    rw [buildNode]
    refine Spec.call ?_
    refine freeThen (Safe.index (by rw [hs.length_cells]; exact hidx)) fun built _ => ?_
    by_cases hbuilt : built.isSome = true
    · rw [if_pos hbuilt]
      exact Spec.pure hs
    rw [if_neg hbuilt]
    refine freeThen (Safe.index (by rw [hs.length_drafts]; exact hidx)) fun draft _ => ?_
    refine freeThen (Safe.index hidx) fun node hnode => ?_
    refine freeThen (Safe.index (by rw [hd.length_graph]; exact hidx)) fun row hrow => ?_
    have hchild (c : ℕ) (hc : c ∈ row) : c < d.nodes.length ∧ d.nodes.length - c ≤ fuel := by
      obtain ⟨hlow, hhigh⟩ := hd.edge_lt idx row hrow c hc
      exact ⟨hhigh, by omega⟩
    by_cases hupdate : draft.any (isMerkleUpdateNode node.isSpecial) = true
    · rw [if_pos hupdate]
      refine requireThen fun htwo => ?_
      have hwidth := hd.length_row idx node row hnode hrow
      refine freeThen (Safe.index (by omega)) fun left hleft => ?_
      refine freeThen (Safe.index (by omega)) fun right hright => ?_
      have hlmem := List.mem_of_getElem? hleft
      have hrmem := List.mem_of_getElem? hright
      obtain ⟨hl, hlfuel⟩ := hchild left hlmem
      obtain ⟨hr, hrfuel⟩ := hchild right hrmem
      refine (ih left s hs hl hlfuel (Decoded.Path.of_child hn hrow hlmem)).bind fun t ht => ?_
      have hpaired : ∀ l ∈ some left, l < d.nodes.length := by
        intro l hmem
        rwa [← Option.some.inj hmem]
      refine (buildRightUnderMu_spec hd fuel right (some left) none t ht hpaired hr hrfuel
        (Decoded.Path.of_child hn hrow hrmem)).bind ?_
      rintro ⟨u, sum⟩ hu
      exact hfinish u hu
    · rw [if_neg hupdate]
      have hloop : Spec (row.foldlM (buildNode sha256 d fuel) s) k (StateOk d) := by
        refine Spec.foldlM (fun _ t => StateOk d t) hs ?_
        intro done c todo t hl ht
        have hmem : c ∈ row := by rw [hl]; simp
        obtain ⟨hc, hcfuel⟩ := hchild c hmem
        exact ih c t ht hc hcfuel (Decoded.Path.of_child hn hrow hmem)
      exact hloop.bind hfinish

theorem Decoded.Ok.start : StateOk d d.start := by
  refine ⟨by rw [Decoded.start, List.length_map],
    by rw [Decoded.start, List.length_map]; exact hd.length_drafts, ?_, ?_⟩
  · intro i c hc
    rw [Decoded.start, List.getElem?_map] at hc
    cases hnode : d.nodes[i]? with
    | none =>
      rw [hnode] at hc
      cases hc
    | some node =>
      rw [hnode] at hc
      cases Option.some.inj hc
  · intro i draft hdraft node hnode
    rw [Decoded.start, List.getElem?_map] at hdraft
    cases hold : d.drafts[i]? with
    | none =>
      rw [hold] at hdraft
      cases hdraft
    | some draft' =>
      rw [hold] at hdraft
      rw [← Option.some.inj (Option.some.inj hdraft)]
      exact hd.drafts_fit i draft' hold node hnode

theorem buildRoots_spec {limit : ℕ} (hshallow : d.Shallow limit) :
    Spec (buildRoots sha256 d) limit fun _ => True := by
  have hroots : Spec (d.rootIndexes.foldlM (buildNode sha256 d d.nodes.length) d.start) limit
      (StateOk d) := by
    refine Spec.foldlM (fun _ t => StateOk d t) hd.start ?_
    intro done idx todo t hl ht
    have hmem : idx ∈ d.rootIndexes := by rw [hl]; simp
    exact buildNode_spec hd _ idx t ht (hd.roots_lt idx hmem) (Nat.sub_le _ _)
      (hshallow idx hmem)
  rw [buildRoots]
  refine hroots.bind fun s hs => Spec.free ⟨?_, fun _ _ => trivial⟩
  refine (Safe.mapM (P := fun _ => True) fun idx hidx => ⟨?_, fun _ _ => trivial⟩).1
  rw [noCrash_bind, noCrash_index, hs.length_cells]
  exact ⟨hd.roots_lt idx hidx, fun _ _ => noCrash_check _⟩

end

end Build

/-- The bytes hold the graph. -/
def HoldsGraph (lz4 : Bytes → ℕ → Checked Bytes) (compressed : Bytes) (maxSize : ℕ)
    (d : Decoded) : Prop :=
  4 ≤ compressed.length ∧ beUint (compressed.take 4) ≤ maxSize ∧
    ∃ serialized, lz4 (compressed.drop 4) (beUint (compressed.take 4)) = .ok serialized ∧
      serialized.length = beUint (compressed.take 4) ∧ decode serialized = .ok d

section Graph

variable {lz4 : Bytes → ℕ → Checked Bytes} {compressed : Bytes} {maxSize : ℕ} {d d' : Decoded}
  (h : HoldsGraph lz4 compressed maxSize d)
include h

theorem HoldsGraph.unique (h' : HoldsGraph lz4 compressed maxSize d') : d = d' := by
  obtain ⟨-, -, serialized, hserialized, -, hd⟩ := h
  obtain ⟨-, -, serialized', hserialized', -, hd'⟩ := h'
  obtain rfl := Except.ok.inj (hserialized.symm.trans hserialized')
  exact Except.ok.inj (hd.symm.trans hd')

theorem HoldsGraph.ok : d.Ok := by
  obtain ⟨-, -, serialized, -, -, hd⟩ := h
  exact (decode_safe serialized).2 d hd

end Graph

/-- Decompression does not crash, and its recursion is as deep as the paths of the graph
are long. -/
theorem bocDecompress_spec (sha256 : Bytes → Bytes) (lz4 : Bytes → ℕ → Checked Bytes)
    (compressed : Bytes) (maxSize : ℕ) {limit : ℕ}
    (h : ∀ d, HoldsGraph lz4 compressed maxSize d → d.Shallow limit) :
    Spec (bocDecompressImprovedStructureLz4 sha256 lz4 compressed maxSize) limit fun _ => True := by
  rw [bocDecompressImprovedStructureLz4]
  refine requireThen fun hheader => requireThen fun hsize => ?_
  refine freeThen Safe.check fun serialized hserialized => requireThen fun hlen => ?_
  have hdecoded : Safe (decode serialized) fun d => decode serialized = .ok d :=
    ⟨(decode_safe serialized).1, fun _ hd => hd⟩
  refine freeThen hdecoded fun d hd => ?_
  exact buildRoots_spec ((decode_safe serialized).2 d hd)
    (h d ⟨hheader, hsize, serialized, hserialized, hlen, hd⟩)

/-- There is a path of `n` nodes from the node that takes the first reference of each. A
Merkle update needs a second reference before the first one is followed. -/
inductive Decoded.FirstPath (d : Decoded) : ℕ → ℕ → Prop where
  | one {idx : ℕ} (hidx : idx < d.nodes.length) : d.FirstPath idx 1
  | step {idx c n : ℕ} {row : List ℕ} {node : NodeInfo} {draft : Draft}
      (hnode : d.nodes[idx]? = some node) (hdraft : d.drafts[idx]? = some draft)
      (hrow : d.graph[idx]? = some (c :: row))
      (hupdate : isMerkleUpdateNode node.isSpecial draft = true → 2 ≤ node.refsCnt)
      (h : d.FirstPath c n) : d.FirstPath idx (n + 1)

/-- Every node of the path is entered before a cell is built. -/
theorem Decoded.FirstPath.le_height {sha256 : Bytes → Bytes} (hd : d.Ok) {n : ℕ}
    (h : d.FirstPath idx n) {fuel : ℕ} (hfuel : n ≤ fuel) :
    n ≤ (buildNode sha256 d fuel d.start idx).height := by
  induction h generalizing fuel with
  | one =>
    obtain ⟨k, rfl⟩ := Nat.exists_eq_add_of_le' hfuel
    exact Nat.succ_le_succ (Nat.zero_le _)
  | @step idx c n row node draft hnode hdraft hrow hupdate _ ih =>
    obtain ⟨k, rfl⟩ := Nat.exists_eq_add_of_le' (Nat.le_of_add_left_le hfuel)
    have hnext := ih (Nat.le_of_succ_le_succ hfuel)
    have hcell : Guarded.index d.start.cells idx = .ok none := by
      rw [index_eq_ok, Decoded.start, List.getElem?_map, hnode]
      rfl
    have hkept : Guarded.index d.start.drafts idx = .ok (some draft) := by
      rw [index_eq_ok, Decoded.start, List.getElem?_map, hdraft]
      rfl
    refine Nat.succ_le_succ ?_
    rw [Nested.height_free_bind hcell, if_neg (by simp), Nested.height_free_bind hkept,
      Nested.height_free_bind ((index_eq_ok _ _ _).mpr hnode),
      Nested.height_free_bind ((index_eq_ok _ _ _).mpr hrow)]
    by_cases hmerkle : Option.any (isMerkleUpdateNode node.isSpecial) (some draft) = true
    · have htwo := hupdate hmerkle
      have hwidth := hd.length_row idx node _ hnode hrow
      have hpass : check (Checked.require (2 ≤ node.refsCnt)
          "BOC decompression failed: invalid MerkleUpdate node") = .ok () :=
        (check_eq_ok _ _).mpr ((Checked.require_eq_ok _ _ _).mpr htwo)
      rw [if_pos hmerkle, Nested.require, Nested.height_free_bind hpass,
        Nested.height_free_bind (index_of_lt (by omega)),
        Nested.height_free_bind (index_of_lt (by omega))]
      exact hnext.trans (Nested.height_le_bind _ _)
    · rw [if_neg hmerkle, List.foldlM_cons]
      exact hnext.trans ((Nested.height_le_bind _ _).trans (Nested.height_le_bind _ _))

theorem Decoded.FirstPath.path {n : ℕ} (h : d.FirstPath idx n) : d.Path idx n := by
  induction h with
  | one => exact .one _
  | step _ _ hrow _ _ ih => exact .step hrow List.mem_cons_self ih

theorem HoldsGraph.le_height {sha256 : Bytes → Bytes} {lz4 : Bytes → ℕ → Checked Bytes}
    {compressed : Bytes} {maxSize : ℕ} (h : HoldsGraph lz4 compressed maxSize d) {root n : ℕ}
    (hroot : d.rootIndexes.head? = some root) (hpath : d.FirstPath root n) :
    n ≤ (bocDecompressImprovedStructureLz4 sha256 lz4 compressed maxSize).height := by
  have hok := h.ok
  obtain ⟨hheader, hsize, serialized, hserialized, hlen, hd⟩ := h
  obtain ⟨rest, hroots⟩ := List.head?_eq_some_iff.mp hroot
  have hpass (c : Prop) [Decidable c] (text : String) (hc : c) :
      check (Checked.require c text) = .ok () :=
    (check_eq_ok _ _).mpr ((Checked.require_eq_ok _ _ _).mpr hc)
  have hidx : root < d.nodes.length := hok.roots_lt root (List.mem_of_head? hroot)
  have hfuel := (hok.path_le hpath.path hidx).trans (Nat.sub_le _ _)
  rw [bocDecompressImprovedStructureLz4]
  simp only [Nested.require]
  rw [Nested.height_free_bind (hpass _ _ hheader), Nested.height_free_bind (hpass _ _ hsize),
    Nested.height_free_bind ((check_eq_ok _ _).mpr hserialized),
    Nested.height_free_bind (hpass _ _ hlen), Nested.height_free_bind hd, buildRoots, hroots,
    List.foldlM_cons]
  exact (hpath.le_height hok hfuel).trans
    ((Nested.height_le_bind _ _).trans (Nested.height_le_bind _ _))

end TonNode.Compression
