import TonNode.BestFirst
import TonNode.OutQueue
import TonNode.ValidatorQueues

/-! `MsgQueueMergerIterator`: the messages of all neighbours for a shard, by logical time
and hash. Forks that are not yet opened and leaves lie on one stack, so that the iterator
is a best-first traversal; a fork comes before a leaf of the same time. -/
namespace TonNode.MsgQueue

open Block Checked Hashmap
open Validator (OutMsgQueueKey)

section Model

variable {C E T : Type}

structure EnvelopeReader (C E : Type) where
  fromEnvelope : C → Checked E
  emittedLt : E → Fin (2 ^ 64)

structure MsgEnqueueStuff (C E : Type) where
  enq : EnqueuedMsg C
  env : E
  lt : Fin (2 ^ 64)

namespace MsgEnqueueStuff

def checkedNew (R : EnvelopeReader C E) (enq : EnqueuedMsg C) (env : E) (lt : Fin (2 ^ 64)) :
    Checked (MsgEnqueueStuff C E) := do
  require (¬ (R.emittedLt env ≠ 0 ∧ R.emittedLt env ≠ lt ∨ enq.enqueuedLt < lt))
    "Inconsistent lt values"
  pure ⟨enq, env, lt⟩

def constructFrom (R : EnvelopeReader C E) (slice : Slice C) (lt : Fin (2 ^ 64)) :
    Checked (MsgEnqueueStuff C E) := do
  let enq ← EnqueuedMsg.constructFrom slice
  let env ← R.fromEnvelope enq.outMsg
  checkedNew R enq env lt

end MsgEnqueueStuff

def constructKey (key : List Bool) : Checked OutMsgQueueKey := do
  require (keyBits ≤ key.length) "CellUnderflow"
  pure ⟨nextHop key, keyHash key⟩

def getNextU64 (s : Slice C) : Checked (Fin (2 ^ 64) × Slice C) := do
  require (64 ≤ s.bits.length) "CellUnderflow"
  pure (Fin.ofNat (2 ^ 64) (bitsToNat (s.bits.take 64)), ⟨s.bits.drop 64, s.refs⟩)

structure RootRecord (C T : Type) where
  lt : Fin (2 ^ 64)
  cursor : Slice C
  bitLen : ℕ
  key : List Bool
  id : T

namespace RootRecord

def fromCell (S : CellStore C) (cell : C) (bitLen : ℕ) (id : T) : Checked (RootRecord C T) := do
  let (key, cursor, bitLen) ← loadNodeRaw S cell bitLen
  let (lt, cursor) ← getNextU64 cursor
  pure ⟨lt, cursor, bitLen, key, id⟩

def cmp (a b : RootRecord C T) : Ordering :=
  let byLt := compare a.lt b.lt
  let ordering :=
    if byLt = .eq then
      let byLength := compare a.key.length b.key.length
      if byLength = .eq ∧ a.key.length = keyBits then compare (keyHash a.key) (keyHash b.key)
      else byLength
    else byLt
  ordering.swap

end RootRecord

def SortedRoots (roots : List (RootRecord C T)) : Prop :=
  roots.Pairwise fun a b => RootRecord.cmp a b ≠ .gt

/-- `binary_search`, where it is free to choose: in a sorted vector it gives a place for the
record, with any of those that compare equal to it on either side. -/
structure BinarySearch (C T : Type) where
  index : List (RootRecord C T) → RootRecord C T → ℕ
  take_le : ∀ {roots : List (RootRecord C T)} (root), SortedRoots roots →
    ∀ r ∈ roots.take (index roots root), RootRecord.cmp r root ≠ .gt
  drop_ge : ∀ {roots : List (RootRecord C T)} (root), SortedRoots roots →
    ∀ r ∈ roots.drop (index roots root), RootRecord.cmp r root ≠ .lt

structure Neighbor (C T : Type) where
  outQueue : HashmapAugE C (Fin (2 ^ 64))
  blockId : T
  isDisabled : Bool

def addNeighbor (S : CellStore C) (shardPrefix : List Bool) (roots : List (RootRecord C T))
    (nb : Neighbor C T) : Checked (List (RootRecord C T)) := do
  let outQueueShort ← subtreeWithPrefix S nb.outQueue shardPrefix
  match outQueueShort.data with
  | none => pure roots
  | some cell => do
    let root ← RootRecord.fromCell S cell keyBits nb.blockId
    pure (roots ++ [root])

def fromManager (S : CellStore C) (neighbors : List (Neighbor C T)) (shard : ShardIdent) :
    Checked (List (RootRecord C T)) := do
  let shardPrefix ← shardKey shard
  let enabled := neighbors.filter fun nb => !nb.isDisabled
  let roots ← enabled.foldlM (addNeighbor S shardPrefix) []
  pure (roots.insertionSort fun a b => RootRecord.cmp a b ≠ .gt)

variable (S : CellStore C) (search : BinarySearch C T)

def insert (roots : List (RootRecord C T)) (root : RootRecord C T) : List (RootRecord C T) :=
  let idx := search.index roots root
  roots.take idx ++ root :: roots.drop idx

def insertChild (root : RootRecord C T) (bit : Bool) (roots : List (RootRecord C T)) :
    Checked (List (RootRecord C T)) := do
  let next ← root.cursor.reference bit.toNat
  let (label, cursor, bitLen) ← loadNodeRaw S next (root.bitLen - 1)
  let (lt, cursor) ← getNextU64 cursor
  pure (insert search roots ⟨lt, cursor, bitLen, root.key ++ [bit] ++ label, root.id⟩)

def nextItemRaw : ℕ → List (RootRecord C T) →
    Checked (Option ((List Bool × Slice C × Fin (2 ^ 64) × T) × List (RootRecord C T)))
  | 0, _ => reject "there are more nodes"
  | fuel + 1, roots =>
    match roots.getLast? with
    | none => pure none
    | some root =>
      if root.bitLen = 0 then
        pure (some ((root.key, root.cursor, root.lt, root.id), roots.dropLast))
      else do
        let roots ← insertChild S search root false roots.dropLast
        let roots ← insertChild S search root true roots
        nextItemRaw fuel roots

def readItem (R : EnvelopeReader C E) :
    List Bool × Slice C × Fin (2 ^ 64) × T → Checked (OutMsgQueueKey × MsgEnqueueStuff C E × T)
  | (key, cursor, lt, id) => do
    let key ← constructKey key
    let enq ← MsgEnqueueStuff.constructFrom R cursor lt
    pure (key, enq, id)

def collect (R : EnvelopeReader C E) :
    ℕ → List (RootRecord C T) → Checked (List (Checked (OutMsgQueueKey × MsgEnqueueStuff C E × T)))
  | 0, _ => reject "there are more nodes"
  | fuel + 1, roots => do
    match ← nextItemRaw S search (fuel + 1) roots with
    | none => pure []
    | some (leaf, roots) => do
      let items ← collect R fuel roots
      pure (readItem R leaf :: items)

end Model

section Priority

variable {C T : Type}

abbrev Priority := Fin (2 ^ 64) ×ₗ ℕ ×ₗ UInt256

def priority (lt : Fin (2 ^ 64)) (key : List Bool) : Priority :=
  toLex (lt, toLex (key.length, if key.length = keyBits then keyHash key else 0))

def RootRecord.priority (root : RootRecord C T) : Priority := MsgQueue.priority root.lt root.key

theorem priority_le_iff {lt lt' : Fin (2 ^ 64)} {key key' : List Bool} :
    priority lt key ≤ priority lt' key' ↔ lt < lt' ∨ lt = lt' ∧ (key.length < key'.length ∨
      key.length = key'.length ∧ (key.length = keyBits → keyHash key ≤ keyHash key')) := by
  simp only [priority, Prod.Lex.toLex_le_toLex]
  refine or_congr_right (and_congr_right fun _ => or_congr_right (and_congr_right fun hlen => ?_))
  by_cases hkey : key.length = keyBits
  · rw [if_pos hkey, if_pos (hlen ▸ hkey)]
    exact ⟨fun h _ => h, fun h => h hkey⟩
  · rw [if_neg hkey, if_neg (hlen ▸ hkey)]
    exact ⟨fun _ h => absurd h hkey, fun _ => le_rfl⟩

theorem RootRecord.cmp_spec (a b : RootRecord C T) :
    (RootRecord.cmp a b ≠ .gt ↔ b.priority ≤ a.priority) ∧
      (RootRecord.cmp a b ≠ .lt ↔ a.priority ≤ b.priority) := by
  rw [RootRecord.priority, RootRecord.priority, priority_le_iff, priority_le_iff, RootRecord.cmp]
  rcases lt_trichotomy a.lt b.lt with hlt | hlt | hlt
  · simp [compare_lt_iff_lt.mpr hlt, hlt, hlt.not_gt, hlt.ne']
  · rcases lt_trichotomy a.key.length b.key.length with hlen | hlen | hlen
    · simp [hlt, compare_lt_iff_lt.mpr hlen, hlen, hlen.not_gt, hlen.ne']
    · by_cases hkey : b.key.length = keyBits
      · rcases lt_trichotomy (keyHash a.key) (keyHash b.key) with hhash | hhash | hhash
        · simp [hlt, hlen, hkey, compare_lt_iff_lt.mpr hhash, hhash, hhash.le]
        · simp [hlt, hlen, hkey, hhash]
        · simp [hlt, hlen, hkey, compare_gt_iff_gt.mpr hhash, hhash, hhash.le]
      · simp [hlt, hlen, hkey]
    · simp [hlt, compare_gt_iff_gt.mpr hlen, hlen, hlen.not_gt, hlen.ne']
  · simp [compare_gt_iff_gt.mpr hlt, hlt, hlt.not_gt, hlt.ne']

end Priority

section Traversal

open BestFirst

variable {C E T : Type} {S : CellStore C} {n : ℕ}

abbrev Message (C T : Type) := List Bool × Slice C × T

def leafLt (value : Slice C) : Fin (2 ^ 64) := Fin.ofNat (2 ^ 64) (bitsToNat (value.bits.take 64))

def toTree (id : T) : List Bool → BitTrie (Slice C) → Tree Priority (Message C T)
  | path, .leaf label value =>
    .leaf (priority (leafLt value) (path ++ label)) (path ++ label, value, id)
  | path, .fork label l r =>
    .fork (priority (minLt (.fork label l r)) (path ++ label))
      (toTree id (path ++ label ++ [false]) l) (toTree id (path ++ label ++ [true]) r)

section

variable (id : T) (path : List Bool) (t : BitTrie (Slice C))

theorem prio_toTree : (toTree id path t).prio = priority (minLt t) (path ++ t.label) := by
  cases t with
  | leaf label value | fork label l r => rfl

theorem heap_toTree : (toTree id path t).Heap := by
  induction t generalizing path with
  | leaf label value => trivial
  | fork label l r ihl ihr =>
    have hside : ∀ (bit : Bool) (u : BitTrie (Slice C)), minLt (.fork label l r) ≤ minLt u →
        priority (minLt (.fork label l r)) (path ++ label) ≤
          (toTree id (path ++ label ++ [bit]) u).prio := by
      intro bit u hle
      rw [prio_toTree, priority_le_iff]
      rcases hle.lt_or_eq with hlt | heq
      · exact .inl hlt
      · refine .inr ⟨heq, .inl ?_⟩
        simp only [List.length_append, List.length_singleton]
        omega
    exact ⟨hside false l (min_le_left _ _), hside true r (min_le_right _ _), ihl _, ihr _⟩

theorem leaves_toTree : (toTree id path t).leaves = (t.entriesFrom path).map fun e =>
      (priority (leafLt e.2) e.1, e.1, e.2, id) := by
  induction t generalizing path with
  | leaf label value => rfl
  | fork label l r ihl ihr =>
    rw [toTree, Tree.leaves, ihl, ihr, BitTrie.entriesFrom, List.map_append]

end

theorem getNextU64_writeTo (lt : Fin (2 ^ 64)) (s : Slice C) :
    getNextU64 ((minMsgTime C).writeTo lt ++ s) = .ok (lt, s) :=
  (minMsgTime C).constructFrom_writeTo lt s

inductive Shows (S : CellStore C) : RootRecord C T → Tree Priority (Message C T) → Prop
  | leaf {lt : Fin (2 ^ 64)} {cursor value : Slice C} {key : List Bool} {id : T}
      (read : getNextU64 value = .ok (lt, cursor)) (time : leafLt value = lt)
      (length : key.length = keyBits) :
      Shows S ⟨lt, cursor, 0, key, id⟩ (.leaf (priority lt key) (key, value, id))
  | fork {m : ℕ} {left right : C} {l r : BitTrie (Slice C)} {lt : Fin (2 ^ 64)} {key : List Bool}
      {id : T} (leftCell : IsQueueCell S m l left) (rightCell : IsQueueCell S m r right)
      (time : lt = min (minLt l) (minLt r)) (length : key.length + 1 + m = keyBits) :
      Shows S ⟨lt, ⟨[], [left, right]⟩, m + 1, key, id⟩
        (.fork (priority lt key) (toTree id (key ++ [false]) l) (toTree id (key ++ [true]) r))

variable {root : RootRecord C T}

theorem Shows.prio {tree : Tree Priority (Message C T)} (h : Shows S root tree) :
    tree.prio = root.priority := by
  cases h with
  | leaf | fork => rfl

theorem IsQueueCell.exists_record {t : BitTrie (Slice C)} {cell : C}
    (h : IsQueueCell S n t cell) {path : List Bool} (hpath : path.length + n = keyBits) (id : T) :
    ∃ data below lt cursor, loadNodeRaw S cell n = .ok (t.label, data, below) ∧
      getNextU64 data = .ok (lt, cursor) ∧
      Shows S ⟨lt, cursor, below, path ++ t.label, id⟩ (toTree id path t) := by
  cases h with
  | @leaf _ _ label lt msg full load length depth =>
    have hread := getNextU64_writeTo lt msg.writeTo
    have htime := minLt_leaf label lt msg.writeTo
    have hkey : (path ++ label).length = keyBits := by
      rw [List.length_append, length, hpath]
    have hshows := @Shows.leaf C T S lt msg.writeTo _ _ id hread htime hkey
    rw [toTree, show leafLt (combine (minMsgTime C) lt msg.writeTo) = lt from htime]
    exact ⟨_, _, _, _, load, hread, hshows⟩
  | @fork _ m _ left right label l r full load length leftDepth rightDepth leftCell rightCell =>
    have hread := getNextU64_writeTo (minLt (.fork label l r)) (⟨[], [left, right]⟩ : Slice C)
    have hkey : (path ++ label).length + 1 + m = keyBits := by
      rw [List.length_append]
      omega
    have hdata : (minMsgTime C).writeTo (minLt (.fork label l r)) ++
        (⟨[], [left, right]⟩ : Slice C) = ⟨natToBits 64 (minLt (.fork label l r)), [left, right]⟩ :=
      congrArg (Slice.mk · [left, right]) (List.append_nil _)
    rw [hdata] at hread
    exact ⟨_, _, _, _, load, hread, .fork leftCell rightCell rfl hkey⟩

variable {roots : List (RootRecord C T)} {trees : List (Tree Priority (Message C T))}

theorem map_prio_eq (h : List.Forall₂ (Shows S) roots trees) :
    trees.map Tree.prio = roots.map RootRecord.priority := by
  induction h with
  | nil => rfl
  | cons hshows _ ih => rw [List.map_cons, List.map_cons, hshows.prio, ih]

theorem sortedRoots_iff (h : List.Forall₂ (Shows S) roots trees) :
    SortedRoots roots ↔ trees.Pairwise fun s t => t.prio ≤ s.prio := by
  have htrees : (trees.Pairwise fun s t => t.prio ≤ s.prio) ↔
      (trees.map Tree.prio).Pairwise fun p q => q ≤ p := by
    rw [List.pairwise_map]
  rw [htrees, map_prio_eq h, List.pairwise_map, SortedRoots]
  simp only [(RootRecord.cmp_spec _ _).1]

variable (search : BinarySearch C T)

section

variable (h : List.Forall₂ (Shows S) roots trees) (ho : Ordered trees)
include h ho

theorem insert_spec {tree : Tree Priority (Message C T)} (hroot : Shows S root tree) :
    ∃ trees', List.Forall₂ (Shows S) (insert search roots root) trees' ∧
      Inserted trees tree trees' := by
  have hsorted := (sortedRoots_iff h).mpr ho.sorted
  have htake := List.forall₂_take (search.index roots root) h
  have hdrop := List.forall₂_drop (search.index roots root) h
  refine ⟨trees.take (search.index roots root) ++ tree :: trees.drop (search.index roots root),
    List.rel_append htake (.cons hroot hdrop), _, _, (List.take_append_drop _ _).symm, rfl, ?_, ?_⟩
  · intro s hs
    obtain ⟨r, hr, hprio⟩ := List.mem_map.mp (map_prio_eq htake ▸ List.mem_map_of_mem hs)
    rw [hroot.prio, ← hprio]
    exact (RootRecord.cmp_spec _ _).1.mp (search.take_le root hsorted r hr)
  · intro s hs
    obtain ⟨r, hr, hprio⟩ := List.mem_map.mp (map_prio_eq hdrop ▸ List.mem_map_of_mem hs)
    rw [hroot.prio, ← hprio]
    exact (RootRecord.cmp_spec _ _).2.mp (search.drop_ge root hsorted r hr)

theorem insertChild_spec (root : RootRecord C T) (bit : Bool) {m : ℕ} {next : C}
    {t : BitTrie (Slice C)} (hnext : root.cursor.reference bit.toNat = .ok next)
    (hcell : IsQueueCell S m t next) (hlen : root.bitLen = m + 1)
    (hkey : root.key.length + 1 + m = keyBits) :
    ∃ roots' trees', insertChild S search root bit roots = .ok roots' ∧
      List.Forall₂ (Shows S) roots' trees' ∧ Inserted trees (toTree root.id (root.key ++ [bit]) t)
        trees' := by
  have hpath : (root.key ++ [bit]).length + m = keyBits := by
    rw [List.length_append, List.length_singleton]
    exact hkey
  obtain ⟨data, below, lt, cursor, hload, hread, hshows⟩ := hcell.exists_record hpath root.id
  obtain ⟨trees', htrees', hinserted⟩ := insert_spec search h ho hshows
  refine ⟨_, trees', ?_, htrees', hinserted⟩
  simp only [insertChild, hnext, ok_bind, hlen, Nat.add_sub_cancel, hload, hread]
  rfl

end

def readLeaf : Message C T → Checked (List Bool × Slice C × Fin (2 ^ 64) × T)
  | (key, value, id) => do
    let (lt, cursor) ← getNextU64 value
    pure (key, cursor, lt, id)

theorem forall₂_concat {α β : Type} {R : α → β → Prop} {as : List α} {bs : List β} {b : β}
    (h : List.Forall₂ R as (bs ++ [b])) :
    ∃ as' a, as = as' ++ [a] ∧ List.Forall₂ R as' bs ∧ R a b := by
  rw [← List.forall₂_reverse_iff, List.reverse_append, List.reverse_singleton,
    List.singleton_append, List.forall₂_cons_right_iff] at h
  obtain ⟨a, as', hab, has, hrev⟩ := h
  refine ⟨as'.reverse, a, ?_, ?_, hab⟩
  · rw [← List.reverse_reverse as, hrev, List.reverse_cons]
  · rw [← List.forall₂_reverse_iff, List.reverse_reverse]
    exact has

theorem nextItemRaw_spec {fuel : ℕ} (h : List.Forall₂ (Shows S) roots trees) (ho : Ordered trees)
    (hne : trees ≠ []) (hfuel : nodes trees ≤ fuel) :
    ∃ leaf roots' x trees', nextItemRaw S search fuel roots = .ok (some (leaf, roots')) ∧
      Next trees x trees' ∧ List.Forall₂ (Shows S) roots' trees' ∧ readLeaf x.2 = .ok leaf := by
  induction fuel generalizing roots trees with
  | zero =>
    obtain hnil | ⟨init, tree, rfl⟩ := List.eq_nil_or_concat' trees
    · exact absurd hnil hne
    · have hpos := tree.size_pos
      rw [nodes_append] at hfuel
      omega
  | succ fuel ih =>
    obtain hnil | ⟨init, tree, rfl⟩ := List.eq_nil_or_concat' trees
    · exact absurd hnil hne
    · obtain ⟨roots, root, rfl, hroots, hroot⟩ := forall₂_concat h
      have hinit := ho.of_append.1
      rw [nodes_append] at hfuel
      simp only [nextItemRaw, List.getLast?_concat, List.dropLast_concat]
      cases hroot with
      | @leaf lt cursor value key id read time length =>
        refine ⟨_, roots, _, init, if_pos rfl, .yield, hroots, ?_⟩
        simp only [readLeaf, read, ok_bind]
        rfl
      | @fork m left right l r lt key id leftCell rightCell time length =>
        have hheap : ∀ path (t : BitTrie (Slice C)), (toTree id path t).Heap := heap_toTree id
        obtain ⟨roots₁, trees₁, hleft, htrees₁, hins₁⟩ :=
          insertChild_spec search hroots hinit ⟨lt, ⟨[], [left, right]⟩, m + 1, key, id⟩ false
            reference_zero leftCell rfl length
        have ho₁ := hins₁.ordered hinit (hheap _ l)
        obtain ⟨roots₂, trees₂, hright, htrees₂, hins₂⟩ :=
          insertChild_spec search htrees₁ ho₁ ⟨lt, ⟨[], [left, right]⟩, m + 1, key, id⟩ true
            reference_one rightCell rfl length
        have ho₂ := hins₂.ordered ho₁ (hheap _ r)
        have hne₂ : trees₂ ≠ [] := by
          rintro rfl
          exact absurd hins₂.perm.length_eq (by simp)
        have hfuel₂ : nodes trees₂ ≤ fuel := by
          have hnodes₁ : nodes trees₁ = (toTree id (key ++ [false]) l).size + nodes init :=
            hins₁.nodes
          have hnodes₂ : nodes trees₂ = (toTree id (key ++ [true]) r).size + nodes trees₁ :=
            hins₂.nodes
          rw [Tree.size] at hfuel
          omega
        obtain ⟨leaf, roots', x, trees', hraw, hnext, hshows, hleaf⟩ := ih htrees₂ ho₂ hne₂ hfuel₂
        refine ⟨leaf, roots', x, trees', ?_, .expand hins₁ hins₂ hnext, hshows, hleaf⟩
        rw [if_neg (Nat.succ_ne_zero m), hleft, ok_bind, hright, ok_bind, hraw]

def readMessage (R : EnvelopeReader C E) (msg : Message C T) :
    Checked (OutMsgQueueKey × MsgEnqueueStuff C E × T) := do
  let leaf ← readLeaf msg
  readItem R leaf

theorem collect_spec (R : EnvelopeReader C E) {fuel : ℕ} (h : List.Forall₂ (Shows S) roots trees)
    (ho : Ordered trees) (hfuel : nodes trees < fuel) : ∃ xs, Run trees xs ∧
      collect S search R fuel roots = .ok (xs.map fun x => readMessage R x.2) := by
  induction fuel generalizing roots trees with
  | zero => exact absurd hfuel (Nat.not_lt_zero _)
  | succ fuel ih =>
    by_cases hnil : trees = []
    · subst hnil
      rw [List.forall₂_nil_right_iff.mp h]
      exact ⟨[], .done, rfl⟩
    · obtain ⟨leaf, roots', x, trees', hraw, hnext, hshows, hleaf⟩ :=
        nextItemRaw_spec search h ho hnil hfuel.le
      have hless : nodes trees' < fuel := by
        have hlt := hnext.nodes_lt
        omega
      obtain ⟨xs, hrun, hcollect⟩ := ih hshows (hnext.spec ho).1 hless
      refine ⟨x :: xs, .next hnext hrun, ?_⟩
      simp only [collect, hraw, ok_bind, hcollect, List.map_cons, readMessage, hleaf]
      rfl

end Traversal

section Import

open BestFirst

variable {C E T : Type} {S : CellStore C} {n : ℕ}

variable {queueOf : Neighbor C T → Option (BitTrie (Slice C))} {t : Option (BitTrie (Slice C))}
  {neighbors : List (Neighbor C T)} {queue : HashmapAugE C (Fin (2 ^ 64))} {shard : ShardIdent}
  {roots : List (RootRecord C T)} {trees : List (Tree Priority (Message C T))}

theorem IsQueueCell.length_key {t : BitTrie (Slice C)} {cell : C} (h : IsQueueCell S n t cell)
    (path : List Bool) : ∀ e ∈ t.entriesFrom path, e.1.length = path.length + n := by
  induction h generalizing path with
  | leaf _ _ length _ =>
    intro e he
    rw [List.mem_singleton.mp he, List.length_append, length]
  | fork _ _ length _ _ _ _ ihl ihr =>
    intro e he
    rcases List.mem_append.mp he with he | he
    · rw [ihl _ e he]
      simp only [List.length_append, List.length_singleton]
      omega
    · rw [ihr _ e he]
      simp only [List.length_append, List.length_singleton]
      omega

theorem Shows.leaf_priority {root : RootRecord C T} {tree : Tree Priority (Message C T)}
    (h : Shows S root tree) :
    ∀ x ∈ tree.leaves, x.1 = priority (leafLt x.2.2.1) x.2.1 ∧ x.2.1.length = keyBits := by
  cases h with
  | leaf _ time length =>
    intro x hx
    rw [List.mem_singleton.mp hx]
    exact ⟨by rw [time], length⟩
  | @fork m left right l r lt key id leftCell rightCell time length =>
    have hside : ∀ {bit : Bool} {u : BitTrie (Slice C)} {cell : C}, IsQueueCell S m u cell →
        ∀ x ∈ (toTree id (key ++ [bit]) u).leaves,
          x.1 = priority (leafLt x.2.2.1) x.2.1 ∧ x.2.1.length = keyBits := by
      intro bit u cell hcell x hx
      rw [leaves_toTree] at hx
      obtain ⟨e, he, rfl⟩ := List.mem_map.mp hx
      refine ⟨rfl, ?_⟩
      rw [hcell.length_key _ e he, List.length_append, List.length_singleton]
      exact length
    intro x hx
    rcases List.mem_append.mp hx with hx | hx
    · exact hside leftCell x hx
    · exact hside rightCell x hx

theorem forest_priority (h : List.Forall₂ (Shows S) roots trees) :
    ∀ x ∈ forest trees, x.1 = priority (leafLt x.2.2.1) x.2.1 ∧ x.2.1.length = keyBits := by
  induction h with
  | nil =>
    intro x hx
    exact absurd hx List.not_mem_nil
  | cons hshows _ ih =>
    intro x hx
    rcases List.mem_append.mp hx with hx | hx
    · exact hshows.leaf_priority x hx
    · exact ih x hx

theorem IsQueueCell.exists_value {t : BitTrie (Slice C)} {cell : C} (h : IsQueueCell S n t cell)
    (path : List Bool) : ∀ e ∈ t.entriesFrom path, ∃ lt, ∃ msg : EnqueuedMsg C,
      e.2 = combine (minMsgTime C) lt msg.writeTo := by
  induction h generalizing path with
  | leaf _ _ _ _ =>
    intro e he
    rw [List.mem_singleton.mp he]
    exact ⟨_, _, rfl⟩
  | fork _ _ _ _ _ _ _ ihl ihr =>
    intro e he
    rcases List.mem_append.mp he with he | he
    · exact ihl _ e he
    · exact ihr _ e he

/-- The bits of a key: 32 of the workchain, 64 of the account prefix and 256 of the hash. -/
def writeKey (key : OutMsgQueueKey) : List Bool :=
  natToBits 32 key.nextPrefix.workchainId.toNat ++
    (natToBits 64 key.nextPrefix.pfx.toNat ++ natToBits 256 key.hash)

theorem writeKey_nextHop {key : List Bool} (h : key.length = keyBits) :
    writeKey ⟨nextHop key, keyHash key⟩ = key := by
  have hworkchain : natToBits 32 (nextHop key).workchainId.toNat = key.take 32 := by
    apply (natToBits_toNat_eq_iff _ _).mpr rfl
    rw [List.length_take, h]
    rfl
  have haccount : natToBits 64 (nextHop key).pfx.toNat = (key.drop 32).take 64 := by
    apply (natToBits_toNat_eq_iff _ _).mpr rfl
    rw [List.length_take, List.length_drop, h]
    rfl
  have hhash : natToBits 256 (keyHash key) = (key.drop 32).drop 64 := by
    have hlen : ((key.drop 32).drop 64).length = 256 := by
      rw [List.length_drop, List.length_drop, h]
      rfl
    have hall : (key.drop 96).take 256 = (key.drop 32).drop 64 := by
      rw [List.drop_drop, List.take_of_length_le]
      rw [List.length_drop, h]
      decide
    have hlt := bitsToNat_lt ((key.drop 32).drop 64)
    rw [hlen] at hlt
    rw [keyHash, hall, Fin.val_ofNat, Nat.mod_eq_of_lt hlt]
    nth_rewrite 1 [← hlen]
    exact natToBits_bitsToNat _
  rw [writeKey, hworkchain, haccount, hhash, List.take_append_drop, List.take_append_drop]

/-- What is to be yielded for a message: its key, the enqueued message with its envelope and its time,
and the neighbour. If the envelope cannot be read or the times do not fit, it is an error. -/
inductive Yields (R : EnvelopeReader C E) :
    Message C T → Checked (OutMsgQueueKey × MsgEnqueueStuff C E × T) → Prop
  | item {key : OutMsgQueueKey} {enq : EnqueuedMsg C} {env : E} {lt : Fin (2 ^ 64)} {id : T}
      (read : R.fromEnvelope enq.outMsg = .ok env)
      (emitted : R.emittedLt env = 0 ∨ R.emittedLt env = lt) (enqueued : lt ≤ enq.enqueuedLt) :
      Yields R (writeKey key, combine (minMsgTime C) lt enq.writeTo, id)
        (.ok (key, ⟨enq, env, lt⟩, id))
  | unread {key : OutMsgQueueKey} {enq : EnqueuedMsg C} {lt : Fin (2 ^ 64)} {id : T} {text : String}
      (read : R.fromEnvelope enq.outMsg = .error text) :
      Yields R (writeKey key, combine (minMsgTime C) lt enq.writeTo, id) (.error text)
  | inconsistent {key : OutMsgQueueKey} {enq : EnqueuedMsg C} {env : E} {lt : Fin (2 ^ 64)} {id : T}
      (read : R.fromEnvelope enq.outMsg = .ok env)
      (times : R.emittedLt env ≠ 0 ∧ R.emittedLt env ≠ lt ∨ enq.enqueuedLt < lt) :
      Yields R (writeKey key, combine (minMsgTime C) lt enq.writeTo, id)
        (.error "Inconsistent lt values")

theorem constructFrom_writeTo (enq : EnqueuedMsg C) :
    EnqueuedMsg.constructFrom enq.writeTo = .ok enq := by
  have htime := bitsToNat_natToBits enq.enqueuedLt.isLt
  have hroom : 64 ≤ enq.writeTo.bits.length := (length_natToBits 64 _).ge
  have htake : enq.writeTo.bits.take 64 = natToBits 64 enq.enqueuedLt :=
    List.take_of_length_le (length_natToBits 64 _).le
  simp only [EnqueuedMsg.constructFrom, require, if_pos hroom, ok_bind, htake, htime]
  simp [EnqueuedMsg.writeTo, Slice.reference, present]

theorem readMessage_yields (R : EnvelopeReader C E) {key : List Bool} (hkey : key.length = keyBits)
    (lt : Fin (2 ^ 64)) (enq : EnqueuedMsg C) (id : T) :
    Yields R (key, combine (minMsgTime C) lt enq.writeTo, id)
      (readMessage R (key, combine (minMsgTime C) lt enq.writeTo, id)) := by
  have hread : readMessage R (key, combine (minMsgTime C) lt enq.writeTo, id) =
      (R.fromEnvelope enq.outMsg >>= fun env => MsgEnqueueStuff.checkedNew R enq env lt) >>=
        fun enq => pure (⟨nextHop key, keyHash key⟩, enq, id) := by
    simp only [readMessage, readLeaf, combine, getNextU64_writeTo, ok_bind, pure_bind, readItem,
      constructKey, require, hkey, le_refl, if_true, MsgEnqueueStuff.constructFrom,
      constructFrom_writeTo]
  rw [hread]
  nth_rewrite 1 [← writeKey_nextHop hkey]
  cases henv : R.fromEnvelope enq.outMsg with
  | error text => exact .unread henv
  | ok env =>
    by_cases htimes : R.emittedLt env ≠ 0 ∧ R.emittedLt env ≠ lt ∨ enq.enqueuedLt < lt
    · simp only [ok_bind, MsgEnqueueStuff.checkedNew, require, not_not.mpr htimes, if_false]
      exact .inconsistent henv htimes
    · simp only [ok_bind, MsgEnqueueStuff.checkedNew, require, htimes, not_false_eq_true, if_true]
      refine .item henv ?_ ?_
      · grind
      · grind

def messagesOf (id : T) (p : List Bool → Bool) (t : Option (BitTrie (Slice C))) :
    List (Message C T) :=
  ((BitTrie.entriesOpt t).filter fun e => p e.1).map fun e => (e.1, e.2, id)

/-- What is to be imported: the messages of the enabled neighbours whose next hop is in the
shard. -/
def imported (queueOf : Neighbor C T → Option (BitTrie (Slice C)))
    (neighbors : List (Neighbor C T)) (shard : ShardIdent) : List (Message C T) :=
  (neighbors.filter fun nb => !nb.isDisabled).flatMap fun nb =>
    messagesOf nb.blockId (fun key => shard.containsFullPrefix (nextHop key)) (queueOf nb)

theorem IsQueue.length_key (h : IsQueue S queue t) :
    ∀ e ∈ BitTrie.entriesOpt t, e.1.length = keyBits := by
  cases t with
  | none =>
    intro e he
    exact absurd he List.not_mem_nil
  | some t =>
    obtain ⟨root, -, hcell⟩ := h
    intro e he
    rw [hcell.length_key [] e he, List.length_nil, Nat.zero_add]

theorem IsQueue.exists_value (h : IsQueue S queue t) :
    ∀ e ∈ BitTrie.entriesOpt t, ∃ lt, ∃ msg : EnqueuedMsg C,
      e.2 = combine (minMsgTime C) lt msg.writeTo := by
  cases t with
  | none =>
    intro e he
    exact absurd he List.not_mem_nil
  | some t =>
    obtain ⟨root, -, hcell⟩ := h
    exact hcell.exists_value []

section

variable {pre : List Bool} (hne : pre ≠ []) (hlen : pre.length ≤ keyBits)
include hne hlen

theorem addNeighbor_spec (h : List.Forall₂ (Shows S) roots trees) {nb : Neighbor C T}
    (hqueue : IsQueue S nb.outQueue t) :
    ∃ roots' added, addNeighbor S pre roots nb = .ok roots' ∧
      List.Forall₂ (Shows S) roots' (trees ++ added) ∧ (∀ tree ∈ added, tree.Heap) ∧
      (forest added).map Prod.snd = messagesOf nb.blockId (fun key => decide (pre <+: key)) t := by
  obtain ⟨part, u, hpart, hu, hentries⟩ := hqueue.subtreeWithPrefix hne hlen
  rw [messagesOf, ← hentries]
  simp only [addNeighbor, hpart, ok_bind]
  cases u with
  | none =>
    rw [show part.data = none from hu]
    refine ⟨roots, [], rfl, ?_, ?_, rfl⟩
    · rw [List.append_nil]
      exact h
    · intro tree htree
      exact absurd htree List.not_mem_nil
  | some u =>
    obtain ⟨cell, hdata, hcell⟩ := hu
    have hroot : ([] : List Bool).length + keyBits = keyBits := Nat.zero_add _
    obtain ⟨data, below, lt, cursor, hload, hread, hshows⟩ := hcell.exists_record hroot nb.blockId
    have hfrom : RootRecord.fromCell S cell keyBits nb.blockId =
        .ok ⟨lt, cursor, below, u.label, nb.blockId⟩ := by
      simp only [RootRecord.fromCell, hload, ok_bind, hread]
      rfl
    refine ⟨roots ++ [⟨lt, cursor, below, u.label, nb.blockId⟩], [toTree nb.blockId [] u], ?_,
      List.rel_append h (.cons hshows .nil), ?_, ?_⟩
    · rw [hdata]
      simp only [hfrom, ok_bind]
      rfl
    · intro tree htree
      rw [List.mem_singleton.mp htree]
      exact heap_toTree _ _ _
    · rw [forest, List.flatMap_singleton, leaves_toTree, List.map_map]
      rfl

theorem foldlM_addNeighbor (hqueues : ∀ nb ∈ neighbors, IsQueue S nb.outQueue (queueOf nb))
    (h : List.Forall₂ (Shows S) roots trees) :
    ∃ roots' added, neighbors.foldlM (addNeighbor S pre) roots = .ok roots' ∧
      List.Forall₂ (Shows S) roots' (trees ++ added) ∧ (∀ tree ∈ added, tree.Heap) ∧
      (forest added).map Prod.snd = neighbors.flatMap fun nb =>
        messagesOf nb.blockId (fun key => decide (pre <+: key)) (queueOf nb) := by
  induction neighbors generalizing roots trees with
  | nil =>
    refine ⟨roots, [], rfl, ?_, ?_, rfl⟩
    · rw [List.append_nil]
      exact h
    · intro tree htree
      exact absurd htree List.not_mem_nil
  | cons nb neighbors ih =>
    obtain ⟨hnb, hrest⟩ := List.forall_mem_cons.mp hqueues
    obtain ⟨roots₁, added₁, hadd, hshows₁, hheap₁, hforest₁⟩ := addNeighbor_spec hne hlen h hnb
    obtain ⟨roots₂, added₂, hfold, hshows₂, hheap₂, hforest₂⟩ := ih hrest hshows₁
    refine ⟨roots₂, added₁ ++ added₂, ?_, ?_, ?_, ?_⟩
    · rw [List.foldlM_cons, hadd, ok_bind, hfold]
    · rw [← List.append_assoc]
      exact hshows₂
    · intro tree htree
      rcases List.mem_append.mp htree with htree | htree
      · exact hheap₁ tree htree
      · exact hheap₂ tree htree
    · rw [forest, List.flatMap_append, List.map_append, List.flatMap_cons, ← hforest₁, ← hforest₂]
      rfl

end

/-- The subtree of a shard's key holds exactly the messages whose next hop is in the shard. -/
theorem subtreeWithPrefix_shard (h : IsQueue S queue t) (hshard : shard.pfx ≠ 0) :
    ∃ pre part u, shardKey shard = .ok pre ∧ subtreeWithPrefix S queue pre = .ok part ∧
      IsQueue S part u ∧ BitTrie.entriesOpt u =
        (BitTrie.entriesOpt t).filter fun e => shard.containsFullPrefix (nextHop e.1) := by
  obtain ⟨pre, hpre, hne, hlen, hiff⟩ := shardKey_prefix_iff hshard
  obtain ⟨part, u, hpart, hu, hentries⟩ := h.subtreeWithPrefix hne hlen
  refine ⟨pre, part, u, hpre, hpart, hu, hentries.trans ?_⟩
  apply List.filter_congr
  intro e he
  rw [Bool.eq_iff_iff, decide_eq_true_iff, hiff e.1 (h.length_key e he)]

instance : Std.Total fun a b : RootRecord C T => RootRecord.cmp a b ≠ .gt where
  total a b := by
    rw [(RootRecord.cmp_spec a b).1, (RootRecord.cmp_spec b a).1]
    exact le_total _ _

instance : IsTrans (RootRecord C T) fun a b => RootRecord.cmp a b ≠ .gt where
  trans a b c hab hbc := by
    rw [(RootRecord.cmp_spec _ _).1] at hab hbc ⊢
    exact hbc.trans hab

theorem fromManager_spec (hshard : shard.pfx ≠ 0)
    (hqueues : ∀ nb ∈ neighbors, IsQueue S nb.outQueue (queueOf nb)) :
    ∃ roots trees, fromManager S neighbors shard = .ok roots ∧
      List.Forall₂ (Shows S) roots trees ∧ Ordered trees ∧
      ((forest trees).map Prod.snd).Perm (imported queueOf neighbors shard) := by
  obtain ⟨pre, hpre, hne, hlen, hiff⟩ := shardKey_prefix_iff hshard
  have henabled : ∀ nb ∈ neighbors.filter fun nb => !nb.isDisabled,
      IsQueue S nb.outQueue (queueOf nb) := by
    intro nb hnb
    exact hqueues nb (List.mem_of_mem_filter hnb)
  obtain ⟨roots, trees, hfold, hshows, hheap, hforest⟩ := foldlM_addNeighbor hne hlen henabled .nil
  -- sorting the records sorts the trees they stand for
  have hperm := List.perm_insertionSort (fun a b => RootRecord.cmp a b ≠ .gt) roots
  obtain ⟨trees', hshows', hperm'⟩ := List.perm_comp_forall₂ hperm hshows
  have hsorted : SortedRoots (roots.insertionSort fun a b => RootRecord.cmp a b ≠ .gt) :=
    List.pairwise_insertionSort _ roots
  refine ⟨_, trees', ?_, hshows', ⟨(sortedRoots_iff hshows').mp hsorted, ?_⟩, ?_⟩
  · simp only [fromManager, hpre, ok_bind, hfold]
    rfl
  · intro tree htree
    exact hheap tree (hperm'.mem_iff.mp htree)
  · have himported : imported queueOf neighbors shard = (forest trees).map Prod.snd := by
      rw [hforest, imported]
      apply List.flatMap_congr
      intro nb hnb
      rw [messagesOf, messagesOf]
      apply congrArg
      apply List.filter_congr
      intro e he
      have hkey := (henabled nb hnb).length_key e he
      rw [Bool.eq_iff_iff, decide_eq_true_iff, hiff e.1 hkey]
    rw [himported]
    exact (hperm'.flatMap_right Tree.leaves).map Prod.snd

theorem imported_yields (R : EnvelopeReader C E)
    (hqueues : ∀ nb ∈ neighbors, IsQueue S nb.outQueue (queueOf nb)) :
    ∀ msg ∈ imported queueOf neighbors shard, Yields R msg (readMessage R msg) := by
  intro msg hmsg
  obtain ⟨nb, hnb, hmsg⟩ := List.mem_flatMap.mp hmsg
  obtain ⟨⟨key, value⟩, he, rfl⟩ := List.mem_map.mp hmsg
  have hmem := List.mem_of_mem_filter he
  have hqueue := hqueues nb (List.mem_of_mem_filter hnb)
  have hkey : key.length = keyBits := hqueue.length_key _ hmem
  obtain ⟨lt, enq, rfl⟩ : ∃ lt, ∃ enq : EnqueuedMsg C,
      value = combine (minMsgTime C) lt enq.writeTo := hqueue.exists_value _ hmem
  exact readMessage_yields R hkey lt enq nb.blockId

/-- The iterator yields the messages that are to be imported, each once and with the
neighbour it comes from, in the order of time and hash. -/
theorem merger_imports_in_order (S : CellStore C) (search : BinarySearch C T)
    (R : EnvelopeReader C E) (queueOf : Neighbor C T → Option (BitTrie (Slice C)))
    (neighbors : List (Neighbor C T)) (shard : ShardIdent) (hshard : shard.pfx ≠ 0)
    (hqueues : ∀ nb ∈ neighbors, IsQueue S nb.outQueue (queueOf nb)) :
    ∃ roots enough, fromManager S neighbors shard = .ok roots ∧
      ∀ fuel ≥ enough, ∃ (messages : List (Message C T)) (items : _),
        collect S search R fuel roots = .ok items ∧ List.Forall₂ (Yields R) messages items ∧
        messages.Perm (imported queueOf neighbors shard) ∧ messages.Pairwise fun a b =>
          toLex (leafLt a.2.1, keyHash a.1) ≤ toLex (leafLt b.2.1, keyHash b.1) := by
  obtain ⟨roots, trees, hfrom, hshows, hordered, hperm⟩ := fromManager_spec hshard hqueues
  refine ⟨roots, nodes trees + 1, hfrom, ?_⟩
  intro fuel hfuel
  obtain ⟨xs, hrun, hcollect⟩ := collect_spec search R hshows hordered hfuel
  obtain ⟨hxs, hsorted⟩ := hrun.spec hordered
  have hmessages := (hxs.map Prod.snd).trans hperm
  refine ⟨xs.map Prod.snd, (xs.map Prod.snd).map (readMessage R), ?_, ?_, hmessages, ?_⟩
  · rw [hcollect, List.map_map]
    rfl
  · rw [List.forall₂_map_right_iff, List.forall₂_same]
    intro msg hmsg
    exact imported_yields R hqueues msg (hmessages.mem_iff.mp hmsg)
  · -- among complete keys the priority is the order of time and hash
    rw [List.pairwise_map]
    refine hsorted.imp_of_mem ?_
    intro x y hx hy hle
    obtain ⟨hxp, hxlen⟩ := forest_priority hshows x (hxs.mem_iff.mp hx)
    obtain ⟨hyp, hylen⟩ := forest_priority hshows y (hxs.mem_iff.mp hy)
    rw [hxp, hyp, priority_le_iff, hxlen, hylen] at hle
    rw [Prod.Lex.toLex_le_toLex]
    rcases hle with hlt | ⟨heq, hlen | ⟨-, hhash⟩⟩
    · exact .inl hlt
    · exact absurd hlen (lt_irrefl _)
    · exact .inr ⟨heq, hhash rfl⟩

def linearSearch : BinarySearch C T where
  index := fun roots root => (roots.takeWhile fun r => RootRecord.cmp r root ≠ .gt).length
  take_le := by
    intro roots root hsorted
    induction roots with
    | nil => simp
    | cons a roots ih =>
      by_cases ha : RootRecord.cmp a root = .gt
      · simp [ha]
      · simpa [ha] using ih (List.pairwise_cons.mp hsorted).2
  drop_ge := by
    intro roots root hsorted
    induction roots with
    | nil => simp
    | cons a roots ih =>
      obtain ⟨hfirst, hrest⟩ := List.pairwise_cons.mp hsorted
      by_cases ha : RootRecord.cmp a root = .gt
      · -- the first record above the place, and all that are above it
        have hbelow : a.priority ≤ root.priority :=
          (RootRecord.cmp_spec a root).2.mp (by rw [ha]; decide)
        have hall : ∀ r ∈ a :: roots, RootRecord.cmp r root ≠ .lt := by
          intro r hr
          rw [(RootRecord.cmp_spec r root).2]
          rcases List.mem_cons.mp hr with rfl | hr
          · exact hbelow
          · exact ((RootRecord.cmp_spec a r).1.mp (hfirst r hr)).trans hbelow
        simpa [ha] using hall
      · simpa [ha] using ih hrest

def sampleNeighbor : Neighbor TreeCell ℕ where
  outQueue := ⟨some (.mk ([true, true, false] ++ natToBits 9 352 ++
    (natToBits 64 5 ++ natToBits 64 6)) [.mk [] []]), 5⟩
  blockId := 7
  isDisabled := false

def sampleQueue : BitTrie (Slice TreeCell) :=
  .leaf (List.replicate 352 false)
    (combine (minMsgTime TreeCell) 5 (EnqueuedMsg.writeTo ⟨6, .mk [] []⟩))

set_option maxRecDepth 4000 in
theorem isQueue_sample : IsQueue TreeCell.store sampleNeighbor.outQueue (some sampleQueue) :=
  ⟨_, rfl, .leaf rfl rfl rfl (by decide)⟩

theorem subtreeWithPrefix_sample : ∃ pre part u, shardKey ⟨0, shardFull⟩ = .ok pre ∧
    subtreeWithPrefix TreeCell.store sampleNeighbor.outQueue pre = .ok part ∧
      IsQueue TreeCell.store part u ∧
      BitTrie.entriesOpt u = (BitTrie.entriesOpt (some sampleQueue)).filter fun e =>
        ShardIdent.containsFullPrefix ⟨0, shardFull⟩ (nextHop e.1) :=
  subtreeWithPrefix_shard isQueue_sample (by decide)

def sampleReader : EnvelopeReader TreeCell TreeCell := ⟨fun cell => pure cell, fun _ => 0⟩

theorem merger_imports_sample :
    ∃ roots enough, fromManager TreeCell.store [sampleNeighbor, { sampleNeighbor with blockId := 8 }]
        ⟨0, shardFull⟩ = .ok roots ∧
      ∀ fuel ≥ enough, ∃ (messages : List (Message TreeCell ℕ)) (items : _),
        collect TreeCell.store linearSearch sampleReader fuel roots = .ok items ∧
        List.Forall₂ (Yields sampleReader) messages items ∧
        messages.Perm (imported (fun _ => some sampleQueue)
          [sampleNeighbor, { sampleNeighbor with blockId := 8 }] ⟨0, shardFull⟩) ∧
        messages.Pairwise fun a b =>
          toLex (leafLt a.2.1, keyHash a.1) ≤ toLex (leafLt b.2.1, keyHash b.1) := by
  apply merger_imports_in_order TreeCell.store linearSearch sampleReader
    (fun _ => some sampleQueue) _ ⟨0, shardFull⟩ (by decide)
  intro nb hnb
  rcases List.mem_pair.mp hnb with rfl | rfl
  · exact isQueue_sample
  · exact isQueue_sample

end Import

end TonNode.MsgQueue
