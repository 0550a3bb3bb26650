import TonNode.BlockShard
import TonNode.HashmapAugE

/-! The cells of outbound message queues. A key is the next hop, 96 bits, and the hash
of the message; a leaf is an enqueued message with its logical time, and a fork stores
the least time below it. The part of a queue that is bound for a shard is a subtree. -/
namespace TonNode.MsgQueue

open Block Checked Hashmap
open BitTrie (entriesOpt child)

def keyBits : ℕ := 352

def nextHop (key : List Bool) : AccountIdPrefixFull :=
  ⟨BitVec.ofNat 32 (bitsToNat (key.take 32)), BitVec.ofNat 64 (bitsToNat ((key.drop 32).take 64))⟩

def keyHash (key : List Bool) : UInt256 :=
  Fin.ofNat (2 ^ 256) (bitsToNat ((key.drop 96).take 256))

def shardKey (shard : ShardIdent) : Checked (List Bool) :=
  let workchain := natToBits 32 shard.workchainId.toNat
  if shard.pfx = shardFull then pure workchain
  else do
    require (shard.prefixLen < 64) "bits"
    pure (workchain ++ natToBits shard.prefixLen (shard.pfx >>> (64 - shard.prefixLen)).toNat)

section Subtree

variable {C : Type} (S : CellStore C)

def loadNodeRaw (cell : C) (bitLen : ℕ) : Checked (List Bool × Slice C × ℕ) := do
  let slice := S.load cell
  let (label, bitLen, bits) ← readLabelRaw slice.bits bitLen
  pure (label, ⟨bits, slice.refs⟩, bitLen)

def readNodeRaw (cell : C) (bitLen : ℕ) : Checked (List Bool × Slice C × ℕ) := do
  require (¬ S.isPruned cell) "PrunedCellAccess"
  loadNodeRaw S cell bitLen

/-- `down_by_tree`: the key down to the node where the prefix ends or is left, what
follows the label there, the rest of the prefix, and whether the node is below the
root. -/
def downByTree (pre : List Bool) :
    ℕ → C → ℕ → List Bool → Bool → Checked (List Bool × Slice C × List Bool × Bool)
  | 0, _, _, _, _ => reject "the key has no more bits"
  | fuel + 1, cell, bitLen, key, moved => do
    let (label, cursor, bitLen) ← readNodeRaw S cell bitLen
    let key := key ++ label
    match commonPrefix key pre with
    | (_, [], bit :: _) => do
      let bitLen ← present (checkedSub bitLen 1) "CellUnderflow"
      require (isFork cursor) "this edge must contain fork"
      let next ← cursor.reference bit.toNat
      downByTree pre fuel next bitLen (key ++ [bit]) true
    | (_, _, rest) => pure (key, cursor, rest, moved)

/-- `subtree_with_prefix`. What is found is in the root cell exactly if the search has not
gone down, since no cell is below itself. -/
def subtreeWithPrefix (queue : HashmapAugE C (Fin (2 ^ 64))) (pre : List Bool) :
    Checked (HashmapAugE C (Fin (2 ^ 64))) :=
  if pre = [] then pure queue
  else do
    require (pre.length ≤ keyBits) "Prefix too long"
    match queue.data with
    | none => withHashmap S (minMsgTime C) keyBits none
    | some root => do
      let (key, remainder, rest, moved) ← downByTree S pre (keyBits + 1) root keyBits [] false
      if rest ≠ [] then withHashmap S (minMsgTime C) keyBits none
      else if moved then do
        let cell ← finalizeNode S key keyBits remainder
        withHashmap S (minMsgTime C) keyBits (some cell)
      else pure queue

end Subtree

section Queue

variable {C : Type}

structure EnqueuedMsg (C : Type) where
  enqueuedLt : Fin (2 ^ 64)
  outMsg : C

namespace EnqueuedMsg

def writeTo (msg : EnqueuedMsg C) : Slice C := ⟨natToBits 64 msg.enqueuedLt, [msg.outMsg]⟩

def constructFrom (s : Slice C) : Checked (EnqueuedMsg C) := do
  require (64 ≤ s.bits.length) "CellUnderflow"
  let outMsg ← s.reference 0
  pure ⟨Fin.ofNat (2 ^ 64) (bitsToNat (s.bits.take 64)), outMsg⟩

end EnqueuedMsg

def minLt : BitTrie (Slice C) → Fin (2 ^ 64)
  | .leaf _ value => Fin.ofNat (2 ^ 64) (bitsToNat (value.bits.take 64))
  | .fork _ l r => min (minLt l) (minLt r)

/-- The cells of a queue, with any labels that spell the keys: every fork stores the
least time below it, and all cells are there. -/
inductive IsQueueCell (S : CellStore C) : ℕ → BitTrie (Slice C) → C → Prop
  | leaf {n : ℕ} {cell : C} {label : List Bool} {lt : Fin (2 ^ 64)} {msg : EnqueuedMsg C}
      (full : S.isPruned cell = false)
      (load : loadNodeRaw S cell n = .ok (label, combine (minMsgTime C) lt msg.writeTo, 0))
      (length : label.length = n) (depth : S.depth msg.outMsg < maxSafeDepth) :
      IsQueueCell S n (.leaf label (combine (minMsgTime C) lt msg.writeTo)) cell
  | fork {n m : ℕ} {cell left right : C} {label : List Bool} {l r : BitTrie (Slice C)}
      (full : S.isPruned cell = false) (load : loadNodeRaw S cell n =
        .ok (label, ⟨natToBits 64 (minLt (.fork label l r)), [left, right]⟩, m + 1))
      (length : label.length + 1 + m = n) (leftDepth : S.depth left < maxSafeDepth)
      (rightDepth : S.depth right < maxSafeDepth) (leftCell : IsQueueCell S m l left)
      (rightCell : IsQueueCell S m r right) : IsQueueCell S n (.fork label l r) cell

def IsQueue (S : CellStore C) (queue : HashmapAugE C (Fin (2 ^ 64))) :
    Option (BitTrie (Slice C)) → Prop
  | none => queue.data = none
  | some t => ∃ root, queue.data = some root ∧ IsQueueCell S keyBits t root

end Queue

section ShardKey

theorem append_prefix_iff {α : Type} {a b l : List α} :
    a ++ b <+: l ↔ a = l.take a.length ∧ b <+: l.drop a.length := by
  constructor
  · rintro ⟨c, rfl⟩
    rw [List.append_assoc, List.take_left, List.drop_left]
    exact ⟨rfl, List.prefix_append b c⟩
  · rintro ⟨ha, c, hc⟩
    refine ⟨c, ?_⟩
    calc a ++ b ++ c = a ++ (b ++ c) := List.append_assoc _ _ _
      _ = l.take a.length ++ l.drop a.length := congrArg₂ _ ha hc
      _ = l := List.take_append_drop _ _

theorem natToBits_toNat_eq_iff {w : ℕ} (x : BitVec w) {bits : List Bool} (h : bits.length = w) :
    natToBits w x.toNat = bits ↔ x = BitVec.ofNat w (bitsToNat bits) := by
  have hlt : bitsToNat bits < 2 ^ w := h ▸ bitsToNat_lt bits
  have hbits : natToBits w (bitsToNat bits) = bits := h ▸ natToBits_bitsToNat bits
  rw [← BitVec.toNat_inj, BitVec.toNat_ofNat, Nat.mod_eq_of_lt hlt]
  nth_rewrite 1 [← hbits]
  exact natToBits_inj x.isLt hlt

/-- The highest bits of two machine words agree if the words do after a shift. -/
theorem natToBits_ushiftRight_eq_iff {w len : ℕ} (hlen : len ≤ w) (x y : BitVec w) :
    natToBits len (x >>> (w - len)).toNat = (natToBits w y.toNat).take len ↔
      x >>> (w - len) = y >>> (w - len) := by
  obtain ⟨extra, rfl⟩ := Nat.exists_eq_add_of_le hlen
  have hlt : ∀ z : BitVec (len + extra), z.toNat / 2 ^ extra < 2 ^ len := by
    intro z
    apply Nat.div_lt_of_lt_mul
    rw [← pow_add, Nat.add_comm extra]
    exact z.isLt
  rw [Nat.add_sub_cancel_left, take_natToBits, ← BitVec.toNat_inj, BitVec.toNat_ushiftRight,
    BitVec.toNat_ushiftRight, Nat.shiftRight_eq_div_pow, Nat.shiftRight_eq_div_pow]
  exact natToBits_inj (hlt x) (hlt y)

theorem prefixLen_lt {shard : ShardIdent} (h : shard.pfx ≠ 0) : shard.prefixLen < 64 := by
  rw [ShardIdent.prefixLen, if_neg h]
  omega

/-- The keys that begin with the key of a shard are those with the next hop in it. -/
theorem shardKey_prefix_iff {shard : ShardIdent} (hshard : shard.pfx ≠ 0) :
    ∃ pre, shardKey shard = .ok pre ∧ pre ≠ [] ∧ pre.length ≤ keyBits ∧
      ∀ key : List Bool, key.length = keyBits →
        (pre <+: key ↔ shard.containsFullPrefix (nextHop key) = true) := by
  have hworkchain : ∀ key : List Bool, key.length = keyBits →
      (natToBits 32 shard.workchainId.toNat = key.take 32 ↔
        shard.workchainId = (nextHop key).workchainId) := by
    intro key hkey
    apply natToBits_toNat_eq_iff
    rw [List.length_take, hkey]
    rfl
  have hlen := prefixLen_lt hshard
  by_cases hfull : shard.pfx = shardFull
  · refine ⟨natToBits 32 shard.workchainId.toNat, ?_, ?_, ?_, ?_⟩
    · rw [shardKey, if_pos hfull]
      rfl
    · exact List.ne_nil_of_length_pos (by rw [length_natToBits]; decide)
    · rw [length_natToBits]
      decide
    · intro key hkey
      have hsplit := @append_prefix_iff _ (natToBits 32 shard.workchainId.toNat) [] key
      rw [List.append_nil, length_natToBits] at hsplit
      rw [hsplit, hworkchain key hkey, ShardIdent.containsFullPrefix]
      simp [hfull]
  · -- the shifted tag of the shard against as many bits of the account
    refine ⟨natToBits 32 shard.workchainId.toNat ++ natToBits shard.prefixLen
      (shard.pfx >>> (64 - shard.prefixLen)).toNat, ?_, ?_, ?_, ?_⟩
    · rw [shardKey, if_neg hfull]
      simp only [require, if_pos hlen]
      rfl
    · exact List.append_ne_nil_of_left_ne_nil
        (List.ne_nil_of_length_pos (by rw [length_natToBits]; decide)) _
    · rw [List.length_append, length_natToBits, length_natToBits, keyBits]
      omega
    · intro key hkey
      have haccount : natToBits 64 (nextHop key).pfx.toNat = (key.drop 32).take 64 := by
        rw [natToBits_toNat_eq_iff]
        · rfl
        · rw [List.length_take, List.length_drop, hkey]
          rfl
      have hshift := natToBits_ushiftRight_eq_iff hlen.le shard.pfx (nextHop key).pfx
      rw [append_prefix_iff, length_natToBits, hworkchain key hkey, ShardIdent.containsFullPrefix,
        List.prefix_iff_eq_take, length_natToBits]
      rw [haccount, List.take_take, min_eq_left hlen.le] at hshift
      rw [hshift]
      simp [hfull]

end ShardKey

section Cells

variable {C : Type} {S : CellStore C} {n : ℕ} {t : BitTrie (Slice C)} {cell : C}

theorem minLt_leaf (label : List Bool) (lt : Fin (2 ^ 64)) (leaf : Slice C) :
    minLt (.leaf label (combine (minMsgTime C) lt leaf)) = lt := by
  have htake : (natToBits 64 lt ++ leaf.bits).take 64 = natToBits 64 lt :=
    List.take_left' (length_natToBits _ _)
  have hbits : (combine (minMsgTime C) lt leaf).bits = natToBits 64 lt ++ leaf.bits := rfl
  rw [minLt, hbits, htake, bitsToNat_natToBits lt.isLt]
  exact Fin.ofNat_val_eq_self lt

theorem readNodeRaw_of_full {node : List Bool × Slice C × ℕ} (hfull : S.isPruned cell = false)
    (hload : loadNodeRaw S cell n = .ok node) : readNodeRaw S cell n = .ok node := by
  rw [readNodeRaw, seq_eq_ok, require_eq_ok, hfull]
  exact ⟨Bool.false_ne_true, hload⟩

variable {pre path label : List Bool} {data : Slice C}

theorem readNode_of_full {below : ℕ} (hfull : S.isPruned cell = false)
    (hload : loadNodeRaw S cell n = .ok (label, data, below)) :
    readNode S cell n = .ok (label, data) := by
  simp only [loadNodeRaw, readLabelRaw, bind_eq_ok, pure_eq_ok, Prod.exists, Prod.mk.injEq] at hload
  obtain ⟨_, _, bits, ⟨_, _, hread, _, -, rfl, -, rfl⟩, rfl, rfl, -⟩ := hload
  simp only [readNode, loadNode, hread, ok_bind, require, hfull, Bool.false_eq_true, not_false_iff,
    if_true]
  rfl

theorem loadNodeRaw_finalizeNode {key : List Bool} {data : Slice C}
    (h : Hashmap.finalizeNode S key n data = .ok cell) (hkey : key.length ≤ n)
    (hlen : n ≤ maxDataBits) : loadNodeRaw S cell n = .ok (key, data, n - key.length) := by
  obtain ⟨-, hcell⟩ := finalizeNode_eq_ok.mp h
  simp only [loadNodeRaw, S.load_finalize hcell, readLabelRaw_labelBits key data.bits hkey hlen,
    ok_bind]
  rfl

def IsQueueNode (S : CellStore C) (n : ℕ) (t : BitTrie (Slice C)) (data : Slice C) : Prop :=
  ∃ cell below, IsQueueCell S n t cell ∧ loadNodeRaw S cell n = .ok (t.label, data, below)

theorem IsQueueCell.exists_node (h : IsQueueCell S n t cell) :
    ∃ data below, readNodeRaw S cell n = .ok (t.label, data, below) ∧ IsQueueNode S n t data := by
  cases h with
  | leaf full load length depth =>
    exact ⟨_, _, readNodeRaw_of_full full load, _, _, .leaf full load length depth, load⟩
  | fork full load length leftDepth rightDepth leftCell rightCell =>
    exact ⟨_, _, readNodeRaw_of_full full load, _, _,
      .fork full load length leftDepth rightDepth leftCell rightCell, load⟩

theorem IsQueueCell.findExtra (h : IsQueueCell S n t cell) :
    Hashmap.findExtra S (minMsgTime C) cell n = .ok (minLt t) := by
  have hextra := fun (lt : Fin (2 ^ 64)) (s : Slice C) => (minMsgTime C).constructFrom_writeTo lt s
  simp only [Hashmap.findExtra, bind_eq_ok, pure_eq_ok, Prod.exists]
  cases h with
  | @leaf _ _ label lt msg full load length _ =>
    have hskip : skipSides label n (combine (minMsgTime C) lt msg.writeTo) =
        .ok (combine (minMsgTime C) lt msg.writeTo) := by
      rw [skipSides, if_pos length]
      rfl
    rw [minLt_leaf]
    exact ⟨_, _, readNode_of_full full load, _, hskip, _, _, hextra lt msg.writeTo, rfl⟩
  | @fork _ m _ left right label l r full load length _ _ _ _ =>
    have hskip : skipSides label n ⟨natToBits 64 (minLt (.fork label l r)), [left, right]⟩ =
        .ok ((minMsgTime C).writeTo (minLt (.fork label l r)) ++ ⟨[], []⟩) := by
      rw [skipSides, if_neg (by omega)]
      exact congrArg (fun bits => Except.ok (Slice.mk bits [])) (List.append_nil _).symm
    exact ⟨_, _, readNode_of_full full load, _, hskip, _, _, hextra _ ⟨[], []⟩, rfl⟩

theorem IsQueueNode.label_length_le (h : IsQueueNode S n t data) : t.label.length ≤ n := by
  obtain ⟨cell, _, hcell, -⟩ := h
  cases hcell with
  | leaf _ _ length _ => exact length.le
  | fork _ _ length _ _ _ _ =>
    rw [BitTrie.label]
    omega

/-- A subtree is the queue of its keys once its root has the way to it as its label. -/
theorem IsQueueNode.finalizeNode (h : IsQueueNode S n t data) (hpath : path.length + n = keyBits) :
    ∃ root, Hashmap.finalizeNode S (path ++ t.label) keyBits data = .ok root ∧
      IsQueueCell S keyBits (t.prepend path) root := by
  have hlabel : (path ++ t.label).length ≤ keyBits := by
    rw [List.length_append, ← hpath]
    exact Nat.add_le_add_left h.label_length_le _
  have hroom : (labelBits (path ++ t.label) keyBits).length ≤ 2 + keyBits + 9 :=
    (length_labelBits_bound hlabel).trans (Nat.add_le_add_right (Nat.add_le_add_left hlabel 2) 9)
  have hbuild : data.bits.length ≤ 128 → data.refs.length ≤ maxReferencesCount →
      (∀ r ∈ data.refs, S.depth r < maxSafeDepth) →
      ∃ root, Hashmap.finalizeNode S (path ++ t.label) keyBits data = .ok root ∧
        S.isPruned root = false ∧ loadNodeRaw S root keyBits =
          .ok (path ++ t.label, data, keyBits - (path ++ t.label).length) := by
    intro hbits hrefs hdepth
    have hfits : (labelBits (path ++ t.label) keyBits ++ data.bits).length ≤ maxDataBits := by
      rw [List.length_append]
      exact (Nat.add_le_add hroom hbits).trans (by decide)
    obtain ⟨root, hroot⟩ := exists_finalizeNode.mpr ⟨hfits, hrefs, hdepth⟩
    have hload := loadNodeRaw_finalizeNode hroot hlabel (by decide)
    exact ⟨root, hroot, S.isPruned_finalize (finalizeNode_eq_ok.mp hroot).2, hload⟩
  obtain ⟨cell, _, hcell, hdata⟩ := h
  cases hcell with
  | @leaf _ _ label lt msg _ load length depth =>
    rw [load, Except.ok.injEq, Prod.mk.injEq, Prod.mk.injEq] at hdata
    obtain ⟨-, rfl, -⟩ := hdata
    have hbits : (natToBits 64 lt ++ natToBits 64 msg.enqueuedLt).length ≤ 128 := by
      rw [List.length_append, length_natToBits, length_natToBits]
    have hdepth : ∀ r ∈ [msg.outMsg], S.depth r < maxSafeDepth := by
      intro r hr
      rw [List.mem_singleton.mp hr]
      exact depth
    obtain ⟨root, hroot, hfull, hload⟩ := hbuild hbits (Nat.le_add_left 1 3) hdepth
    have hkey : (path ++ label).length = keyBits := by
      rw [List.length_append, length, hpath]
    rw [BitTrie.label, hkey, Nat.sub_self] at hload
    exact ⟨root, hroot, .leaf hfull hload hkey depth⟩
  | @fork _ m _ left right label l r _ load length leftDepth rightDepth leftCell rightCell =>
    rw [load, Except.ok.injEq, Prod.mk.injEq, Prod.mk.injEq] at hdata
    obtain ⟨-, rfl, -⟩ := hdata
    have hbits : (natToBits 64 (minLt (.fork label l r))).length ≤ 128 := by
      rw [length_natToBits]
      decide
    have hdepth : ∀ c ∈ [left, right], S.depth c < maxSafeDepth := by
      intro c hc
      rcases List.mem_pair.mp hc with rfl | rfl
      · exact leftDepth
      · exact rightDepth
    obtain ⟨root, hroot, hfull, hload⟩ := hbuild hbits (Nat.le_add_left 2 2) hdepth
    have hkey : (path ++ label).length + 1 + m = keyBits := by
      rw [List.length_append]
      omega
    have hbelow : keyBits - (path ++ label).length = m + 1 := by omega
    rw [BitTrie.label, hbelow] at hload
    exact ⟨root, hroot, .fork hfull hload hkey leftDepth rightDepth leftCell rightCell⟩

/-- Where a search for a prefix ends: at its subtree, or with some of the prefix left if
there is none. It is still where it began only if the subtree is the whole. -/
def EndsAt (S : CellStore C) (n : ℕ) (t : BitTrie (Slice C)) (pre path : List Bool)
    (moved : Bool) : List Bool × Slice C × List Bool × Bool → Prop
  | (key, data, rest, moved') =>
    match t.subtreeAt pre path with
    | none => rest ≠ []
    | some (path', u) => rest = [] ∧ key = path' ++ u.label ∧
        (∃ m, path'.length + m = path.length + n ∧ IsQueueNode S m u data) ∧
        (moved' = false → moved = false ∧ path' = path ∧ u = t)

theorem downByTree_stop {p x rest : List Bool} {data : Slice C} {moved : Bool} {below fuel : ℕ}
    (hread : readNodeRaw S cell n = .ok (label, data, below))
    (hcommon : commonPrefix (path ++ label) pre = (p, x, rest)) (hstop : x = [] → rest = []) :
    downByTree S pre (fuel + 1) cell n path moved = .ok (path ++ label, data, rest, moved) := by
  simp only [downByTree, hread, ok_bind, hcommon]
  split
  · rename_i heq
    simp only [Prod.mk.injEq] at heq
    rw [hstop heq.2.1] at heq
    cases heq.2.2
  · rename_i heq
    simp only [Prod.mk.injEq] at heq
    rw [heq.2.2]
    rfl

theorem downByTree_down {p rest : List Bool} {bit : Bool} {data : Slice C} {moved : Bool}
    {m fuel : ℕ} {next : C} (hread : readNodeRaw S cell n = .ok (label, data, m + 1))
    (hcommon : commonPrefix (path ++ label) pre = (p, [], bit :: rest)) (hfork : isFork data = true)
    (hnext : data.reference bit.toNat = .ok next) : downByTree S pre (fuel + 1) cell n path moved =
      downByTree S pre fuel next m (path ++ label ++ [bit]) true := by
  have hsub : checkedSub (m + 1) 1 = some m := checkedSub_eq_some.mpr (Nat.add_comm 1 m)
  simp [downByTree, hread, ok_bind, hcommon, hsub, present, hfork, require, hnext]

theorem IsQueueCell.endsAt_root {moved : Bool} {fuel : ℕ} (h : IsQueueCell S n t cell)
    (hstop : ∀ bit rest, pre ≠ path ++ t.label ++ bit :: rest) :
    ∃ result, downByTree S pre (fuel + 1) cell n path moved = .ok result ∧
      EndsAt S n t pre path moved result := by
  obtain ⟨data, below, hread, hnode⟩ := h.exists_node
  have hfound : ∀ {p x}, commonPrefix (path ++ t.label) pre = (p, x, []) →
      ∃ result, downByTree S pre (fuel + 1) cell n path moved = .ok result ∧
        EndsAt S n t pre path moved result := by
    intro p x hcommon
    refine ⟨_, downByTree_stop hread hcommon fun _ => rfl, ?_⟩
    rw [EndsAt, BitTrie.subtreeAt_here hcommon]
    exact ⟨rfl, rfl, ⟨n, rfl, hnode⟩, fun h => ⟨h, rfl, rfl⟩⟩
  rcases prefix_cases (path ++ t.label) pre with ⟨x, hx⟩ | ⟨b, x, hx⟩ | ⟨p, b, x, y, hx, hy⟩
  · cases x with
    | nil =>
      rw [List.append_nil] at hx
      rw [hx] at hfound ⊢
      exact hfound (commonPrefix_self _)
    | cons bit rest => exact absurd hx (hstop bit rest)
  · rw [hx] at hfound
    exact hfound (commonPrefix_append_self _ _)
  · have hcommon : commonPrefix (path ++ t.label) pre = (p, b :: x, (!b) :: y) := by
      rw [hx, hy, commonPrefix_diverge]
    refine ⟨_, downByTree_stop hread hcommon fun hnil => absurd hnil (List.cons_ne_nil _ _), ?_⟩
    rw [EndsAt, BitTrie.subtreeAt_diverge hcommon]
    exact List.cons_ne_nil _ _

theorem EndsAt.of_child {rest : List Bool} {l r : BitTrie (Slice C)} {m : ℕ} {bit moved : Bool}
    {result : List Bool × Slice C × List Bool × Bool}
    (h : EndsAt S m (child l r bit) pre (path ++ label ++ [bit]) true result)
    (hpre : pre = path ++ label ++ bit :: rest) (hlen : label.length + 1 + m = n) :
    EndsAt S n (.fork label l r) pre path moved result := by
  have hat : (BitTrie.fork label l r).subtreeAt pre path =
      (child l r bit).subtreeAt pre (path ++ label ++ [bit]) := by
    rw [BitTrie.subtreeAt, hpre, commonPrefix_self_append]
    cases bit with
    | false | true => rfl
  obtain ⟨key, data, rest', moved'⟩ := result
  rw [EndsAt] at h ⊢
  rw [hat]
  cases hsub : (child l r bit).subtreeAt pre (path ++ label ++ [bit]) with
  | none =>
    rw [hsub] at h
    exact h
  | some found =>
    rw [hsub] at h
    obtain ⟨hrest, hkey, ⟨k, hk, hnode⟩, hmoved⟩ := h
    refine ⟨hrest, hkey, ⟨k, ?_, hnode⟩, ?_⟩
    · rw [hk, List.length_append, List.length_append, List.length_singleton]
      omega
    · intro hfalse
      exact absurd (hmoved hfalse).1 (by decide)

theorem IsQueueCell.endsAt {moved : Bool} {fuel : ℕ} (h : IsQueueCell S n t cell) (hfuel : n < fuel)
    (hpre : pre.length ≤ path.length + n) :
    ∃ result, downByTree S pre fuel cell n path moved = .ok result ∧
      EndsAt S n t pre path moved result := by
  induction h generalizing fuel path moved with
  | @leaf n cell label lt msg full load length depth =>
    obtain ⟨fuel, rfl⟩ : ∃ k, fuel = k + 1 := ⟨fuel - 1, by omega⟩
    have hcell : IsQueueCell S n _ cell := .leaf full load length depth
    apply hcell.endsAt_root
    -- the key of a leaf is complete
    intro bit rest heq
    rw [heq, List.length_append, List.length_append, BitTrie.label, length, List.length_cons] at hpre
    omega
  | @fork n m cell left right label l r full load length leftDepth rightDepth leftCell rightCell
      ihl ihr =>
    obtain ⟨fuel, rfl⟩ : ∃ k, fuel = k + 1 := ⟨fuel - 1, by omega⟩
    have hcell : IsQueueCell S n _ cell :=
      .fork full load length leftDepth rightDepth leftCell rightCell
    by_cases hstop : ∀ bit rest, pre ≠ path ++ label ++ bit :: rest
    · exact hcell.endsAt_root hstop
    · simp only [not_forall, not_not] at hstop
      obtain ⟨bit, rest, hrest⟩ := hstop
      have hread := readNodeRaw_of_full full load
      have hcommon : commonPrefix (path ++ label) pre = (path ++ label, [], bit :: rest) := by
        rw [hrest, commonPrefix_self_append]
      have hpre' : pre.length ≤ (path ++ label ++ [bit]).length + m := by
        rw [List.length_append, List.length_append, List.length_singleton]
        omega
      cases bit with
      | false =>
        obtain ⟨result, hdown, hends⟩ := @ihl _ true fuel (by omega) hpre'
        refine ⟨result, ?_, hends.of_child hrest length⟩
        rw [downByTree_down hread hcommon rfl reference_zero, hdown]
      | true =>
        obtain ⟨result, hdown, hends⟩ := @ihr _ true fuel (by omega) hpre'
        refine ⟨result, ?_, hends.of_child hrest length⟩
        rw [downByTree_down hread hcommon rfl reference_one, hdown]

theorem IsQueue.subtreeWithPrefix {queue : HashmapAugE C (Fin (2 ^ 64))}
    {t : Option (BitTrie (Slice C))} {pre : List Bool} (h : IsQueue S queue t) (hne : pre ≠ [])
    (hlen : pre.length ≤ keyBits) :
    ∃ part u, MsgQueue.subtreeWithPrefix S queue pre = .ok part ∧ IsQueue S part u ∧ entriesOpt u =
        (entriesOpt t).filter fun e => decide (pre <+: e.1) := by
  rw [MsgQueue.subtreeWithPrefix, if_neg hne]
  simp only [require, if_pos hlen, ok_bind]
  cases t with
  | none =>
    rw [show queue.data = none from h]
    exact ⟨_, none, rfl, rfl, rfl⟩
  | some t =>
    obtain ⟨root, hroot, hcell⟩ := h
    obtain ⟨⟨key, data, rest, moved⟩, hdown, hends⟩ :=
      @IsQueueCell.endsAt _ _ _ _ _ pre [] false (keyBits + 1) hcell (Nat.lt_succ_self _)
        (by rw [List.length_nil, Nat.zero_add]; exact hlen)
    have hfilter := @BitTrie.filter_entriesFrom _ pre t []
    rw [EndsAt] at hends
    simp only [hroot, hdown, ok_bind]
    rw [entriesOpt, hfilter]
    cases hsub : t.subtreeAt pre [] with
    | none =>
      rw [hsub] at hends
      refine ⟨⟨none, (minMsgTime C).default⟩, none, ?_, rfl, rfl⟩
      rw [if_pos hends]
      rfl
    | some found =>
      obtain ⟨path, u⟩ := found
      rw [hsub] at hends
      obtain ⟨hrest, hkey, ⟨m, hm, hnode⟩, hmoved⟩ := hends
      rw [if_neg (not_not.mpr hrest)]
      cases moved with
      | false =>
        obtain ⟨-, rfl, rfl⟩ := hmoved rfl
        exact ⟨queue, some u, rfl, ⟨root, hroot, hcell⟩, rfl⟩
      | true =>
        obtain ⟨root', hroot', hcell'⟩ := hnode.finalizeNode hm
        refine ⟨⟨some root', minLt (u.prepend path)⟩, some (u.prepend path), ?_,
          ⟨root', rfl, hcell'⟩, BitTrie.entriesFrom_prepend path [] u⟩
        rw [if_pos rfl, hkey, hroot', ok_bind, withHashmap, hcell'.findExtra]
        rfl

end Cells

end TonNode.MsgQueue
