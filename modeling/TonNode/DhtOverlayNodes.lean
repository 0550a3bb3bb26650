import TonNode.Checks

/-!
The value stored under an overlay's key is a list of signed nodes, each with a version.  A store query
brings more nodes, and the correctly signed ones are merged into the list by id.  The merge gives up at
the first node that is not newer than the entry of its id, and then the whole query is dropped.
-/

namespace TonNode.Dht

open Checked

/-- A node of an overlay; `rest` stands for its flags, its overlay and its signature. -/
structure OverlayNode (I P : Type) where
  id : I
  version : ℤ
  rest : P

abbrev Nodes (I P : Type) := List (OverlayNode I P)

structure StoredNodes (I P : Type) where
  ttl : ℤ
  nodes : Nodes I P

/-- A store query for overlay nodes.  `overlayKey` is the key of the nodes of the overlay that the
query describes, if it describes one. -/
structure StoreQuery (I P K : Type) where
  ttl : ℤ
  signature : List UInt8
  keySignature : List UInt8
  overlayKey : Option K
  key : K
  nodes : Checked (Nodes I P)

variable {I P K : Type} [DecidableEq I] [DecidableEq K]

def mergeNode (node : OverlayNode I P) : Nodes I P → Option (Nodes I P)
  | [] => some [node]
  | old :: olds =>
    if node.id = old.id then
      if node.version > old.version then some (node :: olds) else none
    else (mergeNode node olds).map (old :: ·)

def mergeNodes (nodes olds : Nodes I P) : Option (Nodes I P) :=
  nodes.foldlM (fun olds node => mergeNode node olds) olds

variable (now : ℤ) (verifyNode : OverlayNode I P → Bool) (query : StoreQuery I P K)

/-- The list the nodes are merged into, unless the entry is to stay. -/
def oldNodes : Option (StoredNodes I P) → Option (Nodes I P)
  | none => some []
  | some old =>
    if old.ttl < now then some []
    else if old.ttl > query.ttl then none
    else some old.nodes

def updateNodes (nodes : Nodes I P) (old : Option (StoredNodes I P)) : Option (StoredNodes I P) := do
  let olds ← oldNodes now query old
  let nodes ← mergeNodes nodes olds
  return ⟨query.ttl, nodes⟩

/-- The correctly signed nodes, in the order in which they are popped from the query. -/
def signedNodes (nodes : Nodes I P) : Nodes I P := nodes.reverse.filter verifyNode

def processStoreOverlayNodes (old : Option (StoredNodes I P)) :
    Checked (Option (StoredNodes I P)) := do
  require (query.ttl > now) "Ignore expired DHT value with key"
  require (query.signature = []) "Wrong value signature for OverlayNodes"
  require (query.keySignature = []) "Wrong key signature for OverlayNodes"
  let overlayKey ← present query.overlayKey "Wrong key description format for OverlayNodes"
  require (overlayKey = query.key) "Wrong DHT key for OverlayNodes"
  let nodes ← query.nodes
  require (signedNodes verifyNode nodes ≠ []) "Empty overlay nodes list"
  pure ((updateNodes now query (signedNodes verifyNode nodes) old).or old)

/-- The greatest version of an id in a list. -/
def newest (i : I) : Nodes I P → WithBot ℤ
  | [] => ⊥
  | node :: nodes => if node.id = i then max node.version (newest i nodes) else newest i nodes

variable {i : I} {node : OverlayNode I P} {nodes olds res l m : Nodes I P}

theorem newest_append : newest i (l ++ m) = max (newest i l) (newest i m) := by
  induction l with
  | nil => rw [List.nil_append, newest, max_bot_left]
  | cons node l ih =>
    rw [List.cons_append, newest, newest, ih]
    split_ifs
    · rw [max_assoc]
    · rfl

theorem newest_le_iff {v : WithBot ℤ} :
    newest i l ≤ v ↔ ∀ node ∈ l, node.id = i → (node.version : WithBot ℤ) ≤ v := by
  induction l with
  | nil => simp [newest]
  | cons node l ih =>
    rw [newest, List.forall_mem_cons, ← ih]
    by_cases hid : node.id = i <;> simp [hid]

theorem newest_lt_iff {v : ℤ} :
    newest i l < v ↔ ∀ node ∈ l, node.id = i → node.version < v := by
  induction l with
  | nil => simp [newest]
  | cons node l ih =>
    rw [newest, List.forall_mem_cons, ← ih]
    by_cases hid : node.id = i <;> simp [hid]

theorem coe_le_newest_iff {v : ℤ} :
    (v : WithBot ℤ) ≤ newest i l ↔ ∃ node ∈ l, node.id = i ∧ v ≤ node.version := by
  rw [← not_lt, newest_lt_iff]
  simp

/-- The list has one entry for every id of both lists, an entry of them with its greatest version. -/
structure Merged (olds nodes res : Nodes I P) : Prop where
  distinct : (res.map OverlayNode.id).Nodup
  entries : ∀ node ∈ res, node ∈ olds ++ nodes
  newest_eq : ∀ i, newest i res = newest i (olds ++ nodes)

theorem Merged.trans (h : Merged olds l m) (h' : Merged m nodes res) :
    Merged olds (l ++ nodes) res := by
  refine ⟨h'.distinct, ?_, ?_⟩
  · intro node hmem
    have hin := h'.entries node hmem
    have hout := h.entries node
    grind
  · intro i
    rw [h'.newest_eq, newest_append, h.newest_eq, ← newest_append, List.append_assoc]

/-- A dropped query leaves the list as it should be exactly when it brings nothing new. -/
theorem merged_self_iff (hd : (olds.map OverlayNode.id).Nodup) : Merged olds nodes olds ↔
    ∀ node ∈ nodes, (node.version : WithBot ℤ) ≤ newest node.id olds := by
  have hmax : (∀ i, newest i olds = newest i (olds ++ nodes)) ↔
      ∀ node ∈ nodes, (node.version : WithBot ℤ) ≤ newest node.id olds := by
    simp only [newest_append, left_eq_sup, newest_le_iff]
    exact ⟨fun h node hmem => h _ node hmem rfl, fun h i node hmem hid => hid ▸ h node hmem⟩
  exact ⟨fun h => hmax.mp h.newest_eq,
    fun h => ⟨hd, fun _ => List.mem_append_left nodes, hmax.mpr h⟩⟩

variable (hd : (olds.map OverlayNode.id).Nodup)
include hd

theorem mergeNode_merged (h : mergeNode node olds = some res) : Merged olds [node] res := by
  induction olds generalizing res with
  | nil =>
    obtain rfl := Option.some.inj h
    exact ⟨List.nodup_singleton _, fun _ => id, fun _ => rfl⟩
  | cons old olds ih =>
    obtain ⟨hold, hd⟩ := List.nodup_cons.mp hd
    rw [mergeNode] at h
    split_ifs at h with hid hnew
    · -- the entry of the id is replaced in its place
      obtain rfl := Option.some.inj h
      refine ⟨?_, by grind, ?_⟩
      · rw [List.map_cons, hid]
        exact List.nodup_cons.mpr ⟨hold, hd⟩
      · intro i
        have hle : (old.version : WithBot ℤ) ≤ node.version := WithBot.coe_le_coe.mpr hnew.le
        simp only [newest_append, newest, hid]
        split_ifs
        · rw [max_bot_right, max_right_comm, max_eq_right hle]
        · rw [max_bot_right]
    · obtain ⟨rest, hrest, rfl⟩ := Option.map_eq_some_iff.mp h
      obtain ⟨hdistinct, hentries, hnewest⟩ := ih hd hrest
      refine ⟨List.nodup_cons.mpr ⟨?_, hdistinct⟩, by grind, ?_⟩
      · intro hmem
        obtain ⟨other, hother, heq⟩ := List.mem_map.mp hmem
        rcases List.mem_append.mp (hentries other hother) with hin | hin
        · exact hold (heq ▸ List.mem_map_of_mem hin)
        · exact hid (by rw [← heq, List.mem_singleton.mp hin])
      · intro i
        rw [newest, hnewest, List.cons_append, newest]

theorem mergeNodes_merged (h : mergeNodes nodes olds = some res) : Merged olds nodes res := by
  induction nodes generalizing olds with
  | nil =>
    obtain rfl := Option.some.inj h
    rw [merged_self_iff hd]
    exact List.forall_mem_nil _
  | cons node nodes ih =>
    obtain ⟨mid, hmid, hres⟩ := Option.bind_eq_some_iff.mp h
    have hhead := mergeNode_merged hd hmid
    exact hhead.trans (ih hhead.distinct hres)

theorem mergeNode_isSome_iff :
    (mergeNode node olds).isSome ↔ ∀ old ∈ olds, old.id = node.id → old.version < node.version := by
  induction olds with
  | nil => simp [mergeNode]
  | cons old olds ih =>
    obtain ⟨hold, hd⟩ := List.nodup_cons.mp hd
    rw [mergeNode, List.forall_mem_cons]
    split_ifs with hid hnew
    · -- no later entry has the id, so the comparison just made is the only one
      have hrest : ∀ other ∈ olds, other.id = node.id → other.version < node.version := by
        intro other hmem heq
        have hids : other.id ∈ olds.map OverlayNode.id := List.mem_map_of_mem hmem
        rw [heq, hid] at hids
        exact absurd hids hold
      simp only [Option.isSome_some, true_iff]
      exact ⟨fun _ => hnew, hrest⟩
    · simp [hid, hnew]
    · rw [Option.isSome_map, ih hd]
      simp [Ne.symm hid]

/-- Every signed node of the query is newer than the stored entry of its id and than the nodes of its
id that are popped before it. -/
def Fresh (olds nodes : Nodes I P) : Prop :=
  (∀ node ∈ nodes, ∀ old ∈ olds, old.id = node.id → old.version < node.version) ∧
    nodes.Pairwise fun earlier node => earlier.id = node.id → earlier.version < node.version

theorem mergeNodes_isSome_iff : (mergeNodes nodes olds).isSome ↔ Fresh olds nodes := by
  induction nodes generalizing olds with
  | nil => simp [mergeNodes, Fresh]
  | cons node nodes ih =>
    have hbind : mergeNodes (node :: nodes) olds = (mergeNode node olds).bind (mergeNodes nodes) :=
      List.foldlM_cons
    have hhead : (mergeNode node olds).isSome ↔
        ∀ old ∈ olds, old.id = node.id → old.version < node.version := mergeNode_isSome_iff hd
    rw [hbind, Fresh, List.forall_mem_cons, List.pairwise_cons, ← hhead]
    cases hmid : mergeNode node olds with
    | none => simp
    | some mid =>
      -- the list that the rest is merged into has the versions of `olds` and of the node
      have hmerged := mergeNode_merged hd hmid
      have hmem (other : OverlayNode I P) :
          (∀ old ∈ mid, old.id = other.id → old.version < other.version) ↔
            (∀ old ∈ olds, old.id = other.id → old.version < other.version) ∧
              (node.id = other.id → node.version < other.version) := by
        rw [← newest_lt_iff, hmerged.newest_eq, newest_append, max_lt_iff, newest_lt_iff,
          newest_lt_iff]
        simp
      simp only [Option.bind_some, Option.isSome_some, true_and, ih hmerged.distinct, Fresh, hmem,
        forall_and, and_assoc]

/-- Every signed node of the query is fresh when its turn comes, or for none of them is there anything
to do. -/
def Lossless (olds nodes : Nodes I P) : Prop :=
  Fresh olds nodes ∨ ∀ node ∈ nodes, ∃ old ∈ olds, old.id = node.id ∧ node.version ≤ old.version

theorem merged_getD_iff :
    Merged olds nodes ((mergeNodes nodes olds).getD olds) ↔ Lossless olds nodes := by
  rw [Lossless, ← mergeNodes_isSome_iff hd]
  cases hres : mergeNodes nodes olds with
  | none => simp [merged_self_iff hd, coe_le_newest_iff]
  | some res => simp [mergeNodes_merged hd hres]

omit hd

/-- A query that passes the checks, and its correctly signed nodes. -/
def Valid (signed : Nodes I P) : Prop :=
  query.ttl > now ∧ query.signature = [] ∧ query.keySignature = [] ∧
    query.overlayKey = some query.key ∧ signed ≠ [] ∧
    ∃ nodes, query.nodes = .ok nodes ∧ signedNodes verifyNode nodes = signed

variable {now verifyNode query} {old new new' : StoredNodes I P}

theorem Valid.process (h : Valid now verifyNode query nodes) (hnow : now ≤ old.ttl)
    (httl : old.ttl ≤ query.ttl) :
    ∃ new, processStoreOverlayNodes now verifyNode query (some old) = .ok (some new) ∧
      new.nodes = (mergeNodes nodes old.nodes).getD old.nodes := by
  obtain ⟨hunexpired, hsig, hkeysig, hkey, hne, sent, hsent, rfl⟩ := h
  have hpass : processStoreOverlayNodes now verifyNode query (some old) =
      .ok ((updateNodes now query (signedNodes verifyNode sent) (some old)).or (some old)) := by
    simp only [processStoreOverlayNodes, require, present, hunexpired, hsig, hkeysig, hkey, hsent,
      hne, ne_eq, not_false_eq_true, if_true, ok_bind]
    rfl
  rw [hpass, updateNodes, oldNodes, if_neg hnow.not_gt, if_neg httl.not_gt, Option.bind_eq_bind,
    Option.bind_some]
  cases mergeNodes (signedNodes verifyNode sent) old.nodes with
  | none => exact ⟨old, rfl, rfl⟩
  | some res => exact ⟨⟨query.ttl, res⟩, rfl, rfl⟩

/-- The lists that store queries have built. -/
inductive Stored (verifyNode : OverlayNode I P → Bool) (K : Type) [DecidableEq K] :
    StoredNodes I P → Prop
  | store {now : ℤ} {query : StoreQuery I P K} {old : Option (StoredNodes I P)}
    {new : StoredNodes I P} (hold : ∀ o ∈ old, Stored verifyNode K o)
    (h : processStoreOverlayNodes now verifyNode query old = .ok (some new)) :
    Stored verifyNode K new

theorem Stored.distinct (h : Stored verifyNode K old) : (old.nodes.map OverlayNode.id).Nodup := by
  induction h with
  | @store now query old new hold h ih =>
    simp only [processStoreOverlayNodes, bind_eq_ok, pure_eq_ok, Option.or_eq_some_iff] at h
    obtain ⟨-, -, -, -, -, -, -, -, -, -, nodes, -, -, -, hnew | ⟨-, rfl⟩⟩ := h
    · simp only [updateNodes, Option.bind_eq_bind, Option.bind_eq_some_iff] at hnew
      obtain ⟨olds, holds, res, hres, ⟨⟩⟩ := hnew
      refine (mergeNodes_merged ?_ hres).distinct
      cases old with
      | none =>
        cases holds
        exact List.nodup_nil
      | some old =>
        rw [oldNodes] at holds
        split_ifs at holds
        · cases holds
          exact List.nodup_nil
        · cases holds
          exact ih old rfl
    · exact ih new rfl

/-- While a stored list is not expired, a query that is answered lowers neither the version of a
node nor the time to live, also when it loses nodes. -/
theorem processStoreOverlayNodes_monotone (hstored : Stored verifyNode K old) (hnow : now ≤ old.ttl)
    (h : processStoreOverlayNodes now verifyNode query (some old) = .ok (some new)) :
    old.ttl ≤ new.ttl ∧ ∀ i, newest i old.nodes ≤ newest i new.nodes := by
  simp only [processStoreOverlayNodes, bind_eq_ok, pure_eq_ok, Option.or_eq_some_iff] at h
  obtain ⟨-, -, -, -, -, -, -, -, -, -, nodes, -, -, -, hnew | ⟨-, hkept⟩⟩ := h
  · simp only [updateNodes, oldNodes, if_neg hnow.not_gt, Option.bind_eq_bind,
      Option.bind_eq_some_iff] at hnew
    obtain ⟨olds, holds, res, hres, ⟨⟩⟩ := hnew
    split_ifs at holds with httl
    cases holds
    refine ⟨not_lt.mp httl, fun i => ?_⟩
    rw [(mergeNodes_merged hstored.distinct hres).newest_eq, newest_append]
    exact le_max_left _ _
  · cases hkept
    exact ⟨le_rfl, fun _ => le_rfl⟩

/-- Queries that find the stored list unexpired and lose no node, with the signed nodes they bring. -/
inductive Run (verifyNode : OverlayNode I P → Bool) (K : Type) [DecidableEq K] :
    StoredNodes I P → List (Nodes I P) → StoredNodes I P → Prop
  | done (old : StoredNodes I P) : Run verifyNode K old [] old
  | store {now : ℤ} {query : StoreQuery I P K} {old mid new : StoredNodes I P} {nodes : Nodes I P}
    {batches : List (Nodes I P)} (hvalid : Valid now verifyNode query nodes) (hnow : now ≤ old.ttl)
    (httl : old.ttl ≤ query.ttl)
    (hstep : processStoreOverlayNodes now verifyNode query (some old) = .ok (some mid))
    (hlossless : Lossless old.nodes nodes) (hrest : Run verifyNode K mid batches new) :
    Run verifyNode K old (nodes :: batches) new

theorem Run.merged {batches : List (Nodes I P)} (h : Run verifyNode K old batches new)
    (hd : (old.nodes.map OverlayNode.id).Nodup) : Merged old.nodes batches.flatten new.nodes := by
  induction h with
  | done old => exact (merged_self_iff hd).mpr (List.forall_mem_nil _)
  | store hvalid hnow httl hstep hlossless hrest ih =>
    obtain ⟨mid, hmid, hnodes⟩ := hvalid.process hnow httl
    obtain rfl := Option.some.inj (Except.ok.inj (hmid.symm.trans hstep))
    have hmerged := (merged_getD_iff hd).mpr hlossless
    rw [← hnodes] at hmerged
    exact hmerged.trans (ih hmerged.distinct)

theorem newest_mono (h : l ⊆ m) : newest i l ≤ newest i m := by
  rw [newest_le_iff]
  intro node hmem hid
  exact newest_le_iff.mp le_rfl node (h hmem) hid

/-- A valid query merges its nodes by version into the unexpired list exactly when it loses none of
them, and queries that lose none give the same versions in every order. -/
theorem processStoreOverlayNodes_merged_iff (hstored : Stored verifyNode K old) :
    (∀ now (query : StoreQuery I P K) signed, Valid now verifyNode query signed → now ≤ old.ttl →
      old.ttl ≤ query.ttl →
      ∃ new, processStoreOverlayNodes now verifyNode query (some old) = .ok (some new) ∧
        (Merged old.nodes signed new.nodes ↔ Lossless old.nodes signed)) ∧
    ∀ batches batches' new new', batches.Perm batches' → Run verifyNode K old batches new →
      Run verifyNode K old batches' new' → Merged old.nodes batches.flatten new.nodes ∧
        ∀ i, newest i new'.nodes = newest i new.nodes := by
  have hd := hstored.distinct
  constructor
  · intro now query signed hvalid hnow httl
    obtain ⟨new, hnew, hnodes⟩ := hvalid.process hnow httl
    exact ⟨new, hnew, by rw [hnodes, merged_getD_iff hd]⟩
  · intro batches batches' new new' hperm hrun hrun'
    have hmerged := hrun.merged hd
    refine ⟨hmerged, ?_⟩
    intro i
    have hflat := hperm.flatten
    rw [hmerged.newest_eq, (hrun'.merged hd).newest_eq, newest_append, newest_append,
      le_antisymm (newest_mono hflat.subset) (newest_mono hflat.symm.subset)]

def storeQuery (nodes : Nodes ℕ Unit) : StoreQuery ℕ Unit ℕ := ⟨10, [], [], some 0, 0, .ok nodes⟩

theorem stored_one_node : Stored (fun _ => true) ℕ ⟨10, [⟨0, 2, ()⟩]⟩ := by
  have h : processStoreOverlayNodes 5 (fun _ => true) (storeQuery [⟨0, 2, ()⟩]) none =
      .ok (some ⟨10, [⟨0, 2, ()⟩]⟩) := rfl
  refine .store ?_ h
  exact nofun

theorem processStoreOverlayNodes_newer :
    ∃ new, processStoreOverlayNodes 5 (fun _ => true) (storeQuery [⟨0, 3, ()⟩])
        (some ⟨10, [⟨0, 2, ()⟩]⟩) = .ok (some new) ∧
      Merged [⟨0, 2, ()⟩] [⟨0, 3, ()⟩] new.nodes := by
  obtain ⟨new, hnew, hmerged⟩ := (processStoreOverlayNodes_merged_iff stored_one_node).1 5
    (storeQuery [⟨0, 3, ()⟩]) [⟨0, 3, ()⟩]
    ⟨by decide, rfl, rfl, rfl, nofun, _, rfl, rfl⟩ (by decide) (by decide)
  exact ⟨new, hnew, hmerged.mpr (.inl (by simp [Fresh]))⟩

theorem processStoreOverlayNodes_raises :
    (10 : ℤ) ≤ 10 ∧ ∀ i, newest i [(⟨0, 2, ()⟩ : OverlayNode ℕ Unit)] ≤ newest i [⟨0, 3, ()⟩] := by
  have h : processStoreOverlayNodes 5 (fun _ => true) (storeQuery [⟨0, 3, ()⟩])
      (some ⟨10, [⟨0, 2, ()⟩]⟩) = .ok (some ⟨10, [⟨0, 3, ()⟩]⟩) := rfl
  exact processStoreOverlayNodes_monotone stored_one_node (by decide) h

/-- A stale node makes the new node of the same query disappear. -/
theorem processStoreOverlayNodes_loses :
    Valid 5 (fun _ => true) (storeQuery [⟨1, 1, ()⟩, ⟨0, 1, ()⟩]) [⟨0, 1, ()⟩, ⟨1, 1, ()⟩] ∧
      processStoreOverlayNodes 5 (fun _ => true) (storeQuery [⟨1, 1, ()⟩, ⟨0, 1, ()⟩])
        (some ⟨10, [⟨0, 2, ()⟩]⟩) = .ok (some ⟨10, [⟨0, 2, ()⟩]⟩) ∧
      ¬ Merged [⟨0, 2, ()⟩] [⟨0, 1, ()⟩, ⟨1, 1, ()⟩] [⟨0, 2, ()⟩] := by
  refine ⟨⟨by decide, rfl, rfl, rfl, nofun, _, rfl, rfl⟩, rfl, ?_⟩
  intro h
  exact absurd (h.newest_eq 1) (by decide)

end TonNode.Dht
