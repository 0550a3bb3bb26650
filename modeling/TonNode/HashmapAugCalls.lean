import TonNode.HashmapAugRuns

/-! The operations on an augmented dictionary as they run: on the dictionary itself, whose
root cell and root extra are set one after the other. A call that fails leaves what it
has set before. -/
namespace TonNode.Hashmap

open Block Checked

abbrev Call (C Y α : Type) := EStateM String (HashmapAugE C Y) α

section Model

variable {C Y α σ : Type} (S : CellStore C) (A : Augmentable C Y) (n : ℕ)

namespace Call

def of (x : Checked α) : Call C Y α := fun dict =>
  match x with
  | .ok a => .ok a dict
  | .error e => .error e dict

def setRootExtra (extra : Y) : Call C Y Unit := modify fun dict => ⟨dict.data, extra⟩

def setData (data : Option C) : Call C Y Unit := modify fun dict => ⟨data, dict.extra⟩

def setBuilder (key : List Bool) (leaf : Slice C) (extra : Y) : Call C Y (Option (Slice C)) := do
  of (checkKey n key)
  let dict ← get
  match dict.data with
  | some root => do
    let (old, extra, root) ← of (putToNodeAug S A leaf extra (n + 1) root n key)
    setRootExtra extra
    setData (some root)
    pure old
  | none => do
    setRootExtra extra
    let cell ← of (finalizeNode S key n (combine A extra leaf))
    setData (some cell)
    pure none

/-- `calc` on the root extra. What is left of the extra when it fails depends on the kind of
extra: a currency collection has added the coins when it fails on the other currencies. -/
def calcAug (spoil : Y → Y → Y) (other : Y) : Call C Y Unit := fun dict =>
  match A.calcAug dict.extra other with
  | .ok extra => .ok () ⟨dict.data, extra⟩
  | .error e => .error e ⟨dict.data, spoil dict.extra other⟩

def merge (spoil : Y → Y → Y) (other : HashmapAugE C Y) (key : List Bool) : Call C Y Unit := do
  of (require (key.length ≤ n)
    "data in hashmaps do not correspond each other or key too long")
  let dict ← get
  match dict.data with
  | none => do
    setData other.data
    setRootExtra other.extra
  | some cell => do
    calcAug A spoil other.extra
    let data ← of (hashmapMerge S (hashmapAug S A) (some cell) other.data n key)
    setData data

def rootExtra : Option C → Checked Y
  | some root => findExtra S A root n
  | none => pure A.default

def afterRemove : Call C Y Unit := do
  let dict ← get
  let aug ← of (rootExtra S A n dict.data)
  setRootExtra aug

def del (key : List Bool) : Call C Y Unit := do
  let dict ← get
  let removed ← of (hashmapRemove S (hashmapAug S A) dict.data n key)
  setData removed.2
  afterRemove S A n
  pure ()

def onValue (func : σ → List Bool → Slice C → Y → Checked (HashmapFilterResult × σ)) :
    σ → List Bool → Slice C → Checked (HashmapFilterResult × σ) := fun st key value => do
  let (aug, value) ← A.constructFrom value
  func st key value aug

def filter (func : σ → List Bool → Slice C → Y → Checked (HashmapFilterResult × σ)) (st : σ) :
    Call C Y (HashmapFilterResult × σ) := do
  let dict ← get
  let (result, root, st) ← of (hashmapFilter S (hashmapAug S A) dict.data n (onValue A func) st)
  match root with
  | none => pure (result, st)
  | some data => do
    setData data
    afterRemove S A n
    pure (result, st)

end Call

end Model

namespace Call

variable {C Y α β σ : Type} {S : CellStore C} {A : Augmentable C Y} {n : ℕ}
  {start dict : HashmapAugE C Y}

/-- The call does what `x` does, and what it leaves when it fails is as `L` says. -/
structure Ends (call : Call C Y α) (start : HashmapAugE C Y) (x : Checked (α × HashmapAugE C Y))
    (L : HashmapAugE C Y → Prop) : Prop where
  ok : ∀ a after, call start = .ok a after ↔ x = .ok (a, after)
  error : ∀ e left, call start = .error e left → L left

section Rules

variable {call : Call C Y α} {x : Checked (α × HashmapAugE C Y)} {L : HashmapAugE C Y → Prop}

theorem ends_ok {a : α} {after : HashmapAugE C Y} (h : call start = .ok a after) :
    Ends call start (.ok (a, after)) L where
  ok := by simp [h]
  error := by simp [h]

theorem Ends.step {first : Call C Y β} {b : β} {f : β → Call C Y α} {next : HashmapAugE C Y}
    (hfirst : first start = .ok b next) (h : Ends (f b) next x L) :
    Ends (first >>= f) start x L := by
  have hrun : (first >>= f) start = f b next := by
    simp [bind, EStateM.bind, hfirst]
  obtain ⟨hok, herror⟩ := h
  exact ⟨by rwa [hrun], by rwa [hrun]⟩

theorem ends_bind {γ : Type} {first : Call C Y β} {y : Checked γ} {f : β → Call C Y α}
    {g : γ → Checked (α × HashmapAugE C Y)} (left : HashmapAugE C Y)
    (hfail : ∀ e, y = .error e → first start = .error e left ∧ L left)
    (hok : ∀ c, y = .ok c → Ends (first >>= f) start (g c) L) :
    Ends (first >>= f) start (y >>= g) L := by
  cases y with
  | ok c => exact hok c rfl
  | error e =>
    obtain ⟨hfirst, hleft⟩ := hfail e rfl
    have hrun : (first >>= f) start = .error e left := by
      simp [bind, EStateM.bind, hfirst]
    refine ⟨fun a after => ?_, fun e' left' h => ?_⟩
    · rw [hrun]
      exact iff_of_false (fun h => by cases h) fun h => by cases h
    · cases hrun.symm.trans h
      exact hleft

theorem ends_of_bind {x : Checked α} {f : α → Call C Y β} {g : α → Checked (β × HashmapAugE C Y)}
    (hfail : ∀ e, x = .error e → L start) (h : ∀ a, x = .ok a → Ends (f a) start (g a) L) :
    Ends (of x >>= f) start (x >>= g) L := by
  refine ends_bind start ?_ ?_
  · rintro e rfl
    exact ⟨rfl, hfail e rfl⟩
  · rintro a rfl
    exact (h a rfl).step rfl

theorem ends_calcAug {spoil : Y → Y → Y} {other : Y} {f : Unit → Call C Y β}
    {g : Y → Checked (β × HashmapAugE C Y)}
    (hfail : ∀ e, A.calcAug start.extra other = .error e → L ⟨start.data, spoil start.extra other⟩)
    (h : ∀ y, A.calcAug start.extra other = .ok y → Ends (f ()) ⟨start.data, y⟩ (g y) L) :
    Ends (calcAug A spoil other >>= f) start (A.calcAug start.extra other >>= g) L := by
  refine ends_bind ⟨start.data, spoil start.extra other⟩ ?_ ?_
  · intro e he
    exact ⟨by rw [calcAug, he], hfail e he⟩
  · intro y hy
    refine (h y hy).step ?_
    rw [calcAug, hy]

end Rules

/-- Adding the other extra does not change this one, whether it succeeds or not. -/
def Unmoved (A : Augmentable C Y) (spoil : Y → Y → Y) (extra other : Y) : Prop :=
  A.calcAug extra other = .ok extra ∨
    (∀ y, A.calcAug extra other ≠ .ok y) ∧ spoil extra other = extra

def SetKeeps (n : ℕ) (dict : HashmapAugE C Y) (key : List Bool) (extra : Y) : Prop :=
  dict.data = none → key ≠ [] → key.length = n → extra = dict.extra

def MergeKeeps (A : Augmentable C Y) (n : ℕ) (spoil : Y → Y → Y) (dict other : HashmapAugE C Y)
    (key : List Bool) : Prop :=
  dict.data ≠ none → key.length ≤ n → Unmoved A spoil dict.extra other.extra

variable {key : List Bool}

theorem ends_setBuilder {leaf : Slice C} {extra : Y} :
    Ends (setBuilder S A n key leaf extra) dict (dict.setBuilder S A n key leaf extra)
      fun left => left = dict ↔ SetKeeps n dict key extra := by
  obtain ⟨data, rootExtra⟩ := dict
  cases data with
  | none =>
    refine ends_of_bind ?_ fun _ hkey => Ends.step rfl <| Ends.step rfl <|
      ends_of_bind ?_ fun _ _ => ends_ok rfl
    · intro e hkey
      refine iff_of_true rfl fun _ hne hlen => ?_
      rw [checkKey, require, if_pos ⟨hne, hlen.symm⟩] at hkey
      cases hkey
    · obtain ⟨hne, hlen⟩ := (require_eq_ok ..).mp hkey
      intro e _
      simp [SetKeeps, hne, hlen]
  | some root =>
    refine ends_of_bind ?_ fun _ _ => Ends.step rfl <| ends_of_bind ?_ fun _ _ => ends_ok rfl
    all_goals
      intro e _
      refine iff_of_true rfl fun hnone => ?_
      cases hnone

theorem setBuilder_new_error {leaf : Slice C} {extra y : Y} {e : String}
    (hkey : checkKey n key = .ok ())
    (hcell : finalizeNode S key n (combine A extra leaf) = .error e) :
    setBuilder S A n key leaf extra ⟨none, y⟩ = .error e ⟨none, extra⟩ := by
  unfold setBuilder
  rw [hkey]
  simp only [hcell]
  rfl

theorem ends_merge {spoil : Y → Y → Y} {other : HashmapAugE C Y} :
    Ends (merge S A n spoil other key) dict
      (dict.merge S A n other key >>= fun merged => pure ((), merged))
      fun left => left = dict ↔ MergeKeeps A n spoil dict other key := by
  obtain ⟨data, extra⟩ := dict
  rw [HashmapAugE.merge, bind_assoc]
  have hlong (e : String) (h : require (key.length ≤ n)
      "data in hashmaps do not correspond each other or key too long" = .error e) :
      (⟨data, extra⟩ : HashmapAugE C Y) = ⟨data, extra⟩ ↔
        MergeKeeps A n spoil ⟨data, extra⟩ other key := by
    refine iff_of_true rfl fun _ hle => ?_
    rw [require, if_pos hle] at h
    cases h
  cases data with
  | none => exact ends_of_bind hlong fun _ _ => Ends.step rfl <| ends_ok rfl
  | some cell =>
    simp only [bind_assoc]
    refine ends_of_bind hlong fun _ hle => Ends.step rfl <| ends_calcAug ?_ fun y hy =>
      ends_of_bind ?_ fun _ _ => ends_ok rfl
    · intro e he
      have hle := (require_eq_ok ..).mp hle
      simp [MergeKeeps, Unmoved, hle, he]
    · intro e _
      have hle := (require_eq_ok ..).mp hle
      simp [MergeKeeps, Unmoved, hle, hy]

/-- The extra in what follows the label of a node. -/
def extraAt (A : Augmentable C Y) (label : List Bool) (m : ℕ) (slice : Slice C) : Checked Y := do
  let slice ← skipSides label m slice
  let (extra, _) ← A.constructFrom slice
  pure extra

theorem extraAt_append {pre label : List Bool} {m k : ℕ} (h : pre.length + k = m) (s : Slice C) :
    extraAt A (pre ++ label) m s = extraAt A label k s := by
  have hiff : (pre ++ label).length = m ↔ label.length = k := by
    rw [List.length_append]
    omega
  simp only [extraAt, skipSides, hiff]

theorem findExtra_finalizeNode {label : List Bool} {s : Slice C} {cell : C}
    (h : finalizeNode S label n s = .ok cell) (hlabel : label.length ≤ n) (hlen : n ≤ maxDataBits) :
    findExtra S A cell n = extraAt A label n s := by
  rw [findExtra, readNode_finalizeNode h hlabel hlen]
  rfl

theorem extraAt_fork {m : ℕ} (label : List Bool) (h : label.length < m) {left right : C}
    {next : Option ℕ} {extra : Slice C}
    (hextra : (hashmapAug S A).forkExtra next left right = .ok extra) (a b : C) :
    ∃ y, extraAt A label m ⟨extra.bits, a :: b :: extra.refs⟩ = .ok y := by
  simp only [hashmapAug, bind_eq_ok, pure_eq_ok] at hextra
  obtain ⟨_, -, _, -, _, -, y, -, rfl⟩ := hextra
  have hskip : skipSides label m ⟨(A.writeTo y).bits, a :: b :: (A.writeTo y).refs⟩ =
      .ok (A.writeTo y) := by
    rw [skipSides, if_neg h.ne, require, if_pos (by simp)]
    rfl
  refine ⟨y, ?_⟩
  rw [extraAt, hskip]
  show (A.constructFrom (A.writeTo y) >>= fun p => pure p.1) = _
  rw [constructFrom_writeTo_self]
  rfl

theorem length_readLabel {bits label rest : List Bool} {m : ℕ}
    (h : readLabel bits m = .ok (label, rest)) : label.length ≤ m := by
  have hshrink {bits : List Bool} {len : ℕ} (hlen : len ≤ m)
      (heq : shrinkData bits len = (label, rest)) : label.length ≤ m := by
    unfold shrinkData at heq
    split_ifs at heq
    · cases heq
      exact (List.length_take_le _ _).trans hlen
    · cases heq
      exact Nat.zero_le m
  unfold readLabel at h
  split at h
  · cases h
    exact Nat.zero_le m
  · simp only [bind_eq_ok, require_eq_ok, pure_eq_ok] at h
    obtain ⟨_, -, _, hlen, heq⟩ := h
    exact hshrink hlen heq
  · simp only [bind_eq_ok, require_eq_ok, pure_eq_ok] at h
    obtain ⟨_, -, _, hlen, heq⟩ := h
    exact hshrink hlen heq
  · simp only [bind_eq_ok, require_eq_ok, pure_eq_ok] at h
    obtain ⟨_, -, _, -, _, hlen, heq⟩ := h
    cases heq
    exact List.length_replicate.trans_le hlen
  · cases h

theorem length_loadNode {cell : C} {label : List Bool} {s : Slice C} {m : ℕ}
    (h : loadNode S cell m = .ok (label, s)) : label.length ≤ m := by
  simp only [loadNode, bind_eq_ok, pure_eq_ok] at h
  obtain ⟨_, hread, heq⟩ := h
  cases heq
  exact length_readLabel hread

/-- The root is a fork, one of its sides is the leaf of the key, and the other, which can be built
with the longer label that it gets as the new root, has an extra that cannot be read. -/
inductive Orphans (S : CellStore C) (A : Augmentable C Y) (n : ℕ) : Option C → List Bool → Prop where
  | mk {root side other : C} {label rest below : List Bool} {bit : Bool} {cursor value slice : Slice C}
      (hroot : loadNode S root n = .ok (label, cursor)) (hlength : 1 + label.length + rest.length = n)
      (hfork : isFork cursor = true) (hside : cursor.reference bit.toNat = .ok side)
      (hleaf : loadNode S side rest.length = .ok (rest, value))
      (hother : cursor.reference (1 - bit.toNat) = .ok other)
      (hbelow : loadNode S other rest.length = .ok (below, slice))
      (hfits : (labelBits (label ++ (!bit) :: below) n ++ slice.bits).length ≤ maxDataBits ∧
        slice.refs.length ≤ maxReferencesCount ∧ ∀ r ∈ slice.refs, S.depth r < maxSafeDepth)
      (hextra : ∀ y, extraAt A below rest.length slice ≠ .ok y) :
      Orphans S A n (some root) (label ++ bit :: rest)

section Remove

variable {T : HashmapType C} {root cell : C} {key : List Bool} {fuel m : ℕ}

theorem removeNode_none {side : C} {rest : List Bool} {result : Slice C × List Bool}
    (h : removeNode S T false fuel (some side) m rest = .ok (some result, none)) :
    ∃ value, loadNode S side m = .ok (rest, value) := by
  cases fuel with
  | zero => cases h
  | succ fuel =>
    simp only [removeNode, bind_eq_ok] at h
    obtain ⟨⟨label, cursor⟩, hload, h⟩ := h
    rcases prefix_cases label rest with ⟨x, rfl⟩ | ⟨b, x, rfl⟩ | ⟨p, b, x, y, rfl, rfl⟩
    · rw [commonPrefix_self_append] at h
      cases x with
      | nil =>
        rw [List.append_nil]
        exact ⟨cursor, hload⟩
      | cons bit x =>
        simp only [bind_eq_ok] at h
        obtain ⟨_, -, _, -, _, -, ⟨result', next⟩, -, h⟩ := h
        cases result' with
        | none => cases h
        | some result' =>
          cases next with
          | none | some next =>
            simp only [replaceSide, bind_eq_ok, pure_eq_ok] at h
            obtain ⟨_, -, _, -, heq⟩ := h
            cases heq
    · rw [commonPrefix_append_self] at h
      cases h
    · rw [commonPrefix_diverge] at h
      cases h

theorem removeNode_leaf {side : C} {rest : List Bool} {value : Slice C} (hfuel : 0 < fuel)
    (h : loadNode S side m = .ok (rest, value)) :
    removeNode S T false fuel (some side) m rest = .ok (some (value, []), none) := by
  obtain ⟨fuel, rfl⟩ : ∃ k, fuel = k + 1 := ⟨fuel - 1, by omega⟩
  simp only [removeNode, h, ok_bind, commonPrefix_self]
  rfl

/-- The removal of a key next to a node that can be built succeeds. -/
theorem Orphans.remove {data : Option C} (h : Orphans S A n data key) (hlen : n ≤ maxDataBits) :
    ∃ removed, hashmapRemove S T data n key = .ok removed := by
  obtain ⟨hroot, hlength, hfork, hside, hleaf, hother, hbelow, hfits, -⟩ := h
  rename_i root side other label rest below bit cursor value slice
  obtain ⟨cell, hcell⟩ := exists_finalizeNode.mpr hfits
  have hlabel := length_loadNode hbelow
  have hsub : checkedSub n (1 + label.length) = some rest.length := checkedSub_eq_some.mpr hlength
  have hsub' : checkedSub n (label.length + 1) = some rest.length := by rwa [Nat.add_comm] at hsub
  have hkey : checkKey n (label ++ bit :: rest) = .ok () := by
    refine (require_eq_ok ..).mpr ⟨by simp, ?_⟩
    rw [List.length_append, List.length_cons]
    omega
  have hfull : (label ++ (!bit) :: below).length ≤ maxDataBits := by
    rw [List.length_append, List.length_cons]
    omega
  have hedge : makeEdge S label n bit other = .ok cell := by
    simp only [makeEdge, hsub', present, ok_bind, hbelow, require, if_pos hfull, hcell]
  have hnode : removeNode S T false (n + 1) (some root) n (label ++ bit :: rest) =
      .ok (some (value, []), some cell) := by
    rw [removeNode, hroot, ok_bind]
    dsimp only
    rw [commonPrefix_self_append]
    have hleaf : removeNode S T false n (some side) rest.length rest = .ok (some (value, []), none) :=
      removeNode_leaf (by omega) hleaf
    simp only [hsub, present, require, if_pos hfork, hside, hleaf, replaceSide, hother, hedge, ok_bind]
    rfl
  refine ⟨(some value, some cell), ?_⟩
  rw [hashmapRemove, hkey, ok_bind, hnode]
  rfl

/-- An edge that takes the label of the root and more is another cell than the root. -/
theorem edge_ne_root {root cell : C} {label below : List Bool} {bit : Bool} {cursor slice : Slice C}
    (hroot : loadNode S root n = .ok (label, cursor)) (hlabel : (label ++ bit :: below).length ≤ n)
    (hlen : n ≤ maxDataBits) (hcell : finalizeNode S (label ++ bit :: below) n slice = .ok cell) :
    cell ≠ root := by
  rintro rfl
  have hlengths := congrArg (fun x => x.map fun p => p.1.length)
    (hroot.symm.trans (loadNode_finalizeNode hcell hlabel hlen))
  have hsame := Except.ok.inj hlengths
  dsimp only at hsame
  rw [List.length_append, List.length_cons] at hsame
  omega

/-- After a removal the extra of the root cannot be read: nothing was removed, or the other side of
the root became the root. -/
theorem remove_unreadable {data : Option C} {removed : Option (Slice C) × Option C}
    (hremove : hashmapRemove S (hashmapAug S A) data n key = .ok removed)
    (hextra : ∀ y, rootExtra S A n removed.2 ≠ .ok y) (hlen : n ≤ maxDataBits) :
    removed.2 = data ↔ ¬ Orphans S A n data key := by
  simp only [hashmapRemove, bind_eq_ok, pure_eq_ok] at hremove
  obtain ⟨_, hkey, ⟨result, data'⟩, hnode, rfl⟩ := hremove
  obtain ⟨-, hn⟩ := (require_eq_ok ..).mp hkey
  cases data with
  | none =>
    cases hnode
    exact absurd rfl (hextra A.default)
  | some root =>
    simp only [removeNode, bind_eq_ok] at hnode
    obtain ⟨⟨label, cursor⟩, hroot, hnode⟩ := hnode
    rcases prefix_cases label key with ⟨x, rfl⟩ | ⟨b, x, rfl⟩ | ⟨p, b, x, y, rfl, rfl⟩
    · rw [commonPrefix_self_append] at hnode
      cases x with
      | nil =>
        cases hnode
        exact absurd rfl (hextra A.default)
      | cons bit rest =>
        simp only [bind_eq_ok, require_eq_ok] at hnode
        obtain ⟨m, hm, _, hfork, side, hside, ⟨result', next⟩, hbelow, hnode⟩ := hnode
        have hm := checkedSub_eq_some.mp ((present_eq_ok ..).mp hm)
        obtain rfl : m = rest.length := by
          rw [List.length_append, List.length_cons] at hn
          omega
        cases result' with
        | none =>
          -- the key is not there
          cases hnode
          refine iff_of_true rfl fun horphans => ?_
          generalize hkey' : label ++ bit :: rest = key at horphans
          obtain ⟨hroot', -, -, hside', hleaf, -⟩ := horphans
          cases hroot.symm.trans hroot'
          cases List.append_cancel_left hkey'
          cases hside.symm.trans hside'
          cases (removeNode_leaf (by omega) hleaf).symm.trans hbelow
        | some result' =>
          cases next with
          | some next =>
            simp only [replaceSide, bind_eq_ok, pure_eq_ok] at hnode
            obtain ⟨other, -, cell, hcell, heq⟩ := hnode
            cases heq
            -- the new fork has an extra
            obtain ⟨extra, hfork', hcell⟩ := (makeFork_eq_ok (m := rest.length) (by omega)).mp hcell
            have hread := findExtra_finalizeNode (A := A) hcell (by omega) hlen
            cases bit with
            | false =>
              obtain ⟨y, hy⟩ := extraAt_fork (m := n) label (by omega) hfork' next other
              exact absurd (hread.trans hy) (hextra y)
            | true =>
              obtain ⟨y, hy⟩ := extraAt_fork (m := n) label (by omega) hfork' other next
              exact absurd (hread.trans hy) (hextra y)
          | none =>
            simp only [replaceSide, bind_eq_ok, pure_eq_ok] at hnode
            obtain ⟨other, hother, cell, hcell, heq⟩ := hnode
            cases heq
            obtain ⟨value, hleaf⟩ := removeNode_none hbelow
            simp only [makeEdge, bind_eq_ok, require_eq_ok] at hcell
            obtain ⟨m, hm', ⟨below, slice⟩, hload, -, -, hcell⟩ := hcell
            obtain rfl : rest.length = m := by
              have := checkedSub_eq_some.mp ((present_eq_ok ..).mp hm')
              omega
            have hshort := length_loadNode hload
            have hlabel : (label ++ (!bit) :: below).length ≤ n := by
              rw [List.length_append, List.length_cons]
              omega
            have hread := findExtra_finalizeNode (A := A) hcell hlabel hlen
            refine iff_of_false ?_ (not_not_intro (.mk hroot hm hfork hside hleaf hother hload
              (exists_finalizeNode.mp ⟨cell, hcell⟩) ?_))
            · exact fun heq => edge_ne_root hroot hlabel hlen hcell (Option.some.inj heq)
            · intro y hy
              refine hextra y (hread.trans ?_)
              rw [show label ++ (!bit) :: below = label ++ [!bit] ++ below by simp]
              rw [extraAt_append (k := rest.length) (by rw [List.length_append]; simp; omega), hy]
    · rw [commonPrefix_append_self] at hnode
      cases hnode
    · rw [commonPrefix_diverge] at hnode
      cases hnode
      refine iff_of_true rfl fun horphans => ?_
      generalize hkey' : p ++ (!b) :: y = key at horphans
      obtain ⟨hroot', -⟩ := horphans
      cases hroot.symm.trans hroot'
      have hbits := List.append_cancel_left ((List.append_assoc ..).symm.trans hkey'.symm)
      cases b with
      | false | true => cases hbits

end Remove

/-- A node below another one, with the number of bits of the keys in it. -/
inductive Below (S : CellStore C) : C → ℕ → C → ℕ → Prop where
  | side {cell child : C} {m i : ℕ} {label : List Bool} {cursor : Slice C}
      (hload : loadNode S cell m = .ok (label, cursor)) (hi : i < 2)
      (hchild : cursor.reference i = .ok child) : Below S cell m child (m - label.length - 1)
  | deeper {cell child c : C} {m i k : ℕ} {label : List Bool} {cursor : Slice C}
      (hload : loadNode S cell m = .ok (label, cursor)) (hi : i < 2)
      (hchild : cursor.reference i = .ok child) (h : Below S child (m - label.length - 1) c k) :
      Below S cell m c k

/-- If the node is a fork, its extra can be read. -/
def Readable (S : CellStore C) (A : Augmentable C Y) (cell : C) (m : ℕ) : Prop :=
  ∀ label cursor, loadNode S cell m = .ok (label, cursor) → label.length < m →
    ∃ y, extraAt A label m cursor = .ok y

/-- The extra of a part can be read behind the label that it has below the key. -/
def ReadableAt (A : Augmentable C Y) (key : List Bool) (m : ℕ) (part : ForkComponent C) : Prop :=
  ∃ label, part.key = key ++ label ∧ label.length ≤ m ∧ ∃ y, extraAt A label m part.remainder = .ok y

variable {func : σ → List Bool → Slice C → Y → Checked (HashmapFilterResult × σ)}

section Filter

variable {key label : List Bool} {m k : ℕ} {part part0 part1 : Option (ForkComponent C)}

theorem ReadableAt.join {p : ForkComponent C} {bit : Bool} (hm : label.length + 1 + k = m)
    (h : ReadableAt A (key ++ label ++ [bit]) k p) : ReadableAt A key m p := by
  obtain ⟨below, hkey, hle, y, hy⟩ := h
  refine ⟨label ++ [bit] ++ below, by rw [hkey]; simp, ?_, y, ?_⟩
  · simp only [List.length_append, List.length_singleton]
    omega
  · rwa [extraAt_append (k := k) (by simpa using hm)]

/-- A new edge keeps the extra of the part that it leads to, and a new fork has its own. -/
theorem makeVarEdge_readable (hm : label.length + 1 + k = m)
    (h0 : part1 = none → ∀ p, part0 = some p → ReadableAt A (key ++ label ++ [false]) k p)
    (h1 : part0 = none → ∀ p, part1 = some p → ReadableAt A (key ++ label ++ [true]) k p)
    (h : makeVarEdge S (hashmapAug S A) (key ++ label) (part0.toList ++ part1.toList) key.length m =
      .ok part) {p : ForkComponent C} (hp : part = some p) :
    ReadableAt A key m p ∧ finalizeNode S (p.key.drop key.length) m p.remainder = .ok p.cell := by
  subst hp
  cases part0 with
  | none =>
    cases part1 with
    | none => cases h
    | some q =>
      simp only [Option.toList_none, Option.toList_some, List.nil_append, makeVarEdge, bind_eq_ok,
        pure_eq_ok] at h
      obtain ⟨cell, hcell, heq⟩ := h
      cases heq
      exact ⟨(h1 rfl q rfl).join hm, hcell⟩
  | some q =>
    cases part1 with
    | none =>
      simp only [Option.toList_none, Option.toList_some, List.append_nil, makeVarEdge, bind_eq_ok,
        pure_eq_ok] at h
      obtain ⟨cell, hcell, heq⟩ := h
      cases heq
      exact ⟨(h0 rfl q rfl).join hm, hcell⟩
    | some q' =>
      simp only [Option.toList_some, List.singleton_append, makeVarEdge, bind_eq_ok, pure_eq_ok] at h
      obtain ⟨extra, hextra, cell, hcell, heq⟩ := h
      cases heq
      exact ⟨⟨label, rfl, by omega, extraAt_fork label (by omega) hextra q.cell q'.cell⟩, hcell⟩

theorem makeVarEdge_eq_none {T : HashmapType C} {next : List (ForkComponent C)} {k : ℕ}
    (h : makeVarEdge S T key next k m = .ok none) : next = [] := by
  unfold makeVarEdge at h
  split at h
  · rfl
  · obtain ⟨_, -, h⟩ := bind_eq_ok.mp h
    cases h
  · obtain ⟨_, -, h⟩ := bind_eq_ok.mp h
    obtain ⟨_, -, h⟩ := bind_eq_ok.mp h
    cases h

/-- The extra of a leaf has been read when the callback has been called. -/
theorem onValue_readable {cell : C} {cursor : Slice C} {st : σ} {found : HashmapFilterResult × σ}
    (h : onValue A func st (key ++ label) cursor = .ok found) (hleaf : label.length = m) :
    ReadableAt A key m ⟨cell, key ++ label, cursor⟩ := by
  simp only [onValue, bind_eq_ok] at h
  obtain ⟨⟨aug, value⟩, hvalue, -⟩ := h
  refine ⟨label, rfl, hleaf.le, aug, ?_⟩
  rw [extraAt, skipSides, if_pos hleaf]
  show (A.constructFrom cursor >>= fun p => pure p.1) = _
  rw [hvalue]
  rfl

/-- What is left of a tree in which the extras of the forks below the top can be read: if anything
was removed, the extra of the rest can be read, and otherwise if that of the top can. -/
theorem filterNext_readable {fuel : ℕ} {cell : C} {result result' : HashmapFilterResult}
    {st st' : σ} {removed : Bool}
    (hall : ∀ c k, Below S cell m c k → Readable S A c k)
    (h : filterNext S (hashmapAug S A) (onValue A func) fuel cell key m result st =
      .ok ((removed, part), result', st')) : (part = none → result' ≠ .stop) ∧
      ∀ p, part = some p →
        (removed = true → ReadableAt A key m p ∧
          finalizeNode S (p.key.drop key.length) m p.remainder = .ok p.cell) ∧
        (Readable S A cell m → result ≠ .stop → ReadableAt A key m p) := by
  induction fuel generalizing cell key m result st part result' st' removed with
  | zero => cases h
  | succ fuel ih =>
    rw [filterNext] at h
    split_ifs at h with hcancel hstop
    · cases h
      exact ⟨fun _ => by simp [hcancel], fun p hp => by cases hp⟩
    · cases h
      exact ⟨(by cases ·), fun p _ => ⟨(by cases ·), fun _ hne => absurd hstop hne⟩⟩
    · simp only [bind_eq_ok] at h
      obtain ⟨⟨label, cursor⟩, hload, h⟩ := h
      have hlabel := length_loadNode hload
      dsimp only at h
      split_ifs at h with hleaf
      · simp only [bind_eq_ok] at h
        obtain ⟨⟨decision, st₁⟩, hfunc, h⟩ := h
        have hread : ReadableAt A key m ⟨cell, key ++ label, cursor⟩ :=
          onValue_readable hfunc (by omega)
        cases decision with
        | remove =>
          cases h
          exact ⟨fun _ => hstop, fun p hp => by cases hp⟩
        | accept | stop | cancel =>
          cases h
          refine ⟨(by cases ·), fun p hp => ?_⟩
          cases hp
          exact ⟨(by cases ·), fun _ _ => hread⟩
      · simp only [bind_eq_ok] at h
        obtain ⟨left, hleft, ⟨⟨removed0, part0⟩, result0, st0⟩, hfilter0, h⟩ := h
        have hbelow (i : ℕ) (child : C) (hi : i < 2) (hchild : cursor.reference i = .ok child) :
            Readable S A child (m - label.length - 1) ∧
              ∀ c k, Below S child (m - label.length - 1) c k → Readable S A c k :=
          ⟨hall _ _ (.side hload hi hchild), fun c k hc => hall c k (.deeper hload hi hchild hc)⟩
        obtain ⟨hself0, hrest0⟩ := hbelow 0 left (by omega) hleft
        obtain ⟨hnone0, hsome0⟩ := ih hrest0 hfilter0
        dsimp only at h
        split_ifs at h with hcancel0
        · cases h
          exact ⟨fun _ => by simp [hcancel0], fun p hp => by cases hp⟩
        · simp only [bind_eq_ok] at h
          obtain ⟨right, hright, ⟨⟨removed1, part1⟩, result1, st1⟩, hfilter1, h⟩ := h
          obtain ⟨hself1, hrest1⟩ := hbelow 1 right (by omega) hright
          obtain ⟨hnone1, hsome1⟩ := ih hrest1 hfilter1
          dsimp only at h
          split_ifs at h with hcancel1 hkept
          · cases h
            exact ⟨fun _ => by simp [hcancel1], fun p hp => by cases hp⟩
          · cases h
            refine ⟨(by cases ·), fun p hp => ?_⟩
            cases hp
            refine ⟨(by cases ·), fun hself _ => ?_⟩
            exact ⟨label, rfl, hlabel, hself label cursor hload (by omega)⟩
          · simp only [bind_eq_ok, pure_eq_ok] at h
            obtain ⟨part', hedge, heq⟩ := h
            cases heq
            have hread {p : ForkComponent C} (hp : part = some p) := makeVarEdge_readable
              (k := m - label.length - 1) (by omega)
              (fun _ p hp => (hsome0 p hp).2 hself0 hstop)
              (fun hnone p hp => (hsome1 p hp).2 hself1 (hnone0 hnone)) hedge hp
            refine ⟨fun hp => ?_, fun p hp => ⟨fun _ => hread hp, fun _ _ => (hread hp).1⟩⟩
            refine hnone1 ?_
            have hempty := List.append_eq_nil_iff.mp (makeVarEdge_eq_none (hp ▸ hedge))
            exact Option.toList_eq_nil_iff.mp hempty.2

theorem filter_readable {root : C} (hall : ∀ c k, Below S root n c k → Readable S A c k)
    (hlen : n ≤ maxDataBits)
    {st st' : σ} {result : HashmapFilterResult} {data : Option C}
    (h : hashmapFilter S (hashmapAug S A) (some root) n (onValue A func) st =
      .ok (result, some data, st')) : ∃ y, rootExtra S A n data = .ok y := by
  simp only [hashmapFilter, bind_eq_ok] at h
  obtain ⟨⟨⟨removed, part⟩, result', st₁⟩, hfilter, h⟩ := h
  cases removed with
  | false => cases h
  | true =>
    cases h
    cases part with
    | none => exact ⟨A.default, rfl⟩
    | some p =>
      obtain ⟨⟨label, hkey, hle, y, hy⟩, hcell⟩ :=
        ((filterNext_readable hall hfilter).2 p rfl).1 rfl
      rw [List.nil_append] at hkey
      rw [hkey] at hcell
      exact ⟨y, (findExtra_finalizeNode hcell hle hlen).trans hy⟩

end Filter

theorem withHashmap_eq (data : Option C) : withHashmap S A n data =
    rootExtra S A n data >>= fun extra => pure ⟨data, extra⟩ := by
  cases data with
  | none | some root => rfl

theorem ends_afterRemove {b : β} {L : HashmapAugE C Y → Prop}
    (h : ∀ e, rootExtra S A n start.data = .error e → L start) :
    Ends (afterRemove S A n >>= fun _ => pure b) start
      (withHashmap S A n start.data >>= fun fresh => pure (b, fresh)) L := by
  simp only [withHashmap_eq, afterRemove, bind_assoc]
  exact Ends.step rfl <| ends_of_bind h fun _ _ => ends_ok rfl

theorem ends_del (hlen : n ≤ maxDataBits) :
    Ends (del S A n key) dict (dict.del S A n key >>= fun fresh => pure ((), fresh))
      fun left => left = dict ↔ ¬ Orphans S A n dict.data key := by
  obtain ⟨data, extra⟩ := dict
  rw [HashmapAugE.del, bind_assoc]
  refine Ends.step rfl <| ends_of_bind ?_ fun removed hremove => Ends.step rfl <| ends_afterRemove ?_
  · intro e hremove
    refine iff_of_true rfl fun horphans => ?_
    obtain ⟨removed, h⟩ := horphans.remove hlen
    cases hremove.symm.trans h
  · intro e hextra
    rw [← remove_unreadable hremove (fun y hy => by cases hextra.symm.trans hy) hlen]
    simp

theorem ends_filter {st : σ} (hlen : n ≤ maxDataBits) : Ends (filter S A n func st) dict
      (dict.filter S A n func st >>= fun answer => pure ((answer.1, answer.2.2), answer.2.1))
      fun left => (∀ root c k, dict.data = some root → Below S root n c k → Readable S A c k) →
        left = dict := by
  rw [HashmapAugE.filter, bind_assoc]
  refine Ends.step rfl <| ends_of_bind (fun _ _ _ => rfl) fun answer hfilter => ?_
  obtain ⟨result, root, st'⟩ := answer
  cases root with
  | none => exact ends_ok rfl
  | some data =>
    obtain ⟨before, extra⟩ := dict
    simp only [bind_assoc]
    refine Ends.step rfl <| ends_afterRemove fun e hextra hall => ?_
    cases before with
    | none => cases hfilter
    | some root =>
      obtain ⟨y, hy⟩ := filter_readable (fun c k => hall root c k rfl) hlen hfilter
      cases hextra.symm.trans hy

end Call

/-- The key 0 alone, with an empty value. -/
def oneKey (lt : Fin (2 ^ 64)) : HashmapAugE TreeCell (Fin (2 ^ 64)) :=
  ⟨some (.mk ([false, true, false, false] ++ natToBits 64 lt) []), lt⟩

end TonNode.Hashmap
