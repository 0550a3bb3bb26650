import TonNode.OutQueue

/-! The search for an entry with the root extra, in an augmented dictionary where forks
store the least extra below them. -/
namespace TonNode.Hashmap

open Block Checked
open MsgQueue (readNodeRaw)

section Model

variable {C Y : Type} (S : CellStore C) (A : Augmentable C Y)

/-- The loop of `find_by_root_aug`. The left side is compared with the root by all the bits
that follow its label. -/
def followRootAug (rootBits : List Bool) :
    ℕ → List Bool → Slice C → ℕ → Checked (List Bool × Slice C)
  | 0, _, _, _ => reject "the key has no more bits"
  | fuel + 1, path, slice, bitLen =>
    if isFork slice then do
      let bitLen ← present (checkedSub bitLen 1) "attempt to subtract with overflow"
      let left ← slice.reference 0
      let (label, slice0, below) ← readNodeRaw S left bitLen
      if rootBits = slice0.bits then
        followRootAug rootBits fuel (path ++ [false] ++ label) slice0 below
      else do
        let right ← slice.reference 1
        let (label, slice1, below) ← readNodeRaw S right bitLen
        followRootAug rootBits fuel (path ++ [true] ++ label) slice1 below
    else pure (path, slice)

def HashmapAugE.findByRootAug (n : ℕ) (dict : HashmapAugE C Y) :
    Checked (Option (List Bool × Slice C)) :=
  match dict.data with
  | none => pure none
  | some root => do
    let (path, slice, bitLen) ← readNodeRaw S root n
    let (key, slice) ← followRootAug S slice.bits (n + 1) path slice bitLen
    let (_, value) ← A.constructFrom slice
    pure (some (key, value))

end Model

section Search

variable {C Y : Type} {S : CellStore C} {A : Augmentable C Y}

/-- The cells of an augmented dictionary, with any labels that spell the keys. -/
inductive AugCells (S : CellStore C) (A : Augmentable C Y) : ℕ → BitTrie (Slice C) → C → Prop
  | leaf {n : ℕ} {cell : C} {label : List Bool} {y : Y} {value : Slice C}
      (read : readNodeRaw S cell n = .ok (label, combine A y value, 0)) :
      AugCells S A n (.leaf label (combine A y value)) cell
  | fork {n m : ℕ} {cell left right : C} {label : List Bool} {l r : BitTrie (Slice C)} {y : Y}
      (read : readNodeRaw S cell n =
        .ok (label, ⟨(A.writeTo y).bits, left :: right :: (A.writeTo y).refs⟩, m + 1))
      (length : label.length + 1 + m = n) (extra : extraOf A (.fork label l r) = .ok y)
      (leftCell : AugCells S A m l left) (rightCell : AugCells S A m r right) :
      AugCells S A n (.fork label l r) cell

/-- All the bits after the label are those of the extra `e`. -/
def Bare (A : Augmentable C Y) (e : Y) : BitTrie (Slice C) → Prop
  | .leaf _ value => value.bits = (A.writeTo e).bits
  | .fork label l r => extraOf A (.fork label l r) = .ok e

/-- Where the left side of a fork on the way does not show the extra, the right side has it,
and the leaf at the end cannot be taken for a fork. -/
def Shown (A : Augmentable C Y) (e : Y) : BitTrie (Slice C) → Prop
  | .leaf _ value => value.refs.length ≤ 1
  | .fork _ l r => (Bare A e l → Shown A e l) ∧ (¬ Bare A e l → extraOf A r = .ok e ∧ Shown A e r)

variable {n : ℕ} {t : BitTrie (Slice C)} {cell : C} {e y : Y}

/-- The root of a subtree, and what comparing its bits says. -/
theorem AugCells.exists_read
    (hcode : ∀ {y y' : Y} {bits}, (A.writeTo y).bits = (A.writeTo y').bits ++ bits → y = y')
    (h : AugCells S A n t cell) (hy : extraOf A t = .ok y) :
    ∃ data below, readNodeRaw S cell n = .ok (t.label, data, below) ∧
      ((A.writeTo e).bits = data.bits ↔ Bare A e t) ∧ (Bare A e t → y = e) := by
  cases h with
  | @leaf _ _ label y' value read =>
    rw [extraOf_combine, Except.ok.injEq] at hy
    refine ⟨_, _, read, eq_comm, fun hbare => ?_⟩
    rw [← hy]
    exact (hcode hbare.symm).symm
  | @fork _ m _ left right label l r y' read length extra leftCell rightCell =>
    obtain rfl := Except.ok.inj (extra.symm.trans hy)
    refine ⟨_, _, read, ?_, fun hbare => Except.ok.inj (hy.symm.trans hbare)⟩
    rw [Bare, hy, Except.ok.injEq]
    constructor
    · intro hbits
      exact (@hcode _ _ [] (by rw [List.append_nil]; exact hbits)).symm
    · rintro rfl
      rfl

theorem followRootAug_spec [LinearOrder Y] (hmin : ∀ a b, A.calcAug a b = .ok (min a b))
    (hcode : ∀ {y y' : Y} {bits}, (A.writeTo y).bits = (A.writeTo y').bits ++ bits → y = y')
    (h : AugCells S A n t cell) (hy : extraOf A t = .ok y) (hle : e ≤ y) {rootBits : List Bool}
    (hroot : (∃ label l r, t = .fork label l r) → rootBits = (A.writeTo e).bits)
    {data : Slice C} {below : ℕ} (hread : readNodeRaw S cell n = .ok (t.label, data, below))
    {path : List Bool} {fuel : ℕ} (hfuel : n < fuel) :
    (∀ key s, followRootAug S rootBits fuel (path ++ t.label) data below = .ok (key, s) →
      ∃ k y' v, key = path ++ k ∧ s = combine A y' v ∧ t.get k = some s ∧
        (y' = e → y = e ∧ Shown A e t)) ∧ (y = e → Shown A e t → ∃ key v,
        followRootAug S rootBits fuel (path ++ t.label) data below = .ok (key, combine A e v)) := by
  induction h generalizing y data below path fuel with
  | @leaf n cell label y' value read =>
    obtain ⟨fuel, rfl⟩ := Nat.exists_eq_succ_of_ne_zero (Nat.ne_zero_of_lt hfuel)
    rw [extraOf_combine, Except.ok.injEq] at hy
    subst hy
    cases hread.symm.trans read
    rw [followRootAug]
    by_cases hfork : isFork (combine A y' value) = true
    · have hrefs : ¬ Shown A e (.leaf label (combine A y' value)) :=
        not_le.mpr (of_decide_eq_true hfork)
      rw [if_pos hfork]
      refine ⟨fun key s hk => ?_, fun _ hs => absurd hs hrefs⟩
      cases hk
    · rw [if_neg hfork]
      constructor
      · intro key s hk
        cases hk
        exact ⟨label, y', value, rfl, rfl, BitTrie.get_leaf_self _ _, fun hy =>
          ⟨hy, not_lt.mp fun hlt => hfork (decide_eq_true hlt)⟩⟩
      · rintro rfl -
        exact ⟨path ++ label, value, rfl⟩
  | @fork n m cell left right label l r y' read length extra leftCell rightCell ihl ihr =>
    obtain ⟨fuel, rfl⟩ := Nat.exists_eq_succ_of_ne_zero (Nat.ne_zero_of_lt hfuel)
    obtain rfl := Except.ok.inj (extra.symm.trans hy)
    obtain rfl := hroot ⟨_, _, _, rfl⟩
    cases hread.symm.trans read
    simp only [extraOf, bind_eq_ok, hmin, Except.ok.injEq] at extra
    obtain ⟨yl, hyl, yr, hyr, rfl⟩ := extra
    obtain ⟨data0, below0, hread0, hbits, hbare⟩ := leftCell.exists_read (e := e) hcode hyl
    obtain ⟨data1, below1, hread1, -⟩ := rightCell.exists_read (e := e) hcode hyr
    have hfork : isFork (⟨(A.writeTo (min yl yr)).bits,
        left :: right :: (A.writeTo (min yl yr)).refs⟩ : Slice C) = true := by
      simp [isFork]
    have hl := @ihl _ hyl (hle.trans (min_le_left _ _)) (fun _ => rfl) _ _ hread0
      (path ++ label ++ [false]) fuel (by omega)
    have hr := @ihr _ hyr (hle.trans (min_le_right _ _)) (fun _ => rfl) _ _ hread1
      (path ++ label ++ [true]) fuel (by omega)
    have hget : ∀ side k, (BitTrie.child l r side).get k =
        (BitTrie.fork label l r).get (label ++ side :: k) := by
      intro side k
      rw [BitTrie.get_fork_append]
    simp only [followRootAug, hfork, if_true, checkedSub_eq_some.mpr (Nat.add_comm 1 m), present,
      ok_bind, reference_zero, reference_one, hread0, hread1, BitTrie.label]
    by_cases hb : Bare A e l
    · rw [if_pos (hbits.mpr hb)]
      refine ⟨fun key s hk => ?_, fun _ hs => hl.2 (hbare hb) (hs.1 hb)⟩
      obtain ⟨k, y', v, rfl, rfl, hkv, hshown⟩ := hl.1 key s hk
      refine ⟨label ++ false :: k, y', v, by simp, rfl, (hget false k).symm.trans hkv, fun hy' => ?_⟩
      obtain ⟨rfl, hs⟩ := hshown hy'
      exact ⟨le_antisymm (min_le_left _ _) hle, fun _ => hs, absurd hb⟩
    · rw [if_neg fun h => hb (hbits.mp h)]
      refine ⟨fun key s hk => ?_, fun _ hs =>
        hr.2 (Except.ok.inj (hyr.symm.trans (hs.2 hb).1)) (hs.2 hb).2⟩
      obtain ⟨k, y', v, rfl, rfl, hkv, hshown⟩ := hr.1 key s hk
      refine ⟨label ++ true :: k, y', v, by simp, rfl, (hget true k).symm.trans hkv, fun hy' => ?_⟩
      obtain ⟨rfl, hs⟩ := hshown hy'
      exact ⟨le_antisymm (min_le_right _ _) hle, (absurd · hb), fun _ => ⟨hyr, hs⟩⟩

/-- `find_by_root_aug` finds an entry with the root extra exactly when the extra is shown on
the way: extras are ordered, combined to the least, and known by their bits. -/
theorem find_by_root_aug_iff_shown [LinearOrder Y] (hmin : ∀ a b, A.calcAug a b = .ok (min a b))
    (hcode : ∀ {y y' : Y} {bits}, (A.writeTo y).bits = (A.writeTo y').bits ++ bits → y = y')
    {root : C} (h : AugCells S A n t root) (he : extraOf A t = .ok e) :
    (∃ key value, HashmapAugE.findByRootAug S A n ⟨some root, e⟩ = .ok (some (key, value)) ∧
      t.get key = some (combine A e value)) ↔ Shown A e t := by
  obtain ⟨data, below, hread, -⟩ := h.exists_read (e := e) hcode he
  have hroot : (∃ label l r, t = .fork label l r) → data.bits = (A.writeTo e).bits := by
    rintro ⟨label, l, r, rfl⟩
    cases h with
    | fork read _ extra _ _ =>
      obtain rfl := Except.ok.inj (extra.symm.trans he)
      cases hread.symm.trans read
      rfl
  have hfollow := @followRootAug_spec _ _ _ _ _ _ _ _ _ _ hmin hcode h he le_rfl _ hroot _ _ hread []
    _ (Nat.lt_succ_self n)
  simp only [HashmapAugE.findByRootAug, hread, ok_bind, bind_eq_ok, pure_eq_ok, Prod.exists]
  constructor
  · rintro ⟨key, value, ⟨key', s, hs, _, value', hvalue, hkv⟩, hget⟩
    cases hkv
    obtain ⟨k, y', v, rfl, rfl, hk, hshown⟩ := hfollow.1 _ _ hs
    have hsame : combine A e value = combine A y' v := Option.some.inj (hget.symm.trans hk)
    have hextra := @extraOf_combine _ _ A value e []
    rw [hsame, extraOf_combine] at hextra
    exact (hshown (Except.ok.inj hextra)).2
  · intro hshown
    obtain ⟨key, v, hkey⟩ := hfollow.2 rfl hshown
    obtain ⟨k, y', v', rfl, -, hk, -⟩ := hfollow.1 _ _ hkey
    exact ⟨_, v, ⟨_, _, hkey, e, v, A.constructFrom_writeTo e v, rfl⟩, hk⟩

theorem minMsgTime_code {y y' : Fin (2 ^ 64)} {bits : List Bool}
    (h : ((minMsgTime C).writeTo y).bits = ((minMsgTime C).writeTo y').bits ++ bits) : y = y' := by
  have hbits := List.append_inj_left ((List.append_nil _).trans h) (by simp [minMsgTime])
  exact Fin.ext ((natToBits_inj y.isLt y'.isLt).mp hbits)

/-- Keys of one bit with the extras `lt` and `lt'` and values of one bit. -/
def pairTrie (lt lt' : Fin (2 ^ 64)) : BitTrie (Slice TreeCell) :=
  .fork [] (.leaf [] (combine (minMsgTime TreeCell) lt ⟨[true], []⟩))
    (.leaf [] (combine (minMsgTime TreeCell) lt' ⟨[true], []⟩))

def pairRoot (lt lt' : Fin (2 ^ 64)) : TreeCell :=
  .mk (labelBits [] 1 ++ natToBits 64 (min lt lt').val)
    [.mk (labelBits [] 0 ++ (natToBits 64 lt ++ [true])) [],
      .mk (labelBits [] 0 ++ (natToBits 64 lt' ++ [true])) []]

theorem readNodeRaw_mk_nil (bits : List Bool) (refs : List TreeCell) (hlen : n ≤ maxDataBits) :
    readNodeRaw TreeCell.store (.mk (labelBits [] n ++ bits) refs) n = .ok ([], ⟨bits, refs⟩, n) := by
  refine MsgQueue.readNodeRaw_of_full rfl ?_
  show (readLabelRaw (labelBits [] n ++ bits) n >>= _) = _
  rw [readLabelRaw_labelBits [] bits (Nat.zero_le n) hlen]
  rfl

theorem augCells_pairRoot (lt lt' : Fin (2 ^ 64)) :
    AugCells TreeCell.store (minMsgTime TreeCell) 1 (pairTrie lt lt') (pairRoot lt lt') ∧
      extraOf (minMsgTime TreeCell) (pairTrie lt lt') = .ok (min lt lt') := by
  have hextra : extraOf (minMsgTime TreeCell) (pairTrie lt lt') = .ok (min lt lt') := by
    rw [pairTrie, extraOf, extraOf_combine, extraOf_combine]
    exact @calcAug_minMsgTime TreeCell lt lt'
  have hread := fun bits => @readNodeRaw_mk_nil 0 bits [] (by decide)
  exact ⟨.fork (readNodeRaw_mk_nil _ _ (by decide)) rfl hextra (.leaf (hread _)) (.leaf (hread _)),
    hextra⟩

/-- The left entry has the root extra, and the right one is found. -/
theorem find_by_root_aug_greater :
    AugCells TreeCell.store (minMsgTime TreeCell) 1 (pairTrie 5 10) (pairRoot 5 10) ∧
      extraOf (minMsgTime TreeCell) (pairTrie 5 10) = .ok 5 ∧
      HashmapAugE.findByRootAug TreeCell.store (minMsgTime TreeCell) 1 ⟨some (pairRoot 5 10), 5⟩ =
        .ok (some ([true], ⟨[true], []⟩)) ∧
      (pairTrie 5 10).get [true] = some (combine (minMsgTime TreeCell) 10 ⟨[true], []⟩) :=
  ⟨(augCells_pairRoot 5 10).1, (augCells_pairRoot 5 10).2, rfl, rfl⟩

theorem find_by_root_aug_right : Shown (minMsgTime TreeCell) 5 (pairTrie 10 5) ∧
      ∃ key value, HashmapAugE.findByRootAug TreeCell.store (minMsgTime TreeCell) 1
        ⟨some (pairRoot 10 5), 5⟩ = .ok (some (key, value)) ∧
        (pairTrie 10 5).get key = some (combine (minMsgTime TreeCell) 5 value) := by
  obtain ⟨hcells, hextra⟩ := augCells_pairRoot 10 5
  have hshown : Shown (minMsgTime TreeCell) 5 (pairTrie 10 5) :=
    ⟨fun _ => Nat.zero_le 1, fun _ => ⟨extraOf_combine _, Nat.zero_le 1⟩⟩
  exact ⟨hshown, (find_by_root_aug_iff_shown calcAug_minMsgTime minMsgTime_code hcells hextra).mpr
    hshown⟩

end Search

end TonNode.Hashmap
