import TonNode.Bits
import TonNode.Checks

/-! Shards, account prefixes and hypercube routing. Workchain ids and prefixes
are the machine words of the code (`i32`, `u64`); a shard prefix ends in its
terminating bit. -/
namespace TonNode.Block

open Checked

abbrev UInt256 := Fin (2 ^ 256)

def masterchainId : BitVec 32 := -1#32
def invalidWorkchainId : BitVec 32 := 0x80000000#32
def shardFull : BitVec 64 := 0x8000000000000000#64
def fullBits : ℕ := 96

def leadingZeros {w : ℕ} (x : BitVec w) : ℕ :=
  ((List.range w).find? fun i => x.getMsbD i).getD w

def trailingZeros {w : ℕ} (x : BitVec w) : ℕ :=
  ((List.range w).find? fun i => x.getLsbD i).getD w

structure AccountIdPrefixFull where
  workchainId : BitVec 32
  pfx : BitVec 64
deriving DecidableEq, Repr

structure ShardIdent where
  workchainId : BitVec 32
  pfx : BitVec 64
deriving DecidableEq, Repr

instance neZero_useDestBits : NeZero 97 := ⟨by decide⟩

/-- `IntermediateAddress`; only the regular form takes part in routing. A
regular address counts the bits taken from the destination, at most 96. -/
inductive IntermediateAddress where
  | regular (useDestBits : Fin 97)
  | simple (workchainId : BitVec 8) (addrPfx : BitVec 64)
  | ext (workchainId : BitVec 32) (addrPfx : BitVec 64)
deriving DecidableEq, Repr

namespace IntermediateAddress

def useDestBits (bits : ℕ) : Checked IntermediateAddress :=
  if h : bits < 97 then .ok (.regular ⟨bits, h⟩) else reject "use_dest_bits must be <= 96"

def fullSrc : IntermediateAddress := .regular 0
def fullDest : IntermediateAddress := .regular 96

def isZero : IntermediateAddress → Bool
  | .regular bits => bits = 0
  | .simple _ addrPfx => addrPfx = 0
  | .ext _ addrPfx => addrPfx = 0

end IntermediateAddress

namespace ShardIdent

def isMasterchain (s : ShardIdent) : Bool := s.workchainId = masterchainId

def lowerBits (p : BitVec 64) : BitVec 64 := p &&& -p

def contains (parent child : BitVec 64) : Bool :=
  (parent ^^^ child) &&& ((-lowerBits parent) <<< 1) = 0

def isAncestor (parent child : BitVec 64) : Bool :=
  lowerBits child ≤ lowerBits parent && contains parent child

def prefixLen (s : ShardIdent) : ℕ :=
  if s.pfx = 0 then 64 else 63 - trailingZeros s.pfx

def containsFullPrefix (s : ShardIdent) (p : AccountIdPrefixFull) : Bool :=
  if s.workchainId = p.workchainId then
    if s.pfx = shardFull then true
    else s.pfx >>> (64 - s.prefixLen) = p.pfx >>> (64 - s.prefixLen)
  else false

/-- `k` is the position of the tag of a shard prefix, its lowest set bit. -/
structure TagAt (p : BitVec 64) (k : ℕ) : Prop where
  lt : k < 64
  set : p.getLsbD k = true
  low : ∀ j < k, p.getLsbD j = false

theorem exists_tagAt {p : BitVec 64} (h : p ≠ 0) : ∃ k, TagAt p k := by
  have hex : ∃ k, p.getLsbD k = true := by
    by_contra hnone
    push Not at hnone
    exact h (BitVec.eq_of_getLsbD_eq fun i hi => by simpa using hnone i)
  refine ⟨Nat.find hex, BitVec.lt_of_getLsbD (Nat.find_spec hex), Nat.find_spec hex, ?_⟩
  intro j hj
  exact Bool.eq_false_iff.mpr (Nat.find_min hex hj)

namespace TagAt

variable {p q : BitVec 64} {k m : ℕ}

theorem lowerBits_eq (h : TagAt p k) : lowerBits p = BitVec.twoPow 64 k := by
  apply BitVec.eq_of_getLsbD_eq
  intro i hi
  rw [lowerBits, BitVec.getLsbD_and, BitVec.getLsbD_neg, BitVec.getLsbD_twoPow]
  rcases lt_trichotomy i k with hlt | rfl | hgt
  · simp [h.low i hlt, hlt.ne']
  · have hnone : ¬ ∃ j < i, p.getLsbD j = true := fun ⟨j, hj, hset⟩ => by simp [h.low j hj] at hset
    rw [decide_eq_false hnone]
    simp [h.set, h.lt]
  · have hbelow : ∃ j < i, p.getLsbD j = true := ⟨k, hgt, h.set⟩
    rw [decide_eq_true hbelow]
    simp [hgt.ne, hi]

theorem contains_iff (h : TagAt p k) :
    contains p q = true ↔ ∀ i < 64, k < i → p.getLsbD i = q.getLsbD i := by
  have hmask : ∀ i < 64, ((-lowerBits p) <<< 1).getLsbD i = decide (k < i) := by
    intro i hi
    rw [h.lowerBits_eq, BitVec.getLsbD_shiftLeft, BitVec.getLsbD_neg]
    have hbelow : (∃ j < i - 1, (BitVec.twoPow 64 k).getLsbD j = true) ↔ k < i - 1 := by
      simp only [BitVec.getLsbD_twoPow, Bool.and_eq_true, decide_eq_true_eq]
      constructor
      · rintro ⟨j, hj, -, rfl⟩
        exact hj
      · intro hk
        exact ⟨k, hk, h.lt, rfl⟩
    simp only [hbelow]
    rw [BitVec.getLsbD_twoPow]
    grind
  rw [contains, decide_eq_true_eq]
  constructor
  · intro hzero i hi hki
    have hbit := congrArg (fun x => BitVec.getLsbD x i) hzero
    simpa [hmask i hi, hki] using hbit
  · intro hsame
    apply BitVec.eq_of_getLsbD_eq
    intro i hi
    rw [BitVec.getLsbD_and, hmask i hi, BitVec.getLsbD_xor]
    by_cases hki : k < i
    · simp [hsame i hi hki]
    · simp [hki]

theorem contains_of_isAncestor (hp : TagAt p k) (hq : TagAt q m) {x : BitVec 64}
    (hanc : isAncestor p q = true) (h : contains q x = true) : contains p x = true := by
  rw [isAncestor, Bool.and_eq_true, decide_eq_true_eq, hp.lowerBits_eq, hq.lowerBits_eq,
    BitVec.le_def, BitVec.toNat_twoPow_of_lt hp.lt, BitVec.toNat_twoPow_of_lt hq.lt,
    Nat.pow_le_pow_iff_right (by decide)] at hanc
  obtain ⟨hmk, hpq⟩ := hanc
  rw [hp.contains_iff] at hpq ⊢
  rw [hq.contains_iff] at h
  intro i hi hki
  exact (hpq i hi hki).trans (h i hi (by omega))

theorem trailingZeros_eq (h : TagAt p k) : trailingZeros p = k := by
  have hfind : (List.range 64).find? (fun i => p.getLsbD i) = some k := by
    rw [List.find?_range_eq_some]
    exact ⟨h.set, List.mem_range.mpr h.lt, fun j hj => by simp [h.low j hj]⟩
  rw [trailingZeros, hfind]
  rfl

theorem contains_of_containsFullPrefix {s : ShardIdent} {x : AccountIdPrefixFull}
    (h : TagAt s.pfx k) (hin : s.containsFullPrefix x = true) : contains s.pfx x.pfx = true := by
  rw [h.contains_iff]
  intro i hi hki
  rw [containsFullPrefix] at hin
  split_ifs at hin with hwc hfull
  · have htag := h.set
    rw [hfull, show shardFull = BitVec.twoPow 64 63 by decide, BitVec.getLsbD_twoPow] at htag
    simp only [Bool.and_eq_true, decide_eq_true_eq] at htag
    omega
  · have hne : s.pfx ≠ 0 := by
      intro h0
      have := h.set
      simp [h0] at this
    rw [prefixLen, if_neg hne, h.trailingZeros_eq, decide_eq_true_eq] at hin
    have hbit := congrArg (fun b => BitVec.getLsbD b (i - (k + 1))) hin
    have hk := h.lt
    simp only [BitVec.getLsbD_ushiftRight] at hbit
    rwa [show 64 - (63 - k) + (i - (k + 1)) = i by omega] at hbit

end TagAt

end ShardIdent

namespace AccountIdPrefixFull

def invalid : AccountIdPrefixFull := ⟨invalidWorkchainId, 0⟩

def isMasterchain (p : AccountIdPrefixFull) : Bool := p.workchainId = masterchainId

def interpolateAddr (src dest : AccountIdPrefixFull) (destBits : ℕ) : AccountIdPrefixFull :=
  if destBits = 0 then src
  else if fullBits ≤ destBits then dest
  else if 32 ≤ destBits then
    let mask := BitVec.allOnes 64 >>> (destBits - 32)
    ⟨dest.workchainId, (dest.pfx &&& ~~~mask) ||| (src.pfx &&& mask)⟩
  else
    let mask := BitVec.allOnes 32 >>> destBits
    ⟨(dest.workchainId &&& ~~~mask) ||| (src.workchainId &&& mask), src.pfx⟩

def interpolateAddrIntermediate (src dest : AccountIdPrefixFull) :
    IntermediateAddress → Checked AccountIdPrefixFull
  | .regular bits => .ok (interpolateAddr src dest bits)
  | _ => reject "IntermediateAddress::Regular is expected"

end AccountIdPrefixFull

def countMatchingBits (a b : AccountIdPrefixFull) : ℕ :=
  if a.workchainId ≠ b.workchainId then leadingZeros (a.workchainId ^^^ b.workchainId)
  else if a.pfx ≠ b.pfx then 32 + leadingZeros (a.pfx ^^^ b.pfx)
  else 96

/-- The loop of `perform_hypercube_routing`: flip one group of four bits after
another until the address leaves the shard `x .. y`. Each round adds four to
`i`, so sixteen rounds are enough to reach 60. -/
def hypercubeLoop (x y t q : BitVec 64) :
    ℕ → BitVec 64 → ℕ → Checked (IntermediateAddress × IntermediateAddress)
  | 0, _, _ => reject "cannot perform hypercube routing"
  | fuel + 1, m, i =>
    if i < 60 then
      let m := m >>> 4
      let h := t ^^^ (q &&& ~~~m)
      let i := i + 4
      if h < x ∨ y < h then do
        let curPrefix ← IntermediateAddress.useDestBits (28 + i)
        let nextPrefix ← IntermediateAddress.useDestBits (32 + i)
        pure (curPrefix, nextPrefix)
      else hypercubeLoop x y t q fuel m i
    else reject "cannot perform hypercube routing"

def performHypercubeRouting (src dest : AccountIdPrefixFull) (curShard : ShardIdent) :
    Checked (IntermediateAddress × IntermediateAddress) := do
  let transit ← src.interpolateAddrIntermediate dest .fullSrc
  require (curShard.containsFullPrefix transit) "Shard must fully contain transit prefix"
  if curShard.containsFullPrefix dest then
    -- the destination is in this shard
    pure (.fullDest, .fullDest)
  else if transit.isMasterchain ∨ dest.isMasterchain then
    -- messages to and from the masterchain are routed directly
    pure (.fullSrc, .fullDest)
  else if transit.workchainId ≠ dest.workchainId then do
    let nextPrefix ← IntermediateAddress.useDestBits 32
    pure (.fullSrc, nextPrefix)
  else
    let x := curShard.pfx &&& (curShard.pfx - 1)
    let y := curShard.pfx ||| (curShard.pfx - 1)
    let t := transit.pfx
    let q := dest.pfx ^^^ t
    -- the top `i` bits match, the next four differ
    let i := leadingZeros q / 4 * 4
    hypercubeLoop x y t q 16 (BitVec.allOnes 64 >>> i) i

end TonNode.Block
