import Mathlib

/-! The machine's integers are arbitrary-precision values with one extra value, NaN. Their
range is not part of the type: each operation computes an exact result and passes it to
`IntegerData.fromInt`, which compares its signed bit size with 258. This file models that
layer, says which values pass the check, and compares every division with rounding of the
rational quotient. -/

namespace TonNode.Vm

inductive ExceptionCode where
  | normalTermination
  | alternativeTermination
  | stackUnderflow
  | stackOverflow
  | integerOverflow
  | rangeCheckError
  | invalidOpcode
  | typeCheckError
  | cellOverflow
  | cellUnderflow
  | dictionaryError
  | unknownError
  | fatalError
  | outOfGas
  | prunedCellAccess
  deriving DecidableEq, Repr

structure IntegerData where
  value : Option ℤ
  deriving DecidableEq, Repr

variable (value : ℤ)

def bitsize : ℕ :=
  if value = 0 ∨ value = -1 then 1
  else if 0 < value then value.natAbs.size + 1
  -- the magnitude of a negative power of two needs no extra bit for the sign
  else if value.natAbs &&& (value.natAbs - 1) = 0 then value.natAbs.size
  else value.natAbs.size + 1

def checkOverflow : Bool := bitsize value < 258

def Fits : Prop := -2 ^ 256 ≤ value ∧ value < 2 ^ 256

instance : Decidable (Fits value) := inferInstanceAs (Decidable (_ ∧ _))

/-- For a positive number, one bit less than its size is its binary logarithm. -/
theorem size_le_iff_isPowerOfTwo {m n : ℕ} (hm : m.isPowerOfTwo) : m.size ≤ n + 1 ↔ m ≤ 2 ^ n := by
  obtain ⟨k, rfl⟩ := hm
  rw [Nat.size_le, Nat.pow_lt_pow_iff_right (by norm_num), Nat.pow_le_pow_iff_right (by norm_num)]
  omega

theorem bitsize_of_pos {v : ℤ} (hv : 0 < v) : bitsize v = v.natAbs.size + 1 := by
  have hne : ¬ (v = 0 ∨ v = -1) := by omega
  simp [bitsize, hne, hv]

/-- The signed bit size of a negative value is bounded exactly when the value is. -/
theorem bitsize_le_iff_of_neg {v : ℤ} (hv : v < 0) (n : ℕ) : bitsize v ≤ n + 1 ↔ -2 ^ n ≤ v := by
  have habs : (v.natAbs : ℤ) = -v := by omega
  have hcast : -2 ^ n ≤ v ↔ v.natAbs ≤ 2 ^ n := by
    rw [← Int.ofNat_le, habs]
    push_cast
    constructor <;> intro h <;> linarith
  rw [hcast]
  by_cases hone : v = -1
  · subst hone
    simp [bitsize, Nat.one_le_two_pow]
  · have hne : ¬ (v = 0 ∨ v = -1) := by omega
    have hpos : ¬ 0 < v := by omega
    have hnz : v.natAbs ≠ 0 := by omega
    simp only [bitsize, hne, hpos, if_false]
    split
    · rename_i hpow
      exact size_le_iff_isPowerOfTwo ((Nat.and_sub_one_eq_zero_iff_isPowerOfTwo hnz).mp hpow)
    · rename_i hpow
      -- a magnitude that is no power of two is at most `2 ^ n` only when it is below it
      have hlt : v.natAbs ≠ 2 ^ n := by
        intro heq
        exact hpow ((Nat.and_sub_one_eq_zero_iff_isPowerOfTwo hnz).mpr ⟨n, heq⟩)
      rw [Nat.add_le_add_iff_right, Nat.size_le]
      omega

theorem bitsize_le_iff (v : ℤ) (n : ℕ) : bitsize v ≤ n + 1 ↔ -2 ^ n ≤ v ∧ v < 2 ^ n := by
  have hpow : (0 : ℤ) < 2 ^ n := by positivity
  rcases lt_trichotomy v 0 with hneg | rfl | hpos
  · rw [bitsize_le_iff_of_neg hneg]
    exact ⟨fun h => ⟨h, hneg.trans hpow⟩, And.left⟩
  · simp [bitsize]
  · rw [bitsize_of_pos hpos, Nat.add_le_add_iff_right, Nat.size_le, ← Int.ofNat_lt,
      Int.natAbs_of_nonneg hpos.le]
    push_cast
    exact ⟨fun h => ⟨by omega, h⟩, And.right⟩

/-- The overflow check accepts exactly the values from `-2 ^ 256` up to `2 ^ 256`. -/
theorem checkOverflow_iff (v : ℤ) : checkOverflow v = true ↔ Fits v := by
  have hstep : bitsize v < 258 ↔ bitsize v ≤ 256 + 1 := by omega
  simp only [checkOverflow, decide_eq_true_eq, hstep, Fits]
  exact bitsize_le_iff v 256

namespace IntegerData

def minusOne : IntegerData := ⟨some (-1)⟩

def fromInt : Except ExceptionCode IntegerData :=
  if checkOverflow value then .ok ⟨some value⟩ else .error .integerOverflow

end IntegerData

inductive Round where
  | ceil
  | floorToNegativeInfinity
  | nearest
  | floorToZero
  deriving DecidableEq, Repr

variable (quotient remainder dividend divisor : ℤ)

def roundFloorToNegativeInfinity : ℤ × ℤ :=
  if remainder = 0 ∨ remainder.sign = divisor.sign then (quotient, remainder)
  else
    (if dividend.sign = divisor.sign then quotient + 1 else quotient - 1, remainder + divisor)

def roundCeil : ℤ × ℤ :=
  if remainder = 0 ∨ remainder.sign ≠ divisor.sign then (quotient, remainder)
  else
    (if dividend.sign = divisor.sign then quotient + 1 else quotient - 1, remainder - divisor)

def roundNearest : ℤ × ℤ :=
  if remainder = 0 then (quotient, remainder)
  else if |remainder <<< (1 : ℕ)| > |divisor| ∨
      (|remainder <<< (1 : ℕ)| = |divisor| ∧ dividend.sign = divisor.sign) then
    (if dividend.sign = divisor.sign then quotient + 1 else quotient - 1,
      if divisor.sign = remainder.sign then remainder - divisor else remainder + divisor)
  else (quotient, remainder)

def divmod : Round → ℤ × ℤ
  | .floorToNegativeInfinity => (dividend.fdiv divisor, dividend.fmod divisor)
  | .floorToZero => (dividend.tdiv divisor, dividend.tmod divisor)
  | .ceil => roundCeil (dividend.tdiv divisor) (dividend.tmod divisor) dividend divisor
  | .nearest => roundNearest (dividend.tdiv divisor) (dividend.tmod divisor) dividend divisor

def shiftParts (shift : ℕ) : ℤ × ℤ :=
  let quotient : ℕ := dividend.natAbs >>> shift
  let remainder : ℕ := dividend.natAbs &&& (2 ^ shift - 1)
  if dividend < 0 then (-quotient, -remainder) else (quotient, remainder)

def divByShift (shift : ℕ) (rounding : Round) : ℤ × ℤ :=
  let parts := shiftParts dividend shift
  match rounding with
  | .floorToNegativeInfinity =>
    roundFloorToNegativeInfinity parts.1 parts.2 dividend (2 ^ shift)
  | .ceil => roundCeil parts.1 parts.2 dividend (2 ^ shift)
  | .nearest => roundNearest parts.1 parts.2 dividend (2 ^ shift)
  | .floorToZero => parts

def Round.apply : Round → ℚ → ℤ
  | .ceil, t => ⌈t⌉
  | .floorToNegativeInfinity, t => ⌊t⌋
  | .nearest, t => ⌊t + 1 / 2⌋
  | .floorToZero, t => if 0 ≤ t then ⌊t⌋ else ⌈t⌉

structure Truncated (x y q r : ℤ) : Prop where
  split : x = q * y + r
  small : |r| < |y|
  above : 0 ≤ x → 0 ≤ r
  under : x ≤ 0 → r ≤ 0

namespace Truncated

variable {x y q r : ℤ}

theorem of_tdiv (x : ℤ) (hy : y ≠ 0) : Truncated x y (x.tdiv y) (x.tmod y) where
  split := by rw [mul_comm, Int.mul_tdiv_add_tmod]
  small := by
    rw [Int.abs_eq_natAbs, Int.abs_eq_natAbs, Int.natAbs_tmod, Int.ofNat_lt]
    exact Nat.mod_lt _ (Int.natAbs_pos.mpr hy)
  above := fun hx => Int.tmod_nonneg y hx
  under := fun hx => by
    have h := Int.tmod_nonneg y (Int.neg_nonneg_of_nonpos hx)
    rw [Int.neg_tmod] at h
    omega

theorem sign_eq (h : Truncated x y q r) (hr : r ≠ 0) : r.sign = x.sign := by
  rcases lt_trichotomy x 0 with hx | rfl | hx
  · have := h.under hx.le
    rw [Int.sign_eq_neg_one_of_neg hx, Int.sign_eq_neg_one_of_neg (by omega)]
  · have h1 := h.above le_rfl
    have h2 := h.under le_rfl
    omega
  · have := h.above hx.le
    rw [Int.sign_eq_one_of_pos hx, Int.sign_eq_one_of_pos (by omega)]

/-- Away from zero, the signs of remainder and divisor agree exactly when their quotient is positive. -/
theorem sign_eq_iff {y : ℤ} (hr : r ≠ 0) (hy : y ≠ 0) : r.sign = y.sign ↔ (0 : ℚ) < r / y := by
  rw [div_pos_iff]
  rcases lt_or_gt_of_ne hr with hr | hr <;> rcases lt_or_gt_of_ne hy with hy | hy <;>
    simp [Int.sign_eq_neg_one_of_neg, Int.sign_eq_one_of_pos, hr, hy, hr.le, hy.le]

/-- Twice a remainder compares with the divisor as its share of the divisor does with one half. -/
theorem abs_shiftLeft_lt_iff (r : ℤ) {y : ℤ} (hy : y ≠ 0) :
    |r <<< (1 : ℕ)| < |y| ↔ |(r : ℚ) / y| < 1 / 2 := by
  have hpos : (0 : ℚ) < |(y : ℚ)| := abs_pos.mpr (by exact_mod_cast hy)
  rw [Int.shiftLeft_eq, abs_mul, abs_div, div_lt_iff₀ hpos, ← Int.cast_lt (R := ℚ)]
  push_cast
  constructor <;> intro h <;> norm_num at h ⊢ <;> linarith

theorem abs_shiftLeft_eq_iff (r : ℤ) {y : ℤ} (hy : y ≠ 0) :
    |r <<< (1 : ℕ)| = |y| ↔ |(r : ℚ) / y| = 1 / 2 := by
  have hpos : (0 : ℚ) < |(y : ℚ)| := abs_pos.mpr (by exact_mod_cast hy)
  rw [Int.shiftLeft_eq, abs_mul, abs_div, div_eq_iff hpos.ne', ← Int.cast_inj (α := ℚ)]
  push_cast
  constructor <;> intro h <;> norm_num at h ⊢ <;> linarith

theorem abs_share_lt_one (h : Truncated x y q r) (hy : y ≠ 0) : |(r : ℚ) / y| < 1 := by
  have hpos : (0 : ℚ) < |(y : ℚ)| := abs_pos.mpr (by exact_mod_cast hy)
  rw [abs_div, div_lt_one hpos]
  exact_mod_cast h.small

end Truncated

/-- A quotient with its remainder, and the rational quotient they stand for. -/
theorem div_eq_add_share {x y q r : ℤ} (hy : y ≠ 0) (h : x = q * y + r) :
    (x : ℚ) / y = q + r / y := by
  have hy' : (y : ℚ) ≠ 0 := by exact_mod_cast hy
  subst h
  push_cast
  field_simp

def Round.exact (rounding : Round) (x y : ℤ) : ℤ × ℤ :=
  (rounding.apply (x / y), x - rounding.apply (x / y) * y)

def Round.Leaves : Round → ℚ → ℚ → Prop
  | .ceil, _, t => -1 < t ∧ t ≤ 0
  | .floorToNegativeInfinity, _, t => 0 ≤ t ∧ t < 1
  | .nearest, _, t => -1 / 2 ≤ t ∧ t < 1 / 2
  | .floorToZero, whole, t => if 0 ≤ whole then 0 ≤ t ∧ t < 1 else -1 < t ∧ t ≤ 0

/-- A quotient whose remainder is what the mode leaves is the exact quotient. -/
theorem Round.eq_exact {rounding : Round} {x y q r : ℤ} (hy : y ≠ 0) (hsplit : x = q * y + r)
    (hleaves : rounding.Leaves (x / y) (r / y)) : (q, r) = rounding.exact x y := by
  have hsum := div_eq_add_share hy hsplit
  have hfloor : ∀ t : ℚ, 0 ≤ t ∧ t < 1 → ⌊(q : ℚ) + t⌋ = q := by
    intro t ht
    rw [Int.floor_eq_iff]
    exact ⟨by linarith [ht.1], by linarith [ht.2]⟩
  have hceil : ∀ t : ℚ, -1 < t ∧ t ≤ 0 → ⌈(q : ℚ) + t⌉ = q := by
    intro t ht
    rw [Int.ceil_eq_iff]
    exact ⟨by linarith [ht.1], by linarith [ht.2]⟩
  have hround : rounding.apply (x / y) = q := by
    cases rounding with
    | ceil => rw [Round.apply, hsum]; exact hceil _ hleaves
    | floorToNegativeInfinity => rw [Round.apply, hsum]; exact hfloor _ hleaves
    | nearest =>
      rw [Round.apply, hsum, add_assoc]
      exact hfloor _ ⟨by linarith [hleaves.1], by linarith [hleaves.2]⟩
    | floorToZero =>
      simp only [Round.Leaves] at hleaves
      rw [Round.apply]
      split
      · rename_i hw
        rw [if_pos hw] at hleaves
        rw [hsum]
        exact hfloor _ hleaves
      · rename_i hw
        rw [if_neg hw] at hleaves
        rw [hsum]
        exact hceil _ hleaves
  rw [Round.exact, hround, Prod.mk.injEq]
  exact ⟨rfl, by rw [hsplit]; ring⟩

/-- A quotient corrected by one, with the remainder that the correction leaves. -/
theorem Round.eq_exact_down {rounding : Round} {x y q r : ℤ} (hy : y ≠ 0) (hsplit : x = q * y + r)
    (hleaves : rounding.Leaves (x / y) (r / y + 1)) : (q - 1, r + y) = rounding.exact x y := by
  refine Round.eq_exact hy (by rw [hsplit]; ring) ?_
  rwa [Int.cast_add, add_div, div_self (by exact_mod_cast hy)]

theorem Round.eq_exact_up {rounding : Round} {x y q r : ℤ} (hy : y ≠ 0) (hsplit : x = q * y + r)
    (hleaves : rounding.Leaves (x / y) (r / y - 1)) : (q + 1, r - y) = rounding.exact x y := by
  refine Round.eq_exact hy (by rw [hsplit]; ring) ?_
  rwa [Int.cast_sub, sub_div, div_self (by exact_mod_cast hy)]

namespace Truncated

variable {x y q r : ℤ}

variable (h : Truncated x y q r) (hy : y ≠ 0)
include h hy

theorem eq_exact : (q, r) = Round.floorToZero.exact x y := by
  apply Round.eq_exact hy h.split
  have hone := abs_lt.mp (h.abs_share_lt_one hy)
  have hy' : (y : ℚ) ≠ 0 := by exact_mod_cast hy
  by_cases hr : r = 0
  · subst hr
    simp [Round.Leaves]
  -- the remainder has the sign of the dividend, so both have the same sign relative to the divisor
  have hx : x ≠ 0 := by
    rintro rfl
    exact hr (le_antisymm (h.under le_rfl) (h.above le_rfl))
  have hsame : (0 : ℚ) < r / y ↔ (0 : ℚ) < x / y := by
    rw [← sign_eq_iff hr hy, ← sign_eq_iff hx hy, h.sign_eq hr]
  have hxne : (x : ℚ) / y ≠ 0 := div_ne_zero (by exact_mod_cast hx) hy'
  simp only [Round.Leaves]
  split
  · rename_i hw
    exact ⟨(hsame.mpr (lt_of_le_of_ne hw hxne.symm)).le, hone.2⟩
  · rename_i hw
    refine ⟨hone.1, le_of_not_gt fun hpos => hw (hsame.mp hpos).le⟩

theorem roundFloor_exact :
    roundFloorToNegativeInfinity q r x y = Round.floorToNegativeInfinity.exact x y := by
  have hone := abs_lt.mp (h.abs_share_lt_one hy)
  have hy' : (y : ℚ) ≠ 0 := by exact_mod_cast hy
  rw [roundFloorToNegativeInfinity]
  by_cases hr : r = 0
  · subst hr
    rw [if_pos (Or.inl rfl)]
    exact Round.eq_exact hy h.split (by simp [Round.Leaves])
  by_cases hs : r.sign = y.sign
  · rw [if_pos (Or.inr hs)]
    exact Round.eq_exact hy h.split ⟨((sign_eq_iff hr hy).mp hs).le, hone.2⟩
  · have hxs : x.sign ≠ y.sign := by rwa [← h.sign_eq hr]
    have hneg : (r : ℚ) / y ≤ 0 := le_of_not_gt fun hpos => hs ((sign_eq_iff hr hy).mpr hpos)
    rw [if_neg (not_or.mpr ⟨hr, hs⟩), if_neg hxs]
    have hne : (r : ℚ) / y ≠ 0 := div_ne_zero (by exact_mod_cast hr) hy'
    exact Round.eq_exact_down hy h.split
      ⟨by linarith [hone.1], by linarith [lt_of_le_of_ne hneg hne]⟩

theorem roundCeil_exact : roundCeil q r x y = Round.ceil.exact x y := by
  have hone := abs_lt.mp (h.abs_share_lt_one hy)
  rw [roundCeil]
  by_cases hr : r = 0
  · subst hr
    rw [if_pos (Or.inl rfl)]
    exact Round.eq_exact hy h.split (by simp [Round.Leaves])
  by_cases hs : r.sign = y.sign
  · have hxs : x.sign = y.sign := by rwa [← h.sign_eq hr]
    rw [if_neg (by simp [hr, hs]), if_pos hxs]
    exact Round.eq_exact_up hy h.split
      ⟨by linarith [(sign_eq_iff hr hy).mp hs], by linarith [hone.2]⟩
  · rw [if_pos (Or.inr hs)]
    exact Round.eq_exact hy h.split
      ⟨hone.1, le_of_not_gt fun hpos => hs ((sign_eq_iff hr hy).mpr hpos)⟩

theorem roundNearest_exact : roundNearest q r x y = Round.nearest.exact x y := by
  have hone := abs_lt.mp (h.abs_share_lt_one hy)
  rw [roundNearest]
  by_cases hr : r = 0
  · subst hr
    rw [if_pos rfl]
    exact Round.eq_exact hy h.split (by norm_num [Round.Leaves])
  have hgt : |r <<< (1 : ℕ)| > |y| ↔ 1 / 2 < |(r : ℚ) / y| := by
    rw [gt_iff_lt, ← not_le, ← not_le, le_iff_lt_or_eq, le_iff_lt_or_eq,
      abs_shiftLeft_lt_iff r hy, abs_shiftLeft_eq_iff r hy]
  have hsign : x.sign = y.sign ↔ (0 : ℚ) < r / y := by
    rw [← h.sign_eq hr, sign_eq_iff hr hy]
  have hsign' : y.sign = r.sign ↔ (0 : ℚ) < r / y := by
    rw [eq_comm, sign_eq_iff hr hy]
  rw [if_neg hr]
  simp only [hgt, abs_shiftLeft_eq_iff r hy, hsign, hsign']
  by_cases hpos : (0 : ℚ) < r / y
  · -- same signs: at one half and above the quotient grows by one
    rw [abs_of_pos hpos]
    simp only [hpos, and_true, if_true]
    split
    · rename_i hhalf
      have hge : (1 : ℚ) / 2 ≤ r / y := hhalf.elim le_of_lt fun h => h.ge
      exact Round.eq_exact_up hy h.split ⟨by linarith, by linarith [hone.2]⟩
    · rename_i hhalf
      have hlt : (r : ℚ) / y < 1 / 2 :=
        lt_of_le_of_ne (not_lt.mp fun h => hhalf (Or.inl h)) fun h => hhalf (Or.inr h)
      exact Round.eq_exact hy h.split ⟨by linarith, hlt⟩
  · -- opposite signs: only above one half does it shrink
    have hneg : (r : ℚ) / y ≤ 0 := not_lt.mp hpos
    rw [abs_of_nonpos hneg]
    simp only [hpos, and_false, or_false, if_false]
    split
    · rename_i hhalf
      exact Round.eq_exact_down hy h.split ⟨by linarith [hone.1], by linarith⟩
    · rename_i hhalf
      exact Round.eq_exact hy h.split ⟨by linarith [not_lt.mp hhalf], by linarith⟩

end Truncated

variable (x : ℤ)

/-- Floored division leaves a remainder on the divisor's side of zero. -/
theorem fmod_share {y : ℤ} (hy : y ≠ 0) :
    (0 : ℚ) ≤ (x.fmod y : ℤ) / y ∧ ((x.fmod y : ℤ) : ℚ) / y < 1 := by
  have hpos : ∀ (a b : ℤ), 0 < b → (0 : ℚ) ≤ (a.fmod b : ℤ) / b ∧ ((a.fmod b : ℤ) : ℚ) / b < 1 := by
    intro a b hb
    have hb' : (0 : ℚ) < b := by exact_mod_cast hb
    have hnonneg : 0 ≤ a.fmod b := by
      rw [Int.fmod_eq_emod_of_nonneg a hb.le]
      exact Int.emod_nonneg a hb.ne'
    exact ⟨div_nonneg (by exact_mod_cast hnonneg) hb'.le,
      (div_lt_one hb').mpr (by exact_mod_cast Int.fmod_lt_of_pos a hb)⟩
  rcases lt_or_gt_of_ne hy with hneg | hpos'
  · -- both numbers change their sign, which their quotient does not see
    have h := hpos (-x) (-y) (by omega)
    rw [Int.neg_fmod_neg] at h
    push_cast at h
    rwa [neg_div_neg_eq] at h
  · exact hpos x y hpos'

/-- Division yields the rounded rational quotient and the remainder that belongs to it. -/
theorem divmod_exact {y : ℤ} (hy : y ≠ 0) (rounding : Round) :
    divmod x y rounding = rounding.exact x y := by
  have htrunc := Truncated.of_tdiv x hy
  cases rounding with
  | ceil => exact htrunc.roundCeil_exact hy
  | nearest => exact htrunc.roundNearest_exact hy
  | floorToZero => exact htrunc.eq_exact hy
  | floorToNegativeInfinity =>
    have hsplit : x = x.fdiv y * y + x.fmod y := by
      rw [mul_comm, Int.mul_fdiv_add_fmod]
    exact Round.eq_exact hy hsplit (fmod_share x hy)

theorem divmod_minus_seven_nearest : divmod (-7) 2 .nearest = Round.nearest.exact (-7) 2 :=
  divmod_exact (-7) (by decide) .nearest

/-- The parts of a shift are the truncated quotient and remainder by the power of two. -/
theorem shiftParts_truncated (shift : ℕ) :
    Truncated x (2 ^ shift) (shiftParts x shift).1 (shiftParts x shift).2 := by
  have hpow : ((2 ^ shift : ℕ) : ℤ) = 2 ^ shift := by push_cast; rfl
  have hparts : ((x.natAbs >>> shift : ℕ) : ℤ) * 2 ^ shift + (x.natAbs &&& (2 ^ shift - 1) : ℕ) =
      x.natAbs := by
    rw [Nat.shiftRight_eq_div_pow, Nat.and_two_pow_sub_one_eq_mod, ← hpow]
    exact_mod_cast Nat.div_add_mod' x.natAbs (2 ^ shift)
  have hsmall : ((x.natAbs &&& (2 ^ shift - 1) : ℕ) : ℤ) < 2 ^ shift := by
    rw [Nat.and_two_pow_sub_one_eq_mod, ← hpow]
    exact_mod_cast Nat.mod_lt _ (Nat.two_pow_pos shift)
  have habs : |(2 : ℤ) ^ shift| = 2 ^ shift := abs_of_pos (by positivity)
  simp only [shiftParts]
  split
  · rename_i hx
    refine ⟨?_, ?_, fun h => by omega, fun _ => by simp only; omega⟩
    · simp only
      rw [neg_mul, ← neg_add, hparts]
      omega
    · rw [habs, abs_neg, Nat.abs_cast]
      exact hsmall
  · rename_i hx
    refine ⟨?_, ?_, fun _ => by simp only; omega, fun h => ?_⟩
    · simp only
      rw [hparts]
      omega
    · rw [habs, Nat.abs_cast]
      exact hsmall
    · have hzero : x = 0 := by omega
      simp [hzero]

/-- Division by a shift is division by the power of two. -/
theorem divByShift_exact (shift : ℕ) (rounding : Round) :
    divByShift x shift rounding = rounding.exact x (2 ^ shift) := by
  have htrunc := shiftParts_truncated x shift
  have hne : (2 : ℤ) ^ shift ≠ 0 := by positivity
  cases rounding with
  | ceil => exact htrunc.roundCeil_exact hne
  | nearest => exact htrunc.roundNearest_exact hne
  | floorToNegativeInfinity => exact htrunc.roundFloor_exact hne
  | floorToZero => exact htrunc.eq_exact hne

end TonNode.Vm
