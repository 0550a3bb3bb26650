import TonNode.BlockCurrency

/-! The gas of a transaction. Gas is bought with a balance by two roundings down, the
threshold of the whole limit and the division by the price, and it is paid for by a
rounding up. The sum of gas limits wraps around, as in a release build. -/
namespace TonNode.Vm

structure Gas where
  gasMax : ℤ
  gasLimit : ℤ
  gasCredit : ℤ
  gasRemaining : ℤ
  gasBase : ℤ

def Gas.new (gasLimit gasCredit gasMax : ℤ) : Gas :=
  ⟨gasMax, gasLimit, gasCredit, gasLimit + gasCredit, gasLimit + gasCredit⟩

end TonNode.Vm

namespace TonNode.Executor

open Block Checked

structure GasLimitsPrices where
  gasPrice : ℕ
  gasLimit : ℕ
  specialGasLimit : ℕ
  gasCredit : ℕ
  flatGasLimit : ℕ
  flatGasPrice : ℕ

/-- What a transaction brings to `init_gas`; `special` is the entry of its account among
the accounts with a limit of their own: until when, and the limit. -/
structure GasRequest where
  special : Option (ℕ × ℕ)
  now : ℕ
  accBalance : ℕ
  msgBalance : ℕ
  isExternal : Bool
  isSpecial : Bool
  isOrdinary : Bool

def overrideGas (special : Option (ℕ × ℕ)) (now : ℕ) : Option ℕ :=
  special.bind fun s => if now < s.1 then some s.2 else none

def asI64 (n : ℕ) : ℤ := if n < 2 ^ 63 then n else n - 2 ^ 64

namespace GasLimitsPrices

variable (g : GasLimitsPrices) (a : GasRequest)

def calcGasFee (gasUsed : ℕ) : ℕ :=
  if gasUsed ≤ g.flatGasLimit then g.flatGasPrice
  else g.flatGasPrice + ((gasUsed - g.flatGasLimit) * g.gasPrice + 0xffff) / 2 ^ 16

def calcMaxGasThreshold (gasLimit : ℕ) : ℕ :=
  if g.flatGasLimit < gasLimit then
    g.flatGasPrice + g.gasPrice * (gasLimit - g.flatGasLimit) / 2 ^ 16
  else g.flatGasPrice

/-- The field that `read_from` computes from those it has read. -/
def maxGasThreshold : ℕ := g.calcMaxGasThreshold g.gasLimit

def calcGas (value gasLimit maxGasThreshold : ℕ) : ℕ :=
  if maxGasThreshold ≤ value then gasLimit
  else if value < g.flatGasPrice then 0
  else
    let res := (value - g.flatGasPrice) * 2 ^ 16 % 2 ^ 128 / g.gasPrice
    min ((g.flatGasLimit + res % 2 ^ 64) % 2 ^ 64) (2 ^ 56 - 1)

def limitAndThreshold : ℕ × ℕ :=
  match overrideGas a.special a.now with
  | some gasLimit => (gasLimit, g.calcMaxGasThreshold gasLimit)
  | none => (g.gasLimit, g.maxGasThreshold)

def gasMax : ℕ :=
  let limits := g.limitAndThreshold a
  if a.isSpecial then g.specialGasLimit
  else min (g.calcGas a.accBalance limits.1 limits.2) limits.1

def initGas : Vm.Gas :=
  let limits := g.limitAndThreshold a
  let gasMax := g.gasMax a
  let limit :=
    if !a.isOrdinary || a.isSpecial then gasMax
    else min gasMax (g.calcGas a.msgBalance limits.1 limits.2)
  let credit := if a.isExternal then min (min g.gasCredit gasMax) (2 ^ 24 - 1) else 0
  .new (asI64 limit) (asI64 credit) (asI64 gasMax)

def hasGas : Bool :=
  a.accBalance ≠ 0 && !((g.initGas a).gasLimit = 0 && (g.initGas a).gasCredit = 0)

/-- The part of `compute_phase` that buys gas and collects its fee: `none` when the phase
is skipped, else the balance that is left. The virtual machine reports the gas it used and
the credit that was not accepted. -/
def computePhase (vm : Vm.Gas → ℕ × ℕ) : Checked (Option ℕ) :=
  if g.hasGas a then
    let run := vm (g.initGas a)
    if 2 ^ 56 ≤ run.1 then reject "value is bigger than 7 bytes"
    else if run.2 ≠ 0 then
      if a.isExternal then reject "NoAcceptError" else pure (some a.accBalance)
    else
      let fees := if a.isSpecial then 0 else g.calcGasFee run.1
      if 2 ^ 120 ≤ fees then reject "value is bigger than 15 bytes"
      else if fees ≤ a.accBalance then pure (some (a.accBalance - fees))
      else reject "can't sub funds: from acc_balance"
  else pure none

/-- The balance is exactly the threshold of the whole limit, and the threshold has lost a
fraction of a unit. -/
def Short : Prop :=
  let limit := (g.limitAndThreshold a).1
  a.accBalance = g.calcMaxGasThreshold limit ∧ g.flatGasLimit < limit ∧ limit < 2 ^ 63 ∧
    ¬ 2 ^ 16 ∣ g.gasPrice * (limit - g.flatGasLimit)

end GasLimitsPrices

theorem asI64_cases (n : ℕ) : n < 2 ^ 63 ∧ asI64 n = n ∨ asI64 n + 2 ^ 64 = n := by
  rw [asI64]
  split_ifs with h
  · exact Or.inl ⟨h, rfl⟩
  · exact Or.inr (Int.sub_add_cancel _ _)

namespace GasLimitsPrices

variable {g : GasLimitsPrices} {a : GasRequest} {used : ℕ} (limit : ℕ)

theorem snd_limitAndThreshold :
    (g.limitAndThreshold a).2 = g.calcMaxGasThreshold (g.limitAndThreshold a).1 := by
  rw [limitAndThreshold]
  split
  · rfl
  · rfl

theorem flatGasPrice_le_threshold : g.flatGasPrice ≤ g.calcMaxGasThreshold limit := by
  rw [calcMaxGasThreshold]
  split_ifs
  · exact Nat.le_add_right _ _
  · exact le_rfl

/-- Gas that costs at most `c` units before the rounding costs no more after it. -/
theorem calcGasFee_le (k c : ℕ) (hused : used ≤ g.flatGasLimit + k)
    (hk : k * g.gasPrice ≤ c * 2 ^ 16) : g.calcGasFee used ≤ g.flatGasPrice + c := by
  rw [calcGasFee]
  split_ifs with hflat
  · exact Nat.le_add_right _ _
  · have hpaid : (used - g.flatGasLimit) * g.gasPrice ≤ k * g.gasPrice :=
      Nat.mul_le_mul_right _ (by omega)
    omega

theorem calcGas_le {value threshold : ℕ} (hlow : value < threshold)
    (hflat : g.flatGasPrice ≤ value) : g.calcGas value limit threshold ≤
      g.flatGasLimit + (value - g.flatGasPrice) * 2 ^ 16 / g.gasPrice := by
  rw [calcGas, if_neg (by omega), if_neg (by omega)]
  have hshift := Nat.mod_le ((value - g.flatGasPrice) * 2 ^ 16) (2 ^ 128)
  have hres := Nat.div_le_div_right (c := g.gasPrice) hshift
  -- the casts can only lose gas
  exact (min_le_left _ _).trans ((Nat.mod_le _ _).trans
    (Nat.add_le_add_left ((Nat.mod_le _ _).trans hres) _))

/-- The threshold of a limit pays for the gas below it, but for the fraction of a unit
that it has lost. -/
theorem calcGasFee_le_threshold (hused : used ≤ limit)
    (h : g.flatGasLimit < limit → 2 ^ 16 ∣ g.gasPrice * (limit - g.flatGasLimit) ∨
      used + 2 ^ 16 ≤ limit) : g.calcGasFee used ≤ g.calcMaxGasThreshold limit := by
  rw [calcGasFee]
  split_ifs with hflat
  · exact flatGasPrice_le_threshold limit
  · rw [calcMaxGasThreshold, if_pos (by omega), Nat.mul_comm _ g.gasPrice]
    refine Nat.add_le_add_left ?_ _
    rcases h (by omega) with hexact | hfar
    · have hless : g.gasPrice * (used - g.flatGasLimit) ≤ g.gasPrice * (limit - g.flatGasLimit) :=
        Nat.mul_le_mul_left _ (by omega)
      omega
    · have hroom : g.gasPrice * (used - g.flatGasLimit + 2 ^ 16) ≤
          g.gasPrice * (limit - g.flatGasLimit) := Nat.mul_le_mul_left _ (by omega)
      rw [Nat.mul_add] at hroom
      rcases Nat.eq_zero_or_pos g.gasPrice with hfree | hpaid
      · simp [hfree]
      · omega

section Bought

variable (hspecial : a.isSpecial = false)
include hspecial

theorem gasMax_eq : g.gasMax a = min (g.calcGas a.accBalance (g.limitAndThreshold a).1
      (g.calcMaxGasThreshold (g.limitAndThreshold a).1)) (g.limitAndThreshold a).1 := by
  rw [gasMax, ← snd_limitAndThreshold, hspecial]
  rfl

theorem flatGasPrice_le_balance (hgas : g.hasGas a = true) : g.flatGasPrice ≤ a.accBalance := by
  by_contra hpoor
  have hmax : g.gasMax a = 0 := by
    have hflat := flatGasPrice_le_threshold (g := g) (g.limitAndThreshold a).1
    rw [gasMax_eq hspecial, calcGas, if_neg (by omega), if_pos (by omega), Nat.zero_min]
  have hnone : asI64 0 = 0 := rfl
  simp [hasGas, initGas, hmax, Vm.Gas.new, hnone] at hgas

theorem calcGasFee_le_balance (hgas : g.hasGas a = true) (hshort : ¬ g.Short a)
    (hused : used ≤ (g.initGas a).gasMax) : g.calcGasFee used ≤ a.accBalance := by
  have hflat := flatGasPrice_le_balance hspecial hgas
  have hmax : (g.initGas a).gasMax = asI64 (g.gasMax a) := rfl
  have hbought := gasMax_eq (g := g) hspecial
  have hcast := asI64_cases (g.gasMax a)
  rw [hmax] at hused
  set limit := (g.limitAndThreshold a).1 with hlimit
  rcases lt_trichotomy a.accBalance (g.calcMaxGasThreshold limit) with hlow | heq | hhigh
  · -- what the balance buys by the division costs no more than the balance
    have hgas := calcGas_le limit hlow hflat
    have hfee := calcGasFee_le (g := g) _ (a.accBalance - g.flatGasPrice)
      (show used ≤ _ by omega) (Nat.div_mul_le_self _ _)
    omega
  · rw [heq]
    rw [calcGas, if_pos heq.ge, min_self] at hbought
    refine calcGasFee_le_threshold limit (by omega) fun hpaid => ?_
    by_contra hnone
    rw [not_or] at hnone
    exact hshort ⟨heq, hpaid, by omega, hnone.1⟩
  · -- the unit above the threshold pays for the rounding
    rw [calcGas, if_pos hhigh.le, min_self] at hbought
    have hfee := calcGasFee_le (g := g) (limit - g.flatGasLimit)
      (g.gasPrice * (limit - g.flatGasLimit) / 2 ^ 16 + 1) (show used ≤ _ by omega)
      (by rw [Nat.mul_comm]; omega)
    rw [calcMaxGasThreshold] at hhigh
    split_ifs at hhigh with hpaid
    · omega
    · rw [Nat.sub_eq_zero_of_le (by omega), Nat.mul_zero] at hfee
      omega

end Bought

/-- The gas that was bought can be paid for exactly when the balance is not a rounded
threshold; the fee is then always collected. -/
theorem gasFee_affordable_iff (g : GasLimitsPrices) (a : GasRequest)
    (hspecial : a.isSpecial = false) (hgas : g.hasGas a = true) :
    ((∀ used : ℕ, used ≤ (g.initGas a).gasMax → g.calcGasFee used ≤ a.accBalance) ↔ ¬ g.Short a) ∧
    (¬ g.Short a → ∀ vm : Vm.Gas → ℕ × ℕ, (vm (g.initGas a)).1 ≤ (g.initGas a).gasMax →
      g.computePhase a vm ≠ .error "can't sub funds: from acc_balance") := by
  refine ⟨⟨?_, fun hshort used => calcGasFee_le_balance hspecial hgas hshort⟩, ?_⟩
  · rintro hall ⟨heq, hlimit, hsmall, hrounded⟩
    have hmax : (g.initGas a).gasMax = (g.limitAndThreshold a).1 := by
      show asI64 (g.gasMax a) = _
      rw [gasMax_eq hspecial, calcGas, if_pos heq.ge, min_self, asI64, if_pos hsmall]
    have hwhole := hall _ hmax.ge
    rw [heq, calcGasFee, if_neg (by omega), calcMaxGasThreshold, if_pos hlimit,
      Nat.mul_comm] at hwhole
    omega
  · intro hshort vm hvm
    have hfee := calcGasFee_le_balance hspecial hgas hshort hvm
    simp only [computePhase, hgas, hspecial, hfee, if_true, if_false, Bool.false_eq_true]
    split_ifs <;> simp [reject, pure, Except.pure]

def roundedPrices : GasLimitsPrices := ⟨1000, 1000000, 1000000, 10000, 100, 40000⟩

def internalRequest (balance : ℕ) : GasRequest :=
  ⟨none, 0, balance, balance, false, false, true⟩

theorem gasFee_affordable_above_threshold : roundedPrices.calcGasFee 1000000 ≤ 55258 :=
  (gasFee_affordable_iff roundedPrices (internalRequest 55258) rfl (by decide)).1.mpr
    (fun h => absurd h.1 (by decide)) 1000000 (by decide)

/-- The whole limit of a million is granted for a balance of 55257 and costs 55258. -/
theorem gasFee_exceeds_threshold :
    (roundedPrices.initGas (internalRequest 55257)).gasLimit = 1000000 ∧
    roundedPrices.calcGasFee 1000000 = 55258 ∧
    roundedPrices.computePhase (internalRequest 55257) (fun gas => (gas.gasLimit.toNat, 0)) =
      .error "can't sub funds: from acc_balance" := by
  decide

end GasLimitsPrices

end TonNode.Executor
