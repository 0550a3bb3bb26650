import TonNode.Checks
import TonNode.SortedMap

/-! Currency collections: an amount of coins and a dictionary of extra
currencies. Additions report an overflow in a flag and leave the amount as it
was; a value too long for its cell is an error. -/
namespace TonNode.Block

open Checked

structure CurrencyCollection where
  coins : ℕ
  other : SortedMap ℕ ℕ
deriving DecidableEq

namespace CurrencyCollection

def zero : CurrencyCollection := ⟨0, .empty⟩

def fromCoins (coins : ℕ) : CurrencyCollection := ⟨coins, .empty⟩

def amount (c : CurrencyCollection) : Option ℕ → ℕ
  | none => c.coins
  | some id => (c.other.get id).getD 0

def isZero (c : CurrencyCollection) : Bool :=
  c.coins = 0 && c.other.entries.all fun e => e.2 = 0

end CurrencyCollection

def coinsTryFrom (value : ℕ) : Checked ℕ := do
  require (value < 2 ^ 120) "value is bigger than 15 bytes"
  pure value

def addCoins (a b : ℕ) : ℕ × Bool := if a + b < 2 ^ 120 then (a + b, true) else (a, false)

def addVarUInteger32 (a b : ℕ) : ℕ × Bool := if a + b < 2 ^ 256 then (a + b, true) else (a, false)

def setOther (other : SortedMap ℕ ℕ) (id value : ℕ) : Checked (SortedMap ℕ ℕ) := do
  require (value < 2 ^ 248) "serialization of VarUInteger32 error"
  pure (other.insert id value)

def addOtherStep (self : SortedMap ℕ ℕ) (acc : SortedMap ℕ ℕ × Bool) (e : ℕ × ℕ) :
    Checked (SortedMap ℕ ℕ × Bool) :=
  match self.get e.1 with
  | some a => do
    let result ← setOther acc.1 e.1 (addVarUInteger32 a e.2).1
    pure (result, acc.2 && (addVarUInteger32 a e.2).2)
  | none => do
    let result ← setOther acc.1 e.1 e.2
    pure (result, acc.2)

def subOther (self : SortedMap ℕ ℕ) : List (ℕ × ℕ) → Checked (SortedMap ℕ ℕ × Bool)
  | [] => pure (self, true)
  | (id, b) :: rest =>
    match self.get id with
    | some a =>
      if b ≤ a then do
        let self ← setOther self id (a - b)
        subOther self rest
      else pure (self, false)
    | none => pure (self, false)

namespace CurrencyCollection

def add (a b : CurrencyCollection) : Checked (CurrencyCollection × Bool) := do
  let other ← b.other.entries.foldlM (addOtherStep a.other) (a.other, (addCoins a.coins b.coins).2)
  pure (⟨(addCoins a.coins b.coins).1, other.1⟩, other.2)

def sub (a b : CurrencyCollection) : Checked (CurrencyCollection × Bool) :=
  if b.coins ≤ a.coins then do
    let other ← subOther a.other b.other.entries
    pure (⟨a.coins - b.coins, other.1⟩, other.2)
  else pure (a, false)

def combine (a b : CurrencyCollection) : Option CurrencyCollection :=
  match a.add b with
  | .ok (c, true) => some c
  | _ => none

end CurrencyCollection

structure DepthBalanceInfo where
  splitDepth : ℕ
  balance : CurrencyCollection
deriving DecidableEq

namespace DepthBalanceInfo

def zero : DepthBalanceInfo := ⟨0, .zero⟩

def combine (a b : DepthBalanceInfo) : Option DepthBalanceInfo :=
  (a.balance.combine b.balance).map fun balance => ⟨max a.splitDepth b.splitDepth, balance⟩

end DepthBalanceInfo

structure ImportFees where
  feesCollected : ℕ
  valueImported : CurrencyCollection
deriving DecidableEq

namespace ImportFees

def zero : ImportFees := ⟨0, .zero⟩

end ImportFees

theorem setOther_eq_ok {m m' : SortedMap ℕ ℕ} {id value : ℕ} :
    setOther m id value = .ok m' ↔ value < 2 ^ 248 ∧ m.insert id value = m' := by
  simp only [setOther, seq_eq_ok, require_eq_ok, pure_eq_ok]

theorem addOtherStep_ok {self : SortedMap ℕ ℕ} {acc acc' : SortedMap ℕ ℕ × Bool} {e : ℕ × ℕ}
    (h : addOtherStep self acc e = .ok acc') (hok : acc'.2 = true) :
    acc.2 = true ∧ acc'.1 = acc.1.insert e.1 ((self.get e.1).getD 0 + e.2) := by
  unfold addOtherStep at h
  cases hget : self.get e.1 with
  | none =>
    simp only [hget, bind_eq_ok, setOther_eq_ok, pure_eq_ok] at h
    obtain ⟨m, ⟨-, rfl⟩, rfl⟩ := h
    exact ⟨hok, by simp⟩
  | some a =>
    simp only [hget, bind_eq_ok, setOther_eq_ok, pure_eq_ok] at h
    obtain ⟨m, ⟨-, rfl⟩, rfl⟩ := h
    simp only [Bool.and_eq_true, addVarUInteger32] at hok
    obtain ⟨hacc, hfit⟩ := hok
    split_ifs at hfit with hlt
    exact ⟨hacc, by simp only [addVarUInteger32, if_pos hlt, Option.getD_some]⟩

theorem addOther_foldlM {self : SortedMap ℕ ℕ} {l : List (ℕ × ℕ)}
    (hl : l.Pairwise fun a b => a.1 < b.1) {acc acc' : SortedMap ℕ ℕ × Bool}
    (h : l.foldlM (addOtherStep self) acc = .ok acc') (hok : acc'.2 = true) :
    acc.2 = true ∧ ∀ id, acc'.1.get id =
      match SortedMap.find id l with
      | some v => some ((self.get id).getD 0 + v)
      | none => acc.1.get id := by
  induction l generalizing acc with
  | nil =>
    cases h
    exact ⟨hok, fun id => rfl⟩
  | cons e l ih =>
    obtain ⟨hhead, htail⟩ := List.pairwise_cons.mp hl
    rw [List.foldlM_cons, bind_eq_ok] at h
    obtain ⟨acc1, hstep, hrest⟩ := h
    obtain ⟨hok1, hget⟩ := ih htail hrest
    obtain ⟨hacc, hinsert⟩ := addOtherStep_ok hstep hok1
    refine ⟨hacc, fun id => ?_⟩
    rw [hget id, hinsert, SortedMap.get_insert]
    by_cases hid : id = e.1
    · -- later entries have larger keys, so the first one is the only one
      have hnone : SortedMap.find id l = none :=
        SortedMap.find_eq_none_of_lt fun e' he' => hid ▸ hhead e' he'
      simp [SortedMap.find, hid, hid ▸ hnone]
    · simp [SortedMap.find, hid]

namespace CurrencyCollection

theorem amount_add {a b c : CurrencyCollection} (h : a.add b = .ok (c, true)) :
    c.amount = a.amount + b.amount := by
  simp only [add, bind_eq_ok, pure_eq_ok, Prod.mk.injEq] at h
  obtain ⟨other, hfold, hc, hok⟩ := h
  obtain ⟨hcoins, hget⟩ := addOther_foldlM b.other.sorted hfold hok
  have hcoins' : (addCoins a.coins b.coins).1 = a.coins + b.coins := by
    simp only [addCoins] at hcoins ⊢
    split_ifs at hcoins ⊢ with hlt
    rfl
  funext id
  subst hc
  cases id with
  | none => exact hcoins'
  | some id =>
    have hb : b.other.get id = SortedMap.find id b.other.entries := rfl
    simp only [amount, Pi.add_apply, hget id, hb]
    cases SortedMap.find id b.other.entries with
    | none | some v => simp

theorem amount_combine {a b c : CurrencyCollection} (h : a.combine b = some c) :
    c.amount = a.amount + b.amount := by
  unfold combine at h
  split at h
  · rename_i d hadd
    cases h
    exact amount_add hadd
  · cases h

@[simp] theorem amount_zero : amount zero = 0 := by
  funext id
  cases id with
  | none | some id => rfl

end CurrencyCollection

theorem DepthBalanceInfo.amount_combine {a b c : DepthBalanceInfo} (h : a.combine b = some c) :
    c.balance.amount = a.balance.amount + b.balance.amount := by
  obtain ⟨balance, hbalance, rfl⟩ := Option.map_eq_some_iff.mp h
  exact CurrencyCollection.amount_combine hbalance

end TonNode.Block
