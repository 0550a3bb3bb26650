import TonNode.Guarded

/-! Storage fees. The loop over the price list charges every entry up to the start of the
next one, also when that start is still ahead. The build is a debug build, in which an
overflow is a crash. -/
namespace TonNode.Executor

open Guarded

structure StoragePrices where
  utimeSince : ℕ
  bitPricePs : ℕ
  cellPricePs : ℕ
  mcBitPricePs : ℕ
  mcCellPricePs : ℕ

/-- What an account stores, and on which chain. -/
structure StorageUsage where
  cells : ℕ
  bits : ℕ
  isMasterchain : Bool

namespace StorageUsage

variable (u : StorageUsage) (now : ℕ) (prices : List StoragePrices)

def bitPrice (p : StoragePrices) : ℕ := if u.isMasterchain then p.mcBitPricePs else p.bitPricePs

def cellPrice (p : StoragePrices) : ℕ := if u.isMasterchain then p.mcCellPricePs else p.cellPricePs

def calcStorageFeePart (p : StoragePrices) (delta : ℕ) : Guarded ℕ := do
  let total ← addWithin 128 (u.bits * u.bitPrice p) (u.cells * u.cellPrice p)
  pure (delta * total)

/-- Where the interval of an entry ends, given the entries after it. -/
def intervalEnd : List StoragePrices → ℕ
  | [] => now
  | next :: _ => next.utimeSince

def Ordered : Prop :=
  prices.Pairwise fun a b => a.utimeSince ≤ b.utimeSince

def feeLoop : List StoragePrices → ℕ → ℕ → Guarded ℕ
  | [], _, fee => pure fee
  | p :: rest, lastPaid, fee =>
    if lastPaid ≤ intervalEnd now rest then do
      let delta ← subtract (intervalEnd now rest) (max p.utimeSince lastPaid)
      let part ← u.calcStorageFeePart p delta
      feeLoop rest (intervalEnd now rest) (fee + part)
    else feeLoop rest lastPaid fee

def roundUp (fee : ℕ) : ℕ := (fee + 0xffff) / 2 ^ 16

def firstStart : ℕ := prices.head?.elim 0 (·.utimeSince)

def calcStorageFees (lastPaid : ℕ) : Guarded ℕ :=
  if now ≤ lastPaid ∨ lastPaid = 0 ∨ prices = [] ∨ now ≤ firstStart prices then pure 0
  else do
    let fee ← u.feeLoop now prices lastPaid 0
    check (Checked.require (roundUp fee < 2 ^ 128) "out of range integral type conversion")
    pure (roundUp fee)

def rate (p : StoragePrices) : ℕ := u.bits * u.bitPrice p + u.cells * u.cellPrice p

def entryAt (t : ℕ) : Option StoragePrices :=
  prices.reverse.find? (·.utimeSince ≤ t)

def charge (start stop : ℕ) : ℕ :=
  ∑ t ∈ Finset.Ico start stop, (entryAt prices t).elim 0 u.rate

/-- The entries whose price the loop multiplies out. -/
def due : List StoragePrices → ℕ → List StoragePrices
  | [], _ => []
  | p :: rest, lastPaid =>
    if lastPaid ≤ intervalEnd now rest then p :: due rest (intervalEnd now rest)
    else due rest lastPaid

def chargedUntil : ℕ :=
  max now (prices.getLast?.elim 0 (·.utimeSince))

/-- The prices from now to the last entry add nothing, and the amounts are in range. -/
def Settled (lastPaid : ℕ) : Prop :=
  firstStart prices < now → (∀ p ∈ due now prices lastPaid, u.rate p < 2 ^ 128) ∧
    roundUp (u.charge prices (max lastPaid (firstStart prices)) (chargedUntil now prices)) =
      roundUp (u.charge prices (max lastPaid (firstStart prices)) now) ∧
    roundUp (u.charge prices (max lastPaid (firstStart prices)) now) < 2 ^ 128

variable {u now prices} {p q : StoragePrices} {rest : List StoragePrices} {lastPaid start stop : ℕ}

theorem entryAt_cons (t : ℕ) :
    entryAt (p :: rest) t = (entryAt rest t).or (if p.utimeSince ≤ t then some p else none) := by
  rw [entryAt, List.reverse_cons, List.find?_append, entryAt]
  simp [List.find?_singleton]

/-- After the start of the next entry the first one has no say. -/
theorem charge_tail (h : q.utimeSince ≤ start) :
    u.charge (p :: q :: rest) start stop = u.charge (q :: rest) start stop := by
  refine Finset.sum_congr rfl fun t ht => ?_
  rw [entryAt_cons, entryAt_cons, if_pos (h.trans (Finset.mem_Ico.mp ht).1)]
  cases entryAt rest t with
  | none | some _ => rfl

theorem charge_head (hp : p.utimeSince ≤ start) (hrest : ∀ q ∈ rest, stop ≤ q.utimeSince) :
    u.charge (p :: rest) start stop = (stop - start) * u.rate p := by
  rw [charge, Finset.sum_congr rfl (g := fun _ => u.rate p), Finset.sum_const, Nat.card_Ico,
    smul_eq_mul]
  intro t ht
  obtain ⟨hstart, hstop⟩ := Finset.mem_Ico.mp ht
  have hnone : entryAt rest t = none := by
    rw [entryAt, List.find?_eq_none]
    intro q hq
    have hq := hrest q (List.mem_reverse.mp hq)
    simp only [decide_eq_true_eq]
    omega
  rw [entryAt_cons, hnone, if_pos (hp.trans hstart)]
  rfl

theorem charge_append {mid : ℕ} (h : start ≤ mid) (h' : mid ≤ stop) :
    u.charge prices start mid + u.charge prices mid stop = u.charge prices start stop :=
  Finset.sum_Ico_consecutive _ h h'

theorem utimeSince_le_chargedUntil (hs : Ordered (q :: rest)) :
    q.utimeSince ≤ chargedUntil now (q :: rest) := by
  rw [chargedUntil, List.getLast?_eq_some_getLast (List.cons_ne_nil q rest)]
  refine le_max_of_le_right ?_
  rcases List.mem_cons.mp (List.getLast_mem (List.cons_ne_nil q rest)) with h | h
  · rw [h]
    rfl
  · exact (List.pairwise_cons.mp hs).1 _ h

theorem round_of_le (u : StorageUsage) (fee v : ℕ) (hend : intervalEnd now rest = stop)
    (h : lastPaid ≤ stop)
    (hp : p.utimeSince ≤ stop) : due now (p :: rest) lastPaid = p :: due now rest stop ∧
    (u.feeLoop now (p :: rest) lastPaid fee = .ok v ↔ u.rate p < 2 ^ 128 ∧
      u.feeLoop now rest stop (fee + (stop - max p.utimeSince lastPaid) * u.rate p) = .ok v) := by
  subst hend
  rw [due, if_pos h, feeLoop, if_pos h]
  simp only [calcStorageFeePart, bind_eq_ok, subtract_eq_ok, addWithin_eq_ok, pure_eq_ok]
  refine ⟨trivial, ?_, ?_⟩
  · rintro ⟨_, ⟨-, rfl⟩, _, ⟨_, ⟨hrate, rfl⟩, rfl⟩, hrest⟩
    exact ⟨hrate, hrest⟩
  · rintro ⟨hrate, hrest⟩
    exact ⟨_, ⟨max_le hp h, rfl⟩, _, ⟨_, ⟨hrate, rfl⟩, rfl⟩, hrest⟩

theorem round_of_lt (u : StorageUsage) (fee : ℕ) (hend : intervalEnd now rest = stop)
    (h : stop < lastPaid) :
    due now (p :: rest) lastPaid = due now rest lastPaid ∧
    u.feeLoop now (p :: rest) lastPaid fee = u.feeLoop now rest lastPaid fee := by
  subst hend
  rw [due, if_neg (by omega), feeLoop, if_neg (by omega)]
  exact ⟨rfl, rfl⟩

/-- The loop charges everything from the last payment to now, and on to the last entry. -/
theorem feeLoop_eq_ok {fee v : ℕ} (hs : Ordered (p :: rest))
    (hnow : lastPaid ≤ now → p.utimeSince ≤ now) : u.feeLoop now (p :: rest) lastPaid fee = .ok v ↔
      (∀ e ∈ due now (p :: rest) lastPaid, u.rate e < 2 ^ 128) ∧
      fee + u.charge (p :: rest) (max p.utimeSince lastPaid) (chargedUntil now (p :: rest)) = v := by
  induction rest generalizing p lastPaid fee with
  | nil =>
    have hend : intervalEnd now [] = now := rfl
    have hlast : chargedUntil now [p] = max now p.utimeSince := rfl
    rcases le_or_gt lastPaid now with h | h
    · obtain ⟨hdue, hround⟩ := round_of_le u fee v hend h (hnow h)
      rw [hdue, hround, hlast, max_eq_left (hnow h), charge_head (le_max_left _ _) (by simp)]
      simp [due, feeLoop]
    · obtain ⟨hdue, hround⟩ := round_of_lt (p := p) u fee hend h
      rw [hdue, hround, charge, hlast, Finset.Ico_eq_empty (by omega)]
      simp [due, feeLoop]
  | cons q rest ih =>
    obtain ⟨hle, hs⟩ := List.pairwise_cons.mp hs
    have hpq := hle q List.mem_cons_self
    have hend : intervalEnd now (q :: rest) = q.utimeSince := rfl
    have hlast : chargedUntil now (p :: q :: rest) = chargedUntil now (q :: rest) := rfl
    rcases le_or_gt lastPaid q.utimeSince with h | h
    · obtain ⟨hdue, hround⟩ := round_of_le u fee v hend h hpq
      have hnext : ∀ e ∈ q :: rest, q.utimeSince ≤ e.utimeSince :=
        List.forall_mem_cons.mpr ⟨le_rfl, (List.pairwise_cons.mp hs).1⟩
      rw [hdue, hround, ih hs id, max_self, hlast, List.forall_mem_cons, and_assoc,
        ← charge_append (max_le hpq h) (utimeSince_le_chargedUntil hs), charge_tail le_rfl,
        charge_head (le_max_left _ _) hnext, Nat.add_assoc]
    · obtain ⟨hdue, hround⟩ := round_of_lt (p := p) u fee hend h
      rw [hdue, hround, ih hs (by omega), hlast, max_eq_right h.le, max_eq_right (hpq.trans h.le),
        charge_tail h.le]

theorem calcStorageFees_eq_ok_iff (hs : Ordered prices) (hpaid : 0 < lastPaid)
    (hlt : lastPaid < now) : u.calcStorageFees now prices lastPaid =
      .ok (roundUp (u.charge prices (max lastPaid (firstStart prices)) now)) ↔
      u.Settled now prices lastPaid := by
  rw [calcStorageFees, Settled]
  cases prices with
  | nil =>
    have hnone (start stop : ℕ) : u.charge [] start stop = 0 := Finset.sum_const_zero
    simp [hnone, due, roundUp]
  | cons p rest =>
    have hfirst : firstStart (p :: rest) = p.utimeSince := rfl
    rw [hfirst]
    rcases le_or_gt now p.utimeSince with h | h
    · rw [if_pos (by omega), charge, Finset.Ico_eq_empty (by omega)]
      simp [roundUp, h.not_gt]
    · rw [if_neg (by simp; omega), max_comm]
      simp only [bind_eq_ok, feeLoop_eq_ok hs fun _ => h.le, Nat.zero_add, check_eq_ok,
        Checked.require_eq_ok, pure_eq_ok, h, forall_const]
      constructor
      · rintro ⟨_, ⟨hdue, rfl⟩, _, hrange, heq⟩
        exact ⟨hdue, heq, heq ▸ hrange⟩
      · rintro ⟨hdue, heq, hrange⟩
        exact ⟨_, ⟨hdue, rfl⟩, (), heq ▸ hrange, heq⟩

theorem charge_split {s : ℕ} (h : lastPaid ≤ s) (h' : s ≤ now) (first : ℕ)
    (prices : List StoragePrices) : u.charge prices (max lastPaid first) now =
      u.charge prices (max lastPaid first) s + u.charge prices (max s first) now := by
  rcases le_or_gt first s with hfirst | hfirst
  · rw [max_eq_left hfirst, charge_append (max_le h hfirst) h']
  · rw [max_eq_right hfirst.le, max_eq_right (h.trans hfirst.le), charge,
      charge, Finset.Ico_eq_empty (show ¬ first < s by omega), Finset.sum_empty, Nat.zero_add]

/-- The fee is the integral exactly when what is charged ahead of time is nothing, and then
a payment in between costs at most one unit. -/
theorem storageFees_integral_iff (u : StorageUsage) {prices : List StoragePrices}
    (hs : Ordered prices) {lastPaid now : ℕ} (hpaid : 0 < lastPaid) (hlt : lastPaid < now) :
    (u.calcStorageFees now prices lastPaid =
      .ok (roundUp (u.charge prices (max lastPaid (firstStart prices)) now)) ↔
      u.Settled now prices lastPaid) ∧
    ∀ s f f₁ f₂, lastPaid < s → s < now → u.Settled now prices lastPaid →
      u.Settled s prices lastPaid → u.Settled now prices s →
      u.calcStorageFees now prices lastPaid = .ok f → u.calcStorageFees s prices lastPaid = .ok f₁ →
      u.calcStorageFees now prices s = .ok f₂ → f ≤ f₁ + f₂ ∧ f₁ + f₂ ≤ f + 1 := by
  refine ⟨calcStorageFees_eq_ok_iff hs hpaid hlt, ?_⟩
  intro s f f₁ f₂ hs₁ hs₂ hall hbefore hafter h h₁ h₂
  have hall := h.symm.trans ((calcStorageFees_eq_ok_iff hs hpaid hlt).mpr hall)
  have hbefore := h₁.symm.trans ((calcStorageFees_eq_ok_iff hs hpaid hs₁).mpr hbefore)
  have hafter := h₂.symm.trans ((calcStorageFees_eq_ok_iff hs (hpaid.trans hs₁) hs₂).mpr hafter)
  have hsplit := charge_split (u := u) hs₁.le hs₂.le (firstStart prices) prices
  rw [Except.ok.injEq, roundUp] at hall hbefore hafter
  omega

/-- The fee is never less than the price integral up to now, whatever prices start later. -/
theorem storageFees_ge_integral (u : StorageUsage) {prices : List StoragePrices}
    (hs : Ordered prices) {lastPaid now fee : ℕ} (hpaid : 0 < lastPaid) (hlt : lastPaid < now)
    (h : u.calcStorageFees now prices lastPaid = .ok fee) :
    roundUp (u.charge prices (max lastPaid (firstStart prices)) now) ≤ fee := by
  rw [calcStorageFees] at h
  cases prices with
  | nil =>
    have hnone : u.charge [] (max lastPaid (firstStart [])) now = 0 := Finset.sum_const_zero
    rw [hnone]
    exact Nat.zero_le fee
  | cons p rest =>
    have hfirst : firstStart (p :: rest) = p.utimeSince := rfl
    rw [hfirst] at h ⊢
    rcases le_or_gt now p.utimeSince with hp | hp
    · rw [charge, Finset.Ico_eq_empty (by omega), Finset.sum_empty]
      exact Nat.zero_le fee
    · rw [if_neg (by simp; omega)] at h
      simp only [bind_eq_ok, feeLoop_eq_ok hs fun _ => hp.le, Nat.zero_add, check_eq_ok,
        pure_eq_ok] at h
      obtain ⟨_, ⟨-, rfl⟩, -, -, rfl⟩ := h
      -- the charge goes on to the last entry
      rw [chargedUntil, max_comm lastPaid, ← charge_append (max_le hp.le hlt.le) (le_max_left now _)]
      exact Nat.div_le_div_right (Nat.add_le_add_right (Nat.le_add_right _ _) _)

def oneCell : StorageUsage := ⟨1, 0, false⟩

def paidEntry : StoragePrices := ⟨1, 0, 2 ^ 16, 0, 0⟩

def laterEntry : StoragePrices := ⟨10, 0, 0, 0, 0⟩

def halvedEntry : StoragePrices := ⟨10, 0, 2 ^ 15, 0, 0⟩

/-- A payment at 13 between the payments at 2 and at 20 costs one unit more. -/
theorem storageFees_integral_two_entries :
    oneCell.calcStorageFees 20 [paidEntry, halvedEntry] 2 = .ok 13 ∧
      oneCell.calcStorageFees 13 [paidEntry, halvedEntry] 2 = .ok 10 ∧
      oneCell.calcStorageFees 20 [paidEntry, halvedEntry] 13 = .ok 4 ∧
      13 ≤ 10 + 4 ∧ 10 + 4 ≤ 13 + 1 := by
  have hs : Ordered [paidEntry, halvedEntry] := List.pairwise_pair.mpr (by decide)
  have hiff := storageFees_integral_iff oneCell hs (show 0 < 2 by decide)
    (show 2 < 20 by decide)
  have hall : oneCell.Settled 20 _ 2 := hiff.1.mp (by decide)
  have hbefore : oneCell.Settled 13 _ 2 :=
    (calcStorageFees_eq_ok_iff hs (by decide) (by decide)).mp (by decide)
  have hafter : oneCell.Settled 20 _ 13 :=
    (calcStorageFees_eq_ok_iff hs (by decide) (by decide)).mp (by decide)
  exact ⟨by decide, by decide, by decide, hiff.2 13 13 10 4 (by decide) (by decide) hall hbefore
    hafter (by decide) (by decide) (by decide)⟩

theorem storageFees_ge_integral_two_entries :
    roundUp (oneCell.charge [paidEntry, laterEntry] (max 2 1) 5) ≤ 8 :=
  storageFees_ge_integral oneCell (List.pairwise_pair.mpr (by decide)) (by decide) (by decide)
    (show oneCell.calcStorageFees 5 [paidEntry, laterEntry] 2 = .ok 8 by decide)

/-- Three seconds have passed, and the eight to the next entry are charged. -/
theorem storageFees_ahead_of_time : oneCell.calcStorageFees 5 [paidEntry, laterEntry] 2 = .ok 8 ∧
    roundUp (oneCell.charge [paidEntry, laterEntry] (max 2 1) 5) = 3 := by
  decide

end StorageUsage

end TonNode.Executor
