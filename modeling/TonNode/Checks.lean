import Mathlib

/-! Checks that pass with a value or reject with a text, and what the success
of a composed check says about its parts. The simp lemmas turn "this check
passed" into the conjunction of its guards. -/
namespace TonNode

abbrev Checked := Except String

namespace Checked

variable {α β σ : Type} (o : Option α) (text : String)

def reject : Checked α := .error text

def require (c : Prop) [Decidable c] (text : String) : Checked Unit :=
  if c then .ok () else .error text

def present : Checked α :=
  match o with
  | some a => .ok a
  | none => .error text

def provided (c : Prop) [Decidable c] (check : Checked Unit) : Checked Unit :=
  if c then check else .ok ()

def whenPresent (check : α → Checked Unit) : Checked Unit :=
  match o with
  | some a => check a
  | none => .ok ()

variable {ε : Type} (a : α)

@[simp] theorem reject_ne_ok : (reject text : Checked α) ≠ .ok a := by
  intro h
  cases h

@[simp] theorem pure_eq_ok (b : α) : (pure a : Checked α) = .ok b ↔ a = b :=
  ⟨Except.ok.inj, congrArg Except.ok⟩

@[simp] theorem require_eq_ok (c : Prop) [Decidable c] (text : String) (u : Unit) :
    require c text = .ok u ↔ c := by
  by_cases h : c
  · simp [require, h]
  · simp [require, h]

@[simp] theorem present_eq_ok : present o text = .ok a ↔ o = some a := by
  cases o with
  | none | some b => simp [present]

@[simp] theorem whenPresent_eq_ok (check : α → Checked Unit) (u : Unit) :
    whenPresent o check = .ok u ↔ ∀ a, o = some a → check a = .ok () := by
  cases o with
  | none | some b => simp [whenPresent]

theorem exists_of_isOk {x : Checked α} (h : x.isOk = true) : ∃ a, x = .ok a := by
  cases x with
  | error e => cases h
  | ok a => exact ⟨a, rfl⟩

theorem bind_eq_ok {x : Except ε α} {f : α → Except ε β} {b : β} :
    (x >>= f) = .ok b ↔ ∃ a, x = .ok a ∧ f a = .ok b := by
  cases x with
  | error e =>
    constructor
    · intro h
      cases h
    · rintro ⟨a, ha, -⟩
      cases ha
  | ok a =>
    constructor
    · intro h
      exact ⟨a, rfl, h⟩
    · rintro ⟨a', ha, hf⟩
      cases ha
      exact hf

/-- A step whose result is returned beside a value that is there already. -/
theorem bind_pure_pair {x : Checked β} {f : β → σ} {a a' : α} {s : σ} :
    (x >>= fun b => pure (a, f b)) = .ok (a', s) ↔ a' = a ∧ ∃ b, x = .ok b ∧ s = f b := by
  simp only [bind_eq_ok, pure_eq_ok, Prod.mk.injEq]
  constructor
  · rintro ⟨b, hb, rfl, rfl⟩
    exact ⟨rfl, b, hb, rfl⟩
  · rintro ⟨rfl, b, hb, rfl⟩
    exact ⟨b, hb, rfl, rfl⟩

theorem ok_bind (f : α → Except ε β) : ((.ok a : Except ε α) >>= f) = f a := rfl

theorem seq_eq_ok {x : Except ε Unit} {f : Unit → Except ε β} {b : β} :
    (x >>= f) = .ok b ↔ x = .ok () ∧ f () = .ok b := by
  rw [bind_eq_ok]
  constructor
  · rintro ⟨⟨⟩, hx, hf⟩
    exact ⟨hx, hf⟩
  · rintro ⟨hx, hf⟩
    exact ⟨(), hx, hf⟩

theorem forM_eq_ok {l : List α} {f : α → Except ε Unit} :
    forM l f = .ok () ↔ ∀ a ∈ l, f a = .ok () := by
  induction l with
  | nil => exact iff_of_true rfl (List.forall_mem_nil _)
  | cons a l ih =>
    rw [List.forM_cons, seq_eq_ok, ih]
    simp

/-- A loop that passed its state through every round ran each round. -/
theorem foldlM_rounds {f : σ → α → Checked σ} {l : List α} {s s' : σ}
    (h : l.foldlM f s = .ok s') : ∀ a ∈ l, ∃ t t', f t a = .ok t' := by
  induction l generalizing s with
  | nil => simp
  | cons a l ih =>
    rw [List.foldlM_cons, bind_eq_ok] at h
    obtain ⟨s1, hs1, hrest⟩ := h
    intro b hb
    rcases List.mem_cons.mp hb with rfl | hb
    · exact ⟨s, s1, hs1⟩
    · exact ih hrest b hb

/-- A loop whose rounds pass independently of its state. -/
theorem foldlM_eq_ok_iff {f : σ → α → Checked σ} {P : α → Prop} {g : σ → α → σ}
    (hf : ∀ s a s', f s a = .ok s' ↔ P a ∧ g s a = s') (l : List α) (s s' : σ) :
    l.foldlM f s = .ok s' ↔ (∀ a ∈ l, P a) ∧ l.foldl g s = s' := by
  induction l generalizing s with
  | nil => simp
  | cons a l ih =>
    rw [List.foldlM_cons, bind_eq_ok]
    simp only [hf, ih, List.forall_mem_cons, List.foldl_cons]
    constructor
    · rintro ⟨t, ⟨ha, rfl⟩, hl, hfold⟩
      exact ⟨⟨ha, hl⟩, hfold⟩
    · rintro ⟨⟨ha, hl⟩, hfold⟩
      exact ⟨g s a, ⟨ha, rfl⟩, hl, hfold⟩

end Checked

end TonNode
