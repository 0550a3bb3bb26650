import Mathlib

/-! Fallible computations: a postcondition for the value and one for the error. -/
namespace TonNode

/-- `x` is a value that satisfies `P` or an error that satisfies `Q`. -/
def Outcome {ε α : Type} (Q : ε → Prop) (P : α → Prop) : Except ε α → Prop
  | .ok a => P a
  | .error e => Q e

abbrev Yields {ε α : Type} (P : α → Prop) (x : Except ε α) : Prop := Outcome (fun _ => True) P x

namespace Outcome

variable {ε α σ : Type} {Q : ε → Prop} {P P' : α → Prop} {x : Except ε α}

@[elab_as_elim]
theorem elim {motive : Except ε α → Prop} (x : Except ε α) (h : Outcome Q P x)
    (error : ∀ e, Q e → motive (.error e)) (ok : ∀ a, P a → motive (.ok a)) : motive x := by
  cases x with
  | error e => exact error e h
  | ok a => exact ok a h

theorem mono (h : Outcome Q P x) (hP : ∀ a, P a → P' a) : Outcome Q P' x :=
  elim x h (fun _ he => he) hP

theorem map {β : Type} {R : β → Prop} {f : α → β} (h : Outcome Q P x)
    (hf : ∀ a, P a → R (f a)) : Outcome Q R (x.map f) :=
  elim x h (fun _ he => he) hf

theorem bind {β : Type} {R : β → Prop} {f : α → Except ε β} (h : Outcome Q P x)
    (hf : ∀ a, P a → Outcome Q R (f a)) : Outcome Q R (x >>= f) :=
  elim x h (fun _ he => he) hf

theorem of_eq {a : α} (hx : x = .ok a) (h : P a) : Outcome Q P x := by
  rw [hx]
  exact h

theorem of_total (h : Outcome (fun _ => False) P x) : Outcome Q P x :=
  elim x h (fun _ he => he.elim) fun _ ha => ha

theorem exists_ok (h : Outcome (fun _ => False) P x) : ∃ a, x = .ok a ∧ P a :=
  elim x h (fun _ he => he.elim) fun a ha => ⟨a, rfl, ha⟩

theorem of_ok {a : α} (h : Outcome Q P x) (hx : x = .ok a) : P a := by
  rw [hx] at h
  exact h

theorem yields (h : ∀ a, x = .ok a → P a) : Yields P x := by
  cases x with
  | error e => trivial
  | ok a => exact h a rfl

theorem foldlM {I : σ → Prop} {f : σ → α → Except ε σ} (l : List α) {s : σ} (hs : I s)
    (hf : ∀ s, ∀ a ∈ l, I s → Outcome Q I (f s a)) : Outcome Q I (l.foldlM f s) := by
  induction l generalizing s with
  | nil => exact hs
  | cons a l ih =>
    rw [List.foldlM_cons]
    refine elim (f s a) (hf s a List.mem_cons_self hs) (fun e he => he) fun s1 hs1 => ?_
    exact ih hs1 fun s b hb => hf s b (List.mem_cons_of_mem a hb)

end Outcome

end TonNode
