import TonNode.Guarded

/-! Computations that may reject or crash, with the largest number of calls that were open
at once, also when they stop early. -/
namespace TonNode

structure Nested (α : Type) where
  result : Guarded α
  height : ℕ

namespace Nested

open Guarded

variable {α β σ : Type} {a : α} {n : ℕ}

instance : Monad Nested where
  pure a := ⟨.ok a, 0⟩
  bind x f :=
    match x.result with
    | .ok a => ⟨(f a).result, max x.height (f a).height⟩
    | .error e => ⟨.error e, x.height⟩

def free (x : Guarded α) : Nested α := ⟨x, 0⟩

def require (c : Prop) [Decidable c] (text : String) : Nested Unit :=
  free (check (Checked.require c text))

def call (x : Nested α) : Nested α := ⟨x.result, x.height + 1⟩

theorem bind_of_ok {x : Nested α} (h : x.result = .ok a) (f : α → Nested β) :
    x >>= f = ⟨(f a).result, max x.height (f a).height⟩ := by
  change (match x.result with | .ok a => _ | .error e => _ : Nested β) = _
  rw [h]

theorem bind_of_error {x : Nested α} {e : Failure} (h : x.result = .error e) (f : α → Nested β) :
    x >>= f = ⟨.error e, x.height⟩ := by
  change (match x.result with | .ok a => _ | .error e => _ : Nested β) = _
  rw [h]

theorem height_free_bind {x : Guarded α} (h : x = .ok a) (f : α → Nested β) :
    (free x >>= f).height = (f a).height := by
  rw [bind_of_ok (show (free x).result = .ok a from h)]
  exact Nat.zero_max _

theorem height_le_bind (x : Nested α) (f : α → Nested β) : x.height ≤ (x >>= f).height := by
  cases h : x.result with
  | ok a =>
    rw [bind_of_ok h]
    exact Nat.le_max_left _ _
  | error e => rw [bind_of_error h]

/-- At most `n` calls are open at once, the computation does not crash, and its result, if
there is one, satisfies `post`. -/
structure Spec (x : Nested α) (n : ℕ) (post : α → Prop) : Prop where
  height_le : x.height ≤ n
  noCrash : NoCrash x.result
  post_of_ok : ∀ a, x.result = .ok a → post a

variable {post : α → Prop} {postRest : β → Prop} {f : α → Nested β}

theorem Spec.free {x : Guarded α} (h : Safe x post) : Spec (free x) n post :=
  ⟨Nat.zero_le n, h.1, h.2⟩

theorem Spec.pure (h : post a) : Spec (Pure.pure a) n post := Spec.free (Safe.pure h)

theorem Spec.call {x : Nested α} (h : Spec x n post) : Spec (call x) (n + 1) post :=
  ⟨Nat.succ_le_succ h.height_le, h.noCrash, h.post_of_ok⟩

/-- A sequence: the second part matters only where the first gave a result. -/
theorem Spec.bind {x : Nested α} (hx : Spec x n post)
    (hf : ∀ a, post a → Spec (f a) n postRest) : Spec (x >>= f) n postRest := by
  cases h : x.result with
  | ok a =>
    have hrest := hf a (hx.post_of_ok a h)
    rw [bind_of_ok h]
    exact ⟨Nat.max_le.mpr ⟨hx.height_le, hrest.height_le⟩, hrest.noCrash, hrest.post_of_ok⟩
  | error e =>
    rw [bind_of_error h]
    refine ⟨hx.height_le, fun text heq => hx.noCrash text ?_, fun b hb => by cases hb⟩
    rw [h, Except.error.inj heq]

theorem Spec.freeThen {x : Guarded α} (hx : Safe x post)
    (hf : ∀ a, post a → Spec (f a) n postRest) : Spec (Nested.free x >>= f) n postRest :=
  (Spec.free hx).bind hf

theorem Spec.requireThen {c : Prop} [Decidable c] {text : String} {f : Unit → Nested β}
    (hf : c → Spec (f ()) n postRest) : Spec (Nested.require c text >>= f) n postRest :=
  (Spec.free Safe.check).bind fun _ hc => hf ((Checked.require_eq_ok _ _ _).mp hc)

/-- A loop: what holds of the state may mention the elements already gone through. -/
theorem Spec.foldlM {f : σ → α → Nested σ} {l : List α} {s : σ} (inv : List α → σ → Prop)
    (hinit : inv [] s)
    (hstep : ∀ done a todo t, l = done ++ a :: todo → inv done t →
      Spec (f t a) n (inv (done ++ [a]))) : Spec (l.foldlM f s) n (inv l) := by
  induction l generalizing s inv with
  | nil => exact Spec.pure hinit
  | cons a l ih =>
    rw [List.foldlM_cons]
    refine (hstep [] a l s rfl hinit).bind fun t ht => ?_
    refine ih (fun done u => inv (a :: done) u) ht ?_
    intro done b todo u hl hdone
    exact hstep (a :: done) b todo u (by rw [hl]; rfl) hdone

end Nested

end TonNode
