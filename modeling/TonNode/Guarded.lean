import TonNode.Checks

/-! Computations that may reject their input or crash, and when they do neither.
What does not crash is found by going through a computation step by step: each
step matters only if the steps before it passed. -/
namespace TonNode

/-- How a function of the node stops early: it rejects its input, or it crashes (a
panic, or in a debug build an overflow or a failed debug assertion). -/
inductive Failure where
  | rejected (text : String)
  | crashed (text : String)
deriving DecidableEq

abbrev Guarded := Except Failure

namespace Guarded

variable {α β : Type}

def check (x : Checked α) : Guarded α := x.mapError .rejected

def crash (text : String) : Guarded α := .error (.crashed text)

def addU32 (a b : ℕ) : Guarded ℕ :=
  if a + b < 2 ^ 32 then .ok (a + b) else crash "attempt to add with overflow"

def divU32 (a b : ℕ) : Guarded ℕ :=
  if b = 0 then crash "attempt to divide by zero" else .ok (a / b)

def addWithin (width a b : ℕ) : Guarded ℕ :=
  if a + b < 2 ^ width then .ok (a + b) else crash "attempt to add with overflow"

def mulWithin (width a b : ℕ) : Guarded ℕ :=
  if a * b < 2 ^ width then .ok (a * b) else crash "attempt to multiply with overflow"

def subtract (a b : ℕ) : Guarded ℕ :=
  if b ≤ a then .ok (a - b) else crash "attempt to subtract with overflow"

def index (l : List α) (i : ℕ) : Guarded α :=
  match l[i]? with
  | some a => .ok a
  | none => crash "index out of bounds"

def slice (l : List α) (start stop : ℕ) : Guarded (List α) :=
  if start ≤ stop ∧ stop ≤ l.length then .ok ((l.drop start).take (stop - start))
  else crash "range out of bounds"

def sliceFrom (l : List α) (start : ℕ) : Guarded (List α) :=
  if start ≤ l.length then .ok (l.drop start) else crash "range out of bounds"

def assert (c : Prop) [Decidable c] : Guarded Unit :=
  if c then .ok () else crash "assertion failed"

def NoCrash (x : Guarded α) : Prop := ∀ text, x ≠ .error (.crashed text)

variable {x : Guarded α} {f : α → Guarded β}

theorem bind_eq_ok {b : β} : (x >>= f) = .ok b ↔ ∃ a, x = .ok a ∧ f a = .ok b :=
  Checked.bind_eq_ok

@[simp] theorem pure_eq_ok (a b : α) : (pure a : Guarded α) = .ok b ↔ a = b :=
  ⟨Except.ok.inj, congrArg Except.ok⟩

@[simp] theorem check_eq_ok (x : Checked α) (a : α) : check x = .ok a ↔ x = .ok a := by
  cases x with
  | error e | ok b => simp [check, Except.mapError]

theorem noCrash_bind : NoCrash (x >>= f) ↔ NoCrash x ∧ ∀ a, x = .ok a → NoCrash (f a) := by
  cases x with
  | error e =>
    constructor
    · intro h
      refine ⟨?_, nofun⟩
      intro text htext
      refine h text ?_
      cases htext
      rfl
    · rintro ⟨h, -⟩ text htext
      refine h text ?_
      cases htext
      rfl
  | ok a =>
    constructor
    · intro h
      refine ⟨nofun, ?_⟩
      intro a' ha
      cases ha
      exact h
    · rintro ⟨-, h⟩
      exact h a rfl

@[simp] theorem noCrash_pure (a : α) : NoCrash (pure a : Guarded α) := by
  intro text h
  cases h

@[simp] theorem noCrash_map (f : α → β) (x : Guarded α) : NoCrash (f <$> x) ↔ NoCrash x := by
  rw [map_eq_pure_bind, noCrash_bind]
  simp

@[simp] theorem noCrash_check (x : Checked α) : NoCrash (check x) := by
  intro text h
  cases x with
  | error e | ok a => cases h

@[simp] theorem noCrash_ok (a : α) : NoCrash (.ok a : Guarded α) := noCrash_pure a

@[simp] theorem not_noCrash_crash (text : String) : ¬ NoCrash (crash text : Guarded α) :=
  fun h => h text rfl

@[simp] theorem crash_ne_ok (text : String) (a : α) : (crash text : Guarded α) ≠ .ok a := by
  intro h
  cases h

variable {a : α}

theorem noCrash_ite {c : Prop} [Decidable c] {text : String} :
    NoCrash (if c then .ok a else crash text : Guarded α) ↔ c := by
  by_cases h : c
  · rw [if_pos h]
    exact iff_of_true (noCrash_ok a) h
  · rw [if_neg h]
    exact iff_of_false (not_noCrash_crash text) h

theorem ite_eq_ok {c : Prop} [Decidable c] {b : α} {text : String} :
    (if c then .ok a else crash text : Guarded α) = .ok b ↔ c ∧ a = b := by
  by_cases h : c
  · rw [if_pos h, Except.ok.injEq, and_iff_right h]
  · rw [if_neg h]
    exact iff_of_false (crash_ne_ok text b) fun hc => h hc.1

@[simp] theorem noCrash_addU32 (a b : ℕ) : NoCrash (addU32 a b) ↔ a + b < 2 ^ 32 := noCrash_ite

@[simp] theorem addU32_eq_ok (a b c : ℕ) : addU32 a b = .ok c ↔ a + b < 2 ^ 32 ∧ a + b = c :=
  ite_eq_ok

@[simp] theorem noCrash_divU32 (a b : ℕ) : NoCrash (divU32 a b) ↔ b ≠ 0 := by
  rw [divU32, ← ite_not]
  exact noCrash_ite

@[simp] theorem divU32_eq_ok (a b c : ℕ) : divU32 a b = .ok c ↔ b ≠ 0 ∧ a / b = c := by
  rw [divU32, ← ite_not]
  exact ite_eq_ok

variable (width : ℕ)

@[simp] theorem noCrash_addWithin (a b : ℕ) :
    NoCrash (addWithin width a b) ↔ a + b < 2 ^ width := noCrash_ite

@[simp] theorem addWithin_eq_ok (a b c : ℕ) :
    addWithin width a b = .ok c ↔ a + b < 2 ^ width ∧ a + b = c := ite_eq_ok

@[simp] theorem mulWithin_eq_ok (a b c : ℕ) :
    mulWithin width a b = .ok c ↔ a * b < 2 ^ width ∧ a * b = c := ite_eq_ok

@[simp] theorem subtract_eq_ok (a b c : ℕ) : subtract a b = .ok c ↔ b ≤ a ∧ a - b = c :=
  ite_eq_ok

variable (l : List α) (start : ℕ)

@[simp] theorem noCrash_slice (stop : ℕ) :
    NoCrash (slice l start stop) ↔ start ≤ stop ∧ stop ≤ l.length := noCrash_ite

@[simp] theorem slice_eq_ok (stop : ℕ) (r : List α) : slice l start stop = .ok r ↔
      (start ≤ stop ∧ stop ≤ l.length) ∧ (l.drop start).take (stop - start) = r := ite_eq_ok

@[simp] theorem sliceFrom_eq_ok (r : List α) :
    sliceFrom l start = .ok r ↔ start ≤ l.length ∧ l.drop start = r := ite_eq_ok

@[simp] theorem noCrash_index (i : ℕ) : NoCrash (index l i) ↔ i < l.length := by
  rw [index]
  cases h : l[i]? with
  | none =>
    refine iff_of_false (not_noCrash_crash _) ?_
    exact Nat.not_lt.mpr (List.getElem?_eq_none_iff.mp h)
  | some a =>
    simp only [noCrash_ok, true_iff]
    exact (List.getElem?_eq_some_iff.mp h).1

@[simp] theorem index_eq_ok (i : ℕ) (a : α) : index l i = .ok a ↔ l[i]? = some a := by
  rw [index]
  cases h : l[i]? with
  | none | some b => simp

/-- The computation does not crash, and its result, if there is one, satisfies `post`. -/
def Safe (x : Guarded α) (post : α → Prop) : Prop := NoCrash x ∧ ∀ a, x = .ok a → post a

variable {post : α → Prop}

theorem Safe.mono {post' : α → Prop} (h : Safe x post) (hpost : ∀ a, x = .ok a → post a → post' a) :
    Safe x post' :=
  ⟨h.1, fun a ha => hpost a ha (h.2 a ha)⟩

theorem Safe.bind {postRest : β → Prop} (hx : Safe x post)
    (hf : ∀ a, x = .ok a → post a → Safe (f a) postRest) : Safe (x >>= f) postRest := by
  constructor
  · exact noCrash_bind.mpr ⟨hx.1, fun a ha => (hf a ha (hx.2 a ha)).1⟩
  · intro b hb
    obtain ⟨a, ha, hb⟩ := bind_eq_ok.mp hb
    exact (hf a ha (hx.2 a ha)).2 b hb

theorem Safe.andThen {postRest : β → Prop} (hx : Safe x fun b => b = a)
    (hf : Safe (f a) postRest) : Safe (x >>= f) postRest :=
  hx.bind fun _ _ hb => hb ▸ hf

theorem Safe.pure (h : post a) : Safe (Pure.pure a) post := by
  refine ⟨noCrash_pure a, ?_⟩
  intro b hb
  obtain rfl := (pure_eq_ok a b).mp hb
  exact h

theorem Safe.check {x : Checked α} : Safe (check x) fun a => x = .ok a :=
  ⟨noCrash_check x, fun a ha => (check_eq_ok x a).mp ha⟩

theorem range_split {n i : ℕ} {done todo : List ℕ} (h : List.range n = done ++ i :: todo) :
    i = done.length ∧ done.length < n := by
  have hi : (List.range n)[done.length]? = some i := by rw [h]; simp
  obtain ⟨hlt, heq⟩ := List.getElem?_eq_some_iff.mp hi
  rw [List.getElem_range] at heq
  rw [List.length_range] at hlt
  exact ⟨heq.symm, hlt⟩

variable {l : List α}

/-- A loop keeps what each round keeps, if no round crashes. -/
theorem Safe.foldlM {σ : Type} {f : σ → α → Guarded σ} {s : σ} (inv : List α → σ → Prop)
    (hinit : inv [] s)
    (hstep : ∀ done a todo t, l = done ++ a :: todo → inv done t →
      Safe (f t a) (inv (done ++ [a]))) : Safe (l.foldlM f s) (inv l) := by
  induction l generalizing s inv with
  | nil => exact Safe.pure hinit
  | cons a l ih =>
    rw [List.foldlM_cons]
    refine (hstep [] a l s rfl hinit).bind fun t _ ht => ?_
    refine ih (fun done u => inv (a :: done) u) ht ?_
    intro done b todo u hl hdone
    exact hstep (a :: done) b todo u (by rw [hl]; rfl) hdone

theorem foldlM_inv {σ : Type} {f : σ → α → Guarded σ} {s s' : σ} (inv : List α → σ → Prop)
    (hinit : inv [] s)
    (hstep : ∀ done a todo t t', l = done ++ a :: todo → inv done t → f t a = .ok t' →
      inv (done ++ [a]) t')
    (h : l.foldlM f s = .ok s') : inv l s' := by
  induction l generalizing s inv with
  | nil =>
    obtain rfl := (pure_eq_ok s s').mp h
    exact hinit
  | cons a l ih =>
    rw [List.foldlM_cons, bind_eq_ok] at h
    obtain ⟨t, ht, hrest⟩ := h
    refine ih (fun done u => inv (a :: done) u) (hstep [] a l s t rfl hinit ht) ?_ hrest
    intro done b todo u u' hl hdone hu
    exact hstep (a :: done) b todo u u' (by rw [hl]; rfl) hdone hu

theorem foldlM_inv_count {σ : Type} {f : σ → α → Guarded σ} {s s' : σ} (inv : ℕ → σ → Prop)
    (hinit : inv 0 s)
    (hstep : ∀ (k : ℕ) a t t', l[k]? = some a → inv k t → f t a = .ok t' → inv (k + 1) t')
    (h : l.foldlM f s = .ok s') : inv l.length s' := by
  refine foldlM_inv (fun done t => inv done.length t) hinit ?_ h
  intro done a todo t t' hl hdone hround
  rw [List.length_append, List.length_singleton]
  exact hstep done.length a t t' (by simp [hl]) hdone hround

/-- A loop over the first `n` numbers keeps what the round of each number keeps. -/
theorem foldlM_range {σ : Type} {f : σ → ℕ → Guarded σ} {s s' : σ} {n : ℕ} (inv : ℕ → σ → Prop)
    (hinit : inv 0 s) (hstep : ∀ k < n, ∀ t t', inv k t → f t k = .ok t' → inv (k + 1) t')
    (h : (List.range n).foldlM f s = .ok s') : inv n s' := by
  have hlast := foldlM_inv_count inv hinit ?_ h
  · rwa [List.length_range] at hlast
  · intro k a t t' ha ht hround
    obtain ⟨hk, rfl⟩ := List.getElem?_eq_some_iff.mp ha
    rw [List.length_range] at hk
    rw [List.getElem_range] at hround
    exact hstep k hk t t' ht hround

theorem forM_eq_ok {f : α → Guarded Unit} :
    forM l f = .ok () ↔ ∀ a ∈ l, f a = .ok () := Checked.forM_eq_ok

theorem mapM_eq_ok {r : List β} : l.mapM f = .ok r ↔ List.Forall₂ (fun a b => f a = .ok b) l r := by
  induction l generalizing r with
  | nil =>
    rw [List.mapM_nil, pure_eq_ok, List.forall₂_nil_left_iff]
    exact eq_comm
  | cons a l ih =>
    simp only [List.mapM_cons, bind_eq_ok, pure_eq_ok, ih, List.forall₂_cons_left_iff]
    constructor
    · rintro ⟨b, hb, bs, hbs, rfl⟩
      exact ⟨b, bs, hb, hbs, rfl⟩
    · rintro ⟨b, bs, hb, hbs, rfl⟩
      exact ⟨b, hb, bs, hbs, rfl⟩

theorem noCrash_mapM : NoCrash (l.mapM f) ↔
      ∀ pre a post, l = pre ++ a :: post → (∀ b ∈ pre, ∃ c, f b = .ok c) → NoCrash (f a) := by
  induction l with
  | nil => simp
  | cons a l ih =>
    rw [List.mapM_cons, noCrash_bind]
    constructor
    · rintro ⟨ha, hrest⟩ pre c post heq hpre
      cases pre with
      | nil =>
        obtain ⟨rfl, -⟩ := List.cons.inj heq
        exact ha
      | cons b pre =>
        obtain ⟨rfl, rfl⟩ := List.cons.inj heq
        obtain ⟨b', hb'⟩ := hpre a (by simp)
        have hl := (noCrash_bind.mp (hrest b' hb')).1
        exact ih.mp hl pre c post rfl fun b hb => hpre b (by simp [hb])
    · intro h
      refine ⟨h [] a l rfl (by simp), ?_⟩
      intro b hb
      refine noCrash_bind.mpr ⟨ih.mpr ?_, fun bs _ => noCrash_pure _⟩
      intro pre c post heq hpre
      refine h (a :: pre) c post (by rw [heq]; rfl) ?_
      intro d hd
      rcases List.mem_cons.mp hd with rfl | hd
      · exact ⟨b, hb⟩
      · exact hpre d hd

theorem forM_eq_mapM (l : List α) (f : α → Guarded Unit) :
    forM l f = l.mapM f >>= fun _ => pure () := by
  induction l with
  | nil => rfl
  | cons a l ih => simp only [List.forM_cons, List.mapM_cons, ih, bind_assoc, pure_bind]

/-- A loop does not crash when no round does that is reached. -/
theorem noCrash_forM {f : α → Guarded Unit} : NoCrash (forM l f) ↔
      ∀ pre a post, l = pre ++ a :: post → (∀ b ∈ pre, f b = .ok ()) → NoCrash (f a) := by
  rw [forM_eq_mapM, noCrash_bind, and_iff_left fun _ _ => noCrash_pure _, noCrash_mapM]
  simp only [Unique.exists_iff]

end Guarded

end TonNode
