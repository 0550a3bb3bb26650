import Mathlib

/-! Runs of marked numbers. A finite set of boundaries finds the end of a run
without a scan, and labels carried to the ends of runs survive new marks. -/
namespace SkipRuns

variable {S S' : ℕ → Prop} {a n x : ℕ}

structure RunEnd (S : ℕ → Prop) (a n : ℕ) : Prop where
  le : a ≤ n
  run : ∀ k, a ≤ k → k < n → S k
  free : ¬ S n

theorem RunEnd.unique {m : ℕ} (h : RunEnd S a n) (h' : RunEnd S a m) : n = m := by
  rcases Nat.lt_trichotomy n m with hlt | heq | hgt
  · exact absurd (h'.run n h.le hlt) h.free
  · exact heq
  · exact absurd (h.run m h'.le hgt) h'.free

theorem exists_runEnd (bound : ℕ) (hb : ∀ k, bound ≤ k → ¬ S k) (a : ℕ) : ∃ n, RunEnd S a n := by
  classical
  have hex : ∃ n, a ≤ n ∧ ¬ S n := ⟨max a bound, le_max_left _ _, hb _ (le_max_right _ _)⟩
  refine ⟨Nat.find hex, (Nat.find_spec hex).1, fun k hk hlt => ?_, (Nat.find_spec hex).2⟩
  by_contra hS
  exact Nat.find_min hex hlt ⟨hk, hS⟩

theorem RunEnd.succ (h : RunEnd S a n) (hlt : a < n) : RunEnd S (a + 1) n :=
  ⟨hlt, fun k hk hkn => h.run k (by omega) hkn, h.free⟩

theorem RunEnd.from {b : ℕ} (h : RunEnd S a n) (hab : a ≤ b) (hbn : b ≤ n) : RunEnd S b n :=
  ⟨hbn, fun k hk hkn => h.run k (hab.trans hk) hkn, h.free⟩

structure Boundaries (S : ℕ → Prop) (I : Finset ℕ) : Prop where
  mem : ∀ k, S k → ¬ S (k + 1) → k + 1 ∈ I
  free : ∀ n ∈ I, ¬ S n

/-- The end of a run is the least boundary after its start. -/
theorem Boundaries.runEnd_mem {I : Finset ℕ} (hI : Boundaries S I) (ha : S a)
    (h : RunEnd S a n) : n ∈ I := by
  have hne : a ≠ n := fun he => h.free (he ▸ ha)
  have hlt : a < n := lt_of_le_of_ne h.le hne
  obtain ⟨m, rfl⟩ := Nat.exists_eq_add_of_lt hlt
  exact hI.mem (a + m) (h.run _ (Nat.le_add_right _ _) (Nat.lt_succ_self _)) h.free

theorem Boundaries.runEnd_of_least {I : Finset ℕ} (hI : Boundaries S I) (ha : S a)
    (hex : ∃ m, RunEnd S a m) (hn : n ∈ I) (han : a ≤ n) (hleast : ∀ m ∈ I, a ≤ m → n ≤ m) :
    RunEnd S a n := by
  obtain ⟨m, hm⟩ := hex
  have hnm : n ≤ m := hleast m (hI.runEnd_mem ha hm) hm.le
  rcases Nat.eq_or_lt_of_le hnm with rfl | hlt
  · exact hm
  · exact absurd (hm.run n han hlt) (hI.free n hn)

structure Exact (S : ℕ → Prop) (first : ℕ) (forgotten : Prop) (I : Finset ℕ) : Prop where
  mem : ∀ k, first ≤ k + 1 → S k → ¬ S (k + 1) → k + 1 ∈ I
  free : ∀ n ∈ I, ¬ S n
  starts : ∀ n ∈ I, first ≤ n ∧ ∃ k, n = k + 1 ∧ (S k ∨ n = first ∧ forgotten)

section Exact

variable {first : ℕ} {forgotten forgotten' : Prop} {I I' : Finset ℕ}

section

variable (h : Exact S first forgotten I)
include h

theorem Exact.boundaries : Boundaries (fun k => first ≤ k ∧ S k) I := by
  refine ⟨fun k hk hk1 => ?_, fun n hn hS => h.free n hn hS.2⟩
  have hle : first ≤ k + 1 := hk.1.trans (Nat.le_succ k)
  exact h.mem k hle hk.2 fun hS => hk1 ⟨hle, hS⟩

theorem Exact.mem_iff (hn : n = first → ¬ forgotten) :
    n ∈ I ↔ first ≤ n ∧ ¬ S n ∧ ∃ k, n = k + 1 ∧ S k := by
  constructor
  · intro hm
    obtain ⟨hle, k, rfl, hk⟩ := h.starts n hm
    exact ⟨hle, h.free _ hm, k, rfl, hk.resolve_right fun hf => hn hf.1 hf.2⟩
  · rintro ⟨hle, hfree, k, rfl, hk⟩
    exact h.mem k hle hk hfree

/-- Marking `x` drops the boundary `x` and adds its successor if that is free. -/
theorem Exact.mark (hS : ∀ k, S' k ↔ S k ∨ k = x) (hx : first ≤ x) (hkeep : ∀ m ∈ I, m ≠ x → m ∈ I')
    (hnew : ¬ S (x + 1) → x + 1 ∈ I') (honly : ∀ m ∈ I', m ∈ I ∧ m ≠ x ∨ m = x + 1 ∧ ¬ S (x + 1)) :
    Exact S' first forgotten I' := by
  refine ⟨fun k hle hk hk1 => ?_, fun m hm hSm => ?_, fun m hm => ?_⟩
  · have hfree : ¬ S (k + 1) := fun h => hk1 ((hS _).mpr (Or.inl h))
    have hnex : k + 1 ≠ x := fun h => hk1 ((hS _).mpr (Or.inr h))
    rcases (hS k).mp hk with hold | rfl
    · exact hkeep _ (h.mem k hle hold hfree) hnex
    · exact hnew hfree
  · rcases honly m hm with ⟨hmem, hne⟩ | ⟨rfl, hfree⟩
    · exact ((hS m).mp hSm).elim (h.free m hmem) hne
    · exact ((hS _).mp hSm).elim hfree (Nat.succ_ne_self x)
  · rcases honly m hm with ⟨hmem, -⟩ | ⟨rfl, -⟩
    · obtain ⟨hle, k, hk, hstart⟩ := h.starts m hmem
      exact ⟨hle, k, hk, hstart.imp_left fun hSk => (hS k).mpr (Or.inl hSk)⟩
    · exact ⟨hx.trans (Nat.le_succ x), x, rfl, Or.inl ((hS x).mpr (Or.inr rfl))⟩

end

theorem Exact.raise {bound : ℕ} (h : Exact S first forgotten I) (hlt : first < bound)
    (hI' : ∀ m, m ∈ I' ↔ m ∈ I ∧ bound ≤ m) : Exact S bound forgotten' I' := by
  refine ⟨fun k hle hk hk1 => ?_, fun m hm => h.free m ((hI' m).mp hm).1, fun m hm => ?_⟩
  · exact (hI' _).mpr ⟨h.mem k (hlt.le.trans hle) hk hk1, hle⟩
  · obtain ⟨hmem, hle⟩ := (hI' m).mp hm
    obtain ⟨-, k, hk, hstart⟩ := h.starts m hmem
    refine ⟨hle, k, hk, Or.inl (hstart.resolve_right fun hf => ?_)⟩
    have := hf.1
    omega

theorem Exact.forget (h : Exact S first forgotten I) (hsub : ∀ k, S' k → S k)
    (hkeep : ∀ k, first ≤ k → S k → S' k) (hf : forgotten → forgotten')
    (hlast : ∀ k, first = k + 1 → S k → S' k ∨ forgotten') : Exact S' first forgotten' I := by
  refine ⟨fun k hle hk hk1 => ?_, fun m hm hSm => h.free m hm (hsub m hSm), fun m hm => ?_⟩
  · exact h.mem k hle (hsub k hk) fun hS => hk1 (hkeep _ hle hS)
  · obtain ⟨hle, k, rfl, hstart⟩ := h.starts m hm
    refine ⟨hle, k, rfl, ?_⟩
    rcases hstart with hSk | ⟨heq, hgone⟩
    · by_cases hk : first ≤ k
      · exact Or.inl (hkeep k hk hSk)
      · have heq : first = k + 1 := by omega
        exact (hlast k heq hSk).imp_right fun hgone => ⟨heq.symm, hgone⟩
    · exact Or.inr ⟨heq, hf hgone⟩

end Exact

def Labelled (S A : ℕ → Prop) (label : ℕ → Option ℕ) : Prop :=
  ∀ a n, A a → RunEnd S a n → ∃ v, label n = some v ∧ a ≤ v

variable {A A' : ℕ → Prop} {label label' : ℕ → Option ℕ}

def Raises (label label' : ℕ → Option ℕ) : Prop :=
  ∀ n v, label n = some v → ∃ v', label' n = some v' ∧ v ≤ v'

section

variable (h : Labelled S A label)
include h

theorem Labelled.raise (hr : Raises label label') : Labelled S A label' := by
  intro a n ha hn
  obtain ⟨v, hv, hav⟩ := h a n ha hn
  obtain ⟨v', hv', hle⟩ := hr n v hv
  exact ⟨v', hv', hav.trans hle⟩

theorem Labelled.mono (hA : ∀ a, A' a → A a) : Labelled S A' label :=
  fun a n ha hn => h a n (hA a ha) hn

theorem Labelled.congr (hS : ∀ a, A a → ∀ k, a ≤ k → (S' k ↔ S k)) : Labelled S' A label := by
  intro a n ha hn
  refine h a n ha ⟨hn.le, fun k hk hkn => (hS a ha k hk).mp (hn.run k hk hkn), fun hSn => ?_⟩
  exact hn.free ((hS a ha n hn.le).mpr hSn)

theorem Labelled.insert {b m v : ℕ} (hend : RunEnd S b m)
    (hv : label m = some v) (hbv : b ≤ v) : Labelled S (fun a => A a ∨ a = b) label := by
  rintro a n (ha | rfl) hn
  · exact h a n ha hn
  · obtain rfl := hn.unique hend
    exact ⟨v, hv, hbv⟩

end

/-- What a run in the new marks was in the old ones. -/
theorem RunEnd.of_mark (hS : ∀ k, S' k ↔ S k ∨ k = x) (h : RunEnd S' a n) :
    RunEnd S a n ∨ a ≤ x ∧ x < n ∧ RunEnd S a x := by
  classical
  have hfree : ¬ S n := fun hn => h.free ((hS n).mpr (Or.inl hn))
  by_cases hold : ∀ k, a ≤ k → k < n → S k
  · exact Or.inl ⟨h.le, hold, hfree⟩
  · -- some number of the run is marked only now, so it is `x`
    push Not at hold
    obtain ⟨k, hk, hkn, hSk⟩ := hold
    obtain rfl : k = x := ((hS k).mp (h.run k hk hkn)).resolve_left hSk
    refine Or.inr ⟨hk, hkn, hk, fun j hj hjk => ?_, hSk⟩
    exact ((hS j).mp (h.run j hj (hjk.trans hkn))).resolve_right hjk.ne

section

variable (h : Labelled S A label) (hS : ∀ k, S' k ↔ S k ∨ k = x)
include h hS

/-- Marking an unlabelled number: no anchor's run ended there. -/
theorem Labelled.mark_unlabelled (hx : label x = none) : Labelled S' A label := by
  intro a n ha hn
  rcases hn.of_mark hS with hold | ⟨-, -, hend⟩
  · exact h a n ha hold
  · obtain ⟨v, hv, -⟩ := h a x ha hend
    rw [hx] at hv
    cases hv

/-- Marking a labelled number and moving its label to the end of the run. -/
theorem Labelled.mark {m v v' : ℕ}
    (hx : label x = some v) (hend : RunEnd S' (x + 1) m) (hm : label' m = some v') (hvv : v ≤ v')
    (hr : Raises label label') : Labelled S' A label' := by
  intro a n ha hn
  rcases hn.of_mark hS with hold | ⟨hax, hxn, hendx⟩
  · exact h.raise hr a n ha hold
  · obtain rfl := (hn.from (hax.trans (Nat.le_succ x)) hxn).unique hend
    obtain ⟨w, hw, haw⟩ := h a x ha hendx
    rw [hx] at hw
    obtain rfl := Option.some.inj hw
    exact ⟨v', hm, haw.trans hvv⟩

end

/-- Walking from an anchor over marks and anchors ends at a label no smaller
than any anchor passed. -/
theorem Labelled.walk {first c : ℕ} (h : Labelled S A label) (hA : A first) (hle : first ≤ c)
    (hwalk : ∀ k, first ≤ k → k < c → S k ∨ A (k + 1)) (hfree : ¬ S c) :
    ∃ v, label c = some v ∧ ∀ a, A a → a ≤ c → a ≤ v := by
  classical
  -- the greatest anchor up to `c`; the run from it reaches `c`
  set g := Nat.findGreatest A c
  have hAg : A g := Nat.findGreatest_spec hle hA
  have hgc : g ≤ c := Nat.findGreatest_le c
  have hmax (a : ℕ) (ha : A a) (hac : a ≤ c) : a ≤ g := Nat.le_findGreatest hac ha
  have hrun : RunEnd S g c := by
    refine ⟨hgc, fun k hk hkc => ?_, hfree⟩
    refine (hwalk k ((hmax first hA hle).trans hk) hkc).resolve_right fun hAk => ?_
    have hkg := hmax (k + 1) hAk hkc
    omega
  obtain ⟨v, hv, hgv⟩ := h g c hAg hrun
  exact ⟨v, hv, fun a ha hac => (hmax a ha hac).trans hgv⟩

end SkipRuns
