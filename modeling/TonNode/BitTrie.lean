import Mathlib

/-! Compressed binary tries over strings of bits: every edge carries a label, and
only forks have two subtrees. All keys of a trie have one length. A trie is
determined by the partial map it stands for, so any two ways to build the same map
give the same trie. -/
namespace TonNode

def commonPrefix : List Bool → List Bool → List Bool × List Bool × List Bool
  | a :: as, b :: bs =>
    if a = b then
      let rest := commonPrefix as bs
      (a :: rest.1, rest.2)
    else ([], a :: as, b :: bs)
  | [], bs => ([], [], bs)
  | as, [] => ([], as, [])

variable (p as bs : List Bool)

@[simp] theorem commonPrefix_append :
    commonPrefix (p ++ as) (p ++ bs) = (p ++ (commonPrefix as bs).1, (commonPrefix as bs).2) := by
  induction p with
  | nil => rfl
  | cons a p ih => simp [commonPrefix, ih]

@[simp] theorem commonPrefix_nil_left : commonPrefix [] bs = ([], [], bs) := by
  simp [commonPrefix]

@[simp] theorem commonPrefix_nil_right : commonPrefix as [] = ([], as, []) := by
  cases as with
  | nil => rfl
  | cons a as => simp [commonPrefix]

@[simp] theorem commonPrefix_not (b : Bool) (as bs : List Bool) :
    commonPrefix (b :: as) ((!b) :: bs) = ([], b :: as, (!b) :: bs) := by
  cases b with
  | false | true => simp [commonPrefix]

theorem commonPrefix_self_append : commonPrefix p (p ++ bs) = (p, [], bs) := by
  have h := commonPrefix_append p [] bs
  simpa using h

@[simp] theorem commonPrefix_self : commonPrefix p p = (p, [], []) := by
  have h := commonPrefix_self_append p []
  simpa using h

theorem commonPrefix_append_self : commonPrefix (p ++ as) p = (p, as, []) := by
  have h := commonPrefix_append p as []
  simpa using h

theorem commonPrefix_diverge (b : Bool) :
    commonPrefix (p ++ b :: as) (p ++ (!b) :: bs) = (p, b :: as, (!b) :: bs) := by
  simp

/-- Two strings: one continues the other, or they part at some bit. -/
theorem prefix_cases : (∃ x, bs = as ++ x) ∨ (∃ b x, as = bs ++ b :: x) ∨
      ∃ p b x y, as = p ++ b :: x ∧ bs = p ++ (!b) :: y := by
  induction as generalizing bs with
  | nil => exact .inl ⟨bs, rfl⟩
  | cons a as ih =>
    cases bs with
    | nil => exact .inr (.inl ⟨a, as, rfl⟩)
    | cons b bs =>
      by_cases hab : a = b
      · subst hab
        rcases ih bs with ⟨x, rfl⟩ | ⟨b, x, rfl⟩ | ⟨p, b, x, y, rfl, rfl⟩
        · exact .inl ⟨x, rfl⟩
        · exact .inr (.inl ⟨b, x, rfl⟩)
        · exact .inr (.inr ⟨a :: p, b, x, y, rfl, rfl⟩)
      · have hb : b = !a := by
          cases a with
          | false | true => simpa using hab
        subst hb
        exact .inr (.inr ⟨[], a, as, bs, rfl, rfl⟩)

theorem prefix_cases_of_length {as bs : List Bool} (h : as.length ≤ bs.length) :
    (∃ x, bs = as ++ x) ∨ ∃ p b x y, as = p ++ b :: x ∧ bs = p ++ (!b) :: y := by
  rcases prefix_cases as bs with hx | ⟨b, x, rfl⟩ | hp
  · exact .inl hx
  · simp only [List.length_append, List.length_cons] at h
    omega
  · exact .inr hp

theorem append_diverge_ne (x y : List Bool) (b : Bool) : p ++ b :: x ≠ p ++ (!b) :: y := by
  intro h
  have := List.append_cancel_left h
  simp at this

inductive BitTrie (α : Type) where
  | leaf (label : List Bool) (value : α)
  | fork (label : List Bool) (left right : BitTrie α)
deriving DecidableEq

namespace BitTrie

variable {α : Type}

def child (left right : BitTrie α) (bit : Bool) : BitTrie α := if bit then right else left

@[simp] theorem child_false (l r : BitTrie α) : child l r false = l := rfl

@[simp] theorem child_true (l r : BitTrie α) : child l r true = r := rfl

def WF : ℕ → BitTrie α → Prop
  | n, leaf label _ => label.length = n
  | n, fork label l r => ∃ m, label.length + 1 + m = n ∧ l.WF m ∧ r.WF m

variable {l r : BitTrie α}

theorem WF.of_fork {n m : ℕ} {label : List Bool} (h : (fork label l r).WF n)
    (hm : label.length + 1 + m = n) : l.WF m ∧ r.WF m := by
  obtain ⟨k, hk, hl, hr⟩ := h
  obtain rfl : k = m := by omega
  exact ⟨hl, hr⟩

theorem WF.side {m : ℕ} (hl : l.WF m) (hr : r.WF m) (bit : Bool) :
    (child l r bit).WF m := by
  cases bit with
  | false => exact hl
  | true => exact hr

def forkAt (label : List Bool) (bit : Bool) (t u : BitTrie α) : BitTrie α :=
  if bit then fork label u t else fork label t u

def prepend (pre : List Bool) : BitTrie α → BitTrie α
  | leaf label value => leaf (pre ++ label) value
  | fork label l r => fork (pre ++ label) l r

def join (label : List Bool) : Option (BitTrie α) → Option (BitTrie α) → Option (BitTrie α)
  | none, none => none
  | some l, some r => some (fork label l r)
  | some l, none => some (l.prepend (label ++ [false]))
  | none, some r => some (r.prepend (label ++ [true]))

def joinAt (label : List Bool) (bit : Bool) (t u : Option (BitTrie α)) : Option (BitTrie α) :=
  if bit then join label u t else join label t u

def label : BitTrie α → List Bool
  | leaf label _ => label
  | fork label _ _ => label

def get : BitTrie α → List Bool → Option α
  | leaf label value, key => if key = label then some value else none
  | fork label l r, key =>
    match (commonPrefix label key).2 with
    | ([], false :: rest) => l.get rest
    | ([], true :: rest) => r.get rest
    | _ => none

def put (key : List Bool) (value : α) : BitTrie α → BitTrie α
  | leaf label old =>
    match commonPrefix label key with
    | (_, [], []) => leaf label value
    | (p, bit :: label', _ :: key') => forkAt p bit (leaf label' old) (leaf key' value)
    | _ => leaf label old
  | fork label l r =>
    match commonPrefix label key with
    | (_, [], false :: rest) => fork label (l.put rest value) r
    | (_, [], true :: rest) => fork label l (r.put rest value)
    | (p, bit :: label', _ :: key') => forkAt p bit (fork label' l r) (leaf key' value)
    | _ => fork label l r

def erase (key : List Bool) : BitTrie α → Option (BitTrie α)
  | leaf label value => if key = label then none else some (leaf label value)
  | fork label l r =>
    match commonPrefix label key with
    | (_, [], false :: rest) => join label (l.erase rest) (some r)
    | (_, [], true :: rest) => join label (some l) (r.erase rest)
    | _ => some (fork label l r)

def getOpt (t : Option (BitTrie α)) (key : List Bool) : Option α := t.bind fun t => t.get key

@[simp] theorem getOpt_none (key : List Bool) : getOpt (none : Option (BitTrie α)) key = none := rfl

@[simp] theorem getOpt_some (t : BitTrie α) (key : List Bool) : getOpt (some t) key = t.get key := rfl

section Get

theorem get_leaf (label : List Bool) (value : α) (key : List Bool) :
    (leaf label value).get key = if key = label then some value else none := rfl

@[simp] theorem get_leaf_self (label : List Bool) (value : α) :
    (leaf label value).get label = some value := by
  simp [get]

@[simp] theorem get_fork_append (label : List Bool) (l r : BitTrie α) (bit : Bool)
    (rest : List Bool) : (fork label l r).get (label ++ bit :: rest) = (child l r bit).get rest := by
  rw [get, commonPrefix_self_append]
  cases bit with
  | false | true => rfl

variable {n : ℕ} {label key : List Bool}

theorem get_fork_eq_none (h : ∀ bit rest, key ≠ label ++ bit :: rest) :
    (fork label l r).get key = none := by
  rw [get]
  rcases prefix_cases label key with ⟨x, rfl⟩ | ⟨b, x, rfl⟩ | ⟨p, b, x, y, rfl, rfl⟩
  · cases x with
    | nil => rw [List.append_nil, commonPrefix_self]
    | cons b x => exact absurd rfl (h b x)
  · rw [commonPrefix_append_self]
  · rw [commonPrefix_diverge]

theorem get_fork_eq_some {v : α} : (fork label l r).get key = some v ↔
      ∃ bit rest, key = label ++ bit :: rest ∧ (child l r bit).get rest = some v := by
  constructor
  · intro h
    by_contra hno
    push Not at hno
    by_cases hkey : ∃ bit rest, key = label ++ bit :: rest
    · obtain ⟨bit, rest, rfl⟩ := hkey
      rw [get_fork_append] at h
      exact hno bit rest rfl h
    · push Not at hkey
      rw [get_fork_eq_none hkey] at h
      cases h
  · rintro ⟨bit, rest, rfl, hget⟩
    rw [get_fork_append]
    exact hget

variable {t : BitTrie α}

theorem WF.length_of_get (h : t.WF n) {key : List Bool} {v : α} (hget : t.get key = some v) :
    key.length = n := by
  induction t generalizing n key with
  | leaf label value =>
    rw [get_leaf] at hget
    split_ifs at hget with hkey
    rw [hkey]
    exact h
  | fork label l r ihl ihr =>
    obtain ⟨m, hm, hl, hr⟩ := h
    obtain ⟨bit, rest, rfl, hrest⟩ := get_fork_eq_some.mp hget
    have hlen : rest.length = m := by
      cases bit with
      | false => exact ihl hl hrest
      | true => exact ihr hr hrest
    simp only [List.length_append, List.length_cons]
    omega

variable (pre : List Bool)

@[simp] theorem get_prepend_append (rest : List Bool) (t : BitTrie α) :
    (t.prepend pre).get (pre ++ rest) = t.get rest := by
  cases t with
  | leaf label value => simp [prepend, get]
  | fork label l r =>
    rw [prepend, get, get, commonPrefix_append]

theorem get_prepend_eq_some {pre key : List Bool} {t : BitTrie α} {v : α} :
    (t.prepend pre).get key = some v ↔ ∃ rest, key = pre ++ rest ∧ t.get rest = some v := by
  constructor
  · intro h
    have hkey : ∃ rest, key = pre ++ rest := by
      cases t with
      | leaf label value =>
        rw [prepend, get_leaf] at h
        split_ifs at h with hkey
        exact ⟨label, hkey⟩
      | fork label l r =>
        obtain ⟨bit, rest, hkey, -⟩ := get_fork_eq_some.mp h
        exact ⟨label ++ bit :: rest, by rw [hkey, List.append_assoc]⟩
    obtain ⟨rest, rfl⟩ := hkey
    exact ⟨rest, rfl, by rw [get_prepend_append] at h; exact h⟩
  · rintro ⟨rest, rfl, hget⟩
    rw [get_prepend_append]
    exact hget

theorem get_prepend_eq_none {pre k : List Bool} {t : BitTrie α} (h : ∀ rest, k ≠ pre ++ rest) :
    (t.prepend pre).get k = none := by
  by_contra hsome
  obtain ⟨v, hv⟩ := Option.ne_none_iff_exists'.mp hsome
  obtain ⟨rest, hkey, -⟩ := get_prepend_eq_some.mp hv
  exact h rest hkey

/-- An edge leads to the keys that go on with its last bit. -/
theorem get_prepend_cons (p rest : List Bool) (b bit : Bool) (t : BitTrie α) :
    (t.prepend (p ++ [b])).get (p ++ bit :: rest) = if bit = b then t.get rest else none := by
  split_ifs with hb
  · rw [hb, List.append_cons p b rest, get_prepend_append]
  · apply get_prepend_eq_none
    intro x hx
    rw [← List.append_cons] at hx
    exact hb (List.cons.inj (List.append_cancel_left hx)).1

theorem prepend_nil (t : BitTrie α) : t.prepend [] = t := by
  cases t with
  | leaf label value | fork label l r => rfl

theorem prepend_append (pre' : List Bool) (t : BitTrie α) :
    (t.prepend pre').prepend pre = t.prepend (pre ++ pre') := by
  cases t with
  | leaf label value | fork label l r => simp [prepend]

theorem WF.prepend {m : ℕ} {t : BitTrie α} (h : t.WF m) (pre : List Bool) :
    (t.prepend pre).WF (pre.length + m) := by
  cases t with
  | leaf label value =>
    simp only [WF, BitTrie.prepend, List.length_append] at h ⊢
    omega
  | fork label l r =>
    obtain ⟨m', hm, hl, hr⟩ := h
    refine ⟨m', ?_, hl, hr⟩
    simp only [List.length_append]
    omega

theorem label_prepend (t : BitTrie α) : (t.prepend pre).label = pre ++ t.label := by
  cases t with
  | leaf label value | fork label l r => rfl

theorem WF.length_label_le (h : t.WF n) : t.label.length ≤ n := by
  cases t with
  | leaf label value => exact le_of_eq h
  | fork label l r =>
    obtain ⟨m, hm, -, -⟩ := h
    show label.length ≤ n
    omega

theorem WF.eq_leaf (h : t.WF n) (hlabel : t.label.length = n) :
    ∃ value, t = leaf t.label value := by
  cases t with
  | leaf label value => exact ⟨value, rfl⟩
  | fork label l r =>
    obtain ⟨m, hm, -, -⟩ := h
    have : label.length = n := hlabel
    omega

theorem WF.eq_fork (h : t.WF n) (hlabel : t.label.length < n) : ∃ l r, t = fork t.label l r := by
  cases t with
  | leaf label value =>
    have hlen : label.length = n := h
    have : label.length < n := hlabel
    omega
  | fork label l r => exact ⟨l, r, rfl⟩

theorem WF.exists_prepend (h : t.WF n) {pre rest : List Bool} (hlabel : t.label = pre ++ rest) :
    ∃ (u : BitTrie α) (m : ℕ), t = u.prepend pre ∧ u.label = rest ∧ u.WF m ∧ pre.length + m = n := by
  cases t with
  | leaf label value =>
    have hrest : label = pre ++ rest := hlabel
    have hlen : label.length = n := h
    subst hrest
    rw [List.length_append] at hlen
    exact ⟨leaf rest value, rest.length, rfl, rfl, rfl, hlen⟩
  | fork label l r =>
    have hrest : label = pre ++ rest := hlabel
    obtain ⟨m, hm, hl, hr⟩ := h
    subst hrest
    rw [List.length_append] at hm
    exact ⟨fork rest l r, rest.length + 1 + m, rfl, rfl, ⟨m, rfl, hl, hr⟩, by omega⟩

def childOpt (l r : Option (BitTrie α)) (bit : Bool) : Option (BitTrie α) := if bit then r else l

@[simp] theorem getOpt_join_append (label : List Bool) (l r : Option (BitTrie α)) (bit : Bool)
    (rest : List Bool) :
    getOpt (join label l r) (label ++ bit :: rest) = getOpt (childOpt l r bit) rest := by
  cases l with
  | none =>
    cases r with
    | none => cases bit <;> rfl
    | some r => cases bit <;> simp [join, childOpt, get_prepend_cons]
  | some l =>
    cases r with
    | none => cases bit <;> simp [join, childOpt, get_prepend_cons]
    | some r => cases bit <;> simp [join, childOpt]

theorem getOpt_join_eq_some {l r : Option (BitTrie α)} {v : α} :
    getOpt (join label l r) key = some v ↔
      ∃ bit rest, key = label ++ bit :: rest ∧ getOpt (childOpt l r bit) rest = some v := by
  constructor
  · intro h
    have hkey : ∃ bit rest, key = label ++ bit :: rest := by
      cases l with
      | none =>
        cases r with
        | none => cases h
        | some r =>
          obtain ⟨x, hx, -⟩ := get_prepend_eq_some.mp h
          exact ⟨true, x, by rw [hx, List.append_assoc]; rfl⟩
      | some l =>
        cases r with
        | none =>
          obtain ⟨x, hx, -⟩ := get_prepend_eq_some.mp h
          exact ⟨false, x, by rw [hx, List.append_assoc]; rfl⟩
        | some r =>
          obtain ⟨bit, rest, hkey, -⟩ := get_fork_eq_some.mp h
          exact ⟨bit, rest, hkey⟩
    obtain ⟨bit, rest, rfl⟩ := hkey
    exact ⟨bit, rest, rfl, by rw [getOpt_join_append] at h; exact h⟩
  · rintro ⟨bit, rest, rfl, hget⟩
    rw [getOpt_join_append]
    exact hget

section

variable (p : List Bool) (bit : Bool)

theorem joinAt_not (t u : Option (BitTrie α)) : joinAt p (!bit) t u = joinAt p bit u t := by
  cases bit with
  | false | true => rfl

theorem some_prepend_eq_joinAt (t : BitTrie α) :
    some (t.prepend (p ++ [bit])) = joinAt p bit (some t) none := by
  cases bit with
  | false | true => rfl

theorem getOpt_joinAt_append (t u : Option (BitTrie α)) (b : Bool)
    (rest : List Bool) : getOpt (joinAt p bit t u) (p ++ b :: rest) =
      if b = bit then getOpt t rest else getOpt u rest := by
  cases bit with
  | false =>
    rw [joinAt, if_neg Bool.false_ne_true, getOpt_join_append]
    cases b with
    | false | true => rfl
  | true =>
    rw [joinAt, if_pos rfl, getOpt_join_append]
    cases b with
    | false | true => rfl

end

theorem getOpt_joinAt_eq_none {p key : List Bool} {bit : Bool} {t u : Option (BitTrie α)}
    (h : ∀ b rest, key ≠ p ++ b :: rest) : getOpt (joinAt p bit t u) key = none := by
  have hjoin : ∀ l r : Option (BitTrie α), getOpt (join p l r) key = none := by
    intro l r
    rw [Option.eq_none_iff_forall_ne_some]
    intro v hv
    obtain ⟨b, rest, hkey, -⟩ := getOpt_join_eq_some.mp hv
    exact h b rest hkey
  rw [joinAt]
  split_ifs
  · exact hjoin u t
  · exact hjoin t u

def WFOpt (n : ℕ) (t : Option (BitTrie α)) : Prop := ∀ u, t = some u → u.WF n

theorem wfOpt_some : WFOpt n (some t) ↔ t.WF n := by
  constructor
  · intro h
    exact h t rfl
  · rintro h u hu
    cases hu
    exact h

theorem wfOpt_none : WFOpt n (none : Option (BitTrie α)) := by
  intro u hu
  cases hu

theorem wfOpt_map_leaf (hlabel : label.length = n) {value : Option α} :
    WFOpt n (value.map (leaf label)) := by
  cases value with
  | none => exact wfOpt_none
  | some value => exact wfOpt_some.mpr hlabel

theorem wfOpt_join {m : ℕ} {l r : Option (BitTrie α)} (hl : WFOpt m l) (hr : WFOpt m r) :
    WFOpt (label.length + 1 + m) (join label l r) := by
  have hside : ∀ (b : Bool) (t : BitTrie α), WFOpt m (some t) →
      WFOpt (label.length + 1 + m) (some (t.prepend (label ++ [b]))) := by
    intro b t ht
    have h := (wfOpt_some.mp ht).prepend (label ++ [b])
    rw [List.length_append, List.length_singleton] at h
    exact wfOpt_some.mpr h
  cases l with
  | none =>
    cases r with
    | none => exact wfOpt_none
    | some r => exact hside true r hr
  | some l =>
    cases r with
    | none => exact hside false l hl
    | some r => exact wfOpt_some.mpr ⟨m, rfl, wfOpt_some.mp hl, wfOpt_some.mp hr⟩

theorem wfOpt_joinAt {p : List Bool} {bit : Bool} {m : ℕ} {t u : Option (BitTrie α)}
    (ht : WFOpt m t) (hu : WFOpt m u) : WFOpt (p.length + 1 + m) (joinAt p bit t u) := by
  rw [joinAt]
  split_ifs
  · exact wfOpt_join hu ht
  · exact wfOpt_join ht hu

end Get

section Canonical

variable {n : ℕ}

theorem WF.exists_get {t : BitTrie α} (h : t.WF n) : ∃ key v, t.get key = some v := by
  induction t generalizing n with
  | leaf label value => exact ⟨label, value, by simp⟩
  | fork label l r ihl ihr =>
    obtain ⟨m, -, hl, -⟩ := h
    obtain ⟨key, v, hget⟩ := ihl hl
    exact ⟨label ++ false :: key, v, by rw [get_fork_append]; exact hget⟩

/-- The label of a fork is a beginning of no more than what all keys share. -/
theorem label_prefix_of_fork {n' : ℕ} {label label' : List Bool} {l r l' r' : BitTrie α}
    (h : (fork label l r).WF n) (h' : (fork label' l' r').WF n')
    (hget : ∀ key, (fork label l r).get key = (fork label' l' r').get key) : label' <+: label := by
  obtain ⟨m, -, hl, hr⟩ := h
  obtain ⟨k0, v0, hk0⟩ := hl.exists_get
  obtain ⟨k1, v1, hk1⟩ := hr.exists_get
  have hleft : (fork label' l' r').get (label ++ false :: k0) = some v0 := by
    rw [← hget, get_fork_append]
    exact hk0
  have hright : (fork label' l' r').get (label ++ true :: k1) = some v1 := by
    rw [← hget, get_fork_append]
    exact hk1
  obtain ⟨b0, rest0, heq0, -⟩ := get_fork_eq_some.mp hleft
  obtain ⟨b1, rest1, heq1, -⟩ := get_fork_eq_some.mp hright
  -- a longer label would have to go on with both bits
  rcases prefix_cases label' label with ⟨x, rfl⟩ | ⟨b, x, rfl⟩ | ⟨p, b, x, y, rfl, rfl⟩
  · exact List.prefix_append _ _
  · simp only [List.append_assoc, List.cons_append, List.append_cancel_left_eq,
      List.cons.injEq] at heq0 heq1
    rw [← heq0.1] at heq1
    cases heq1.1
  · simp [List.append_assoc] at heq0

theorem WF.get_fork_ne_leaf {label : List Bool} (h : (fork label l r).WF n) (label' : List Bool)
    (value : α) :
    ¬ ∀ key, (fork label l r).get key = (leaf label' value).get key := by
  intro hget
  have hv := (hget label').trans (get_leaf_self label' value)
  obtain ⟨bit, rest, hlabel, -⟩ := get_fork_eq_some.mp hv
  obtain ⟨m, -, hl, hr⟩ := h
  obtain ⟨key, w, hw⟩ := (WF.side hl hr (!bit)).exists_get
  have hother := hget (label ++ (!bit) :: key)
  rw [get_fork_append, hw, get_leaf] at hother
  split_ifs at hother with hkey
  rw [hlabel] at hkey
  exact append_diverge_ne label rest key bit hkey.symm

theorem WF.ext {t t' : BitTrie α} (h : t.WF n) (h' : t'.WF n)
    (hget : ∀ key, t.get key = t'.get key) : t = t' := by
  induction t generalizing n t' with
  | leaf label value =>
    cases t' with
    | leaf label' value' =>
      have hv := (hget label).symm.trans (get_leaf_self label value)
      rw [get_leaf] at hv
      split_ifs at hv with hlabel
      cases hv
      rw [hlabel]
    | fork label' l' r' =>
      exact absurd (fun key => (hget key).symm) (h'.get_fork_ne_leaf label value)
  | fork label l r ihl ihr =>
    cases t' with
    | leaf label' value' => exact absurd hget (h.get_fork_ne_leaf label' value')
    | fork label' l' r' =>
      have hlabel : label = label' := by
        apply List.IsPrefix.eq_of_length_le
        · exact label_prefix_of_fork h' h fun key => (hget key).symm
        · exact (label_prefix_of_fork h h' hget).length_le
      subst hlabel
      obtain ⟨m, hm, hl, hr⟩ := h
      obtain ⟨m', hm', hl', hr'⟩ := h'
      obtain rfl : m = m' := by omega
      have hchild : ∀ bit key, (child l r bit).get key = (child l' r' bit).get key := by
        intro bit key
        have hk := hget (label ++ bit :: key)
        rw [get_fork_append, get_fork_append] at hk
        exact hk
      rw [ihl hl hl' (hchild false), ihr hr hr' (hchild true)]

variable {t : Option (BitTrie α)}

theorem WFOpt.eq_none (h : WFOpt n t) (hget : ∀ key, getOpt t key = none) : t = none := by
  cases t with
  | none => rfl
  | some t =>
    obtain ⟨key, v, hv⟩ := (wfOpt_some.mp h).exists_get
    cases hv.symm.trans (hget key)

theorem WFOpt.ext {t' : Option (BitTrie α)} (h : WFOpt n t) (h' : WFOpt n t')
    (hget : ∀ key, getOpt t key = getOpt t' key) : t = t' := by
  cases t with
  | none => exact (h'.eq_none fun key => (hget key).symm).symm
  | some t =>
    cases t' with
    | none => exact h.eq_none hget
    | some t' => rw [(wfOpt_some.mp h).ext (wfOpt_some.mp h') hget]

theorem WF.label_prefix {t : BitTrie α} (h : t.WF n) {key : List Bool} {v : α}
    (hget : t.get key = some v) : t.label <+: key := by
  obtain ⟨u, m, hu, -, -, -⟩ := h.exists_prepend (List.append_nil t.label).symm
  rw [hu] at hget
  obtain ⟨rest, hkey, -⟩ := get_prepend_eq_some.mp hget
  exact ⟨rest, hkey.symm⟩

section

variable {t : BitTrie α} (h : t.WF n) {p : List Bool} (hp : p.length < n)
include h hp

theorem WF.prefix_label (hkeys : ∀ key v, t.get key = some v → p <+: key) : p <+: t.label := by
  obtain ⟨key, v, hget⟩ := h.exists_get
  rcases List.prefix_or_prefix_of_prefix (hkeys key v hget) (h.label_prefix hget) with hle | hle
  · exact hle
  · obtain ⟨x, rfl⟩ := hle
    rw [List.length_append] at hp
    cases t with
    | leaf label value =>
      have hlen : label.length = n := h
      change label.length + x.length < n at hp
      omega
    | fork label l r =>
      cases x with
      | nil => rw [List.append_nil]
      | cons bit x =>
        -- the keys of the other side do not go on with `bit`
        obtain ⟨m, -, hl, hr⟩ := h
        obtain ⟨rest, w, hw⟩ := (WF.side hl hr (!bit)).exists_get
        have hother := hkeys (label ++ (!bit) :: rest) w (by rw [get_fork_append]; exact hw)
        change label ++ bit :: x <+: _ at hother
        rw [List.prefix_append_right_inj, List.cons_prefix_cons] at hother
        exact absurd hother.1 (Bool.eq_not_self bit).mp

theorem WF.exists_join (hlabel : p <+: t.label) :
    ∃ (l r : Option (BitTrie α)) (m : ℕ), some t = join p l r ∧ WFOpt m l ∧ WFOpt m r ∧
      p.length + 1 + m = n := by
  obtain ⟨rest, hrest⟩ := hlabel
  cases rest with
  | nil =>
    rw [List.append_nil] at hrest
    obtain ⟨l, r, hfork⟩ := h.eq_fork (hrest ▸ hp)
    rw [← hrest] at hfork
    subst hfork
    obtain ⟨m, hm, hl, hr⟩ := h
    exact ⟨some l, some r, m, rfl, wfOpt_some.mpr hl, wfOpt_some.mpr hr, hm⟩
  | cons bit x =>
    rw [List.append_cons] at hrest
    obtain ⟨u, m, rfl, -, hu, hm⟩ := h.exists_prepend hrest.symm
    rw [List.length_append, List.length_singleton] at hm
    cases bit with
    | false => exact ⟨some u, none, m, rfl, wfOpt_some.mpr hu, wfOpt_none, hm⟩
    | true => exact ⟨none, some u, m, rfl, wfOpt_none, wfOpt_some.mpr hu, hm⟩

end

variable (h : WFOpt n t) {p : List Bool} (hp : p.length < n)
include h hp

theorem WFOpt.exists_join (hkeys : ∀ key v, getOpt t key = some v → p <+: key) :
    ∃ (l r : Option (BitTrie α)) (m : ℕ), t = join p l r ∧ WFOpt m l ∧ WFOpt m r ∧
      p.length + 1 + m = n := by
  cases t with
  | none => exact ⟨none, none, n - (p.length + 1), rfl, wfOpt_none, wfOpt_none, by omega⟩
  | some t =>
    have ht := wfOpt_some.mp h
    exact ht.exists_join hp (ht.prefix_label hp hkeys)

theorem WFOpt.exists_joinAt {bit : Bool}
    (hkeys : ∀ key v, getOpt t key = some v → p ++ [bit] <+: key) :
    ∃ (u : Option (BitTrie α)) (m : ℕ), t = joinAt p bit u none ∧ WFOpt m u ∧
      p.length + 1 + m = n := by
  obtain ⟨l, r, m, rfl, hl, hr, hm⟩ := h.exists_join hp fun key v hget =>
    (List.prefix_append p [bit]).trans (hkeys key v hget)
  -- a key on the other side would have the other bit
  have hnone : ∀ u, childOpt l r (!bit) = some u → WFOpt m (some u) → False := by
    intro u hside hu
    obtain ⟨rest, v, hv⟩ := (wfOpt_some.mp hu).exists_get
    have hkey := hkeys (p ++ (!bit) :: rest) v (by rw [getOpt_join_append, hside]; exact hv)
    rw [List.prefix_append_right_inj, List.cons_prefix_cons] at hkey
    exact (Bool.eq_not_self bit).mp hkey.1
  cases bit with
  | false =>
    cases r with
    | none => exact ⟨l, m, rfl, hl, hm⟩
    | some r => exact absurd hr (hnone r rfl)
  | true =>
    cases l with
    | none => exact ⟨r, m, rfl, hr, hm⟩
    | some l => exact absurd hl (hnone l rfl)

end Canonical

section Updates

variable {n : ℕ} {key : List Bool}

theorem get_forkAt_append (p : List Bool) (bit bit' : Bool) (t u : BitTrie α) (rest : List Bool) :
    (forkAt p bit t u).get (p ++ bit' :: rest) = if bit' = bit then t.get rest else u.get rest := by
  cases bit with
  | false | true => cases bit' <;> simp [forkAt]

theorem get_forkAt_eq_none {p k : List Bool} (bit : Bool) (t u : BitTrie α)
    (h : ∀ b rest, k ≠ p ++ b :: rest) : (forkAt p bit t u).get k = none := by
  rw [forkAt]
  split_ifs
  · exact get_fork_eq_none h
  · exact get_fork_eq_none h

theorem WF.forkAt {p : List Bool} {m : ℕ} {t u : BitTrie α} (ht : t.WF m) (hu : u.WF m)
    (bit : Bool) : (forkAt p bit t u).WF (p.length + 1 + m) := by
  rw [BitTrie.forkAt]
  split_ifs
  · exact ⟨m, rfl, hu, ht⟩
  · exact ⟨m, rfl, ht, hu⟩

variable (label : List Bool)

theorem put_leaf_same (old value : α) : (leaf label old).put label value = leaf label value := by
  simp [put]

theorem put_leaf_diverge (p x y : List Bool) (bit : Bool) (old value : α) :
    (leaf (p ++ bit :: x) old).put (p ++ (!bit) :: y) value =
      forkAt p bit (leaf x old) (leaf y value) := by
  simp [put]

theorem put_fork_append (rest : List Bool) (bit : Bool) (l r : BitTrie α) (value : α) :
    (fork label l r).put (label ++ bit :: rest) value =
      forkAt label bit ((child l r bit).put rest value) (child l r (!bit)) := by
  simp only [put, commonPrefix_self_append]
  cases bit with
  | false | true => rfl

theorem put_fork_diverge (p x y : List Bool) (bit : Bool) (l r : BitTrie α) (value : α) :
    (fork (p ++ bit :: x) l r).put (p ++ (!bit) :: y) value =
      forkAt p bit (fork x l r) (leaf y value) := by
  simp [put]

/-- A key that parts from the label cuts the edge. -/
theorem put_prepend_diverge (p y : List Bool) (bit : Bool) (t : BitTrie α) (value : α) :
    (t.prepend (p ++ [bit])).put (p ++ (!bit) :: y) value = forkAt p bit t (leaf y value) := by
  cases t with
  | leaf x old =>
    rw [prepend, List.append_assoc, List.singleton_append, put_leaf_diverge]
  | fork x l r =>
    rw [prepend, List.append_assoc, List.singleton_append, put_fork_diverge]

theorem get_prepend_diverge (p y : List Bool) (bit : Bool) (t : BitTrie α) :
    (t.prepend (p ++ [bit])).get (p ++ (!bit) :: y) = none := by
  rw [get_prepend_cons, if_neg (Bool.not_eq_self bit).mp]

theorem get_fork_diverge (p x y : List Bool) (bit : Bool) (l r : BitTrie α) :
    (fork (p ++ bit :: x) l r).get (p ++ (!bit) :: y) = none := by
  have h := get_prepend_diverge p y bit (fork x l r)
  rwa [prepend, ← List.append_cons] at h

theorem get_forkAt_leaf (p y : List Bool) (bit : Bool) (t : BitTrie α) (value : α) (k : List Bool) :
    (forkAt p bit t (leaf y value)).get k =
      if k = p ++ (!bit) :: y then some value else (t.prepend (p ++ [bit])).get k := by
  by_cases hk : ∃ bit' rest, k = p ++ bit' :: rest
  · obtain ⟨bit', rest, rfl⟩ := hk
    rw [get_forkAt_append]
    by_cases hbit : bit' = bit
    · subst hbit
      rw [if_pos rfl, if_neg (append_diverge_ne p rest y bit'), List.append_cons p bit' rest,
        get_prepend_append]
    · obtain rfl : bit' = !bit := by
        cases bit <;> simpa using hbit
      rw [if_neg hbit, get_prepend_diverge]
      simp [get_leaf]
  · push Not at hk
    rw [get_forkAt_eq_none _ _ _ hk, if_neg (hk _ _), get_prepend_eq_none]
    intro rest
    rw [← List.append_cons]
    exact hk bit rest

/-- How a key of the right length meets a leaf: it is the leaf, or they part. -/
theorem leaf_cases {label : List Bool} (hlabel : label.length = n) (hkey : key.length = n) :
    key = label ∨ ∃ p b x y, label = p ++ b :: x ∧ key = p ++ (!b) :: y := by
  rcases @prefix_cases_of_length label key (by omega) with ⟨x, rfl⟩ | hp
  · obtain rfl : x = [] := by
      simp only [List.length_append] at hkey
      exact List.eq_nil_of_length_eq_zero (by omega)
    exact .inl (List.append_nil label)
  · exact .inr hp

/-- How a key of the right length meets a fork: it goes on to one side, or they part. -/
theorem fork_cases {label : List Bool} {m : ℕ} (hlabel : label.length + 1 + m = n)
    (hkey : key.length = n) : (∃ bit rest, key = label ++ bit :: rest ∧ rest.length = m) ∨
      ∃ p b x y, label = p ++ b :: x ∧ key = p ++ (!b) :: y := by
  rcases @prefix_cases_of_length label key (by omega) with ⟨x, rfl⟩ | hp
  · cases x with
    | nil =>
      simp only [List.append_nil] at hkey
      omega
    | cons bit rest =>
      simp only [List.length_append, List.length_cons] at hkey
      exact .inl ⟨bit, rest, rfl, by omega⟩
  · exact .inr hp

variable {t : BitTrie α}

theorem WF.put_diverge (h : t.WF n) {p x y : List Bool} {b : Bool} (hlabel : t.label = p ++ b :: x)
    (hkey : (p ++ (!b) :: y).length = n) (value : α) : (t.put (p ++ (!b) :: y) value).WF n := by
  rw [List.append_cons] at hlabel
  obtain ⟨u, m, rfl, -, hu, hm⟩ := h.exists_prepend hlabel
  simp only [List.length_append, List.length_cons, List.length_nil] at hkey hm
  have hy : (leaf y value).WF m := by
    rw [WF]
    omega
  rw [put_prepend_diverge, ← hm]
  exact hu.forkAt hy b

theorem WF.put (h : t.WF n) (hkey : key.length = n) (value : α) : (t.put key value).WF n := by
  induction t generalizing n key with
  | leaf label old =>
    rcases leaf_cases h hkey with rfl | ⟨p, b, x, y, hlabel, rfl⟩
    · rw [put_leaf_same]
      exact h
    · exact h.put_diverge hlabel hkey value
  | fork label l r ihl ihr =>
    obtain ⟨m, hm, hl, hr⟩ := id h
    rcases fork_cases hm hkey with ⟨bit, rest, rfl, hrest⟩ | ⟨p, b, x, y, hlabel, rfl⟩
    · rw [put_fork_append, ← hm]
      cases bit with
      | false => exact ⟨m, rfl, ihl hl hrest, hr⟩
      | true => exact ⟨m, rfl, hl, ihr hr hrest⟩
    · exact h.put_diverge hlabel hkey value

theorem WF.get_put (h : t.WF n) (hkey : key.length = n) (value : α) (k : List Bool) :
    (t.put key value).get k = if k = key then some value else t.get k := by
  induction t generalizing n key k with
  | leaf label old =>
    rcases leaf_cases h hkey with rfl | ⟨p, b, x, y, rfl, rfl⟩
    · rw [put_leaf_same, get_leaf, get_leaf]
      split_ifs
      · rfl
      · rfl
    · rw [put_leaf_diverge, get_forkAt_leaf, BitTrie.prepend, ← List.append_cons]
  | fork label l r ihl ihr =>
    obtain ⟨m, hm, hl, hr⟩ := h
    rcases fork_cases hm hkey with ⟨bit, rest, rfl, hrest⟩ | ⟨p, b, x, y, rfl, rfl⟩
    · rw [put_fork_append]
      have ih : ∀ k, ((child l r bit).put rest value).get k =
          if k = rest then some value else (child l r bit).get k := by
        intro k
        cases bit with
        | false => exact ihl hl hrest k
        | true => exact ihr hr hrest k
      by_cases hk : ∃ b' rest', k = label ++ b' :: rest'
      · obtain ⟨b', rest', rfl⟩ := hk
        rw [get_forkAt_append, get_fork_append, ih]
        by_cases hb : b' = bit
        · subst hb
          simp
        · have hb' : b' = !bit := by
            cases bit <;> simpa using hb
          subst hb'
          simp
      · push Not at hk
        rw [get_forkAt_eq_none _ _ _ hk, if_neg (hk _ _), get_fork_eq_none hk]
    · rw [put_fork_diverge, get_forkAt_leaf, BitTrie.prepend, ← List.append_cons]

theorem erase_leaf (value : α) (k : List Bool) :
    (leaf label value).erase k = if k = label then none else some (leaf label value) := rfl

theorem erase_fork_append (rest : List Bool) (bit : Bool) (l r : BitTrie α) :
    (fork label l r).erase (label ++ bit :: rest) =
      join label (if bit then some l else l.erase rest) (if bit then r.erase rest else some r) := by
  simp only [erase, commonPrefix_self_append]
  cases bit with
  | false | true => rfl

theorem erase_fork_diverge (p x y : List Bool) (b : Bool) (l r : BitTrie α) :
    (fork (p ++ b :: x) l r).erase (p ++ (!b) :: y) = some (fork (p ++ b :: x) l r) := by
  simp [erase]

variable (h : t.WF n) (hkey : key.length = n)
include h hkey

theorem WF.erase : WFOpt n (t.erase key) := by
  induction t generalizing n key with
  | leaf label value =>
    rw [erase_leaf]
    split_ifs
    · exact wfOpt_none
    · exact wfOpt_some.mpr h
  | fork label l r ihl ihr =>
    obtain ⟨m, hm, hl, hr⟩ := h
    rcases fork_cases hm hkey with ⟨bit, rest, rfl, hrest⟩ | ⟨p, b, x, y, rfl, rfl⟩
    · rw [erase_fork_append, ← hm]
      cases bit with
      | false => exact wfOpt_join (ihl hl hrest) (wfOpt_some.mpr hr)
      | true => exact wfOpt_join (wfOpt_some.mpr hl) (ihr hr hrest)
    · rw [erase_fork_diverge]
      exact wfOpt_some.mpr ⟨m, hm, hl, hr⟩

theorem WF.get_erase (k : List Bool) :
    getOpt (t.erase key) k = if k = key then none else t.get k := by
  induction t generalizing n key k with
  | leaf label value =>
    rw [erase_leaf]
    by_cases hlabel : key = label
    · subst hlabel
      rw [if_pos rfl, getOpt_none, get_leaf]
      split_ifs
      · rfl
      · rfl
    · rw [if_neg hlabel, getOpt_some, get_leaf]
      by_cases hk : k = key
      · subst hk
        rw [if_neg hlabel, if_pos rfl]
      · rw [if_neg hk]
  | fork label l r ihl ihr =>
    obtain ⟨m, hm, hl, hr⟩ := h
    rcases fork_cases hm hkey with ⟨bit, rest, rfl, hrest⟩ | ⟨p, b, x, y, rfl, rfl⟩
    · rw [erase_fork_append]
      by_cases hk : ∃ b' rest', k = label ++ b' :: rest'
      · obtain ⟨b', rest', rfl⟩ := hk
        rw [getOpt_join_append, get_fork_append]
        simp only [List.append_cancel_left_eq, List.cons.injEq]
        cases bit with
        | false =>
          cases b' with
          | false => simpa [childOpt] using ihl hl hrest rest'
          | true => simp [childOpt]
        | true =>
          cases b' with
          | false => simp [childOpt]
          | true => simpa [childOpt] using ihr hr hrest rest'
      · push Not at hk
        rw [if_neg (hk _ _), get_fork_eq_none hk]
        cases hget : getOpt (join label (if bit then some l else l.erase rest)
            (if bit then r.erase rest else some r)) k with
        | none => rfl
        | some v =>
          obtain ⟨b', rest', hkey', -⟩ := getOpt_join_eq_some.mp hget
          exact absurd hkey' (hk b' rest')
    · rw [erase_fork_diverge, getOpt_some]
      by_cases hk : k = p ++ (!b) :: y
      · subst hk
        rw [if_pos rfl, get_fork_diverge]
      · rw [if_neg hk]

theorem WF.erase_of_get_eq_none (hget : t.get key = none) : t.erase key = some t := by
  have heq := WFOpt.ext (h.erase hkey) (wfOpt_some.mpr h) fun k => by
    rw [h.get_erase hkey, getOpt_some]
    split_ifs with hk
    · rw [hk, hget]
    · rfl
  exact heq

end Updates

section Entries

def entriesFrom : List Bool → BitTrie α → List (List Bool × α)
  | path, leaf label value => [(path ++ label, value)]
  | path, fork label l r =>
    l.entriesFrom (path ++ label ++ [false]) ++ r.entriesFrom (path ++ label ++ [true])

def entriesOpt : Option (BitTrie α) → List (List Bool × α)
  | none => []
  | some t => t.entriesFrom []

theorem entriesFrom_prepend (pre path : List Bool) (t : BitTrie α) :
    (t.prepend pre).entriesFrom path = t.entriesFrom (path ++ pre) := by
  cases t with
  | leaf label value | fork label l r => simp only [prepend, entriesFrom, List.append_assoc]

def subtreeAt (pre : List Bool) : List Bool → BitTrie α → Option (List Bool × BitTrie α)
  | path, leaf label value =>
    match commonPrefix (path ++ label) pre with
    | (_, _, []) => some (path, leaf label value)
    | _ => none
  | path, fork label l r =>
    match commonPrefix (path ++ label) pre with
    | (_, _, []) => some (path, fork label l r)
    | (_, [], bit :: _) =>
      if bit then r.subtreeAt pre (path ++ label ++ [true])
      else l.subtreeAt pre (path ++ label ++ [false])
    | _ => none

variable {t : BitTrie α} {pre path : List Bool}

theorem subtreeAt_here {p x : List Bool} (h : commonPrefix (path ++ t.label) pre = (p, x, [])) :
    t.subtreeAt pre path = some (path, t) := by
  cases t with
  | leaf label value | fork label l r =>
    rw [BitTrie.label] at h
    simp [subtreeAt, h]

theorem subtreeAt_diverge {p x y : List Bool} {a b : Bool}
    (h : commonPrefix (path ++ t.label) pre = (p, a :: x, b :: y)) :
    t.subtreeAt pre path = none := by
  cases t with
  | leaf label value | fork label l r =>
    rw [BitTrie.label] at h
    simp [subtreeAt, h]

theorem prefix_of_mem_entriesFrom : ∀ e ∈ t.entriesFrom path, path ++ t.label <+: e.1 := by
  induction t generalizing path with
  | leaf label value =>
    intro e he
    rw [List.mem_singleton.mp he]
    exact List.prefix_rfl
  | fork label l r ihl ihr =>
    intro e he
    rcases List.mem_append.mp he with he | he
    · have h := ihl e he
      rw [List.append_assoc] at h
      exact (List.prefix_append _ _).trans h
    · have h := ihr e he
      rw [List.append_assoc] at h
      exact (List.prefix_append _ _).trans h

theorem filter_prefix_eq_self {key : List Bool} {entries : List (List Bool × α)}
    (hkeys : ∀ e ∈ entries, key <+: e.1) (h : pre <+: key) :
    entries.filter (fun e => decide (pre <+: e.1)) = entries := by
  rw [List.filter_eq_self]
  intro e he
  exact decide_eq_true (h.trans (hkeys e he))

theorem filter_prefix_eq_nil {p x y : List Bool} {b : Bool} {entries : List (List Bool × α)}
    (hkeys : ∀ e ∈ entries, p ++ b :: x <+: e.1) :
    entries.filter (fun e => decide (p ++ (!b) :: y <+: e.1)) = [] := by
  rw [List.filter_eq_nil_iff]
  intro e he hpre
  have hboth := List.prefix_or_prefix_of_prefix (hkeys e he) (of_decide_eq_true hpre)
  rw [List.prefix_append_right_inj, List.prefix_append_right_inj, List.cons_prefix_cons,
    List.cons_prefix_cons] at hboth
  rcases hboth with ⟨hb, -⟩ | ⟨hb, -⟩
  · simp at hb
  · simp at hb

theorem filter_entriesFrom {pre : List Bool} (t : BitTrie α) (path : List Bool) :
    (t.entriesFrom path).filter (fun e => decide (pre <+: e.1)) =
      match t.subtreeAt pre path with
      | none => []
      | some (path', u) => u.entriesFrom path' := by
  have hkeys := @prefix_of_mem_entriesFrom α t path
  rcases prefix_cases (path ++ t.label) pre with ⟨x, hpre⟩ | ⟨b, x, hx⟩ | ⟨p, b, x, y, hx, hpre⟩
  · cases x with
    | nil =>
      rw [List.append_nil] at hpre
      rw [hpre, subtreeAt_here (commonPrefix_self _)]
      exact filter_prefix_eq_self hkeys List.prefix_rfl
    | cons b x =>
      cases t with
      | leaf label value =>
        obtain rfl : pre = path ++ label ++ b :: x := hpre
        have hlong : ¬ path ++ label ++ b :: x <+: path ++ label := by
          intro hpre
          have hlen := hpre.length_le
          rw [List.length_append, List.length_cons] at hlen
          omega
        rw [subtreeAt, commonPrefix_self_append, entriesFrom, List.filter_singleton,
          decide_eq_false hlong]
        rfl
      | fork label l r =>
        obtain rfl : pre = path ++ label ++ b :: x := hpre
        have hl := @prefix_of_mem_entriesFrom α l (path ++ label ++ [false])
        have hr := @prefix_of_mem_entriesFrom α r (path ++ label ++ [true])
        rw [subtreeAt, commonPrefix_self_append, entriesFrom, List.filter_append]
        cases b with
        | false =>
          rw [← List.append_cons] at hr
          have hnil := @filter_prefix_eq_nil α _ _ x true _ hr
          rw [Bool.not_true] at hnil
          rw [filter_entriesFrom l, hnil, List.append_nil]
          rfl
        | true =>
          rw [← List.append_cons] at hl
          have hnil := @filter_prefix_eq_nil α _ _ x false _ hl
          rw [Bool.not_false] at hnil
          rw [filter_entriesFrom r, hnil, List.nil_append]
          rfl
  · rw [hx] at hkeys
    rw [subtreeAt_here (by rw [hx]; exact commonPrefix_append_self _ _)]
    exact filter_prefix_eq_self hkeys (List.prefix_append _ _)
  · rw [hx] at hkeys
    rw [hpre, subtreeAt_diverge (by rw [hx]; exact commonPrefix_diverge p x y b)]
    exact filter_prefix_eq_nil hkeys

end Entries

end BitTrie

end TonNode
