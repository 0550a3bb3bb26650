import TonNode.BlockHandles

/-! The flags that were saved for a root hash can be lost in three ways: a creation does not
look into the database, a load may bring back what it read before somebody else saved
something, and the topmost flags are not serialized. In runs where none of this happens they
are kept, and a handle is unique while it lives. -/
namespace TonNode.Handles

open Storage (new)

variable {P : Type} {s : Slot P}

namespace Slot

def dbFlags (s : Slot P) : BitVec 32 :=
  match s.db with
  | some data => data.info.flags
  | none => 0

/-- The handles and the database have the flags that were promised: every live handle, what the storer
would write for a queued one, and the value of the database unless a newer one is on its way. -/
structure Flagged (s : Slot P) : Prop where
  carried : ∀ i h, s.handles[i]? = some h → s.Live i → Carries h.info.flags s.promised
  queued : ∀ job ∈ s.queue, job.written = false → ∀ h, s.handles[job.handle]? = some h →
    Carries h.info.serialize.flags s.promised
  stored : (∃ job ∈ s.queue, job.written = false) ∨ Carries s.dbFlags s.promised

structure Kept (s : Slot P) : Prop extends s.Flagged where
  unique : ∀ i j, s.Live i → s.Live j → i = j

structure Inv (s : Slot P) : Prop extends s.Flagged where
  known : ∀ i, s.Live i → i < s.handles.length
  owner : ∀ i, s.Live i → s.cache = some i

theorem Inv.kept (hs : s.Inv) : s.Kept :=
  ⟨hs.toFlagged, fun i j hi hj => Option.some.inj ((hs.owner i hi).symm.trans (hs.owner j hj))⟩

theorem not_live_new (db : Option (Stored P)) (i : ℕ) : ¬ (Slot.new db).Live i := by
  rintro (⟨h, hh, -⟩ | hi | ⟨job, hj, -⟩)
  · cases hh
  · cases hi
  · cases hj

theorem inv_new (db : Option (Stored P)) : (Slot.new db).Inv where
  known i hi := absurd hi (not_live_new db i)
  owner i hi := absurd hi (not_live_new db i)
  carried i _ _ hi := absurd hi (not_live_new db i)
  queued _ hj := by cases hj
  stored := .inr (carries_zero _)

variable {i : ℕ}

theorem live_of_refs {h : BlockHandle P} (hi : s.handles[i]? = some h) (hr : 0 < h.refs) :
    s.Live i :=
  .inl ⟨h, hi, hr⟩

theorem live_of_mem {j : SaveHandle} (hj : j ∈ s.queue) : s.Live j.handle :=
  .inr (.inr ⟨j, hj, rfl⟩)

variable {creates : List ℕ}

section Liveness

variable {queue rest : List SaveHandle} {loads : List (Load P)} {f : BlockHandle P → BlockHandle P}
  {handle : BlockHandle P} {j : ℕ}

theorem live_forget (hq : queue ⊆ s.queue) (hc : creates ⊆ s.creates)
    (h : Live { s with queue, creates, loads } j) : s.Live j := by
  rcases h with hj | hj | ⟨job, hj, rfl⟩
  · exact .inl hj
  · exact .inr (.inl (hc hj))
  · exact live_of_mem (hq hj)

theorem modify_handles {h' : BlockHandle P} (hj : (s.handles.modify i f)[j]? = some h') :
    s.handles[j]? = some h' ∨ (j = i ∧ ∃ h, s.handles[i]? = some h ∧ f h = h') := by
  rw [List.getElem?_modify] at hj
  obtain ⟨h, hh, rfl⟩ := Option.map_eq_some_iff.mp hj
  by_cases hij : i = j
  · subst hij
    exact .inr ⟨rfl, h, hh, (if_pos rfl).symm⟩
  · rw [if_neg hij]
    exact .inl hh

/-- Nobody comes to life by a change of a live handle. -/
theorem live_modify (hlive : s.Live i) (h : (s.modify i f).Live j) : s.Live j := by
  rcases h with ⟨h', hj, hr⟩ | hj | hj
  · rcases modify_handles hj with hj | ⟨rfl, -⟩
    · exact live_of_refs hj hr
    · exact hlive
  · exact .inr (.inl hj)
  · exact .inr (.inr hj)

theorem live_save (hlive : s.Live i) (h : (s.save i handle).Live j) : s.Live j := by
  rcases h with hj | hj | ⟨job, hj, rfl⟩
  · exact .inl hj
  · exact .inr (.inl hj)
  · rcases List.mem_append.mp hj with hj | hj
    · exact live_of_mem hj
    · rw [List.mem_singleton.mp hj]
      exact hlive

theorem live_write (hqueue : s.queue = ⟨i, false⟩ :: rest) (h : (s.write i rest handle).Live j) :
    s.Live j := by
  have hhead : (⟨i, false⟩ : SaveHandle) ∈ s.queue := hqueue ▸ List.mem_cons_self
  rcases h with hj | hj | ⟨job, hj, rfl⟩
  · exact .inl hj
  · exact .inr (.inl hj)
  · rcases List.mem_cons.mp hj with rfl | hj
    · exact live_of_mem (j := ⟨i, false⟩) hhead
    · exact live_of_mem (hqueue ▸ List.mem_cons_of_mem _ hj)

theorem live_addHandle (hdead : ∀ i, ¬ s.Live i)
    (hc : ∀ i ∈ creates, i ∈ s.creates ∨ i = s.handles.length)
    (h : Live { s.addHandle handle with creates } j) : j = s.handles.length := by
  rcases h with ⟨h', hh, hr⟩ | hj | hj
  · rcases List.getElem?_append .. ▸ hh with hh
    split_ifs at hh with hlt
    · exact absurd (live_of_refs hh hr) (hdead j)
    · have hz := (List.getElem?_eq_some_iff.mp hh).1
      rw [List.length_singleton] at hz
      omega
  · exact (hc j hj).resolve_left fun hj => hdead j (.inr (.inl hj))
  · exact absurd (.inr (.inr hj)) (hdead j)

end Liveness

/-- Whoever is alive is in the cache, also in runs that lose flags. -/
def Owned (s : Slot P) : Prop := ∀ i, s.Live i → s.cache = some i

section

variable (hs : s.Owned)
include hs

/-- Without an entry in the cache nobody is alive. -/
theorem Owned.dead (hcache : s.cache = none) (j : ℕ) : ¬ s.Live j := by
  intro hj
  cases hcache.symm.trans (hs j hj)

theorem Owned.addHandle (handle : BlockHandle P) (hcache : s.cache = none)
    (hc : ∀ i ∈ creates, i ∈ s.creates ∨ i = s.handles.length) :
    Owned { s.addHandle handle with creates } :=
  fun _ hj => congrArg some (live_addHandle (hs.dead hcache) hc hj).symm

theorem Owned.collect (hi : s.cache = some i) (hdead : ¬ s.Live i) :
    Owned { s with cache := none } :=
  fun j hj => absurd (Option.some.inj (hi.symm.trans (hs j hj)) ▸ hj) hdead

end

/-- Steps that only end something: a creation, a written job, or a part of a load. -/
theorem Inv.forget (hs : s.Inv) {queue : List SaveHandle} (loads : List (Load P))
    (hq : queue ⊆ s.queue) (hw : ∀ job ∈ s.queue, job.written = false → job ∈ queue)
    (hc : creates ⊆ s.creates) : Inv { s with queue, creates, loads } where
  known i hi := hs.known i (live_forget hq hc hi)
  owner i hi := hs.owner i (live_forget hq hc hi)
  carried i h hi hl := hs.carried i h hi (live_forget hq hc hl)
  queued job hj := hs.queued job (hq hj)
  stored := hs.stored.imp_left fun ⟨job, hj, hjw⟩ => ⟨job, hw job hj hjw, hjw⟩

theorem Inv.setLoad (hs : s.Inv) (k : ℕ) (l : Load P) : (s.setLoad k l).Inv :=
  hs.forget _ (fun _ h => h) (fun _ h _ => h) fun _ h => h

section

variable (hs : s.Inv)
include hs

/-- A change of one live handle, and of nothing else but that promises may go.  The handle still carries
what is promised. -/
theorem Inv.modify {f : BlockHandle P → BlockHandle P} {promised : BitVec 32}
    (hp : Carries s.promised promised) (hlive : s.Live i)
    (hcarried : ∀ h, s.handles[i]? = some h → Carries (f h).info.flags promised)
    (hqueued : ∀ h, s.handles[i]? = some h → Carries h.info.serialize.flags s.promised →
      Carries (f h).info.serialize.flags promised) :
    Inv { s.modify i f with promised } := by
  have hold (j : ℕ) (hj : (s.modify i f).Live j) : s.Live j := live_modify hlive hj
  refine { known := ?known, owner := ?owner, carried := ?carried, queued := ?queued, stored := ?stored }
  case known =>
    intro j hj
    show j < (s.handles.modify i f).length
    rw [List.length_modify]
    exact hs.known j (hold j hj)
  case owner => exact fun j hj => hs.owner j (hold j hj)
  case carried =>
    intro j h' hj hl
    rcases modify_handles hj with hj' | ⟨rfl, h, hi, rfl⟩
    · exact (hs.carried j h' hj' (hold j hl)).trans hp
    · exact hcarried h hi
  case queued =>
    intro job hjob hw h' hj
    rcases modify_handles hj with hj' | ⟨hji, h, hi, rfl⟩
    · exact (hs.queued job hjob hw h' hj').trans hp
    · exact hqueued h hi (hs.queued job hjob hw h (hji ▸ hi))
  case stored => exact hs.stored.imp_right fun h => h.trans hp

theorem Inv.setRefs (refs : ℕ → ℕ) (hlive : s.Live i) :
    (s.modify i fun h => { h with refs := refs h.refs }).Inv :=
  hs.modify (f := fun h => { h with refs := refs h.refs }) (carries_self _) hlive
    (fun h hi => hs.carried i h hi hlive) fun _ _ hq => hq

/-- A new handle, which its creator or its load holds.  No handle is alive before: it would be in the
cache. -/
theorem Inv.addHandle (handle : BlockHandle P) (hcache : s.cache = none)
    (hc : ∀ i ∈ creates, i ∈ s.creates ∨ i = s.handles.length)
    (hcarries : Carries handle.info.flags s.promised) :
    Inv { s.addHandle handle with creates } := by
  have hdead := Owned.dead hs.owner hcache
  have hnew (i : ℕ) (hi : Live { s.addHandle handle with creates } i) : i = s.handles.length :=
    live_addHandle hdead hc hi
  refine { known := ?known, owner := ?owner, carried := ?carried, queued := ?queued, stored := ?stored }
  case known =>
    intro i hi
    show i < (s.handles ++ [handle]).length
    rw [hnew i hi, List.length_append, List.length_singleton]
    exact Nat.lt_succ_self _
  case owner => exact Owned.addHandle hs.owner handle hcache hc
  case carried =>
    intro i h hh hi
    have hlast : (s.handles ++ [handle])[s.handles.length]? = some handle := List.getElem?_concat_length
    rw [hnew i hi] at hh
    rw [← Option.some.inj (hlast.symm.trans hh)]
    exact hcarries
  case queued => exact fun job hj => absurd (live_of_mem (s := s) hj) (hdead _)
  case stored => exact hs.stored

variable {handle : BlockHandle P}

theorem Inv.save (hi : s.handles[i]? = some handle) (hlive : s.Live i)
    (hser : Carries handle.info.serialize.flags handle.info.flags) : (s.save i handle).Inv := by
  have hcar := hs.carried i handle hi hlive
  have hold (j : ℕ) (hl : (s.save i handle).Live j) : j = i :=
    hs.kept.unique j i (live_save hlive hl) hlive
  have hsame : ∀ j h, (s.save i handle).Live j → s.handles[j]? = some h → h = handle := by
    intro j h hl hj
    rw [hold j hl] at hj
    exact Option.some.inj (hj.symm.trans hi)
  refine { known := ?known, owner := ?owner, carried := ?carried, queued := ?queued, stored := ?stored }
  case known => exact fun j hl => hold j hl ▸ hs.known i hlive
  case owner => exact fun j hl => hold j hl ▸ hs.owner i hlive
  case carried =>
    intro j h hj hl
    rw [hsame j h hl hj]
    exact carries_or.mpr ⟨hcar, carries_self _⟩
  case queued =>
    intro job hjob _ h hh
    rw [hsame _ h (live_of_mem hjob) hh]
    exact carries_or.mpr ⟨hser.trans hcar, hser⟩
  case stored =>
    exact .inl ⟨⟨i, false⟩, List.mem_append_right _ (List.mem_singleton_self _), rfl⟩

theorem Inv.write {rest : List SaveHandle} (hqueue : s.queue = ⟨i, false⟩ :: rest)
    (hi : s.handles[i]? = some handle) : (s.write i rest handle).Inv := by
  have hhead : (⟨i, false⟩ : SaveHandle) ∈ s.queue := hqueue ▸ List.mem_cons_self
  have hrest : ∀ job ∈ rest, job ∈ s.queue := fun job hj => hqueue ▸ List.mem_cons_of_mem _ hj
  have hold (j : ℕ) (hl : (s.write i rest handle).Live j) : s.Live j := live_write hqueue hl
  refine { known := ?known, owner := ?owner, carried := ?carried, queued := ?queued, stored := ?stored }
  case known => exact fun j hl => hs.known j (hold j hl)
  case owner => exact fun j hl => hs.owner j (hold j hl)
  case carried => exact fun j h hj hl => hs.carried j h hj (hold j hl)
  case queued =>
    intro job hj hw
    rcases List.mem_cons.mp hj with rfl | hj
    · cases hw
    · exact hs.queued job (hrest job hj) hw
  case stored => exact .inr (hs.queued _ hhead rfl handle hi)

theorem Inv.collect (hi : s.cache = some i) (hdead : ¬ s.Live i) : Inv { s with cache := none } where
  known := hs.known
  owner := Owned.collect hs.owner hi hdead
  carried := hs.carried
  queued := hs.queued
  stored := hs.stored

end

theorem carries_serialize_setFlags (m : BlockMeta) (flags : BitVec 32) :
    Carries (m.setFlags flags).serialize.flags m.serialize.flags := by
  rw [BlockMeta.flags_serialize, BlockMeta.flags_serialize, BlockMeta.flags_setFlags]
  exact (carries_or_left _ _).and _

theorem Inv.setFlags (hs : s.Inv) (hlive : s.Live i) (flags : BitVec 32) :
    (s.modify i fun h => { h with info := h.info.setFlags flags }).Inv := by
  apply hs.modify (f := fun h => { h with info := h.info.setFlags flags }) (carries_self _) hlive
  · intro h hi
    rw [BlockMeta.flags_setFlags]
    exact (carries_or_left _ _).trans (hs.carried i h hi hlive)
  · intro h _ hq
    exact (carries_serialize_setFlags _ _).trans hq

theorem Inv.reset (hs : s.Inv) (hlive : s.Live i) (flags : BitVec 32) (b : Bool) :
    (s.reset i flags b).Inv := by
  apply hs.modify (f := fun h => { h with info := h.info.reset flags b }) (carries_and_left _ _) hlive
  · intro h hi
    rw [BlockMeta.flags_reset]
    exact (hs.carried i h hi hlive).and _
  · intro h _ hq
    rw [BlockMeta.flags_serialize] at hq ⊢
    rw [BlockMeta.flags_reset, BitVec.and_assoc, BitVec.and_comm (~~~flags), ← BitVec.and_assoc]
    exact hq.and _

/-- The step loses no flag.  A handle that is made anew, by a creation or from what a load read, carries
what was promised; a handle is saved without flags that are not serialized. -/
def Faithful (s : Slot P) : Event P → Prop
  | .create _ info => s.cache = none → Carries (info.setFlags FLAG_HAS_FULL_ID).flags s.promised
  | .advance k => ∀ l data, s.loads[k]? = some l → l.state = .inserting data → s.cache = none →
    Carries (l.infoOf data).flags s.promised
  | .store k => ∀ i h, s.creates[k]? = some i → s.handles[i]? = some h →
    Carries h.info.serialize.flags h.info.flags
  | .save i => ∀ h, s.handles[i]? = some h → 0 < h.refs →
    Carries h.info.serialize.flags h.info.flags
  | _ => True

/-- What holds without the use of a handle and with each of its uses holds. -/
theorem use_cases {f : BlockHandle P → Slot P} {p : Slot P → Prop} (hs : p s)
    (hf : ∀ h, s.handles[i]? = some h → 0 < h.refs → p (f h)) : p (s.use i f) := by
  unfold use
  split
  case h_1 h hi =>
    split
    · exact hf h hi ‹_›
    · exact hs
  case h_2 => exact hs

section

variable (hs : s.Inv)
include hs

theorem Inv.create {parts : P} {info : BlockMeta}
    (hf : s.Faithful (.create parts info)) : (s.create parts info).Inv := by
  unfold Slot.create
  cases hc : s.cache with
  | some i => exact hs
  | none =>
    have hcarries : Carries (info.setFlags FLAG_HAS_FULL_ID).flags s.promised := hf hc
    apply hs.addHandle ⟨parts, info.setFlags FLAG_HAS_FULL_ID, 0⟩ hc _ hcarries
    intro i hi
    rcases List.mem_append.mp hi with hi | hi
    · exact .inl hi
    · exact .inr (List.mem_singleton.mp hi)

variable {k : ℕ}

theorem Inv.store (hk : s.creates[k]? = some i) (hi : s.handles[i]? = some handle)
    (hser : Carries handle.info.serialize.flags handle.info.flags) : (s.store k i handle).Inv := by
  have hmem := List.mem_of_getElem? hk
  have hsaved := hs.save hi (.inr (.inl hmem)) hser
  exact (hsaved.setRefs (· + 1) (.inr (.inl hmem))).forget s.loads (fun _ h => h) (fun _ h _ => h)
    (List.eraseIdx_subset ..)

theorem Inv.lookup (k : ℕ) (l : Load P) : (s.lookup k l).Inv := by
  unfold Slot.lookup
  split
  case h_1 i _ =>
    split
    case isTrue hl => exact (hs.setRefs (· + 1) hl).setLoad _ _
    case isFalse => exact hs.setLoad _ _
  case h_2 => exact hs.setLoad _ _

theorem Inv.read (k : ℕ) (l : Load P) : (s.read k l).Inv := by
  unfold Slot.read
  split
  · exact hs.setLoad _ _
  · exact hs.setLoad _ _

theorem Inv.insert {l : Load P} {data : Stored P}
    (hf : s.cache = none → Carries (l.infoOf data).flags s.promised) : (s.insert k l data).Inv := by
  unfold Slot.insert
  cases hc : s.cache with
  | some i => exact hs.setLoad _ _
  | none =>
    have hadd := hs.addHandle ⟨l.parts, l.infoOf data, 1⟩ hc (fun i hi => .inl hi) (hf hc)
    exact hadd.setLoad k { l with state := .finished }

theorem Inv.step {e : Event P} (hf : s.Faithful e) : (s.step e).Inv := by
  cases e with
  | create parts info => exact hs.create hf
  | store k =>
    simp only [Slot.step]
    split
    case h_1 i hk =>
      split
      case h_1 handle hi => exact hs.store hk hi (hf i handle hk hi)
      case h_2 => exact hs
    case h_2 => exact hs
  | load parts rhOnly => exact hs.forget _ (fun _ h => h) (fun _ h _ => h) fun _ h => h
  | advance k =>
    simp only [Slot.step]
    split
    case h_1 l hl =>
      split
      case h_1 => exact hs.lookup k l
      case h_2 => exact hs.read k l
      case h_3 data hd => exact hs.insert (hf l data hl hd)
      case h_4 => exact hs
    case h_2 => exact hs
  | setFlags i flags =>
    exact use_cases hs fun h hi hr => hs.setFlags (live_of_refs hi hr) flags
  | reset i flags b => exact use_cases hs fun h hi hr => hs.reset (live_of_refs hi hr) flags b
  | save i => exact use_cases hs fun h hi hr => hs.save hi (live_of_refs hi hr) (hf h hi hr)
  | release i => exact use_cases hs fun h hi hr => hs.setRefs (· - 1) (live_of_refs hi hr)
  | write =>
    simp only [Slot.step]
    split
    case h_1 i rest hq =>
      split
      case h_1 h hi => exact hs.write hq hi
      case h_2 => exact hs
    case h_2 => exact hs
  | pop =>
    simp only [Slot.step]
    split
    case h_1 i rest hq =>
      -- a written job leaves the queue, so that nothing that waits is lost
      apply hs.forget s.loads _ _ fun _ h => h
      · rw [hq]
        exact List.subset_cons_self _ _
      · intro job hj hw
        rw [hq] at hj
        rcases List.mem_cons.mp hj with rfl | hj
        · cases hw
        · exact hj
    case h_2 => exact hs
  | collect =>
    simp only [Slot.step]
    split
    case h_1 i hi =>
      split
      case isTrue => exact hs
      case isFalse hd => exact hs.collect hi hd
    case h_2 => exact hs

end

section

variable (hs : s.Owned) {k : ℕ}
include hs

theorem Owned.create (parts : P) (info : BlockMeta) : (s.create parts info).Owned := by
  unfold Slot.create
  cases hc : s.cache with
  | some i => exact hs
  | none =>
    exact hs.addHandle _ hc fun i hi => (List.mem_append.mp hi).imp_right List.mem_singleton.mp

theorem Owned.store (hk : s.creates[k]? = some i) (handle : BlockHandle P) :
    (s.store k i handle).Owned := by
  have hlive : s.Live i := .inr (.inl (List.mem_of_getElem? hk))
  intro j hj
  have hmodified := live_forget (s := (s.save i handle).modify i _) (fun _ h => h)
    (List.eraseIdx_subset ..) hj
  exact hs j (live_save hlive (live_modify (.inr (.inl (List.mem_of_getElem? hk))) hmodified))

theorem Owned.lookup (l : Load P) : (s.lookup k l).Owned := by
  unfold Slot.lookup
  split
  case h_1 i _ =>
    split
    case isTrue hl => exact fun j hj => hs j (live_modify hl hj)
    case isFalse => exact hs
  case h_2 => exact hs

theorem Owned.insert (l : Load P) (data : Stored P) : (s.insert k l data).Owned := by
  unfold Slot.insert
  cases hc : s.cache with
  | some i => exact hs
  | none => exact hs.addHandle ⟨l.parts, l.infoOf data, 1⟩ hc fun i hi => .inl hi

theorem Owned.step (e : Event P) : (s.step e).Owned := by
  cases e with
  | create parts info => exact hs.create parts info
  | store k =>
    simp only [Slot.step]
    split
    case h_1 i hk =>
      split
      case h_1 handle _ => exact hs.store hk handle
      case h_2 => exact hs
    case h_2 => exact hs
  | load parts rhOnly => exact hs
  | advance k =>
    simp only [Slot.step]
    split
    case h_1 l _ =>
      split
      case h_1 => exact hs.lookup l
      case h_2 =>
        unfold Slot.read
        split
        · exact hs
        · exact hs
      case h_3 data _ => exact hs.insert l data
      case h_4 => exact hs
    case h_2 => exact hs
  | setFlags i | reset i | release i =>
    exact use_cases hs fun h hi hr j hj => hs j (live_modify (live_of_refs hi hr) hj)
  | save i => exact use_cases hs fun h hi hr j hj => hs j (live_save (live_of_refs hi hr) hj)
  | write =>
    simp only [Slot.step]
    split
    case h_1 i rest hq =>
      split
      case h_1 h _ => exact fun j hj => hs j (live_write hq hj)
      case h_2 => exact hs
    case h_2 => exact hs
  | pop =>
    simp only [Slot.step]
    split
    case h_1 i rest hq =>
      have hrest : rest ⊆ s.queue := hq ▸ List.subset_cons_self _ _
      exact fun j hj => hs j (live_forget hrest (fun _ h => h) hj)
    case h_2 => exact hs
  | collect =>
    simp only [Slot.step]
    split
    case h_1 i hi =>
      split
      case isTrue => exact hs
      case isFalse hd => exact hs.collect hi hd
    case h_2 => exact hs

end

theorem carries_of_added (handle : BlockHandle P) {loads : List (Load P)}
    (hlive : Live { s.addHandle handle with creates, loads } s.handles.length)
    (hk : Kept { s.addHandle handle with creates, loads }) : Carries handle.info.flags s.promised :=
  hk.carried s.handles.length handle List.getElem?_concat_length hlive

theorem carries_of_saved (hi : s.handles[i]? = some handle) (hk : (s.save i handle).Kept) :
    Carries handle.info.serialize.flags handle.info.flags :=
  (carries_or.mp (hk.queued _ (List.mem_append_right _ (List.mem_singleton_self _)) rfl handle hi)).2

theorem carries_of_stored (hi : s.handles[i]? = some handle) (hk : (s.store k i handle).Kept) :
    Carries handle.info.serialize.flags handle.info.flags := by
  have hi' : (s.handles.modify i fun h => { h with refs := h.refs + 1 })[i]? =
      some { handle with refs := handle.refs + 1 } := by
    rw [List.getElem?_modify, hi]
    simp
  have h := hk.queued _ (List.mem_append_right _ (List.mem_singleton_self _)) rfl _ hi'
  exact (carries_or.mp h).2

theorem faithful_of_kept {e : Event P} (hk : (s.step e).Kept) : s.Faithful e := by
  cases e with
  | create parts info =>
    intro hc
    simp only [Slot.step, Slot.create, hc] at hk
    exact carries_of_added ⟨parts, info.setFlags FLAG_HAS_FULL_ID, 0⟩
      (.inr (.inl (List.mem_append_right _ (List.mem_singleton_self _)))) hk
  | advance k =>
    intro l data hl hd hc
    simp only [Slot.step, hl, hd, Slot.insert, hc] at hk
    exact carries_of_added ⟨l.parts, l.infoOf data, 1⟩
      (.inl ⟨_, List.getElem?_concat_length, Nat.one_pos⟩) hk
  | store k =>
    intro i h hki hi
    simp only [Slot.step, hki, hi] at hk
    exact carries_of_stored hi hk
  | save i =>
    intro h hi hr
    simp only [Slot.step, Slot.use, hi, hr, if_true] at hk
    exact carries_of_saved hi hk
  | _ => trivial

end Slot

namespace Storage

variable {H : Type} [DecidableEq H]

def FaithfulRun (s : Storage H P) : List (H × Event P) → Prop
  | [] => True
  | e :: es => (s e.1).Faithful e.2 ∧ (s.step e).FaithfulRun es

section

variable {s : Storage H P} (hs : ∀ rootHash, (s rootHash).Inv)
include hs

theorem inv_step {e : H × Event P} (hf : (s e.1).Faithful e.2) (rootHash : H) :
    (s.step e rootHash).Inv := by
  unfold step
  by_cases hr : rootHash = e.1
  · rw [hr, Function.update_self]
    exact (hs e.1).step hf
  · rw [Function.update_of_ne hr]
    exact hs rootHash

theorem inv_run {es : List (H × Event P)} (hf : s.FaithfulRun es) (rootHash : H) :
    (s.run es rootHash).Inv := by
  induction es generalizing s with
  | nil => exact hs rootHash
  | cons e es ih => exact ih (inv_step hs hf.1) hf.2

end

/-- Runs of faithful steps keep every saved flag, and a step after such a run keeps them exactly when it
is faithful. -/
theorem flags_kept_iff_faithful (db : H → Option (Stored P)) (es : List (H × Event P))
    (hf : (new db).FaithfulRun es) : (∀ rootHash, ((new db).run es rootHash).Kept) ∧
      ∀ e, (∀ rootHash, (((new db).run es).step e rootHash).Kept) ↔
        ((new db).run es e.1).Faithful e.2 := by
  have hs := inv_run (s := new db) (fun rootHash => Slot.inv_new (db rootHash)) hf
  refine ⟨fun rootHash => (hs rootHash).kept, fun e => ⟨fun hk => ?_, fun h rootHash => ?_⟩⟩
  · have hself := hk e.1
    rw [step, Function.update_self] at hself
    exact Slot.faithful_of_kept hself
  · exact (inv_step hs h rootHash).kept

theorem owned_step {s : Storage H P} (hs : ∀ r, (s r).Owned) (e : H × Event P) (r : H) :
    (s.step e r).Owned := by
  unfold step
  by_cases hr : r = e.1
  · rw [hr, Function.update_self]
    exact (hs e.1).step e.2
  · rw [Function.update_of_ne hr]
    exact hs r

theorem owned_run {s : Storage H P} (hs : ∀ r, (s r).Owned) (es : List (H × Event P)) (r : H) :
    (s.run es r).Owned := by
  induction es generalizing s with
  | nil => exact hs r
  | cons e es ih => exact ih (owned_step hs e)

/-- In every run of these events, faithful or not, a handle that is alive is the one in the cache, so
that a block never has two of them. -/
theorem live_handle_cached (db : H → Option (Stored P)) (es : List (H × Event P)) (rootHash : H) :
    ((new db).run es rootHash).Owned := by
  apply owned_run
  intro r i hi
  exact absurd hi (Slot.not_live_new (db r) i)

def reload : List (Unit × Event Unit) :=
  [.create () ⟨0, 0, 0⟩, .store 0, .setFlags 0 FLAG_DATA, .save 0, .write, .pop, .write, .pop,
    .release 0, .collect, .load () true, .advance 0, .advance 0, .advance 0].map ((), ·)

theorem flags_kept_reload : (new fun _ => none).FaithfulRun reload ∧
      ((new fun _ => none).run reload ()).promised = FLAG_DATA ||| FLAG_HAS_FULL_ID ∧
      ∀ rootHash, ((new fun _ => none).run reload rootHash).Kept := by
  have hrun : (new fun _ => none).FaithfulRun reload := by
    refine ⟨fun _ => by decide, ?_, trivial, ?_, trivial, trivial, trivial, trivial, trivial, trivial,
      trivial, nofun, nofun, ?_, trivial⟩
    · intro i h hi hh
      cases hi
      cases hh
      decide
    · intro h hh _
      cases hh
      decide
    · intro l data hl hd _
      cases hl
      cases hd
      decide
  exact ⟨hrun, by decide, (flags_kept_iff_faithful _ _ hrun).1⟩

def recreate : List (Unit × Event Unit) :=
  [.create () ⟨0, 0, 0⟩, .store 0, .setFlags 0 FLAG_DATA, .save 0, .write, .pop, .write, .pop,
    .release 0, .collect, .create () ⟨0, 0, 0⟩].map ((), ·)

def staleLoad : List (Unit × Event Unit) :=
  [.load () true, .advance 0, .advance 0, .load () true, .advance 1, .advance 1, .advance 1,
    .setFlags 0 FLAG_DATA, .save 0, .write, .pop, .release 0, .collect, .advance 0].map ((), ·)

/-- In both runs a flag is promised that the handle of the root hash does not have. -/
theorem flags_lost :
    (((new fun _ => none).run recreate ()).promised = FLAG_DATA ||| FLAG_HAS_FULL_ID ∧
      ((new fun _ => none).run recreate ()).Live 1 ∧
      (((new fun _ => none).run recreate ()).handles[1]?).map (·.info.flags) =
        some FLAG_HAS_FULL_ID) ∧
    ((new fun _ => some ⟨(), ⟨0, 0, 0⟩⟩).run staleLoad ()).promised = FLAG_DATA ∧
      ((new fun _ => some ⟨(), ⟨0, 0, 0⟩⟩).run staleLoad ()).Live 1 ∧
      (((new fun _ => some ⟨(), ⟨0, 0, 0⟩⟩).run staleLoad ()).handles[1]?).map
        (·.info.flags) = some 0 := by
  decide

end Storage

end TonNode.Handles
