import Mathlib

/-! A block has one handle in memory, which carries its flags. The cache of handles holds
weak references: a handle lives as long as somebody refers to it, and its destructor takes
it out of the cache. Handles that are saved go through a queue to a storer task, and a
queued handle is alive. An operation that looks into the cache and then into the database
does so in separate steps, and anything may happen in between. The same holds for the
creation of a handle, which is first added and then saved. -/
namespace TonNode.Handles

def FLAG_DATA : BitVec 32 := 0x00000001
def FLAG_HAS_FULL_ID : BitVec 32 := 0x00020000

structure BlockMeta where
  bits : BitVec 64
  genUtime : ℕ
  endLt : ℕ
deriving DecidableEq

namespace BlockMeta

variable (m : BlockMeta)

def flags : BitVec 32 := (m.bits >>> 32).setWidth 32

def setFlags (flags : BitVec 32) : BlockMeta :=
  { m with bits := m.bits ||| (flags.setWidth 64 <<< 32) }

def reset (flags : BitVec 32) (resetMcRefSeqNo : Bool) : BlockMeta :=
  if resetMcRefSeqNo then { m with bits := m.bits &&& ((~~~flags).setWidth 64 <<< 32) }
  else { m with bits := m.bits &&& ~~~(flags.setWidth 64 <<< 32) }

def FLAG_MASK : BitVec 64 := 0x0FFFFFFFFFFFFFFF

/-- What the database gets: the four topmost flags are not serialized. -/
def serialize : BlockMeta := { m with bits := m.bits &&& FLAG_MASK }

end BlockMeta

def Carries (flags mask : BitVec 32) : Prop := flags &&& mask = mask

instance (flags mask : BitVec 32) : Decidable (Carries flags mask) :=
  inferInstanceAs (Decidable (_ = _))

structure BlockHandle (P : Type) where
  parts : P
  info : BlockMeta
  /-- The references held outside the storage. -/
  refs : ℕ

structure Stored (P : Type) where
  parts : P
  info : BlockMeta

structure SaveHandle where
  handle : ℕ
  written : Bool

inductive LoadState (P : Type) where
  | lookup
  | reading
  | inserting (data : Stored P)
  | finished

structure Load (P : Type) where
  parts : P
  rhOnly : Bool
  state : LoadState P

variable {P : Type}

def Load.infoOf (l : Load P) (data : Stored P) : BlockMeta :=
  if l.rhOnly then data.info else data.info.setFlags FLAG_HAS_FULL_ID

def Load.partsOf (l : Load P) (data : Stored P) : P :=
  if l.rhOnly ∧ Carries data.info.flags FLAG_HAS_FULL_ID then data.parts else l.parts

/-- What there is for one root hash: the handles ever made, numbered, the entries of the cache and
of the database, the jobs of the storer, the creations that have added a handle and not saved it
yet, and the loads under way. `promised` is a history of the run: the flags that were set on a
handle when it was saved and have not been reset since. -/
structure Slot (P : Type) where
  handles : List (BlockHandle P)
  cache : Option ℕ
  db : Option (Stored P)
  queue : List SaveHandle
  creates : List ℕ
  loads : List (Load P)
  promised : BitVec 32

namespace Slot

def new (db : Option (Stored P)) : Slot P := ⟨[], none, db, [], [], [], 0⟩

variable (s : Slot P) (i : ℕ)

/-- The strong count of the handle is not zero: somebody refers to it, the creation that added it still
has to save it, or it is in the queue. -/
def Live : Prop :=
  (∃ h, s.handles[i]? = some h ∧ 0 < h.refs) ∨ i ∈ s.creates ∨ ∃ job ∈ s.queue, job.handle = i

instance : Decidable (s.Live i) :=
  decidable_of_iff ((s.handles[i]?.any fun h => 0 < h.refs) = true ∨ i ∈ s.creates ∨
    (s.queue.any fun job => job.handle = i) = true) (by simp [Live, Option.any_eq_true])

def modify (f : BlockHandle P → BlockHandle P) : Slot P :=
  { s with handles := s.handles.modify i f }

def addHandle (handle : BlockHandle P) : Slot P :=
  { s with handles := s.handles ++ [handle], cache := some s.handles.length }

/-- `create_handle` up to the saving: nothing is added beside an entry of the cache, and the database is
not asked. -/
def create (parts : P) (info : BlockMeta) : Slot P :=
  match s.cache with
  | some _ => s
  | none =>
    { s.addHandle ⟨parts, info.setFlags FLAG_HAS_FULL_ID, 0⟩ with
      creates := s.creates ++ [s.handles.length] }

def save (handle : BlockHandle P) : Slot P :=
  { s with queue := s.queue ++ [⟨i, false⟩], promised := s.promised ||| handle.info.flags }

variable (k : ℕ)

def store (i : ℕ) (handle : BlockHandle P) : Slot P :=
  { (s.save i handle).modify i fun h => { h with refs := h.refs + 1 } with
    creates := s.creates.eraseIdx k }

def setLoad (l : Load P) : Slot P := { s with loads := s.loads.set k l }

def lookup (l : Load P) : Slot P :=
  match s.cache with
  | some i =>
    if s.Live i then
      (s.modify i fun h => { h with refs := h.refs + 1 }).setLoad k { l with state := .finished }
    else s.setLoad k { l with state := .reading }
  | none => s.setLoad k { l with state := .reading }

def read (l : Load P) : Slot P :=
  match s.db with
  | some data => s.setLoad k { l with parts := l.partsOf data, state := .inserting data }
  | none => s.setLoad k { l with state := .finished }

/-- A load that finds an entry in the cache when it wants to add its handle starts again. -/
def insert (l : Load P) (data : Stored P) : Slot P :=
  match s.cache with
  | some _ => s.setLoad k { l with state := .lookup }
  | none => (s.addHandle ⟨l.parts, l.infoOf data, 1⟩).setLoad k { l with state := .finished }

def use (f : BlockHandle P → Slot P) : Slot P :=
  match s.handles[i]? with
  | some h => if 0 < h.refs then f h else s
  | none => s

def reset (flags : BitVec 32) (resetMcRefSeqNo : Bool) : Slot P :=
  { s.modify i fun h => { h with info := h.info.reset flags resetMcRefSeqNo } with
    promised := s.promised &&& ~~~flags }

def write (rest : List SaveHandle) (handle : BlockHandle P) : Slot P :=
  { s with db := some ⟨handle.parts, handle.info.serialize⟩, queue := ⟨i, true⟩ :: rest }

end Slot

inductive Event (P : Type) where
  | create (parts : P) (info : BlockMeta)
  | store (k : ℕ)
  | load (parts : P) (rhOnly : Bool)
  | advance (k : ℕ)
  | setFlags (i : ℕ) (flags : BitVec 32)
  | reset (i : ℕ) (flags : BitVec 32) (resetMcRefSeqNo : Bool)
  | save (i : ℕ)
  | release (i : ℕ)
  | write
  | pop
  | collect

def Slot.step (s : Slot P) : Event P → Slot P
  | .create parts info => s.create parts info
  | .store k =>
    match s.creates[k]? with
    | some i => match s.handles[i]? with
      | some handle => s.store k i handle
      | none => s
    | none => s
  | .load parts rhOnly => { s with loads := s.loads ++ [⟨parts, rhOnly, .lookup⟩] }
  | .advance k =>
    match s.loads[k]? with
    | some l => match l.state with
      | .lookup => s.lookup k l
      | .reading => s.read k l
      | .inserting data => s.insert k l data
      | .finished => s
    | none => s
  | .setFlags i flags =>
    s.use i fun _ => s.modify i fun h => { h with info := h.info.setFlags flags }
  | .reset i flags resetMcRefSeqNo => s.use i fun _ => s.reset i flags resetMcRefSeqNo
  | .save i => s.use i fun handle => s.save i handle
  | .release i => s.use i fun _ => s.modify i fun h => { h with refs := h.refs - 1 }
  | .write =>
    match s.queue with
    | ⟨i, false⟩ :: rest =>
      match s.handles[i]? with
      | some h => s.write i rest h
      | none => s
    | _ => s
  | .pop =>
    match s.queue with
    | ⟨_, true⟩ :: rest => { s with queue := rest }
    | _ => s
  -- the destructor of a handle, or of one that was made in vain, clears a dead entry
  | .collect =>
    match s.cache with
    | some i => if s.Live i then s else { s with cache := none }
    | none => s

/-- The cache and the database are maps from root hashes.  The storer has one queue for all of them;
here its steps for different root hashes come in any order. -/
abbrev Storage (H P : Type) : Type := H → Slot P

namespace Storage

variable {H : Type} [DecidableEq H]

def new (db : H → Option (Stored P)) : Storage H P := fun rootHash => Slot.new (db rootHash)

def step (s : Storage H P) (e : H × Event P) : Storage H P :=
  Function.update s e.1 ((s e.1).step e.2)

def run (s : Storage H P) (events : List (H × Event P)) : Storage H P := events.foldl step s

end Storage

theorem carries_iff {flags mask : BitVec 32} :
    Carries flags mask ↔ ∀ i, mask.getLsbD i = true → flags.getLsbD i = true := by
  constructor
  · intro h i hi
    rw [← h, BitVec.getLsbD_and, Bool.and_eq_true] at hi
    exact hi.1
  · intro h
    apply BitVec.eq_of_getLsbD_eq
    intro i _
    rw [BitVec.getLsbD_and]
    cases hm : mask.getLsbD i with
    | false => rw [Bool.and_false]
    | true => rw [h i hm, Bool.and_true]

theorem Carries.trans {a b c : BitVec 32} (hab : Carries a b) (hbc : Carries b c) : Carries a c :=
  carries_iff.mpr fun i hi => carries_iff.mp hab i (carries_iff.mp hbc i hi)

variable (a : BitVec 32)

theorem carries_self : Carries a a := BitVec.and_self

theorem carries_zero : Carries a 0 := BitVec.and_zero

theorem carries_or {a b c : BitVec 32} : Carries a (b ||| c) ↔ Carries a b ∧ Carries a c := by
  simp [carries_iff, or_imp, forall_and]

theorem carries_or_left (b : BitVec 32) : Carries (a ||| b) a :=
  carries_iff.mpr fun i hi => by rw [BitVec.getLsbD_or, hi, Bool.true_or]

theorem carries_and_left (b : BitVec 32) : Carries a (a &&& b) :=
  carries_iff.mpr fun i hi => by
    rw [BitVec.getLsbD_and, Bool.and_eq_true] at hi
    exact hi.1

theorem Carries.and {a b : BitVec 32} (h : Carries a b) (c : BitVec 32) :
    Carries (a &&& c) (b &&& c) :=
  carries_iff.mpr fun i hi => by
    rw [BitVec.getLsbD_and, Bool.and_eq_true] at hi ⊢
    exact ⟨carries_iff.mp h i hi.1, hi.2⟩

namespace BlockMeta

variable (m : BlockMeta)

theorem getLsbD_flags (i : ℕ) (hi : i < 32) : m.flags.getLsbD i = m.bits.getLsbD (32 + i) := by
  simp [flags, hi]

theorem flags_setFlags (f : BitVec 32) : (m.setFlags f).flags = m.flags ||| f := by
  apply BitVec.eq_of_getLsbD_eq
  intro i hi
  rw [BitVec.getLsbD_or, getLsbD_flags _ i hi, getLsbD_flags _ i hi]
  have hi' : 32 + i < 64 := by omega
  simp [setFlags, hi']

theorem flags_reset (f : BitVec 32) (b : Bool) : (m.reset f b).flags = m.flags &&& ~~~f := by
  apply BitVec.eq_of_getLsbD_eq
  intro i hi
  have hi' : 32 + i < 64 := by omega
  have hge : ¬ 32 + i < 32 := by omega
  have hi'' : i < 64 := by omega
  rw [BitVec.getLsbD_and, getLsbD_flags _ i hi, getLsbD_flags _ i hi]
  cases b with
  | true =>
    simp only [reset, if_true, BitVec.getLsbD_and, BitVec.getLsbD_shiftLeft,
      BitVec.getLsbD_setWidth, Nat.add_sub_cancel_left]
    simp [hi, hi', hi'', hge]
  | false =>
    simp only [reset, Bool.false_eq_true, if_false, BitVec.getLsbD_and, BitVec.getLsbD_not,
      BitVec.getLsbD_shiftLeft, BitVec.getLsbD_setWidth, Nat.add_sub_cancel_left]
    simp [hi, hi', hi'', hge]

theorem flags_serialize : m.serialize.flags = m.flags &&& 0x0FFFFFFF := by
  apply BitVec.eq_of_getLsbD_eq
  intro i hi
  rw [BitVec.getLsbD_and, getLsbD_flags _ i hi, getLsbD_flags _ i hi]
  simp only [serialize, BitVec.getLsbD_and]
  congr 1
  revert hi
  revert i
  decide

end BlockMeta

end TonNode.Handles
