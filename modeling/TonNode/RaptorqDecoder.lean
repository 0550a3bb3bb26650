import TonNode.RldpReceiver

/-!
The decoder of the vendored engine, with its assertions, for one source block that is not divided into
sub-blocks: these are the parameters the engine derives for every stream that passes the checks of a
message.  The table of block sizes and the elimination that rebuilds missing symbols are parameters; the
elimination is taken to crash on symbols of different lengths only.

A symbol whose length is not the symbol size is not refused when it comes in.  It is cut, or it crashes
the decoder, when the block is put together.
-/
namespace TonNode.Rldp

open Guarded (NoCrash Safe pure_eq_ok bind_eq_ok noCrash_bind noCrash_ok noCrash_pure mapM_eq_ok crash)

structure Raptorq where
  /-- The smallest block size of the table that has room for the source symbols. -/
  extendedSourceBlockSymbols : ℕ → ℕ
  le_extended (k : ℕ) : k ≤ extendedSourceBlockSymbols k
  /-- Rebuild the source symbols from the symbols received, given with their numbers; it needs more
  symbols when the system is singular, and it asserts that symbols are equally long. -/
  solve : (k size : ℕ) → List (ℕ × Bytes) → Guarded (Option (ℕ → { b : Bytes // b.length = size }))
  noCrash_solve (k size : ℕ) (symbols : List (ℕ × Bytes)) (h : ∀ p ∈ symbols, p.2.length = size) :
    NoCrash (solve k size symbols)

variable {R : Raptorq}

structure Decoder where
  transferLength : ℕ+
  symbolSize : ℕ+
  sourceSymbols : List (Option Bytes)
  repairPackets : List (ℕ × Bytes)
  receivedEsi : Finset ℕ
  block : Option Bytes
  transferLength_le : (transferLength : ℕ) ≤ symbolSize * sourceSymbols.length
  block_length (b : Bytes) (hb : block = some b) : b.length = symbolSize * sourceSymbols.length

namespace Decoder

def sourceBlockSymbols (d : Decoder) : ℕ := d.sourceSymbols.length

def receivedSourceSymbols (d : Decoder) : ℕ := d.sourceSymbols.countP Option.isSome

theorem le_mul_div_ceil (n m : ℕ) (hm : 0 < m) : n ≤ m * ((n + m - 1) / m) := by
  have h := Nat.lt_mul_div_succ (n + m - 1) hm
  have hmul : m * ((n + m - 1) / m + 1) = m * ((n + m - 1) / m) + m := Nat.mul_succ _ _
  omega

def new (R : Raptorq) (dataSize symbolSize : ℕ+) : Decoder where
  transferLength := dataSize
  symbolSize
  sourceSymbols := List.replicate (((dataSize : ℕ) + symbolSize - 1) / symbolSize) none
  repairPackets := []
  receivedEsi :=
    let k := ((dataSize : ℕ) + symbolSize - 1) / symbolSize
    Finset.Ico k (R.extendedSourceBlockSymbols k)
  block := none
  transferLength_le := by
    rw [List.length_replicate]
    exact le_mul_div_ceil _ _ symbolSize.pos
  block_length := by
    intro b hb
    cases hb

def payloadId (id : ℕ) : Guarded ℕ :=
  if id < 2 ^ 24 then .ok id else crash "assertion failed: encoding_symbol_id < 16777216"

def symbolId (R : Raptorq) (d : Decoder) (esi : ℕ) : ℕ :=
  if d.sourceBlockSymbols ≤ esi then
    esi + R.extendedSourceBlockSymbols d.sourceBlockSymbols - d.sourceBlockSymbols
  else esi

def receive (R : Raptorq) (d : Decoder) (esi : ℕ) (payload : Bytes) : Guarded Decoder :=
  let id := d.symbolId R esi
  if id ∈ d.receivedEsi then .ok d
  else if R.extendedSourceBlockSymbols d.sourceBlockSymbols ≤ id then do
    let id ← payloadId id
    pure { d with
      receivedEsi := insert id d.receivedEsi
      repairPackets := d.repairPackets ++ [(id, payload)] }
  else do
    Guarded.assert (id < d.sourceBlockSymbols)
    pure { d with
      receivedEsi := insert id d.receivedEsi
      sourceSymbols := d.sourceSymbols.set id (some payload)
      transferLength_le := by
        rw [List.length_set]
        exact d.transferLength_le
      block_length := by
        rw [List.length_set]
        exact d.block_length }

def unpack (size : ℕ) (symbols : List Bytes) : Guarded Bytes := do
  let pieces ← symbols.mapM fun symbol => Guarded.slice symbol 0 size
  pure pieces.flatten

def unwrapSymbol : Option Bytes → Guarded Bytes
  | some symbol => .ok symbol
  | none => crash "called Option::unwrap on a None value"

/-- The symbols the elimination works on, with their numbers: received source symbols, padding, and
repair symbols. -/
def system (R : Raptorq) (d : Decoder) : List (ℕ × Bytes) :=
  (d.sourceSymbols.zipIdx.filterMap fun p => p.1.map fun symbol => (p.2, symbol)) ++
    ((List.range' d.sourceBlockSymbols
      (R.extendedSourceBlockSymbols d.sourceBlockSymbols - d.sourceBlockSymbols)).map
        fun i => (i, List.replicate d.symbolSize 0)) ++ d.repairPackets

def assemble (R : Raptorq) (d : Decoder) : Guarded (Option Bytes) :=
  if d.receivedSourceSymbols = d.sourceBlockSymbols then do
    let symbols ← d.sourceSymbols.mapM unwrapSymbol
    let block ← unpack d.symbolSize symbols
    pure (some block)
  else if R.extendedSourceBlockSymbols d.sourceBlockSymbols ≤ d.receivedEsi.card then do
    match ← R.solve d.sourceBlockSymbols d.symbolSize (d.system R) with
    | none => pure none
    | some rebuilt =>
      let block ← unpack d.symbolSize (d.sourceSymbols.zipIdx.map fun p => p.1.getD (rebuilt p.2))
      pure (some block)
  else pure none

theorem unpack_length {size : ℕ} {symbols : List Bytes} {b : Bytes}
    (h : unpack size symbols = .ok b) : b.length = size * symbols.length := by
  simp only [unpack, bind_eq_ok, pure_eq_ok, mapM_eq_ok] at h
  obtain ⟨pieces, hpieces, rfl⟩ := h
  induction hpieces with
  | nil => simp
  | cons hpiece _ ih =>
    obtain ⟨⟨-, hle⟩, rfl⟩ := (Guarded.slice_eq_ok ..).mp hpiece
    rw [List.flatten_cons, List.length_append, ih, List.length_cons, Nat.mul_succ]
    simp only [List.drop_zero, List.length_take, Nat.sub_zero]
    omega

theorem assemble_length {d : Decoder} {b : Bytes} (h : d.assemble R = .ok (some b)) :
    b.length = d.symbolSize * d.sourceSymbols.length := by
  unfold assemble at h
  split_ifs at h
  · simp only [bind_eq_ok, pure_eq_ok, Option.some.injEq] at h
    obtain ⟨symbols, hsymbols, block, hblock, rfl⟩ := h
    rw [unpack_length hblock, (mapM_eq_ok.mp hsymbols).length_eq]
  · rw [bind_eq_ok] at h
    obtain ⟨solution, -, h⟩ := h
    cases solution with
    | none =>
      cases h
    | some rebuilt =>
      simp only [bind_eq_ok, pure_eq_ok, Option.some.injEq] at h
      obtain ⟨block, hblock, rfl⟩ := h
      rw [unpack_length hblock, List.length_map, List.length_zipIdx]
  · rw [pure_eq_ok] at h
    cases h

def finish (R : Raptorq) (d : Decoder) : Guarded Decoder :=
  match h : d.assemble R with
  | .error e => .error e
  | .ok none => .ok d
  | .ok (some block) =>
    .ok { d with
      block := some block
      block_length := by
        intro b hb
        cases hb
        exact assemble_length h }

theorem noCrash_finish {d : Decoder} :
    NoCrash (d.finish R) ↔ NoCrash (d.assemble R) := by
  unfold finish
  split
  · rename_i e he
    rw [he]
    simp [NoCrash]
  · rename_i he
    rw [he]
    exact iff_of_true (noCrash_ok _) (noCrash_ok _)
  · rename_i he
    exact iff_of_true (noCrash_ok _) (he ▸ noCrash_ok _)

def advance (R : Raptorq) (d : Decoder) (esi : ℕ) (data : Bytes) : Guarded Decoder :=
  if d.block.isNone then d.receive R esi data >>= finish R else .ok d

def decode (R : Raptorq) (d : Decoder) (seqno : ℕ) (data : Bytes) :
    Guarded (Option Bytes × Decoder) := do
  let esi ← payloadId seqno
  let d ← d.advance R esi data
  pure (d.block.map (List.take d.transferLength), d)

end Decoder

def raptorqEngine (R : Raptorq) : DecoderEngine where
  State := Decoder
  new := Decoder.new R
  decode := Decoder.decode R

namespace Decoder

section

variable {d d' : Decoder} {seqno : ℕ} {data result : Bytes}
  (h : d.decode R seqno data = .ok (some result, d'))
include h

theorem decode_length : result.length = d'.transferLength := by
  simp only [decode, bind_eq_ok, pure_eq_ok, Prod.mk.injEq] at h
  obtain ⟨_, -, d'', -, hresult, rfl⟩ := h
  obtain ⟨block, hblock, rfl⟩ := Option.map_eq_some_iff.mp hresult
  rw [List.length_take, d''.block_length block hblock]
  exact min_eq_left d''.transferLength_le

theorem decode_ne_nil : result ≠ [] := by
  intro hnil
  have hlen := decode_length h
  rw [hnil, List.length_nil] at hlen
  exact d'.transferLength.ne_zero hlen.symm

end

/-- A decoder of `k` symbols of `size` bytes each, for which only symbols of that size came in. -/
structure Even (k size : ℕ) (d : Decoder) : Prop where
  symbols_eq : d.sourceBlockSymbols = k
  size_eq : d.symbolSize = size
  source (symbol : Bytes) (h : some symbol ∈ d.sourceSymbols) : symbol.length = size
  repair (p : ℕ × Bytes) (h : p ∈ d.repairPackets) : p.2.length = size

theorem even_new (R : Raptorq) (dataSize symbolSize : ℕ+) (size : ℕ) (h : symbolSize = size) :
    (new R dataSize symbolSize).Even (((dataSize : ℕ) + size - 1) / size) size where
  symbols_eq := by
    rw [← h]
    exact List.length_replicate
  size_eq := h
  source symbol hmem := by cases List.eq_of_mem_replicate hmem
  repair p hmem := by cases hmem

variable {k size : ℕ} {d : Decoder} (hd : d.Even k size)
include hd

/-- A packet of the symbol size is stored, if the number of its symbol can be written. -/
theorem Even.receive {esi : ℕ} {payload : Bytes} (hlen : payload.length = size)
    (hid : k ≤ esi → esi + (R.extendedSourceBlockSymbols k - k) < 2 ^ 24) :
    Safe (d.receive R esi payload) (Even k size) := by
  obtain ⟨rfl, hsize, hsource, hrepair⟩ := hd
  have hroom := R.le_extended d.sourceBlockSymbols
  unfold Decoder.receive
  dsimp only
  split_ifs with hseen hpast
  · exact .pure ⟨rfl, hsize, hsource, hrepair⟩
  · have hnumber : d.symbolId R esi < 2 ^ 24 := by
      unfold symbolId at hpast ⊢
      split_ifs at hpast ⊢ with hle
      · have := hid hle
        omega
      · omega
    rw [payloadId, if_pos hnumber]
    refine .pure ⟨rfl, hsize, hsource, ?_⟩
    intro p hp
    rcases List.mem_append.mp hp with hp | hp
    · exact hrepair p hp
    · rw [List.mem_singleton.mp hp]
      exact hlen
  · have hfirst : d.symbolId R esi < d.sourceBlockSymbols := by
      unfold symbolId at hpast ⊢
      split_ifs at hpast ⊢ with hle
      · omega
      · omega
    rw [Guarded.assert, if_pos hfirst]
    refine .pure ⟨List.length_set, hsize, ?_, hrepair⟩
    intro symbol hmem
    rcases List.mem_or_eq_of_mem_set hmem with hmem | heq
    · exact hsource symbol hmem
    · rw [Option.some.inj heq]
      exact hlen

omit hd in
theorem noCrash_unpack {symbols : List Bytes} (h : ∀ symbol ∈ symbols, symbol.length = size) :
    NoCrash (unpack size symbols) := by
  refine noCrash_bind.mpr ⟨Guarded.noCrash_mapM.mpr ?_, fun _ _ => noCrash_pure _⟩
  rintro done symbol rest rfl -
  rw [Guarded.noCrash_slice, h symbol (by simp)]
  exact ⟨Nat.zero_le _, le_rfl⟩

omit hd in
theorem map_some_of_unwrap {l : List (Option Bytes)} {symbols : List Bytes}
    (h : List.Forall₂ (fun a b => unwrapSymbol a = .ok b) l symbols) : l = symbols.map some := by
  induction h with
  | nil => rfl
  | @cons a b _ _ hab _ ih =>
    cases a with
    | none => cases hab
    | some symbol =>
      cases hab
      rw [ih, List.map_cons]

theorem Even.system (p : ℕ × Bytes) (hp : p ∈ d.system R) : p.2.length = size := by
  rcases List.mem_append.mp hp with hp | hp
  · rcases List.mem_append.mp hp with hp | hp
    · obtain ⟨⟨entry, i⟩, hentry, hp⟩ := List.mem_filterMap.mp hp
      obtain ⟨symbol, rfl, rfl⟩ := Option.map_eq_some_iff.mp hp
      exact hd.source symbol (List.fst_mem_of_mem_zipIdx hentry)
    · obtain ⟨i, -, rfl⟩ := List.mem_map.mp hp
      exact List.length_replicate.trans hd.size_eq
  · exact hd.repair p hp

theorem Even.assemble : NoCrash (d.assemble R) := by
  obtain ⟨rfl, rfl⟩ := And.intro hd.symbols_eq hd.size_eq
  unfold Decoder.assemble
  split_ifs with hall
  · refine noCrash_bind.mpr ⟨Guarded.noCrash_mapM.mpr ?_, ?_⟩
    · intro done symbol rest hsplit _
      have hsome := List.countP_eq_length.mp hall symbol (by rw [hsplit]; simp)
      obtain ⟨symbol, rfl⟩ := Option.isSome_iff_exists.mp hsome
      exact noCrash_ok _
    · intro symbols hsymbols
      refine noCrash_bind.mpr ⟨noCrash_unpack ?_, fun _ _ => noCrash_pure _⟩
      intro symbol hmem
      refine hd.source symbol ?_
      rw [map_some_of_unwrap (mapM_eq_ok.mp hsymbols)]
      exact List.mem_map_of_mem hmem
  · refine noCrash_bind.mpr ⟨R.noCrash_solve _ _ _ hd.system, ?_⟩
    intro solution _
    cases solution with
    | none => exact noCrash_pure _
    | some rebuilt =>
      refine noCrash_bind.mpr ⟨noCrash_unpack ?_, fun _ _ => noCrash_pure _⟩
      intro symbol hmem
      obtain ⟨⟨entry, i⟩, hentry, rfl⟩ := List.mem_map.mp hmem
      cases entry with
      | none => exact (rebuilt i).2
      | some symbol => exact hd.source symbol (List.fst_mem_of_mem_zipIdx hentry)
  · exact noCrash_pure _

theorem Even.finish : Safe (d.finish R) (Even k size) := by
  refine ⟨noCrash_finish.mpr hd.assemble, ?_⟩
  intro d' h
  unfold Decoder.finish at h
  split at h
  · cases h
  · cases h
    exact hd
  · cases h
    exact ⟨hd.symbols_eq, hd.size_eq, hd.source, hd.repair⟩

theorem Even.decode {seqno : ℕ} {data : Bytes} (hseqno : seqno < 2 ^ 24) (hlen : data.length = size)
    (hid : k ≤ seqno → seqno + (R.extendedSourceBlockSymbols k - k) < 2 ^ 24) :
    Safe (d.decode R seqno data) fun result => result.2.Even k size := by
  have hadvance : Safe (d.advance R seqno data) (Even k size) := by
    unfold advance
    split_ifs
    · exact (hd.receive hlen hid).bind fun _ _ h => h.finish
    · exact .pure hd
  rw [Decoder.decode, payloadId, if_pos hseqno]
  exact hadvance.bind fun _ _ h => .pure h

end Decoder

end TonNode.Rldp
