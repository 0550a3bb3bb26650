import TonNode.CellBuilder
import TonNode.VmInteger

/-! An integer is stored in a cell with a given number of bits, signed or unsigned, with
the highest or the lowest byte first. In big-endian form its bits are aligned to the left
of the bytes. What is stored is read back unchanged, but a signed zero of no bits is
refused, and the reader refuses the unsigned numbers of 257 bits that are no integers of
the machine. The build is a release build: debug assertions are not checked. -/

namespace TonNode.Vm

open Checked Boc
open Cells (Bytes maxDataBits)

/-- The lowest bytes of the two's complement of a number, the lowest one first. -/
def leBytes : ℕ → ℤ → Bytes
  | 0, _ => []
  | len + 1, x => UInt8.ofNat (x % 256).toNat :: leBytes len (x / 256)

def fromBytesLe : Bytes → ℤ
  | [] => 0
  | b :: bytes => b.toNat + 256 * fromBytesLe bytes

def toBytesLe (x : ℤ) : Bytes := leBytes (max 1 ((x.natAbs.size + 7) / 8)) x.natAbs

def toSignedBytesLe (x : ℤ) : Bytes := leBytes ((bitsize x + 7) / 8) x

def fromSignedBytesLe (bytes : Bytes) : ℤ :=
  let value := fromBytesLe bytes
  if 256 ^ bytes.length ≤ 2 * value then value - 256 ^ bytes.length else value

def bitsToBytes (bits : ℕ) : ℕ := (bits + 7) >>> 3

def getFill (isNegative : Bool) : UInt8 := if isNegative then 0xFF else 0

def extendBufferLe (buffer : Bytes) (bits : ℕ) (isNegative : Bool) : Bytes :=
  buffer ++ List.replicate (bitsToBytes bits - buffer.length) (getFill isNegative)

def extendBufferBe (buffer : Bytes) (bits : ℕ) (isNegative : Bool) : Bytes :=
  List.replicate (bitsToBytes bits - buffer.length) (getFill isNegative) ++ buffer

variable (bits : ℕ) (signed bigEndian : Bool)

def trySerializeToVec (value : ℤ) : Checked Bytes := do
  require (signed ∨ 0 ≤ value) "RangeCheckError"
  require (if signed then bitsize value ≤ bits else 0 ≤ value ∧ value.natAbs.size ≤ bits)
    "RangeCheckError"
  let excessBits := bits &&& 0b111
  let value := if bigEndian ∧ excessBits ≠ 0 then value <<< (8 - excessBits) else value
  pure <| match signed, bigEndian with
    | true, true => extendBufferBe (toSignedBytesLe value).reverse bits (value < 0)
    | true, false => extendBufferLe (toSignedBytesLe value) bits (value < 0)
    | false, true => extendBufferBe (toBytesLe value).reverse bits false
    -- `resize` also shortens
    | false, false => (extendBufferLe (toBytesLe value) bits false).take (bitsToBytes bits)

def IntegerData.asBuilder (x : IntegerData) : Checked BuilderData := do
  let value ← present x.value "IntegerOverflow"
  let bytes ← trySerializeToVec bits signed bigEndian value
  let data ← withRaw bytes bits
  pure ⟨data, bits, [], .ordinary⟩

def IntegerData.fromBytes (data : Bytes) : Checked IntegerData :=
  let bytes := if bigEndian then data.reverse else data
  let value := if signed then fromSignedBytesLe bytes else fromBytesLe bytes
  let excessBits := bits &&& 0b111
  let value := if bigEndian ∧ excessBits ≠ 0 then value >>> (8 - excessBits) else value
  (fromInt value).mapError fun _ => "IntegerOverflow"

/-- The range of a signed number is doubled, so that it makes sense for no bits. -/
def Storable (x : ℤ) : Prop :=
  if signed then -2 ^ bits ≤ 2 * x ∧ 2 * x < 2 ^ bits else 0 ≤ x ∧ x < 2 ^ bits

instance (x : ℤ) : Decidable (Storable bits signed x) := by
  unfold Storable
  infer_instance

structure RoundTrips (x : ℤ) : Prop where
  stored_iff : (∃ b, IntegerData.asBuilder bits signed bigEndian ⟨some x⟩ = .ok b) ↔
    Storable bits signed x
  read_back : ∀ b, IntegerData.asBuilder bits signed bigEndian ⟨some x⟩ = .ok b →
    b.lengthInBits = bits ∧ IntegerData.fromBytes bits signed bigEndian b.data = .ok ⟨some x⟩

@[simp] theorem length_leBytes (len : ℕ) (x : ℤ) : (leBytes len x).length = len := by
  induction len generalizing x with
  | zero => rfl
  | succ len ih => rw [leBytes, List.length_cons, ih]

theorem leBytes_add (a b : ℕ) (x : ℤ) :
    leBytes (a + b) x = leBytes a x ++ leBytes b (x / 256 ^ a) := by
  induction a generalizing x with
  | zero => simp [leBytes]
  | succ a ih =>
    rw [Nat.succ_add, leBytes, ih, leBytes, List.cons_append,
      Int.ediv_ediv_of_nonneg (by norm_num), pow_succ']

theorem leBytes_sign (negative : Bool) (len : ℕ) :
    leBytes len (if negative then -1 else 0) = List.replicate len (getFill negative) := by
  induction len with
  | zero => rfl
  | succ len ih =>
    rw [List.replicate_succ, ← ih]
    cases negative with
    | false | true => rfl

/-- Bytes beyond the number repeat its sign. -/
theorem leBytes_extend {a k : ℕ} {x : ℤ} (hlow : -256 ^ a ≤ x) (hhigh : x < 256 ^ a) (hk : a ≤ k) :
    leBytes a x ++ List.replicate (k - a) (getFill (x < 0)) = leBytes k x := by
  have hdiv : x / 256 ^ a = if decide (x < 0) then -1 else 0 := by
    rw [Int.ediv_eq_iff_of_pos (by positivity)]
    split_ifs with hx
    · have := of_decide_eq_true hx
      constructor <;> linarith
    · have := of_decide_eq_false (Bool.eq_false_of_not_eq_true hx)
      constructor <;> linarith
  rw [← leBytes_sign, ← hdiv, ← leBytes_add, Nat.add_sub_of_le hk]

theorem fromBytesLe_leBytes (len : ℕ) (x : ℤ) : fromBytesLe (leBytes len x) = x % 256 ^ len := by
  induction len generalizing x with
  | zero => simp [leBytes, fromBytesLe]
  | succ len ih =>
    have hbyte : ((UInt8.ofNat (x % 256).toNat).toNat : ℤ) = x % 256 := by
      rw [UInt8.toNat_ofNat']
      omega
    rw [leBytes, fromBytesLe, ih, hbyte, Int.emod_def, Int.emod_def, Int.emod_def,
      Int.ediv_ediv_of_nonneg (by norm_num), pow_succ']
    ring

/-- The bytes of a number, as few of them as the writer takes. -/
def Spells (k : ℕ) (y : ℤ) (buffer : Bytes) : Prop :=
  ∃ a ≤ k, buffer = leBytes a y ∧ -256 ^ a ≤ y ∧ y < 256 ^ a

variable {bits : ℕ} {signed bigEndian : Bool} {k : ℕ} {x y : ℤ} {buffer : Bytes}

theorem Spells.extendLe (h : Spells (bitsToBytes bits) y buffer) :
    extendBufferLe buffer bits (y < 0) = leBytes (bitsToBytes bits) y := by
  obtain ⟨a, ha, rfl, hlow, hhigh⟩ := h
  rw [extendBufferLe, length_leBytes, leBytes_extend hlow hhigh ha]

theorem Spells.extendBe (h : Spells (bitsToBytes bits) y buffer) :
    extendBufferBe buffer.reverse bits (y < 0) = (leBytes (bitsToBytes bits) y).reverse := by
  rw [← h.extendLe, extendBufferLe, List.reverse_append, List.reverse_replicate, extendBufferBe,
    List.length_reverse]

theorem two_pow_eight (k : ℕ) : (2 : ℤ) ^ (8 * k) = 256 ^ k := by
  rw [pow_mul]
  norm_num

theorem bitsize_le_iff_storable : bitsize y ≤ k ↔ 0 < k ∧ Storable k true y := by
  cases k with
  | zero =>
    refine ⟨fun h => ?_, fun h => absurd h.1 (lt_irrefl 0)⟩
    have hsmall := (bitsize_le_iff y 0).mp (by omega)
    obtain rfl | rfl : y = 0 ∨ y = -1 := by omega
    · cases h
    · cases h
  | succ n =>
    rw [bitsize_le_iff, Storable, if_pos rfl, pow_succ]
    constructor <;> intro h <;> omega

theorem spells_toSignedBytesLe (hk : 0 < k) (h : Storable (8 * k) true y) :
    Spells k y (toSignedBytesLe y) := by
  have hsize := bitsize_le_iff_storable.mpr ⟨by omega, h⟩
  have hself : bitsize y ≤ 8 * ((bitsize y + 7) / 8) := by omega
  obtain ⟨-, hrange⟩ := bitsize_le_iff_storable.mp hself
  rw [Storable, if_pos rfl, two_pow_eight] at hrange
  have hpow : (0 : ℤ) < 256 ^ ((bitsize y + 7) / 8) := by positivity
  exact ⟨_, by omega, rfl, by omega, by omega⟩

theorem size_natAbs_le_iff (hx : 0 ≤ x) : x.natAbs.size ≤ k ↔ x < 2 ^ k := by
  rw [Nat.size_le]
  zify
  rw [abs_of_nonneg hx]

theorem spells_toBytesLe (hk : 0 < k) (h : Storable (8 * k) false y) :
    Spells k y (toBytesLe y) := by
  obtain ⟨hpos, hlt⟩ := h
  have hsize := (size_natAbs_le_iff hpos).mpr hlt
  have hself : y.natAbs.size ≤ 8 * max 1 ((y.natAbs.size + 7) / 8) := by omega
  rw [size_natAbs_le_iff hpos, two_pow_eight] at hself
  refine ⟨_, by omega, by rw [toBytesLe, Int.natAbs_of_nonneg hpos], ?_, hself⟩
  exact le_trans (by simp) hpos

theorem checks_iff : ((signed ∨ 0 ≤ x) ∧
      if signed then bitsize x ≤ bits else 0 ≤ x ∧ x.natAbs.size ≤ bits) ↔
    Storable bits signed x ∧ (signed → 0 < bits) := by
  cases signed with
  | true => simp [bitsize_le_iff_storable, and_comm]
  | false =>
    simp only [Storable, Bool.false_eq_true, false_or, if_false, false_imp_iff, and_true]
    constructor
    · rintro ⟨hx, -, hsize⟩
      exact ⟨hx, (size_natAbs_le_iff hx).mp hsize⟩
    · rintro ⟨hx, hlt⟩
      exact ⟨hx, hx, (size_natAbs_le_iff hx).mpr hlt⟩

theorem fromSignedBytesLe_leBytes (h : Storable (8 * k) true y) :
    fromSignedBytesLe (leBytes k y) = y := by
  rw [Storable, if_pos rfl, two_pow_eight] at h
  have hmod : y % 256 ^ k = if y < 0 then y + 256 ^ k else y := by
    split_ifs with hy
    · rw [← Int.add_emod_right, Int.emod_eq_of_lt (by omega) (by omega)]
    · exact Int.emod_eq_of_lt (by omega) (by omega)
  rw [fromSignedBytesLe]
  simp only [fromBytesLe_leBytes, length_leBytes, hmod]
  split_ifs <;> omega

/-- The number, moved to the left of the bytes that hold it. -/
def aligned (bits : ℕ) (x : ℤ) : ℤ := x * 2 ^ (8 * bitsToBytes bits - bits)

def storedBytes (bits : ℕ) (bigEndian : Bool) (x : ℤ) : Bytes :=
  let bytes := leBytes (bitsToBytes bits) (aligned bits x)
  if bigEndian then bytes.reverse else bytes

theorem bitsToBytes_eq (bits : ℕ) : bitsToBytes bits = (bits + 7) / 8 :=
  Nat.shiftRight_eq_div_pow _ 3

theorem excessBits_eq : bits &&& 0b111 = bits % 8 :=
  Nat.and_two_pow_sub_one_eq_mod bits 3

theorem Storable.align (h : Storable bits signed x) :
    Storable (8 * bitsToBytes bits) signed (aligned bits x) := by
  have hbytes := bitsToBytes_eq bits
  have hpow : (0 : ℤ) < 2 ^ (8 * bitsToBytes bits - bits) := by positivity
  have hsplit :
      (2 : ℤ) ^ (8 * bitsToBytes bits) = 2 ^ bits * 2 ^ (8 * bitsToBytes bits - bits) := by
    rw [← pow_add, Nat.add_sub_of_le (by omega)]
  cases signed with
  | true =>
    rw [Storable, if_pos rfl, hsplit, aligned]
    constructor <;> nlinarith [h.1, h.2]
  | false =>
    rw [Storable, if_neg Bool.false_ne_true, hsplit]
    exact ⟨mul_nonneg h.1 hpow.le, mul_lt_mul_of_pos_right h.2 hpow⟩

variable (hle : bigEndian = false → bits % 8 = 0)
include hle

theorem aligned_eq : aligned bits x =
    if bigEndian ∧ bits % 8 ≠ 0 then x * 2 ^ (8 - bits % 8) else x := by
  have hbytes := bitsToBytes_eq bits
  split_ifs with h
  · rw [aligned, show 8 * bitsToBytes bits - bits = 8 - bits % 8 by omega]
  · have hwhole : bits % 8 = 0 := by
      by_contra hne
      exact h ⟨Bool.eq_true_of_not_eq_false fun hb => hne (hle hb), hne⟩
    rw [aligned, show 8 * bitsToBytes bits - bits = 0 by omega, pow_zero, mul_one]

theorem trySerializeToVec_eq (hbits : 0 < bits) (h : Storable bits signed x) :
    trySerializeToVec bits signed bigEndian x = .ok (storedBytes bits bigEndian x) := by
  have hbytes := bitsToBytes_eq bits
  obtain ⟨hsign, hsize⟩ := checks_iff.mpr ⟨h, fun _ => hbits⟩
  have hfull := h.align
  simp only [trySerializeToVec, storedBytes, excessBits_eq, Int.shiftLeft_eq, ← aligned_eq hle,
    require, if_pos hsign, if_pos hsize]
  generalize aligned bits x = y at hfull
  refine congrArg Except.ok ?_
  cases signed with
  | true =>
    have hspells := spells_toSignedBytesLe (by omega) hfull
    cases bigEndian with
    | true => exact hspells.extendBe
    | false => exact hspells.extendLe
  | false =>
    have hspells := spells_toBytesLe (by omega) hfull
    have hfill : decide (y < 0) = false := decide_eq_false hfull.1.not_gt
    have hextend := hspells.extendLe
    have hextend' := hspells.extendBe
    rw [hfill] at hextend hextend'
    cases bigEndian with
    | true => exact hextend'
    | false =>
      simp only [hextend]
      exact List.take_of_length_le (length_leBytes _ y).le

omit hle in
/-- The last byte has no bits below the number. -/
theorem keepBits_of_dvd {shift n : ℕ} (hshift : shift < 8) (hn : n < 256)
    (h : 2 ^ (8 - shift) ∣ n) : keepBits shift (UInt8.ofNat n) = UInt8.ofNat n := by
  have hall : ∀ s : Fin 8, ∀ m : Fin 256, 2 ^ (8 - s.val) ∣ m.val →
      keepBits s.val (UInt8.ofNat m.val) = UInt8.ofNat m.val := by
    decide +kernel
  exact hall ⟨shift, hshift⟩ ⟨n, hn⟩ h

theorem withRaw_storedBytes (hbits : bits ≤ maxDataBits) :
    withRaw (storedBytes bits bigEndian x) bits = .ok (storedBytes bits bigEndian x) := by
  have hbytes := bitsToBytes_eq bits
  have hlen : (storedBytes bits bigEndian x).length = bitsToBytes bits := by
    rw [storedBytes]
    split_ifs
    · rw [List.length_reverse, length_leBytes]
    · rw [length_leBytes]
  rw [withRaw, require, if_pos (by omega), require, if_pos hbits]
  refine congrArg Except.ok ?_
  by_cases hwhole : bits % 8 = 0
  · rw [if_pos hwhole, List.take_of_length_le (by omega)]
  · rw [if_neg hwhole, List.take_of_length_le (by omega)]
    obtain rfl : bigEndian = true := by
      by_contra hb
      exact hwhole (hle (Bool.eq_false_of_not_eq_true hb))
    obtain ⟨k, hk⟩ : ∃ k, bitsToBytes bits = k + 1 := ⟨bitsToBytes bits - 1, by omega⟩
    rw [storedBytes, if_pos rfl, aligned_eq hle, if_pos ⟨rfl, hwhole⟩, hk, leBytes,
      List.reverse_cons, modifyLast_concat, keepBits_of_dvd (by omega) (by omega)]
    have hdvd : (2 : ℤ) ^ (8 - bits % 8) ∣ 256 := pow_dvd_pow 2 (Nat.sub_le 8 _)
    rw [← Int.natCast_dvd_natCast, Int.toNat_of_nonneg (by omega)]
    push_cast
    exact (EuclideanDomain.dvd_mod_iff hdvd).mpr (dvd_mul_left _ x)

theorem asBuilder_eq (hbits : bits ≤ maxDataBits) (h : Storable bits signed x)
    (hpos : signed → 0 < bits) : IntegerData.asBuilder bits signed bigEndian ⟨some x⟩ =
      .ok ⟨storedBytes bits bigEndian x, bits, [], .ordinary⟩ := by
  rcases Nat.eq_zero_or_pos bits with rfl | hbits'
  · cases signed with
    | true => exact absurd (hpos rfl) (lt_irrefl 0)
    | false =>
      obtain rfl : x = 0 := by
        have := h.1
        have := h.2
        omega
      cases bigEndian with
      | true | false => rfl
  · simp only [IntegerData.asBuilder, present, ok_bind, trySerializeToVec_eq hle hbits' h,
      withRaw_storedBytes hle hbits]
    rfl

omit hle in
theorem storable_of_asBuilder {b : BuilderData}
    (h : IntegerData.asBuilder bits signed bigEndian ⟨some x⟩ = .ok b) :
    Storable bits signed x ∧ (signed → 0 < bits) := by
  simp only [IntegerData.asBuilder, trySerializeToVec, present, ok_bind, bind_eq_ok,
    require_eq_ok] at h
  obtain ⟨_, ⟨-, hsign, -, hsize, -⟩, -⟩ := h
  exact checks_iff.mp ⟨hsign, hsize⟩

theorem fromBytes_storedBytes (h : Storable bits signed x) :
    IntegerData.fromBytes bits signed bigEndian (storedBytes bits bigEndian x) =
      (IntegerData.fromInt x).mapError fun _ => "IntegerOverflow" := by
  have hfull := h.align
  have hback : (if signed then fromSignedBytesLe (leBytes (bitsToBytes bits) (aligned bits x))
      else fromBytesLe (leBytes (bitsToBytes bits) (aligned bits x))) = aligned bits x := by
    cases signed with
    | true => exact fromSignedBytesLe_leBytes hfull
    | false =>
      rw [Storable, two_pow_eight] at hfull
      exact (fromBytesLe_leBytes _ _).trans (Int.emod_eq_of_lt hfull.1 hfull.2)
  have horder : (if bigEndian then (storedBytes bits bigEndian x).reverse
      else storedBytes bits bigEndian x) = leBytes (bitsToBytes bits) (aligned bits x) := by
    cases bigEndian with
    | true => exact List.reverse_reverse _
    | false => rfl
  simp only [IntegerData.fromBytes, horder, hback, excessBits_eq]
  rw [aligned_eq hle]
  split_ifs
  · rw [Int.shiftRight_eq_div_pow, Nat.cast_pow, Nat.cast_ofNat,
      Int.mul_ediv_cancel _ (by positivity)]
  · rfl

/-- What is stored is read back unchanged, up to a signed zero of no bits, which is refused, and the
numbers that are no integers of the machine. -/
theorem asBuilder_roundTrips_iff (hbits : bits ≤ maxDataBits) :
    RoundTrips bits signed bigEndian x ↔
      (Storable bits signed x → (signed → 0 < bits) ∧ Fits x) := by
  have hread : Storable bits signed x →
      (IntegerData.fromBytes bits signed bigEndian (storedBytes bits bigEndian x) =
        .ok ⟨some x⟩ ↔ Fits x) := by
    intro h
    rw [fromBytes_storedBytes hle h, ← checkOverflow_iff, IntegerData.fromInt]
    split_ifs with hfits <;> simp [Except.mapError, hfits]
  constructor
  · intro h hstorable
    obtain ⟨b, hb⟩ := h.stored_iff.mpr hstorable
    obtain ⟨-, hpos⟩ := storable_of_asBuilder hb
    have hback := (h.read_back b hb).2
    obtain rfl := Except.ok.inj (hb.symm.trans (asBuilder_eq hle hbits hstorable hpos))
    exact ⟨hpos, (hread hstorable).mp hback⟩
  · intro h
    refine ⟨⟨fun ⟨b, hb⟩ => (storable_of_asBuilder hb).1, fun hstorable => ?_⟩, fun b hb => ?_⟩
    · exact ⟨_, asBuilder_eq hle hbits hstorable (h hstorable).1⟩
    · obtain ⟨hstorable, hpos⟩ := storable_of_asBuilder hb
      obtain rfl := Except.ok.inj (hb.symm.trans (asBuilder_eq hle hbits hstorable hpos))
      exact ⟨rfl, (hread hstorable).mpr (h hstorable).2⟩

omit hle in
theorem asBuilder_five_of_four_bits : RoundTrips 4 true true 5 :=
  (asBuilder_roundTrips_iff (by decide) (by decide)).mpr
    fun _ => ⟨fun _ => by decide, by norm_num [Fits]⟩

omit hle in
theorem asBuilder_signed_zero_of_no_bits : ¬ RoundTrips 0 true true 0 := by
  intro h
  obtain ⟨b, hb⟩ := h.stored_iff.mpr (by decide)
  exact absurd ((storable_of_asBuilder hb).2 rfl) (lt_irrefl 0)

end TonNode.Vm
