import TonNode.Bits
import TonNode.Checks
import TonNode.VmInteger

/-! The long form of the instruction that pushes a constant carries a five-bit length and a
signed number of `8 * l + 19` bits. The decoder collects the number in 32-bit digits,
extends the sign in the highest digit and takes the two's complement of the whole for a
negative number. Nothing compares the number it builds with the range of the machine's
integers. -/

namespace TonNode.Vm

open Block

def nextByte (code : List Bool) : Except ExceptionCode (ℕ × List Bool) :=
  if code.length < 8 then .error .invalidOpcode
  else .ok (bitsToNat (code.take 8), code.drop 8)

def upperDigit : ℕ → ℕ → List Bool → Except ExceptionCode (ℕ × List Bool)
  | 0, value, code => .ok (value, code)
  | more + 1, value, code => do
    let (byte, code) ← nextByte code
    upperDigit more ((value <<< 8) % 2 ^ 32 ||| byte) code

def nextDigit (code : List Bool) : Except ExceptionCode (ℕ × List Bool) := do
  let (b3, code) ← nextByte code
  let (b2, code) ← nextByte code
  let (b1, code) ← nextByte code
  let (b0, code) ← nextByte code
  return (b3 <<< 24 ||| b2 <<< 16 ||| b1 <<< 8 ||| b0, code)

def lowerDigits : ℕ → List Bool → Except ExceptionCode (List ℕ × List Bool)
  | 0, code => .ok ([], code)
  | count + 1, code => do
    let (digit, code) ← nextDigit code
    let (digits, code) ← lowerDigits count code
    return (digits ++ [digit], code)

def twosComplement : Bool → List ℕ → List ℕ
  | _, [] => []
  | true, d :: ds =>
    let d := (2 ^ 32 - 1 - d + 1) % 2 ^ 32
    d :: twosComplement (d == 0) ds
  | false, d :: ds => (2 ^ 32 - 1 - d) :: twosComplement false ds

def IntegerData.fromVecLeUnchecked (negative : Bool) (digits : List ℕ) : IntegerData :=
  let magnitude : ℤ := (Nat.ofDigits (2 ^ 32) digits : ℕ)
  ⟨some (if negative then -magnitude else magnitude)⟩

def IntegerData.fromBigEndianOctetStream (code : List Bool) :
    Except ExceptionCode (IntegerData × List Bool) := do
  let (firstByte, code) ← nextByte code
  let byteLen := (firstByte &&& 0b11111000) >>> 3 + 3
  let greatest3bits := firstByte &&& 0b111
  let digitCount := (byteLen + 3) >>> 2
  let negative := greatest3bits &&& 0b100 != 0
  let value := if negative then 0xFFFFFFF8 ||| greatest3bits else greatest3bits
  let upper := if byteLen &&& 0b11 = 0 then 4 else byteLen &&& 0b11
  let (value, code) ← upperDigit (upper - 1) value code
  let (digits, code) ← lowerDigits (digitCount - 1) code
  let digits := digits ++ [value]
  let digits := if negative then twosComplement true digits else digits
  return (fromVecLeUnchecked negative digits, code)

def signedValue (bits : List Bool) : ℤ :=
  bitsToNat bits - if bits.head? = some true then 2 ^ bits.length else 0

variable {code code' : List Bool}

theorem nextByte_eq_ok {b : ℕ} (h : nextByte code = .ok (b, code')) :
    ∃ bits, bits.length = 8 ∧ code = bits ++ code' ∧ b = bitsToNat bits := by
  rw [nextByte] at h
  split at h
  · cases h
  · rename_i hlen
    cases h
    refine ⟨code.take 8, ?_, (List.take_append_drop 8 code).symm, rfl⟩
    rw [List.length_take]
    omega

variable {bits : List Bool} {n : ℕ}

theorem bitsToNat_lt_of_length (h : bits.length = n) :
    bitsToNat bits < 2 ^ n := h ▸ bitsToNat_lt bits

/-- The completed highest digit is the number of its bits, as far as 32 bits hold it. -/
theorem upperDigit_eq_ok {more value d : ℕ} (hv : value < 2 ^ 32)
    (h : upperDigit more value code = .ok (d, code')) :
    ∃ bits, bits.length = 8 * more ∧ code = bits ++ code' ∧
      d = (value * 2 ^ (8 * more) + bitsToNat bits) % 2 ^ 32 := by
  induction more generalizing value code with
  | zero =>
    cases h
    refine ⟨[], rfl, rfl, ?_⟩
    rw [mul_zero, pow_zero, mul_one]
    exact (Nat.mod_eq_of_lt hv).symm
  | succ more ih =>
    rw [upperDigit, Checked.bind_eq_ok] at h
    obtain ⟨⟨byte, rest⟩, hbyte, h⟩ := h
    obtain ⟨first, hfirst, rfl, rfl⟩ := nextByte_eq_ok hbyte
    have hbyteLt := bitsToNat_lt_of_length hfirst
    -- the low eight bits are free, so the byte is added
    have hor : (value <<< 8) % 2 ^ 32 ||| bitsToNat first =
        (value * 2 ^ 8 + bitsToNat first) % 2 ^ 32 := by
      have hshift : (value <<< 8) % 2 ^ 32 = (value % 2 ^ 24) <<< 8 := by
        rw [Nat.shiftLeft_eq, Nat.shiftLeft_eq]
        omega
      rw [hshift, ← Nat.shiftLeft_add_eq_or_of_lt hbyteLt, Nat.shiftLeft_eq]
      omega
    simp only [hor] at h
    obtain ⟨bits, hbits, rfl, rfl⟩ := ih (Nat.mod_lt _ (by norm_num)) h
    refine ⟨first ++ bits, by rw [List.length_append]; omega, by rw [List.append_assoc], ?_⟩
    rw [bitsToNat_append, hbits, Nat.add_mod, Nat.mod_mul_mod, ← Nat.add_mod]
    congr 1
    have hexp : 8 * (more + 1) = 8 + 8 * more := by ring
    rw [hexp, pow_add]
    ring

/-- A byte put below a number shifted by one byte more. -/
theorem shiftLeft_or_byte (a k : ℕ) {b : ℕ} (hb : b < 2 ^ 8) :
    a <<< (8 + k) ||| b <<< k = (a * 2 ^ 8 + b) <<< k := by
  rw [Nat.shiftLeft_add, ← Nat.shiftLeft_or_distrib, ← Nat.shiftLeft_add_eq_or_of_lt hb,
    Nat.shiftLeft_eq a 8]

theorem nextDigit_eq_ok {d : ℕ} (h : nextDigit code = .ok (d, code')) :
    ∃ bits, bits.length = 32 ∧ code = bits ++ code' ∧ d = bitsToNat bits := by
  simp only [nextDigit, Checked.bind_eq_ok] at h
  obtain ⟨⟨_, _⟩, h3, ⟨_, _⟩, h2, ⟨_, _⟩, h1, ⟨_, _⟩, h0, h⟩ := h
  obtain ⟨a3, l3, rfl, rfl⟩ := nextByte_eq_ok h3
  obtain ⟨a2, l2, rfl, rfl⟩ := nextByte_eq_ok h2
  obtain ⟨a1, l1, rfl, rfl⟩ := nextByte_eq_ok h1
  obtain ⟨a0, l0, rfl, rfl⟩ := nextByte_eq_ok h0
  cases h
  refine ⟨a3 ++ (a2 ++ (a1 ++ a0)), by simp [l3, l2, l1, l0], by simp, ?_⟩
  -- the four bytes lie beside each other, so their union is their sum
  have e2 := shiftLeft_or_byte (bitsToNat a3) 16 (bitsToNat_lt_of_length l2)
  have e1 := shiftLeft_or_byte (bitsToNat a3 * 2 ^ 8 + bitsToNat a2) 8 (bitsToNat_lt_of_length l1)
  have e0 := shiftLeft_or_byte ((bitsToNat a3 * 2 ^ 8 + bitsToNat a2) * 2 ^ 8 + bitsToNat a1) 0
    (bitsToNat_lt_of_length l0)
  simp only [Nat.reduceAdd, Nat.shiftLeft_zero] at e2 e1 e0
  rw [e2, e1, e0]
  simp only [bitsToNat_append, List.length_append, l2, l1, l0]
  ring

variable {digits : List ℕ}

theorem lowerDigits_eq_ok {count : ℕ} (h : lowerDigits count code = .ok (digits, code')) :
    ∃ bits, bits.length = 32 * count ∧ code = bits ++ code' ∧ digits.length = count ∧
      (∀ d ∈ digits, d < 2 ^ 32) ∧ Nat.ofDigits (2 ^ 32) digits = bitsToNat bits := by
  induction count generalizing code digits with
  | zero =>
    cases h
    exact ⟨[], rfl, rfl, rfl, by simp, rfl⟩
  | succ count ih =>
    simp only [lowerDigits, Checked.bind_eq_ok] at h
    obtain ⟨⟨digit, _⟩, hdigit, ⟨rest, _⟩, hrest, h⟩ := h
    cases h
    obtain ⟨first, hfirst, rfl, rfl⟩ := nextDigit_eq_ok hdigit
    obtain ⟨bits, hbits, rfl, hlen, hsmall, hval⟩ := ih hrest
    refine ⟨first ++ bits, by rw [List.length_append]; omega, by rw [List.append_assoc],
      by simp [hlen], ?_, ?_⟩
    · exact List.forall_mem_append.mpr
        ⟨hsmall, List.forall_mem_singleton.mpr (bitsToNat_lt_of_length hfirst)⟩
    · rw [Nat.ofDigits_append, hval, Nat.ofDigits_singleton, bitsToNat_append, hbits, hlen, ← pow_mul]
      ring

/-- A complement and its number miss the next power of the base by one, or with the carry meet it. -/
theorem twosComplement_add {c : Bool} (h : ∀ d ∈ digits, d < 2 ^ 32)
    (hne : c = true → Nat.ofDigits (2 ^ 32) digits ≠ 0) :
    Nat.ofDigits (2 ^ 32) (twosComplement c digits) + Nat.ofDigits (2 ^ 32) digits + 1 =
      (2 ^ 32) ^ digits.length + c.toNat := by
  induction digits generalizing c with
  | nil =>
    cases c with
    | false => rfl
    | true => exact absurd rfl (hne rfl)
  | cons d ds ih =>
    obtain ⟨hd, hds⟩ := List.forall_mem_cons.mp h
    have hstop := ih (c := false) hds nofun
    rw [Nat.ofDigits_cons] at hne
    rw [Bool.toNat_false] at hstop
    cases c with
    | false =>
      rw [twosComplement, Nat.ofDigits_cons, Nat.ofDigits_cons, List.length_cons,
        pow_succ (2 ^ 32) ds.length, Bool.toNat_false]
      omega
    | true =>
      -- the carry passes over a zero digit and ends at the first other one
      rw [twosComplement, Nat.ofDigits_cons, Nat.ofDigits_cons, List.length_cons,
        pow_succ (2 ^ 32) ds.length, Bool.toNat_true]
      by_cases hzero : (2 ^ 32 - 1 - d + 1) % 2 ^ 32 = 0
      · have hgo := ih (c := true) hds fun _ => by have := hne rfl; omega
        rw [Bool.toNat_true] at hgo
        simp only [hzero, beq_self_eq_true]
        omega
      · simp only [beq_eq_false_iff_ne.mpr hzero]
        omega

/-- The first byte of a long constant: five bits of length, three bits of the number. -/
theorem firstByte_parts (h : n < 256) : (n &&& 0b11111000) >>> 3 = n / 8 ∧ n &&& 0b111 = n % 8 := by
  refine ⟨?_, Nat.and_two_pow_sub_one_eq_mod n 3⟩
  rw [Nat.shiftRight_and_distrib, Nat.shiftRight_eq_div_pow]
  have hmask := Nat.and_two_pow_sub_one_eq_mod (n / 2 ^ 3) 5
  have hsmall : n / 2 ^ 3 % 2 ^ 5 = n / 8 := by omega
  exact hmask.trans hsmall

/-- Sign extension of the three highest bits in 32-bit arithmetic. -/
theorem extend_three_bits {g : ℕ} (h : g < 8) :
    ((g &&& 0b100 != 0) = decide (4 ≤ g)) ∧ 0xFFFFFFF8 ||| g = 2 ^ 32 - 8 + g := by
  revert h g
  decide

theorem head?_eq_true_iff (h : bits.length = n + 1) :
    bits.head? = some true ↔ 2 ^ n ≤ bitsToNat bits := by
  cases bits with
  | nil => cases h
  | cons b bits =>
    have hlen : bits.length = n := by simpa using h
    have hsplit : bitsToNat (b :: bits) = b.toNat * 2 ^ n + bitsToNat bits := by
      rw [← List.singleton_append, bitsToNat_append, hlen]
      cases b <;> rfl
    have hlt := bitsToNat_lt_of_length hlen
    rw [hsplit, List.head?_cons]
    cases b with
    | false => simp only [Bool.toNat_false, zero_mul, zero_add]; simpa using hlt
    | true => simp

/-- The highest digit holds the highest bits of the number, extended by its sign to 32 bits. -/
theorem upperDigit_value {g u : ℕ} (hg : g < 8) (hu : 1 ≤ u ∧ u ≤ 4)
    (hbits : bits.length = 8 * (u - 1)) :
    ((if 4 ≤ g then 0xFFFFFFF8 ||| g else g) * 2 ^ (8 * (u - 1)) + bitsToNat bits) % 2 ^ 32 =
      if 4 ≤ g then 2 ^ 32 - 2 ^ (3 + 8 * (u - 1)) + (g * 2 ^ (8 * (u - 1)) + bitsToNat bits)
      else g * 2 ^ (8 * (u - 1)) + bitsToNat bits := by
  have hlt := bitsToNat_lt_of_length hbits
  obtain ⟨hlow, hhigh⟩ := hu
  rw [(extend_three_bits hg).2]
  interval_cases u <;> norm_num at hlt ⊢ <;> split <;> omega

/-- The positions of the digits: the bytes are one highest group of at most four and full groups. -/
theorem byteLen_split (l : ℕ) : 1 ≤ (if (l + 3) &&& 0b11 = 0 then 4 else (l + 3) &&& 0b11) ∧
      (if (l + 3) &&& 0b11 = 0 then 4 else (l + 3) &&& 0b11) ≤ 4 ∧
      (if (l + 3) &&& 0b11 = 0 then 4 else (l + 3) &&& 0b11) + 4 * ((l + 3 + 3) >>> 2 - 1) =
        l + 3 := by
  have hmod : (l + 3) &&& 0b11 = (l + 3) % 4 := Nat.and_two_pow_sub_one_eq_mod (l + 3) 2
  rw [hmod, Nat.shiftRight_eq_div_pow]
  split <;> omega

/-- The complement of a sign-extended number in digits is the distance to the next power of two. -/
theorem ofDigits_twosComplement {top w U low : ℕ} (hdigits : ∀ d ∈ digits, d < 2 ^ 32)
    (htop : top = 2 ^ 32 - 2 ^ w + U) (hw : w < 32) (hU : U < 2 ^ w)
    (hlow : Nat.ofDigits (2 ^ 32) digits = low) :
    ((Nat.ofDigits (2 ^ 32) (twosComplement true (digits ++ [top])) : ℕ) : ℤ) =
      2 ^ (w + 32 * digits.length) - (U * 2 ^ (32 * digits.length) + low) := by
  have hwpow : 2 ^ w < 2 ^ 32 := Nat.pow_lt_pow_right (by norm_num) hw
  have htopLt : top < 2 ^ 32 := by omega
  have hall : ∀ d ∈ digits ++ [top], d < 2 ^ 32 := by
    exact List.forall_mem_append.mpr ⟨hdigits, List.forall_mem_singleton.mpr htopLt⟩
  have hvalue : Nat.ofDigits (2 ^ 32) (digits ++ [top]) = low + 2 ^ (32 * digits.length) * top := by
    rw [Nat.ofDigits_append, Nat.ofDigits_singleton, hlow, ← pow_mul]
  have hpos : 0 < 2 ^ (32 * digits.length) * top := Nat.mul_pos (by positivity) (by omega)
  have hsum := Nat.add_right_cancel (twosComplement_add (c := true) hall fun _ => by omega)
  rw [hvalue, List.length_append, List.length_singleton, ← pow_mul, mul_add, mul_one, pow_add] at hsum
  have hsum' : ((Nat.ofDigits (2 ^ 32) (twosComplement true (digits ++ [top])) : ℕ) : ℤ) +
      (low + 2 ^ (32 * digits.length) * top) = 2 ^ (32 * digits.length) * 2 ^ 32 := by
    exact_mod_cast hsum
  have htop' : (top : ℤ) = 2 ^ 32 - 2 ^ w + U := by
    rw [htop, Nat.cast_add, Nat.cast_sub hwpow.le]
    push_cast
    ring
  rw [htop'] at hsum'
  rw [pow_add]
  linear_combination hsum'

/-- **The decoder is exact.**  What it accepts is a length, a number of `8 * l + 19` bits and the rest
of the code, and the integer it builds is the signed number of those bits, whatever its size. -/
theorem fromBigEndianOctetStream_eq_ok {rest : List Bool} {x : IntegerData}
    (h : IntegerData.fromBigEndianOctetStream code = .ok (x, rest)) :
    ∃ len num, len.length = 5 ∧ num.length = 8 * bitsToNat len + 19 ∧
      code = len ++ num ++ rest ∧ x = ⟨some (signedValue num)⟩ := by
  simp only [IntegerData.fromBigEndianOctetStream, Checked.bind_eq_ok] at h
  obtain ⟨⟨_, _⟩, hfirst, ⟨_, _⟩, hupper, ⟨_, _⟩, hlower, h⟩ := h
  obtain ⟨first, hfirstLen, rfl, rfl⟩ := nextByte_eq_ok hfirst
  -- the first byte falls apart into the length and the three highest bits
  obtain ⟨len, top, hlen, htop, rfl⟩ : ∃ len top : List Bool,
      len.length = 5 ∧ top.length = 3 ∧ first = len ++ top :=
    ⟨first.take 5, first.drop 5, by simp [hfirstLen], by simp [hfirstLen],
      (List.take_append_drop 5 first).symm⟩
  have hg := bitsToNat_lt_of_length htop
  have hbyte : bitsToNat (len ++ top) = bitsToNat len * 8 + bitsToNat top := by
    rw [bitsToNat_append, htop]
    rfl
  have hparts := firstByte_parts (bitsToNat_lt_of_length hfirstLen)
  have hl : bitsToNat (len ++ top) / 8 = bitsToNat len := by omega
  have hgmod : bitsToNat (len ++ top) % 8 = bitsToNat top := by omega
  have hsplit := byteLen_split (bitsToNat len)
  simp only [hparts.1, hparts.2, hl, hgmod, (extend_three_bits hg).1,
    decide_eq_true_eq] at hupper hlower h
  generalize hu : (if (bitsToNat len + 3) &&& 0b11 = 0 then 4 else (bitsToNat len + 3) &&& 0b11) = u
    at hupper hsplit
  generalize hc : (bitsToNat len + 3 + 3) >>> 2 - 1 = count at hlower hsplit
  obtain ⟨hu1, hu4, hcount⟩ := hsplit
  have hvalue : (if 4 ≤ bitsToNat top then 0xFFFFFFF8 ||| bitsToNat top else bitsToNat top) <
      2 ^ 32 := by
    rw [(extend_three_bits hg).2]
    split <;> omega
  obtain ⟨mid, hmid, rfl, rfl⟩ := upperDigit_eq_ok hvalue hupper
  obtain ⟨low, hlow, rfl, hdigits, hsmall, hdigitsValue⟩ := lowerDigits_eq_ok hlower
  rw [upperDigit_value hg ⟨hu1, hu4⟩ hmid] at h
  cases h
  have hnumLen : (top ++ mid ++ low).length = 8 * bitsToNat len + 19 := by
    simp only [List.length_append, htop, hmid, hlow]
    omega
  have hUlen : (top ++ mid).length = 3 + 8 * (u - 1) := by
    rw [List.length_append, htop, hmid]
  have hU : bitsToNat (top ++ mid) = bitsToNat top * 2 ^ (8 * (u - 1)) + bitsToNat mid := by
    rw [bitsToNat_append, hmid]
  have hnum : bitsToNat (top ++ mid ++ low) =
      bitsToNat (top ++ mid) * 2 ^ (32 * count) + bitsToNat low := by
    rw [bitsToNat_append, hlow]
  have hsign : (top ++ mid ++ low).head? = some true ↔ 4 ≤ bitsToNat top := by
    rw [show 4 = 2 ^ 2 from rfl, ← head?_eq_true_iff htop]
    cases top with
    | nil => cases htop
    | cons b top => rfl
  refine ⟨len, top ++ mid ++ low, hlen, hnumLen, by simp only [List.append_assoc], ?_⟩
  simp only [IntegerData.fromVecLeUnchecked, signedValue, hsign, IntegerData.mk.injEq,
    Option.some.injEq]
  by_cases hneg : 4 ≤ bitsToNat top
  · simp only [hneg, decide_true, if_true]
    have hcomp := ofDigits_twosComplement (w := 3 + 8 * (u - 1)) hsmall rfl (by omega)
      (bitsToNat_lt_of_length hUlen) hdigitsValue
    rw [← hU, hcomp, hdigits, hnum]
    have hexp : 3 + 8 * (u - 1) + 32 * count = (top ++ mid ++ low).length := by
      simp only [List.length_append, htop, hmid, hlow]
    rw [hexp]
    push_cast
    ring
  · simp only [hneg, decide_false, if_false, Bool.false_eq_true, sub_zero]
    rw [← hU, Nat.ofDigits_append, Nat.ofDigits_singleton, hdigitsValue, hdigits, ← pow_mul, hnum]
    push_cast
    ring

theorem fromBigEndianOctetStream_minusOne : ∃ len num : List Bool, len.length = 5 ∧
      num.length = 8 * bitsToNat len + 19 ∧
      List.replicate 5 false ++ List.replicate 19 true = len ++ num ++ [] ∧
      IntegerData.minusOne = ⟨some (signedValue num)⟩ :=
  fromBigEndianOctetStream_eq_ok (by decide)

end TonNode.Vm
