import Mathlib

/-! Numbers written with a fixed number of bits, the highest bit first. -/
namespace TonNode

instance neZero_two_pow_64 : NeZero (2 ^ 64) := ⟨(Nat.two_pow_pos 64).ne'⟩
instance neZero_two_pow_256 : NeZero (2 ^ 256) := ⟨(Nat.two_pow_pos 256).ne'⟩

namespace Block

variable (bits : List Bool)

def bitsToNat : ℕ := bits.foldl (fun n b => 2 * n + b.toNat) 0

def natToBits : ℕ → ℕ → List Bool
  | 0, _ => []
  | len + 1, n => natToBits len (n / 2) ++ [decide (n % 2 = 1)]

def sizeBits (n : ℕ) : ℕ := if n = 0 then 0 else Nat.log2 n + 1

@[simp] theorem length_natToBits (len n : ℕ) : (natToBits len n).length = len := by
  induction len generalizing n with
  | zero => rfl
  | succ len ih => simp [natToBits, ih]

theorem bitsToNat_concat (b : Bool) : bitsToNat (bits ++ [b]) = 2 * bitsToNat bits + b.toNat := by
  simp [bitsToNat]

theorem bitsToNat_append (a b : List Bool) :
    bitsToNat (a ++ b) = bitsToNat a * 2 ^ b.length + bitsToNat b := by
  induction b using List.reverseRecOn with
  | nil => simp [bitsToNat]
  | append_singleton b c ih =>
    rw [← List.append_assoc, bitsToNat_concat, bitsToNat_concat, ih, List.length_append,
      List.length_singleton, pow_succ]
    ring

theorem bitsToNat_natToBits {len n : ℕ} (h : n < 2 ^ len) : bitsToNat (natToBits len n) = n := by
  induction len generalizing n with
  | zero =>
    simp only [pow_zero, Nat.lt_one_iff] at h
    rw [h]
    rfl
  | succ len ih =>
    have hhalf : n / 2 < 2 ^ len := by
      omega
    rw [natToBits, bitsToNat_concat, ih hhalf]
    rcases Nat.mod_two_eq_zero_or_one n with hbit | hbit
    · simp only [hbit, zero_ne_one, decide_false, Bool.toNat_false]
      omega
    · simp only [hbit, decide_true, Bool.toNat_true]
      omega

theorem bitsToNat_lt : bitsToNat bits < 2 ^ bits.length := by
  induction bits using List.reverseRecOn with
  | nil => exact Nat.one_pos
  | append_singleton bits b ih =>
    rw [bitsToNat_concat, List.length_append, List.length_singleton, pow_succ]
    have hb := Bool.toNat_le b
    omega

theorem natToBits_bitsToNat : natToBits bits.length (bitsToNat bits) = bits := by
  induction bits using List.reverseRecOn with
  | nil => rfl
  | append_singleton bits b ih =>
    have hhalf : (2 * bitsToNat bits + b.toNat) / 2 = bitsToNat bits := by
      have hb := Bool.toNat_lt b
      omega
    have hbit : decide ((2 * bitsToNat bits + b.toNat) % 2 = 1) = b := by
      cases b with
      | false | true => simp
    rw [bitsToNat_concat, List.length_append, List.length_singleton, natToBits, hhalf, ih, hbit]

theorem take_natToBits (len extra n : ℕ) :
    (natToBits (len + extra) n).take len = natToBits len (n / 2 ^ extra) := by
  induction extra generalizing n with
  | zero =>
    rw [Nat.add_zero, pow_zero, Nat.div_one]
    exact List.take_of_length_le (length_natToBits _ _).le
  | succ extra ih =>
    rw [← Nat.add_assoc, natToBits, List.take_append_of_le_length, ih, Nat.div_div_eq_div_mul,
      pow_succ, Nat.mul_comm]
    rw [length_natToBits]
    omega

theorem natToBits_inj {len a b : ℕ} (ha : a < 2 ^ len) (hb : b < 2 ^ len) :
    natToBits len a = natToBits len b ↔ a = b := by
  constructor
  · intro h
    rw [← bitsToNat_natToBits ha, ← bitsToNat_natToBits hb, h]
  · rintro rfl
    rfl

theorem lt_two_pow_sizeBits {n m : ℕ} (h : n ≤ m) : n < 2 ^ sizeBits m := by
  rw [sizeBits]
  split_ifs with hm
  · subst hm
    simpa using h
  · exact lt_of_le_of_lt h (Nat.lt_log2_self)

theorem sizeBits_le {n m : ℕ} (h : n ≤ m) : sizeBits n ≤ sizeBits m := by
  by_cases hn : n = 0
  · simp [sizeBits, hn]
  · have hm : m ≠ 0 := by omega
    have hlog : Nat.log2 n ≤ Nat.log2 m := by
      rw [Nat.le_log2 hm]
      exact (Nat.log2_self_le hn).trans h
    simp only [sizeBits, hn, hm, if_false]
    omega

end Block

end TonNode
