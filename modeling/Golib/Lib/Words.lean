import Mathlib.Algebra.Ring.Nat
import Mathlib.Data.Nat.Log

/-! Bit counting on 64-bit words, with the natural-number reading of each count. -/
namespace Golib

open Nat

variable {a x b : UInt64} {n : Nat}

/-- The number of bits needed to write the word; zero needs none. -/
def len64 (x : UInt64) : Nat := if x = 0 then 0 else x.toNat.log2 + 1

/-- Trailing zero bits of a number, looked for in its lowest `width` bits. -/
def trailingZeros : Nat → Nat → Nat
  | 0, _ => 0
  | width + 1, n => if n % 2 = 0 then trailingZeros width (n / 2) + 1 else 0

def trailingZeros64 (x : UInt64) : Nat := trailingZeros 64 x.toNat

/-- One bits among the lowest `width` bits of a number. -/
def onesCount : Nat → Nat → Nat
  | 0, _ => 0
  | width + 1, n => n % 2 + onesCount width (n / 2)

def onesCount64 (x : UInt64) : Nat := onesCount 64 x.toNat

/-- The logical shifts, for any shift count. -/
def shiftRight64 (x : UInt64) (s : Nat) : UInt64 := UInt64.ofNat (x.toNat >>> s)

def shiftLeft64 (x : UInt64) (s : Nat) : UInt64 := UInt64.ofNat (x.toNat <<< s)

theorem toNat_ofNat_of_lt (bound : n < 2 ^ 64) : (UInt64.ofNat n).toNat = n := by
  exact mod_eq_of_lt bound

theorem ofNat_eq_iff (bound : n < 2 ^ 64) (x : UInt64) : UInt64.ofNat n = x ↔ n = x.toNat := by
  rw [← UInt64.toNat_inj, toNat_ofNat_of_lt bound]

theorem ofNat_le (h : n ≤ x.toNat) : ¬ UInt64.ofNat n > x := by
  have := x.toNat_lt
  rw [gt_iff_lt, UInt64.lt_iff_toNat_lt, toNat_ofNat_of_lt (by omega)]
  omega

theorem toNat_add_of_lt (h : a.toNat + b.toNat < 2 ^ 64) : (a + b).toNat = a.toNat + b.toNat := by
  exact mod_eq_of_lt h

theorem toNat_sub_of_le (h : b.toNat ≤ a.toNat) : (a - b).toNat = a.toNat - b.toNat :=
  UInt64.toNat_sub_of_le a b (UInt64.le_iff_toNat_le.mpr h)

@[simp] theorem toNat_shiftRight64 (x : UInt64) (s : Nat) :
    (shiftRight64 x s).toNat = x.toNat / 2 ^ s := by
  have small : x.toNat / 2 ^ s < 2 ^ 64 := lt_of_le_of_lt (div_le_self _ _) x.toNat_lt
  rw [shiftRight64, shiftRight_eq_div_pow, toNat_ofNat_of_lt small]

@[simp] theorem toNat_halve (x : UInt64) : (x >>> 1).toNat = x.toNat / 2 := by
  simp [UInt64.toNat_shiftRight, shiftRight_eq_div_pow]

theorem and_one_eq_zero (x : UInt64) : x &&& 1 = 0 ↔ x.toNat % 2 = 0 := by
  rw [← UInt64.toNat_inj, UInt64.toNat_and]
  simp [and_one_is_mod]

theorem and_one_eq_one (x : UInt64) : x &&& 1 = 1 ↔ x.toNat % 2 = 1 := by
  rw [← UInt64.toNat_inj, UInt64.toNat_and]
  simp [and_one_is_mod]

theorem and_pred_eq_zero (pos : 0 < x.toNat) : x &&& (x - 1) = 0 ↔ ∃ k, x.toNat = 2 ^ k := by
  rw [← UInt64.toNat_inj, UInt64.toNat_and, toNat_sub_of_le (by simp; omega)]
  generalize x.toNat = n at pos
  change n &&& (n - 1) = 0 ↔ _
  constructor
  · intro disjoint
    refine ⟨n.log2, ?_⟩
    by_contra ne
    have lower := log2_self_le (n := n) (by omega)
    have upper := lt_log2_self (n := n)
    have eq : (n - 1).log2 = n.log2 := by
      apply le_antisymm
      · exact Nat.lt_succ_iff.mp ((Nat.log2_lt (by omega)).mpr (by omega))
      · exact (le_log2 (by omega)).mpr (by omega)
    have first := testBit_log2 (n := n) (by omega)
    have second := testBit_log2 (n := n - 1) (by omega)
    rw [eq] at second
    have shared := testBit_and n (n - 1) n.log2
    rw [disjoint, first, second] at shared
    simp at shared
  · rintro ⟨k, rfl⟩
    simp

theorem toNat_pos (ne : x ≠ 0) : 0 < x.toNat :=
  Nat.pos_of_ne_zero fun zero => ne (UInt64.toNat_inj.mp zero)

theorem len64_le (x : UInt64) : len64 x ≤ 64 := by
  unfold len64
  split
  · omega
  · rename_i h
    have := (log2_lt (toNat_pos h).ne').mpr x.toNat_lt
    omega

theorem lt_two_pow_len64 (x : UInt64) : x.toNat < 2 ^ len64 x := by
  unfold len64
  split
  · rename_i zero
    simp [zero]
  · exact lt_log2_self

theorem trailingZeros_spec (width n : Nat) (pos : 0 < n) (bound : n < 2 ^ width) :
    n = n / 2 ^ trailingZeros width n * 2 ^ trailingZeros width n ∧
      n / 2 ^ trailingZeros width n % 2 = 1 ∧ trailingZeros width n < width := by
  induction width generalizing n with
  | zero => omega
  | succ width ih =>
    unfold trailingZeros
    by_cases even : n % 2 = 0
    · rw [if_pos even]
      have half : n / 2 < 2 ^ width := by rw [pow_succ] at bound; omega
      obtain ⟨whole, odd, small⟩ := ih (n / 2) (by omega) half
      have shift : n / 2 ^ (trailingZeros width (n / 2) + 1) =
          n / 2 / 2 ^ trailingZeros width (n / 2) := by
        rw [Nat.pow_succ, Nat.mul_comm, ← Nat.div_div_eq_div_mul]
      refine ⟨?_, ?_, by omega⟩
      · rw [shift, pow_succ, ← mul_assoc, ← whole]
        omega
      · rw [shift]
        exact odd
    · rw [if_neg even]
      omega

theorem trailingZeros_eq (width n k : Nat) (sub : k < width) (odd : n % 2 = 1) :
    trailingZeros width (n * 2 ^ k) = k := by
  induction k generalizing width with
  | zero =>
    cases width with
    | zero => omega
    | succ width => simp [trailingZeros, odd]
  | succ k ih =>
    cases width with
    | zero => omega
    | succ width =>
      have double : n * 2 ^ (k + 1) = 2 * (n * 2 ^ k) := by
        rw [pow_succ, ← mul_assoc, mul_comm]
      rw [trailingZeros, if_pos (by omega), double, Nat.mul_div_cancel_left _ (by omega),
        ih width (by omega)]

end Golib
