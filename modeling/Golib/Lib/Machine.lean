import Mathlib.Tactic.Linarith
import Mathlib.Tactic.Ring

/-! 64-bit machine arithmetic on numbers: unsigned words are natural numbers below `2 ^ 64`, signed
ones integers from `-2 ^ 63` on and below `2 ^ 63`. Sums and differences wrap around; the wide
operations work on a pair of a high and a low word. -/
namespace Golib.Machine

open Int

variable {x : Int} {a b y z : Nat}

/-! ### Unsigned words -/

def addWord (a b : Nat) : Nat := (a + b) % 2 ^ 64

def subWord (a b : Nat) : Nat := (a + 2 ^ 64 - b) % 2 ^ 64

def mul64 (x y : Nat) : Nat × Nat := (x * y / 2 ^ 64, x * y % 2 ^ 64)

def add64 (x y carry : Nat) : Nat × Nat := ((x + y + carry) % 2 ^ 64, (x + y + carry) / 2 ^ 64)

def sub64 (x y borrow : Nat) : Nat × Nat :=
  ((x + 2 ^ 64 - (y + borrow)) % 2 ^ 64, if x < y + borrow then 1 else 0)

/-- The quotient and the remainder of a wide word whose high word is below the divisor. -/
def div64 (high low y : Nat) : Nat × Nat := ((high * 2 ^ 64 + low) / y, (high * 2 ^ 64 + low) % y)

theorem addWord_eq (small : a + b < 2 ^ 64) : addWord a b = a + b := Nat.mod_eq_of_lt small

theorem foldl_addWord {start : Nat} {α : Type} (f : α → Nat) (xs : List α)
    (small : start + (xs.map f).sum < 2 ^ 64) :
    xs.foldl (fun sum x => addWord sum (f x)) start = start + (xs.map f).sum := by
  induction xs generalizing start with
  | nil => simp
  | cons x rest ih =>
    rw [List.map_cons, List.sum_cons] at small
    rw [List.foldl_cons, addWord_eq (by omega), ih (by omega), List.map_cons, List.sum_cons]
    omega

theorem subWord_eq (order : b ≤ a) (small : a < 2 ^ 64) : subWord a b = a - b := by
  have shift : a + 2 ^ 64 - b = a - b + 2 ^ 64 := by omega
  rw [subWord, shift, Nat.add_mod_right]
  exact Nat.mod_eq_of_lt (by omega)

/-- A product and a word added to it, as a wide word. -/
def mulAdd (x y z : Nat) : Nat × Nat :=
  let (high, low) := mul64 x y
  let (low, carry) := add64 low z 0
  let (high, _) := add64 high carry 0
  (high, low)

theorem mulAdd_eq {x : Nat} (small : x * y + z < 2 ^ 128) :
    mulAdd x y z = ((x * y + z) / 2 ^ 64, (x * y + z) % 2 ^ 64) := by
  simp only [mulAdd, mul64, add64, Prod.mk.injEq]
  omega

/-- A product and a word subtracted from it, as a wide word. -/
def mulSub (x y z : Nat) : Nat × Nat :=
  let (high, low) := mul64 x y
  let (low, borrow) := sub64 low z 0
  let (high, _) := sub64 high 0 borrow
  (high, low)

theorem mulSub_eq {x : Nat} (small : x * y < 2 ^ 128) (order : z ≤ x * y) (word : z < 2 ^ 64) :
    mulSub x y z = ((x * y - z) / 2 ^ 64, (x * y - z) % 2 ^ 64) := by
  by_cases borrow : x * y % 2 ^ 64 < z
  · have low : sub64 (x * y % 2 ^ 64) z 0 = ((x * y % 2 ^ 64 + 2 ^ 64 - z) % 2 ^ 64, 1) := by
      rw [sub64, add_zero, if_pos borrow]
    simp only [mulSub, mul64, low]
    simp only [sub64, Prod.mk.injEq]
    omega
  · have low : sub64 (x * y % 2 ^ 64) z 0 = ((x * y % 2 ^ 64 + 2 ^ 64 - z) % 2 ^ 64, 0) := by
      rw [sub64, add_zero, if_neg borrow]
    simp only [mulSub, mul64, low]
    simp only [sub64, Prod.mk.injEq]
    omega

theorem wide_eq (n : Nat) : n / 2 ^ 64 * 2 ^ 64 + n % 2 ^ 64 = n := by omega

/-! ### Signed words -/

def maxInt64 : Int := 2 ^ 63 - 1

def minInt64 : Int := -2 ^ 63

/-- The signed word that an integer wraps around to. -/
def int64 (x : Int) : Int := bmod x (2 ^ 64)

def InRange (x : Int) : Prop := minInt64 ≤ x ∧ x ≤ maxInt64

instance (x : Int) : Decidable (InRange x) := inferInstanceAs (Decidable (_ ∧ _))

theorem inRange_iff : InRange x ↔ -9223372036854775808 ≤ x ∧ x ≤ 9223372036854775807 := Iff.rfl

theorem int64_eq (range : InRange x) : int64 x = x := by
  obtain ⟨low, high⟩ := range
  unfold minInt64 at low
  unfold maxInt64 at high
  rw [int64, bmod_def]
  omega

theorem int64_range (x : Int) : InRange (int64 x) := by
  unfold InRange minInt64 maxInt64 int64
  rw [bmod_def]
  omega

/-- The unsigned word with the bits of a signed one. -/
def toWord (x : Int) : Nat := (x % 2 ^ 64).toNat

theorem toWord_eq (some : 0 ≤ x) (small : x < 2 ^ 64) : (toWord x : Int) = x := by
  rw [toWord, emod_eq_of_lt some small, toNat_of_nonneg some]

def saturate (x : Int) : Int := max minInt64 (min maxInt64 x)

theorem saturate_le (some : 0 ≤ x) : 0 ≤ saturate x ∧ saturate x ≤ x := by
  unfold saturate minInt64 maxInt64
  omega

/-- The largest multiple of `size` that is not above `value`, by a division that truncates. -/
def floorTo (value size : Int) : Int :=
  let quotient := value.tdiv size
  if value.tmod size = 0 then int64 (quotient * size)
  else if value < 0 then int64 ((quotient - 1) * size)
  else int64 (quotient * size)

theorem floorTo_eq {size v : Int} (pos : 0 < size) : floorTo v size = int64 (v / size * size) := by
  unfold floorTo
  by_cases whole : size ∣ v
  · rw [if_pos (tmod_eq_zero_of_dvd whole), tdiv_eq_ediv, if_pos (Or.inr whole), add_zero]
  · rw [if_neg fun none => whole (dvd_of_tmod_eq_zero none)]
    by_cases neg : v < 0
    · rw [if_pos neg, tdiv_eq_ediv, if_neg (by omega), sign_eq_one_of_pos pos, add_sub_cancel_right]
    · rw [if_neg neg, tdiv_eq_ediv, if_pos (Or.inl (by omega)), add_zero]

/-- The remainder of a division that truncates, made positive. -/
def positiveRem (value modulus : Int) : Int :=
  let result := value.tmod modulus
  if result < 0 then result + modulus else result

theorem positiveRem_eq {modulus : Int}
    (v : Int) (pos : 0 < modulus) : positiveRem v modulus = v % modulus := by
  have low := emod_nonneg v (by omega : modulus ≠ 0)
  have high := emod_lt_of_pos v pos
  unfold positiveRem
  rw [tmod_eq_emod]
  dsimp only
  split_ifs <;> omega

end Golib.Machine
