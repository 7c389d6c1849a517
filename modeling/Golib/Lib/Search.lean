import Mathlib.Data.Nat.Basic

/-! Binary search for the first index at which a predicate holds. -/
namespace Golib

variable {f : Nat → Bool} {n : Nat}

/-- The loop over the interval `[i, j)`, for at most `fuel` rounds. -/
def searchLoop (f : Nat → Bool) : Nat → Nat → Nat → Nat
  | 0, i, _ => i
  | fuel + 1, i, j =>
    if i < j then
      let h := (i + j) / 2
      if f h then searchLoop f fuel i h else searchLoop f fuel (h + 1) j
    else i

/-- The smallest index below `n` at which a monotone predicate holds, or `n`. -/
def search (n : Nat) (f : Nat → Bool) : Nat := searchLoop f n 0 n

theorem searchLoop_spec {j i fuel : Nat} (monotone : ∀ a b, a ≤ b → b < n → f a = true → f b = true)
    (enough : j - i ≤ fuel) (order : i ≤ j) (sub : j ≤ n) (below : ∀ k, k < i → f k = false)
    (above : ∀ k, j ≤ k → k < n → f k = true) :
    searchLoop f fuel i j ≤ n ∧ (∀ k, k < searchLoop f fuel i j → f k = false) ∧
      (∀ k, searchLoop f fuel i j ≤ k → k < n → f k = true) := by
  induction fuel generalizing i j with
  | zero =>
    have eq : i = j := by omega
    subst eq
    exact ⟨sub, below, above⟩
  | succ fuel ih =>
    unfold searchLoop
    by_cases open_ : i < j
    · rw [if_pos open_]
      by_cases hit : f ((i + j) / 2) = true
      · simp only [hit, if_true]
        apply ih (by omega) (by omega) (by omega) below
        intro k hk kn
        exact monotone _ _ hk kn hit
      · simp only [hit]
        apply ih (by omega) (by omega) sub _ above
        intro k hk
        cases hf : f k with
        | false => rfl
        | true => exact absurd (monotone k ((i + j) / 2) (by omega) (by omega) hf) hit
    · rw [if_neg open_]
      have eq : i = j := by omega
      subst eq
      exact ⟨sub, below, above⟩

theorem search_spec (monotone : ∀ a b, a ≤ b → b < n → f a = true → f b = true) :
    search n f ≤ n ∧ (∀ k, k < search n f → f k = false) ∧
      (∀ k, search n f ≤ k → k < n → f k = true) :=
  searchLoop_spec monotone (Nat.le_refl _) (Nat.zero_le _) (Nat.le_refl _)
    (fun _ h => absurd h (Nat.not_lt_zero _)) (fun _ h h' => absurd h' (Nat.not_lt.mpr h))

end Golib
