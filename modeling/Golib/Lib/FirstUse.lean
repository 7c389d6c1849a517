import Mathlib.Data.List.Basic

/-! The values of a list at their first use, in order, as one collects them while
remembering which have been seen. -/
namespace Golib

open List

variable {α : Type} [DecidableEq α] {x : α} {seen xs : List α}

/-- The values that have not been seen, each at its first use. -/
def firstUses (seen : List α) : List α → List α
  | [] => []
  | x :: xs => if x ∈ seen then firstUses seen xs else x :: firstUses (x :: seen) xs

theorem firstUses_cons_seen (known : x ∈ seen) (xs : List α) :
    firstUses seen (x :: xs) = firstUses seen xs := if_pos known

theorem firstUses_cons_new (fresh : x ∉ seen) (xs : List α) :
    firstUses seen (x :: xs) = x :: firstUses (x :: seen) xs := if_neg fresh

theorem firstUses_congr {seen' : List α} (eq : ∀ x, x ∈ seen ↔ x ∈ seen') (xs : List α) :
    firstUses seen xs = firstUses seen' xs := by
  induction xs generalizing seen seen' with
  | nil => rfl
  | cons x xs ih =>
    by_cases known : x ∈ seen
    · rw [firstUses_cons_seen known, firstUses_cons_seen ((eq x).mp known), ih eq]
    · rw [firstUses_cons_new known, firstUses_cons_new (fun known' => known ((eq x).mpr known'))]
      congr 1
      apply ih
      intro y
      rw [mem_cons, mem_cons, eq]

theorem firstUses_append (seen xs ys : List α) :
    firstUses seen (xs ++ ys) = firstUses seen xs ++ firstUses (xs ++ seen) ys := by
  induction xs generalizing seen with
  | nil => rfl
  | cons x xs ih =>
    rw [cons_append]
    by_cases known : x ∈ seen
    · rw [firstUses_cons_seen known, firstUses_cons_seen known, ih]
      congr 1
      apply firstUses_congr
      intro y
      simp only [cons_append, mem_cons, mem_append]
      constructor
      · exact Or.inr
      · rintro (rfl | mem)
        · exact Or.inr known
        · exact mem
    · rw [firstUses_cons_new known, firstUses_cons_new known, ih, cons_append]
      congr 2
      apply firstUses_congr
      intro y
      simp only [cons_append, mem_cons, mem_append]
      constructor
      · rintro (mem | rfl | mem)
        · exact Or.inr (Or.inl mem)
        · exact Or.inl rfl
        · exact Or.inr (Or.inr mem)
      · rintro (rfl | mem | mem)
        · exact Or.inr (Or.inl rfl)
        · exact Or.inl mem
        · exact Or.inr (Or.inr mem)

theorem firstUses_isFront {ys : List α} (front : xs <+: ys) :
    firstUses [] xs <+: firstUses [] ys := by
  obtain ⟨rest, rfl⟩ := front
  rw [firstUses_append]
  exact prefix_append _ _

theorem mem_firstUses : x ∈ firstUses seen xs ↔ x ∈ xs ∧ x ∉ seen := by
  induction xs generalizing seen with
  | nil => simp [firstUses]
  | cons y xs ih =>
    by_cases known : y ∈ seen
    · rw [firstUses_cons_seen known, ih, mem_cons]
      constructor
      · exact fun ⟨mem, fresh⟩ => ⟨Or.inr mem, fresh⟩
      · rintro ⟨rfl | mem, fresh⟩
        · exact absurd known fresh
        · exact ⟨mem, fresh⟩
    · rw [firstUses_cons_new known, mem_cons, ih, mem_cons, mem_cons]
      constructor
      · rintro (rfl | ⟨mem, fresh⟩)
        · exact ⟨Or.inl rfl, known⟩
        · exact ⟨Or.inr mem, fun seen => fresh (Or.inr seen)⟩
      · rintro ⟨rfl | mem, fresh⟩
        · exact Or.inl rfl
        · by_cases eq : x = y
          · exact Or.inl eq
          · exact Or.inr ⟨mem, fun known => known.elim eq fresh⟩

theorem firstUses_nodup (seen xs : List α) : (firstUses seen xs).Nodup := by
  induction xs generalizing seen with
  | nil => exact nodup_nil
  | cons x xs ih =>
    by_cases known : x ∈ seen
    · rw [firstUses_cons_seen known]
      exact ih seen
    · rw [firstUses_cons_new known, nodup_cons]
      exact ⟨fun again => (mem_firstUses.mp again).2 mem_cons_self, ih _⟩

theorem firstUses_snoc (xs : List α) (x : α) :
    firstUses [] (xs ++ [x]) = if x ∈ xs then firstUses [] xs else firstUses [] xs ++ [x] := by
  rw [firstUses_append, append_nil]
  split
  · rename_i known
    rw [firstUses_cons_seen known, firstUses, append_nil]
  · rename_i fresh
    rw [firstUses_cons_new fresh, firstUses]

end Golib
