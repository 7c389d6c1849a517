import Mathlib.Data.Finset.Max
import Golib.Lib.Spans

/-! The cuts of a linear order: just before each point, and just after it. An interval whose ends
are included or not is a half-open span of cuts, and its points are the cuts before them. -/
namespace Golib

open List

abbrev Cut (α : Type) := α ×ₗ Bool

def cutAt {α : Type} (x : α) (after : Bool) : Cut α := toLex (x, after)

section

variable {α : Type} {x y : α} {a b : Bool}

theorem cutAt_inj : cutAt x a = cutAt y b ↔ x = y ∧ a = b := by simp [cutAt]

theorem exists_cutAt (c : Cut α) : ∃ x a, c = cutAt x a := ⟨(ofLex c).1, (ofLex c).2, rfl⟩

variable [LinearOrder α]

theorem cutAt_lt : cutAt x a < cutAt y b ↔ x < y ∨ x = y ∧ a = false ∧ b = true := by
  unfold cutAt
  rw [Prod.Lex.toLex_lt_toLex]
  simp [Bool.lt_iff]

theorem cutAt_le : cutAt x a ≤ cutAt y b ↔ x < y ∨ x = y ∧ (a = false ∨ b = true) := by
  unfold cutAt
  rw [Prod.Lex.toLex_le_toLex]
  cases a <;> cases b <;> simp

theorem cutAt_lt_iff_of_le (le : cutAt x a ≤ cutAt y b) :
    cutAt x a < cutAt y b ↔ x < y ∨ x = y ∧ a ≠ b := by
  rw [cutAt_le] at le
  rw [cutAt_lt]
  grind

theorem compare_eq_ite (x y : α) :
    compare x y = if x < y then .lt else if x = y then .eq else .gt :=
  LinearOrder.compare_eq_compareOfLessAndEq x y

theorem max_cutAt : max (cutAt x a) (cutAt y b) =
    match compare x y with
    | .lt => cutAt y b
    | .gt => cutAt x a
    | .eq => cutAt x (a || b) := by
  rw [max_def, compare_eq_ite]
  simp only [cutAt_le]
  grind

theorem min_cutAt : min (cutAt x a) (cutAt y b) =
    match compare x y with
    | .lt => cutAt x a
    | .gt => cutAt y b
    | .eq => cutAt x (a && b) := by
  rw [min_def, compare_eq_ite]
  simp only [cutAt_le]
  grind

theorem cutAt_le_of_lt {c : Cut α} (le : x ≤ y) (before : cutAt y b < c) : cutAt x a ≤ c := by
  obtain ⟨z, d, rfl⟩ := exists_cutAt c
  rw [cutAt_lt] at before
  rw [cutAt_le]
  grind

/-- A fragment that is made only where it is not empty. -/
theorem fragment_eq {P C : Type} [LinearOrder C] {lo hi : P → C} {made : Prop} [Decidable made]
    {part : made → P} {start stop : C} (kept : start < stop ↔ made)
    (spans : ∀ made, (lo (part made), hi (part made)) = (start, stop)) :
    (if made : made then [part made] else []).map (fun p => (lo p, hi p)) =
      [(start, stop)].filter (fun s => s.1 < s.2) := by
  by_cases proper : made
  · rw [dif_pos proper, filter_cons_of_pos (by simpa using kept.mpr proper)]
    simp [spans]
  · rw [dif_neg proper, filter_cons_of_neg (by simpa using mt kept.mp proper)]
    rfl

end

namespace SpanAlgebra

variable {P α : Type} [LinearOrder α] {A : SpanAlgebra P (Cut α)} {left right xs : List P} {x : α}

/-- The points where the spans of a list start or end. -/
def stops (A : SpanAlgebra P (Cut α)) (items : List P) : List α :=
  items.flatMap (fun p => [(ofLex (A.lo p)).1, (ofLex (A.hi p)).1])

theorem covers_after_iff {z : α} (less : x < z) (clear : ∀ w ∈ A.stops xs, x < w → z < w) :
    A.Covers xs (cutAt x true) ↔ A.Covers xs (cutAt z false) := by
  unfold Covers
  refine exists_congr fun p => and_congr_right fun mem => ?_
  have start : (ofLex (A.lo p)).1 ∈ A.stops xs := mem_flatMap.mpr ⟨p, mem, by simp⟩
  have stop : (ofLex (A.hi p)).1 ∈ A.stops xs := mem_flatMap.mpr ⟨p, mem, by simp⟩
  obtain ⟨s, a, atLo⟩ := exists_cutAt (A.lo p)
  obtain ⟨e, b, atHi⟩ := exists_cutAt (A.hi p)
  rw [atLo] at start ⊢
  rw [atHi] at stop ⊢
  have clearS : x < s → z < s := clear s start
  have clearE : x < e → z < e := clear e stop
  simp only [cutAt_le, cutAt_lt]
  grind

theorem exists_just_after {y : α} [DenselyOrdered α] (less : x < y) (l : List α) :
    ∃ z, x < z ∧ ∀ w ∈ l, x < w → z < w := by
  induction l with
  | nil =>
    obtain ⟨z, after, _⟩ := exists_between less
    exact ⟨z, after, by simp⟩
  | cons w l ih =>
    obtain ⟨z, after, clear⟩ := ih
    by_cases beyond : x < w
    · obtain ⟨z', after', before⟩ := exists_between (lt_min after beyond)
      obtain ⟨before, before'⟩ := lt_min_iff.mp before
      refine ⟨z', after', fun v mem later => ?_⟩
      rcases mem_cons.mp mem with rfl | mem
      · exact before'
      · exact before.trans (clear v mem later)
    · refine ⟨z, after, fun v mem later => ?_⟩
      rcases mem_cons.mp mem with rfl | mem
      · exact absurd later beyond
      · exact clear v mem later

theorem exists_gt_of_covers (covered : A.Covers xs (cutAt x true)) : ∃ y, x < y := by
  obtain ⟨p, _, _, sub⟩ := covered
  obtain ⟨e, b, atHi⟩ := exists_cutAt (A.hi p)
  rw [atHi, cutAt_lt] at sub
  exact ⟨e, by simpa using sub⟩

theorem covers_after_of_points [DenselyOrdered α]
    (eq : ∀ x, A.Covers left (cutAt x false) ↔ A.Covers right (cutAt x false))
    (covered : A.Covers left (cutAt x true)) : A.Covers right (cutAt x true) := by
  obtain ⟨y, less⟩ := exists_gt_of_covers covered
  obtain ⟨z, after, clear⟩ := exists_just_after less (A.stops left ++ A.stops right)
  rw [covers_after_iff after fun w mem => clear w (mem_append_left _ mem)] at covered
  rw [covers_after_iff after fun w mem => clear w (mem_append_right _ mem)]
  exact (eq z).mp covered

theorem covers_iff_of_points [DenselyOrdered α]
    (eq : ∀ x, A.Covers left (cutAt x false) ↔ A.Covers right (cutAt x false)) (c : Cut α) :
    A.Covers left c ↔ A.Covers right c := by
  obtain ⟨x, after, rfl⟩ := exists_cutAt c
  cases after with
  | false => exact eq x
  | true => exact ⟨covers_after_of_points eq, covers_after_of_points fun x => (eq x).symm⟩

end SpanAlgebra

end Golib
