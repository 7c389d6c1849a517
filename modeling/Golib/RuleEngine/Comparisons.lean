import Golib.RuleEngine.Values
import Mathlib.Algebra.Ring.Int.Defs
import Mathlib.Data.Char
import Mathlib.Data.List.Lex
import Mathlib.Data.Sum.Order

/-! The built-in comparisons as one order of the values of a kind. -/
namespace Golib.RuleEngine

open List Sum

def Holds (regexp : Regexp) (name : Operator) (left right : Value) : Prop :=
  evaluateBuiltin regexp name left right = .ok true

/-- The values of an ordered kind other than the floats. -/
def Value.Comparable (value : Value) : Prop := orderedKind value.kind ∧ value.kind ≠ .float

/-- What a comparable value is ordered by: a time by what `UnixNano` leaves of it. -/
def Value.rank : Value → Lex (Int ⊕ List Char)
  | .int n | .duration n => inlₗ n
  | .time instant => inlₗ (unixNano instant)
  | .string text => inrₗ text.toList
  | _ => inlₗ 0

variable (regexp : Regexp) {a b c : Value}

theorem compare_iff {α : Type} [LinearOrder α] (x y : α) :
    (compare x y = .lt ↔ x < y) ∧ (compare x y = .gt ↔ y < x) ∧
      ((compare x y).isLE ↔ x ≤ y) ∧ ((compare x y).isGE ↔ y ≤ x) :=
  ⟨compare_lt_iff_lt, compare_gt_iff_gt, Ordering.isLE_iff_ne_gt.trans compare_le_iff_le,
    Ordering.isGE_iff_ne_lt.trans compare_ge_iff_ge⟩

theorem compare_toList (x y : String) :
    compare x y = LinearOrder.toOrd.compare x.toList y.toList := by
  rw [LinearOrder.compare_eq_compareOfLessAndEq x.toList]
  change compareOfLessAndEq x y = _
  simp only [compareOfLessAndEq, String.lt_iff, String.toList_inj]

theorem holds_iff (kinds : a.kind = b.kind) (left : a.Comparable) :
    (Holds regexp .equal a b ↔ a = b) ∧
      (Holds regexp .lessThan a b ↔ a.rank < b.rank) ∧
      (Holds regexp .greaterThan a b ↔ b.rank < a.rank) ∧
      (Holds regexp .lessOrEqual a b ↔ a.rank ≤ b.rank) ∧
      (Holds regexp .greaterOrEqual a b ↔ b.rank ≤ a.rank) := by
  obtain ⟨ordered, exact⟩ := left
  cases a <;> cases b <;> simp [Value.kind, orderedKind] at kinds ordered exact <;>
    simp [Holds, evaluateBuiltin, Value.kind, validateOperatorKinds, orderedKind, valuesEqual,
      compareOrdered, Value.rank]
  case int.int x y => exact compare_iff x y
  case string.string x y =>
    rw [compare_toList]
    exact compare_iff x.toList y.toList
  case time.time x y => exact compare_iff (unixNano x) (unixNano y)
  case duration.duration x y => exact compare_iff x y

/-- Only times can be told apart by equality and not by the order. -/
theorem rank_injective_iff (kinds : a.kind = b.kind) (left : a.Comparable) :
    (a.rank = b.rank → a = b) ↔
      ∀ s t : Int, a = .time s → b = .time t → (s - t) % 2 ^ 64 = 0 → s = t := by
  obtain ⟨ordered, exact⟩ := left
  cases a <;> cases b <;> simp [Value.kind, orderedKind] at kinds ordered exact <;>
    simp [Value.rank, String.toList_inj]
  case time.time s t =>
    have wraps : unixNano s = unixNano t ↔ (s - t) % 18446744073709551616 = 0 := by
      simp only [unixNano, Int.bmod_def]
      omega
    refine ⟨fun same eq => same (wraps.mpr (by omega)), fun same eq => same ?_⟩
    have zero := wraps.mp eq
    omega

theorem holds_isIn (left : a.Comparable) (values : List Value) :
    Holds regexp .isIn a (.list values) ↔
      ∃ x ∈ values, x.kind = a.kind ∧ Holds regexp .equal a x := by
  have equal (x : Value) : valuesEqual x a ↔ x.kind = a.kind ∧ Holds regexp .equal a x := by
    obtain ⟨ordered, exact⟩ := left
    cases a <;> cases x <;> simp [Value.kind, orderedKind] at ordered exact <;>
      simp [Holds, evaluateBuiltin, Value.kind, validateOperatorKinds, valuesEqual, eq_comm]
  have present : a.kind ≠ .missing := by
    rintro missing
    simp [Value.Comparable, missing, orderedKind] at left
  have list : (Value.list values).kind = .list := rfl
  simp only [← equal]
  simp [Holds, evaluateBuiltin, present, list, validateOperatorKinds, listContains]

/-- The comparisons of two values agree with one order, in which a third value follows. -/
structure Consistent (a b c : Value) : Prop where
  total : Holds regexp .lessThan a b ∨ Holds regexp .equal a b ∨ Holds regexp .greaterThan a b
  less_ne : ¬ (Holds regexp .lessThan a b ∧ Holds regexp .equal a b)
  less_asymm : ¬ (Holds regexp .lessThan a b ∧ Holds regexp .greaterThan a b)
  greater_ne : ¬ (Holds regexp .equal a b ∧ Holds regexp .greaterThan a b)
  atMost : Holds regexp .lessOrEqual a b ↔
    Holds regexp .lessThan a b ∨ Holds regexp .equal a b
  atLeast : Holds regexp .greaterOrEqual a b ↔
    Holds regexp .greaterThan a b ∨ Holds regexp .equal a b
  trans : Holds regexp .lessThan a b → Holds regexp .lessThan b c → Holds regexp .lessThan a c
  isIn : ∀ values, Holds regexp .isIn a (.list values) ↔
    ∃ x ∈ values, x.kind = a.kind ∧ Holds regexp .equal a x

/-- The comparisons are consistent exactly when times that differ do not differ by a multiple of
2 ^ 64 nanoseconds. -/
theorem comparisons_consistent (kinds : a.kind = b.kind ∧ b.kind = c.kind) (left : a.Comparable) :
    Consistent regexp a b c ↔
      ∀ s t : Int, a = .time s → b = .time t → (s - t) % 2 ^ 64 = 0 → s = t := by
  have middle : b.Comparable := by rwa [Value.Comparable, ← kinds.1]
  obtain ⟨equal, less, greater, atMost, atLeast⟩ := holds_iff regexp kinds.1 left
  obtain ⟨-, less', -⟩ := holds_iff regexp kinds.2 middle
  obtain ⟨-, less'', -⟩ := holds_iff regexp (kinds.1.trans kinds.2) left
  rw [← rank_injective_iff kinds.1 left]
  constructor
  · intro consistent same
    have total := consistent.total
    rw [less, equal, greater] at total
    exact (total.resolve_left same.not_lt).resolve_right same.not_gt
  · intro injective
    have equal : Holds regexp .equal a b ↔ a.rank = b.rank :=
      equal.trans ⟨congrArg Value.rank, injective⟩
    refine ⟨?_, ?_, ?_, ?_, ?_, ?_, ?_, holds_isIn regexp left⟩
    · rw [less, equal, greater]
      exact lt_trichotomy _ _
    · rw [less, equal]
      exact fun both => both.1.ne both.2
    · rw [less, greater]
      exact fun both => both.1.asymm both.2
    · rw [equal, greater]
      exact fun both => both.2.ne' both.1
    · rw [atMost, less, equal, le_iff_lt_or_eq]
    · rw [atLeast, greater, equal, le_iff_lt_or_eq, eq_comm]
    · rw [less, less', less'']
      exact lt_trans

theorem comparisons_consistent_times :
    Consistent (fun _ => none) (.time 18446744073709551621) (.time 18446744073709551625)
      (.time 18446744073709551628) ∧
    ¬ Consistent (fun _ => none) (.time 5) (.time 18446744073709551621) (.time 12) := by
  have consistent (a b c : Int) := comparisons_consistent (fun _ => none) (a := .time a)
    (b := .time b) (c := .time c) ⟨rfl, rfl⟩ ⟨rfl, nofun⟩
  rw [consistent, consistent]
  refine ⟨?_, fun apart => ?_⟩
  · rintro _ _ ⟨⟩ ⟨⟩ same
    omega
  · exact absurd (apart _ _ rfl rfl rfl) (by decide)

/-- Two times that are 2 ^ 64 nanoseconds apart. -/
theorem distant_times_incomparable :
    validateValue defaultLimits 0 (.time 0) ∧
      validateValue defaultLimits 0 (.time 18446744073709551616) ∧
      ∀ name ∈ [Operator.lessThan, .equal, .greaterThan],
        ¬ Holds (fun _ => none) name (.time 0) (.time 18446744073709551616) := by
  refine ⟨by decide, by decide, ?_⟩
  simp only [forall_mem_cons, Holds]
  decide

end Golib.RuleEngine
