import Mathlib.Data.List.Sort
import Golib.Lib.Cuts
import Golib.Temporal.Limits

/-! Bounded intervals between two instants of a linear order. A period is a span of cuts, and the
operations on periods are those on spans. -/
namespace Golib.Temporal.Instant

open Bounds

variable {α : Type} [LinearOrder α]

structure Period (α : Type) [LinearOrder α] where
  start : α
  end_ : α
  bounds : Bounds
  ordered : start ≤ end_
  deriving DecidableEq

namespace Period

variable {p q common : Period α}

def isEmpty (p : Period α) : Bool := p.start = p.end_ && p.bounds ≠ closed

def includes (p : Period α) (value : α) : Bool :=
  if p.isEmpty || value < p.start || value > p.end_ then false
  else if value = p.start && !p.bounds.includesStart then false
  else if value = p.end_ && !p.bounds.includesEnd then false
  else true

def setEqual (p other : Period α) : Bool :=
  if p.isEmpty then other.isEmpty
  else if other.isEmpty then false
  else p.start = other.start && p.end_ = other.end_ && p.bounds = other.bounds

def laterStart (a b : Period α) : α × Bool :=
  match compare a.start b.start with
  | .lt => (b.start, b.bounds.includesStart)
  | .gt => (a.start, a.bounds.includesStart)
  | .eq => (a.start, a.bounds.includesStart && b.bounds.includesStart)

def earlierEnd (a b : Period α) : α × Bool :=
  match compare a.end_ b.end_ with
  | .lt => (a.end_, a.bounds.includesEnd)
  | .gt => (b.end_, b.bounds.includesEnd)
  | .eq => (a.end_, a.bounds.includesEnd && b.bounds.includesEnd)

def intersect (p other : Period α) : Option (Period α) :=
  if p.isEmpty then none
  else if other.isEmpty then none
  else
    let (start, includeStart) := laterStart p other
    let (end_, includeEnd) := earlierEnd p other
    if reversed : end_ < start then none
    else if start = end_ && (!includeStart || !includeEnd) then none
    else some ⟨start, end_, boundsFrom includeStart includeEnd, not_lt.mp reversed⟩

def before (p intersection : Period α) : List (Period α) :=
  if left : p.start < intersection.start ∨ p.start = intersection.start ∧
      p.bounds.includesStart ≠ intersection.bounds.includesStart then
    [⟨p.start, intersection.start,
      boundsFrom p.bounds.includesStart (!intersection.bounds.includesStart),
      left.elim le_of_lt (fun same => same.1.le)⟩]
  else []

def after (p intersection : Period α) : List (Period α) :=
  if right : intersection.end_ < p.end_ ∨ intersection.end_ = p.end_ ∧
      p.bounds.includesEnd ≠ intersection.bounds.includesEnd then
    [⟨intersection.end_, p.end_,
      boundsFrom (!intersection.bounds.includesEnd) p.bounds.includesEnd,
      right.elim le_of_lt (fun same => same.1.le)⟩]
  else []

def subtract (p other : Period α) : List (Period α) :=
  match p.intersect other with
  | none => [p]
  | some intersection =>
    if intersection.setEqual p then [] else p.before intersection ++ p.after intersection

def lessPeriod (left right : Period α) : Bool :=
  match compare left.start right.start with
  | .lt => true
  | .gt => false
  | .eq =>
    if left.bounds.includesStart ≠ right.bounds.includesStart then left.bounds.includesStart
    else
      match compare left.end_ right.end_ with
      | .lt => true
      | .gt => false
      | .eq => left.bounds.includesEnd && !right.bounds.includesEnd

def mergeable (left right : Period α) : Bool :=
  right.start < left.end_ ||
    (right.start = left.end_ && (left.bounds.includesEnd || right.bounds.includesStart))

def mergedEnd (left right : Period α) : α × Bool :=
  match compare left.end_ right.end_ with
  | .lt => (right.end_, right.bounds.includesEnd)
  | .eq => (left.end_, left.bounds.includesEnd || right.bounds.includesEnd)
  | .gt => (left.end_, left.bounds.includesEnd)

theorem le_mergedEnd (left right : Period α) : left.end_ ≤ (mergedEnd left right).1 := by
  unfold mergedEnd
  split
  · rename_i less
    exact (compare_lt_iff_lt.mp less).le
  · exact le_rfl
  · exact le_rfl

def mergePeriods (left right : Period α) : Period α where
  start := left.start
  end_ := (mergedEnd left right).1
  bounds := boundsFrom
    (if left.start = right.start then left.bounds.includesStart || right.bounds.includesStart
      else left.bounds.includesStart) (mergedEnd left right).2
  ordered := left.ordered.trans (le_mergedEnd left right)

def compareEnd (left right : Period α) : Ordering := compare left.end_ right.end_

/-! ## Periods as spans -/

def lo (p : Period α) : Cut α := cutAt p.start (!p.bounds.includesStart)

def hi (p : Period α) : Cut α := cutAt p.end_ p.bounds.includesEnd

theorem isEmpty_iff (p : Period α) : p.isEmpty = true ↔ p.hi ≤ p.lo := by
  have ordered := p.ordered
  unfold isEmpty hi lo
  rw [cutAt_le]
  simp only [ne_eq, eq_closed_iff, Bool.and_eq_true, decide_eq_true_eq]
  grind

theorem includes_iff (p : Period α) (v : α) :
    p.includes v = true ↔ p.lo ≤ cutAt v false ∧ cutAt v false < p.hi := by
  have empty := p.isEmpty_iff
  unfold includes
  unfold hi lo at *
  simp only [cutAt_le, cutAt_lt] at *
  grind

theorem span_inj : p = q ↔ p.lo = q.lo ∧ p.hi = q.hi := by
  unfold lo hi
  rw [cutAt_inj, cutAt_inj]
  constructor
  · rintro rfl
    simp
  · cases p
    cases q
    simp_all [Bounds.ext_iff]

theorem setEqual_iff (proper : p.isEmpty = false) (proper' : q.isEmpty = false) :
    p.setEqual q = true ↔ p = q := by
  unfold setEqual
  cases p
  cases q
  simp_all [and_assoc]

theorem mergeable_iff (left right : Period α) :
    mergeable left right = true ↔ right.lo ≤ left.hi := by
  unfold mergeable hi lo
  rw [cutAt_le]
  grind

theorem lo_mergePeriods (left right : Period α) (sorted : left.lo ≤ right.lo) :
    (mergePeriods left right).lo = left.lo := by
  unfold mergePeriods
  unfold lo at *
  rw [cutAt_le] at sorted
  simp only [includesStart_boundsFrom]
  grind

theorem mergedEnd_eq (left right : Period α) :
    cutAt (mergedEnd left right).1 (mergedEnd left right).2 = max left.hi right.hi := by
  unfold mergedEnd hi
  rw [max_cutAt]
  cases compare left.end_ right.end_ <;> rfl

theorem hi_mergePeriods (left right : Period α) :
    (mergePeriods left right).hi = max left.hi right.hi := by
  rw [← mergedEnd_eq]
  simp [mergePeriods, hi]

theorem laterStart_eq (a b : Period α) :
    cutAt (laterStart a b).1 (!(laterStart a b).2) = max a.lo b.lo := by
  unfold laterStart lo
  rw [max_cutAt]
  cases compare a.start b.start <;> simp

theorem earlierEnd_eq (a b : Period α) :
    cutAt (earlierEnd a b).1 (earlierEnd a b).2 = min a.hi b.hi := by
  unfold earlierEnd hi
  rw [min_cutAt]
  cases compare a.end_ b.end_ <;> rfl

theorem not_lt_of_isEmpty (empty : p.isEmpty = true ∨ q.isEmpty = true) :
    ¬ max p.lo q.lo < min p.hi q.hi := by
  intro meets
  rcases empty with empty | empty
  · have crossing := (le_max_left _ _).trans_lt (meets.trans_le (min_le_left _ _))
    exact ((isEmpty_iff p).mp empty).not_gt crossing
  · have crossing := (le_max_right _ _).trans_lt (meets.trans_le (min_le_right _ _))
    exact ((isEmpty_iff q).mp empty).not_gt crossing

theorem intersect_eq (p q : Period α) : (p.intersect q).map (fun r => (r.lo, r.hi)) =
    if max p.lo q.lo < min p.hi q.hi then some (max p.lo q.lo, min p.hi q.hi) else none := by
  unfold intersect
  by_cases empty : p.isEmpty = true
  · rw [if_pos empty, if_neg (not_lt_of_isEmpty (.inl empty))]
    rfl
  by_cases empty' : q.isEmpty = true
  · rw [if_neg empty, if_pos empty', if_neg (not_lt_of_isEmpty (.inr empty'))]
    rfl
  rw [if_neg empty, if_neg empty', ← laterStart_eq, ← earlierEnd_eq]
  dsimp only
  split
  · rw [if_neg (by rw [cutAt_lt]; grind)]
    rfl
  · split
    · rw [if_neg (by rw [cutAt_lt]; grind)]
      rfl
    · rw [if_pos (by rw [cutAt_lt]; grind)]
      simp [lo, hi]

theorem before_eq (le : p.lo ≤ common.lo) :
    (p.before common).map (fun r => (r.lo, r.hi)) =
      [(p.lo, common.lo)].filter (fun s => s.1 < s.2) := by
  have starts : p.lo < common.lo ↔ p.start < common.start ∨ p.start = common.start ∧
      p.bounds.includesStart ≠ common.bounds.includesStart := by
    unfold lo at *
    simpa using cutAt_lt_iff_of_le le
  exact fragment_eq starts fun _ => by simp [lo, hi]

theorem after_eq (le : common.hi ≤ p.hi) :
    (p.after common).map (fun r => (r.lo, r.hi)) =
      [(common.hi, p.hi)].filter (fun s => s.1 < s.2) := by
  have ends : common.hi < p.hi ↔ common.end_ < p.end_ ∨ common.end_ = p.end_ ∧
      p.bounds.includesEnd ≠ common.bounds.includesEnd := by
    unfold hi at *
    simpa [eq_comm] using cutAt_lt_iff_of_le le
  exact fragment_eq ends fun _ => by simp [lo, hi]

theorem fragments_eq {common : Period α} (starts : p.lo ≤ common.lo) (ends : common.hi ≤ p.hi)
    (proper : common.lo < common.hi) :
    (if common.setEqual p then [] else p.before common ++ p.after common).map
        (fun r => (r.lo, r.hi)) =
      [(p.lo, common.lo), (common.hi, p.hi)].filter (fun s => s.1 < s.2) := by
  have whole : ∀ r : Period α, r.lo < r.hi → r.isEmpty = false := fun r proper =>
    Bool.eq_false_iff.mpr (mt r.isEmpty_iff.mp proper.not_ge)
  have eq := setEqual_iff (whole common proper) (whole p (starts.trans_lt (proper.trans_le ends)))
  by_cases equal : common.setEqual p = true
  · rw [if_pos equal, eq.mp equal]
    simp
  · rw [if_neg equal, List.map_append, before_eq starts, after_eq ends, ← List.filter_append]
    rfl

theorem subtract_eq (p q : Period α) : (p.subtract q).map (fun r => (r.lo, r.hi)) =
    if max p.lo q.lo < min p.hi q.hi then
      [(p.lo, max p.lo q.lo), (min p.hi q.hi, p.hi)].filter (fun s => s.1 < s.2)
    else [(p.lo, p.hi)] := by
  have spans := intersect_eq p q
  unfold subtract
  split at spans
  · rename_i meets
    cases found : p.intersect q with
    | none => simp [found] at spans
    | some common =>
      rw [found] at spans
      simp only [Option.map_some, Option.some.injEq, Prod.mk.injEq] at spans
      rw [if_pos meets, ← spans.1, ← spans.2]
      exact fragments_eq (spans.1 ▸ le_max_left _ _) (spans.2 ▸ min_le_left _ _)
        (spans.1 ▸ spans.2 ▸ meets)
  · rename_i disjoint
    cases found : p.intersect q with
    | none => simp [disjoint]
    | some common => simp [found] at spans

def algebra : SpanAlgebra (Period α) (Cut α) where
  lo := lo
  hi := hi
  isEmpty := isEmpty
  mergeable := mergeable
  merge := mergePeriods
  intersect := intersect
  subtract := subtract
  compareEnd := compareEnd
  isEmpty_iff := isEmpty_iff
  mergeable_iff := mergeable_iff
  lo_merge := lo_mergePeriods
  hi_merge := hi_mergePeriods
  intersect_eq := intersect_eq
  subtract_eq := subtract_eq
  compareEnd_ne_gt p q c le before := by
    have le : p.end_ ≤ q.end_ := not_lt.mp (mt compare_gt_iff_gt.mpr le)
    exact cutAt_le_of_lt le before
  compareEnd_ne_lt p q c le before := by
    have le : q.end_ ≤ p.end_ := not_lt.mp (mt compare_lt_iff_lt.mpr le)
    exact cutAt_le_of_lt le before

/-! ## The order of periods -/

/-- By the start, then by the end; of two equal ends the included one comes first. -/
def key (p : Period α) : Cut α ×ₗ Cut α := toLex (p.lo, cutAt p.end_ (!p.bounds.includesEnd))

theorem lessPeriod_iff (p q : Period α) : lessPeriod p q = true ↔ p.key < q.key := by
  unfold lessPeriod key lo
  rw [Prod.Lex.toLex_lt_toLex, cutAt_lt, cutAt_lt, cutAt_inj, compare_eq_ite, compare_eq_ite]
  grind

/-- The order that a stable sort by `lessPeriod` puts periods in. -/
def notAfter (p q : Period α) : Prop := lessPeriod q p = false

instance : DecidableRel (@notAfter α _) := fun _ _ => inferInstanceAs (Decidable (_ = _))

theorem notAfter_iff (p q : Period α) : notAfter p q ↔ p.key ≤ q.key := by
  unfold notAfter
  rw [← not_lt, ← lessPeriod_iff, Bool.not_eq_true]

instance : Std.Total (@notAfter α _) where
  total p q := by simpa only [notAfter_iff] using le_total p.key q.key

instance : IsTrans (Period α) notAfter where
  trans p q r first second := by
    rw [notAfter_iff] at *
    exact first.trans second

theorem lo_le_of_notAfter (sorted : notAfter p q) : p.lo ≤ q.lo := by
  rw [notAfter_iff] at sorted
  unfold key at sorted
  rw [Prod.Lex.toLex_le_toLex] at sorted
  exact sorted.elim le_of_lt (fun eq => eq.1.le)

end Period

end Golib.Temporal.Instant
