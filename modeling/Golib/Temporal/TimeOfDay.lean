import Mathlib.Data.List.Sort
import Golib.Lib.Cuts
import Golib.Temporal.Limits

/-! Local times of the closed day, the daily intervals between them, and the linear segments that
the intervals are cut into at midnight. -/
namespace Golib.Temporal.TimeOfDay

/-- A day of 24 hours, in nanoseconds. -/
def day : Int := 24 * 60 * 60 * 1000000000

/-- A duration since midnight; the end of the day is not the start of it. -/
@[ext]
structure Offset where
  duration : Int
  inDay : 0 ≤ duration ∧ duration ≤ day

instance : LinearOrder Offset :=
  @LinearOrder.lift' Offset Int Int.instLinearOrder Offset.duration fun _ _ => Offset.ext

def midnight : Offset := ⟨0, by decide⟩

def endOfDay : Offset := ⟨day, by decide⟩

theorem midnight_le (d : Offset) : midnight ≤ d := d.inDay.1

theorem le_endOfDay (d : Offset) : d ≤ endOfDay := d.inDay.2

structure Time where
  offset : Offset
  deriving DecidableEq

inductive TimeError where
  | invalidTime
  deriving DecidableEq

inductive IntervalKind where
  | ordinary
  | circular
  | collapsed
  | fullDay
  deriving DecidableEq

/-- How the ends of an interval of each kind lie. -/
def Shaped (start end_ : Time) : IntervalKind → Prop
  | .ordinary => start.offset ≤ end_.offset
  | .circular => end_.offset < start.offset
  | .collapsed => start = end_
  | .fullDay => start = ⟨midnight⟩ ∧ end_ = ⟨endOfDay⟩

/-- An ordinary interval may have equal ends: the zero value has, and the segments of a set that are
single times. -/
structure Interval where
  start : Time
  end_ : Time
  bounds : Bounds
  kind : IntervalKind
  shaped : Shaped start end_ kind

namespace Interval

/-- From a time to another one, over midnight when the second one is earlier. -/
def between (start end_ : Time) (bounds : Bounds) : Except TimeError Interval :=
  if less : start.offset < end_.offset then .ok ⟨start, end_, bounds, .ordinary, less.le⟩
  else if more : end_.offset < start.offset then .ok ⟨start, end_, bounds, .circular, more⟩
  else .error .invalidTime

def collapsed (value : Time) : Interval := ⟨value, value, .open_, .collapsed, rfl⟩

def fullDay : Interval := ⟨⟨midnight⟩, ⟨endOfDay⟩, .closed, .fullDay, ⟨rfl, rfl⟩⟩

def includes (i : Interval) (value : Time) : Bool :=
  match i.kind with
  | .collapsed => false
  | .fullDay => if value.offset < midnight then false else value.offset ≤ endOfDay
  | .circular =>
    if value.offset > i.start.offset then true
    else if value.offset < i.end_.offset then true
    else if value.offset = i.start.offset then i.bounds.includesStart
    else if value.offset = i.end_.offset then i.bounds.includesEnd
    else false
  | .ordinary =>
    if value.offset < i.start.offset || value.offset > i.end_.offset then false
    else if value.offset = i.start.offset && !i.bounds.includesStart then false
    else if value.offset = i.end_.offset && !i.bounds.includesEnd then false
    else true

end Interval

structure DailySegment where
  start : Offset
  end_ : Offset
  includeStart : Bool
  includeEnd : Bool
  deriving DecidableEq

def Interval.segments (i : Interval) : List DailySegment :=
  match i.kind with
  | .collapsed => []
  | .fullDay => [⟨midnight, endOfDay, true, true⟩]
  | .circular =>
    [⟨midnight, i.end_.offset, true, i.bounds.includesEnd⟩,
      ⟨i.start.offset, endOfDay, i.bounds.includesStart, true⟩]
  | .ordinary =>
    [⟨i.start.offset, i.end_.offset, i.bounds.includesStart, i.bounds.includesEnd⟩]

def segmentIncludes (segment : DailySegment) (value : Offset) : Bool :=
  if value < segment.start || value > segment.end_ then false
  else if value = segment.start && !segment.includeStart then false
  else if value = segment.end_ && !segment.includeEnd then false
  else true

def segmentEmpty (segment : DailySegment) : Bool :=
  if segment.start > segment.end_ then true
  else if segment.start ≠ segment.end_ then false
  else !segment.includeStart || !segment.includeEnd

def dailyMergeable (left right : DailySegment) : Bool :=
  if right.start < left.end_ then true
  else if right.start ≠ left.end_ then false
  else left.includeEnd || right.includeStart

def mergeDaily (left right : DailySegment) : DailySegment :=
  let left := if left.start = right.start then
      { left with includeStart := left.includeStart || right.includeStart }
    else left
  if right.end_ > left.end_ then { left with end_ := right.end_, includeEnd := right.includeEnd }
  else if right.end_ = left.end_ then
    { left with includeEnd := left.includeEnd || right.includeEnd }
  else left

/-- From the later start to the earlier end. -/
def commonDaily (left right : DailySegment) : DailySegment where
  start := if left.start > right.start then left.start
    else if left.start < right.start then right.start
    else left.start
  includeStart := if left.start > right.start then left.includeStart
    else if left.start < right.start then right.includeStart
    else left.includeStart && right.includeStart
  end_ := if left.end_ < right.end_ then left.end_
    else if left.end_ > right.end_ then right.end_
    else left.end_
  includeEnd := if left.end_ < right.end_ then left.includeEnd
    else if left.end_ > right.end_ then right.includeEnd
    else left.includeEnd && right.includeEnd

def intersectDaily (left right : DailySegment) : Option DailySegment :=
  let result := commonDaily left right
  if segmentEmpty result then none else some result

def beforeDaily (value intersection : DailySegment) : List DailySegment :=
  if value.start < intersection.start ∨ value.start = intersection.start ∧
      value.includeStart ≠ intersection.includeStart then
    [⟨value.start, intersection.start, value.includeStart, !intersection.includeStart⟩]
  else []

def afterDaily (value intersection : DailySegment) : List DailySegment :=
  if intersection.end_ < value.end_ ∨ intersection.end_ = value.end_ ∧
      value.includeEnd ≠ intersection.includeEnd then
    [⟨intersection.end_, value.end_, !intersection.includeEnd, value.includeEnd⟩]
  else []

def subtractDaily (value removed : DailySegment) : List DailySegment :=
  match intersectDaily value removed with
  | none => [value]
  | some intersection =>
    if intersection = value then []
    else beforeDaily value intersection ++ afterDaily value intersection

def compareDailySegments (left right : DailySegment) : Ordering :=
  match compare left.start right.start with
  | .lt => .lt
  | .gt => .gt
  | .eq =>
    if left.includeStart ≠ right.includeStart then
      if left.includeStart then .lt else .gt
    else
      match compare left.end_ right.end_ with
      | .lt => .lt
      | .gt => .gt
      | .eq =>
        if left.includeEnd = right.includeEnd then .eq
        else if left.includeEnd then .lt
        else .gt

namespace DailySegment

variable {s t common : DailySegment}

/-! ## Segments as spans -/

def lo (s : DailySegment) : Cut Offset := cutAt s.start (!s.includeStart)

def hi (s : DailySegment) : Cut Offset := cutAt s.end_ s.includeEnd

def compareEnd (left right : DailySegment) : Ordering := compare left.end_ right.end_

theorem segmentEmpty_iff (s : DailySegment) : segmentEmpty s = true ↔ s.hi ≤ s.lo := by
  unfold segmentEmpty hi lo
  rw [cutAt_le]
  grind

theorem segmentIncludes_iff (s : DailySegment) (v : Offset) :
    segmentIncludes s v = true ↔ s.lo ≤ cutAt v false ∧ cutAt v false < s.hi := by
  unfold segmentIncludes hi lo
  rw [cutAt_le, cutAt_lt]
  grind

theorem span_inj : s = t ↔ s.lo = t.lo ∧ s.hi = t.hi := by
  unfold lo hi
  rw [cutAt_inj, cutAt_inj]
  cases s
  cases t
  simp
  tauto

theorem dailyMergeable_iff (left right : DailySegment) :
    dailyMergeable left right = true ↔ right.lo ≤ left.hi := by
  unfold dailyMergeable hi lo
  rw [cutAt_le]
  grind

theorem lo_mergeDaily (left right : DailySegment) (sorted : left.lo ≤ right.lo) :
    (mergeDaily left right).lo = left.lo := by
  unfold mergeDaily
  unfold lo at *
  rw [cutAt_le] at sorted
  grind

theorem hi_mergeDaily (left right : DailySegment) :
    (mergeDaily left right).hi = max left.hi right.hi := by
  unfold mergeDaily hi
  rw [max_cutAt, compare_eq_ite]
  grind

theorem lo_commonDaily (left right : DailySegment) :
    (commonDaily left right).lo = max left.lo right.lo := by
  unfold commonDaily lo
  rw [max_cutAt, compare_eq_ite, ← Bool.not_and]
  grind

theorem hi_commonDaily (left right : DailySegment) :
    (commonDaily left right).hi = min left.hi right.hi := by
  unfold commonDaily hi
  rw [min_cutAt, compare_eq_ite]
  grind

theorem intersectDaily_eq (s t : DailySegment) :
    (intersectDaily s t).map (fun r => (r.lo, r.hi)) =
      if max s.lo t.lo < min s.hi t.hi then some (max s.lo t.lo, min s.hi t.hi) else none := by
  have empty := segmentEmpty_iff (commonDaily s t)
  rw [lo_commonDaily, hi_commonDaily, ← not_lt] at empty
  unfold intersectDaily
  by_cases meets : max s.lo t.lo < min s.hi t.hi
  · simp [meets, empty, lo_commonDaily, hi_commonDaily]
  · simp [meets, empty]

theorem beforeDaily_eq (le : s.lo ≤ common.lo) :
    (beforeDaily s common).map (fun r => (r.lo, r.hi)) =
      [(s.lo, common.lo)].filter (fun s => s.1 < s.2) := by
  have starts : s.lo < common.lo ↔ s.start < common.start ∨ s.start = common.start ∧
      s.includeStart ≠ common.includeStart := by
    unfold lo at *
    simpa using cutAt_lt_iff_of_le le
  exact fragment_eq starts fun _ => by simp [lo, hi]

theorem afterDaily_eq (le : common.hi ≤ s.hi) :
    (afterDaily s common).map (fun r => (r.lo, r.hi)) =
      [(common.hi, s.hi)].filter (fun s => s.1 < s.2) := by
  have ends : common.hi < s.hi ↔ common.end_ < s.end_ ∨ common.end_ = s.end_ ∧
      s.includeEnd ≠ common.includeEnd := by
    unfold hi at *
    simpa [eq_comm] using cutAt_lt_iff_of_le le
  exact fragment_eq ends fun _ => by simp [lo, hi]

theorem subtractDaily_eq (s t : DailySegment) :
    (subtractDaily s t).map (fun r => (r.lo, r.hi)) =
      if max s.lo t.lo < min s.hi t.hi then
        [(s.lo, max s.lo t.lo), (min s.hi t.hi, s.hi)].filter (fun s => s.1 < s.2)
      else [(s.lo, s.hi)] := by
  have empty := segmentEmpty_iff (commonDaily s t)
  have starts := lo_commonDaily s t
  have ends := hi_commonDaily s t
  rw [starts, ends, ← not_lt] at empty
  unfold subtractDaily intersectDaily
  by_cases meets : max s.lo t.lo < min s.hi t.hi
  · simp only [meets, empty, not_true_eq_false, if_false, if_true]
    by_cases whole : commonDaily s t = s
    · rw [if_pos whole, ← starts, ← ends, whole]
      simp
    · rw [if_neg whole, List.map_append, beforeDaily_eq (starts ▸ le_max_left _ _),
        afterDaily_eq (ends ▸ min_le_left _ _), ← List.filter_append, starts, ends]
      rfl
  · simp [meets, empty]

def algebra : SpanAlgebra DailySegment (Cut Offset) where
  lo := lo
  hi := hi
  isEmpty := segmentEmpty
  mergeable := dailyMergeable
  merge := mergeDaily
  intersect := intersectDaily
  subtract := subtractDaily
  compareEnd := compareEnd
  isEmpty_iff := segmentEmpty_iff
  mergeable_iff := dailyMergeable_iff
  lo_merge := lo_mergeDaily
  hi_merge := hi_mergeDaily
  intersect_eq := intersectDaily_eq
  subtract_eq := subtractDaily_eq
  compareEnd_ne_gt s t c le before := by
    have le : s.end_ ≤ t.end_ := not_lt.mp (mt compare_gt_iff_gt.mpr le)
    exact cutAt_le_of_lt le before
  compareEnd_ne_lt s t c le before := by
    have le : t.end_ ≤ s.end_ := not_lt.mp (mt compare_lt_iff_lt.mpr le)
    exact cutAt_le_of_lt le before

/-! ## The order of segments -/

/-- By the start, then by the end; of two equal ends the included one comes first. -/
def key (s : DailySegment) : Cut Offset ×ₗ Cut Offset := toLex (s.lo, cutAt s.end_ (!s.includeEnd))

theorem compareDailySegments_lt_iff (s t : DailySegment) :
    compareDailySegments s t = .lt ↔ s.key < t.key := by
  unfold compareDailySegments key lo
  rw [Prod.Lex.toLex_lt_toLex, cutAt_lt, cutAt_lt, cutAt_inj, compare_eq_ite, compare_eq_ite]
  grind

theorem compareDailySegments_swap (s t : DailySegment) :
    (compareDailySegments s t).swap = compareDailySegments t s := by
  have starts : compare t.start s.start = (compare s.start t.start).swap := Std.OrientedCmp.eq_swap
  have ends : compare t.end_ s.end_ = (compare s.end_ t.end_).swap := Std.OrientedCmp.eq_swap
  unfold compareDailySegments
  rw [starts, ends]
  cases compare s.start t.start with
  | lt | gt => rfl
  | eq =>
    cases compare s.end_ t.end_ <;> cases s.includeStart <;> cases t.includeStart <;>
      cases s.includeEnd <;> cases t.includeEnd <;> rfl

/-- The order that a stable sort by `compareDailySegments` puts segments in. -/
def notAfter (s t : DailySegment) : Prop := compareDailySegments s t ≠ .gt

instance : DecidableRel notAfter := fun _ _ => inferInstanceAs (Decidable (_ ≠ _))

theorem notAfter_iff (s t : DailySegment) : notAfter s t ↔ s.key ≤ t.key := by
  unfold notAfter
  rw [← not_lt, ← compareDailySegments_lt_iff, ← compareDailySegments_swap]
  cases compareDailySegments s t <;> simp

instance : Std.Total notAfter where
  total s t := by simpa only [notAfter_iff] using le_total s.key t.key

instance : IsTrans DailySegment notAfter where
  trans s t r first second := by
    rw [notAfter_iff] at *
    exact first.trans second

theorem lo_le_of_notAfter (sorted : notAfter s t) : s.lo ≤ t.lo := by
  rw [notAfter_iff] at sorted
  unfold key at sorted
  rw [Prod.Lex.toLex_le_toLex] at sorted
  exact sorted.elim le_of_lt (fun eq => eq.1.le)

end DailySegment

theorem Interval.includes_iff (i : Interval) (t : Time) :
    i.includes t = true ↔ DailySegment.algebra.Covers i.segments (cutAt t.offset false) := by
  have shaped := i.shaped
  have first := midnight_le t.offset
  have last := le_endOfDay t.offset
  have segment : ∀ s : DailySegment, DailySegment.algebra.lo s ≤ cutAt t.offset false ∧
      cutAt t.offset false < DailySegment.algebra.hi s ↔ segmentIncludes s t.offset = true :=
    fun s => (s.segmentIncludes_iff t.offset).symm
  unfold includes segments
  cases kind : i.kind with
  | collapsed => simp
  | fullDay =>
    simp only [SpanAlgebra.covers_cons, SpanAlgebra.covers_nil, segment]
    unfold segmentIncludes
    grind
  | circular =>
    simp only [SpanAlgebra.covers_cons, SpanAlgebra.covers_nil, segment]
    unfold segmentIncludes
    unfold Shaped at shaped
    grind
  | ordinary =>
    simp only [SpanAlgebra.covers_cons, SpanAlgebra.covers_nil, segment]
    unfold segmentIncludes
    grind

end Golib.Temporal.TimeOfDay
