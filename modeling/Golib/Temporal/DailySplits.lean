import Golib.Temporal.IntervalSets
import Golib.Temporal.Splits

/-! Daily intervals cut into pieces of a fixed length. The cuts of the day are placed along the way
that the day runs from the start of the interval, over midnight if it is circular. -/
namespace Golib.Temporal.TimeOfDay

open DailySegment List Nat

namespace Interval

variable {i : Interval} {step : Int} {c : Cut Offset} {k elapsed : Nat}

def duration (i : Interval) : Nat :=
  (match i.kind with
  | .collapsed => 0
  | .fullDay => day
  | .circular => day - i.start.offset.duration + i.end_.offset.duration
  | .ordinary => i.end_.offset.duration - i.start.offset.duration).toNat

def timeAt (i : Interval) (elapsed : Nat) : Time :=
  if i.start.offset.duration + elapsed = day then
    if i.kind = .circular then ⟨midnight⟩ else ⟨endOfDay⟩
  else if later : i.start.offset.duration + elapsed > day then
    ⟨(i.start.offset.duration + elapsed) % day, by unfold day; omega⟩
  else ⟨⟨i.start.offset.duration + elapsed, by have := i.start.offset.inDay; omega⟩⟩

def zero : Interval := ⟨⟨midnight⟩, ⟨midnight⟩, .closedOpen, .ordinary, le_rfl⟩

/-- What is between two times on the way; the error that there may be is dropped. -/
def part (i : Interval) (elapsed next : Nat) (bounds : Bounds) : Interval :=
  (between (i.timeAt elapsed) (i.timeAt next) bounds).toOption.getD zero

def pieceCount (i : Interval) (step : Nat) : Nat :=
  if i.duration % step ≠ 0 then i.duration / step + 1 else i.duration / step

def piece (i : Interval) (step index : Nat) : Interval :=
  let elapsed := index * step
  let next := if index < i.pieceCount step - 1 then elapsed + step else i.duration
  i.part elapsed next (.boundsFrom (0 < elapsed || i.bounds.includesStart)
    (next = i.duration && i.bounds.includesEnd))

def split (i : Interval) (step : Int) (limits : Limits) : Except Err (List Interval) := do
  let limits ← Instant.splitLimits step limits
  if i.kind = .collapsed then .ok []
  else if i.pieceCount step.toNat > limits.steps then
    .error (.limit ⟨"steps", i.pieceCount step.toNat, limits.steps⟩)
  else .ok ((range (i.pieceCount step.toNat)).map (i.piece step.toNat))

/-! ### The way through an interval -/

/-- Twice the duration at a cut, and one more after the time. -/
def place (c : Cut Offset) : Int := 2 * (ofLex c).1.duration + (ofLex c).2.toInt

theorem toInt_range (b : Bool) : 0 ≤ b.toInt ∧ b.toInt ≤ 1 := by cases b <;> decide

theorem place_le {d : Cut Offset} : c ≤ d ↔ place c ≤ place d := by
  obtain ⟨x, a, rfl⟩ := exists_cutAt c
  obtain ⟨y, b, rfl⟩ := exists_cutAt d
  rw [cutAt_le, Offset.ext_iff]
  change x.duration < y.duration ∨ _ ↔ 2 * x.duration + a.toInt ≤ 2 * y.duration + b.toInt
  cases a <;> cases b <;> simp <;> omega

theorem place_nonneg (c : Cut Offset) : 0 ≤ place c := by
  have duration := (ofLex c).1.inDay
  have after := toInt_range (ofLex c).2
  unfold place
  omega

/-- How far on the way a cut is. At midnight the day runs past two times. -/
def way (i : Interval) (c : Cut Offset) : Int :=
    (place c - 2 * i.start.offset.duration) % (2 * day + 2)

def seam (i : Interval) (elapsed : Nat) : Int :=
  (2 * (i.timeAt elapsed).offset.duration - 2 * i.start.offset.duration) % (2 * day + 2)

theorem covers_between (x y : Time) (bd : Bounds) (sub : place c ≤ 2 * day)
    (apart : x.offset.duration ≠ y.offset.duration) :
    algebra.Covers ((between x y bd).toOption.getD zero).segments c ↔
      (!bd.includesStart).toInt ≤ (place c - 2 * x.offset.duration) % (2 * day + 2) ∧
        (place c - 2 * x.offset.duration) % (2 * day + 2) <
          (2 * y.offset.duration - 2 * x.offset.duration) % (2 * day + 2) +
            bd.includesEnd.toInt := by
  have segment (s : DailySegment) : (algebra.lo s ≤ c ∧ c < algebra.hi s) ↔
      2 * s.start.duration + (!s.includeStart).toInt ≤ place c ∧
        place c < 2 * s.end_.duration + s.includeEnd.toInt := by
    rw [place_le, ← not_le, place_le, not_le]
    rfl
  have first := place_nonneg c
  have low := toInt_range (!bd.includesStart)
  have high := toInt_range bd.includesEnd
  have startDay := x.offset.inDay
  have endDay := y.offset.inDay
  unfold between
  by_cases less : x.offset.duration < y.offset.duration
  · rw [dif_pos (show x.offset < y.offset from less)]
    simp only [Except.toOption, Option.getD_some, segments, SpanAlgebra.covers_cons,
      SpanAlgebra.covers_nil, segment, or_false]
    unfold day at *
    omega
  · have more : y.offset < x.offset := show y.offset.duration < x.offset.duration by omega
    rw [dif_neg (show ¬ x.offset < y.offset from less), dif_pos more]
    simp only [Except.toOption, Option.getD_some, segments, SpanAlgebra.covers_cons,
      SpanAlgebra.covers_nil, segment, or_false, midnight, endOfDay, Bool.not_true, Bool.toInt,
      cond_true, cond_false] at low high ⊢
    unfold day at *
    omega

theorem start_add_duration : i.start.offset.duration + i.duration =
    i.end_.offset.duration + if i.kind = .circular then day else 0 := by
  have first := i.start.offset.inDay
  have last := i.end_.offset.inDay
  have shaped := i.shaped
  unfold duration
  cases kind : i.kind <;> simp only [kind, Shaped] at shaped ⊢ <;> simp
  · have shaped : i.start.offset.duration ≤ i.end_.offset.duration := shaped
    omega
  · omega
  · rw [shaped]
  · rw [shaped.1, shaped.2]
    decide

/-- The way stays within the day, or it ends before it is at the start again. -/
theorem duration_timeAt (early : i.start.offset.duration < day) (upto : elapsed ≤ i.duration) :
    (i.start.offset.duration + elapsed ≤ day ∧
        (i.timeAt elapsed).offset.duration = i.start.offset.duration + elapsed ∨
      elapsed < day ∧ day ≤ i.start.offset.duration + elapsed ∧
        (i.timeAt elapsed).offset.duration = i.start.offset.duration + elapsed - day) ∧
      (elapsed = i.duration → (i.timeAt elapsed).offset.duration = i.end_.offset.duration) := by
  have last := i.end_.offset.inDay
  have whole := i.start_add_duration
  have shaped := i.shaped
  unfold timeAt
  by_cases circular : i.kind = .circular
  · simp only [circular, if_true, Shaped] at whole shaped ⊢
    have shaped : i.end_.offset.duration < i.start.offset.duration := shaped
    split_ifs <;> simp only [midnight, and_true] <;> unfold day at * <;> omega
  · simp only [circular, if_false] at whole ⊢
    split_ifs <;> simp only [endOfDay, and_true] <;> omega

theorem seam_lt (early : i.start.offset.duration < day) {elapsed next : Nat} (less : elapsed < next)
    (upto : next ≤ i.duration) : i.seam elapsed + 2 ≤ i.seam next := by
  have first := i.start.offset.inDay
  have starts := (duration_timeAt early (less.le.trans upto)).1
  have stops := (duration_timeAt early upto).1
  unfold seam
  unfold day at *
  omega

theorem part_covers (early : i.start.offset.duration < day) {elapsed next : Nat}
    (less : elapsed < next) (upto : next ≤ i.duration) (bd : Bounds) {c : Cut Offset}
    (sub : place c ≤ 2 * day) :
    algebra.Covers (i.part elapsed next bd).segments c ↔
      i.seam elapsed + (!bd.includesStart).toInt ≤ i.way c ∧
        i.way c < i.seam next + bd.includesEnd.toInt := by
  have ahead := seam_lt early less upto
  have low := toInt_range (!bd.includesStart)
  have high := toInt_range bd.includesEnd
  unfold part
  unfold seam at *
  unfold way
  rw [covers_between _ _ bd sub (fun eq => by rw [eq] at ahead; omega)]
  unfold day at *
  omega

theorem lt_pieceCount_iff {step : Nat} (pos : 0 < step) :
    k < i.pieceCount step ↔ k * step < i.duration := by
  have split := div_add_mod' i.duration step
  unfold pieceCount
  by_cases whole : i.duration % step = 0
  · rw [if_neg (not_not.mpr whole), ← Nat.mul_lt_mul_right pos]
    omega
  · rw [if_pos whole, Nat.lt_add_one_iff, Nat.le_div_iff_mul_le pos]
    refine ⟨fun le => lt_of_le_of_ne le ?_, le_of_lt⟩
    rintro eq
    exact whole (eq ▸ mul_mod_left _ _)

/-- Where a piece starts on the way; behind the last one, where the interval ends. -/
def edge (i : Interval) (step k : Nat) : Int :=
  if k * step < i.duration then
    i.seam (k * step) + (!(decide (0 < k * step) || i.bounds.includesStart)).toInt
  else i.seam i.duration + i.bounds.includesEnd.toInt

section

variable (early : i.start.offset.duration < day) {step : Nat} (pos : 0 < step)

include early pos

/-- A piece is what is on the way between two edges. -/
theorem piece_covers {k : Nat} (more : k * step < i.duration) {c : Cut Offset}
    (sub : place c ≤ 2 * day) : algebra.Covers (i.piece step k).segments c ↔
      i.edge step k ≤ i.way c ∧ i.way c < i.edge step (k + 1) := by
  have last : k < i.pieceCount step - 1 ↔ (k + 1) * step < i.duration := by
    rw [← lt_pieceCount_iff pos]
    omega
  have next : k * step + step = (k + 1) * step := by rw [add_mul, one_mul]
  unfold piece edge
  rw [if_pos more]
  by_cases shorter : (k + 1) * step < i.duration
  · simp only [if_pos (last.mpr shorter), if_pos shorter, next]
    rw [part_covers early (by omega) shorter.le _ sub]
    simp [shorter.ne, pos]
  · simp only [if_neg (mt last.mp shorter), if_neg shorter]
    rw [part_covers early more le_rfl _ sub]
    simp

theorem edge_le_succ (k : Nat) : i.edge step k ≤ i.edge step (k + 1) := by
  have low := toInt_range (!(decide (0 < k * step) || i.bounds.includesStart))
  have low' := toInt_range (!(decide (0 < (k + 1) * step) || i.bounds.includesStart))
  have high := toInt_range i.bounds.includesEnd
  have next : k * step < (k + 1) * step := by rw [add_mul]; omega
  unfold edge
  split_ifs with more shorter
  · have := seam_lt early next shorter.le
    omega
  · have := seam_lt early more le_rfl
    omega
  · omega
  · exact le_rfl

theorem edge_le {j : Nat} (le : j ≤ k) : i.edge step j ≤ i.edge step k := by
  induction le with
  | refl => exact le_rfl
  | step _ ih => exact ih.trans (edge_le_succ early pos _)

end

theorem exists_between {z : Int} {n : Nat} {edge : Nat → Int} (after : edge 0 ≤ z)
    (before : z < edge n) : ∃ k < n, edge k ≤ z ∧ z < edge (k + 1) := by
  induction n with
  | zero => omega
  | succ n ih =>
    by_cases first : z < edge n
    · obtain ⟨k, less, sub⟩ := ih first
      exact ⟨k, by omega, sub⟩
    · exact ⟨n, by omega, not_lt.mp first, before⟩

/-- An interval that `Between` or `FullDay` makes. -/
def Made (i : Interval) : Prop :=
  (∃ start end_ bounds, between start end_ bounds = .ok i) ∨ i = fullDay

/-- The whole way is the interval. -/
theorem Made.whole (made : i.Made) (early : i.start.offset.duration < day) :
    0 < i.duration ∧ (i.part 0 i.duration i.bounds).segments = i.segments := by
  have first := i.start.offset.inDay
  have last := i.end_.offset.inDay
  have whole := i.start_add_duration
  have starts : (i.timeAt 0).offset = i.start.offset := Offset.ext (by
    have := (duration_timeAt early (zero_le _)).1
    omega)
  have stops := Offset.ext ((duration_timeAt early le_rfl).2 rfl)
  rw [part, show i.timeAt 0 = i.start from congrArg Time.mk starts,
    show i.timeAt i.duration = i.end_ from congrArg Time.mk stops]
  rcases made with ⟨start, end_, bd, made⟩ | rfl
  · have goes := made
    unfold between at made
    split_ifs at made with less more
    all_goals
      cases made
      simp only [goes]
      refine ⟨?_, rfl⟩
    · have less : start.offset.duration < end_.offset.duration := less
      simp at whole
      omega
    · simp at whole early first last
      omega
  · exact ⟨by decide, by decide⟩

/-- No two of the pieces have a time in common, and together they are the interval, as sets. -/
structure Partition (i : Interval) (pieces : List Interval) : Prop where
  disjoint : pieces.Pairwise fun q r => ∀ (l : Limits) (s t u : IntervalSet), l.Valid →
    newIntervalSet l [q] = .ok s → newIntervalSet l [r] = .ok t → s.intersect t = .ok u →
    u.segments = []
  members : ∀ t : Time, i.includes t = true ↔ ∃ q ∈ pieces, q.includes t = true
  union : ∀ (l : Limits) (s t : IntervalSet), l.Valid → newIntervalSet l pieces = .ok s →
    newIntervalSet l [i] = .ok t → s.equal t = true

theorem Made.kind_ne (made : i.Made) : i.kind ≠ .collapsed := by
  rcases made with ⟨start, end_, bounds, made⟩ | rfl
  · unfold between at made
    split_ifs at made <;> cases made <;> nofun
  · decide

theorem Made.circular (made : i.Made) (late : i.start = ⟨endOfDay⟩) : i.kind = .circular := by
  rcases made with ⟨start, end_, bounds, made⟩ | rfl
  · unfold between at made
    split_ifs at made with less more
    · cases made
      cases late
      exact absurd less (not_lt.mpr end_.offset.inDay.2)
    · cases made
      rfl
  · cases late

theorem newIntervalSet_covers {l : Temporal.Limits} {intervals : List Interval} {s : IntervalSet}
    (valid : l.Valid) (made : newIntervalSet l intervals = .ok s)
    (c : Cut Offset) : s.Covers c ↔ ∃ i ∈ intervals, algebra.Covers i.segments c := by
  have yields := newIntervalSet_yields valid intervals
  rw [made] at yields
  exact yields c

theorem covers_top {l : List DailySegment} {c : Cut Offset} (covered : algebra.Covers l c) :
    place c ≤ 2 * day := by
  obtain ⟨s, -, -, below⟩ := covered
  have last := s.end_.inDay
  have after := toInt_range s.includeEnd
  have below : ¬ place s.hi ≤ place c := mt place_le.mpr below.not_ge
  change ¬ 2 * s.end_.duration + s.includeEnd.toInt ≤ place c at below
  omega

/-- Disjointness and union are questions of which cuts the pieces cover. -/
theorem partition_of_covers {pieces : List Interval}
    (apart : pieces.Pairwise fun q r => ∀ c, algebra.Covers q.segments c →
      ¬ algebra.Covers r.segments c)
    (whole : ∀ c, algebra.Covers i.segments c ↔ ∃ q ∈ pieces, algebra.Covers q.segments c) :
    i.Partition pieces := by
  refine ⟨apart.imp fun disjoint l s t u valid made made' met => ?_, fun t => ?_,
    fun l s t valid made made' => ?_⟩
  · have yields := s.intersect_yields t
    rw [met] at yields
    refine eq_nil_iff_forall_not_mem.mpr fun segment mem => ?_
    have covered : u.Covers segment.lo := ⟨segment, mem, le_rfl, u.separated.proper segment mem⟩
    simp only [yields segment.lo, newIntervalSet_covers valid made,
      newIntervalSet_covers valid made', mem_singleton, exists_eq_left] at covered
    exact disjoint _ covered.1 covered.2
  · simp only [includes_iff, whole]
  · refine IntervalSet.equal_of_covers fun c => ?_
    simp only [newIntervalSet_covers valid made, newIntervalSet_covers valid made',
      mem_singleton, exists_eq_left, whole]

theorem partition_pieces (made : i.Made) (early : i.start.offset.duration < day) {step : Nat}
    (pos : 0 < step) : i.Partition ((range (i.pieceCount step)).map (i.piece step)) := by
  obtain ⟨some, eq⟩ := made.whole early
  have monotone {j k : Nat} (le : j ≤ k) := edge_le (i := i) early pos le
  have piece {k : Nat} (more : k < i.pieceCount step) {c : Cut Offset} (sub : place c ≤ 2 * day) :=
    piece_covers early pos ((lt_pieceCount_iff pos).mp more) sub
  refine partition_of_covers ?_ fun c => ?_
  · rw [pairwise_map]
    refine pairwise_lt_range.imp_of_mem fun {j k} below below' less c covered covered' => ?_
    have sub := covers_top covered
    rw [piece (mem_range.mp below) sub] at covered
    rw [piece (mem_range.mp below') sub] at covered'
    have := monotone (show j + 1 ≤ k from less)
    omega
  · simp only [mem_map, mem_range, exists_exists_and_eq_and]
    by_cases sub : place c ≤ 2 * day
    · have whole := part_covers early some le_rfl i.bounds sub
      have start : i.edge step 0 = i.seam 0 + (!i.bounds.includesStart).toInt := by
        simp [edge, some]
      have stop : i.edge step (i.pieceCount step) =
          i.seam i.duration + i.bounds.includesEnd.toInt :=
        if_neg (mt (lt_pieceCount_iff pos).mpr (lt_irrefl _))
      rw [eq, ← start, ← stop] at whole
      rw [whole]
      constructor
      · rintro ⟨after, before⟩
        obtain ⟨k, less, between⟩ := exists_between after before
        exact ⟨k, less, (piece less sub).mpr between⟩
      · rintro ⟨k, less, covered⟩
        rw [piece less sub] at covered
        exact ⟨(monotone k.zero_le).trans covered.1, covered.2.trans_le (monotone less)⟩
    · exact iff_of_false (mt covers_top sub) fun ⟨k, _, covered⟩ => sub (covers_top covered)

/-! ### Intervals from the end of the day -/

section

variable (late : i.start = ⟨endOfDay⟩) (circular : i.kind = .circular)

include late circular

theorem duration_late : (i.duration : Int) = i.end_.offset.duration ∧
    i.end_.offset.duration < day := by
  have shaped := i.shaped
  have first := i.end_.offset.inDay
  rw [circular, late] at shaped
  have shaped : i.end_.offset.duration < day := shaped
  simp only [duration, circular, late, endOfDay]
  omega

/-- The way starts at midnight, so the end of the day is not on it. -/
theorem timeAt_late (upto : elapsed ≤ i.duration) :
    (i.timeAt elapsed).offset.duration = elapsed := by
  obtain ⟨whole, before⟩ := duration_late late circular
  unfold timeAt
  simp only [circular, late, endOfDay, midnight]
  split_ifs <;> dsimp only <;> unfold day at * <;> omega

theorem piece_late {step : Nat} (pos : 0 < step) (more : k < i.pieceCount step) {c : Cut Offset}
    (covered : algebra.Covers (i.piece step k).segments c) :
    place c < 2 * day ∧ (i.bounds.includesStart = false → 0 < place c) := by
  obtain ⟨whole, before⟩ := duration_late late circular
  have sub := covers_top covered
  have first := place_nonneg c
  have starts := (lt_pieceCount_iff pos).mp more
  unfold piece at covered
  dsimp only at covered
  generalize nextEq : (if k < i.pieceCount step - 1 then k * step + step else i.duration) = next
    at covered
  have upto : k * step < next ∧ next ≤ i.duration := by
    have last := (lt_pieceCount_iff (i := i) (k := k + 1) pos).mp
    rw [add_mul, one_mul] at last
    split at nextEq <;> omega
  have low := timeAt_late late circular (upto.1.le.trans upto.2)
  have high := timeAt_late late circular upto.2
  have end_ := toInt_range (next = i.duration && i.bounds.includesEnd)
  unfold part at covered
  rw [covers_between _ _ _ sub (by omega), low, high] at covered
  simp only [Bounds.includesStart_boundsFrom, Bounds.includesEnd_boundsFrom] at covered
  refine ⟨?_, fun open_ => ?_⟩
  · unfold day at *
    omega
  · rw [open_, Bool.or_false] at covered
    by_contra none
    have zero : place c = 0 := by omega
    rw [zero] at covered
    by_cases begins : 0 < k * step
    · unfold day at *
      omega
    · simp only [begins, decide_false, Bool.not_false, Bool.toInt, cond_true] at covered
      unfold day at *
      omega

/-- An interval from the end of the day is split rightly only when there is nothing in it. -/
theorem partition_late_iff {step : Nat} (pos : 0 < step) :
    i.Partition ((range (i.pieceCount step)).map (i.piece step)) ↔
      i.end_ = ⟨midnight⟩ ∧ i.bounds = .open_ := by
  obtain ⟨whole, before⟩ := duration_late late circular
  constructor
  · intro partition
    have lost (t : Time) (held : i.includes t = true) : place (cutAt t.offset false) < 2 * day ∧
        (i.bounds.includesStart = false → 0 < place (cutAt t.offset false)) := by
      obtain ⟨_, mem, sub⟩ := (partition.members t).mp held
      obtain ⟨k, more, rfl⟩ := mem_map.mp mem
      exact piece_late late circular pos (mem_range.mp more) ((includes_iff _ t).mp sub)
    have starts : i.bounds.includesStart = false := by
      by_contra included
      have held : i.includes ⟨endOfDay⟩ = true := by
        simp [includes, circular, late, Bool.eq_true_of_not_eq_false included]
      exact (lost _ held).1.ne rfl
    have ends : i.includes ⟨midnight⟩ = false := by
      by_contra included
      exact ((lost _ (Bool.eq_true_of_not_eq_false included)).2 starts).ne rfl
    have order : ¬ midnight > endOfDay ∧ midnight ≠ endOfDay := by decide
    simp only [includes, circular, late, order.1, order.2, if_false] at ends
    split at ends
    · cases ends
    rename_i notLess
    have same : i.end_.offset = midnight := Offset.ext (le_antisymm (not_lt.mp notLess)
      i.end_.offset.inDay.1)
    rw [same, if_pos rfl] at ends
    exact ⟨congrArg Time.mk same, Bounds.ext_iff.mpr ⟨starts, ends⟩⟩
  · rintro ⟨ends, open_⟩
    have none : i.pieceCount step = 0 := by
      have zero : i.duration = 0 := by
        rw [ends] at whole
        exact Int.ofNat_eq_zero.mp whole
      simp [pieceCount, zero]
    rw [none]
    refine partition_of_covers .nil fun c => ?_
    simp only [segments, circular, ends, open_, late, SpanAlgebra.covers_cons,
      SpanAlgebra.covers_nil]
    refine iff_of_false ?_ (by simp)
    rintro (⟨after, before⟩ | ⟨after, before⟩ | none)
    · exact (after.trans_lt before).false
    · exact (after.trans_lt before).false
    · exact none

end

/-- A daily interval is split into pieces that make it up, exactly unless it starts at 24:00 and
there is something in it. -/
theorem daily_splits_exact {i : Interval} (made : i.Made) {step : Int} (positive : 0 < step)
    {limits : Limits} (valid : limits.Valid) :
    (∀ pieces, i.split step limits = .ok pieces →
      (i.Partition pieces ↔
        i.start ≠ ⟨endOfDay⟩ ∨ i.end_ = ⟨midnight⟩ ∧ i.bounds = .open_)) ∧
    ∀ e, i.split step limits = .error e →
      e = .limit ⟨"steps", i.pieceCount step.toNat, limits.resolve.steps⟩ ∧
        limits.resolve.steps < i.pieceCount step.toNat := by
  have kind := made.kind_ne
  have pos : 0 < step.toNat := by omega
  have split_eq : i.split step limits =
      if i.pieceCount step.toNat > limits.resolve.steps then
        .error (.limit ⟨"steps", i.pieceCount step.toNat, limits.resolve.steps⟩)
      else .ok ((range (i.pieceCount step.toNat)).map (i.piece step.toNat)) := by
    unfold split Instant.splitLimits
    rw [if_neg positive.not_ge, Limits.validate_resolve.mpr valid]
    exact if_neg kind
  rw [split_eq]
  refine ⟨fun pieces ran => ?_, fun e failed => ?_⟩
  · split at ran
    · cases ran
    cases ran
    by_cases late : i.start = ⟨endOfDay⟩
    · rw [partition_late_iff late (made.circular late) pos]
      simp [late]
    · have early : i.start.offset.duration < day :=
        lt_of_le_of_ne i.start.offset.inDay.2 fun same => late (congrArg Time.mk (Offset.ext same))
      exact iff_of_true (partition_pieces made early pos) (.inl late)
  · split at failed
    · cases failed
      exact ⟨rfl, ‹_›⟩
    · cases failed

theorem daily_splits_exact_night :
    ∃ night pieces, between (hour 22) (hour 6) .openClosed = .ok night ∧
      night.split (hour 4).offset.duration {} = .ok pieces ∧ night.Partition pieces := by
  obtain ⟨night, made⟩ : ∃ night, between (hour 22) (hour 6) .openClosed = .ok night := ⟨_, rfl⟩
  obtain ⟨splits, fails⟩ := daily_splits_exact (i := night) (.inl ⟨_, _, _, made⟩)
    (show 0 < (hour 4).offset.duration by decide) (show Limits.Valid {} by decide)
  cases parts : night.split (hour 4).offset.duration {} with
  | error e =>
    have few := (fails e parts).2
    cases made
    exact absurd few (by decide)
  | ok pieces =>
    exact ⟨night, pieces, made, parts, (splits pieces parts).mpr (.inl (by cases made; decide))⟩

/-- The only piece of an interval from 24:00 starts at 00:00, so the end of the day is lost. -/
theorem split_loses_endOfDay :
    ∃ morning piece, between (hour 24) (hour 6) .closedOpen = .ok morning ∧
      between (hour 0) (hour 6) .closedOpen = .ok piece ∧ morning.includes (hour 24) = true ∧
      piece.includes (hour 24) = false ∧ morning.split (hour 6).offset.duration {} = .ok [piece] ∧
      (do return (← newIntervalSet {} [piece]).equal (← newIntervalSet {} [morning])) =
        (.ok false : Except LimitError Bool) := by
  refine ⟨_, _, rfl, rfl, by decide, by decide, rfl, by decide +kernel⟩

end Interval

end Golib.Temporal.TimeOfDay
