import Golib.Temporal.TimeOfDay

/-! Normalized sets of daily segments, as a boolean algebra on the closed day. -/
namespace Golib.Temporal.TimeOfDay

open DailySegment List
variable {lim : Limits} {c : Cut Offset} {size : Nat} {ss : List DailySegment}

structure Canonical (segments : List DailySegment) : Prop where
  nonempty : ∀ s ∈ segments, segmentEmpty s = false
  sorted : segments.Pairwise (fun s t => compareDailySegments s t = .lt)
  unmergeable : segments.Pairwise (fun s t => dailyMergeable s t = false)

theorem segmentEmpty_eq_false {s : DailySegment} : segmentEmpty s = false ↔ s.lo < s.hi := by
  rw [← Bool.not_eq_true, s.segmentEmpty_iff, not_le]

theorem canonical_iff : Canonical ss ↔ algebra.Separated ss := by
  have gap : ∀ s t, dailyMergeable s t = false ↔ s.hi < t.lo := fun s t => by
    rw [← Bool.not_eq_true, dailyMergeable_iff, not_le]
  constructor
  · rintro ⟨nonempty, _, unmergeable⟩
    exact ⟨fun s mem => segmentEmpty_eq_false.mp (nonempty s mem),
      unmergeable.imp fun apart => (gap _ _).mp apart⟩
  · rintro ⟨proper, apart⟩
    refine ⟨fun s mem => segmentEmpty_eq_false.mpr (proper s mem), ?_,
      apart.imp fun later => (gap _ _).mpr later⟩
    refine apart.imp_of_mem fun {s t} mem _ later => ?_
    rw [compareDailySegments_lt_iff, key, key, Prod.Lex.toLex_lt_toLex]
    exact .inl ((proper s mem).trans later)

/-- Merge the segments from the first to the last, passing over the empty ones. -/
def normalize (limits : Limits) (segments : List DailySegment) :
    Except LimitError (List DailySegment) :=
  (segments.insertionSort notAfter).foldlM (fun normalized segment =>
    if segmentEmpty segment then .ok normalized
    else algebra.absorb limits.outputPeriods limits.outputError normalized segment) []

theorem normalize_eq (lim : Limits) (ss : List DailySegment) :
    normalize lim ss =
      ((ss.insertionSort notAfter).filter (fun s => !segmentEmpty s)).foldlM
        (algebra.absorb lim.outputPeriods lim.outputError) [] := by
  unfold normalize
  rw [foldlM_filter]
  congr 1
  funext normalized segment
  cases segmentEmpty segment <;> rfl

theorem normalize_fits (lim : Limits) (ss : List DailySegment) :
    Fits lim.outputPeriods lim.outputError ss.length (fun normalized =>
        algebra.Separated normalized ∧
        (∀ c, algebra.Covers normalized c ↔ algebra.Covers ss c) ∧
        normalized.length ≤ ss.length)
      (normalize lim ss) := by
  rw [normalize_eq]
  refine SpanAlgebra.absorbProper_fits (fun s => ?_) ?_
    (((pairwise_insertionSort notAfter ss).imp lo_le_of_notAfter).filter _)
  · rw [mem_filter, mem_insertionSort, Bool.not_eq_true', segmentEmpty_eq_false]
    rfl
  · rw [← length_insertionSort notAfter ss]
    exact length_filter_le _ _

theorem normalize_canonical {normalized : List DailySegment}
    (merged : normalize lim ss = .ok normalized) : Canonical normalized := by
  have fits := normalize_fits lim ss
  rw [merged] at fits
  exact canonical_iff.mpr fits.1

structure IntervalSet where
  segments : List DailySegment
  limits : Limits
  canonical : Canonical segments

def newIntervalSetFromSegments (limits : Limits) (segments : List DailySegment) :
    Except LimitError IntervalSet :=
  match merged : normalize limits segments with
  | .error e => .error e
  | .ok normalized => .ok ⟨normalized, limits, normalize_canonical merged⟩

def newIntervalSet (limits : Limits) (intervals : List Interval) :
    Except LimitError IntervalSet := do
  let limits := limits.resolve
  limits.validate
  if (intervals.length : Int) > limits.inputPeriods then .error (limits.inputError intervals.length)
  else newIntervalSetFromSegments limits (intervals.flatMap Interval.segments)

namespace IntervalSet

def effectiveLimits (s : IntervalSet) : Limits := s.limits.resolve

def equal (s other : IntervalSet) : Bool :=
  s.segments.length = other.segments.length &&
    (s.segments.zip other.segments).all (fun pair => pair.1 = pair.2)

def includes (s : IntervalSet) (value : Time) : Bool :=
  match SpanAlgebra.firstReaching (fun segment => segment.end_ ≥ value.offset) s.segments with
  | some segment => segmentIncludes segment value.offset
  | none => false

def union (s other : IntervalSet) : Except LimitError IntervalSet :=
  newIntervalSetFromSegments s.effectiveLimits (s.segments ++ other.segments)

def intersect (s other : IntervalSet) : Except LimitError IntervalSet := do
  let limits := s.effectiveLimits
  let result ← algebra.sweep limits.outputPeriods limits.outputError s.segments other.segments
  newIntervalSetFromSegments limits result

def subtract (s other : IntervalSet) : Except LimitError IntervalSet := do
  let limits := s.effectiveLimits
  let result ← algebra.cutAll limits.outputPeriods limits.outputError s.segments other.segments
  newIntervalSetFromSegments limits result

/-- The closed day, under the limits of a set. -/
def wholeDay (s : IntervalSet) : IntervalSet where
  segments := Interval.fullDay.segments
  limits := s.effectiveLimits
  canonical := ⟨by decide, pairwise_singleton _ _, pairwise_singleton _ _⟩

def complement (s : IntervalSet) : Except LimitError IntervalSet := s.wholeDay.subtract s

def Covers (s : IntervalSet) (c : Cut Offset) : Prop := algebra.Covers s.segments c

theorem separated (s : IntervalSet) : algebra.Separated s.segments := canonical_iff.mp s.canonical

theorem includes_iff (s : IntervalSet) (t : Time) :
    s.includes t = true ↔ s.Covers (cutAt t.offset false) := by
  have reach : ∀ segment : DailySegment, decide (segment.end_ ≥ t.offset) = true ↔
      cutAt t.offset false ≤ segment.hi := by
    intro segment
    rw [hi, cutAt_le]
    simp [le_iff_lt_or_eq]
  unfold Covers includes
  rw [s.separated.firstReaching_iff reach]
  cases SpanAlgebra.firstReaching (fun segment => decide (segment.end_ ≥ t.offset)) s.segments with
  | none => simp
  | some segment =>
    simp only [Option.some.injEq, exists_eq_left']
    exact segment.segmentIncludes_iff t.offset

theorem equal_of_covers {t : IntervalSet} {s : IntervalSet} (same : ∀ c, s.Covers c ↔ t.Covers c) :
    s.equal t = true := by
  unfold equal
  rw [s.separated.eq t.separated same fun _ _ => span_inj.mpr, zip_eq_zipWith, zipWith_self]
  simp

end IntervalSet

theorem newFromSegments_yields (lim : Limits) (ss : List DailySegment) (short : ss.length ≤ size) :
    lim.Yields size (fun s => s.limits = lim ∧ s.segments.length ≤ ss.length ∧
        ∀ c, s.Covers c ↔ algebra.Covers ss c)
      (newIntervalSetFromSegments lim ss) := by
  have fits := normalize_fits lim ss
  unfold newIntervalSetFromSegments
  split
  · rename_i e refused
    rw [refused] at fits
    obtain ⟨n, named, above, below⟩ := fits
    exact ⟨n, below.trans short, .inr ⟨above, named⟩⟩
  · rename_i normalized merged
    rw [merged] at fits
    exact ⟨rfl, fits.2.2, fits.2.1⟩

theorem length_segments (i : Interval) : i.segments.length ≤ 2 := by
  unfold Interval.segments
  cases i.kind <;> simp

theorem length_flatMap_segments (intervals : List Interval) :
    (intervals.flatMap Interval.segments).length ≤ 2 * intervals.length := by
  induction intervals with
  | nil => simp
  | cons i intervals ih =>
    have first := length_segments i
    rw [flatMap_cons, length_append, length_cons]
    omega

theorem covers_flatMap_iff {intervals : List Interval} :
    algebra.Covers (intervals.flatMap Interval.segments) c ↔
      ∃ i ∈ intervals, algebra.Covers i.segments c := by
  simp only [SpanAlgebra.Covers, mem_flatMap]
  tauto

theorem newIntervalSet_yields (valid : lim.Valid) (intervals : List Interval) :
    lim.resolve.Yields (2 * intervals.length) (fun s =>
        ∀ c, s.Covers c ↔ ∃ i ∈ intervals, algebra.Covers i.segments c)
      (newIntervalSet lim intervals) := by
  have checked := Limits.validate_resolve.mpr valid
  unfold newIntervalSet
  simp only [checked]
  split
  · rename_i many
    exact ⟨intervals.length, by omega, .inl ⟨many, rfl⟩⟩
  · refine (newFromSegments_yields _ _ (length_flatMap_segments intervals)).mono ?_
    rintro s ⟨_, _, covers⟩ c
    rw [covers, covers_flatMap_iff]

namespace IntervalSet

theorem effectiveLimits_resolve (s : IntervalSet) :
    s.effectiveLimits.resolve = s.effectiveLimits := Limits.resolve_resolve s.limits

theorem union_yields (s t : IntervalSet) :
    s.effectiveLimits.Yields (s.segments.length + t.segments.length)
      (fun r => ∀ c, r.Covers c ↔ s.Covers c ∨ t.Covers c) (s.union t) := by
  refine (newFromSegments_yields _ _ (by simp)).mono ?_
  rintro r ⟨_, _, covers⟩ c
  rw [covers c, SpanAlgebra.covers_append]
  rfl

theorem intersect_yields (s t : IntervalSet) :
    s.effectiveLimits.Yields (s.segments.length + t.segments.length)
      (fun r => ∀ c, r.Covers c ↔ s.Covers c ∧ t.Covers c) (s.intersect t) := by
  refine (Limits.yields_of_fits (SpanAlgebra.sweep_fits s.separated t.separated)).bind ?_
  rintro result ⟨short, found⟩
  refine (newFromSegments_yields _ _ short).mono ?_
  rintro r ⟨_, _, covers⟩ c
  rw [covers c, found c]
  rfl

theorem subtract_yields (s t : IntervalSet) (short : s.segments.length + t.segments.length ≤ size) :
    s.effectiveLimits.Yields size
      (fun r => r.limits = s.effectiveLimits ∧
        r.segments.length ≤ s.segments.length + t.segments.length ∧
        ∀ c, r.Covers c ↔ s.Covers c ∧ ¬ t.Covers c) (s.subtract t) := by
  refine (Limits.yields_of_fits ((SpanAlgebra.cutAll_fits s.separated.ordered t.segments).mono short
    fun _ good => good)).bind ?_
  rintro result ⟨length, found⟩
  refine (newFromSegments_yields _ _ (length.trans short)).mono ?_
  rintro r ⟨under, n, covers⟩
  refine ⟨under, n.trans length, fun c => ?_⟩
  rw [covers c, found c]
  rfl

theorem wholeDay_covers (s : IntervalSet) (c : Cut Offset) :
    s.wholeDay.Covers c ↔ c < cutAt endOfDay true := by
  obtain ⟨x, after, rfl⟩ := exists_cutAt c
  have first := midnight_le x
  change algebra.Covers [⟨midnight, endOfDay, true, true⟩] _ ↔ _
  rw [SpanAlgebra.covers_cons]
  change (cutAt midnight false ≤ _ ∧ _ < cutAt endOfDay true) ∨ _ ↔ _
  rw [cutAt_le]
  simp [first.lt_or_eq]

theorem Covers.lt {s : IntervalSet} (covered : s.Covers c) : c < cutAt endOfDay true := by
  obtain ⟨segment, _, _, sub⟩ := covered
  refine sub.trans_le ?_
  change cutAt segment.end_ segment.includeEnd ≤ _
  rw [cutAt_le]
  simp [(le_endOfDay segment.end_).lt_or_eq]

theorem complement_yields (s : IntervalSet) (short : s.segments.length + 1 ≤ size) :
    s.effectiveLimits.Yields size (fun r => r.effectiveLimits = s.effectiveLimits ∧
        r.segments.length ≤ s.segments.length + 1 ∧
        ∀ c, r.Covers c ↔ c < cutAt endOfDay true ∧ ¬ s.Covers c) s.complement := by
  have lim : s.wholeDay.effectiveLimits = s.effectiveLimits := s.effectiveLimits_resolve
  have n : s.wholeDay.segments.length = 1 := rfl
  have cut := s.wholeDay.subtract_yields s (show _ ≤ size by rwa [n, Nat.add_comm])
  rw [lim, n] at cut
  refine cut.mono ?_
  rintro r ⟨under, length, covers⟩
  refine ⟨?_, by omega, fun c => by rw [covers c, wholeDay_covers]⟩
  rw [effectiveLimits, under, s.effectiveLimits_resolve]

theorem complement_complement_yields (s : IntervalSet) :
    s.effectiveLimits.Yields (s.segments.length + 2) (fun r => r.equal s = true)
      (s.complement >>= complement) := by
  refine (s.complement_yields (by omega)).bind ?_
  rintro r ⟨lim, length, covers⟩
  rw [← lim]
  refine (r.complement_yields (by omega)).mono ?_
  rintro q ⟨_, _, covers'⟩
  refine equal_of_covers fun c => ?_
  rw [covers' c, covers c]
  constructor
  · rintro ⟨sub, outside⟩
    by_contra absent
    exact outside ⟨sub, absent⟩
  · intro covered
    exact ⟨covered.lt, fun outside => outside.2 covered⟩

end IntervalSet

/-- The sets of daily segments are a boolean algebra on the times of the closed day. -/
theorem daily_sets_exact :
    (∀ (limits : Limits) (is : List Interval), limits.Valid →
      limits.resolve.Yields (2 * is.length) (fun s => Canonical s.segments ∧
        ∀ t, s.includes t = true ↔ ∃ i ∈ is, i.includes t = true) (newIntervalSet limits is)) ∧
    (∀ s t : IntervalSet,
      s.effectiveLimits.Yields (s.segments.length + t.segments.length) (fun r =>
        Canonical r.segments ∧
        ∀ x, r.includes x = true ↔ s.includes x = true ∨ t.includes x = true) (s.union t) ∧
      s.effectiveLimits.Yields (s.segments.length + t.segments.length) (fun r =>
        Canonical r.segments ∧
        ∀ x, r.includes x = true ↔ s.includes x = true ∧ t.includes x = true) (s.intersect t) ∧
      s.effectiveLimits.Yields (s.segments.length + t.segments.length) (fun r =>
        Canonical r.segments ∧
        ∀ x, r.includes x = true ↔ s.includes x = true ∧ ¬ t.includes x = true) (s.subtract t)) ∧
    (∀ s : IntervalSet,
      s.effectiveLimits.Yields (s.segments.length + 1) (fun r => Canonical r.segments ∧
        ∀ x, r.includes x = true ↔ ¬ s.includes x = true) s.complement ∧
      s.effectiveLimits.Yields (s.segments.length + 2) (fun r => r.equal s = true)
        (s.complement >>= IntervalSet.complement)) := by
  refine ⟨fun limits is valid => ?_, fun s t => ⟨?_, ?_, ?_⟩,
    fun s => ⟨?_, s.complement_complement_yields⟩⟩
  · refine (newIntervalSet_yields valid is).mono fun s covers => ⟨s.canonical, fun t => ?_⟩
    simp only [s.includes_iff, covers, Interval.includes_iff]
  · refine (s.union_yields t).mono fun r covers => ⟨r.canonical, fun x => ?_⟩
    rw [r.includes_iff, s.includes_iff, t.includes_iff, covers]
  · refine (s.intersect_yields t).mono fun r covers => ⟨r.canonical, fun x => ?_⟩
    rw [r.includes_iff, s.includes_iff, t.includes_iff, covers]
  · refine (s.subtract_yields t le_rfl).mono ?_
    rintro r ⟨_, _, covers⟩
    refine ⟨r.canonical, fun x => ?_⟩
    rw [r.includes_iff, s.includes_iff, t.includes_iff, covers]
  · refine (s.complement_yields le_rfl).mono ?_
    rintro r ⟨_, _, covers⟩
    refine ⟨r.canonical, fun x => ?_⟩
    have inside : cutAt x.offset false < cutAt endOfDay true := by
      rw [cutAt_lt]
      simpa using (le_endOfDay x.offset).lt_or_eq
    rw [r.includes_iff, s.includes_iff, covers]
    simp [inside]

def hour (h : Nat) (early : h ≤ 24 := by decide) : Time :=
  ⟨⟨h * (60 * 60 * 1000000000), by unfold day; omega⟩⟩

/-- A night over midnight, a morning that starts when it ends, and an empty interval. -/
def shifts : List Interval :=
  (Interval.between (hour 22) (hour 6) .closedOpen).toOption.toList ++
    (Interval.between (hour 6) (hour 12) .closedOpen).toOption.toList ++ [.collapsed (hour 12)]

theorem daily_sets_exact_shifts :
    (newIntervalSet {} shifts).map (fun s => s.segments) =
      .ok [⟨midnight, (hour 12).offset, true, false⟩, ⟨(hour 22).offset, endOfDay, true, true⟩] ∧
    ∀ s, newIntervalSet {} shifts = .ok s → Canonical s.segments ∧
      ∀ t, s.includes t = true ↔ ∃ i ∈ shifts, i.includes t = true := by
  refine ⟨by decide +kernel, fun s made => ?_⟩
  have yields := daily_sets_exact.1 {} shifts (by decide +kernel)
  rwa [made] at yields

end Golib.Temporal.TimeOfDay
