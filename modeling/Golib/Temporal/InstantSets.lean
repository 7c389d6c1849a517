import Mathlib.Algebra.Order.Ring.Rat
import Golib.Temporal.Periods

/-! Normalized sets of instants. The periods of a set are never empty, in order, and no two
neighbours could be merged, so that two sets with the same members have the same periods. -/
namespace Golib.Temporal.Instant

open Period List

variable {α : Type} [LinearOrder α] {periods : List (Period α)} {lim : Limits} {size : Nat}

structure Canonical (periods : List (Period α)) : Prop where
  nonempty : ∀ p ∈ periods, p.isEmpty = false
  sorted : periods.Pairwise (fun p q => lessPeriod p q = true)
  unmergeable : periods.IsChain (fun p q => mergeable p q = false)

theorem lo_lt_hi_iff {p : Period α} : p.isEmpty = false ↔ p.lo < p.hi := by
  rw [← Bool.not_eq_true, p.isEmpty_iff, not_le]

theorem canonical_iff : Canonical periods ↔ algebra.Separated periods := by
  have gap : ∀ p q : Period α, mergeable p q = false ↔ p.hi < q.lo := fun p q => by
    rw [← Bool.not_eq_true, mergeable_iff, not_le]
  constructor
  · rintro ⟨nonempty, _, unmergeable⟩
    exact SpanAlgebra.separated_of_isChain (fun p mem => lo_lt_hi_iff.mp (nonempty p mem))
      (unmergeable.imp fun p q => (gap p q).mp)
  · rintro ⟨proper, apart⟩
    refine ⟨fun p mem => lo_lt_hi_iff.mpr (proper p mem), ?_,
      apart.isChain.imp fun p q => (gap p q).mpr⟩
    refine apart.imp_of_mem fun {p q} mem _ later => ?_
    rw [lessPeriod_iff, key, key, Prod.Lex.toLex_lt_toLex]
    exact .inl ((proper p mem).trans later)

/-- Merge the periods that are not empty, from the first to the last. -/
def normalize (limits : Limits) (periods : List (Period α)) : Except LimitError (List (Period α)) :=
  ((periods.filter (fun p => !p.isEmpty)).insertionSort notAfter).foldlM
    (algebra.absorb limits.outputPeriods limits.outputError) []

theorem normalize_fits (lim : Limits) (periods : List (Period α)) :
    Fits lim.outputPeriods lim.outputError periods.length (fun normalized =>
        algebra.Separated normalized ∧ (∀ c, algebra.Covers normalized c ↔
          algebra.Covers periods c) ∧
        normalized.length ≤ periods.length)
      (normalize lim periods) := by
  refine SpanAlgebra.absorbProper_fits (fun p => ?_) ?_
    ((pairwise_insertionSort notAfter _).imp lo_le_of_notAfter)
  · rw [mem_insertionSort, mem_filter, Bool.not_eq_true', lo_lt_hi_iff]
    rfl
  · rw [length_insertionSort]
    exact length_filter_le _ _

theorem normalize_canonical {normalized : List (Period α)}
    (merged : normalize lim periods = .ok normalized) : Canonical normalized := by
  have fits := normalize_fits lim periods
  rw [merged] at fits
  exact canonical_iff.mpr fits.1

/-- The limits are the zero value's or were checked when the set was made. -/
structure Set (α : Type) [LinearOrder α] where
  periods : List (Period α)
  limits : Limits
  canonical : Canonical periods
  valid : limits.Valid

def newSet (limits : Limits) (periods : List (Period α)) : Except LimitError (Set α) :=
  match checked : limits.resolve.validate with
  | .error e => .error e
  | .ok () =>
    if (periods.length : Int) > limits.resolve.inputPeriods then
      .error (limits.resolve.inputError periods.length)
    else
      match merged : normalize limits.resolve periods with
      | .error e => .error e
      | .ok normalized => .ok {
          periods := normalized
          limits := limits.resolve
          canonical := normalize_canonical merged
          valid := Limits.valid_resolve (Limits.validate_resolve.mp checked) }

namespace Set

def effectiveLimits (s : Set α) : Limits := s.limits.resolve

def equal (s other : Set α) : Bool :=
  s.periods.length = other.periods.length &&
    (s.periods.zip other.periods).all (fun pair => pair.1.setEqual pair.2)

def includes (s : Set α) (value : α) : Bool :=
  match SpanAlgebra.firstReaching (fun p => !(p.end_ < value)) s.periods with
  | some p => p.includes value
  | none => false

def union (s other : Set α) : Except LimitError (Set α) :=
  newSet s.effectiveLimits (s.periods ++ other.periods)

def intersect (s other : Set α) : Except LimitError (Set α) := do
  let limits := s.effectiveLimits
  let result ← algebra.sweep limits.outputPeriods limits.outputError s.periods other.periods
  newSet limits result

def subtract (s other : Set α) : Except LimitError (Set α) := do
  let limits := s.effectiveLimits
  let result ← algebra.cutAll limits.outputPeriods limits.outputError s.periods other.periods
  newSet limits result

def Covers (s : Set α) (c : Cut α) : Prop := algebra.Covers s.periods c

theorem separated (s : Set α) : algebra.Separated s.periods := canonical_iff.mp s.canonical

theorem includes_iff (s : Set α) (v : α) : s.includes v = true ↔ s.Covers (cutAt v false) := by
  have reach : ∀ p : Period α, (!decide (p.end_ < v)) = true ↔ cutAt v false ≤ p.hi := by
    intro p
    rw [hi, cutAt_le]
    simp [le_iff_lt_or_eq]
  unfold Covers includes
  rw [s.separated.firstReaching_iff reach]
  cases SpanAlgebra.firstReaching (fun p => !decide (p.end_ < v)) s.periods with
  | none => simp
  | some p =>
    simp only [Option.some.injEq, exists_eq_left']
    exact p.includes_iff v

theorem equal_of_covers {t : Set α}
    {s : Set α} (same : ∀ c, s.Covers c ↔ t.Covers c) : s.equal t = true := by
  unfold equal
  rw [s.separated.eq t.separated same fun _ _ => span_inj.mpr]
  simp only [decide_true, Bool.true_and, all_eq_true]
  intro pair mem
  rw [zip_eq_zipWith, zipWith_self, mem_map] at mem
  obtain ⟨p, mem, rfl⟩ := mem
  have proper := t.canonical.nonempty p mem
  rw [setEqual_iff proper proper]

end Set

theorem newSet_yields (valid : lim.Valid) (periods : List (Period α))
    (short : periods.length ≤ size) :
    lim.resolve.Yields size (fun s => ∀ c, s.Covers c ↔ algebra.Covers periods c)
      (newSet lim periods) := by
  have fits := normalize_fits lim.resolve periods
  unfold newSet
  split
  · rename_i e refused
    rw [Limits.validate_resolve.mpr valid] at refused
    cases refused
  · split
    · rename_i many
      exact ⟨periods.length, short, .inl ⟨many, rfl⟩⟩
    · split
      · rename_i e refused
        rw [refused] at fits
        obtain ⟨n, named, above, below⟩ := fits
        exact ⟨n, below.trans short, .inr ⟨above, named⟩⟩
      · rename_i normalized merged
        rw [merged] at fits
        exact fits.2.1

theorem newSet_covers {s : Set α} (made : newSet lim periods = .ok s) (c : Cut α) :
    s.Covers c ↔ algebra.Covers periods c := by
  by_cases valid : lim.Valid
  · have yields := newSet_yields valid periods le_rfl
    rw [made] at yields
    exact yields c
  · unfold newSet at made
    split at made
    · cases made
    · rename_i checked
      exact absurd (Limits.validate_resolve.mp checked) valid

theorem covers_point_iff (periods : List (Period α)) (x : α) :
    algebra.Covers periods (cutAt x false) ↔ ∃ p ∈ periods, p.includes x = true :=
  exists_congr fun p => and_congr_right fun _ => (p.includes_iff x).symm

namespace Set

theorem effectiveLimits_valid (s : Set α) : s.effectiveLimits.Valid := Limits.valid_resolve s.valid

theorem effectiveLimits_resolve (s : Set α) : s.effectiveLimits.resolve = s.effectiveLimits :=
  Limits.resolve_resolve s.limits

theorem newSet_effectiveLimits (s : Set α) (short : periods.length ≤ size) :
    s.effectiveLimits.Yields size (fun r => ∀ c, r.Covers c ↔ algebra.Covers periods c)
      (newSet s.effectiveLimits periods) := by
  have made := newSet_yields s.effectiveLimits_valid periods short
  rwa [s.effectiveLimits_resolve] at made

theorem union_yields (s t : Set α) :
    s.effectiveLimits.Yields (s.periods.length + t.periods.length)
      (fun r => ∀ c, r.Covers c ↔ s.Covers c ∨ t.Covers c) (s.union t) := by
  refine (s.newSet_effectiveLimits (by simp)).mono fun r covers c => ?_
  rw [covers c, SpanAlgebra.covers_append]
  rfl

theorem intersect_yields (s t : Set α) :
    s.effectiveLimits.Yields (s.periods.length + t.periods.length)
      (fun r => ∀ c, r.Covers c ↔ s.Covers c ∧ t.Covers c) (s.intersect t) := by
  refine (Limits.yields_of_fits (SpanAlgebra.sweep_fits s.separated t.separated)).bind ?_
  rintro result ⟨short, found⟩
  refine (s.newSet_effectiveLimits short).mono fun r covers c => ?_
  rw [covers c, found c]
  rfl

theorem subtract_yields (s t : Set α) :
    s.effectiveLimits.Yields (s.periods.length + t.periods.length)
      (fun r => ∀ c, r.Covers c ↔ s.Covers c ∧ ¬ t.Covers c) (s.subtract t) := by
  refine (Limits.yields_of_fits (SpanAlgebra.cutAll_fits s.separated.ordered t.periods)).bind ?_
  rintro result ⟨short, found⟩
  refine (s.newSet_effectiveLimits short).mono fun r covers c => ?_
  rw [covers c, found c]
  rfl

end Set

/-- Normalization keeps exactly the members of the periods, and the operations on sets act on
members as their names say; what they yield is canonical, does not depend on how the periods were
listed, and in a dense order is decided by the members. -/
theorem instant_sets_exact (α : Type) [LinearOrder α] :
    (∀ (limits : Limits) (ps : List (Period α)), limits.Valid →
      limits.resolve.Yields ps.length (fun s => Canonical s.periods ∧
        ∀ x, s.includes x = true ↔ ∃ p ∈ ps, p.includes x = true) (newSet limits ps)) ∧
    (∀ s t : Set α,
      s.effectiveLimits.Yields (s.periods.length + t.periods.length) (fun r => Canonical r.periods ∧
        ∀ x, r.includes x = true ↔ s.includes x = true ∨ t.includes x = true) (s.union t) ∧
      s.effectiveLimits.Yields (s.periods.length + t.periods.length) (fun r => Canonical r.periods ∧
        ∀ x, r.includes x = true ↔ s.includes x = true ∧ t.includes x = true) (s.intersect t) ∧
      s.effectiveLimits.Yields (s.periods.length + t.periods.length) (fun r => Canonical r.periods ∧
        ∀ x, r.includes x = true ↔ s.includes x = true ∧ ¬ t.includes x = true) (s.subtract t)) ∧
    (∀ (limits limits' : Limits) (ps qs : List (Period α)) (s t : Set α), (∀ p, p ∈ ps ↔ p ∈ qs) →
      newSet limits ps = .ok s → newSet limits' qs = .ok t → s.equal t = true) ∧
    (DenselyOrdered α → ∀ s t : Set α, (∀ x, s.includes x = t.includes x) → s.equal t = true) := by
  refine ⟨fun limits ps valid => ?_, fun s t => ⟨?_, ?_, ?_⟩, ?_, fun dense s t same => ?_⟩
  · refine (newSet_yields valid ps le_rfl).mono fun s covers => ⟨s.canonical, fun x => ?_⟩
    rw [s.includes_iff, covers, covers_point_iff]
  · refine (s.union_yields t).mono fun r covers => ⟨r.canonical, fun x => ?_⟩
    rw [r.includes_iff, s.includes_iff, t.includes_iff, covers]
  · refine (s.intersect_yields t).mono fun r covers => ⟨r.canonical, fun x => ?_⟩
    rw [r.includes_iff, s.includes_iff, t.includes_iff, covers]
  · refine (s.subtract_yields t).mono fun r covers => ⟨r.canonical, fun x => ?_⟩
    rw [r.includes_iff, s.includes_iff, t.includes_iff, covers]
  · intro limits limits' ps qs s t listed made made'
    refine Set.equal_of_covers fun c => ?_
    rw [newSet_covers made, newSet_covers made']
    exact exists_congr fun p => and_congr_left' (listed p)
  · refine Set.equal_of_covers (SpanAlgebra.covers_iff_of_points fun x => ?_)
    rw [← Set.Covers, ← Set.Covers, ← s.includes_iff, ← t.includes_iff, same x]

/-- Touching, overlapping, empty and single-instant periods, in no order. -/
def visits : List (Period ℚ) :=
  [⟨5, 7, .open_, by decide +kernel⟩, ⟨1, 3, .closedOpen, by decide +kernel⟩,
    ⟨7, 7, .openClosed, by decide +kernel⟩, ⟨3, 5, .openClosed, by decide +kernel⟩,
    ⟨3, 3, .closed, by decide +kernel⟩]

theorem instant_sets_exact_visits :
    (newSet {} visits).map (fun s => s.periods.map (fun p => (p.start, p.end_, p.bounds))) =
      .ok [(1, 7, .closedOpen)] ∧
    ∀ s, newSet {} visits = .ok s → Canonical s.periods ∧
      ∀ x, s.includes x = true ↔ ∃ p ∈ visits, p.includes x = true := by
  refine ⟨by decide +kernel, fun s made => ?_⟩
  have yields := (instant_sets_exact ℚ).1 {} visits (by decide +kernel)
  rwa [made] at yields

end Golib.Temporal.Instant
