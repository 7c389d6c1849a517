import Mathlib.Order.Cover
import Golib.Temporal.DatePeriods
import Golib.Temporal.Periods

/-! Allen's relations between periods, and what lies between two periods of instants. -/
namespace Golib.Temporal

variable {α : Type} [LinearOrder α]

inductive Err where
  | empty
  | step
  | limit (e : LimitError)
  deriving DecidableEq

inductive Relation where
  | invalid
  | before | meets | overlaps | starts | during | finishes | equal
  | finishedBy | contains | startedBy | overlappedBy | metBy | after
  deriving DecidableEq

def Relation.converse : Relation → Relation
  | invalid => invalid
  | before => after
  | meets => metBy
  | overlaps => overlappedBy
  | starts => startedBy
  | during => contains
  | finishes => finishedBy
  | equal => equal
  | finishedBy => finishes
  | contains => during
  | startedBy => starts
  | overlappedBy => overlaps
  | metBy => meets
  | after => before

/-- The relation of two periods that overlap, by the order of their starts and of their ends. -/
def Relation.ofOverlap : Ordering → Ordering → Relation
  | .lt, .lt => overlaps
  | .lt, .eq => finishedBy
  | .lt, .gt => contains
  | .eq, .lt => starts
  | .eq, .eq => equal
  | .eq, .gt => startedBy
  | .gt, .lt => during
  | .gt, .eq => finishes
  | .gt, .gt => overlappedBy

theorem Relation.ofOverlap_swap (starts ends : Ordering) :
    ofOverlap starts.swap ends.swap = (ofOverlap starts ends).converse := by
  cases starts <;> cases ends <;> rfl

/-- The relation of two pairs of ends, by the tests that both kinds of periods make in this
order. -/
def relate (start end_ otherStart otherEnd : α) : Relation :=
  if end_ < otherStart then .before
  else if end_ = otherStart then .meets
  else if start > otherEnd then .after
  else if start = otherEnd then .metBy
  else .ofOverlap (compare start otherStart) (compare end_ otherEnd)

def Instant.Period.relationTo (p other : Instant.Period α) : Except Err Relation :=
  if p.isEmpty || other.isEmpty then .error .empty
  else .ok (relate p.start p.end_ other.start other.end_)

def DatePeriod.Period.relationTo (p other : DatePeriod.Period) : Except Err Relation :=
  if p.isEmpty || other.isEmpty then .error .empty
  else .ok (relate p.start p.end_ other.start other.end_)

theorem relate_overlapping {a b c d : α} (left : c < b) (right : a < d) :
    relate a b c d = .ofOverlap (compare a c) (compare b d) := by
  unfold relate
  rw [if_neg left.not_gt, if_neg left.ne', if_neg right.not_gt, if_neg right.ne]

theorem relate_converse {a b c d : α} (first : a ≤ b) (second : c ≤ d)
    (apart : ¬ (a = b ∧ c = d ∧ a = c)) :
    relate c d a b = (relate a b c d).converse ∧ (relate a b c d = .equal ↔ a = c ∧ b = d) := by
  rcases lt_trichotomy b c with before | rfl | overlaps
  · simp only [relate, Relation.converse]
    grind
  · simp only [relate, Relation.converse]
    grind
  rcases lt_trichotomy a d with overlaps' | rfl | after
  · have starts : compare c a = (compare a c).swap := Std.OrientedCmp.eq_swap
    have ends : compare d b = (compare b d).swap := Std.OrientedCmp.eq_swap
    rw [relate_overlapping overlaps overlaps', relate_overlapping overlaps' overlaps, starts, ends,
      ← @compare_eq_iff_eq α _ a c, ← @compare_eq_iff_eq α _ b d]
    refine ⟨Relation.ofOverlap_swap _ _, ?_⟩
    cases compare a c <;> cases compare b d <;> simp [Relation.ofOverlap]
  · simp only [relate, Relation.converse]
    grind
  · simp only [relate, Relation.converse]
    grind

/-- Two answers, with the periods exchanged: a relation and its converse, which mark equality. -/
def Converse (forth back : Except Err Relation) (same : Prop) : Prop :=
  ∃ r, forth = .ok r ∧ back = .ok r.converse ∧ (r = .equal ↔ same)

theorem converse_relate_iff {a b c d : α} (first : a ≤ b) (second : c ≤ d) :
    Converse (.ok (relate a b c d)) (.ok (relate c d a b)) (a = c ∧ b = d) ↔
      ¬ (a = b ∧ c = d ∧ a = c) := by
  constructor
  · rintro ⟨r, forth, back, -⟩ ⟨rfl, rfl, rfl⟩
    have meets : relate a a a a = .meets := by simp [relate]
    rw [meets] at forth back
    cases forth
    cases back
  · intro apart
    obtain ⟨converse, equal⟩ := relate_converse first second apart
    exact ⟨_, rfl, by rw [converse], equal⟩

/-- Exchanging two periods gives the converse relation, and periods are equal exactly when their
ends are, exactly unless both are the same single instant or date: that one meets itself. -/
theorem relations_converse (α : Type) [LinearOrder α] :
    (∀ p q : Instant.Period α, p.isEmpty = false → q.isEmpty = false →
      (Converse (p.relationTo q) (q.relationTo p) (p.start = q.start ∧ p.end_ = q.end_) ↔
        ¬ (p.start = p.end_ ∧ q.start = q.end_ ∧ p.start = q.start))) ∧
    (∀ p q : DatePeriod.Period, p.isEmpty = false → q.isEmpty = false →
      (Converse (p.relationTo q) (q.relationTo p) (p.start = q.start ∧ p.end_ = q.end_) ↔
        ¬ (p.start = p.end_ ∧ q.start = q.end_ ∧ p.start = q.start))) := by
  refine ⟨fun p q proper proper' => ?_, fun p q proper proper' => ?_⟩
  · simp only [Instant.Period.relationTo, proper, proper']
    exact converse_relate_iff p.ordered q.ordered
  · simp only [DatePeriod.Period.relationTo, proper, proper']
    exact converse_relate_iff p.ordered q.ordered

def span (start end_ : Int) (bounds : Bounds) (ordered : start ≤ end_ := by decide) :
    Instant.Period Int := ⟨start, end_, bounds, ordered⟩

theorem relations_converse_contained :
    (span 1 4 .open_).relationTo (span 1 2 .closed) = .ok .startedBy ∧
      (span 1 2 .closed).relationTo (span 1 4 .open_) = .ok .starts := by
  obtain ⟨r, same, converse, -⟩ := ((relations_converse Int).1 (span 1 4 .open_) (span 1 2 .closed)
    (by decide) (by decide)).mpr (by decide)
  have found : (span 1 4 .open_).relationTo (span 1 2 .closed) = .ok .startedBy := by decide
  cases same.symm.trans found
  exact ⟨found, converse⟩

def firstDate : DatePeriod.Period := ⟨⟨0, by decide⟩, ⟨0, by decide⟩, .closed, le_rfl⟩

/-- A single instant and a single date meet themselves, and so are neither equal to themselves nor
met by themselves. -/
theorem single_meets_itself :
    (span 5 5 .closed).isEmpty = false ∧
      (span 5 5 .closed).relationTo (span 5 5 .closed) = .ok .meets ∧
      firstDate.isEmpty = false ∧ firstDate.relationTo firstDate = .ok .meets ∧
      Relation.meets.converse ≠ .meets := by
  decide

/-! ### Gaps -/

namespace Instant.Period

variable {p q : Period α} {x : α}

/-- The period between two others. Its ends are not checked, so they may come in the wrong order. -/
def gap (p other : Period α) : Option (α × α × Bounds) :=
  if p.isEmpty then none
  else if other.isEmpty then none
  else if (p.intersect other).isSome then none
  else
    let (left, right) := if p.start > other.start then (other, p) else (p, other)
    if left.end_ = right.start && (left.bounds.includesEnd || right.bounds.includesStart) then none
    else some (left.end_, right.start,
      Bounds.boundsFrom (!left.bounds.includesEnd) (!right.bounds.includesStart))

/-- After every member of the first period and before every member of the second. -/
def Divides (x : α) (p q : Period α) : Prop :=
  (∀ y, p.includes y = true → y < x) ∧ ∀ y, q.includes y = true → x < y

theorem divides_iff (some : ∃ y, p.includes y = true) (some' : ∃ y, q.includes y = true) :
    Divides x p q ↔ p.hi ≤ cutAt x false ∧ cutAt x false < q.lo := by
  obtain ⟨u, first⟩ := some
  obtain ⟨v, second⟩ := some'
  have points : ∀ y z : α, y < z ↔ cutAt y false < cutAt z false := fun y z => by simp [cutAt_lt]
  unfold Divides
  simp only [includes_iff, points] at first second ⊢
  constructor
  · rintro ⟨above, below⟩
    refine ⟨not_lt.mp fun sub => ?_, not_le.mp fun sub => ?_⟩
    · exact lt_irrefl _ (above x ⟨first.1.trans (above u first).le, sub⟩)
    · exact lt_irrefl _ (below x ⟨sub, (below v second).trans second.2⟩)
  · rintro ⟨above, below⟩
    exact ⟨fun y sub => sub.2.trans_le above, fun y sub => below.trans_le sub.1⟩

theorem intersect_isSome : (p.intersect q).isSome = true ↔ max p.lo q.lo < min p.hi q.hi := by
  rw [← Option.isSome_map, intersect_eq]
  split <;> simp [*]

theorem lo_lt_lo (earlier : p.start < q.start) : p.lo < q.lo := cutAt_lt.mpr (.inl earlier)

/-- Of two periods the one that starts first is the left one. -/
theorem gap_eq (earlier : p.start < q.start) (proper : p.lo < p.hi) (proper' : q.lo < q.hi) :
    p.gap q = q.gap p ∧ p.gap q =
      if p.hi < q.lo then some (p.end_, q.start,
        Bounds.boundsFrom (!p.bounds.includesEnd) (!q.bounds.includesStart))
      else none := by
  have empty := mt p.isEmpty_iff.mp proper.not_ge
  have empty' := mt q.isEmpty_iff.mp proper'.not_ge
  have less := lo_lt_lo earlier
  have meets : (p.intersect q).isSome = true ↔ q.lo < p.hi := by
    simp [intersect_isSome, max_eq_right less.le, proper']
  have meets' : (q.intersect p).isSome = true ↔ q.lo < p.hi := by
    simp [intersect_isSome, max_eq_left less.le, proper']
  unfold gap
  simp only [empty, empty', meets, meets', earlier, earlier.not_gt, if_true, if_false]
  unfold hi lo
  simp only [cutAt_lt]
  grind

variable (p q) in
/-- The first period ends with the instant right before the one that the second starts with. -/
def Neighbouring : Prop :=
  p.end_ ⋖ q.start ∧ p.bounds.includesEnd = true ∧ q.bounds.includesStart = true

theorem exists_between_cuts (less : p.hi < q.lo) :
    (∃ x, p.hi ≤ cutAt x false ∧ cutAt x false < q.lo) ↔ ¬ Neighbouring p q := by
  unfold hi lo Neighbouring at *
  simp only [cutAt_lt, cutAt_le] at less ⊢
  by_cases open_ : p.bounds.includesEnd = false
  · exact iff_of_true ⟨p.end_, .inr ⟨rfl, .inl open_⟩, by simpa [open_] using less⟩
      (by simp [open_])
  by_cases open' : q.bounds.includesStart = false
  · exact iff_of_true ⟨q.start, .inl (by simpa [open_] using less), .inr (by simp [open'])⟩
      (by simp [open'])
  · have apart : p.end_ < q.start := by simpa [open_] using less
    simp only [Bool.not_eq_false] at open_ open'
    simp [open_, open', not_covBy_iff apart]

variable (p q) in
/-- The gap of two periods is a period of exactly the instants between them, and there is one
exactly when the periods share no instant and there is such an instant. -/
structure ExactGap : Prop where
  found : (p.gap q).isSome = true ↔
    (¬ ∃ x, p.includes x = true ∧ q.includes x = true) ∧ ∃ x, Divides x p q ∨ Divides x q p
  holds : ∀ start end_ bounds, p.gap q = some (start, end_, bounds) → ∃ ordered : start ≤ end_,
    ∀ x, includes ⟨start, end_, bounds, ordered⟩ x = true ↔ Divides x p q ∨ Divides x q p

theorem lo_lt_hi_of_includes (sub : p.includes x = true) : p.lo < p.hi := by
  rw [includes_iff] at sub
  exact sub.1.trans_lt sub.2

theorem exactGap_iff_of_lt (some : ∃ x, p.includes x = true) (some' : ∃ x, q.includes x = true)
    (earlier : p.start < q.start) :
    p.gap q = q.gap p ∧ (ExactGap p q ↔ ¬ Neighbouring p q) := by
  obtain ⟨eq, spans⟩ := gap_eq earlier (lo_lt_hi_of_includes some.choose_spec)
    (lo_lt_hi_of_includes some'.choose_spec)
  have between (x : α) :
      Divides x p q ∨ Divides x q p ↔ p.hi ≤ cutAt x false ∧ cutAt x false < q.lo := by
    rw [divides_iff some some', divides_iff some' some, or_iff_left]
    rintro ⟨above, below⟩
    have order := (lo_lt_lo earlier).trans (lo_lt_hi_of_includes some'.choose_spec)
    exact order.not_ge (above.trans below.le)
  refine ⟨eq, fun exact_ near => ?_, fun room => ⟨?_, ?_⟩⟩
  · have less : p.hi < q.lo := cutAt_lt.mpr (.inl near.1.lt)
    have found := exact_.found
    simp only [spans, between, if_pos less, exists_between_cuts less] at found
    exact (found.mp rfl).2 near
  · simp only [spans, between]
    split
    · rename_i less
      refine iff_of_true rfl ⟨?_, (exists_between_cuts less).mpr room⟩
      rintro ⟨x, sub, inside'⟩
      rw [includes_iff] at sub inside'
      exact ((sub.2.trans less).trans_le inside'.1).false
    · rename_i touches
      refine iff_of_false (by simp) ?_
      rintro ⟨-, x, above, below⟩
      exact touches (above.trans_lt below)
  · intro start end_ bounds made
    rw [spans] at made
    split at made
    · rename_i less
      cases made
      refine ⟨?_, fun x => ?_⟩
      · unfold hi lo at less
        rw [cutAt_lt] at less
        exact less.elim le_of_lt fun eq => eq.1.le
      · rw [includes_iff, between]
        simp [lo, hi]
    · cases made

theorem ExactGap.symm (same : p.gap q = q.gap p) (exact_ : ExactGap p q) : ExactGap q p := by
  refine ⟨?_, fun start end_ bounds made => ?_⟩
  · rw [← same, exact_.found]
    simp only [and_comm, or_comm]
  · rw [← same] at made
    simpa only [or_comm] using exact_.holds start end_ bounds made

theorem gap_of_intersect (meets : (p.intersect q).isSome = true) : p.gap q = none := by
  unfold gap
  simp [meets]

theorem intersect_comm_isSome : (q.intersect p).isSome = (p.intersect q).isSome := by
  rw [Bool.eq_iff_iff, intersect_isSome, intersect_isSome, max_comm, min_comm]

theorem gap_of_same_start (same : p.start = q.start) (proper : p.lo < p.hi) (proper' : q.lo < q.hi)
    (apart : (p.intersect q).isSome = false) : p.gap q =
      if p.end_ = q.start && (p.bounds.includesEnd || q.bounds.includesStart) then none
      else some (p.end_, q.start,
        Bounds.boundsFrom (!p.bounds.includesEnd) (!q.bounds.includesStart)) := by
  have empty := mt p.isEmpty_iff.mp proper.not_ge
  have empty' := mt q.isEmpty_iff.mp proper'.not_ge
  have order : ¬ p.start > q.start := by simp [same]
  unfold gap
  rw [if_neg empty, if_neg empty', apart, if_neg (by simp), if_neg order]

/-- Periods that start together are not put in order by their starts, so their gap depends on the
order they come in unless they overlap. -/
theorem intersect_of_same_start (same : p.start = q.start) (proper : p.lo < p.hi)
    (proper' : q.lo < q.hi) (eq : p.gap q = q.gap p) : (p.intersect q).isSome = true := by
  by_contra none
  have apart := Bool.eq_false_iff.mpr none
  rw [gap_of_same_start same proper proper' apart] at eq
  rw [gap_of_same_start same.symm proper' proper (intersect_comm_isSome.trans apart)] at eq
  rw [intersect_isSome] at none
  have order := p.ordered
  unfold hi lo at *
  simp only [max_lt_iff, lt_min_iff, cutAt_lt] at *
  split at eq <;> split at eq <;> grind

/-- Between two periods that have members, `Gap` is exact and does not depend on their order exactly
when periods that start at the same instant overlap and no period starts with the instant right
after the other one's last. -/
theorem gaps_exact {α : Type} [LinearOrder α] {p q : Period α} (some : ∃ x, p.includes x = true)
    (some' : ∃ x, q.includes x = true) :
    p.gap q = q.gap p ∧ ExactGap p q ↔
      (p.start = q.start → (p.intersect q).isSome = true) ∧
        ¬ Neighbouring p q ∧ ¬ Neighbouring q p := by
  have apart {p q : Period α} (starts : q.start ≤ p.start) : ¬ Neighbouring p q :=
    fun near => (near.1.lt.trans_le (starts.trans p.ordered)).false
  rcases lt_trichotomy p.start q.start with earlier | same | later
  · obtain ⟨eq, iff⟩ := exactGap_iff_of_lt some some' earlier
    simp [eq, iff, earlier.ne, apart earlier.le]
  · have proper := lo_lt_hi_of_includes some.choose_spec
    have proper' := lo_lt_hi_of_includes some'.choose_spec
    simp only [same, apart same.le, apart same.ge, not_false_eq_true, and_true, forall_const]
    refine ⟨fun exact_ => intersect_of_same_start same proper proper' exact_.1, fun meets => ?_⟩
    have none := gap_of_intersect meets
    have none' := gap_of_intersect (intersect_comm_isSome.trans meets)
    refine ⟨none.trans none'.symm, ⟨?_, fun start end_ bounds made => ?_⟩⟩
    · rw [none]
      refine iff_of_false (by simp) ?_
      rw [intersect_isSome] at meets
      simp only [divides_iff some some', divides_iff some' some]
      rintro ⟨-, x, ⟨above, below⟩ | ⟨above, below⟩⟩
      · exact ((le_max_right _ _).trans_lt meets).not_ge
          ((min_le_left _ _).trans (above.trans below.le))
      · exact ((le_max_left _ _).trans_lt meets).not_ge
          ((min_le_right _ _).trans (above.trans below.le))
    · rw [none] at made
      cases made
  · obtain ⟨eq, iff⟩ := exactGap_iff_of_lt some' some later
    have exact_ : ExactGap p q ↔ ExactGap q p := ⟨.symm eq.symm, .symm eq⟩
    simp [eq, exact_, iff, later.ne', apart later.le]

theorem gaps_exact_touching :
    (span 1 3 .closedOpen).gap (span 3 5 .openClosed) = some (3, 3, .closed) ∧
      ExactGap (span 1 3 .closedOpen) (span 3 5 .openClosed) ∧
      ExactGap (span 5 7 .open_) (span 5 6 .closedOpen) := by
  have touching := gaps_exact (p := span 1 3 .closedOpen) (q := span 3 5 .openClosed)
    ⟨1, by decide⟩ ⟨5, by decide⟩
  have inside := gaps_exact (p := span 5 7 .open_) (q := span 5 6 .closedOpen)
    ⟨6, by decide⟩ ⟨5, by decide⟩
  refine ⟨by decide, (touching.mpr ⟨nofun, ?_, ?_⟩).2, (inside.mpr ⟨by decide, ?_, ?_⟩).2⟩
  · exact fun near => absurd near.2 (by decide)
  · exact fun near => absurd near.1.lt (by decide)
  · exact fun near => absurd near.1.lt (by decide)
  · exact fun near => absurd near.2 (by decide)

/-- Where an open period starts at a single instant, the gap between them ends before it starts, and
in the other order there is none; and between neighbouring nanoseconds there is an empty gap. -/
theorem gap_reversed :
    (span 5 8 .open_).gap (span 5 5 .closed) = some (8, 5, .closedOpen) ∧
      (span 5 5 .closed).gap (span 5 8 .open_) = none ∧
      (span 0 1 .closed).gap (span 2 3 .closed) = some (1, 2, .open_) ∧
      ∀ x, (span 1 2 .open_).includes x = false := by
  refine ⟨by decide, by decide, by decide, fun x => ?_⟩
  rw [Bool.eq_false_iff, ne_eq, includes_iff]
  simp only [lo, hi, span, cutAt_le, cutAt_lt, Bounds.includesStart, Bounds.includesEnd]
  rintro ⟨early | ⟨-, early⟩, late | ⟨-, -, late⟩⟩
  · omega
  · cases late
  all_goals simp at early

end Instant.Period

end Golib.Temporal
