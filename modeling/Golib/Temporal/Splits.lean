import Mathlib.Tactic.Linarith
import Golib.Temporal.Relations

/-! Periods cut into pieces of a fixed length. The pieces are spans that follow one another. -/
namespace Golib.Temporal.Instant

open Bounds List

def splitLimits (step : Int) (limits : Limits) : Except Err Limits :=
  if step ≤ 0 then .error .step
  else
    match limits.resolve.validate with
    | .error e => .error (.limit e)
    | .ok () => .ok limits.resolve

def splitLimitError (value : Int) (limits : Limits) : Err :=
  if limits.outputPeriods < limits.steps then
    .limit ⟨"output_periods", value, limits.outputPeriods⟩
  else .limit ⟨"steps", value, limits.steps⟩

/-- As many pieces are let out. -/
def pieceLimit (limits : Limits) : Nat := (min limits.steps limits.outputPeriods).toNat

/-- The loop of both splits: the pieces from a cursor on, while there is room for them. -/
def collect {more : Int → Prop} [DecidablePred more] (piece : ∀ cursor, more cursor → Period Int)
    (next : Int → Int) (full : Err) : Nat → Int → Except Err (List (Period Int))
  | 0, cursor => if more cursor then .error full else .ok []
  | room + 1, cursor =>
    if inside : more cursor then do
      let rest ← collect piece next full room (next cursor)
      .ok (piece cursor inside :: rest)
    else .ok []

namespace Period

variable {p : Period Int} {step c : Int}

def isSingleton (p : Period Int) : Bool := p.start = p.end_ && p.bounds = closed

/-- What a split does before its loop. -/
def split (p : Period Int) (step : Int) (limits : Limits)
    (loop : 0 < step → Limits → Except Err (List (Period Int))) :
    Except Err (List (Period Int)) := do
  let limits ← splitLimits step limits
  if p.isEmpty then .ok []
  else if p.isSingleton then .ok [p]
  else if positive : 0 < step then loop positive limits
  else .error .step

def forwardPiece (p : Period Int) (positive : 0 < step) (cursor : Int) (inside : cursor < p.end_) :
    Period Int where
  start := cursor
  end_ := min (cursor + step) p.end_
  bounds := boundsFrom (cursor ≠ p.start || p.bounds.includesStart)
    (min (cursor + step) p.end_ = p.end_ && p.bounds.includesEnd)
  ordered := by omega

def splitForward (p : Period Int) (step : Int) (limits : Limits) : Except Err (List (Period Int)) :=
  p.split step limits fun positive limits =>
    collect (p.forwardPiece positive) (fun cursor => min (cursor + step) p.end_)
      (splitLimitError (pieceLimit limits + 1) limits) (pieceLimit limits) p.start

def backwardPiece (p : Period Int) (positive : 0 < step) (cursor : Int)
    (inside : p.start < cursor) :
    Period Int where
  start := max (cursor - step) p.start
  end_ := cursor
  bounds := boundsFrom (max (cursor - step) p.start = p.start && p.bounds.includesStart)
    (cursor ≠ p.end_ || p.bounds.includesEnd)
  ordered := by omega

def splitBackward (p : Period Int) (step : Int) (limits : Limits) :
    Except Err (List (Period Int)) :=
  p.split step limits fun positive limits => reverse <$>
    collect (p.backwardPiece positive) (fun cursor => max (cursor - step) p.start)
      (splitLimitError (pieceLimit limits + 1) limits) (pieceLimit limits) p.end_

/-! ### Pieces -/

/-- The pieces are as wanted and of the step's length, but for the last one that may be shorter; or
more of them would be needed than there is room for. -/
def Collects (step left : Int) (wanted : List (Period Int) → Prop) (full : Err) (room : Nat) :
    Except Err (List (Period Int)) → Prop
  | .ok pieces => wanted pieces ∧ (∀ q ∈ pieces, q.end_ - q.start ≤ step) ∧
      (∀ q ∈ pieces.dropLast, q.end_ - q.start = step) ∧ (pieces ≠ [] → 0 < left)
  | .error e => e = full ∧ room * step < left

theorem collect_collects {more : Int → Prop} [DecidablePred more]
    (piece : ∀ c, more c → Period Int) (next : Int → Int) (full : Err)
    (wanted : Int → List (Period Int) → Prop) (left : Int → Int) (pos : 0 < step)
    (remains : ∀ c, more c ↔ 0 < left c)
    (nil : ∀ c, left c = 0 → wanted c [])
    (cons : ∀ c sub, left (next c) = max (left c - step) 0 ∧
      (piece c sub).end_ - (piece c sub).start = min step (left c) ∧
      ∀ rest, wanted (next c) rest → wanted c (piece c sub :: rest))
    (room : Nat) (start : 0 ≤ left c) :
    Collects step (left c) (wanted c) full room (collect piece next full room c) := by
  have stop {c : Int} (start : 0 ≤ left c) (outside : ¬ more c) :
      Collects step (left c) (wanted c) full room (.ok []) :=
    ⟨nil c (le_antisymm (not_lt.mp (mt (remains c).mpr outside)) start), by simp⟩
  induction room generalizing c with
  | zero =>
    unfold collect
    split
    · rename_i sub
      exact ⟨rfl, by simpa using (remains c).mp sub⟩
    · exact stop start ‹_›
  | succ room ih =>
    unfold collect
    split
    · rename_i sub
      obtain ⟨remaining, length, wants⟩ := cons c sub
      have here := (remains c).mp sub
      have later := ih (show 0 ≤ left (next c) by omega) stop
      cases made : collect piece next full room (next c) with
      | error e =>
        rw [made] at later
        have needed := later.2
        have nonneg : 0 ≤ room * step := mul_nonneg (Nat.cast_nonneg room) pos.le
        refine ⟨later.1, ?_⟩
        push_cast
        rw [add_mul]
        omega
      | ok rest =>
        rw [made] at later
        obtain ⟨wanted, short, full, nonempty⟩ := later
        refine ⟨wants rest wanted, forall_mem_cons.mpr ⟨by omega, short⟩, ?_, fun _ => here⟩
        cases rest with
        | nil => simp
        | cons r rest =>
          have more := nonempty (by simp)
          exact forall_mem_cons.mpr ⟨by omega, full⟩
    · exact stop start ‹_›

variable (p) in
/-- The cut where the pieces from a cursor on start: a seam belongs to the later one. -/
def seamFrom (cursor : Int) : Cut Int :=
  if cursor = p.end_ then p.hi else if cursor = p.start then p.lo else cutAt cursor false

variable (p) in
/-- The cut where the pieces up to a cursor stop: a seam belongs to the earlier one. -/
def seamTo (cursor : Int) : Cut Int :=
  if cursor = p.start then p.lo else if cursor = p.end_ then p.hi else cutAt cursor true

theorem forwardPiece_links (pos : 0 < step) (sub : c < p.end_) (after : p.start ≤ c) :
    (p.forwardPiece pos c sub).lo = p.seamFrom c ∧
      (p.forwardPiece pos c sub).hi = p.seamFrom (min (c + step) p.end_) := by
  unfold lo hi seamFrom forwardPiece
  simp only [includesStart_boundsFrom, includesEnd_boundsFrom]
  constructor
  · grind [lo]
  · grind [hi]

theorem backwardPiece_links (pos : 0 < step) (sub : p.start < c) (upto : c ≤ p.end_) :
    (p.backwardPiece pos c sub).hi = p.seamTo c ∧
      (p.backwardPiece pos c sub).lo = p.seamTo (max (c - step) p.start) := by
  unfold lo hi seamTo backwardPiece
  simp only [includesStart_boundsFrom, includesEnd_boundsFrom]
  constructor
  · grind [hi]
  · grind [lo]

/-- The pieces make up the period. -/
structure Partition (p : Period Int) (step : Int) (pieces : List (Period Int)) : Prop where
  nonempty : ∀ q ∈ pieces, q.isEmpty = false
  ascending : pieces.Pairwise fun q r => q.end_ ≤ r.start
  disjoint : pieces.Pairwise fun q r => ∀ x, ¬ (q.includes x = true ∧ r.includes x = true)
  union : ∀ x, (∃ q ∈ pieces, q.includes x = true) ↔ p.includes x = true
  short : ∀ q ∈ pieces, q.end_ - q.start ≤ step

theorem partition_of_tiles {pieces : List (Period Int)} (tiles : algebra.Tiles p.lo pieces p.hi)
    (short : ∀ q ∈ pieces, q.end_ - q.start ≤ step) : p.Partition step pieces := by
  obtain ⟨-, ordered, covers⟩ := tiles.exact
  refine ⟨fun q mem => ?_, ordered.apart.imp fun {q r} apart => ?_,
    ordered.apart.imp fun {q r} apart x both => ?_, fun x => ?_, short⟩
  · exact Bool.eq_false_iff.mpr (mt q.isEmpty_iff.mp (ordered.proper q mem).not_ge)
  · have apart : q.hi ≤ r.lo := apart
    unfold hi lo at apart
    rw [cutAt_le] at apart
    exact apart.elim le_of_lt fun eq => eq.1.le
  · rw [includes_iff, includes_iff] at both
    exact (both.1.2.trans_le apart).not_ge both.2.1
  · rw [p.includes_iff, ← covers]
    simp only [includes_iff]
    rfl

/-- A split yields the pieces of the period, the inner ones of the step's length, unless they are
more than the limits let out. -/
def Splits (p : Period Int) (step : Int) (limits : Limits)
    (inner : List (Period Int) → List (Period Int)) : Except Err (List (Period Int)) → Prop
  | .ok pieces => p.Partition step pieces ∧ ∀ q ∈ inner pieces, q.end_ - q.start = step
  | .error e => e = splitLimitError (pieceLimit limits + 1) limits ∧
      pieceLimit limits * step < p.end_ - p.start

theorem split_splits {lim : Temporal.Limits} (valid : lim.Valid) (proper : p.isEmpty = false)
    (pos : 0 < step) {inner : List (Period Int) → List (Period Int)} (single_ : inner [p] = [])
    {loop : 0 < step → Limits → Except Err (List (Period Int))}
    (loops : p.start < p.end_ → p.Splits step lim.resolve inner (loop pos lim.resolve)) :
    p.Splits step lim.resolve inner (p.split step lim loop) := by
  have checked := Limits.validate_resolve.mpr valid
  unfold split splitLimits
  rw [if_neg pos.not_ge, checked]
  change Splits _ _ _ _ (if _ then _ else _)
  by_cases single : p.start = p.end_
  · have closed : p.isSingleton = true := by
      unfold isEmpty at proper
      simp_all [isSingleton]
    rw [if_neg (by simp [proper]), if_pos closed]
    refine ⟨partition_of_tiles ⟨rfl, not_le.mp (mt p.isEmpty_iff.mpr (by simp [proper])), rfl⟩ ?_,
      by simp [single_]⟩
    simp
    omega
  · rw [if_neg (by simp [proper]), if_neg (by simp [isSingleton, single]), dif_pos pos]
    exact loops (lt_of_le_of_ne p.ordered single)

theorem forward_splits (pos : 0 < step) (less : p.start < p.end_) (lim : Limits) :
    p.Splits step lim dropLast
      (collect (p.forwardPiece pos) (fun c => min (c + step) p.end_)
        (splitLimitError (pieceLimit lim + 1) lim) (pieceLimit lim) p.start) := by
  have run := collect_collects (p.forwardPiece pos) (fun c => min (c + step) p.end_)
    (splitLimitError (pieceLimit lim + 1) lim)
    (fun c pieces => p.start ≤ c → algebra.Tiles (p.seamFrom c) pieces p.hi)
    (fun c => p.end_ - c) pos (fun _ => sub_pos.symm)
    (fun c stop _ => by simp [seamFrom, sub_eq_zero.mp stop, SpanAlgebra.Tiles])
    (fun c sub => ⟨by omega, by simp only [forwardPiece]; omega, fun rest tiles after => ?_⟩)
    (pieceLimit lim) (sub_pos.mpr less).le
  · generalize collect (p.forwardPiece pos) _ _ _ _ = r at run ⊢
    cases r with
    | error e => exact run
    | ok pieces =>
      have tiles := run.1 le_rfl
      rw [seamFrom, if_neg less.ne, if_pos rfl] at tiles
      exact ⟨partition_of_tiles tiles run.2.1, run.2.2.1⟩
  · obtain ⟨starts, stops⟩ := forwardPiece_links pos sub after
    refine ⟨starts, cutAt_lt.mpr (.inl (lt_min (lt_add_of_pos_right _ pos) sub)), ?_⟩
    rw [show algebra.hi _ = _ from stops]
    exact tiles (by omega)

theorem backward_splits (pos : 0 < step) (less : p.start < p.end_) (lim : Limits) :
    p.Splits step lim tail (reverse <$>
      collect (p.backwardPiece pos) (fun c => max (c - step) p.start)
        (splitLimitError (pieceLimit lim + 1) lim) (pieceLimit lim) p.end_) := by
  have run := collect_collects (p.backwardPiece pos) (fun c => max (c - step) p.start)
    (splitLimitError (pieceLimit lim + 1) lim)
    (fun c pieces => c ≤ p.end_ → algebra.Tiles p.lo pieces.reverse (p.seamTo c))
    (fun c => c - p.start) pos (fun _ => sub_pos.symm)
    (fun c stop _ => by simp [seamTo, sub_eq_zero.mp stop, SpanAlgebra.Tiles])
    (fun c sub => ⟨by omega, by simp only [backwardPiece]; omega, fun rest tiles upto => ?_⟩)
    (pieceLimit lim) (sub_pos.mpr less).le
  · generalize collect (p.backwardPiece pos) _ _ _ _ = r at run ⊢
    cases r with
    | error e => exact run
    | ok pieces =>
      have tiles := run.1 le_rfl
      rw [seamTo, if_neg less.ne', if_pos rfl] at tiles
      refine ⟨partition_of_tiles tiles (by simpa using run.2.1), ?_⟩
      simpa using run.2.2.1
  · obtain ⟨stops, starts⟩ := backwardPiece_links pos sub upto
    rw [reverse_cons]
    refine SpanAlgebra.Tiles.concat ?_ (cutAt_lt.mpr (.inl (max_lt (sub_lt_self _ pos) sub))) stops
    rw [show algebra.lo _ = _ from starts]
    exact tiles (by omega)

/-- Both splits cut a period into pieces that make it up, of the step's length but for the last one,
or the first one when they go backward; they fail only where the pieces are too many. -/
theorem splits_exact {limits : Limits} (valid : limits.Valid) {p : Period Int}
    (proper : p.isEmpty = false) {step : Int} (positive : 0 < step) :
    p.Splits step limits.resolve dropLast (p.splitForward step limits) ∧
      p.Splits step limits.resolve tail (p.splitBackward step limits) :=
  ⟨split_splits valid proper positive rfl fun less => forward_splits positive less limits.resolve,
    split_splits valid proper positive rfl fun less => backward_splits positive less limits.resolve⟩

theorem splits_exact_uneven :
    (span 0 10 .openClosed).splitBackward 4 {} =
        .ok [span 0 2 .openClosed, span 2 6 .openClosed, span 6 10 .openClosed] ∧
      (span 0 10 .openClosed).Partition 4
        [span 0 2 .openClosed, span 2 6 .openClosed, span 6 10 .openClosed] := by
  have splits := (splits_exact (show Limits.Valid {} by decide)
    (show (span 0 10 .openClosed).isEmpty = false by decide) (show (0 : Int) < 4 by decide)).2
  have made : (span 0 10 .openClosed).splitBackward 4 {} =
      .ok [span 0 2 .openClosed, span 2 6 .openClosed, span 6 10 .openClosed] := by decide
  exact ⟨made, splits.1⟩

end Period

end Golib.Temporal.Instant
