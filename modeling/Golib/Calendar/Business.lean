import Golib.Lib.Machine
import Golib.Lib.Programs
import Golib.Temporal.DatePeriods

/-! Business calendars: movement over business days and their count. -/
namespace Golib.Business

open List Machine Temporal.DatePeriod

inductive Error where
  | arithmetic
  | searchLimit
  deriving DecidableEq

/-- The weekends go by the day of the week, from Sunday, and the holidays of a date by their
names. -/
structure Calendar where
  revision : String
  weekends : Nat → Bool
  holidays : Date → List String

namespace Calendar

def isBusinessDay (c : Calendar) (d : Date) : Bool :=
  c.revision ≠ "" && !c.weekends ((d.ordinal + 1) % 7).toNat && (c.holidays d).length = 0

def addDays (d : Date) (days : Int) : Except Error Date :=
  if inRange : 0 ≤ d.ordinal + days ∧ d.ordinal + days ≤ maxOrdinal then
    .ok (d.addDays days inRange)
  else .error .arithmetic

/-- The loop of a movement, by the visits and the business days that are left. -/
def move (c : Calendar) (direction : Int) : Nat → Nat → Date → Except Error Date
  | _, 0, current => .ok current
  | 0, _ + 1, _ => .error .searchLimit
  | visits + 1, count + 1, current => do
    let next ← addDays current direction
    c.move direction visits (if c.isBusinessDay next then count else count + 1) next

def addBusinessDays (c : Calendar) (d : Date) (count searchLimit : Int) : Except Error Date :=
  if searchLimit ≤ 0 then .error .searchLimit
  else if count = 0 then .ok d
  else if count = minInt64 then .error .searchLimit
  else c.move (if count < 0 then -1 else 1) searchLimit.toNat count.natAbs d

def tally (c : Calendar) : Nat → Date → Nat → Nat
  | 0, _, count => count
  | span + 1, current, count =>
    let count := if c.isBusinessDay current then count + 1 else count
    match addDays current 1 with
    | .ok next => c.tally span next count
    | .error _ => count

def countBusinessDays (c : Calendar) (start end_ : Date) (searchLimit : Int) : Except Error Int :=
  if searchLimit ≤ 0 then .error .searchLimit
  else if start = end_ then .ok 0
  else
    let backward := start.daysUntil end_ < 0
    let (start, end_) := if backward then (end_, start) else (start, end_)
    let span := start.daysUntil end_
    if searchLimit < span then .error .searchLimit
    else
      let count : Int := c.tally span.toNat start 0
      .ok (if backward then -count else count)

/-! ### Days by their number -/

def admits (c : Calendar) (ordinal : Int) : Bool :=
  if valid : 0 ≤ ordinal ∧ ordinal ≤ maxOrdinal then c.isBusinessDay ⟨ordinal, valid⟩ else false

/-- The number of business days among the `span` dates from a number on. -/
def admitted (c : Calendar) (from_ : Int) (span : Nat) : Nat :=
  (range span).countP fun i : Nat => c.admits (from_ + i)

variable {c : Calendar} {d e next : Date} {direction searchLimit : Int}

theorem admits_ordinal (d : Date) : c.admits d.ordinal = c.isBusinessDay d := dif_pos d.valid

theorem addDays_ok : addDays d direction = .ok next ↔ next.ordinal = d.ordinal + direction := by
  unfold addDays
  split
  · simp [Date.ext_iff, Date.addDays, eq_comm]
  · simp only [reduceCtorEq, false_iff]
    intro eq
    exact ‹¬_› (eq ▸ next.valid)

theorem admitted_add (c : Calendar) (from_ : Int) (m n : Nat) :
    c.admitted from_ (m + n) = c.admitted from_ m + c.admitted (from_ + m) n := by
  simp only [admitted, range_add, countP_append, countP_map, Function.comp_def, Nat.cast_add,
    ← Int.add_assoc]

theorem admitted_succ (c : Calendar) (from_ : Int) (n : Nat) :
    c.admitted from_ (n + 1) = (if c.admits from_ then 1 else 0) + c.admitted (from_ + 1) n := by
  rw [Nat.add_comm, admitted_add]
  simp [admitted]

theorem tally_eq (span count : Nat) (d : Date) (fits : d.ordinal + span ≤ maxOrdinal) :
    c.tally span d count = count + c.admitted d.ordinal span := by
  induction span generalizing d count with
  | zero => simp [tally, admitted]
  | succ span ih =>
    have valid := d.valid
    obtain ⟨next, made⟩ : ∃ next, addDays d 1 = .ok next := by
      rw [addDays, dif_pos (by omega)]
      exact ⟨_, rfl⟩
    have place := addDays_ok.mp made
    rw [tally, made, admitted_succ, admits_ordinal, ← place]
    simp only
    rw [ih _ next (by omega)]
    split <;> omega

theorem countBusinessDays_eq (c : Calendar) (start end_ : Date) (large : maxOrdinal ≤ searchLimit) :
    c.countBusinessDays start end_ searchLimit =
      .ok (c.admitted 0 end_.ordinal.toNat - c.admitted 0 start.ordinal.toNat) := by
  -- What lies between two dates is the difference of what lies before each.
  have between (a b : Date) (order : a.ordinal ≤ b.ordinal) :
      (c.tally (b.ordinal - a.ordinal).toNat a 0 : Int) =
        c.admitted 0 b.ordinal.toNat - c.admitted 0 a.ordinal.toNat := by
    have first := a.valid
    have last := b.valid
    have sum := c.admitted_add 0 a.ordinal.toNat (b.ordinal - a.ordinal).toNat
    rw [tally_eq _ _ _ (by omega), show b.ordinal.toNat =
      a.ordinal.toNat + (b.ordinal - a.ordinal).toNat by omega, sum]
    rw [show (0 : Int) + a.ordinal.toNat = a.ordinal by omega]
    omega
  have first := start.valid
  have last := end_.valid
  have pos : ¬ searchLimit ≤ 0 := by
    unfold maxOrdinal at large
    omega
  unfold countBusinessDays Date.daysUntil
  rw [if_neg pos]
  split
  · simp [*]
  · by_cases backward : end_.ordinal - start.ordinal < 0
    · simp only [backward, if_true]
      rw [if_neg (by omega), between _ _ (by omega)]
      congr 1
      omega
    · simp only [backward, if_false]
      rw [if_neg (by omega), between _ _ (by omega)]

/-! ### Movements -/

/-- A movement by a number of visits over a number of business days. -/
inductive Reaches (c : Calendar) (direction : Int) : Nat → Nat → Date → Date → Prop
  | here (d : Date) : Reaches c direction 0 0 d d
  | visit {visits count : Nat} {d next e : Date} : addDays d direction = .ok next →
    Reaches c direction visits (if c.isBusinessDay next then count else count + 1) next e →
    Reaches c direction (visits + 1) (count + 1) d e

variable {count vs count' : Nat} {mid : Date}

theorem reaches_zero : c.Reaches direction vs 0 d e ↔ vs = 0 ∧ d = e := by
  constructor
  · rintro ⟨⟩
    exact ⟨rfl, rfl⟩
  · rintro ⟨rfl, rfl⟩
    exact .here d

theorem move_iff {limit : Nat} :
    c.move direction limit count d = .ok e ↔ ∃ vs ≤ limit, c.Reaches direction vs count d e := by
  fun_induction c.move direction limit count d with
  | case1 => simp [reaches_zero]
  | case2 =>
    simp only [reduceCtorEq, Nat.le_zero, exists_eq_left, false_iff]
    nofun
  | case3 limit count d ih =>
    rw [except_bind_ok]
    constructor
    · rintro ⟨next, made, moved⟩
      obtain ⟨vs, few, onward⟩ := (ih next).mp moved
      exact ⟨vs + 1, Nat.succ_le_succ few, .visit made onward⟩
    · rintro ⟨_, few, reaches⟩
      cases reaches with
      | visit made onward =>
        exact ⟨_, made, (ih _).mpr ⟨_, Nat.le_of_succ_le_succ few, onward⟩⟩

theorem Reaches.count_le (reaches : c.Reaches direction vs count d e) : count ≤ vs := by
  induction reaches with
  | here => exact Nat.le_refl _
  | visit _ _ ih =>
    split at ih <;> omega

theorem Reaches.last (reaches : c.Reaches direction vs count d e) (some : count ≠ 0) :
    c.isBusinessDay e := by
  induction reaches with
  | here => exact absurd rfl some
  | @visit _ count _ next _ _ onward ih =>
    by_cases business : c.isBusinessDay next
    · rw [if_pos business] at onward ih
      by_cases done : count = 0
      · rw [done, reaches_zero] at onward
        rwa [← onward.2]
      · exact ih done
    · rw [if_neg business] at ih
      exact ih (Nat.succ_ne_zero count)

theorem Reaches.forward (reaches : c.Reaches 1 vs count d e) :
    e.ordinal = d.ordinal + vs ∧ c.admitted (d.ordinal + 1) vs = count := by
  induction reaches with
  | here => simp [admitted]
  | visit made _ ih =>
    have place := addDays_ok.mp made
    rw [admitted_succ, ← place, admits_ordinal, ih.2]
    exact ⟨by omega, by split <;> omega⟩

theorem Reaches.backward (reaches : c.Reaches (-1) vs count d e) :
    e.ordinal = d.ordinal - vs ∧ c.admitted e.ordinal vs = count := by
  induction reaches with
  | here => simp [admitted]
  | @visit vs _ _ next e made _ ih =>
    have place := addDays_ok.mp made
    have here : e.ordinal + vs = next.ordinal := by omega
    rw [admitted_add, ih.2, here, admitted_succ, admits_ordinal]
    exact ⟨by omega, by simp only [admitted, range_zero, countP_nil]; split <;> omega⟩

theorem Reaches.visits_le (unit : direction = 1 ∨ direction = -1)
    (reaches : c.Reaches direction vs count d e) : (vs : Int) ≤ maxOrdinal := by
  have first := d.valid
  have last := e.valid
  rcases unit with rfl | rfl
  · have := reaches.forward
    omega
  · have := reaches.backward
    omega

theorem Reaches.trans {visits' : Nat} (reaches : c.Reaches direction vs count d mid)
    (onward : c.Reaches direction visits' count' mid e) :
    c.Reaches direction (vs + visits') (count + count') d e := by
  induction reaches with
  | here => simpa using onward
  | visit made _ ih =>
    rw [Nat.add_right_comm _ 1, Nat.add_right_comm _ 1]
    refine .visit made ?_
    have further := ih onward
    split at further <;> simp_all [Nat.add_right_comm]

theorem Reaches.split (reaches : c.Reaches direction vs (count + count') d e) :
    ∃ first mid second, c.Reaches direction first count d mid ∧
      c.Reaches direction second count' mid e := by
  generalize sum : count + count' = tot at reaches
  induction reaches generalizing count with
  | here d =>
    obtain ⟨rfl, rfl⟩ := Nat.add_eq_zero_iff.mp sum
    exact ⟨0, d, 0, .here d, .here d⟩
  | @visit vs tot d next e made onward ih =>
    cases count with
    | zero =>
      obtain rfl : count' = tot + 1 := by omega
      exact ⟨0, d, vs + 1, .here d, .visit made onward⟩
    | succ count =>
      obtain ⟨first, mid, second, toMid, fromMid⟩ :=
        @ih (if c.isBusinessDay next then count else count + 1) (by split <;> omega)
      exact ⟨first + 1, mid, second, .visit made toMid, fromMid⟩

variable {n : Int}

/-- A signed count, as a direction and a number of days. -/
def Signed (direction : Int) (count : Nat) (n : Int) : Prop :=
  direction = 1 ∧ n = count ∨ direction = -1 ∧ n = -count

theorem addBusinessDays_iff (signed : Signed direction count n) :
    c.addBusinessDays d n searchLimit = .ok e ↔
      0 < searchLimit ∧ ∃ vs ≤ searchLimit.toNat, c.Reaches direction vs count d e := by
  have unit := signed.imp And.left And.left
  unfold Signed at signed
  unfold addBusinessDays
  split_ifs with small none least
  · simp [small]
  · obtain rfl : count = 0 := by omega
    simp [reaches_zero, not_le.mp small]
  · simp only [false_iff]
    rintro ⟨-, vs, -, reaches⟩
    have few := reaches.visits_le unit
    have less := reaches.count_le
    unfold minInt64 maxOrdinal at *
    omega
  · obtain ⟨rfl, rfl⟩ : direction = -1 ∧ n = -count := by omega
    rw [move_iff, and_iff_right (not_le.mp small), Int.natAbs_neg, Int.natAbs_natCast]
  · obtain ⟨rfl, rfl⟩ : direction = 1 ∧ n = count := by omega
    rw [move_iff, and_iff_right (not_le.mp small), Int.natAbs_natCast]

/-- Counting adds up over any three dates, a movement passes as many business days as it was asked
to, and two movements one way are one. -/
theorem business_days_inverse (c : Calendar) {limit limit' limit'' : Int}
    (large : ∀ l ∈ [limit, limit', limit''], maxOrdinal ≤ l) :
    (∀ a b e, ∃ x y, c.countBusinessDays a b limit = .ok x ∧
      c.countBusinessDays b e limit' = .ok y ∧ c.countBusinessDays a e limit'' = .ok (x + y)) ∧
    (∀ d e n limit, c.addBusinessDays d n limit = .ok e →
      (0 < n → c.isBusinessDay e ∧ d ≤ e ∧
        c.admitted (d.ordinal + 1) (e.ordinal - d.ordinal).toNat = n) ∧
      (n < 0 → c.isBusinessDay e ∧ e ≤ d ∧
        c.admitted e.ordinal (d.ordinal - e.ordinal).toNat = -n)) ∧
    ∀ d e m n, 0 ≤ m ∧ 0 ≤ n ∨ m ≤ 0 ∧ n ≤ 0 →
      ((∃ mid, c.addBusinessDays d m limit = .ok mid ∧ c.addBusinessDays mid n limit' = .ok e) ↔
        c.addBusinessDays d (m + n) limit'' = .ok e) := by
  simp only [forall_mem_cons, not_mem_nil, false_implies, implies_true, and_true] at large
  obtain ⟨first, second, third⟩ := large
  refine ⟨fun a b e => ⟨_, _, countBusinessDays_eq c a b first,
    countBusinessDays_eq c b e second, ?_⟩,
    fun d e n limit moved => ⟨fun pos => ?_, fun neg => ?_⟩, fun d e m n same => ?_⟩
  · rw [countBusinessDays_eq c a e third]
    congr 1
    omega
  · obtain ⟨-, visits, -, reaches⟩ := (addBusinessDays_iff (.inl ⟨rfl, (by omega :
      n = n.toNat)⟩)).mp moved
    obtain ⟨place, passed⟩ := reaches.forward
    refine ⟨reaches.last (by omega), (by omega : d.ordinal ≤ e.ordinal), ?_⟩
    rw [show (e.ordinal - d.ordinal).toNat = visits by omega, passed]
    omega
  · obtain ⟨-, visits, -, reaches⟩ := (addBusinessDays_iff (.inr ⟨rfl, (by omega :
      n = -(-n).toNat)⟩)).mp moved
    obtain ⟨place, passed⟩ := reaches.backward
    refine ⟨reaches.last (by omega), (by omega : e.ordinal ≤ d.ordinal), ?_⟩
    rw [show (d.ordinal - e.ordinal).toNat = visits by omega, passed]
    omega
  · obtain ⟨direction, unit, signed, signed', sum⟩ : ∃ direction,
        (direction = 1 ∨ direction = -1) ∧ Signed direction m.natAbs m ∧
        Signed direction n.natAbs n ∧ Signed direction (m.natAbs + n.natAbs) (m + n) := by
      unfold Signed
      rcases same with ⟨left, right⟩ | ⟨left, right⟩
      · exact ⟨1, by omega⟩
      · exact ⟨-1, by omega⟩
    -- No movement visits more dates than there are.
    have within {limit : Int} {count : Nat} {d e : Date} (large : maxOrdinal ≤ limit) :
        (0 < limit ∧ ∃ visits ≤ limit.toNat, c.Reaches direction visits count d e) ↔
          ∃ visits, c.Reaches direction visits count d e := by
      refine ⟨fun ⟨_, visits, _, reaches⟩ => ⟨visits, reaches⟩, fun ⟨visits, reaches⟩ => ?_⟩
      have few := reaches.visits_le unit
      unfold maxOrdinal at *
      exact ⟨by omega, visits, by omega, reaches⟩
    simp only [addBusinessDays_iff signed, addBusinessDays_iff signed', addBusinessDays_iff sum,
      within first, within second, within third]
    constructor
    · rintro ⟨mid, ⟨_, toMid⟩, _, fromMid⟩
      exact ⟨_, toMid.trans fromMid⟩
    · rintro ⟨_, reaches⟩
      obtain ⟨_, mid, _, toMid, fromMid⟩ := reaches.split
      exact ⟨mid, ⟨_, toMid⟩, _, fromMid⟩

/-- Weekends, and a Monday that is a holiday. -/
def longWeekend : Calendar where
  revision := "v1"
  weekends day := day = 0 || day = 6
  holidays d := if d.ordinal = 738892 then ["holiday"] else []

def thursday : Date := ⟨738888, by decide⟩

def tuesday : Date := ⟨738893, by decide⟩

/-- The second business day after a Thursday is the Tuesday behind the weekend and the holiday. -/
theorem business_days_inverse_holiday :
    longWeekend.addBusinessDays thursday 2 maxOrdinal = .ok tuesday ∧
      longWeekend.admitted (thursday.ordinal + 1) 5 = 2 ∧
      (∃ friday, longWeekend.addBusinessDays thursday 1 maxOrdinal = .ok friday ∧
        longWeekend.addBusinessDays friday 1 maxOrdinal = .ok tuesday) ∧
      ∀ between, ∃ x y, longWeekend.countBusinessDays thursday between maxOrdinal = .ok x ∧
        longWeekend.countBusinessDays between tuesday maxOrdinal = .ok y ∧ x + y = 2 := by
  have large : ∀ limit ∈ [maxOrdinal, maxOrdinal, maxOrdinal], maxOrdinal ≤ limit := by simp
  obtain ⟨counts, passes, moves⟩ := business_days_inverse longWeekend large
  have moved : longWeekend.addBusinessDays thursday 2 maxOrdinal = .ok tuesday := by decide +kernel
  have counted : longWeekend.countBusinessDays thursday tuesday maxOrdinal = .ok 2 := by
    decide +kernel
  refine ⟨moved, ?_, ?_, fun between => ?_⟩
  · exact_mod_cast ((passes _ _ _ _ moved).1 (by decide)).2.2
  · exact (moves _ _ 1 1 (by decide)).mpr moved
  · obtain ⟨x, y, first, second, whole⟩ := counts thursday between tuesday
    exact ⟨x, y, first, second, Except.ok.inj (whole.symm.trans counted)⟩

end Calendar

end Golib.Business
