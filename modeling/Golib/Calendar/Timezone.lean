import Golib.Lib.Merging
import Golib.Temporal.DatePeriods
import Mathlib.Data.List.Dedup
import Mathlib.Order.Bounds.Basic

/-! Local date-times and the instants at which the clock of a zone shows them. Instants count the
nanoseconds from the start of 0001-01-01 in UTC. -/
namespace Golib.Timezone

open List Merging Temporal.DatePeriod

def perSecond : Int := 1000000000
def perMinute : Int := 60 * perSecond
def perHour : Int := 60 * perMinute
def perDay : Int := 24 * perHour

/-- Every local date-time but the zero value, which is the only invalid one. -/
structure LocalDateTime where
  date : Date
  hour : Nat
  minute : Nat
  second : Nat
  nanosecond : Nat
  valid : hour ≤ 23 ∧ minute ≤ 59 ∧ second ≤ 59 ∧ nanosecond ≤ 999999999

/-- The instant at which the clock of UTC shows the local date-time. -/
def LocalDateTime.wall (civil : LocalDateTime) : Int :=
  civil.date.ordinal * perDay + civil.hour * perHour + civil.minute * perMinute +
    civil.second * perSecond + civil.nanosecond

/-- The seconds east of UTC at every instant. No offset is left within an hour of its start. -/
structure Location where
  offset : Int → Int
  near : ∀ t, -86400 ≤ offset t ∧ offset t ≤ 86400
  lasting : ∀ t, ∃ start ≤ t, t < start + perHour ∧
    ∀ u, start ≤ u → u < start + perHour → offset u = offset t

def Location.wall (loc : Location) (t : Int) : Int := t + loc.offset t * perSecond

def sameWall (loc : Location) (t : Int) (civil : LocalDateTime) : Prop :=
  loc.wall t / perDay = civil.date.ordinal ∧ loc.wall t % perDay / perHour = civil.hour ∧
    loc.wall t % perHour / perMinute = civil.minute ∧
    loc.wall t % perMinute / perSecond = civil.second ∧ loc.wall t % perSecond = civil.nanosecond

instance (loc : Location) (t : Int) (civil : LocalDateTime) : Decidable (sameWall loc t civil) :=
  inferInstanceAs (Decidable (_ ∧ _))

def probed (civil : LocalDateTime) (loc : Location) : List Int :=
  (range 145).map fun i : Nat => loc.offset (civil.wall - 72 * perHour + i * perHour)

def occurrences (civil : LocalDateTime) (loc : Location) : List Int :=
  ascending (((probed civil loc).dedup.map fun offset => civil.wall - offset * perSecond).filter
    (sameWall loc · civil))

inductive Error where
  | invalidLocalTime (detail : String)
  | invalidLocation
  | nonexistent
  | ambiguous
  | offsetMismatch
  deriving DecidableEq

inductive Resolution where
  | choice (c : UInt8)
  | offsetMatch (seconds : Int)

def Resolution.reject : UInt8 := 1
def Resolution.earlier : UInt8 := 2
def Resolution.later : UInt8 := 3

open Resolution

def choose (loc : Location) (policy : Resolution) : List Int → Except Error Int
  | [] => .error .nonexistent
  | first :: rest => match policy with
    | .offsetMatch seconds =>
      ((first :: rest).find? (loc.offset · = seconds)).elim (.error .offsetMismatch) .ok
    | .choice c =>
      if ¬(reject ≤ c ∧ c ≤ later) then .error (.invalidLocalTime "unknown resolution policy")
      else if rest.length = 0 then .ok first
      else if c = earlier then .ok first
      else if c = later then .ok ((first :: rest).getLast (cons_ne_nil _ _))
      else .error .ambiguous

def resolve (civil : Option LocalDateTime) (loc : Option Location) (policy : Option Resolution) :
    Except Error Int := do
  let some civil := civil | .error (.invalidLocalTime "")
  let some loc := loc | .error .invalidLocation
  let some policy := policy | .error (.invalidLocalTime "nil resolution policy")
  choose loc policy (occurrences civil loc)

variable {civil : LocalDateTime} {loc : Location} {t : Int}

theorem sameWall_iff : sameWall loc t civil ↔ loc.wall t = civil.wall := by
  have valid := civil.valid
  simp only [sameWall, LocalDateTime.wall, perDay, perHour, perMinute, perSecond]
  omega

/-- The hour in which the offset of `t` holds has one of the probed instants in it. -/
theorem offset_mem_probed (eq : loc.wall t = civil.wall) : loc.offset t ∈ probed civil loc := by
  obtain ⟨start, before, after, constant⟩ := loc.lasting t
  have near := loc.near t
  simp only [Location.wall, perHour, perMinute, perSecond] at eq before after constant
  let i := ((start - civil.wall + 72 * perHour + perHour - 1) / perHour).toNat
  refine mem_map.mpr ⟨i, mem_range.mpr ?_, constant _ ?_ ?_⟩ <;>
    simp only [i, perHour, perMinute, perSecond] <;> omega

theorem mem_occurrences : t ∈ occurrences civil loc ↔ sameWall loc t civil := by
  simp only [occurrences, (ascending_perm _).mem_iff, mem_filter, decide_eq_true_eq,
    and_iff_right_iff_imp]
  intro eq
  refine mem_map.mpr ⟨loc.offset t, mem_dedup.mpr (offset_mem_probed (sameWall_iff.mp eq)), ?_⟩
  exact Int.sub_eq_iff_eq_add.mpr (sameWall_iff.mp eq).symm

theorem occurrences_ascend (civil : LocalDateTime) (loc : Location) :
    (occurrences civil loc).Pairwise (· < ·) := by
  have apart : Function.Injective fun o => civil.wall - o * perSecond := by
    intro a b eq
    simp only [perSecond] at eq
    omega
  have nodup := ((nodup_dedup (probed civil loc)).map apart).filter (sameWall loc · civil)
  exact (ascending_sorted _).imp₂ (fun _ _ => lt_of_le_of_ne)
    ((ascending_perm _).nodup_iff.mpr nodup)

section Choices

variable {loc : Location} {candidates : List Int}

theorem choose_nonexistent (p : Resolution) :
    choose loc p candidates = .error .nonexistent ↔ ∀ t, t ∉ candidates := by
  rw [← eq_nil_iff_forall_not_mem]
  fun_cases choose loc p candidates with
  | case1 => simp
  | case2 first rest seconds => cases (first :: rest).find? _ <;> simp
  | _ => simp

variable (ascend : candidates.Pairwise (· < ·))
include ascend

theorem choose_ambiguous :
    choose loc (.choice reject) candidates = .error .ambiguous ↔
      ∃ t u, t ∈ candidates ∧ u ∈ candidates ∧ t < u := by
  match candidates, ascend with
  | [], _ => simp [choose]
  | [t], _ => simp [choose, reject, later]
  | t :: u :: _, ascend =>
    have lt := rel_of_pairwise_cons ascend mem_cons_self
    exact iff_of_true (by simp [choose, reject, earlier, later]) ⟨t, u, by simp, by simp, lt⟩

theorem choose_earlier (t : Int) :
    choose loc (.choice earlier) candidates = .ok t ↔ IsLeast {t | t ∈ candidates} t := by
  match candidates, ascend with
  | [], _ => simp [choose, IsLeast]
  | first :: rest, ascend =>
    have least : IsLeast {t | t ∈ first :: rest} first :=
      ⟨mem_cons_self, forall_mem_cons.mpr ⟨le_refl _, fun _ later =>
        (rel_of_pairwise_cons ascend later).le⟩⟩
    have chosen : choose loc (.choice earlier) (first :: rest) = .ok first := by
      simp [choose, reject, earlier, later]
    rw [chosen, Except.ok.injEq]
    exact ⟨(· ▸ least), least.unique⟩

theorem choose_later (t : Int) :
    choose loc (.choice later) candidates = .ok t ↔ IsGreatest {t | t ∈ candidates} t := by
  match candidates, ascend with
  | [], _ => simp [choose, IsGreatest]
  | first :: rest, ascend =>
    have greatest : IsGreatest {t | t ∈ first :: rest} ((first :: rest).getLast (by simp)) :=
      ⟨getLast_mem _, fun _ there => (ascend.imp le_of_lt).rel_getLast there⟩
    have chosen : choose loc (.choice later) (first :: rest) =
        .ok ((first :: rest).getLast (by simp)) := by
      cases rest <;> simp [choose, reject, earlier, later]
    rw [chosen, Except.ok.injEq]
    exact ⟨(· ▸ greatest), greatest.unique⟩

end Choices

/-- A local date-time is resolved among all the instants at which the clock shows it. -/
theorem resolution_complete (civil : LocalDateTime) (loc : Location) :
    (∀ t, t ∈ occurrences civil loc ↔ sameWall loc t civil) ∧
      (occurrences civil loc).Pairwise (· < ·) ∧
      (∀ policy, resolve civil loc (some policy) = .error .nonexistent ↔
        ∀ t, ¬ sameWall loc t civil) ∧
      (resolve civil loc (some (.choice reject)) = .error .ambiguous ↔
        ∃ t u, sameWall loc t civil ∧ sameWall loc u civil ∧ t < u) ∧
      (∀ t, resolve civil loc (some (.choice earlier)) = .ok t ↔
        IsLeast {t | sameWall loc t civil} t) ∧
      ∀ t, resolve civil loc (some (.choice later)) = .ok t ↔
        IsGreatest {t | sameWall loc t civil} t := by
  have ascend := occurrences_ascend civil loc
  refine ⟨fun _ => mem_occurrences, ascend, ?_⟩
  simp only [← mem_occurrences, show ∀ policy, resolve civil loc (some policy) =
    choose loc policy (occurrences civil loc) from fun _ => rfl]
  exact ⟨choose_nonexistent, choose_ambiguous ascend, choose_earlier ascend, choose_later ascend⟩

/-- One hour east of UTC, and two from one instant to another. -/
def summerTime (spring autumn : Int) (long : spring + perHour ≤ autumn) : Location where
  offset t := if spring ≤ t ∧ t < autumn then 7200 else 3600
  near t := by split <;> decide
  lasting t := by
    simp only [perHour, perMinute, perSecond] at long ⊢
    by_cases winter : t < spring
    · refine ⟨min t (spring - 3600000000000), by omega, by omega, fun u _ _ => ?_⟩
      rw [if_neg (by omega), if_neg (by omega)]
    by_cases summer : t < autumn
    · refine ⟨min t (autumn - 3600000000000), by omega, by omega, fun u _ _ => ?_⟩
      rw [if_pos (by omega), if_pos (by omega)]
    · refine ⟨t, by omega, by omega, fun u _ _ => ?_⟩
      rw [if_neg (by omega), if_neg (by omega)]

def lastMarchSunday : Date := ⟨738975, by decide⟩

def lastOctoberSunday : Date := ⟨739185, by decide⟩

/-- A year of Central European time: at 01:00 UTC the clock goes from 02:00 to 03:00 on 2024-03-31,
and from 03:00 to 02:00 on 2024-10-27. -/
def centralEurope : Location :=
  summerTime (lastMarchSunday.ordinal * perDay + perHour)
    (lastOctoberSunday.ordinal * perDay + perHour) (by decide)

def halfPastTwo (date : Date) : LocalDateTime := ⟨date, 2, 30, 0, 0, by decide⟩

theorem resolution_complete_summer :
    let fold := halfPastTwo lastOctoberSunday
    let first := lastOctoberSunday.ordinal * perDay + 30 * perMinute
    resolve fold centralEurope (some (.choice reject)) = .error .ambiguous ∧
      resolve fold centralEurope (some (.choice earlier)) = .ok first ∧
      resolve fold centralEurope (some (.choice later)) = .ok (first + perHour) ∧
      ∀ policy, resolve (halfPastTwo lastMarchSunday) centralEurope (some policy) =
        .error .nonexistent := by
  intro fold first
  obtain ⟨-, -, -, ambiguous, least, greatest⟩ := resolution_complete fold centralEurope
  obtain ⟨-, -, skipped, -⟩ := resolution_complete (halfPastTwo lastMarchSunday) centralEurope
  have shown (t : Int) : sameWall centralEurope t fold ↔ t = first ∨ t = first + perHour := by
    rw [sameWall_iff]
    simp only [Location.wall, LocalDateTime.wall, centralEurope, summerTime, fold, first,
      halfPastTwo, lastMarchSunday, lastOctoberSunday, perDay, perHour, perMinute, perSecond]
    omega
  have hidden (t : Int) : ¬ sameWall centralEurope t (halfPastTwo lastMarchSunday) := by
    rw [sameWall_iff]
    simp only [Location.wall, LocalDateTime.wall, centralEurope, summerTime, halfPastTwo,
      lastMarchSunday, lastOctoberSunday, perDay, perHour, perMinute, perSecond]
    omega
  have next : first < first + perHour := Int.lt_add_of_pos_right _ (by decide)
  simp only [shown] at ambiguous least greatest
  refine ⟨ambiguous.mpr ⟨_, _, .inl rfl, .inr rfl, next⟩, (least _).mpr ⟨.inl rfl, ?_⟩,
    (greatest _).mpr ⟨.inr rfl, ?_⟩, fun policy => (skipped policy).mpr hidden⟩
  · rintro t (rfl | rfl)
    exacts [le_rfl, next.le]
  · rintro t (rfl | rfl)
    exacts [next.le, le_rfl]

end Golib.Timezone
