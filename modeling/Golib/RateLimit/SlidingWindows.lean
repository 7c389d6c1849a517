import Golib.RateLimit.Segments
import Golib.RateLimit.TokenBuckets

/-! The sliding window of the process-local store: what its segments count, and the bound that this
gives on every window. -/
namespace Golib.RateLimit

open Machine Int List
open Memory

/-! ### Segments of a policy -/

def segmentOf (policy : Policy) (t : Int) : Int := t / inNanos.width policy

/-- The segments of an instant and of the instant a period before it are where they should be. -/
def Fits (policy : Policy) (t : Int) : Prop := InRange (t - 2 * policy.period) ∧ InRange t

instance (policy : Policy) (t : Int) : Decidable (Fits policy t) :=
  inferInstanceAs (Decidable (_ ∧ _))

section

variable {p : Policy} (valid : p.Valid) (windowed : p.algorithm ≠ .concurrency) {t : Int}

include valid windowed

theorem Policy.Valid.period_range : 1000 ≤ p.period ∧ p.period ≤ 9007199254740991000 := by
  obtain ⟨some, period, -⟩ := valid.period windowed
  have most := valid.micros_le windowed
  unfold maxExactInteger at most
  omega

theorem width_eq : inNanos.width p = (p.period + 15) / 16 := by
  obtain ⟨low, high⟩ := valid.period_range windowed
  have sum : int64 (p.period + 16 - 1) = p.period + 15 := by
    rw [int64_eq (inRange_iff.mpr ⟨by omega, by omega⟩)]
    omega
  change (int64 (p.period + 16 - 1)).tdiv 16 = _
  rw [sum, tdiv_eq_ediv, if_pos (Or.inl (by omega)), add_zero]

theorem width_range : 0 < inNanos.width p ∧
    inNanos.width p ≤ p.period ∧
    p.period ≤ 16 * inNanos.width p := by
  obtain ⟨least, -⟩ := valid.period_range windowed
  rw [width_eq valid windowed]
  omega

theorem index_eq (low : InRange (t - p.period)) (high : InRange t) :
    inNanos.index p t = segmentOf p t := by
  obtain ⟨pos, narrow, -⟩ := width_range valid windowed
  rw [inRange_iff] at low high
  have split := mul_ediv_add_emod t (inNanos.width p)
  have rest := emod_nonneg t (by omega : inNanos.width p ≠ 0)
  have below := emod_lt_of_pos t pos
  have floor : floorTo (inNanos.read t) (inNanos.width p) =
      t / inNanos.width p * inNanos.width p := by
    have read : inNanos.read t = t := int64_eq (inRange_iff.mpr high)
    rw [read, floorTo_eq pos, int64_eq]
    rw [mul_comm] at split
    rw [inRange_iff]
    omega
  rw [Units.index, floor, segmentOf]
  exact mul_tdiv_cancel _ (by omega)

theorem segmentOf_near (t : Int) : segmentOf p t ≤ segmentOf p (t - p.period) + 16 := by
  obtain ⟨pos, -, wide⟩ := width_range valid windowed
  unfold segmentOf
  rw [← add_mul_ediv_right _ _ (by omega : inNanos.width p ≠ 0)]
  exact Int.ediv_le_ediv pos (by omega)

theorem segmentOf_lt (t : Int) : segmentOf p (t - p.period) < segmentOf p t := by
  obtain ⟨pos, narrow, -⟩ := width_range valid windowed
  refine lt_iff_add_one_le.mpr ?_
  unfold segmentOf
  rw [← add_mul_ediv_right _ _ (by omega : inNanos.width p ≠ 0)]
  exact Int.ediv_le_ediv pos (by omega)

theorem segmentOf_mono {t' : Int} (order : t ≤ t') : segmentOf p t ≤ segmentOf p t' := by
  exact Int.ediv_le_ediv (width_range valid windowed).1 order

end

/-! ### Decisions -/

theorem spend_cases (used : Nat) (req : Request) (reset : Int) :
    (spend used req reset).2.1.allowed = true ∧ (spend used req reset).2.2 = none ∧
        req.cost ≤ req.policy.limit - min used req.policy.limit ∨
      (spend used req reset).2.1.allowed = false ∧ (spend used req reset).2.2 = some .rejected := by
  unfold spend
  dsimp only
  split
  · exact Or.inr ⟨rfl, rfl⟩
  · exact Or.inl ⟨rfl, rfl, by omega⟩

theorem slidingWindow_spends (units : Units) (ring : Ring) (req : Request) :
    ∃ reset, (slidingWindow units ring req).2 =
        spend (ring.drop (units.index req.policy (req.now - req.policy.period))).used req reset ∧
      (slidingWindow units ring req).1 =
        if (slidingWindow units ring req).2.2.2 = none then
          ((ring.drop (units.index req.policy (req.now - req.policy.period))).open
            (units.index req.policy req.now)).add (slotOf (units.index req.policy req.now)) req.cost
        else (ring.drop (units.index req.policy (req.now - req.policy.period))).open
          (units.index req.policy req.now) :=
  ⟨_, rfl, rfl⟩

def taken (request : Request) (answer : Answer) : Nat := if answer.1.allowed then
    request.cost else 0

/-- One request to a ring that counts the history: it counts the request too, and what it counts is
within the limit. -/
theorem slidingWindow_counts {ring : Ring} {req : Request} {lo : Int} {history : List (Int × Nat)}
    (valid : req.policy.Valid) (windowed : req.policy.algorithm ≠ .concurrency)
    (fits : Fits req.policy req.now) (counts : ring.Counts lo history) {here gone : Int}
    (cur : segmentOf req.policy req.now = here)
    (past : segmentOf req.policy (req.now - req.policy.period) = gone) (older : lo ≤ gone)
    (before : ∀ e ∈ history, e.1 ≤ here)
    (bound : costWhere history (fun i => lo < i) ≤ req.policy.limit) :
    (slidingWindow inNanos ring req).1.Counts gone
        (history ++ [(here, taken req (slidingWindow inNanos ring req).2.2)]) ∧
      costWhere (history ++ [(here, taken req (slidingWindow inNanos ring req).2.2)])
        (fun i => gone < i) ≤ req.policy.limit := by
  obtain ⟨low, high⟩ := fits
  rw [inRange_iff] at low high
  have index := index_eq valid windowed (inRange_iff.mpr ⟨by omega, by omega⟩)
    (inRange_iff.mpr high)
  have oldest := @index_eq _ valid windowed (req.now - req.policy.period)
    (inRange_iff.mpr ⟨by omega, by omega⟩) (inRange_iff.mpr ⟨by omega, by omega⟩)
  have near := segmentOf_near valid windowed req.now
  have above := segmentOf_lt valid windowed req.now
  rw [cur, past] at near above
  have limit := valid.exact
  unfold maxExactInteger at limit
  have dropped := counts.drop older
  have opened := dropped.opened before near
  have fewer : costWhere history (fun i => gone < i) ≤ req.policy.limit :=
    (costWhere_mono fun e _ above => by omega).trans bound
  have sum := dropped.sum_used
  have used := Ring.used_eq _ (by omega : ∑ slot, ((ring.drop gone) slot).used < 2 ^ 64)
  obtain ⟨reset, spent, ss⟩ := slidingWindow_spends inNanos ring req
  rw [ss, spent, index, oldest, cur, past, used, sum, costWhere_append,
    costWhere_singleton, if_pos above]
  rcases spend_cases (costWhere history (fun i => gone < i)) req reset with
    ⟨allowed, granted, enough⟩ | ⟨refused, rejected⟩
  · have cost : costWhere history (fun i => gone < i) + req.cost ≤ req.policy.limit := by
      omega
    rw [granted, if_pos rfl, taken, allowed, if_pos rfl]
    refine ⟨opened.add (open_index _ _) above ?_, cost⟩
    have one := opened.used_le (slotOf here)
    omega
  · rw [rejected, if_neg (by simp), taken, refused, if_neg (by simp)]
    exact ⟨opened.skip (open_index _ _), by omega⟩

/-! ### Runs -/

/-- The costs admitted in a window of one period from an instant on. -/
def costIn (policy : Policy) (start : Int) (steps : List (Int × Nat)) : Nat :=
  costWhere steps fun t => start ≤ t ∧ t < start + policy.period

/-- Instants of which none is forgotten within a period: the ring drops the segment of `t` at `t'`
only when `t` is a period old, and the segments are numbered within 64 bits. -/
structure Remembers (policy : Policy) (instants : List Int) : Prop where
  fits : ∀ t ∈ instants, Fits policy t
  kept : ∀ t ∈ instants, ∀ t' ∈ instants, t' - policy.period < t →
    segmentOf policy (t' - policy.period) < segmentOf policy t

/-- What is forgotten at an instant is a period old when the segments hold only their first
microsecond. -/
theorem remembers_of_first {p : Policy} {instants : List Int} (valid : p.Valid)
    (windowed : p.algorithm ≠ .concurrency)
    (fits : ∀ t ∈ instants, Fits p t) (whole : ∀ t ∈ instants, 1000 ∣ t)
    (first : ∀ t ∈ instants, t % inNanos.width p < 1000) : Remembers p instants := by
  refine ⟨fits, fun t here t' now sub => ?_⟩
  obtain ⟨least, -⟩ := valid.period_range windowed
  obtain ⟨-, period, -⟩ := valid.period windowed
  have width := width_eq valid windowed
  have pos : 0 < inNanos.width p := by omega
  obtain ⟨m, micros⟩ := whole t here
  obtain ⟨n, micros'⟩ := whole t' now
  have starts := first t here
  by_contra forgotten
  have order : segmentOf p t ≤ segmentOf p (t' - p.period) := not_lt.mp forgotten
  have start : inNanos.width p * segmentOf p t ≤ inNanos.width p * segmentOf p (t' - p.period) :=
    mul_le_mul_of_nonneg_left order pos.le
  have begins : inNanos.width p * segmentOf p (t' - p.period) ≤
      t' - p.period := mul_ediv_self_le (by omega)
  have split := mul_ediv_add_emod t (inNanos.width p)
  change inNanos.width p * segmentOf p t + _ = t at split
  omega

def bySegment (policy : Policy) (steps : List (Int × Nat)) : List (Int × Nat) :=
  steps.map fun step => (segmentOf policy step.1, step.2)

namespace Memory

variable {req : Request}

structure State.Slides (current : State) (policy : Policy) (instants : List Int)
    (steps : List (Int × Nat)) : Prop where
  counts : current.segments.Counts (segmentOf policy (current.lastSeen - policy.period))
    (bySegment policy steps)
  before : ∀ step ∈ steps, step.1 ≤ current.lastSeen ∧ step.1 ∈ instants
  seen : current.lastSeen ∈ instants
  bound : costWhere (bySegment policy steps)
    (fun i => segmentOf policy (current.lastSeen - policy.period) < i) ≤ policy.limit
  windows : ∀ start, costIn policy start steps ≤ policy.limit

theorem admit_sliding (cur : State) (sliding : req.policy.algorithm = .slidingWindow) :
    cur.admission req =
      admitSliding { cur with lastSeen := max cur.lastSeen req.now }
        { req with now := max cur.lastSeen req.now } := by
  unfold State.admission
  simp only [State.clamp_eq, sliding]

section

variable {p : Policy} (valid : p.Valid) (sliding : p.algorithm = .slidingWindow)
  {instants : List Int} (remembers : Remembers p instants)

include valid sliding remembers

theorem State.Slides.admission {steps : List (Int × Nat)}
    {cur : State} (slides : cur.Slides p instants steps)
    (under : req.policy = p) (known : max cur.lastSeen req.now ∈ instants) :
    (cur.admission req).1.Slides p instants
      (steps ++ [(max cur.lastSeen req.now, taken req (cur.admission req).2)]) := by
  subst under
  have windowed : req.policy.algorithm ≠ .concurrency := by simp [sliding]
  obtain ⟨counts, before, seen, bound, windows⟩ := slides
  rw [admit_sliding cur sliding]
  generalize later : max cur.lastSeen req.now = now at known ⊢
  have order : cur.lastSeen ≤ now := later ▸ le_max_left _ _
  have older : segmentOf req.policy (cur.lastSeen - req.policy.period) ≤
      segmentOf req.policy (now - req.policy.period) :=
    segmentOf_mono valid windowed (by omega)
  have past : ∀ e ∈ bySegment req.policy steps, e.1 ≤ segmentOf req.policy now := by
    intro e mem
    obtain ⟨step, earlier, rfl⟩ := mem_map.mp mem
    exact segmentOf_mono valid windowed ((before step earlier).1.trans order)
  let asked : Request := { req with now := now }
  obtain ⟨counted, within⟩ := @slidingWindow_counts cur.segments asked _ _ valid windowed
    (remembers.fits now known) counts _ _ rfl rfl older past bound
  have spent : ∀ cost, bySegment req.policy steps ++ [(segmentOf req.policy now, cost)] =
      bySegment req.policy (steps ++ [(now, cost)]) := fun cost => by
    rw [bySegment, bySegment, map_append]
    rfl
  rw [spent] at counted within
  have times : ∀ cost, ∀ step ∈ steps ++ [(now, cost)], step.1 ≤ now ∧ step.1 ∈ instants := by
    intro cost step mem
    rcases mem_append.mp mem with earlier | last
    · exact ⟨(before step earlier).1.trans order, (before step earlier).2⟩
    · rw [mem_singleton.mp last]
      exact ⟨le_refl now, known⟩
  refine ⟨counted, times _, known, within, fun start => ?_⟩
  by_cases sub : start ≤ now ∧ now < start + req.policy.period
  · -- All that the window holds is in segments that the ring still counts.
    refine le_trans ?_ within
    rw [bySegment, costWhere_map]
    refine costWhere_mono fun step mem within => ?_
    exact remembers.kept _ (times _ step mem).2 now known (by omega)
  · rw [costIn, costWhere_append, costWhere_singleton, if_neg sub]
    exact windows start

theorem served_slides {key : String} {answer : Answer} {old next : Option State}
    {steps : List (Int × Nat)} (served : Served key req answer old next) (under : req.policy = p)
    (known : req.canonical.now ∈ instants) (fresh : old = none → steps = [])
    (slides : ∀ cur ∈ old, cur.Slides p instants steps) :
    ∀ cur ∈ next, cur.lastSeen = clampTo (old.map State.lastSeen) req.canonical.now ∧
      cur.Slides p instants
        (steps ++ [(clampTo (old.map State.lastSeen) req.canonical.now,
          if answer.1.allowed then req.cost else 0)]) := by
  obtain ⟨-, -, -, -, rfl, rfl⟩ := served
  intro cur found
  cases found
  have under' : req.canonical.policy = p := under
  have found : (State.found old req.canonical).Slides p instants steps := by
    cases old with
    | none =>
      cases fresh rfl
      exact ⟨⟨nofun, fun _ => rfl⟩, by simp, known, Nat.zero_le _, fun _ => Nat.zero_le _⟩
    | some cur =>
      obtain ⟨counts, before, seen, bound, windows⟩ := slides cur rfl
      obtain ⟨lastSeen, -, -, ss⟩ := found_windows (some cur) req.canonical
      exact ⟨by rw [lastSeen, ss]; exact counts, by rw [lastSeen]; exact before,
        by rw [lastSeen]; exact seen, by rw [lastSeen]; exact bound, windows⟩
  have now := max_found_lastSeen old req.canonical
  have mem : max (State.found old req.canonical).lastSeen req.canonical.now ∈
      instants := by
    rw [now]
    refine clampTo_mem (fun t seen => ?_) known
    obtain ⟨cur, exists_, rfl⟩ := Option.map_eq_some_iff.mp seen
    exact (slides cur exists_).seen
  have after := found.admission valid sliding remembers under' mem
  rw [now] at after
  refine ⟨?_, after⟩
  rw [admit_sliding _ (under'.symm ▸ sliding), ← now]
  rfl

/-- A run of requests under one policy, after the admissions that led to the state of the key. -/
theorem run_slides {key : String} {labels : List (Call × Reply)} {old last : Option State}
    (run : Run (KeyStep key) old labels last)
    (asked : ∀ label ∈ labels, ∀ req ∈ label.1.requestAt key,
      req.policy = p ∧ req.canonical.now ∈ instants)
    {steps : List (Int × Nat)} (fresh : old = none → steps = [])
    (slides : ∀ cur ∈ old, cur.Slides p instants steps) (start : Int) :
    costIn p start (steps ++
      admissions (old.map State.lastSeen) (labels.filterMap (decision key))) ≤ p.limit := by
  have windowed : ∀ req : Request, req.policy = p ∧ req.canonical.now ∈ instants →
      req.policy.algorithm ≠ .concurrency := by
    rintro req ⟨rfl, -⟩
    simp [sliding]
  refine decisions_from (P := fun old decisions => ∀ steps, (old = none → steps = []) →
    (∀ cur ∈ old, cur.Slides p instants steps) →
    costIn p start (steps ++ admissions (old.map State.lastSeen) decisions) ≤ p.limit)
    windowed run asked ?_ ?_ ?_ steps fresh slides
  · intro steps fresh slides
    rw [admissions, append_nil]
    cases last with
    | none =>
      rw [fresh rfl]
      exact Nat.zero_le _
    | some cur => exact (slides cur rfl).windows start
  · intro cur l rest later steps _ slides
    obtain ⟨counts, before, seen, bound, windows⟩ := slides cur rfl
    refine later steps (fun none => by cases none) fun other eq => ?_
    cases eq
    exact ⟨counts, before, seen, bound, windows⟩
  · rintro old next req answer rest ⟨under, known⟩ served later steps fresh slides
    have moved := served_slides valid sliding remembers served under known fresh slides
    have next_ := served.next
    subst next_
    obtain ⟨seen, after⟩ := moved _ rfl
    have bound := later _ (fun none => by cases none) fun other eq => by
      cases eq
      exact after
    rw [Option.map_some, seen, append_assoc] at bound
    exact bound

end

/-- The sliding window enforces its limit over a whole period: whatever else the store is asked for,
what it admits at the key in any window of one period is at most the limit, as long as no request is
in a segment that a request less than a period later forgets. -/
theorem sliding_window_bounds_period {options : Options} {store : Store}
    (made : Store.new options = .ok store) {spec : PolicySpec} {policy : Policy}
    (built : newPolicy spec = .ok policy) (sliding : policy.algorithm = .slidingWindow)
    {key : String} {calls : List Call} (open_ : Call.close ∉ calls) (kept : store.Keeps key calls)
    (under : ∀ call ∈ calls, ∀ request ∈ call.requestAt key, request.policy = policy)
    (remembers : Remembers policy (instantsAt key calls)) (start : Int) :
    costIn policy start (admissions none (store.decisions key calls)) ≤ policy.limit := by
  obtain ⟨opened, absent⟩ := new_opened made
  have run := run_key opened open_ kept
  rw [absent key] at run
  exact run_slides (newPolicy_valid built) sliding remembers run
    (fun label mem request at_ => ⟨under _ (mem_trace mem) request at_,
      mem_instantsAt (mem_trace mem) at_⟩) (fun _ => rfl)
    (fun current found => by cases found) start

/-! A window of 32 microseconds, in segments of two. -/

def windowSpec : PolicySpec :=
  { minuteSpec with algorithm := .slidingWindow, capacity := 1, period := 32000, burst := 0 }

def windowPolicy : Policy :=
  { minutePolicy with
    algorithm := .slidingWindow, capacity := 1, period := 32000, burst := 0, maxCost := 1 }

theorem newPolicy_window : newPolicy windowSpec = .ok windowPolicy := by decide +kernel

/-- A cost of one at each of the instants. -/
def windowCalls (instants : List Int) : List Call :=
  instants.map fun t => .admission none ⟨windowPolicy, ⟨"user"⟩, 1, t⟩

/-- At the first microseconds of segments the second request is rejected and the third, a period
after the first, is admitted. -/
theorem sliding_window_bounds_period_even :
    admissions none (tenKeys.decisions "login\x00user" (windowCalls [2000, 32000, 34000])) =
        [(2000, 1), (32000, 0), (34000, 1)] ∧
      costIn windowPolicy 2000
        (admissions none (tenKeys.decisions "login\x00user" (windowCalls [2000, 32000, 34000]))) ≤
        1 :=
  ⟨by decide +kernel, sliding_window_bounds_period new_tenKeys newPolicy_window rfl
    (by simp [windowCalls])
    (by decide +kernel) (by decide +kernel)
    (remembers_of_first (newPolicy_valid newPolicy_window) (by decide) (by decide +kernel)
      (by decide +kernel) (by decide +kernel)) 2000⟩

/-- A cost in the second microsecond of its segment is forgotten with the first one, 31 microseconds
later: a limit of one admits two in one period. -/
theorem segment_forgotten_early :
    Store.new ⟨10, 2⟩ = .ok tenKeys ∧ newPolicy windowSpec = .ok windowPolicy ∧
      tenKeys.Keeps "login\x00user" (windowCalls [1000, 32000]) ∧
      (∀ call ∈ windowCalls [1000, 32000], ∀ request ∈ call.requestAt "login\x00user",
        request.policy = windowPolicy) ∧
      admissions none (tenKeys.decisions "login\x00user" (windowCalls [1000, 32000])) =
        [(1000, 1), (32000, 1)] ∧
      windowPolicy.limit <
        costIn windowPolicy 1000
          (admissions none (tenKeys.decisions "login\x00user" (windowCalls [1000, 32000]))) :=
  ⟨rfl, by decide +kernel, by decide +kernel, by decide +kernel, by decide +kernel,
    by decide +kernel⟩

end Memory

end Golib.RateLimit
