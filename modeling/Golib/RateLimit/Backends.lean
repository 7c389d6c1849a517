import Golib.RateLimit.Lockstep
import Golib.RateLimit.SlidingWindows

/-! The process-local store and the PostgreSQL one in lockstep, for each algorithm: the same
decisions for the same requests at a key. -/
namespace Golib.RateLimit

open Machine Bucket Memory Postgres Int List
variable {req : Request} {st : Postgres.PersistedState} {ring : Ring} {last : Int}

/-! ### Token bucket -/

theorem timeSub_ge {now micros : Int}
    (whole : unixMicro (toUnixMicro now) = now) (clock : unixMicro micros = last) :
    timeSub now last ≥ microsecond ↔ now > last := by
  unfold unixMicro at whole clock
  unfold timeSub saturate microsecond minInt64 maxInt64
  omega

theorem persisted_refill_eq (valid : req.policy.Valid)
    (windowed : req.policy.algorithm ≠ .concurrency)
    (held : st.tokens ≤ req.policy.limit) (short : st.remainder < req.policy.micros)
    (full : st.tokens = req.policy.limit → st.remainder = 0)
    (clock : unixMicro st.lastMicros = last)
    (whole : unixMicro (toUnixMicro req.now) = req.now) (later : req.now > last) :
    Postgres.refill st req =
      { st with
        tokens := (topUp req.policy.limit req.policy.capacity req.policy.micros
          st.tokens st.remainder (elapsedMicros req.now last)).1
        remainder := (topUp req.policy.limit req.policy.capacity req.policy.micros
          st.tokens st.remainder (elapsedMicros req.now last)).2
        lastMicros := toUnixMicro req.now } := by
  obtain ⟨some, -, -⟩ := valid.period windowed
  have limit := valid.limit_lt
  unfold Postgres.refill
  dsimp only
  rw [whole, clock, if_pos ((timeSub_ge whole clock).mpr later)]
  by_cases missing : st.tokens < req.policy.limit
  · rw [if_pos missing]
    have parts := refill_parts valid windowed short (elapsedMicros_lt req.now last)
    unfold elapsedMicros at parts ⊢
    rw [parts]
    generalize (microseconds (timeSub req.now last)).toNat = elapsed
    simp only [div64, topUp, wide_eq]
    by_cases large : (elapsed * req.policy.capacity + st.remainder) / 2 ^ 64 ≥
        req.policy.micros
    · have added := word_le_div some ((Nat.le_div_iff_mul_le (by decide)).mp large)
      rw [if_pos large, if_pos (by omega)]
    · rw [if_neg large]
      by_cases above : req.policy.limit ≤ st.tokens +
          (elapsed * req.policy.capacity + st.remainder) / req.policy.micros
      · rw [if_pos above, if_pos (by omega)]
      · rw [if_neg above, if_neg (by omega)]
  · have eq : st.tokens = req.policy.limit := by omega
    rw [if_neg missing, topUp, if_pos (eq ▸ Nat.le_add_right _ _), ← full eq, ← eq]

structure BucketsAlike (policy : Policy) (instants : List Int) (current : State)
    (stored : PersistedState) : Prop where
  revision : current.revision = policy.revision
  bucket : current.Bucket policy
  refilled : current.lastRefill ∈ instants
  clock : unixMicro stored.lastMicros = current.lastRefill
  tokens : stored.tokens = current.tokens
  remainder : stored.remainder = current.remainder

/-- Policies under which a bucket has the same size and its time is counted alike. -/
structure Policy.SameBucket (policy other : Policy) : Prop where
  revision : policy.revision = other.revision
  limit : policy.limit = other.limit
  period : policy.period = other.period

theorem Policy.SameBucket.alike {policy other : Policy} {instants : List Int}
    (same : policy.SameBucket other) :
    BucketsAlike policy instants = BucketsAlike other instants := by
  obtain ⟨revision, limit, period⟩ := same
  have micros : policy.micros = other.micros := by rw [Policy.micros, period, Policy.micros]
  funext cur st
  apply propext
  constructor
  all_goals
    rintro ⟨named, ⟨held, short, full⟩, refilled, clock, ts, rem⟩
    exact ⟨revision ▸ named, ⟨limit ▸ held, micros ▸ short, limit ▸ full⟩, refilled, clock, ts, rem⟩

section

variable {policy : Policy} (valid : policy.Valid) (bucket : policy.algorithm = .tokenBucket)
  {instants : List Int} (whole : ∀ t ∈ instants, unixMicro (toUnixMicro t) = t)
  (exact : ∀ t ∈ instants, ∀ t' ∈ instants, ¬ Wraps policy (elapsedMicros t' t))

include valid bucket whole exact

theorem BucketsAlike.refill {cur : Memory.State}
    (under : req.policy = policy) (known : req.now ∈ instants)
    (alike : BucketsAlike policy instants cur st) :
    BucketsAlike policy instants (Memory.refill cur req) (Postgres.refill st req) := by
  subst under
  have windowed : req.policy.algorithm ≠ .concurrency := by simp [bucket]
  obtain ⟨revision, ⟨held, short, full⟩, refilled, clock, ts, rem⟩ := alike
  by_cases later : req.now > cur.lastRefill
  · have near := elapsedMicros_lt req.now cur.lastRefill
    have stepped := refilled_exact valid windowed short near held (exact _ refilled _ known)
    obtain ⟨held', short', full', -⟩ :=
      @refilled_le req.policy valid windowed cur.tokens _ _ short near
    rw [refill_eq later, persisted_refill_eq valid windowed (ts ▸ held) (rem ▸ short)
      (by rwa [ts, rem]) clock (whole _ known) later, ts, rem, ← stepped]
    exact ⟨revision, ⟨held', short', full'⟩, known, whole _ known, rfl, rfl⟩
  · have still : Postgres.refill st req = st := by
      unfold Postgres.refill
      dsimp only
      rw [whole _ known, clock, if_neg fun passed =>
        later ((timeSub_ge (whole _ known) clock).mp passed)]
    rw [still, Memory.refill, if_pos later]
    exact ⟨revision, ⟨held, short, full⟩, refilled, clock, ts, rem⟩

theorem lockstep_token :
    Lockstep (fun req => req.policy = policy ∧ req.canonical.now ∈ instants) instants
      (BucketsAlike policy instants) where
  clocks := fun _ _ _ _ _ ⟨revision, ⟨held, short, full⟩, refilled, clock, ts, rem⟩ =>
    ⟨revision, ⟨held, short, full⟩, refilled, clock, ts, rem⟩
  fresh := by
    rintro req ⟨rfl, known⟩
    obtain ⟨some, -, -⟩ := valid.period (by simp [bucket])
    exact ⟨rfl, ⟨le_refl _, some, fun _ => rfl⟩, known, whole _ known, rfl, rfl⟩
  carried := by
    rintro cur st req ⟨rfl, -⟩ alike
    have found : State.found (some cur) req.canonical = cur :=
      if_neg (not_not.mpr alike.revision)
    rwa [found]
  decides := by
    rintro asked ⟨rfl, -⟩ cur st req under known seen clock alike
    have kind : req.policy.algorithm = .tokenBucket := by rw [under, bucket]
    rw [admit_now seen, mutate_of_clamp (clamp_now clock (whole _ known))]
    simp only [kind]
    obtain ⟨revision, filled, refilled, refillClock, ts, rem⟩ := alike
    have after := BucketsAlike.refill valid bucket whole exact under known
      (⟨revision, filled, refilled, refillClock, ts, rem⟩ :
        BucketsAlike asked.policy instants cur { st with
          observedMicros := toUnixMicro req.now, revision := req.policy.revision })
    rw [admitToken_eq, mutateToken_eq, after.tokens, after.remainder]
    obtain ⟨revision, ⟨held, short, full⟩, refilled, refillClock, ts, rem⟩ := after
    have most := leftOf_le req.cost (held.trans_lt valid.limit_lt)
    refine ⟨rfl, revision, ⟨most.trans held, short, fun eq => full ?_⟩, refilled, refillClock, rfl,
      rem⟩
    exact le_antisymm held (eq ▸ most)

end

/-! ### Windows -/

/-- The windows and segments about an instant are within 64 bits in nanoseconds. -/
def Measured (policy : Policy) (t : Int) : Prop :=
  InRange (t - 2 * policy.period) ∧ InRange (t + policy.period)

instance (policy : Policy) (t : Int) : Decidable (Measured policy t) :=
  inferInstanceAs (Decidable (_ ∧ _))

theorem floorTo_micros {t size : Int} (pos : 0 < size) (whole : unixMicro (toUnixMicro t) = t)
    (low : InRange (t - unixMicro size)) (high : InRange t) :
    floorTo (toUnixNano t) (unixMicro size) = unixMicro (floorTo (toUnixMicro t) size) ∧
      floorTo (toUnixMicro t) size = toUnixMicro t / size * size := by
  rw [inRange_iff] at low high
  have nanos : toUnixNano t = t := int64_eq (inRange_iff.mpr high)
  rw [nanos]
  generalize toUnixMicro t = micros at *
  subst whole
  unfold unixMicro at *
  have split := mul_ediv_add_emod micros size
  have rest := emod_nonneg micros (by omega : size ≠ 0)
  have below := emod_lt_of_pos micros pos
  rw [mul_comm] at split
  rw [floorTo_eq (by omega), floorTo_eq pos,
    mul_ediv_mul_of_pos_left _ _ (by decide : (0 : Int) < 1000), ← mul_assoc,
    int64_eq (inRange_iff.mpr ⟨by omega, by omega⟩),
      int64_eq (inRange_iff.mpr ⟨by omega, by omega⟩)]
  exact ⟨rfl, rfl⟩

section

variable {policy : Policy} (valid : policy.Valid) (windowed : policy.algorithm ≠ .concurrency)

include valid windowed

theorem unixMicro_micros : unixMicro policy.micros = policy.period :=
  (valid.period windowed).2.1.symm

theorem micros_period : inMicros.period policy = policy.micros := by
  obtain ⟨some, period, -⟩ := valid.period windowed
  change microseconds policy.period = _
  unfold microseconds
  rw [period, mul_tdiv_cancel _ (by decide)]

end

theorem fixedWindow_units (valid : req.policy.Valid)
    (windowed : req.policy.algorithm ≠ .concurrency)
    (whole : unixMicro (toUnixMicro req.now) = req.now)
    (measured : Measured req.policy req.now) (window : Int) (used : Nat) :
    fixedWindow inNanos (unixMicro window) used req =
      (unixMicro (fixedWindow inMicros window used req).1,
        (fixedWindow inMicros window used req).2) := by
  obtain ⟨some, -, -⟩ := valid.period windowed
  obtain ⟨low, high⟩ := measured
  have period := unixMicro_micros valid windowed
  rw [inRange_iff] at low high
  obtain ⟨start, floor⟩ := @floorTo_micros req.now req.policy.micros (by omega) whole
    (by rw [period, inRange_iff]; omega) (by rw [inRange_iff]; omega)
  unfold fixedWindow
  rw [micros_period valid windowed]
  dsimp only [inNanos, inMicros, id]
  rw [← period, start]
  have eq : unixMicro window ≠ unixMicro (floorTo (toUnixMicro req.now) req.policy.micros) ↔
      window ≠ floorTo (toUnixMicro req.now) req.policy.micros := by
    unfold unixMicro
    omega
  have split := mul_ediv_add_emod (toUnixMicro req.now) req.policy.micros
  have rest := emod_nonneg (toUnixMicro req.now) (by omega : (req.policy.micros : Int) ≠ 0)
  have below := emod_lt_of_pos (toUnixMicro req.now) (by omega : (0 : Int) < req.policy.micros)
  rw [mul_comm, ← floor] at split
  unfold unixMicro at *
  simp only [eq]
  rw [int64_eq (inRange_iff.mpr ⟨by omega, by omega⟩),
    int64_eq (inRange_iff.mpr ⟨by omega, by omega⟩),
    add_mul]

/-! ### Segments -/

/-- Every segment in use has an index of the kind. -/
def Ring.Indexed (ring : Ring) (P : Int → Prop) : Prop :=
  ∀ slot, (ring slot).used ≠ 0 → P (ring slot).index

section

variable {ring : Ring} {P : Int → Prop} (indexed : ring.Indexed P)

include indexed

theorem Ring.Indexed.drop (oldest : Int) : (ring.drop oldest).Indexed P := by
  intro slot
  unfold Ring.drop
  split
  · exact fun none => absurd rfl none
  · exact indexed slot

theorem Ring.Indexed.open (i : Int) : (ring.open i).Indexed P := by
  unfold Ring.open
  split
  · intro slot
    rw [Function.update_apply]
    split
    · exact fun none => absurd rfl none
    · exact indexed slot
  · exact indexed

theorem Ring.Indexed.add {slot : Fin 16} (here : P (ring slot).index) (cost : Nat) :
    (ring.add slot cost).Indexed P := by
  intro other used
  unfold Ring.add at used ⊢
  rw [Function.update_apply] at used ⊢
  split
  · exact here
  · rename_i apart
    rw [if_neg apart] at used
    exact indexed other used

theorem Ring.Indexed.earliest : ring.earliest = maxInt64 ∨ P ring.earliest := by
  refine foldlRecOn (motive := fun earliest => earliest = maxInt64 ∨ P earliest) _ _
    (Or.inl rfl) fun start found slot _ => ?_
  split
  · rename_i used
    rcases min_choice start (ring slot).index with eq | eq
    · rwa [eq]
    · rw [eq]
      exact Or.inr (indexed slot used)
  · exact found

end

theorem slidingWindow_indexed {units : Units} {P : Int → Prop} (indexed : ring.Indexed P)
    (here : P (units.index req.policy req.now)) : (slidingWindow units ring req).1.Indexed P := by
  obtain ⟨reset, -, ss⟩ := slidingWindow_spends units ring req
  rw [ss]
  split
  · refine ((indexed.drop _).open _).add ?_ _
    rwa [open_index]
  · exact (indexed.drop _).open _

section

variable {policy : Policy} (valid : policy.Valid) (windowed : policy.algorithm ≠ .concurrency)
  (even : 16000 ∣ policy.period)

include valid windowed even

theorem width_units : 0 < inMicros.width policy ∧
    inNanos.width policy = unixMicro (inMicros.width policy) := by
  obtain ⟨some, period, -⟩ := valid.period windowed
  obtain ⟨least, most⟩ := valid.period_range windowed
  have micros : inMicros.width policy = (policy.micros + 15) / 16 := by
    unfold Units.width
    rw [micros_period valid windowed, int64_eq (inRange_iff.mpr ⟨by omega, by omega⟩),
      tdiv_eq_ediv, if_pos (Or.inl (by omega))]
    omega
  rw [width_eq valid windowed, micros]
  unfold unixMicro
  omega

theorem index_units {t : Int}
    (whole : unixMicro (toUnixMicro t) = t) (low : InRange (t - policy.period))
    (high : InRange t) : inMicros.index policy t = inNanos.index policy t := by
  obtain ⟨pos, width⟩ := width_units valid windowed even
  obtain ⟨some, narrow, -⟩ := width_range valid windowed
  rw [inRange_iff] at low high
  obtain ⟨start, floor⟩ := @floorTo_micros t (inMicros.width policy) pos whole
    (by rw [← width, inRange_iff]; omega) (inRange_iff.mpr high)
  unfold Units.index
  rw [width]
  change (floorTo (toUnixMicro t) _).tdiv _ = (floorTo (toUnixNano t) _).tdiv _
  rw [start, floor]
  unfold unixMicro
  rw [mul_tdiv_cancel _ (by omega), mul_assoc, mul_tdiv_cancel _ (by omega)]

end

theorem slidingWindow_units (valid : req.policy.Valid)
    (windowed : req.policy.algorithm ≠ .concurrency) (even : 16000 ∣ req.policy.period)
    (whole : unixMicro (toUnixMicro req.now) = req.now) (measured : Measured req.policy req.now)
    (indexed : ring.Indexed fun i => InRange ((i + 1) * inNanos.width req.policy)) :
    slidingWindow inMicros ring req = slidingWindow inNanos ring req := by
  obtain ⟨some, period, -⟩ := valid.period windowed
  obtain ⟨low, high⟩ := measured
  rw [inRange_iff] at low high
  obtain ⟨pos, width⟩ := width_units valid windowed even
  have index := index_units valid windowed even whole (inRange_iff.mpr ⟨by omega, by omega⟩)
    (inRange_iff.mpr ⟨by omega, by omega⟩)
  have before : unixMicro (toUnixMicro (req.now - req.policy.period)) =
      req.now - req.policy.period := by
    unfold unixMicro toUnixMicro at whole ⊢
    have shifted : (req.now - req.policy.period) / 1000 =
        req.now / 1000 - req.policy.micros := by omega
    rw [shifted, int64_eq (inRange_iff.mpr ⟨by omega, by omega⟩)]
    omega
  have oldest := index_units valid windowed even before (inRange_iff.mpr ⟨by omega, by omega⟩)
    (inRange_iff.mpr ⟨by omega, by omega⟩)
  have reset : ∀ e, (e = maxInt64 ∨ InRange ((e + 1) * inNanos.width req.policy)) →
      (if e ≠ maxInt64 then inMicros.write (int64 ((e + 1) * inMicros.width req.policy)) +
        req.policy.period else req.now + req.policy.period) =
      (if e ≠ maxInt64 then inNanos.write (int64 ((e + 1) * inNanos.width req.policy)) +
        req.policy.period else req.now + req.policy.period) := by
    intro e found
    by_cases none : e = maxInt64
    · rw [if_neg (not_not.mpr none), if_neg (not_not.mpr none)]
    · have range := found.resolve_left none
      rw [if_pos none, if_pos none, int64_eq range]
      rw [width] at range ⊢
      unfold unixMicro at range ⊢
      rw [← mul_assoc, inRange_iff] at range
      rw [int64_eq (inRange_iff.mpr ⟨by omega, by omega⟩), ← mul_assoc]
      rfl
  unfold slidingWindow
  dsimp only
  rw [index, oldest, reset _ (indexed.drop _).earliest]

section

variable {policies : List Policy} {instants : List Int} (valid : ∀ p ∈ policies, p.Valid)
  (whole : ∀ t ∈ instants, unixMicro (toUnixMicro t) = t)
  (measured : ∀ p ∈ policies, ∀ t ∈ instants, Measured p t)

include valid whole measured

theorem lockstep_fixed (fixed : ∀ p ∈ policies, p.algorithm = .fixedWindow) :
    Lockstep (fun req => req.policy ∈ policies) instants
      (fun cur st => cur.windowStart = unixMicro st.window ∧ cur.used = st.used) where
  clocks := fun _ _ _ _ _ alike => alike
  fresh := fun _ _ => ⟨rfl, rfl⟩
  carried := by
    intro cur st req _ alike
    obtain ⟨-, window, used, -⟩ := found_windows (some cur) req.canonical
    exact ⟨window.trans alike.1, used.trans alike.2⟩
  decides := by
    intro asked mem cur st req under known seen clock alike
    have kind : req.policy.algorithm = .fixedWindow := by rw [under, fixed _ mem]
    rw [admit_now seen, mutate_of_clamp (clamp_now clock (whole _ known))]
    simp only [kind]
    have units := fixedWindow_units (under ▸ valid _ mem) (by simp [kind]) (whole _ known)
      (under ▸ measured _ mem _ known) st.window st.used
    unfold admitFixed mutateFixed
    rw [alike.1, alike.2, units]
    exact ⟨rfl, rfl, rfl⟩

theorem lockstep_sliding (sliding : ∀ p ∈ policies, p.algorithm = .slidingWindow)
    (even : ∀ p ∈ policies, 16000 ∣ p.period)
    (numbered : ∀ p ∈ policies, ∀ p' ∈ policies, ∀ t ∈ instants,
      InRange ((segmentOf p t + 1) * inNanos.width p')) :
    Lockstep (fun req => req.policy ∈ policies) instants
      (fun cur st => cur.segments = st.segments ∧
        cur.segments.Indexed fun i => ∀ p ∈ policies, InRange ((i + 1) * inNanos.width p)) where
  clocks := fun _ _ _ _ _ alike => alike
  fresh := fun _ _ => ⟨rfl, fun _ used => absurd rfl used⟩
  carried := by
    intro cur st req _ alike
    obtain ⟨-, -, -, ss⟩ := found_windows (some cur) req.canonical
    rw [ss]
    exact alike
  decides := by
    intro asked mem cur st req under known seen clock alike
    have kind : req.policy.algorithm = .slidingWindow := by rw [under, sliding _ mem]
    have windowed : req.policy.algorithm ≠ .concurrency := by simp [kind]
    rw [← under] at mem
    rw [admit_now seen, mutate_of_clamp (clamp_now clock (whole _ known))]
    simp only [kind]
    have units := slidingWindow_units (valid _ mem) windowed (even _ mem) (whole _ known)
      (measured _ mem _ known) (fun slot used => alike.2 slot used _ mem)
    unfold admitSliding mutateSliding
    rw [← alike.1, units]
    refine ⟨rfl, rfl, slidingWindow_indexed alike.2 ?_⟩
    obtain ⟨low, high⟩ := measured _ mem _ known
    rw [inRange_iff] at low high
    rw [index_eq (valid _ mem) windowed (inRange_iff.mpr ⟨by omega, by omega⟩)
      (inRange_iff.mpr ⟨by omega, by omega⟩)]
    exact fun p here => numbered _ mem p here _ known

end

/-! ### Runs -/

/-- The policies that the store is asked with for admission at the key. -/
def policiesAt (key : String) (calls : List Call) : List Policy :=
  (calls.filterMap (Call.requestAt key)).map Request.policy

/-- Requests for which both stores compute alike. A token bucket keeps its revision, its size and
its period, and no refill wraps around; the windows and segments are within 64 bits in nanoseconds,
and the segments of a sliding window are whole microseconds wide. -/
structure Comparable (algorithm : Algorithm) (policies : List Policy)
    (instants : List Int) : Prop where
  tokens : algorithm = .tokenBucket → ∀ p ∈ policies, (∀ p' ∈ policies, p.SameBucket p') ∧
    ∀ t ∈ instants, ∀ t' ∈ instants, ¬ Wraps p (elapsedMicros t' t)
  windows : algorithm ≠ .tokenBucket → ∀ p ∈ policies, ∀ t ∈ instants, Measured p t
  segments : algorithm = .slidingWindow → ∀ p ∈ policies, 16000 ∣ p.period ∧
    ∀ p' ∈ policies, ∀ t ∈ instants, InRange ((segmentOf p t + 1) * inNanos.width p')

theorem lockstep_comparable {alg : Algorithm} {policies : List Policy} {instants : List Int}
    (each : alg = .tokenBucket ∨ alg = .fixedWindow ∨ alg = .slidingWindow)
    (valid : ∀ p ∈ policies, p.Valid) (kinds : ∀ p ∈ policies, p.algorithm = alg)
    (whole : ∀ t ∈ instants, unixMicro (toUnixMicro t) = t)
    (comparable : Comparable alg policies instants) :
    ∃ extra, Lockstep (fun req => req.policy ∈ policies ∧ req.canonical.now ∈ instants)
      instants extra := by
  obtain ⟨ts, windows, ss⟩ := comparable
  rcases each with rfl | rfl | rfl
  · cases policies with
    | nil =>
      exact ⟨fun _ _ => True, fun _ _ _ _ _ _ => trivial, fun _ _ => trivial,
        fun _ _ _ _ _ => trivial, fun asked here => absurd here.1 not_mem_nil⟩
    | cons policy rest =>
      refine ⟨BucketsAlike policy instants, .each mem_cons_self fun p here => ?_⟩
      rw [((ts rfl policy mem_cons_self).1 p here).alike]
      exact lockstep_token (valid p here) (kinds p here) whole (ts rfl p here).2
  · refine ⟨_, (lockstep_fixed valid whole (windows (by decide)) kinds).mono ?_⟩
    exact fun req here => here.1
  · refine ⟨_, (lockstep_sliding valid whole (windows (by decide)) kinds
      (fun p here => (ss rfl p here).1) (fun p here => (ss rfl p here).2)).mono ?_⟩
    exact fun req here => here.1

/-- The process-local store and the PostgreSQL one decide alike: at every request of a run they give
the same answer, whatever else the process-local store is asked for, as long as the requests are
comparable. -/
theorem memory_eq_postgres {options : Options} {store : Store}
    (made : Store.new options = .ok store) {key : String} {calls : List Call}
    (open_ : Call.close ∉ calls) (kept : store.Keeps key calls)
    (built : ∀ p ∈ policiesAt key calls, ∃ spec, newPolicy spec = .ok p) {policyID : String}
    {algorithm : Algorithm}
    (each : algorithm = .tokenBucket ∨ algorithm = .fixedWindow ∨ algorithm = .slidingWindow)
    (kinds : ∀ p ∈ policiesAt key calls, p.id = policyID ∧ p.algorithm = algorithm)
    (comparable : Comparable algorithm (policiesAt key calls) (instantsAt key calls)) :
    outputs (fun stored request => mutateState stored request.canonical) none
        ((store.decisions key calls).map Prod.fst) =
      (store.decisions key calls).map Prod.snd := by
  obtain ⟨opened, absent⟩ := new_opened made
  have valid : ∀ p ∈ policiesAt key calls, p.Valid := fun p here => by
    obtain ⟨spec, built⟩ := built p here
    exact newPolicy_valid built
  obtain ⟨extra, lockstep⟩ := lockstep_comparable each valid (fun p here => (kinds p here).2)
    instantsAt_whole comparable
  have windowed : algorithm ≠ .concurrency := by
    rcases each with rfl | rfl | rfl <;> decide
  have requests : ∀ call ∈ calls, ∀ request ∈ call.requestAt key,
      request.policy ∈ policiesAt key calls ∧ request.canonical.now ∈ instantsAt key calls :=
    fun call mem request at_ => ⟨mem_map_of_mem (mem_filterMap.mpr
      ⟨call, mem, at_⟩), mem_instantsAt mem at_⟩
  exact lockstep.outputs_eq opened (absent key) open_ kept windowed requests
    fun request here => ⟨(kinds _ here.1).1, (kinds _ here.1).2, here.2⟩

/-! A sliding window of 32 microseconds whose second revision admits two. -/

def widerPolicy : Policy := { windowPolicy with revision := "v2", capacity := 2, maxCost := 2 }

theorem newPolicy_wider :
    newPolicy { windowSpec with revision := "v2", capacity := 2 } = .ok widerPolicy := by
  decide +kernel

def windowRollout : List Call :=
  [.admission none ⟨windowPolicy, ⟨"user"⟩, 1, 2000⟩,
    .admission none ⟨widerPolicy, ⟨"user"⟩, 1, 32000⟩,
    .admission none ⟨widerPolicy, ⟨"user"⟩, 1, 33000⟩]

theorem memory_eq_postgres_rollout :
    outputs (fun stored request => mutateState stored request.canonical) none
        ((tenKeys.decisions "login\x00user" windowRollout).map Prod.fst) =
      (tenKeys.decisions "login\x00user" windowRollout).map Prod.snd ∧
    ((tenKeys.decisions "login\x00user" windowRollout).map fun entry =>
      (entry.2.1.allowed, entry.2.1.limit, entry.2.1.remaining, entry.2.1.reset)) =
        [(true, 1, 0, 34000), (true, 2, 0, 36000), (false, 2, 0, 36000)] := by
  have policies : policiesAt "login\x00user" windowRollout =
    [windowPolicy, widerPolicy, widerPolicy] := by
    decide +kernel
  have built : ∀ p ∈ policiesAt "login\x00user" windowRollout, ∃ spec, newPolicy spec = .ok p := by
    rw [policies]
    simp only [mem_cons, not_mem_nil, or_false]
    rintro p (rfl | rfl | rfl)
    · exact ⟨_, newPolicy_window⟩
    · exact ⟨_, newPolicy_wider⟩
    · exact ⟨_, newPolicy_wider⟩
  have comparable : Comparable .slidingWindow (policiesAt "login\x00user" windowRollout)
      (instantsAt "login\x00user" windowRollout) :=
    ⟨nofun, by decide +kernel, by decide +kernel⟩
  exact ⟨@memory_eq_postgres _ _ new_tenKeys _ _ (by simp [windowRollout]) (by decide +kernel) built
    "login" .slidingWindow (Or.inr (Or.inr rfl)) (by decide +kernel) comparable, by decide +kernel⟩

/-! A token a second under two revisions, and a sliding window of 17 microseconds. -/

def secondPolicy (revision : String) : Policy :=
  { minutePolicy with revision, capacity := 1, period := 1000000000, burst := 0, maxCost := 1 }

def secondCalls : List Call :=
  [.admission none ⟨secondPolicy "v1", ⟨"user"⟩, 1, 0⟩,
    .admission none ⟨secondPolicy "v2", ⟨"user"⟩, 1, 1000000000⟩]

def oddPolicy : Policy := { windowPolicy with period := 17000 }

def oddCalls : List Call :=
  [.admission none ⟨oddPolicy, ⟨"user"⟩, 1, 100000⟩,
    .admission none ⟨oddPolicy, ⟨"user"⟩, 1, 101000⟩]

/-- The process-local store forgets the time before a revision, and the PostgreSQL one does not: a
token that is due is rejected by one and granted by the other. The segments of 17 microseconds are
1063 nanoseconds wide in one store and two microseconds in the other, and the reset times differ. -/
theorem stores_differ :
    Store.new ⟨10, 2⟩ = .ok tenKeys ∧
      (∀ revision ∈ ["v1", "v2"],
        newPolicy { minuteSpec with revision, capacity := 1, period := 1000000000, burst := 0 } =
          .ok (secondPolicy revision)) ∧
      tenKeys.Keeps "login\x00user" secondCalls ∧
      ((tenKeys.decisions "login\x00user" secondCalls).map fun entry => entry.2.1.allowed) =
        [true, false] ∧
      ((outputs (fun stored request => mutateState stored request.canonical) none
        ((tenKeys.decisions "login\x00user" secondCalls).map Prod.fst)).map fun answer =>
          answer.1.allowed) = [true, true] ∧
      newPolicy { windowSpec with period := 17000 } = .ok oddPolicy ∧
      tenKeys.Keeps "login\x00user" oddCalls ∧
      ((tenKeys.decisions "login\x00user" oddCalls).map fun entry =>
        (entry.2.1.allowed, entry.2.1.reset)) = [(true, 117000), (false, 117985)] ∧
      ((outputs (fun stored request => mutateState stored request.canonical) none
        ((tenKeys.decisions "login\x00user" oddCalls).map Prod.fst)).map fun answer =>
          (answer.1.allowed, answer.1.reset)) = [(true, 117000), (false, 119000)] :=
  ⟨rfl, by decide +kernel, by decide +kernel, by decide +kernel, by decide +kernel,
    by decide +kernel, by decide +kernel, by decide +kernel, by decide +kernel⟩

end Golib.RateLimit
