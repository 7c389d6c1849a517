import Mathlib.Data.List.FinRange
import Golib.Lib.Bytes
import Golib.Lib.Machine
import Golib.Lib.Programs

/-! Policies, requests and decisions of the rate limiter. Instants are nanoseconds since the Unix
epoch and durations are nanoseconds; a `uint64` is a natural number, an `int64` an integer. -/
namespace Golib.RateLimit

open Machine

/-! ### Instants -/

def microsecond : Int := 1000

/-- The zero `time.Time`, the first instant of year 1. -/
def zeroTime : Int := -62135596800000000000

def toUnixMicro (t : Int) : Int := int64 (t / 1000)

def toUnixNano (t : Int) : Int := int64 t

def unixMicro (micros : Int) : Int := micros * 1000

/-- A difference of instants saturates. -/
def timeSub (t u : Int) : Int := saturate (t - u)

def microseconds (d : Int) : Int := d.tdiv 1000

/-! ### Errors -/

inductive Err where
  | rejected
  | invalidPolicy (detail : String)
  | invalidRequest (detail : String)
  | unavailable
  | corrupt
  | unsupported
  | leaseNotFound
  | leaseNotOwned
  | context (cause : String)
  deriving DecidableEq, Repr

/-! ### Policies -/

inductive Algorithm where
  | tokenBucket | fixedWindow | slidingWindow | concurrency
  | unknown (name : String)
  deriving DecidableEq, Repr

inductive FailureMode where
  | failClosed | failOpen
  | unknown (value : UInt8)
  deriving DecidableEq, Repr

inductive Consistency where
  | unset | processLocal | strong
  | unknown (name : String)
  deriving DecidableEq, Repr

structure PolicySpec where
  id : String
  revision : String
  algorithm : Algorithm
  capacity : Nat
  period : Int
  burst : Nat
  maxCost : Nat
  failureMode : FailureMode
  consistency : Consistency
  lease : Int
  deriving DecidableEq, Repr

/-- A policy. Its fields are those of the specification it was made from, with the defaults in. -/
structure Policy where
  id : String
  revision : String
  algorithm : Algorithm
  capacity : Nat
  period : Int
  burst : Nat
  maxCost : Nat
  failureMode : FailureMode
  consistency : Consistency
  lease : Int
  deriving DecidableEq, Repr

def maxPolicyIDBytes : Nat := 64
def maxPolicyRevisionBytes : Nat := 64
def maxConcurrencyLeases : Nat := 1024
def maxExactInteger : Nat := 9007199254740991

def validPolicyIdentifier (value : String) (limit : Nat) : Bool :=
  !(value == "" || limit < value.utf8ByteSize) &&
    value.toList.all fun char => ('a' ≤ char && char ≤ 'z') || ('A' ≤ char && char ≤ 'Z') ||
      ('0' ≤ char && char ≤ '9') || char == '-' || char == '_' || char == '.' || char == ':'

def failIf (condition : Prop) [Decidable condition] (e : Err) : Except Err Unit :=
  if condition then .error e else .ok ()

def checkDurations (spec : PolicySpec) : Except Err Unit :=
  match spec.algorithm with
  | .tokenBucket | .fixedWindow | .slidingWindow =>
    failIf (spec.period < microsecond ∨ spec.period.tmod microsecond ≠ 0)
      (.invalidPolicy "period must use positive microsecond precision")
  | .concurrency =>
    failIf (spec.lease < microsecond ∨ spec.lease.tmod microsecond ≠ 0)
      (.invalidPolicy "concurrency lease must use positive microsecond precision")
  | .unknown _ => .error (.invalidPolicy "unknown algorithm")

def newPolicy (spec : PolicySpec) : Except Err Policy := do
  failIf (validPolicyIdentifier spec.id maxPolicyIDBytes = false ∨
      validPolicyIdentifier spec.revision maxPolicyRevisionBytes = false ∨ spec.capacity = 0)
    (.invalidPolicy "identity and capacity are required")
  let (limit, carry) := add64 spec.capacity spec.burst 0
  failIf (carry ≠ 0) (.invalidPolicy "capacity plus burst exceeds exact arithmetic")
  failIf (limit > maxExactInteger) (.invalidPolicy "capacity plus burst exceeds exact arithmetic")
  checkDurations spec
  let periodMicros := (microseconds spec.period).toNat
  failIf (spec.algorithm ≠ .concurrency ∧ limit > maxExactInteger / periodMicros)
    (.invalidPolicy "limit and period exceed exact arithmetic bounds")
  failIf (spec.algorithm = .concurrency ∧ limit > maxConcurrencyLeases)
    (.invalidPolicy "concurrency limit exceeds lease budget")
  let maxCost := if spec.maxCost = 0 then limit else spec.maxCost
  failIf (maxCost > limit) (.invalidPolicy "maximum cost exceeds limit")
  failIf (spec.failureMode ≠ .failClosed ∧ spec.failureMode ≠ .failOpen)
    (.invalidPolicy "unknown failure mode")
  failIf (spec.algorithm = .concurrency ∧ spec.failureMode = .failOpen)
    (.invalidPolicy "concurrency leases cannot fail open")
  let consistency := if spec.consistency = .unset then .processLocal else spec.consistency
  failIf (consistency ≠ .processLocal ∧ consistency ≠ .strong)
    (.invalidPolicy "unknown consistency")
  return { id := spec.id, revision := spec.revision, algorithm := spec.algorithm,
           capacity := spec.capacity, period := spec.period, burst := spec.burst, maxCost,
           failureMode := spec.failureMode, consistency, lease := spec.lease }

def Policy.limit (policy : Policy) : Nat := addWord policy.capacity policy.burst

/-- The period of a policy in microseconds, as the token bucket reads it. -/
def Policy.micros (policy : Policy) : Nat := (microseconds policy.period).toNat

structure Policy.Valid (policy : Policy) : Prop where
  capacity : 0 < policy.capacity
  limit : policy.limit = policy.capacity + policy.burst
  exact : policy.limit ≤ maxExactInteger
  maxCost : policy.maxCost ≤ policy.limit
  period : policy.algorithm ≠ .concurrency →
    0 < policy.micros ∧ policy.period = policy.micros * 1000 ∧
      policy.limit * policy.micros ≤ maxExactInteger
  leases : policy.algorithm = .concurrency → policy.limit ≤ maxConcurrencyLeases
  lease : policy.algorithm = .concurrency → 0 < policy.lease

variable {spec : PolicySpec} {condition : Prop} {e : Err} {u : Unit}

theorem microseconds_eq {d : Int} (whole : ¬ (d < microsecond ∨ d.tmod microsecond ≠ 0)) :
    0 < (microseconds d).toNat ∧ d = (microseconds d).toNat * 1000 := by
  have split := Int.mul_tdiv_add_tmod d 1000
  unfold microsecond at whole
  unfold microseconds
  omega

theorem failIf_ok [Decidable condition] : failIf condition e = .ok u ↔ ¬ condition := by
  unfold failIf
  split <;> simp_all

theorem checkDurations_ok (checked : checkDurations spec = .ok u) :
    (spec.algorithm ≠ .concurrency → ¬ (spec.period < microsecond ∨
      spec.period.tmod microsecond ≠ 0)) ∧
      (spec.algorithm = .concurrency → ¬ (spec.lease < microsecond ∨
        spec.lease.tmod microsecond ≠ 0)) := by
  unfold checkDurations at checked
  split at checked
  · rename_i kind
    exact ⟨fun _ => failIf_ok.mp checked, fun eq => by rw [kind] at eq; cases eq⟩
  · rename_i kind
    exact ⟨fun _ => failIf_ok.mp checked, fun eq => by rw [kind] at eq; cases eq⟩
  · rename_i kind
    exact ⟨fun _ => failIf_ok.mp checked, fun eq => by rw [kind] at eq; cases eq⟩
  · rename_i kind
    exact ⟨fun other => absurd kind other, fun _ => failIf_ok.mp checked⟩
  · cases checked

theorem newPolicy_valid {p : Policy} (made : newPolicy spec = .ok p) : p.Valid := by
  unfold newPolicy at made
  simp only [except_bind_ok, failIf_ok] at made
  obtain ⟨-, identified, -, carry, -, exact, _, durations, -, period, -, leases, -, cost,
    -, -, -, -, -,
    -, made⟩ := made
  cases made
  obtain ⟨periods, leaseTimes⟩ := checkDurations_ok durations
  have sum : spec.capacity + spec.burst < 2 ^ 64 := by
    simp only [add64, Nat.add_zero, ne_eq, not_not] at carry
    omega
  have limit : (add64 spec.capacity spec.burst 0).1 = spec.capacity + spec.burst :=
    Nat.mod_eq_of_lt sum
  rw [limit] at exact period leases cost
  have limit' : addWord spec.capacity spec.burst = spec.capacity + spec.burst := addWord_eq sum
  refine ⟨Nat.pos_of_ne_zero fun none => identified (Or.inr (Or.inr none)), limit', ?_,
    ?_, ?_, ?_, ?_⟩
  · simp only [Policy.limit, limit']
    omega
  · simp only [Policy.limit, limit', limit]
    omega
  · intro windowed
    obtain ⟨some, whole⟩ := microseconds_eq (periods windowed)
    simp only [Policy.micros, Policy.limit, limit']
    refine ⟨some, whole, ?_⟩
    have bound : spec.capacity + spec.burst ≤
      maxExactInteger / (microseconds spec.period).toNat := by
      by_contra large
      exact period ⟨windowed, by omega⟩
    exact (Nat.le_div_iff_mul_le some).mp bound
  · intro leased
    simp only [Policy.limit, limit']
    by_contra large
    exact leases ⟨leased, by omega⟩
  · intro leased
    have lease := leaseTimes leased
    unfold microsecond at lease
    change 0 < spec.lease
    omega

/-! ### Requests and decisions -/

structure Key where
  value : String
  deriving DecidableEq, Repr

structure Request where
  policy : Policy
  key : Key
  cost : Nat
  now : Int
  deriving DecidableEq, Repr

def Request.validate (r : Request) : Except Err Unit := do
  let required := Err.invalidRequest "policy, key, time, and bounded cost are required"
  failIf (r.policy.id = "") required
  failIf (r.key.value = "") required
  failIf (r.now = zeroTime) required
  failIf (r.cost = 0) required
  failIf (r.cost > r.policy.maxCost) required
  let micros := toUnixMicro r.now
  failIf (micros < -maxExactInteger) (.invalidRequest "time exceeds exact backend range")
  let duration := if r.policy.algorithm = .concurrency then r.policy.lease else r.policy.period
  failIf (micros > maxExactInteger - microseconds duration)
    (.invalidRequest "reset exceeds exact backend range")

structure Request.Valid (r : Request) : Prop where
  cost : 0 < r.cost
  bounded : r.cost ≤ r.policy.maxCost
  low : -maxExactInteger ≤ toUnixMicro r.now
  high : r.policy.algorithm ≠ .concurrency →
    toUnixMicro r.now + microseconds r.policy.period ≤ maxExactInteger

theorem validate_valid {r : Request} (checked : r.validate = .ok ()) : r.Valid := by
  unfold Request.validate at checked
  simp only [except_bind_ok, failIf_ok] at checked
  obtain ⟨-, -, -, -, -, -, -, cost, -, bounded, -, low, high⟩ := checked
  refine ⟨by omega, by omega, by omega, fun windowed => ?_⟩
  rw [if_neg windowed] at high
  omega

theorem failIf_error {e' : Err}
    [Decidable condition] (failed : failIf condition e = .error e') : e' = e := by
  unfold failIf at failed
  split at failed
  · exact (Except.error.inj failed).symm
  · cases failed

theorem validate_error {r : Request} (failed : r.validate = .error e) :
    ∃ detail, e = .invalidRequest detail := by
  unfold Request.validate at failed
  simp only [except_bind_error] at failed
  rcases failed with failed | ⟨-, -, failed | ⟨-, -, failed | ⟨-, -, failed | ⟨-, -, failed |
    ⟨-, -, failed | ⟨-, -, failed⟩⟩⟩⟩⟩⟩ <;> exact ⟨_, failIf_error failed⟩

/-- The request at its instant in whole microseconds. -/
def Request.canonical (r : Request) : Request := { r with now := unixMicro (toUnixMicro r.now) }

inductive Reason where
  | unset | allowed | limited
  deriving DecidableEq, Repr

structure Decision where
  allowed : Bool
  limit : Nat
  remaining : Nat
  reset : Int
  retryAfter : Int
  reason : Reason
  deriving DecidableEq, Repr

/-- The decision that comes with an error other than a rejection. -/
def Decision.none : Decision := ⟨false, 0, 0, zeroTime, 0, .unset⟩

/-- What a backend answers to a request. -/
abbrev Answer := Decision × Option Err

/-- The time until the missing tokens are refilled, given the remainder at hand. -/
def refillTime (tokens remainder : Nat) (policy : Policy) : Int :=
  if tokens = 0 then 0
  else
    let (high, low) := mulSub tokens policy.micros remainder
    if high ≥ policy.capacity then maxInt64
    else
      let (quotient, rest) := div64 high low policy.capacity
      let micros := if rest ≠ 0 then addWord quotient 1 else quotient
      if micros > (maxInt64 / microsecond).toNat then maxInt64 else micros * microsecond

/-- Spends the cost of the request from what is left of the limit: what is used then, and the
answer. -/
def spend (used : Nat) (request : Request) (reset : Int) : Nat × Answer :=
  let limit := request.policy.limit
  let remaining := limit - min used limit
  if request.cost > remaining then
    (used, { allowed := false, limit, remaining, reset,
             retryAfter := max (timeSub reset request.now) 0, reason := .limited }, some .rejected)
  else
    let used := addWord used request.cost
    (used, { allowed := true, limit, remaining := subWord limit used, reset, retryAfter := 0,
             reason := .allowed }, none)

/-! ### Windows

The backends count in units of their own. They read an instant as a number of units and a number
of units as an instant. -/

structure Units where
  read : Int → Int
  write : Int → Int
  period : Policy → Int

/-- A window that starts at a multiple of the period: its start, what is used of it, and the
answer. -/
def fixedWindow (units : Units) (windowStart : Int) (used : Nat) (request : Request) :
    Int × Nat × Answer :=
  let period := units.period request.policy
  let start := floorTo (units.read request.now) period
  let used := if windowStart ≠ start then 0 else used
  (start, spend used request (units.write (int64 (start + period))))

structure Segment where
  index : Int
  used : Nat
  deriving DecidableEq, Repr

def Segment.empty : Segment := ⟨0, 0⟩

abbrev Ring := Fin 16 → Segment

/-- The ring without the segments up to the given index. -/
def Ring.drop (ring : Ring) (oldest : Int) : Ring :=
  fun slot => if (ring slot).index ≤ oldest then .empty else ring slot

def Ring.used (ring : Ring) : Nat :=
  (List.finRange 16).foldl (fun used slot => addWord used (ring slot).used) 0

/-- The least index of a segment in use. -/
def Ring.earliest (ring : Ring) : Int :=
  (List.finRange 16).foldl
    (fun earliest slot => if (ring slot).used ≠ 0 then min earliest (ring slot).index else earliest)
    maxInt64

def slotOf (index : Int) : Fin 16 :=
  ⟨(positiveRem index 16).toNat % 16, Nat.mod_lt _ (by decide)⟩

/-- The ring with the segment of the given index in its slot. -/
def Ring.open (ring : Ring) (index : Int) : Ring :=
  if (ring (slotOf index)).index ≠ index then Function.update ring (slotOf index) ⟨index, 0⟩
  else ring

def Ring.add (ring : Ring) (slot : Fin 16) (cost : Nat) : Ring :=
  Function.update ring slot { ring slot with used := addWord (ring slot).used cost }

def Units.width (units : Units) (policy : Policy) : Int :=
  (int64 (units.period policy + 16 - 1)).tdiv 16

def Units.index (units : Units) (policy : Policy) (t : Int) : Int :=
  (floorTo (units.read t) (units.width policy)).tdiv (units.width policy)

/-- A window over the last sixteen segments: the segments, what is used of them, and the answer. -/
def slidingWindow (units : Units) (ring : Ring) (request : Request) : Ring × Nat × Answer :=
  let policy := request.policy
  let index := units.index policy request.now
  let oldest := units.index policy (request.now - policy.period)
  let ring := ring.drop oldest
  let earliest := ring.earliest
  let used := ring.used
  let ring := ring.open index
  let reset :=
    if earliest ≠ maxInt64 then
      units.write (int64 ((earliest + 1) * units.width policy)) + policy.period
    else request.now + policy.period
  let (used, answer) := spend used request reset
  (if answer.2 = none then ring.add (slotOf index) request.cost else ring, used, answer)

/-! ### Leases -/

structure LeaseRequest where
  request : Request
  leaseID : String
  deriving DecidableEq, Repr

def maxLeaseIDBytes : Nat := 128

def LeaseRequest.validate (r : LeaseRequest) : Except Err Unit := do
  r.request.validate
  failIf (r.request.policy.algorithm ≠ .concurrency ∨ r.leaseID = "" ∨
      r.leaseID.utf8ByteSize > maxLeaseIDBytes)
    (.invalidRequest "concurrency policy and bounded lease ID are required")

theorem lease_validate_error {r : LeaseRequest} (failed : r.validate = .error e) :
    ∃ detail, e = .invalidRequest detail := by
  unfold LeaseRequest.validate at failed
  rcases except_bind_error.mp failed with failed | ⟨-, -, failed⟩
  · exact validate_error failed
  · exact ⟨_, failIf_error failed⟩

theorem lease_validate_ok {r : LeaseRequest} (checked : r.validate = .ok ()) :
    r.request.validate = .ok () ∧ r.request.policy.algorithm = .concurrency := by
  obtain ⟨_, valid, rest⟩ := except_bind_ok.mp checked
  exact ⟨valid, by_contra fun other => failIf_ok.mp rest (Or.inl other)⟩

structure Lease where
  id : String
  key : Key
  policyID : String
  policyRevision : String
  cost : Nat
  expiresAt : Int
  backend : String
  deriving DecidableEq, Repr

end Golib.RateLimit
