import Mathlib.Algebra.Order.Ring.Rat
import Golib.CircuitBreaker.Window

/-! The circuit breaker. Each section under its mutex is a function of the breaker and of the clock
value read before it; a permit is known by its number. The transition events, the channel that wakes
waiting callers and the snapshots handed out are left out. -/
namespace Golib.CircuitBreaker

/-! ### Configuration -/

structure ConfigError where
  field : String
  message : String
  deriving DecidableEq, Repr

/-- A float64 as the checks of a configuration see it. -/
inductive Float64 where
  | finite (value : ℚ)
  | infinite
  | nan
  deriving DecidableEq

inductive FailureAction where
  | reopenImmediately | reopenAfterSample
  deriving DecidableEq, Repr

structure HalfOpenPolicy where
  maxProbes : Int
  requiredSuccesses : Int
  successRatio : ℚ
  failureAction : FailureAction
  deriving DecidableEq

/-- A policy as a caller gives it. -/
structure HalfOpenConfig where
  maxProbes : Int
  requiredSuccesses : Int
  successRatio : Float64
  failureAction : UInt8
  deriving DecidableEq

def defaultHalfOpenProbeCount : Int := 10

def maxHalfOpenProbes : Int := 65536

def failureActionOf (value : UInt8) : Option FailureAction :=
  if value = 0 then some .reopenImmediately
  else if value = 1 then some .reopenAfterSample
  else none

def validateRatio (field : String) (value : Float64) : Except ConfigError ℚ :=
  match value with
  | .finite q =>
    if q < 0 then .error ⟨field, "must be in the range [0, 1]"⟩
    else if q > 1 then .error ⟨field, "must be in the range [0, 1]"⟩
    else .ok q
  | .infinite => .error ⟨field, "must be in the range [0, 1]"⟩
  | .nan => .error ⟨field, "must be in the range [0, 1]"⟩

def normalizeHalfOpen (config : Option HalfOpenConfig) : Except ConfigError HalfOpenPolicy :=
  match config with
  | none => .ok ⟨defaultHalfOpenProbeCount, defaultHalfOpenProbeCount, 0, .reopenImmediately⟩
  | some policy =>
    if policy.maxProbes < 1 then .error ⟨"HalfOpen.MaxProbes", "must be greater than zero"⟩
    else if policy.maxProbes > maxHalfOpenProbes then
      .error ⟨"HalfOpen.MaxProbes", "exceeds maximum"⟩
    else
      match failureActionOf policy.failureAction with
      | none => .error ⟨"HalfOpen.FailureAction", "is unknown"⟩
      | some action =>
        match validateRatio "HalfOpen.SuccessRatio" policy.successRatio with
        | .error e => .error e
        | .ok successRatio =>
          if policy.requiredSuccesses > 0 ∧ successRatio > 0 then
            .error ⟨"HalfOpen", "must select one recovery threshold"⟩
          else if policy.requiredSuccesses ≤ 0 ∧ successRatio = 0 then
            .error ⟨"HalfOpen", "must select a recovery threshold"⟩
          else if policy.requiredSuccesses > policy.maxProbes then
            .error ⟨"HalfOpen.RequiredSuccesses", "must not exceed MaxProbes"⟩
          else .ok ⟨policy.maxProbes, policy.requiredSuccesses, successRatio, action⟩

inductive WindowConfig where
  | count (size : Nat)
  | time (bucketDuration : Int) (bucketCount : Nat)
  deriving DecidableEq, Repr

structure OpeningRules where
  consecutiveFailures : Nat
  failureCount : Nat
  failureRatio : ℚ
  slowCount : Nat
  slowRatio : ℚ
  openWhenAll : Bool
  resetConsecutiveFailures : Bool

inductive OpenDurationPolicy where
  | fixed (duration : Int)
  | exponential (initial : Int) (multiplier : ℚ) (maximum : Int)

/-- The results of the float64 operations: a quotient of two counts, a duration times a multiplier,
and a duration shortened by a jitter and a sample of it. -/
structure Floats where
  quotient : Nat → Nat → ℚ
  grown : Int → ℚ → Int
  jittered : Int → ℚ → ℚ → Int

/-- The half-open policy is one that normalization let through. -/
structure Config where
  name : String
  window : WindowConfig
  minimumThroughput : Nat
  opening : OpeningRules
  openDuration : OpenDurationPolicy
  halfOpen : HalfOpenPolicy
  permitTTL : Int
  halfOpenWait : Bool
  observed : Bool
  openDurationJitter : ℚ
  floats : Floats
  normalized : ∃ given, normalizeHalfOpen given = .ok halfOpen

def newRollingWindow (config : Config) : RollingWindow :=
  match config.window with
  | .time bucketDuration bucketCount => .time (newTime bucketDuration bucketCount)
  | .count size => .count (newCount size)

/-! ### State -/

inductive State where
  | closed | open_ | halfOpen
  deriving DecidableEq, Repr

inductive Mode where
  | normal | forceOpen | disabled | isolated
  deriving DecidableEq, Repr

inductive PermitStatus where
  | active | completed | canceled | expired
  deriving DecidableEq, Repr

structure Permit where
  generation : Nat
  state : State
  deadline : Int
  recording : Bool
  execution : Bool
  status : PermitStatus
  deriving DecidableEq, Repr

inductive Cause where
  | forceOpen | isolated | open_ | halfOpenExhausted | halfOpenWaitTimeout
  deriving DecidableEq, Repr

structure RejectionError where
  name : String
  state : State
  mode : Mode
  generation : Nat
  retryAt : Int
  cause : Cause
  deriving DecidableEq, Repr

inductive PermitError where
  | completed | canceled | expired
  deriving DecidableEq, Repr

/-- The zero time: the first instant of the year 1. -/
def zeroTime : Int := -62135596800 * 1000000000

/-- The breaker and the permits it gave out. The `uint64` counters are never near their end: a
section adds at most two to each. -/
structure Breaker where
  window : RollingWindow
  state : State
  mode : Mode
  generation : Nat
  transitionCount : Nat
  lastTransition : Int
  consecutiveFailures : Nat
  openCount : Nat
  currentOpenDuration : Int
  nextProbeAt : Int
  halfOpenActive : Int
  halfOpenCompleted : Int
  halfOpenSuccesses : Int
  admitted : Nat
  rejected : Nat
  completed : Nat
  totalSuccesses : Nat
  totalFailures : Nat
  totalIgnored : Nat
  halfOpenPermits : List Nat
  permits : List Permit
  deriving DecidableEq, Repr

def Breaker.new (config : Config) : Breaker where
  window := newRollingWindow config
  state := .closed
  mode := .normal
  generation := 1
  transitionCount := 0
  lastTransition := zeroTime
  consecutiveFailures := 0
  openCount := 0
  currentOpenDuration := 0
  nextProbeAt := zeroTime
  halfOpenActive := 0
  halfOpenCompleted := 0
  halfOpenSuccesses := 0
  admitted := 0
  rejected := 0
  completed := 0
  totalSuccesses := 0
  totalFailures := 0
  totalIgnored := 0
  halfOpenPermits := []
  permits := []

namespace Breaker

variable (config : Config)

/-! ### Opening -/

def ratio (numerator denominator : Nat) : ℚ :=
  if denominator = 0 then 0 else config.floats.quotient numerator denominator

def openingDecision (consecutiveFailures : Nat) (snapshot : Aggregate) : Bool :=
  let rules := config.opening
  if snapshot.classified < config.minimumThroughput then false
  else
    let slow := snapshot.slowSuccess + snapshot.slowFailure
    let decisions : List Bool :=
      (if rules.consecutiveFailures > 0 then
        [decide (consecutiveFailures ≥ rules.consecutiveFailures)] else []) ++
      (if rules.failureCount > 0 then [decide (snapshot.failures ≥ rules.failureCount)] else []) ++
      (if rules.failureRatio > 0 then
        [decide (ratio config snapshot.failures snapshot.classified ≥ rules.failureRatio)]
        else []) ++
      (if rules.slowCount > 0 then [decide (slow ≥ rules.slowCount)] else []) ++
      if rules.slowRatio > 0 then
        [decide (ratio config slow snapshot.classified ≥ rules.slowRatio)] else []
    if rules.openWhenAll then decisions.length > 0 && !decisions.contains false
    else decisions.contains true

def jitterDuration (duration : Int) (sample : ℚ) : Int :=
  if config.openDurationJitter = 0 then duration
  else
    let jittered := config.floats.jittered duration config.openDurationJitter sample
    if jittered ≤ 0 then 1 else jittered

/-- The duration after the attempts left, or the maximum once it is reached. -/
def growDuration (multiplier : ℚ) (maximum : Int) : Nat → Int → Int
  | 0, duration => duration
  | attempts + 1, duration =>
    let next := config.floats.grown duration multiplier
    if next ≤ duration then maximum
    else if min next maximum = maximum then maximum
    else growDuration multiplier maximum attempts (min next maximum)

def openDurationLocked (openCount : Nat) (jitterSample : ℚ) : Int :=
  match config.openDuration with
  | .fixed duration => jitterDuration config duration jitterSample
  | .exponential initial multiplier maximum =>
    if multiplier = 1 then jitterDuration config initial jitterSample
    else jitterDuration config (growDuration config multiplier maximum (openCount - 1) initial)
      jitterSample

/-! ### Transitions -/

/-- What taking a snapshot leaves behind in the window. -/
def observeLocked (b : Breaker) (now : Int) : Breaker := { b with window := b.window.observe now }

/-- An event holds a snapshot of the breaker after the change. -/
def recordEventLocked (b : Breaker) (now : Int) : Breaker :=
  if config.observed then b.observeLocked now else b

/-- A new generation: the probes of the old one no longer count. -/
def renewLocked (b : Breaker) (now : Int) : Breaker :=
  { b with
    generation := b.generation + 1
    transitionCount := b.transitionCount + 1
    lastTransition := now
    halfOpenActive := 0
    halfOpenCompleted := 0
    halfOpenSuccesses := 0
    halfOpenPermits := [] }

def transitionLocked (b : Breaker) (state : State) (now : Int) (mutate : Breaker → Breaker) :
    Breaker :=
  let b := mutate (b.observeLocked now)
  recordEventLocked config (renewLocked { b with state := state } now) now

def openLocked (b : Breaker) (now : Int) (jitterSample : ℚ) : Breaker :=
  transitionLocked config b .open_ now fun b =>
    let openCount := b.openCount + 1
    let duration := openDurationLocked config openCount jitterSample
    { b with
      openCount := openCount
      currentOpenDuration := duration
      nextProbeAt := now + duration }

def clearLocked (b : Breaker) : Breaker :=
  { b with
    window := newRollingWindow config
    consecutiveFailures := 0
    openCount := 0
    currentOpenDuration := 0
    nextProbeAt := zeroTime }

def closeLocked (b : Breaker) (now : Int) : Breaker :=
  transitionLocked config b .closed now (clearLocked config)

def setMode (b : Breaker) (mode : Mode) (now : Int) : Breaker :=
  if b.mode = mode then b
  else
    let b := b.observeLocked now
    recordEventLocked config (renewLocked { b with mode := mode } now) now

def reset (b : Breaker) (now : Int) : Breaker :=
  transitionLocked config b .closed now fun b => { clearLocked config b with mode := .normal }

/-! ### Permits -/

def setStatus (b : Breaker) (id : Nat) (status : PermitStatus) : Breaker :=
  { b with permits := b.permits.modify id fun p => { p with status := status } }

def belongsToCurrentStateLocked (b : Breaker) (p : Permit) : Bool :=
  p.generation = b.generation && p.state = b.state

def belongsToCurrentHalfOpenLocked (b : Breaker) (p : Permit) : Bool :=
  if p.state ≠ .halfOpen then false else b.belongsToCurrentStateLocked p

def releaseHalfOpenLocked (b : Breaker) (id : Nat) (p : Permit) : Breaker :=
  if !b.belongsToCurrentHalfOpenLocked p then b
  else if id ∉ b.halfOpenPermits then b
  else { b with
    halfOpenPermits := b.halfOpenPermits.erase id
    halfOpenActive := b.halfOpenActive - 1 }

def expireLocked (b : Breaker) (id : Nat) (p : Permit) : Breaker :=
  if p.status ≠ .active then b else (b.setStatus id .expired).releaseHalfOpenLocked id p

/-- Expire one of the probes when its deadline has passed. -/
def expireAt (now : Int) (b : Breaker) (id : Nat) : Breaker :=
  match b.permits[id]? with
  | none => b
  | some p => if now < p.deadline then b else b.expireLocked id p

/-- The order in which the probes are looked at does not matter: each one is expired on its own. -/
def expireHalfOpenLocked (b : Breaker) (now : Int) : Breaker :=
  b.halfOpenPermits.foldl (expireAt now) b

def rejectLocked (b : Breaker) (cause : Cause) : Breaker × RejectionError :=
  ({ b with rejected := b.rejected + 1 },
    ⟨config.name, b.state, b.mode, b.generation, b.nextProbeAt, cause⟩)

inductive Admission where
  | permit (id : Nat)
  | rejected (err : RejectionError)
  | wait
  deriving DecidableEq, Repr

def refuse (b : Breaker) (cause : Cause) : Breaker × Admission :=
  ((rejectLocked config b cause).1, .rejected (rejectLocked config b cause).2)

def issueLocked (b : Breaker) (now : Int) (recording execution : Bool) : Breaker :=
  { b with
    admitted := b.admitted + 1
    permits := b.permits ++ [⟨b.generation, b.state, now + config.permitTTL, recording, execution,
      .active⟩] }

/-- Admission in the normal mode, once the open interval is over. -/
def admitProbe (b : Breaker) (now : Int) (execution : Bool) : Breaker × Admission :=
  let b := if b.state = .halfOpen then b.expireHalfOpenLocked now else b
  if b.state = .halfOpen ∧ b.halfOpenCompleted + b.halfOpenActive ≥ config.halfOpen.maxProbes then
    if config.halfOpenWait then (b, .wait) else refuse config b .halfOpenExhausted
  else
    let id := b.permits.length
    let b := issueLocked config b now true execution
    (if b.state = .halfOpen then
      { b with
        halfOpenActive := b.halfOpenActive + 1
        halfOpenPermits := b.halfOpenPermits ++ [id] }
    else b, .permit id)

def tryAcquireLocked (b : Breaker) (now : Int) (execution : Bool) : Breaker × Admission :=
  match b.mode with
  | .forceOpen => refuse config b .forceOpen
  | .isolated => refuse config b .isolated
  | .disabled => (issueLocked config b now false execution, .permit b.permits.length)
  | .normal =>
    if b.state = .open_ then
      if now < b.nextProbeAt then refuse config b .open_
      else admitProbe config (transitionLocked config b .halfOpen now id) now execution
    else admitProbe config b now execution

/-! ### Completion -/

def recordLifetimeLocked (b : Breaker) (outcome : Outcome) : Breaker :=
  match outcome with
  | .success => { b with completed := b.completed + 1, totalSuccesses := b.totalSuccesses + 1 }
  | .failure => { b with completed := b.completed + 1, totalFailures := b.totalFailures + 1 }
  | .ignored => { b with completed := b.completed + 1, totalIgnored := b.totalIgnored + 1 }

/-- What the policy makes of a probe that counts. -/
def settleHalfOpen (b : Breaker) (now : Int) (jitterSample : ℚ) : Breaker :=
  let policy := config.halfOpen
  if policy.requiredSuccesses > 0 ∧ b.halfOpenSuccesses ≥ policy.requiredSuccesses then
    closeLocked config b now
  else if policy.successRatio > 0 ∧ b.halfOpenCompleted ≥ policy.maxProbes then
    if ratio config b.halfOpenSuccesses.toNat b.halfOpenCompleted.toNat ≥ policy.successRatio then
      closeLocked config b now
    else openLocked config b now jitterSample
  else if policy.failureAction = .reopenAfterSample ∧ b.halfOpenCompleted ≥ policy.maxProbes then
    openLocked config b now jitterSample
  else b

def completeHalfOpenLocked (b : Breaker) (outcome : Outcome) (now : Int) (jitterSample : ℚ) :
    Breaker :=
  let b := { b with halfOpenActive := b.halfOpenActive - 1 }
  match outcome with
  | .ignored => b
  | .success => settleHalfOpen config { b with
      halfOpenCompleted := b.halfOpenCompleted + 1
      halfOpenSuccesses := b.halfOpenSuccesses + 1 } now jitterSample
  | .failure =>
    let b := { b with halfOpenCompleted := b.halfOpenCompleted + 1 }
    if config.halfOpen.failureAction = .reopenImmediately then openLocked config b now jitterSample
    else settleHalfOpen config b now jitterSample

def streakLocked (b : Breaker) (outcome : Outcome) : Nat :=
  match outcome with
  | .success => 0
  | .failure => b.consecutiveFailures + 1
  | .ignored => if config.opening.resetConsecutiveFailures then 0 else b.consecutiveFailures

/-- A completion of a permit of the current generation outside of half-open. -/
def completeWindowLocked (b : Breaker) (outcome : Outcome) (slow : Bool) (now : Int)
    (jitterSample : ℚ) : Breaker :=
  let window := b.window.add now ⟨outcome, slow && outcome ≠ .ignored⟩
  let consecutiveFailures := streakLocked config b outcome
  let window := window.observe now
  let b := { b with window := window, consecutiveFailures := consecutiveFailures }
  if openingDecision config consecutiveFailures window.snapshot then
    openLocked config b now jitterSample
  else b

/-- The rest of a completion, once the permit is known to be active and in time. -/
def finishLocked (b : Breaker) (id : Nat) (p : Permit) (outcome : Outcome) (slow : Bool)
    (now : Int) (jitterSample : ℚ) : Breaker :=
  let b := (b.setStatus id .completed).recordLifetimeLocked outcome
  let b := if b.belongsToCurrentHalfOpenLocked p then
      { b with halfOpenPermits := b.halfOpenPermits.erase id }
    else b
  if !p.recording then b
  else if !b.belongsToCurrentStateLocked p then b
  else if b.state = .halfOpen then completeHalfOpenLocked config b outcome now jitterSample
  else completeWindowLocked config b outcome slow now jitterSample

def completeAt (b : Breaker) (id : Nat) (outcome : Outcome) (slow : Bool) (now : Int)
    (jitterSample : ℚ) : Breaker × Option PermitError :=
  match b.permits[id]? with
  | none => (b, none)
  | some p =>
    match p.status with
    | .completed => (b, some .completed)
    | .canceled => (b, some .canceled)
    | .expired =>
      if p.execution then ((b.setStatus id .completed).recordLifetimeLocked outcome, none)
      else (b, some .expired)
    | .active =>
      if !p.execution && !(now < p.deadline) then (b.expireLocked id p, some .expired)
      else (finishLocked config b id p outcome slow now jitterSample, none)

def cancelAt (b : Breaker) (id : Nat) (now : Int) : Breaker × Option PermitError :=
  match b.permits[id]? with
  | none => (b, none)
  | some p =>
    match p.status with
    | .completed => (b, some .completed)
    | .canceled => (b, some .canceled)
    | .expired => (b, some .expired)
    | .active =>
      if !(now < p.deadline) then (b.expireLocked id p, some .expired)
      else ((b.setStatus id .canceled).releaseHalfOpenLocked id p, none)

def snapshot (b : Breaker) (now : Int) : Breaker :=
  (if b.state = .halfOpen then b.expireHalfOpenLocked now else b).observeLocked now

/-! ### Steps -/

/-- The sections under the mutex, with the clock value that each one was given. -/
inductive Section where
  | acquire (now : Int) (execution : Bool)
  | waitTimeout
  | complete (id : Nat) (outcome : Outcome) (slow : Bool) (now : Int) (jitterSample : ℚ)
  | cancel (id : Nat) (now : Int)
  | setMode (mode : Mode) (now : Int)
  | reset (now : Int)
  | snapshot (now : Int)

def step (b : Breaker) : Section → Breaker
  | .acquire now execution => (tryAcquireLocked config b now execution).1
  | .waitTimeout => (rejectLocked config b .halfOpenWaitTimeout).1
  | .complete id outcome slow now jitterSample =>
    (completeAt config b id outcome slow now jitterSample).1
  | .cancel id now => (b.cancelAt id now).1
  | .setMode mode now => setMode config b mode now
  | .reset now => reset config b now
  | .snapshot now => b.snapshot now

def run (sections : List Section) : Breaker := sections.foldl (step config) (new config)

end Breaker

end Golib.CircuitBreaker
