import Golib.RateLimit.Policy

/-! The transition of the PostgreSQL store, which keeps one state for each key and counts in
microseconds. -/
namespace Golib.RateLimit.Postgres

open Machine

structure PersistedState where
  schema : Int
  policyID : String
  revision : String
  algorithm : Algorithm
  tokens : Nat
  remainder : Nat
  lastMicros : Int
  observedMicros : Int
  window : Int
  used : Nat
  segments : Ring

def stateSchema : Int := 1

/-! ### Token bucket -/

def tokenDuration (tokens remainder : Nat) (policy : Policy) : Int :=
  refillTime tokens remainder policy

/-- The balance once the time since the last refill is made up for. -/
def refill (current : PersistedState) (request : Request) : PersistedState :=
  let now := toUnixMicro request.now
  let period := request.policy.micros
  let elapsedDuration := timeSub (unixMicro now) (unixMicro current.lastMicros)
  let limit := request.policy.limit
  if elapsedDuration ≥ microsecond then
    if current.tokens < limit then
      let elapsed := (microseconds elapsedDuration).toNat
      let (high, low) := mulAdd elapsed request.policy.capacity current.remainder
      if high ≥ period then
        { current with tokens := limit, remainder := 0, lastMicros := now }
      else
        let (added, remainder) := div64 high low period
        if added ≥ limit - current.tokens then
          { current with tokens := limit, remainder := 0, lastMicros := now }
        else { current with tokens := current.tokens + added, remainder, lastMicros := now }
    else { current with lastMicros := now }
  else current

def mutateToken (current : PersistedState) (request : Request) : PersistedState × Answer :=
  let current := refill current request
  let limit := request.policy.limit
  if current.tokens < request.cost then
    let retry := tokenDuration (subWord request.cost current.tokens) current.remainder
      request.policy
    let reset := tokenDuration (subWord limit current.tokens) current.remainder request.policy
    (current, { allowed := false, limit, remaining := current.tokens, reset := request.now + reset,
                retryAfter := retry, reason := .limited }, some .rejected)
  else
    let current := { current with tokens := subWord current.tokens request.cost }
    let reset := tokenDuration (subWord limit current.tokens) current.remainder request.policy
    (current, { allowed := true, limit, remaining := current.tokens, reset := request.now + reset,
                retryAfter := 0, reason := .allowed }, none)

/-! ### Windows -/

def inMicros : Units where
  read := toUnixMicro
  write := unixMicro
  period := fun policy => microseconds policy.period

def mutateFixed (current : PersistedState) (request : Request) : PersistedState × Answer :=
  let (window, used, answer) := fixedWindow inMicros current.window current.used request
  ({ current with window, used }, answer)

def mutateSliding (current : PersistedState) (request : Request) : PersistedState × Answer :=
  let (segments, used, answer) := slidingWindow inMicros current.segments request
  ({ current with segments, used }, answer)

/-! ### The transition -/

def PersistedState.new (request : Request) : PersistedState where
  schema := stateSchema
  policyID := request.policy.id
  revision := request.policy.revision
  algorithm := request.policy.algorithm
  tokens := request.policy.limit
  remainder := 0
  lastMicros := toUnixMicro request.now
  observedMicros := toUnixMicro request.now
  window := 0
  used := 0
  segments := fun _ => .empty

/-- The request at an instant that is not before the last one. -/
def PersistedState.clamp (current : PersistedState) (request : Request) : Request :=
  let requestedMicros := toUnixMicro request.now
  let observedMicros := max requestedMicros current.observedMicros
  if observedMicros ≠ requestedMicros then
    { request with now := unixMicro observedMicros } else request

def PersistedState.mutate (current : PersistedState) (request : Request) :
    PersistedState × Answer :=
  let request := current.clamp request
  let current :=
    { current with observedMicros := toUnixMicro request.now, revision := request.policy.revision }
  match request.policy.algorithm with
  | .tokenBucket => mutateToken current request
  | .fixedWindow => mutateFixed current request
  | _ => mutateSliding current request

/-- The state to store, none when the state there is not the policy's, and the answer. -/
def mutateState (current : Option PersistedState) (request : Request) :
    Option PersistedState × Answer :=
  match current with
  | none => ((PersistedState.new request).mutate request).map some id
  | some current =>
    if current.schema ≠ stateSchema then (none, .none, some .corrupt)
    else if current.policyID ≠ request.policy.id then (none, .none, some .corrupt)
    else if current.algorithm ≠ request.policy.algorithm then (none, .none, some .corrupt)
    else (current.mutate request).map some id

end Golib.RateLimit.Postgres
