import Mathlib.Data.Rat.Floor
import Mathlib.Data.List.AList
import Golib.RateLimit.Policy

/-! The reference limiter of the conformance tests, with a token balance in rational arithmetic. -/
namespace Golib.RateLimit.Reference

open Machine

structure State where
  algorithm : Algorithm
  observed : Int
  tokens : ℚ
  last : Int
  window : Int
  used : Nat
  segments : Ring

def State.new (request : Request) : State where
  algorithm := request.policy.algorithm
  observed := request.now
  tokens := request.policy.limit
  last := request.now
  window := 0
  used := 0
  segments := fun _ => .empty

/-! ### Token bucket -/

def refillDuration (tokens : ℚ) (policy : Policy) : Int :=
  if tokens ≤ 0 then 0
  else
    let value := tokens * microseconds policy.period / policy.capacity
    let quotient := value.num.tdiv value.den
    let quotient := if value.num % value.den ≠ 0 then quotient + 1 else quotient
    int64 (int64 quotient * microsecond)

def floorRat (value : ℚ) : Nat := toWord (value.num.tdiv value.den)

def refill (current : State) (request : Request) : State :=
  if request.now > current.last then
    let elapsed : ℚ := microseconds (timeSub request.now current.last) / microseconds
      request.policy.period
    let tokens := current.tokens + elapsed * request.policy.capacity
    let limit : ℚ := request.policy.limit
    { current with tokens := if tokens > limit then limit else tokens, last := request.now }
  else current

def referenceToken (current : State) (request : Request) : State × Answer :=
  let current := refill current request
  let allowed := current.tokens ≥ request.cost
  let current := if allowed then
    { current with tokens := current.tokens - request.cost } else current
  let decision : Decision :=
    { allowed := allowed
      limit := request.policy.limit
      remaining := floorRat current.tokens
      reset := request.now + refillDuration (request.policy.limit - current.tokens) request.policy
      retryAfter := 0
      reason := .allowed }
  if allowed then (current, decision, none)
  else
    (current, { decision with
                reason := .limited
                retryAfter := refillDuration (request.cost - current.tokens) request.policy },
      some .rejected)

/-! ### Windows -/

def inNanos : Units where
  read := toUnixNano
  write := id
  period := Policy.period

def referenceFixed (current : State) (request : Request) : State × Answer :=
  let (window, used, answer) := fixedWindow inNanos current.window current.used request
  ({ current with window, used }, answer)

/-- The least index of a segment in use, zero when there is none. -/
def earliest (ring : Ring) : Int :=
  (List.finRange 16).foldl
    (fun earliest slot =>
      if (ring slot).used > 0 ∧ (earliest = 0 ∨ (ring slot).index < earliest) then (ring slot).index
      else earliest)
    0

/- Unlike the stores it takes zero for no segment at all. -/
def referenceSliding (current : State) (request : Request) : State × Answer :=
  let policy := request.policy
  let index := inNanos.index policy request.now
  let oldest := inNanos.index policy (request.now - policy.period)
  let ring := current.segments.drop oldest
  let first := earliest ring
  let used := ring.used
  let ring := ring.open index
  let reset :=
    if first ≠ 0 then int64 ((first + 1) * inNanos.width policy) + policy.period
    else request.now + policy.period
  let (used, answer) := spend used request reset
  let segments := if answer.2 = none then ring.add (slotOf index) request.cost else ring
  ({ current with segments, used }, answer)

/-! ### Admission -/

abbrev Limiter := AList (fun _ : String => State)

def State.admission (current : State) (request : Request) : State × Answer :=
  let request :=
    if request.now < current.observed then { request with now := current.observed } else request
  let current := { current with observed := request.now }
  match request.policy.algorithm with
  | .tokenBucket => referenceToken current request
  | .fixedWindow => referenceFixed current request
  | .slidingWindow => referenceSliding current request
  | _ => (current, .none, some .unsupported)

def Limiter.admission (reference : Limiter) (ctx : Option String) (request : Request) :
    Limiter × Answer :=
  match ctx with
  | some cause => (reference, .none, some (.context cause))
  | none =>
    match request.validate with
    | .error e => (reference, .none, some e)
    | .ok () =>
      let request := request.canonical
      let key := request.policy.id ++ "\x00" ++ request.key.value
      let current := (reference.lookup key).getD (.new request)
      let (next, answer) := current.admission request
      (reference.insert key next, answer)

end Golib.RateLimit.Reference
