import Mathlib.Data.List.AList
import Mathlib.Data.List.Sort
import Golib.RateLimit.Policy

/-! The process-local store: a map of states for each shard, with a bound on its keys. -/
namespace Golib.RateLimit.Memory

open Machine

structure LeaseState where
  cost : Nat
  expiresAt : Int
  deriving DecidableEq, Repr

/-- The leases by their identifier; a nil map is an empty one. -/
abbrev Leases := AList (fun _ : String => LeaseState)

structure State where
  revision : String
  algorithm : Algorithm
  lastSeen : Int
  tokens : Nat
  remainder : Nat
  lastRefill : Int
  windowStart : Int
  used : Nat
  segments : Ring
  leases : Leases

/-! ### Token bucket -/

def refill (current : State) (request : Request) : State :=
  if ¬ request.now > current.lastRefill then current
  else if current.tokens = request.policy.limit then
    { current with lastRefill := request.now, remainder := 0 }
  else
    let elapsed := (microseconds (timeSub request.now current.lastRefill)).toNat
    let (high, low) := mulAdd elapsed request.policy.capacity current.remainder
    let period := request.policy.micros
    if high ≥ period then
      { current with tokens := request.policy.limit, remainder := 0, lastRefill := request.now }
    else
      let (added, remainder) := div64 high low period
      let tokens := min (addWord current.tokens added) request.policy.limit
      { current with
        tokens
        remainder := if tokens = request.policy.limit then 0 else remainder
        lastRefill := request.now }

def refillDuration (tokens remainder : Nat) (policy : Policy) : Int :=
  refillTime tokens remainder policy

def admitToken (current : State) (request : Request) : State × Answer :=
  let current := refill current request
  let limit := request.policy.limit
  if current.tokens < request.cost then
    let retry := refillDuration (subWord request.cost current.tokens) current.remainder
      request.policy
    let reset := refillDuration (subWord limit current.tokens) current.remainder request.policy
    (current, { allowed := false, limit, remaining := current.tokens, reset := request.now + reset,
                retryAfter := retry, reason := .limited }, some .rejected)
  else
    let current := { current with tokens := subWord current.tokens request.cost }
    let reset := refillDuration (subWord limit current.tokens) current.remainder request.policy
    (current, { allowed := true, limit, remaining := current.tokens, reset := request.now + reset,
                retryAfter := 0, reason := .allowed }, none)

/-! ### Windows -/

def inNanos : Units where
  read := toUnixNano
  write := id
  period := Policy.period

def admitFixed (current : State) (request : Request) : State × Answer :=
  let (windowStart, used, answer) := fixedWindow inNanos current.windowStart current.used request
  ({ current with windowStart, used }, answer)

def admitSliding (current : State) (request : Request) : State × Answer :=
  let (segments, used, answer) := slidingWindow inNanos current.segments request
  ({ current with segments, used }, answer)

/-! ### Admission to the state of a key -/

def carryRevision (current : State) (request : Request) : State :=
  { current with
    tokens :=
      match current.algorithm with
      | .tokenBucket => min current.tokens request.policy.limit
      | _ => current.tokens
    revision := request.policy.revision
    lastRefill := if request.now > current.lastRefill then request.now else current.lastRefill
    remainder := 0 }

def State.new (request : Request) : State where
  revision := request.policy.revision
  algorithm := request.policy.algorithm
  lastSeen := request.now
  tokens := request.policy.limit
  remainder := 0
  lastRefill := request.now
  windowStart := 0
  used := 0
  segments := fun _ => .empty
  leases := ∅

/-- The state a request finds: a new one, or the one that is there under the revision of the
request. -/
def State.found (existing : Option State) (request : Request) : State :=
  match existing with
  | none => .new request
  | some current =>
    if current.revision ≠ request.policy.revision then carryRevision current request else current

/-- The request at an instant that is not before the last one. -/
def State.clamp (current : State) (request : Request) : Request :=
  if request.now < current.lastSeen then { request with now := current.lastSeen } else request

/-- What `Store.Admit` does to the state of the key. -/
def State.admission (current : State) (request : Request) : State × Answer :=
  let request := current.clamp request
  let current := { current with lastSeen := request.now }
  match request.policy.algorithm with
  | .tokenBucket => admitToken current request
  | .fixedWindow => admitFixed current request
  | _ => admitSliding current request

/-! ### Leases of a key -/

def Leases.prune (leases : Leases) (now : Int) : Leases where
  entries := leases.entries.filter fun entry => entry.2.expiresAt > now
  nodupKeys := leases.nodupKeys.sublist List.filter_sublist

def Leases.used (leases : Leases) : Nat :=
  leases.entries.foldl (fun used entry => addWord used entry.2.cost) 0

def earliestLease (leases : Leases) : Int :=
  leases.entries.foldl
    (fun earliest entry =>
      if earliest = zeroTime ∨ entry.2.expiresAt < earliest then entry.2.expiresAt else earliest)
    zeroTime

def hasActiveLease (leases : Leases) (now : Int) : Bool :=
  leases.entries.any fun entry => entry.2.expiresAt > now

def makeLease (request : LeaseRequest) (expiresAt : Int) : Lease where
  id := request.leaseID
  key := request.request.key
  policyID := request.request.policy.id
  policyRevision := request.request.policy.revision
  cost := request.request.cost
  expiresAt := expiresAt
  backend := "memory"

/-- What an acquisition answers; there is no lease when it fails. -/
abbrev LeaseAnswer := Option Lease × Answer

def State.acquire (current : State) (r : LeaseRequest) : State × LeaseAnswer :=
  let request := current.clamp r.request
  let leases := current.leases.prune request.now
  let current := { current with lastSeen := request.now, leases }
  let limit := request.policy.limit
  let remaining := limit - min leases.used limit
  match leases.lookup r.leaseID with
  | some existing =>
    if existing.cost ≠ request.cost then (current, none, .none, some .leaseNotOwned)
    else
      (current, some (makeLease { r with request } existing.expiresAt),
        { allowed := true, limit, remaining, reset := existing.expiresAt, retryAfter := 0,
          reason := .allowed }, none)
  | none =>
    if request.cost > remaining then
      let reset := earliestLease leases
      (current, none,
        { allowed := false, limit, remaining, reset,
          retryAfter := max (timeSub reset request.now) 0,
          reason := .limited }, some .rejected)
    else
      let expiresAt := request.now + request.policy.lease
      ({ current with leases := leases.insert r.leaseID ⟨request.cost, expiresAt⟩ },
        some (makeLease { r with request } expiresAt),
        { allowed := true, limit, remaining := subWord remaining request.cost, reset := expiresAt,
          retryAfter := 0, reason := .allowed }, none)

def State.release (current : State) (lease : Lease) : State × Option Err :=
  match current.leases.lookup lease.id with
  | none => (current, some .leaseNotFound)
  | some existing =>
    if existing.cost ≠ lease.cost ∨ existing.expiresAt ≠ lease.expiresAt then
      (current, some .leaseNotOwned)
    else ({ current with leases := current.leases.erase lease.id }, none)

/-! ### Shards -/

structure Shard where
  maxKeys : Nat
  states : AList (fun _ : String => State)

/-- The states that may be evicted, those seen longest ago first. -/
def Shard.idle (target : Shard) (now : Int) : List (Sigma fun _ : String => State) :=
  (target.states.entries.filter fun entry => !hasActiveLease entry.2.leases now).insertionSort
    fun left right => left.2.lastSeen < right.2.lastSeen ∨
      (left.2.lastSeen = right.2.lastSeen ∧ left.1 ≤ right.1)

def Shard.evictOldest (target : Shard) (now : Int) : Option Shard :=
  match target.idle now with
  | [] => none
  | oldest :: _ => some { target with states := target.states.erase oldest.1 }

/-- The state of the key and the shard that has room for it. -/
def Shard.getOrCreate (target : Shard) (key : String) (request : Request) :
    Except Err (State × Shard) :=
  match target.states.lookup key with
  | some current => .ok (State.found (some current) request, target)
  | none =>
    if target.states.entries.length = target.maxKeys then
      match target.evictOldest request.now with
      | none => .error .unavailable
      | some target => .ok (State.found none request, target)
    else .ok (State.found none request, target)

/-- Runs a step on the state of the key, unless the state is of another algorithm. -/
def Shard.enter {α : Type} (target : Shard) (key : String) (request : Request)
    (failed : Err → α) (step : State → State × α) : Shard × α :=
  if (target.states.lookup key).any fun existing =>
    existing.algorithm ≠ request.policy.algorithm then
    (target, failed .corrupt)
  else
    match target.getOrCreate key request with
    | .error e => (target, failed e)
    | .ok (current, target) =>
      let (next, answer) := step current
      ({ target with states := target.states.insert key next }, answer)

def State.prune (current : State) (now : Int) : State :=
  { current with leases := current.leases.prune now }

/-- The state has no lease left and was not seen for as long as given. -/
def State.idle (current : State) (now idleFor : Int) : Bool :=
  current.leases.entries.isEmpty && !(current.lastSeen + idleFor > now)

/-- The shard without its expired leases and idle states, and the number of these. -/
def Shard.sweep (target : Shard) (now idleFor : Int) : Shard × Nat :=
  let pruned : List (Sigma fun _ : String => State) :=
    target.states.entries.map fun entry => ⟨entry.1, entry.2.prune now⟩
  let kept := pruned.filter fun entry => !entry.2.idle now idleFor
  ({ target with states := kept.toAList }, pruned.length - kept.length)

/-! ### The store -/

structure Options where
  maxKeys : Int
  shards : Int

structure Store where
  shards : List Shard
  closed : Bool
  nonempty : 0 < shards.length

def maxConfiguredKeys : Int := 1000000
def maxConfiguredShards : Int := 1024

def Store.new (options : Options) : Except Err Store :=
  let required := Err.invalidPolicy "positive cardinality and shard bounds are required"
  if options.maxKeys < 1 then .error required
  else if options.maxKeys > maxConfiguredKeys then .error required
  else if positive : options.shards ≤ 0 then .error required
  else if options.shards > maxConfiguredShards then .error required
  else if options.shards > options.maxKeys then .error required
  else
    let base := (options.maxKeys.tdiv options.shards).toNat
    let extra := (options.maxKeys.tmod options.shards).toNat
    .ok {
      shards := (List.range options.shards.toNat).map fun index =>
        ⟨if index < extra then base + 1 else base, ∅⟩
      closed := false
      nonempty := by simp; omega }

def stateKey (request : Request) : String := request.policy.id ++ "\x00" ++ request.key.value

def fnv64a (bytes : List UInt8) : UInt64 :=
  bytes.foldl (fun hash byte => (hash ^^^ byte.toUInt64) * 1099511628211) 14695981039346656037

def Store.shardIndex (store : Store) (key : String) : Nat :=
  (fnv64a key.toUTF8.data.toList).toNat % store.shards.length

theorem Store.shardIndex_lt (s : Store) (key : String) : s.shardIndex key < s.shards.length :=
  Nat.mod_lt _ s.nonempty

def Store.shardFor (store : Store) (key : String) : Shard :=
  store.shards.get ⟨store.shardIndex key, store.shardIndex_lt key⟩

def Store.setShard (store : Store) (key : String) (target : Shard) : Store where
  shards := store.shards.set (store.shardIndex key) target
  closed := store.closed
  nonempty := by simpa using store.nonempty

/-- A call of the store: what its context reports, if anything, and its arguments. -/
inductive Call where
  | admission (ctx : Option String) (request : Request)
  | acquire (ctx : Option String) (request : LeaseRequest)
  | release (ctx : Option String) (lease : Lease)
  | sweep (now : Int) (idleFor : Int)
  | close

inductive Reply where
  | admission (answer : Answer)
  | acquire (answer : LeaseAnswer)
  | release (err : Option Err)
  | sweep (removed : Except Err Nat)
  | close
  deriving DecidableEq

def Store.admission (store : Store) (ctx : Option String) (request : Request) : Store × Answer :=
  let failed (e : Err) : Answer := (.none, some e)
  if store.closed then (store, failed .unavailable)
  else match ctx with
  | some cause => (store, failed (.context cause))
  | none =>
    match request.validate with
    | .error e => (store, failed e)
    | .ok () =>
      if request.policy.algorithm = .concurrency then (store, failed .unsupported)
      else
        let request := request.canonical
        let key := stateKey request
        let (target, answer) := (store.shardFor key).enter key request failed (·.admission request)
        (store.setShard key target, answer)

def Store.acquire (store : Store) (ctx : Option String) (r : LeaseRequest) : Store × LeaseAnswer :=
  let failed (e : Err) : LeaseAnswer := (none, .none, some e)
  if store.closed then (store, failed .unavailable)
  else match ctx with
  | some cause => (store, failed (.context cause))
  | none =>
    match r.validate with
    | .error e => (store, failed e)
    | .ok () =>
      let r := { r with request := r.request.canonical }
      let key := stateKey r.request
      let (target, answer) := (store.shardFor key).enter key r.request failed (·.acquire r)
      (store.setShard key target, answer)

def leaseKey (lease : Lease) : String := lease.policyID ++ "\x00" ++ lease.key.value

def Store.release (store : Store) (ctx : Option String) (lease : Lease) : Store × Option Err :=
  if store.closed then (store, some .unavailable)
  else match ctx with
  | some cause => (store, some (.context cause))
  | none =>
    let key := leaseKey lease
    let target := store.shardFor key
    match target.states.lookup key with
    | none => (store, some .leaseNotFound)
    | some current =>
      let (next, err) := current.release lease
      (store.setShard key { target with states := target.states.insert key next }, err)

def Store.sweep (store : Store) (now : Int) (idleFor : Int) : Store × Except Err Nat :=
  if store.closed then (store, .error .unavailable)
  else if now = zeroTime then (store, .error (.invalidRequest ""))
  else if idleFor ≤ 0 then (store, .error (.invalidRequest ""))
  else
    let swept := store.shards.map (·.sweep now idleFor)
    ({ store with shards := swept.map Prod.fst, nonempty := by simpa [swept] using store.nonempty },
      .ok (swept.map Prod.snd).sum)

def Store.close (store : Store) : Store := { store with closed := true }

def Store.step (store : Store) : Call → Store × Reply
  | .admission ctx request => (store.admission ctx request).map id .admission
  | .acquire ctx request => (store.acquire ctx request).map id .acquire
  | .release ctx lease => (store.release ctx lease).map id .release
  | .sweep now idleFor => (store.sweep now idleFor).map id .sweep
  | .close => (store.close, .close)

end Golib.RateLimit.Memory
