import Golib.Lib.LinkedList
import Golib.Lib.Machine
import Golib.Lib.Runs

/-! The weighted semaphore and its callers. Each section under the mutex, and each of the two ways
out of a select, is one step of one call; a call is known by a number, and its waiter by the same
number. -/
namespace Golib.Semaphore

open Machine

/-! ### Data -/

inductive Cause where
  | canceled | deadlineExceeded
  deriving DecidableEq, Repr

inductive Error where
  | weight (weight capacity : Int) (oversize : Bool)
  | queueFull (maxWaiters : Int)
  | canceled (deadline : Bool)
  | closed
  | duplicateRelease (id : Nat)
  deriving DecidableEq, Repr

def canceledError (cause : Option Cause) : Error := .canceled (cause = some .deadlineExceeded)

structure Permit where
  id : Nat
  weight : Int
  released : Bool
  deriving DecidableEq, Repr

/-- A waiter without its neighbours: they are in the list of the semaphore. -/
structure Waiter where
  weight : Int
  ready : Bool
  permit : Option Nat
  err : Option Error
  deriving DecidableEq, Repr

inductive Op where
  | acquire (weight : Int)
  | tryAcquire (weight : Int)
  | release (permit : Nat)
  | close
  | wait
  deriving DecidableEq, Repr

/-- What a call returns: a permit, no permit and no error, an error, or nothing. -/
inductive Result where
  | permit (permit : Nat)
  | unavailable
  | failed (err : Error)
  | done
  deriving DecidableEq, Repr

inductive Pc where
  | start
  /-- The context was found done before the lock. -/
  | canceling (cause : Cause)
  /-- Before the lock of an acquisition. -/
  | entering
  /-- In the select, with a waiter in the queue when it got there. -/
  | queued
  /-- Past the select, before the second lock. -/
  | woken
  | draining (drained : Nat)
  | returned (result : Result)
  deriving DecidableEq, Repr

structure Call where
  op : Op
  ctx : Option Cause
  pc : Pc
  deriving DecidableEq, Repr

/-- The semaphore, the waiters, permits and channels that there are, and the calls. A pointer to a
permit and a channel are their numbers; a channel is closed or not. -/
structure State where
  capacity : Int
  acquired : Int
  maxWaiters : Int
  admissions : Nat
  rejections : Nat
  cancellations : Nat
  nextID : Nat
  closed : Bool
  drained : Option Nat
  waiterCount : Int
  waiters : LinkedList Nat
  waiter : Nat → Option Waiter
  permits : List Permit
  channels : List Bool
  calls : Nat → Option Call

/-- The capacity is an `int64`. -/
structure Config where
  capacity : Int
  maxWaiters : Int
  fits : InRange capacity

inductive ConfigError where
  | capacityMustBePositive | maxWaitersMustNotBeNegative | maxWaitersExceedsBound
  deriving DecidableEq, Repr

def maxWaiters : Int := 1000000

def State.new (config : Config) : Except ConfigError State :=
  if config.capacity ≤ 0 then .error .capacityMustBePositive
  else if config.maxWaiters < 0 then .error .maxWaitersMustNotBeNegative
  else if config.maxWaiters > Semaphore.maxWaiters then .error .maxWaitersExceedsBound
  else .ok {
    capacity := config.capacity
    acquired := 0
    maxWaiters := config.maxWaiters
    admissions := 0
    rejections := 0
    cancellations := 0
    nextID := 0
    closed := false
    drained := none
    waiterCount := 0
    waiters := .empty
    waiter := fun _ => none
    permits := []
    channels := []
    calls := fun _ => none }

/-! ### Under the lock -/

def State.reject (s : State) : State := { s with rejections := addWord s.rejections 1 }

def State.cancel (s : State) : State := { s with cancellations := addWord s.cancellations 1 }

def State.available (s : State) : Int := int64 (s.capacity - s.acquired)

/-- The permit is the last one of the state. -/
def State.grantLocked (s : State) (weight : Int) : State :=
  { s with
    nextID := addWord s.nextID 1
    acquired := int64 (s.acquired + weight)
    admissions := addWord s.admissions 1
    permits := s.permits ++ [⟨addWord s.nextID 1, weight, false⟩] }

def State.enqueueWaiterLocked (s : State) (c : Nat) (weight : Int) : State :=
  { s with
    waiter := Function.update s.waiter c (some ⟨weight, false, none, none⟩)
    waiters := (s.waiters.alloc c).push c
    waiterCount := int64 (s.waiterCount + 1) }

def State.removeWaiterLocked (s : State) (c : Nat) : State :=
  { s with waiters := s.waiters.remove c, waiterCount := int64 (s.waiterCount - 1) }

/-- A waiter is told by its channel, with a permit or an error. -/
def State.notify (s : State) (c : Nat) (waiter : Waiter) : State :=
  { s with waiter := Function.update s.waiter c (some { waiter with ready := true }) }

/-- The loop ends by itself before the fuel does when this is the number of waiters. -/
def State.grantWaiters : Nat → State → State
  | 0, s => s
  | n + 1, s =>
    match s.waiters.head with
    | none => s
    | some c =>
      match s.waiter c with
      | none => s
      | some waiter =>
        if s.available < waiter.weight then s
        else
          let removed := s.removeWaiterLocked c
          let granted := removed.grantLocked waiter.weight
          (granted.notify c { waiter with permit := some removed.permits.length }).grantWaiters n

def State.grantWaitersLocked (s : State) : State := s.grantWaiters s.waiterCount.toNat

def State.rejectWaiters : Nat → State → State
  | 0, s => s
  | n + 1, s =>
    match s.waiters.head with
    | none => s
    | some c =>
      match s.waiter c with
      | none => s
      | some waiter =>
        (((s.removeWaiterLocked c).notify c
          { waiter with err := some .closed }).reject).rejectWaiters n

def State.closeLocked (s : State) : State :=
  if s.closed then s else { s with closed := true }.rejectWaiters s.waiterCount.toNat

def State.closeDrained (s : State) : State :=
  match s.drained with
  | none => s
  | some d =>
    if s.acquired = 0 then { s with drained := none, channels := s.channels.set d true } else s

/-! ### Calls -/

def State.setCall (s : State) (c : Nat) (call : Call) : State :=
  { s with calls := Function.update s.calls c (some call) }

def State.finish (s : State) (c : Nat) (call : Call) (result : Result) : State :=
  s.setCall c { call with pc := .returned result }

def State.validateWeight (s : State) (weight : Int) : Option Error :=
  if weight ≤ 0 then some (.weight weight s.capacity false)
  else if weight > s.capacity then some (.weight weight s.capacity true)
  else none

/-- The first section of an acquisition under the lock. -/
def State.enter (s : State) (c : Nat) (call : Call) (weight : Int) : State :=
  if s.closed then s.reject.finish c call (.failed .closed)
  else if s.waiterCount = 0 ∧ s.available ≥ weight then
    (s.grantLocked weight).finish c call (.permit s.permits.length)
  else if s.waiterCount ≥ s.maxWaiters then
    s.reject.finish c call (.failed (.queueFull s.maxWaiters))
  else (s.enqueueWaiterLocked c weight).setCall c { call with pc := .queued }

/-- The second section of an acquisition under the lock. -/
def State.settle (s : State) (c : Nat) (call : Call) (waiter : Waiter) : State :=
  match waiter.permit, waiter.err with
  | some permit, _ => s.finish c call (.permit permit)
  | none, some err => s.finish c call (.failed err)
  | none, none =>
    (s.removeWaiterLocked c).cancel.grantWaitersLocked.finish c call
      (.failed (canceledError call.ctx))

def State.tryAcquire (s : State) (c : Nat) (call : Call) (weight : Int) : State :=
  match s.validateWeight weight with
  | some err => s.reject.finish c call (.failed err)
  | none =>
    if s.closed then s.reject.finish c call (.failed .closed)
    else if s.waiterCount ≠ 0 ∨ s.available < weight then s.reject.finish c call .unavailable
    else (s.grantLocked weight).finish c call (.permit s.permits.length)

def State.release (s : State) (c : Nat) (call : Call) (p : Nat) (permit : Permit) : State :=
  if permit.released then s.finish c call (.failed (.duplicateRelease permit.id))
  else
    ({ s with
      permits := s.permits.set p { permit with released := true }
      acquired := int64 (s.acquired - permit.weight) }.grantWaitersLocked.closeDrained).finish c
        call
        .done

def State.wait (s : State) (c : Nat) (call : Call) : State :=
  if s.acquired = 0 then s.finish c call .done
  else
    match s.drained with
    | some d => s.setCall c { call with pc := .draining d }
    | none =>
      { s with drained := some s.channels.length, channels := s.channels ++ [false] }.setCall c
        { call with pc := .draining s.channels.length }

/-! ### Steps -/

inductive Label where
  /-- A new call; a permit to release is that of a call that returned it. -/
  | acquire (c : Nat) (weight : Int)
  | tryAcquire (c : Nat) (weight : Int)
  | release (c : Nat) (owner : Nat)
  | close (c : Nat)
  | wait (c : Nat)
  /-- The context of a call is done. -/
  | cancel (c : Nat) (cause : Cause)
  /-- The call goes on. -/
  | run (c : Nat)
  /-- The call leaves a select by its context. -/
  | expire (c : Nat)
  deriving DecidableEq, Repr

def State.invoke (s : State) (c : Nat) (op : Op) : Option State :=
  match s.calls c with
  | some _ => none
  | none => some (s.setCall c ⟨op, none, .start⟩)

/-- The next section of a call; none when it waits or has returned. -/
def State.run (s : State) (c : Nat) (call : Call) : Option State :=
  match call.op, call.pc with
  | .acquire weight, .start =>
    match s.validateWeight weight, call.ctx with
    | some err, _ => some (s.reject.finish c call (.failed err))
    | none, some cause => some (s.setCall c { call with pc := .canceling cause })
    | none, none => some (s.setCall c { call with pc := .entering })
  | .acquire _, .canceling cause =>
    some (s.cancel.finish c call (.failed (canceledError (some cause))))
  | .acquire weight, .entering => some (s.enter c call weight)
  | .acquire _, .queued =>
    (s.waiter c).bind fun waiter =>
      if waiter.ready then some (s.setCall c { call with pc := .woken }) else none
  | .acquire _, .woken => (s.waiter c).map (s.settle c call)
  | .tryAcquire weight, .start => some (s.tryAcquire c call weight)
  | .release p, .start => s.permits[p]?.map (s.release c call p)
  | .close, .start => some (s.closeLocked.finish c call .done)
  | .wait, .start => some (s.wait c call)
  | .wait, .draining d => if s.channels[d]? = some true then some (s.finish c call .done) else none
  | _, _ => none

def State.expire (s : State) (c : Nat) (call : Call) : Option State :=
  match call.ctx, call.pc with
  | some _, .queued => some (s.setCall c { call with pc := .woken })
  | some cause, .draining _ => some (s.finish c call (.failed (canceledError (some cause))))
  | _, _ => none

def State.step (s : State) : Label → Option State
  | .acquire c weight => s.invoke c (.acquire weight)
  | .tryAcquire c weight => s.invoke c (.tryAcquire weight)
  | .release c owner =>
    match s.calls owner with
    | some ⟨_, _, .returned (.permit p)⟩ => s.invoke c (.release p)
    | _ => none
  | .close c => s.invoke c .close
  | .wait c => s.invoke c .wait
  | .cancel c cause =>
    (s.calls c).bind fun call =>
      if call.ctx = none then some (s.setCall c { call with ctx := some cause }) else none
  | .run c => (s.calls c).bind (s.run c)
  | .expire c => (s.calls c).bind (s.expire c)

end Golib.Semaphore
