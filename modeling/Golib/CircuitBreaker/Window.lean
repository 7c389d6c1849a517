import Mathlib.Data.Rat.Defs

/-! The rolling windows of outcomes: the last records, or aggregates in buckets of time. Instants
are in nanoseconds. -/
namespace Golib.CircuitBreaker

inductive Outcome where
  | success | failure | ignored
  deriving DecidableEq, Repr

structure Record where
  outcome : Outcome
  slow : Bool
  deriving DecidableEq, Repr

structure Aggregate where
  classified : Nat := 0
  successes : Nat := 0
  failures : Nat := 0
  ignored : Nat := 0
  slowSuccess : Nat := 0
  slowFailure : Nat := 0
  deriving DecidableEq, Repr

namespace Aggregate

def add (s : Aggregate) (record : Record) : Aggregate :=
  match record.outcome with
  | .success => { s with
      classified := s.classified + 1
      successes := s.successes + 1
      slowSuccess := if record.slow then s.slowSuccess + 1 else s.slowSuccess }
  | .failure => { s with
      classified := s.classified + 1
      failures := s.failures + 1
      slowFailure := if record.slow then s.slowFailure + 1 else s.slowFailure }
  | .ignored => { s with ignored := s.ignored + 1 }

def remove (s : Aggregate) (record : Record) : Aggregate :=
  match record.outcome with
  | .success => { s with
      classified := s.classified - 1
      successes := s.successes - 1
      slowSuccess := if record.slow then s.slowSuccess - 1 else s.slowSuccess }
  | .failure => { s with
      classified := s.classified - 1
      failures := s.failures - 1
      slowFailure := if record.slow then s.slowFailure - 1 else s.slowFailure }
  | .ignored => s

def merge (destination source : Aggregate) : Aggregate where
  classified := destination.classified + source.classified
  successes := destination.successes + source.successes
  failures := destination.failures + source.failures
  ignored := destination.ignored + source.ignored
  slowSuccess := destination.slowSuccess + source.slowSuccess
  slowFailure := destination.slowFailure + source.slowFailure

end Aggregate

structure Count where
  records : List Record
  next : Nat
  length : Nat
  snapshot : Aggregate
  deriving DecidableEq, Repr

def newCount (size : Nat) : Count := ⟨List.replicate size ⟨.success, false⟩, 0, 0, {}⟩

def Count.add (w : Count) (record : Record) : Count :=
  if record.outcome = .ignored then { w with snapshot := w.snapshot.add record }
  else
    let full := w.length = w.records.length
    let snapshot := if full then (w.records[w.next]?.map w.snapshot.remove).getD w.snapshot
      else w.snapshot
    { records := w.records.set w.next record
      next := (w.next + 1) % w.records.length
      length := if full then w.length else w.length + 1
      snapshot := snapshot.add record }

structure TimeBucket where
  id : Int := 0
  occupied : Bool := false
  snapshot : Aggregate := {}
  deriving DecidableEq, Repr

/-- Aggregates in a fixed number of buckets; a bucket is known by the number of bucket durations
since the epoch. -/
structure TimeWindow where
  bucketDuration : Int
  buckets : List TimeBucket
  lastBucketID : Int
  initialized : Bool
  deriving DecidableEq, Repr

def newTime (bucketDuration : Int) (bucketCount : Nat) : TimeWindow :=
  ⟨bucketDuration, List.replicate bucketCount {}, 0, false⟩

namespace TimeWindow

/-- The latest bucket seen, so that a clock that runs back resurrects nothing. -/
def observe (w : TimeWindow) (at_ : Int) : TimeWindow :=
  let id := at_ / w.bucketDuration
  if !w.initialized then { w with lastBucketID := id, initialized := true }
  else if id > w.lastBucketID then { w with lastBucketID := id }
  else w

def index (w : TimeWindow) (id : Int) : Nat := (id % w.buckets.length).toNat

def add (w : TimeWindow) (at_ : Int) (record : Record) : TimeWindow :=
  let w := w.observe at_
  let id := w.lastBucketID
  let index := w.index id
  let bucket := w.buckets.getD index {}
  let bucket := if !bucket.occupied || bucket.id ≠ id then
    { id := id, occupied := true } else bucket
  { w with buckets := w.buckets.set index { bucket with snapshot := bucket.snapshot.add record } }

def snapshot (w : TimeWindow) : Aggregate :=
  let current := w.lastBucketID
  let oldest := current - (w.buckets.length - 1)
  w.buckets.foldl (fun total bucket =>
    if bucket.occupied && oldest ≤ bucket.id && bucket.id ≤ current then
      total.merge bucket.snapshot
    else total) {}

end TimeWindow

inductive RollingWindow where
  | count (value : Count)
  | time (value : TimeWindow)
  deriving DecidableEq, Repr

namespace RollingWindow

def add (w : RollingWindow) (at_ : Int) (record : Record) : RollingWindow :=
  match w with
  | .count value => .count (value.add record)
  | .time value => .time (value.add at_ record)

/-- Reading a window of time moves it on to the instant. -/
def observe (w : RollingWindow) (at_ : Int) : RollingWindow :=
  match w with
  | .count value => .count value
  | .time value => .time (value.observe at_)

def snapshot (w : RollingWindow) : Aggregate :=
  match w with
  | .count value => value.snapshot
  | .time value => value.snapshot

end RollingWindow

end Golib.CircuitBreaker
