import Mathlib.Algebra.Order.BigOperators.Group.List
import Golib.Semaphore.State

/-! What holds of the semaphore between two sections under its lock: the books on its permits, the
queue of its waiters, and where each of its callers is. -/
namespace Golib.Semaphore

open Machine Function List
variable {queued : Prop} {call : Call} {permits : List Permit} {p : Nat} {permit : Permit}
  {capacity : Int} {w : Option Waiter}

/-! ### Permits -/

/-- The weights that are granted and not released. -/
def outstanding (permits : List Permit) : Int :=
  (permits.map fun permit => if permit.released then 0 else permit.weight).sum

theorem outstanding_append (permits : List Permit) (permit : Permit) :
    outstanding (permits ++ [permit]) =
      outstanding permits + if permit.released then 0 else permit.weight := by
  simp [outstanding]

theorem outstanding_release (there : permits[p]? = some permit) (held : permit.released = false) :
    outstanding (permits.set p { permit with released := true }) =
      outstanding permits - permit.weight := by
  induction permits generalizing p with
  | nil => cases there
  | cons first rest ih =>
    cases p with
    | zero =>
      cases there
      simp [outstanding, held]
    | succ p =>
      have rest_ := ih there
      unfold outstanding at rest_ ⊢
      rw [set_cons_succ, map_cons, sum_cons, rest_, map_cons, sum_cons]
      omega

theorem outstanding_nonneg (weights : ∀ permit ∈ permits, 0 < permit.weight) :
    0 ≤ outstanding permits := by
  refine sum_nonneg fun x mem => ?_
  obtain ⟨permit, sub, rfl⟩ := mem_map.mp mem
  split
  · exact le_refl _
  · exact (weights permit sub).le

/-- The books: what is acquired is what is outstanding, and within the capacity. -/
structure Accounts (capacity acquired : Int) (permits : List Permit) : Prop where
  positive : 0 < capacity ∧ capacity ≤ maxInt64
  weights : ∀ permit ∈ permits, 0 < permit.weight
  booked : acquired = outstanding permits
  within : acquired ≤ capacity

section

variable {capacity acquired : Int} {permits : List Permit}
  (accounts : Accounts capacity acquired permits)

include accounts

theorem Accounts.nonneg : 0 ≤ acquired := accounts.booked ▸ outstanding_nonneg accounts.weights

theorem Accounts.available : int64 (capacity - acquired) = capacity - acquired := by
  have nonneg := accounts.nonneg
  obtain ⟨⟨-, most⟩, -, -, within⟩ := accounts
  unfold maxInt64 at most
  exact int64_eq (inRange_iff.mpr ⟨by omega, by omega⟩)

theorem Accounts.grant {weight : Int} (some : 0 < weight) (room : weight ≤ capacity - acquired)
    (id : Nat) : Accounts capacity (int64 (acquired + weight)) (permits ++ [⟨id, weight, false⟩]) ∧
      int64 (acquired + weight) = acquired + weight := by
  have nonneg := accounts.nonneg
  obtain ⟨⟨pos, most⟩, weights, eq, within⟩ := accounts
  have sum : int64 (acquired + weight) = acquired + weight := by
    unfold maxInt64 at most
    exact int64_eq (inRange_iff.mpr ⟨by omega, by omega⟩)
  rw [sum]
  refine ⟨⟨⟨pos, most⟩, ?_, ?_, by omega⟩, rfl⟩
  · intro permit mem
    rcases mem_append.mp mem with old | new
    · exact weights permit old
    · rw [mem_singleton.mp new]
      exact some
  · rw [outstanding_append, eq]
    simp

theorem Accounts.release (there : permits[p]? = some permit) (held : permit.released = false) :
    Accounts capacity (int64 (acquired - permit.weight))
      (permits.set p { permit with released := true }) := by
  obtain ⟨⟨pos, most⟩, weights, eq, within⟩ := accounts
  have weight := weights permit (mem_of_getElem? there)
  have weights' : ∀ other ∈ permits.set p { permit with released := true }, 0 < other.weight := by
    intro other mem
    rcases mem_or_eq_of_mem_set mem with old | rfl
    · exact weights other old
    · exact weight
  have left := outstanding_nonneg weights'
  rw [outstanding_release there held] at left
  have difference : int64 (acquired - permit.weight) = acquired - permit.weight := by
    unfold maxInt64 at most
    exact int64_eq (inRange_iff.mpr ⟨by omega, by omega⟩)
  rw [difference]
  refine ⟨⟨pos, most⟩, weights', ?_, by omega⟩
  rw [outstanding_release there held, eq]

end

/-! ### The queue -/

structure Line (waiters : LinkedList Nat) (count most : Int) (queue : List Nat) : Prop where
  list : waiters.Holds queue
  counted : count = queue.length
  room : count ≤ most
  bound : most ≤ Semaphore.maxWaiters

section

variable {waiters : LinkedList Nat} {count most : Int} {queue : List Nat}
  (line : Line waiters count most queue) {c : Nat}

include line

theorem Line.enqueue (new : c ∉ queue) (room : count < most) :
    Line ((waiters.alloc c).push c) (int64 (count + 1)) most (queue ++ [c]) := by
  obtain ⟨list, eq, -, bound⟩ := line
  obtain ⟨list', unlinked⟩ := list.alloc new
  unfold Semaphore.maxWaiters at bound
  have sum : int64 (count + 1) = count + 1 := int64_eq (inRange_iff.mpr ⟨by omega, by omega⟩)
  rw [sum]
  refine ⟨list'.push new unlinked, ?_, by omega, bound⟩
  rw [length_append, eq]
  rfl

theorem Line.remove {front back : List Nat} (split : queue = front ++ c :: back) :
    Line (waiters.remove c) (int64 (count - 1)) most (front ++ back) := by
  obtain ⟨list, eq, room, bound⟩ := line
  subst split
  rw [length_append, length_cons] at eq
  unfold Semaphore.maxWaiters at bound
  have difference : int64 (count - 1) = count - 1 := int64_eq (inRange_iff.mpr ⟨by omega, by omega⟩)
  refine ⟨list.remove, ?_, by omega, bound⟩
  rw [length_append]
  omega

theorem Line.head : waiters.head = queue.head? := line.list.head

theorem Line.length : count.toNat = queue.length := by
  rw [line.counted]
  rfl

end

/-! ### Callers -/

/-- Where a call with a waiter is: it waits in the queue, it was granted a permit or refused for the
close, and returns just that, or it returned that its context is done. -/
inductive Stage (queued : Prop) (waiter : Waiter) (ctx : Option Cause) (pc : Pc) : Prop where
  | waiting (inside : queued) (at_ : pc = .queued ∨ pc = .woken ∧ ctx ≠ none)
      (open_ : waiter.ready = false) (permit : waiter.permit = none) (err : waiter.err = none)
  | granted (p : Nat) (outside : ¬ queued)
      (at_ : pc = .queued ∨ pc = .woken ∨ pc = .returned (.permit p))
      (told : waiter.ready = true) (permit : waiter.permit = some p) (err : waiter.err = none)
  | refused (outside : ¬ queued)
      (at_ : pc = .queued ∨ pc = .woken ∨ pc = .returned (.failed .closed))
      (told : waiter.ready = true) (permit : waiter.permit = none) (err : waiter.err = some .closed)
  | canceled (cause : Cause) (outside : ¬ queued) (done : ctx = some cause)
      (at_ : pc = .returned (.failed (canceledError (some cause))))
      (permit : waiter.permit = none) (err : waiter.err = none)

/-- The call has no waiter and has not returned. -/
def Pc.Free (pc : Pc) : Prop := pc ≠ .queued ∧ pc ≠ .woken ∧ ∀ result, pc ≠ .returned result

/-- A call that was told, or whose context is done, leaves its select. -/
theorem Stage.wake {w : Waiter} {ctx : Option Cause} {pc : Pc}
    (stage : Stage queued w ctx pc) (at_ : pc = .queued)
    (free : w.ready = true ∨ ctx ≠ none) : Stage queued w ctx .woken := by
  subst at_
  cases stage with
  | waiting sub _ open_ permit err =>
    exact .waiting sub (Or.inr ⟨rfl, free.resolve_left (by simp [open_])⟩) open_ permit err
  | granted p outside _ told permit err =>
    exact .granted p outside (Or.inr (Or.inl rfl)) told permit err
  | refused outside _ told permit err =>
    exact .refused outside (Or.inr (Or.inl rfl)) told permit err
  | canceled cause outside done elsewhere => cases elsewhere

inductive Caller (capacity : Int) (queued : Prop) : Option Waiter → Option Call → Prop where
  | absent (outside : ¬ queued) : Caller capacity queued none none
  | outside {call : Call} (outside : ¬ queued) (at_ : call.pc ≠ .queued ∧ call.pc ≠ .woken)
      (checked : ∀ weight, call.op = .acquire weight → call.pc = .entering →
        0 < weight ∧ weight ≤ capacity) : Caller capacity queued none (some call)
  | inside {waiter : Waiter} {call : Call} (weight : 0 < waiter.weight ∧ waiter.weight ≤ capacity)
      (op : call.op = .acquire waiter.weight) (stage : Stage queued waiter call.ctx call.pc) :
      Caller capacity queued (some waiter) (some call)

/-- The permit that was granted to a call, returned to it or not. -/
def grantOf (waiter : Option Waiter) (call : Option Call) : Option Nat :=
  match call.map Call.pc with
  | some (.returned (.permit p)) => some p
  | _ => waiter.bind Waiter.permit

theorem grantOf_other (other : ∀ p, call.pc ≠ .returned (.permit p)) :
    grantOf w (some call) = w.bind Waiter.permit := by
  unfold grantOf
  split
  · rename_i eq
    exact absurd (Option.some.inj eq) (other _)
  · rfl

/-- Every call is where it should be, and every permit was granted to one call. -/
structure Callers (capacity : Int) (waiter : Nat → Option Waiter) (calls : Nat → Option Call)
    (queue owners : List Nat) : Prop where
  each : ∀ c, Caller capacity (c ∈ queue) (waiter c) (calls c)
  grants : ∀ c p, grantOf (waiter c) (calls c) = some p ↔ owners[p]? = some c

section

variable {capacity : Int} {w : Nat → Option Waiter} {calls : Nat → Option Call}
  {queue queue' owners : List Nat} (callers : Callers capacity w calls queue owners) {c : Nat}
  (others : ∀ d, d ≠ c → (d ∈ queue' ↔ d ∈ queue)) {waiter' : Option Waiter} {call' : Option Call}
  (here : Caller capacity (c ∈ queue') waiter' call')

include callers others here

theorem Callers.each_change (d : Nat) :
    Caller capacity (d ∈ queue') (update w c waiter' d) (update calls c call' d) := by
  by_cases eq : d = c
  · subst eq
    rw [update_self, update_self]
    exact here
  · rw [update_of_ne eq, update_of_ne eq, others d eq]
    exact callers.each d

theorem Callers.change (eq : grantOf waiter' call' = grantOf (w c) (calls c)) :
    Callers capacity (update w c waiter') (update calls c call') queue' owners := by
  refine ⟨callers.each_change others here, fun d p => ?_⟩
  by_cases at_ : d = c
  · subst at_
    rw [update_self, update_self, eq]
    exact callers.grants d p
  · rw [update_of_ne at_, update_of_ne at_]
    exact callers.grants d p

theorem Callers.grant (none : grantOf (w c) (calls c) = none)
    (next : grantOf waiter' call' = some owners.length) :
    Callers capacity (update w c waiter') (update calls c call') queue' (owners ++ [c]) := by
  refine ⟨callers.each_change others here, fun d p => ?_⟩
  by_cases at_ : d = c
  · subst at_
    have new : owners[p]? ≠ some d := fun owned => by
      rw [(callers.grants d p).mpr owned] at none
      cases none
    rw [update_self, update_self, next, getElem?_append]
    split
    · rename_i less
      exact ⟨fun eq => absurd (Option.some.inj eq) (by omega), fun owned => absurd owned new⟩
    · rename_i beyond
      rw [getElem?_singleton]
      constructor
      · intro eq
        rw [if_pos (by rw [Option.some.inj eq]; omega)]
      · intro owned
        split at owned
        · rw [(by omega : p = owners.length)]
        · cases owned
  · rw [update_of_ne at_, update_of_ne at_, callers.grants d p, getElem?_append]
    split
    · rfl
    · rename_i beyond
      rw [getElem?_eq_none (by omega)]
      refine ⟨nofun, fun owned => ?_⟩
      exact absurd (mem_singleton.mp (mem_of_getElem? owned)) at_

end

theorem Caller.outside_of (caller : Caller capacity queued w (some call)) (at_ : call.pc.Free) :
    w = none ∧ ¬ queued ∧ grantOf w (some call) = none := by
  obtain ⟨queued, woken, returned⟩ := at_
  cases caller with
  | outside outside =>
    exact ⟨rfl, outside, grantOf_other fun p => returned _⟩
  | inside weight op stage =>
    exfalso
    cases stage with
    | waiting sub at_ => exact at_.elim queued fun other => woken other.1
    | granted p outside at_ => exact at_.elim queued fun other => other.elim woken (returned _)
    | refused outside at_ => exact at_.elim queued fun other => other.elim woken (returned _)
    | canceled cause outside done at_ => exact returned _ at_

theorem Caller.inside_of {waiter : Option Waiter} {call : Option Call}
    (caller : Caller capacity queued waiter call) (sub : queued) :
    ∃ w a, waiter = some w ∧ call = some a ∧ (0 < w.weight ∧ w.weight ≤ capacity) ∧
      a.op = .acquire w.weight ∧ (a.pc = .queued ∨ a.pc = .woken) ∧ w.permit = none ∧ w.err = none ∧
      grantOf waiter call = none := by
  cases caller with
  | absent outside => exact absurd sub outside
  | outside outside => exact absurd sub outside
  | @inside w a weight op stage =>
    cases stage with
    | waiting sub at_ open_ permit err =>
      have at' : a.pc = .queued ∨ a.pc = .woken := at_.imp_right And.left
      refine ⟨w, a, rfl, rfl, weight, op, at', permit, err,
        (grantOf_other fun p eq => ?_).trans permit⟩
      simp [eq] at at'
    | granted p outside => exact absurd sub outside
    | refused outside => exact absurd sub outside
    | canceled cause outside => exact absurd sub outside

/-! ### The state -/

/-- What every section keeps, and every turn of the loops in it. -/
structure Good (s : State) (queue owners : List Nat) : Prop where
  accounts : Accounts s.capacity s.acquired s.permits
  line : Line s.waiters s.waiterCount s.maxWaiters queue
  callers : Callers s.capacity s.waiter s.calls queue owners
  owned : owners.length = s.permits.length

def State.Blocked (s : State) (queue : List Nat) : Prop :=
  ∀ c rest waiter, queue = c :: rest → s.waiter c = some waiter →
    s.capacity - s.acquired < waiter.weight

/-- What holds again at the end of a section: the first waiter does not fit, none waits at a closed
semaphore, and the one open channel is that of a semaphore in use. -/
structure Calm (s : State) (queue : List Nat) : Prop where
  blocked : s.Blocked queue
  shut : s.closed = true → queue = []
  current : ∀ d, s.channels[d]? = some false ↔ s.drained = some d
  busy : s.drained ≠ none → s.acquired ≠ 0

def Invariant (s : State) : Prop := ∃ queue owners, Good s queue owners ∧ Calm s queue

theorem new_invariant {cfg : Config} {s : State} (made : State.new cfg = .ok s) : Invariant s := by
  unfold State.new at made
  split_ifs at made with some least most
  cases made
  refine ⟨[], [], ⟨?_, ?_, ?_, rfl⟩, ?_⟩
  · exact ⟨⟨not_le.mp some, cfg.fits.2⟩, by simp, rfl, (not_le.mp some).le⟩
  · exact ⟨LinkedList.holds_empty, rfl, not_lt.mp least, not_lt.mp most⟩
  · exact ⟨fun c => .absent (by simp), fun c p => by simp [grantOf]⟩
  · exact ⟨by simp [State.Blocked], by simp, by simp, by simp⟩

end Golib.Semaphore
