import Golib.Semaphore.Sections

/-! Every step of a call keeps the invariant and takes no permit back from the call it was granted
to. -/
namespace Golib.Semaphore

open Machine List Option
open State

variable {s : State} {q owners queue' owners' : List Nat}

/-! ### Counters and calls -/

section

variable {s : State} {q owners : List Nat}

theorem Good.reject (good : Good s q owners) : Good s.reject q owners :=
  ⟨good.accounts, good.line, good.callers, good.owned⟩

theorem Good.cancel (good : Good s q owners) : Good s.cancel q owners :=
  ⟨good.accounts, good.line, good.callers, good.owned⟩

theorem Calm.reject (calm : Calm s q) : Calm s.reject q :=
  ⟨calm.blocked, calm.shut, calm.current, calm.busy⟩

theorem Calm.cancel (calm : Calm s q) : Calm s.cancel q :=
  ⟨calm.blocked, calm.shut, calm.current, calm.busy⟩

theorem Calm.setCall (calm : Calm s q) (c : Nat) (call : Call) : Calm (s.setCall c call) q :=
  ⟨calm.blocked, calm.shut, calm.current, calm.busy⟩

end

theorem grantWaiters_setCall (n : Nat) (s : State) (c : Nat) (call : Call) :
    (s.setCall c call).grantWaiters n = (s.grantWaiters n).setCall c call := by
  induction n generalizing s with
  | zero => rfl
  | succ n ih =>
    unfold grantWaiters
    have head : (s.setCall c call).waiters.head = s.waiters.head := rfl
    rw [head]
    cases s.waiters.head with
    | none => rfl
    | some d =>
      have same : (s.setCall c call).waiter d = s.waiter d := rfl
      dsimp only
      rw [same]
      cases s.waiter d with
      | none => rfl
      | some waiter =>
        change (if s.available < waiter.weight then _ else _) = _
        dsimp only
        split
        · rfl
        · exact ih (((s.removeWaiterLocked d).grantLocked waiter.weight).notify d
            { waiter with permit := some (s.removeWaiterLocked d).permits.length })

/-- The calls in the order of their permits, with the queue behind them: what becomes of it. The
permits stay where they were, a call may leave, and calls that did not wait come behind all
others. -/
structure Orders (waiter : Nat → Option Waiter) (queue owners : List Nat)
    (waiter' : Nat → Option Waiter) (queue' owners' : List Nat) : Prop where
  permits : owners <+: owners'
  waited : ∀ c, waiter c ≠ none → waiter' c ≠ none
  order : ∃ arrived, (owners' ++ queue').Sublist (owners ++ queue ++ arrived) ∧
    ∀ c ∈ arrived, waiter c = none

theorem Orders.refl (w : Nat → Option Waiter) (q owners : List Nat) :
    Orders w q owners w q owners :=
  ⟨prefix_refl _, fun _ => id, [], by simp, by simp⟩

theorem Orders.trans {queue'' owners'' : List Nat} {w waiter' waiter'' : Nat → Option Waiter}
    (first : Orders w q owners waiter' queue' owners')
    (second : Orders waiter' queue' owners' waiter'' queue'' owners'') :
    Orders w q owners waiter'' queue'' owners'' := by
  obtain ⟨arrived, order, new⟩ := first.order
  obtain ⟨arrived', order', new'⟩ := second.order
  refine ⟨first.permits.trans second.permits, fun c there => second.waited c (first.waited c there),
    arrived ++ arrived', ?_, fun c member => ?_⟩
  · rw [← append_assoc]
    exact order'.trans (order.append_right arrived')
  · rcases mem_append.mp member with early | late
    · exact new c early
    · by_contra there
      exact first.waited c there (new' c late)

theorem grantWaitersLocked_good (good : Good s q owners) (shut : s.closed = true → q = []) :
    ∃ queue' owners', Good s.grantWaitersLocked queue' owners' ∧
      Orders s.waiter q owners s.grantWaitersLocked.waiter queue' owners' ∧
      s.grantWaitersLocked.Blocked queue' ∧ (s.grantWaitersLocked.closed = true → queue' = []) ∧
      s.acquired ≤ s.grantWaitersLocked.acquired := by
  obtain ⟨queue', owners', after, longer, order, more, blocked⟩ :=
    good.grantWaiters (Nat.le_of_eq good.line.length.symm)
  refine ⟨queue', owners', after, ⟨longer, (grantWaiters_same _ s).waited, [], ?_,
    by simp⟩, blocked,
    fun closed => ?_, more⟩
  · rw [order, append_nil]
  · rw [grantWaitersLocked, (grantWaiters_same _ s).closed] at closed
    obtain ⟨new, rfl⟩ := longer
    rw [shut closed, append_assoc, append_right_inj] at order
    exact (append_eq_nil_iff.mp order).2

theorem closeDrained_same (s : State) :
    s.closeDrained.calls = s.calls ∧ s.closeDrained.waiter = s.waiter := by
  unfold closeDrained
  split
  · exact ⟨rfl, rfl⟩
  · split <;> exact ⟨rfl, rfl⟩

theorem closeDrained_good (good : Good s q owners) (blocked : s.Blocked q)
    (shut : s.closed = true → q = []) (cur : ∀ d,
      s.channels[d]? = some false ↔ s.drained = some d) :
    Good s.closeDrained q owners ∧ Calm s.closeDrained q := by
  unfold closeDrained
  split
  · rename_i idle
    exact ⟨good, ⟨blocked, shut, cur, fun open_ => absurd idle open_⟩⟩
  · rename_i d open_
    split
    · refine ⟨⟨good.accounts, good.line, good.callers, good.owned⟩,
        ⟨blocked, shut, fun e => ?_, fun none => absurd rfl none⟩⟩
      rw [getElem?_set]
      split
      · split <;> simp
      · rename_i other
        rw [cur e, open_]
        simp [other]
    · rename_i used
      exact ⟨good, ⟨blocked, shut, cur, fun _ => used⟩⟩

/-- The invariant again, and in order. -/
def Keeps (waiter : Nat → Option Waiter) (queue owners : List Nat) (s : State) : Prop :=
  ∃ queue' owners', Good s queue' owners' ∧ Calm s queue' ∧
    Orders waiter queue owners s.waiter queue' owners'

theorem Keeps.after {w waiter' : Nat → Option Waiter}
    (first : Orders w q owners waiter' queue' owners')
    (keeps : Keeps waiter' queue' owners' s) : Keeps w q owners s := by
  obtain ⟨queue'', owners'', good, calm, order⟩ := keeps
  exact ⟨queue'', owners'', good, calm, first.trans order⟩

section

variable {s s' : State} {q owners : List Nat} (good : Good s q owners) (calm : Calm s q) {c : Nat}
  {call : Call}

include good calm

theorem keeps_setCall (here : Caller s.capacity (c ∈ q) (s.waiter c) (some call))
    (eq : grantOf (s.waiter c) (some call) = grantOf (s.waiter c) (s.calls c)) :
    Keeps s.waiter q owners (s.setCall c call) :=
  ⟨q, owners, good.setCall here eq, calm.setCall c call, .refl ..⟩

variable (there : s.calls c = some call) {weight : Int} {w : Waiter}

include there

theorem keeps_outside {pc : Pc}
    (at_ : call.pc.Free)
    (next : pc ≠ .queued ∧ pc ≠ .woken ∧ ∀ p, pc ≠ .returned (.permit p))
    (checked : ∀ weight, call.op = .acquire weight → pc = .entering →
      0 < weight ∧ weight ≤ s.capacity) :
    Keeps s.waiter q owners (s.setCall c { call with pc }) := by
  have caller := good.caller there
  obtain ⟨absent, outside, ungranted⟩ := caller.outside_of at_
  refine keeps_setCall good calm ?_ ?_
  · rw [absent]
    exact .outside outside ⟨next.1, next.2.1⟩ checked
  · rw [there, ungranted, absent]
    exact grantOf_other next.2.2

theorem keeps_finish {result : Result} (at_ : call.pc.Free) (other : ∀ p, result ≠ .permit p) :
    Keeps s.waiter q owners (s.finish c call result) := by
  refine keeps_outside good calm there at_ ⟨by simp, by simp, fun p eq => ?_⟩ (by simp)
  exact other p (Pc.returned.inj eq)

theorem keeps_grant (at_ : call.pc.Free) (pos : 0 < weight) (none : s.waiterCount = 0)
    (room : s.available ≥ weight) :
    Keeps s.waiter q owners ((s.grantLocked weight).finish c call (.permit s.permits.length)) := by
  have available : s.available = s.capacity - s.acquired := good.accounts.available
  rw [available] at room
  obtain ⟨-, sum⟩ := good.accounts.grant pos room 0
  have empty : q = [] := length_eq_zero_iff.mp (by have := good.line.counted; omega)
  have nonneg := good.accounts.nonneg
  have granted := good.grantNow there at_ pos room
  subst empty
  refine ⟨[], owners ++ [c], granted, ⟨nofun, fun _ => rfl, calm.current, fun _ => ?_⟩,
    prefix_append _ _, fun _ => id, [c], by simp, ?_⟩
  swap
  · simpa using ((good.caller there).outside_of at_).1
  change int64 (s.acquired + weight) ≠ 0
  omega

theorem keeps_enter (op : call.op = .acquire weight) (at_ : call.pc = .entering) :
    Keeps s.waiter q owners (s.enter c call weight) := by
  have caller := good.caller there
  have free : call.pc.Free := by simp [Pc.Free, at_]
  obtain ⟨absent, outside, -⟩ := caller.outside_of free
  obtain ⟨pos, most⟩ : 0 < weight ∧ weight ≤ s.capacity := by
    rw [absent] at caller
    cases caller with
    | outside _ _ checked => exact checked weight op at_
  unfold enter
  split
  · exact keeps_finish good.reject calm.reject there free (by simp)
  · rename_i opened
    split
    · rename_i free'
      exact keeps_grant good calm there free pos free'.1 free'.2
    · rename_i busy
      split
      · exact keeps_finish good.reject calm.reject there free (by simp)
      · rename_i room
        refine ⟨q ++ [c], owners, good.enqueue there free op ⟨pos, most⟩ (by omega), ?_,
          prefix_refl _, fun _ there => update_waited there _, [c], by simp, by simpa using absent⟩
        refine ⟨fun d rest w first found => ?_, fun closed => absurd closed opened, calm.current,
          calm.busy⟩
        have available : s.available = s.capacity - s.acquired := good.accounts.available
        change Function.update s.waiter c _ d = some w at found
        change s.capacity - s.acquired < w.weight
        cases q with
        | nil =>
          -- The new waiter is alone: it did not fit.
          cases first
          rw [Function.update_self] at found
          cases found
          have counted := good.line.counted
          rw [length_nil] at counted
          dsimp only
          omega
        | cons e q =>
          cases first
          have other : d ≠ c := by
            rintro rfl
            exact outside mem_cons_self
          rw [Function.update_of_ne other] at found
          exact calm.blocked d _ w rfl found

theorem keeps_tryAcquire (at_ : call.pc = .start) :
    Keeps s.waiter q owners (s.tryAcquire c call weight) := by
  have free : call.pc.Free := by simp [Pc.Free, at_]
  unfold tryAcquire
  split
  · exact keeps_finish good.reject calm.reject there free (by simp)
  · rename_i valid
    split
    · exact keeps_finish good.reject calm.reject there free (by simp)
    · split
      · exact keeps_finish good.reject calm.reject there free (by simp)
      · rename_i fits
        have pos : 0 < weight := by
          unfold validateWeight at valid
          split at valid
          · cases valid
          · rename_i pos
            exact not_le.mp pos
        exact keeps_grant good calm there free pos (by omega) (by omega)

omit there in
/-- A call leaves the queue because its context is done, and those behind it may be next. -/
theorem keeps_leave (found : s.waiter c = some w) (sub : c ∈ q)
    (bd : 0 < w.weight ∧ w.weight ≤ s.capacity)
    (op : call.op = .acquire w.weight) (permit : w.permit = none)
    (err : w.err = none) (ungranted : grantOf (s.waiter c) (s.calls c) = none) {cause : Cause}
    (done : call.ctx = some cause) :
    Keeps s.waiter q owners ((s.removeWaiterLocked c).cancel.grantWaitersLocked.finish c call
      (.failed (canceledError call.ctx))) := by
  obtain ⟨front, back, split⟩ := append_of_mem sub
  let finished : Call := { call with pc := .returned (.failed (canceledError call.ctx)) }
  have gone : c ∉ front ++ back := by
    have nodup := good.line.list.nodup
    rw [split] at nodup
    exact (nodup_cons.mp (nodup_middle.mp nodup)).1
  have others : ∀ d, d ≠ c → (d ∈ front ++ back ↔ d ∈ q) := by
    intro d other
    rw [split]
    simp [other]
  have here : Caller s.capacity (c ∈ front ++ back) (s.waiter c) (some finished) := by
    rw [found]
    exact .inside bd op (.canceled cause gone done (by simp [finished, done]) permit err)
  have eq : grantOf (s.waiter c) (some finished) = grantOf (s.waiter c) (s.calls c) := by
    rw [ungranted, found]
    exact (grantOf_other (by simp [finished])).trans permit
  have left := good.callers.change others here eq
  rw [Function.update_eq_self] at left
  -- The loop does not look at the calls: the call may as well have returned before it.
  generalize removed : (s.removeWaiterLocked c).cancel.setCall c finished = s'
  have good' : Good s' (front ++ back) owners := by
    subst removed
    exact ⟨good.accounts, good.line.remove split, left, good.owned⟩
  have closed : s'.closed = true → front ++ back = [] := fun shut => by
    subst removed
    have none := calm.shut shut
    rw [split] at none
    simp at none
  obtain ⟨queue', owners', after, order, blocked, shut, more⟩ :=
    grantWaitersLocked_good good' closed
  have eq := grantWaiters_same s'.waiterCount.toNat s'
  have moved : (s.removeWaiterLocked c).cancel.grantWaitersLocked.finish c call
      (.failed (canceledError call.ctx)) = s'.grantWaitersLocked := by
    subst removed
    exact (grantWaiters_setCall _ _ c finished).symm
  rw [moved]
  refine ⟨queue', owners', after, ⟨blocked, shut, ?_, fun open_ => ?_⟩, ?_⟩
  · rw [grantWaitersLocked, eq.channels, eq.drained, ← removed]
    exact calm.current
  · rw [grantWaitersLocked, eq.drained, ← removed] at open_
    have some := calm.busy open_
    have nonneg := good.accounts.nonneg
    rw [← removed] at more
    change s.acquired ≤ _ at more
    rw [removed] at more
    omega
  · have untold : s'.waiter = s.waiter := by rw [← removed]; rfl
    rw [untold] at order
    refine .trans ⟨prefix_refl _, fun _ => id, [], ?_, by simp⟩ order
    rw [split, append_nil]
    exact ((sublist_cons_self c back).append_left front).append_left owners

/-- A call that is past its select returns what it was told, or leaves the queue. -/
theorem keeps_settle (found : s.waiter c = some w) (at_ : call.pc = .woken) :
    Keeps s.waiter q owners (s.settle c call w) := by
  obtain ⟨bd, op, stage⟩ := good.waiter there found
  have before : grantOf (s.waiter c) (s.calls c) = w.permit := by
    rw [there, found]
    exact grantOf_other (by simp [at_])
  unfold settle
  cases stage with
  | granted p outside _ told permit err =>
    rw [permit]
    refine keeps_setCall good calm ?_ ?_
    · rw [found]
      exact .inside bd op (.granted p outside (Or.inr (Or.inr rfl)) told permit err)
    · rw [before, permit]
      rfl
  | refused outside _ told permit err =>
    rw [permit, err]
    refine keeps_setCall good calm ?_ ?_
    · rw [found]
      exact .inside bd op (.refused outside (Or.inr (Or.inr rfl)) told permit err)
    · rw [before, found]
      exact grantOf_other (by simp)
  | canceled cause outside done elsewhere =>
    rw [at_] at elsewhere
    cases elsewhere
  | waiting sub reached open_ permit err =>
    rw [permit, err]
    obtain ⟨cause, done⟩ : ∃ cause, call.ctx = some cause := by
      rw [at_] at reached
      simpa [ne_none_iff_exists'] using reached
    exact keeps_leave good calm found sub bd op permit err (before.trans permit) done

/-- A permit gives its weight back once. -/
theorem keeps_release {p : Nat} {permit : Permit} (granted : s.permits[p]? = some permit)
    (at_ : call.pc = .start) : Keeps s.waiter q owners (s.release c call p permit) := by
  have free : call.pc.Free := by simp [Pc.Free, at_]
  unfold release
  split
  · exact keeps_finish good calm there free (by simp)
  · rename_i held
    have held : permit.released = false := by simpa using held
    have good' : Good { s with
        permits := s.permits.set p { permit with released := true }
        acquired := int64 (s.acquired - permit.weight) } q owners :=
      ⟨good.accounts.release granted held, good.line, good.callers, by
        rw [good.owned]
        exact (length_set ..).symm⟩
    have shut := calm.shut
    have cur := calm.current
    generalize given : ({ s with
      permits := s.permits.set p { permit with released := true }
      acquired := int64 (s.acquired - permit.weight) } : State) = s' at good' ⊢
    have eq := grantWaiters_same s'.waiterCount.toNat s'
    obtain ⟨queue', owners', after, order, blocked, shut', -⟩ :=
      grantWaitersLocked_good good' (by rw [← given]; exact shut)
    obtain ⟨good'', calm''⟩ := closeDrained_good after blocked shut' (by
      rw [grantWaitersLocked, eq.channels, eq.drained, ← given]
      exact cur)
    obtain ⟨cs, waiters⟩ := closeDrained_same s'.grantWaitersLocked
    have there' : s'.grantWaitersLocked.closeDrained.calls c = some call := by
      rw [cs, grantWaitersLocked, eq.calls, ← given]
      exact there
    have untold : s'.waiter = s.waiter := by rw [← given]
    rw [untold, ← waiters] at order
    exact (keeps_finish good'' calm'' there' free (by simp)).after order

theorem keeps_close (at_ : call.pc = .start) :
    Keeps s.waiter q owners (s.closeLocked.finish c call .done) := by
  have free : call.pc.Free := by simp [Pc.Free, at_]
  unfold closeLocked
  split
  · exact keeps_finish good calm there free (by simp)
  · have good' : Good { s with closed := true } q owners :=
      ⟨good.accounts, good.line, good.callers, good.owned⟩
    have after := good'.rejectWaiters (Nat.le_of_eq good.line.length.symm)
    obtain ⟨eq, acquired⟩ := rejectWaiters_same s.waiterCount.toNat { s with closed := true }
    have order : Orders s.waiter q owners _ [] owners :=
      ⟨prefix_refl _, eq.waited, [], by simp, by simp⟩
    refine .after order (keeps_finish after ⟨nofun, fun _ => rfl, ?_, fun open_ =>
      ?_⟩ ?_ free (by simp))
    · rw [eq.channels, eq.drained]
      exact calm.current
    · rw [eq.drained] at open_
      rw [acquired]
      exact calm.busy open_
    · rw [eq.calls]
      exact there

theorem keeps_wait (at_ : call.pc = .start) : Keeps s.waiter q owners (s.wait c call) := by
  have free : call.pc.Free := by simp [Pc.Free, at_]
  unfold wait
  split
  · exact keeps_finish good calm there free (by simp)
  · rename_i used
    split
    · exact keeps_outside good calm there free (by simp) (by simp)
    · rename_i none
      have good' : Good { s with
          drained := some s.channels.length, channels := s.channels ++ [false] } q owners :=
        ⟨good.accounts, good.line, good.callers, good.owned⟩
      refine keeps_outside good' ⟨calm.blocked, calm.shut, fun d => ?_, fun _ => used⟩ there free
        (by simp) (by simp)
      have old := calm.current d
      rw [none] at old
      rw [getElem?_append]
      split
      · rename_i less
        constructor
        · intro found
          cases old.mp found
        · intro eq
          exact absurd (some.inj eq) (by omega)
      · rename_i beyond
        rw [getElem?_singleton]
        split
        · exact ⟨fun _ => congrArg some (by omega), fun _ => rfl⟩
        · exact ⟨nofun, fun eq => absurd (some.inj eq) (by omega)⟩

theorem keeps_wake (at_ : call.pc = .queued)
    (free : ∀ w, s.waiter c = some w → w.ready = true ∨ call.ctx ≠ none) :
    Keeps s.waiter q owners (s.setCall c { call with pc := .woken }) := by
  have caller := good.caller there
  refine keeps_setCall good calm ?_ ?_
  · generalize s.waiter c = w at caller free
    cases caller with
    | outside outside at' => exact absurd at_ at'.1
    | inside bd op stage => exact .inside bd op (stage.wake at_ (free _ rfl))
  · rw [there, grantOf_other (by simp), grantOf_other (by simp [at_])]

theorem keeps_run (ran : s.run c call = some s') : Keeps s.waiter q owners s' := by
  unfold run at ran
  split at ran
  · -- The checks before the lock of an acquisition.
    rename_i weight op at_
    have free : call.pc.Free := by simp [Pc.Free, at_]
    split at ran
    · cases ran
      exact keeps_finish good.reject calm.reject there free (by simp)
    · cases ran
      exact keeps_outside good calm there free (by simp) (by simp)
    · rename_i valid _
      cases ran
      refine keeps_outside good calm there free (by simp) fun weight' eq _ => ?_
      cases op.symm.trans eq
      unfold validateWeight at valid
      split_ifs at valid
      omega
  · rename_i cause op at_
    cases ran
    exact keeps_finish good.cancel calm.cancel there (by simp [Pc.Free, at_]) (by simp)
  · rename_i weight op at_
    cases ran
    exact keeps_enter good calm there op at_
  · -- The waiter was told.
    rename_i weight op at_
    obtain ⟨w, found, told⟩ := bind_eq_some_iff.mp ran
    split at told
    · rename_i ready
      cases told
      refine keeps_wake good calm there at_ fun _ eq => Or.inl ?_
      cases found.symm.trans eq
      exact ready
    · cases told
  · rename_i weight op at_
    obtain ⟨w, found, rfl⟩ := map_eq_some_iff.mp ran
    exact keeps_settle good calm there found at_
  · rename_i weight op at_
    cases ran
    exact keeps_tryAcquire good calm there at_
  · rename_i p op at_
    obtain ⟨permit, granted, rfl⟩ := map_eq_some_iff.mp ran
    exact keeps_release good calm there granted at_
  · rename_i op at_
    cases ran
    exact keeps_close good calm there at_
  · rename_i op at_
    cases ran
    exact keeps_wait good calm there at_
  · rename_i d op at_
    split at ran
    · cases ran
      exact keeps_finish good calm there (by simp [Pc.Free, at_]) (by simp)
    · cases ran
  · cases ran

theorem keeps_expire (expired : s.expire c call = some s') : Keeps s.waiter q owners s' := by
  unfold expire at expired
  split at expired
  · -- The call leaves its select, in the queue or not.
    rename_i cause done at_
    cases expired
    exact keeps_wake good calm there at_ fun _ _ => Or.inr (by simp [done])
  · rename_i cause d done at_
    cases expired
    exact keeps_finish good calm there (by simp [Pc.Free, at_]) (by simp)
  · cases expired

theorem keeps_cancel (live : call.ctx = none) (cause : Cause) :
    Keeps s.waiter q owners (s.setCall c { call with ctx := some cause }) := by
  have caller := good.caller there
  refine keeps_setCall good calm ?_ ?_
  · generalize s.waiter c = w at caller
    cases caller with
    | outside outside at_ checked => exact .outside outside at_ checked
    | inside bd op stage =>
      refine .inside bd op ?_
      cases stage with
      | waiting sub at_ open_ permit err =>
        exact .waiting sub (at_.imp_right fun woken => ⟨woken.1, by simp⟩) open_ permit err
      | granted p outside at_ told permit err => exact .granted p outside at_ told permit err
      | refused outside at_ told permit err => exact .refused outside at_ told permit err
      | canceled cause outside done => simp [live] at done
  · rw [there]
    rfl

end

section

variable {s s' : State} {q owners : List Nat} (good : Good s q owners) (calm : Calm s q)

include good calm

theorem keeps_invoke {c : Nat} {op : Op}
    (invoked : s.invoke c op = some s') : Keeps s.waiter q owners s' := by
  unfold invoke at invoked
  split at invoked
  · cases invoked
  · rename_i new
    cases invoked
    have caller := good.callers.each c
    rw [new] at caller
    refine keeps_setCall good calm ?_ ?_
    · generalize s.waiter c = w at caller
      cases caller with
      | absent outside => exact .outside outside (by simp) (by simp)
    · rw [new, grantOf_other (by simp)]
      rfl

theorem keeps_step {label : Label}
    (stepped : s.step label = some s') : Keeps s.waiter q owners s' := by
  cases label with
  | acquire | tryAcquire | close | wait => exact keeps_invoke good calm stepped
  | release c owner =>
    unfold step at stepped
    dsimp only at stepped
    split at stepped
    · exact keeps_invoke good calm stepped
    · cases stepped
  | cancel c cause =>
    obtain ⟨call, there, stepped⟩ := bind_eq_some_iff.mp stepped
    split at stepped
    · rename_i live
      cases stepped
      exact keeps_cancel good calm there live cause
    · cases stepped
  | run c =>
    obtain ⟨call, there, stepped⟩ := bind_eq_some_iff.mp stepped
    exact keeps_run good calm there stepped
  | expire c =>
    obtain ⟨call, there, stepped⟩ := bind_eq_some_iff.mp stepped
    exact keeps_expire good calm there stepped

end

end Golib.Semaphore
