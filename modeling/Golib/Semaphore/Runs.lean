import Golib.Semaphore.Steps

/-! Runs of the semaphore under every interleaving of its callers: what every state of a run is
like, and how every call ends. -/
namespace Golib.Semaphore

open Machine List Option Function
open State

def Steps : State → List Label → State → Prop := Run fun label s s' => s.step label = some s'

/-! ### Calls that returned -/

variable {s : State} {c d : Nat} {call : Call}

theorem setCall_other {t : State} (eq : t.calls = s.calls) (other : d ≠ c) (call : Call) :
    (t.setCall c call).calls d = s.calls d := by
  rw [← eq]
  exact update_of_ne other _ _

variable {s' : State}

/-- A section changes its own call only. -/
theorem run_other (ran : s.run c call = some s') (other : d ≠ c) : s'.calls d = s.calls d := by
  unfold run at ran
  split at ran
  · split at ran <;> (cases ran; exact setCall_other rfl other _)
  · cases ran
    exact setCall_other rfl other _
  · cases ran
    unfold enter
    repeat' split
    all_goals exact setCall_other rfl other _
  · obtain ⟨w, -, told⟩ := bind_eq_some_iff.mp ran
    split at told
    · cases told
      exact setCall_other rfl other _
    · cases told
  · obtain ⟨w, -, rfl⟩ := map_eq_some_iff.mp ran
    unfold settle
    split
    · exact setCall_other rfl other _
    · exact setCall_other rfl other _
    · exact setCall_other (grantWaiters_same _ _).calls other _
  · cases ran
    unfold tryAcquire
    repeat' split
    all_goals exact setCall_other rfl other _
  · obtain ⟨permit, -, rfl⟩ := map_eq_some_iff.mp ran
    unfold release
    split
    · exact setCall_other rfl other _
    · exact setCall_other ((closeDrained_same _).1.trans (grantWaiters_same _ _).calls) other _
  · cases ran
    refine setCall_other ?_ other _
    unfold closeLocked
    split
    · rfl
    · exact (rejectWaiters_same _ _).1.calls
  · cases ran
    unfold wait
    repeat' split
    all_goals exact setCall_other rfl other _
  · split at ran
    · cases ran
      exact setCall_other rfl other _
    · cases ran
  · cases ran

theorem expire_other (expired : s.expire c call = some s') (other : d ≠ c) :
    s'.calls d = s.calls d := by
  unfold expire at expired
  split at expired
  · cases expired
    exact setCall_other rfl other _
  · cases expired
    exact setCall_other rfl other _
  · cases expired

theorem invoke_other {op : Op} (invoked : s.invoke c op = some s') (there : s.calls d ≠ none) :
    s'.calls d = s.calls d := by
  unfold invoke at invoked
  split at invoked
  · cases invoked
  · rename_i new
    cases invoked
    refine setCall_other rfl ?_ _
    rintro rfl
    exact there new

theorem returned_stays {result : Result} (returned : call.pc = .returned result) :
    s.run c call = none ∧ s.expire c call = none := by
  obtain ⟨op, ctx, pc⟩ := call
  cases returned
  constructor
  · cases op <;> rfl
  · cases ctx <;> rfl

variable {result : Result}

theorem step_returned {label : Label} (stepped : s.step label = some s')
    (there : s.calls c = some call) (returned : call.pc = .returned result) :
    ∃ call', s'.calls c = some call' ∧ call'.pc = .returned result := by
  have exists_ : s.calls c ≠ none := by simp [there]
  obtain ⟨noRun, noExpire⟩ := @returned_stays s c call result returned
  cases label with
  | acquire | tryAcquire | close | wait =>
    exact ⟨call, (invoke_other stepped exists_).trans there, returned⟩
  | release d owner =>
    unfold step at stepped
    dsimp only at stepped
    split at stepped
    · exact ⟨call, (invoke_other stepped exists_).trans there, returned⟩
    · cases stepped
  | cancel d cause =>
    obtain ⟨asked, found, stepped⟩ := bind_eq_some_iff.mp stepped
    split at stepped
    · cases stepped
      by_cases eq : c = d
      · subst eq
        cases there.symm.trans found
        exact ⟨_, update_self .., returned⟩
      · exact ⟨call, (setCall_other rfl eq _).trans there, returned⟩
    · cases stepped
  | run d =>
    obtain ⟨asked, found, stepped⟩ := bind_eq_some_iff.mp stepped
    by_cases eq : c = d
    · subst eq
      cases there.symm.trans found
      cases noRun.symm.trans stepped
    · exact ⟨call, (run_other stepped eq).trans there, returned⟩
  | expire d =>
    obtain ⟨asked, found, stepped⟩ := bind_eq_some_iff.mp stepped
    by_cases eq : c = d
    · subst eq
      cases there.symm.trans found
      cases noExpire.symm.trans stepped
    · exact ⟨call, (expire_other stepped eq).trans there, returned⟩

/-! ### Runs -/

variable {labels : List Label} {q owners : List Nat}

theorem steps_keep (run : Steps s labels s') (good : Good s q owners)
    (calm : Calm s q) : Keeps s.waiter q owners s' := by
  induction run generalizing q owners with
  | nil s => exact ⟨q, owners, good, calm, .refl ..⟩
  | cons first later ih =>
    obtain ⟨queue', owners', good', calm', order⟩ := keeps_step good calm first
    exact (ih good' calm').after order

theorem steps_returned (run : Steps s labels s') (there : s.calls c = some call)
    (returned : call.pc = .returned result) :
    ∃ call', s'.calls c = some call' ∧ call'.pc = .returned result := by
  induction run generalizing call with
  | nil s => exact ⟨call, there, returned⟩
  | cons first later ih =>
    obtain ⟨call', there', returned'⟩ := step_returned first there returned
    exact ih there' returned'

/-! ### How calls end -/

/-- What a call that had to wait returns. -/
def Outcome (ctx : Option Cause) (result : Result) : Prop :=
  (∃ p, result = .permit p) ∨ result = .failed .closed ∨
    ∃ cause, ctx = some cause ∧ result = .failed (canceledError (some cause))

variable {w : Waiter}

section

variable {q owners : List Nat} (good : Good s q owners) (there : s.calls c = some call)

include good there

theorem Good.outcome (waited : s.waiter c = some w) (returned : call.pc = .returned result) :
    Outcome call.ctx result := by
  cases (good.waiter there waited).2.2 with
  | waiting sub at_ => simp [returned] at at_
  | granted p outside at_ => exact Or.inl ⟨p, by simpa [returned] using at_⟩
  | refused outside at_ => exact Or.inr (Or.inl (by simpa [returned] using at_))
  | canceled cause outside done at_ =>
    exact Or.inr (Or.inr ⟨cause, done, by simpa [returned] using at_⟩)

theorem Good.returns {p : Nat} (granted : grantOf (s.waiter c) (s.calls c) = some p)
    (returned : call.pc = .returned result) : result = .permit p := by
  have caller := good.callers.each c
  rw [there] at caller granted
  by_cases permit : ∃ q, result = .permit q
  · obtain ⟨q, rfl⟩ := permit
    have eq : grantOf (s.waiter c) (some call) = some q := by
      unfold grantOf
      rw [map_some, returned]
    rw [eq] at granted
    rw [some.inj granted]
  · rw [grantOf_other fun q eq => permit ⟨q, Pc.returned.inj (returned.symm.trans eq)⟩] at granted
    generalize s.waiter c = w at caller granted
    cases caller with
    | outside => cases granted
    | inside bd op stage =>
      cases stage with
      | waiting sub at_ => simp [returned] at at_
      | granted q outside at_ => exact absurd ⟨q, by simpa [returned] using at_⟩ permit
      | refused outside at_ told none => cases none.symm.trans granted
      | canceled cause outside done at_ none => cases none.symm.trans granted

theorem Good.told (waited : s.waiter c = some w) (at_ : call.pc = .queued) (gone : c ∉ q) :
    w.ready = true := by
  cases (good.waiter there waited).2.2 with
  | waiting sub => exact absurd sub gone
  | granted p outside _ told => exact told
  | refused outside _ told => exact told
  | canceled cause outside done elsewhere => simp [at_] at elsewhere

end

theorem settle_returned (s : State) (c : Nat) (call : Call) (w : Waiter) :
    ∃ call' result, (s.settle c call w).calls c = some call' ∧ call'.pc = .returned result := by
  unfold settle
  split
  · exact ⟨_, _, update_self .., rfl⟩
  · exact ⟨_, _, update_self .., rfl⟩
  · exact ⟨_, _, update_self .., rfl⟩

theorem call_ends (there : s.calls c = some call) (waited : s.waiter c = some w)
    (op : call.op = .acquire w.weight) (at_ : call.pc = .queued)
    (free : w.ready = true ∨ call.ctx ≠ none) :
    ∃ label s₁ s₂ call' result, (label = .run c ∨ label = .expire c) ∧ s.step label = some s₁ ∧
      s₁.step (.run c) = some s₂ ∧ s₂.calls c = some call' ∧ call'.pc = .returned result := by
  obtain ⟨_, ctx, _⟩ := call
  cases op
  cases at_
  let woken : Call := ⟨.acquire w.weight, ctx, .woken⟩
  have second : (s.setCall c woken).step (.run c) =
      some ((s.setCall c woken).settle c woken w) := by
    have here : (s.setCall c woken).calls c = some woken := update_self ..
    change ((s.setCall c woken).calls c).bind _ = _
    rw [here]
    change (s.waiter c).map _ = _
    rw [waited]
    rfl
  obtain ⟨call', result, returned, at'⟩ := settle_returned (s.setCall c woken) c woken w
  rcases free with told | done
  · refine ⟨.run c, _, _, call', result, Or.inl rfl, ?_, second, returned, at'⟩
    change (s.calls c).bind _ = _
    rw [there]
    change (s.waiter c).bind _ = _
    rw [waited, bind_some, if_pos told]
  · refine ⟨.expire c, _, _, call', result, Or.inr rfl, ?_, second, returned, at'⟩
    change (s.calls c).bind _ = _
    rw [there]
    cases ctx with
    | none => exact absurd rfl done
    | some cause => rfl

structure Safe (s : State) : Prop where
  acquired : s.acquired = outstanding s.permits
  within : 0 ≤ s.acquired ∧ s.acquired ≤ s.capacity
  /-- The waiters in their order: none of them waits for nothing. -/
  queue : ∃ queue, s.waiters.Holds queue ∧ s.waiterCount = queue.length ∧
    s.waiterCount ≤ s.maxWaiters ∧ (s.closed = true → queue = []) ∧
    (∀ c ∈ queue.head?, ∃ waiter, s.waiter c = some waiter ∧
      s.capacity - s.acquired < waiter.weight) ∧
    ∀ c call waiter, s.calls c = some call → s.waiter c = some waiter → call.pc = .queued →
      c ∉ queue → waiter.ready = true
  /-- A call that had to wait returns one of three. -/
  outcome : ∀ c call waiter result, s.calls c = some call → s.waiter c = some waiter →
    call.pc = .returned result → Outcome call.ctx result
  /-- Every permit was granted to one call. -/
  owner : ∀ p < s.permits.length, ∃! c, grantOf (s.waiter c) (s.calls c) = some p
  /-- Who waits for an open channel waits for a permit in use. -/
  drains : ∀ d : Nat, s.channels[d]? = some false → s.acquired ≠ 0
  /-- A waiting call that was told, or whose context is done, ends by its own next two steps. -/
  ends : ∀ c call waiter, s.calls c = some call → s.waiter c = some waiter → call.pc = .queued →
    (waiter.ready = true ∨ call.ctx ≠ none) →
    ∃ label s₁ s₂ call' result, (label = .run c ∨ label = .expire c) ∧ s.step label = some s₁ ∧
      s₁.step (.run c) = some s₂ ∧ s₂.calls c = some call' ∧ call'.pc = .returned result

theorem Good.safe (good : Good s q owners) (calm : Calm s q) :
    Safe s where
  acquired := good.accounts.booked
  within := ⟨good.accounts.nonneg, good.accounts.within⟩
  queue := by
    refine ⟨q, good.line.list, good.line.counted, good.line.room, calm.shut, ?_, ?_⟩
    · intro c first
      cases q with
      | nil => cases first
      | cons d rest =>
        cases first
        obtain ⟨w, -, found, -⟩ := (good.callers.each c).inside_of mem_cons_self
        exact ⟨w, found, calm.blocked c rest w rfl found⟩
    · exact fun c call w there waited at_ gone => good.told there waited at_ gone
  outcome := fun c call w result there waited returned => good.outcome there waited returned
  owner := by
    intro p less
    rw [← good.owned] at less
    refine ⟨owners[p], (good.callers.grants _ p).mpr (getElem?_eq_getElem less),
      fun d granted => ?_⟩
    have owned := (good.callers.grants d p).mp granted
    rw [getElem?_eq_getElem less] at owned
    exact (some.inj owned).symm
  drains := fun d open_ => calm.busy (by simp [(calm.current d).mp open_])
  ends := fun c call w there waited at_ free =>
    call_ends there waited (good.waiter there waited).2.1 at_ free

/-- The weighted semaphore is safe and loses no wakeup, under every interleaving of its callers:
every state of a run is safe, and whatever comes after it, a call that has returned stays so, and
one to which a permit was granted returns that permit, its context done or not. -/
theorem semaphore_safe {config : Config} {start s : State} (made : new config = .ok start)
    {labels : List Label} (run : Steps start labels s) :
    Safe s ∧ ∀ more s', Steps s more s' →
      (∀ c call result, s.calls c = some call → call.pc = .returned result →
        ∃ call', s'.calls c = some call' ∧ call'.pc = .returned result) ∧
      ∀ c p call result, grantOf (s.waiter c) (s.calls c) = some p → s'.calls c = some call →
        call.pc = .returned result → result = .permit p := by
  obtain ⟨queue₀, owners₀, good₀, calm₀⟩ := new_invariant made
  obtain ⟨queue, owners, good, calm, -⟩ := steps_keep run good₀ calm₀
  refine ⟨good.safe calm, fun more s' later => ⟨?_, ?_⟩⟩
  · exact fun c call result there returned => steps_returned later there returned
  · intro c p call result granted there returned
    obtain ⟨queue', owners', good', -, order⟩ := steps_keep later good calm
    have owned : owners'[p]? = some c := by
      obtain ⟨rest, rfl⟩ := order.permits
      have before := (good.callers.grants c p).mp granted
      exact (List.getElem?_append_left (List.getElem?_eq_some_iff.mp before).1).trans before
    exact good'.returns there ((good'.callers.grants c p).mpr owned) returned

def State.steps (s : State) : List Label → Option State
  | [] => some s
  | label :: rest => (s.step label).bind (·.steps rest)

theorem steps_of_eq (taken : s.steps labels = some s') : Steps s labels s' := by
  induction labels generalizing s with
  | nil =>
    cases taken
    exact .nil _
  | cons label rest ih =>
    obtain ⟨middle, first, later⟩ := bind_eq_some_iff.mp taken
    exact .cons first (ih later)

theorem exists_run {cfg : Config} {α : Type} {f : State → α} {a : α}
    (taken : ((new cfg).toOption.bind (·.steps labels)).map f = some a) :
    ∃ start s, new cfg = .ok start ∧ Steps start labels s ∧ f s = a := by
  obtain ⟨s, ran, holds⟩ := map_eq_some_iff.mp taken
  obtain ⟨start, made, steps⟩ := bind_eq_some_iff.mp ran
  refine ⟨start, s, ?_, steps_of_eq steps, holds⟩
  cases new : new cfg with
  | error e => simp [new, Except.toOption] at made
  | ok other =>
    rw [new] at made
    cases made
    rfl

def pair : Config := ⟨2, 1, by decide⟩

/-- A call holds all of a capacity of two; a second one waits, and its context is done. The first
permit is released before the second call leaves its select. -/
def lateGrant : List Label :=
  [.acquire 0 2, .run 0, .run 0, .acquire 1 1, .run 1, .run 1, .cancel 1 .canceled,
    .release 2 0, .run 2,
    .expire 1, .run 1]

theorem semaphore_safe_lateGrant :
    ∃ start s, new pair = .ok start ∧ Steps start lateGrant s ∧ Safe s ∧
      s.calls 1 = some ⟨.acquire 1, some .canceled, .returned (.permit 1)⟩ := by
  have taken : ((new pair).toOption.bind (·.steps lateGrant)).map (fun s => s.calls 1) =
      some (some ⟨.acquire 1, some .canceled, .returned (.permit 1)⟩) := by decide +kernel
  obtain ⟨start, s, made, run, returned⟩ := exists_run taken
  exact ⟨start, s, made, run, (semaphore_safe made run).1, returned⟩

/-! ### Order -/

/-- A call that had to wait and is granted no permit: the semaphore was closed, or it returned that
its context is done. -/
def Dropped (s : State) (c : Nat) : Prop :=
  ∃ call waiter, s.calls c = some call ∧ s.waiter c = some waiter ∧
    (waiter.err = some .closed ∨
      ∃ cause, call.ctx = some cause ∧ call.pc = .returned (.failed (canceledError (some cause))))

theorem Good.dropped (good : Good s q owners)
    (waited : s.waiter c ≠ none) (outside : c ∉ owners ++ q) : Dropped s c := by
  rw [mem_append, not_or] at outside
  have ungranted : ∀ p, grantOf (s.waiter c) (s.calls c) ≠ some p := fun p granted =>
    outside.1 (mem_of_getElem? ((good.callers.grants c p).mp granted))
  have caller := good.callers.each c
  unfold Dropped
  generalize s.waiter c = w at waited ungranted caller ⊢
  generalize s.calls c = call at ungranted caller ⊢
  cases caller with
  | absent | outside => exact absurd rfl waited
  | inside bd op stage =>
    cases stage with
    | waiting sub => exact absurd sub outside.2
    | granted p _ at_ told permit =>
      refine absurd ?_ (ungranted p)
      rcases at_ with at_ | at_ | at_ <;> simp [grantOf, at_, permit]
    | refused _ at_ told permit err => exact ⟨_, _, rfl, rfl, Or.inl err⟩
    | canceled cause _ done at_ => exact ⟨_, _, rfl, rfl, Or.inr ⟨cause, done, at_⟩⟩

section

variable {α : Type} {a b : α} {l r : List α}

theorem before_or_sublist {q : Nat} (found : l[q]? = some b) (mem : a ∈ l) (other : b ≠ a) :
    (∃ p < q, l[p]? = some a) ∨ [b, a].Sublist l := by
  induction l generalizing q with
  | nil => cases mem
  | cons x l ih =>
    cases q with
    | zero =>
      cases found
      have behind := (mem_cons.mp mem).resolve_left other.symm
      exact Or.inr ((singleton_sublist.mpr behind).cons_cons _)
    | succ q =>
      rcases mem_cons.mp mem with rfl | mem
      · exact Or.inl ⟨0, q.succ_pos, rfl⟩
      · rcases ih found mem with ⟨p, less, at_⟩ | later
        · exact Or.inl ⟨p + 1, Nat.succ_lt_succ less, at_⟩
        · exact Or.inr (later.cons x)

theorem pair_sublist_append (pair : [b, a].Sublist (l ++ r)) (new : b ∉ l) : [b, a].Sublist r := by
  induction l with
  | nil => exact pair
  | cons x l ih =>
    cases pair with
    | cons _ pair => exact ih pair fun sub => new (mem_cons_of_mem x sub)
    | cons_cons => exact absurd mem_cons_self new

theorem sublist_pair_append (pair : [b, a].Sublist (l ++ r)) (new : a ∉ r) : [b, a].Sublist l := by
  have mirrored := pair.reverse
  rw [reverse_append] at mirrored
  exact reverse_sublist.mp (pair_sublist_append mirrored (by simpa using new))

end

/-- The semaphore is first in, first out, under every interleaving of its callers and whatever the
weights and the free capacity. At some point of a run one call waits, and another has no permit and
does not wait ahead of it: it waits behind, or comes later, with Acquire or TryAcquire. If at some
later point the other call has a permit, the first one has an earlier one or was dropped. -/
theorem semaphore_fifo {config : Config} {start s s' : State} (made : new config = .ok start)
    {labels more : List Label} (run : Steps start labels s) (later : Steps s more s')
    {queue : List Nat} (holds : s.waiters.Holds queue) {a b : Nat} (waits : a ∈ queue)
    (other : b ≠ a) (behind : ¬ [b, a].Sublist queue)
    (none : grantOf (s.waiter b) (s.calls b) = none) {q : Nat}
    (granted : grantOf (s'.waiter b) (s'.calls b) = some q) :
    (∃ p < q, grantOf (s'.waiter a) (s'.calls a) = some p) ∨ Dropped s' a := by
  obtain ⟨queue₀, owners₀, good₀, calm₀⟩ := new_invariant made
  obtain ⟨queue₁, owners, good, calm, -⟩ := steps_keep run good₀ calm₀
  obtain rfl := holds.unique good.line.list
  obtain ⟨queue', owners', good', -, -, waited, arrived, order, new⟩ := steps_keep later good calm
  obtain ⟨waiter, call, found, -⟩ := (good.callers.each a).inside_of waits
  have there : s.waiter a ≠ .none := by simp [found]
  by_cases stays : a ∈ owners' ++ queue'
  · left
    have owned := (good'.callers.grants b q).mp granted
    have bound := (List.getElem?_eq_some_iff.mp owned).1
    have place : (owners' ++ queue')[q]? = some b := (getElem?_append_left bound).trans owned
    rcases before_or_sublist place stays other with ⟨p, less, at_⟩ | ahead
    · rw [getElem?_append_left (less.trans bound)] at at_
      exact ⟨p, less, (good'.callers.grants a p).mpr at_⟩
    · -- The order of before: the call would have waited ahead.
      have new_a : a ∉ arrived := fun mem => there (new a mem)
      have new_b : b ∉ owners := fun mem => by
        obtain ⟨p, bound, at_⟩ := getElem_of_mem mem
        have owned := (good.callers.grants b p).mpr (List.getElem?_eq_some_iff.mpr ⟨bound, at_⟩)
        cases none.symm.trans owned
      exact absurd (pair_sublist_append (sublist_pair_append (ahead.trans order) new_a)
        new_b) behind
  · exact Or.inr (good'.dropped (waited a there) stays)

def heavy : Config := ⟨2, 2, by decide⟩

/-- One of two units is in use, and a call waits for both. -/
def heavyWaits : List Label := [.acquire 0 1, .run 0, .run 0, .acquire 1 2, .run 1, .run 1]

/-- A call for the free unit comes; both permits before it are released. -/
def lightComes : List Label :=
  [.acquire 2 1, .run 2, .run 2, .release 3 0, .run 3, .run 1, .run 1, .release 4 1, .run 4]

theorem semaphore_fifo_heavy :
    ∃ start s s', new heavy = .ok start ∧ Steps start heavyWaits s ∧ Steps s lightComes s' ∧
      grantOf (s'.waiter 2) (s'.calls 2) = some 2 ∧
      ((∃ p < 2, grantOf (s'.waiter 1) (s'.calls 1) = some p) ∨ Dropped s' 1) := by
  have taken : ((new heavy).toOption.bind (·.steps heavyWaits)).map (fun s =>
      (s.waiter 1, s.calls 1, s.calls 2,
        (s.steps lightComes).map fun s' => grantOf (s'.waiter 2) (s'.calls 2))) =
      some (some ⟨2, false, none, none⟩, some ⟨.acquire 2, none, .queued⟩, none,
        some (some 2)) := by
    decide +kernel
  obtain ⟨start, s, made, run, facts⟩ := exists_run taken
  simp only [Prod.mk.injEq] at facts
  obtain ⟨waited, there, absent, last⟩ := facts
  obtain ⟨s', steps, granted⟩ := map_eq_some_iff.mp last
  have later := steps_of_eq steps
  obtain ⟨queue₀, owners₀, good₀, calm₀⟩ := new_invariant made
  obtain ⟨queue, owners, good, -⟩ := steps_keep run good₀ calm₀
  have waits : 1 ∈ queue := by
    by_contra gone
    cases good.told there waited rfl gone
  have caller := good.callers.each 2
  rw [absent] at caller
  obtain ⟨outside, untold⟩ : 2 ∉ queue ∧ grantOf (s.waiter 2) (s.calls 2) = none := by
    rw [absent]
    generalize s.waiter 2 = waiter at caller ⊢
    cases caller with
    | absent outside => exact ⟨outside, rfl⟩
  have behind : ¬ [2, 1].Sublist queue := fun ahead => outside (ahead.subset (by simp))
  exact ⟨start, s, s', made, run, later, granted,
    semaphore_fifo made run later good.line.list waits (by decide) behind untold granted⟩

end Golib.Semaphore
