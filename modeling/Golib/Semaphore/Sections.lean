import Golib.Semaphore.Invariant

/-! What the sections under the lock keep, turn by turn of their loops. -/
namespace Golib.Semaphore

open Machine List Function

variable {s : State} {q owners : List Nat} {n : Nat}

/-! ### One caller -/

section

variable (good : Good s q owners) {c : Nat} {call : Call} {weight : Int}

include good

theorem Good.caller (there : s.calls c = some call) :
    Caller s.capacity (c ∈ q) (s.waiter c) (some call) :=
  there ▸ good.callers.each c

theorem Good.waiter {w : Waiter} (there : s.calls c = some call) (waited : s.waiter c = some w) :
    (0 < w.weight ∧ w.weight ≤ s.capacity) ∧ call.op = .acquire w.weight ∧
      Stage (c ∈ q) w call.ctx call.pc := by
  have caller := good.caller there
  rw [waited] at caller
  cases caller with
  | inside bd op stage => exact ⟨bd, op, stage⟩

theorem Good.setCall (here : Caller s.capacity (c ∈ q) (s.waiter c) (some call))
    (eq : grantOf (s.waiter c) (some call) = grantOf (s.waiter c) (s.calls c)) :
    Good (s.setCall c call) q owners := by
  obtain ⟨accounts, line, callers, owned⟩ := good
  have moved := callers.change (fun _ _ => Iff.rfl) here eq
  rw [update_eq_self] at moved
  exact ⟨accounts, line, moved, owned⟩

theorem Good.grantNow (there : s.calls c = some call) (at_ : call.pc.Free) (pos : 0 < weight)
    (room : weight ≤ s.capacity - s.acquired) :
    Good ((s.grantLocked weight).finish c call (.permit s.permits.length)) q (owners ++ [c]) := by
  obtain ⟨accounts, line, callers, owned⟩ := good
  have caller := callers.each c
  rw [there] at caller
  obtain ⟨absent, outside, ungranted⟩ := caller.outside_of at_
  have here : Caller s.capacity (c ∈ q) (s.waiter c)
      (some { call with pc := .returned (.permit s.permits.length) }) := by
    rw [absent]
    exact .outside outside (by simp) (by simp)
  rw [← there] at ungranted
  have moved := callers.grant (fun _ _ => Iff.rfl) here ungranted (by rw [owned]; rfl)
  rw [update_eq_self] at moved
  exact ⟨(accounts.grant pos room _).1, line, moved, by
    simp [State.finish, State.setCall, State.grantLocked, owned]⟩

theorem Good.enqueue (there : s.calls c = some call) (at_ : call.pc.Free)
    (op : call.op = .acquire weight) (bd : 0 < weight ∧ weight ≤ s.capacity)
    (room : s.waiterCount < s.maxWaiters) :
    Good ((s.enqueueWaiterLocked c weight).setCall c { call with pc := .queued }) (q ++ [c])
      owners := by
  obtain ⟨accounts, line, callers, owned⟩ := good
  have caller := callers.each c
  rw [there] at caller
  obtain ⟨absent, outside, ungranted⟩ := caller.outside_of at_
  have here : Caller s.capacity (c ∈ q ++ [c]) (some ⟨weight, false, none, none⟩)
      (some { call with pc := .queued }) :=
    .inside bd op (.waiting (by simp) (Or.inl rfl) rfl rfl rfl)
  rw [← there] at ungranted
  have others : ∀ d, d ≠ c → (d ∈ q ++ [c] ↔ d ∈ q) := by
    intro d other
    simp [other]
  exact ⟨accounts, line.enqueue outside room, callers.change others here ungranted.symm, owned⟩

end

/-! ### The first waiter -/

section

variable {c : Nat} {rest : List Nat} (good : Good s (c :: rest) owners) {waiter : Waiter}

include good

theorem Good.first (there : s.waiter c = some waiter) :
    c ∉ rest ∧ (∀ d, d ≠ c → (d ∈ rest ↔ d ∈ c :: rest)) ∧ ∃ call, s.calls c = some call ∧
      (0 < waiter.weight ∧ waiter.weight ≤ s.capacity) ∧ call.op = .acquire waiter.weight ∧
      (call.pc = .queued ∨ call.pc = .woken) ∧ waiter.permit = none ∧ waiter.err = none ∧
      grantOf (s.waiter c) (s.calls c) = none := by
  obtain ⟨w, call, found, told⟩ := (good.callers.each c).inside_of mem_cons_self
  cases there.symm.trans found
  exact ⟨(nodup_cons.mp good.line.list.nodup).1, fun d other => by simp [other], call, told⟩

theorem Good.grantFirst (there : s.waiter c = some waiter)
    (room : waiter.weight ≤ s.capacity - s.acquired) :
    Good (((s.removeWaiterLocked c).grantLocked waiter.weight).notify c
      { waiter with permit := some s.permits.length }) rest (owners ++ [c]) := by
  obtain ⟨gone, others, call, asked, bounds, op, at_, permit, err, ungranted⟩ := good.first there
  obtain ⟨accounts, line, callers, owned⟩ := good
  have here : Caller s.capacity (c ∈ rest)
      (some { waiter with permit := some s.permits.length, ready := true }) (s.calls c) := by
    rw [asked]
    refine .inside bounds op (.granted s.permits.length gone ?_ rfl rfl err)
    exact at_.imp_right Or.inl
  have next : grantOf (some { waiter with permit := some s.permits.length, ready := true })
      (s.calls c) = some owners.length := by
    rw [asked, owned]
    refine grantOf_other fun p same => ?_
    simp [same] at at_
  have moved := callers.grant others here ungranted next
  rw [update_eq_self] at moved
  refine ⟨(accounts.grant bounds.1 room _).1,
    line.remove (show c :: rest = [] ++ c :: rest from rfl), moved, ?_⟩
  simp [State.notify, State.grantLocked, State.removeWaiterLocked, owned]

theorem Good.rejectFirst (there : s.waiter c = some waiter) :
    Good (((s.removeWaiterLocked c).notify c { waiter with err := some .closed }).reject) rest
      owners := by
  obtain ⟨gone, others, call, asked, bounds, op, at_, permit, err, -⟩ := good.first there
  obtain ⟨accounts, line, callers, owned⟩ := good
  have here : Caller s.capacity (c ∈ rest)
      (some { waiter with err := some .closed, ready := true }) (s.calls c) := by
    rw [asked]
    refine .inside bounds op (.refused gone ?_ rfl permit rfl)
    exact at_.imp_right Or.inl
  have still : grantOf (some { waiter with err := some .closed, ready := true }) (s.calls c) =
      grantOf (s.waiter c) (s.calls c) := by
    rw [there]
    rfl
  have moved := callers.change others here still
  rw [update_eq_self] at moved
  exact ⟨accounts, line.remove (show c :: rest = [] ++ c :: rest from rfl), moved, owned⟩

end

/-! ### Loops -/

/-- What the loops leave alone. -/
structure Same (s s' : State) : Prop where
  capacity : s'.capacity = s.capacity
  closed : s'.closed = s.closed
  drained : s'.drained = s.drained
  channels : s'.channels = s.channels
  calls : s'.calls = s.calls
  waited : ∀ c, s.waiter c ≠ none → s'.waiter c ≠ none

theorem Same.trans {s' s'' : State} (first : Same s s') (second : Same s' s'') : Same s s'' :=
  ⟨second.capacity.trans first.capacity, second.closed.trans first.closed,
    second.drained.trans first.drained, second.channels.trans first.channels,
    second.calls.trans first.calls, fun c there => second.waited c (first.waited c there)⟩

theorem Same.refl (s : State) : Same s s := ⟨rfl, rfl, rfl, rfl, rfl, fun _ => id⟩

theorem update_waited {d c : Nat} {w : Nat → Option Waiter} (there : w d ≠ none)
    (told : Waiter) : update w c (some told) d ≠ none := by
  by_cases eq : d = c
  · simp [eq]
  · rwa [update_of_ne eq]

theorem grantWaiters_same (n : Nat) (s : State) : Same s (s.grantWaiters n) := by
  induction n generalizing s with
  | zero => exact .refl s
  | succ n ih =>
    unfold State.grantWaiters
    split
    · exact .refl s
    · split
      · exact .refl s
      · split
        · exact .refl s
        · refine Same.trans ?_ (ih _)
          exact ⟨rfl, rfl, rfl, rfl, rfl, fun _ there => update_waited there _⟩

/-- The loop grants permits from the front of the queue until it is empty or its first waiter does
not fit. -/
theorem Good.grantWaiters (good : Good s q owners) (fuel : q.length ≤ n) :
    ∃ queue' owners', Good (s.grantWaiters n) queue' owners' ∧ owners <+: owners' ∧
      owners' ++ queue' = owners ++ q ∧ s.acquired ≤ (s.grantWaiters n).acquired ∧
      (s.grantWaiters n).Blocked queue' := by
  induction n generalizing s q owners with
  | zero =>
    cases length_eq_zero_iff.mp (Nat.le_zero.mp fuel)
    exact ⟨[], owners, good, prefix_refl _, rfl, le_refl _, nofun⟩
  | succ n ih =>
    unfold State.grantWaiters
    rw [good.line.head]
    cases q with
    | nil => exact ⟨[], owners, good, prefix_refl _, rfl, le_refl _, nofun⟩
    | cons c rest =>
      obtain ⟨waiter, call, found, -, bounds, -⟩ := (good.callers.each c).inside_of mem_cons_self
      have available : s.available = s.capacity - s.acquired := good.accounts.available
      rw [head?_cons]
      dsimp only
      rw [found]
      dsimp only
      rw [available]
      split
      · rename_i heavy
        refine ⟨c :: rest, owners, good, prefix_refl _, rfl, le_refl _,
          fun d back w same there => ?_⟩
        cases same
        cases found.symm.trans there
        exact heavy
      · rename_i fits
        have next := good.grantFirst found (not_lt.mp fits)
        obtain ⟨queue', owners', after, longer, order, more, blocked⟩ :=
          ih next (Nat.le_of_succ_le_succ fuel)
        refine ⟨queue', owners', after, (prefix_append _ _).trans longer,
          order.trans (append_assoc ..), le_trans ?_ more, blocked⟩
        have sum := (good.accounts.grant bounds.1 (not_lt.mp fits) 0).2
        change s.acquired ≤ int64 (s.acquired + waiter.weight)
        omega

theorem rejectWaiters_same (n : Nat) (s : State) :
    Same s (s.rejectWaiters n) ∧ (s.rejectWaiters n).acquired = s.acquired := by
  induction n generalizing s with
  | zero => exact ⟨.refl s, rfl⟩
  | succ n ih =>
    unfold State.rejectWaiters
    split
    · exact ⟨.refl s, rfl⟩
    · split
      · exact ⟨.refl s, rfl⟩
      · refine ⟨Same.trans ?_ (ih _).1, (ih _).2⟩
        exact ⟨rfl, rfl, rfl, rfl, rfl, fun _ there => update_waited there _⟩

theorem Good.rejectWaiters (good : Good s q owners) (fuel : q.length ≤ n) :
    Good (s.rejectWaiters n) [] owners := by
  induction n generalizing s q with
  | zero =>
    cases length_eq_zero_iff.mp (Nat.le_zero.mp fuel)
    exact good
  | succ n ih =>
    unfold State.rejectWaiters
    rw [good.line.head]
    cases q with
    | nil => exact good
    | cons c rest =>
      obtain ⟨w, call, found, -⟩ := (good.callers.each c).inside_of mem_cons_self
      rw [head?_cons]
      dsimp only
      rw [found]
      exact ih (good.rejectFirst found) (Nat.le_of_succ_le_succ fuel)

end Golib.Semaphore
