import Mathlib.Algebra.Order.BigOperators.Group.List
import Golib.RateLimit.Keys

/-! The concurrency leases of the process-local store: they are never more than the limit, a lease
is acquired again as it is, and an expired lease does not release a newer one. -/
namespace Golib.RateLimit.Memory

open Machine List
open Leases
variable {cur : State} {r : LeaseRequest} {lease : Lease} {ctx : Option String} {id : String}
  {now : Int}

/-! ### Costs -/

def Leases.total (leases : Leases) : Nat := (leases.entries.map fun entry => entry.2.cost).sum

variable {leases : Leases}

theorem Leases.total_le {leases' : Leases} (fewer : leases.entries.Sublist leases'.entries) :
    leases.total ≤ leases'.total :=
  (fewer.map _).sum_le_sum fun _ _ => Nat.zero_le _

theorem Leases.used_eq (small : leases.total < 2 ^ 64) : leases.used = leases.total := by
  unfold used total at *
  rw [foldl_addWord _ _ (by omega), Nat.zero_add]

theorem Leases.prune_sublist (leases : Leases) (now : Int) :
    (leases.prune now).entries.Sublist leases.entries := filter_sublist

theorem Leases.mem_prune {e : (_ : String) × LeaseState} :
    e ∈ (leases.prune now).entries ↔ e ∈ leases.entries ∧ e.2.expiresAt > now := by
  simp [prune]

theorem Leases.lookup_prune {lease : LeaseState} :
    lease ∈ (leases.prune now).lookup id ↔ lease ∈ leases.lookup id ∧ lease.expiresAt > now := by
  rw [AList.mem_lookup_iff, AList.mem_lookup_iff, mem_prune]

theorem Leases.total_insert (absent : leases.lookup id = none) (lease : LeaseState) :
    total (leases.insert id lease) = lease.cost + leases.total := by
  unfold total
  rw [AList.entries_insert_of_notMem (AList.lookup_eq_none.mp absent), map_cons, sum_cons]

/-! ### Steps -/

/-- What holds of a state that only leases are asked of. -/
structure State.Leased (current : State) (limit : Nat) : Prop where
  kind : current.algorithm = .concurrency
  unexpired : ∀ entry ∈ current.leases.entries, entry.2.expiresAt > current.lastSeen
  total : current.leases.total ≤ limit

variable {limit : Nat} {held : LeaseState}

theorem State.Leased.fewer (leased : cur.Leased limit)
    (fewer : leases.entries.Sublist cur.leases.entries) : { cur with leases }.Leased limit :=
  ⟨leased.kind, fun e mem => leased.unexpired e (fewer.subset mem),
    (total_le fewer).trans leased.total⟩

theorem State.found_leases (existing : Option State) (req : Request) :
    (State.found existing req).leases = (existing.map State.leases).getD ∅ ∧
      (State.found existing req).algorithm =
        (existing.map State.algorithm).getD req.policy.algorithm := by
  cases existing with
  | none => exact ⟨rfl, rfl⟩
  | some cur =>
    unfold State.found
    dsimp only
    split <;> exact ⟨rfl, rfl⟩

theorem State.acquire_again (there : held ∈ cur.leases.lookup r.leaseID)
    (clamped : max cur.lastSeen r.request.now = now) (unexpired : held.expiresAt > now)
    (eq : held.cost = r.request.cost) :
    (cur.acquire r).1 = { cur with lastSeen := now, leases := cur.leases.prune now } ∧
      ∃ lease, (cur.acquire r).2.1 = some lease ∧ lease.id = r.leaseID ∧
        lease.cost = r.request.cost ∧ lease.expiresAt = held.expiresAt := by
  have found : (cur.leases.prune now).lookup r.leaseID = some held :=
    lookup_prune.mpr ⟨there, unexpired⟩
  unfold State.acquire
  rw [State.clamp_eq, clamped]
  dsimp only
  rw [found]
  dsimp only
  rw [if_neg (not_not.mpr eq)]
  exact ⟨rfl, _, rfl, rfl, rfl, rfl⟩

theorem State.acquire_leases (clamped : max cur.lastSeen r.request.now = now) :
    (cur.acquire r).1 = { cur with lastSeen := now, leases := cur.leases.prune now } ∨
      (cur.leases.prune now).lookup r.leaseID = none ∧
        r.request.cost ≤ r.request.policy.limit -
          min (cur.leases.prune now).used r.request.policy.limit ∧
        (cur.acquire r).1 =
          { cur with
            lastSeen := now
            leases := (cur.leases.prune now).insert r.leaseID
              ⟨r.request.cost, now + r.request.policy.lease⟩ } := by
  unfold State.acquire
  rw [State.clamp_eq, clamped]
  dsimp only
  split
  · split
    · exact Or.inl rfl
    · exact Or.inl rfl
  · rename_i absent
    split
    · exact Or.inl rfl
    · rename_i enough
      exact Or.inr ⟨absent, not_lt.mp enough, rfl⟩

theorem State.acquire_lastSeen (cur : State) (r : LeaseRequest) :
    (cur.acquire r).1.lastSeen = max cur.lastSeen r.request.now := by
  rcases State.acquire_leases rfl with eq | ⟨-, -, granted⟩
  · rw [eq]
  · rw [granted]

theorem State.Leased.acquire (valid : r.request.policy.Valid)
    (concurrency : r.request.policy.algorithm = .concurrency)
    (leased : cur.Leased r.request.policy.limit) :
    (cur.acquire r).1.Leased r.request.policy.limit := by
  obtain ⟨kind, -, tot⟩ := leased
  have small := valid.exact
  unfold maxExactInteger at small
  have lasts := valid.lease concurrency
  obtain ⟨now, clamped⟩ : ∃ now, max cur.lastSeen r.request.now = now := ⟨_, rfl⟩
  have pruned : (cur.leases.prune now).total ≤ r.request.policy.limit :=
    (total_le (prune_sublist _ _)).trans tot
  have later : ∀ e ∈ (cur.leases.prune now).entries, e.2.expiresAt > now :=
    fun e mem => (mem_prune.mp mem).2
  rcases State.acquire_leases clamped with eq | ⟨absent, enough, granted⟩
  · rw [eq]
    exact ⟨kind, later, pruned⟩
  · rw [granted]
    rw [used_eq (by omega)] at enough
    refine ⟨kind, fun e mem => ?_, ?_⟩
    · rw [AList.entries_insert_of_notMem (AList.lookup_eq_none.mp absent)] at mem
      rcases mem_cons.mp mem with rfl | mem
      · exact lt_add_of_pos_right _ lasts
      · exact later e mem
    · rw [total_insert absent]
      dsimp only
      omega

theorem State.release_leases (cur : State) (lease : Lease) :
    (cur.release lease).1 = cur ∨
      (cur.release lease).1 = { cur with leases := cur.leases.erase lease.id } := by
  unfold State.release
  split
  · exact Or.inl rfl
  · split
    · exact Or.inl rfl
    · exact Or.inr rfl

theorem State.Leased.release_expired (leased : cur.Leased limit)
    (expired : lease.expiresAt ≤ cur.lastSeen) :
    (cur.release lease).1 = cur ∧ (cur.release lease).2 ≠ none := by
  unfold State.release
  split
  · exact ⟨rfl, by simp⟩
  · rename_i held found
    have later := leased.unexpired _ (AList.mem_lookup_iff.mp found)
    have other : held.cost ≠ lease.cost ∨ held.expiresAt ≠ lease.expiresAt :=
      Or.inr (by dsimp only at later; omega)
    rw [if_pos other]
    exact ⟨rfl, by simp⟩

/-! ### Runs -/

variable {existing next : Option State}

section

variable {p : Policy} (valid : p.Valid) (concurrency : p.algorithm = .concurrency) {key : String}

include valid concurrency

theorem keyStep_leased {label : Call × Reply} (step : KeyStep key label existing next)
    (under : ∀ req ∈ label.1.requestAt key, req.policy = p)
    (leased : ∀ cur ∈ existing, cur.Leased p.limit) :
    (∀ cur ∈ next, cur.Leased p.limit) ∧
      ∀ cur ∈ existing, ∃ after ∈ next, cur.lastSeen ≤ after.lastSeen := by
  cases step with
  | idle refused => exact ⟨leased, fun cur found => ⟨cur, found, le_refl _⟩⟩
  | @admission _ req valid windowed here suits =>
    have eq : req.policy = p := under req (if_pos here)
    exact absurd (eq ▸ concurrency) windowed
  | @acquire _ r checked here suits =>
    have eq : r.request.policy = p := under r.request (if_pos here)
    obtain ⟨leases, kind⟩ := State.found_leases existing r.request.canonical
    have seen := max_found_lastSeen existing r.request.canonical
    have found : (State.found existing r.request.canonical).Leased p.limit := by
      cases existing with
      | none =>
        exact ⟨kind.trans (by rw [← concurrency, ← eq]; rfl), by simp [leases],
          by simp [leases, total]⟩
      | some cur =>
        obtain ⟨kind', unexpired, total⟩ := leased cur rfl
        have lastSeen : (State.found (some cur) r.request.canonical).lastSeen = cur.lastSeen :=
          (found_windows (some cur) r.request.canonical).1
        exact ⟨kind.trans kind', by rw [leases, lastSeen]; exact unexpired,
          by rw [leases]; exact total⟩
    subst eq
    refine ⟨fun cur eq => ?_, fun cur there => ⟨_, rfl, ?_⟩⟩
    · cases eq
      exact found.acquire valid concurrency
    · rw [State.acquire_lastSeen, seen, there]
      exact le_max_left _ _
  | @release cur lease here =>
    rcases cur.release_leases lease with eq | erased
    · rw [eq]
      exact ⟨leased, fun cur found => ⟨cur, found, le_refl _⟩⟩
    · rw [erased]
      refine ⟨fun other eq => ?_, fun other found => ?_⟩
      · cases eq
        exact (leased cur rfl).fewer (kerase_sublist _ _)
      · cases found
        exact ⟨_, rfl, le_refl _⟩
  | @sweep _ now idleFor reply =>
    cases existing with
    | none => exact ⟨leased, fun cur found => by cases found⟩
    | some cur =>
      refine ⟨fun other eq => ?_, fun other found => ?_⟩
      · cases eq
        exact (leased cur rfl).fewer (prune_sublist _ _)
      · cases found
        exact ⟨_, rfl, le_refl _⟩

theorem run_leased {labels : List (Call × Reply)} {last : Option State}
    (run : Run (KeyStep key) existing labels last)
    (under : ∀ label ∈ labels, ∀ req ∈ label.1.requestAt key, req.policy = p)
    (leased : ∀ cur ∈ existing, cur.Leased p.limit) :
    (∀ cur ∈ last, cur.Leased p.limit) ∧
      ∀ cur ∈ existing, ∃ after ∈ last, cur.lastSeen ≤ after.lastSeen := by
  refine run.invariant (P := fun state => (∀ cur ∈ state, cur.Leased p.limit) ∧
    ∀ cur ∈ existing, ∃ after ∈ state, cur.lastSeen ≤ after.lastSeen) ?_
    ⟨leased, fun cur found => ⟨cur, found, le_refl _⟩⟩
  rintro label mem state next step ⟨before, seen⟩
  obtain ⟨after, later⟩ := keyStep_leased valid concurrency step (under label mem) before
  refine ⟨after, fun cur found => ?_⟩
  obtain ⟨middle, there, order⟩ := seen cur found
  obtain ⟨final, last, order'⟩ := later middle there
  exact ⟨final, last, order.trans order'⟩

end

variable {answer : Answer} {key : String}

theorem keyStep_granted (here : stateKey r.request = key)
    (step : KeyStep key (.acquire ctx r, .acquire (some lease, answer)) existing next) :
    next = some ((State.found existing r.request.canonical).acquire
      { r with request := r.request.canonical }).1 := by
  generalize reply : Reply.acquire (some lease, answer) = shown at step
  cases step with
  | idle refused =>
    subst reply
    cases (refused (congrArg some here)).1
  | acquire valid here suits => rfl

theorem keyStep_release {reply : Reply}
    (step : KeyStep key (.release ctx lease, reply) existing next) :
    next = existing ∨ ∃ cur, existing = some cur ∧ next = some (cur.release lease).1 := by
  cases step with
  | idle refused => exact Or.inl rfl
  | @release cur lease here => exact Or.inr ⟨cur, rfl, rfl⟩

theorem acquire_found {s : Store} (opened : s.closed = false)
    (checked : r.validate = .ok ()) (there : s.stateOf (stateKey r.request) = some cur)
    (suits : cur.algorithm = r.request.policy.algorithm) :
    (s.acquire none r).2 = ((State.found (some cur) r.request.canonical).acquire
        { r with request := r.request.canonical }).2 ∧
      (s.acquire none r).1.stateOf (stateKey r.request) =
        some ((State.found (some cur) r.request.canonical).acquire
          { r with request := r.request.canonical }).1 := by
  have entered : s.acquire none r =
      ((s.shardFor (stateKey r.request)).enter (stateKey r.request) r.request.canonical
        (fun e => (none, Decision.none, some e))
        (·.acquire { r with request := r.request.canonical })).map
        (s.setShard (stateKey r.request)) id := by
    unfold Store.acquire
    simp only [opened, Bool.false_eq_true, if_false, checked]
    rfl
  have suits' : cur.algorithm = r.request.canonical.policy.algorithm := suits
  rw [entered, enter_found there suits']
  refine ⟨rfl, ?_⟩
  change (s.setShard _ _).stateOf _ = _
  rw [Store.stateOf_setShard, if_pos rfl]
  exact AList.lookup_insert _

section

variable {s : Store} (opened : s.closed = false) {key : String} (absent : s.stateOf key = none)
  {p : Policy} (valid : p.Valid) (concurrency : p.algorithm = .concurrency) {cs : List Call}
  (open_ : Call.close ∉ cs) (kept : s.Keeps key cs)
  (under : ∀ call ∈ cs, ∀ req ∈ call.requestAt key, req.policy = p) {r : LeaseRequest}

include opened absent valid concurrency open_ kept under

theorem run_state_leased : ∀ cur ∈ (s.run cs).stateOf key, cur.Leased p.limit := by
  refine (run_leased valid concurrency (run_key opened open_ kept)
    (fun label mem => under _ (mem_trace mem)) ?_).1
  intro cur found
  rw [absent] at found
  cases found

/-- An unexpired lease is acquired again with its expiry, and no unexpired lease changes. -/
theorem run_acquire_again (found : cur ∈ (s.run cs).stateOf key) (checked : r.validate = .ok ())
    (here : stateKey r.request = key) (eq : r.request.policy = p)
    (there : held ∈ cur.leases.lookup r.leaseID) (cost : held.cost = r.request.cost)
    (unexpired : held.expiresAt > max cur.lastSeen r.request.canonical.now) :
    ∃ lease answer after,
      ((s.run cs).step (.acquire none r)).2 = .acquire (some lease, answer) ∧
      lease.id = r.leaseID ∧ lease.expiresAt = held.expiresAt ∧
      ((s.run cs).step (.acquire none r)).1.stateOf key = some after ∧
      after.leases = cur.leases.prune (max cur.lastSeen r.request.canonical.now) := by
  have kind := (run_state_leased opened absent valid concurrency open_ kept under cur found).kind
  subst here
  obtain ⟨answered, moved⟩ := acquire_found (run_opened opened open_) checked found
    (kind.trans (by rw [eq, concurrency]))
  have leases : (State.found (some cur) r.request.canonical).leases = cur.leases :=
    (State.found_leases (some cur) r.request.canonical).1
  have lastSeen : (State.found (some cur) r.request.canonical).lastSeen = cur.lastSeen :=
    (found_windows (some cur) r.request.canonical).1
  obtain ⟨next, lease, granted, id, -, expires⟩ :=
    @State.acquire_again (State.found (some cur) r.request.canonical)
      { r with request := r.request.canonical } _ held (by rw [leases]; exact there)
      (by rw [lastSeen]) unexpired cost
  refine ⟨lease, ((State.found (some cur) r.request.canonical).acquire
    { r with request := r.request.canonical }).2.2, _, ?_, id, expires, moved, ?_⟩
  · change Reply.acquire ((s.run cs).acquire none r).2 = _
    rw [answered, ← granted]
  · rw [next, leases]

/-- Once a lease was granted at an instant, the release of a lease that had expired by then changes
nothing at the key. -/
theorem run_release_expired {before : List Call} {newer old : RateLimit.Lease} {after : List Call}
    (split : cs = before ++ .acquire ctx r :: after)
    (here : stateKey r.request = key)
    (granted : ((s.run before).step (.acquire ctx r)).2 = .acquire (some newer, answer))
    (expired : old.expiresAt ≤
      clampTo (((s.run before).stateOf key).map State.lastSeen) r.request.canonical.now)
    (ctx' : Option String) :
    ((s.run cs).step (.release ctx' old)).1.stateOf key = (s.run cs).stateOf key := by
  have leased := run_state_leased opened absent valid concurrency open_ kept under
  have opened' := run_opened opened open_
  subst split
  -- The run up to the acquisition, the acquisition, and the run after it.
  obtain ⟨kept', next, later⟩ := keeps_append kept
  have open' : Call.close ∉ before := fun mem => open_ (mem_append_left _ mem)
  have close' : Call.close ∉ after := fun mem =>
    open_ (mem_append_right _ (mem_cons_of_mem _ mem))
  have openedB := run_opened opened open'
  have leasedB := run_state_leased opened absent valid concurrency open' kept'
    fun call mem => under call (mem_append_left _ mem)
  have step := step_key openedB (by simp : Call.acquire ctx r ≠ .close) next
  obtain ⟨leasedA, -⟩ := keyStep_leased valid concurrency step
    (under (.acquire ctx r) (by simp)) leasedB
  rw [granted] at step
  have state := keyStep_granted here step
  have rest := run_key (step_opened openedB (by simp : Call.acquire ctx r ≠ .close)) close' later
  obtain ⟨-, seen⟩ := run_leased valid concurrency rest (fun label mem => under _
    (mem_append_right _ (mem_cons_of_mem _ (mem_trace mem)))) leasedA
  obtain ⟨final, found, order⟩ := seen _ state
  rw [State.acquire_lastSeen] at order
  have instant := max_found_lastSeen ((s.run before).stateOf key) r.request.canonical
  have whole : s.run (before ++ .acquire ctx r :: after) =
      ((s.run before).step (.acquire ctx r)).1.run after := runMachine_append _ _ _ _
  rw [← whole] at found
  rcases keyStep_release (step_release opened') with eq | ⟨cur, there, released⟩
  · exact eq
  · rw [there] at found
    cases found
    have unchanged := ((leased _ there).release_expired (expired.trans (instant ▸ order))).1
    rw [there, ← unchanged]
    exact released

end

/-- Leases never oversubscribe. Under one concurrency policy, whatever else the store is asked for,
the unexpired leases at the key are within the limit; an unexpired lease is acquired again with its
expiry, and no unexpired lease changes; and once a lease is granted at an instant, the release of
one that had expired by then changes nothing at the key, now or later. -/
theorem leases_never_oversubscribe {options : Options} {store : Store}
    (made : Store.new options = .ok store) {spec : PolicySpec} {policy : Policy}
    (built : newPolicy spec = .ok policy) (concurrency : policy.algorithm = .concurrency)
    {key : String} {calls : List Call} (open_ : Call.close ∉ calls) (kept : store.Keeps key calls)
    (under : ∀ call ∈ calls, ∀ request ∈ call.requestAt key, request.policy = policy) :
    (∀ current ∈ (store.run calls).stateOf key,
        (current.leases.prune current.lastSeen).total ≤ policy.limit) ∧
      (∀ current ∈ (store.run calls).stateOf key, ∀ (r : LeaseRequest) (held : LeaseState),
        r.validate = .ok () → stateKey r.request = key → r.request.policy = policy →
        held ∈ current.leases.lookup r.leaseID → held.cost = r.request.cost →
        held.expiresAt > max current.lastSeen r.request.canonical.now →
        ∃ lease answer after,
          ((store.run calls).step (.acquire none r)).2 = .acquire (some lease, answer) ∧
          lease.id = r.leaseID ∧ lease.expiresAt = held.expiresAt ∧
          ((store.run calls).step (.acquire none r)).1.stateOf key = some after ∧
          after.leases = current.leases.prune (max current.lastSeen r.request.canonical.now)) ∧
      ∀ (before after : List Call) (ctx : Option String) (r : LeaseRequest) (newer : Lease)
          (answer : Answer) (old : Lease),
        calls = before ++ .acquire ctx r :: after → stateKey r.request = key →
        ((store.run before).step (.acquire ctx r)).2 = .acquire (some newer, answer) →
        old.expiresAt ≤ clampTo (((store.run before).stateOf key).map State.lastSeen)
          r.request.canonical.now →
        ∀ ctx, ((store.run calls).step (.release ctx old)).1.stateOf key =
          (store.run calls).stateOf key := by
  obtain ⟨opened, absent⟩ := new_opened made
  have valid := newPolicy_valid built
  refine ⟨fun current found => ?_, fun current found r held checked here same there cost
    unexpired => ?_,
    fun before after ctx r newer answer old split here granted expired ctx' => ?_⟩
  · have leased := run_state_leased opened (absent key) valid concurrency open_ kept under
      current found
    exact (total_le (prune_sublist _ _)).trans leased.total
  · exact run_acquire_again opened (absent key) valid concurrency open_ kept under
      found checked here
      same there cost unexpired
  · exact run_release_expired opened (absent key) valid concurrency open_ kept under
      split here granted
      expired ctx'

/-! A pool of two leases of a second each. -/

def poolSpec : PolicySpec where
  id := "pool"
  revision := "v1"
  algorithm := .concurrency
  capacity := 2
  period := 0
  burst := 0
  maxCost := 0
  failureMode := .failClosed
  consistency := .unset
  lease := 1000000000

def poolPolicy : Policy where
  id := "pool"
  revision := "v1"
  algorithm := .concurrency
  capacity := 2
  period := 0
  burst := 0
  maxCost := 2
  failureMode := .failClosed
  consistency := .processLocal
  lease := 1000000000

def poolLease (now : Int) : LeaseRequest := ⟨⟨poolPolicy, ⟨"user"⟩, 1, now⟩, "worker"⟩

/-- The lease of a worker is acquired, and again after it expired. It may then be acquired once more
with its expiry, and its first release comes to nothing. -/
def poolCalls : List Call := [.acquire none (poolLease 0), .acquire none (poolLease 1000000000)]

theorem leases_never_oversubscribe_pool :
    (∀ current ∈ (tenKeys.run poolCalls).stateOf "pool\x00user",
        (current.leases.prune current.lastSeen).total ≤ 2) ∧
      ((tenKeys.run poolCalls).stateOf "pool\x00user").map (fun current => current.leases.entries) =
        some [⟨"worker", 1, 2000000000⟩] ∧
      (∃ lease answer, ((tenKeys.run poolCalls).step (.acquire none (poolLease 1500000000))).2 =
        .acquire (some lease, answer) ∧ lease.expiresAt = 2000000000) ∧
      ∀ ctx, ((tenKeys.run poolCalls).step
          (.release ctx (makeLease (poolLease 0) 1000000000))).1.stateOf "pool\x00user" =
        (tenKeys.run poolCalls).stateOf "pool\x00user" := by
  obtain ⟨total, reacquired, released⟩ := leases_never_oversubscribe new_tenKeys
    (by decide +kernel : newPolicy poolSpec = .ok poolPolicy) rfl
    (by simp [poolCalls] : Call.close ∉ poolCalls)
    (by decide +kernel : tenKeys.Keeps "pool\x00user" poolCalls) (by decide +kernel)
  have held : ∃ current, (tenKeys.run poolCalls).stateOf "pool\x00user" = some current ∧
      current.leases.lookup "worker" = some ⟨1, 2000000000⟩ ∧
      current.lastSeen = 1000000000 := by decide +kernel
  obtain ⟨current, found, member, seen⟩ := held
  obtain ⟨lease, answer, _, granted, -, expiry, -⟩ := reacquired current found
    (poolLease 1500000000) _ (by decide) rfl rfl member rfl (by rw [seen]; decide)
  refine ⟨total, by decide +kernel, ⟨lease, answer, granted, expiry⟩, ?_⟩
  exact released [.acquire none (poolLease 0)] [] none (poolLease 1000000000)
    (makeLease (poolLease 1000000000) 2000000000)
      (⟨true, 2, 1, 2000000000, 0, .allowed⟩, none) _ rfl
    (by decide +kernel) (by decide +kernel) (by decide +kernel)

end Golib.RateLimit.Memory
