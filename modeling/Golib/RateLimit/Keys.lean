import Golib.Lib.Runs
import Golib.RateLimit.Memory

/-! What a run of the process-local store does to the state of one key. The other keys of the shard
matter only when they push the key out. -/
namespace Golib.RateLimit.Memory

open Store List

def Store.run (store : Store) (calls : List Call) : Store := runMachine step store calls

def Store.trace (store : Store) (calls : List Call) : List (Call × Reply) :=
  calls.zip (outputs step store calls)

def Store.stateOf (store : Store) (key : String) : Option State :=
  (store.shardFor key).states.lookup key

/-- The key is never evicted or swept: once it has a state it keeps one. -/
def Store.Keeps (key : String) : Store → List Call → Prop
  | _, [] => True
  | store, call :: rest =>
    (store.stateOf key ≠ none → (store.step call).1.stateOf key ≠ none) ∧
      (store.step call).1.Keeps key rest

instance decidableKeeps (key : String) : (store : Store) → (calls : List Call) →
    Decidable (store.Keeps key calls)
  | _, [] => isTrue trivial
  | store, call :: rest =>
    have := decidableKeeps key (store.step call).1 rest
    inferInstanceAs (Decidable ((_ → _) ∧ _))

def Decided (answer : Answer) : Prop := answer.2 = none ∨ answer.2 = some .rejected

instance (answer : Answer) : Decidable (Decided answer) := inferInstanceAs (Decidable (_ ∨ _))

/-- A reply that no state of the key was asked for. -/
def Reply.Refused : Reply → Prop
  | .admission answer => ¬ Decided answer
  | .acquire answer => answer.1 = none ∧ ¬ Decided answer.2
  | .release e => e ≠ none
  | _ => True

def Call.key : Call → Option String
  | .admission _ request => some (stateKey request)
  | .acquire _ r => some (stateKey r.request)
  | .release _ lease => some (leaseKey lease)
  | _ => none

/-- The state there is of the algorithm of the request. -/
def Suits (existing : Option State) (request : Request) : Prop :=
  ∀ current ∈ existing, current.algorithm = request.policy.algorithm

/-- What a call and its reply can mean for the state of one key. -/
inductive KeyStep (key : String) : Call × Reply → Option State → Option State → Prop where
  | idle {call : Call} {reply : Reply} {existing : Option State}
      (refused : call.key = some key → reply.Refused) : KeyStep key (call, reply) existing existing
  | admission {existing : Option State} {request : Request} (valid : request.validate = .ok ())
      (windowed : request.policy.algorithm ≠ .concurrency) (here : stateKey request = key)
      (suits : Suits existing request) :
      KeyStep key
        (.admission none request,
          .admission ((State.found existing request.canonical).admission request.canonical).2)
        existing (some ((State.found existing request.canonical).admission request.canonical).1)
  | acquire {existing : Option State} {r : LeaseRequest} (valid : r.validate = .ok ())
      (here : stateKey r.request = key) (suits : Suits existing r.request) :
      KeyStep key
        (.acquire none r,
          .acquire ((State.found existing r.request.canonical).acquire
            { r with request := r.request.canonical }).2)
        existing
        (some ((State.found existing r.request.canonical).acquire
          { r with request := r.request.canonical }).1)
  | release {current : State} {lease : Lease} (here : leaseKey lease = key) :
      KeyStep key (.release none lease, .release (current.release lease).2) (some current)
        (some (current.release lease).1)
  | sweep {existing : Option State} {now idleFor : Int} {reply : Reply} :
      KeyStep key (.sweep now idleFor, reply) existing
        (existing.map (·.prune now))

/-! ### Shards -/

variable {now idleFor : Int} {s : Store} {key other : String} {target target' : Shard}
  {req : Request} {cs : List Call} {cur : State} {call : Call} {label : Call × Reply}

theorem Store.shardIndex_setShard (s : Store) (key other : String) (target : Shard) :
    (s.setShard other target).shardIndex key = s.shardIndex key := by
  simp [shardIndex, setShard]

theorem Store.shardFor_setShard (s : Store) (key other : String) (target : Shard) :
    (s.setShard other target).shardFor key =
      if s.shardIndex other = s.shardIndex key then target else s.shardFor key := by
  simp only [shardFor, get_eq_getElem, shardIndex_setShard]
  simp only [setShard, getElem_set]

theorem Store.stateOf_setShard (s : Store) (key other : String) (target : Shard) :
    (s.setShard other target).stateOf key =
      if s.shardIndex other = s.shardIndex key then target.states.lookup key
      else s.stateOf key := by
  rw [stateOf, shardFor_setShard]
  split <;> rfl

theorem Store.shardFor_eq (eq : s.shardIndex other = s.shardIndex key) :
    s.shardFor other = s.shardFor key := by
  unfold shardFor
  simp only [eq]

theorem evictOldest_lookup (evicted : target.evictOldest now = some target') (key : String) :
    target'.states.lookup key = target.states.lookup key ∨ target'.states.lookup key = none := by
  unfold Shard.evictOldest at evicted
  split at evicted
  · cases evicted
  · rename_i oldest _ _
    cases evicted
    by_cases eq : key = oldest.1
    · exact Or.inr (by rw [eq]; exact AList.lookup_erase _ _)
    · exact Or.inl (AList.lookup_erase_ne eq)

theorem getOrCreate_ok (got : target.getOrCreate key req = .ok (cur, target')) :
    cur = State.found (target.states.lookup key) req ∧
      ∀ other, target'.states.lookup other = target.states.lookup other ∨
        target'.states.lookup other = none := by
  unfold Shard.getOrCreate at got
  split at got
  · rename_i found
    cases got
    exact ⟨by rw [found], fun other => Or.inl rfl⟩
  · rename_i absent
    split at got
    · split at got
      · cases got
      · rename_i evicted
        cases got
        exact ⟨by rw [absent], evictOldest_lookup evicted⟩
    · cases got
      exact ⟨by rw [absent], fun other => Or.inl rfl⟩

theorem getOrCreate_error {e : RateLimit.Err}
    (failed : target.getOrCreate key req = .error e) : e = .unavailable := by
  unfold Shard.getOrCreate at failed
  split at failed
  · cases failed
  · split at failed
    · split at failed
      · exact (Except.error.inj failed).symm
      · cases failed
    · cases failed

section

variable {α : Type} {failed : Err → α} {step : State → State × α}

/-- A step is refused and leaves the shard alone, or it is taken on the state of the key. -/
theorem enter_cases :
    (target.enter key req failed step).1 = target ∧
        (∃ e, (e = .corrupt ∨ e = .unavailable) ∧ (target.enter key req failed step).2 = failed e) ∨
      Suits (target.states.lookup key) req ∧
        (target.enter key req failed step).1.states.lookup key =
          some (step (State.found (target.states.lookup key) req)).1 ∧
        (target.enter key req failed step).2 =
          (step (State.found (target.states.lookup key) req)).2 ∧
        ∀ other, other ≠ key →
          (target.enter key req failed step).1.states.lookup other =
              target.states.lookup other ∨
            (target.enter key req failed step).1.states.lookup other = none := by
  unfold Shard.enter
  by_cases mismatch : (target.states.lookup key).any
      fun old => decide (old.algorithm ≠ req.policy.algorithm)
  · rw [if_pos mismatch]
    exact Or.inl ⟨rfl, .corrupt, Or.inl rfl, rfl⟩
  · rw [if_neg mismatch]
    have suits : Suits (target.states.lookup key) req := by
      intro cur found
      rw [Option.mem_def.mp found] at mismatch
      simpa using mismatch
    cases got : target.getOrCreate key req with
    | error e =>
      exact Or.inl ⟨rfl, e, Or.inr (getOrCreate_error got), rfl⟩
    | ok entry =>
      obtain ⟨cur, target'⟩ := entry
      obtain ⟨rfl, others⟩ := getOrCreate_ok got
      refine Or.inr ⟨suits, AList.lookup_insert _, rfl, fun other apart => ?_⟩
      have eq : (target'.states.insert key
          (step (State.found (target.states.lookup key) req)).1).lookup other =
          target'.states.lookup other := AList.lookup_insert_ne apart
      rw [eq]
      exact others other

theorem enter_found (there : target.states.lookup key = some cur)
    (suits : cur.algorithm = req.policy.algorithm) :
    target.enter key req failed step =
      ({ target with
         states := target.states.insert key (step (State.found (some cur) req)).1 },
        (step (State.found (some cur) req)).2) := by
  have matches_ : ¬ (target.states.lookup key).any
      (fun old => decide (old.algorithm ≠ req.policy.algorithm)) := by
    rw [there]
    simpa using suits
  have got : target.getOrCreate key req = .ok (State.found (some cur) req, target) := by
    unfold Shard.getOrCreate
    rw [there]
  unfold Shard.enter
  rw [if_neg matches_, got]

end

/-! ### Calls -/

section

variable {α : Type} {failed : Err → α} {step : State → State × α}

/-- A call that enters a shard is refused, or steps the state of its key. Another key keeps its
state unless it is evicted. -/
theorem enter_step (reply : α → Reply) (here : call.key = some other)
    (refused : ∀ e, e = .corrupt ∨ e = .unavailable → (reply (failed e)).Refused)
    (taken : Suits (s.stateOf other) req →
      KeyStep other (call, reply (step (State.found (s.stateOf other) req)).2)
        (s.stateOf other) (some (step (State.found (s.stateOf other) req)).1))
    (kept : s.stateOf key ≠ none →
      (s.setShard other ((s.shardFor other).enter other req failed step).1).stateOf key ≠ none) :
    KeyStep key (call, reply ((s.shardFor other).enter other req failed step).2)
      (s.stateOf key)
      ((s.setShard other ((s.shardFor other).enter other req failed step).1).stateOf key) := by
  rw [stateOf_setShard] at kept ⊢
  by_cases own : other = key
  · subst own
    rw [if_pos rfl]
    rcases enter_cases with ⟨eq, e, error, failed⟩ | ⟨suits, found, answer, -⟩
    · rw [eq, failed]
      exact .idle fun _ => refused e error
    · rw [found, answer]
      exact taken suits
  · have idle : KeyStep key (call, reply ((s.shardFor other).enter other req failed step).2)
        (s.stateOf key) (s.stateOf key) :=
      .idle fun wrong => absurd (Option.some.inj (here.symm.trans wrong)) own
    split
    · rename_i eq
      rw [if_pos eq] at kept
      have before : s.stateOf key = (s.shardFor other).states.lookup key := by
        rw [stateOf, shardFor_eq eq]
      rcases enter_cases with ⟨unchanged, -⟩ | ⟨-, -, -, others⟩
      · rwa [unchanged, ← before]
      · rcases others key (Ne.symm own) with equal | gone
        · rwa [equal, ← before]
        · rw [gone, ← not_imp_not.mp kept gone]
          exact idle
    · exact idle

end

theorem admit_cases (opened : s.closed = false) (ctx : Option String) (req : Request) :
    (s.admission ctx req).1 = s ∧ ¬ Decided (s.admission ctx req).2 ∨
      ctx = none ∧ req.validate = .ok () ∧ req.policy.algorithm ≠ .concurrency ∧
        s.admission ctx req =
          ((s.shardFor (stateKey req)).enter (stateKey req) req.canonical
            (fun e => (Decision.none, some e)) (·.admission req.canonical)).map
            (s.setShard (stateKey req)) id := by
  unfold admission
  simp only [opened, Bool.false_eq_true, if_false]
  cases ctx with
  | some cause => exact Or.inl ⟨rfl, by simp [Decided]⟩
  | none =>
    cases checked : req.validate with
    | error e =>
      obtain ⟨detail, rfl⟩ := validate_error checked
      exact Or.inl ⟨rfl, by simp [Decided]⟩
    | ok u =>
      by_cases leased : req.policy.algorithm = .concurrency
      · rw [if_pos leased]
        exact Or.inl ⟨rfl, by simp [Decided]⟩
      · rw [if_neg leased]
        exact Or.inr ⟨rfl, rfl, leased, rfl⟩

theorem acquire_cases (opened : s.closed = false) (ctx : Option String) (r : LeaseRequest) :
    (s.acquire ctx r).1 = s ∧ (Reply.acquire (s.acquire ctx r).2).Refused ∨
      ctx = none ∧ r.validate = .ok () ∧
        s.acquire ctx r =
          ((s.shardFor (stateKey r.request)).enter (stateKey r.request) r.request.canonical
            (fun e => (none, Decision.none, some e))
            (·.acquire { r with request := r.request.canonical })).map
            (s.setShard (stateKey r.request)) id := by
  unfold acquire
  simp only [opened, Bool.false_eq_true, if_false]
  cases ctx with
  | some cause => exact Or.inl ⟨rfl, rfl, by simp [Decided]⟩
  | none =>
    cases checked : r.validate with
    | error e =>
      obtain ⟨detail, rfl⟩ := lease_validate_error checked
      exact Or.inl ⟨rfl, rfl, by simp [Decided]⟩
    | ok u => exact Or.inr ⟨rfl, rfl, rfl⟩

theorem sweep_lookup (target : Shard) (key : String) (now idleFor : Int) :
    (target.sweep now idleFor).1.states.lookup key = none ∨
      (target.sweep now idleFor).1.states.lookup key =
        (target.states.lookup key).map (·.prune now) := by
  simp only [Shard.sweep, AList.lookup_to_alist]
  generalize kept : filter _ _ = left
  cases found : dlookup key left with
  | none => exact Or.inl rfl
  | some pruned =>
    rw [← kept] at found
    obtain ⟨e, listed, eq⟩ := mem_map.mp (mem_of_mem_filter (of_mem_dlookup found))
    cases eq
    have before : target.states.lookup e.1 = some e.2 := mem_dlookup target.states.nodupKeys listed
    refine Or.inr ?_
    rw [before]
    rfl

def Swept (store next : Store) (now idleFor : Int) : Prop :=
  next.closed = false ∧ next.shards = store.shards.map fun target => (target.sweep now idleFor).1

theorem sweep_cases (opened : s.closed = false) (now idleFor : Int) :
    (s.sweep now idleFor).1 = s ∨ Swept s (s.sweep now idleFor).1 now idleFor := by
  unfold sweep
  simp only [opened, Bool.false_eq_true, if_false]
  by_cases unset : now = zeroTime
  · rw [if_pos unset]
    exact Or.inl rfl
  · rw [if_neg unset]
    by_cases neg : idleFor ≤ 0
    · rw [if_pos neg]
      exact Or.inl rfl
    · rw [if_neg neg]
      exact Or.inr ⟨rfl, map_map ..⟩

theorem stateOf_sweep {next : Store} (swept : Swept s next now idleFor) :
    next.stateOf key = ((s.shardFor key).sweep now idleFor).1.states.lookup key := by
  obtain ⟨-, shards⟩ := swept
  have i : next.shardIndex key = s.shardIndex key := by
    rw [shardIndex, shards, length_map, shardIndex]
  have shard : next.shardFor key = ((s.shardFor key).sweep now idleFor).1 := by
    simp only [shardFor, get_eq_getElem, i, shards, getElem_map]
  rw [stateOf, shard]

section

variable (opened : s.closed = false) {call : Call} {ctx : Option String}

include opened

theorem step_admission (kept : s.stateOf key ≠ none → (s.admission ctx req).1.stateOf key ≠ none) :
    KeyStep key (.admission ctx req, .admission (s.admission ctx req).2) (s.stateOf key)
      ((s.admission ctx req).1.stateOf key) := by
  rcases admit_cases opened ctx req with ⟨eq, refused⟩ | ⟨rfl, valid, windowed, entered⟩
  · rw [eq]
    exact .idle fun _ => refused
  · rw [entered] at kept ⊢
    refine enter_step Reply.admission rfl ?_ (.admission valid windowed rfl) kept
    rintro e (rfl | rfl) <;> simp [Reply.Refused, Decided]

theorem step_acquire {r : RateLimit.LeaseRequest}
    (kept : s.stateOf key ≠ none → (s.acquire ctx r).1.stateOf key ≠ none) :
    KeyStep key (.acquire ctx r, .acquire (s.acquire ctx r).2) (s.stateOf key)
      ((s.acquire ctx r).1.stateOf key) := by
  rcases acquire_cases opened ctx r with ⟨eq, refused⟩ | ⟨rfl, valid, entered⟩
  · rw [eq]
    exact .idle fun _ => refused
  · rw [entered] at kept ⊢
    refine enter_step Reply.acquire rfl ?_ (.acquire valid rfl) kept
    rintro e (rfl | rfl) <;> simp [Reply.Refused, Decided]

theorem step_release {lease : RateLimit.Lease} :
    KeyStep key (.release ctx lease, .release (s.release ctx lease).2) (s.stateOf key)
      ((s.release ctx lease).1.stateOf key) := by
  unfold release
  simp only [opened, Bool.false_eq_true, if_false]
  cases ctx with
  | some cause => exact .idle fun _ => by simp [Reply.Refused]
  | none =>
    cases found : (s.shardFor (leaseKey lease)).states.lookup (leaseKey lease) with
    | none => exact .idle fun _ => by simp [Reply.Refused]
    | some cur =>
      rw [stateOf_setShard]
      by_cases here : leaseKey lease = key
      · subst here
        have before : s.stateOf (leaseKey lease) = some cur := found
        rw [if_pos rfl, before]
        have after : ((s.shardFor (leaseKey lease)).states.insert (leaseKey lease)
            (cur.release lease).1).lookup (leaseKey lease) = some (cur.release lease).1 :=
          AList.lookup_insert _
        rw [after]
        exact .release rfl
      · have unchanged : (if s.shardIndex (leaseKey lease) = s.shardIndex key then
            ((s.shardFor (leaseKey lease)).states.insert (leaseKey lease)
              (cur.release lease).1).lookup key else s.stateOf key) = s.stateOf key := by
          split
          · rename_i eq
            rw [AList.lookup_insert_ne (Ne.symm here), stateOf, shardFor_eq eq]
          · rfl
        rw [unchanged]
        exact .idle fun wrong => absurd (Option.some.inj wrong) here

theorem step_sweep (kept : s.stateOf key ≠ none → (s.sweep now idleFor).1.stateOf key ≠ none) :
    KeyStep key (.sweep now idleFor, .sweep (s.sweep now idleFor).2) (s.stateOf key)
      ((s.sweep now idleFor).1.stateOf key) := by
  rcases sweep_cases opened now idleFor with eq | swept
  · rw [eq]
    exact .idle fun wrong => by cases wrong
  · rw [stateOf_sweep swept] at kept ⊢
    rcases sweep_lookup (s.shardFor key) key now idleFor with gone | pruned
    · have absent : s.stateOf key = none := by
        by_contra some
        exact kept some gone
      rw [gone, absent]
      exact .idle fun wrong => by cases wrong
    · rw [pruned]
      exact .sweep

theorem step_key (open_ : call ≠ .close)
    (kept : s.stateOf key ≠ none → (s.step call).1.stateOf key ≠ none) :
    KeyStep key (call, (s.step call).2) (s.stateOf key) ((s.step call).1.stateOf key) := by
  cases call with
  | admission ctx req => exact step_admission opened kept
  | acquire ctx r => exact step_acquire opened kept
  | release ctx lease => exact step_release opened
  | sweep now idleFor => exact step_sweep opened kept
  | close => exact absurd rfl open_

theorem step_opened (open_ : call ≠ .close) : (s.step call).1.closed = false := by
  cases call with
  | admission ctx req =>
    rcases admit_cases opened ctx req with ⟨eq, -⟩ | ⟨-, -, -, entered⟩
    · change (s.admission ctx req).1.closed = false
      rwa [eq]
    · change (s.admission ctx req).1.closed = false
      rwa [entered]
  | acquire ctx r =>
    rcases acquire_cases opened ctx r with ⟨eq, -⟩ | ⟨-, -, entered⟩
    · change (s.acquire ctx r).1.closed = false
      rwa [eq]
    · change (s.acquire ctx r).1.closed = false
      rwa [entered]
  | release ctx lease =>
    change (s.release ctx lease).1.closed = false
    unfold release
    simp only [opened, Bool.false_eq_true, if_false]
    cases ctx with
    | some cause => exact opened
    | none =>
      dsimp only
      split
      · exact opened
      · exact opened
  | sweep now idleFor =>
    rcases sweep_cases opened now idleFor with eq | swept
    · change (s.sweep now idleFor).1.closed = false
      rwa [eq]
    · exact swept.1
  | close => exact absurd rfl open_

end

theorem run_key (opened : s.closed = false) (open_ : Call.close ∉ cs) (kept : s.Keeps key cs) :
    Run (KeyStep key) (s.stateOf key) (s.trace cs) ((s.run cs).stateOf key) := by
  induction cs generalizing s with
  | nil => exact .nil _
  | cons call rest ih =>
    have first : call ≠ .close := fun eq => open_ (eq ▸ mem_cons_self)
    refine .cons (step_key opened first kept.1) ?_
    exact ih (step_opened opened first) (fun mem => open_ (mem_cons_of_mem _ mem)) kept.2

theorem run_opened (opened : s.closed = false) (open_ : Call.close ∉ cs) :
    (s.run cs).closed = false := by
  induction cs generalizing s with
  | nil => exact opened
  | cons call rest ih =>
    have first : call ≠ .close := fun eq => open_ (eq ▸ mem_cons_self)
    exact ih (step_opened opened first) fun mem => open_ (mem_cons_of_mem _ mem)

theorem keeps_append {front rest : List Call} (kept : s.Keeps key (front ++ rest)) :
    s.Keeps key front ∧ (s.run front).Keeps key rest := by
  induction front generalizing s with
  | nil => exact ⟨trivial, kept⟩
  | cons call front ih => exact ⟨⟨kept.1, (ih kept.2).1⟩, (ih kept.2).2⟩

theorem new_opened {options : Options} (made : new options = .ok s) :
    s.closed = false ∧ ∀ key, s.stateOf key = none := by
  unfold new at made
  split_ifs at made
  cases made
  refine ⟨rfl, fun key => ?_⟩
  simp only [stateOf, shardFor, get_eq_getElem, getElem_map]
  rfl

/-- A store for ten keys in two shards. -/
def tenKeys : Store := ⟨[⟨5, ∅⟩, ⟨5, ∅⟩], false, by decide⟩

theorem new_tenKeys : new ⟨10, 2⟩ = .ok tenKeys := rfl

/-! ### Decisions -/

def Call.requestAt (key : String) : Call → Option Request
  | .admission _ request => if stateKey request = key then some request else none
  | .acquire _ r => if stateKey r.request = key then some r.request else none
  | _ => none

/-- The admission at the key that was decided, with its answer. -/
def decision (key : String) : Call × Reply → Option (Request × Answer)
  | (.admission _ request, .admission answer) =>
    if stateKey request = key ∧ Decided answer then some (request, answer) else none
  | _ => none

/-- The admissions at the key that the store decides in a run, with their answers. -/
def Store.decisions (store : Store) (key : String) (calls : List Call) : List (Request × Answer) :=
  (store.trace calls).filterMap (decision key)

/-- The instant of a request, not before the last one seen. -/
def clampTo (seen : Option Int) (now : Int) : Int := seen.elim now (max · now)

/-- The decisions of a run as instants, each not before the last one, and the cost that was
admitted at them. -/
def admissions (seen : Option Int) : List (Request × Answer) → List (Int × Nat)
  | [] => []
  | (request, answer) :: rest =>
    let now := clampTo seen request.canonical.now
    (now, if answer.1.allowed then request.cost else 0) :: admissions (some now) rest

theorem State.clamp_eq (cur : State) (req : Request) :
    cur.clamp req = { req with now := max cur.lastSeen req.now } := by
  unfold State.clamp
  split
  · rename_i before
    rw [max_eq_left before.le]
  · rename_i after
    rw [max_eq_right (not_lt.mp after)]

theorem found_windows (old : Option State) (req : Request) :
    (State.found old req).lastSeen = (old.map State.lastSeen).getD req.now ∧
      (State.found old req).windowStart = (old.map State.windowStart).getD 0 ∧
      (State.found old req).used = (old.map State.used).getD 0 ∧
      (State.found old req).segments = (old.map State.segments).getD (fun _ => .empty) := by
  cases old with
  | none => exact ⟨rfl, rfl, rfl, rfl⟩
  | some cur =>
    unfold State.found
    dsimp only
    split
    · exact ⟨rfl, rfl, rfl, rfl⟩
    · exact ⟨rfl, rfl, rfl, rfl⟩

def instantsAt (key : String) (calls : List Call) : List Int :=
  (calls.filterMap (Call.requestAt key)).map fun request => request.canonical.now

theorem mem_instantsAt (mem : call ∈ cs) (at_ : req ∈ call.requestAt key) :
    req.canonical.now ∈ instantsAt key cs :=
  mem_map_of_mem (mem_filterMap.mpr ⟨call, mem, at_⟩)

theorem clampTo_mem {seen : Option Int} {instants : List Int} (before : ∀ t ∈ seen, t ∈ instants)
    (known : now ∈ instants) : clampTo seen now ∈ instants := by
  cases seen with
  | none => exact known
  | some last =>
    change max last now ∈ instants
    rcases max_choice last now with eq | eq
    · rw [eq]
      exact before last rfl
    · rw [eq]
      exact known

theorem max_found_lastSeen (old : Option State) (req : Request) :
    max (State.found old req).lastSeen req.now = clampTo (old.map State.lastSeen) req.now := by
  rw [(found_windows old req).1]
  cases old with
  | none => exact max_self _
  | some cur => rfl

theorem spend_decided (used : Nat) (req : Request) (reset : Int) :
    Decided (spend used req reset).2 := by
  unfold spend
  dsimp only
  split
  · exact Or.inr rfl
  · exact Or.inl rfl

theorem State.admit_decided (cur : State) (req : Request) : Decided (cur.admission req).2 := by
  unfold State.admission
  dsimp only
  split
  · unfold admitToken
    dsimp only
    split
    · exact Or.inr rfl
    · exact Or.inl rfl
  · exact spend_decided ..
  · exact spend_decided ..

/-- A request at the key that its state was asked for, and the state after it. -/
structure Served (key : String) (request : Request) (answer : Answer)
    (existing next : Option State) : Prop where
  valid : request.validate = .ok ()
  windowed : request.policy.algorithm ≠ .concurrency
  here : stateKey request = key
  suits : Suits existing request
  answer : answer = ((State.found existing request.canonical).admission request.canonical).2
  next : next = some ((State.found existing request.canonical).admission request.canonical).1

/-- Where no leases are asked for, a call decides an admission at the key or it changes at most the
leases of its state. -/
theorem keyStep_cases {old next : Option State} (step : KeyStep key label old next)
    (windowed : ∀ req ∈ label.1.requestAt key, req.policy.algorithm ≠ .concurrency) :
    decision key label = none ∧ (next = old ∨
        ∃ cur leases, old = some cur ∧ next = some { cur with leases }) ∨
      ∃ req answer, decision key label = some (req, answer) ∧
        req ∈ label.1.requestAt key ∧ Served key req answer old next := by
  cases step with
  | @idle call reply _ refused =>
    refine Or.inl ⟨?_, Or.inl rfl⟩
    unfold decision
    split
    · rename_i req answer eq
      cases eq
      refine if_neg fun decided => ?_
      exact refused (congrArg some decided.1) decided.2
    · rfl
  | @admission _ req valid unleased here suits =>
    have decided := (State.found old req.canonical).admit_decided req.canonical
    refine Or.inr ⟨req, _, if_pos ⟨here, decided⟩, ?_, valid, unleased, here, suits, rfl, rfl⟩
    exact if_pos here
  | @acquire _ r valid here suits =>
    have mem : r.request ∈ (Call.acquire none r).requestAt key := if_pos here
    exact absurd (lease_validate_ok valid).2 (windowed _ mem)
  | @release cur lease here =>
    refine Or.inl ⟨rfl, Or.inr ⟨cur, (cur.release lease).1.leases, rfl, ?_⟩⟩
    unfold State.release
    split
    · rfl
    · split <;> rfl
  | @sweep _ now idleFor reply =>
    refine Or.inl ⟨rfl, ?_⟩
    cases old with
    | none => exact Or.inl rfl
    | some cur => exact Or.inr ⟨cur, cur.leases.prune now, rfl, rfl⟩

theorem mem_trace (mem : label ∈ s.trace cs) : label.1 ∈ cs := (of_mem_zip mem).1

section

variable {Q : Request → Prop} (windowed : ∀ req, Q req → req.policy.algorithm ≠ .concurrency)

include windowed

/-- What holds of the decisions at a key from every state on, one decision after the other. -/
theorem decisions_from {labels : List (Call × Reply)}
    {P : Option State → List (Request × Answer) → Prop}
    {old last : Option State}
    (run : Run (KeyStep key) old labels last)
    (asked : ∀ label ∈ labels, ∀ req ∈ label.1.requestAt key, Q req)
    (none : P last [])
    (leases : ∀ cur l rest, P (some { cur with leases := l }) rest → P (some cur) rest)
    (decides : ∀ old next req answer rest, Q req →
      Served key req answer old next → P next rest → P old ((req, answer) :: rest)) :
    P old (labels.filterMap (decision key)) := by
  induction run with
  | nil old => exact none
  | @cons label old next last rest first later ih =>
    have here := asked label mem_cons_self
    have ih := ih (forall_mem_cons.mp asked).2 none
    rcases keyStep_cases first fun req at_ => windowed req (here req at_) with
      ⟨hidden, rfl | ⟨cur, l, rfl, rfl⟩⟩ | ⟨req, answer, shown, at_, served⟩
    · rwa [filterMap_cons_none hidden]
    · rw [filterMap_cons_none hidden]
      exact leases cur l _ ih
    · rw [filterMap_cons_some shown]
      exact decides _ _ _ _ _ (here req at_) served ih

/-- The decisions at a key are those of any machine that follows the state of the key. -/
theorem decisions_simulates (opened : s.closed = false) (open_ : Call.close ∉ cs)
    (kept : s.Keeps key cs)
    (requests : ∀ call ∈ cs, ∀ req ∈ call.requestAt key, Q req)
    {τ : Type} {machine : τ → Request → τ × Answer} {R : Option State → τ → Prop} {t : τ}
    (leases : ∀ cur l t, R (some cur) t → R (some { cur with leases := l }) t)
    (follows : ∀ old next req answer t, Q req → Served key req answer old next →
      R old t → (machine t req).2 = answer ∧ R next (machine t req).1)
    (start : R (s.stateOf key) t) :
    outputs machine t ((s.decisions key cs).map Prod.fst) = (s.decisions key cs).map Prod.snd := by
  refine decisions_from (P := fun old decisions => ∀ t, R old t →
    outputs machine t (decisions.map Prod.fst) = decisions.map Prod.snd) windowed
    (run_key opened open_ kept) (fun label mem => requests _ (mem_trace mem)) (fun _ _ => rfl)
    (fun cur l rest later t related => later t (leases cur l t related)) ?_ t start
  intro old next req answer rest asked served later t related
  obtain ⟨eq, after⟩ := follows old next req answer t asked served related
  rw [map_cons, map_cons, outputs, eq, later _ after]

end

end Golib.RateLimit.Memory
