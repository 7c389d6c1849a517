import Golib.RateLimit.PersistedBuckets

/-! What the states of a key in the process-local store and in the PostgreSQL one have to keep for
both to answer alike in a whole run. -/
namespace Golib.RateLimit

open Machine Memory Postgres
variable {stored : PersistedState} {req : Request} {cur : State} {last now : Int}

/-! ### Clocks -/

theorem canonical_whole (req : Request) :
    unixMicro (toUnixMicro req.canonical.now) = req.canonical.now := by
  have micros : req.canonical.now / 1000 = toUnixMicro req.now := Int.mul_ediv_cancel _ (by decide)
  rw [toUnixMicro, micros]
  exact congrArg unixMicro (int64_eq (int64_range _))

theorem instantsAt_whole {key : String} {calls : List Memory.Call}
    : ∀ t ∈ instantsAt key calls, unixMicro (toUnixMicro t) = t := by
  intro t mem
  obtain ⟨req, -, rfl⟩ := List.mem_map.mp mem
  exact canonical_whole req

theorem admit_clamped (later : max cur.lastSeen req.now = now) :
    cur.admission req = { cur with lastSeen := now }.admission { req with now } := by
  unfold State.admission
  rw [State.clamp_eq, State.clamp_eq, later]
  rw [max_self]

theorem clamp_whole (clock : unixMicro stored.observedMicros = last)
    (whole : unixMicro (toUnixMicro req.now) = req.now) :
    stored.clamp req = { req with now := max last req.now } := by
  unfold PersistedState.clamp
  dsimp only
  unfold unixMicro at clock whole ⊢
  by_cases before : stored.observedMicros ≤ toUnixMicro req.now
  · rw [max_eq_left before, if_neg (not_not.mpr rfl), max_eq_right (by omega)]
  · rw [max_eq_right (by omega), if_pos (by omega), max_eq_left (by omega), clock]

theorem mutate_of_clamp {clamped : Request} (moved : stored.clamp req = clamped) :
    stored.mutate req =
      match clamped.policy.algorithm with
      | .tokenBucket => mutateToken { stored with
          observedMicros := toUnixMicro clamped.now, revision := clamped.policy.revision } clamped
      | .fixedWindow => mutateFixed { stored with
          observedMicros := toUnixMicro clamped.now, revision := clamped.policy.revision } clamped
      | _ => mutateSliding { stored with
          observedMicros := toUnixMicro clamped.now, revision :=
          clamped.policy.revision } clamped := by
  subst moved
  rfl

theorem mutate_clamped (clock : unixMicro stored.observedMicros = last)
    (whole : unixMicro (toUnixMicro req.now) = req.now) (later : max last req.now = now)
    (whole' : unixMicro (toUnixMicro now) = now) :
    stored.mutate req =
      { stored with observedMicros := toUnixMicro now }.mutate { req with now } := by
  have moved : { stored with observedMicros := toUnixMicro now }.clamp { req with now } =
      { req with now } := by
    have eq := @clamp_whole { stored with observedMicros := toUnixMicro now }
      { req with now } now whole' whole'
    rwa [max_self] at eq
  have first := mutate_of_clamp (clamp_whole clock whole)
  rw [later] at first
  exact first.trans (mutate_of_clamp moved).symm

theorem admit_now (seen : cur.lastSeen = req.now) :
    cur.admission req =
      match req.policy.algorithm with
      | .tokenBucket => admitToken cur req
      | .fixedWindow => admitFixed cur req
      | _ => admitSliding cur req := by
  have clamped : cur.clamp req = req := by rw [State.clamp_eq, seen, max_self]
  unfold State.admission
  rw [clamped]
  dsimp only
  rewrite [← seen]
  rfl

theorem clamp_now (clock : unixMicro stored.observedMicros = req.now)
    (whole : unixMicro (toUnixMicro req.now) = req.now) : stored.clamp req = req := by
  rw [clamp_whole clock whole, max_self]

theorem admit_frame (cur : State) (req : Request) :
    (cur.admission req).1.lastSeen = max cur.lastSeen req.now ∧
      (cur.admission req).1.algorithm = cur.algorithm := by
  unfold State.admission
  rw [State.clamp_eq]
  dsimp only
  split
  · rw [admitToken_eq]
    unfold Memory.refill
    dsimp only
    split_ifs <;> exact ⟨rfl, rfl⟩
  · exact ⟨rfl, rfl⟩
  · exact ⟨rfl, rfl⟩

theorem mutate_observed (stored : PersistedState) (req : Request) :
    (stored.mutate req).1.observedMicros = toUnixMicro (stored.clamp req).now := by
  obtain ⟨_, _, _, _, _, _, eq⟩ := mutate_frame stored req
  rw [eq]

/-! ### Lockstep -/

/-- What an algorithm shows for both stores to decide alike: a relation between the states of a key,
apart from their clocks, that new states are in and every decision keeps. -/
structure Lockstep (Q : Request → Prop) (instants : List Int)
    (extra : State → PersistedState → Prop) : Prop where
  clocks : ∀ current stored t l m, extra current stored →
    extra { current with lastSeen := t, leases := l } { stored with observedMicros := m }
  fresh : ∀ request, Q request → extra (.new request.canonical) (.new request.canonical)
  carried : ∀ current stored request, Q request → extra current stored →
    extra (State.found (some current) request.canonical) stored
  decides : ∀ asked, Q asked → ∀ current stored request, request.policy = asked.policy →
    request.now ∈ instants → current.lastSeen = request.now →
    unixMicro stored.observedMicros = request.now → extra current stored →
      (stored.mutate request).2 = (current.admission request).2 ∧
        extra (current.admission request).1 (stored.mutate request).1

theorem Lockstep.mono {Q Q' : Request → Prop} {instants : List Int}
    {extra : State → PersistedState → Prop} (lockstep : Lockstep Q instants extra)
    (fewer : ∀ req, Q' req → Q req) : Lockstep Q' instants extra where
  clocks := lockstep.clocks
  fresh := fun req asked => lockstep.fresh req (fewer req asked)
  carried := fun cur stored req asked =>
    lockstep.carried cur stored req (fewer req asked)
  decides := fun asked here => lockstep.decides asked (fewer asked here)

/-- Policies that keep one relation each keep it together. -/
theorem Lockstep.each {R : Request → Prop} {instants : List Int}
    {extra : State → PersistedState → Prop} {policies : List Policy} {policy : Policy}
    (some : policy ∈ policies)
    (lockstep : ∀ p ∈ policies, Lockstep (fun req => req.policy = p ∧ R req) instants extra) :
    Lockstep (fun req => req.policy ∈ policies ∧ R req) instants extra where
  clocks := (lockstep policy some).clocks
  fresh := fun req asked => (lockstep _ asked.1).fresh req ⟨rfl, asked.2⟩
  carried := fun cur stored req asked => (lockstep _ asked.1).carried cur stored req ⟨rfl, asked.2⟩
  decides := fun asked here => (lockstep _ here.1).decides asked ⟨rfl, here.2⟩

section

variable {policyID : String} {algorithm : Algorithm} {instants : List Int}
  {extra : State → PersistedState → Prop} {stored : Option PersistedState} {req : Request}

def Paired (policyID : String) (algorithm : Algorithm) (instants : List Int)
    (extra : State → PersistedState → Prop) : Option State → Option PersistedState → Prop
  | none, none => True
  | some current, some stored => stored.Kind policyID algorithm ∧
      unixMicro stored.observedMicros = current.lastSeen ∧ current.lastSeen ∈ instants ∧
      extra current stored
  | _, _ => False

variable {Q : Request → Prop} (lockstep : Lockstep Q instants extra)
  (kinds : ∀ req, Q req → req.policy.id = policyID ∧ req.policy.algorithm = algorithm ∧
    req.canonical.now ∈ instants)
  {old : Option Memory.State}

include lockstep kinds

theorem Paired.found (asked : Q req) (paired :
      Paired policyID algorithm instants extra old stored) :
    (∀ cur ∈ stored, cur.Kind policyID algorithm) ∧
      Paired policyID algorithm instants extra (some (State.found old req.canonical))
        (some (stored.getD (.new req.canonical))) := by
  obtain ⟨id, eq, known⟩ := kinds req asked
  cases old with
  | none =>
    cases stored with
    | none => exact ⟨by simp, ⟨rfl, id, eq⟩, canonical_whole req, known, lockstep.fresh _ asked⟩
    | some state => exact absurd paired not_false
  | some cur =>
    cases stored with
    | none => exact absurd paired not_false
    | some state =>
      obtain ⟨kind, clock, seen, related⟩ := paired
      have lastSeen : (State.found (some cur) req.canonical).lastSeen = cur.lastSeen :=
        (found_windows (some cur) req.canonical).1
      refine ⟨fun other found => ?_, kind, ?_, ?_, lockstep.carried _ _ _ asked related⟩
      · cases found
        exact kind
      · rw [lastSeen]
        exact clock
      · rw [lastSeen]
        exact seen

variable (whole : ∀ t ∈ instants, unixMicro (toUnixMicro t) = t)

include whole

theorem Paired.decides (asked : Q req)
    (paired : Paired policyID algorithm instants extra old stored) :
    (mutateState stored req.canonical).2 =
        ((State.found old req.canonical).admission req.canonical).2 ∧
      Paired policyID algorithm instants extra
        (some ((State.found old req.canonical).admission req.canonical).1)
        (mutateState stored req.canonical).1 := by
  obtain ⟨id, eq, known⟩ := kinds req asked
  obtain ⟨kinds', kind, clock, seen, related⟩ := paired.found lockstep kinds asked
  have here : ∀ cur ∈ stored, cur.Kind req.canonical.policy.id req.canonical.policy.algorithm := by
    change ∀ cur ∈ stored, cur.Kind req.policy.id req.policy.algorithm
    rwa [id, eq]
  rw [mutateState_eq here]
  generalize State.found old req.canonical = cur at *
  generalize stored.getD (.new req.canonical) = state at *
  have mem : clampTo (some cur.lastSeen) req.canonical.now ∈ instants :=
    clampTo_mem (fun t last => by cases last; exact seen) known
  have seen' := (admit_frame cur req.canonical).1
  have clock' := mutate_observed state req.canonical
  have first := admit_clamped (rfl : max cur.lastSeen req.canonical.now = _)
  have second := mutate_clamped clock (canonical_whole req) rfl (whole _ mem)
  obtain ⟨answer, after⟩ := lockstep.decides req asked
    { cur with lastSeen := max cur.lastSeen req.canonical.now }
    { state with observedMicros := toUnixMicro (max cur.lastSeen req.canonical.now) }
    { req.canonical with now := max cur.lastSeen req.canonical.now } rfl mem rfl
    (whole _ mem) (lockstep.clocks cur state _ cur.leases _ related)
  rw [← first, ← second] at answer after
  refine ⟨answer, kind.mutate _, ?_, ?_, after⟩
  · rw [clock', seen', clamp_whole clock (canonical_whole req)]
    exact whole _ mem
  · rw [seen']
    exact mem

end

section

variable {s : Store} {key : String} {calls : List Call} (opened : s.closed = false)
  (absent : s.stateOf key = none)
  (open_ : Call.close ∉ calls) (kept : s.Keeps key calls) {Q : Request → Prop}
  {policyID : String} {algorithm : Algorithm} (windowed : algorithm ≠ .concurrency)
  (requests : ∀ call ∈ calls, ∀ req ∈ call.requestAt key, Q req)
  (kinds : ∀ req, Q req → req.policy.id = policyID ∧ req.policy.algorithm = algorithm ∧
    req.canonical.now ∈ instantsAt key calls)

include opened absent open_ kept windowed requests kinds

theorem Lockstep.outputs_eq {extra : State → PersistedState → Prop}
    (lockstep : Lockstep Q (instantsAt key calls) extra) :
    outputs (fun stored req => mutateState stored req.canonical) none
        ((s.decisions key calls).map Prod.fst) =
      (s.decisions key calls).map Prod.snd := by
  have leases : ∀ cur l stored,
      Paired policyID algorithm (instantsAt key calls) extra (some cur) stored →
        Paired policyID algorithm (instantsAt key calls) extra (some { cur with leases := l })
          stored := by
    intro cur l stored paired
    cases stored with
    | none => exact absurd paired not_false
    | some state =>
      obtain ⟨kind, clock, seen, related⟩ := paired
      exact ⟨kind, clock, seen, lockstep.clocks cur state cur.lastSeen l state.observedMicros
        related⟩
  refine decisions_simulates (fun req asked => (kinds req asked).2.1 ▸ windowed) opened open_
    kept requests leases ?_ ?_
  · intro old next req answer stored asked served paired
    rw [served.answer, served.next]
    exact paired.decides lockstep kinds instantsAt_whole asked
  · rw [absent]
    trivial

end

end Golib.RateLimit
