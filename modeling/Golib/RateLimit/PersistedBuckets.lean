import Golib.RateLimit.Postgres
import Golib.RateLimit.TokenBuckets

/-! The token bucket of the PostgreSQL store: its refill, and its bound under policies that change
from one call to the next. -/
namespace Golib.RateLimit.Postgres

open Machine Bucket Memory List

variable {req : RateLimit.Request}

theorem mutateToken_eq (cur : PersistedState) (req : Request) :
    mutateToken cur req =
      ({ Postgres.refill cur req with
         tokens := leftOf req.cost (Postgres.refill cur req).tokens },
        tokenAnswer req.policy req.cost req.now (Postgres.refill cur req).tokens
          (Postgres.refill cur req).remainder) := by
  unfold mutateToken tokenAnswer leftOf
  dsimp only [tokenDuration]
  split <;> rfl

/-! ### Calls on one key -/

/-- The state of a key for a policy ID and an algorithm. -/
structure PersistedState.Kind (current : PersistedState) (policyID : String)
    (algorithm : Algorithm) :
    Prop where
  schema : current.schema = stateSchema
  policyID : current.policyID = policyID
  algorithm : current.algorithm = algorithm

theorem refill_frame (cur : PersistedState) (req : Request) :
    ∃ tokens remainder lastMicros,
      Postgres.refill cur req = { cur with tokens, remainder, lastMicros } := by
  unfold Postgres.refill
  dsimp only
  split_ifs <;> exact ⟨_, _, _, rfl⟩

/-- A transition changes only what its algorithm counts, the clock and the revision. -/
theorem mutate_frame (cur : PersistedState) (req : Request) :
    ∃ tokens remainder lastMicros window used segments, (cur.mutate req).1 =
      { cur with
        observedMicros := toUnixMicro (cur.clamp req).now
        revision := (cur.clamp req).policy.revision
        tokens, remainder, lastMicros, window, used, segments } := by
  unfold PersistedState.mutate
  dsimp only
  split
  · rw [mutateToken_eq]
    obtain ⟨_, _, _, same⟩ := refill_frame { cur with
      observedMicros := toUnixMicro (cur.clamp req).now
      revision := (cur.clamp req).policy.revision } (cur.clamp req)
    rw [same]
    exact ⟨_, _, _, _, _, _, rfl⟩
  · exact ⟨_, _, _, _, _, _, rfl⟩
  · exact ⟨_, _, _, _, _, _, rfl⟩

theorem PersistedState.Kind.mutate {cur : PersistedState} {policyID : String}
    {algorithm : Algorithm} (kind : cur.Kind policyID algorithm) (req : Request) :
    (cur.mutate req).1.Kind policyID algorithm := by
  obtain ⟨_, _, _, _, _, _, same⟩ := mutate_frame cur req
  rw [same]
  exact ⟨kind.schema, kind.policyID, kind.algorithm⟩

theorem mutateState_eq {st : Option PersistedState}
    (kind : ∀ cur ∈ st, cur.Kind req.policy.id req.policy.algorithm) :
    mutateState st req =
      (some ((st.getD (.new req)).mutate req).1, ((st.getD (.new req)).mutate req).2) := by
  cases st with
  | none => rfl
  | some cur =>
    obtain ⟨schema, id, eq⟩ := kind cur rfl
    unfold mutateState
    dsimp only
    rw [if_neg (not_not.mpr schema), if_neg (not_not.mpr id), if_neg (not_not.mpr eq)]
    rfl

/-! ### Refills -/

theorem refill_tokens_le {cur : PersistedState} (held : cur.tokens ≤ req.policy.limit) :
    (Postgres.refill cur req).tokens ≤ req.policy.limit := by
  unfold Postgres.refill
  dsimp only
  split
  · split
    · split
      · exact le_refl _
      · split
        · exact le_refl _
        · rename_i short
          dsimp only
          omega
    · exact held
  · exact held

/-! ### Changing policies -/

theorem mutate_tokens_le {cur : PersistedState} (valid : req.policy.Valid)
    (bucket : req.policy.algorithm = .tokenBucket) (held : cur.tokens ≤ req.policy.limit) :
    (cur.mutate req).1.tokens ≤ req.policy.limit ∧
      (cur.mutate req).2.1.remaining = (cur.mutate req).1.tokens := by
  have p : (cur.clamp req).policy = req.policy := by
    unfold PersistedState.clamp
    dsimp only
    split <;> rfl
  have stepped : cur.mutate req = mutateToken
      { cur with
        observedMicros := toUnixMicro (cur.clamp req).now
        revision := (cur.clamp req).policy.revision } (cur.clamp req) := by
    unfold PersistedState.mutate
    simp only [p, bucket]
  have refilled : (Postgres.refill
      { cur with
        observedMicros := toUnixMicro (cur.clamp req).now
        revision := (cur.clamp req).policy.revision }
      (cur.clamp req)).tokens ≤ req.policy.limit := by
    rw [← p]
    refine refill_tokens_le ?_
    rw [p]
    exact held
  rw [stepped, mutateToken_eq]
  exact ⟨(leftOf_le _ (refilled.trans_lt valid.limit_lt)).trans refilled,
      by unfold tokenAnswer leftOf; split <;> rfl⟩

theorem run_tokens_le {policyID : String} {front : List Request} {req : Request}
    (valid : ∀ r ∈ front ++ [req], r.policy.Valid)
    (kinds : ∀ r ∈ front ++ [req], r.policy.id = policyID ∧ r.policy.algorithm = .tokenBucket)
    (rising : (front ++ [req]).Pairwise fun r r' => r.policy.limit ≤ r'.policy.limit)
    {st : Option PersistedState} (kind : ∀ cur ∈ st, cur.Kind policyID .tokenBucket)
    (held : ∀ cur ∈ st, ∀ r ∈ front ++ [req], cur.tokens ≤ r.policy.limit) :
    ∃ next answer, mutateState (runMachine mutateState st front) req = (some next, answer) ∧
      next.tokens ≤ req.policy.limit ∧ answer.1.remaining = next.tokens := by
  induction front generalizing st with
  | nil =>
    obtain ⟨id, bucket⟩ := kinds req mem_cons_self
    have here : ∀ cur ∈ st, cur.Kind req.policy.id req.policy.algorithm := by rwa [id, bucket]
    refine ⟨_, _, mutateState_eq here, ?_⟩
    refine mutate_tokens_le (valid req mem_cons_self) bucket ?_
    cases st with
    | none => exact le_refl _
    | some cur => exact held cur rfl req mem_cons_self
  | cons first front ih =>
    obtain ⟨id, bucket⟩ := kinds first mem_cons_self
    have here : ∀ cur ∈ st, cur.Kind first.policy.id first.policy.algorithm := by
      rwa [id, bucket]
    obtain ⟨less, rising⟩ := pairwise_cons.mp rising
    have within : (st.getD (.new first)).tokens ≤ first.policy.limit := by
      cases st with
      | none => exact le_refl _
      | some cur => exact held cur rfl first mem_cons_self
    have kept : (st.getD (.new first)).Kind policyID .tokenBucket := by
      cases st with
      | none => exact ⟨rfl, id, bucket⟩
      | some cur => exact kind cur rfl
    obtain ⟨bound, -⟩ := mutate_tokens_le (valid first mem_cons_self) bucket within
    rw [runMachine, mutateState_eq here]
    refine ih (forall_mem_cons.mp valid).2
      (forall_mem_cons.mp kinds).2 rising ?_ ?_
    · intro cur eq
      cases eq
      exact kept.mutate first
    · intro cur eq r mem
      cases eq
      exact bound.trans (less r mem)

/-- A token bucket of the PostgreSQL store is within the limit of each policy that it is asked with
when no policy lowers the limit of an earlier one; then the missing tokens are the difference that
the reset time is computed from. -/
theorem persisted_tokens_le_limit {policyID : String} {front : List Request}
    {request : Request}
    (made : ∀ r ∈ front ++ [request], ∃ spec, newPolicy spec = .ok r.policy)
    (kinds : ∀ r ∈ front ++ [request],
      r.policy.id = policyID ∧ r.policy.algorithm = .tokenBucket)
    (rising : (front ++ [request]).Pairwise fun r r' => r.policy.limit ≤ r'.policy.limit) :
    ∃ next answer, mutateState (runMachine mutateState none front) request = (some next, answer) ∧
      next.tokens ≤ request.policy.limit ∧ answer.1.remaining ≤ request.policy.limit ∧
      subWord request.policy.limit next.tokens = request.policy.limit - next.tokens := by
  have valid : ∀ r ∈ front ++ [request], r.policy.Valid := fun r mem => by
    obtain ⟨spec, built⟩ := made r mem
    exact newPolicy_valid built
  obtain ⟨next, answer, stepped, bound, remaining⟩ :=
    @run_tokens_le policyID front request valid
    kinds rising none (fun current none => by cases none) (fun current none => by cases none)
  refine ⟨next, answer, stepped, bound, remaining ▸ bound, subWord_eq bound ?_⟩
  exact (valid request (by simp)).limit_lt

/-! A policy whose limit a revision raises or lowers. -/

def rolloutSpec (revision : String) (capacity : Nat) : PolicySpec :=
  { minuteSpec with revision, capacity, burst := 0 }

def rolloutPolicy (revision : String) (capacity : Nat) : Policy :=
  { minutePolicy with revision, capacity, burst := 0, maxCost := capacity }

def rolloutRequest (revision : String) (capacity : Nat) : Request :=
  ⟨rolloutPolicy revision capacity, ⟨"user"⟩, 1, 1000⟩

theorem newPolicy_rollout :
    newPolicy (rolloutSpec "v1" 5) = .ok (rolloutPolicy "v1" 5) ∧
      newPolicy (rolloutSpec "v1" 10) = .ok (rolloutPolicy "v1" 10) ∧
      newPolicy (rolloutSpec "v2" 5) = .ok (rolloutPolicy "v2" 5) ∧
      newPolicy (rolloutSpec "v2" 10) = .ok (rolloutPolicy "v2" 10) := by
  decide +kernel

/-- The limit is raised from five to ten. -/
theorem persisted_tokens_le_limit_raised :
    ∃ next answer, mutateState (runMachine mutateState none [rolloutRequest "v1" 5])
        (rolloutRequest "v2" 10) = (some next, answer) ∧
      next.tokens ≤ 10 ∧ answer.1.remaining ≤ 10 ∧ subWord 10 next.tokens = 10 - next.tokens := by
  have made : ∀ r ∈ [rolloutRequest "v1" 5] ++ [rolloutRequest "v2" 10],
      ∃ spec, newPolicy spec = .ok r.policy := by
    intro r mem
    rcases mem_pair.mp mem with rfl | rfl
    · exact ⟨_, newPolicy_rollout.1⟩
    · exact ⟨_, newPolicy_rollout.2.2.2⟩
  exact @persisted_tokens_le_limit "login" [rolloutRequest "v1" 5] (rolloutRequest "v2" 10) made
    (by decide +kernel) (by decide +kernel)

/-- The limit is lowered from ten to five, and no time passes: the bucket keeps nine tokens, of
which a request takes one, and the difference to the limit wraps around, so that the reset time is
out of range. -/
theorem tokens_above_lowered_limit :
    newPolicy (rolloutSpec "v1" 10) = .ok (rolloutPolicy "v1" 10) ∧
      newPolicy (rolloutSpec "v2" 5) = .ok (rolloutPolicy "v2" 5) ∧
      (rolloutRequest "v2" 5).policy.limit = 5 ∧
      (runMachine mutateState none [rolloutRequest "v1" 10, rolloutRequest "v2" 5]).map
        PersistedState.tokens = some 8 ∧
      ((outputs mutateState none [rolloutRequest "v1" 10, rolloutRequest "v2" 5]).map fun answer =>
        (answer.1.allowed, answer.1.remaining, answer.1.reset)) =
          [(true, 9, 1000 + 6000000000), (true, 8, 1000 + maxInt64)] ∧
      subWord 5 8 = 2 ^ 64 - 3 :=
  ⟨newPolicy_rollout.2.1, newPolicy_rollout.2.2.1, by decide +kernel, by decide +kernel,
    by decide +kernel, by decide +kernel⟩

end Golib.RateLimit.Postgres
