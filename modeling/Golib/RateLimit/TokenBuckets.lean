import Mathlib.Algebra.BigOperators.Ring.Finset
import Golib.Lib.Buckets
import Golib.RateLimit.Keys
import Golib.RateLimit.Reference

/-! The token bucket of the process-local store: its whole tokens and carried remainder against the
rational balance of the reference, and the bound on every burst. -/
namespace Golib.RateLimit

open Machine Bucket Nat

theorem Policy.Valid.limit_lt {p : Policy} (valid : p.Valid) : p.limit < 2 ^ 64 := by
  have exact := valid.exact
  unfold maxExactInteger at exact
  omega

/-! ### Refill times -/

def roundUp (m n : Nat) : Nat := if m % n ≠ 0 then m / n + 1 else m / n

section

variable {p : Policy} (valid : p.Valid) (windowed : p.algorithm ≠ .concurrency)

include valid windowed

theorem Policy.Valid.micros_le : p.micros ≤ maxExactInteger := by
  obtain ⟨-, -, exact⟩ := valid.period windowed
  have some : 1 ≤ p.limit := by
    have := valid.capacity
    rw [valid.limit]
    omega
  calc p.micros = 1 * p.micros := (one_mul _).symm
    _ ≤ p.limit * p.micros := mul_le_mul_right _ some
    _ ≤ maxExactInteger := exact

/-- Missing tokens are refilled in the time that the capacity takes for them, less the remainder;
none of the guards against large values applies. -/
theorem refillTime_eq {ts rem : Nat} (few : ts ≤ p.limit) (short : rem < p.micros) :
    refillTime ts rem p =
      (if ts = 0 then 0 else roundUp (ts * p.micros - rem) p.capacity : Nat) * 1000 := by
  obtain ⟨some, -, exact⟩ := valid.period windowed
  have capacity := valid.capacity
  unfold refillTime
  by_cases none : ts = 0
  · rw [if_pos none, if_pos none]
    rfl
  · have least : p.micros ≤ ts * p.micros :=
      Nat.le_mul_of_pos_left _ (Nat.pos_of_ne_zero none)
    have most : ts * p.micros ≤ maxExactInteger := (mul_le_mul_right _ few).trans exact
    have small : ts * p.micros < 2 ^ 53 := by
      unfold maxExactInteger at most
      omega
    rw [if_neg none, if_neg none, mulSub_eq (by omega) (by omega) (by omega)]
    have bound : ts * p.micros - rem < 2 ^ 53 := by omega
    generalize ts * p.micros - rem = m at bound ⊢
    have low : m / 2 ^ 64 = 0 := div_eq_of_lt (by omega)
    have word : m % 2 ^ 64 = m := mod_eq_of_lt (by omega)
    simp only [low, word, div64, zero_mul, zero_add]
    rw [if_neg (by omega)]
    have quotient : m / p.capacity ≤ m := div_le_self _ _
    have next : addWord (m / p.capacity) 1 = m / p.capacity + 1 := mod_eq_of_lt (by omega)
    rw [next]
    have fits : ¬ (if m % p.capacity ≠ 0 then m / p.capacity + 1 else m / p.capacity) >
        (maxInt64 / microsecond).toNat := by
      have large : (maxInt64 / microsecond).toNat = 9223372036854775 := by decide
      split <;> omega
    rw [if_neg fits]
    rfl

end

/-! ### Refills -/

/-- The microseconds between two instants, as a difference of instants reports them. -/
def elapsedMicros (now last : Int) : Nat := (microseconds (timeSub now last)).toNat

theorem elapsedMicros_lt (now last : Int) : elapsedMicros now last < 2 ^ 54 := by
  unfold elapsedMicros microseconds timeSub saturate minInt64 maxInt64
  rw [Int.tdiv_eq_ediv, Int.sign_eq_one_of_pos (by decide)]
  split <;> omega

theorem elapsedMicros_le {now last : Int} (order : last ≤ now) :
    (elapsedMicros now last : Int) * 1000 ≤ now - last := by
  obtain ⟨some, most⟩ := saturate_le (by omega : 0 ≤ now - last)
  unfold elapsedMicros microseconds timeSub
  rw [Int.tdiv_eq_ediv, if_pos (Or.inl some)]
  omega

theorem word_le_div {m n : Nat} (some : 0 < m) (large : m * 2 ^ 64 ≤ n) : 2 ^ 64 ≤ n / m := by
  rwa [le_div_iff_mul_le some, mul_comm]

/-- The elapsed times for which the sum of tokens and refill leaves 64 bits: the refill alone is
still a word, but not with the tokens of the bucket added to it. -/
def Wraps (policy : Policy) (elapsed : Nat) : Prop :=
  2 ^ 64 ≤ policy.limit + elapsed * policy.capacity / policy.micros ∧
    elapsed * policy.capacity / policy.micros < 2 ^ 64

instance (policy : Policy) (elapsed : Nat) : Decidable (Wraps policy elapsed) :=
  inferInstanceAs (Decidable (_ ∧ _))

namespace Memory

variable {cur : State} {req : Request}

/-- What holds of a bucket between two requests. -/
structure State.Bucket (current : State) (policy : Policy) : Prop where
  tokens : current.tokens ≤ policy.limit
  remainder : current.remainder < policy.micros
  full : current.tokens = policy.limit → current.remainder = 0

def refilled (policy : Policy) (tokens remainder elapsed : Nat) : Nat × Nat :=
  if tokens = policy.limit then (policy.limit, 0)
  else
    let (high, low) := mulAdd elapsed policy.capacity remainder
    if high ≥ policy.micros then (policy.limit, 0)
    else
      let (added, rest) := div64 high low policy.micros
      let tokens := min (addWord tokens added) policy.limit
      (tokens, if tokens = policy.limit then 0 else rest)

theorem refill_eq (later : req.now > cur.lastRefill) :
    refill cur req =
      { cur with
        tokens := (refilled req.policy cur.tokens cur.remainder
          (elapsedMicros req.now cur.lastRefill)).1
        remainder := (refilled req.policy cur.tokens cur.remainder
          (elapsedMicros req.now cur.lastRefill)).2
        lastRefill := req.now } := by
  unfold refill refilled
  rw [if_neg (not_not.mpr later)]
  by_cases full : cur.tokens = req.policy.limit
  · rw [if_pos full, if_pos full, ← full]
  · rw [if_neg full, if_neg full]
    dsimp only [elapsedMicros]
    split <;> rfl

section

variable {p : Policy} (valid : p.Valid) (windowed : p.algorithm ≠ .concurrency)
  {ts rem elapsed : Nat} (short : rem < p.micros) (near : elapsed < 2 ^ 54)

include valid windowed short near

theorem refill_parts : mulAdd elapsed p.capacity rem =
    ((elapsed * p.capacity + rem) / 2 ^ 64, (elapsed * p.capacity + rem) % 2 ^ 64) := by
  have micros := valid.micros_le windowed
  have capacity : p.capacity ≤ maxExactInteger := by
    have := valid.exact
    rw [valid.limit] at this
    omega
  have product : elapsed * p.capacity ≤ 2 ^ 54 * maxExactInteger := Nat.mul_le_mul near.le capacity
  unfold maxExactInteger at micros product
  exact mulAdd_eq (by omega)

theorem refilled_eq (other : ts ≠ p.limit) :
    refilled p ts rem elapsed =
      if p.micros * 2 ^ 64 ≤ elapsed * p.capacity + rem then (p.limit, 0)
      else
        let added := (elapsed * p.capacity + rem) / p.micros
        let ts := min (addWord ts added) p.limit
        (ts, if ts = p.limit then 0
          else (elapsed * p.capacity + rem) % p.micros) := by
  unfold refilled
  rw [if_neg other, refill_parts valid windowed short near]
  dsimp only [div64]
  rw [wide_eq]
  have eq : (elapsed * p.capacity + rem) / 2 ^ 64 ≥ p.micros ↔
      p.micros * 2 ^ 64 ≤ elapsed * p.capacity + rem :=
    le_div_iff_mul_le (by decide)
  simp only [eq]

/-- A refill is exact unless the sum of tokens and refill wraps around. -/
theorem refilled_exact (held : ts ≤ p.limit) (exact : ¬ Wraps p elapsed) :
    refilled p ts rem elapsed = topUp p.limit p.capacity p.micros ts rem elapsed := by
  obtain ⟨some, -, -⟩ := valid.period windowed
  have limit := valid.limit_lt
  by_cases full : ts = p.limit
  · rw [refilled, if_pos full, topUp, full, if_pos (le_add_right _ _)]
  · rw [refilled_eq valid windowed short near full]
    unfold topUp
    dsimp only
    by_cases large : p.micros * 2 ^ 64 ≤ elapsed * p.capacity + rem
    · have added := word_le_div some large
      rw [if_pos large, if_pos (by omega)]
    · have word : (elapsed * p.capacity + rem) / p.micros < 2 ^ 64 := by
        rw [div_lt_iff_lt_mul some, mul_comm (2 ^ 64)]
        omega
      have sum : ts + (elapsed * p.capacity + rem) / p.micros < 2 ^ 64 := by
        by_contra wraps
        have carried : (elapsed * p.capacity + rem) / p.micros ≤
            elapsed * p.capacity / p.micros + 1 := by
          rw [div_le_iff_le_mul_add_pred some]
          have split := div_add_mod (elapsed * p.capacity) p.micros
          have rest := mod_lt (elapsed * p.capacity) some
          rw [mul_add]
          omega
        have least : elapsed * p.capacity / p.micros ≤ (elapsed * p.capacity + rem) / p.micros :=
          Nat.div_le_div_right (Nat.le_add_right _ _)
        exact exact ⟨by omega, by omega⟩
      rw [if_neg large, addWord_eq sum]
      by_cases above : p.limit ≤ ts + (elapsed * p.capacity + rem) / p.micros
      · rw [if_pos above, min_eq_right above, if_pos rfl]
      · rw [if_neg above, min_eq_left (by omega), if_neg (by omega)]

/-- What a refill leaves is a bucket again, with no more than the elapsed time is worth. -/
theorem refilled_le :
    (refilled p ts rem elapsed).1 ≤ p.limit ∧
      (refilled p ts rem elapsed).2 < p.micros ∧
      ((refilled p ts rem elapsed).1 = p.limit → (refilled p ts rem elapsed).2 = 0) ∧
      balance p.micros (refilled p ts rem elapsed).1
          (refilled p ts rem elapsed).2 ≤
        balance p.micros ts rem + elapsed * p.capacity / p.micros := by
  obtain ⟨some, -, -⟩ := valid.period windowed
  have limit := valid.limit_lt
  have rest := mod_lt (elapsed * p.capacity + rem) some
  rw [← balance_parts some]
  by_cases full : ts = p.limit
  · rw [refilled, if_pos full, full]
    exact ⟨le_refl _, some, fun _ => rfl, balance_mono _ (le_add_right _ _) (zero_le _)⟩
  · rw [refilled_eq valid windowed short near full]
    dsimp only
    by_cases large : p.micros * 2 ^ 64 ≤ elapsed * p.capacity + rem
    · have added := word_le_div some large
      rw [if_pos large]
      exact ⟨le_refl _, some, fun _ => rfl, balance_mono _ (by omega) (zero_le _)⟩
    · rw [if_neg large]
      refine ⟨min_le_right _ _, ?_, fun eq => if_pos eq, balance_mono _ ?_ ?_⟩
      · split
        · exact some
        · exact rest
      · exact (min_le_left _ _).trans (Nat.mod_le _ _)
      · split
        · exact zero_le _
        · exact le_refl _

end

/-! ### Steps -/

def tokenAnswer (policy : Policy) (cost : Nat) (now : Int) (tokens remainder : Nat) : Answer :=
  if tokens < cost then
    ({ allowed := false, limit := policy.limit, remaining := tokens,
       reset := now + refillTime (subWord policy.limit tokens) remainder policy,
       retryAfter := refillTime (subWord cost tokens) remainder policy, reason := .limited },
      some .rejected)
  else
    ({ allowed := true, limit := policy.limit, remaining := subWord tokens cost,
       reset := now + refillTime (subWord policy.limit (subWord tokens cost)) remainder policy,
       retryAfter := 0, reason := .allowed }, none)

/-- What the bucket of a key holds between two requests under the same policy. -/
structure State.Holds (current : State) (policy : Policy) : Prop where
  revision : current.revision = policy.revision
  refilled : current.lastRefill = current.lastSeen
  bucket : current.Bucket policy

/-- The tokens and the remainder that a request at an instant finds. -/
def atHand (policy : Policy) (now : Int) : Option State → Nat × Nat
  | none => (policy.limit, 0)
  | some current =>
    if now > current.lastSeen then
      Memory.refilled policy current.tokens current.remainder (elapsedMicros now current.lastSeen)
    else (current.tokens, current.remainder)

def leftOf (cost tokens : Nat) : Nat := if tokens < cost then tokens else subWord tokens cost

theorem leftOf_le {ts : Nat} (cost : Nat) (small : ts < 2 ^ 64) : leftOf cost ts ≤ ts := by
  unfold leftOf
  split
  · exact le_refl _
  · rw [subWord_eq (by omega) small]
    exact sub_le _ _

theorem admitToken_eq (cur : State) (req : Request) :
    admitToken cur req =
      ({ refill cur req with
         tokens := leftOf req.cost (refill cur req).tokens },
        tokenAnswer req.policy req.cost req.now (refill cur req).tokens
          (refill cur req).remainder) := by
  unfold admitToken tokenAnswer leftOf
  dsimp only [refillDuration]
  split <;> rfl

theorem admitToken_of_refill {tokens remainder : Nat}
    (refilled : refill cur req = { cur with tokens, remainder, lastRefill := req.now }) :
    admitToken cur req =
      ({ cur with
         tokens := leftOf req.cost tokens, remainder, lastRefill := req.now },
        tokenAnswer req.policy req.cost req.now tokens remainder) := by
  rw [admitToken_eq, refilled]

section

variable {old : Option State} {req : Request} {p : Policy} {now : Int}
  (holds : ∀ cur ∈ old, cur.Holds p) (under : req.policy = p) (bucket : p.algorithm = .tokenBucket)
  (clamped : clampTo (old.map State.lastSeen) req.now = now)

include holds under bucket clamped

theorem found_admission :
    (State.found old req).admission req =
      ({ State.found old req with
         lastSeen := now
         tokens := leftOf req.cost (atHand p now old).1
         remainder := (atHand p now old).2
         lastRefill := now },
        tokenAnswer p req.cost now (atHand p now old).1
          (atHand p now old).2) := by
  subst under clamped
  have stepped : (State.found old req).admission req =
      admitToken { State.found old req with
          lastSeen := max (State.found old req).lastSeen req.now }
        { req with now := max (State.found old req).lastSeen req.now } := by
    unfold State.admission
    simp only [State.clamp_eq, bucket]
  rw [stepped]
  cases old with
  | none =>
    have now : max (State.found none req).lastSeen req.now = req.now := max_self _
    rw [now]
    refine admitToken_of_refill ?_
    exact if_pos (lt_irrefl req.now)
  | some cur =>
    obtain ⟨revision, refilled, -⟩ := holds cur rfl
    have found : State.found (some cur) req = cur := if_neg (not_not.mpr revision)
    rw [found]
    refine admitToken_of_refill ?_
    dsimp only [atHand, Option.map, clampTo, Option.elim]
    by_cases later : max cur.lastSeen req.now > cur.lastSeen
    · have before : max cur.lastSeen req.now > cur.lastRefill := by rwa [refilled]
      rw [if_pos later, refill_eq before]
      rw [refilled]
    · have eq : max cur.lastSeen req.now = cur.lastSeen :=
        le_antisymm (not_lt.mp later) (le_max_left _ _)
      rw [if_neg later, eq, refill, if_pos (by simp [refilled]), ← refilled]

end

section

variable {old : Option State} {p : Policy} (valid : p.Valid) (bucket : p.algorithm = .tokenBucket)
  (holds : ∀ cur ∈ old, cur.Holds p)

include valid bucket holds

theorem atHand_bucket (now : Int) :
    (atHand p now old).1 ≤ p.limit ∧
      (atHand p now old).2 < p.micros ∧
      ((atHand p now old).1 = p.limit → (atHand p now old).2 = 0) := by
  have windowed : p.algorithm ≠ .concurrency := by simp [bucket]
  obtain ⟨some, -, -⟩ := valid.period windowed
  cases old with
  | none => exact ⟨le_refl _, some, fun _ => rfl⟩
  | some cur =>
    obtain ⟨ts, rem, full⟩ := (holds cur rfl).bucket
    unfold atHand
    dsimp only
    split
    · obtain ⟨tokens', remainder', full', -⟩ :=
        refilled_le valid windowed rem (elapsedMicros_lt now cur.lastSeen)
      exact ⟨tokens', remainder', full'⟩
    · exact ⟨ts, rem, full⟩

/-- A request finds no more than what was left and what the time since then is worth. -/
theorem atHand_le {now : Int} (found : old = some cur) (later : cur.lastSeen ≤ now) :
    balance p.micros (atHand p now old).1 (atHand p now old).2 ≤
      balance p.micros cur.tokens cur.remainder +
        p.capacity / p.period * ((now : ℚ) - cur.lastSeen) := by
  have windowed : p.algorithm ≠ .concurrency := by simp [bucket]
  obtain ⟨some, period, -⟩ := valid.period windowed
  subst found
  unfold atHand
  dsimp only
  have nanos : (p.period : ℚ) = p.micros * 1000 := by exact_mod_cast period
  have rate : (0 : ℚ) ≤ p.capacity / p.period := by
    rw [nanos]
    positivity
  have passed : (0 : ℚ) ≤ (now : ℚ) - cur.lastSeen := by
    have : (cur.lastSeen : ℚ) ≤ now := by exact_mod_cast later
    linarith
  split
  · have short := (holds cur rfl).bucket.remainder
    have near := elapsedMicros_lt now cur.lastSeen
    refine (refilled_le valid windowed short near).2.2.2.trans (add_le_add (le_refl _) ?_)
    have elapsed : (elapsedMicros now cur.lastSeen : ℚ) * 1000 ≤ (now : ℚ) - cur.lastSeen := by
      exact_mod_cast elapsedMicros_le later
    calc (elapsedMicros now cur.lastSeen : ℚ) * p.capacity / p.micros
        = p.capacity / p.period * (elapsedMicros now cur.lastSeen * 1000) := by
          rw [nanos]
          field_simp
      _ ≤ p.capacity / p.period * ((now : ℚ) - cur.lastSeen) :=
          mul_le_mul_of_nonneg_left elapsed rate
  · exact le_add_of_nonneg_right (mul_nonneg rate passed)

variable {req : Request} (under : req.policy = p)

include under

theorem found_admit_holds : ((State.found old req).admission req).1.Holds p := by
  obtain ⟨ts, rem, full⟩ := atHand_bucket valid bucket holds
    (clampTo (old.map State.lastSeen) req.now)
  have limit := valid.limit_lt
  rw [found_admission holds under bucket rfl]
  refine ⟨?_, rfl, ?_, rem, ?_⟩
  · cases old with
    | none => exact congrArg Policy.revision under
    | some cur =>
      have eq : ¬ cur.revision ≠ req.policy.revision := by
        rw [under]
        exact not_not.mpr (holds cur rfl).revision
      rw [State.found, if_neg eq]
      exact (holds cur rfl).revision
  · exact (leftOf_le _ (by omega)).trans ts
  · intro eq
    have most := leftOf_le req.cost (ts.trans_lt limit)
    dsimp only at eq
    exact full (by omega)

end

/-! ### Bursts -/

def drawsOf (steps : List (Int × Nat)) : List (ℚ × ℚ) := steps.map fun step => (step.1, step.2)

/-- The decisions from a state on are draws on the account of its bucket. -/
def Accounted (policy : Policy) (decisions : List (Request × Answer)) : Option State → Prop
  | none => ∃ time, Account (policy.limit : ℚ) (policy.capacity / policy.period) policy.limit time
      (drawsOf (admissions none decisions))
  | some current => Account (policy.limit : ℚ) (policy.capacity / policy.period)
      (balance policy.micros current.tokens current.remainder) current.lastSeen
      (drawsOf (admissions (some current.lastSeen) decisions))

theorem balance_leftOf (p : Policy) {ts : Nat} (cost : Nat) (now : Int) (rem : Nat)
    (small : ts < 2 ^ 64) :
    balance p.micros (leftOf cost ts) rem +
        ((if (tokenAnswer p cost now ts rem).1.allowed then cost else 0 : Nat) : ℚ) =
      balance p.micros ts rem := by
  unfold leftOf tokenAnswer balance
  by_cases less : ts < cost
  · rw [if_pos less, if_pos less, if_neg (by simp)]
    simp
  · rw [if_neg less, if_neg less, if_pos rfl, subWord_eq (by omega) small]
    push_cast [cast_sub (by omega : cost ≤ ts)]
    ring

section

variable {p : Policy} (valid : p.Valid) (bucket : p.algorithm = .tokenBucket) {key : String}
  {old : Option Memory.State}

include valid bucket

theorem served_accounted
    {rest : List (Request × Answer)} {answer : Answer} {next : Option Memory.State}
    (served : Served key req answer old next)
    (under : req.policy = p) (holds : ∀ cur ∈ old, cur.Holds p)
    (later : Accounted p rest next) : Accounted p ((req, answer) :: rest) old := by
  have limit := valid.limit_lt
  obtain ⟨now, clamped⟩ : ∃ now, clampTo (old.map State.lastSeen) req.canonical.now = now :=
    ⟨_, rfl⟩
  have stepped : (State.found old req.canonical).admission req.canonical = _ :=
    found_admission holds under bucket clamped
  obtain ⟨-, -, -, -, rfl, rfl⟩ := served
  rw [stepped] at later ⊢
  obtain ⟨held, short, full⟩ := atHand_bucket valid bucket holds now
  have most := balance_le held short full
  have taken := balance_leftOf p req.cost now (atHand p now old).2
    (held.trans_lt limit)
  cases old with
  | none =>
    cases clamped
    refine ⟨clampTo none req.canonical.now, ?_⟩
    refine .cons (le_refl _) (balance_nonneg ..) (taken.trans_le most) ?_ later
    rw [sub_self, mul_zero, add_zero]
    exact taken.trans_le most
  | some cur =>
    cases clamped
    have forward : cur.lastSeen ≤ clampTo (some cur.lastSeen) req.canonical.now := le_max_left _ _
    refine .cons (by exact_mod_cast forward) (balance_nonneg ..) (taken.trans_le most) ?_ later
    exact taken.trans_le (atHand_le valid bucket holds rfl forward)

/-- A run of requests under one policy, from the state of the key on. -/
theorem run_accounted {labels : List (Memory.Call × Memory.Reply)} {last : Option Memory.State}
    (run : Run (KeyStep key) old labels last)
    (under : ∀ label ∈ labels, ∀ req ∈ label.1.requestAt key, req.policy = p)
    (holds : ∀ cur ∈ old, cur.Holds p) : Accounted p (labels.filterMap (decision key)) old := by
  have windowed : ∀ req : Request, req.policy = p → req.policy.algorithm ≠ .concurrency := by
    rintro req rfl
    simp [bucket]
  refine decisions_from (P := fun old decisions =>
    (∀ cur ∈ old, cur.Holds p) → Accounted p decisions old) windowed run
    under ?_ ?_ ?_ holds
  · intro _
    cases last with
    | none => exact ⟨0, .nil _ _⟩
    | some cur => exact .nil _ _
  · intro cur l rest later holds
    obtain ⟨revision, refilled, ts, rem, full⟩ := holds cur rfl
    refine later fun other eq => ?_
    cases eq
    exact ⟨revision, refilled, ts, rem, full⟩
  · intro old next req answer rest under served later holds
    refine served_accounted valid bucket served under holds (later ?_)
    obtain ⟨-, -, -, -, -, rfl⟩ := served
    intro other eq
    cases eq
    exact found_admit_holds valid bucket holds under

end

theorem lastTime_drawsOf {last : Int} {cost : Nat} {rest : List (Int × Nat)}
    {t : Int} (ends : ((t, cost) :: rest).getLast?.map Prod.fst = some last) :
    Account.lastTime (t : ℚ) (drawsOf rest) = last := by
  cases rest with
  | nil =>
    cases ends
    rfl
  | cons step rest =>
    rw [List.getLast?_cons_cons] at ends
    obtain ⟨final, found, rfl⟩ := Option.map_eq_some_iff.mp ends
    rw [Account.lastTime, drawsOf, List.getLast?_map, found]
    rfl

/-- The token bucket bounds every burst. Whatever else the store is asked for, what it admits at the
key between two decisions is at most the limit and what the capacity gives for the time between
them. -/
theorem token_bucket_bounds_bursts {options : Options} {store : Store}
    (made : Store.new options = .ok store) {spec : PolicySpec} {policy : Policy}
    (built : newPolicy spec = .ok policy) (bucket : policy.algorithm = .tokenBucket) {key : String}
    {calls : List Call} (open_ : Call.close ∉ calls) (kept : store.Keeps key calls)
    (under : ∀ call ∈ calls, ∀ request ∈ call.requestAt key, request.policy = policy)
    {front middle back : List (Int × Nat)} {tᵢ tⱼ : Int}
    (run : admissions none (store.decisions key calls) = front ++ middle ++ back)
    (first : middle.head?.map Prod.fst = some tᵢ) (last : middle.getLast?.map Prod.fst = some tⱼ) :
    (((middle.map Prod.snd).sum : Nat) : ℚ) ≤
      policy.limit + policy.capacity * ((tⱼ : ℚ) - tᵢ) / policy.period := by
  obtain ⟨opened, absent⟩ := new_opened made
  have valid := newPolicy_valid built
  have accounted : Accounted policy (store.decisions key calls) (store.stateOf key) :=
    run_accounted valid bucket (run_key opened open_ kept)
      (fun label mem => under _ (mem_trace mem))
      (fun current found => by rw [absent key] at found; cases found)
  rw [absent key] at accounted
  obtain ⟨time, account⟩ := accounted
  rw [run] at account
  cases middle with
  | nil => cases first
  | cons step rest =>
    cases first
    rw [drawsOf, List.map_append, List.map_append] at account
    have bound : Account.total (drawsOf (step :: rest)) ≤ policy.limit + policy.capacity /
        policy.period * (Account.lastTime (step.1 : ℚ) (drawsOf rest) - step.1) := account.burst
    rw [lastTime_drawsOf last] at bound
    calc ((((step :: rest).map Prod.snd).sum : Nat) : ℚ)
        = Account.total (drawsOf (step :: rest)) := by
          simp [Account.total, drawsOf, List.map_map, Function.comp_def, cast_list_sum]
      _ ≤ policy.limit + policy.capacity / policy.period * (tⱼ - step.1) := bound
      _ = policy.limit + policy.capacity * (tⱼ - step.1) / policy.period := by ring

/-! A policy of two tokens a minute with a burst of one. -/

def minuteSpec : PolicySpec where
  id := "login"
  revision := "v1"
  algorithm := .tokenBucket
  capacity := 2
  period := 60000000000
  burst := 1
  maxCost := 0
  failureMode := .failClosed
  consistency := .unset
  lease := 0

def minutePolicy : Policy where
  id := "login"
  revision := "v1"
  algorithm := .tokenBucket
  capacity := 2
  period := 60000000000
  burst := 1
  maxCost := 3
  failureMode := .failClosed
  consistency := .processLocal
  lease := 0

theorem newPolicy_minute : newPolicy minuteSpec = .ok minutePolicy := by decide +kernel

/-- Three tokens at once, a rejection, and one more token half a minute later. -/
def minuteCalls : List Call :=
  [.admission none ⟨minutePolicy, ⟨"user"⟩, 3, 0⟩,
    .admission none ⟨minutePolicy, ⟨"user"⟩, 1, 1000000000⟩,
    .admission none ⟨minutePolicy, ⟨"user"⟩, 1, 30000000000⟩]

theorem token_bucket_bounds_bursts_minute :
    admissions none (tenKeys.decisions "login\x00user" minuteCalls) =
        [(0, 3), (1000000000, 0), (30000000000, 1)] ∧
      ((4 : Nat) : ℚ) ≤ 3 + 2 * (30000000000 - 0) / 60000000000 := by
  have steps : admissions none (tenKeys.decisions "login\x00user" minuteCalls) =
      [] ++ [(0, 3), (1000000000, 0), (30000000000, 1)] ++ [] := by decide +kernel
  refine ⟨steps, ?_⟩
  have bound := token_bucket_bounds_bursts new_tenKeys newPolicy_minute rfl (by simp [minuteCalls])
    (by decide +kernel) (by decide +kernel) steps rfl rfl
  exact bound

end Memory

end Golib.RateLimit
