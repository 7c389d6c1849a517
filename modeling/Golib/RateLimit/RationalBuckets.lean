import Golib.RateLimit.TokenBuckets

/-! The token bucket of the process-local store decides as the rational one of the reference, but
for the elapsed times whose refill wraps around. -/
namespace Golib.RateLimit

open Machine Bucket Nat

variable {now : Int} {req : Request} {key : String} {ts rem : Nat}

/-! ### Rational quotients -/

theorem num_tdiv_den {q : ℚ} (some : 0 ≤ q) : q.num.tdiv q.den = ⌊q⌋ := by
  rw [Rat.floor_def', Int.tdiv_eq_ediv, if_pos (Or.inl (Rat.num_nonneg.mpr some)), add_zero]

theorem num_mod_den (m : Nat) {n : Nat} (some : 0 < n) :
    ((m : ℚ) / n).num % ((m : ℚ) / n).den = 0 ↔ m % n = 0 := by
  have pos : (n : ℚ) ≠ 0 := by exact_mod_cast some.ne'
  have whole : ∀ q : ℚ, q.num % q.den = 0 ↔ q = ⌊q⌋ := by
    intro q
    rw [Rat.floor_def']
    constructor
    · intro none
      have split := Int.mul_ediv_add_emod q.num q.den
      rw [none, add_zero] at split
      calc q = q.num / q.den := (Rat.num_div_den q).symm
        _ = ((q.den * (q.num / q.den) : Int) : ℚ) / q.den := by rw [split]
        _ = ((q.num / q.den : Int) : ℚ) := by
          push_cast
          field_simp
    · intro eq
      rw [eq]
      simp
  rw [whole, Rat.floor_natCast_div_natCast]
  constructor
  · intro eq
    rw [div_eq_iff pos] at eq
    have product : m = m / n * n := by exact_mod_cast eq
    have split := div_add_mod' m n
    omega
  · intro none
    rw [div_eq_iff pos]
    have split := div_add_mod' m n
    rw [none, add_zero] at split
    exact_mod_cast split.symm

theorem remainder_part {period : Nat} (short : rem < period) :
    (0 : ℚ) ≤ rem / period ∧ (rem : ℚ) / period < 1 := by
  have pos : (0 : ℚ) < period := by exact_mod_cast (by omega : 0 < period)
  exact ⟨by positivity, (div_lt_one pos).mpr (by exact_mod_cast short)⟩

theorem inRange_nanos {n : Nat} (few : n ≤ 2 ^ 53) : InRange ((n : Int) * 1000) :=
  inRange_iff.mpr ⟨by omega, by omega⟩

section

variable {p : Policy} (valid : p.Valid) (windowed : p.algorithm ≠ .concurrency)

include valid windowed

theorem Policy.Valid.cast_micros : ((microseconds p.period : Int) : ℚ) = p.micros := by
  obtain ⟨some, period, -⟩ := valid.period windowed
  have eq : microseconds p.period = p.micros := by
    unfold Policy.micros at some ⊢
    omega
  rw [eq]
  rfl

theorem reference_refillDuration_eq (few : ts ≤ p.limit) (short : rem < p.micros) :
    Reference.refillDuration ((ts : ℚ) - rem / p.micros) p = refillTime ts rem p := by
  obtain ⟨some, -, exact⟩ := valid.period windowed
  have micros : (0 : ℚ) < p.micros := by exact_mod_cast some
  obtain ⟨rest, part⟩ := remainder_part short
  rw [refillTime_eq valid windowed few short]
  unfold Reference.refillDuration
  by_cases none : ts = 0
  · rw [if_pos none, if_pos]
    · rfl
    · rw [none, cast_zero]
      linarith
  · have least : 1 ≤ ts := pos_of_ne_zero none
    have pos : (1 : ℚ) ≤ ts := by exact_mod_cast least
    have order : rem ≤ ts * p.micros := short.le.trans (Nat.le_mul_of_pos_left _ least)
    rw [if_neg none, if_neg (by linarith), valid.cast_micros windowed]
    have v : ((ts : ℚ) - rem / p.micros) * p.micros / p.capacity =
        ((ts * p.micros - rem : Nat) : ℚ) / p.capacity := by
      push_cast [cast_sub order]
      rw [sub_mul, div_mul_cancel₀ _ micros.ne']
    have most : ts * p.micros ≤ maxExactInteger := (mul_le_mul_right _ few).trans exact
    have bound : ts * p.micros - rem < 2 ^ 53 := by
      unfold maxExactInteger at most
      omega
    rw [v]
    generalize ts * p.micros - rem = m at bound ⊢
    dsimp only
    rw [num_tdiv_den (by positivity), Rat.floor_natCast_div_natCast]
    have rounded : (if ((m : ℚ) / p.capacity).num % ((m : ℚ) / p.capacity).den ≠ 0 then
        ((m / p.capacity : Int)) + 1 else (m / p.capacity : Int)) =
        (roundUp m p.capacity : Int) := by
      unfold roundUp
      simp only [ne_eq, num_mod_den m valid.capacity]
      split <;> push_cast <;> rfl
    rw [rounded]
    have quotient : roundUp m p.capacity ≤ 2 ^ 53 := by
      have := div_le_self m p.capacity
      unfold roundUp
      split <;> omega
    have inner : int64 (roundUp m p.capacity) = roundUp m p.capacity :=
      int64_eq (inRange_iff.mpr ⟨by omega, by omega⟩)
    rw [inner]
    exact int64_eq (inRange_nanos quotient)

end

namespace Reference

/-- The balance that a request at an instant finds. -/
def atHand (policy : Policy) (now : Int) : Option State → ℚ
  | none => policy.limit
  | some current =>
    if now > current.last then
      min (policy.limit : ℚ) (current.tokens +
        microseconds (timeSub now current.last) / microseconds policy.period * policy.capacity)
    else current.tokens

/-- What the reference answers from a balance. -/
def tokenAnswer (policy : Policy) (cost : Nat) (now : Int) (tokens : ℚ) : Answer :=
  if tokens ≥ cost then
    ({ allowed := true, limit := policy.limit, remaining := floorRat (tokens - cost),
       reset := now + refillDuration (policy.limit - (tokens - cost)) policy, retryAfter := 0,
       reason := .allowed }, none)
  else
    ({ allowed := false, limit := policy.limit, remaining := floorRat tokens,
       reset := now + refillDuration (policy.limit - tokens) policy,
       retryAfter := refillDuration (cost - tokens) policy, reason := .limited }, some .rejected)

theorem refill_eq (cur : State) (req : Request) :
    refill cur req =
      { cur with
        tokens := atHand req.policy req.now (some cur)
        last := max cur.last req.now } := by
  unfold refill atHand
  by_cases later : req.now > cur.last
  · dsimp only
    rw [if_pos later, max_eq_right later.le]
    congr 1
    split
    · rename_i above
      rw [min_eq_left above.le]
    · rename_i below
      rw [min_eq_right (not_lt.mp below)]
  · rw [if_neg later]
    dsimp only
    rw [if_neg later, max_eq_left (not_lt.mp later)]

theorem referenceToken_eq {cur : Reference.State} {tokens : ℚ} {last : Int}
    (refilled : refill cur req = { cur with tokens, last }) :
    referenceToken cur req =
      ({ cur with tokens := if tokens ≥ req.cost then tokens - req.cost else tokens, last },
        tokenAnswer req.policy req.cost req.now tokens) := by
  unfold referenceToken tokenAnswer
  rw [refilled]
  by_cases enough : tokens ≥ req.cost
  · simp only [enough, if_true, decide_true]
  · simp only [enough, if_false, decide_false]

/-- One request on the state of a key, which was last refilled when it was last seen. -/
theorem admit_eq {existing : Option Reference.State}
    (cur : ∀ cur ∈ existing, cur.last = cur.observed)
    (bucket : req.policy.algorithm = .tokenBucket)
    (clamped : Memory.clampTo (existing.map State.observed) req.now = now) :
    (existing.getD (.new req)).admission req =
      ({ existing.getD (.new req) with
         observed := now
         tokens := if atHand req.policy now existing ≥ req.cost then
             atHand req.policy now existing - req.cost
           else atHand req.policy now existing
         last := now },
        tokenAnswer req.policy req.cost now (atHand req.policy now existing)) := by
  subst clamped
  have stepped : (existing.getD (.new req)).admission req =
      referenceToken
        { existing.getD (.new req) with
          observed := max (existing.getD (.new req)).observed req.now }
        { req with now := max (existing.getD (.new req)).observed req.now } := by
    unfold State.admission
    by_cases before : req.now < (existing.getD (.new req)).observed
    · simp only [if_pos before, bucket, max_eq_left before.le]
    · simp only [if_neg before, bucket, max_eq_right (not_lt.mp before)]
  rw [stepped]
  cases existing with
  | none =>
    have now : max ((none : Option State).getD (.new req)).observed req.now = req.now := max_self _
    rw [now]
    have refilled := refill_eq { State.new req with observed := req.now } req
    refine referenceToken_eq (refilled.trans ?_)
    simp [atHand, State.new, Memory.clampTo]
  | some s =>
    refine referenceToken_eq ?_
    rw [refill_eq]
    have same := cur s rfl
    simp [atHand, Memory.clampTo, same]

theorem admit_valid (reference : Limiter) (valid : req.validate = .ok ())
    (here : Memory.stateKey req = key) :
    (reference.admission none req).2 =
        (((reference.lookup key).getD (.new req.canonical)).admission req.canonical).2 ∧
      (reference.admission none req).1.lookup key =
        some (((reference.lookup key).getD (.new req.canonical)).admission req.canonical).1 := by
  subst here
  unfold Limiter.admission
  simp only [valid]
  exact ⟨rfl, AList.lookup_insert _⟩

end Reference

/-! ### Whole tokens and rational balances -/

section

variable {period ts rem : Nat} (short : rem < period)

include short

theorem floor_balance : ⌊balance period ts rem⌋ = (ts : Int) := by
  obtain ⟨rest, part⟩ := remainder_part short
  rw [Int.floor_eq_iff]
  unfold balance
  push_cast
  exact ⟨by linarith, by linarith⟩

theorem le_balance_iff {cost : Nat} : (cost : ℚ) ≤ balance period ts rem ↔ cost ≤ ts := by
  have floor := Int.le_floor (z := cost) (a := balance period ts rem)
  rw [floor_balance short] at floor
  exact_mod_cast floor.symm

theorem floorRat_balance (small : ts < 2 ^ 64) :
    Reference.floorRat (balance period ts rem) = ts := by
  rw [Reference.floorRat, num_tdiv_den (balance_nonneg ..), floor_balance short]
  have word := toWord_eq (by omega : (0 : Int) ≤ ts) (by exact_mod_cast small)
  exact_mod_cast word

end

theorem balance_sub {cost period : Nat} (enough : cost ≤ ts) :
    balance period ts rem - cost = balance period (ts - cost) rem := by
  unfold balance
  push_cast [cast_sub enough]
  ring

section

variable {p : Policy} (valid : p.Valid) (windowed : p.algorithm ≠ .concurrency) {cost ts rem : Nat}
  (held : ts ≤ p.limit) (short : rem < p.micros)

include valid windowed held short

theorem reference_tokenAnswer (few : cost ≤ p.limit) (now : Int) :
    Reference.tokenAnswer p cost now (balance p.micros ts rem) =
      Memory.tokenAnswer p cost now ts rem := by
  have limit := valid.limit_lt
  have missing : ∀ {n : Nat}, n ≤ p.limit →
      Reference.refillDuration (p.limit - balance p.micros n rem) p =
        refillTime (subWord p.limit n) rem p := by
    intro n order
    rw [subWord_eq order limit, ← reference_refillDuration_eq valid windowed (by omega) short]
    congr 1
    unfold balance
    push_cast [cast_sub order]
    ring
  unfold Reference.tokenAnswer Memory.tokenAnswer
  by_cases enough : cost ≤ ts
  · rw [if_pos ((le_balance_iff short).mpr enough), if_neg (not_lt.mpr enough), balance_sub enough,
      subWord_eq enough (by omega), missing (by omega), floorRat_balance short (by omega)]
  · have less : ts < cost := not_le.mp enough
    have retry : (cost : ℚ) - balance p.micros ts rem =
        ((cost - ts : Nat) : ℚ) - rem / p.micros := by
      unfold balance
      push_cast [cast_sub less.le]
      ring
    rw [if_neg fun le => enough ((le_balance_iff short).mp le), if_pos less, missing held, retry,
      floorRat_balance short (by omega), subWord_eq less.le (by omega),
      reference_refillDuration_eq valid windowed (by omega : cost - ts ≤ p.limit) short]

omit windowed in
theorem reference_left :
    (if balance p.micros ts rem ≥ cost then
        balance p.micros ts rem - cost else balance p.micros ts rem) =
      balance p.micros (Memory.leftOf cost ts) rem := by
  have limit := valid.exact
  unfold maxExactInteger at limit
  unfold Memory.leftOf
  by_cases enough : cost ≤ ts
  · rw [if_pos ((le_balance_iff short).mpr enough), if_neg (not_lt.mpr enough), balance_sub enough,
      subWord_eq enough (by omega)]
  · rw [if_neg fun le => enough ((le_balance_iff short).mp le), if_pos (not_le.mp enough)]

end

/-! ### Runs -/

namespace Memory

/-- The state of the reference holds the balance of the store, and both saw the same instant. -/
structure State.Agrees (current : State) (reference : Reference.State)
    (policy : Policy) : Prop where
  holds : current.Holds policy
  observed : reference.observed = current.lastSeen
  last : reference.last = current.lastSeen
  tokens : reference.tokens = balance policy.micros current.tokens current.remainder

def AgreeAt (policy : Policy) (instants : List Int) :
    Option State → Option Reference.State → Prop
  | none, none => True
  | some current, some reference => current.Agrees reference policy ∧ current.lastSeen ∈ instants
  | _, _ => False

theorem AgreeAt.leases {instants : List Int}
    {p : Policy} {cur : Memory.State} {reference : Option Reference.State} {l : Memory.Leases}
    (agree : AgreeAt p instants (some cur) reference) :
    AgreeAt p instants (some { cur with leases := l }) reference := by
  cases reference with
  | none => exact absurd agree id
  | some s =>
    obtain ⟨⟨⟨revision, refilled, held, short, full⟩, observed, last, ts⟩, seen⟩ := agree
    exact ⟨⟨⟨revision, refilled, held, short, full⟩, observed, last, ts⟩, seen⟩

section

variable {p : Policy} (valid : p.Valid) (bucket : p.algorithm = .tokenBucket) {instants : List Int}
  (exact : ∀ t ∈ instants, ∀ t' ∈ instants, ¬ Wraps p (elapsedMicros t' t)) {old : Option State}
  {reference : Option Reference.State} (agree : AgreeAt p instants old reference)

include agree

theorem AgreeAt.holds : ∀ cur ∈ old, cur.Holds p := by
  intro cur found
  cases found
  cases reference with
  | none => exact absurd agree id
  | some s => exact agree.1.holds

theorem AgreeAt.seen : reference.map Reference.State.observed = old.map State.lastSeen := by
  cases old with
  | none =>
    cases reference with
    | none => rfl
    | some s => exact absurd agree id
  | some cur =>
    cases reference with
    | none => exact absurd agree id
    | some s => exact congrArg some agree.1.observed

theorem AgreeAt.known : ∀ t ∈ old.map State.lastSeen, t ∈ instants := by
  intro t found
  cases old with
  | none => cases found
  | some cur =>
    cases found
    cases reference with
    | none => exact absurd agree id
    | some s => exact agree.2

include valid bucket exact

theorem atHand_agree (known : now ∈ instants) :
    Reference.atHand p now reference =
      balance p.micros (atHand p now old).1 (atHand p now old).2 := by
  have windowed : p.algorithm ≠ .concurrency := by simp [bucket]
  obtain ⟨some, -, -⟩ := valid.period windowed
  cases old with
  | none =>
    cases reference with
    | none => simp [Reference.atHand, atHand, balance]
    | some s => exact absurd agree id
  | some cur =>
    cases reference with
    | none => exact absurd agree id
    | some s =>
      obtain ⟨⟨⟨-, -, held, short, -⟩, -, last, ts⟩, seen⟩ := agree
      unfold Reference.atHand atHand
      dsimp only
      rw [last]
      by_cases later : now > cur.lastSeen
      · have elapsed : (microseconds (timeSub now cur.lastSeen) : ℚ) =
            elapsedMicros now cur.lastSeen := by
          have pos : 0 ≤ microseconds (timeSub now cur.lastSeen) := by
            obtain ⟨pos, -⟩ := saturate_le (by omega : 0 ≤ now - cur.lastSeen)
            exact Int.tdiv_nonneg pos (by decide)
          exact_mod_cast (Int.toNat_of_nonneg pos).symm
        rw [if_pos later, if_pos later, refilled_exact valid windowed short
          (elapsedMicros_lt _ _) held
          (exact _ seen _ known), balance_topUp some, ts, elapsed, valid.cast_micros windowed,
          div_mul_eq_mul_div]
      · rw [if_neg later, if_neg later, ts]

theorem served_agree {answer : Answer} {next : Option Memory.State}
    (served : Served key req answer old next) (under : req.policy = p)
    (known : req.canonical.now ∈ instants) :
    ((reference.getD (.new req.canonical)).admission req.canonical).2 = answer ∧
      AgreeAt p instants next
        (some ((reference.getD (.new req.canonical)).admission req.canonical).1) := by
  have windowed : p.algorithm ≠ .concurrency := by simp [bucket]
  have holds := agree.holds
  have mem := clampTo_mem agree.known known
  have hand := atHand_agree valid bucket exact agree mem
  have eq : ∀ s ∈ reference, s.last = s.observed := by
    intro s found
    cases found
    cases old with
    | none => exact absurd agree id
    | some cur => rw [agree.1.last, agree.1.observed]
  obtain ⟨checked, -, -, -, rfl, rfl⟩ := served
  obtain ⟨-, bounded, -, -⟩ := validate_valid checked
  have few : req.cost ≤ p.limit := by
    rw [under] at bounded
    exact bounded.trans valid.maxCost
  obtain ⟨held, short, full⟩ := atHand_bucket valid bucket holds _
  have after : ((State.found old req.canonical).admission req.canonical).1.Holds p :=
    found_admit_holds valid bucket holds under
  have stepped : (State.found old req.canonical).admission req.canonical = _ :=
    found_admission holds under bucket rfl
  rw [stepped] at after ⊢
  have bucket' : req.canonical.policy.algorithm = .tokenBucket := by rw [← bucket, ← under]; rfl
  rw [Reference.admit_eq eq bucket' rfl, agree.seen]
  have under' : req.canonical.policy = p := under
  rw [under', hand]
  refine ⟨reference_tokenAnswer valid windowed held short few _, ⟨after, rfl, rfl, ?_⟩, mem⟩
  exact reference_left valid held short

end

/-- The process-local token bucket and the rational one of the reference answer alike: with the same
decision, the same remaining tokens, reset and retry times, at every request of a run, as long as no
two requests are apart by a time whose refill wraps around. -/
theorem token_bucket_eq_reference {options : Options} {store : Store}
    (made : Store.new options = .ok store) {spec : PolicySpec} {policy : Policy}
    (built : newPolicy spec = .ok policy) (bucket : policy.algorithm = .tokenBucket) {key : String}
    {calls : List Call} (open_ : Call.close ∉ calls) (kept : store.Keeps key calls)
    (under : ∀ call ∈ calls, ∀ request ∈ call.requestAt key, request.policy = policy)
    (exact : ∀ t ∈ instantsAt key calls, ∀ t' ∈ instantsAt key calls,
      ¬ Wraps policy (elapsedMicros t' t)) :
    outputs (fun (reference : Reference.Limiter) request => reference.admission none request) ∅
        ((store.decisions key calls).map Prod.fst) =
      (store.decisions key calls).map Prod.snd := by
  obtain ⟨opened, absent⟩ := new_opened made
  have valid := newPolicy_valid built
  let Q (request : Request) : Prop :=
    request.policy = policy ∧ request.canonical.now ∈ instantsAt key calls
  let R (existing : Option State) (reference : Reference.Limiter) : Prop :=
    AgreeAt policy (instantsAt key calls) existing (reference.lookup key)
  have requests : ∀ call ∈ calls, ∀ request ∈ call.requestAt key, Q request :=
    fun call mem request at_ => ⟨under call mem request at_, mem_instantsAt mem at_⟩
  have windowed : ∀ request, Q request → request.policy.algorithm ≠ .concurrency := by
    rintro request ⟨rfl, -⟩
    simp [bucket]
  have leases : ∀ current l reference, R (some current) reference →
      R (some { current with leases := l }) reference := fun _ _ _ agree => agree.leases
  refine decisions_simulates windowed opened open_ kept requests leases ?_ ?_
  · rintro existing next request answer reference ⟨under, known⟩ served agree
    obtain ⟨same, related⟩ := served_agree valid bucket exact agree served under known
    obtain ⟨answered, found⟩ := Reference.admit_valid reference served.valid served.here
    rw [answered]
    refine ⟨same, ?_⟩
    change AgreeAt policy _ next ((reference.admission none request).1.lookup key)
    rw [found]
    exact related
  · have none : (∅ : Reference.Limiter).lookup key = none := AList.lookup_empty key
    change AgreeAt policy _ (store.stateOf key) ((∅ : Reference.Limiter).lookup key)
    rw [absent key, none]
    trivial

theorem token_bucket_eq_reference_minute :
    outputs (fun (reference : Reference.Limiter) request => reference.admission none request) ∅
        ((tenKeys.decisions "login\x00user" minuteCalls).map Prod.fst) =
      (tenKeys.decisions "login\x00user" minuteCalls).map Prod.snd ∧
    ((tenKeys.decisions "login\x00user" minuteCalls).map fun entry => entry.2.1.allowed) =
      [true, false, true] :=
  ⟨token_bucket_eq_reference new_tenKeys newPolicy_minute rfl (by simp [minuteCalls])
    (by decide +kernel) (by decide +kernel) (by decide +kernel), by decide +kernel⟩

/-! A policy of 2 ^ 32 - 1 tokens a microsecond: in 2 ^ 32 + 1 microseconds it is worth
2 ^ 64 - 1 tokens, and with the one that is left the sum is 2 ^ 64. -/

def wideSpec : PolicySpec := { minuteSpec with capacity := 4294967295, period := 1000, burst := 0 }

def widePolicy : Policy :=
  { minutePolicy with capacity := 4294967295, period := 1000, burst := 0, maxCost := 4294967295 }

def wideCalls : List Call :=
  [.admission none ⟨widePolicy, ⟨"user"⟩, 4294967294, 0⟩,
    .admission none ⟨widePolicy, ⟨"user"⟩, 1, 4294967297000⟩]

/-- The store loses the whole bucket and rejects where the reference admits. -/
theorem refill_wraps_around :
    Store.new ⟨10, 2⟩ = .ok tenKeys ∧ newPolicy wideSpec = .ok widePolicy ∧
      tenKeys.Keeps "login\x00user" wideCalls ∧
      (∀ call ∈ wideCalls, ∀ request ∈ call.requestAt "login\x00user",
        request.policy = widePolicy) ∧
      ((tenKeys.decisions "login\x00user" wideCalls).map fun entry =>
        (entry.2.1.allowed, entry.2.1.remaining)) = [(true, 1), (false, 0)] ∧
      ((outputs (fun (reference : Reference.Limiter) request => reference.admission none request) ∅
          ((tenKeys.decisions "login\x00user" wideCalls).map Prod.fst)).map fun answer =>
        (answer.1.allowed, answer.1.remaining)) = [(true, 1), (true, 4294967294)] :=
  ⟨rfl, by decide +kernel, by decide +kernel, by decide +kernel, by decide +kernel,
    by decide +kernel⟩

end Memory

end Golib.RateLimit
