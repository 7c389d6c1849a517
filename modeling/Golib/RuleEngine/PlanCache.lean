import Golib.RuleEngine.Serialization
import Mathlib.Data.List.Dedup

/-! Compilation through a shared cache of plans, against compilation. -/
namespace Golib.RuleEngine

open List

section

variable (regexp : Regexp) (digest : JsonDefinition → String)

/-- `CanonicalHash`, by the compiler of the default limits; `digest` is the SHA-256 of the
JSON text in hexadecimal. -/
def canonicalHash (set : RuleSet) : Except Failure String := do
  let plan ← (newCompiler defaultLimits).compile regexp false set
  pure (digest (definition set plan))

/-- The plans under their keys, from the most recently used. -/
structure MemoryPlanCache where
  capacity : Nat
  recent : List (String × Plan) := []

def newMemoryPlanCache (capacity : Int) : Except Failure MemoryPlanCache :=
  if capacity ≤ 0 then .error ⟨none, .invalidLimit, "cache capacity must be positive"⟩
  else .ok { capacity := capacity.toNat }

def MemoryPlanCache.get (cache : MemoryPlanCache) (done : Bool) (key : String) :
    Except Failure (Option Plan × MemoryPlanCache) :=
  if done then .error ⟨none, .context, "context is done"⟩
  else if key = "" then .error ⟨none, .cache, "cache key is empty"⟩
  else match cache.recent.lookup key with
    | none => .ok (none, cache)
    | some plan =>
      .ok (some plan, { cache with recent := (key, plan) :: cache.recent.filter (·.1 ≠ key) })

def MemoryPlanCache.put (cache : MemoryPlanCache) (done : Bool) (key : String) (plan : Plan) :
    Except Failure MemoryPlanCache :=
  if done then .error ⟨none, .context, "context is done"⟩
  else if key = "" then .error ⟨none, .cache, "cache key is empty"⟩
  else
    let recent := (key, plan) :: cache.recent.filter (·.1 ≠ key)
    if (cache.recent.lookup key).isSome ∨ recent.length ≤ cache.capacity then
      .ok { cache with recent }
    else .ok { cache with recent := recent.dropLast }

structure Call where
  compiler : Compiler
  done : Bool := false
  set : RuleSet

def Call.compile (call : Call) : Except Failure Plan :=
  call.compiler.compile regexp call.done call.set

/-- The plan under a hash, or a new one that is stored there. -/
def Call.fetch (call : Call) (hash : String) (cache : MemoryPlanCache) :
    Except Failure Plan × MemoryPlanCache :=
  match cache.get call.done hash with
  | .error _ => (.error ⟨none, .cache, "plan cache read failed"⟩, cache)
  | .ok (found, cache) =>
    match found.filter (·.hash = hash), call.compile regexp with
    | some plan, _ => (.ok plan, cache)
    | none, .error failure => (.error failure, cache)
    | none, .ok plan =>
      match cache.put call.done hash { plan with hash } with
      | .error _ => (.error ⟨none, .cache, "plan cache write failed"⟩, cache)
      | .ok cache => (.ok { plan with hash }, cache)

/-- `CompileCached`. -/
def Call.compileCached (call : Call) (cache : MemoryPlanCache) :
    Except Failure Plan × MemoryPlanCache :=
  match canonicalHash regexp digest call.set with
  | .error failure => (.error { failure with rule := none }, cache)
  | .ok hash => call.fetch regexp hash cache

def runCalls : MemoryPlanCache → List Call → List (Except Failure Plan)
  | _, [] => []
  | cache, call :: calls =>
    (call.compileCached regexp digest cache).1 ::
      runCalls (call.compileCached regexp digest cache).2 calls

def Plan.Alike (plan own : Plan) : Prop := ∀ done facts,
  (plan.evaluate regexp done facts).decision = (own.evaluate regexp done facts).decision ∧
  (plan.evaluate regexp done facts).matchedRules = (own.evaluate regexp done facts).matchedRules ∧
  (plan.evaluate regexp done facts).derivedFacts = (own.evaluate regexp done facts).derivedFacts

/-- The call succeeds when the compiler of the call does, with a plan that decides alike. -/
def Agrees (call : Call) (outcome : Except Failure Plan) : Prop :=
  match call.compile regexp, outcome with
  | .ok own, .ok plan => plan.Alike regexp own
  | .error _, .error _ => True
  | _, _ => False

/-- What the cache holds: plans of the calls' rule sets, under the hashes of their definitions. -/
def Caches (calls : List Call) (entry : String × Plan) : Prop :=
  ∃ call ∈ calls, ∃ plan own, (newCompiler defaultLimits).compile regexp false call.set = .ok plan ∧
    call.compiler.compile regexp false call.set = .ok own ∧
    entry = (digest (definition call.set plan),
      { own with hash := digest (definition call.set plan) })

def definitions (calls : List Call) : Set JsonDefinition :=
  {d | ∃ call ∈ calls, ∃ plan,
    (newCompiler defaultLimits).compile regexp false call.set = .ok plan ∧ d =
      definition call.set plan}

variable {regexp digest} {cache : MemoryPlanCache} {key : String} {plan : Plan} {call : Call}

theorem get_live (text : key ≠ "") : ∃ found cache', cache.get false key = .ok (found, cache') ∧
    (∀ plan ∈ found, (key, plan) ∈ cache.recent) ∧ ∀ e ∈ cache'.recent, e ∈ cache.recent := by
  unfold MemoryPlanCache.get
  rw [if_neg (by simp), if_neg text]
  cases there : cache.recent.lookup key with
  | none => exact ⟨none, cache, rfl, by simp, fun _ mem => mem⟩
  | some plan =>
    have mem : (key, plan) ∈ cache.recent := by
      obtain ⟨front, rest, split, -⟩ := lookup_eq_some_iff.mp there
      simp [split]
    refine ⟨some plan, _, rfl, by simpa using mem, fun e sub => ?_⟩
    rcases mem_cons.mp sub with rfl | old
    · exact mem
    · exact mem_of_mem_filter old

theorem put_live (cache : MemoryPlanCache) (text : key ≠ "") (plan : Plan) :
    ∃ cache', cache.put false key plan = .ok cache' ∧
      ∀ e ∈ cache'.recent, e = (key, plan) ∨ e ∈ cache.recent := by
  have kept : ∀ e ∈ (key, plan) :: cache.recent.filter (·.1 ≠ key),
      e = (key, plan) ∨ e ∈ cache.recent := fun e sub =>
    (mem_cons.mp sub).imp id mem_of_mem_filter
  unfold MemoryPlanCache.put
  rw [if_neg (by simp), if_neg text]
  dsimp only
  split
  · exact ⟨_, rfl, kept⟩
  · exact ⟨_, rfl, fun e sub => kept e (mem_of_mem_dropLast sub)⟩

theorem alike_of_eq {own : Plan} {plan : Plan} (eq : plan.evaluate regexp = own.evaluate regexp) :
    plan.Alike regexp own := by
  intro done facts
  rw [eq]
  exact ⟨rfl, rfl, rfl⟩

/-- The tags of a rule are written in their order and checked in any. -/
theorem checkRule_congr {left right : Rule} {compiler : Compiler} (bare : left.bare = right.bare)
    (tags : left.tags.Perm right.tags) :
    checkRule regexp compiler [] [] left = checkRule regexp compiler [] [] right := by
  have checked : validateTags left.tags compiler.limits =
      validateTags right.tags compiler.limits := by
    simp only [validateTags, tags.length_eq, tags.nodup_iff, tags.all_eq]
  obtain ⟨id, space, -, -, when, derive⟩ := Rule.mk.inj bare
  simp only [checkRule, checked, id, space, when, derive]

theorem encodeRule_tags {rule : Rule} (distinct : rule.tags.Nodup) :
    (encodeRule rule).tags.Perm rule.tags := by
  have perm := perm_insertionSort (· ≤ ·) rule.tags
  rwa [encodeRule, dedup_eq_self.mpr (perm.nodup_iff.mpr distinct)]

/-- Rules that are written alike and checked differ in the order of their tags. -/
theorem bare_of_encoded {left right : Rule} {c c' : Compiler} (ascending : left.Ascending)
    (ascending' : right.Ascending) (passed : checkRule regexp c [] [] left = .ok ())
    (passed' : checkRule regexp c' [] [] right = .ok ()) (eq : encodeRule left = encodeRule right) :
    left.bare = right.bare ∧ left.tags.Perm right.tags := by
  obtain ⟨tags, sound, -⟩ := checkRule_ok passed
  obtain ⟨tags', sound', -⟩ := checkRule_ok passed'
  refine ⟨encodeRule_inj ascending ascending' (fun fact mem => (sound fact mem).owned)
    (fun fact mem => (sound' fact mem).owned) eq, ?_⟩
  have perm := encodeRule_tags tags
  rw [eq] at perm
  exact perm.symm.trans (encodeRule_tags tags')

theorem Compiled.rule {compiler : Compiler} {set : RuleSet} {rule : Rule}
    (compiled : Compiled regexp compiler set plan) (mem : rule ∈ set.rules) :
    checkRule regexp compiler [] [] rule = .ok () :=
  ((checkRules_iff nodup_nil nodup_nil).mp compiled.checked).1 rule mem

section

variable {default compiler : Compiler} {set set' : RuleSet} {plan' : Plan}
  (compiled : Compiled regexp default set plan) (compiled' : Compiled regexp default set' plan')
  (ascending : ∀ rule ∈ set.rules, rule.Ascending)
  (ascending' : ∀ rule ∈ set'.rules, rule.Ascending)
  (eq : definition set plan = definition set' plan')

include compiled compiled' ascending ascending' eq

/-- Rule sets of one definition differ in the order of their rules and of the tags. -/
theorem rules_of_definition : set.strategy = set'.strategy ∧
    (set.rules.insertionSort Rule.before).map Rule.bare =
      (set'.rules.insertionSort Rule.before).map Rule.bare := by
  obtain ⟨rfl, -, -, known, -⟩ := id compiled
  obtain ⟨rfl, -, -, known', -⟩ := id compiled'
  simp only [definition, JsonDefinition.mk.injEq] at eq
  obtain ⟨-, -, -, named, rules⟩ := eq
  refine ⟨?_, map_eq_of_inj (fun left mem right mem' encoded => ?_) rules⟩
  · revert named known known'
    cases set.strategy <;> cases set'.strategy <;> simp [strategyName, ConflictStrategy.valid]
  · have sub := (perm_insertionSort Rule.before set.rules).mem_iff.mp mem
    have sub' := (perm_insertionSort Rule.before set'.rules).mem_iff.mp mem'
    exact (bare_of_encoded (ascending left sub) (ascending' right sub') (compiled.rule sub)
      (compiled'.rule sub') encoded).1

/-- A compiler takes all of them or none. -/
theorem Compiled.transfer {own : Plan} (accepted : Compiled regexp compiler set' own) :
    Compiled regexp compiler set (compiler.plan set) := by
  obtain ⟨-, bare⟩ := rules_of_definition compiled compiled' ascending ascending' eq
  have perm := perm_insertionSort Rule.before set.rules
  have perm' := perm_insertionSort Rule.before set'.rules
  obtain ⟨-, ids, keys, -⟩ := (checkRules_iff nodup_nil nodup_nil).mp compiled.checked
  obtain ⟨-, -, -, total⟩ := (checkRules_iff nodup_nil nodup_nil).mp accepted.checked
  have many : set.rules.length = set'.rules.length := by
    simpa using congrArg length bare
  have derives : (derivedKeys set.rules).length = (derivedKeys set'.rules).length := by
    have flat (rules : List Rule) : rules.flatMap Rule.derive =
        (rules.map Rule.bare).flatMap Rule.derive := by rw [flatMap_map]; rfl
    unfold derivedKeys
    rw [length_map, length_map, ← (perm.flatMap_right _).length_eq,
      ← (perm'.flatMap_right _).length_eq, flat, bare, ← flat]
  obtain ⟨rfl, -⟩ := id compiled
  obtain ⟨rfl, -⟩ := id compiled'
  simp only [definition, JsonDefinition.mk.injEq] at eq
  obtain ⟨-, id, space, -, rules⟩ := eq
  refine ⟨rfl, accepted.limits, by rw [id, space]; exact accepted.named, compiled.known,
    many ▸ accepted.few, (checkRules_iff nodup_nil nodup_nil).mpr ⟨fun rule mem => ?_, ids, keys,
      fun some => ?_⟩, compiled.acyclic⟩
  · obtain ⟨other, mem', encoded⟩ := mem_map.mp (rules ▸ mem_map_of_mem (perm.mem_iff.mpr mem))
    have sub := perm'.mem_iff.mp mem'
    obtain ⟨bare, tags⟩ := bare_of_encoded (ascending rule mem) (ascending' other sub)
      (compiled.rule mem) (accepted.rule sub) encoded.symm
    rw [checkRule_congr bare tags]
    exact accepted.rule sub
  · rw [nil_append, derives]
    exact total (by rwa [← length_pos_iff, ← many, length_pos_iff])

end

section

variable {calls : List Call} {compiler : Compiler}
  (shared : ∀ call ∈ calls, call.compiler = compiler)
  (narrow : ∀ call ∈ calls, (compiler.compile regexp false call.set).isOk →
    ((newCompiler defaultLimits).compile regexp false call.set).isOk)
  (ascending : ∀ call ∈ calls, ∀ rule ∈ call.set.rules, rule.Ascending)
  (text : ∀ d, digest d ≠ "") (inj : Set.InjOn digest (definitions regexp calls))

include shared ascending text inj

theorem fetch_agrees (here : call ∈ calls)
    (caches : ∀ e ∈ cache.recent, Caches regexp digest calls e) (live : call.done = false)
    (compiled : (newCompiler defaultLimits).compile regexp false call.set = .ok plan) :
    Agrees regexp call (call.fetch regexp (digest (definition call.set plan)) cache).1 ∧
      ∀ e ∈ (call.fetch regexp (digest (definition call.set plan)) cache).2.recent,
        Caches regexp digest calls e := by
  obtain ⟨found, cache₁, got, there, kept⟩ := get_live (text (definition call.set plan))
  have caches₁ : ∀ e ∈ cache₁.recent, Caches regexp digest calls e :=
    fun e mem => caches e (kept e mem)
  unfold Call.fetch Agrees
  cases matched : found.filter (·.hash = digest (definition call.set plan)) with
  | some hit =>
    obtain ⟨held, -⟩ := Option.filter_eq_some_iff.mp matched
    obtain ⟨other, sub, plan', own, compiled', accepted, e⟩ := caches _ (there hit held)
    obtain ⟨key, rfl⟩ := Prod.mk.inj e
    have eq := inj ⟨call, here, plan, compiled, rfl⟩ ⟨other, sub, plan', compiled', rfl⟩ key
    have first := (compile_iff.mp compiled).2
    have second := (compile_iff.mp compiled').2
    obtain ⟨strategy, rules⟩ :=
      rules_of_definition first second (ascending call here) (ascending other sub) eq
    rw [shared other sub] at accepted
    have taken := first.transfer second (ascending call here) (ascending other sub) eq
      (compile_iff.mp accepted).2
    have mine : call.compile regexp = .ok (compiler.plan call.set) := by
      rw [Call.compile, shared call here, live]
      exact compile_iff.mpr ⟨rfl, taken⟩
    simp only [live, got, matched, mine]
    refine ⟨alike_of_eq ?_, caches₁⟩
    obtain rfl := (compile_iff.mp accepted).2.same
    exact evaluate_eq strategy.symm rfl rfl rules.symm
  | none =>
    simp only [live, got, matched]
    cases mine : call.compile regexp with
    | error => exact ⟨trivial, caches₁⟩
    | ok own =>
      obtain ⟨cache₂, stored, kept₂⟩ := put_live cache₁ (text (definition call.set plan))
        { own with hash := digest (definition call.set plan) }
      simp only [stored]
      refine ⟨alike_of_eq (evaluate_eq rfl rfl rfl rfl), fun e mem => ?_⟩
      rcases kept₂ e mem with rfl | old
      · rw [Call.compile, live] at mine
        exact ⟨call, here, plan, own, compiled, mine, rfl⟩
      · exact caches₁ e old

include narrow

theorem compileCached_agrees (here : call ∈ calls)
    (caches : ∀ e ∈ cache.recent, Caches regexp digest calls e) :
    Agrees regexp call (call.compileCached regexp digest cache).1 ∧
      ∀ e ∈ (call.compileCached regexp digest cache).2.recent, Caches regexp digest calls e := by
  unfold Call.compileCached
  cases hashed : canonicalHash regexp digest call.set with
  | error failure =>
    refine ⟨?_, caches⟩
    unfold Agrees
    cases mine : call.compile regexp with
    | error => trivial
    | ok own =>
      rw [Call.compile, shared call here] at mine
      have taken := narrow call here
      rw [(compile_iff.mp mine).1] at mine
      rw [canonicalHash] at hashed
      cases plain : (newCompiler defaultLimits).compile regexp false call.set with
      | error => simp [mine, plain, Except.isOk, Except.toBool] at taken
      | ok => simp [plain, bind, Except.bind, pure, Except.pure] at hashed
  | ok hash =>
    obtain ⟨plan, compiled, same⟩ := except_bind_ok.mp hashed
    cases Except.ok.inj same
    cases live : call.done with
    | false => exact fetch_agrees shared ascending text inj here caches live compiled
    | true =>
      simp only [Call.fetch, MemoryPlanCache.get, live, if_true]
      refine ⟨?_, caches⟩
      unfold Agrees
      cases mine : call.compile regexp with
      | error => trivial
      | ok own => cases live.symm.trans (compile_iff.mp mine).1

theorem runCalls_agree {rest : List Call} (later : ∀ call ∈ rest, call ∈ calls)
    (caches : ∀ e ∈ cache.recent, Caches regexp digest calls e) :
    Forall₂ (Agrees regexp) rest (runCalls regexp digest cache rest) := by
  induction rest generalizing cache with
  | nil => exact .nil
  | cons call rest ih =>
    obtain ⟨agrees, caches'⟩ :=
      compileCached_agrees shared narrow ascending text inj (later call (by simp)) caches
    exact .cons agrees (ih (fun other mem => later other (by simp [mem])) caches')

end

/-- A compiler that takes no set which the default limits refuse, alone at a cache and on rule sets
whose derived facts stand in the order of their paths, gets what it would compile. -/
theorem cached_compilation_agrees {capacity : Int} {calls : List Call} {compiler : Compiler}
    (made : newMemoryPlanCache capacity = .ok cache)
    (shared : ∀ call ∈ calls, call.compiler = compiler)
    (narrow : ∀ call ∈ calls, (compiler.compile regexp false call.set).isOk →
      ((newCompiler defaultLimits).compile regexp false call.set).isOk)
    (ascending : ∀ call ∈ calls, ∀ rule ∈ call.set.rules, rule.Ascending)
    (text : ∀ d, digest d ≠ "") (injective : Set.InjOn digest (definitions regexp calls)) :
    Forall₂ (Agrees regexp) calls (runCalls regexp digest cache calls) := by
  have empty : cache.recent = [] := by
    unfold newMemoryPlanCache at made
    split at made
    · cases made
    · cases made
      rfl
  exact runCalls_agree shared narrow ascending text injective (fun _ mem => mem) (by simp [empty])

theorem Agrees.isOk {outcome : Except Failure Plan}
    (agrees : Agrees regexp call outcome) : outcome.isOk = (call.compile regexp).isOk := by
  unfold Agrees at agrees
  split at agrees
  · simp [*, Except.isOk, Except.toBool]
  · simp [*, Except.isOk, Except.toBool]
  · exact agrees.elim

end

def pairSet : RuleSet where
  id := "pair"
  strategy := .collectAll
  rules := [{ id := "a", when := .constant true }, { id := "b", when := .constant true }]

def singleSet : RuleSet := { pairSet with id := "single", rules := pairSet.rules.take 1 }

/-- The hashes of the two sets. -/
def pairDigest (d : JsonDefinition) : String :=
  if d.id = "pair" then "ab8c1a0b265b31eab93e8d841cc0a7340276ef0088795bf8613e1791da549534"
  else "e22c0d2bf3f2cd4aaf3f55b1f774344f6092cb47f281e65a7b1b975efb3fab46"

theorem injOn_pair {regexp : Regexp} {calls : List Call}
    (known : ∀ call ∈ calls, call.set = pairSet ∨ call.set = singleSet) :
    Set.InjOn pairDigest (definitions regexp calls) := by
  rintro _ ⟨call, mem, plan, compiled, rfl⟩ _ ⟨call', mem', plan', compiled', rfl⟩ same
  obtain ⟨-, rfl, -⟩ := compile_iff.mp compiled
  obtain ⟨-, rfl, -⟩ := compile_iff.mp compiled'
  revert same
  rcases known call mem with eq | eq <;> rcases known call' mem' with eq' | eq' <;> rw [eq, eq']
  · exact fun _ => rfl
  · simp [pairDigest, definition, pairSet, singleSet]
  · simp [pairDigest, definition, pairSet, singleSet]
  · exact fun _ => rfl

/-- A call with the default limits, then one by another compiler. -/
def pairCalls (compiler : Compiler) : List Call :=
  [⟨newCompiler defaultLimits, false, pairSet⟩, ⟨compiler, false, pairSet⟩]

def narrow : Compiler := newCompiler { maxRules := 1 }

/-- Three calls by a compiler of at most one rule. -/
def narrowCalls : List Call :=
  [pairSet, singleSet, singleSet].map fun set => { compiler := narrow, set }

/-- It is refused the pair, compiles the single rule and is given it from the cache. -/
theorem cached_compilation_agrees_narrow :
    (runCalls (fun _ => none) pairDigest { capacity := 1 } narrowCalls).map Except.isOk =
      [false, true, true] ∧
    Forall₂ (Agrees fun _ => none) narrowCalls
      (runCalls (fun _ => none) pairDigest { capacity := 1 } narrowCalls) := by
  have made : newMemoryPlanCache 1 = .ok { capacity := 1 } := rfl
  have shared : ∀ call ∈ narrowCalls, call.compiler = narrow := by simp [narrowCalls]
  refine ⟨by decide +kernel, cached_compilation_agrees made shared
    (by decide +kernel) ?_ (fun d => ?_) (injOn_pair (by simp [narrowCalls]))⟩
  · simp [narrowCalls, pairSet, singleSet, Rule.Ascending]
  · unfold pairDigest
    split <;> decide

/-- After a compiler of the default limits, a compiler of at most one rule gets the plan of two
rules that it refuses to compile. -/
theorem narrow_compiler_hits :
    newMemoryPlanCache 1 = .ok { capacity := 1 } ∧
      Set.InjOn pairDigest (definitions (fun _ => none)
        (pairCalls (newCompiler { maxRules := 1 }))) ∧
      ¬ Forall₂ (Agrees fun _ => none) (pairCalls (newCompiler { maxRules := 1 }))
        (runCalls (fun _ => none) pairDigest { capacity := 1 }
          (pairCalls (newCompiler { maxRules := 1 }))) := by
  refine ⟨rfl, injOn_pair (by simp [pairCalls]), ?_⟩
  rintro (_ | ⟨-, _ | ⟨agrees, -⟩⟩)
  have same := agrees.isOk
  revert same
  decide +kernel

end Golib.RuleEngine
