import Golib.Lib.Programs
import Golib.RuleEngine.Values
import Mathlib.Data.List.Sort

/-! Rule sets and their compilation: the checks, and the plan that is made. -/
namespace Golib.RuleEngine

open List

inductive Operand where
  | literal (value : Value)
  | fact (path : Path)
  deriving Repr

def Operand.resolve (facts : Context) : Operand → Value
  | .literal value => value
  | .fact path => facts.lookup path

def Operand.staticKind : Operand → Option Kind
  | .literal value => some value.kind
  | .fact _ => none

inductive Predicate where
  | constant (value : Bool)
  | present (path : Path)
  | compare (operator : Operator) (left right : Operand)
  | all (children : List Predicate)
  | any (children : List Predicate)
  | not (child : Predicate)
  deriving Repr

inductive ConflictStrategy where
  | firstMatch | collectAll | errorOnMultiple
  | unknown (code : Nat)
  deriving DecidableEq, Repr

def ConflictStrategy.valid : ConflictStrategy → Bool
  | .unknown _ => false
  | _ => true

structure Rule where
  id : String
  space : String := ""
  priority : Int := 0
  tags : List String := []
  when : Predicate
  derive : List Fact := []
  deriving Repr

structure RuleSet where
  id : String
  space : String := ""
  strategy : ConflictStrategy
  rules : List Rule
  deriving Repr

structure RegisteredOperator where
  signatures : List (Kind × Kind)
  evaluate : Value → Value → Except Code Bool

structure Compiler where
  limits : Limits
  operators : List (String × RegisteredOperator)

def newCompiler (limits : Limits) : Compiler := ⟨limits, []⟩

structure Plan where
  setID : String
  space : String
  strategy : ConflictStrategy
  rules : List Rule
  limits : Limits
  operators : List (String × RegisteredOperator)
  hash : String := ""

/-- An error, and the rule that a diagnostic names. -/
structure Failure where
  rule : Option String
  code : Code
  message : String
  deriving DecidableEq, Repr

def isControl (c : Char) : Bool := c.toNat ≤ 0x1f || (0x7f ≤ c.toNat && c.toNat ≤ 0x9f)

def validIdentifier (value : String) (maximum : Nat) : Bool :=
  value ≠ "" && value.utf8ByteSize ≤ maximum && !value.toList.any isControl

def validOptionalIdentifier (value : String) (maximum : Nat) : Bool :=
  value = "" || validIdentifier value maximum

def validateTags (tags : List String) (limits : Limits) : Except Code Unit :=
  if limits.maxTags < tags.length then .error .limitExceeded
  else if tags.all (validIdentifier · limits.maxTagBytes) ∧ tags.Nodup then .ok ()
  else .error .invalidRule

def Operand.valid (limits : Limits) : Operand → Bool
  | .literal value => validateValue limits 0 value
  | .fact _ => true

/-- The pattern of a regular expression is a literal that compiles. -/
def validatePattern (regexp : Regexp) (limits : Limits) : Operand → Except Code Unit
  | .literal (.string text) =>
    if limits.maxRegexBytes < text.utf8ByteSize then .error .limitExceeded
    else if (regexp text).isNone then .error .invalidRule
    else .ok ()
  | _ => .error .invalidRule

/-- The registered operator of a name that is not built in. -/
def customOperator (operators : List (String × RegisteredOperator)) :
    Operator → Option RegisteredOperator
  | .custom name => operators.lookup name
  | _ => none

def validateStaticOperator (regexp : Regexp) (compiler : Compiler) (name : Operator)
    (left right : Operand) : Except Code Unit := do
  let custom := customOperator compiler.operators name
  if name matches .custom _ ∧ custom.isNone then throw .unknownOperator
  if ¬ (left.valid compiler.limits ∧ right.valid compiler.limits) then throw .invalidFact
  if name = .matchesPattern then validatePattern regexp compiler.limits right
  match left.staticKind, right.staticKind with
  | some leftKind, some rightKind =>
    match custom with
    | some operator =>
      if (leftKind, rightKind) ∈ operator.signatures then pure () else throw .typeMismatch
    | none =>
      if validateOperatorKinds name leftKind rightKind then pure () else throw .typeMismatch
  | _, _ => pure ()

mutual

/-- `validatePredicate`, from the number of propositions so far to the number with this one. -/
def validatePredicate (regexp : Regexp) (compiler : Compiler) :
    Predicate → Nat → Nat → Except Code Nat
  | .constant _, depth, count => checkOperand compiler depth count
  | .present path, depth, count => do
    let count ← checkOperand compiler depth count
    if path.valid then pure count else throw .invalidPath
  | .compare operator left right, depth, count => do
    let count ← checkOperand compiler depth count
    validateStaticOperator regexp compiler operator left right
    pure count
  | .all children, depth, count => do
    let count ← checkOperand compiler depth count
    if children.isEmpty then throw .invalidRule
    validateChildren regexp compiler children (depth + 1) count
  | .any children, depth, count => do
    let count ← checkOperand compiler depth count
    if children.isEmpty then throw .invalidRule
    validateChildren regexp compiler children (depth + 1) count
  | .not child, depth, count => do
    let count ← checkOperand compiler depth count
    validatePredicate regexp compiler child (depth + 1) count
where
  checkOperand (compiler : Compiler) (depth count : Nat) : Except Code Nat :=
    if compiler.limits.maxASTDepth < depth ∨ compiler.limits.maxOperands < count + 1 then
      .error .limitExceeded
    else .ok (count + 1)

def validateChildren (regexp : Regexp) (compiler : Compiler) :
    List Predicate → Nat → Nat → Except Code Nat
  | [], _, count => pure count
  | child :: children, depth, count => do
    let count ← validatePredicate regexp compiler child depth count
    validateChildren regexp compiler children depth count

end

mutual

def predicatePaths : Predicate → List String
  | .constant _ => []
  | .present path => [path.key]
  | .compare _ left right => operandPaths left ++ operandPaths right
  | .all children => childPaths children
  | .any children => childPaths children
  | .not child => predicatePaths child
where
  operandPaths : Operand → List String
    | .fact path => [path.key]
    | .literal _ => []

def childPaths : List Predicate → List String
  | [] => []
  | child :: children => predicatePaths child ++ childPaths children

end

/-- A depth-first visit: the paths that are done, and a path that was met below itself. -/
def visit (graph : List (String × String)) :
    Nat → List String → List String × Option String → String → List String × Option String
  | 0, _, found, _ => found
  | fuel + 1, visiting, (visited, cycle), path =>
    if cycle.isSome then (visited, cycle)
    else if path ∈ visiting then (visited, some path)
    else if path ∈ visited then (visited, none)
    else
      let next := (graph.filter (·.1 = path)).map Prod.snd
      let below := next.foldl (visit graph fuel (path :: visiting)) (visited, none)
      if below.2.isSome then below else (path :: below.1, none)

/-- The rule that derives a path on a cycle; the fuel outlasts every path without a repetition. -/
def findDerivationCycle (rules : List Rule) : Option String :=
  let graph := rules.flatMap fun rule => rule.derive.flatMap fun fact =>
    (predicatePaths rule.when).map fun path => (path, fact.path.key)
  let cycle := ((graph.map Prod.fst).foldl (visit graph (graph.length + 2) []) ([], none)).2
  cycle.bind fun path =>
    (rules.find? fun rule => rule.derive.any (·.path.key = path)).map Rule.id

def Failure.of (rule : String) (code : Code) (message : String) : Failure :=
  ⟨some rule, code, message⟩

def refuseIf (p : Prop) [Decidable p] (failure : Failure) : Except Failure Unit :=
  if p then .error failure else .ok ()

/-- The checks of one rule, after the rules and the derived paths before it. -/
def checkRule (regexp : Regexp) (compiler : Compiler) (seen derived : List String) (rule : Rule) :
    Except Failure Unit := do
  let limits := compiler.limits
  refuseIf (¬ (validIdentifier rule.id limits.maxIdentifierBytes ∧
      validOptionalIdentifier rule.space limits.maxIdentifierBytes))
    (.of rule.id .invalidRule "rule is incomplete")
  (validateTags rule.tags limits).mapError (.of rule.id · "rule tags are invalid")
  refuseIf (rule.id ∈ seen) (.of rule.id .duplicateRule "rule identifier is duplicated")
  let _ ← (validatePredicate regexp compiler rule.when 1 0).mapError
    (.of rule.id · "rule proposition is invalid")
  refuseIf (limits.maxDerivedFacts < rule.derive.length)
    (.of rule.id .limitExceeded "rule derives too many facts")
  refuseIf (limits.maxDerivedFacts < derived.length + rule.derive.length)
    (.of rule.id .limitExceeded "rule set derives too many facts")
  let _ ← (newContextWithLimits limits rule.derive).mapError
    fun _ => .of rule.id .invalidFact "derived fact is invalid"
  refuseIf (rule.derive.any (·.path.key ∈ derived))
    (.of rule.id .duplicateFact "multiple rules derive the same path")

def checkRules (regexp : Regexp) (compiler : Compiler) :
    List Rule → List String → List String → Except Failure Unit
  | [], _, _ => pure ()
  | rule :: rules, seen, derived => do
    checkRule regexp compiler seen derived rule
    checkRules regexp compiler rules (rule.id :: seen) (derived ++ rule.derive.map (·.path.key))

/-- Rules by falling priority, then by identifier. -/
def Rule.before (left right : Rule) : Prop :=
  right.priority < left.priority ∨ (left.priority = right.priority ∧ left.id ≤ right.id)

instance decidableBefore : DecidableRel Rule.before := fun left right =>
  inferInstanceAs (Decidable (_ ∨ (_ ∧ left.id ≤ right.id)))

def Compiler.plan (compiler : Compiler) (set : RuleSet) : Plan where
  setID := set.id
  space := set.space
  strategy := set.strategy
  rules := set.rules.insertionSort Rule.before
  limits := compiler.limits
  operators := compiler.operators

/-- `Compile`, with a context that is done or not during the call. -/
def Compiler.compile (regexp : Regexp) (compiler : Compiler) (done : Bool) (set : RuleSet) :
    Except Failure Plan := do
  let limits := compiler.limits
  refuseIf (¬ limits.validate) ⟨none, .invalidLimit, "all limits must be positive"⟩
  refuseIf done ⟨none, .context, "context is done"⟩
  refuseIf (¬ (validIdentifier set.id limits.maxIdentifierBytes ∧
      validOptionalIdentifier set.space limits.maxIdentifierBytes) ∨
      ¬ set.strategy.valid) ⟨none, .invalidRule, "invalid rule set"⟩
  refuseIf (limits.maxRules < set.rules.length) ⟨none, .limitExceeded, "too many rules"⟩
  checkRules regexp compiler set.rules [] []
  match findDerivationCycle set.rules with
  | some rule => .error (.of rule .cycle "derived fact dependency cycle")
  | none => .ok (compiler.plan set)

/-! ### What the checks say -/

theorem refuseIf_ok {p : Prop} [Decidable p] {failure : Failure} :
    refuseIf p failure = .ok () ↔ ¬ p := by
  unfold refuseIf
  split <;> simp [*]

theorem mapError_ok {ε ε' α : Type} {r : Except ε α} {f : ε → ε'} {a : α} :
    r.mapError f = .ok a ↔ r = .ok a := by
  cases r <;> simp [Except.mapError]

/-- A fact that a context takes. -/
structure Fact.Sound (limits : Limits) (fact : Fact) : Prop where
  present : fact.value.kind ≠ .missing
  owned : fact.owner.valid = true
  valid : validateValue limits 0 fact.value = true

variable {facts : List Fact} {lim : Limits} {context : Context}

theorem addFacts_ok {known : Context} (added : addFacts lim facts known = .ok context) :
    context = known ++ facts ∧ (∀ fact ∈ facts, fact.Sound lim) ∧
      ((known.map (·.path.key)).Nodup → ((known ++ facts).map (·.path.key)).Nodup) := by
  induction facts generalizing known with
  | nil =>
    cases added
    simp
  | cons fact facts ih =>
    rw [addFacts] at added
    split at added
    · cases added
    rename_i shaped
    split at added
    · cases added
    rename_i fresh
    split at added
    · cases added
    rename_i valid
    obtain ⟨eq, sound, nodup⟩ := ih added
    rw [not_or, not_or] at shaped
    refine ⟨by simp [eq], ?_, fun before => ?_⟩
    · exact forall_mem_cons.mpr ⟨⟨shaped.2.1, not_not.mp shaped.2.2, not_not.mp valid⟩, sound⟩
    · rw [append_cons]
      refine nodup ?_
      rw [map_append, map_singleton, ← concat_eq_append, nodup_concat]
      refine ⟨fun mem => fresh ?_, before⟩
      obtain ⟨old, there, eq⟩ := mem_map.mp mem
      exact any_eq_true.mpr ⟨old, there, by simpa using eq⟩

theorem newContextWithLimits_ok (made : newContextWithLimits lim facts = .ok context) :
    context = facts ∧ (∀ fact ∈ facts, fact.Sound lim) ∧ (facts.map (·.path.key)).Nodup := by
  unfold newContextWithLimits at made
  split at made
  · cases made
  split at made
  · cases made
  obtain ⟨eq, sound, nodup⟩ := addFacts_ok made
  exact ⟨eq, sound, nodup nodup_nil⟩

variable {compiler : Compiler} {regexp : Regexp} {seen derived : List String}

/-- What of the checks of a rule depends on the rules before it. -/
theorem checkRule_iff {rule : Rule} : checkRule regexp compiler seen derived rule = .ok () ↔
    checkRule regexp compiler [] [] rule = .ok () ∧ rule.id ∉ seen ∧
      derived.length + rule.derive.length ≤ compiler.limits.maxDerivedFacts ∧
      ∀ fact ∈ rule.derive, fact.path.key ∉ derived := by
  simp only [checkRule, except_bind_ok, Unique.exists_iff, PUnit.default_eq_unit, refuseIf_ok,
    mapError_ok, not_lt, any_eq_true, decide_eq_true_eq, not_exists, not_and, not_mem_nil,
    not_false_eq_true, length_nil, Nat.zero_add]
  grind

theorem checkRule_ok {rule : Rule} (passed : checkRule regexp compiler [] [] rule = .ok ()) :
    rule.tags.Nodup ∧ (∀ fact ∈ rule.derive, fact.Sound compiler.limits) ∧
      (rule.derive.map (·.path.key)).Nodup := by
  unfold checkRule at passed
  simp only [except_bind_ok] at passed
  obtain ⟨_, -, _, tags, _, -, _, -, _, -, _, -, _, made, -⟩ := passed
  refine ⟨?_, (newContextWithLimits_ok (mapError_ok.mp made)).2⟩
  have tags := mapError_ok.mp tags
  unfold validateTags at tags
  grind

/-- The keys of the facts that rules derive. -/
def derivedKeys (rules : List Rule) : List String := (rules.flatMap Rule.derive).map (·.path.key)

theorem checkRules_iff {rules : List Rule} (distinct : seen.Nodup) (apart : derived.Nodup) :
    checkRules regexp compiler rules seen derived = .ok () ↔
      (∀ rule ∈ rules, checkRule regexp compiler [] [] rule = .ok ()) ∧
      ((rules.map Rule.id).reverse ++ seen).Nodup ∧ (derived ++ derivedKeys rules).Nodup ∧
      (rules ≠ [] → (derived ++ derivedKeys rules).length ≤ compiler.limits.maxDerivedFacts) := by
  induction rules generalizing seen derived with
  | nil => simp [checkRules, derivedKeys, distinct, apart, pure, Except.pure]
  | cons rule rules ih =>
    rw [checkRules, except_bind_ok, Unique.exists_iff, PUnit.default_eq_unit, checkRule_iff,
      forall_mem_cons, map_cons, reverse_cons, append_assoc, singleton_append]
    have keys : derived ++ derivedKeys (rule :: rules) =
        derived ++ rule.derive.map (·.path.key) ++ derivedKeys rules := by simp [derivedKeys]
    rw [keys]
    constructor
    · rintro ⟨⟨passed, fresh, few, new⟩, rest⟩
      have apart' : (derived ++ rule.derive.map (·.path.key)).Nodup := by
        refine Nodup.append apart (checkRule_ok passed).2.2 fun key old mem => ?_
        obtain ⟨fact, derives, rfl⟩ := mem_map.mp mem
        exact new fact derives old
      obtain ⟨each, ids, all, total⟩ := (ih (nodup_cons.mpr ⟨fresh, distinct⟩) apart').mp rest
      refine ⟨⟨passed, each⟩, ids, all, fun _ => ?_⟩
      cases rules with
      | nil => simpa [derivedKeys] using few
      | cons => exact total (cons_ne_nil _ _)
    · rintro ⟨⟨passed, each⟩, ids, all, total⟩
      have total := total (cons_ne_nil _ _)
      have apart' := all.of_append_left
      have distinct' := ids.of_append_right
      refine ⟨⟨passed, (nodup_cons.mp distinct').1, ?_, fun fact mem old => ?_⟩,
        (ih distinct' apart').mpr ⟨each, ids, all, fun _ => total⟩⟩
      · rw [length_append, length_append, length_map] at total
        omega
      · exact (nodup_append.mp apart').2.2 _ old _ (mem_map_of_mem mem) rfl

/-- What `Compile` asks of a rule set. -/
structure Compiled (regexp : Regexp) (compiler : Compiler) (set : RuleSet) (plan : Plan) :
    Prop where
  same : plan = compiler.plan set
  limits : compiler.limits.validate = true
  named : validIdentifier set.id compiler.limits.maxIdentifierBytes ∧
    validOptionalIdentifier set.space compiler.limits.maxIdentifierBytes
  known : set.strategy.valid = true
  few : set.rules.length ≤ compiler.limits.maxRules
  checked : checkRules regexp compiler set.rules [] [] = .ok ()
  acyclic : findDerivationCycle set.rules = none

theorem compile_iff {done : Bool} {plan : Plan} {set : RuleSet} :
    compiler.compile regexp done set = .ok plan ↔
      done = false ∧ Compiled regexp compiler set plan := by
  simp only [Compiler.compile, except_bind_ok, Unique.exists_iff, PUnit.default_eq_unit,
    refuseIf_ok, not_or, not_not, not_lt]
  cases cycle : findDerivationCycle set.rules with
  | some rule =>
    simp only [reduceCtorEq, and_false, false_iff]
    exact fun ⟨_, compiled⟩ => by cases cycle.symm.trans compiled.acyclic
  | none =>
    constructor
    · rintro ⟨limits, live, ⟨named, known⟩, few, checked, same⟩
      exact ⟨eq_false_of_ne_true live, (Except.ok.inj same).symm, limits, named, known, few,
        checked, cycle⟩
    · rintro ⟨live, same, limits, named, known, few, checked, -⟩
      exact ⟨limits, ne_true_of_eq_false live, ⟨named, known⟩, few, checked, by rw [same]⟩

end Golib.RuleEngine
