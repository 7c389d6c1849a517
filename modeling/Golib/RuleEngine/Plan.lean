import Golib.RuleEngine.Compiler

/-! The evaluation of a plan: passes over the rules against facts that grow. -/
namespace Golib.RuleEngine

inductive Decision where
  | unmatched | matched | indeterminate
  deriving DecidableEq, Repr

structure Result where
  decision : Decision := .unmatched
  matchedRules : List String := []
  errors : List (Code × String) := []
  derivedFacts : Context := []
  deriving Repr

structure Run where
  working : Context
  result : Result := {}
  hadError : Bool := false
  changed : Bool := false

inductive Flow where
  | next (run : Run)
  | stop (run : Run)
  | finish (result : Result)

mutual

def evaluatePredicate (regexp : Regexp) (operators : List (String × RegisteredOperator))
    (facts : Context) : Predicate → Except Code Bool
  | .constant value => .ok value
  | .present path => .ok ((facts.lookup path).kind ≠ .missing)
  | .compare name left right =>
    let left := left.resolve facts
    let right := right.resolve facts
    match customOperator operators name with
    | some custom =>
      if left.kind = .missing ∨ right.kind = .missing then .ok false
      else if (left.kind, right.kind) ∉ custom.signatures then .error .typeMismatch
      else custom.evaluate left right
    | none => evaluateBuiltin regexp name left right
  | .all children => evaluateAll regexp operators facts children
  | .any children => evaluateAny regexp operators facts children
  | .not child =>
    match evaluatePredicate regexp operators facts child with
    | .ok matched => .ok (!matched)
    | .error code => .error code

def evaluateAll (regexp : Regexp) (operators : List (String × RegisteredOperator))
    (facts : Context) : List Predicate → Except Code Bool
  | [] => .ok true
  | child :: children =>
    match evaluatePredicate regexp operators facts child with
    | .ok true => evaluateAll regexp operators facts children
    | other => other

def evaluateAny (regexp : Regexp) (operators : List (String × RegisteredOperator))
    (facts : Context) : List Predicate → Except Code Bool
  | [] => .ok false
  | child :: children =>
    match evaluatePredicate regexp operators facts child with
    | .ok false => evaluateAny regexp operators facts children
    | other => other

end

def Result.fail (result : Result) (code : Code) (message : String) : Result :=
  { result with decision := .indeterminate, errors := result.errors ++ [(code, message)] }

def Run.derive (run : Run) (fact : Fact) : Run :=
  { run with
    working := run.working.withFact fact
    result.derivedFacts := run.result.derivedFacts.withFact fact
    changed := true }

/-- The facts of a rule that matched; an error is the result at a conflict. -/
def deriveFacts : List Fact → Run → Except Result Run
  | [], run => .ok run
  | fact :: facts, run =>
    if (run.working.lookup fact.path).kind = .missing then deriveFacts facts (run.derive fact)
    else if valuesEqual (run.working.lookup fact.path) fact.value then deriveFacts facts run
    else .error (run.result.fail .conflict "derived fact conflicts with existing fact")

def Run.matched (run : Run) (rule : Rule) : Run :=
  { run with
    result.matchedRules :=
      if rule.id ∈ run.result.matchedRules then run.result.matchedRules
      else run.result.matchedRules ++ [rule.id]
    result.decision := if run.hadError then run.result.decision else .matched }

def Run.failed (run : Run) (limits : Limits) : Run :=
  { run with
    hadError := true
    result.decision := .indeterminate
    result.errors :=
      if run.result.errors.length < limits.maxDiagnostics then
        run.result.errors ++ [(.evaluation, "rule evaluation failed")]
      else run.result.errors }

/-- One pass, with a context that is done or not during the call. -/
def Plan.evaluateRules (regexp : Regexp) (plan : Plan) (done : Bool) : List Rule → Run → Flow
  | [], run => .next run
  | rule :: rules, run =>
    if done then .finish (run.result.fail .evaluation "evaluation canceled or timed out")
    else match evaluatePredicate regexp plan.operators run.working rule.when with
      | .error _ => plan.evaluateRules regexp done rules (run.failed plan.limits)
      | .ok false => plan.evaluateRules regexp done rules run
      | .ok true =>
        match deriveFacts rule.derive (run.matched rule) with
        | .error result => .finish result
        | .ok run =>
          if plan.strategy = .firstMatch then .stop run
          else if plan.strategy = .errorOnMultiple ∧ 1 < run.result.matchedRules.length then
            .finish (run.result.fail .conflict "multiple rules matched")
          else plan.evaluateRules regexp done rules run

def Plan.iterate (regexp : Regexp) (plan : Plan) (done : Bool) : Nat → Run → Result
  | 0, run => run.result.fail .limitExceeded "forward chaining iteration limit exceeded"
  | left + 1, run =>
    match plan.evaluateRules regexp done plan.rules { run with changed := false } with
    | .finish result => result
    | .stop run => run.result
    | .next run => if run.changed then plan.iterate regexp done left run else run.result

def Plan.evaluate (regexp : Regexp) (plan : Plan) (done : Bool) (facts : Context) : Result :=
  plan.iterate regexp done plan.limits.maxIterations { working := facts }

end Golib.RuleEngine
