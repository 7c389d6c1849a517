import Mathlib.Data.List.Infix

/-! The values, the facts and the built-in operators of the rule engine. -/
namespace Golib.RuleEngine

inductive Code where
  | invalidLimit | invalidPath | duplicateFact | invalidFact | invalidRule | duplicateRule
  | unknownOperator | typeMismatch | limitExceeded | evaluation | conflict | cycle | cache | context
  deriving DecidableEq, Repr

inductive Kind where
  | missing | null | bool | int | float | string | time | duration | list
  deriving DecidableEq, Repr

inductive Float64 where
  | nan
  | infinity (negative : Bool)
  | negativeZero
  | finite (value : Rat)
  deriving DecidableEq, Repr

/-- Where a number stands among the numbers. -/
def Float64.rank : Float64 → Option (Int × Rat)
  | .nan => none
  | .infinity negative => some (if negative then -1 else 1, 0)
  | .negativeZero => some (0, 0)
  | .finite value => some (0, value)

def Float64.compare (left right : Float64) : Ordering :=
  match left.rank, right.rank with
  | some l, some r => (Ord.compare l.1 r.1).then (compareOfLessAndEq l.2 r.2)
  | _, _ => .eq

/-- A value; a time is its instant, in nanoseconds. -/
inductive Value where
  | missing
  | null
  | bool (value : Bool)
  | int (value : Int)
  | float (value : Float64)
  | string (value : String)
  | time (instant : Int)
  | duration (value : Int)
  | list (values : List Value)
  deriving Repr

def Value.kind : Value → Kind
  | .missing => .missing
  | .null => .null
  | .bool _ => .bool
  | .int _ => .int
  | .float _ => .float
  | .string _ => .string
  | .time _ => .time
  | .duration _ => .duration
  | .list _ => .list

mutual

def valuesEqual : Value → Value → Bool
  | .missing, .missing => true
  | .null, .null => true
  | .bool left, .bool right => left = right
  | .int left, .int right => left = right
  | .float left, .float right => left.rank.isSome ∧ left.rank = right.rank
  | .string left, .string right => left = right
  | .time left, .time right => left = right
  | .duration left, .duration right => left = right
  | .list left, .list right => listsEqual left right
  | _, _ => false

def listsEqual : List Value → List Value → Bool
  | [], [] => true
  | left :: lefts, right :: rights => valuesEqual left right && listsEqual lefts rights
  | _, _ => false

end

def listContains (values : List Value) (target : Value) : Bool := values.any (valuesEqual · target)

/-- `UnixNano` keeps the low 64 bits. -/
def unixNano (instant : Int) : Int := instant.bmod 18446744073709551616

def compareOrdered : Value → Value → Ordering
  | .int left, .int right => compare left right
  | .float left, .float right => left.compare right
  | .string left, .string right => compare left right
  | .time left, .time right => compare (unixNano left) (unixNano right)
  | .duration left, .duration right => compare left right
  | _, _ => .eq

/-! ### Operators -/

inductive Operator where
  | equal | notEqual | lessThan | lessOrEqual | greaterThan | greaterOrEqual | isIn | notIn
  | contains | startsWith | endsWith | matchesPattern
  | custom (name : String)
  deriving DecidableEq, Repr

def orderedKind (kind : Kind) : Bool := kind ∈ [.int, .float, .string, .time, .duration]

/-- `validateOperatorKinds`, whose only error is a type mismatch. -/
def validateOperatorKinds (name : Operator) (left right : Kind) : Bool :=
  left = .missing || right = .missing ||
    match name with
    | .equal | .notEqual => left = right
    | .lessThan | .lessOrEqual | .greaterThan | .greaterOrEqual => left = right && orderedKind left
    | .isIn | .notIn => right = .list
    | .contains => left = .list || (left = .string && right = .string)
    | .startsWith | .endsWith | .matchesPattern => left = .string && right = .string
    | .custom _ => true

/-- Compilation of a regular expression, to what its texts are. -/
abbrev Regexp := String → Option (String → Bool)

def evaluateBuiltin (regexp : Regexp) (name : Operator) (left right : Value) : Except Code Bool :=
  if left.kind = .missing ∨ right.kind = .missing then .ok false
  else if ¬ validateOperatorKinds name left.kind right.kind then .error .typeMismatch
  else match name, left, right with
    | .equal, _, _ => .ok (valuesEqual left right)
    | .notEqual, _, _ => .ok (!valuesEqual left right)
    | .lessThan, _, _ => .ok (compareOrdered left right).isLT
    | .lessOrEqual, _, _ => .ok (compareOrdered left right).isLE
    | .greaterThan, _, _ => .ok (compareOrdered left right).isGT
    | .greaterOrEqual, _, _ => .ok (compareOrdered left right).isGE
    | .isIn, _, .list values => .ok (listContains values left)
    | .notIn, _, .list values => .ok (!listContains values left)
    | .contains, .list values, _ => .ok (listContains values right)
    | .contains, .string text, .string part => .ok (part.toList <:+: text.toList)
    | .startsWith, .string text, .string part => .ok (part.toList <+: text.toList)
    | .endsWith, .string text, .string part => .ok (part.toList <:+ text.toList)
    | .matchesPattern, .string text, .string pattern =>
      match regexp pattern with
      | none => .error .evaluation
      | some texts => .ok (texts text)
    | _, _, _ => .error .unknownOperator

/-! ### Limits -/

/-- The bounds, where 0 stands for every bound that is not positive. -/
structure Limits where
  maxRules : Nat := 1000
  maxFacts : Nat := 10000
  maxASTDepth : Nat := 64
  maxOperands : Nat := 10000
  maxCollection : Nat := 10000
  maxStringBytes : Nat := 1048576
  maxDefinitionBytes : Nat := 4194304
  maxRegexBytes : Nat := 4096
  maxIdentifierBytes : Nat := 256
  maxTags : Nat := 64
  maxTagBytes : Nat := 128
  maxPathBytes : Nat := 1024
  maxPathSegments : Nat := 64
  maxIterations : Nat := 32
  maxDerivedFacts : Nat := 1000
  maxDiagnostics : Nat := 100
  maxExplanation : Nat := 1000
  evaluationTimeout : Nat := 5000000000
  deriving DecidableEq, Repr

def defaultLimits : Limits := {}

def Limits.validate (l : Limits) : Bool :=
  [l.maxRules, l.maxFacts, l.maxASTDepth, l.maxOperands, l.maxCollection, l.maxStringBytes,
    l.maxRegexBytes, l.maxPathBytes, l.maxDefinitionBytes, l.maxIdentifierBytes, l.maxTags,
    l.maxTagBytes, l.maxPathSegments, l.maxIterations, l.maxDerivedFacts, l.maxDiagnostics,
    l.maxExplanation, l.evaluationTimeout].all (0 < ·)

mutual

/-- `validateValue`, whose only error is an invalid fact. -/
def validateValue (limits : Limits) : Nat → Value → Bool
  | depth, .string text => depth ≤ limits.maxASTDepth && text.utf8ByteSize ≤ limits.maxStringBytes
  | depth, .float number => depth ≤ limits.maxASTDepth &&
      (number matches .negativeZero || number matches .finite _)
  | depth, .list values => depth ≤ limits.maxASTDepth &&
      values.length ≤ limits.maxCollection && validateValues limits (depth + 1) values
  | depth, _ => depth ≤ limits.maxASTDepth

def validateValues (limits : Limits) : Nat → List Value → Bool
  | _, [] => true
  | depth, value :: values => validateValue limits depth value && validateValues limits depth values

end

/-! ### Facts -/

structure Path where
  segments : List String
  deriving DecidableEq, Repr

def Path.key (path : Path) : String := ".".intercalate path.segments

def Path.valid (path : Path) : Bool := path.key ≠ "" && path.segments ≠ []

inductive Owner where
  | unspecified | subject | resource | environment
  | invalid (code : Nat)
  deriving DecidableEq, Repr

def Owner.valid : Owner → Bool
  | .invalid _ => false
  | _ => true

structure Fact where
  path : Path
  value : Value
  owner : Owner := .unspecified
  deriving Repr

/-- The facts of a context, under distinct keys, as they were supplied. -/
abbrev Context := List Fact

def Context.lookup (facts : Context) (path : Path) : Value :=
  match facts.find? (fun fact => fact.path.key = path.key) with
  | some fact => fact.value
  | none => .missing

def Context.withFact (facts : Context) (fact : Fact) : Context :=
  facts.filter (fun known => known.path.key ≠ fact.path.key) ++ [fact]

def addFacts (limits : Limits) : List Fact → Context → Except Code Context
  | [], known => .ok known
  | fact :: facts, known =>
    if ¬ fact.path.valid ∨ fact.value.kind = .missing ∨ ¬ fact.owner.valid then
      .error .invalidFact
    else if known.any (fun old => old.path.key = fact.path.key) then .error .duplicateFact
    else if ¬ validateValue limits 0 fact.value then .error .invalidFact
    else addFacts limits facts (known ++ [fact])

def newContextWithLimits (limits : Limits) (facts : List Fact) : Except Code Context :=
  if ¬ limits.validate then .error .invalidLimit
  else if limits.maxFacts < facts.length then .error .limitExceeded
  else addFacts limits facts []

end Golib.RuleEngine
