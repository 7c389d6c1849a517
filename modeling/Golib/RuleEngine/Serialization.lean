import Golib.RuleEngine.Plan

/-! The canonical definition of a rule set, and what it determines of the plan. -/
namespace Golib.RuleEngine

open List

structure JsonValue where
  type : String
  bool : Option Bool := none
  int : Option Int := none
  float : Option Float64 := none
  string : Option String := none
  time : Option Int := none
  duration : Option Int := none
  list : List JsonValue := []

structure JsonOperand where
  kind : String
  path : List String := []
  value : Option JsonValue := none

structure JsonNode where
  kind : String
  operator : Option Operator := none
  path : List String := []
  left : Option JsonOperand := none
  right : Option JsonOperand := none
  child : Option JsonNode := none
  children : List JsonNode := []

structure JsonFact where
  path : List String
  owner : String
  value : JsonValue

structure JsonRule where
  id : String
  space : String
  priority : Int
  tags : List String
  when : JsonNode
  derive : List JsonFact

structure JsonDefinition where
  version : String := "1"
  id : String
  space : String
  strategy : String
  rules : List JsonRule

mutual

/-- `encodeValue`; the text of a time is that of its instant. -/
def encodeValue : Value → JsonValue
  | .missing => { type := "missing" }
  | .null => { type := "null" }
  | .bool value => { type := "bool", bool := some value }
  | .int value => { type := "int", int := some value }
  | .float value => { type := "float", float := some value }
  | .string value => { type := "string", string := some value }
  | .time instant => { type := "time", time := some instant }
  | .duration value => { type := "duration", duration := some value }
  | .list values => { type := "list", list := encodeValues values }

def encodeValues : List Value → List JsonValue
  | [] => []
  | value :: values => encodeValue value :: encodeValues values

end

def encodeOperand : Operand → JsonOperand
  | .fact path => { kind := "variable", path := path.segments }
  | .literal value => { kind := "literal", value := some (encodeValue value) }

mutual

def encodePredicate : Predicate → JsonNode
  | .constant value => { kind := if value then "true" else "false" }
  | .present path => { kind := "exists", path := path.segments }
  | .compare operator left right =>
    { kind := "compare", operator, left := some (encodeOperand left),
      right := some (encodeOperand right) }
  | .all children => { kind := "all", children := encodeChildren children }
  | .any children => { kind := "any", children := encodeChildren children }
  | .not child => { kind := "not", child := some (encodePredicate child) }

def encodeChildren : List Predicate → List JsonNode
  | [] => []
  | child :: children => encodePredicate child :: encodeChildren children

end

def strategyName : ConflictStrategy → String
  | .collectAll => "collect_all"
  | .errorOnMultiple => "error_on_multiple"
  | _ => "first_match"

def ownerName : Owner → String
  | .unspecified => "unspecified"
  | .subject => "subject"
  | .resource => "resource"
  | .environment => "environment"
  | .invalid _ => "invalid"

def joinPath (segments : List String) : String := String.join (segments.map ("\x00" ++ ·))

def encodeFact (fact : Fact) : JsonFact :=
  ⟨fact.path.segments, ownerName fact.owner, encodeValue fact.value⟩

/-- Derived facts are written in the order of their paths. -/
def JsonFact.before (left right : JsonFact) : Prop := joinPath left.path ≤ joinPath right.path

instance decidableFactBefore : DecidableRel JsonFact.before := fun left right =>
  inferInstanceAs (Decidable (joinPath left.path ≤ joinPath right.path))

def encodeRule (rule : Rule) : JsonRule where
  id := rule.id
  space := rule.space
  priority := rule.priority
  tags := (rule.tags.insertionSort (· ≤ ·)).dedup
  when := encodePredicate rule.when
  derive := (rule.derive.map encodeFact).insertionSort JsonFact.before

/-- What `MarshalCanonical` writes of a compiled rule set. -/
def definition (set : RuleSet) (plan : Plan) : JsonDefinition where
  id := set.id
  space := set.space
  strategy := strategyName set.strategy
  rules := plan.rules.map encodeRule

/-! ### Injectivity -/

mutual

theorem encodeValue_inj : ∀ {left right : Value},
    encodeValue left = encodeValue right → left = right
  | .list lefts, right, eq => by
    have below := @encodeValues_inj lefts
    cases right <;> grind [encodeValue]
  | .missing, right, eq | .null, right, eq | .bool _, right, eq | .int _, right, eq
  | .float _, right, eq | .string _, right, eq | .time _, right, eq
  | .duration _, right, eq => by
    cases right <;> simp_all [encodeValue]

theorem encodeValues_inj :
    ∀ {lefts rights : List Value}, encodeValues lefts = encodeValues rights → lefts = rights
  | [], rights, eq => by
    cases rights <;> simp_all [encodeValues]
  | left :: lefts, rights, eq => by
    cases rights with
    | nil => simp [encodeValues] at eq
    | cons right rights =>
      simp only [encodeValues, cons.injEq] at eq
      rw [encodeValue_inj eq.1, encodeValues_inj eq.2]

end

theorem encodeOperand_inj {left right : Operand}
    (eq : encodeOperand left = encodeOperand right) : left = right := by
  cases left <;> cases right <;> simp_all [encodeOperand]
  · exact encodeValue_inj eq
  · exact congrArg Path.mk eq

mutual

theorem encodePredicate_inj :
    ∀ {left right : Predicate}, encodePredicate left = encodePredicate right → left = right
  | .all lefts, right, eq => by
    have below := @encodeChildren_inj lefts
    cases right <;> grind [encodePredicate]
  | .any lefts, right, eq => by
    have below := @encodeChildren_inj lefts
    cases right <;> grind [encodePredicate]
  | .not left, right, eq => by
    have below := @encodePredicate_inj left
    cases right <;> grind [encodePredicate]
  | .compare _ left _, right, eq => by
    cases right <;> grind [encodePredicate, encodeOperand_inj]
  | .present ⟨ss⟩, right, eq => by
    cases right <;> grind [encodePredicate, Path]
  | .constant v, right, eq => by
    cases right <;> grind [encodePredicate]

theorem encodeChildren_inj : ∀ {lefts rights : List Predicate},
    encodeChildren lefts = encodeChildren rights → lefts = rights
  | [], rights, eq => by
    cases rights <;> simp_all [encodeChildren]
  | left :: lefts, rights, eq => by
    cases rights with
    | nil => simp [encodeChildren] at eq
    | cons right rights =>
      simp only [encodeChildren, cons.injEq] at eq
      rw [encodePredicate_inj eq.1, encodeChildren_inj eq.2]

end

theorem map_eq_of_inj {α β γ : Type} {f : α → β} {g : α → γ} {l l' : List α}
    (inj : ∀ a ∈ l, ∀ b ∈ l', f a = f b → g a = g b) (eq : l.map f = l'.map f) :
    l.map g = l'.map g := by
  induction l generalizing l' with
  | nil =>
    cases l' with
    | nil => rfl
    | cons b l' => cases eq
  | cons a l ih =>
    cases l' with
    | nil => cases eq
    | cons b l' =>
      obtain ⟨head, tail⟩ := cons.inj eq
      rw [map_cons, map_cons, inj a (by simp) b (by simp) head,
        ih (fun x mem y mem' => inj x (by simp [mem]) y (by simp [mem'])) tail]

/-- The derived facts of a rule stand in the order in which they are written. -/
def Rule.Ascending (rule : Rule) : Prop := (rule.derive.map encodeFact).Pairwise JsonFact.before

/-- A rule without its tags, which are not read by an evaluation. -/
def Rule.bare (rule : Rule) : Rule := { rule with tags := [] }

theorem encodeFact_inj {left right : Fact} (owned : left.owner.valid) (owned' : right.owner.valid)
    (eq : encodeFact left = encodeFact right) : left = right := by
  obtain ⟨⟨ss⟩, v, owner⟩ := left
  obtain ⟨⟨segments'⟩, value', owner'⟩ := right
  simp only [encodeFact, JsonFact.mk.injEq] at eq
  obtain ⟨rfl, owners, values⟩ := eq
  rw [encodeValue_inj values]
  cases owner <;> cases owner' <;> simp_all [ownerName, Owner.valid]

theorem encodeRule_inj {left right : Rule} (asc : left.Ascending) (ascending' : right.Ascending)
    (owned : ∀ fact ∈ left.derive, fact.owner.valid)
    (owned' : ∀ fact ∈ right.derive, fact.owner.valid) (eq : encodeRule left = encodeRule right) :
    left.bare = right.bare := by
  simp only [encodeRule, JsonRule.mk.injEq, asc.insertionSort_eq, ascending'.insertionSort_eq] at eq
  obtain ⟨named, space, priority, -, when, derive⟩ := eq
  have facts := map_eq_of_inj (g := fun fact => fact) (fun a mem b mem' =>
    encodeFact_inj (owned a mem) (owned' b mem')) derive
  rw [map_id', map_id'] at facts
  simp only [Rule.bare, named, space, priority, encodePredicate_inj when, facts]

/-! ### What an evaluation reads of a plan -/

section

variable {regexp : Regexp} {p q : Plan} (strategy : p.strategy = q.strategy)
  (lim : p.limits = q.limits) (operators : p.operators = q.operators)

include strategy lim operators

theorem evaluateRules_eq {done : Bool} {rules rules' : List Rule}
    (eq : rules.map Rule.bare = rules'.map Rule.bare) (run : Run) :
    p.evaluateRules regexp done rules run = q.evaluateRules regexp done rules' run := by
  induction rules generalizing rules' run with
  | nil =>
    cases rules' with
    | nil => rfl
    | cons => cases eq
  | cons rule rules ih =>
    cases rules' with
    | nil => cases eq
    | cons rule' rules' =>
      obtain ⟨head, tail⟩ := cons.inj eq
      obtain ⟨id, -, -, -, when, derive⟩ := Rule.mk.inj head
      have matched : run.matched rule = run.matched rule' := by simp only [Run.matched, id]
      simp only [Plan.evaluateRules, strategy, lim, operators, when, derive, matched, ih tail]

theorem evaluate_eq (rules : p.rules.map Rule.bare = q.rules.map Rule.bare) :
    p.evaluate regexp = q.evaluate regexp := by
  have iterated : ∀ done left run, p.iterate regexp done left run =
    q.iterate regexp done left run := by
    intro done left
    induction left with
    | zero => exact fun _ => rfl
    | succ left ih =>
      intro run
      simp only [Plan.iterate, evaluateRules_eq strategy lim operators rules, ih]
  funext done facts
  rw [Plan.evaluate, Plan.evaluate, lim, iterated]

end

end Golib.RuleEngine
