import Golib.Lib.Spans

/-! The endpoint modes of bounded intervals and the resource limits of the operations on them. -/
namespace Golib.Temporal

inductive Bounds where
  | closedOpen
  | closed
  | open_
  | openClosed
  deriving DecidableEq, Repr

namespace Bounds

variable {b : Bounds}

def includesStart (b : Bounds) : Bool := b = closedOpen || b = closed

def includesEnd (b : Bounds) : Bool := b = closed || b = openClosed

def boundsFrom (includeStart includeEnd : Bool) : Bounds :=
  if includeStart && includeEnd then closed
  else if includeStart then closedOpen
  else if includeEnd then openClosed
  else open_

@[simp] theorem includesStart_boundsFrom (includeStart includeEnd : Bool) :
    (boundsFrom includeStart includeEnd).includesStart = includeStart := by
  cases includeStart <;> cases includeEnd <;> rfl

@[simp] theorem includesEnd_boundsFrom (includeStart includeEnd : Bool) :
    (boundsFrom includeStart includeEnd).includesEnd = includeEnd := by
  cases includeStart <;> cases includeEnd <;> rfl

theorem eq_closed_iff : b = closed ↔ b.includesStart = true ∧ b.includesEnd = true := by
  cases b <;> decide

theorem ext_iff {c : Bounds} :
    b = c ↔ b.includesStart = c.includesStart ∧ b.includesEnd = c.includesEnd := by
  cases b <;> cases c <;> decide

end Bounds

structure LimitError where
  field : String
  value : Int
  max : Int
  deriving DecidableEq, Repr

/-- A zero field stands for its default. -/
structure Limits where
  parseBytes : Int := 0
  precision : Int := 0
  errorBytes : Int := 0
  formatBytes : Int := 0
  inputPeriods : Int := 0
  outputPeriods : Int := 0
  steps : Int := 0
  parserDepth : Int := 0
  deriving DecidableEq, Repr

variable {l : Limits} {size : Nat}

namespace Limits

def hardMaxPeriods : Int := 100000
def hardMaxSteps : Int := 1000000
def hardMaxParseBytes : Int := 64 * 1024
def hardMaxPrecision : Int := 9
def hardMaxErrorBytes : Int := 1024
def hardMaxFormatBytes : Int := 64 * 1024
def hardMaxParserDepth : Int := 8

def defaultLimits : Limits where
  parseBytes := hardMaxParseBytes
  precision := hardMaxPrecision
  errorBytes := hardMaxErrorBytes
  formatBytes := hardMaxFormatBytes
  inputPeriods := hardMaxPeriods
  outputPeriods := hardMaxPeriods
  steps := hardMaxSteps
  parserDepth := hardMaxParserDepth

def orDefault (value fallback : Int) : Int := if value = 0 then fallback else value

def resolve (l : Limits) : Limits where
  parseBytes := orDefault l.parseBytes defaultLimits.parseBytes
  precision := orDefault l.precision defaultLimits.precision
  errorBytes := orDefault l.errorBytes defaultLimits.errorBytes
  formatBytes := orDefault l.formatBytes defaultLimits.formatBytes
  inputPeriods := orDefault l.inputPeriods defaultLimits.inputPeriods
  outputPeriods := orDefault l.outputPeriods defaultLimits.outputPeriods
  steps := orDefault l.steps defaultLimits.steps
  parserDepth := orDefault l.parserDepth defaultLimits.parserDepth

/-- The fields in the order they are checked, each with its hard maximum. -/
def checks (l : Limits) : List LimitError :=
  [⟨"parse_bytes", l.parseBytes, hardMaxParseBytes⟩,
    ⟨"precision", l.precision, hardMaxPrecision⟩,
    ⟨"error_bytes", l.errorBytes, hardMaxErrorBytes⟩,
    ⟨"format_bytes", l.formatBytes, hardMaxFormatBytes⟩,
    ⟨"input_periods", l.inputPeriods, hardMaxPeriods⟩,
    ⟨"output_periods", l.outputPeriods, hardMaxPeriods⟩,
    ⟨"steps", l.steps, hardMaxSteps⟩,
    ⟨"parser_depth", l.parserDepth, hardMaxParserDepth⟩]

def validate (l : Limits) : Except LimitError Unit :=
  match l.checks.find? (fun check => check.value < 0 || check.value > check.max) with
  | some check => .error check
  | none => .ok ()

/-- The limits that the operations work under are within the hard ones. -/
def Valid (l : Limits) : Prop :=
  ∀ check ∈ l.resolve.checks, 0 ≤ check.value ∧ check.value ≤ check.max

instance (l : Limits) : Decidable l.Valid :=
  inferInstanceAs (Decidable (∀ check ∈ l.resolve.checks, _))

theorem validate_resolve : l.resolve.validate = .ok () ↔ l.Valid := by
  unfold validate Valid
  split
  · rename_i check found
    refine ⟨nofun, fun valid => ?_⟩
    have bad := List.find?_some found
    have good := valid check (List.mem_of_find?_eq_some found)
    simp at bad
    omega
  · rename_i absent
    rw [List.find?_eq_none] at absent
    refine ⟨fun _ check mem => ?_, fun _ => rfl⟩
    simpa using absent check mem

def inputError (l : Limits) (count : Nat) : LimitError := ⟨"input_periods", count, l.inputPeriods⟩

def outputError (l : Limits) (count : Nat) : LimitError :=
    ⟨"output_periods", count, l.outputPeriods⟩

theorem orDefault_orDefault {fallback v : Int} (pos : fallback ≠ 0) :
    orDefault (orDefault v fallback) fallback = orDefault v fallback := by
  unfold orDefault
  grind

theorem resolve_resolve (l : Limits) : l.resolve.resolve = l.resolve := by
  unfold resolve
  congr 1 <;> exact orDefault_orDefault (by decide)

theorem valid_resolve (valid : l.Valid) : l.resolve.Valid := by
  unfold Valid
  rwa [resolve_resolve]

/-- A list of `size` elements at most had more than the limits let in or out. -/
def Overrun (l : Limits) (size : Nat) (e : LimitError) : Prop :=
  ∃ count ≤ size, (l.inputPeriods < count ∧ e = l.inputError count) ∨
    (l.outputPeriods < count ∧ e = l.outputError count)

/-- A call yields a good result, or a list outgrew the limits. -/
def Yields {β : Type} (l : Limits) (size : Nat) (good : β → Prop) : Except LimitError β → Prop
  | .ok b => good b
  | .error e => l.Overrun size e

theorem Yields.mono {β : Type} {good good' : β → Prop} {r : Except LimitError β}
    (yields : l.Yields size good r) (imp : ∀ b, good b → good' b) : l.Yields size good' r := by
  cases r with
  | ok b => exact imp b yields
  | error e => exact yields

theorem Yields.bind {β γ : Type} {good : β → Prop} {good' : γ → Prop} {r : Except LimitError β}
    {f : β → Except LimitError γ} (yields : l.Yields size good r)
    (next : ∀ b, good b → l.Yields size good' (f b)) : l.Yields size good' (r >>= f) := by
  cases r with
  | ok b => exact next b yields
  | error e => exact yields

theorem yields_of_fits {β : Type} {good : β → Prop} {r : Except LimitError β}
    (fits : Fits l.outputPeriods l.outputError size good r) : l.Yields size good r := by
  cases r with
  | ok b => exact fits
  | error e =>
    obtain ⟨n, named, above, below⟩ := fits
    exact ⟨n, below, .inr ⟨above, named⟩⟩

end Limits

end Golib.Temporal
