import Golib.CircuitBreaker.Sections

/-! What holds of the half-open probes and of the generations in every run of the breaker. -/
namespace Golib.CircuitBreaker

variable {c c' : Core} {policy : HalfOpenPolicy}

/-- Generations only grow, and a change of the state or of the mode starts a new one. -/
structure Ages (c c' : Core) : Prop where
  le : c.generation ≤ c'.generation
  lt : c.state ≠ c'.state ∨ c.mode ≠ c'.mode → c.generation < c'.generation

theorem Ages.of_move (move : Move policy c c') : Ages c c' := by
  cases move with
  | renew s mode => exact ⟨Nat.le_succ _, fun _ => Nat.lt_succ_self _⟩
  | issue | probe | retire | release | tally => exact ⟨le_rfl, by simp⟩

theorem Ages.of_moves (moves : Moves policy c c') : Ages c c' := by
  induction moves with
  | refl => exact ⟨le_rfl, by simp⟩
  | @tail c₁ c₂ _ move ih =>
    have last := Ages.of_move move
    refine ⟨ih.le.trans last.le, fun changed => ?_⟩
    by_cases before : c.state ≠ c₁.state ∨ c.mode ≠ c₁.mode
    · exact (ih.lt before).trans_le last.le
    · refine ih.le.trans_lt (last.lt ?_)
      grind

namespace Breaker

/-- Nothing but the status of the permit and the lifetime totals differ. -/
structure Inert (id : Nat) (b b' : Breaker) : Prop where
  same : { b' with
    completed := b.completed
    totalSuccesses := b.totalSuccesses
    totalFailures := b.totalFailures
    totalIgnored := b.totalIgnored
    permits := b.permits } = b
  permits : b'.permits = b.permits ∨ ∃ status, b'.permits = retired b.permits id status

variable {b : Breaker} {id : Nat} {p : Permit}

theorem Inert.refl (id : Nat) (b : Breaker) : Inert id b b := ⟨rfl, .inl rfl⟩

theorem not_belongs_of_ne (old : p.generation ≠ b.generation) :
    b.belongsToCurrentStateLocked p = false ∧ b.belongsToCurrentHalfOpenLocked p = false := by
  have s : b.belongsToCurrentStateLocked p = false := by simp [belongsToCurrentStateLocked, old]
  unfold belongsToCurrentHalfOpenLocked
  rw [s]
  simp

theorem inert_release (old : p.generation ≠ b.generation) (status : PermitStatus) :
    Inert id b ((b.setStatus id status).releaseHalfOpenLocked id p) := by
  have other : (b.setStatus id status).belongsToCurrentHalfOpenLocked p = false :=
    (not_belongs_of_ne (b := b.setStatus id status) old).2
  unfold releaseHalfOpenLocked
  rw [other]
  exact ⟨rfl, .inr ⟨status, rfl⟩⟩

theorem inert_expireLocked (old : p.generation ≠ b.generation) :
    Inert id b (b.expireLocked id p) := by
  unfold expireLocked
  split
  · exact .refl id b
  · exact inert_release old .expired

theorem inert_recordLifetimeLocked (b : Breaker) (id : Nat) (out : Outcome) :
    Inert id b ((b.setStatus id .completed).recordLifetimeLocked out) := by
  cases out <;> exact ⟨rfl, .inr ⟨.completed, rfl⟩⟩

theorem generation_recordLifetimeLocked (b : Breaker) (out : Outcome) :
    (b.recordLifetimeLocked out).generation = b.generation := by
  cases out <;> rfl

theorem inert_finishLocked (cfg : Config) (old : p.generation ≠ b.generation) (out : Outcome)
    (slow : Bool) (now : Int) (jitterSample : ℚ) :
    Inert id b (finishLocked cfg b id p out slow now jitterSample) := by
  have recorded := inert_recordLifetimeLocked b id out
  have generation := generation_recordLifetimeLocked (b.setStatus id .completed) out
  unfold finishLocked
  generalize (b.setStatus id .completed).recordLifetimeLocked out = b' at recorded generation
  have other : p.generation ≠ b'.generation := generation ▸ old
  obtain ⟨s, half⟩ := not_belongs_of_ne other
  simp only [s, half, Bool.false_eq_true, if_false, Bool.not_false, if_true, ite_self]
  exact recorded

theorem inert_of_old (cfg : Config) (found : b.permits[id]? = some p)
    (old : p.generation ≠ b.generation) :
    (∀ out slow now jitterSample, Inert id b (completeAt cfg b id out slow now jitterSample).1) ∧
    (∀ now, Inert id b (b.cancelAt id now).1) ∧ ∀ now, Inert id b (expireAt now b id) := by
  refine ⟨fun out slow now jitterSample => ?_, fun now => ?_, fun now => ?_⟩
  · unfold completeAt
    rw [found]
    dsimp only
    split
    · exact .refl id b
    · exact .refl id b
    · split
      · exact inert_recordLifetimeLocked b id out
      · exact .refl id b
    · split
      · exact inert_expireLocked old
      · exact inert_finishLocked cfg old out slow now jitterSample
  · unfold cancelAt
    rw [found]
    dsimp only
    split
    · exact .refl id b
    · exact .refl id b
    · exact .refl id b
    · split
      · exact inert_expireLocked old
      · exact inert_release old .canceled
  · unfold expireAt
    rw [found]
    dsimp only
    split
    · exact .refl id b
    · exact inert_expireLocked old

theorem admits_probe (cfg : Config) (accounted : Accounted cfg.halfOpen b.core)
    (normal : b.mode = .normal) (half : b.state = .halfOpen) (none_ : b.halfOpenActive = 0)
    (now : Int) (execution : Bool) :
    (tryAcquireLocked cfg b now execution).2 = .permit b.permits.length := by
  have empty : b.halfOpenPermits = [] := by
    have n : b.halfOpenActive = b.halfOpenPermits.length := accounted.active
    exact List.length_eq_zero_iff.mp (by omega)
  have expired : b.expireHalfOpenLocked now = b := by
    unfold expireHalfOpenLocked
    rw [empty]
    rfl
  have undecided : b.halfOpenCompleted < cfg.halfOpen.maxProbes := (accounted.counts half).undecided
  have room : ¬ b.halfOpenCompleted + b.halfOpenActive ≥ cfg.halfOpen.maxProbes := by omega
  unfold tryAcquireLocked
  simp only [normal, half, reduceCtorEq, if_false]
  unfold admitProbe
  simp only [half, expired, if_true, true_and, if_neg room]

end Breaker

open Breaker

/-- In every reachable breaker the probes are counted exactly, a decision is still open while it is
half-open, generations number the changes of state and mode, and the permits of older ones are
done with. -/
theorem half_open_accounted (config : Config) (sections : List Section) :
    let b := run config sections
    (b.state = .halfOpen →
      (b.halfOpenActive = b.halfOpenPermits.length ∧ b.halfOpenPermits.Nodup) ∧
      b.halfOpenCompleted + b.halfOpenActive ≤ config.halfOpen.maxProbes ∧
      b.halfOpenSuccesses ≤ b.halfOpenCompleted ∧
      b.halfOpenCompleted < config.halfOpen.maxProbes ∧
      (b.mode = .normal → b.halfOpenActive = 0 → ∀ now execution,
        ∃ id, (tryAcquireLocked config b now execution).2 = .permit id)) ∧
    (b.state ≠ .halfOpen → b.halfOpenActive = 0 ∧ b.halfOpenPermits = [] ∧
      b.halfOpenCompleted = 0 ∧ b.halfOpenSuccesses = 0) ∧
    (∀ next, b.generation ≤ (step config b next).generation ∧
      (b.state ≠ (step config b next).state ∨ b.mode ≠ (step config b next).mode →
        b.generation < (step config b next).generation)) ∧
    (∀ id p, b.permits[id]? = some p → p.generation < b.generation →
      (∀ outcome slow now jitterSample,
        Inert id b (completeAt config b id outcome slow now jitterSample).1) ∧
      (∀ now, Inert id b (b.cancelAt id now).1) ∧ ∀ now, Inert id b (expireAt now b id)) := by
  intro b
  have accounted : Accounted config.halfOpen b.core := run_accounted config sections
  refine ⟨fun half => ?_, fun other => ?_, fun next => ?_, fun id p found old => ?_⟩
  · obtain ⟨room, _, le, undecided, _, _⟩ := accounted.counts half
    exact ⟨⟨accounted.active, accounted.nodup⟩, room, le, undecided,
      fun normal none_ now execution =>
      ⟨_, admits_probe config accounted normal half none_ now execution⟩⟩
  · have empty : b.halfOpenPermits = [] := accounted.probes_eq_nil other
    have count : b.halfOpenActive = b.halfOpenPermits.length := accounted.active
    exact ⟨by rw [count, empty]; rfl, empty, accounted.idle other⟩
  · have ages := Ages.of_moves (keeps_step config b next accounted)
    exact ⟨ages.le, ages.lt⟩
  · exact inert_of_old config found old.ne

/-- Two probes at a time, two successes to recover; one failure opens the breaker for ten. -/
def pairwise : Config where
  name := "pairwise"
  window := .count 10
  minimumThroughput := 1
  opening := ⟨1, 0, 0, 0, 0, false, false⟩
  openDuration := .fixed 10
  halfOpen := ⟨2, 2, 0, .reopenImmediately⟩
  permitTTL := 100
  halfOpenWait := false
  observed := true
  openDurationJitter := 0
  floats := ⟨fun n d => n / d, fun d m => (d * m).floor, fun d j s => (d * (1 - j * s)).floor⟩
  normalized := ⟨some ⟨2, 2, .finite 0, 0⟩, by decide +kernel⟩

/-- A failure opens the breaker; of two probes one succeeds, and the permit from before the opening
completes late. -/
def recovering : List Section :=
  [.acquire 0 false, .acquire 0 false, .complete 0 .failure false 1 0, .acquire 11 false,
    .acquire 12 false, .complete 2 .success false 13 0, .complete 1 .failure false 14 0]

theorem half_open_accounted_recovering :
    (run pairwise recovering).state = .halfOpen ∧ (run pairwise recovering).halfOpenActive = 1 ∧
    (run pairwise recovering).halfOpenCompleted = 1 ∧ (run pairwise recovering).totalFailures = 2 ∧
    (run pairwise recovering).halfOpenCompleted + (run pairwise recovering).halfOpenActive ≤
      pairwise.halfOpen.maxProbes :=
  ⟨by decide +kernel, by decide +kernel, by decide +kernel, by decide +kernel,
    ((half_open_accounted pairwise recovering).1 (by decide +kernel)).2.1⟩

end Golib.CircuitBreaker
