import Mathlib.Data.List.Nodup
import Golib.CircuitBreaker.Breaker

/-! Accounting of half-open probes. What the sections do to the part of the breaker that the probes
depend on is a sequence of few kinds of moves, and every move keeps the account. -/
namespace Golib.CircuitBreaker

open List

variable {permits : List Permit} {status : PermitStatus} {p : Permit} {id i : Nat}
  {policy : HalfOpenPolicy}

/-- There is room for a probe, and a threshold that probes can reach. -/
structure HalfOpenPolicy.Checked (policy : HalfOpenPolicy) : Prop where
  room : 1 ≤ policy.maxProbes
  reachable : policy.requiredSuccesses ≤ policy.maxProbes
  threshold : 0 < policy.requiredSuccesses ∨ 0 < policy.successRatio

theorem HalfOpenPolicy.checked {given : Option HalfOpenConfig}
    (normalized : normalizeHalfOpen given = .ok policy) : policy.Checked := by
  cases given with
  | none =>
    cases normalized
    exact ⟨by decide, by decide, .inl (by decide)⟩
  | some given =>
    unfold normalizeHalfOpen at normalized
    dsimp only at normalized
    repeat' split at normalized
    all_goals cases normalized
    rename_i successRatio checked _ _ _
    have nonnegative : 0 ≤ successRatio := by
      unfold validateRatio at checked
      grind
    constructor <;> grind

/-- The part of a breaker that the account of its probes is about. -/
structure Core where
  state : State
  mode : Mode
  generation : Nat
  active : Int
  completed : Int
  successes : Int
  probes : List Nat
  permits : List Permit

def Breaker.core (b : Breaker) : Core where
  state := b.state
  mode := b.mode
  generation := b.generation
  active := b.halfOpenActive
  completed := b.halfOpenCompleted
  successes := b.halfOpenSuccesses
  probes := b.halfOpenPermits
  permits := b.permits

/-- The next generation, in which no probe is out. -/
def Core.renewed (c : Core) (state : State) : Core :=
  ⟨state, c.mode, c.generation + 1, 0, 0, 0, [], c.permits⟩

/-- A permit that may still take part in the decision of its generation. -/
def Core.Probe (c : Core) (p : Permit) : Prop :=
  p.status = .active ∧ p.recording = true ∧ p.state = .halfOpen ∧ p.generation = c.generation

def retired (permits : List Permit) (id : Nat) (status : PermitStatus) : List Permit :=
  permits.modify id fun p => { p with status := status }

def Core.ended (c : Core) (id : Nat) (status : PermitStatus) (active completed successes : Int) :
    Core :=
  { c with
    permits := retired c.permits id status
    probes := c.probes.erase id
    active := active
    completed := completed
    successes := successes }

inductive Move (policy : HalfOpenPolicy) : Core → Core → Prop where
  /-- A new generation, in any state and mode. -/
  | renew (c : Core) (state : State) (mode : Mode) :
    Move policy c ⟨state, mode, c.generation + 1, 0, 0, 0, [], c.permits⟩
  /-- A permit that is not a probe. -/
  | issue (c : Core) (p : Permit) (generation : p.generation = c.generation)
    (state : p.state = c.state) (plain : p.recording = true → c.state ≠ .halfOpen) :
    Move policy c { c with permits := c.permits ++ [p] }
  | probe (c : Core) (p : Permit) (generation : p.generation = c.generation)
    (state : p.state = c.state) (half : c.state = .halfOpen) (recording : p.recording = true)
    (active : p.status = .active) (room : c.completed + c.active < policy.maxProbes) :
    Move policy c { c with
      permits := c.permits ++ [p]
      active := c.active + 1
      probes := c.probes ++ [c.permits.length] }
  /-- The end of a permit that is not a probe. -/
  | retire (c : Core) (id : Nat) (status : PermitStatus) (done : status ≠ .active)
    (unlisted : id ∉ c.probes) :
    Move policy c { c with permits := retired c.permits id status }
  /-- The end of a probe that does not count. -/
  | release (c : Core) (id : Nat) (status : PermitStatus) (done : status ≠ .active)
    (listed : id ∈ c.probes) :
    Move policy c { c with
      permits := retired c.permits id status
      probes := c.probes.erase id
      active := c.active - 1 }
  /-- A probe that counts and leaves the decision open. -/
  | tally (c : Core) (id : Nat) (status : PermitStatus) (done : status ≠ .active)
    (listed : id ∈ c.probes) (success : Bool)
    (lenient : success = false → policy.failureAction = .reopenAfterSample)
    (short : 0 < policy.requiredSuccesses →
      c.successes + (if success then 1 else 0) < policy.requiredSuccesses)
    (sampling : 0 < policy.successRatio ∨ policy.failureAction = .reopenAfterSample →
      c.completed + 1 < policy.maxProbes) :
    Move policy c { c with
      permits := retired c.permits id status
      probes := c.probes.erase id
      active := c.active - 1
      completed := c.completed + 1
      successes := c.successes + if success then 1 else 0 }

abbrev Moves (policy : HalfOpenPolicy) : Core → Core → Prop := Relation.ReflTransGen (Move policy)

/-- The counters of a half-open generation. -/
structure Counts (policy : HalfOpenPolicy) (c : Core) : Prop where
  room : c.completed + c.active ≤ policy.maxProbes
  nonneg : 0 ≤ c.successes
  le : c.successes ≤ c.completed
  undecided : c.completed < policy.maxProbes
  short : 0 < policy.requiredSuccesses → c.successes < policy.requiredSuccesses
  strict : policy.failureAction = .reopenImmediately → c.successes = c.completed

structure Accounted (policy : HalfOpenPolicy) (c : Core) : Prop where
  active : c.active = c.probes.length
  nodup : c.probes.Nodup
  issued : ∀ id ∈ c.probes, ∃ p, c.permits[id]? = some p ∧ c.Probe p
  listed : ∀ id p, c.permits[id]? = some p → c.Probe p → id ∈ c.probes
  past : ∀ p ∈ c.permits, p.generation ≤ c.generation
  current : ∀ p ∈ c.permits, p.generation = c.generation → p.state = c.state
  counts : c.state = .halfOpen → Counts policy c
  idle : c.state ≠ .halfOpen → c.completed = 0 ∧ c.successes = 0

namespace Accounted

variable {policy : HalfOpenPolicy} {c : Core}

theorem probes_eq_nil (accounted : Accounted policy c) (other : c.state ≠ .halfOpen) :
    c.probes = [] := by
  refine eq_nil_iff_forall_not_mem.mpr fun id mem => other ?_
  obtain ⟨p, found, _, _, half, generation⟩ := accounted.issued id mem
  rw [← accounted.current p (mem_of_getElem? found) generation, half]

end Accounted

theorem mem_retired (mem : p ∈ retired permits id status) :
    ∃ q ∈ permits, p.generation = q.generation ∧ p.state = q.state := by
  obtain ⟨i, found⟩ := mem_iff_getElem?.mp mem
  unfold retired at found
  rw [getElem?_modify, Option.map_eq_map, Option.map_eq_some_iff] at found
  obtain ⟨q, at_, rfl⟩ := found
  refine ⟨q, mem_of_getElem? at_, ?_⟩
  split <;> exact ⟨rfl, rfl⟩

theorem getElem?_retired (found : (retired permits id status)[i]? = some p)
    (live : p.status = .active) (done : status ≠ .active) : i ≠ id ∧ permits[i]? = some p := by
  unfold retired at found
  rw [getElem?_modify, Option.map_eq_map, Option.map_eq_some_iff] at found
  obtain ⟨q, at_, rfl⟩ := found
  split at live
  · exact absurd live done
  · rename_i other
    exact ⟨fun eq => other eq.symm, by simpa [other] using at_⟩

theorem getElem?_retired_of_ne (other : i ≠ id) :
    (retired permits id status)[i]? = permits[i]? := by
  unfold retired
  simp [other.symm]

theorem Accounted.ends {c : Core} (accounted : Accounted policy c)
    (id : Nat) (status : PermitStatus) (done : status ≠ .active) (active completed successes : Int)
    (n : active = ((c.probes.erase id).length : Int))
    (counts : c.state = .halfOpen → Counts policy (c.ended id status active completed successes))
    (idle : c.state ≠ .halfOpen → completed = 0 ∧ successes = 0) :
    Accounted policy (c.ended id status active completed successes) where
  active := n
  nodup := accounted.nodup.erase id
  issued i mem := by
    obtain ⟨other, mem⟩ := (accounted.nodup.mem_erase_iff).mp mem
    obtain ⟨p, found, probe⟩ := accounted.issued i mem
    exact ⟨p, (getElem?_retired_of_ne other).trans found, probe⟩
  listed i p found probe := by
    obtain ⟨other, found⟩ := getElem?_retired found probe.1 done
    exact (accounted.nodup.mem_erase_iff).mpr ⟨other, accounted.listed i p found probe⟩
  past p mem := by
    obtain ⟨q, mem, generation, _⟩ := mem_retired mem
    rw [generation]
    exact accounted.past q mem
  current p mem eq := by
    obtain ⟨q, mem, generation, s⟩ := mem_retired mem
    rw [s]
    exact accounted.current q mem (generation ▸ eq)
  counts := counts
  idle := idle

/-! ### What a move keeps -/

section

variable {policy : HalfOpenPolicy} {c c' : Core} {id : Nat}

theorem Accounted.issues {probes : List Nat} (accounted : Accounted policy c) {active : Int}
    (generation : p.generation = c.generation) (s : p.state = c.state)
    (n : active = probes.length) (nodup : probes.Nodup)
    (members : ∀ id, id ∈ probes ↔ id ∈ c.probes ∨ id = c.permits.length ∧ c.Probe p)
    (counts : c.state = .halfOpen → Counts policy { c with
      permits := c.permits ++ [p], active := active, probes := probes }) :
    Accounted policy
      { c with permits := c.permits ++ [p], active := active, probes := probes } where
  active := n
  nodup := nodup
  issued id mem := by
    rcases (members id).mp mem with old | ⟨rfl, probe⟩
    · obtain ⟨q, found, probe⟩ := accounted.issued id old
      have sub := (List.getElem?_eq_some_iff.mp found).1
      exact ⟨q, (getElem?_append_left sub).trans found, probe⟩
    · exact ⟨p, getElem?_concat_length, probe⟩
  listed id q found probe := by
    refine (members id).mpr ?_
    rcases lt_trichotomy id c.permits.length with before | rfl | beyond
    · rw [getElem?_append_left before] at found
      exact .inl (accounted.listed id q found probe)
    · rw [getElem?_concat_length] at found
      cases found
      exact .inr ⟨rfl, probe⟩
    · rw [getElem?_eq_none (by simpa using Nat.succ_le_of_lt beyond)] at found
      cases found
  past q mem := by
    rcases mem_append.mp mem with old | new
    · exact accounted.past q old
    · rw [mem_singleton.mp new, generation]
  current q mem eq := by
    rcases mem_append.mp mem with old | new
    · exact accounted.current q old eq
    · rw [mem_singleton.mp new, s]
  counts := counts
  idle := accounted.idle

theorem Accounted.lt_of_mem (accounted : Accounted policy c) (mem : id ∈ c.probes) :
    id < c.permits.length := by
  obtain ⟨p, found, _⟩ := accounted.issued id mem
  exact (List.getElem?_eq_some_iff.mp found).1

theorem Accounted.halfOpen_of_mem (accounted : Accounted policy c) (mem : id ∈ c.probes) :
    c.state = .halfOpen := by
  by_contra other
  rw [accounted.probes_eq_nil other] at mem
  exact absurd mem not_mem_nil

theorem Accounted.length_erase (accounted : Accounted policy c) (mem : id ∈ c.probes) :
    c.active - 1 = ((c.probes.erase id).length : Int) := by
  have pos := length_pos_of_mem mem
  rw [accounted.active, length_erase_of_mem mem]
  omega

theorem Accounted.move (checked : policy.Checked) (accounted : Accounted policy c)
    (move : Move policy c c') : Accounted policy c' := by
  have pos := checked.room
  cases move with
  | renew s mode =>
    refine ⟨rfl, .nil, by simp, fun id p found probe => ?_, fun p mem => ?_, fun p mem eq => ?_,
      fun _ => ⟨by simpa using by omega, le_rfl, le_rfl, by simpa using by omega, fun some => some,
        fun _ => rfl⟩, fun _ => ⟨rfl, rfl⟩⟩
    · have past := accounted.past p (mem_of_getElem? found)
      have now : p.generation = c.generation + 1 := probe.2.2.2
      omega
    · have past := accounted.past p mem
      exact past.trans (Nat.le_succ _)
    · have past := accounted.past p mem
      have now : p.generation = c.generation + 1 := eq
      omega
  | issue p generation s plain =>
    refine accounted.issues generation s accounted.active accounted.nodup (fun id => ?_)
      fun half => ?_
    · refine ⟨.inl, ?_⟩
      rintro (old | ⟨_, probe⟩)
      · exact old
      · exact absurd (s ▸ probe.2.2.1) (plain probe.2.1)
    · obtain ⟨room, nonneg, le, undecided, short, strict⟩ := accounted.counts half
      exact ⟨room, nonneg, le, undecided, short, strict⟩
  | probe p generation s half recording active room =>
    have fresh : c.permits.length ∉ c.probes := fun mem =>
      absurd (accounted.lt_of_mem mem) (lt_irrefl _)
    refine accounted.issues generation s (by simp [accounted.active]) ?_ (fun id => ?_)
      fun half => ?_
    · exact nodup_append.mpr ⟨accounted.nodup, nodup_singleton _, by
        rintro a mem b new rfl
        exact fresh (mem_singleton.mp new ▸ mem)⟩
    · rw [mem_append, mem_singleton]
      exact or_congr_right ⟨fun eq => ⟨eq, active, recording, s.trans half, generation⟩, And.left⟩
    · obtain ⟨_, nonneg, le, undecided, short, strict⟩ := accounted.counts half
      exact ⟨by dsimp only; omega, nonneg, le, undecided, short, strict⟩
  | retire id status done unlisted =>
    have kept := erase_of_not_mem unlisted
    have ended := accounted.ends id status done c.active c.completed c.successes
      (by rw [kept]; exact accounted.active) (fun half => by
        obtain ⟨room, nonneg, le, undecided, short, strict⟩ := accounted.counts half
        exact ⟨room, nonneg, le, undecided, short, strict⟩) accounted.idle
    rwa [Core.ended, kept] at ended
  | release id status done listed =>
    refine accounted.ends id status done (c.active - 1) c.completed c.successes
      (accounted.length_erase listed) (fun half => ?_) accounted.idle
    obtain ⟨room, nonneg, le, undecided, short, strict⟩ := accounted.counts half
    exact ⟨by dsimp only [Core.ended]; omega, nonneg, le, undecided, short, strict⟩
  | tally id status done listed success lenient short' sampling =>
    have half := accounted.halfOpen_of_mem listed
    refine accounted.ends id status done (c.active - 1) (c.completed + 1) _
      (accounted.length_erase listed) (fun _ => ?_) (fun other => absurd half other)
    obtain ⟨room, nonneg, le, undecided, short, strict⟩ := accounted.counts half
    have kept : policy.failureAction = .reopenImmediately →
        c.successes + (if success then 1 else 0) = c.completed + 1 := by
      intro immediate
      cases success with
      | true => simpa using strict immediate
      | false => exact absurd (immediate ▸ lenient rfl) (by decide)
    have next : c.completed + 1 < policy.maxProbes := by
      cases action : policy.failureAction with
      | reopenAfterSample => exact sampling (.inr action)
      | reopenImmediately =>
        rcases checked.threshold with required | sampled
        · have exact_ := kept action
          have reachable := checked.reachable
          omega
        · exact sampling (.inl sampled)
    exact ⟨by dsimp only [Core.ended]; omega, by dsimp only [Core.ended]; omega,
      by dsimp only [Core.ended]; omega, next, short', kept⟩

end

end Golib.CircuitBreaker
