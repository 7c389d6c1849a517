import Golib.CircuitBreaker.Probes

/-! Every section of the breaker is a sequence of moves of its account, and what a permit of an
older generation can still change. -/
namespace Golib.CircuitBreaker

namespace Breaker

variable {b b' : Breaker} {id : Nat} {cfg : Config} {c : Core}

theorem core_recordEventLocked (b : Breaker) (now : Int) :
    (recordEventLocked cfg b now).core = b.core := by
  unfold recordEventLocked
  split <;> rfl

theorem core_transitionLocked (b : Breaker) (s : State) (now : Int)
    {mutate : Breaker → Breaker} (kept : (mutate (b.observeLocked now)).core = c) :
    (transitionLocked cfg b s now mutate).core = c.renewed s := by
  unfold transitionLocked
  rw [core_recordEventLocked]
  exact congrArg (Core.renewed · s) kept

theorem core_openLocked (b : Breaker) (now : Int) (jitterSample : ℚ) :
    (openLocked cfg b now jitterSample).core = b.core.renewed .open_ :=
  core_transitionLocked b .open_ now rfl

theorem core_closeLocked (b : Breaker) (now : Int) :
    (closeLocked cfg b now).core = b.core.renewed .closed :=
  core_transitionLocked b .closed now rfl

/-! ### Sections as moves -/

variable {policy : HalfOpenPolicy} {p : Permit}

/-- What a section does to the account of a breaker whose probes are accounted for. -/
def Keeps (policy : HalfOpenPolicy) (b b' : Breaker) : Prop :=
  Accounted policy b.core → Moves policy b.core b'.core

theorem Keeps.of_eq (eq : b'.core = b.core) : Keeps policy b b' := by
  intro _
  rw [eq]

theorem Keeps.of_move (move : Move policy b.core b'.core) : Keeps policy b b' :=
  fun _ => .single move

theorem Accounted.moves {c' : Core} (checked : policy.Checked) (accounted : Accounted policy c)
    (moves : Moves policy c c') : Accounted policy c' := by
  induction moves with
  | refl => exact accounted
  | tail _ move ih => exact ih.move checked move

theorem Keeps.trans {b'' : Breaker} (checked : policy.Checked) (first : Keeps policy b b')
    (second : Keeps policy b' b'') : Keeps policy b b'' := fun accounted =>
  (first accounted).trans (second (Accounted.moves checked accounted (first accounted)))

theorem belongsToCurrentHalfOpenLocked_iff (b : Breaker) (p : Permit) :
    b.belongsToCurrentHalfOpenLocked p = true ↔
      p.state = .halfOpen ∧ p.generation = b.generation ∧ b.state = .halfOpen := by
  unfold belongsToCurrentHalfOpenLocked belongsToCurrentStateLocked
  grind

theorem not_mem_probes (accounted : Accounted policy b.core) (found : b.permits[id]? = some p)
    (other : p.recording = true → b.belongsToCurrentHalfOpenLocked p = true → False) :
    id ∉ b.halfOpenPermits := by
  intro mem
  obtain ⟨q, at_, _, recording, s, generation⟩ := accounted.issued id mem
  cases found.symm.trans at_
  exact other recording ((b.belongsToCurrentHalfOpenLocked_iff p).mpr
    ⟨s, generation, accounted.halfOpen_of_mem mem⟩)

theorem keeps_release {status : PermitStatus}
    (b : Breaker) (found : b.permits[id]? = some p) (done : status ≠ .active) :
    Keeps policy b ((b.setStatus id status).releaseHalfOpenLocked id p) := by
  intro accounted
  unfold releaseHalfOpenLocked
  by_cases belongs : (b.setStatus id status).belongsToCurrentHalfOpenLocked p = true
  · by_cases mem : id ∈ b.halfOpenPermits
    · have listed : id ∈ (b.setStatus id status).halfOpenPermits := mem
      simp only [belongs, listed, Bool.not_true, Bool.false_eq_true, not_true_eq_false, if_false]
      exact .single (.release _ id status done mem)
    · have unlisted : id ∉ (b.setStatus id status).halfOpenPermits := mem
      simp only [belongs, unlisted, Bool.not_true, Bool.false_eq_true, not_false_eq_true, if_true,
        if_false]
      exact .single (.retire _ id status done mem)
  · simp only [belongs, Bool.not_false, if_true]
    exact .single (.retire _ id status done
      (not_mem_probes accounted found fun _ eq => belongs eq))

theorem keeps_expireLocked (b : Breaker) (found : b.permits[id]? = some p) :
    Keeps policy b (b.expireLocked id p) := by
  unfold expireLocked
  split
  · exact .of_eq rfl
  · exact keeps_release b found (by decide)

theorem keeps_expireAt (now : Int) (b : Breaker) (id : Nat) :
    Keeps policy b (expireAt now b id) := by
  unfold expireAt
  split
  · exact .of_eq rfl
  · rename_i p found
    split
    · exact .of_eq rfl
    · exact keeps_expireLocked b found

theorem keeps_expireAll (checked : policy.Checked) (now : Int) (ids : List Nat) (b : Breaker) :
    Keeps policy b (ids.foldl (expireAt now) b) := by
  induction ids generalizing b with
  | nil => exact .of_eq rfl
  | cons id ids ih => exact (keeps_expireAt now b id).trans checked (ih _)

theorem keeps_expireHalfOpenLocked (checked : policy.Checked) (b : Breaker) (now : Int) :
    Keeps policy b (b.expireHalfOpenLocked now) := keeps_expireAll checked now _ b

theorem keeps_admitProbe (cfg : Config) (b : Breaker) (now : Int) (execution : Bool)
    (checked : cfg.halfOpen.Checked) : Keeps cfg.halfOpen b (admitProbe cfg b now execution).1 := by
  have expired : Keeps cfg.halfOpen b
      (if b.state = .halfOpen then b.expireHalfOpenLocked now else b) := by
    split
    · exact keeps_expireHalfOpenLocked checked b now
    · exact .of_eq rfl
  unfold admitProbe
  generalize (if b.state = .halfOpen then b.expireHalfOpenLocked now else b) = b' at expired
  refine expired.trans checked ?_
  dsimp only
  split
  · split
    · exact .of_eq rfl
    · exact .of_eq rfl
  · rename_i open_
    by_cases half : b'.state = .halfOpen
    · have room : b'.halfOpenCompleted + b'.halfOpenActive < cfg.halfOpen.maxProbes := by
        by_contra full
        exact open_ ⟨half, by omega⟩
      have issued : (issueLocked cfg b' now true execution).state = .halfOpen := half
      rw [if_pos issued]
      exact .of_move (.probe _ _ rfl rfl half rfl rfl room)
    · have issued : ¬ (issueLocked cfg b' now true execution).state = .halfOpen := half
      rw [if_neg issued]
      exact .of_move (.issue _ _ rfl rfl fun _ => half)

theorem keeps_tryAcquireLocked (cfg : Config) (b : Breaker) (now : Int) (execution : Bool)
    (checked : cfg.halfOpen.Checked) :
    Keeps cfg.halfOpen b (tryAcquireLocked cfg b now execution).1 := by
  unfold tryAcquireLocked
  split
  · exact .of_eq rfl
  · exact .of_eq rfl
  · exact .of_move (.issue _ _ rfl rfl nofun)
  · split
    · split
      · exact .of_eq rfl
      · refine Keeps.trans checked (.of_move ?_) (keeps_admitProbe cfg _ now execution checked)
        rw [core_transitionLocked b .halfOpen now rfl]
        exact .renew _ .halfOpen b.mode
    · exact keeps_admitProbe cfg b now execution checked

/-- A completed probe that its policy does not decide on. -/
structure Undecided (policy : HalfOpenPolicy) (b : Breaker) : Prop where
  short : 0 < policy.requiredSuccesses → b.halfOpenSuccesses < policy.requiredSuccesses
  sampling : 0 < policy.successRatio ∨ policy.failureAction = .reopenAfterSample →
    b.halfOpenCompleted < policy.maxProbes

theorem settleHalfOpen_cases (cfg : Config) (b : Breaker) (now : Int) (jitterSample : ℚ) :
    (∃ s, (settleHalfOpen cfg b now jitterSample).core = b.core.renewed s) ∨
    (settleHalfOpen cfg b now jitterSample = b ∧ Undecided cfg.halfOpen b) := by
  unfold settleHalfOpen
  dsimp only
  split
  · exact .inl ⟨_, core_closeLocked b now⟩
  · rename_i recovering
    split
    · split
      · exact .inl ⟨_, core_closeLocked b now⟩
      · exact .inl ⟨_, core_openLocked b now jitterSample⟩
    · rename_i sampling
      split
      · exact .inl ⟨_, core_openLocked b now jitterSample⟩
      · rename_i strict
        refine .inr ⟨rfl, fun required => ?_, ?_⟩
        · by_contra enough
          exact recovering ⟨required, not_lt.mp enough⟩
        · rintro (ratio | action)
          · by_contra full
            exact sampling ⟨ratio, not_lt.mp full⟩
          · by_contra full
            exact strict ⟨action, not_lt.mp full⟩

theorem core_recordLifetimeLocked (b : Breaker) (out : Outcome) :
    (b.recordLifetimeLocked out).core = b.core := by
  cases out <;> rfl

theorem moves_decided (listed : id ∈ b.halfOpenPermits) (active completed successes : Int)
    (s : State) :
    Moves policy b.core ((b.core.ended id .completed active completed successes).renewed s) :=
  .tail (.single (.release _ id .completed (by decide) listed)) (.renew _ s b.mode)

theorem moves_settleHalfOpen (cfg : Config) (listed : id ∈ b.halfOpenPermits) (success : Bool)
    (lenient : success = false → cfg.halfOpen.failureAction = .reopenAfterSample)
    (counted : b'.core = b.core.ended id .completed (b.halfOpenActive - 1) (b.halfOpenCompleted + 1)
      (b.halfOpenSuccesses + if success then 1 else 0)) (now : Int) (jitterSample : ℚ) :
    Moves cfg.halfOpen b.core (settleHalfOpen cfg b' now jitterSample).core := by
  have completed : b'.halfOpenCompleted = b.halfOpenCompleted + 1 := congrArg Core.completed counted
  have successes : b'.halfOpenSuccesses = b.halfOpenSuccesses + if success then 1 else 0 :=
    congrArg Core.successes counted
  rcases settleHalfOpen_cases cfg b' now jitterSample with ⟨s, renewed⟩ | ⟨eq, undecided⟩
  · rw [renewed, counted]
    exact moves_decided listed _ _ _ s
  · rw [eq, counted]
    exact .single (.tally _ id .completed (by decide) listed success lenient
      (successes ▸ undecided.short) (completed ▸ undecided.sampling))

theorem moves_completeHalfOpenLocked (cfg : Config) (listed : id ∈ b.halfOpenPermits)
    (removed : b'.core = { b.core with
      permits := retired b.permits id .completed
      probes := b.halfOpenPermits.erase id }) (out : Outcome) (now : Int) (jitterSample : ℚ) :
    Moves cfg.halfOpen b.core
      (completeHalfOpenLocked cfg b' out now jitterSample).core := by
  have counted : ∀ completed successes : Int, ({ b' with
      halfOpenActive := b'.halfOpenActive - 1
      halfOpenCompleted := b'.halfOpenCompleted + completed
      halfOpenSuccesses := b'.halfOpenSuccesses + successes } : Breaker).core =
        b.core.ended id .completed (b.halfOpenActive - 1) (b.halfOpenCompleted + completed)
          (b.halfOpenSuccesses + successes) := fun completed successes =>
    congrArg (fun c : Core => { c with
      active := c.active - 1
      completed := c.completed + completed
      successes := c.successes + successes }) removed
  cases out with
  | ignored =>
    have released := counted 0 0
    simp only [Int.add_zero] at released
    unfold completeHalfOpenLocked
    rw [released]
    exact .single (.release _ id .completed (by decide) listed)
  | success => exact moves_settleHalfOpen cfg listed true nofun (counted 1 1) now jitterSample
  | failure =>
    have failed := counted 1 0
    simp only [Int.add_zero] at failed
    unfold completeHalfOpenLocked
    dsimp only
    split
    · rw [core_openLocked, failed]
      exact moves_decided listed _ _ _ .open_
    · rename_i action
      have lenient : cfg.halfOpen.failureAction = .reopenAfterSample := by
        cases chosen : cfg.halfOpen.failureAction with
        | reopenImmediately => exact absurd chosen action
        | reopenAfterSample => rfl
      exact moves_settleHalfOpen cfg listed false (fun _ => lenient) (by simpa using failed) now
        jitterSample

theorem keeps_completeWindowLocked (cfg : Config) (b : Breaker) (out : Outcome) (slow : Bool)
    (now : Int) (jitterSample : ℚ) :
    Keeps cfg.halfOpen b (completeWindowLocked cfg b out slow now jitterSample) := by
  unfold completeWindowLocked
  dsimp only
  split
  · refine .of_move ?_
    rw [core_openLocked]
    exact .renew _ .open_ b.mode
  · exact .of_eq rfl

theorem keeps_retire (b : Breaker) (out : Outcome) (unlisted : id ∉ b.halfOpenPermits) :
    Keeps policy b ((b.setStatus id .completed).recordLifetimeLocked out) := by
  refine .of_move ?_
  rw [core_recordLifetimeLocked]
  exact .retire _ id .completed (by decide) unlisted

theorem keeps_finishLocked (cfg : Config) (b : Breaker) (found : b.permits[id]? = some p)
    (live : p.status = .active) (out : Outcome) (slow : Bool) (now : Int) (jitterSample : ℚ)
    (checked : cfg.halfOpen.Checked) :
    Keeps cfg.halfOpen b (finishLocked cfg b id p out slow now jitterSample) := by
  have core : ((b.setStatus id .completed).recordLifetimeLocked out).core =
      { b.core with permits := retired b.permits id .completed } := core_recordLifetimeLocked _ _
  intro accounted
  unfold finishLocked
  generalize (b.setStatus id .completed).recordLifetimeLocked out = b' at core
  have generations : b'.generation = b.generation := congrArg Core.generation core
  have states : b'.state = b.state := congrArg Core.state core
  have probes : b'.halfOpenPermits = b.halfOpenPermits := congrArg Core.probes core
  have belongs : b'.belongsToCurrentHalfOpenLocked p = b.belongsToCurrentHalfOpenLocked p := by
    unfold belongsToCurrentHalfOpenLocked belongsToCurrentStateLocked
    rw [generations, states]
  have belongs' : b'.belongsToCurrentStateLocked p = b.belongsToCurrentStateLocked p := by
    unfold belongsToCurrentStateLocked
    rw [generations, states]
  by_cases probe : p.recording = true ∧ b.belongsToCurrentHalfOpenLocked p = true
  · -- The permit is one of the probes, and its completion counts.
    obtain ⟨recording, cur⟩ := probe
    obtain ⟨half, eq, open_⟩ := (b.belongsToCurrentHalfOpenLocked_iff p).mp cur
    have listed : id ∈ b.halfOpenPermits := accounted.listed id p found ⟨live, recording, half, eq⟩
    have here : b.belongsToCurrentStateLocked p = true := by
      simp [belongsToCurrentStateLocked, eq, half, open_]
    have kept : ({ b' with halfOpenPermits := b'.halfOpenPermits.erase id } :
        Breaker).belongsToCurrentStateLocked p = true := belongs'.trans here
    have s : ({ b' with halfOpenPermits := b'.halfOpenPermits.erase id } : Breaker).state =
        .halfOpen := states.trans open_
    simp only [belongs, cur, if_true, recording, Bool.not_true, Bool.false_eq_true, if_false,
      kept, s]
    refine moves_completeHalfOpenLocked cfg listed ?_ out now jitterSample
    exact congrArg (fun c : Core => { c with probes := c.probes.erase id }) core
  · have unlisted : id ∉ b.halfOpenPermits := not_mem_probes accounted found fun r c => probe ⟨r, c⟩
    have retire : Moves cfg.halfOpen b.core b'.core := by
      rw [core]
      exact .single (.retire _ id .completed (by decide) unlisted)
    have erased : (if b'.belongsToCurrentHalfOpenLocked p then
        { b' with halfOpenPermits := b'.halfOpenPermits.erase id } else b') = b' := by
      split
      · rw [List.erase_of_not_mem (probes ▸ unlisted)]
      · rfl
    dsimp only
    rw [erased]
    split
    · exact retire
    · rename_i recording
      split
      · exact retire
      · rename_i cur
        split
        · rename_i half
          refine absurd ⟨by simpa using recording, ?_⟩ probe
          rw [belongsToCurrentHalfOpenLocked_iff]
          simp only [belongsToCurrentStateLocked, Bool.not_eq_true', Bool.and_eq_false_iff] at cur
          grind
        · exact retire.trans (keeps_completeWindowLocked cfg b' out slow now jitterSample
            (Accounted.moves checked accounted retire))

theorem keeps_completeAt (cfg : Config) (b : Breaker) (id : Nat) (out : Outcome)
    (slow : Bool) (now : Int) (jitterSample : ℚ) (checked : cfg.halfOpen.Checked) :
    Keeps cfg.halfOpen b (completeAt cfg b id out slow now jitterSample).1 := by
  unfold completeAt
  split
  · exact .of_eq rfl
  · rename_i p found
    split
    · exact .of_eq rfl
    · exact .of_eq rfl
    · rename_i expired
      split
      · intro accounted
        refine keeps_retire b out (fun mem => ?_) accounted
        obtain ⟨q, at_, live, _⟩ := accounted.issued id mem
        cases found.symm.trans at_
        exact absurd (expired.symm.trans live) (by decide)
      · exact .of_eq rfl
    · rename_i live
      split
      · exact keeps_expireLocked b found
      · exact keeps_finishLocked cfg b found live out slow now jitterSample checked

theorem keeps_cancelAt (b : Breaker) (id : Nat) (now : Int) :
    Keeps policy b (b.cancelAt id now).1 := by
  unfold cancelAt
  split
  · exact .of_eq rfl
  · rename_i p found
    split
    · exact .of_eq rfl
    · exact .of_eq rfl
    · exact .of_eq rfl
    · split
      · exact keeps_expireLocked b found
      · exact keeps_release b found (by decide)

theorem keeps_setMode (cfg : Config) (b : Breaker) (mode : Mode) (now : Int) :
    Keeps policy b (setMode cfg b mode now) := by
  unfold setMode
  split
  · exact .of_eq rfl
  · refine .of_move ?_
    rw [core_recordEventLocked]
    exact .renew _ b.state mode

theorem keeps_step (cfg : Config) (b : Breaker) (section_ : Section) :
    Keeps cfg.halfOpen b (step cfg b section_) := by
  obtain ⟨given, normalized⟩ := cfg.normalized
  have checked := HalfOpenPolicy.checked normalized
  cases section_ with
  | acquire now execution => exact keeps_tryAcquireLocked cfg b now execution checked
  | waitTimeout => exact .of_eq rfl
  | complete id out slow now jitterSample =>
    exact keeps_completeAt cfg b id out slow now jitterSample checked
  | cancel id now => exact keeps_cancelAt b id now
  | setMode mode now => exact keeps_setMode cfg b mode now
  | reset now =>
    refine .of_move ?_
    change Move _ _ (reset cfg b now).core
    unfold reset
    rw [core_transitionLocked b .closed now rfl]
    exact .renew _ .closed .normal
  | snapshot now =>
    change Keeps _ b (if b.state = .halfOpen then b.expireHalfOpenLocked now else b)
    split
    · exact keeps_expireHalfOpenLocked checked b now
    · exact .of_eq rfl

theorem new_accounted (cfg : Config) : Accounted cfg.halfOpen (new cfg).core where
  active := rfl
  nodup := .nil
  issued := by simp [core, new]
  listed := by simp [core, new]
  past := by simp [core, new]
  current := by simp [core, new]
  counts := nofun
  idle := fun _ => ⟨rfl, rfl⟩

theorem run_accounted (cfg : Config) (sections : List Section) :
    Accounted cfg.halfOpen (run cfg sections).core := by
  obtain ⟨given, normalized⟩ := cfg.normalized
  have checked := HalfOpenPolicy.checked normalized
  unfold run
  generalize start : new cfg = b
  have accounted : Accounted cfg.halfOpen b.core := start ▸ new_accounted cfg
  clear start
  induction sections generalizing b with
  | nil => exact accounted
  | cons section_ sections ih =>
    exact ih _ (Accounted.moves checked accounted (keeps_step cfg b section_ accounted))

end Breaker

end Golib.CircuitBreaker
