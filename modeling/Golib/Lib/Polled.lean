/-! Computations that look at a cancellation signal at fixed points. A poll can
only stop the computation, so what it does is given by two things alone: how
often it polls, and how it ends when no poll fires. -/
namespace Golib

structure Polled (ε α : Type) where
  polls : Nat
  outcome : Except ε α

namespace Polled

variable {ε α β : Type} {signal : Nat → Option ε} {m : Polled ε α} {f : α → Polled ε β} {e e' : ε}
  {guard : Prop} {b : β} {a : α}

protected def pure (a : α) : Polled ε α := ⟨0, .ok a⟩

protected def bind (m : Polled ε α) (f : α → Polled ε β) : Polled ε β :=
  match m.outcome with
  | .ok a => ⟨m.polls + (f a).polls, (f a).outcome⟩
  | .error e => ⟨m.polls, .error e⟩

instance : Monad (Polled ε) where
  pure := Polled.pure
  bind := Polled.bind

def fail (e : ε) : Polled ε α := ⟨0, .error e⟩

def poll : Polled ε Unit := ⟨1, .ok ()⟩

def lift (r : Except ε α) : Polled ε α := ⟨0, r⟩

def failIf (guard : Prop) [Decidable guard] (e : ε) : Polled ε Unit :=
  if guard then fail e else Polled.pure ()

/-- The value of an optional read, or the failure that stands for its absence. -/
def get (e : ε) : Option α → Polled ε α
  | some a => Polled.pure a
  | none => fail e

@[simp] theorem outcome_pure (a : α) : (pure a : Polled ε α).outcome = .ok a := rfl

@[simp] theorem outcome_fail (e : ε) : (fail e : Polled ε α).outcome = .error e := rfl

@[simp] theorem outcome_poll : (poll : Polled ε Unit).outcome = .ok () := rfl

@[simp] theorem outcome_lift (r : Except ε α) : (lift r).outcome = r := rfl

@[simp] theorem outcome_get (e : ε) (o : Option α) :
    (get e o).outcome = match o with | some a => .ok a | none => .error e := by
  cases o <;> rfl

@[simp] theorem outcome_failIf (guard : Prop) [Decidable guard] (e : ε) :
    (failIf guard e).outcome = if guard then .error e else .ok () := by
  unfold failIf
  split <;> rfl

@[simp] theorem outcome_bind (m : Polled ε α) (f : α → Polled ε β) :
    (m >>= f).outcome = m.outcome.bind (fun a => (f a).outcome) := by
  change (Polled.bind m f).outcome = _
  unfold Polled.bind
  cases m.outcome <;> rfl

theorem bind_ok : (m >>= f).outcome = .ok b ↔ ∃ a, m.outcome = .ok a ∧ (f a).outcome = .ok b := by
  rw [outcome_bind]
  cases m.outcome <;> simp [Except.bind]

@[simp] theorem poll_bind (f : Unit → Polled ε β) : (poll >>= f).outcome = (f ()).outcome := rfl

@[simp] theorem pure_bind (a : α) (f : α → Polled ε β) :
    (pure a >>= f).outcome = (f a).outcome := rfl

@[simp] theorem failIf_bind (guard : Prop) [Decidable guard] (e : ε) (f : Unit → Polled ε β) :
    (failIf guard e >>= f).outcome = if guard then .error e else (f ()).outcome := by
  rw [outcome_bind, outcome_failIf]
  split <;> rfl

theorem failIf_ok [Decidable guard] {f : Unit → Polled ε β} :
    (failIf guard e >>= f).outcome = .ok b ↔ ¬ guard ∧ (f ()).outcome = .ok b := by
  rw [failIf_bind]
  split <;> simp_all

theorem failIf_eq_ok {u : Unit} [Decidable guard] : (failIf guard e).outcome = .ok u ↔ ¬ guard := by
  rw [outcome_failIf]
  split <;> simp_all

@[simp] theorem get_bind (e : ε) (o : Option α) (f : α → Polled ε β) :
    (get e o >>= f).outcome = match o with | some a => (f a).outcome | none => .error e := by
  cases o <;> rfl

def Avoids (e : ε) (m : Polled ε α) : Prop := m.outcome ≠ .error e

theorem avoids_pure (e : ε) (a : α) : Avoids e (pure a : Polled ε α) := by
  intro h
  cases h

theorem avoids_failIf (ne : e' ≠ e) (guard : Prop) [Decidable guard] :
    Avoids e (failIf guard e') := by
  intro h
  rw [outcome_failIf] at h
  split at h
  · exact ne (Except.error.inj h)
  · cases h

/-- The computation does not end with the given error, and what it returns has the property. -/
def Gives (e : ε) (P : α → Prop) (m : Polled ε α) : Prop :=
  Avoids e m ∧ ∀ a, m.outcome = .ok a → P a

theorem Gives.mono {P Q : α → Prop} (gives : Gives e P m) (weaker : ∀ a, P a → Q a) : Gives e Q m :=
  ⟨gives.1, fun a returned => weaker a (gives.2 a returned)⟩

theorem gives_bind {P : β → Prop} (first : Avoids e m)
    (rest : ∀ a, m.outcome = .ok a → Gives e P (f a)) : Gives e P (m >>= f) := by
  rw [Gives, Avoids, outcome_bind]
  cases out : m.outcome with
  | error e' =>
    refine ⟨fun failed => first ?_, fun b returned => by cases returned⟩
    rw [out, Except.error.inj failed]
  | ok a => exact rest a out

theorem gives_guard {P : β → Prop} (ne : e' ≠ e) [Decidable guard] {f : Unit → Polled ε β}
    (rest : ¬ guard → Gives e P (f ())) : Gives e P (failIf guard e' >>= f) :=
  gives_bind (avoids_failIf ne guard) fun _ passed => rest (failIf_eq_ok.mp passed)

theorem gives_read {P : β → Prop} (read : m.outcome = .ok a) (rest : Gives e P (f a)) :
    Gives e P (m >>= f) := by
  rwa [Gives, Avoids, outcome_bind, read]

/-- The first of the polls numbered below `n` that fires. -/
def fired (signal : Nat → Option ε) : Nat → Option ε
  | 0 => none
  | n + 1 => match fired signal n with
    | some e => some e
    | none => signal n

/-- The computation against a signal: the first poll that fires ends it. -/
def run (signal : Nat → Option ε) (m : Polled ε α) : Except ε α :=
  match fired signal m.polls with
  | some e => .error e
  | none => m.outcome

theorem fired_silent (silent : ∀ n, signal n = none) (n : Nat) : fired signal n = none := by
  induction n with
  | zero => rfl
  | succ n ih => simp only [fired, ih, silent]

theorem fired_signal {n : Nat} (h : fired signal n = some e) : ∃ i, signal i = some e := by
  induction n with
  | zero => cases h
  | succ n ih =>
    unfold fired at h
    split at h
    · rename_i e' hn
      cases Option.some.inj h
      exact ih hn
    · exact ⟨n, h⟩

theorem run_silent (silent : ∀ n, signal n = none) (m : Polled ε α) : run signal m = m.outcome := by
  simp only [run, fired_silent silent]

theorem run_ok (h : run signal m = .ok a) : m.outcome = .ok a := by
  unfold run at h
  split at h
  · contradiction
  · exact h

theorem run_cases (signal : Nat → Option ε) (m : Polled ε α) :
    run signal m = m.outcome ∨ ∃ i e, signal i = some e ∧ run signal m = .error e := by
  unfold run
  split
  · rename_i e h
    obtain ⟨i, hi⟩ := fired_signal h
    exact Or.inr ⟨i, e, hi, rfl⟩
  · exact Or.inl rfl

end Polled

end Golib
