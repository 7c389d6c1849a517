/-! Programs that thread a state and may fail, and rules for what they end in: a
property of the result and the state when they return, a property of the error
when they do not. -/
namespace Golib

theorem except_bind_ok {ε α β : Type} {m : Except ε α} {f : α → Except ε β} {b : β} :
    (m >>= f) = .ok b ↔ ∃ a, m = .ok a ∧ f a = .ok b := by
  cases m <;> simp [bind, Except.bind]

theorem except_bind_error {ε α β : Type} {m : Except ε α} {f : α → Except ε β} {e : ε} :
    (m >>= f) = .error e ↔ m = .error e ∨ ∃ a, m = .ok a ∧ f a = .error e := by
  cases m <;> simp [bind, Except.bind]

theorem except_map_ok {ε α β : Type} {m : Except ε α} {f : α → β} {b : β} :
    m.map f = .ok b ↔ ∃ a, m = .ok a ∧ f a = b := by
  cases m <;> simp [Except.map]

abbrev Program (σ ε α : Type) := StateT σ (Except ε) α

variable {guard : Prop}

namespace Program

variable {σ ε α β : Type} {s : σ} {done : α → σ → Prop} {failed : ε → Prop} {e : ε} {a : α}

def fail (e : ε) : Program σ ε α := fun _ => .error e

def failIf (guard : Prop) [Decidable guard] (e : ε) : Program σ ε Unit :=
  if guard then fail e else pure ()

def lift (r : Except ε α) : Program σ ε α := fun s => r.map (fun a => (a, s))

theorem lift_seq (r : Except ε α) (f : α → Except ε β) :
    (lift (r >>= f) : Program σ ε β) = lift r >>= fun a => lift (f a) := by
  cases r <;> rfl

theorem lift_ok (a : α) (f : α → Program σ ε β) : lift (.ok a) >>= f = f a := rfl

def mapError (report : ε → ε) (m : Program σ ε α) : Program σ ε α := fun s => (m s).mapError report

/-- Run from `s`, the program returns with `done` or fails with `failed`. -/
def Ends (m : Program σ ε α) (s : σ) (done : α → σ → Prop) (failed : ε → Prop) : Prop :=
  match m s with
  | .ok (a, s') => done a s'
  | .error e => failed e

/-- The program returns only where the claim holds, and fails there only without room. -/
abbrev Decides (m : Program σ ε α) (s : σ) (claim : Prop) (stops : ε → Prop) (room : Prop) : Prop :=
  Ends m s (fun _ _ => claim) (fun e => claim → stops e ∧ ¬ room)

theorem ends_pure (holds : done a s) : Ends (pure a) s done failed := holds

theorem ends_get {done : σ → σ → Prop} (holds : done s s) :
    Ends (get : Program σ ε σ) s done failed := holds

theorem ends_fail (holds : failed e) : Ends (fail e) s done failed := holds

theorem ends_failIf [Decidable guard] {done : Unit → σ → Prop} (stop : guard → failed e)
    (passed : ¬ guard → done () s) : Ends (failIf guard e) s done failed := by
  unfold failIf
  split
  · rename_i h
    exact stop h
  · rename_i h
    exact passed h

variable {r : Except ε α} {m : Program σ ε α} {f : α → Program σ ε β} {failed' : ε → Prop}

theorem ends_lift (returned : ∀ a, r = .ok a → done a s) (refused : ∀ e, r = .error e → failed e) :
    Ends (lift r) s done failed := by
  cases r with
  | ok a => exact returned a rfl
  | error e => exact refused e rfl

theorem ends_mapError {report : ε → ε} (ends : Ends m s done (fun e => failed (report e))) :
    Ends (mapError report m) s done failed := by
  unfold Ends mapError at *
  cases out : m s with
  | error | ok =>
    rw [out] at ends
    exact ends

theorem ends_bind {done : β → σ → Prop}
    (first : Ends m s (fun a s' => Ends (f a) s' done failed) failed) :
    Ends (m >>= f) s done failed := by
  unfold Ends at first ⊢
  have unfolded : (m >>= f) s = (m s).bind (fun p => f p.1 p.2) := rfl
  rw [unfolded]
  cases out : m s with
  | error | ok =>
    rw [out] at first
    exact first

theorem ends_guard [Decidable guard] {f : Unit → Program σ ε β} {done : β → σ → Prop}
    (stop : guard → failed e) (passed : ¬ guard → Ends (f ()) s done failed) :
    Ends (failIf guard e >>= f) s done failed :=
  ends_bind (ends_failIf stop passed)

theorem ends_check {done : β → σ → Prop} (refused : ∀ e, r = .error e → failed e)
    (passed : ∀ a, r = .ok a → Ends (f a) s done failed) : Ends (lift r >>= f) s done failed :=
  ends_bind (ends_lift passed refused)

theorem Ends.mono {done' : α → σ → Prop}
    (ends : Ends m s done failed) (returns : ∀ a s', done a s' → done' a s')
    (fails : ∀ e, failed e → failed' e) : Ends m s done' failed' := by
  unfold Ends at ends ⊢
  cases out : m s with
  | error e =>
    rw [out] at ends
    exact fails e ends
  | ok p =>
    rw [out] at ends
    exact returns p.1 p.2 ends

theorem Ends.weaken (ends : Ends m s done failed) (fails : ∀ e, failed e → failed' e) :
    Ends m s done failed' :=
  ends.mono (fun _ _ h => h) fails

/-- Where errors come only without room, more room than needed is enough. -/
theorem Ends.unless {E : ε → Prop} {room room' : Prop}
    (ends : Ends m s done (fun e => E e ∧ ¬ room)) (enough : room' → room) :
    Ends m s done (fun e => E e ∧ ¬ room') :=
  ends.weaken fun _ stop => ⟨stop.1, fun more => stop.2 (enough more)⟩

/-- The same of errors that count only where a claim holds. -/
theorem Ends.given {E E' : ε → Prop} {claim claim' room room' : Prop}
    (ends : Ends m s done (fun e => claim → E e ∧ ¬ room)) (claimed : claim' → claim)
    (reported : ∀ e, E e → E' e) (enough : claim' → room' → room) :
    Ends m s done (fun e => claim' → E' e ∧ ¬ room') := by
  refine ends.weaken fun e stop told => ?_
  obtain ⟨why, lacking⟩ := stop (claimed told)
  exact ⟨reported e why, fun more => lacking (enough told more)⟩

theorem Ends.bind {done' : β → σ → Prop} (ends : Ends m s done failed)
    (rest : ∀ a s', done a s' → Ends (f a) s' done' failed) : Ends (m >>= f) s done' failed :=
  ends_bind (ends.mono rest (fun _ h => h))

theorem Ends.ok {s' : σ}
    (ends : Ends m s done failed) (returned : m s = .ok (a, s')) : done a s' := by
  unfold Ends at ends
  rwa [returned] at ends

theorem Ends.error (ends : Ends m s done failed) (refused : m s = .error e) : failed e := by
  unfold Ends at ends
  rwa [refused] at ends

theorem Ends.returns (ends : Ends m s done (fun _ => False)) :
    ∃ a s', m s = .ok (a, s') ∧ done a s' := by
  unfold Ends at ends
  cases out : m s with
  | error e =>
    rw [out] at ends
    exact absurd ends id
  | ok p =>
    rw [out] at ends
    exact ⟨p.1, p.2, rfl, ends⟩

theorem Decides.congr {E E' : ε → Prop} {claim claim' room room' : Prop}
    (decides : Decides m s claim E room) (eq : claim' ↔ claim) (reported : ∀ e, E e → E' e)
    (enough : claim' → room' → room) : Decides m s claim' E' room' :=
  (Ends.given decides eq.mp reported enough).mono (fun _ _ => eq.mpr) (fun _ h => h)

theorem Ends.outcome {P : α → Prop} (ends : Ends m s (fun a _ => P a) failed) :
    (∃ a, (m s).map Prod.fst = .ok a ∧ P a) ∨ ∃ e, (m s).map Prod.fst = .error e ∧ failed e := by
  unfold Ends at ends
  cases out : m s with
  | error e =>
    rw [out] at ends
    exact Or.inr ⟨e, rfl, ends⟩
  | ok p =>
    rw [out] at ends
    exact Or.inl ⟨p.1, rfl, ends⟩

theorem Ends.run {P : α → Prop} (ends : Ends m s (fun a _ => P a) failed) :
    (∀ a, (m s).map Prod.fst = .ok a → P a) ∧ (∀ e, (m s).map Prod.fst = .error e → failed e) := by
  rcases ends.outcome with ⟨a, eq, holds⟩ | ⟨e, eq, holds⟩
  · rw [eq]
    exact ⟨fun a' returned => Except.ok.inj returned ▸ holds, nofun⟩
  · rw [eq]
    exact ⟨nofun, fun e' refused => Except.error.inj refused ▸ holds⟩

end Program

end Golib
