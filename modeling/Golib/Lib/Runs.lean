/-! Runs of a labelled step relation, and the machines that they simulate. -/
namespace Golib

def runMachine {τ α β : Type} (machine : τ → α → τ × β) (t : τ) : List α → τ
  | [] => t
  | a :: rest => runMachine machine (machine t a).1 rest

def outputs {τ α β : Type} (machine : τ → α → τ × β) (t : τ) : List α → List β
  | [] => []
  | a :: rest => (machine t a).2 :: outputs machine (machine t a).1 rest

theorem runMachine_append {τ α β : Type} (machine : τ → α → τ × β) (t : τ) (front rest : List α) :
    runMachine machine t (front ++ rest) = runMachine machine
    (runMachine machine t front) rest := by
  induction front generalizing t with
  | nil => rfl
  | cons a front ih => exact ih _

inductive Run {σ ℓ : Type} (step : ℓ → σ → σ → Prop) : σ → List ℓ → σ → Prop where
  | nil (s : σ) : Run step s [] s
  | cons {l : ℓ} {s s' s'' : σ} {rest : List ℓ} (first : step l s s')
    (later : Run step s' rest s'') :
    Run step s (l :: rest) s''

namespace Run

variable {σ : Type}

theorem invariant {α : Type} {step : α → σ → σ → Prop} {s s' : σ} {labels : List α}
    {P : σ → Prop} (run : Run step s labels s')
    (keeps : ∀ l ∈ labels, ∀ s s', step l s s' → P s → P s') (start : P s) : P s' := by
  induction run with
  | nil s => exact start
  | cons first later ih =>
    exact ih (List.forall_mem_cons.mp keeps).2
      (keeps _ List.mem_cons_self _ _ first start)

end Run

end Golib
