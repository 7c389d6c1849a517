import Mathlib.Algebra.Order.Field.Basic
import Mathlib.Algebra.Order.BigOperators.Group.List
import Mathlib.Tactic.FieldSimp
import Mathlib.Tactic.Linarith
import Mathlib.Tactic.Ring

/-! Token buckets. An account is drawn on at instants that do not decrease; between two of them it
gains at most `rate` for each unit of time and it never holds more than `limit`. -/
namespace Golib.Bucket

open List

variable {ts rem : Nat}

section

variable {K : Type} [Field K] [LinearOrder K] {limit rate : K}

/-- The draws on an account that holds a balance at an instant, as instants and amounts. -/
inductive Account (limit rate : K) : K → K → List (K × K) → Prop where
  | nil (balance time : K) : Account limit rate balance time []
  | cons {balance time balance' time' amount : K} {rest : List (K × K)} (forward : time ≤ time')
      (solvent : 0 ≤ balance') (full : balance' + amount ≤ limit)
      (gain : balance' + amount ≤ balance + rate * (time' - time))
      (later : Account limit rate balance' time' rest) :
      Account limit rate balance time ((time', amount) :: rest)

namespace Account

variable {balance time : K} {draws back : List (K × K)}

def total (draws : List (K × K)) : K := (draws.map Prod.snd).sum

def lastTime {α : Type} (time : α) (draws : List (α × α)) : α :=
  (draws.getLast?.map Prod.fst).getD time

omit [Field K] [LinearOrder K] in
theorem lastTime_cons (time time' amount : K) (rest : List (K × K)) :
    lastTime time ((time', amount) :: rest) = lastTime time' rest := by
  cases rest with
  | nil => rfl
  | cons draw rest =>
    rw [lastTime, lastTime, getLast?_cons_cons]
    cases none : (draw :: rest).getLast? with
    | none => simp at none
    | some last => rfl

theorem total_le [IsStrictOrderedRing K] (account : Account limit rate balance time draws)
    (solvent : 0 ≤ balance) : total draws ≤ balance + rate * (lastTime time draws - time) := by
  induction account with
  | nil balance time => simpa [total, lastTime] using solvent
  | @cons balance time balance' time' amount rest forward solvent' full gain later ih =>
    have rest := ih solvent'
    rw [lastTime_cons]
    simp only [total, map_cons, sum_cons] at rest ⊢
    linarith

theorem suffix {front : List (K × K)} (account : Account limit rate balance time (front ++ draws)) :
    ∃ balance' time', Account limit rate balance' time' draws := by
  induction front generalizing balance time with
  | nil => exact ⟨balance, time, account⟩
  | cons draw front ih =>
    cases account with
    | cons forward solvent full gain later => exact ih later

theorem front (account : Account limit rate balance time (draws ++ back)) :
    Account limit rate balance time draws := by
  induction draws generalizing balance time with
  | nil => exact .nil balance time
  | cons draw draws ih =>
    cases account with
    | cons forward solvent full gain later => exact .cons forward solvent full gain (ih later)

theorem burst {first amount : K} {rest : List (K × K)}
    [IsStrictOrderedRing K] {front : List (K × K)}
    (account : Account limit rate balance time (front ++ ((first, amount) :: rest) ++ back)) :
    total ((first, amount) :: rest) ≤ limit + rate * (lastTime first rest - first) := by
  rw [append_assoc] at account
  obtain ⟨balance', time', middle⟩ := account.suffix
  cases middle.front with
  | cons forward solvent full gain later =>
    have bound := later.total_le solvent
    simp only [total, map_cons, sum_cons] at bound ⊢
    linarith

end Account

end

/-! ### Whole tokens and a remainder

A balance is kept as whole tokens and a remainder that counts parts of a period. -/

def balance (period tokens remainder : Nat) : ℚ := tokens + remainder / period

theorem balance_mono {tokens' remainder' : Nat}
    (p : Nat) (fewer : ts ≤ tokens') (less : rem ≤ remainder') :
    balance p ts rem ≤ balance p tokens' remainder' := by
  unfold balance
  gcongr

theorem balance_nonneg (p ts rem : Nat) : 0 ≤ balance p ts rem := by
  unfold balance
  positivity

theorem balance_le {limit p : Nat} (held : ts ≤ limit) (short : rem < p)
    (full : ts = limit → rem = 0) : balance p ts rem ≤ limit := by
  unfold balance
  have pos : (0 : ℚ) < p := by exact_mod_cast (by omega : 0 < p)
  by_cases eq : ts = limit
  · rw [full eq, eq]
    simp
  · have below : (ts : ℚ) + 1 ≤ limit := by exact_mod_cast (by omega : ts + 1 ≤ limit)
    have part : (rem : ℚ) / p < 1 := by
      rw [div_lt_one pos]
      exact_mod_cast short
    linarith

/-- The tokens and the remainder once an elapsed time is made up for. -/
def topUp (limit capacity period tokens remainder elapsed : Nat) : Nat × Nat :=
  let parts := elapsed * capacity + remainder
  if limit ≤ tokens + parts / period then (limit, 0) else (tokens + parts / period, parts % period)

theorem cast_div_add_mod {p : Nat} (n : Nat) (some : 0 < p) :
    ((n / p : Nat) : ℚ) + ((n % p : Nat) : ℚ) / p = n / p := by
  have split : ((n / p : Nat) : ℚ) * p + ((n % p : Nat) : ℚ) = n := by
    exact_mod_cast Nat.div_add_mod' n p
  field_simp
  linarith

section

variable {p elapsed capacity : Nat} (some : 0 < p)

include some

theorem balance_parts :
    balance p (ts + (elapsed * capacity + rem) / p)
        ((elapsed * capacity + rem) % p) =
      balance p ts rem + elapsed * capacity / p := by
  have parts := cast_div_add_mod (elapsed * capacity + rem) some
  unfold balance
  push_cast at parts ⊢
  rw [add_assoc, parts]
  ring

theorem balance_topUp (limit : Nat) :
    balance p (topUp limit capacity p ts rem elapsed).1
        (topUp limit capacity p ts rem elapsed).2 =
      min (limit : ℚ) (balance p ts rem + elapsed * capacity / p) := by
  have pos : (0 : ℚ) < p := by exact_mod_cast some
  rw [← balance_parts some]
  unfold topUp
  dsimp only
  split
  · rename_i full
    have above : (limit : ℚ) ≤ (ts + (elapsed * capacity + rem) / p : Nat) := by
      exact_mod_cast full
    have rest : (0 : ℚ) ≤ ((elapsed * capacity + rem) % p : Nat) / p := by positivity
    rw [min_eq_left]
    · simp [balance]
    · unfold balance
      linarith
  · rename_i short
    have below : ((ts + (elapsed * capacity + rem) / p : Nat) : ℚ) + 1 ≤ limit := by
      exact_mod_cast (by omega : ts + (elapsed * capacity + rem) / p + 1 ≤ limit)
    have rest : (((elapsed * capacity + rem) % p : Nat) : ℚ) / p < 1 := by
      rw [div_lt_one pos]
      exact_mod_cast Nat.mod_lt _ some
    rw [min_eq_right]
    unfold balance
    linarith

end

end Golib.Bucket
