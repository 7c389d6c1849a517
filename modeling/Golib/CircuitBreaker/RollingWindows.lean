import Golib.CircuitBreaker.Window
import Mathlib.Data.List.Induction

/-! The ring of the last records counts what a list of them would. -/
namespace Golib.CircuitBreaker

open List

variable {w : Count} {size : Nat} {cs is rs : List Record} {r : Record}

/-- The counts of a list of records. -/
def tally (rs : List Record) : Aggregate where
  classified := rs.countP (·.outcome ≠ .ignored)
  successes := rs.countP (·.outcome = .success)
  failures := rs.countP (·.outcome = .failure)
  ignored := rs.countP (·.outcome = .ignored)
  slowSuccess := rs.countP fun r => r.outcome = .success ∧ r.slow
  slowFailure := rs.countP fun r => r.outcome = .failure ∧ r.slow

/-- The last `size` classified records, and every ignored one. -/
def retained (size : Nat) (classified ignored : List Record) : List Record :=
  classified.drop (classified.length - size) ++ ignored

theorem tally_add {rs' : List Record}
    (perm : rs.Perm (r :: rs')) : tally rs = (tally rs').add r := by
  rcases r with ⟨_ | _ | _, _ | _⟩ <;> simp [tally, Aggregate.add, perm.countP_eq]

theorem tally_remove (known : r.outcome ≠ .ignored) : (tally (r :: rs)).remove r = tally rs := by
  rcases r with ⟨_ | _ | _, _ | _⟩ <;> simp [tally, Aggregate.remove] at known ⊢

/-- The ring holds the last classified records, each in the slot of its number. -/
structure Count.Keeps (w : Count) (size : Nat) (classified ignored : List Record) : Prop where
  known : ∀ r ∈ classified, r.outcome ≠ .ignored
  slots : w.records.length = size
  next : w.next = classified.length % size
  length : w.length = min classified.length size
  ring : ∀ i r, classified[i]? = some r → classified.length ≤ i + size →
    w.records[i % size]? = some r
  counts : w.snapshot = tally (retained size classified ignored)

theorem Count.Keeps.skip (keeps : Count.Keeps w size cs is) (skipped : r.outcome = .ignored) :
    (w.add r).Keeps size cs (is ++ [r]) := by
  obtain ⟨known, slots, next, length, ring, counts⟩ := keeps
  rw [Count.add, if_pos skipped]
  refine ⟨known, slots, next, length, ring, ?_⟩
  change w.snapshot.add r = _
  rw [counts, retained, retained, ← append_assoc, tally_add (perm_append_singleton r _)]

theorem Count.Keeps.push (keeps : Count.Keeps w size cs is) (pos : 0 < size)
    (classified : r.outcome ≠ .ignored) : (w.add r).Keeps size (cs ++ [r]) is := by
  obtain ⟨known, slots, next, length, ring, counts⟩ := keeps
  rw [Count.add, if_neg classified]
  refine ⟨?_, by rw [length_set, slots], ?_, ?_, ?_, ?_⟩
  · exact forall_mem_append.mpr ⟨known, forall_mem_singleton.mpr classified⟩
  · rw [next, slots, length_append, length_singleton, Nat.mod_add_mod]
  · simp only [slots, length, length_append, length_singleton]
    split_ifs <;> omega
  · intro i x found near
    rw [length_append, length_singleton] at near
    rw [next]
    rcases Nat.lt_or_ge i cs.length with old | new
    · -- A record that stays is not in the slot of the new one.
      rw [getElem?_append_left old] at found
      have other : cs.length % size ≠ i % size := by
        intro eq
        have := Nat.sub_mod_eq_zero_of_mod_eq eq
        have := Nat.le_of_dvd (by omega) (Nat.dvd_of_mod_eq_zero this)
        omega
      rw [getElem?_set_ne other]
      exact ring i x found (by omega)
    · obtain ⟨inside, -⟩ := List.getElem?_eq_some_iff.mp found
      rw [length_append, length_singleton] at inside
      obtain rfl : i = cs.length := by omega
      rw [getElem?_append_right le_rfl, Nat.sub_self] at found
      rw [getElem?_set_self (by rw [slots]; exact Nat.mod_lt _ pos)]
      exact found
  · change Aggregate.add _ r = _
    rw [length, slots]
    rcases Nat.lt_or_ge cs.length size with few | full
    · rw [if_neg (by omega), counts, ← tally_add]
      simp only [retained, length_append, length_singleton, show cs.length - size = 0 by omega,
        show cs.length + 1 - size = 0 by omega, drop_zero, append_assoc]
      exact perm_middle
    · -- The slot of the new record holds the oldest one.
      obtain ⟨old, found⟩ : ∃ old, cs[cs.length - size]? = some old :=
        ⟨_, getElem?_eq_getElem (by omega)⟩
      have slot := ring _ old found (by omega)
      rw [← Nat.add_mod_right, Nat.sub_add_cancel full, ← next] at slot
      obtain ⟨inside, eq⟩ := List.getElem?_eq_some_iff.mp found
      have front : retained size cs is = old :: (cs.drop (cs.length + 1 - size) ++ is) := by
        rw [retained, drop_eq_getElem_cons inside, eq, cons_append,
          show cs.length - size + 1 = cs.length + 1 - size by omega]
      rw [if_pos (by omega), slot, Option.map_some, Option.getD_some, counts, front,
        tally_remove (known old (mem_of_getElem? found)), ← tally_add, retained, length_append,
          length_singleton, drop_append_of_le_length (by omega), append_assoc]
      exact perm_middle

/-- After every run of additions the window counts exactly the last `size` classified records and
all the ignored ones. -/
theorem count_window_exact (size : Nat) (pos : 0 < size) (records : List Record) :
    (records.foldl Count.add (newCount size)).snapshot = tally (retained size
      (records.filter (·.outcome ≠ .ignored)) (records.filter (·.outcome = .ignored))) := by
  suffices keeps : (records.foldl Count.add (newCount size)).Keeps size
      (records.filter (·.outcome ≠ .ignored))
        (records.filter (·.outcome = .ignored)) from keeps.counts
  induction records using reverseRecOn with
  | nil => constructor <;> simp [newCount, tally, retained]
  | append_singleton records r ih =>
    rw [foldl_append, filter_append, filter_append]
    by_cases skipped : r.outcome = .ignored
    · simpa [skipped] using ih.skip skipped
    · simpa [skipped] using ih.push pos skipped

theorem count_window_exact_two :
    ([⟨.failure, true⟩, ⟨.ignored, false⟩, ⟨.success, false⟩, ⟨.failure, false⟩].foldl Count.add
      (newCount 2)).snapshot = ⟨2, 1, 1, 1, 0, 0⟩ :=
  (count_window_exact 2 (by decide) _).trans (by decide)

end Golib.CircuitBreaker
