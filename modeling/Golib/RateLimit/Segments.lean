import Mathlib.Algebra.BigOperators.Fin
import Golib.RateLimit.Policy

/-! The ring of segments as a tally: what each segment counts are the costs of its index, and what
the ring counts are the costs that are not dropped yet. -/
namespace Golib.RateLimit

open Machine List Function

variable {i : Int}

/-- The costs at the indexes with a property. -/
def costWhere (history : List (Int × Nat)) (p : Int → Prop) [DecidablePred p] : Nat :=
  ((history.filter fun entry => p entry.1).map Prod.snd).sum

section

variable {history : List (Int × Nat)} {p q : Int → Prop} [DecidablePred p] [DecidablePred q]

theorem costWhere_nil : costWhere [] p = 0 := rfl

theorem costWhere_cons (e : Int × Nat) :
    costWhere (e :: history) p = (if p e.1 then e.2 else 0) + costWhere history p := by
  unfold costWhere
  split <;> simp_all

theorem costWhere_append (more : List (Int × Nat)) :
    costWhere (history ++ more) p = costWhere history p + costWhere more p := by
  simp [costWhere]

theorem costWhere_singleton (e : Int × Nat) : costWhere [e] p = if p e.1 then e.2 else 0 := by
  rw [costWhere_cons, costWhere_nil, add_zero]

theorem costWhere_congr (eq : ∀ e ∈ history, p e.1 ↔ q e.1) :
    costWhere history p = costWhere history q := by
  unfold costWhere
  rw [filter_congr fun e mem => decide_eq_decide.mpr (eq e mem)]

theorem costWhere_mono (less : ∀ e ∈ history, p e.1 → q e.1) :
    costWhere history p ≤ costWhere history q := by
  induction history with
  | nil => exact Nat.le_refl _
  | cons e rest ih =>
    have tail := ih (forall_mem_cons.mp less).2
    have head := less e mem_cons_self
    rw [costWhere_cons, costWhere_cons]
    by_cases holds : p e.1
    · rw [if_pos holds, if_pos (head holds)]
      omega
    · rw [if_neg holds]
      omega

theorem costWhere_map (f : Int → Int) :
    costWhere (history.map fun e => (f e.1, e.2)) p = costWhere history fun i => p (f i) := by
  induction history with
  | nil => rfl
  | cons e rest ih => rw [map_cons, costWhere_cons, costWhere_cons, ih]

theorem costWhere_eq_zero (none : ∀ e ∈ history, ¬ p e.1) : costWhere history p = 0 := by
  unfold costWhere
  rw [filter_eq_nil_iff.mpr fun e mem => by simpa using none e mem]
  rfl

end

/-! ### Slots -/

theorem slotOf_val (i : Int) : ((slotOf i : Fin 16) : Int) = i % 16 := by
  change (((positiveRem i 16).toNat % 16 : Nat) : Int) = i % 16
  rw [positiveRem_eq i (by decide)]
  omega

theorem slotOf_injective {j lo : Int} (eq : slotOf i = slotOf j) (below : lo < i) (below' : lo < j)
    (above : i ≤ lo + 16) (above' : j ≤ lo + 16) : i = j := by
  have left := slotOf_val i
  have right := slotOf_val j
  omega

theorem open_index (ring : Ring) (i : Int) : (ring.open i (slotOf i)).index = i := by
  unfold Ring.open
  split
  · rw [update_self]
  · rename_i eq
    exact not_not.mp eq

/-! ### Tallies -/

/-- The ring counts the costs above an index. -/
structure Ring.Counts (ring : Ring) (lo : Int) (history : List (Int × Nat)) : Prop where
  placed : ∀ entry ∈ history, lo < entry.1 → (ring (slotOf entry.1)).index = entry.1
  counts : ∀ slot, (ring slot).used =
    costWhere history fun i => lo < i ∧ i = (ring slot).index ∧ slotOf i = slot

namespace Ring.Counts

variable {ring : Ring} {lo : Int} {history : List (Int × Nat)} (counts : ring.Counts lo history)

include counts

theorem drop {lo' : Int} (order : lo ≤ lo') : (ring.drop lo').Counts lo' history := by
  constructor
  · intro e mem above
    have here := counts.placed e mem (by omega)
    unfold Ring.drop
    rw [if_neg (by omega), here]
  · intro slot
    unfold Ring.drop
    by_cases gone : (ring slot).index ≤ lo'
    · rw [if_pos gone]
      refine (costWhere_eq_zero fun e mem sub => ?_).symm
      obtain ⟨above, i, rfl⟩ := sub
      have here := counts.placed e mem (by omega)
      omega
    · rw [if_neg gone, counts.counts slot]
      refine costWhere_congr fun e _ => ?_
      constructor
      · rintro ⟨-, i, eq⟩
        exact ⟨by omega, i, eq⟩
      · rintro ⟨above, i, eq⟩
        exact ⟨by omega, i, eq⟩

theorem opened (after : ∀ e ∈ history, e.1 ≤ i) (near : i ≤ lo + 16) :
    (ring.open i).Counts lo history := by
  unfold Ring.open
  by_cases other : (ring (slotOf i)).index ≠ i
  · rw [if_pos other]
    -- An entry in the slot of the index would be of that index, and the slot would show it.
    have apart : ∀ e ∈ history, lo < e.1 → slotOf e.1 ≠ slotOf i := by
      intro e mem above eq
      have here := counts.placed e mem above
      have order := after e mem
      have equal := slotOf_injective eq above (by omega) (by omega) near
      rw [eq, equal] at here
      exact other here
    refine ⟨fun e mem above => ?_, fun slot => ?_⟩
    · rw [update_of_ne (apart e mem above)]
      exact counts.placed e mem above
    · by_cases here : slot = slotOf i
      · subst here
        rw [update_self]
        exact (costWhere_eq_zero fun e mem sub =>
          apart e mem sub.1 sub.2.2).symm
      · rw [update_of_ne here]
        exact counts.counts slot
  · rwa [if_neg other]

theorem add {cost : Nat} (here : (ring (slotOf i)).index = i) (above : lo < i)
    (fits : (ring (slotOf i)).used + cost < 2 ^ 64) :
    (ring.add (slotOf i) cost).Counts lo (history ++ [(i, cost)]) := by
  have js : ∀ slot, (ring.add (slotOf i) cost slot).index = (ring slot).index := by
    intro slot
    unfold Ring.add
    by_cases eq : slot = slotOf i
    · subst eq
      rw [update_self]
    · rw [update_of_ne eq]
  constructor
  · intro e mem over_
    rw [js]
    rcases mem_append.mp mem with old | new
    · exact counts.placed e old over_
    · rw [mem_singleton.mp new]
      exact here
  · intro slot
    simp only [js]
    rw [costWhere_append, costWhere_singleton, ← counts.counts slot]
    unfold Ring.add
    by_cases eq : slot = slotOf i
    · subst eq
      rw [update_self, if_pos ⟨above, here.symm, rfl⟩]
      exact addWord_eq fits
    · rw [update_of_ne eq, if_neg fun sub => eq sub.2.2.symm]
      rfl

theorem skip (here : (ring (slotOf i)).index = i) : ring.Counts lo (history ++ [(i, 0)]) := by
  constructor
  · intro e mem above
    rcases mem_append.mp mem with old | new
    · exact counts.placed e old above
    · rw [mem_singleton.mp new]
      exact here
  · intro slot
    rw [costWhere_append, costWhere_singleton, counts.counts slot]
    split <;> rfl

theorem used_le (slot : Fin 16) : (ring slot).used ≤ costWhere history fun i => lo < i := by
  rw [counts.counts slot]
  exact costWhere_mono fun e _ sub => sub.1

theorem sum_used : (∑ slot, (ring slot).used) = costWhere history fun i => lo < i := by
  simp only [counts.counts]
  have placed := counts.placed
  clear counts
  induction history with
  | nil => simp [costWhere_nil]
  | cons e rest ih =>
    have tail := ih (forall_mem_cons.mp placed).2
    have head : (∑ slot, if lo < e.1 ∧ e.1 = (ring slot).index ∧ slotOf e.1 = slot then
        e.2 else 0) = if lo < e.1 then e.2 else 0 := by
      by_cases above : lo < e.1
      · have here := placed e mem_cons_self above
        rw [if_pos above, Finset.sum_eq_single (slotOf e.1)]
        · rw [if_pos ⟨above, here.symm, rfl⟩]
        · intro slot _ other
          exact if_neg fun sub => other sub.2.2.symm
        · intro absent
          exact absurd (Finset.mem_univ _) absent
      · rw [if_neg above]
        exact Finset.sum_eq_zero fun slot _ => if_neg fun sub => above sub.1
    simp only [costWhere_cons, Finset.sum_add_distrib]
    rw [tail, head]

end Ring.Counts

theorem Ring.used_eq (ring : Ring) (fits : ∑ slot, (ring slot).used < 2 ^ 64) :
    ring.used = ∑ slot, (ring slot).used := by
  have tot : ∑ slot, (ring slot).used = ((finRange 16).map fun slot => (ring slot).used).sum := by
    rw [← ofFn_eq_map, sum_ofFn]
  rw [tot] at fits ⊢
  rw [Ring.used, foldl_addWord _ _ (by omega), Nat.zero_add]

end Golib.RateLimit
