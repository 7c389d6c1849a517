import Mathlib.Data.List.Sort
import Mathlib.Data.Prod.Lex

/-! The merge of ascending sources through a queue that holds the first outstanding element of each.

A state of the merge is the queue, whose entries name the source they came from, and what is left of
every source. -/
namespace Golib.Merging

open List

variable {α : Type} [LinearOrder α] {l l' : List α}

def ascending (l : List α) : List α := l.insertionSort (· ≤ ·)

theorem ascending_perm (l : List α) : (ascending l).Perm l := perm_insertionSort _ l

theorem ascending_sorted (l : List α) : (ascending l).Pairwise (· ≤ ·) := pairwise_insertionSort _ l

theorem eq_ascending (sorted : l.Pairwise (· ≤ ·)) (perm : l.Perm l') : l = ascending l' :=
  Perm.eq_of_pairwise (fun _ _ _ _ => le_antisymm) sorted (ascending_sorted l')
    (perm.trans (ascending_perm l').symm)

theorem ascending_eq_of_perm (perm : l.Perm l') : ascending l = ascending l' :=
  eq_ascending (ascending_sorted l) ((ascending_perm l).trans perm)

theorem ascending_cons {a : α} (least : ∀ b ∈ l, a ≤ b) :
    ascending (a :: l) = a :: ascending l := by
  refine (eq_ascending ?_ ((ascending_perm l).cons a)).symm
  rw [pairwise_cons]
  exact ⟨fun b mem => least b ((ascending_perm l).mem_iff.mp mem), ascending_sorted l⟩

abbrev Queue (α : Type) := List (α ×ₗ Nat)

def push (a : α) (source : Nat) (queue : Queue α) : Queue α :=
  queue.orderedInsert (· ≤ ·) (toLex (a, source))

theorem push_perm (a : α) (source : Nat) (q : Queue α) :
    (push a source q).Perm (toLex (a, source) :: q) :=
  perm_orderedInsert _ _ _

/-- The elements that are yet to be given out. -/
def outstanding (queue : Queue α) (rests : List (List α)) : List α :=
  queue.map (fun entry => (ofLex entry).1) ++ rests.flatten

/-- The first `asked` sources have their first element in the queue, unless they have none. -/
structure Ready (asked : Nat) (queue : Queue α) (rests : List (List α)) : Prop where
  sorted : queue.Pairwise (· ≤ ·)
  rests_sorted : ∀ rest ∈ rests, rest.Pairwise (· ≤ ·)
  waiting : ∀ (source : Nat) (rest : List α), source < asked → rests[source]? = some rest →
    ∀ a ∈ rest, ∃ first, toLex (first, source) ∈ queue ∧ first ≤ a

section Steps

variable {rests : List (List α)} {source asked : Nat} {first a : α} {rest : List α} {q : Queue α}

theorem Ready.head_le {q : List (Lex (α × Nat))}
    (ready : Ready rests.length (toLex (a, source) :: q) rests) :
    ∀ b ∈ outstanding q rests, a ≤ b := by
  have inQueue : ∀ b i, toLex (b, i) ∈ toLex (a, source) :: q → a ≤ b := by
    intro b i mem
    obtain eq | later := mem_cons.mp mem
    · exact le_of_eq (congrArg (fun e => (ofLex e).1) eq).symm
    · have le := (pairwise_cons.mp ready.sorted).1 _ later
      obtain less | ⟨eq, -⟩ := Prod.Lex.toLex_le_toLex.mp le
      · exact less.le
      · exact le_of_eq eq
  intro b mem
  obtain queued | inRest := mem_append.mp mem
  · obtain ⟨e, found, rfl⟩ := mem_map.mp queued
    exact inQueue _ (ofLex e).2 (mem_cons_of_mem _ found)
  · obtain ⟨rest, found, sub⟩ := mem_flatten.mp inRest
    obtain ⟨i, bound, rfl⟩ := getElem_of_mem found
    obtain ⟨first, queued, le⟩ := ready.waiting i _ bound (getElem?_eq_getElem bound) b sub
    exact (inQueue first i queued).trans le

theorem Ready.ascending_eq {queue : List (Lex (α × Nat))}
    (ready : Ready rests.length (toLex (a, source) :: queue) rests) :
    ascending (outstanding (toLex (a, source) :: queue) rests) =
      a :: ascending (outstanding queue rests) :=
  ascending_cons ready.head_le

theorem Ready.finished {q : List (Lex (α × Nat))}
    (ready : Ready asked (toLex (a, source) :: q) rests)
    (empty : ∀ rest, rests[source]? = some rest → rest = []) : Ready asked q rests := by
  refine ⟨(pairwise_cons.mp ready.sorted).2, ready.rests_sorted, ?_⟩
  intro i rest sub found b mem
  obtain ⟨first, queued, le⟩ := ready.waiting i rest sub found b mem
  obtain eq | later := mem_cons.mp queued
  · have other : i = source := congrArg (fun e => (ofLex e).2) eq
    rw [empty rest (other ▸ found)] at mem
    exact absurd mem not_mem_nil
  · exact ⟨first, later, le⟩

theorem rests_sorted_set (sorted : ∀ rest ∈ rests, rest.Pairwise (· ≤ ·))
    (found : rests[source]? = some (first :: rest)) :
    ∀ rest' ∈ rests.set source rest, rest'.Pairwise (· ≤ ·) := by
  intro rest' mem
  obtain sub | rfl := mem_or_eq_of_mem_set mem
  · exact sorted rest' sub
  · exact (pairwise_cons.mp (sorted _ (mem_of_getElem? found))).2

/-- The next element of a source enters the queue, in the place of the one given out or as the first
of that source. -/
theorem Ready.advance {asked' : Nat}
    (sorted : q.Pairwise (· ≤ ·)) (restsSorted : ∀ rest ∈ rests, rest.Pairwise (· ≤ ·))
    (waiting : ∀ (i : Nat) (rest : List α), i < asked' → i ≠ source →
      rests[i]? = some rest → ∀ a ∈ rest, ∃ first, toLex (first, i) ∈ q ∧ first ≤ a)
    (found : rests[source]? = some (first :: rest)) :
    Ready asked' (push first source q) (rests.set source rest) := by
  refine ⟨Pairwise.orderedInsert _ _ sorted, rests_sorted_set restsSorted found, ?_⟩
  intro i rest' sub place b mem
  by_cases eq : i = source
  · subst eq
    obtain ⟨bound, -⟩ := List.getElem?_eq_some_iff.mp found
    rw [List.getElem?_set_self bound, Option.some.injEq] at place
    subst place
    have headLe := (pairwise_cons.mp (restsSorted _ (mem_of_getElem? found))).1
    exact ⟨first, (push_perm ..).mem_iff.mpr mem_cons_self, headLe b mem⟩
  · rw [getElem?_set_ne (Ne.symm eq)] at place
    obtain ⟨other, queued, le⟩ := waiting i rest' sub eq place b mem
    exact ⟨other, (push_perm ..).mem_iff.mpr (mem_cons_of_mem _ queued), le⟩

theorem Ready.replaced {q : List (Lex (α × Nat))}
    (ready : Ready asked (toLex (a, source) :: q) rests)
    (found : rests[source]? = some (first :: rest)) :
    Ready asked (push first source q) (rests.set source rest) := by
  refine Ready.advance (pairwise_cons.mp ready.sorted).2 ready.rests_sorted ?_ found
  intro i rest sub other place b mem
  obtain ⟨first, queued, le⟩ := ready.waiting i rest sub place b mem
  obtain eq | later := mem_cons.mp queued
  · exact absurd (congrArg (fun e => (ofLex e).2) eq) other
  · exact ⟨first, later, le⟩

theorem Ready.asked_more (ready : Ready source q rests)
    (found : rests[source]? = some (first :: rest)) :
    Ready (source + 1) (push first source q) (rests.set source rest) := by
  refine Ready.advance ready.sorted ready.rests_sorted ?_ found
  intro i rest sub other place
  exact ready.waiting i rest (by omega) place

theorem Ready.asked_empty (ready : Ready source q rests) (empty : rests[source]? = some []) :
    Ready (source + 1) q rests := by
  refine ⟨ready.sorted, ready.rests_sorted, ?_⟩
  intro i rest sub place b mem
  by_cases eq : i = source
  · rw [eq, empty, Option.some.injEq] at place
    rw [← place] at mem
    exact absurd mem not_mem_nil
  · exact ready.waiting i rest (by omega) place b mem

omit [LinearOrder α] in
theorem flatten_set_perm (found : rests[source]? = some (first :: rest)) :
    (first :: (rests.set source rest).flatten).Perm rests.flatten := by
  obtain ⟨bound, place⟩ := List.getElem?_eq_some_iff.mp found
  rw [List.set_eq_take_append_cons_drop, if_pos bound]
  have whole : rests.take source ++ (first :: rest) :: rests.drop (source + 1) = rests := by
    rw [← place, getElem_cons_drop, take_append_drop]
  nth_rewrite 3 [← whole]
  simp only [flatten_append, flatten_cons, cons_append]
  exact perm_middle.symm

theorem outstanding_push (found : rests[source]? = some (first :: rest)) :
    (outstanding (push first source q) (rests.set source rest)).Perm (outstanding q rests) := by
  have queued := (push_perm first source q).map fun e => (ofLex e).1
  unfold outstanding
  refine (queued.append_right _).trans ?_
  refine perm_middle.symm.trans ?_
  exact (flatten_set_perm found).append_left _

end Steps

end Golib.Merging
