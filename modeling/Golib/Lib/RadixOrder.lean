import Mathlib.Data.List.Lex
import Golib.Lib.Radix

/-! The entries of a radix trie in the order of their keys. -/
namespace Golib.Radix

open List

variable {k : Nat} {β : Type}

/-- All entries: a branch's own value first, then those of its children in order. -/
def entries : Radix k β → List (List (Fin k) × β)
  | nil => []
  | leaf path value => [(path, value)]
  | ext path child => (entries child).map fun entry => (path ++ entry.1, entry.2)
  | branch children value =>
    (value.map fun v => ([], v)).toList ++
      (finRange k).flatMap fun i => (entries (children i)).map fun entry => (i :: entry.1, entry.2)

theorem mem_entries {key : List (Fin k)} {v : β}
    {t : Radix k β} : (key, v) ∈ t.entries ↔ t.lookup key = some v := by
  induction t generalizing key with
  | nil => simp [entries]
  | leaf p value =>
    rw [entries, mem_singleton, lookup_leaf, Prod.mk.injEq]
    by_cases eq : p = key
    · simp [eq, eq_comm]
    · simp [eq, Ne.symm eq]
  | ext p c ih =>
    rw [entries, mem_map]
    constructor
    · rintro ⟨⟨rest, w⟩, mem, eq⟩
      cases eq
      rw [lookup_ext_append]
      exact ih.mp mem
    · intro found
      by_cases front : p <+: key
      · obtain ⟨rest, rfl⟩ := front
        rw [lookup_ext_append] at found
        exact ⟨(rest, v), ih.mpr found, rfl⟩
      · rw [lookup_ext_of_not c front] at found
        cases found
  | branch kids value ih =>
    rw [entries, mem_append, mem_flatMap]
    cases key with
    | nil =>
      constructor
      · rintro (own | ⟨i, -, below⟩)
        · simpa [eq_comm] using own
        · simp at below
      · rintro rfl
        exact Or.inl (by simp)
    | cons i rest =>
      rw [lookup_branch_cons, ← ih i]
      constructor
      · rintro (own | ⟨j, -, below⟩)
        · simp at own
        · obtain ⟨⟨rest', w⟩, mem, eq⟩ := mem_map.mp below
          cases eq
          exact mem
      · intro mem
        exact Or.inr ⟨i, mem_finRange i, mem_map.mpr ⟨(rest, v), mem, rfl⟩⟩

theorem entries_sorted (t : Radix k β) : t.entries.Pairwise fun a b => a.1 < b.1 := by
  induction t with
  | nil => exact Pairwise.nil
  | leaf p value => exact pairwise_singleton _ _
  | ext p c ih =>
    rw [entries, pairwise_map]
    exact ih.imp fun less => append_left_lt less
  | branch kids value ih =>
    rw [entries, pairwise_append]
    refine ⟨?_, ?_, ?_⟩
    · cases value <;> simp
    · rw [pairwise_flatMap]
      refine ⟨fun i _ => ?_, (pairwise_lt_finRange k).imp fun less a mem b mem' => ?_⟩
      · rw [pairwise_map]
        exact (ih i).imp fun less => cons_lt_cons_iff.mpr (Or.inr ⟨rfl, less⟩)
      · obtain ⟨e, -, rfl⟩ := mem_map.mp mem
        obtain ⟨entry', -, rfl⟩ := mem_map.mp mem'
        exact cons_lt_cons_iff.mpr (Or.inl less)
    · intro a own b below
      obtain ⟨i, -, mem⟩ := mem_flatMap.mp below
      obtain ⟨e, -, rfl⟩ := mem_map.mp mem
      cases value with
      | none => simp at own
      | some v =>
        have first : a = ([], v) := by simpa using own
        rw [first]
        exact nil_lt_cons _ _

end Golib.Radix
