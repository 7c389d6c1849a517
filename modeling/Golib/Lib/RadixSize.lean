import Mathlib.Algebra.BigOperators.Fin
import Golib.Lib.Radix

/-! The number of nodes of a radix trie, and how much an insertion or a deletion changes it. -/
namespace Golib

open Finset Function

theorem sum_finRange_update {k : Nat} (f : Fin k → Nat) (i : Fin k) (n : Nat) :
    ((List.finRange k).map (update f i n)).sum + f i = ((List.finRange k).map f).sum + n := by
  have whole := sum_update_of_mem (mem_univ i) f n
  have split := add_sum_erase univ f (mem_univ i)
  rw [← sdiff_singleton_eq_erase] at split
  rw [← Fin.sum_univ_def, ← Fin.sum_univ_def]
  omega

namespace Radix

variable {k : Nat} {β : Type}

def nodes : Radix k β → Nat
  | nil => 0
  | leaf _ _ => 1
  | ext _ child => child.nodes + 1
  | branch children _ => ((List.finRange k).map fun i => (children i).nodes).sum + 1

theorem nodes_update (kids : Fin k → Radix k β) (i : Fin k) (t : Radix k β) (v value' : Option β) :
    (branch (update kids i t) v).nodes + (kids i).nodes = (branch kids value').nodes + t.nodes := by
  have counted : (fun j => (update kids i t j).nodes) =
      update (fun j => (kids j).nodes) i t.nodes :=
    funext (apply_update (fun _ s => s.nodes) kids i t)
  have total := sum_finRange_update (fun j => (kids j).nodes) i t.nodes
  rw [nodes, nodes, counted]
  omega

theorem nodes_empty (v : Option β) : (branch (empty : Fin k → Radix k β) v).nodes = 1 := by
  simp [nodes, empty]

theorem nodes_single (i : Fin k) (t : Radix k β) (v : Option β) :
    (branch (update empty i t) v).nodes = t.nodes + 1 := by
  have tot := nodes_update empty i t v none
  rw [nodes_empty] at tot
  have vacant : ((empty : Fin k → Radix k β) i).nodes = 0 := rfl
  omega

theorem nodes_grow (p : List (Fin k)) (t : Radix k β) : (grow p t).nodes ≤ t.nodes + 1 := by
  cases t with
  | nil | leaf | ext => simp [grow, nodes]
  | branch kids v =>
    rw [grow]
    split
    · omega
    · rw [nodes]

theorem nodes_seat (kids : Fin k → Radix k β) (value value' : Option β) (v : β)
    (rest : List (Fin k)) : (seat kids value v rest).nodes ≤ (branch kids value').nodes + 1 := by
  cases rest with
  | nil => simp [seat, nodes]
  | cons i rest =>
    have total := nodes_update kids i (leaf rest v) value value'
    rw [seat]
    simp only [nodes] at total ⊢
    omega

theorem nodes_splitLeaf (rest : List (Fin k)) (value : β) (rest' : List (Fin k)) (v : β) :
    (splitLeaf rest value rest' v).nodes ≤ 3 := by
  cases rest with
  | nil =>
    have seated := nodes_seat (empty : Fin k → Radix k β) (some value) none v rest'
    rw [nodes_empty] at seated
    rw [splitLeaf]
    omega
  | cons i rest =>
    have seated := nodes_seat (update (empty : Fin k → Radix k β) i (leaf rest value)) none
      none v rest'
    rw [nodes_single] at seated
    exact seated

theorem nodes_splitExt (rest : List (Fin k)) (c : Radix k β) (rest' : List (Fin k)) (v : β) :
    (splitExt rest c rest' v).nodes ≤ c.nodes + 3 := by
  cases rest with
  | nil => exact Nat.le_add_right _ _
  | cons i rest =>
    have seated := nodes_seat (update (empty : Fin k → Radix k β) i (grow rest c)) none
      none v rest'
    rw [nodes_single] at seated
    have grown := nodes_grow rest c
    rw [splitExt]
    omega

theorem nodes_insert (t : Radix k β) (key : List (Fin k)) (v : β) :
    (t.insert key v).nodes ≤ t.nodes + 3 := by
  induction t generalizing key with
  | nil => simp [insert, nodes]
  | leaf p value =>
    rw [insert]
    split
    · simp [nodes]
    · have grown := nodes_grow (key.take (commonLength p key))
        (splitLeaf (p.drop (commonLength p key)) value (key.drop (commonLength p key)) v)
      have split := nodes_splitLeaf (p.drop (commonLength p key)) value
        (key.drop (commonLength p key)) v
      dsimp only
      rw [nodes]
      omega
  | ext p c ih =>
    simp only [insert]
    split
    · have grown := nodes_grow p (c.insert (key.drop (commonLength p key)) v)
      have below := ih (key.drop (commonLength p key))
      rw [nodes]
      omega
    · have grown := nodes_grow (key.take (commonLength p key))
        (splitExt (p.drop (commonLength p key)) c (key.drop (commonLength p key)) v)
      have split := nodes_splitExt (p.drop (commonLength p key)) c
        (key.drop (commonLength p key)) v
      rw [nodes]
      omega
  | branch kids value ih =>
    cases key with
    | nil => simp [insert, nodes]
    | cons i key =>
      have total := nodes_update kids i ((kids i).insert key v) value value
      have below := ih i key
      rw [insert]
      omega

theorem nodes_compact (kids : Fin k → Radix k β) (v : Option β) :
    (compact kids v).nodes ≤ (branch kids v).nodes := by
  unfold compact
  split
  · exact Nat.le_add_left _ _
  · exact Nat.zero_le _
  · rename_i i _
    have grown := nodes_grow [i] (kids i)
    have rest := nodes_update kids i nil none none
    simp only [nodes] at rest ⊢
    omega
  · exact Nat.le_refl _

theorem nodes_delete {t t' : Radix k β} {key : List (Fin k)} (deleted : t.delete key = some t') :
    t'.nodes ≤ t.nodes := by
  induction t generalizing key t' with
  | nil => cases deleted
  | leaf p v =>
    rw [delete] at deleted
    split at deleted
    · cases deleted
      exact Nat.zero_le _
    · cases deleted
  | ext p c ih =>
    rw [delete] at deleted
    split at deleted
    · obtain ⟨s, below, rfl⟩ := Option.map_eq_some_iff.mp deleted
      exact le_trans (nodes_grow p s) (Nat.succ_le_succ (ih below))
    · cases deleted
  | branch kids v ih =>
    cases key with
    | nil =>
      obtain ⟨_, -, rfl⟩ := Option.map_eq_some_iff.mp deleted
      exact nodes_compact kids none
    | cons i key =>
      obtain ⟨s, below, rfl⟩ := Option.map_eq_some_iff.mp deleted
      have fewer := nodes_compact (update kids i s) v
      have total := nodes_update kids i s v v
      have less := ih i below
      omega

end Radix

end Golib
