import Mathlib.Data.List.Basic
import Golib.Lib.Polled
import Golib.Lib.Words

/-! Binary hash trees whose left part is the largest power of two strictly below
the size, over any digests and any join, and the stack of complete trees with
which such a tree is built one leaf at a time. -/
namespace Golib.HashTree

open List Nat

variable {n : Nat}

universe u

inductive DigestTree (D : Type u) where
  | leaf (d : D)
  | node (left right : DigestTree D)

variable {D : Type u} {k : Nat} {t : DigestTree D}

namespace DigestTree

def size : DigestTree D → Nat
  | leaf _ => 1
  | node l r => l.size + r.size

def leaves : DigestTree D → List D
  | leaf d => [d]
  | node l r => l.leaves ++ r.leaves

def digest (join : D → D → D) : DigestTree D → D
  | leaf d => d
  | node l r => join (l.digest join) (r.digest join)

theorem size_pos (t : DigestTree D) : 0 < t.size := by
  induction t with
  | leaf d => exact Nat.one_pos
  | node l r hl hr => simp only [size]; omega

@[simp] theorem length_leaves (t : DigestTree D) : t.leaves.length = t.size := by
  induction t with
  | leaf d => rfl
  | node l r hl hr => simp only [leaves, size, length_append, hl, hr]

end DigestTree

/-- The largest power of two strictly below `n`, for `n` at least two. -/
def split (n : Nat) : Nat := 2 ^ (n - 1).log2

theorem split_eq (above : 2 ^ k < n) (below : n ≤ 2 ^ (k + 1)) : split n = 2 ^ k := by
  have ne : n - 1 ≠ 0 := by omega
  have lower : k ≤ (n - 1).log2 := (le_log2 ne).mpr (by omega)
  have upper : (n - 1).log2 < k + 1 := (log2_lt ne).mpr (by omega)
  rw [split, show (n - 1).log2 = k by omega]

theorem split_bounds (large : 2 ≤ n) : ∃ k, split n = 2 ^ k ∧ 2 ^ k < n ∧ n ≤ 2 ^ (k + 1) := by
  have ne : n - 1 ≠ 0 := by omega
  have lower := log2_self_le ne
  have upper := lt_log2_self (n := n - 1)
  exact ⟨(n - 1).log2, rfl, by omega, by omega⟩

theorem split_pos (n : Nat) : 0 < split n := Nat.two_pow_pos _

theorem split_lt (large : 2 ≤ n) : split n < n := by
  obtain ⟨k, hk, below, _⟩ := split_bounds large
  omega

theorem split_add {m : Nat} (pos : 0 < m) (small : m ≤ 2 ^ k) : split (2 ^ k + m) = 2 ^ k :=
  split_eq (by omega) (by rw [pow_succ]; omega)

/-- The tree hash over leaf digests, by recursion at the split point. -/
def treeHash (join : D → D → D) (empty : D) (ds : List D) : D :=
  match ds with
  | [] => empty
  | [d] => d
  | d :: e :: rest =>
    let ds := d :: e :: rest
    join (treeHash join empty (ds.take (split ds.length)))
      (treeHash join empty (ds.drop (split ds.length)))
termination_by ds.length
decreasing_by
  · have := split_lt (n := rest.length + 1 + 1) (by omega)
    simp only [length_take, length_cons]
    omega
  · have := split_pos (rest.length + 1 + 1)
    simp only [length_drop, length_cons]
    omega

section Hash

variable (join : D → D → D) (empty : D) {ds : List D}

@[simp] theorem treeHash_nil : treeHash join empty [] = empty := by
  rw [treeHash]

@[simp] theorem treeHash_singleton (d : D) : treeHash join empty [d] = d := by
  rw [treeHash]

theorem treeHash_split (large : 2 ≤ ds.length) :
    treeHash join empty ds = join (treeHash join empty (ds.take (split ds.length)))
      (treeHash join empty (ds.drop (split ds.length))) := by
  match ds, large with
  | d :: e :: rest, _ => rw [treeHash]

theorem treeHash_two_pow (above : 2 ^ k < ds.length) (below : ds.length ≤ 2 ^ (k + 1)) :
    treeHash join empty ds =
      join (treeHash join empty (ds.take (2 ^ k))) (treeHash join empty (ds.drop (2 ^ k))) := by
  rw [treeHash_split join empty (by omega), split_eq above below]

@[simp] theorem treeHash_pair (d e : D) : treeHash join empty [d, e] = join d e := by
  have first : [d, e].take (2 ^ 0) = [d] := rfl
  have second : [d, e].drop (2 ^ 0) = [e] := rfl
  rw [treeHash_two_pow join empty (k := 0) (by simp) (by simp), first, second, treeHash_singleton,
    treeHash_singleton]

theorem treeHash_injective {es : List D} (inj : ∀ a b c d, join a b = join c d → a = c ∧ b = d)
    (eq : ds.length = es.length) (equal : treeHash join empty ds = treeHash join empty es) :
    ds = es := by
  induction n : ds.length using Nat.strongRecOn generalizing ds es with
  | ind n ih =>
    by_cases large : 2 ≤ ds.length
    · have sub := split_lt large
      have pos := split_pos ds.length
      have large' : 2 ≤ es.length := eq ▸ large
      rw [treeHash_split join empty large, treeHash_split join empty large', ← eq] at equal
      obtain ⟨left, right⟩ := inj _ _ _ _ equal
      have hl := ih (split ds.length) (by omega) (by simp only [length_take]; omega) left
        (by simp only [length_take]; omega)
      have hr := ih (ds.length - split ds.length) (by omega)
        (by simp only [length_drop]; omega) right (by simp only [length_drop])
      rw [← take_append_drop (split ds.length) ds, hl, hr, take_append_drop]
    · match ds, es, eq, large with
      | [], [], _, _ => rfl
      | [d], [e], _, _ => simpa using equal
      | _ :: _ :: _, _, _, large => simp at large

end Hash

/-- The shape the split point prescribes. -/
def Balanced : DigestTree D → Prop
  | .leaf _ => True
  | .node l r => l.size = split (l.size + r.size) ∧ Balanced l ∧ Balanced r

theorem Balanced.halves {l r : DigestTree D} (bal : Balanced (.node l r))
    (small : l.size + r.size ≤ 2 ^ (n + 1)) : l.size ≤ 2 ^ n ∧ r.size ≤ 2 ^ n := by
  have lpos := l.size_pos
  have rpos := r.size_pos
  obtain ⟨k, cut, above, below⟩ := split_bounds (n := l.size + r.size) (by omega)
  have left : l.size = 2 ^ k := bal.1.trans cut
  have e : k < n + 1 := (Nat.pow_lt_pow_iff_right (by omega)).mp (by omega : 2 ^ k < 2 ^ (n + 1))
  have monotone : 2 ^ k ≤ 2 ^ n := Nat.pow_le_pow_right (by omega) (by omega)
  omega

theorem exists_balanced (ds : List D) (nonempty : 0 < ds.length) :
    ∃ t, Balanced t ∧ t.leaves = ds := by
  induction n : ds.length using Nat.strongRecOn generalizing ds with
  | ind n ih =>
    by_cases large : 2 ≤ ds.length
    · have sub := split_lt large
      have pos := split_pos ds.length
      have lengthL : (ds.take (split ds.length)).length = split ds.length := by
        rw [length_take]
        omega
      have lengthR : (ds.drop (split ds.length)).length = ds.length - split ds.length := length_drop
      obtain ⟨l, balancedL, left⟩ := ih _ (by omega) _ (by omega) lengthL
      obtain ⟨r, balancedR, right⟩ := ih _ (by omega) _ (by omega) lengthR
      refine ⟨.node l r, ⟨?_, balancedL, balancedR⟩, ?_⟩
      · rw [← l.length_leaves, ← r.length_leaves, left, right, lengthL, lengthR,
          Nat.add_sub_cancel' (by omega)]
      · rw [DigestTree.leaves, left, right, take_append_drop]
    · obtain ⟨d, rfl⟩ := length_eq_one_iff.mp (show ds.length = 1 by omega)
      exact ⟨.leaf d, trivial, rfl⟩

theorem treeHash_leaves (join : D → D → D) (empty : D) (shape : Balanced t) :
    treeHash join empty t.leaves = t.digest join := by
  induction t with
  | leaf d => simp [DigestTree.leaves, DigestTree.digest]
  | node l r hl hr =>
    obtain ⟨cut, balancedL, balancedR⟩ := shape
    have large : 2 ≤ (DigestTree.leaves (.node l r)).length := by
      have := l.size_pos
      have := r.size_pos
      simp only [DigestTree.length_leaves, DigestTree.size]
      omega
    have point : split (DigestTree.leaves (.node l r)).length = l.leaves.length := by
      rw [DigestTree.length_leaves, DigestTree.length_leaves, DigestTree.size, ← cut]
    rw [treeHash_split join empty large, point]
    simp only [DigestTree.leaves, take_left, drop_left, hl balancedL, hr balancedR,
      DigestTree.digest]

theorem balanced_unique {u : DigestTree D} (left : Balanced t) (right : Balanced u)
    (eq : t.leaves = u.leaves) : t = u := by
  have sizes : t.size = u.size := by rw [← DigestTree.length_leaves, eq, DigestTree.length_leaves]
  induction t generalizing u with
  | leaf d =>
    cases u with
    | leaf e => simpa [DigestTree.leaves] using eq
    | node l r =>
      have := l.size_pos
      have := r.size_pos
      simp only [DigestTree.size] at sizes
      omega
  | node l r hl hr =>
    cases u with
    | leaf e =>
      have := l.size_pos
      have := r.size_pos
      simp only [DigestTree.size] at sizes
      omega
    | node l' r' =>
      have cut : l.leaves.length = l'.leaves.length := by
        rw [DigestTree.length_leaves, DigestTree.length_leaves, left.1, right.1]
        exact congrArg split sizes
      obtain ⟨ls, rs⟩ := append_inj eq cut
      have lsize : l.size = l'.size := by simpa using cut
      have rsize : r.size = r'.size := by simp only [DigestTree.size] at sizes; omega
      rw [hl left.2.1 right.2.1 ls lsize, hr left.2.2 right.2.2 rs rsize]

end Golib.HashTree
