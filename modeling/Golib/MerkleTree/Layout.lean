import Golib.MerkleTree.Builder

/-! The post-order node array of a tree, and the stacks of node indexes that the
construction loops keep while they write it. -/
namespace Golib.MerkleTree

open HashTree List

variable {D : Type} {added : List (SnapshotNode D)} {base : Nat} {l r t : DigestTree D}
  {ts : List (DigestTree D)}

def nodeCount (t : DigestTree D) : Nat := 2 * t.size - 1

theorem nodeCount_pos (t : DigestTree D) : 0 < nodeCount t := by
  have := t.size_pos
  unfold nodeCount
  omega

theorem nodeCount_node (l r : DigestTree D) :
    nodeCount (.node l r) = nodeCount l + nodeCount r + 1 := by
  have := l.size_pos
  have := r.size_pos
  simp only [nodeCount, DigestTree.size]
  omega

/-- The last entry of a tree laid out from `base`: its root. -/
def rootEntry (H : Hasher D) (base : Nat) (t : DigestTree D) : SnapshotNode D :=
  match t with
  | .leaf d => ⟨d, 1, noSnapshotNode, noSnapshotNode⟩
  | .node l r => ⟨H.hashBranch (l.digest H.hashBranch) (r.digest H.hashBranch),
      UInt64.ofNat (l.size + r.size), UInt64.ofNat (base + nodeCount l - 1),
      UInt64.ofNat (base + nodeCount l + nodeCount r - 1)⟩

/-- Left subtree, right subtree, root; child links are indexes into the whole array. -/
def layout (H : Hasher D) (base : Nat) (t : DigestTree D) : List (SnapshotNode D) :=
  match t with
  | .leaf _ => [rootEntry H base t]
  | .node l r => layout H base l ++ layout H (base + nodeCount l) r ++ [rootEntry H base t]

variable (H : Hasher D)

@[simp] theorem rootEntry_digest (base : Nat) (t : DigestTree D) :
    (rootEntry H base t).digest = t.digest H.hashBranch := by
  cases t <;> rfl

@[simp] theorem rootEntry_size (base : Nat) (t : DigestTree D) :
    (rootEntry H base t).size = UInt64.ofNat t.size := by
  cases t <;> rfl

@[simp] theorem length_layout (base : Nat) (t : DigestTree D) :
    (layout H base t).length = nodeCount t := by
  induction t generalizing base with
  | leaf d => rfl
  | node l r hl hr =>
    simp only [layout, length_append, length_singleton, hl, hr, nodeCount_node]

theorem layout_eq (base : Nat) (t : DigestTree D) :
    ∃ initial, layout H base t = initial ++ [rootEntry H base t] ∧
      initial.length = nodeCount t - 1 := by
  cases t with
  | leaf d => exact ⟨[], rfl, rfl⟩
  | node l r =>
    refine ⟨layout H base l ++ layout H (base + nodeCount l) r, rfl, ?_⟩
    simp [nodeCount_node]

/-- The array `nodes` holds the tree laid out from `base`. -/
def Holds (nodes : List (SnapshotNode D)) (base : Nat) (t : DigestTree D) : Prop :=
  ∃ before after, nodes = before ++ layout H base t ++ after ∧ before.length = base

variable {H}

variable {ns : List (SnapshotNode D)}

theorem Holds.root (h : Holds H ns base t) :
    ns[base + nodeCount t - 1]? = some (rootEntry H base t) := by
  obtain ⟨before, after, rfl, hb⟩ := h
  obtain ⟨initial, hl, hi⟩ := layout_eq H base t
  have pos := nodeCount_pos t
  rw [hl, append_assoc, getElem?_append_right (by omega), append_assoc,
    getElem?_append_right (by omega), show base + nodeCount t - 1 - before.length -
      initial.length = 0 by omega]
  rfl

theorem Holds.left (h : Holds H ns base (.node l r)) : Holds H ns base l := by
  obtain ⟨before, after, rfl, hb⟩ := h
  exact ⟨before, layout H (base + nodeCount l) r ++ [rootEntry H base (.node l r)] ++ after,
    by simp [layout], hb⟩

theorem Holds.right (h : Holds H ns base (.node l r)) : Holds H ns (base + nodeCount l) r := by
  obtain ⟨before, after, rfl, hb⟩ := h
  exact ⟨before ++ layout H base l, [rootEntry H base (.node l r)] ++ after,
    by simp [layout], by simp [hb]⟩

theorem Holds.bound (h : Holds H ns base t) : base + nodeCount t ≤ ns.length := by
  obtain ⟨before, after, rfl, hb⟩ := h
  simp only [length_append, length_layout]
  omega

theorem holds_layout (t : DigestTree D) : Holds H (layout H 0 t) 0 t := ⟨[], [], by simp, rfl⟩

theorem Holds.read (h : Holds H ns base t) (fits : ns.length ≤ 2 ^ 64) :
    (readNode ns (UInt64.ofNat (base + nodeCount t - 1))).outcome = .ok (rootEntry H base t) := by
  have bound := h.bound
  rw [readNode, toNat_ofNat_of_lt (by omega), h.root]
  rfl

variable (H) {old : List (SnapshotNode D)}

/-- The trees of a stack laid out one after the other, bottom first. -/
def stackLayout : List (DigestTree D) → List (SnapshotNode D)
  | [] => []
  | t :: ts => stackLayout ts ++ layout H (stackLayout ts).length t

def stackIndexes : List (DigestTree D) → List UInt64
  | [] => []
  | t :: ts => UInt64.ofNat ((stackLayout H ts).length + nodeCount t - 1) :: stackIndexes ts

theorem length_stackLayout_le (ts : List (DigestTree D)) :
    (stackLayout H ts).length ≤ 2 * (stackLeaves ts).length := by
  induction ts with
  | nil => exact Nat.le_refl _
  | cons t ts ih =>
    simp only [stackLayout, stackLeaves, length_append, length_layout, DigestTree.length_leaves,
      nodeCount]
    omega

@[simp] theorem length_stackIndexes (ts : List (DigestTree D)) :
    (stackIndexes H ts).length = ts.length := by
  induction ts with
  | nil => rfl
  | cons t ts ih => simp [stackIndexes, ih]

/-- The nodes written after `existing` and the index stack stand for the trees `ts`. -/
structure NodeStack (existing added : List (SnapshotNode D)) (stack : List UInt64)
    (ts : List (DigestTree D)) : Prop where
  nodes : existing ++ added = stackLayout H ts
  indexes : stack = stackIndexes H ts
  fits : 2 * (stackLeaves ts).length ≤ 2 ^ 64

theorem nodeStack_sameLength (old : List (SnapshotNode D)) : SameLength (NodeStack H old) := by
  intro added stack ts h
  rw [h.indexes, length_stackIndexes]

theorem stackLayout_join (l r : DigestTree D) (ts : List (DigestTree D)) :
    stackLayout H (.node l r :: ts) = stackLayout H (r :: l :: ts) ++
      [joinNodes H (UInt64.ofNat ((stackLayout H ts).length + nodeCount l - 1))
        (UInt64.ofNat ((stackLayout H ts).length + nodeCount l + nodeCount r - 1))
        (rootEntry H (stackLayout H ts).length l)
        (rootEntry H ((stackLayout H ts).length + nodeCount l) r)] := by
  have joined : rootEntry H (stackLayout H ts).length (.node l r) =
      joinNodes H (UInt64.ofNat ((stackLayout H ts).length + nodeCount l - 1))
        (UInt64.ofNat ((stackLayout H ts).length + nodeCount l + nodeCount r - 1))
        (rootEntry H (stackLayout H ts).length l)
        (rootEntry H ((stackLayout H ts).length + nodeCount l) r) := by
    simp only [joinNodes, rootEntry_digest, rootEntry_size, ← UInt64.ofNat_add]
    rfl
  simp [stackLayout, layout, joined]

theorem holds_second (l r : DigestTree D) (ts : List (DigestTree D)) :
    Holds H (stackLayout H (r :: l :: ts)) (stackLayout H ts).length l :=
  ⟨stackLayout H ts, layout H (stackLayout H (l :: ts)).length r, by simp [stackLayout], rfl⟩

theorem holds_top (t : DigestTree D) (ts : List (DigestTree D)) :
    Holds H (stackLayout H (t :: ts)) (stackLayout H ts).length t :=
  ⟨stackLayout H ts, [], by simp [stackLayout], rfl⟩

theorem NodeStack.merged {b a : UInt64} {as : List UInt64}
    (h : NodeStack H old added (b :: a :: as) (r :: l :: ts)) :
    (newSnapshotBranch H (old ++ added) a b).outcome =
        .ok (joinNodes H a b (rootEntry H (stackLayout H ts).length l)
          (rootEntry H ((stackLayout H ts).length + nodeCount l) r)) ∧
      NodeStack H old
        (added ++ [joinNodes H a b (rootEntry H (stackLayout H ts).length l)
          (rootEntry H ((stackLayout H ts).length + nodeCount l) r)])
        (UInt64.ofNat (old ++ added).length :: as) (.node l r :: ts) := by
  obtain ⟨ns, js, fits⟩ := h
  have small := length_stackLayout_le H (r :: l :: ts)
  have second := (holds_second H l r ts).read (by omega)
  have top := (holds_top H r (l :: ts)).read (by omega)
  obtain ⟨rfl, rfl, rfl⟩ := js
  have base : (stackLayout H (l :: ts)).length = (stackLayout H ts).length + nodeCount l := by
    simp [stackLayout]
  constructor
  · rw [newSnapshotBranch, ns]
    refine Polled.bind_ok.mpr ⟨_, second, Polled.bind_ok.mpr ⟨_, top, ?_⟩⟩
    rw [base]
    rfl
  · refine ⟨?_, ?_, ?_⟩
    · rw [← append_assoc, ns, stackLayout_join, base]
    · simp only [stackIndexes, cons.injEq, and_true]
      have tot : (old ++ added).length = (stackLayout H ts).length + nodeCount (.node l r) - 1 := by
        rw [ns, nodeCount_node]
        simp only [stackLayout, length_append, length_layout]
        omega
      rw [tot]
    · simpa [stackLeaves, DigestTree.leaves, Nat.add_assoc] using fits

theorem NodeStack.pushed {stack : List UInt64} (h : NodeStack H old added stack ts) (d : D)
    (fits : 2 * ((stackLeaves ts).length + 1) ≤ 2 ^ 64) :
    NodeStack H old (added ++ [⟨d, 1, noSnapshotNode, noSnapshotNode⟩])
      (UInt64.ofNat (old ++ added).length :: stack) (.leaf d :: ts) := by
  refine ⟨?_, ?_, ?_⟩
  · rw [← append_assoc, h.nodes]
    rfl
  · rw [stackIndexes, h.nodes, h.indexes]
    simp [nodeCount, DigestTree.size]
  · simpa [stackLeaves, DigestTree.leaves] using fits

end Golib.MerkleTree
