import Golib.MerkleTree.SnapshotEncoding
import Golib.MerkleTree.InclusionProofs

/-! The structural check of a persisted snapshot. Every entry on its stack stands for a
subtree at a known place of the array, whatever the array holds: a node of size `n` that
starts at `start` has its root at `start + 2 * n - 2`. From that alone no read is out of
range and the walk ends; if it succeeds, the array is the layout of a balanced tree. -/
namespace Golib.MerkleTree

open HashTree Polled DigestTree List

variable {D : Type} {l r : HashTree.DigestTree D} {ns : List (SnapshotNode D)}

section Arrays

variable {H : Hasher D} {t : DigestTree D} {base : Nat}

theorem holds_iff :
    Holds H ns base t ↔ base ≤ ns.length ∧ (ns.drop base).take (nodeCount t) = layout H base t := by
  constructor
  · rintro ⟨before, after, rfl, rfl⟩
    refine ⟨by simp, ?_⟩
    rw [append_assoc, drop_left, take_left' (length_layout ..)]
  · rintro ⟨sub, eq⟩
    refine ⟨ns.take base, ns.drop (base + nodeCount t), ?_, ?_⟩
    · rw [← eq, ← take_add, take_append_drop]
    · rw [length_take]
      omega

theorem take_one_drop {i : Nat} {α : Type} {xs : List α} {x : α} (h : xs[i]? = some x) :
    (xs.drop i).take 1 = [x] := by
  obtain ⟨sub, rfl⟩ := List.getElem?_eq_some_iff.mp h
  rw [List.drop_eq_getElem_cons sub]
  rfl

theorem holds_leaf {d : D} (node : ns[base]? = some ⟨d, 1, noSnapshotNode, noSnapshotNode⟩) :
    Holds H ns base (.leaf d) := by
  obtain ⟨sub, _⟩ := List.getElem?_eq_some_iff.mp node
  exact holds_iff.mpr ⟨by omega, take_one_drop node⟩

theorem Holds.join (left : Holds H ns base l) (right : Holds H ns (base + nodeCount l) r)
    (node : ns[base + nodeCount l + nodeCount r]? = some (rootEntry H base (.node l r))) :
    Holds H ns base (.node l r) := by
  obtain ⟨sub, sameL⟩ := holds_iff.mp left
  obtain ⟨_, sameR⟩ := holds_iff.mp right
  refine holds_iff.mpr ⟨sub, ?_⟩
  rw [nodeCount_node, Nat.add_assoc, take_add, take_add, drop_drop, drop_drop, sameL,
    sameR, take_one_drop node, layout, append_assoc]

theorem leaves_layout (word : t.size < 2 ^ 64) :
    (layout H base t).filter (fun node => node.size == 1) =
      t.leaves.map (fun d => ⟨d, 1, noSnapshotNode, noSnapshotNode⟩) := by
  induction t generalizing base with
  | leaf d => simp [layout, rootEntry, leaves]
  | node l r hl hr =>
    have lpos := l.size_pos
    have rpos := r.size_pos
    simp only [size] at word
    have inner : ¬ UInt64.ofNat (node l r).size = 1 := by
      rw [size_eq_one, size, toNat_ofNat_of_lt word]
      omega
    simp [layout, hl (by omega), hr (by omega), inner, leaves]

end Arrays

/-- The subtree that a stack entry stands for: its size, and where it must end. -/
structure Expected (nodes : List (SnapshotNode D)) (p : PendingNode) (n : Nat) : Prop where
  node : ∃ node, nodes[p.index.toNat]? = some node ∧ node.size.toNat = n
  positive : 0 < n
  place : p.index.toNat + 2 = p.start.toNat + 2 * n

/-- The entries that the walk pushes for the children of an entry of the given size. -/
def PendingNode.left (p : PendingNode) (size : UInt64) : PendingNode :=
  ⟨p.index - snapshotNodeCount (size - largestPowerOfTwoBelow size) - 1, p.start, p.depth + 1⟩

def PendingNode.right (p : PendingNode) (size : UInt64) : PendingNode :=
  ⟨p.index - 1, p.start + snapshotNodeCount (largestPowerOfTwoBelow size), p.depth + 1⟩

variable {size : UInt64} {n : Nat}

theorem PendingNode.left_start (p : PendingNode) : (p.left size).start = p.start := rfl

theorem snapshotNodeCount_of_pos (whole : size.toNat = n) (pos : 0 < n)
    (small : 2 * n ≤ 2 ^ 64) : (snapshotNodeCount size).toNat = 2 * n - 1 := by
  rw [← whole] at pos small ⊢
  rw [← snapshotNodeCount_toNat pos small, UInt64.ofNat_toNat]

/-- Where the two children of an entry of size at least two must end, in the words of the
source; its subtractions do not wrap. -/
structure ChildPlaces (p : PendingNode) (size : UInt64) : Prop where
  left : (largestPowerOfTwoBelow size).toNat = split size.toNat
  right : (size - largestPowerOfTwoBelow size).toNat = size.toNat - split size.toNat
  wantRight : (p.right size).index.toNat = p.index.toNat - 1
  wantLeft : (p.left size).index.toNat + 2 = p.start.toNat + 2 * split size.toNat
  startRight : (p.right size).start.toNat + 1 = p.start.toNat + 2 * split size.toNat

theorem childPlaces {p : PendingNode} (large : 2 ≤ size.toNat)
    (place : p.index.toNat + 2 = p.start.toNat + 2 * size.toNat) : ChildPlaces p size := by
  have word := p.index.toNat_lt
  obtain ⟨left, right⟩ := split_toNat large
  have sub := split_lt large
  have pos := split_pos size.toNat
  have leftNodes := snapshotNodeCount_of_pos left pos (by omega)
  have rightNodes := snapshotNodeCount_of_pos right (by omega) (by omega)
  have first : (p.index - snapshotNodeCount (size - largestPowerOfTwoBelow size)).toNat =
      p.index.toNat - (2 * (size.toNat - split size.toNat) - 1) := by
    rw [toNat_sub_of_le (by omega), rightNodes]
  refine ⟨left, right, ?_, ?_, ?_⟩
  · rw [PendingNode.right, toNat_sub_of_le (by simp; omega)]
    rfl
  · rw [PendingNode.left, toNat_sub_of_le (by simp; omega), first]
    simp only [UInt64.toNat_one]
    omega
  · rw [PendingNode.right, toNat_add_of_lt (by omega), leftNodes]
    omega

variable {node : SnapshotNode D}

section Check

variable {H : Hasher D} {stack : List PendingNode} {p : PendingNode} {left right : SnapshotNode D}

/-- What the walk establishes for an entry: a balanced tree laid out at its place. -/
def Verified (H : Hasher D) (nodes : List (SnapshotNode D)) (p : PendingNode) : Prop :=
  ∃ t, Balanced t ∧ Holds H nodes p.start.toNat t ∧ p.index.toNat + 2 = p.start.toNat + 2 * t.size

theorem Expected.children (expected : Expected ns p n) (large : 2 ≤ n)
    (here : ns[p.index.toNat]? = some node) (hl : ns[(p.left node.size).index.toNat]? = some left)
    (hr : ns[(p.right node.size).index.toNat]? = some right)
    (sizeL : left.size = largestPowerOfTwoBelow node.size)
    (sizeR : right.size = node.size - largestPowerOfTwoBelow node.size) :
    Expected ns (p.left node.size) (split n) ∧ Expected ns (p.right node.size) (n - split n) := by
  obtain ⟨node', here', whole⟩ := expected.node
  cases Option.some.inj (here.symm.trans here')
  have place := expected.place
  rw [← whole] at place large ⊢
  have places := childPlaces large place
  have sub := split_lt large
  have pos := split_pos node.size.toNat
  have wantL := places.wantLeft
  have startR := places.startRight
  refine ⟨⟨⟨left, hl, ?_⟩, pos, wantL⟩, ⟨⟨right, hr, ?_⟩, by omega, ?_⟩⟩
  · rw [sizeL, places.left]
  · rw [sizeR, places.right]
  · rw [places.wantRight]
    omega

theorem verified_leaf (here : ns[p.index.toNat]? = some node) (size : node.size = 1)
    (checks : ¬ (p.index ≠ p.start ∨ node.left ≠ noSnapshotNode ∨ node.right ≠ noSnapshotNode)) :
    Verified H ns p := by
  simp only [not_or, not_not] at checks
  obtain ⟨eq, left, right⟩ := checks
  refine ⟨.leaf node.digest, trivial, holds_leaf ?_, ?_⟩
  · rw [← eq, here, ← size, ← left]
    nth_rewrite 2 [left]
    rw [← right]
  · rw [eq]
    rfl

/-- The places of two trees that an entry of the right size joins, and what makes it their root. -/
theorem branch_entry (large : 2 ≤ node.size.toNat)
    (place : p.index.toNat + 2 = p.start.toNat + 2 * node.size.toNat)
    (lsize : l.size = split node.size.toNat)
    (rsize : r.size = node.size.toNat - split node.size.toNat) :
    (p.left node.size).index.toNat = p.start.toNat + nodeCount l - 1 ∧
      (p.right node.size).index.toNat = p.start.toNat + nodeCount l + nodeCount r - 1 ∧
      (p.right node.size).start.toNat = p.start.toNat + nodeCount l ∧
      p.index.toNat = p.start.toNat + nodeCount l + nodeCount r ∧
      (node = rootEntry H p.start.toNat (.node l r) ↔
        node.digest = H.hashBranch (l.digest H.hashBranch) (r.digest H.hashBranch) ∧
          node.left = (p.left node.size).index ∧ node.right = (p.right node.size).index) := by
  obtain ⟨-, -, wantR, wantL, startR⟩ := childPlaces large place
  have lpos := l.size_pos
  have rpos := r.size_pos
  have atL : (p.left node.size).index.toNat = p.start.toNat + nodeCount l - 1 := by
    unfold nodeCount
    omega
  have atR : (p.right node.size).index.toNat = p.start.toNat + nodeCount l + nodeCount r - 1 := by
    unfold nodeCount
    omega
  refine ⟨atL, atR, by unfold nodeCount; omega, by unfold nodeCount; omega, ?_⟩
  have size : node.size = UInt64.ofNat (l.size + r.size) := by
    rw [lsize, rsize, Nat.add_sub_cancel' (by omega), UInt64.ofNat_toNat]
  rw [rootEntry, ← atL, ← atR, ← size, UInt64.ofNat_toNat, UInt64.ofNat_toNat]
  obtain ⟨d, size, left, right⟩ := node
  simp

theorem verified_branch (large : 2 ≤ node.size.toNat)
    (place : p.index.toNat + 2 = p.start.toNat + 2 * node.size.toNat)
    (here : ns[p.index.toNat]? = some node)
    (links : ¬ (node.left ≠ (p.left node.size).index ∨ node.right ≠ (p.right node.size).index))
    (hl : ns[(p.left node.size).index.toNat]? = some left)
    (hr : ns[(p.right node.size).index.toNat]? = some right)
    (d : node.digest = H.hashBranch left.digest right.digest)
    (first : Verified H ns (p.left node.size)) (second : Verified H ns (p.right node.size)) :
    Verified H ns p := by
  obtain ⟨l, balancedL, heldL, placeL⟩ := first
  obtain ⟨r, balancedR, heldR, placeR⟩ := second
  rw [PendingNode.left_start] at placeL heldL
  obtain ⟨-, -, wantR, wantL, startR⟩ := childPlaces large place
  have lsize : l.size = split node.size.toNat := by omega
  have rsize : r.size = node.size.toNat - split node.size.toNat := by omega
  obtain ⟨atL, atR, start, i, e⟩ := branch_entry (H := H) large place lsize rsize
  rw [start] at heldR
  rw [atL, heldL.root] at hl
  rw [atR, heldR.root] at hr
  cases Option.some.inj hl
  cases Option.some.inj hr
  rw [rootEntry_digest, rootEntry_digest] at d
  rw [not_or, not_not, not_not] at links
  refine ⟨.node l r, ⟨by rw [lsize, rsize, Nat.add_sub_cancel' (by omega)], balancedL, balancedR⟩,
    heldL.join heldR ?_, by rw [place, size]; omega⟩
  rw [← i, here, e.mpr ⟨d, links⟩]

theorem readNode_ok {i : UInt64}
    : (readNode ns i).outcome = .ok node ↔ ns[i.toNat]? = some node := by
  unfold readNode
  cases ns[i.toNat]? <;> simp

variable [DecidableEq D] {maxDepth maxNodeReads reads : UInt64} {fuel : Nat}

def work (stack : List PendingNode) : Nat :=
  (stack.map (fun p => p.index.toNat + 1 - p.start.toNat)).sum

theorem work_cons : work (p :: stack) = p.index.toNat + 1 - p.start.toNat + work stack := by
  simp [work]

/-- The walk ends and reads inside the array, whatever the array holds; if it succeeds, it has
verified every entry on its stack. -/
theorem validateLoop_gives (expected : ∀ p ∈ stack, ∃ n, Expected ns p n)
    (enough : work stack < fuel) :
    Gives .outOfRange (fun _ => ∀ p ∈ stack, Verified H ns p)
      (validateLoop H ns maxDepth maxNodeReads fuel reads stack) := by
  induction fuel generalizing reads stack with
  | zero => omega
  | succ fuel ih =>
    cases stack with
    | nil => exact ⟨avoids_pure _ _, by simp⟩
    | cons cur rest =>
      obtain ⟨⟨n, e⟩, others⟩ := forall_mem_cons.mp expected
      obtain ⟨node, here, whole⟩ := e.node
      have pos := e.positive
      have place := e.place
      rw [work_cons] at enough
      refine gives_guard (by simp) (fun _ => ?_)
      refine gives_guard (by simp) (fun _ => ?_)
      refine gives_read (readNode_ok.mpr here) ?_
      by_cases one : node.size = 1
      · rw [if_pos one]
        refine gives_guard (by simp) (fun checks => ?_)
        exact (ih others (by omega)).mono fun _ tail =>
          forall_mem_cons.mpr ⟨verified_leaf here one checks, tail⟩
      · rw [if_neg one]
        rw [size_eq_one] at one
        rw [← whole] at place pos
        obtain ⟨-, -, wantR, wantL, startR⟩ := childPlaces (by omega) place
        have sub := split_lt (n := node.size.toNat) (by omega)
        have spos := split_pos node.size.toNat
        obtain ⟨below, _⟩ := List.getElem?_eq_some_iff.mp here
        have hl := List.getElem?_eq_getElem (l := ns) (i := (cur.left node.size).index.toNat)
          (by omega)
        have hr := getElem?_eq_getElem (l := ns) (i := (cur.right node.size).index.toNat)
          (by omega)
        refine gives_guard (by simp) (fun links => ?_)
        refine gives_read (readNode_ok.mpr hl) (gives_read (readNode_ok.mpr hr) ?_)
        refine gives_guard (by simp) (fun sizeL => ?_)
        refine gives_guard (by simp) (fun sizeR => ?_)
        refine gives_guard (by simp) (fun d => ?_)
        rw [not_not] at sizeL sizeR d
        obtain ⟨first, second⟩ := e.children (by omega) here hl hr sizeL sizeR
        refine (ih (forall_mem_cons.mpr ⟨⟨_, first⟩,
          forall_mem_cons.mpr ⟨⟨_, second⟩, others⟩⟩) ?_).mono fun _ all => ?_
        · rw [work_cons, work_cons, PendingNode.left_start]
          omega
        · rw [forall_mem_cons, forall_mem_cons] at all
          obtain ⟨fromLeft, fromRight, tail⟩ := all
          exact forall_mem_cons.mpr
            ⟨verified_branch (by omega) place here links hl hr d fromLeft fromRight, tail⟩

omit [DecidableEq D] in
theorem Holds.branch_checks (fits : ns.length < 2 ^ 64) (bal : Balanced (.node l r))
    (held : Holds H ns p.start.toNat (.node l r))
    (place : p.index.toNat + 2 = p.start.toNat + 2 * (l.size + r.size))
    (here : node = rootEntry H p.start.toNat (.node l r)) :
    ¬ node.size = 1 ∧ ChildPlaces p node.size ∧ node.size.toNat = l.size + r.size ∧
      node.left = (p.left node.size).index ∧ node.right = (p.right node.size).index ∧
      ns[(p.left node.size).index.toNat]? = some (rootEntry H p.start.toNat l) ∧
      ns[(p.right node.size).index.toNat]? = some (rootEntry H (p.start.toNat + nodeCount l) r) ∧
      (rootEntry H p.start.toNat l).size = largestPowerOfTwoBelow node.size ∧
      (rootEntry H (p.start.toNat + nodeCount l) r).size =
        node.size - largestPowerOfTwoBelow node.size := by
  have lpos := l.size_pos
  have rpos := r.size_pos
  have bound := held.bound
  rw [nodeCount_node] at bound
  have size : node.size.toNat = l.size + r.size := by
    rw [here, rootEntry_size, size, toNat_ofNat_of_lt (by unfold nodeCount at bound; omega)]
  have places := childPlaces (p := p) (show 2 ≤ node.size.toNat by omega) (by omega)
  have cut : split node.size.toNat = l.size := by rw [size, ← bal.1]
  obtain ⟨lsize, rsize⟩ := Balanced.split_sizes bal size
  obtain ⟨atL, atR, -, -, e⟩ := branch_entry (H := H) (show 2 ≤ node.size.toNat by omega)
    (by rw [place, size]) cut.symm (show r.size = _ by omega)
  obtain ⟨-, linkL, linkR⟩ := e.mp here
  have word := node.size.toNat_lt
  refine ⟨by rw [size_eq_one]; omega, places, size, linkL, linkR, by rw [atL, held.left.root],
    by rw [atR, held.right.root], ?_, ?_⟩
  · rw [rootEntry_size, ← UInt64.toNat_inj, lsize, toNat_ofNat_of_lt (by omega)]
  · rw [rootEntry_size, ← UInt64.toNat_inj, rsize, toNat_ofNat_of_lt (by omega)]

/-- Entries that stand for trees of the array, with levels left for the depth limit. -/
def Ready (H : Hasher D) (nodes : List (SnapshotNode D)) (maxDepth : UInt64)
    (p : PendingNode) : Prop :=
  ∃ t levels, Balanced t ∧ Holds H nodes p.start.toNat t ∧
    p.index.toNat + 2 = p.start.toNat + 2 * t.size ∧ t.size ≤ 2 ^ levels ∧
    p.depth.toNat + levels ≤ maxDepth.toNat

/-- The walk over trees of the array succeeds within the limits. -/
theorem validateLoop_complete (fits : ns.length < 2 ^ 64)
    (ready : ∀ p ∈ stack, Ready H ns maxDepth p) (enough : work stack < fuel)
    (budget : reads.toNat + work stack ≤ maxNodeReads.toNat) :
    (validateLoop H ns maxDepth maxNodeReads fuel reads stack).outcome = .ok () := by
  induction fuel generalizing reads stack with
  | zero => omega
  | succ fuel ih =>
    cases stack with
    | nil => rfl
    | cons cur rest =>
      obtain ⟨⟨t, levels, bal, held, place, small, depth⟩, others⟩ := forall_mem_cons.mp ready
      have pos := t.size_pos
      rw [work_cons] at enough budget
      have limit := maxNodeReads.toNat_lt
      have dlimit := maxDepth.toNat_lt
      have more : (reads + 1).toNat = reads.toNat + 1 := by
        rw [toNat_add_of_lt (by simp; omega)]
        rfl
      have within : ¬ reads + 1 > maxNodeReads := by
        rw [gt_iff_lt, UInt64.lt_iff_toNat_lt, more]
        omega
      have shallow : ¬ cur.depth > maxDepth := by
        rw [gt_iff_lt, UInt64.lt_iff_toNat_lt]
        omega
      have i : cur.index.toNat = cur.start.toNat + nodeCount t - 1 := by
        unfold nodeCount
        omega
      have here : (readNode ns cur.index).outcome = .ok (rootEntry H cur.start.toNat t) := by
        rw [readNode_ok, i, held.root]
      simp only [validateLoop, poll_bind, failIf_bind, if_neg within, if_neg shallow]
      refine bind_ok.mpr ⟨_, here, ?_⟩
      cases t with
      | leaf d =>
        have eq : cur.index = cur.start := by
          rw [← UInt64.toNat_inj]
          simp only [size] at place
          omega
        simp only [rootEntry, if_true, eq, ne_eq, not_true_eq_false, or_self, failIf_bind,
          if_false]
        exact ih others (by omega) (by omega)
      | node l r =>
        have lpos := l.size_pos
        have rpos := r.size_pos
        simp only [size] at place small
        obtain ⟨levels, rfl⟩ : ∃ k, levels = k + 1 := by
          cases levels with
          | zero => omega
          | succ k => exact ⟨k, rfl⟩
        obtain ⟨smallL, smallR⟩ := bal.halves small
        generalize e : rootEntry H cur.start.toNat (.node l r) = node
        have digest : node.digest = H.hashBranch (l.digest H.hashBranch)
          (r.digest H.hashBranch) := by
          rw [← e]
          rfl
        obtain ⟨branch, places, size, linkL, linkR, hl, hr, sizeL, sizeR⟩ :=
          held.branch_checks fits bal place e.symm
        have wantL := places.wantLeft
        have wantR := places.wantRight
        have startR := places.startRight
        have cut : split node.size.toNat = l.size := by rw [size, ← bal.1]
        have deeper : (cur.depth + 1).toNat = cur.depth.toNat + 1 := by
          rw [toNat_add_of_lt (by simp; omega)]
          rfl
        rw [if_neg branch, failIf_bind, if_neg
          (by simp [linkL, linkR, PendingNode.left, PendingNode.right])]
        refine bind_ok.mpr ⟨_, readNode_ok.mpr hl, bind_ok.mpr ⟨_, readNode_ok.mpr hr, ?_⟩⟩
        rw [failIf_bind, if_neg (not_not_intro sizeL), failIf_bind,
          if_neg (not_not_intro sizeR), failIf_bind, if_neg (by rw [digest]; simp)]
        have below : (cur.depth + 1).toNat + levels ≤ maxDepth.toNat := by omega
        have first : Ready H ns maxDepth (cur.left node.size) :=
          ⟨l, levels, bal.2.1, held.left, cut ▸ wantL, smallL, below⟩
        have second : Ready H ns maxDepth (cur.right node.size) := by
          refine ⟨r, levels, bal.2.2, ?_, by omega, smallR, below⟩
          have start : (cur.right node.size).start.toNat = cur.start.toNat + nodeCount l := by
            unfold nodeCount
            omega
          rw [start]
          exact held.right
        apply ih (forall_mem_cons.mpr ⟨first, forall_mem_cons.mpr ⟨second, others⟩⟩)
        · rw [work_cons, work_cons, PendingNode.left_start]
          omega
        · rw [work_cons, work_cons, PendingNode.left_start, more]
          omega

end Check

section Snapshots

variable {H : Hasher D} {snap : Snapshot D}

theorem size_ne_zero : size ≠ 0 ↔ 0 < size.toNat := by
  rw [ne_eq, ← UInt64.toNat_inj, UInt64.toNat_zero]
  omega

theorem validSnapshotNodeCount_iff {treeSize : UInt64} {nodeCount : UInt64} (pos : treeSize ≠ 0) :
    validSnapshotNodeCount treeSize nodeCount = true ↔
      treeSize.toNat ≤ 2 ^ 63 ∧ nodeCount.toNat = 2 * treeSize.toNat - 1 := by
  have large : treeSize > 0x8000000000000000 ↔ 2 ^ 63 < treeSize.toNat := UInt64.lt_iff_toNat_lt
  rw [validSnapshotNodeCount, if_neg pos]
  rw [size_ne_zero] at pos
  by_cases huge : treeSize > 0x8000000000000000
  · rw [if_pos huge]
    rw [large] at huge
    simp only [Bool.false_eq_true, false_iff, not_and]
    omega
  · rw [if_neg huge]
    rw [large, not_lt] at huge
    rw [beq_iff_eq, ← UInt64.toNat_inj, snapshotNodeCount_of_pos rfl pos (by omega)]
    exact ⟨fun eq => ⟨huge, eq⟩, fun both => both.2⟩

namespace Snapshot.Represents

variable {pr : Profile} {digests : List D} (rep : snap.Represents H pr digests)

include rep

theorem treeSize_toNat (small : 2 * digests.length ≤ 2 ^ 64) :
    snap.root.treeSize.toNat = digests.length := by
  rw [rep.root]
  exact toNat_ofNat_of_lt (by omega)

theorem treeSize_eq_zero (small : 2 * digests.length ≤ 2 ^ 64) :
    snap.root.treeSize = 0 ↔ digests = [] := by
  rw [← UInt64.toNat_inj, rep.treeSize_toNat small, UInt64.toNat_zero, length_eq_zero_iff]

theorem length_nodes : snap.nodes.length = 2 * digests.length - 1 := by
  by_cases none : digests = []
  · rw [(rep.empty none).1, none]
    rfl
  · obtain ⟨t, _, eq, ns, _⟩ := rep.tree none
    rw [ns, length_layout, nodeCount, ← eq, length_leaves]

theorem nodeCount_valid (small : 2 * digests.length ≤ 2 ^ 64) :
    validSnapshotNodeCount snap.root.treeSize (UInt64.ofNat snap.nodes.length) = true := by
  have n := rep.length_nodes
  have size := rep.treeSize_toNat small
  by_cases none : snap.root.treeSize = 0
  · have empty := (rep.treeSize_eq_zero small).mp none
    rw [validSnapshotNodeCount, if_pos none, (rep.empty empty).1]
    rfl
  · rw [validSnapshotNodeCount_iff none, toNat_ofNat_of_lt (by omega)]
    omega

theorem leafNodes (small : 2 * digests.length ≤ 2 ^ 64) :
    snap.nodes.filter (fun node => node.size == 1) =
      digests.map (fun d => ⟨d, 1, noSnapshotNode, noSnapshotNode⟩) := by
  by_cases none : digests = []
  · rw [(rep.empty none).1, none]
    rfl
  · obtain ⟨t, _, eq, ns, _⟩ := rep.tree none
    rw [ns, leaves_layout (by rw [← length_leaves, eq]; omega), eq]

end Snapshot.Represents

theorem expected_root (fits : snap.nodes.length < 2 ^ 64) (pos : snap.root.treeSize ≠ 0)
    (n : validSnapshotNodeCount snap.root.treeSize (UInt64.ofNat snap.nodes.length) = true)
    (last : snap.rootNode = UInt64.ofNat (snap.nodes.length - 1))
    (here : snap.nodes[snap.rootNode.toNat]? = some node) (size : node.size = snap.root.treeSize) :
    Expected snap.nodes ⟨snap.rootNode, 0, 0⟩ snap.root.treeSize.toNat := by
  rw [validSnapshotNodeCount_iff pos, toNat_ofNat_of_lt fits] at n
  rw [size_ne_zero] at pos
  refine ⟨⟨node, here, by rw [size]⟩, pos, ?_⟩
  simp only [UInt64.toNat_zero]
  rw [last, toNat_ofNat_of_lt (by omega)]
  omega

variable [DecidableEq D] {maxDepth maxNodeReads : UInt64}

theorem validateSnapshotStructure_gives (fits : snap.nodes.length < 2 ^ 64) :
    Gives .outOfRange (fun _ =>
      snap.root = newRoot snap.profile snap.root.treeSize snap.root.digest.value →
        ∃ digests, snap.Represents H snap.profile digests ∧ 2 * digests.length ≤ 2 ^ 64)
      (validateSnapshotStructure H snap maxDepth maxNodeReads) := by
  refine gives_guard (by simp) (fun n => ?_)
  rw [Bool.not_eq_false] at n
  by_cases none : snap.root.treeSize = 0
  · rw [if_pos none]
    refine gives_guard (by simp) fun empty => ⟨avoids_failIf (by simp) _, ?_⟩
    intro _ d identity
    rw [failIf_eq_ok, not_not] at d
    rw [not_or, not_not, not_not] at empty
    rw [validSnapshotNodeCount, if_pos none, beq_iff_eq, ofNat_eq_iff fits] at n
    refine ⟨[], ⟨rfl, ?_, fun _ => ⟨eq_nil_of_length_eq_zero n, empty⟩,
      fun some => absurd rfl some⟩, by simp⟩
    rw [identity, none, d, treeHash_nil]
    rfl
  · rw [if_neg none]
    refine gives_guard (by simp) (fun last => ?_)
    rw [not_not] at last
    obtain ⟨_, length⟩ := (validSnapshotNodeCount_iff none).mp n
    have pos := size_ne_zero.mp none
    rw [toNat_ofNat_of_lt fits] at length
    have i : snap.rootNode.toNat = snap.nodes.length - 1 := by
      rw [last, toNat_ofNat_of_lt (by omega)]
    obtain ⟨node, here⟩ : ∃ node, snap.nodes[snap.rootNode.toNat]? = some node :=
      ⟨_, getElem?_eq_getElem (by omega)⟩
    refine gives_read (readNode_ok.mpr here) ?_
    refine gives_guard (by simp) (fun size => ?_)
    refine gives_guard (by simp) (fun d => ?_)
    rw [not_not] at size d
    have root := expected_root fits none n last here size
    refine (validateLoop_gives (forall_mem_singleton.mpr ⟨_, root⟩) ?_).mono ?_
    · simp [work]
      omega
    · intro _ verified identity
      obtain ⟨t, bal, held, place⟩ := forall_mem_singleton.mp verified
      simp only [UInt64.toNat_zero] at held place
      have tpos := t.size_pos
      have sizes : t.size = snap.root.treeSize.toNat := by omega
      have ns : snap.nodes.length = nodeCount t := by rw [length, nodeCount, sizes]
      have array : snap.nodes = layout H 0 t := by
        have eq := (holds_iff.mp held).2
        rwa [drop_zero, ← ns, take_length] at eq
      rw [i, ns, ← Nat.zero_add (nodeCount t), held.root] at here
      refine ⟨t.leaves, ⟨rfl, ?_, ?_, fun _ => ⟨t, bal, rfl, array, by rw [last, ns]⟩⟩, ?_⟩
      · rw [length_leaves, sizes, UInt64.ofNat_toNat, treeHash_leaves _ _ bal,
          ← rootEntry_digest H 0, Option.some.inj here, d]
        exact identity
      · intro nothing
        rw [← length_leaves, nothing] at tpos
        exact absurd tpos (Nat.lt_irrefl 0)
      · rw [length_leaves]
        omega

theorem validateSnapshotStructure_complete {pr : Profile} {digests : List D}
    (rep : snap.Represents H pr digests)
    (small : 2 * digests.length ≤ 2 ^ 64) (deep : len64 snap.root.treeSize ≤ maxDepth.toNat)
    (reads : snap.nodes.length ≤ maxNodeReads.toNat) :
    (validateSnapshotStructure H snap maxDepth maxNodeReads).outcome = .ok () := by
  have length := rep.length_nodes
  have whole := rep.treeSize_toNat small
  rw [validateSnapshotStructure, failIf_bind, if_neg (by simp [rep.nodeCount_valid small])]
  by_cases none : snap.root.treeSize = 0
  · have empty := (rep.treeSize_eq_zero small).mp none
    obtain ⟨_, rootNode, tot⟩ := rep.empty empty
    rw [if_pos none, failIf_bind, if_neg (by simp [rootNode, tot]), rep.root, empty]
    simp
  · have some := mt (rep.treeSize_eq_zero small).mpr none
    obtain ⟨t, bal, eq, array, last⟩ := rep.tree some
    have pos := t.size_pos
    have sizes : t.size = digests.length := by rw [← length_leaves, eq]
    have d : snap.root.digest.value = t.digest H.hashBranch := by
      rw [rep.root, newRoot_value, ← eq, treeHash_leaves _ _ bal]
    have held : Holds H snap.nodes 0 t := by
      rw [array]
      exact holds_layout t
    have n : snap.nodes.length = nodeCount t := by rw [length, nodeCount, sizes]
    have atRoot : snap.rootNode.toNat = 0 + nodeCount t - 1 := by
      rw [last, toNat_ofNat_of_lt (by omega), Nat.zero_add]
    have here : (readNode snap.nodes snap.rootNode).outcome = .ok (rootEntry H 0 t) := by
      rw [readNode_ok, atRoot, held.root]
    rw [if_neg none, failIf_bind, if_neg (by simp [last, n])]
    refine bind_ok.mpr ⟨_, here, ?_⟩
    have rootSize : (rootEntry H 0 t).size = snap.root.treeSize := by
      rw [rootEntry_size, sizes, ← whole, UInt64.ofNat_toNat]
    rw [failIf_bind, if_neg (not_not_intro rootSize), failIf_bind, if_neg (by simp [d])]
    have ready : Ready H snap.nodes maxDepth ⟨snap.rootNode, 0, 0⟩ := by
      refine ⟨t, len64 snap.root.treeSize, bal, held, ?_, ?_, by simpa using deep⟩
      · simp only [UInt64.toNat_zero]
        omega
      · rw [sizes, ← whole]
        exact (lt_two_pow_len64 _).le
    apply validateLoop_complete (by omega) (forall_mem_singleton.mpr ready)
    · simp [work]
      omega
    · simp [work]
      omega

end Snapshots

end Golib.MerkleTree
