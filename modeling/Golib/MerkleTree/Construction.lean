import Golib.MerkleTree.Layout

/-! Every construction path computes the tree hash. The stacks of the four loops stand
for a forest of complete trees; the library carries it through pushes, carries and the
final fold, across batches and failed calls. -/
namespace Golib.MerkleTree

open HashTree Polled DigestTree List

variable {D : Type} {lim : Limits} {ls xs ys : List RawLeaf} {tot result : UInt64}
  {n capacity : Nat}

def leafDigests (H : Hasher D) (leaves : List RawLeaf) : List D :=
  leaves.map (fun leaf => H.hashLeaf leaf.value)

@[simp] theorem length_leafDigests (H : Hasher D) (ls : List RawLeaf) :
    (leafDigests H ls).length = ls.length := by
  rw [leafDigests, length_map]

theorem size_of_leaves {leaves : List RawLeaf} {H : Hasher D} {t : DigestTree D}
    (ls : t.leaves = leafDigests H leaves) : t.size = leaves.length := by
  rw [← length_leaves, ls, length_leafDigests]

theorem leafDigests_append (H : Hasher D) (xs ys : List RawLeaf) :
    leafDigests H (xs ++ ys) = leafDigests H xs ++ leafDigests H ys := map_append

/-- The tree hash of RFC 9162 over raw leaves. -/
def treeDigest (H : Hasher D) (leaves : List RawLeaf) : D :=
  treeHash H.hashBranch H.empty (leafDigests H leaves)

def byteCount (leaves : List RawLeaf) : Nat := (leaves.map (fun leaf => leaf.value.length)).sum

structure Limits.Admits (limits : Limits) (leaves : List RawLeaf) : Prop where
  count : leaves.length ≤ limits.maxLeaves.toNat
  each : ∀ leaf ∈ leaves, leaf.value.length ≤ limits.maxLeafBytes.toNat
  total : byteCount leaves ≤ limits.maxTotalBytes.toNat

structure SnapshotLimits.Admits (limits : SnapshotLimits) (leaves : List RawLeaf) : Prop where
  construction : limits.construction.Admits leaves
  nodes : 2 * leaves.length ≤ limits.maxRetainedNodes.toNat + 1

theorem Limits.Admits.left (within : lim.Admits (xs ++ ys)) : lim.Admits xs := by
  obtain ⟨count, each, tot⟩ := within
  simp only [length_append, byteCount, map_append, sum_append] at count tot
  refine ⟨by omega, fun leaf mem => each leaf (mem_append_left _ mem), ?_⟩
  rw [byteCount]
  omega

theorem SnapshotLimits.Admits.left {lim : SnapshotLimits} (within : lim.Admits (xs ++ ys)) :
    lim.Admits xs := by
  have ns := within.nodes
  rw [length_append] at ns
  exact ⟨within.construction.left, by omega⟩

theorem SnapshotLimits.Admits.small {lim : SnapshotLimits} (within : lim.Admits ls) :
    2 * ls.length ≤ 2 ^ 64 := by
  have ns := within.nodes
  have := lim.maxRetainedNodes.toNat_lt
  omega

theorem sumLeafBytes_append (tot : UInt64) (xs ys : List RawLeaf) :
    sumLeafBytes tot (xs ++ ys) = sumLeafBytes (sumLeafBytes tot xs) ys := by
  induction xs generalizing tot with
  | nil => rfl
  | cons x xs ih => exact ih _

theorem sumLeafBytes_eq (tot : UInt64) (xs : List RawLeaf) :
    sumLeafBytes tot xs = tot + UInt64.ofNat (byteCount xs) := by
  induction xs generalizing tot with
  | nil => simp [sumLeafBytes, byteCount]
  | cons x xs ih =>
    rw [sumLeafBytes, ih]
    simp [byteCount, UInt64.ofNat_add, UInt64.add_assoc]

theorem checkLeafBytes_sum (h : (checkLeafBytes lim tot ls).outcome = .ok result) :
    result = sumLeafBytes tot ls := by
  induction ls generalizing tot with
  | nil => exact (Except.ok.inj h).symm
  | cons leaf rest ih =>
    simp only [checkLeafBytes, poll_bind, failIf_ok] at h
    exact ih h.2.2

theorem checkLeafBytes_le (below : tot ≤ lim.maxTotalBytes)
    (h : (checkLeafBytes lim tot ls).outcome = .ok result) : result ≤ lim.maxTotalBytes := by
  induction ls generalizing tot with
  | nil => exact Except.ok.inj h ▸ below
  | cons leaf rest ih =>
    simp only [checkLeafBytes, poll_bind, failIf_ok] at h
    obtain ⟨_, room, h⟩ := h
    apply ih _ h
    rw [UInt64.le_iff_toNat_le] at below ⊢
    rw [gt_iff_lt, UInt64.lt_iff_toNat_lt, toNat_sub_of_le below] at room
    have := lim.maxTotalBytes.toNat_lt
    rw [toNat_add_of_lt (by omega)]
    omega

theorem checkLeafBytes_ok (each : ∀ leaf ∈ ls, leaf.value.length ≤ lim.maxLeafBytes.toNat)
    (room : tot.toNat + byteCount ls ≤ lim.maxTotalBytes.toNat) :
    (checkLeafBytes lim tot ls).outcome = .ok (sumLeafBytes tot ls) := by
  induction ls generalizing tot with
  | nil => rfl
  | cons leaf rest ih =>
    have bound := lim.maxTotalBytes.toNat_lt
    have split : byteCount (leaf :: rest) = leaf.value.length + byteCount rest := by
      simp [byteCount]
    have size : (UInt64.ofNat leaf.value.length).toNat = leaf.value.length :=
      toNat_ofNat_of_lt (by omega)
    have small : ¬ UInt64.ofNat leaf.value.length > lim.maxLeafBytes :=
      ofNat_le (each leaf (by simp))
    have fits : ¬ UInt64.ofNat leaf.value.length > lim.maxTotalBytes - tot := by
      apply ofNat_le
      rw [toNat_sub_of_le (by omega)]
      omega
    simp only [checkLeafBytes, poll_bind, failIf_bind, if_neg small, if_neg fits]
    apply ih (forall_mem_cons.mp each).2
    rw [toNat_add_of_lt (by omega)]
    omega

section Digests

variable (H : Hasher D) {ts : List (DigestTree D)}

/-- A stack of digests stands for the trees it was made from. -/
def DigestStack (_ : Unit) (stack : List D) (ts : List (DigestTree D)) : Prop :=
  stack = ts.map (digest H.hashBranch)

theorem digestStack_merges : Merges (mergeDigests H) (DigestStack H) := by
  intro s l r as tl tr ts h
  obtain ⟨rfl, rfl, rfl⟩ := h
  exact ⟨(), _, rfl, rfl⟩

theorem digestStack_sameLength : SameLength (DigestStack H) := by
  intro s as ts h
  rw [h, length_map]

theorem digestStack_pushes (s : Unit) (as : List D) (ts : List (DigestTree D))
    (leaf : RawLeaf) (h : DigestStack H s as ts) (_ : (stackLeaves ts).length < capacity) :
    ∃ s' a, (pushDigest H s leaf).outcome = .ok (s', a) ∧
      DigestStack H s' (a :: as) (.leaf (H.hashLeaf leaf.value) :: ts) := by
  refine ⟨(), _, rfl, ?_⟩
  rw [DigestStack, h]
  rfl

theorem forest_nonempty (forest : Forest 0 n ts) (pos : 0 < n) : ∃ t rest, ts = t :: rest := by
  cases ts with
  | nil =>
    have := forest.length_leaves
    simp [stackLeaves] at this
    omega
  | cons t rest => exact ⟨t, rest, rfl⟩

theorem foldDigests_forest (forest : Forest 0 n ts) (pos : 0 < n) :
    (foldDigests H (ts.map (digest H.hashBranch))).outcome =
      .ok (treeHash H.hashBranch H.empty (stackLeaves ts)) := by
  obtain ⟨t, rest, rfl⟩ := forest_nonempty forest pos
  have start : DigestStack H () (t.digest H.hashBranch :: rest.map (digest H.hashBranch))
      (t :: rest) := rfl
  obtain ⟨s, a, t', out, eq, balanced, ls⟩ :=
    foldStack_forest (digestStack_merges H) (digestStack_sameLength H) forest start
  simp only [DigestStack, map_cons, map_nil, cons.injEq, and_true] at eq
  rw [← ls, treeHash_leaves _ _ balanced, ← eq]
  exact bind_ok.mpr ⟨_, out, rfl⟩

theorem pushDigests_forest {completed : UInt64} (forest : Forest 0 n ts)
    (count : completed.toNat = n) (ls : List RawLeaf) (bound : n + ls.length < 2 ^ 64) :
    ∃ ts', (pushAll (pushDigest H) (mergeDigests H) .outOfRange completed ()
        (ts.map (digest H.hashBranch)) ls).outcome = .ok ((), ts'.map (digest H.hashBranch)) ∧
      Forest 0 (n + ls.length) ts' ∧ stackLeaves ts' = stackLeaves ts ++ leafDigests H ls := by
  have start : DigestStack H () (ts.map (digest H.hashBranch)) ts := rfl
  obtain ⟨s', stack', ts', out, eq, forest', hl⟩ :=
    pushAll_forest Err.outOfRange (digestStack_merges H) (digestStack_sameLength H)
      (fun leaf : RawLeaf => H.hashLeaf leaf.value) bound (digestStack_pushes H) ls forest count
      (Nat.le_refl _) start
  refine ⟨ts', ?_, forest', hl⟩
  rw [out]
  exact congrArg (fun x => Except.ok ((), x)) eq

end Digests

section Nodes

variable (H : Hasher D) {old : List (SnapshotNode D)}

theorem nodeStack_pushes (room : 2 * capacity ≤ 2 ^ 64) (ns : List (SnapshotNode D))
    (as : List UInt64) (ts : List (DigestTree D)) (leaf : RawLeaf) (h : NodeStack H [] ns as ts)
    (below : (stackLeaves ts).length < capacity) :
    ∃ nodes' a, (pushNode H ns leaf).outcome = .ok (nodes', a) ∧
      NodeStack H [] nodes' (a :: as) (.leaf (H.hashLeaf leaf.value) :: ts) := by
  refine ⟨_, _, rfl, ?_⟩
  exact NodeStack.pushed H h _ (by omega)

theorem nodeStack_merges : Merges (mergeNodes H) (NodeStack H []) := by
  intro ns a b as l r ts h
  obtain ⟨branch, merged⟩ := NodeStack.merged H h
  refine ⟨_, _, ?_, merged⟩
  simp only [mergeNodes, poll_bind]
  exact bind_ok.mpr ⟨_, branch, rfl⟩

theorem readBuilderNode_eq (fits : old.length < 2 ^ 64) (added : List (SnapshotNode D))
    (i : UInt64) :
    readBuilderNode old added (UInt64.ofNat old.length) i = readNode (old ++ added) i := by
  have base := toNat_ofNat_of_lt fits
  unfold readBuilderNode readNode
  split
  · rename_i below
    rw [UInt64.lt_iff_toNat_lt, base] at below
    rw [getElem?_append_left below]
  · rename_i above
    rw [UInt64.lt_iff_toNat_lt, base] at above
    rw [toNat_sub_of_le (by omega), base, getElem?_append_right (by omega)]

theorem newBuilderBranch_eq (fits : old.length < 2 ^ 64) (added : List (SnapshotNode D))
    (left right : UInt64) :
    newBuilderBranch H old added (UInt64.ofNat old.length) left right =
      newSnapshotBranch H (old ++ added) left right := by
  simp only [newBuilderBranch, newSnapshotBranch, readBuilderNode_eq fits]

theorem builderIndex_eq (old added : List (SnapshotNode D)) :
    UInt64.ofNat old.length + UInt64.ofNat added.length = UInt64.ofNat (old ++ added).length := by
  rw [length_append, UInt64.ofNat_add]

theorem builderStack_pushes (room : 2 * capacity ≤ 2 ^ 64) (old added : List (SnapshotNode D))
    (as : List UInt64) (ts : List (DigestTree D)) (leaf : RawLeaf)
    (h : NodeStack H old added as ts) (below : (stackLeaves ts).length < capacity) :
    ∃ added' a, (pushBuilderNode H (UInt64.ofNat old.length) added leaf).outcome =
        .ok (added', a) ∧
      NodeStack H old added' (a :: as) (.leaf (H.hashLeaf leaf.value) :: ts) := by
  refine ⟨_, _, rfl, ?_⟩
  rw [builderIndex_eq]
  exact NodeStack.pushed H h _ (by omega)

theorem builderStack_merges (fits : old.length < 2 ^ 64) :
    Merges (mergeBuilderNodes H old (UInt64.ofNat old.length)) (NodeStack H old) := by
  intro added a b as l r ts h
  obtain ⟨branch, merged⟩ := NodeStack.merged H h
  refine ⟨_, _, ?_, merged⟩
  simp only [mergeBuilderNodes, poll_bind, newBuilderBranch_eq H fits, builderIndex_eq]
  exact bind_ok.mpr ⟨_, branch, rfl⟩

theorem foldNodes_forest {ts : List (HashTree.DigestTree D)}
    (forest : Forest 0 n ts) (pos : 0 < n) (fits : 2 * n ≤ 2 ^ 64) :
    ∃ t, (foldNodes H (stackLayout H ts) (stackIndexes H ts)).outcome =
        .ok (layout H 0 t, UInt64.ofNat (nodeCount t - 1)) ∧
      Balanced t ∧ t.leaves = stackLeaves ts := by
  obtain ⟨t, rest, rfl⟩ := forest_nonempty forest pos
  have size := forest.length_leaves
  have start : NodeStack H [] (stackLayout H (t :: rest)) (stackIndexes H (t :: rest))
    (t :: rest) :=
    ⟨rfl, rfl, by omega⟩
  obtain ⟨ns, a, t', out, stack, bal, ls⟩ :=
    foldStack_forest (nodeStack_merges H) (nodeStack_sameLength H []) forest start
  refine ⟨t', ?_, bal, ls⟩
  have whole : ns = layout H 0 t' := by simpa [stackLayout] using stack.nodes
  have last : a = UInt64.ofNat (nodeCount t' - 1) := by
    simpa [stackIndexes, stackLayout] using stack.indexes
  rw [stackIndexes, foldNodes, ← whole, ← last]
  exact out

end Nodes

section Paths

variable (H : Hasher D) {pr : Profile} {lim : SnapshotLimits}

theorem SnapshotLimits.construction_valid (valid : lim.validate = .ok ()) :
    lim.construction.validate = .ok () := by
  unfold SnapshotLimits.validate at valid
  cases h : lim.construction.validate with
  | error e => rw [h] at valid; cases valid
  | ok u => rfl

theorem SnapshotLimits.retained_lt (valid : lim.validate = .ok ()) :
    lim.maxRetainedNodes.toNat < 2 ^ 63 := by
  have inner := lim.construction_valid valid
  simp only [SnapshotLimits.validate, inner] at valid
  by_contra large
  have above : lim.maxRetainedNodes > 0x7fffffffffffffff := by
    rw [gt_iff_lt, UInt64.lt_iff_toNat_lt]
    simp
    omega
  by_cases zero : lim.maxRetainedNodes = 0
  · simp [zero] at large
  · rw [if_neg zero, if_pos above] at valid
    cases valid

theorem snapshotNodeCount_toNat (pos : 0 < n) (small : 2 * n ≤ 2 ^ 64) :
    (snapshotNodeCount (UInt64.ofNat n)).toNat = 2 * n - 1 := by
  by_cases top : n = 2 ^ 63
  · subst top
    decide
  · have v : (UInt64.ofNat n).toNat = n := toNat_ofNat_of_lt (by omega)
    have ne : UInt64.ofNat n ≠ 0 := by
      rw [Ne, ofNat_eq_iff (by omega)]
      simp
      omega
    have double : (2 * UInt64.ofNat n).toNat = 2 * n := by
      simp
      omega
    rw [snapshotNodeCount, if_neg ne, toNat_sub_of_le (by rw [double]; simp; omega), double]
    rfl

theorem computeRoot_checked {total : UInt64} {lim : Limits} (known : pr.validate = .ok ())
    (valid : lim.validate = .ok ()) (count : ls.length ≤ lim.maxLeaves.toNat)
    (bytes : (checkLeafBytes lim 0 ls).outcome = .ok total) :
    (computeRoot H pr ls lim).outcome =
      .ok (newRoot pr (UInt64.ofNat ls.length) (treeDigest H ls)) := by
  have bound : ls.length < 2 ^ 64 := Nat.lt_of_le_of_lt count lim.maxLeaves.toNat_lt
  simp only [computeRoot, outcome_bind, outcome_lift, known, valid, Except.bind,
    outcome_poll, outcome_failIf, if_neg (ofNat_le count), bytes]
  by_cases none : ls.length = 0
  · have empty : ls = [] := eq_nil_of_length_eq_zero none
    subst empty
    simp [treeDigest, leafDigests]
  · have ne : ¬ UInt64.ofNat ls.length = 0 := by
      rw [ofNat_eq_iff bound]
      simpa using none
    obtain ⟨ts, pushed, forest, eq⟩ := pushDigests_forest H (Forest.nil 0)
      (show (0 : UInt64).toNat = 0 from rfl) ls (by simpa using bound)
    rw [if_neg ne]
    refine bind_ok.mpr ⟨_, pushed, bind_ok.mpr ⟨_, foldDigests_forest H forest (by omega), ?_⟩⟩
    rw [eq]
    rfl

theorem Limits.Admits.bytes {lim : Limits} (within : lim.Admits ls) :
    (checkLeafBytes lim 0 ls).outcome = .ok (sumLeafBytes 0 ls) :=
  checkLeafBytes_ok within.each (by simpa using within.total)

theorem computeRoot_eq {lim : Limits} (known : pr.validate = .ok ())
    (valid : lim.validate = .ok ()) (within : lim.Admits ls) :
    (computeRoot H pr ls lim).outcome =
      .ok (newRoot pr (UInt64.ofNat ls.length) (treeDigest H ls)) :=
  computeRoot_checked H known valid within.count within.bytes

/-- The snapshot over the given leaf digests: their tree hash, and the layout of the tree. -/
structure Snapshot.Represents (snapshot : Snapshot D) (conv : Profile)
    (digests : List D) : Prop where
  profile : snapshot.profile = conv
  root : snapshot.root =
    newRoot conv (UInt64.ofNat digests.length) (treeHash H.hashBranch H.empty digests)
  empty : digests = [] →
    snapshot.nodes = [] ∧ snapshot.rootNode = noSnapshotNode ∧ snapshot.totalBytes = 0
  tree : digests ≠ [] → ∃ t, Balanced t ∧ t.leaves = digests ∧
    snapshot.nodes = layout H 0 t ∧ snapshot.rootNode = UInt64.ofNat (nodeCount t - 1)

variable {H}

namespace Snapshot.Represents

variable {s : Snapshot D} {ds : List D}

theorem unique {s' : Snapshot D} (h : s.Represents H pr ds) (h' : s'.Represents H pr ds)
    (tot : s.totalBytes = s'.totalBytes) : s = s' := by
  have fields : s.nodes = s'.nodes ∧ s.rootNode = s'.rootNode := by
    by_cases none : ds = []
    · obtain ⟨n, r, _⟩ := h.empty none
      obtain ⟨n', r', _⟩ := h'.empty none
      exact ⟨n.trans n'.symm, r.trans r'.symm⟩
    · obtain ⟨t, bal, ls, n, r⟩ := h.tree none
      obtain ⟨t', balanced', ls', n', r'⟩ := h'.tree none
      have eq := balanced_unique bal balanced' (ls.trans ls'.symm)
      subst eq
      exact ⟨n.trans n'.symm, r.trans r'.symm⟩
  cases s
  cases s'
  simp only [Snapshot.mk.injEq]
  exact ⟨h.profile.trans h'.profile.symm, h.root.trans h'.root.symm, fields.1, fields.2, tot⟩

theorem validate [DecidableEq D] (h : s.Represents H pr ds) (known : pr.validate = .ok ())
    (fits : 2 * ds.length ≤ 2 ^ 64) : s.validate = .ok () := by
  by_cases none : ds = []
  · obtain ⟨ns, rootNode, tot⟩ := h.empty none
    simp [Snapshot.validate, h.profile, known, h.root, newRoot, ns, rootNode, tot, none,
      Except.isOk, Except.toBool]
  · obtain ⟨t, bal, ls, ns, rootNode⟩ := h.tree none
    have size : t.size = ds.length := by
      rw [← length_leaves, ls]
    have ne : ¬ UInt64.ofNat ds.length = 0 := by
      rw [ofNat_eq_iff (by omega)]
      simp
      omega
    have d : treeHash H.hashBranch H.empty ds = t.digest H.hashBranch := by
      rw [← ls, treeHash_leaves _ _ bal]
    have read : s.nodes[s.rootNode.toNat]? = some (rootEntry H 0 t) := by
      have r := (holds_layout (H := H) t).root
      rw [ns, rootNode, toNat_ofNat_of_lt (by unfold nodeCount; omega)]
      simpa using r
    simp [Snapshot.validate, h.profile, known, h.root, newRoot, read, ne, size, d,
      Except.isOk, Except.toBool]

theorem root_leaves (h : s.Represents H pr (leafDigests H ls)) :
    s.root = newRoot pr (UInt64.ofNat ls.length) (treeDigest H ls) := by
  rw [h.root, length_leafDigests]
  rfl

theorem tree_leaves (h : s.Represents H pr (leafDigests H ls)) (nonempty : ls ≠ []) :
    ∃ t, Balanced t ∧ t.leaves = leafDigests H ls ∧ s.nodes = layout H 0 t ∧
      s.rootNode = UInt64.ofNat (nodeCount t - 1) :=
  h.tree (by simpa [leafDigests] using nonempty)

theorem rootIdentity [DecidableEq D] (h : s.Represents H pr (leafDigests H ls))
    (known : pr.validate = .ok ()) (fits : 2 * ls.length ≤ 2 ^ 64) :
    s.rootIdentity = .ok (newRoot pr (UInt64.ofNat ls.length) (treeDigest H ls)) := by
  rw [Snapshot.rootIdentity, h.validate known (by simpa using fits), ← h.root_leaves]
  rfl

end Snapshot.Represents

variable (H)

theorem retained_fits (small : 2 * n ≤ 2 ^ 64) :
    ¬ snapshotNodeCount (UInt64.ofNat n) > lim.maxRetainedNodes ↔
      2 * n ≤ lim.maxRetainedNodes.toNat + 1 := by
  by_cases none : n = 0
  · subst none
    simp [snapshotNodeCount]
  · rw [gt_iff_lt, UInt64.lt_iff_toNat_lt, snapshotNodeCount_toNat (by omega) small]
    omega

theorem newSnapshot_checked {leaves : List RawLeaf}
    (known : pr.validate = .ok ()) (valid : lim.validate = .ok ())
    (count : leaves.length ≤ lim.construction.maxLeaves.toNat)
    (ns : 2 * leaves.length ≤ lim.maxRetainedNodes.toNat + 1)
    (bs : (checkLeafBytes lim.construction 0 leaves).outcome = .ok tot) :
    ∃ s, (newSnapshot H pr leaves lim).outcome = .ok s ∧
      s.Represents H pr (leafDigests H leaves) ∧ s.totalBytes = sumLeafBytes 0 leaves := by
  have retained := lim.retained_lt valid
  have enough := (retained_fits (by omega)).mpr ns
  simp only [newSnapshot, outcome_bind, outcome_lift, valid, Except.bind,
    outcome_failIf, if_neg (ofNat_le count), if_neg enough,
    computeRoot_checked H known (lim.construction_valid valid) count bs]
  by_cases none : leaves.length = 0
  · have empty : leaves = [] := eq_nil_of_length_eq_zero none
    subst empty
    exact ⟨_, rfl, ⟨rfl, rfl, fun _ => ⟨rfl, rfl, rfl⟩, fun h => absurd rfl h⟩, rfl⟩
  · have start : NodeStack H [] [] [] [] := ⟨rfl, rfl, by simp [stackLeaves]⟩
    obtain ⟨nodes', stack, ts, pushed, rel, forest, eq⟩ :=
      pushAll_forest Err.outOfRange (nodeStack_merges H) (nodeStack_sameLength H [])
        (fun leaf : RawLeaf => H.hashLeaf leaf.value) (show leaves.length < 2 ^ 64 by omega)
        (nodeStack_pushes H (by omega)) leaves (Forest.nil 0)
        (show (0 : UInt64).toNat = 0 from rfl) (by omega) start
    obtain ⟨t, folded, bal, ls⟩ := foldNodes_forest H forest (by omega) (by omega)
    have array : nodes' = stackLayout H ts := rel.nodes
    rw [if_neg none]
    refine ⟨⟨pr, newRoot pr (UInt64.ofNat leaves.length) (treeDigest H leaves), layout H 0 t,
      UInt64.ofNat (nodeCount t - 1), sumLeafBytes 0 leaves⟩, ?_, ⟨rfl, ?_, ?_, ?_⟩, rfl⟩
    · refine bind_ok.mpr ⟨_, pushed, ?_⟩
      rw [array, rel.indexes]
      exact bind_ok.mpr ⟨_, folded, rfl⟩
    · rw [length_leafDigests]
      rfl
    · intro h
      rw [← length_leafDigests H, h] at none
      exact absurd rfl none
    · intro _
      exact ⟨t, bal, by rw [ls, eq]; rfl, rfl, rfl⟩

theorem newSnapshot_represents (known : pr.validate = .ok ())
    (valid : lim.validate = .ok ()) (within : lim.Admits ls) :
    ∃ s, (newSnapshot H pr ls lim).outcome = .ok s ∧
      s.Represents H pr (leafDigests H ls) ∧ s.totalBytes = sumLeafBytes 0 ls :=
  newSnapshot_checked H known valid within.construction.count within.nodes within.construction.bytes

theorem newSnapshot_run {s : Snapshot D} {ctx : Context} (small : 2 * ls.length ≤ 2 ^ 64)
    (made : ctx.run (newSnapshot H pr ls lim) = .ok s) :
    pr.validate = .ok () ∧ lim.validate = .ok () ∧
      s.Represents H pr (leafDigests H ls) ∧ s.totalBytes = sumLeafBytes 0 ls := by
  have out := Context.run_ok made
  have checks := out
  simp only [newSnapshot, computeRoot, bind_ok, poll_bind, failIf_eq_ok,
    exists_const, outcome_lift] at checks
  obtain ⟨_, valid, few, enough, _, ⟨_, known, _, _, _, _, bs, _⟩, _⟩ := checks
  rw [gt_iff_lt, UInt64.not_lt, UInt64.le_iff_toNat_le, toNat_ofNat_of_lt (by omega)] at few
  rw [retained_fits small] at enough
  obtain ⟨s', made', rep⟩ := newSnapshot_checked H known valid few enough bs
  cases Except.ok.inj (made'.symm.trans out)
  exact ⟨known, valid, rep⟩

end Paths

end Golib.MerkleTree
