import Golib.MerkleTree.Batches

/-! Inclusion proofs: the path read off the retained array, the length loop and the
reconstruction by sizes walk one tree. The siblings of a proof to be verified are
arbitrary; the size alone fixes where each of them is joined. -/
namespace Golib.MerkleTree

open HashTree Polled List Nat

variable {D : Type} {t : DigestTree D}

variable {size i : UInt64}

theorem largestPowerOfTwoBelow_toNat (large : 2 ≤ size.toNat) :
    (largestPowerOfTwoBelow size).toNat = split size.toNat := by
  have word := size.toNat_lt
  have prev : (size - 1).toNat = size.toNat - 1 := toNat_sub_of_le (by simp; omega)
  have ne : ¬ size - 1 = 0 := by
    rw [← UInt64.toNat_inj, prev]
    simp
    omega
  have small : (size.toNat - 1).log2 < 64 := (log2_lt (by omega)).mpr (by omega)
  have power : 2 ^ (size.toNat - 1).log2 < 2 ^ 64 := Nat.pow_lt_pow_right (by omega) small
  have one : (1 : UInt64).toNat <<< (size.toNat - 1).log2 = 2 ^ (size.toNat - 1).log2 := by
    simp [shiftLeft_eq]
  rw [largestPowerOfTwoBelow, len64, if_neg ne, prev, Nat.add_sub_cancel, shiftLeft64, one,
    toNat_ofNat_of_lt power, split]

theorem split_toNat (large : 2 ≤ size.toNat) :
    (largestPowerOfTwoBelow size).toNat = split size.toNat ∧
      (size - largestPowerOfTwoBelow size).toNat = size.toNat - split size.toNat := by
  have left := largestPowerOfTwoBelow_toNat large
  have sub := split_lt large
  exact ⟨left, by rw [toNat_sub_of_le (by omega), left]⟩

theorem size_eq_one : size = 1 ↔ size.toNat = 1 := by
  rw [← UInt64.toNat_inj]
  rfl

/-- The siblings from a leaf up to the root. -/
def auditPath (H : Hasher D) : DigestTree D → Nat → List D
  | .leaf _, _ => []
  | .node l r, i =>
    if i < l.size then auditPath H l i ++ [r.digest H.hashBranch]
    else auditPath H r (i - l.size) ++ [l.digest H.hashBranch]

theorem leaves_node (l r : DigestTree D) (i : Nat) :
    (DigestTree.node l r).leaves[i]? = if i < l.size then
    l.leaves[i]? else r.leaves[i - l.size]? := by
  rw [DigestTree.leaves]
  split
  · exact getElem?_append_left (by simpa)
  · rw [getElem?_append_right (by simp; omega), DigestTree.length_leaves]

variable {d : D} {fuel : Nat}

section Generation

variable {H : Hasher D} (alg : UInt8)

theorem appendAuditPath_eq {ns : List (SnapshotNode D)} {base : Nat}
    (fits : ns.length < 2 ^ 64) (held : Holds H ns base t)
    (enough : t.size ≤ fuel) (sub : i.toNat < t.size) (siblings : List (Digest D))
    (leaf : t.leaves[i.toNat]? = some d) :
    (appendAuditPath alg ns fuel (UInt64.ofNat (base + nodeCount t - 1)) i
      siblings).outcome = .ok (d, siblings ++ (auditPath H t i.toNat).map (newDigest alg)) := by
  induction t generalizing base fuel i siblings with
  | leaf e =>
    obtain ⟨fuel, rfl⟩ := exists_eq_add_one.mpr ((DigestTree.size_pos _).trans_le enough)
    have only : i.toNat = 0 := by simpa [DigestTree.size] using sub
    rw [appendAuditPath, poll_bind]
    refine bind_ok.mpr ⟨_, held.read (by omega), ?_⟩
    rw [only] at leaf
    simp only [DigestTree.leaves, getElem?_cons_zero, Option.some.injEq] at leaf
    simp [rootEntry, auditPath, leaf]
  | node l r hl hr =>
    have lpos := l.size_pos
    have rpos := r.size_pos
    have bound := held.bound
    rw [nodeCount_node] at bound
    simp only [DigestTree.size] at enough sub
    obtain ⟨fuel, rfl⟩ : ∃ f, fuel = f + 1 := ⟨fuel - 1, by omega⟩
    have lsmall : l.size < 2 ^ 64 := by unfold nodeCount at bound; omega
    have whole : (UInt64.ofNat (l.size + r.size)).toNat = l.size + r.size :=
      toNat_ofNat_of_lt (by unfold nodeCount at bound; omega)
    have branch : ¬ (rootEntry H base (.node l r)).size = 1 := by
      rw [size_eq_one, rootEntry_size, DigestTree.size, whole]
      omega
    have left := held.left.read (by omega)
    have right := held.right.read (by omega)
    have lsize : (UInt64.ofNat l.size).toNat = l.size := toNat_ofNat_of_lt lsmall
    rw [leaves_node] at leaf
    rw [appendAuditPath, poll_bind]
    refine bind_ok.mpr ⟨_, held.read (by omega), ?_⟩
    rw [if_neg branch]
    refine bind_ok.mpr ⟨_, left, ?_⟩
    simp only [rootEntry_size, UInt64.lt_iff_toNat_lt, lsize]
    by_cases side : i.toNat < l.size
    · rw [if_pos side] at leaf ⊢
      refine bind_ok.mpr ⟨_, hl held.left (by omega) side siblings leaf, ?_⟩
      refine bind_ok.mpr ⟨_, right, ?_⟩
      simp [auditPath, side]
    · have shifted : (i - UInt64.ofNat l.size).toNat = i.toNat - l.size := by
        rw [toNat_sub_of_le (by omega), lsize]
      rw [if_neg side, ← shifted] at leaf
      rw [if_neg side]
      refine bind_ok.mpr ⟨_, hr held.right (by omega) (by omega) siblings leaf, ?_⟩
      simp [auditPath, side, shifted]

end Generation

theorem Balanced.split_sizes {r l : HashTree.DigestTree D}
    (bal : Balanced (.node l r)) (whole : size.toNat = l.size + r.size) :
    (largestPowerOfTwoBelow size).toNat = l.size ∧
      (size - largestPowerOfTwoBelow size).toNat = r.size := by
  have lpos := l.size_pos
  have rpos := r.size_pos
  obtain ⟨left, right⟩ := split_toNat (show 2 ≤ size.toNat by omega)
  rw [whole, ← bal.1] at left
  rw [whole, ← bal.1] at right
  exact ⟨left, by omega⟩

theorem auditPathLoop_eq {rounds : Nat}
    (H : Hasher D) (bal : Balanced t) (small : t.size ≤ 2 ^ rounds)
    (whole : size.toNat = t.size) (sub : i.toNat < t.size) (length : UInt64) :
    auditPathLoop rounds i size length = length + UInt64.ofNat (auditPath H t i.toNat).length := by
  induction t generalizing rounds i size length with
  | leaf d =>
    have one : size ≤ 1 := by
      rw [UInt64.le_iff_toNat_le, whole]
      exact le_refl 1
    cases rounds <;> simp [auditPathLoop, auditPath, one]
  | node l r hl hr =>
    have lpos := l.size_pos
    have rpos := r.size_pos
    simp only [DigestTree.size] at small whole sub
    cases rounds with
    | zero => omega
    | succ rounds =>
      obtain ⟨left, right⟩ := bal.halves small
      obtain ⟨lsize, rsize⟩ := Balanced.split_sizes bal whole
      have more : ¬ size ≤ 1 := by
        rw [UInt64.le_iff_toNat_le, whole]
        simp
        omega
      rw [auditPathLoop, if_neg more]
      simp only [UInt64.lt_iff_toNat_lt, lsize]
      by_cases side : i.toNat < l.size
      · rw [if_pos side, hl bal.2.1 left lsize side, auditPath, if_pos side]
        simp [UInt64.ofNat_add, UInt64.add_assoc, UInt64.add_comm 1]
      · have shifted : (i - largestPowerOfTwoBelow size).toNat = i.toNat - l.size := by
          rw [toNat_sub_of_le (by omega), lsize]
        rw [if_neg side, hr bal.2.2 right rsize (by omega), auditPath, if_neg side, shifted]
        simp [UInt64.ofNat_add, UInt64.add_assoc, UInt64.add_comm 1]

theorem auditPathLength_eq (H : Hasher D) (bal : Balanced t) (whole : size.toNat = t.size)
    (sub : i.toNat < t.size) :
    auditPathLength i size = UInt64.ofNat (auditPath H t i.toNat).length := by
  have small : t.size ≤ 2 ^ 64 := by
    rw [← whole]
    exact le_of_lt size.toNat_lt
  rw [auditPathLength, auditPathLoop_eq H bal small whole sub, UInt64.zero_add]

variable {leaves : List RawLeaf} {leaf : RawLeaf} {snap : Snapshot D}

section Verification

variable {H : Hasher D} {proof : InclusionProof D} {siblings : List (Digest D)} {t : DigestTree D}
  {rest : List D}

theorem sibling_at {p : List D} {sibling : D}
    (h : siblings.map Digest.value = p ++ ([sibling] ++ rest)) :
    ∃ digest, siblings[p.length]? = some digest ∧ digest.value = sibling := by
  have found := congrArg (fun ds => ds[p.length]?) h
  simpa only [getElem?_map, singleton_append, getElem?_append_right (Nat.le_refl _),
    Nat.sub_self, getElem?_cons_zero, Option.map_eq_some_iff] using found

theorem reconstructInclusionRoot_eq {n : Nat}
    (bal : Balanced t) (small : t.size ≤ 2 ^ n) (enough : n < fuel)
    (whole : size.toNat = t.size) (sub : i.toNat < t.size) (leaf : t.leaves[i.toNat]? = some d)
    (p : siblings.map Digest.value = auditPath H t i.toNat ++ rest) :
    (reconstructInclusionRoot H d siblings fuel i size).outcome =
      .ok (t.digest H.hashBranch, (auditPath H t i.toNat).length) := by
  obtain ⟨fuel, rfl⟩ : ∃ f, fuel = f + 1 := ⟨fuel - 1, by omega⟩
  induction t generalizing n fuel i size rest with
  | leaf e =>
    have only : i.toNat = 0 := by simpa [DigestTree.size] using sub
    rw [only] at leaf
    simp only [DigestTree.leaves, getElem?_cons_zero, Option.some.injEq] at leaf
    rw [reconstructInclusionRoot, poll_bind, if_pos (size_eq_one.mpr whole)]
    simp [auditPath, DigestTree.digest, leaf]
  | node l r hl hr =>
    have lpos := l.size_pos
    have rpos := r.size_pos
    simp only [DigestTree.size] at small whole sub
    cases n with
    | zero => omega
    | succ n =>
      obtain ⟨fuel, rfl⟩ : ∃ f, fuel = f + 1 := ⟨fuel - 1, by omega⟩
      obtain ⟨left, right⟩ := bal.halves small
      obtain ⟨lsize, rsize⟩ := Balanced.split_sizes bal whole
      have branch : ¬ size = 1 := by
        rw [size_eq_one]
        omega
      rw [leaves_node] at leaf
      rw [reconstructInclusionRoot, poll_bind, if_neg branch]
      simp only [UInt64.lt_iff_toNat_lt, lsize]
      by_cases side : i.toNat < l.size
      · rw [auditPath, if_pos side, append_assoc] at p
        rw [if_pos side] at leaf
        rw [if_pos side, auditPath, if_pos side]
        refine bind_ok.mpr
          ⟨_, hl bal.2.1 left lsize side leaf p fuel (by omega), ?_⟩
        obtain ⟨digest, found, v⟩ := sibling_at p
        simp [found, v, DigestTree.digest, Except.bind]
      · have shifted : (i - largestPowerOfTwoBelow size).toNat = i.toNat - l.size := by
          rw [toNat_sub_of_le (by omega), lsize]
        rw [auditPath, if_neg side, append_assoc, ← shifted] at p
        rw [if_neg side, ← shifted] at leaf
        rw [if_neg side, auditPath, if_neg side, ← shifted]
        refine bind_ok.mpr
          ⟨_, hr bal.2.2 right rsize (by omega) leaf p fuel (by omega), ?_⟩
        obtain ⟨digest, found, v⟩ := sibling_at p
        simp [found, v, DigestTree.digest, Except.bind]

theorem value_newDigest (alg : UInt8) (ds : List D) :
    (ds.map (newDigest alg)).map Digest.value = ds := by
  simp [newDigest, Function.comp_def]

theorem reconstructInclusionRoot_auditPath (alg : UInt8) (bal : Balanced t)
    (whole : size.toNat = t.size) (leaf : t.leaves[i.toNat]? = some d) :
    (reconstructInclusionRoot H d ((auditPath H t i.toNat).map (newDigest alg)) sizeFuel i
      size).outcome = .ok (t.digest H.hashBranch, (auditPath H t i.toNat).length) := by
  obtain ⟨sub, _⟩ := List.getElem?_eq_some_iff.mp leaf
  rw [t.length_leaves] at sub
  have word := size.toNat_lt
  exact reconstructInclusionRoot_eq bal (show t.size ≤ 2 ^ 64 by omega) (by decide) whole sub
    leaf ((value_newDigest alg _).trans (append_nil _).symm)

/-- The size and the index fix where each sibling is joined, so two reconstructions of one root
started from the same leaf digest. -/
theorem reconstructInclusionRoot_injective
    {r leaf' : D} {used used' : Nat} {others : List (Digest D)}
    (inj : H.Injective) {leaf : D}
    (one : (reconstructInclusionRoot H leaf siblings fuel i size).outcome = .ok (r, used))
    (other : (reconstructInclusionRoot H leaf' others fuel i size).outcome = .ok (r, used')) :
    leaf = leaf' := by
  induction fuel generalizing i size r used used' with
  | zero => cases one
  | succ fuel ih =>
    rw [reconstructInclusionRoot, poll_bind] at one other
    by_cases single : size = 1
    · simp only [if_pos single, outcome_pure, Except.ok.injEq, Prod.mk.injEq] at one other
      exact one.1.trans other.1.symm
    · rw [if_neg single] at one other
      by_cases side : i < largestPowerOfTwoBelow size
      · simp only [if_pos side, bind_ok, Prod.exists, outcome_pure, Except.ok.injEq,
          Prod.mk.injEq] at one other
        obtain ⟨_, _, below, _, _, joined, _⟩ := one
        obtain ⟨_, _, below', _, _, joined', _⟩ := other
        obtain ⟨rfl, _⟩ := inj.branch _ _ _ _ (joined.trans joined'.symm)
        exact ih below below'
      · simp only [if_neg side, bind_ok, Prod.exists, outcome_pure, Except.ok.injEq,
          Prod.mk.injEq] at one other
        obtain ⟨_, _, below, _, _, joined, _⟩ := one
        obtain ⟨_, _, below', _, _, joined', _⟩ := other
        obtain ⟨_, rfl⟩ := inj.branch _ _ _ _ (joined.trans joined'.symm)
        exact ih below below'

theorem Hasher.Injective.leafDigest (inj : H.Injective) :
    Function.Injective (fun leaf : RawLeaf => H.hashLeaf leaf.value) := by
  rintro ⟨a⟩ ⟨b⟩ eq
  exact congrArg RawLeaf.mk (inj.leaf _ _ eq)

theorem leafDigests_get {ls : List RawLeaf} {i : Nat} (h : (leafDigests H ls)[i]? = some d) :
    ∃ leaf, ls[i]? = some leaf ∧ H.hashLeaf leaf.value = d := by
  simpa [leafDigests] using h

theorem InclusionProof.validate_ok (valid : proof.validate = .ok ()) :
    proof.leafIndex < proof.treeSize ∧ proof.root.treeSize = proof.treeSize := by
  simp only [InclusionProof.validate, bind, Except.bind, pure, Except.pure] at valid
  repeat' split at valid
  all_goals simp_all

variable [DecidableEq D] {lim : ProofLimits} {pr : Profile}

/-- Limits under which the proof for a leaf of a tree is made and checked. -/
structure ProofLimits.Admits (limits : ProofLimits) (index size : UInt64) : Prop where
  valid : limits.validate = .ok ()
  elements : auditPathLength index size ≤ limits.maxElements
  depth : UInt64.ofNat (len64 size) ≤ limits.maxTraversalDepth

/-- A root as the source computes it for the leaves, whatever its profile. -/
structure Root.Commits (H : Hasher D) (root : Root D) (leaves : List RawLeaf) : Prop where
  size : root.treeSize.toNat = leaves.length
  digest : root.digest.value = treeDigest H leaves

def honestInclusion (H : Hasher D) (profile : Profile) (leaves : List RawLeaf) (t : DigestTree D)
    (index : UInt64) (d : D) : InclusionProof D :=
  ⟨profile.id, profile.version, profile.algorithm,
    newRoot profile (UInt64.ofNat leaves.length) (treeDigest H leaves), UInt64.ofNat leaves.length,
    index, newDigest profile.algorithm d,
    (auditPath H t index.toNat).map (newDigest profile.algorithm)⟩

theorem verifyInclusion_ok (accepted : (verifyInclusion H proof leaf lim).outcome = .ok ()) :
    proof.validate = .ok () ∧ ∃ consumed,
      (reconstructInclusionRoot H (H.hashLeaf leaf.value) proof.siblings sizeFuel proof.leafIndex
        proof.treeSize).outcome = .ok (proof.root.digest.value, consumed) := by
  simp only [verifyInclusion, bind_ok, poll_bind, failIf_eq_ok, outcome_lift,
    exists_const, Prod.exists, not_not] at accepted
  obtain ⟨_, _, _, _, _, _, checked, _, _, cur, consumed, ran, reached⟩ := accepted
  rw [reached] at ran
  exact ⟨checked, consumed, ran⟩

theorem verifyInclusion_sound (inj : H.Injective) (r : proof.root.Commits H leaves)
    (accepted : (verifyInclusion H proof leaf lim).outcome = .ok ()) :
    leaves[proof.leafIndex.toNat]? = some leaf := by
  obtain ⟨checked, consumed, reached⟩ := verifyInclusion_ok accepted
  obtain ⟨sub, size⟩ := InclusionProof.validate_ok checked
  have length : (leafDigests H leaves).length = leaves.length := length_map ..
  rw [UInt64.lt_iff_toNat_lt, ← size, r.size, ← length] at sub
  obtain ⟨t, bal, ls⟩ := exists_balanced (leafDigests H leaves) (by omega)
  have whole : proof.treeSize.toNat = t.size := by rw [← size, r.size, size_of_leaves ls]
  rw [← ls] at sub
  have found := getElem?_eq_getElem sub
  have honest := reconstructInclusionRoot_auditPath (H := H) 0 bal whole found
  rw [r.digest, treeDigest, ← ls, treeHash_leaves _ _ bal] at reached
  rw [← reconstructInclusionRoot_injective inj reached honest, ls] at found
  obtain ⟨other, at_index, eq⟩ := leafDigests_get found
  rw [at_index, inj.leafDigest eq]

theorem inclusionProof_eq (known : pr.validate = .ok ()) (fits : 2 * leaves.length ≤ 2 ^ 64)
    (rep : snap.Represents H pr (leafDigests H leaves))
    (sub : i.toNat < leaves.length) (admits : lim.Admits i (UInt64.ofNat leaves.length)) :
    ∃ t d, Balanced t ∧ t.leaves = leafDigests H leaves ∧ t.leaves[i.toNat]? = some d ∧
      (snap.inclusionProof i lim).outcome = .ok (honestInclusion H pr leaves t i d) := by
  have nonempty : leaves ≠ [] := by
    rintro rfl
    simp at sub
  obtain ⟨t, bal, ls, ns, rootNode⟩ := rep.tree_leaves nonempty
  have size := size_of_leaves ls
  have below : ¬ i ≥ UInt64.ofNat leaves.length := by
    rw [ge_iff_le, UInt64.le_iff_toNat_le, toNat_ofNat_of_lt (by omega)]
    omega
  have es : ¬ auditPathLength i (UInt64.ofNat leaves.length) > lim.maxElements :=
    UInt64.not_lt.mpr admits.elements
  have depth : ¬ UInt64.ofNat (len64 (UInt64.ofNat leaves.length)) > lim.maxTraversalDepth :=
    UInt64.not_lt.mpr admits.depth
  obtain ⟨d, leaf⟩ : ∃ d, t.leaves[i.toNat]? = some d :=
    ⟨_, getElem?_eq_getElem (by rw [DigestTree.length_leaves]; omega)⟩
  have n : (layout H 0 t).length = 2 * t.size - 1 := by rw [length_layout, nodeCount]
  have p := appendAuditPath_eq (H := H) pr.algorithm (by omega) (holds_layout t)
    (show t.size ≤ (layout H 0 t).length by omega) (by omega) [] leaf
  rw [zero_add, nil_append] at p
  refine ⟨t, d, bal, ls, leaf, ?_⟩
  simp only [Snapshot.inclusionProof, outcome_bind, outcome_lift,
    rep.validate known (by simpa using fits), admits.valid, Except.bind, outcome_poll,
    outcome_failIf, rep.root_leaves, rep.profile, ns, rootNode, newRoot, if_neg below,
    if_neg es, if_neg depth, p]
  rfl

theorem verifyInclusion_complete (known : pr.validate = .ok ()) (fits : 2 * leaves.length ≤ 2 ^ 64)
    (bal : Balanced t) (ls : t.leaves = leafDigests H leaves)
    (at_index : leaves[i.toNat]? = some leaf) (admits : lim.Admits i (UInt64.ofNat leaves.length))
    (bs : leaf.value.length ≤ lim.maxLeafBytes.toNat) :
    (verifyInclusion H (honestInclusion H pr leaves t i (H.hashLeaf leaf.value)) leaf
      lim).outcome = .ok () := by
  obtain ⟨sub, _⟩ := List.getElem?_eq_some_iff.mp at_index
  have size := size_of_leaves ls
  have whole : (UInt64.ofNat leaves.length).toNat = t.size := by
    rw [toNat_ofNat_of_lt (by omega), size]
  have es := auditPathLength_eq H bal whole (show i.toNat < t.size by omega)
  have depth : ¬ UInt64.ofNat (len64 (UInt64.ofNat leaves.length)) > lim.maxTraversalDepth :=
    UInt64.not_lt.mpr admits.depth
  have few : ¬ UInt64.ofNat (auditPath H t i.toNat).length > lim.maxElements := by
    rw [← es]
    exact UInt64.not_lt.mpr admits.elements
  have ne : ¬ UInt64.ofNat leaves.length = 0 := by
    rw [← UInt64.toNat_inj, whole]
    exact Nat.pos_iff_ne_zero.mp t.size_pos
  have below : ¬ UInt64.ofNat leaves.length ≤ i := by
    rw [UInt64.le_iff_toNat_le, whole]
    omega
  have at_tree : t.leaves[i.toNat]? = some (H.hashLeaf leaf.value) := by
    rw [ls, leafDigests, getElem?_map, at_index]
    rfl
  have reached := reconstructInclusionRoot_auditPath (H := H) pr.algorithm bal whole at_tree
  have digest : t.digest H.hashBranch = treeDigest H leaves := by
    rw [treeDigest, ← ls, treeHash_leaves _ _ bal]
  have checked : (honestInclusion H pr leaves t i (H.hashLeaf leaf.value)).validate = .ok () := by
    obtain ⟨id, version, alg⟩ := pr
    have sha : alg = hashSHA256 := Profile.algorithm_eq known
    rw [sha] at known
    simp [InclusionProof.validate, honestInclusion, sha, known, newRoot, ne, below, bind,
      Except.bind, pure, Except.pure]
  unfold honestInclusion at checked ⊢
  simp only [verifyInclusion, outcome_bind, outcome_lift, admits.valid, Except.bind,
    outcome_poll, outcome_failIf, length_map, if_neg few, if_neg depth,
    if_neg (ofNat_le bs), checked, es, newDigest_value, reached, newRoot_value, digest, ne_eq,
    not_true_eq_false, if_false]

theorem inclusionProof_admits (made : (snap.inclusionProof i lim).outcome = .ok proof) :
    lim.Admits i snap.root.treeSize := by
  simp only [Snapshot.inclusionProof, bind_ok, poll_bind, failIf_eq_ok,
    outcome_lift, exists_const] at made
  obtain ⟨_, _, _, valid, _, es, depth, _⟩ := made
  exact ⟨valid, UInt64.not_lt.mp es, UInt64.not_lt.mp depth⟩

variable (H)

theorem treeDigest_pair :
    treeDigest Hasher.free [⟨[1]⟩, ⟨[2]⟩] = .branch (.leaf [1]) (.leaf [2]) := by
  simp [treeDigest, leafDigests, Hasher.free]

theorem treeDigest_three : treeDigest Hasher.free threeLeaves =
    .branch (.branch (.leaf [1]) (.leaf [2])) (.leaf [3]) := by
  rw [treeDigest, treeHash_two_pow _ _ (k := 1) (by decide) (by decide)]
  simp [leafDigests, Hasher.free, threeLeaves]

/-- Inclusion proofs are made for every leaf and accepted for it; an accepted proof against
the root of a list names a leaf of that list, whatever its siblings. -/
theorem inclusion_proofs_exact :
    (∀ (ctx : Context) (profile : Profile) (limits : SnapshotLimits) (leaves : List RawLeaf)
        (snapshot : Snapshot D), limits.Admits leaves →
      ctx.run (newSnapshot H profile leaves limits) = .ok snapshot →
      ∀ (index : UInt64) (leaf : RawLeaf), leaves[index.toNat]? = some leaf →
        (∀ making : ProofLimits, making.Admits index (UInt64.ofNat leaves.length) →
          ∃ proof, Context.background.run (snapshot.inclusionProof index making) = .ok proof) ∧
        (∀ (asked : Context) (making checking : ProofLimits) (proof : InclusionProof D),
          asked.run (snapshot.inclusionProof index making) = .ok proof →
          checking.Admits index (UInt64.ofNat leaves.length) →
          leaf.value.length ≤ checking.maxLeafBytes.toNat →
          Context.background.run (verifyInclusion H proof leaf checking) = .ok ())) ∧
      (H.Injective → ∀ (ctx : Context) (limits : ProofLimits) (proof : InclusionProof D)
        (leaf : RawLeaf) (leaves : List RawLeaf), proof.root.Commits H leaves →
        ctx.run (verifyInclusion H proof leaf limits) = .ok () →
        leaves[proof.leafIndex.toNat]? = some leaf) := by
  simp only [Context.run_background]
  constructor
  · intro ctx profile limits leaves snapshot within made index leaf at_index
    obtain ⟨known, valid, represents, _⟩ := newSnapshot_run H within.small made
    have retained := limits.retained_lt valid
    have nodes := within.nodes
    obtain ⟨inside, _⟩ := List.getElem?_eq_some_iff.mp at_index
    constructor
    · intro making admits
      obtain ⟨_, _, _, _, _, proof⟩ := inclusionProof_eq known (by omega) represents inside admits
      exact ⟨_, proof⟩
    · intro asked making checking proof generated admits bytes
      have outcome := Context.run_ok generated
      have limits' := inclusionProof_admits outcome
      rw [represents.root_leaves] at limits'
      obtain ⟨t, d, balanced, ls, found, proof'⟩ :=
        inclusionProof_eq known (by omega) represents inside limits'
      cases Except.ok.inj (outcome.symm.trans proof')
      rw [ls] at found
      obtain ⟨other, same, rfl⟩ := leafDigests_get found
      cases Option.some.inj (at_index.symm.trans same)
      exact verifyInclusion_complete known (by omega) balanced ls at_index admits bytes
  · intro inj ctx limits proof leaf leaves root accepted
    exact verifyInclusion_sound inj root (Context.run_ok accepted)

/-- The proof made for the second of three leaves is accepted for that leaf alone. -/
theorem inclusion_proofs_exact_three :
    ∃ snapshot proof,
      Context.background.run (newSnapshot Hasher.free canonicalProfile threeLeaves smallLimits) =
        .ok snapshot ∧
      Context.background.run (snapshot.inclusionProof 1 ⟨8, 8, 8⟩) = .ok proof ∧
      ∀ leaf, Context.background.run (verifyInclusion Hasher.free proof leaf ⟨8, 8, 8⟩) = .ok () ↔
        leaf = ⟨[2]⟩ := by
  obtain ⟨complete, sound⟩ := inclusion_proofs_exact Hasher.free
  obtain ⟨snapshot, made⟩ : ∃ snapshot, Context.background.run (newSnapshot Hasher.free
      canonicalProfile threeLeaves smallLimits) = .ok snapshot := ⟨_, rfl⟩
  obtain ⟨proves, accepts⟩ := complete .background canonicalProfile smallLimits threeLeaves
    snapshot smallLimits_admits made 1 ⟨[2]⟩ rfl
  have admits : ProofLimits.Admits ⟨8, 8, 8⟩ 1 3 := ⟨rfl, by decide, by decide⟩
  obtain ⟨proof, proved⟩ := proves ⟨8, 8, 8⟩ admits
  refine ⟨snapshot, proof, made, proved, fun leaf => ⟨fun accepted => ?_, ?_⟩⟩
  · cases Except.ok.inj (made.symm.trans rfl)
    cases Except.ok.inj (proved.symm.trans rfl)
    have found := sound Hasher.free_injective .background _ _ leaf threeLeaves
      ⟨rfl, treeDigest_three.symm⟩ accepted
    exact (Option.some.inj found).symm
  · rintro rfl
    exact accepts .background _ _ proof proved admits (by decide)

/-- One root shows one leaf at a position, also a root that commits to no list. -/
theorem inclusion_binds_position (inj : H.Injective) {ctx ctx' : Context}
    {proof proof' : InclusionProof D} {leaf leaf' : RawLeaf} {limits limits' : ProofLimits}
    (root : proof.root = proof'.root) (index : proof.leafIndex = proof'.leafIndex)
    (accepted : ctx.run (verifyInclusion H proof leaf limits) = .ok ())
    (accepted' : ctx'.run (verifyInclusion H proof' leaf' limits') = .ok ()) : leaf = leaf' := by
  obtain ⟨checked, used, reached⟩ := verifyInclusion_ok (Context.run_ok accepted)
  obtain ⟨checked', used', reached'⟩ := verifyInclusion_ok (Context.run_ok accepted')
  have size : proof.treeSize = proof'.treeSize := by
    rw [← (InclusionProof.validate_ok checked).2, ← (InclusionProof.validate_ok checked').2, root]
  rw [root, index, size] at reached
  exact inj.leafDigest (reconstructInclusionRoot_injective inj reached reached')

theorem inclusion_binds_position_pair :
    Context.background.run (verifyInclusion Hasher.free ⟨1, 1, 1,
        newRoot canonicalProfile 2 (.branch (.leaf [1]) (.leaf [2])), 2, 0, ⟨1, .leaf [1]⟩,
        [⟨1, .leaf [2]⟩]⟩ ⟨[1]⟩ ⟨8, 8, 8⟩) = .ok () ∧ (⟨[1]⟩ : RawLeaf) = ⟨[1]⟩ := by
  refine (and_iff_left_of_imp fun accepted => ?_).mpr rfl
  exact inclusion_binds_position _ Hasher.free_injective rfl rfl accepted accepted

end Verification

end Golib.MerkleTree
