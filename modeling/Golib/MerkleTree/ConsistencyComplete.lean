import Golib.MerkleTree.ConsistencyPaths

/-! Completeness of consistency proofs: a snapshot answers for every prefix of its leaves,
with the nodes of the path and no others, and the verifier accepts the answer. -/
namespace Golib.MerkleTree

open HashTree Polled List

variable {D : Type} {H : Hasher D} {t : DigestTree D} {pr : Profile} {m : Nat} {older : Root D}

structure ConsistencyProofLimits.Admits (limits : ConsistencyProofLimits) (older newer : UInt64) :
    Prop where
  valid : limits.validate = .ok ()
  elements : consistencyPathLength older newer ≤ limits.maxElements
  depth : UInt64.ofNat (len64 newer) ≤ limits.maxTraversalDepth

/-- The proof between the first `m` leaves of a tree and all of them. -/
def honestProof (H : Hasher D) (profile : Profile) (t : DigestTree D) (m : Nat) (older : Root D) :
    ConsistencyProof D :=
  ⟨profile.id, profile.version, profile.algorithm, older,
    newRoot profile (UInt64.ofNat t.size) (t.digest H.hashBranch), UInt64.ofNat m,
      UInt64.ofNat t.size,
    if m = t.size then [] else (subproof H t m true).map (newDigest profile.algorithm)⟩

theorem consistencyPathLength_eq (bal : Balanced t) (word : t.size < 2 ^ 64) (pos : 0 < m)
    (sub : m ≤ t.size) (pr : Profile) (older : Root D) :
    (honestProof H pr t m older).nodes.length =
      (consistencyPathLength (UInt64.ofNat m) (UInt64.ofNat t.size)).toNat := by
  have mword : (UInt64.ofNat m).toNat = m := toNat_ofNat_of_lt (by omega)
  have tword : (UInt64.ofNat t.size).toNat = t.size := toNat_ofNat_of_lt word
  by_cases all : m = t.size
  · simp [honestProof, consistencyPathLength, all]
  · have ne : ¬ UInt64.ofNat m = UInt64.ofNat t.size := by
      rw [← UInt64.toNat_inj, mword, tword]
      exact all
    have few := length_subproof_le H bal (n := 64) (by omega) m true
    rw [consistencyPathLength, if_neg ne,
      consistencyPathLoop_eq H bal (by omega) tword (by omega) (by omega), UInt64.zero_add, mword,
      toNat_ofNat_of_lt (by omega), honestProof, if_neg all, length_map]

theorem honestProof_start (bal : Balanced t) (word : t.size < 2 ^ 64) (pos : 0 < m)
    (proper : m < t.size) (pr : Profile)
    (d : older.digest.value = treeHash H.hashBranch H.empty (t.leaves.take m)) :
    consistencyStart (honestProof H pr t m older) =
      pure (stopDigest H t m, (climb H t m).map (newDigest pr.algorithm)) := by
  have mword : (UInt64.ofNat m).toNat = m := toNat_ofNat_of_lt (by omega)
  have power : UInt64.ofNat m &&& (UInt64.ofNat m - 1) = 0 ↔ onSpine t m = true := by
    rw [and_pred_eq_zero (by omega), mword, onSpine_iff bal pos proper]
  simp only [consistencyStart, honestProof, if_neg (Nat.ne_of_lt proper), power, subproof,
    Bool.true_and]
  by_cases spine : onSpine t m = true
  · rw [if_pos spine, if_pos spine, d, onSpine_stop H bal pos (by omega) spine]
    rfl
  · rw [if_neg spine, if_neg spine]
    rfl

theorem honestProof_validate (known : pr.validate = .ok ()) (word : t.size < 2 ^ 64)
    (pos : 0 < m) (sub : m ≤ t.size) (digest : D) :
    (honestProof H pr t m (newRoot pr (UInt64.ofNat m) digest)).validate = .ok () := by
  have mword : (UInt64.ofNat m).toNat = m := toNat_ofNat_of_lt (by omega)
  have tword : (UInt64.ofNat t.size).toNat = t.size := toNat_ofNat_of_lt word
  have order : UInt64.ofNat m ≤ UInt64.ofNat t.size := by
    rw [UInt64.le_iff_toNat_le, mword, tword]
    exact sub
  have ne : ¬ UInt64.ofNat m = 0 := by
    rw [← UInt64.toNat_inj, mword]
    exact Nat.pos_iff_ne_zero.mp pos
  obtain ⟨id, version, alg⟩ := pr
  have sha : alg = hashSHA256 := Profile.algorithm_eq known
  rw [sha] at known
  have eq : (honestProof H ⟨id, version, alg⟩ t m
      (newRoot ⟨id, version, alg⟩ (UInt64.ofNat m) digest)).nodes.any
      (fun n => n.algorithm != alg) = false := by
    rw [any_eq_false]
    intro n mem
    simp only [honestProof] at mem
    split at mem
    · cases mem
    · obtain ⟨d, _, rfl⟩ := mem_map.mp mem
      simp
  simp only [ConsistencyProof.validate, rootMatchesProofIdentity, honestProof] at eq ⊢
  simp [sha] at eq ⊢
  simp [known, newRoot, ne, UInt64.not_lt.mpr order, bind, Except.bind, pure, Except.pure]

variable [DecidableEq D] {lim : ConsistencyProofLimits}

theorem consistencyProof_eq {leaves : List RawLeaf}
    {snap : Snapshot D} (known : pr.validate = .ok ())
    (fits : 2 * leaves.length ≤ 2 ^ 64) (rep : snap.Represents H pr (leafDigests H leaves))
    (bal : Balanced t) (ls : t.leaves = leafDigests H leaves) (pos : 0 < m)
    (sub : m ≤ leaves.length) (admits : lim.Admits (UInt64.ofNat m) (UInt64.ofNat leaves.length))
    (size : older.treeSize = UInt64.ofNat m) (shared : rootsShareProfile older snap.root = true) :
    (snap.consistencyProof H older lim).outcome =
      if older.digest.value = treeDigest H (leaves.take m) then .ok (honestProof H pr t m older)
      else .error .verificationFailed := by
  have nonempty : leaves ≠ [] := by
    rintro rfl
    simp at sub
    omega
  obtain ⟨t', balanced', ls', ns, rootNode⟩ := rep.tree_leaves nonempty
  cases balanced_unique bal balanced' (ls.trans ls'.symm)
  have tsize := size_of_leaves ls
  have mword : (UInt64.ofNat m).toNat = m := toNat_ofNat_of_lt (by omega)
  have nword : (UInt64.ofNat leaves.length).toNat = leaves.length := toNat_ofNat_of_lt (by omega)
  have digest : treeDigest H leaves = t.digest H.hashBranch := by
    rw [treeDigest, ← ls, treeHash_leaves _ _ bal]
  have part : treeHash H.hashBranch H.empty (t.leaves.take m) = treeDigest H (leaves.take m) := by
    rw [ls, treeDigest, leafDigests, leafDigests, map_take]
  have order : ¬ (UInt64.ofNat m > UInt64.ofNat leaves.length ∨
      (UInt64.ofNat m = 0 ∧ UInt64.ofNat leaves.length ≠ 0)) := by
    rw [gt_iff_lt, UInt64.lt_iff_toNat_lt, ← UInt64.toNat_inj, mword, nword]
    simp only [UInt64.toNat_zero]
    omega
  have es := UInt64.not_lt.mpr admits.elements
  have d := UInt64.not_lt.mpr admits.depth
  have sizes : snap.root.treeSize = UInt64.ofNat leaves.length := by rw [rep.root_leaves]; rfl
  have v : snap.root.digest.value = t.digest H.hashBranch := by rw [rep.root_leaves, ← digest]; rfl
  have r : snap.root = newRoot pr (UInt64.ofNat t.size) (t.digest H.hashBranch) := by
    rw [rep.root_leaves, tsize, digest]
  simp only [Snapshot.consistencyProof, outcome_bind, outcome_lift,
    rep.validate known (by simpa using fits), admits.valid, Except.bind, outcome_poll,
    outcome_failIf, size, sizes, if_neg order, shared, gt_iff_lt, es, d, if_false,
    Bool.true_eq_false]
  by_cases all : m = leaves.length
  · rw [if_pos (by rw [all]), failIf_bind, v, ← digest]
    have eq : leaves.take m = leaves := by rw [all, take_length]
    simp only [eq, ne_eq, ite_not, outcome_pure, honestProof, tsize, if_pos all, r, rep.profile]
  · have ne : ¬ UInt64.ofNat m = UInt64.ofNat leaves.length := by
      rw [← UInt64.toNat_inj, mword, nword]
      exact all
    have n : (layout H 0 t).length = 2 * t.size - 1 := by rw [length_layout, nodeCount]
    have p := appendConsistencySubproof_eq (H := H) pr.algorithm (by omega) bal
      (holds_layout t) (show t.size ≤ (layout H 0 t).length by omega)
      (show 0 < (UInt64.ofNat m).toNat by omega) (by omega) true []
    rw [Nat.zero_add, nil_append, mword, part] at p
    rw [if_neg ne, outcome_bind, rep.profile, ns, rootNode, p]
    simp only [Except.bind, failIf_bind, outcome_pure, honestProof, tsize, if_neg all, r]
    by_cases eq : older.digest.value = treeDigest H (leaves.take m)
    · simp [eq]
    · simp [eq, Ne.symm eq]

theorem verifyConsistency_complete (known : pr.validate = .ok ()) (bal : Balanced t)
    (word : t.size < 2 ^ 64) (pos : 0 < m) (sub : m ≤ t.size)
    (admits : lim.Admits (UInt64.ofNat m) (UInt64.ofNat t.size)) :
    (verifyConsistency H (honestProof H pr t m (newRoot pr (UInt64.ofNat m)
      (treeHash H.hashBranch H.empty (t.leaves.take m)))) lim).outcome = .ok () := by
  have few : ∀ older : Root D,
      ¬ UInt64.ofNat (honestProof H pr t m older).nodes.length > lim.maxElements := by
    intro older
    rw [consistencyPathLength_eq bal word pos sub, UInt64.ofNat_toNat]
    exact UInt64.not_lt.mpr admits.elements
  have d := UInt64.not_lt.mpr admits.depth
  have mword : (UInt64.ofNat m).toNat = m := toNat_ofNat_of_lt (by omega)
  have tword : (UInt64.ofNat t.size).toNat = t.size := toNat_ofNat_of_lt word
  simp only [verifyConsistency, outcome_bind, outcome_lift, admits.valid, Except.bind,
    outcome_poll, outcome_failIf, if_neg (few _),
    honestProof_validate known word pos sub]
  by_cases all : m = t.size
  · have whole : t.leaves.take t.size = t.leaves := by rw [← DigestTree.length_leaves, take_length]
    simp [honestProof, all, whole, treeHash_leaves _ _ bal, d, newRoot, Except.bind]
  · have ne : ¬ UInt64.ofNat m = UInt64.ofNat t.size := by
      rw [← UInt64.toNat_inj, mword, tword]
      exact all
    rw [honestProof_start bal word pos (by omega) pr rfl]
    have walk := honestWalk (H := H) pr.algorithm bal word pos (by omega)
    simp [honestProof, d, ne, Except.bind, walk, newRoot]

/-- A snapshot gives an accepted consistency proof of the prescribed length for the root of
every nonempty prefix, and refuses every other digest of that size. -/
theorem consistency_proofs_complete {ctx : Context} {profile : Profile} {limits : SnapshotLimits}
    {leaves : List RawLeaf} {snapshot : Snapshot D} (within : limits.Admits leaves)
    (made : ctx.run (newSnapshot H profile leaves limits) = .ok snapshot) {m : Nat}
    (positive : 1 ≤ m)
    (inside : m ≤ leaves.length) {making : ConsistencyProofLimits}
    (admits : making.Admits (UInt64.ofNat m) (UInt64.ofNat leaves.length)) :
    (∃ older proof,
      Context.background.run (computeRoot H profile
        (leaves.take m) limits.construction) = .ok older ∧
      Context.background.run (snapshot.consistencyProof H older making) = .ok proof ∧
      proof.nodes.length =
        (consistencyPathLength (UInt64.ofNat m) (UInt64.ofNat leaves.length)).toNat ∧
      ∀ checking : ConsistencyProofLimits,
        checking.Admits (UInt64.ofNat m) (UInt64.ofNat leaves.length) →
        Context.background.run (verifyConsistency H proof checking) = .ok ()) ∧
    (∀ older : Root D, older.treeSize = UInt64.ofNat m →
      rootsShareProfile older snapshot.root = true →
      older.digest.value ≠ treeDigest H (leaves.take m) →
      Context.background.run (snapshot.consistencyProof H older making) =
        .error .verificationFailed) := by
  simp only [Context.run_background]
  obtain ⟨known, valid, represents, _⟩ := newSnapshot_run H within.small made
  have retained := limits.retained_lt valid
  have nodes := within.nodes
  have nonempty : leaves ≠ [] := by
    rintro rfl
    simp at inside
    omega
  obtain ⟨t, balanced, ls, _⟩ := represents.tree_leaves nonempty
  have size := size_of_leaves ls
  have answer (older : Root D) (sized : older.treeSize = UInt64.ofNat m)
      (shared : rootsShareProfile older snapshot.root = true) :=
    consistencyProof_eq known (by omega) represents balanced ls positive inside admits sized shared
  constructor
  · have before : limits.construction.Admits (leaves.take m) := by
      have all := within.construction
      rw [← take_append_drop m leaves] at all
      exact all.left
    have count : (leaves.take m).length = m := by
      rw [length_take]
      omega
    have part : treeDigest H (leaves.take m) = treeHash H.hashBranch H.empty (t.leaves.take m) := by
      rw [ls, treeDigest, leafDigests, leafDigests, map_take]
    have root := computeRoot_eq H known (limits.construction_valid valid) before
    rw [count] at root
    have shared : rootsShareProfile (newRoot profile (UInt64.ofNat m)
      (treeDigest H (leaves.take m)))
        snapshot.root = true := by
      rw [represents.root_leaves]
      simp [rootsShareProfile, newRoot]
    have proof := answer _ rfl shared
    rw [newRoot_value, if_pos rfl] at proof
    refine ⟨_, _, root, proof, ?_, ?_⟩
    · rw [← size]
      exact consistencyPathLength_eq balanced (by omega) positive (by omega) profile _
    · intro checking admitted
      rw [part]
      exact verifyConsistency_complete known balanced (by omega) positive (by omega)
        (by rw [size]; exact admitted)
  · intro older sized shared ne
    rw [answer older sized shared, if_neg ne]

theorem consistency_proofs_complete_pair :
    ∃ snapshot older proof,
      Context.background.run (newSnapshot Hasher.free canonicalProfile [⟨[1]⟩, ⟨[2]⟩]
        ⟨⟨8, 8, 64⟩, 15⟩) = .ok snapshot ∧
      Context.background.run (computeRoot Hasher.free canonicalProfile [⟨[1]⟩]
        ⟨8, 8, 64⟩) = .ok older ∧
      Context.background.run (snapshot.consistencyProof Hasher.free older ⟨8, 8⟩) = .ok proof ∧
      proof.nodes.length = (consistencyPathLength 1 2).toNat := by
  have within : SnapshotLimits.Admits ⟨⟨8, 8, 64⟩, 15⟩ [⟨[1]⟩, ⟨[2]⟩] :=
    ⟨⟨by decide, by decide, by decide⟩, by decide⟩
  obtain ⟨snapshot, made, _⟩ := newSnapshot_represents Hasher.free
    (show canonicalProfile.validate = .ok () from rfl) rfl within
  rw [← Context.run_background] at made
  have admits : ConsistencyProofLimits.Admits ⟨8, 8⟩ (UInt64.ofNat 1) (UInt64.ofNat 2) :=
    ⟨rfl, by decide, by decide⟩
  obtain ⟨⟨older, proof, root, answer, length, _⟩, _⟩ :=
    consistency_proofs_complete within made (Nat.le_refl 1) (by decide) admits
  exact ⟨snapshot, older, proof, made, root, answer, length⟩

end Golib.MerkleTree
