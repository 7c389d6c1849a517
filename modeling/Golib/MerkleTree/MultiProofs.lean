import Golib.MerkleTree.MultiPaths

/-! Multi-inclusion proofs, from the checks of both sides to what an accepted proof says. -/
namespace Golib.MerkleTree

open HashTree Polled List

variable {D : Type}

variable {ls : List RawLeaf} {tot : UInt64}

section Checks

variable {ds : List (Digest D)} {prev : Option UInt64} {js : List UInt64} {treeSize : UInt64}
  {lim : MultiProofLimits} {alg : UInt8}

theorem checkSelection_sound (n : js.length = ds.length)
    (checked : checkSelection treeSize alg prev js ds = true) :
    js.Pairwise (· < ·) ∧ (∀ i ∈ js, i < treeSize ∧ ∀ p ∈ prev, p < i) := by
  induction js generalizing prev ds with
  | nil => simp
  | cons i rest ih =>
    cases ds with
    | nil => simp at n
    | cons d ds =>
      simp only [checkSelection, Bool.and_eq_true, decide_eq_true_eq, Option.all_eq_true] at checked
      obtain ⟨⟨⟨sub, after⟩, _⟩, checked⟩ := checked
      obtain ⟨asc, bd⟩ := ih (by simpa using n) checked
      refine ⟨pairwise_cons.mpr ⟨fun j mem => (bd j mem).2 i rfl, asc⟩, ?_⟩
      refine forall_mem_cons.mpr ⟨⟨sub, after⟩, fun j mem => ?_⟩
      exact ⟨(bd j mem).1, fun p hp => UInt64.lt_trans (after p hp) ((bd j mem).2 i rfl)⟩

theorem checkSelection_complete (asc : js.Pairwise (· < ·))
    (bd : ∀ i ∈ js, i < treeSize ∧ ∀ p ∈ prev, p < i) (algorithms : ∀ d ∈ ds, d.algorithm = alg) :
    checkSelection treeSize alg prev js ds = true := by
  induction js generalizing prev ds with
  | nil => simp [checkSelection]
  | cons i rest ih =>
    cases ds with
    | nil => simp [checkSelection]
    | cons d ds =>
      obtain ⟨after, asc⟩ := pairwise_cons.mp asc
      obtain ⟨sub, before⟩ := bd i (by simp)
      simp only [checkSelection, Bool.and_eq_true, decide_eq_true_eq,
        Option.all_eq_true, beq_iff_eq]
      refine ⟨⟨⟨sub, before⟩, algorithms d (by simp)⟩, ?_⟩
      apply ih asc _ (fun e mem => algorithms e (by simp [mem]))
      intro j mem
      refine ⟨(bd j (by simp [mem])).1, ?_⟩
      intro p hp
      cases Option.some.inj hp
      exact after j mem

theorem checkIndexes_ok (asc : js.Pairwise (· < ·))
    (bd : ∀ i ∈ js, i < treeSize ∧ ∀ p ∈ prev, p < i) : checkIndexes treeSize prev js = .ok () := by
  induction js generalizing prev with
  | nil => rfl
  | cons i rest ih =>
    obtain ⟨after, asc⟩ := pairwise_cons.mp asc
    obtain ⟨sub, before⟩ := bd i (by simp)
    have fresh : ¬ prev = some i := by
      intro eq
      exact UInt64.lt_irrefl i (before i eq)
    rw [checkIndexes, if_neg (UInt64.not_le.mpr sub), if_neg fresh]
    apply ih asc
    intro j mem
    refine ⟨(bd j (by simp [mem])).1, ?_⟩
    intro p hp
    cases Option.some.inj hp
    exact after j mem

variable [DecidableEq D] {H : Hasher D}

theorem checkMultiLeaves_sound (checked : (checkMultiLeaves H lim tot ls ds).outcome = .ok ()) :
    leafDigests H ls = (ds.take ls.length).map Digest.value := by
  induction ls generalizing tot ds with
  | nil => rfl
  | cons leaf rest ih =>
    simp only [checkMultiLeaves, poll_bind, failIf_eq_ok, bind_ok, exists_const, not_not] at checked
    obtain ⟨_, _, expected, head, eq, checked⟩ := checked
    cases ds with
    | nil => simp at head
    | cons d ds =>
      have tail := ih checked
      simp only [head?_cons, outcome_get, Except.ok.injEq] at head
      rw [leafDigests, map_cons, ← leafDigests, tail, eq, head]
      rfl

theorem checkMultiLeaves_complete (each : ∀ leaf ∈ ls, leaf.value.length ≤ lim.maxLeafBytes.toNat)
    (room : tot.toNat + byteCount ls ≤ lim.maxTotalLeafBytes.toNat)
    (eq : ds.map Digest.value = leafDigests H ls) :
    (checkMultiLeaves H lim tot ls ds).outcome = .ok () := by
  induction ls generalizing tot ds with
  | nil => rfl
  | cons leaf rest ih =>
    cases ds with
    | nil => simp [leafDigests] at eq
    | cons d ds =>
      have bound := lim.maxTotalLeafBytes.toNat_lt
      have split : byteCount (leaf :: rest) = leaf.value.length + byteCount rest := by
        simp [byteCount]
      simp only [leafDigests, map_cons, cons.injEq] at eq
      have size : (UInt64.ofNat leaf.value.length).toNat = leaf.value.length :=
        toNat_ofNat_of_lt (by omega)
      have small : ¬ UInt64.ofNat leaf.value.length > lim.maxLeafBytes :=
        ofNat_le (each leaf (by simp))
      have fits : ¬ UInt64.ofNat leaf.value.length > lim.maxTotalLeafBytes - tot := by
        apply ofNat_le
        rw [toNat_sub_of_le (by omega)]
        omega
      simp only [checkMultiLeaves, poll_bind, failIf_bind, if_neg small, if_neg fits,
        head?_cons, get_bind, eq.1, ne_eq, not_true_eq_false, if_false, tail_cons]
      apply ih (forall_mem_cons.mp each).2 _ eq.2
      rw [toNat_add_of_lt (by omega)]
      omega

end Checks

variable {others : List UInt64}

section Proofs

variable {H : Hasher D} {js : List UInt64} {lim : MultiProofLimits} {proof : MultiInclusionProof D}
  {pr : Profile} {t : DigestTree D}

abbrev canonical (indexes : List UInt64) : List UInt64 := indexes.insertionSort (· ≤ ·)

theorem canonical_perm (eq : others.Perm js) : canonical others = canonical js := by
  apply Perm.eq_of_pairwise (fun a b _ _ => UInt64.le_antisymm)
    (pairwise_insertionSort ..) (pairwise_insertionSort ..)
  exact (perm_insertionSort ..).trans (eq.trans (perm_insertionSort ..).symm)

theorem canonical_ascending (distinct : js.Nodup) : (canonical js).Pairwise (· < ·) := by
  have sorted := pairwise_insertionSort (· ≤ ·) js
  have nodup : (canonical js).Nodup := (perm_insertionSort ..).nodup_iff.mpr distinct
  exact (sorted.and nodup).imp (fun h => UInt64.lt_of_le_of_ne h.1 h.2)

structure MultiProofLimits.Admits (limits : MultiProofLimits) (indexes : List UInt64)
    (size : UInt64) :
    Prop where
  valid : limits.validate = .ok ()
  count : indexes.length ≤ limits.maxLeaves.toNat
  elements : multiFrontierCount 0 size (canonical indexes) ≤ limits.maxElements
  depth : UInt64.ofNat (len64 size) ≤ limits.maxTraversalDepth

def honestMultiProof (H : Hasher D) (profile : Profile) (t : DigestTree D) (indexes : List UInt64) :
    MultiInclusionProof D :=
  ⟨profile.id, profile.version, profile.algorithm,
    newRoot profile (UInt64.ofNat t.size) (t.digest H.hashBranch), UInt64.ofNat t.size,
    canonical indexes, (selected t.leaves 0 (canonical indexes)).map (newDigest profile.algorithm),
    (multiFrontier H t 0 (canonical indexes)).map (newDigest profile.algorithm)⟩

theorem canonical_selection {size : Nat} (distinct : js.Nodup) (sub : ∀ i ∈ js, i.toNat < size)
    (word : size < 2 ^ 64) : Selection 0 size (canonical js) := by
  refine ⟨canonical_ascending distinct, fun _ _ => Nat.zero_le _, ?_, ?_⟩
  · intro i mem
    simpa using sub i ((mem_insertionSort ..).mp mem)
  · simpa using word

theorem honestMultiProof_validate (known : pr.validate = .ok ()) (word : t.size < 2 ^ 64)
    (nonempty : js ≠ []) (selection : Selection 0 t.size (canonical js)) :
    (honestMultiProof H pr t js).validate = .ok () := by
  have tword : (UInt64.ofNat t.size).toNat = t.size := toNat_ofNat_of_lt word
  have ne : ¬ UInt64.ofNat t.size = 0 := by
    rw [← UInt64.toNat_inj, tword]
    exact Nat.pos_iff_ne_zero.mp t.size_pos
  have some : ¬ js.length = 0 := by simpa using nonempty
  have n := length_selected (show Selection 0 t.leaves.length _ by simpa using selection)
  obtain ⟨id, version, alg⟩ := pr
  have sha : alg = hashSHA256 := Profile.algorithm_eq known
  rw [sha] at known
  have checked : checkSelection (UInt64.ofNat t.size) hashSHA256 none (canonical js)
      ((selected t.leaves 0 (canonical js)).map (newDigest hashSHA256)) = true := by
    apply checkSelection_complete selection.ascending
    · intro i mem
      have := selection.upper i mem
      rw [UInt64.lt_iff_toNat_lt, tword]
      exact ⟨by simpa using this, by simp⟩
    · intro d mem
      obtain ⟨e, _, rfl⟩ := mem_map.mp mem
      rfl
  simp [MultiInclusionProof.validate, honestMultiProof, rootMatchesMultiProofIdentity, newRoot, sha,
    known, ne, some, n, checked, bind, Except.bind, pure, Except.pure]

theorem MultiInclusionProof.validate_ok (valid : proof.validate = .ok ()) :
    proof.treeSize ≠ 0 ∧ proof.root.treeSize = proof.treeSize ∧
      proof.leafIndexes.length = proof.leafDigests.length ∧
      checkSelection proof.treeSize proof.algorithm none proof.leafIndexes
      proof.leafDigests = true := by
  simp only [MultiInclusionProof.validate, bind, Except.bind, pure, Except.pure] at valid
  repeat' split at valid
  all_goals simp_all

variable [DecidableEq D]

theorem multiInclusionProof_perm (snap : Snapshot D) (lim : MultiProofLimits)
    (eq : others.Perm js) :
    snap.multiInclusionProof others lim = snap.multiInclusionProof js lim := by
  have sorted := canonical_perm eq
  unfold canonical at sorted
  unfold Snapshot.multiInclusionProof
  rw [eq.length_eq, sorted]

theorem multiInclusionProof_eq {leaves : List RawLeaf}
    {snap : Snapshot D} (known : pr.validate = .ok ())
    (fits : 2 * leaves.length ≤ 2 ^ 64) (rep : snap.Represents H pr (leafDigests H leaves))
    (bal : Balanced t) (ls : t.leaves = leafDigests H leaves) (nonempty : js ≠ [])
    (distinct : js.Nodup) (sub : ∀ i ∈ js, i.toNat < leaves.length)
    (admits : lim.Admits js (UInt64.ofNat leaves.length)) :
    (snap.multiInclusionProof js lim).outcome = .ok (honestMultiProof H pr t js) := by
  have some : leaves ≠ [] := by
    rintro rfl
    obtain ⟨i, mem⟩ := exists_mem_of_ne_nil _ nonempty
    simpa using sub i mem
  obtain ⟨t', balanced', ls', ns, rootNode⟩ := rep.tree_leaves some
  cases balanced_unique bal balanced' (ls.trans ls'.symm)
  have size := size_of_leaves ls
  have selection := canonical_selection distinct sub (by omega)
  rw [← size] at selection admits
  have bound := lim.maxLeaves.toNat_lt
  have counted := admits.count
  have one : ¬ UInt64.ofNat js.length = 0 := by
    rw [ofNat_eq_iff (by omega)]
    simpa using nonempty
  have checked : checkIndexes (UInt64.ofNat t.size) none (canonical js) = .ok () := by
    apply checkIndexes_ok selection.ascending
    intro i mem
    have := selection.upper i mem
    rw [UInt64.lt_iff_toNat_lt, toNat_ofNat_of_lt (by omega)]
    exact ⟨by simpa using this, by simp⟩
  have es := admits.elements
  rw [multiFrontierCount_eq H bal (toNat_ofNat_of_lt (by omega)), UInt64.le_iff_toNat_le,
    toNat_ofNat_of_lt (Nat.lt_of_le_of_lt (length_multiFrontier_le H t _ _) (by omega))] at es
  have n : (layout H 0 t).length = 2 * t.size - 1 := by rw [length_layout, nodeCount]
  have p := appendMultiProof_eq (H := H) pr.algorithm (by omega) (holds_layout t)
    (show t.size ≤ (layout H 0 t).length by omega) selection lim.maxElements [] []
    (by simpa using es)
  rw [Nat.zero_add, nil_append, nil_append] at p
  have r : snap.root = newRoot pr (UInt64.ofNat t.size) (t.digest H.hashBranch) := by
    rw [rep.root_leaves, size, treeDigest, ← ls, treeHash_leaves _ _ bal]
  have sizes : snap.root.treeSize = UInt64.ofNat t.size := by rw [r]; rfl
  simp only [Snapshot.multiInclusionProof, outcome_bind, outcome_lift,
    rep.validate known (by simpa using fits), admits.valid, Except.bind, outcome_poll,
    outcome_failIf, if_neg one, if_neg (ofNat_le admits.count), sizes, checked,
    gt_iff_lt, UInt64.not_lt.mpr admits.depth, if_false, rep.profile, ns, rootNode, p]
  rw [honestMultiProof, r]
  rfl

omit [DecidableEq D] in
theorem selected_leafDigests (ls : List RawLeaf) (js : List UInt64) :
    selected (leafDigests H ls) 0 js = leafDigests H (selected ls 0 js) := by
  rw [selected, selected, leafDigests, leafDigests, map_filterMap]
  simp only [getElem?_map]

theorem verifyMultiInclusion_ok :
    (verifyMultiInclusion H proof ls lim).outcome = .ok () ↔
      lim.validate = .ok () ∧ UInt64.ofNat proof.leafIndexes.length ≤ lim.maxLeaves ∧
      UInt64.ofNat proof.frontier.length ≤ lim.maxElements ∧
      UInt64.ofNat (len64 proof.treeSize) ≤ lim.maxTraversalDepth ∧ proof.validate = .ok () ∧
      ls.length = proof.leafIndexes.length ∧
      (checkMultiLeaves H lim 0 ls proof.leafDigests).outcome = .ok () ∧
      (reconstructMultiRoot H proof.frontier sizeFuel 0 proof.treeSize proof.leafIndexes
        proof.leafDigests 0).outcome = .ok (proof.root.digest.value, proof.frontier.length) := by
  simp only [verifyMultiInclusion, bind_ok, poll_bind, failIf_eq_ok,
    outcome_lift, exists_const, Prod.exists, not_not, gt_iff_lt, UInt64.not_lt]
  constructor
  · rintro ⟨_, valid, few, es, d, _, checked, n, _, bs, digest, position, ran,
      consumed, r⟩
    rw [consumed, r] at ran
    exact ⟨valid, few, es, d, checked, n, bs, ran⟩
  · rintro ⟨valid, few, es, d, checked, n, bs, ran⟩
    exact ⟨(), valid, few, es, d, (), checked, n, (), bs, _, _, ran, rfl, rfl⟩

theorem verifyMultiInclusion_complete {leaves : List RawLeaf}
    (known : pr.validate = .ok ()) (word : leaves.length < 2 ^ 64)
    (bal : Balanced t) (ls : t.leaves = leafDigests H leaves) (nonempty : js ≠ [])
    (distinct : js.Nodup) (sub : ∀ i ∈ js, i.toNat < leaves.length)
    (admits : lim.Admits js (UInt64.ofNat leaves.length))
    (each : ∀ leaf ∈ selected leaves 0 (canonical js), leaf.value.length ≤ lim.maxLeafBytes.toNat)
    (tot : byteCount (selected leaves 0 (canonical js)) ≤ lim.maxTotalLeafBytes.toNat) :
    (verifyMultiInclusion H (honestMultiProof H pr t js)
      (selected leaves 0 (canonical js)) lim).outcome = .ok () := by
  have size := size_of_leaves ls
  have selection := canonical_selection distinct sub word
  have n := length_selected selection
  rw [← size] at selection admits word
  have tword : (UInt64.ofNat t.size).toNat = t.size := toNat_ofNat_of_lt word
  have checked := honestMultiProof_validate (H := H) known word nonempty selection
  have chosen : selected t.leaves 0 (canonical js) =
      leafDigests H (selected leaves 0 (canonical js)) := by
    rw [ls, selected_leafDigests]
  have es : ¬ UInt64.ofNat (multiFrontier H t 0 (canonical js)).length > lim.maxElements := by
    rw [← multiFrontierCount_eq H bal tword]
    exact UInt64.not_lt.mpr admits.elements
  have few : ¬ UInt64.ofNat (canonical js).length > lim.maxLeaves := by
    apply ofNat_le
    rw [length_insertionSort]
    exact admits.count
  have bs := checkMultiLeaves_complete (H := H) each
    (show (0 : UInt64).toNat + _ ≤ _ by simpa using tot)
    ((value_newDigest pr.algorithm _).trans chosen)
  have reached := reconstructMultiRoot_multiFrontier (H := H) pr.algorithm bal tword selection
  rw [verifyMultiInclusion_ok]
  refine ⟨admits.valid, UInt64.not_lt.mp few, ?_, admits.depth, checked, n, bs, ?_⟩
  · change UInt64.ofNat ((multiFrontier H t 0 (canonical js)).map _).length ≤ _
    rw [length_map]
    exact UInt64.not_lt.mp es
  · change _ = Except.ok (t.digest H.hashBranch,
      ((multiFrontier H t 0 (canonical js)).map _).length)
    rw [length_map]
    exact reached

/-- An accepted proof binds the leaves to their indexes and uses its whole frontier. -/
theorem verifyMultiInclusion_sound {leaves : List RawLeaf} {chosen : List RawLeaf}
    (inj : H.Injective) (r : proof.root.Commits H leaves)
    (accepted : (verifyMultiInclusion H proof chosen lim).outcome = .ok ()) :
    chosen.map some = proof.leafIndexes.map (fun i => leaves[i.toNat]?) ∧
      UInt64.ofNat proof.frontier.length =
        multiFrontierCount 0 proof.treeSize proof.leafIndexes := by
  obtain ⟨_, _, _, _, checked, n, bs, reached⟩ := verifyMultiInclusion_ok.mp accepted
  obtain ⟨ne, sizes, lengths, ordered⟩ := MultiInclusionProof.validate_ok checked
  obtain ⟨asc, bd⟩ := checkSelection_sound lengths ordered
  have size : proof.treeSize.toNat = leaves.length := by rw [← sizes, r.size]
  have sub : ∀ i ∈ proof.leafIndexes, i.toNat < leaves.length := by
    intro i mem
    have := (bd i mem).1
    rwa [UInt64.lt_iff_toNat_lt, size] at this
  have word := proof.treeSize.toNat_lt
  have selection : Selection 0 proof.treeSize.toNat proof.leafIndexes :=
    ⟨asc, fun _ _ => Nat.zero_le _, by simpa [size] using sub, by simpa using word⟩
  have pos := toNat_pos ne
  obtain ⟨t, bal, ls⟩ := exists_balanced (leafDigests H leaves)
    (by rw [length_leafDigests]; omega)
  have whole : proof.treeSize.toNat = t.size := by rw [size, size_of_leaves ls]
  have honest := reconstructMultiRoot_multiFrontier (H := H) 0 bal whole (whole ▸ selection)
  rw [r.digest, treeDigest, ← ls, treeHash_leaves _ _ bal] at reached
  obtain ⟨ds, consumed⟩ := reconstructMultiRoot_injective inj selection lengths.symm
    (by rw [length_map, length_selected (by rwa [t.length_leaves, ← whole])]) reached honest
  rw [value_newDigest, ls] at ds
  have eq := checkMultiLeaves_sound bs
  rw [n, lengths, take_length, ds, selected_leafDigests] at eq
  have equal : chosen = selected leaves 0 proof.leafIndexes :=
    map_injective_iff.mpr inj.leafDigest eq
  refine ⟨by rw [equal, selected_map sub], ?_⟩
  rw [multiFrontierCount_eq H bal whole]
  exact congrArg UInt64.ofNat consumed

variable (H)

/-- Multi-inclusion proofs depend on the set of indexes only, have the prescribed frontier
and are accepted with the leaves in ascending index order; an accepted proof against the
root of a list binds every leaf to its index and uses its whole frontier. -/
theorem multi_proofs_exact :
    (∀ (ctx : Context) (profile : Profile) (limits : SnapshotLimits) (leaves : List RawLeaf)
        (snapshot : Snapshot D), limits.Admits leaves →
      ctx.run (newSnapshot H profile leaves limits) = .ok snapshot →
      ∀ indexes : List UInt64, indexes ≠ [] → indexes.Nodup →
        (∀ i ∈ indexes, i.toNat < leaves.length) →
        ∀ making : MultiProofLimits, making.Admits indexes (UInt64.ofNat leaves.length) →
        ∃ proof : MultiInclusionProof D,
          (∀ others : List UInt64, others.Perm indexes →
            Context.background.run (snapshot.multiInclusionProof others making) = .ok proof) ∧
          proof.frontier.length = (multiFrontierCount 0 (UInt64.ofNat leaves.length)
            (indexes.insertionSort (· ≤ ·))).toNat ∧
          ∀ (checking : MultiProofLimits) (chosen : List RawLeaf),
            checking.Admits indexes (UInt64.ofNat leaves.length) →
            chosen.map some = (indexes.insertionSort (· ≤ ·)).map (fun i => leaves[i.toNat]?) →
            (∀ leaf ∈ chosen, leaf.value.length ≤ checking.maxLeafBytes.toNat) →
            byteCount chosen ≤ checking.maxTotalLeafBytes.toNat →
            Context.background.run (verifyMultiInclusion H proof chosen checking) = .ok ()) ∧
      (H.Injective → ∀ (ctx : Context) (limits : MultiProofLimits) (proof : MultiInclusionProof D)
        (chosen leaves : List RawLeaf), proof.root.Commits H leaves →
        ctx.run (verifyMultiInclusion H proof chosen limits) = .ok () →
        chosen.map some = proof.leafIndexes.map (fun i => leaves[i.toNat]?) ∧
          UInt64.ofNat proof.frontier.length =
            multiFrontierCount 0 proof.treeSize proof.leafIndexes) := by
  simp only [Context.run_background]
  constructor
  · intro ctx profile limits leaves snapshot within made indexes nonempty distinct inside
      making admits
    obtain ⟨known, valid, represents, _⟩ := newSnapshot_run H within.small made
    have retained := limits.retained_lt valid
    have nodes := within.nodes
    have some_leaf : leaves ≠ [] := by
      rintro rfl
      obtain ⟨i, mem⟩ := exists_mem_of_ne_nil _ nonempty
      simpa using inside i mem
    obtain ⟨t, balanced, ls, _⟩ := represents.tree_leaves some_leaf
    have size := size_of_leaves ls
    refine ⟨honestMultiProof H profile t indexes, ?_, ?_, ?_⟩
    · intro others same
      rw [multiInclusionProof_perm snapshot making same]
      exact multiInclusionProof_eq known (by omega) represents balanced ls nonempty distinct
        inside admits
    · have few := length_multiFrontier_le H t 0 (indexes.insertionSort (· ≤ ·))
      rw [multiFrontierCount_eq H balanced (by rw [toNat_ofNat_of_lt (by omega), size]),
        toNat_ofNat_of_lt (by omega), honestMultiProof, length_map]
    · intro checking chosen admitted selection each total
      have equal : chosen = selected leaves 0 (canonical indexes) := by
        apply map_injective_iff.mpr (Option.some_injective _)
        rw [selection, selected_map (fun i mem => inside i ((mem_insertionSort ..).mp mem))]
      subst equal
      exact verifyMultiInclusion_complete known
        (by omega) balanced ls nonempty distinct inside admitted
        each total
  · intro inj ctx limits proof chosen leaves root accepted
    exact verifyMultiInclusion_sound inj root (Context.run_ok accepted)

/-- The first and the last of three leaves, asked for in either order. -/
theorem multi_proofs_exact_three :
    ∃ snapshot proof,
      Context.background.run (newSnapshot Hasher.free canonicalProfile threeLeaves smallLimits) =
        .ok snapshot ∧
      Context.background.run (snapshot.multiInclusionProof [2, 0] ⟨8, 8, 8, 8, 8⟩) = .ok proof ∧
      Context.background.run (snapshot.multiInclusionProof [0, 2] ⟨8, 8, 8, 8, 8⟩) = .ok proof ∧
      proof.frontier.length = 1 ∧
      ∀ chosen, Context.background.run (verifyMultiInclusion Hasher.free proof chosen
        ⟨8, 8, 8, 8, 8⟩) = .ok () ↔ chosen = [⟨[1]⟩, ⟨[3]⟩] := by
  obtain ⟨complete, sound⟩ := multi_proofs_exact Hasher.free
  obtain ⟨snapshot, made⟩ : ∃ snapshot, Context.background.run (newSnapshot Hasher.free
      canonicalProfile threeLeaves smallLimits) = .ok snapshot := ⟨_, rfl⟩
  have admits : MultiProofLimits.Admits ⟨8, 8, 8, 8, 8⟩ [2, 0] 3 :=
    ⟨rfl, by decide, by decide, by decide⟩
  have inside : ∀ i ∈ ([2, 0] : List UInt64), i.toNat < threeLeaves.length := by
    simp [threeLeaves]
  obtain ⟨proof, proved, frontier, accepts⟩ := complete .background canonicalProfile smallLimits
    threeLeaves snapshot smallLimits_admits made [2, 0] (by decide) (by decide) inside
    ⟨8, 8, 8, 8, 8⟩ admits
  have asked := proved [2, 0] (.refl _)
  refine ⟨snapshot, proof, made, asked, proved [0, 2] (.swap ..), frontier, fun chosen => ⟨?_, ?_⟩⟩
  · intro accepted
    cases Except.ok.inj (made.symm.trans rfl)
    cases Except.ok.inj (asked.symm.trans rfl)
    have bound := (sound Hasher.free_injective .background _ _ chosen threeLeaves
      ⟨rfl, treeDigest_three.symm⟩ accepted).1
    exact map_injective_iff.mpr (Option.some_injective _) bound
  · rintro rfl
    exact accepts _ _ admits rfl (by decide) (by decide)

end Proofs

end Golib.MerkleTree
