import Golib.MerkleTree.ConsistencyPaths

/-! Soundness of consistency proofs. The walk over the nodes of the newer tree is known, and the
proof to be checked, whatever its nodes, makes the same walk when it reaches the same root. -/
namespace Golib.MerkleTree

open HashTree Polled List

variable {D : Type}

section Soundness

variable {H : Hasher D} {as bs : List D} {first : D}

/-- The counters alone fix how the walk joins its nodes, so two walks to one newer root are the
same. -/
theorem verifyConsistencyLoop_injective
    {fn sn : UInt64} {second older newer first' second' older' : D} {ns others : List (Digest D)}
    (inj : H.Injective)
    (one : (verifyConsistencyLoop H fn sn first second ns).outcome = .ok (0, older, newer))
    (other : (verifyConsistencyLoop H fn sn first' second' others).outcome =
      .ok (0, older', newer)) :
    second = second' ∧ (first = first' → older = older') := by
  induction ns generalizing others fn sn first second first' second' with
  | nil =>
    obtain ⟨rfl, rfl, rfl⟩ := one
    cases others with
    | nil =>
      simp only [verifyConsistencyLoop, outcome_pure, Except.ok.injEq, Prod.mk.injEq] at other
      exact ⟨other.2.2.symm, fun eq => eq.trans other.2.1⟩
    | cons n others =>
      simp only [verifyConsistencyLoop, poll_bind, failIf_ok] at other
      exact absurd trivial other.1
  | cons n ns ih =>
    simp only [verifyConsistencyLoop, poll_bind, failIf_ok] at one
    obtain ⟨more, one⟩ := one
    cases others with
    | nil =>
      simp only [verifyConsistencyLoop, outcome_pure, Except.ok.injEq, Prod.mk.injEq] at other
      exact absurd other.1 more
    | cons node' others =>
      simp only [verifyConsistencyLoop, poll_bind, failIf_ok] at other
      obtain ⟨-, other⟩ := other
      by_cases left : fn &&& 1 = 1 ∨ fn = sn
      · rw [if_pos left] at one other
        obtain ⟨joined, eq⟩ := ih one other
        obtain ⟨sibling, second⟩ := inj.branch _ _ _ _ joined
        exact ⟨second, fun first => eq (by rw [sibling, first])⟩
      · rw [if_neg left] at one other
        obtain ⟨joined, eq⟩ := ih one other
        exact ⟨(inj.branch _ _ _ _ joined).1, eq⟩

theorem ConsistencyProof.validate_ok {proof : ConsistencyProof D}
    (valid : proof.validate = .ok ()) :
    proof.olderTreeSize ≤ proof.newerTreeSize ∧ proof.olderRoot.treeSize = proof.olderTreeSize ∧
      proof.newerRoot.treeSize = proof.newerTreeSize := by
  simp only [ConsistencyProof.validate, bind, Except.bind, pure, Except.pure] at valid
  repeat' split at valid
  all_goals simp_all

theorem leafDigests_take (inj : H.Injective) {as bs : List RawLeaf}
    (agree : leafDigests H as = (leafDigests H bs).take as.length) : as <+: bs := by
  rw [leafDigests, leafDigests, ← map_take] at agree
  rw [map_injective_iff.mpr inj.leafDigest agree]
  exact take_prefix _ _

/-- The walk from the first shift to the two roots makes the older digests a part of the newer
ones. -/
theorem consistencyWalk_sound {p : List (Digest D)} (inj : H.Injective) (nonempty : 0 < as.length)
    (proper : as.length < bs.length) (word : bs.length < 2 ^ 64)
    (reached : (verifyConsistencyLoop H
      (shiftRight64 (.ofNat as.length - 1) (trailingZeros64 (~~~(.ofNat as.length - 1))))
      (shiftRight64 (.ofNat bs.length - 1) (trailingZeros64
        (~~~(.ofNat as.length - 1)))) first first
      p).outcome = .ok (0, treeHash H.hashBranch H.empty as, treeHash H.hashBranch H.empty bs)) :
    as = bs.take as.length := by
  obtain ⟨t, bal, rfl⟩ := exists_balanced bs (by omega)
  rw [t.length_leaves] at proper word reached
  rw [treeHash_leaves _ _ bal] at reached
  obtain ⟨start, eq⟩ := verifyConsistencyLoop_injective inj reached
    (honestWalk 0 bal word nonempty proper)
  exact treeHash_injective _ _ inj.branch (by simp; omega) (eq start)

variable [DecidableEq D]

/-- An accepted consistency proof between the roots of two lists makes the older list a
prefix of the newer one, whatever its nodes. -/
theorem verifyConsistency_sound (injective : H.Injective) {ctx : Context}
    {proof : ConsistencyProof D} {limits : ConsistencyProofLimits} {as bs : List RawLeaf}
    (older : proof.olderRoot.Commits H as) (newer : proof.newerRoot.Commits H bs)
    (nonempty : as ≠ []) (accepted : ctx.run (verifyConsistency H proof limits) = .ok ()) :
    as <+: bs := by
  have outcome := Context.run_ok accepted
  simp only [verifyConsistency, bind_ok, poll_bind, failIf_eq_ok,
    outcome_lift, exists_const] at outcome
  obtain ⟨_, _, _, _, _, checked, outcome⟩ := outcome
  obtain ⟨order, olderSize, newerSize⟩ := ConsistencyProof.validate_ok checked
  have alen : (leafDigests H as).length = as.length := length_map ..
  have blen : (leafDigests H bs).length = bs.length := length_map ..
  have pos : 0 < as.length := length_pos_iff.mpr nonempty
  have sizeA : proof.olderTreeSize.toNat = as.length := by rw [← olderSize, older.size]
  have sizeB : proof.newerTreeSize.toNat = bs.length := by rw [← newerSize, newer.size]
  rw [UInt64.le_iff_toNat_le, sizeA, sizeB] at order
  by_cases equal : proof.olderTreeSize = proof.newerTreeSize
  · rw [if_pos equal, failIf_ok, outcome_failIf] at outcome
    obtain ⟨_, outcome⟩ := outcome
    have lengths : as.length = bs.length := by rw [← sizeA, equal, sizeB]
    have digests : proof.olderRoot.digest.value = proof.newerRoot.digest.value := by
      by_contra ne
      rw [if_pos ne] at outcome
      cases outcome
    rw [older.digest, newer.digest, treeDigest, treeDigest] at digests
    apply leafDigests_take injective
    have same := treeHash_injective _ _ injective.branch (by omega) digests
    rw [same, lengths, ← blen, take_length]
  · rw [if_neg equal] at outcome
    simp only [bind_ok, Prod.exists, failIf_eq_ok, exists_const, not_or, not_not]
      at outcome
    obtain ⟨first, path, _, sn, firstRoot, secondRoot, ran, zero, reachedA, reachedB⟩ := outcome
    have proper : as.length ≠ bs.length := fun same => equal (UInt64.toNat_inj.mp (by omega))
    have word := proof.newerTreeSize.toNat_lt
    rw [zero, reachedA, reachedB, older.digest, newer.digest, treeDigest, treeDigest,
      ← proof.olderTreeSize.ofNat_toNat, ← proof.newerTreeSize.ofNat_toNat, sizeA, sizeB, ← alen,
      ← blen] at ran
    apply leafDigests_take injective
    rw [← alen]
    exact consistencyWalk_sound injective (by omega) (by omega) (by omega) ran

theorem verifyConsistency_sound_pair :
    Context.background.run (verifyConsistency Hasher.free ⟨1, 1, 1,
        newRoot canonicalProfile 1 (.leaf [1]), newRoot canonicalProfile 2
          (.branch (.leaf [1]) (.leaf [2])), 1, 2, [⟨1, .leaf [2]⟩]⟩ ⟨8, 8⟩) = .ok () ∧
      [(⟨[1]⟩ : RawLeaf)] <+: [⟨[1]⟩, ⟨[2]⟩] := by
  have older : treeDigest Hasher.free [⟨[1]⟩] = .leaf [1] := by
    simp [treeDigest, leafDigests, Hasher.free]
  refine (and_iff_left_of_imp fun accepted => ?_).mpr rfl
  exact verifyConsistency_sound Hasher.free_injective ⟨rfl, older.symm⟩ ⟨rfl, treeDigest_pair.symm⟩
    (by decide) accepted

end Soundness

end Golib.MerkleTree
