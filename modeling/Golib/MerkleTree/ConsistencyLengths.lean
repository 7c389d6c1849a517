import Golib.MerkleTree.ConsistencyComplete

/-! How many nodes a consistency proof has: the verifier's counters, the closed form and the
recursion of RFC 9162 agree. -/
namespace Golib.MerkleTree

open HashTree Polled List

variable {D : Type} (H : Hasher D)

/-- RFC 9162's SUBPROOF over leaf digests. -/
def rfcSubproof (m : Nat) (ds : List D) (complete : Bool) : List D :=
  if 0 < m ∧ m < ds.length then
    let k := split ds.length
    if m ≤ k then
      rfcSubproof m (ds.take k) complete ++ [treeHash H.hashBranch H.empty (ds.drop k)]
    else rfcSubproof (m - k) (ds.drop k) false ++ [treeHash H.hashBranch H.empty (ds.take k)]
  else if complete then [] else [treeHash H.hashBranch H.empty ds]
termination_by ds.length
decreasing_by
  · have := split_lt (n := ds.length) (by omega)
    rw [length_take]
    omega
  · have := split_pos ds.length
    rw [length_drop]
    omega

theorem rfcSubproof_leaves {t : HashTree.DigestTree D} {m : Nat}
    (bal : Balanced t) (pos : 0 < m) (sub : m ≤ t.size)
    (complete : Bool) : rfcSubproof H m t.leaves complete = subproof H t m complete := by
  induction t generalizing m complete with
  | leaf d =>
    rw [DigestTree.size] at sub
    have one : m = (DigestTree.leaf d).size := by rw [DigestTree.size]; omega
    rw [rfcSubproof, if_neg (by simp; omega), treeHash_leaves _ _ bal, one]
    cases complete <;> simp [subproof]
  | node l r hl hr =>
    have whole : (DigestTree.node l r).leaves.length = l.size + r.size := DigestTree.length_leaves _
    have cut : split (l.size + r.size) = l.leaves.length := by rw [l.length_leaves, ← bal.1]
    rw [DigestTree.size] at sub
    rw [rfcSubproof, whole, cut]
    by_cases all : m = l.size + r.size
    · have all' : m = (DigestTree.node l r).size := all
      rw [if_neg (by omega), treeHash_leaves _ _ bal, all']
      cases complete <;> simp [subproof]
    · rw [if_pos ⟨pos, by omega⟩]
      simp only [DigestTree.leaves, take_left, drop_left, treeHash_leaves _ _ bal.2.1,
        treeHash_leaves _ _ bal.2.2]
      by_cases side : m ≤ l.size
      · rw [if_pos (by simpa using side), hl bal.2.1 pos side, subproof_left H side]
      · rw [if_neg (by simpa using side), l.length_leaves,
          hr bal.2.2 (by omega) (by omega), subproof_right H (by omega) (by omega)]

variable {H}

/-- The counters alone decide how many nodes the walk takes. -/
theorem verifyConsistencyLoop_length
    {fn sn : UInt64} {first second older newer : D} {ns : List (Digest D)}
    (one : (verifyConsistencyLoop H fn sn first second ns).outcome = .ok (0, older, newer))
    (first' second' : D) (others : List (Digest D)) :
    match (verifyConsistencyLoop H fn sn first' second' others).outcome with
    | .ok (sn, _, _) => sn = 0 ↔ others.length = ns.length
    | .error e => e = .malformedProof ∧ ¬ others.length = ns.length := by
  induction ns generalizing others fn sn first second first' second' with
  | nil =>
    obtain ⟨rfl, rfl, rfl⟩ := one
    cases others with
    | nil => exact ⟨fun _ => rfl, fun _ => rfl⟩
    | cons n others =>
      simp only [verifyConsistencyLoop, poll_bind, failIf_bind, if_pos]
      exact ⟨trivial, by simp⟩
  | cons n ns ih =>
    simp only [verifyConsistencyLoop, poll_bind, failIf_ok] at one
    obtain ⟨more, one⟩ := one
    cases others with
    | nil => simpa [verifyConsistencyLoop] using more
    | cons node' others =>
      simp only [verifyConsistencyLoop, poll_bind, failIf_bind, if_neg more, length_cons,
        Nat.add_right_cancel_iff]
      by_cases left : fn &&& 1 = 1 ∨ fn = sn
      · rw [if_pos left] at one ⊢
        exact ih one _ _ _
      · rw [if_neg left] at one ⊢
        exact ih one _ _ _

variable [DecidableEq D]

/-- The verifier's walk takes exactly the nodes that the closed form counts, which are those of the
RFC's recursion; the length loop ends by itself before its bound. -/
theorem consistency_lengths_exact (H : Hasher D) {m n : UInt64} (pos : 1 ≤ m) (proper : m < n) :
    (∀ (proof : ConsistencyProof D) (limits : ConsistencyProofLimits), proof.validate = .ok () →
      proof.olderTreeSize = m → proof.newerTreeSize = n →
      (proof.nodes ≠ [] ∨ ∃ k, m.toNat = 2 ^ k) → limits.validate = .ok () →
      UInt64.ofNat proof.nodes.length ≤ limits.maxElements →
      UInt64.ofNat (len64 n) ≤ limits.maxTraversalDepth →
      (Context.background.run (verifyConsistency H proof limits) = .error .malformedProof ↔
        proof.nodes.length ≠ (consistencyPathLength m n).toNat)) ∧
    (consistencyPathLength m n).toNat ≤ 65 ∧
    (∀ ds : List D, ds.length = n.toNat →
      (rfcSubproof H m.toNat ds true).length = (consistencyPathLength m n).toNat) ∧
    ∀ rounds ≥ 64, consistencyPathLoop rounds m n true 0 = consistencyPathLength m n := by
  rw [UInt64.le_iff_toNat_le] at pos
  rw [UInt64.lt_iff_toNat_lt] at proper
  have word := n.toNat_lt
  have ne : ¬ m = n := by
    rintro rfl
    omega
  -- Any tree of the newer size has the shape that both counts follow.
  have counted (t : DigestTree D) (balanced : Balanced t) (size : t.size = n.toNat) :
      (∀ rounds ≥ 64, consistencyPathLoop rounds m n true 0 = consistencyPathLength m n) ∧
      (subproof H t m.toNat true).length = (consistencyPathLength m n).toNat := by
    have loop (rounds) (many : 64 ≤ rounds) : consistencyPathLoop rounds m n true 0 =
        UInt64.ofNat (subproof H t m.toNat true).length := by
      have room : 2 ^ 64 ≤ 2 ^ rounds := Nat.pow_le_pow_right (by omega) many
      rw [consistencyPathLoop_eq H balanced (by omega) size.symm pos (by omega), UInt64.zero_add]
    have few := length_subproof_le H balanced (by omega : t.size ≤ 2 ^ 64) m.toNat true
    rw [consistencyPathLength, if_neg ne, loop 64 (le_refl _), toNat_ofNat_of_lt (by omega)]
    exact ⟨loop, rfl⟩
  obtain ⟨t, balanced, ls⟩ := exists_balanced (replicate n.toNat H.empty) (by simp; omega)
  have size : t.size = n.toNat := by rw [← t.length_leaves, ls, length_replicate]
  obtain ⟨loop, length⟩ := counted t balanced size
  refine ⟨?_, ?_, ?_, loop⟩
  · rintro proof limits valid rfl rfl starts checked few depth
    have walk := honestWalk (H := H) 0 balanced (by omega) pos (by omega)
    rw [size, UInt64.ofNat_toNat, UInt64.ofNat_toNat] at walk
    have power := and_pred_eq_zero pos
    have spine := onSpine_iff balanced pos (by omega)
    obtain ⟨first, p, start, eq⟩ : ∃ first p, consistencyStart proof = pure (first, p) ∧
        (p.length = (climb H t proof.olderTreeSize.toNat).length ↔
          proof.nodes.length = (consistencyPathLength proof.olderTreeSize
            proof.newerTreeSize).toNat) := by
      rw [← length, subproof, Bool.true_and]
      by_cases edge : ∃ k, proof.olderTreeSize.toNat = 2 ^ k
      · rw [consistencyStart, if_pos (power.mpr edge), if_pos (spine.mpr edge)]
        exact ⟨_, _, rfl, by simp⟩
      · obtain ⟨node, rest, nodes⟩ := exists_cons_of_ne_nil (starts.resolve_right edge)
        rw [consistencyStart, if_neg (mt power.mp edge), if_neg (mt spine.mp edge), nodes]
        exact ⟨_, _, rfl, by simp [Nat.add_comm]⟩
    have ends := verifyConsistencyLoop_length walk first first p
    rw [length_map, eq] at ends
    simp only [Context.run_background, verifyConsistency, outcome_bind, outcome_lift,
      checked, valid,
      Except.bind, outcome_poll, outcome_failIf, gt_iff_lt, if_neg (UInt64.not_lt.mpr few),
      if_neg (UInt64.not_lt.mpr depth), if_neg ne, start, outcome_pure]
    split at ends
    · next sn _ _ ok =>
      rw [ok]
      by_cases zero : sn = 0
      · simp only [Ne, ← ends, zero, not_true_eq_false, if_false, iff_false]
        split_ifs <;> simp
      · simp [← ends, zero]
    · next e failed =>
      rw [failed, ends.1]
      simpa using ends.2
  · rw [← length]
    exact length_subproof_le H balanced (by omega) _ _
  · intro ds eq
    obtain ⟨u, balanced, rfl⟩ := exists_balanced ds (by omega)
    rw [u.length_leaves] at eq
    rw [rfcSubproof_leaves H balanced pos (by omega)]
    exact (counted u balanced eq).2

/-- A proof that three leaves begin a tree of seven, with the given nodes. -/
def proofOfSeven (nodes : List (Digest Term)) : ConsistencyProof Term :=
  let digest : Digest Term := ⟨hashSHA256, .empty⟩
  ⟨profileRFC9162, 1, hashSHA256, ⟨profileRFC9162, 1, hashSHA256, 3, digest⟩,
    ⟨profileRFC9162, 1, hashSHA256, 7, digest⟩, 3, 7, nodes⟩

/-- Such a proof has four nodes; one with three is malformed. -/
theorem consistency_lengths_exact_seven :
    (∀ nodes : List (Digest Term), nodes = replicate 3 ⟨hashSHA256, .leaf []⟩ ∨
        nodes = replicate 4 ⟨hashSHA256, .leaf []⟩ →
      (Context.background.run (verifyConsistency Hasher.free (proofOfSeven nodes) ⟨64, 64⟩) =
        .error .malformedProof ↔ nodes.length ≠ 4)) ∧
    (rfcSubproof Hasher.free 3 (replicate 7 Term.empty) true).length = 4 := by
  obtain ⟨malformed, -, path, -⟩ :=
    consistency_lengths_exact Hasher.free (m := 3) (n := 7) (by decide) (by decide)
  refine ⟨?_, path _ (by decide)⟩
  rintro nodes (rfl | rfl)
  all_goals
    exact malformed _ _ (by decide) rfl rfl (.inl (by simp [proofOfSeven])) (by decide)
      (by decide) (by decide)

end Golib.MerkleTree
