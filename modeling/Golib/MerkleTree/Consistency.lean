import Golib.MerkleTree.Inclusion

/-! Consistency proofs: generation follows the retained tree from the root, verification
walks up from the last leaf of the older tree by shifting two counters. -/
namespace Golib.MerkleTree

variable {D : Type}

structure ConsistencyProofLimits where
  maxElements : UInt64
  maxTraversalDepth : UInt64
  deriving DecidableEq, Repr

def ConsistencyProofLimits.validate (limits : ConsistencyProofLimits) : Except Err Unit :=
  if limits.maxElements = 0 ∨ limits.maxTraversalDepth = 0 then .error .invalidLimits else .ok ()

structure ConsistencyProof (D : Type) where
  profileID : UInt8
  profileVersion : UInt16
  algorithm : UInt8
  olderRoot : Root D
  newerRoot : Root D
  olderTreeSize : UInt64
  newerTreeSize : UInt64
  nodes : List (Digest D)
  deriving DecidableEq, Repr

def rootsShareProfile (left right : Root D) : Bool :=
  left.profileID == right.profileID && left.profileVersion == right.profileVersion &&
    left.algorithm == right.algorithm && left.digest.algorithm == left.algorithm &&
    right.digest.algorithm == right.algorithm

def rootMatchesProofIdentity (root : Root D) (proof : ConsistencyProof D) : Bool :=
  root.profileID == proof.profileID && root.profileVersion == proof.profileVersion &&
    root.algorithm == proof.algorithm && root.digest.algorithm == proof.algorithm

/-- At most `rounds` rounds of the length loop; the source leaves it after 64. -/
def consistencyPathLoop : Nat → UInt64 → UInt64 → Bool → UInt64 → UInt64
  | 0, _, _, complete, length => if complete then length else length + 1
  | rounds + 1, olderSize, newerSize, complete, length =>
    if olderSize < newerSize then
      let split := largestPowerOfTwoBelow newerSize
      if olderSize ≤ split then consistencyPathLoop rounds olderSize split complete (length + 1)
      else consistencyPathLoop rounds (olderSize - split) (newerSize - split) false (length + 1)
    else if complete then length else length + 1

def consistencyPathLength (olderSize newerSize : UInt64) : UInt64 :=
  if olderSize = newerSize then 0 else consistencyPathLoop 64 olderSize newerSize true 0

/-- The digest of the first `olderSize` leaves below a node, with the proof nodes appended. -/
def appendConsistencySubproof (H : Hasher D) (algorithm : UInt8)
    (snapshotNodes : List (SnapshotNode D)) :
    Nat → UInt64 → UInt64 → Bool → List (Digest D) → Polled Err (D × List (Digest D))
  | 0, _, _, _, _ => .fail .outOfRange
  | fuel + 1, nodeIndex, olderSize, complete, nodes => do
    .poll
    let node ← readNode snapshotNodes nodeIndex
    if olderSize = node.size then
      pure (node.digest, if complete then nodes else nodes ++ [newDigest algorithm node.digest])
    else do
      let left ← readNode snapshotNodes node.left
      if olderSize ≤ left.size then do
        let (pre, nodes) ←
          appendConsistencySubproof H algorithm snapshotNodes fuel node.left olderSize
            complete nodes
        let right ← readNode snapshotNodes node.right
        pure (pre, nodes ++ [newDigest algorithm right.digest])
      else do
        let (rightPrefix, nodes) ← appendConsistencySubproof H algorithm snapshotNodes
          fuel node.right
          (olderSize - left.size) false nodes
        pure (H.hashBranch left.digest rightPrefix, nodes ++ [newDigest algorithm left.digest])

def Snapshot.consistencyProof [DecidableEq D] (H : Hasher D) (snapshot : Snapshot D)
    (older : Root D)
    (limits : ConsistencyProofLimits) : Polled Err (ConsistencyProof D) := do
  .lift snapshot.validate
  .lift limits.validate
  .poll
  let olderSize := older.treeSize
  let newerSize := snapshot.root.treeSize
  .failIf (olderSize > newerSize ∨ (olderSize = 0 ∧ newerSize ≠ 0)) .invalidTreeSize
  .failIf (rootsShareProfile older snapshot.root = false) .incompatibleRoot
  let elementCount := consistencyPathLength olderSize newerSize
  .failIf (elementCount > limits.maxElements)
    (.resource .proofElements limits.maxElements elementCount)
  let depth := UInt64.ofNat (len64 newerSize)
  .failIf (depth > limits.maxTraversalDepth)
    (.resource .traversalDepth limits.maxTraversalDepth depth)
  let proof : ConsistencyProof D := ⟨snapshot.profile.id, snapshot.profile.version,
    snapshot.profile.algorithm, older, snapshot.root, olderSize, newerSize, []⟩
  if olderSize = newerSize then do
    .failIf (older.digest.value ≠ snapshot.root.digest.value) .verificationFailed
    pure proof
  else do
    let (prefixDigest, nodes) ← appendConsistencySubproof H snapshot.profile.algorithm
      snapshot.nodes
      snapshot.nodes.length snapshot.rootNode olderSize true []
    .failIf (prefixDigest ≠ older.digest.value) .verificationFailed
    pure { proof with nodes := nodes }

def ConsistencyProof.validate (proof : ConsistencyProof D) : Except Err Unit := do
  if proof.algorithm ≠ hashSHA256 then .error .unsupportedAlgorithm
  Profile.validate ⟨proof.profileID, proof.profileVersion, proof.algorithm⟩
  if proof.olderTreeSize > proof.newerTreeSize ∨
      (proof.olderTreeSize = 0 ∧ proof.newerTreeSize ≠ 0) then .error .malformedProof
  if proof.olderRoot.treeSize ≠ proof.olderTreeSize ∨
      proof.newerRoot.treeSize ≠ proof.newerTreeSize ∨
      rootMatchesProofIdentity proof.olderRoot proof = false ∨
      rootMatchesProofIdentity proof.newerRoot proof = false then .error .malformedProof
  if proof.nodes.any (fun node => node.algorithm != proof.algorithm) then .error .malformedProof

/-- The walk over the proof nodes: the two counters and the two digests built so far. -/
def verifyConsistencyLoop (H : Hasher D) :
    UInt64 → UInt64 → D → D → List (Digest D) → Polled Err (UInt64 × D × D)
  | _, sn, firstRoot, secondRoot, [] => pure (sn, firstRoot, secondRoot)
  | fn, sn, firstRoot, secondRoot, node :: rest => do
    .poll
    .failIf (sn = 0) .malformedProof
    if fn &&& 1 = 1 ∨ fn = sn then
      let sharedShift := trailingZeros64 fn
      verifyConsistencyLoop H (shiftRight64 fn sharedShift >>> 1)
        (shiftRight64 sn sharedShift >>> 1)
        (H.hashBranch node.value firstRoot) (H.hashBranch node.value secondRoot) rest
    else
      verifyConsistencyLoop H (fn >>> 1) (sn >>> 1) firstRoot
        (H.hashBranch secondRoot node.value) rest

/-- The digest the walk starts from and the nodes it goes on with: a power of two has its
own root for a start, any other size takes the first node. -/
def consistencyStart (proof : ConsistencyProof D) : Polled Err (D × List (Digest D)) :=
  if proof.olderTreeSize &&& (proof.olderTreeSize - 1) = 0 then
    pure (proof.olderRoot.digest.value, proof.nodes)
  else
    match proof.nodes with
    | [] => .fail .outOfRange
    | node :: rest => pure (node.value, rest)

def verifyConsistency [DecidableEq D] (H : Hasher D) (proof : ConsistencyProof D)
    (limits : ConsistencyProofLimits) : Polled Err Unit := do
  .lift limits.validate
  .poll
  let elementCount := UInt64.ofNat proof.nodes.length
  .failIf (elementCount > limits.maxElements)
    (.resource .proofElements limits.maxElements elementCount)
  let depth := UInt64.ofNat (len64 proof.newerTreeSize)
  .failIf (depth > limits.maxTraversalDepth)
    (.resource .traversalDepth limits.maxTraversalDepth depth)
  .lift proof.validate
  if proof.olderTreeSize = proof.newerTreeSize then do
    .failIf (elementCount ≠ 0) .malformedProof
    .failIf (proof.olderRoot.digest.value ≠ proof.newerRoot.digest.value) .verificationFailed
  else do
    let fn := proof.olderTreeSize - 1
    let sn := proof.newerTreeSize - 1
    let initialShift := trailingZeros64 (~~~fn)
    let fn := shiftRight64 fn initialShift
    let sn := shiftRight64 sn initialShift
    let (first, path) ← consistencyStart proof
    let (sn, firstRoot, secondRoot) ← verifyConsistencyLoop H fn sn first first path
    .failIf (sn ≠ 0) .malformedProof
    .failIf (firstRoot ≠ proof.olderRoot.digest.value ∨ secondRoot ≠ proof.newerRoot.digest.value)
      .verificationFailed

end Golib.MerkleTree
