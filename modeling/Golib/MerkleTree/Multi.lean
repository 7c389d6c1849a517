import Mathlib.Data.List.Sort
import Golib.Lib.Search
import Golib.MerkleTree.Inclusion

/-! Multi-inclusion proofs over a sorted set of leaf indexes. -/
namespace Golib.MerkleTree

variable {D : Type}

structure MultiProofLimits where
  maxLeaves : UInt64
  maxElements : UInt64
  maxTraversalDepth : UInt64
  maxLeafBytes : UInt64
  maxTotalLeafBytes : UInt64
  deriving DecidableEq, Repr

def MultiProofLimits.validate (limits : MultiProofLimits) : Except Err Unit :=
  if limits.maxLeaves = 0 ∨ limits.maxElements = 0 ∨ limits.maxTraversalDepth = 0 ∨
      limits.maxLeafBytes = 0 ∨ limits.maxTotalLeafBytes = 0 then .error .invalidLimits
  else .ok ()

structure MultiInclusionProof (D : Type) where
  profileID : UInt8
  profileVersion : UInt16
  algorithm : UInt8
  root : Root D
  treeSize : UInt64
  leafIndexes : List UInt64
  leafDigests : List (Digest D)
  frontier : List (Digest D)
  deriving DecidableEq, Repr

/-- The position of the first index at or beyond `bound`, by binary search. -/
def splitIndex (indexes : List UInt64) (bound : UInt64) : Nat :=
  search indexes.length (fun i => decide (indexes.getD i 0 ≥ bound))

/- The source checks a sorted copy from the left: range first, then a repeated neighbour. -/
def checkIndexes (treeSize : UInt64) : Option UInt64 → List UInt64 → Except Err Unit
  | _, [] => .ok ()
  | previous, leafIndex :: rest =>
    if leafIndex ≥ treeSize then .error .indexOutOfRange
    else if previous = some leafIndex then .error .invalidLeafIndexes
    else checkIndexes treeSize (some leafIndex) rest

def appendMultiProof (algorithm : UInt8) (nodes : List (SnapshotNode D)) (maxElements : UInt64) :
    Nat → UInt64 → UInt64 → List UInt64 → List (Digest D) → List (Digest D) →
      Polled Err (List (Digest D) × List (Digest D))
  | 0, _, _, _, _, _ => .fail .outOfRange
  | fuel + 1, nodeIndex, start, indexes, leafDigests, frontier => do
    .poll
    let node ← readNode nodes nodeIndex
    if indexes.length = 0 then do
      let elementCount := UInt64.ofNat frontier.length
      .failIf (elementCount = maxElements)
        (.resource .proofElements maxElements (elementCount + 1))
      pure (leafDigests, frontier ++ [newDigest algorithm node.digest])
    else if node.size = 1 then
      pure (leafDigests ++ [newDigest algorithm node.digest], frontier)
    else do
      let left ← readNode nodes node.left
      let cut := splitIndex indexes (start + left.size)
      let (leafDigests, frontier) ← appendMultiProof algorithm nodes maxElements fuel
        node.left start
        (indexes.take cut) leafDigests frontier
      appendMultiProof algorithm nodes maxElements fuel node.right (start + left.size)
        (indexes.drop cut) leafDigests frontier

def Snapshot.multiInclusionProof [DecidableEq D] (snapshot : Snapshot D) (indexes : List UInt64)
    (limits : MultiProofLimits) : Polled Err (MultiInclusionProof D) := do
  .lift snapshot.validate
  .lift limits.validate
  .poll
  let indexCount := UInt64.ofNat indexes.length
  .failIf (indexCount = 0) .invalidLeafIndexes
  .failIf (indexCount > limits.maxLeaves) (.resource .leaves limits.maxLeaves indexCount)
  let treeSize := snapshot.root.treeSize
  let canonicalIndexes := indexes.insertionSort (· ≤ ·)
  .lift (checkIndexes treeSize none canonicalIndexes)
  let depth := UInt64.ofNat (len64 treeSize)
  .failIf (depth > limits.maxTraversalDepth)
    (.resource .traversalDepth limits.maxTraversalDepth depth)
  let (leafDigests, frontier) ← appendMultiProof snapshot.profile.algorithm snapshot.nodes
    limits.maxElements snapshot.nodes.length snapshot.rootNode 0 canonicalIndexes [] []
  pure ⟨snapshot.profile.id, snapshot.profile.version, snapshot.profile.algorithm, snapshot.root,
    treeSize, canonicalIndexes, leafDigests, frontier⟩

def rootMatchesMultiProofIdentity (root : Root D) (proof : MultiInclusionProof D) : Bool :=
  root.profileID == proof.profileID && root.profileVersion == proof.profileVersion &&
    root.algorithm == proof.algorithm && root.digest.algorithm == proof.algorithm

/-- The joint pass over indexes and digests: in range, strictly ascending, one algorithm. -/
def checkSelection (treeSize : UInt64) (algorithm : UInt8) :
    Option UInt64 → List UInt64 → List (Digest D) → Bool
  | previous, leafIndex :: rest, digest :: digests =>
    leafIndex < treeSize && previous.all (· < leafIndex) && digest.algorithm == algorithm &&
      checkSelection treeSize algorithm (some leafIndex) rest digests
  | _, _, _ => true

def MultiInclusionProof.validate (proof : MultiInclusionProof D) : Except Err Unit := do
  if proof.algorithm ≠ hashSHA256 then .error .unsupportedAlgorithm
  Profile.validate ⟨proof.profileID, proof.profileVersion, proof.algorithm⟩
  if proof.treeSize = 0 ∨ proof.root.treeSize ≠ proof.treeSize ∨
      rootMatchesMultiProofIdentity proof.root proof = false ∨ proof.leafIndexes.length = 0 ∨
      proof.leafIndexes.length ≠ proof.leafDigests.length then .error .malformedProof
  if checkSelection proof.treeSize proof.algorithm none proof.leafIndexes
    proof.leafDigests = false then
    .error .malformedProof
  if proof.frontier.any (fun node => node.algorithm != proof.algorithm) then .error .malformedProof

/-- The raw leaves against their byte limits and the digests the proof binds. -/
def checkMultiLeaves [DecidableEq D] (H : Hasher D) (limits : MultiProofLimits) :
    UInt64 → List RawLeaf → List (Digest D) → Polled Err Unit
  | _, [], _ => pure ()
  | totalLeafBytes, leaf :: rest, digests => do
    .poll
    let leafBytes := UInt64.ofNat leaf.value.length
    .failIf (leafBytes > limits.maxLeafBytes) (.resource .leafBytes limits.maxLeafBytes leafBytes)
    .failIf (leafBytes > limits.maxTotalLeafBytes - totalLeafBytes)
      (.resource .totalBytes limits.maxTotalLeafBytes (saturatedAdd totalLeafBytes leafBytes))
    let expected ← .get .outOfRange digests.head?
    .failIf (H.hashLeaf leaf.value ≠ expected.value) .verificationFailed
    checkMultiLeaves H limits (totalLeafBytes + leafBytes) rest digests.tail

/-- The digest of a subtree and the frontier position after it. -/
def reconstructMultiRoot (H : Hasher D) (frontier : List (Digest D)) :
    Nat → UInt64 → UInt64 → List UInt64 → List (Digest D) → Nat → Polled Err (D × Nat)
  | 0, _, _, _, _, _ => .fail .outOfRange
  | fuel + 1, start, size, indexes, leafDigests, frontierIndex => do
    .poll
    if indexes.length = 0 then do
      let node ← .get .malformedProof frontier[frontierIndex]?
      pure (node.value, frontierIndex + 1)
    else if size = 1 then do
      let leafDigest ← .get .outOfRange leafDigests.head?
      pure (leafDigest.value, frontierIndex)
    else do
      let split := largestPowerOfTwoBelow size
      let cut := splitIndex indexes (start + split)
      let (left, frontierIndex) ← reconstructMultiRoot H frontier fuel start split
        (indexes.take cut) (leafDigests.take cut) frontierIndex
      let (right, frontierIndex) ← reconstructMultiRoot H frontier fuel (start + split)
        (size - split)
        (indexes.drop cut) (leafDigests.drop cut) frontierIndex
      pure (H.hashBranch left right, frontierIndex)

def verifyMultiInclusion [DecidableEq D] (H : Hasher D) (proof : MultiInclusionProof D)
    (leaves : List RawLeaf) (limits : MultiProofLimits) : Polled Err Unit := do
  .lift limits.validate
  .poll
  let leafCount := UInt64.ofNat proof.leafIndexes.length
  .failIf (leafCount > limits.maxLeaves) (.resource .leaves limits.maxLeaves leafCount)
  let elementCount := UInt64.ofNat proof.frontier.length
  .failIf (elementCount > limits.maxElements)
    (.resource .proofElements limits.maxElements elementCount)
  let depth := UInt64.ofNat (len64 proof.treeSize)
  .failIf (depth > limits.maxTraversalDepth)
    (.resource .traversalDepth limits.maxTraversalDepth depth)
  .lift proof.validate
  .failIf (leaves.length ≠ proof.leafIndexes.length) .verificationFailed
  checkMultiLeaves H limits 0 leaves proof.leafDigests
  let (rootDigest, frontierIndex) ← reconstructMultiRoot H proof.frontier sizeFuel 0 proof.treeSize
    proof.leafIndexes proof.leafDigests 0
  .failIf (frontierIndex ≠ proof.frontier.length) .malformedProof
  .failIf (rootDigest ≠ proof.root.digest.value) .verificationFailed

/-- The frontier size that the indexes prescribe, for at most `fuel` splits. -/
def multiFrontierCountLoop : Nat → UInt64 → UInt64 → List UInt64 → UInt64
  | 0, _, _, _ => 0
  | fuel + 1, start, size, indexes =>
    if indexes.length = 0 then 1
    else if size = 1 then 0
    else
      let split := largestPowerOfTwoBelow size
      let cut := splitIndex indexes (start + split)
      multiFrontierCountLoop fuel start split (indexes.take cut) +
        multiFrontierCountLoop fuel (start + split) (size - split) (indexes.drop cut)

def multiFrontierCount (start size : UInt64) (indexes : List UInt64) : UInt64 :=
  multiFrontierCountLoop sizeFuel start size indexes

end Golib.MerkleTree
