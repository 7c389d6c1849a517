import Golib.MerkleTree.Root

/-! Snapshots that retain their node array, and inclusion proofs. A slice read
outside its range is the `outOfRange` outcome. Recursions that follow child indexes or
halve a size carry a fuel argument. -/
namespace Golib.MerkleTree

open HashTree (carry pushAll foldStack)

variable {D : Type}

structure ProofLimits where
  maxElements : UInt64
  maxTraversalDepth : UInt64
  maxLeafBytes : UInt64
  deriving DecidableEq, Repr

def ProofLimits.validate (limits : ProofLimits) : Except Err Unit :=
  if limits.maxElements = 0 ∨ limits.maxTraversalDepth = 0 ∨ limits.maxLeafBytes = 0 then
    .error .invalidLimits
  else .ok ()

structure SnapshotLimits where
  construction : Limits
  maxRetainedNodes : UInt64
  deriving DecidableEq, Repr

def SnapshotLimits.validate (limits : SnapshotLimits) : Except Err Unit := do
  limits.construction.validate
  if limits.maxRetainedNodes = 0 then .error .invalidLimits
  else if limits.maxRetainedNodes > 0x7fffffffffffffff then .error .invalidLimits
  else .ok ()

def noSnapshotNode : UInt64 := 0xffffffffffffffff

structure SnapshotNode (D : Type) where
  digest : D
  size : UInt64
  left : UInt64
  right : UInt64
  deriving DecidableEq, Repr

structure Snapshot (D : Type) where
  profile : Profile
  root : Root D
  nodes : List (SnapshotNode D)
  rootNode : UInt64
  totalBytes : UInt64
  deriving DecidableEq, Repr

/- The source panics on a negative shift count for the argument one, which no caller
passes; the truncated subtraction gives one there. -/
def largestPowerOfTwoBelow (value : UInt64) : UInt64 := shiftLeft64 1 (len64 (value - 1) - 1)

def snapshotNodeCount (treeSize : UInt64) : UInt64 :=
  if treeSize = 0 then 0 else 2 * treeSize - 1

def newDigest (algorithm : UInt8) (value : D) : Digest D := ⟨algorithm, value⟩

@[simp] theorem newDigest_value (alg : UInt8) (v : D) : (newDigest alg v).value = v := rfl

@[simp] theorem newDigest_algorithm (alg : UInt8) (v : D) : (newDigest alg v).algorithm = alg := rfl

def leafNode (H : Hasher D) (leaf : RawLeaf) : SnapshotNode D :=
  ⟨H.hashLeaf leaf.value, 1, noSnapshotNode, noSnapshotNode⟩

def readNode (nodes : List (SnapshotNode D)) (index : UInt64) : Polled Err (SnapshotNode D) :=
  .get .outOfRange nodes[index.toNat]?

def joinNodes (H : Hasher D) (left right : UInt64) (l r : SnapshotNode D) : SnapshotNode D :=
  ⟨H.hashBranch l.digest r.digest, l.size + r.size, left, right⟩

def newSnapshotBranch (H : Hasher D) (nodes : List (SnapshotNode D)) (left right : UInt64) :
    Polled Err (SnapshotNode D) := do
  let l ← readNode nodes left
  let r ← readNode nodes right
  pure (joinNodes H left right l r)

def pushNode (H : Hasher D) (nodes : List (SnapshotNode D)) (leaf : RawLeaf) :
    Polled Err (List (SnapshotNode D) × UInt64) := do
  .poll
  pure (nodes ++ [leafNode H leaf], UInt64.ofNat nodes.length)

def mergeNodes (H : Hasher D) (nodes : List (SnapshotNode D)) (left right : UInt64) :
    Polled Err (List (SnapshotNode D) × UInt64) := do
  .poll
  let branch ← newSnapshotBranch H nodes left right
  pure (nodes ++ [branch], UInt64.ofNat nodes.length)

/-- The fold of a nonempty stack of node indexes; it appends the branches it makes. -/
def foldNodes (H : Hasher D) (nodes : List (SnapshotNode D)) :
    List UInt64 → Polled Err (List (SnapshotNode D) × UInt64)
  | [] => .fail .outOfRange
  | top :: rest => foldStack (mergeNodes H) nodes top rest

def sumLeafBytes : UInt64 → List RawLeaf → UInt64
  | total, [] => total
  | total, leaf :: rest => sumLeafBytes (total + UInt64.ofNat leaf.value.length) rest

def newSnapshot (H : Hasher D) (profile : Profile) (leaves : List RawLeaf)
    (limits : SnapshotLimits) : Polled Err (Snapshot D) := do
  .lift limits.validate
  let treeSize := UInt64.ofNat leaves.length
  .failIf (treeSize > limits.construction.maxLeaves)
    (.resource .leaves limits.construction.maxLeaves treeSize)
  let nodeCount := snapshotNodeCount treeSize
  .failIf (nodeCount > limits.maxRetainedNodes)
    (.resource .retainedNodes limits.maxRetainedNodes nodeCount)
  let root ← computeRoot H profile leaves limits.construction
  let totalBytes := sumLeafBytes 0 leaves
  if leaves.length = 0 then
    pure ⟨profile, root, [], noSnapshotNode, totalBytes⟩
  else do
    let (nodes, stack) ← pushAll (pushNode H) (mergeNodes H) .outOfRange 0 [] [] leaves
    let (nodes, rootNode) ← foldNodes H nodes stack
    pure ⟨profile, root, nodes, rootNode, totalBytes⟩

namespace Snapshot

variable [DecidableEq D]

def validate (snapshot : Snapshot D) : Except Err Unit :=
  if snapshot.profile.validate.isOk = false then .error .invalidSnapshot
  else if snapshot.root.profileID ≠ snapshot.profile.id ∨
      snapshot.root.profileVersion ≠ snapshot.profile.version ∨
      snapshot.root.algorithm ≠ snapshot.profile.algorithm ∨
      snapshot.root.digest.algorithm ≠ snapshot.profile.algorithm then .error .invalidSnapshot
  else if snapshot.root.treeSize = 0 then
    if snapshot.nodes.length ≠ 0 ∨ snapshot.rootNode ≠ noSnapshotNode ∨ snapshot.totalBytes ≠ 0 then
      .error .invalidSnapshot
    else .ok ()
  else
    match snapshot.nodes[snapshot.rootNode.toNat]? with
    | none => .error .invalidSnapshot
    | some node =>
      if node.size ≠ snapshot.root.treeSize ∨ node.digest ≠ snapshot.root.digest.value then
        .error .invalidSnapshot
      else .ok ()

/-- The exported accessor of the root. -/
def rootIdentity (snapshot : Snapshot D) : Except Err (Root D) := do
  snapshot.validate
  pure snapshot.root

def totalLeafBytes (snapshot : Snapshot D) : Except Err UInt64 := do
  snapshot.validate
  pure snapshot.totalBytes

end Snapshot

structure InclusionProof (D : Type) where
  profileID : UInt8
  profileVersion : UInt16
  algorithm : UInt8
  root : Root D
  treeSize : UInt64
  leafIndex : UInt64
  leafDigest : Digest D
  siblings : List (Digest D)
  deriving DecidableEq, Repr

def auditPathLoop : Nat → UInt64 → UInt64 → UInt64 → UInt64
  | 0, _, _, length => length
  | rounds + 1, index, size, length =>
    if size ≤ 1 then length
    else
      let split := largestPowerOfTwoBelow size
      if index < split then auditPathLoop rounds index split (length + 1)
      else auditPathLoop rounds (index - split) (size - split) (length + 1)

def auditPathLength (index size : UInt64) : UInt64 := auditPathLoop 64 index size 0

/-- The leaf digest at `index` below a node, with the siblings passed on the way appended. -/
def appendAuditPath (algorithm : UInt8) (nodes : List (SnapshotNode D)) :
    Nat → UInt64 → UInt64 → List (Digest D) → Polled Err (D × List (Digest D))
  | 0, _, _, _ => .fail .outOfRange
  | fuel + 1, nodeIndex, index, siblings => do
    .poll
    let node ← readNode nodes nodeIndex
    if node.size = 1 then pure (node.digest, siblings)
    else do
      let left ← readNode nodes node.left
      if index < left.size then do
        let (leafDigest, siblings) ← appendAuditPath algorithm nodes fuel node.left index siblings
        let right ← readNode nodes node.right
        pure (leafDigest, siblings ++ [newDigest algorithm right.digest])
      else do
        let (leafDigest, siblings) ←
          appendAuditPath algorithm nodes fuel node.right (index - left.size) siblings
        pure (leafDigest, siblings ++ [newDigest algorithm left.digest])

def Snapshot.inclusionProof [DecidableEq D] (snapshot : Snapshot D) (index : UInt64)
    (limits : ProofLimits) : Polled Err (InclusionProof D) := do
  .lift snapshot.validate
  .lift limits.validate
  .poll
  let treeSize := snapshot.root.treeSize
  .failIf (index ≥ treeSize) .indexOutOfRange
  let elementCount := auditPathLength index treeSize
  .failIf (elementCount > limits.maxElements)
    (.resource .proofElements limits.maxElements elementCount)
  let depth := UInt64.ofNat (len64 treeSize)
  .failIf (depth > limits.maxTraversalDepth)
    (.resource .traversalDepth limits.maxTraversalDepth depth)
  let (leafDigest, siblings) ← appendAuditPath snapshot.profile.algorithm snapshot.nodes
    snapshot.nodes.length snapshot.rootNode index []
  pure ⟨snapshot.profile.id, snapshot.profile.version, snapshot.profile.algorithm, snapshot.root,
    treeSize, index, newDigest snapshot.profile.algorithm leafDigest, siblings⟩

def InclusionProof.validate (proof : InclusionProof D) : Except Err Unit := do
  if proof.algorithm ≠ hashSHA256 then .error .unsupportedAlgorithm
  Profile.validate ⟨proof.profileID, proof.profileVersion, proof.algorithm⟩
  if proof.treeSize = 0 ∨ proof.leafIndex ≥ proof.treeSize then .error .malformedProof
  if proof.root.profileID ≠ proof.profileID ∨ proof.root.profileVersion ≠ proof.profileVersion ∨
      proof.root.algorithm ≠ proof.algorithm ∨ proof.root.treeSize ≠ proof.treeSize ∨
      proof.root.digest.algorithm ≠ proof.algorithm ∨
      proof.leafDigest.algorithm ≠ proof.algorithm then .error .malformedProof
  if proof.siblings.any (fun sibling => sibling.algorithm != proof.algorithm) then
    .error .malformedProof

/- No 64-bit size is split more than 65 times before it is one. -/
def sizeFuel : Nat := 66

def reconstructInclusionRoot (H : Hasher D) (leafDigest : D) (siblings : List (Digest D)) :
    Nat → UInt64 → UInt64 → Polled Err (D × Nat)
  | 0, _, _ => .fail .outOfRange
  | fuel + 1, index, size => do
    .poll
    if size = 1 then pure (leafDigest, 0)
    else do
      let split := largestPowerOfTwoBelow size
      if index < split then do
        let (left, consumed) ← reconstructInclusionRoot H leafDigest siblings fuel index split
        let sibling ← .get .outOfRange siblings[consumed]?
        pure (H.hashBranch left sibling.value, consumed + 1)
      else do
        let (right, consumed) ←
          reconstructInclusionRoot H leafDigest siblings fuel (index - split) (size - split)
        let sibling ← .get .outOfRange siblings[consumed]?
        pure (H.hashBranch sibling.value right, consumed + 1)

def verifyInclusion [DecidableEq D] (H : Hasher D) (proof : InclusionProof D) (leaf : RawLeaf)
    (limits : ProofLimits) : Polled Err Unit := do
  .lift limits.validate
  .poll
  let elementCount := UInt64.ofNat proof.siblings.length
  .failIf (elementCount > limits.maxElements)
    (.resource .proofElements limits.maxElements elementCount)
  let depth := UInt64.ofNat (len64 proof.treeSize)
  .failIf (depth > limits.maxTraversalDepth)
    (.resource .traversalDepth limits.maxTraversalDepth depth)
  let leafBytes := UInt64.ofNat leaf.value.length
  .failIf (leafBytes > limits.maxLeafBytes) (.resource .leafBytes limits.maxLeafBytes leafBytes)
  .lift proof.validate
  .failIf (elementCount ≠ auditPathLength proof.leafIndex proof.treeSize) .malformedProof
  let leafDigest := H.hashLeaf leaf.value
  .failIf (leafDigest ≠ proof.leafDigest.value) .verificationFailed
  let (current, _) ← reconstructInclusionRoot H leafDigest proof.siblings sizeFuel
    proof.leafIndex proof.treeSize
  .failIf (current ≠ proof.root.digest.value) .verificationFailed

end Golib.MerkleTree
