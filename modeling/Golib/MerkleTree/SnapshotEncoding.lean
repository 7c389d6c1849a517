import Golib.Lib.Bytes
import Golib.MerkleTree.Builder

/-! Persisted snapshots: the binary form, its decoder with the structural check, and the
builder resumed from a snapshot. Digests have 32 bytes here. -/
namespace Golib.MerkleTree

open HashTree (carry)

structure SnapshotPersistenceLimits where
  maxEncodedBytes : UInt64
  maxLeaves : UInt64
  maxTotalLeafBytes : UInt64
  maxRetainedNodes : UInt64
  maxTraversalDepth : UInt64
  maxNodeReads : UInt64
  maxTemporaryBytes : UInt64
  deriving DecidableEq, Repr

def SnapshotPersistenceLimits.validate (limits : SnapshotPersistenceLimits) : Except Err Unit :=
  if limits.maxEncodedBytes = 0 ∨ limits.maxLeaves = 0 ∨ limits.maxTotalLeafBytes = 0 ∨
      limits.maxRetainedNodes = 0 ∨ limits.maxTraversalDepth = 0 ∨ limits.maxNodeReads = 0 ∨
      limits.maxTemporaryBytes = 0 then .error .invalidLimits
  else .ok ()

def canonicalEncodingMagic : Bytes := [0x4d, 0x54, 0x52, 0x45]
def canonicalEncodingVersion : UInt8 := 1
def encodingObjectSnapshot : UInt8 := 5
def encodingHeaderSize : Nat := 10
def encodedSnapshotBase : Nat := encodingHeaderSize + 8 + 8 + 32 + 8 + 8
def encodedSnapshotNodeSize : Nat := 32 + 8 + 8 + 8
def maxInt : Nat := 2 ^ 63 - 1
def maxUint64 : UInt64 := 0xffffffffffffffff
def defaultMaxProofElements : UInt64 := 64

/-- The exact byte count; the source rejects one that no `int` holds. -/
def encodedVectorSize (base : Nat) (count : UInt64) (elementSize : Nat) : Except Err Nat :=
  if base + count.toNat * elementSize > maxInt then .error .malformedEncoding
  else .ok (base + count.toNat * elementSize)

def encodingHeader (objectType : UInt8) (profile : Profile) : Bytes :=
  canonicalEncodingMagic ++ [canonicalEncodingVersion, objectType, profile.id] ++
    putBigEndian 2 profile.version.toNat ++ [profile.algorithm]

def parseEncodingHeader (data : Bytes) (expectedObject : UInt8) : Except Err Profile :=
  if data.take 4 ≠ canonicalEncodingMagic then .error .malformedEncoding
  else if data.getD 4 0 ≠ canonicalEncodingVersion then .error .unsupportedEncodingVersion
  else if data.getD 5 0 ≠ expectedObject then .error .malformedEncoding
  else
    let profile : Profile := ⟨data.getD 6 0, UInt16.ofNat (bigEndian ((data.drop 7).take 2)),
      data.getD 9 0⟩
    if profile.algorithm ≠ hashSHA256 then .error .unsupportedAlgorithm
    else do
      profile.validate
      pure profile

def validSnapshotNodeCount (treeSize nodeCount : UInt64) : Bool :=
  if treeSize = 0 then nodeCount == 0
  else if treeSize > 0x8000000000000000 then false
  else nodeCount == snapshotNodeCount treeSize

structure PendingNode where
  index : UInt64
  start : UInt64
  depth : UInt64
  deriving DecidableEq, Repr

section Structure

variable {D : Type} [DecidableEq D]

/-- The loop over the explicit stack, top first. -/
def validateLoop (H : Hasher D) (nodes : List (SnapshotNode D)) (maxDepth maxNodeReads : UInt64) :
    Nat → UInt64 → List PendingNode → Polled Err Unit
  | 0, _, _ => .fail .outOfRange
  | _ + 1, _, [] => pure ()
  | fuel + 1, reads, current :: stack => do
    .poll
    let reads := reads + 1
    .failIf (reads > maxNodeReads) (.resource .nodeReads maxNodeReads reads)
    .failIf (current.depth > maxDepth) .invalidSnapshot
    let node ← readNode nodes current.index
    if node.size = 1 then do
      .failIf (current.index ≠ current.start ∨ node.left ≠ noSnapshotNode ∨
        node.right ≠ noSnapshotNode) .invalidSnapshot
      validateLoop H nodes maxDepth maxNodeReads fuel reads stack
    else do
      let leftSize := largestPowerOfTwoBelow node.size
      let rightSize := node.size - leftSize
      let rightNodes := snapshotNodeCount rightSize
      let wantRight := current.index - 1
      let wantLeft := current.index - rightNodes - 1
      .failIf (node.left ≠ wantLeft ∨ node.right ≠ wantRight) .invalidSnapshot
      let left ← readNode nodes wantLeft
      let right ← readNode nodes wantRight
      .failIf (left.size ≠ leftSize) .invalidSnapshot
      .failIf (right.size ≠ rightSize) .invalidSnapshot
      .failIf (node.digest ≠ H.hashBranch left.digest right.digest) .invalidSnapshot
      validateLoop H nodes maxDepth maxNodeReads fuel reads
        (⟨wantLeft, current.start, current.depth + 1⟩ ::
          ⟨wantRight, current.start + snapshotNodeCount leftSize, current.depth + 1⟩ :: stack)

def validateSnapshotStructure (H : Hasher D) (snapshot : Snapshot D)
    (maxDepth maxNodeReads : UInt64) :
    Polled Err Unit := do
  let treeSize := snapshot.root.treeSize
  .failIf (validSnapshotNodeCount treeSize (UInt64.ofNat snapshot.nodes.length) = false)
    .invalidSnapshot
  if treeSize = 0 then do
    .failIf (snapshot.rootNode ≠ noSnapshotNode ∨ snapshot.totalBytes ≠ 0) .invalidSnapshot
    .failIf (snapshot.root.digest.value ≠ H.empty) .invalidSnapshot
  else do
    .failIf (snapshot.rootNode ≠ UInt64.ofNat (snapshot.nodes.length - 1)) .invalidSnapshot
    let rootNode ← readNode snapshot.nodes snapshot.rootNode
    .failIf (rootNode.size ≠ treeSize) .invalidSnapshot
    .failIf (rootNode.digest ≠ snapshot.root.digest.value) .invalidSnapshot
    validateLoop H snapshot.nodes maxDepth maxNodeReads (snapshot.nodes.length + 1) 0
      [⟨snapshot.rootNode, 0, 0⟩]

end Structure

def encodeNode (node : SnapshotNode Bytes32) : Bytes :=
  node.digest.bytes ++ putUint64 node.size ++ putUint64 node.left ++ putUint64 node.right

/- The source ignores the size error; the header copy into the empty result then panics. -/
def Snapshot.marshalBinary (H : Hasher Bytes32) (snapshot : Snapshot Bytes32) :
    Except Err Bytes := do
  snapshot.validate
  match (validateSnapshotStructure H snapshot maxUint64 maxUint64).outcome with
  | .error .outOfRange => .error .outOfRange
  | .error _ => .error .invalidSnapshot
  | .ok () =>
    match encodedVectorSize encodedSnapshotBase (UInt64.ofNat snapshot.nodes.length)
        encodedSnapshotNodeSize with
    | .error _ => .error .outOfRange
    | .ok _ => .ok (encodingHeader encodingObjectSnapshot snapshot.profile ++
        putUint64 snapshot.root.treeSize ++ putUint64 snapshot.totalBytes ++
        snapshot.root.digest.value.bytes ++ putUint64 (UInt64.ofNat snapshot.nodes.length) ++
        putUint64 snapshot.rootNode ++ snapshot.nodes.flatMap encodeNode)

/-- The digest at an offset; reading past the end is a panic. -/
def readDigest (data : Bytes) (offset : Nat) : Polled Err Bytes32 :=
  .get .outOfRange (Bytes32.ofList ((data.drop offset).take 32))

def readUint64 (data : Bytes) (offset : Nat) : Polled Err UInt64 :=
  if offset + 8 ≤ data.length then pure (uint64 ((data.drop offset).take 8)) else .fail .outOfRange

def parseNodes (data : Bytes) : Nat → Nat → Polled Err (List (SnapshotNode Bytes32))
  | 0, _ => pure []
  | count + 1, offset => do
    .poll
    let digest ← readDigest data offset
    let size ← readUint64 data (offset + 32)
    let left ← readUint64 data (offset + 40)
    let right ← readUint64 data (offset + 48)
    let rest ← parseNodes data count (offset + 56)
    pure (⟨digest, size, left, right⟩ :: rest)

/-- Which failures of the structural check reach the caller of the decoder unchanged. -/
def structureError : Err → Err
  | .resource kind limit actual => .resource kind limit actual
  | .context cause => .context cause
  | .outOfRange => .outOfRange
  | _ => .malformedEncoding

def mapError {α : Type} (f : Err → Err) (m : Polled Err α) : Polled Err α :=
  ⟨m.polls, m.outcome.mapError f⟩

def parseSnapshot (H : Hasher Bytes32) (data : Bytes) (limits : SnapshotPersistenceLimits) :
    Polled Err (Snapshot Bytes32) := do
  .lift limits.validate
  .poll
  let dataSize := UInt64.ofNat data.length
  .failIf (dataSize > limits.maxEncodedBytes)
    (.resource .encodedBytes limits.maxEncodedBytes dataSize)
  .failIf (data.length < encodedSnapshotBase) .malformedEncoding
  let profile ← .lift (parseEncodingHeader data encodingObjectSnapshot)
  let treeSize ← readUint64 data 10
  let totalBytes ← readUint64 data 18
  let rootDigest ← readDigest data 26
  let nodeCount ← readUint64 data 58
  let rootNode ← readUint64 data 66
  .failIf (treeSize > limits.maxLeaves) (.resource .leaves limits.maxLeaves treeSize)
  .failIf (totalBytes > limits.maxTotalLeafBytes)
    (.resource .totalBytes limits.maxTotalLeafBytes totalBytes)
  .failIf (nodeCount > limits.maxRetainedNodes)
    (.resource .retainedNodes limits.maxRetainedNodes nodeCount)
  .failIf (nodeCount > limits.maxNodeReads) (.resource .nodeReads limits.maxNodeReads nodeCount)
  let depth := UInt64.ofNat (len64 treeSize)
  .failIf (depth > limits.maxTraversalDepth)
    (.resource .traversalDepth limits.maxTraversalDepth depth)
  let temporaryBytes ← .lift (encodedVectorSize 0 nodeCount encodedSnapshotNodeSize)
  .failIf (UInt64.ofNat temporaryBytes > limits.maxTemporaryBytes)
    (.resource .temporaryBytes limits.maxTemporaryBytes (UInt64.ofNat temporaryBytes))
  let size ← .lift (encodedVectorSize encodedSnapshotBase nodeCount encodedSnapshotNodeSize)
  .failIf (size ≠ data.length) .malformedEncoding
  .failIf (validSnapshotNodeCount treeSize nodeCount = false) .malformedEncoding
  let nodes ← parseNodes data nodeCount.toNat encodedSnapshotBase
  let snapshot : Snapshot Bytes32 :=
    ⟨profile, newRoot profile treeSize rootDigest, nodes, rootNode, totalBytes⟩
  mapError structureError
    (validateSnapshotStructure H snapshot limits.maxTraversalDepth limits.maxNodeReads)
  pure snapshot

section Resume

variable {D : Type} [DecidableEq D]

def resumeMerge (H : Hasher D) (nodes : List (SnapshotNode D)) (left right : UInt64) :
    Polled Err (List (SnapshotNode D) × UInt64) := do
  let branch ← newSnapshotBranch H nodes left right
  pure (nodes ++ [branch], UInt64.ofNat nodes.length)

/-- The leaf nodes of the snapshot in array order, each pushed and carried. -/
def resumeNodes (H : Hasher D) :
    UInt64 → List (SnapshotNode D) → List UInt64 → List (SnapshotNode D) →
      Polled Err (List (SnapshotNode D) × List UInt64)
  | _, nodes, frontier, [] => pure (nodes, frontier)
  | completed, nodes, frontier, node :: rest =>
    if node.size ≠ 1 then resumeNodes H completed nodes frontier rest
    else do
      .poll
      let completed := saturatedAdd completed 1
      let (nodes, frontier) ← carry (resumeMerge H) .outOfRange completed (nodes ++ [node])
        (UInt64.ofNat nodes.length) frontier
      resumeNodes H completed nodes frontier rest

/-- Which failures of the structural check `resumeBuilder` passes on. -/
def resumeError : Err → Err
  | .context cause => .context cause
  | .outOfRange => .outOfRange
  | _ => .invalidSnapshot

def resumeBuilder (H : Hasher D) (snapshot : Snapshot D) (expectedTotalLeafBytes : UInt64)
    (limits : SnapshotLimits) : Polled Err (Builder D) := do
  .lift limits.validate
  .lift snapshot.validate
  .failIf (snapshot.totalBytes ≠ expectedTotalLeafBytes) .snapshotAccountingMismatch
  .failIf (snapshot.root.treeSize > limits.construction.maxLeaves)
    (.resource .leaves limits.construction.maxLeaves snapshot.root.treeSize)
  .failIf (snapshot.totalBytes > limits.construction.maxTotalBytes)
    (.resource .totalBytes limits.construction.maxTotalBytes snapshot.totalBytes)
  let nodeCount := snapshotNodeCount snapshot.root.treeSize
  .failIf (nodeCount > limits.maxRetainedNodes)
    (.resource .retainedNodes limits.maxRetainedNodes nodeCount)
  mapError resumeError
    (validateSnapshotStructure H snapshot defaultMaxProofElements limits.maxRetainedNodes)
  if snapshot.root.treeSize = 0 then
    pure ⟨true, snapshot.profile, limits, [], [], snapshot.root.treeSize, snapshot.totalBytes⟩
  else do
    let (nodes, frontier) ← resumeNodes H 0 [] [] snapshot.nodes
    pure ⟨true, snapshot.profile, limits, nodes, frontier, snapshot.root.treeSize,
      snapshot.totalBytes⟩

end Resume

end Golib.MerkleTree
