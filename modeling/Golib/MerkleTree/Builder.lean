import Golib.MerkleTree.Inclusion

/-! The mutable builder that retains nodes. A failed call leaves the builder as it was,
so a call returns the builder to go on with. -/
namespace Golib.MerkleTree

open HashTree (carry pushAll foldStack)

variable {D : Type}

structure Builder (D : Type) where
  initialized : Bool
  profile : Profile
  limits : SnapshotLimits
  nodes : List (SnapshotNode D)
  frontier : List UInt64
  treeSize : UInt64
  totalBytes : UInt64
  deriving DecidableEq, Repr

def newBuilder (profile : Profile) (limits : SnapshotLimits) : Except Err (Builder D) := do
  profile.validate
  limits.validate
  pure ⟨true, profile, limits, [], [], 0, 0⟩

/-- A node by its index over the nodes the builder had and those a batch has added. -/
def readBuilderNode (existing added : List (SnapshotNode D)) (base index : UInt64) :
    Polled Err (SnapshotNode D) :=
  if index < base then readNode existing index else readNode added (index - base)

def newBuilderBranch (H : Hasher D) (existing added : List (SnapshotNode D))
    (base left right : UInt64) : Polled Err (SnapshotNode D) := do
  let l ← readBuilderNode existing added base left
  let r ← readBuilderNode existing added base right
  pure (joinNodes H left right l r)

def pushBuilderNode (H : Hasher D) (base : UInt64) (added : List (SnapshotNode D))
    (leaf : RawLeaf) : Polled Err (List (SnapshotNode D) × UInt64) := do
  .poll
  pure (added ++ [leafNode H leaf], base + UInt64.ofNat added.length)

def mergeBuilderNodes (H : Hasher D) (existing : List (SnapshotNode D)) (base : UInt64)
    (added : List (SnapshotNode D)) (left right : UInt64) :
    Polled Err (List (SnapshotNode D) × UInt64) := do
  .poll
  let branch ← newBuilderBranch H existing added base left right
  pure (added ++ [branch], base + UInt64.ofNat added.length)

namespace Builder

def validate (builder : Builder D) : Except Err Unit :=
  if builder.initialized = false ∨ builder.profile.validate.isOk = false ∨
      builder.limits.validate.isOk = false ∨
      builder.treeSize > builder.limits.construction.maxLeaves ∨
      builder.totalBytes > builder.limits.construction.maxTotalBytes ∨
      snapshotNodeCount builder.treeSize > builder.limits.maxRetainedNodes then
    .error .invalidBuilder
  else if builder.treeSize = 0 then
    if builder.nodes.length ≠ 0 ∨ builder.frontier.length ≠ 0 then .error .invalidBuilder
    else .ok ()
  else if builder.nodes.length = 0 ∨ builder.frontier.length ≠ onesCount64 builder.treeSize then
    .error .invalidBuilder
  else if builder.frontier.any (fun index => index ≥ UInt64.ofNat builder.nodes.length) then
    .error .invalidBuilder
  else .ok ()

def appendBatch (H : Hasher D) (builder : Builder D) (leaves : List RawLeaf) :
    Polled Err (Builder D) := do
  .lift builder.validate
  .poll
  let batchSize := UInt64.ofNat leaves.length
  let limits := builder.limits.construction
  .failIf (batchSize > limits.maxLeaves - builder.treeSize)
    (.resource .leaves limits.maxLeaves (saturatedAdd builder.treeSize batchSize))
  let totalBytes ← checkLeafBytes limits builder.totalBytes leaves
  let treeSize := builder.treeSize + batchSize
  let nodeCount := snapshotNodeCount treeSize
  .failIf (nodeCount > builder.limits.maxRetainedNodes)
    (.resource .retainedNodes builder.limits.maxRetainedNodes nodeCount)
  if batchSize = 0 then
    pure builder
  else do
    let base := UInt64.ofNat builder.nodes.length
    let (newNodes, frontier) ← pushAll (pushBuilderNode H base)
      (mergeBuilderNodes H builder.nodes base) .outOfRange builder.treeSize
        [] builder.frontier leaves
    pure { builder with
      nodes := builder.nodes ++ newNodes
      frontier := frontier
      treeSize := treeSize
      totalBytes := totalBytes }

def append (H : Hasher D) (builder : Builder D) (leaf : RawLeaf) : Polled Err (Builder D) :=
  builder.appendBatch H [leaf]

def copyNodes : List (SnapshotNode D) → Polled Err (List (SnapshotNode D))
  | [] => pure []
  | node :: rest => do
    .poll
    let copied ← copyNodes rest
    pure (node :: copied)

def snapshot (H : Hasher D) (builder : Builder D) : Polled Err (Snapshot D) := do
  .lift builder.validate
  .poll
  if builder.treeSize = 0 then
    pure ⟨builder.profile, newRoot builder.profile 0 H.empty, [], noSnapshotNode,
      builder.totalBytes⟩
  else do
    let nodes ← copyNodes builder.nodes
    let (nodes, rootNode) ← foldNodes H nodes builder.frontier
    let node ← readNode nodes rootNode
    pure ⟨builder.profile, newRoot builder.profile builder.treeSize node.digest, nodes, rootNode,
      builder.totalBytes⟩

end Builder

end Golib.MerkleTree
