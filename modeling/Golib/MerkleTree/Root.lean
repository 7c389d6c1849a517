import Golib.Lib.Forest
import Golib.MerkleTree.Types

/-! Roots over raw leaves, at once and in batches. Slices that the source uses as
stacks are lists with the top first. -/
namespace Golib.MerkleTree

open HashTree (carry pushAll foldStack)

variable {D : Type}

def newRoot (profile : Profile) (treeSize : UInt64) (value : D) : Root D :=
  ⟨profile.id, profile.version, profile.algorithm, treeSize, ⟨profile.algorithm, value⟩⟩

@[simp] theorem newRoot_value (pr : Profile) (treeSize : UInt64) (v : D) :
    (newRoot pr treeSize v).digest.value = v := rfl

def saturatedAdd (left right : UInt64) : UInt64 :=
  if left.toNat + right.toNat < 2 ^ 64 then left + right else 0 - 1

/-- The byte accounting every construction path makes before it hashes. -/
def checkLeafBytes (limits : Limits) : UInt64 → List RawLeaf → Polled Err UInt64
  | totalBytes, [] => pure totalBytes
  | totalBytes, leaf :: rest => do
    .poll
    let leafBytes := UInt64.ofNat leaf.value.length
    .failIf (leafBytes > limits.maxLeafBytes) (.resource .leafBytes limits.maxLeafBytes leafBytes)
    .failIf (leafBytes > limits.maxTotalBytes - totalBytes)
      (.resource .totalBytes limits.maxTotalBytes (saturatedAdd totalBytes leafBytes))
    checkLeafBytes limits (totalBytes + leafBytes) rest

def pushDigest (H : Hasher D) (_ : Unit) (leaf : RawLeaf) : Polled Err (Unit × D) := do
  .poll
  pure ((), H.hashLeaf leaf.value)

def mergeDigests (H : Hasher D) (_ : Unit) (left right : D) : Polled Err (Unit × D) := do
  .poll
  pure ((), H.hashBranch left right)

def foldDigests (H : Hasher D) : List D → Polled Err D
  | [] => .fail .outOfRange
  | top :: rest => do
    let (_, digest) ← foldStack (mergeDigests H) () top rest
    pure digest

def computeRoot (H : Hasher D) (profile : Profile) (leaves : List RawLeaf) (limits : Limits) :
    Polled Err (Root D) := do
  .lift profile.validate
  .lift limits.validate
  .poll
  let treeSize := UInt64.ofNat leaves.length
  .failIf (treeSize > limits.maxLeaves) (.resource .leaves limits.maxLeaves treeSize)
  let _ ← checkLeafBytes limits 0 leaves
  if treeSize = 0 then
    pure (newRoot profile treeSize H.empty)
  else do
    let (_, stack) ← pushAll (pushDigest H) (mergeDigests H) .outOfRange 0 () [] leaves
    let rootDigest ← foldDigests H stack
    pure (newRoot profile treeSize rootDigest)

structure RootBuilder (D : Type) where
  initialized : Bool
  profile : Profile
  limits : Limits
  frontier : List D
  treeSize : UInt64
  totalBytes : UInt64

def newRootBuilder (profile : Profile) (limits : Limits) : Except Err (RootBuilder D) := do
  profile.validate
  limits.validate
  pure ⟨true, profile, limits, [], 0, 0⟩

namespace RootBuilder

def validate (builder : RootBuilder D) : Except Err Unit :=
  if builder.initialized = false ∨ builder.profile.validate.isOk = false ∨
      builder.limits.validate.isOk = false ∨ builder.treeSize > builder.limits.maxLeaves ∨
      builder.totalBytes > builder.limits.maxTotalBytes then
    .error .invalidRootBuilder
  else if builder.treeSize = 0 then
    if builder.frontier.length ≠ 0 then .error .invalidRootBuilder else .ok ()
  else if builder.frontier.length ≠ onesCount64 builder.treeSize then .error .invalidRootBuilder
  else .ok ()

/-- The source assigns the builder only after the last error exit, so a call that fails
leaves it as it was: the builder a call returns is the one to go on with. -/
def appendBatch (H : Hasher D) (builder : RootBuilder D) (leaves : List RawLeaf) :
    Polled Err (RootBuilder D) := do
  .lift builder.validate
  .poll
  let batchSize := UInt64.ofNat leaves.length
  .failIf (batchSize > builder.limits.maxLeaves - builder.treeSize)
    (.resource .leaves builder.limits.maxLeaves (saturatedAdd builder.treeSize batchSize))
  let totalBytes ← checkLeafBytes builder.limits builder.totalBytes leaves
  if batchSize = 0 then
    pure builder
  else do
    let (_, frontier) ← pushAll (pushDigest H) (mergeDigests H) .outOfRange builder.treeSize ()
      builder.frontier leaves
    pure { builder with
      frontier := frontier
      treeSize := builder.treeSize + batchSize
      totalBytes := totalBytes }

def append (H : Hasher D) (builder : RootBuilder D) (leaf : RawLeaf) : Polled Err (RootBuilder D) :=
  builder.appendBatch H [leaf]

def root (H : Hasher D) (builder : RootBuilder D) : Polled Err (Root D) := do
  .lift builder.validate
  .poll
  if builder.treeSize = 0 then
    pure (newRoot builder.profile 0 H.empty)
  else do
    let digest ← foldDigests H builder.frontier
    pure (newRoot builder.profile builder.treeSize digest)

end RootBuilder

end Golib.MerkleTree
