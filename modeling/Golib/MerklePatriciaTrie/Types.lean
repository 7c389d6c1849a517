import Golib.Lib.Programs
import Golib.MerklePatriciaTrie.Rlp

/-! Values of the trie package: roots, nibble paths, limits, errors with their
texts, the context and the work budgets of one operation. -/
namespace Golib.MerklePatriciaTrie

def rootBytes : Nat := 32

abbrev Root := Bytes32

def emptyRoot : Root where
  bytes := [0x56, 0xe8, 0x1f, 0x17, 0x1b, 0xcc, 0x55, 0xa6, 0xff, 0x83, 0x45, 0xe6, 0x92, 0xc0,
    0xf8, 0x6e, 0x5b, 0x48, 0xe0, 0x1b, 0x99, 0x6c, 0xad, 0xc0, 0x01, 0x62, 0x2f, 0xb5, 0xe3,
    0x63, 0xb4, 0x21]
  size := rfl

/- A nibble is a number below sixteen, so the checks of the source for larger ones have
nothing to reject. -/
abbrev Nibble := Fin 16

abbrev Path := List Nibble

def maxCompactPathNibbles : Nat := 8192

def maxCompactPathBytes : Nat := 4097

inductive PathFault where
  | nibbleLimit | emptyEncoding | unsupportedFlag | evenPadding
  deriving DecidableEq, Repr

inductive NodeFault where
  | leafValueEmpty | pathLimit | extensionPathEmpty | extensionChildNull | adjacentCompact
  | fewChildren | valueOnlyBranch | unsupportedNode
  | encodeLeafPath (fault : PathFault)
  | encodeExtensionPath (fault : PathFault)
  | encodeRLP (fault : Rlp.Err)
  | decodeRLP (fault : Rlp.Err)
  | rootNotList
  | unsupportedArity (count : Nat)
  | pathNotString
  | compactPath (fault : PathFault)
  | leafNotString | valueNotString
  | referenceBytes (count : Nat)
  | oversizedEmbedded | embeddedByHash | unresolvedHash | storedNull | compactChild
  | childNotBranch | diverged
  | rootMismatch | pendingHashMismatch | invalidPending | invalidProofSource
  | oddKeyPath
  | secureKeyPath (count : Nat)
  | emptyStreamingFrame | streamingLeafPath | streamingExtensionPath
  deriving DecidableEq, Repr

inductive LimitFault where
  | invalidLimits | encodingNodes | traversal | hashOperations | nodeReads | batchOperations
  | proofNodes | proofBytes | proofTraversal | rangeItems | rangeTraversal
  | builderDepth | builderNodes | builderHashes | streamingEncoding | iteratorResults
  deriving DecidableEq, Repr

inductive ValueFault where
  | byteLimit | emptyPut | invalidExpected | builderValue
  deriving DecidableEq, Repr

inductive ProofFault where
  | surplusForEmpty | surplusNodes | embeddedByHash | hashMismatch | invalidNode | childNotBranch
  | duplicateNode | reorderedNode | invalidProofNode | invalidRangeLeaf
  deriving DecidableEq, Repr

/-- Why the keys or claims of a proof are rejected; `plain` gives no reason. -/
inductive ClaimFault where
  | plain | keyCount | claimCount | secureEndpoints | rangeOrder
  deriving DecidableEq, Repr

/-- Why the options of an iteration are rejected; `plain` is a missing callback. -/
inductive IteratorFault where
  | plain | negativeLimit | startNotBeforeEnd | keyBound
  deriving DecidableEq, Repr

inductive ContextError where
  | canceled | deadlineExceeded
  deriving DecidableEq, Repr

/- `nilDereference` stands for the run-time panic of a nil pointer that the source keeps
when it drops the error of a constructor. It is no error value of the package. -/
inductive Err where
  | uninitialized | invalidContext
  | canceled (cause : ContextError)
  | invalidKey
  | invalidValue (fault : ValueFault)
  | resourceLimit (fault : LimitFault)
  | malformedNode (fault : NodeFault)
  | absentKey
  | invalidStore
  | foreignStore
  | missingNode (hash : Root)
  | hashMismatch (hash : Root)
  | corruptNode (hash : Root) (fault : NodeFault)
  | storageRead (cause : Err)
  | storageCommit (cause : Err)
  | staleRoot | invalidBatch | duplicateBatchKey | wrongRoot | failedProof | incompleteProof
  | malformedProof (fault : ProofFault)
  | invalidEndpoint
  | invalidProofClaim (fault : ClaimFault)
  | duplicateProofKey
  | duplicateBuilderKey | outOfOrderKey | closedBuilder
  | invalidIterator (fault : IteratorFault)
  | nilDereference
  deriving DecidableEq

structure Limits where
  maxKeyBytes : Nat
  maxValueBytes : Nat
  maxTraversalDepth : Nat
  maxTraversalNodes : Nat
  maxEncodingNodes : Nat
  maxHashOperations : Nat
  maxNodeReads : Nat
  maxIteratorResults : Nat
  maxIterationNodes : Nat
  maxRebuildNodes : Nat
  maxBatchOperations : Nat
  maxProofKeys : Nat
  maxProofNodes : Nat
  maxProofBytes : Nat
  maxRecoveryNodes : Nat
  maxRecoveryBytes : Nat
  deriving DecidableEq, Repr

def defaultLimits : Limits where
  maxKeyBytes := 512
  maxValueBytes := 1 <<< 20
  maxTraversalDepth := 2048
  maxTraversalNodes := 8192
  maxEncodingNodes := 1 <<< 20
  maxHashOperations := 1 <<< 20
  maxNodeReads := 4096
  maxIteratorResults := 1 <<< 16
  maxIterationNodes := 1 <<< 20
  maxRebuildNodes := 1 <<< 22
  maxBatchOperations := 4096
  maxProofKeys := 256
  maxProofNodes := 1024
  maxProofBytes := 16 <<< 20
  maxRecoveryNodes := 1024
  maxRecoveryBytes := 16 <<< 20

def rlpMaxValueBytes : Nat := (16 <<< 20) - 16

def validateTrieLimits (limits : Limits) : Except Err Unit :=
  if limits.maxKeyBytes = 0 ∨ limits.maxKeyBytes > maxCompactPathNibbles / 2 ∨
      limits.maxValueBytes = 0 ∨ limits.maxValueBytes > rlpMaxValueBytes ∨
      limits.maxTraversalDepth = 0 ∨ limits.maxTraversalDepth > maxCompactPathNibbles + 1 ∨
      limits.maxTraversalNodes = 0 ∨ limits.maxEncodingNodes = 0 ∨
      limits.maxHashOperations = 0 ∨ limits.maxNodeReads = 0 ∨
      limits.maxIteratorResults = 0 ∨ limits.maxIterationNodes = 0 ∨
      limits.maxRebuildNodes = 0 ∨ limits.maxBatchOperations = 0 ∨
      limits.maxProofKeys = 0 ∨ limits.maxProofNodes = 0 ∨ limits.maxProofBytes = 0 ∨
      limits.maxRecoveryNodes = 0 ∨ limits.maxRecoveryBytes = 0 then
    .error (.resourceLimit .invalidLimits)
  else .ok ()

/-- `none` is the nil context; otherwise the answers of the successive `ctx.Err()` calls. -/
abbrev Context := Option (Nat → Option ContextError)

def Context.background : Context := some (fun _ => none)

/-- What one operation has used up: the looks at its context, its node reads and hash
operations, and the hashes it has resolved. -/
structure Work where
  polls : Nat
  readsLeft : Nat
  hashesLeft : Nat
  resolved : List Root

abbrev Task := Program Work Err

def checkContext (ctx : Context) : Task Unit := fun work =>
  match ctx with
  | none => .error .invalidContext
  | some answers =>
    match answers work.polls with
    | some cause => .error (.canceled cause)
    | none => .ok ((), { work with polls := work.polls + 1 })

/-- One hash operation of the work budget. -/
def hash (keccak : Bytes → Root) (value : Bytes) : Task Root := fun work =>
  if work.hashesLeft = 0 then .error (.resourceLimit .hashOperations)
  else .ok (keccak value, { work with hashesLeft := work.hashesLeft - 1 })

end Golib.MerklePatriciaTrie
