import Golib.MerklePatriciaTrie.Snapshot

/-! Single-key proofs: their generation from a snapshot and their verification
against a root. -/
namespace Golib.MerklePatriciaTrie

open Program

/-- The encoded nodes of a proof, root first. -/
abbrev Proof := List Bytes

section

variable (keccak : Bytes → Root)

/-- A node joins the proof when it is the root or too large to be embedded. -/
def proofAppend (limits : Limits) (rootNode : Bool) (encoded : Bytes) (nodes : Proof)
    (total : Nat) : Task (Proof × Nat) :=
  if rootNode ∨ encoded.length ≥ rootBytes then do
    failIf (nodes.length = limits.maxProofNodes) (.resourceLimit .proofNodes)
    failIf (encoded.length + total > limits.maxProofBytes) (.resourceLimit .proofBytes)
    pure (nodes ++ [encoded], total + encoded.length)
  else pure (nodes, total)

/-- The loop of `proveSnapshot`; the first argument is the number of nodes left. -/
def proveLoop (env : Env) (limits : Limits) :
    Nat → Node → Path → Nat → Bool → Proof → Nat → Task Proof
  | 0, current, _, _, _, nodes, _ => if current.isNil then pure nodes else env.visitNone
  | nodesLeft + 1, current, path, depth, rootNode, nodes, total =>
    if current.isNil then pure nodes
    else do
      env.visit depth
      match current with
      | .hash root => do
        let resolved ←
          if rootNode then env.resolve keccak root else env.resolveChild keccak root
        proveLoop env limits nodesLeft resolved path depth rootNode nodes total
      | current => do
        let (encoded, _) ← encodeNodeBounded keccak env.ctx current limits.maxEncodingNodes
        let (nodes, total) ← proofAppend limits rootNode encoded nodes total
        match current with
        | .extension extensionPath child =>
          if extensionPath <+: path then
            proveLoop env limits nodesLeft child (path.drop extensionPath.length) (depth + 1) false
              nodes total
          else pure nodes
        | .branch children _ =>
          match path with
          | [] => pure nodes
          | i :: rest =>
            proveLoop env limits nodesLeft (children i) rest (depth + 1) false nodes total
        | _ => pure nodes

/-- `proveSnapshot`. -/
def Snapshot.prove (heap : Heap) (ctx : Context) (snapshot : Snapshot) (key : Bytes)
    (secure : Bool) : Task Proof := do
  validateOperation ctx snapshot key [] false
  if snapshot.root.isNil then pure []
  else do
    let path ← keyPath keccak key secure
    proveLoop keccak { snapshot.env heap ctx with recording := false } snapshot.limits
      snapshot.limits.maxTraversalNodes snapshot.root path 0 true [] 0

end

/-! ### Verification -/

def checkProofBytes (maximum : Nat) : Nat → Proof → Except Err Unit
  | _, [] => .ok ()
  | total, encoded :: rest =>
    if encoded.length + total > maximum then .error (.resourceLimit .proofBytes)
    else checkProofBytes maximum (total + encoded.length) rest

def validateProofLimits (proof : Proof) (limits : Limits) : Except Err Unit :=
  if proof.length > limits.maxProofNodes then .error (.resourceLimit .proofNodes)
  else checkProofBytes limits.maxProofBytes 0 proof

/-- `finishProofClaim` with the nodes of the proof that were not consumed. -/
def finishProofClaim (remaining : Proof) (found : Option Bytes) (expected : Option Bytes) :
    Except Err Unit :=
  if remaining.length ≠ 0 then .error (.malformedProof .surplusNodes)
  else if found.isSome ≠ expected.isSome then .error .failedProof
  else if found.isSome ∧ found ≠ expected then .error .failedProof
  else .ok ()

section

variable (keccak : Bytes → Root)

/-- The next node of the proof and the nodes after it. -/
def proofNode (remaining : Proof) (expected : Root) (root : Bool) : Task (Node × Proof) :=
  match remaining with
  | [] => fail .incompleteProof
  | encoded :: rest => do
    failIf (root = false ∧ encoded.length < rootBytes) (.malformedProof .embeddedByHash)
    let actual ← hash keccak encoded
    failIf (actual ≠ expected)
      (if root then .wrongRoot else .malformedProof .hashMismatch)
    match decodeNode encoded with
    | .error _ => fail (.malformedProof .invalidNode)
    | .ok .nil => fail (.malformedProof .invalidNode)
    | .ok decoded => pure (decoded, rest)

/-- The child of an extension on the path of a claim. -/
def proofExtensionChild (child : Node) (remaining : Proof) : Task (Node × Proof) :=
  match child with
  | .hash root => do
    let (child, remaining) ← proofNode keccak remaining root false
    match child with
    | .branch children value => pure (.branch children value, remaining)
    | _ => fail (.malformedProof .childNotBranch)
  | child => pure (child, remaining)

/-- The loop of `verifyClaim`; the first argument is the number of nodes left. -/
def verifyLoop (ctx : Context) (limits : Limits) (expected : Option Bytes) :
    Nat → Node → Path → Nat → Proof → Task Unit
  | 0, _, _, _, _ => do
    checkContext ctx
    fail (.resourceLimit .proofTraversal)
  | nodesLeft + 1, current, path, depth, remaining => do
    checkContext ctx
    failIf (depth > limits.maxTraversalDepth) (.resourceLimit .proofTraversal)
    match current with
    | .nil => verifyLoop ctx limits expected nodesLeft .nil path depth remaining
    | .hash root => do
      let (resolved, remaining) ← proofNode keccak remaining root false
      verifyLoop ctx limits expected nodesLeft resolved path depth remaining
    | .leaf leafPath value =>
      lift (finishProofClaim remaining (if leafPath = path then some value else none) expected)
    | .extension extensionPath child =>
      if extensionPath <+: path then do
        let (child, remaining) ← proofExtensionChild keccak child remaining
        verifyLoop ctx limits expected nodesLeft child (path.drop extensionPath.length) (depth + 1)
          remaining
      else lift (finishProofClaim remaining none expected)
    | .branch children value =>
      match path with
      | [] =>
        lift (finishProofClaim remaining (if value.length ≠ 0 then some value else none)
          expected)
      | i :: rest =>
        if (children i).isNil then lift (finishProofClaim remaining none expected)
        else verifyLoop ctx limits expected nodesLeft (children i) rest (depth + 1) remaining

/-- `verifyClaim`: an expected value of `none` claims absence. -/
def verifyClaim (ctx : Context) (root : Root) (key : Bytes) (expected : Option Bytes)
    (secure : Bool) (proof : Proof) (limits : Limits) : Task Unit := do
  lift (validateTrieLimits limits)
  checkContext ctx
  failIf (key.length > limits.maxKeyBytes) .invalidKey
  failIf (∃ value ∈ expected, value.length = 0 ∨ value.length > limits.maxValueBytes)
    (.invalidValue .invalidExpected)
  lift (validateProofLimits proof limits)
  if root = emptyRoot then
    if proof.length ≠ 0 then fail (.malformedProof .surplusForEmpty)
    else if expected.isSome then fail .failedProof
    else pure ()
  else if proof.length = 0 then fail .incompleteProof
  else do
    let path ← orZero [] (keyPath keccak key secure)
    let (current, remaining) ← proofNode keccak proof root true
    verifyLoop keccak ctx limits expected limits.maxTraversalNodes current path 0 remaining

def verifyRawMembership (ctx : Context) (root : Root) (key expectedValue : Bytes) (proof : Proof)
    (limits : Limits) : Except Err Unit :=
  (verifyClaim keccak ctx root key (some expectedValue) false proof limits limits.work).map Prod.fst

def verifyRawAbsence (ctx : Context) (root : Root) (key : Bytes) (proof : Proof)
    (limits : Limits) : Except Err Unit :=
  (verifyClaim keccak ctx root key none false proof limits limits.work).map Prod.fst

end

end Golib.MerklePatriciaTrie
