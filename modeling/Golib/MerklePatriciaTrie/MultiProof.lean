import Golib.MerklePatriciaTrie.Proof

/-! Proofs for several keys at once: their nodes are shown once each, in the order in
which the keys first come to them. -/
namespace Golib.MerklePatriciaTrie

open Program

/-! ### Generation -/

def copyAndSortProofKeys (keys : List Bytes) : List Bytes := keys.insertionSort (· ≤ ·)

/-- `multiProofBuilder`, without what it takes from the snapshot. -/
structure MultiProofBuilder where
  pending : NodeMap
  decoded : AList (fun _ : Root => Node)
  seen : List Root
  nodes : Proof
  total : Nat
  root : Node

def newMultiProofBuilder (snapshot : Snapshot) : MultiProofBuilder where
  pending := snapshot.materializePending
  decoded := ∅
  seen := []
  nodes := []
  total := 0
  root := .nil

/-- The environment of the builder's traversal, which notes no resolved hashes. -/
def Snapshot.proofEnv (heap : Heap) (ctx : Context) (snapshot : Snapshot) : Env :=
  { snapshot.env heap ctx with recording := false }

def MultiProofBuilder.appendNode (limits : Limits) (hash : Root) (encoded : Bytes)
    (builder : MultiProofBuilder) : Task MultiProofBuilder :=
  if hash ∈ builder.seen then pure builder
  else do
    failIf (builder.nodes.length = limits.maxProofNodes) (.resourceLimit .proofNodes)
    failIf (encoded.length + builder.total > limits.maxProofBytes)
      (.resourceLimit .proofBytes)
    pure { builder with
      seen := hash :: builder.seen
      total := builder.total + encoded.length
      nodes := builder.nodes ++ [encoded] }

section

variable (keccak : Bytes → Root)

def Env.resolveEncodedChild (env : Env) (root : Root) : Task (Node × Bytes) := do
  let (resolved, encoded) ← env.resolveEncoded keccak root
  failIf (encoded.length < rootBytes) (.corruptNode root .embeddedByHash)
  pure (resolved, encoded)

def MultiProofBuilder.decodePending (hash : Root) (encoded : Bytes) (root : Bool)
    (builder : MultiProofBuilder) : Task (Node × MultiProofBuilder) := do
  let actual ← MerklePatriciaTrie.hash keccak encoded
  failIf (actual ≠ hash) (.malformedNode .pendingHashMismatch)
  failIf (root = false ∧ encoded.length < rootBytes) (.corruptNode hash .embeddedByHash)
  match decodeNode encoded with
  | .error _ => fail (.malformedNode .invalidPending)
  | .ok .nil => fail (.malformedNode .invalidPending)
  | .ok decoded => pure (decoded, { builder with decoded := builder.decoded.insert hash decoded })

def MultiProofBuilder.load (env : Env) (limits : Limits) (hash : Root)
    (builder : MultiProofBuilder) : Task (Node × MultiProofBuilder) :=
  match builder.decoded.lookup hash with
  | some decoded => pure (decoded, builder)
  | none =>
    match builder.pending.lookup hash with
    | some encoded => do
      let (decoded, builder) ← builder.decodePending keccak hash encoded false
      let builder ← builder.appendNode limits hash encoded
      pure (decoded, builder)
    | none => do
      let (decoded, encoded) ← env.resolveEncodedChild keccak hash
      let builder ← { builder with
        decoded := builder.decoded.insert hash decoded }.appendNode limits hash encoded
      pure (decoded, builder)

def MultiProofBuilder.prepareRoot (env : Env) (snapshot : Snapshot) (builder : MultiProofBuilder) :
    Task MultiProofBuilder :=
  if snapshot.root.isNil then pure builder
  else
    match builder.pending.lookup snapshot.hash with
    | some encoded => do
      let (decoded, builder) ← builder.decodePending keccak snapshot.hash encoded true
      { builder with root := decoded }.appendNode snapshot.limits snapshot.hash encoded
    | none =>
      match snapshot.root with
      | .hash _ => do
        let (decoded, encoded) ← env.resolveEncoded keccak snapshot.hash
        { builder with
          decoded := builder.decoded.insert snapshot.hash decoded
          root := decoded }.appendNode snapshot.limits snapshot.hash encoded
      | root => do
        let (encoded, persisted) ←
          encodeNodeBounded keccak env.ctx root snapshot.limits.maxEncodingNodes
        let actual ← MerklePatriciaTrie.hash keccak encoded
        failIf (actual ≠ snapshot.hash) (.malformedNode .rootMismatch)
        { builder with
          pending := mergePersisted builder.pending persisted
          decoded := builder.decoded.insert snapshot.hash root
          root := root }.appendNode snapshot.limits snapshot.hash encoded

/-- The child of an extension on the path of a key. -/
def MultiProofBuilder.extensionChild (env : Env) (limits : Limits) (child : Node)
    (builder : MultiProofBuilder) : Task (Node × MultiProofBuilder) :=
  match child with
  | .hash root => do
    let (child, builder) ← builder.load keccak env limits root
    match child with
    | .branch children value => pure (.branch children value, builder)
    | _ => fail (.corruptNode root .compactChild)
  | child => pure (child, builder)

/-- The child of a branch on the path of a key. -/
def MultiProofBuilder.branchChild (env : Env) (limits : Limits) (child : Node)
    (builder : MultiProofBuilder) : Task (Node × MultiProofBuilder) :=
  match child with
  | .hash root => builder.load keccak env limits root
  | child => pure (child, builder)

/-- The loop of `addPath`, with the number of nodes left before and after. -/
def addPathLoop (env : Env) (limits : Limits) :
    Nat → Node → Path → Nat → MultiProofBuilder → Task (MultiProofBuilder × Nat)
  | 0, current, _, _, builder => if current.isNil then pure (builder, 0) else env.visitNone
  | nodesLeft + 1, current, path, depth, builder =>
    if current.isNil then pure (builder, nodesLeft + 1)
    else do
      env.visit depth
      match current with
      | .leaf _ _ => pure (builder, nodesLeft)
      | .extension extensionPath child =>
        if extensionPath <+: path then do
          let (child, builder) ← builder.extensionChild keccak env limits child
          addPathLoop env limits nodesLeft child (path.drop extensionPath.length)
            (depth + 1) builder
        else pure (builder, nodesLeft)
      | .branch children _ =>
        match path with
        | [] => pure (builder, nodesLeft)
        | i :: rest => do
          let (child, builder) ← builder.branchChild keccak env limits (children i)
          addPathLoop env limits nodesLeft child rest (depth + 1) builder
      | _ => fail (.malformedNode .invalidProofSource)

def addPaths (env : Env) (limits : Limits) (secure : Bool) :
    List Bytes → MultiProofBuilder → Nat → Task MultiProofBuilder
  | [], builder, _ => pure builder
  | key :: rest, builder, nodesLeft => do
    let path ← keyPath keccak key secure
    let (builder, nodesLeft) ← addPathLoop keccak env limits nodesLeft builder.root path 0 builder
    addPaths env limits secure rest builder nodesLeft

end

/-- The checks of `proveManySnapshot` on the sorted keys; `previous` is the key before. -/
def checkProofKeys (limits : Limits) : Option Bytes → List Bytes → Except Err Unit
  | _, [] => .ok ()
  | previous, key :: rest =>
    if key.length > limits.maxKeyBytes then .error .invalidKey
    else if previous = some key then .error .duplicateProofKey
    else checkProofKeys limits (some key) rest

/-- `proveManySnapshot`. -/
def Snapshot.proveMany (keccak : Bytes → Root) (heap : Heap) (ctx : Context) (snapshot : Snapshot)
    (keys : List Bytes) (secure : Bool) : Task Proof := do
  checkContext ctx
  failIf (keys.length = 0 ∨ keys.length > snapshot.limits.maxProofKeys)
    (.invalidProofClaim .keyCount)
  lift (checkProofKeys snapshot.limits none (copyAndSortProofKeys keys))
  let builder ← (newMultiProofBuilder snapshot).prepareRoot keccak (snapshot.proofEnv heap ctx)
    snapshot
  let builder ← addPaths keccak (snapshot.proofEnv heap ctx) snapshot.limits secure
    (copyAndSortProofKeys keys) builder snapshot.limits.maxTraversalNodes
  pure builder.nodes

/-! ### Verification -/

structure ProofClaim where
  key : Bytes
  value : Bytes
  present : Bool
  valid : Bool
  deriving DecidableEq, Repr

def membershipClaim (key value : Bytes) : ProofClaim := ⟨key, value, true, true⟩

def absenceClaim (key : Bytes) : ProofClaim := ⟨key, [], false, true⟩

/- The source sorts unstably; claims of one key are rejected as duplicates in any order. -/
def sortClaims (claims : List ProofClaim) : List ProofClaim :=
  claims.insertionSort (fun left right => left.key ≤ right.key)

structure MultiProofNode where
  decoded : Node
  size : Nat

/-- The part of `multiProofLookup` that stays the same. -/
structure MultiProofLookup where
  nodes : AList (fun _ : Root => MultiProofNode)
  order : List Root

/-- The part of `multiProofLookup` that records which nodes were used. -/
structure Cursor where
  used : List Root
  next : Nat

def Cursor.start : Cursor := ⟨[], 0⟩

def newMultiProofLookup (keccak : Bytes → Root) (ctx : Context) (lookup : MultiProofLookup) :
    Proof → Task MultiProofLookup
  | [] => pure lookup
  | encoded :: rest => do
    checkContext ctx
    let hash ← MerklePatriciaTrie.hash keccak encoded
    failIf (lookup.nodes.lookup hash).isSome (.malformedProof .duplicateNode)
    match decodeNode encoded with
    | .error _ => fail (.malformedProof .invalidNode)
    | .ok .nil => fail (.malformedProof .invalidNode)
    | .ok decoded =>
      newMultiProofLookup keccak ctx
        ⟨lookup.nodes.insert hash ⟨decoded, encoded.length⟩, lookup.order ++ [hash]⟩ rest

def MultiProofLookup.resolve (lookup : MultiProofLookup) (expected : Root) (root : Bool)
    (cursor : Cursor) : Except Err (Node × Cursor) :=
  match lookup.nodes.lookup expected with
  | none => .error (if root then .wrongRoot else .incompleteProof)
  | some stored =>
    if root = false ∧ stored.size < rootBytes then .error (.malformedProof .embeddedByHash)
    else if expected ∈ cursor.used then .ok (stored.decoded, cursor)
    else if lookup.order[cursor.next]? = some expected then
      .ok (stored.decoded, ⟨expected :: cursor.used, cursor.next + 1⟩)
    else .error (if root then .wrongRoot else .malformedProof .reorderedNode)

def finishMultiClaim (present : Bool) (value : Bytes) (claim : ProofClaim) : Except Err Unit :=
  if present ≠ claim.present then .error .failedProof
  else if present ∧ value ≠ claim.value then .error .failedProof
  else .ok ()

def MultiProofLookup.extensionChild (lookup : MultiProofLookup) (child : Node) (cursor : Cursor) :
    Except Err (Node × Cursor) :=
  match child with
  | .hash root => do
    let (child, cursor) ← lookup.resolve root false cursor
    match child with
    | .branch children value => .ok (.branch children value, cursor)
    | _ => .error (.malformedProof .childNotBranch)
  | child => .ok (child, cursor)

def MultiProofLookup.branchChild (lookup : MultiProofLookup) (child : Node) (cursor : Cursor) :
    Except Err (Node × Cursor) :=
  match child with
  | .hash root => lookup.resolve root false cursor
  | child => .ok (child, cursor)

/-- The loop of `verifyMultiClaim`; the first argument is the number of nodes left. -/
def multiClaimLoop (ctx : Context) (limits : Limits) (lookup : MultiProofLookup)
    (claim : ProofClaim) : Nat → Node → Path → Nat → Cursor → Task Cursor
  | 0, _, _, _, _ => do
    checkContext ctx
    fail (.resourceLimit .proofTraversal)
  | nodesLeft + 1, current, path, depth, cursor => do
    checkContext ctx
    failIf (depth > limits.maxTraversalDepth) (.resourceLimit .proofTraversal)
    match current with
    | .leaf leafPath value => do
      lift (finishMultiClaim (leafPath = path) value claim)
      pure cursor
    | .extension extensionPath child =>
      if extensionPath <+: path then do
        let (child, cursor) ← lift (lookup.extensionChild child cursor)
        multiClaimLoop ctx limits lookup claim nodesLeft child (path.drop extensionPath.length)
          (depth + 1) cursor
      else do
        lift (finishMultiClaim false [] claim)
        pure cursor
    | .branch children value =>
      match path with
      | [] => do
        lift (finishMultiClaim (value.length ≠ 0) value claim)
        pure cursor
      | i :: rest =>
        if (children i).isNil then do
          lift (finishMultiClaim false [] claim)
          pure cursor
        else do
          let (child, cursor) ← lift (lookup.branchChild (children i) cursor)
          multiClaimLoop ctx limits lookup claim nodesLeft child rest (depth + 1) cursor
    | _ => fail (.malformedProof .invalidProofNode)

section

variable (keccak : Bytes → Root)

def verifyMultiClaim (ctx : Context) (limits : Limits) (root : Root) (lookup : MultiProofLookup)
    (secure : Bool) (claim : ProofClaim) (cursor : Cursor) : Task Cursor := do
  let (current, cursor) ← lift (lookup.resolve root true cursor)
  let path ← keyPath keccak claim.key secure
  multiClaimLoop ctx limits lookup claim limits.maxTraversalNodes current path 0 cursor

def verifyMultiClaims (ctx : Context) (limits : Limits) (root : Root) (lookup : MultiProofLookup)
    (secure : Bool) : List ProofClaim → Cursor → Task Cursor
  | [], cursor => pure cursor
  | claim :: rest, cursor => do
    let cursor ← verifyMultiClaim keccak ctx limits root lookup secure claim cursor
    verifyMultiClaims ctx limits root lookup secure rest cursor

end

/-- The checks of `verifyMultiProof` on the sorted claims; `previous` is the key before. -/
def checkProofClaims (limits : Limits) : Option Bytes → List ProofClaim → Except Err Unit
  | _, [] => .ok ()
  | previous, claim :: rest =>
    if ¬ claim.valid then .error (.invalidProofClaim .plain)
    else if claim.key.length > limits.maxKeyBytes then .error .invalidKey
    else if claim.present ∧ (claim.value.length = 0 ∨ claim.value.length >
      limits.maxValueBytes) then
      .error (.invalidValue .invalidExpected)
    else if previous = some claim.key then .error .duplicateProofKey
    else checkProofClaims limits (some claim.key) rest

def verifyMultiProof (keccak : Bytes → Root) (ctx : Context) (root : Root)
    (claims : List ProofClaim) (proof : Proof) (limits : Limits) (secure : Bool) : Task Unit := do
  lift (validateTrieLimits limits)
  checkContext ctx
  failIf (claims.length = 0 ∨ claims.length > limits.maxProofKeys)
    (.invalidProofClaim .claimCount)
  lift (validateProofLimits proof limits)
  lift (checkProofClaims limits none (sortClaims claims))
  if root = emptyRoot then
    if proof.length ≠ 0 then fail (.malformedProof .surplusForEmpty)
    else if (sortClaims claims).any ProofClaim.present then fail .failedProof
    else pure ()
  else if proof.length = 0 then fail .incompleteProof
  else do
    let lookup ← newMultiProofLookup keccak ctx ⟨∅, []⟩ proof
    let cursor ← verifyMultiClaims keccak ctx limits root lookup secure (sortClaims claims) .start
    failIf (cursor.next ≠ lookup.order.length) (.malformedProof .surplusNodes)

def verifyRawMultiProof (keccak : Bytes → Root) (ctx : Context) (root : Root)
    (claims : List ProofClaim) (proof : Proof) (limits : Limits) : Except Err Unit :=
  (verifyMultiProof keccak ctx root claims proof limits false limits.work).map Prod.fst

def verifySecureMultiProof (keccak : Bytes → Root) (ctx : Context) (root : Root)
    (claims : List ProofClaim) (proof : Proof) (limits : Limits) : Except Err Unit :=
  (verifyMultiProof keccak ctx root claims proof limits true limits.work).map Prod.fst

end Golib.MerklePatriciaTrie
