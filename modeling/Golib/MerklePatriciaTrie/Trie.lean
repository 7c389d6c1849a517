import Golib.MerklePatriciaTrie.Node

/-! The traversals of a trie whose nodes are partly in memory and partly named by
hash: lookup, insertion and deletion, and the layers of pending nodes that the
hashes are resolved in. -/
namespace Golib.MerklePatriciaTrie

open Program Function

/-! ### Pending layers -/

def maximumPendingLayerDepth : Nat := 32

/-- One layer. A chain of parents is the list of its layers, nearest first, and its
depth is the length of the list. -/
structure PendingLayer where
  added : NodeMap
  removed : List Root

def lookupParents (hash : Root) : List PendingLayer → Option Bytes
  | [] => none
  | layer :: parents =>
    match layer.added.lookup hash with
    | some encoded => some encoded
    | none => if hash ∈ layer.removed then none else lookupParents hash parents

def lookupPending (added : NodeMap) (removed : List Root) (parent : List PendingLayer)
    (hash : Root) : Option Bytes :=
  match added.lookup hash with
  | some encoded => some encoded
  | none => if hash ∈ removed then none else lookupParents hash parent

def deleteAll (target : NodeMap) (removed : List Root) : NodeMap :=
  removed.foldl (fun nodes hash => nodes.erase hash) target

def mergePersistedReferences (target source : NodeMap) : NodeMap := source ∪ target

/-- The layers applied from the oldest to the nearest. -/
def materializePendingLayer : List PendingLayer → NodeMap
  | [] => ∅
  | layer :: parents =>
    mergePersistedReferences (deleteAll (materializePendingLayer parents) layer.removed) layer.added

/-! ### The in-memory store -/

/-- `storeState` of the in-memory store. -/
structure StoreState where
  root : Root
  nodes : NodeMap

def StoreState.new : StoreState := ⟨emptyRoot, ∅⟩

def StoreState.getNode (ctx : Context) (state : StoreState) (hash : Root) : Task Bytes := do
  checkContext ctx
  match state.nodes.lookup hash with
  | none => fail (.missingNode hash)
  | some encoded =>
    checkContext ctx
    pure encoded

/-! ### Traversal -/

/-- What a traversal reads and does not change. `recording` tells whether it notes the
hashes it resolves. -/
structure Env where
  ctx : Context
  maxDepth : Nat
  reader : Option StoreState
  pending : NodeMap
  parent : List PendingLayer
  removed : List Root
  recording : Bool

/-- `traversalState.visit` while nodes are left; each traversal counts those down. -/
def Env.visit (env : Env) (depth : Nat) : Task Unit := do
  checkContext env.ctx
  failIf (depth > env.maxDepth) (.resourceLimit .traversal)

/-- `traversalState.visit` when no nodes are left. -/
def Env.visitNone {α : Type} (env : Env) : Task α := do
  checkContext env.ctx
  fail (.resourceLimit .traversal)

/-- How a failed read of the store is reported. -/
def readFailure (hash : Root) : Err → Err
  | .missingNode _ => .missingNode hash
  | e => .storageRead e

def spendRead : Task Unit := fun work =>
  if work.readsLeft = 0 then .error (.resourceLimit .nodeReads)
  else .ok ((), { work with readsLeft := work.readsLeft - 1 })

def Env.read (env : Env) (hash : Root) : Task Bytes :=
  match env.reader with
  | none => fail (.malformedNode .unresolvedHash)
  | some store => do
    spendRead
    mapError (readFailure hash) (store.getNode env.ctx hash)

/-- The bytes under a hash: pending ones first, then those of the store. -/
def Env.fetch (env : Env) (hash : Root) : Task Bytes :=
  match lookupPending env.pending env.removed env.parent hash with
  | some encoded => pure encoded
  | none => env.read hash

def Env.record (env : Env) (hash : Root) : Task Unit := fun work =>
  .ok ((), if env.recording then { work with resolved := hash :: work.resolved } else work)

section

variable (keccak : Bytes → Root)

def Env.resolveEncoded (env : Env) (root : Root) : Task (Node × Bytes) := do
  let encoded ← env.fetch root
  let actual ← hash keccak encoded
  failIf (actual ≠ root) (.hashMismatch root)
  match decodeNode encoded with
  | .error fault => fail (.corruptNode root fault)
  | .ok .nil => fail (.corruptNode root .storedNull)
  | .ok resolved => do
    env.record root
    pure (resolved, encoded)

def Env.resolve (env : Env) (root : Root) : Task Node := do
  let (resolved, _) ← env.resolveEncoded keccak root
  pure resolved

/-- A child is named by hash only when its encoding is too large to be embedded. -/
def Env.resolveChild (env : Env) (root : Root) : Task Node := do
  let (resolved, encoded) ← env.resolveEncoded keccak root
  failIf (encoded.length < rootBytes) (.corruptNode root .embeddedByHash)
  pure resolved

def Env.resolveAt (env : Env) (depth : Nat) (root : Root) : Task Node :=
  if depth = 0 then env.resolve keccak root else env.resolveChild keccak root

def Env.extensionChild (env : Env) (child : Node) : Task Node :=
  match child with
  | .branch children value => pure (.branch children value)
  | .hash root => do
    let resolved ← env.resolveChild keccak root
    match resolved with
    | .branch children value => pure (.branch children value)
    | _ => fail (.corruptNode root .compactChild)
  | _ => fail (.malformedNode .childNotBranch)

/-- `getNode`; the first argument is the number of nodes left. -/
def getNode (env : Env) : Nat → Node → Path → Nat → Task (Option Bytes)
  | 0, _, _, _ => env.visitNone
  | nodesLeft + 1, current, path, depth => do
    env.visit depth
    match current with
    | .nil => pure none
    | .leaf leafPath value => pure (if leafPath = path then some value else none)
    | .extension extensionPath child =>
      if extensionPath <+: path then do
        let child ← env.extensionChild keccak child
        getNode env nodesLeft child (path.drop extensionPath.length) (depth + 1)
      else pure none
    | .branch children value =>
      match path with
      | [] => pure (if value.length ≠ 0 then some value else none)
      | i :: rest => getNode env nodesLeft (children i) rest (depth + 1)
    | .hash root => do
      let resolved ← env.resolveAt keccak depth root
      getNode env nodesLeft resolved path depth

end

def commonPrefixLength (left right : Path) : Nat := commonLength left right

def makeExtension (path : Path) (child : Node) : Except NodeFault Node :=
  match child with
  | .leaf childPath value => newLeaf (path ++ childPath) value
  | .extension childPath grandchild => newExtension (path ++ childPath) grandchild
  | child => newExtension path child

/-- The source drops the error of this constructor: the pointer it keeps then is nil. -/
def unchecked (r : Except NodeFault Node) : Except Err Node := r.mapError (fun _ => .nilDereference)

/-- A value placed at a remainder below a branching point. -/
def placeValue (children : Nibble → Node) (branchValue : Bytes) (remainder : Path) (value : Bytes) :
    Except NodeFault ((Nibble → Node) × Bytes) :=
  match remainder with
  | [] => .ok (children, value)
  | i :: rest => do
    let leaf ← newLeaf rest value
    .ok (update children i leaf, branchValue)

def insertLeaf (leafPath : Path) (leafValue : Bytes) (path : Path) (value : Bytes) :
    Except Err Node :=
  let common := commonPrefixLength leafPath path
  if common = leafPath.length ∧ common = path.length then
    (newLeaf path value).mapError .malformedNode
  else do
    let (children, branchValue) ←
      (placeValue (fun _ => .nil) [] (leafPath.drop common) leafValue).mapError .malformedNode
    let (children, branchValue) ←
      (placeValue children branchValue (path.drop common) value).mapError .malformedNode
    let branch ← unchecked (newBranch children branchValue)
    if common = 0 then .ok branch
    else (makeExtension (path.take common) branch).mapError .malformedNode

/-- What is left of an extension below the digit at which a key leaves it. -/
def shortenExtension (rest : Path) (child : Node) : Except Err Node :=
  if rest.length = 0 then .ok child else (makeExtension rest child).mapError .malformedNode

/-- The part of `insertExtension` for a key that leaves the extension before its end. -/
def splitExtension (extensionPath : Path) (child : Node) (common : Nat) (path : Path)
    (value : Bytes) : Except Err Node :=
  match extensionPath.drop common with
  | [] => .error .nilDereference
  | i :: rest => do
    let below ← shortenExtension rest child
    let (children, branchValue) ←
      (placeValue (update (fun _ => .nil) i below) [] (path.drop common) value).mapError
        .malformedNode
    let branch ← unchecked (newBranch children branchValue)
    if common = 0 then .ok branch else unchecked (makeExtension (path.take common) branch)

/-- `insertExtension`, given the insertion below the resolved child. -/
def insertExtension (insertChild : Path → Task (Node × Nat)) (nodesLeft : Nat)
    (extensionPath : Path) (child : Node) (path : Path) (value : Bytes) : Task (Node × Nat) :=
  let common := commonPrefixLength extensionPath path
  if common = extensionPath.length then do
    let (child, nodesLeft) ← insertChild (path.drop common)
    let compacted ← lift (unchecked (makeExtension extensionPath child))
    pure (compacted, nodesLeft)
  else do
    let split ← lift (splitExtension extensionPath child common path value)
    pure (split, nodesLeft)

def prependNibble (nibble : Nibble) (child : Node) : Except NodeFault Node :=
  match child with
  | .leaf path value => newLeaf (nibble :: path) value
  | .extension path grandchild => makeExtension (nibble :: path) grandchild
  | child => makeExtension [nibble] child

def compactBranch (children : Nibble → Node) (value : Bytes) : Except NodeFault Node :=
  if value.length ≠ 0 then
    if (occupied Node.isNil children).length = 0 then newLeaf [] value else newBranch children value
  else
    match occupied Node.isNil children with
    | [] => .ok .nil
    | [index] => prependNibble index (children index)
    | _ => newBranch children []

section

variable (keccak : Bytes → Root)

/-- `insertNode`, with the number of nodes left before and after. -/
def insertNode (env : Env) (value : Bytes) : Nat → Node → Path → Nat → Task (Node × Nat)
  | 0, _, _, _ => env.visitNone
  | nodesLeft + 1, current, path, depth => do
    env.visit depth
    match current with
    | .nil => do
      let leaf ← wellFormed (newLeaf path value)
      pure (leaf, nodesLeft)
    | .leaf leafPath leafValue => do
      let inserted ← lift (insertLeaf leafPath leafValue path value)
      pure (inserted, nodesLeft)
    | .extension extensionPath child => do
      let child ← env.extensionChild keccak child
      insertExtension (fun rest => insertNode env value nodesLeft child rest (depth + 1)) nodesLeft
        extensionPath child path value
    | .branch children branchValue =>
      match path with
      | [] => do
        let branch ← wellFormed (newBranch children value)
        pure (branch, nodesLeft)
      | i :: rest => do
        let (child, nodesLeft) ← insertNode env value nodesLeft (children i) rest (depth + 1)
        let branch ← wellFormed (newBranch (update children i child) branchValue)
        pure (branch, nodesLeft)
    | .hash root => do
      let resolved ← env.resolveAt keccak depth root
      insertNode env value nodesLeft resolved path depth

/-- The only child of a branch without a value, resolved when it is named by hash. -/
def Env.resolveCollapsibleBranchChild (env : Env) (children : Nibble → Node) (value : Bytes) :
    Task (Nibble → Node) :=
  if value.length ≠ 0 then pure children
  else
    match occupied Node.isNil children with
    | [only] =>
      match children only with
      | .hash root => do
        let resolved ← env.resolveChild keccak root
        pure (update children only resolved)
      | _ => pure children
    | _ => pure children

def Env.collapse (env : Env) (children : Nibble → Node) (value : Bytes) : Task Node := do
  let children ← env.resolveCollapsibleBranchChild keccak children value
  wellFormed (compactBranch children value)

/-- `deleteNode`: the node without the key, `none` when the key is absent. -/
def deleteNode (env : Env) : Nat → Node → Path → Nat → Task (Option Node × Nat)
  | 0, _, _, _ => env.visitNone
  | nodesLeft + 1, current, path, depth => do
    env.visit depth
    match current with
    | .nil => pure (none, nodesLeft)
    | .leaf leafPath _ => pure (if leafPath = path then some .nil else none, nodesLeft)
    | .extension extensionPath child =>
      if extensionPath <+: path then do
        let child ← env.extensionChild keccak child
        let (deleted, nodesLeft) ←
          deleteNode env nodesLeft child (path.drop extensionPath.length) (depth + 1)
        match deleted with
        | none => pure (none, nodesLeft)
        | some child => do
          let compacted ← lift (unchecked (makeExtension extensionPath child))
          pure (some compacted, nodesLeft)
      else pure (none, nodesLeft)
    | .branch children value =>
      match path with
      | [] =>
        if value.length = 0 then pure (none, nodesLeft)
        else do
          let compacted ← env.collapse keccak children []
          pure (some compacted, nodesLeft)
      | i :: rest => do
        let (deleted, nodesLeft) ← deleteNode env nodesLeft (children i) rest (depth + 1)
        match deleted with
        | none => pure (none, nodesLeft)
        | some child => do
          let compacted ← env.collapse keccak (update children i child) value
          pure (some compacted, nodesLeft)
    | .hash root => do
      let resolved ← env.resolveAt keccak depth root
      deleteNode env nodesLeft resolved path depth

end

end Golib.MerklePatriciaTrie
