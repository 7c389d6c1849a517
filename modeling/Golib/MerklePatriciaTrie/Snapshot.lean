import Mathlib.Data.List.Sort
import Golib.MerklePatriciaTrie.Trie

/-! Immutable snapshots: reading, updating, deleting, batches, loading from a store
and committing to one. -/
namespace Golib.MerklePatriciaTrie

open Program

/-- A pointer to an in-memory store. -/
abbrev StoreRef := Nat

/-- The stores behind the pointers. A store that was never written is empty. -/
abbrev Heap := StoreRef → StoreState

def Heap.new : Heap := fun _ => StoreState.new

structure Snapshot where
  root : Node
  readRoot : Node
  hash : Root
  limits : Limits
  base : Root
  reader : Option StoreRef
  pending : NodeMap
  parent : List PendingLayer
  removed : List Root
  materialized : Bool
  recovered : NodeMap
  recoveryNodes : Nat
  recoveryBytes : Nat

/-- `NewRawTrie` and `NewSecureTrie`. -/
def newTrie (limits : Limits) : Except Err Snapshot := do
  validateTrieLimits limits
  .ok {
    root := .nil, readRoot := .nil, hash := emptyRoot, limits, base := emptyRoot, reader := none
    pending := ∅, parent := [], removed := [], materialized := true
    recovered := ∅, recoveryNodes := 0, recoveryBytes := 0 }

def loadSnapshot (root : Root) (reader : Option StoreRef) (limits : Limits) :
    Except Err Snapshot := do
  validateTrieLimits limits
  if reader.isNone then .error .invalidStore
  else .ok {
    root := if root ≠ emptyRoot then .hash root else .nil, readRoot := .nil
    hash := root, limits, base := root, reader
    pending := ∅, parent := [], removed := [], materialized := false
    recovered := ∅, recoveryNodes := 0, recoveryBytes := 0 }

/-! ### Pending layers of a snapshot -/

def Snapshot.pendingLayer (snapshot : Snapshot) : List PendingLayer :=
  if snapshot.pending.entries.length = 0 ∧ snapshot.removed.length = 0 then snapshot.parent
  else ⟨snapshot.pending, snapshot.removed⟩ :: snapshot.parent

def Snapshot.lookupPending (snapshot : Snapshot) (hash : Root) : Option Bytes :=
  MerklePatriciaTrie.lookupPending snapshot.pending snapshot.removed snapshot.parent hash

def nextPendingLayer (previous : Option Snapshot) (resolved : List Root) :
    List PendingLayer × List Root :=
  match previous with
  | none => ([], [])
  | some previous => (previous.pendingLayer, previous.hash :: resolved)

def Snapshot.materializePending (snapshot : Snapshot) : NodeMap :=
  mergePersistedReferences
    (deleteAll (materializePendingLayer snapshot.parent) snapshot.removed) snapshot.pending

/-! ### Operations -/

def Limits.work (limits : Limits) : Work := ⟨0, limits.maxNodeReads, limits.maxHashOperations, []⟩

def Snapshot.env (heap : Heap) (ctx : Context) (snapshot : Snapshot) : Env where
  ctx := ctx
  maxDepth := snapshot.limits.maxTraversalDepth
  reader := snapshot.reader.map heap
  pending := snapshot.pending
  parent := snapshot.parent
  removed := snapshot.removed
  recording := true

/-- The traversal of a tree that is in memory as a whole. -/
def Snapshot.readEnv (ctx : Context) (snapshot : Snapshot) (recording : Bool) : Env where
  ctx := ctx
  maxDepth := snapshot.limits.maxTraversalDepth
  reader := none
  pending := ∅
  parent := []
  removed := []
  recording := recording

def validateOperation (ctx : Context) (snapshot : Snapshot) (key value : Bytes)
    (checkValue : Bool) : Task Unit := do
  checkContext ctx
  failIf (key.length > snapshot.limits.maxKeyBytes) .invalidKey
  failIf (checkValue ∧ value.length > snapshot.limits.maxValueBytes)
    (.invalidValue .byteLimit)

/-- The source drops the error of this step and goes on with the zero value. -/
def orZero {α : Type} (zero : α) (m : Task α) : Task α := fun work =>
  match m work with
  | .ok r => .ok r
  | .error _ => .ok (zero, work)

/-- `inheritRecovery` for one recovered node. -/
def inheritNode (next : Snapshot) (node : Sigma fun _ : Root => Bytes) : Snapshot :=
  if (next.lookupPending node.1).isSome then
    { next with
      pending := next.pending.insert node.1 node.2
      recovered := next.recovered.insert node.1 node.2
      recoveryNodes := next.recoveryNodes + 1
      recoveryBytes := next.recoveryBytes + node.2.length }
  else next

def inheritRecovery (next previous : Snapshot) : Snapshot :=
  if next.root.isNil ∨ previous.recovered.entries.length = 0 then next
  else previous.recovered.entries.foldl inheritNode next

section

variable (keccak : Bytes → Root)

def keyPath (key : Bytes) (secure : Bool) : Task Path :=
  if secure then do
    let root ← hash keccak key
    pure (bytesToNibbles root.bytes)
  else pure (bytesToNibbles key)

/-- `getSnapshot`. -/
def Snapshot.get (heap : Heap) (ctx : Context) (snapshot : Snapshot) (key : Bytes)
    (secure : Bool) : Task Bytes := do
  validateOperation ctx snapshot key [] false
  let path ← orZero [] (keyPath keccak key secure)
  let found ←
    if snapshot.materialized then
      getNode keccak (snapshot.readEnv ctx true) snapshot.limits.maxTraversalNodes
        snapshot.readRoot path 0
    else
      getNode keccak (snapshot.env heap ctx) snapshot.limits.maxTraversalNodes snapshot.root path 0
  match found with
  | none => fail .absentKey
  | some value => pure value

/-- The pending nodes of the next snapshot, flattened when their layers get too deep. -/
def stackLayers (added : NodeMap) (parent : List PendingLayer) (removed : List Root) :
    NodeMap × List PendingLayer × List Root :=
  if parent.length ≥ maximumPendingLayerDepth then
    (mergePersistedReferences (deleteAll (materializePendingLayer parent) removed) added, [], [])
  else (added, parent, removed)

def finishSnapshotWithPending (ctx : Context) (root readRoot : Node) (limits : Limits)
    (base : Root) (reader : Option StoreRef) (previous : Option Snapshot) (resolved : List Root)
    (materialized : Bool) : Task Snapshot := do
  checkContext ctx
  if root.isNil then
    pure {
      root := .nil, readRoot := .nil, hash := emptyRoot, limits, base, reader
      pending := ∅, parent := [], removed := [], materialized
      recovered := ∅, recoveryNodes := 0, recoveryBytes := 0 }
  else do
    let (encoded, pending) ← encodeNodeBounded keccak ctx root limits.maxEncodingNodes
    checkContext ctx
    let hash ← MerklePatriciaTrie.hash keccak encoded
    let frozen ← wellFormed (decodeNode encoded)
    let (parent, removed) := nextPendingLayer previous resolved
    let (pending, parent, removed) := stackLayers (pending.insert hash encoded) parent removed
    pure {
      root := frozen, readRoot, hash, limits, base, reader, pending, parent, removed, materialized
      recovered := ∅, recoveryNodes := 0, recoveryBytes := 0 }

def finishMutatedSnapshot (ctx : Context) (root readRoot : Node) (previous : Snapshot) :
    Task Snapshot := do
  let work ← get
  let finished ← finishSnapshotWithPending keccak ctx root readRoot previous.limits previous.base
    previous.reader (some previous) work.resolved previous.materialized
  pure (inheritRecovery finished previous)

/-- `insertReadRoot`; the value is `none` when the key is deleted. -/
def insertReadRoot (ctx : Context) (snapshot : Snapshot) (nodesLeft : Nat) (root : Node)
    (path : Path) (value : Option Bytes) : Task Node :=
  match value with
  | some value => do
    let (next, _) ← insertNode keccak (snapshot.readEnv ctx false) value nodesLeft root path 0
    pure next
  | none => do
    let (deleted, _) ← deleteNode keccak (snapshot.readEnv ctx false) nodesLeft root path 0
    match deleted with
    | none => fail (.malformedNode .diverged)
    | some next => pure next

/-- One mutation of the lazily hashed tree and, where there is one, of the tree in
memory, with the nodes left. A value of `none` deletes the key. -/
def mutate (heap : Heap) (ctx : Context) (snapshot : Snapshot) (path : Path)
    (value : Option Bytes) (root readRoot : Node) (nodesLeft : Nat) :
    Task (Node × Node × Nat) := do
  let (root, nodesLeft) ← match value with
    | some value => insertNode keccak (snapshot.env heap ctx) value nodesLeft root path 0
    | none => do
      let (deleted, nodesLeft) ← deleteNode keccak (snapshot.env heap ctx) nodesLeft root path 0
      match deleted with
      | none => fail .absentKey
      | some root => pure (root, nodesLeft)
  let readRoot ←
    if snapshot.materialized then insertReadRoot keccak ctx snapshot nodesLeft readRoot path value
    else pure readRoot
  pure (root, readRoot, nodesLeft)

/-- The common part of `updateSnapshot` and `deleteSnapshot`. -/
def mutateSnapshot (heap : Heap) (ctx : Context) (snapshot : Snapshot) (key : Bytes)
    (value : Option Bytes) (secure : Bool) : Task Snapshot := do
  let path ← orZero [] (keyPath keccak key secure)
  let readRoot := if snapshot.materialized then snapshot.readRoot else .nil
  let (root, readRoot, _) ← mutate keccak heap ctx snapshot path value snapshot.root readRoot
    snapshot.limits.maxTraversalNodes
  finishMutatedSnapshot keccak ctx root readRoot snapshot

/-- `deleteSnapshot`. -/
def Snapshot.delete (heap : Heap) (ctx : Context) (snapshot : Snapshot) (key : Bytes)
    (secure : Bool) : Task Snapshot := do
  validateOperation ctx snapshot key [] false
  mutateSnapshot keccak heap ctx snapshot key none secure

/-- `updateSnapshot`: an empty value deletes the key. -/
def Snapshot.update (heap : Heap) (ctx : Context) (snapshot : Snapshot) (key value : Bytes)
    (secure : Bool) : Task Snapshot := do
  validateOperation ctx snapshot key value true
  if value.length = 0 then Snapshot.delete keccak heap ctx snapshot key secure
  else mutateSnapshot keccak heap ctx snapshot key (some value) secure

end

/-! ### Batches -/

/-- A batch operation. `unknown` is a mutation built without `Put` or `Remove`. -/
inductive Mutation where
  | put (key value : Bytes)
  | remove (key : Bytes)
  | unknown (key : Bytes)
  deriving DecidableEq, Repr

def Mutation.key : Mutation → Bytes
  | put key _ => key
  | remove key => key
  | unknown key => key

/-- What the mutation stores under its key; `none` deletes it. -/
def Mutation.value : Mutation → Option Bytes
  | put _ value => some value
  | remove _ => none
  | unknown _ => none

def validateMutation (ctx : Context) (snapshot : Snapshot) : Mutation → Task Unit
  | .put key value => do
    failIf (value.length = 0) (.invalidValue .emptyPut)
    validateOperation ctx snapshot key value true
  | .remove key => validateOperation ctx snapshot key [] false
  | .unknown _ => fail .invalidBatch

def validateMutations (ctx : Context) (snapshot : Snapshot) (seen : List Bytes) :
    List Mutation → Task Unit
  | [] => pure ()
  | mutation :: rest => do
    validateMutation ctx snapshot mutation
    failIf (mutation.key ∈ seen) .duplicateBatchKey
    validateMutations ctx snapshot (mutation.key :: seen) rest

section

variable (keccak : Bytes → Root)

def applyMutations (heap : Heap) (ctx : Context) (snapshot : Snapshot) (secure : Bool) :
    List Mutation → Node → Node → Nat → Task (Node × Node)
  | [], root, readRoot, _ => pure (root, readRoot)
  | mutation :: rest, root, readRoot, nodesLeft => do
    let path ← keyPath keccak mutation.key secure
    let (root, readRoot, nodesLeft) ←
      mutate keccak heap ctx snapshot path mutation.value root readRoot nodesLeft
    applyMutations heap ctx snapshot secure rest root readRoot nodesLeft

/-- `applyBatch`. -/
def Snapshot.applyBatch (heap : Heap) (ctx : Context) (snapshot : Snapshot)
    (mutations : List Mutation) (secure : Bool) : Task Snapshot := do
  checkContext ctx
  failIf (mutations.length > snapshot.limits.maxBatchOperations)
    (.resourceLimit .batchOperations)
  if mutations.length = 0 then pure snapshot
  else do
    validateMutations ctx snapshot [] mutations
    let (root, readRoot) ← applyMutations keccak heap ctx snapshot secure mutations snapshot.root
      snapshot.readRoot snapshot.limits.maxTraversalNodes
    finishMutatedSnapshot keccak ctx root readRoot snapshot

end

/-! ### Commits -/

structure StoreCommit where
  previous : Root
  root : Root
  nodes : List (Root × Bytes)

/-- The nodes in ascending order of their hashes. -/
def newStoreCommit (previous root : Root) (pending : NodeMap) : StoreCommit where
  previous := previous
  root := root
  nodes := (pending.keys.insertionSort (fun a b => a.bytes ≤ b.bytes)).map
    fun hash => (hash, (pending.lookup hash).getD [])

def pollEach {α : Type} (ctx : Context) : List α → Task Unit
  | [] => pure ()
  | _ :: rest => do
    checkContext ctx
    pollEach ctx rest

/-- `CommitTrie` of the in-memory store, with no other writer between its two locks. -/
def StoreState.commitTrie (ctx : Context) (state : StoreState) (commit : StoreCommit) :
    Task StoreState := do
  checkContext ctx
  pollEach ctx commit.nodes
  let validated : NodeMap := commit.nodes.foldl (fun nodes node => nodes.insert node.1 node.2) ∅
  failIf (state.root ≠ commit.previous) .staleRoot
  pollEach ctx state.nodes.entries
  checkContext ctx
  checkContext ctx
  pure ⟨commit.root, mergePersistedReferences state.nodes validated⟩

/-- What `commitSnapshot` hands to the store. -/
def Snapshot.commitRequest (snapshot : Snapshot) : StoreCommit :=
  newStoreCommit snapshot.base snapshot.hash snapshot.materializePending

/-- `commitSnapshot`: the stores and the snapshot afterwards. -/
def Snapshot.commit (heap : Heap) (ctx : Context) (snapshot : Snapshot)
    (store : Option StoreRef) : Task (Heap × Snapshot) := do
  checkContext ctx
  match store with
  | none => fail .invalidStore
  | some store =>
    failIf (snapshot.reader.isSome ∧ snapshot.reader ≠ some store) .foreignStore
    if snapshot.reader.isSome ∧ snapshot.hash = snapshot.base ∧
        snapshot.recovered.entries.length = 0 then
      pure (heap, snapshot)
    else do
      let state ←
        mapError .storageCommit ((heap store).commitTrie ctx snapshot.commitRequest)
      pure (Function.update heap store state, {
        root := snapshot.root, readRoot := snapshot.readRoot, hash := snapshot.hash
        base := snapshot.hash, limits := snapshot.limits, reader := some store
        pending := ∅, parent := [], removed := [], materialized := snapshot.materialized
        recovered := ∅, recoveryNodes := 0, recoveryBytes := 0 })

end Golib.MerklePatriciaTrie
