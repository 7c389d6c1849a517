import Mathlib.Data.List.Lex
import Golib.MerklePatriciaTrie.MultiProof

/-! Proofs for an interval of keys: all its entries, and the nodes that show that there
are no others. -/
namespace Golib.MerklePatriciaTrie

open Program

structure RangeItem where
  key : Bytes
  value : Bytes
  valid : Bool
  deriving DecidableEq, Repr

def newRangeItem (key value : Bytes) : RangeItem := ⟨key, value, true⟩

/-- `rangeBounds`; an empty `stop` bounds nothing. -/
structure RangeBounds where
  start : Bytes
  stop : Bytes
  startPath : Path
  stopPath : Path
  secure : Bool

def newRangeBounds (start stop : Bytes) (limits : Limits) (secure : Bool) :
    Except Err RangeBounds :=
  let maximum := if secure then rootBytes else limits.maxKeyBytes
  if secure ∧ ((start.length ≠ 0 ∧ start.length ≠ rootBytes) ∨
      (stop.length ≠ 0 ∧ stop.length ≠ rootBytes)) then
    .error (.invalidProofClaim .secureEndpoints)
  else if start.length > maximum ∨ stop.length > maximum then .error .invalidEndpoint
  else if stop.length ≠ 0 ∧ stop ≤ start then .error (.invalidProofClaim .rangeOrder)
  else .ok ⟨start, stop, bytesToNibbles start, bytesToNibbles stop, secure⟩

/-- `nibblePrefixSuccessor` on the reversed digits: the last digit that is not fifteen is
raised and those after it go. -/
def raiseLast : List Nibble → Option (List Nibble)
  | [] => none
  | last :: rest =>
    if last.val ≠ 15 then some (lowNibble (last.byte + 1) :: rest) else raiseLast rest

/-- The first path after all those that begin with this one. -/
def nibblePrefixSuccessor (path : Path) : Option Path := (raiseLast path.reverse).map List.reverse

def rangeSubtreeIntersects (front : Path) (bounds : RangeBounds) : Bool :=
  if bounds.stopPath.length ≠ 0 ∧ bounds.stopPath ≤ front then false
  else
    match nibblePrefixSuccessor front with
    | none => true
    | some upper => bounds.startPath < upper

def rangePathMatches (path : Path) (bounds : RangeBounds) : Bool :=
  bounds.startPath ≤ path ∧ (bounds.stopPath.length = 0 ∨ path < bounds.stopPath)

def rangeBytesMatch (key : Bytes) (bounds : RangeBounds) : Bool :=
  bounds.start ≤ key ∧ (bounds.stop.length = 0 ∨ key < bounds.stop)

def rangePathKey (path : Path) (secure : Bool) : Except NodeFault Bytes :=
  if path.length % 2 ≠ 0 then .error .oddKeyPath
  else
    let key := packNibbles path
    if secure ∧ key.length ≠ rootBytes then .error (.secureKeyPath key.length)
    else .ok key

/-! ### The walk -/

/-- What the generation and the verification of a range proof do differently on the walk
that they share. -/
structure RangeWalker (σ : Type) where
  visit : Nat → σ → Task σ
  load : Root → σ → Task (Node × σ)
  emit : Path → Bytes → σ → Task σ
  childNotBranch : Err

section

variable {σ : Type} (walker : RangeWalker σ)

def RangeWalker.extensionChild (child : Node) (state : σ) : Task (Node × σ) :=
  match child with
  | .hash root => do
    let (child, state) ← walker.load root state
    match child with
    | .branch children value => pure (.branch children value, state)
    | _ => fail walker.childNotBranch
  | child => pure (child, state)

def RangeWalker.branchChild (child : Node) (state : σ) : Task (Node × σ) :=
  match child with
  | .hash root => walker.load root state
  | child => pure (child, state)

/-- The children of a branch in order, each walked where it meets the range. -/
def RangeWalker.walkChildren (bounds : RangeBounds) (walk : Node → Path → σ → Task σ)
    (children : Nibble → Node) (front : Path) : List Nibble → σ → Task σ
  | [], state => pure state
  | i :: rest, state =>
    if (children i).isNil then walkChildren bounds walk children front rest state
    else if ¬ rangeSubtreeIntersects (front ++ [i]) bounds then
      walkChildren bounds walk children front rest state
    else do
      let (child, state) ← walker.branchChild (children i) state
      let state ← walk child (front ++ [i]) state
      walkChildren bounds walk children front rest state

/-- `walk`. The first argument is never below the number of nodes that may still be
visited, so a visit with none left has failed before it is used up. -/
def rangeWalk (bounds : RangeBounds) : Nat → Node → Path → Nat → σ → Task σ
  | 0, _, front, depth, state =>
    if rangeSubtreeIntersects front bounds then walker.visit depth state else pure state
  | fuel + 1, current, front, depth, state =>
    if ¬ rangeSubtreeIntersects front bounds then pure state
    else do
      let state ← walker.visit depth state
      match current with
      | .nil => pure state
      | .hash root => do
        let (resolved, state) ← walker.load root state
        rangeWalk bounds fuel resolved front depth state
      | .leaf path value => walker.emit (front ++ path) value state
      | .extension path child =>
        if ¬ rangeSubtreeIntersects (front ++ path) bounds then pure state
        else do
          let (child, state) ← walker.extensionChild child state
          rangeWalk bounds fuel child (front ++ path) (depth + 1) state
      | .branch children value => do
        let state ← if value.length ≠ 0 then walker.emit front value state else pure state
        walker.walkChildren bounds
          (fun child front state => rangeWalk bounds fuel child front (depth + 1) state)
          children front (List.finRange 16) state

end

/-! ### Generation -/

/-- `rangeGenerationState`, with the number of nodes left. -/
structure RangeGeneration where
  builder : MultiProofBuilder
  items : List RangeItem
  nodesLeft : Nat

def RangeGeneration.emit (limits : Limits) (bounds : RangeBounds) (path : Path) (value : Bytes)
    (state : RangeGeneration) : Task RangeGeneration :=
  if ¬ rangePathMatches path bounds then pure state
  else do
    failIf (state.items.length = limits.maxProofKeys) (.resourceLimit .rangeItems)
    let key ← wellFormed (rangePathKey path bounds.secure)
    pure { state with items := state.items ++ [newRangeItem key value] }

def rangeGenerator (keccak : Bytes → Root) (env : Env) (limits : Limits) (bounds : RangeBounds) :
    RangeWalker RangeGeneration where
  visit depth state :=
    if state.nodesLeft = 0 then env.visitNone
    else do
      env.visit depth
      pure { state with nodesLeft := state.nodesLeft - 1 }
  load root state := do
    let (resolved, builder) ← state.builder.load keccak env limits root
    pure (resolved, { state with builder })
  emit := RangeGeneration.emit limits bounds
  childNotBranch := .malformedNode .childNotBranch

/-- `proveRangeSnapshot`. -/
def Snapshot.proveRange (keccak : Bytes → Root) (heap : Heap) (ctx : Context) (snapshot : Snapshot)
    (start stop : Bytes) (secure : Bool) : Task (Proof × List RangeItem) := do
  checkContext ctx
  let bounds ← lift (newRangeBounds start stop snapshot.limits secure)
  if snapshot.root.isNil then pure ([], [])
  else do
    let builder ← (newMultiProofBuilder snapshot).prepareRoot keccak (snapshot.proofEnv heap ctx)
      snapshot
    let state ← rangeWalk
      (rangeGenerator keccak (snapshot.proofEnv heap ctx) snapshot.limits bounds) bounds
      snapshot.limits.maxTraversalNodes builder.root [] 0
      ⟨builder, [], snapshot.limits.maxTraversalNodes⟩
    pure (state.builder.nodes, state.items)

/-! ### Verification -/

/-- The loop of `validateRangeItems`; `previous` is the key of the item before. -/
def checkRangeItems (bounds : RangeBounds) (limits : Limits) :
    Option Bytes → List RangeItem → Except Err Unit
  | _, [] => .ok ()
  | previous, item :: rest =>
    if ¬ item.valid ∨ item.value.length = 0 then .error (.invalidProofClaim .plain)
    else if bounds.secure ∧ item.key.length ≠ rootBytes then .error (.invalidProofClaim .plain)
    else if item.key.length > (if bounds.secure then rootBytes else limits.maxKeyBytes) then
      .error .invalidKey
    else if item.value.length > limits.maxValueBytes then .error (.invalidValue .byteLimit)
    else if ¬ rangeBytesMatch item.key bounds then .error (.invalidProofClaim .plain)
    else if ∃ key ∈ previous, item.key ≤ key then .error (.invalidProofClaim .plain)
    else checkRangeItems bounds limits (some item.key) rest

def validateRangeItems (items : List RangeItem) (bounds : RangeBounds) (limits : Limits) :
    Except Err Unit :=
  if items.length > limits.maxProofKeys then .error (.resourceLimit .rangeItems)
  else checkRangeItems bounds limits none items

/-- `rangeVerificationState`: what was used of the proof, the items that were not met yet,
and the number of nodes left. -/
structure RangeVerification where
  cursor : Cursor
  items : List RangeItem
  nodesLeft : Nat

def RangeVerification.emit (bounds : RangeBounds) (path : Path) (value : Bytes)
    (state : RangeVerification) : Except Err RangeVerification :=
  if ¬ rangePathMatches path bounds then .ok state
  else
    match state.items with
    | [] => .error .failedProof
    | item :: rest =>
      match rangePathKey path bounds.secure with
      | .error _ => .error (.malformedProof .invalidRangeLeaf)
      | .ok key =>
        if key ≠ item.key ∨ value ≠ item.value then .error .failedProof
        else .ok { state with items := rest }

def rangeVerifier (ctx : Context) (limits : Limits) (lookup : MultiProofLookup)
    (bounds : RangeBounds) : RangeWalker RangeVerification where
  visit depth state := do
    checkContext ctx
    failIf (depth > limits.maxTraversalDepth ∨ state.nodesLeft = 0)
      (.resourceLimit .rangeTraversal)
    pure { state with nodesLeft := state.nodesLeft - 1 }
  load root state := do
    let (resolved, cursor) ← lift (lookup.resolve root false state.cursor)
    pure (resolved, { state with cursor })
  emit path value state := lift (RangeVerification.emit bounds path value state)
  childNotBranch := .malformedProof .childNotBranch

def verifyRange (keccak : Bytes → Root) (ctx : Context) (root : Root) (start stop : Bytes)
    (items : List RangeItem) (proof : Proof) (limits : Limits) (secure : Bool) : Task Unit := do
  lift (validateTrieLimits limits)
  checkContext ctx
  let bounds ← lift (newRangeBounds start stop limits secure)
  lift (validateRangeItems items bounds limits)
  lift (validateProofLimits proof limits)
  if root = emptyRoot then
    if proof.length ≠ 0 then fail (.malformedProof .surplusForEmpty)
    else if items.length ≠ 0 then fail .failedProof
    else pure ()
  else if proof.length = 0 then fail .incompleteProof
  else do
    let lookup ← newMultiProofLookup keccak ctx ⟨∅, []⟩ proof
    let (current, cursor) ← lift (lookup.resolve root true .start)
    let state ← rangeWalk (rangeVerifier ctx limits lookup bounds) bounds limits.maxTraversalNodes
      current [] 0 ⟨cursor, items, limits.maxTraversalNodes⟩
    failIf (state.items.length ≠ 0) .failedProof
    failIf (state.cursor.next ≠ lookup.order.length) (.malformedProof .surplusNodes)

def verifyRawRange (keccak : Bytes → Root) (ctx : Context) (root : Root) (start stop : Bytes)
    (items : List RangeItem) (proof : Proof) (limits : Limits) : Except Err Unit :=
  (verifyRange keccak ctx root start stop items proof limits false limits.work).map Prod.fst

end Golib.MerklePatriciaTrie
