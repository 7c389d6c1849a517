import Mathlib.Data.List.Lex
import Golib.MerklePatriciaTrie.Trie

/-! The streaming root builder: keys come in ascending order, and only the branching points
along the last key are held. -/
namespace Golib.MerklePatriciaTrie

open Program

/-- `builderNode`, with the fields of each of its kinds. -/
inductive BuilderNode where
  | leaf (path : Path) (value : Bytes)
  | extension (path : Path) (child : Rlp.Value)
  | branch (node : Rlp.Value)

structure BuilderFrame where
  children : Nibble → Option BuilderNode
  value : Bytes

def BuilderFrame.empty : BuilderFrame := ⟨fun _ => none, []⟩

/-- `sortedBuilderState`. Of the frames, `top` is the last one and `above` are those before it,
the nearest first; the builder always has one. -/
structure SortedBuilder where
  limits : Limits
  top : BuilderFrame
  above : List BuilderFrame
  previousKey : Bytes
  previous : Path
  hasPrevious : Bool
  closed : Bool
  hashesLeft : Nat
  nodesLeft : Nat

def newSortedBuilder (limits : Limits) : Except Err SortedBuilder := do
  validateTrieLimits limits
  .ok {
    limits, top := .empty, above := [], previousKey := [], previous := [], hasPrevious := false
    closed := false, hashesLeft := limits.maxHashOperations, nodesLeft := limits.maxEncodingNodes }

def BuilderNode.valueRLP : BuilderNode → Except Err Rlp.Value
  | leaf path value =>
    match encodeCompactPath path true with
    | .error _ => .error (.malformedNode .streamingLeafPath)
    | .ok compact => .ok (.list [.string compact, .string value])
  | extension path child =>
    match encodeCompactPath path false with
    | .error _ => .error (.malformedNode .streamingExtensionPath)
    | .ok compact => .ok (.list [.string compact, child])
  | branch node => .ok node

def BuilderNode.encoded (current : BuilderNode) : Except Err Bytes := do
  let value ← current.valueRLP
  match Rlp.encodeValue value Rlp.defaultLimits with
  | .error _ => .error (.resourceLimit .streamingEncoding)
  | .ok encoded => .ok encoded

section

variable (keccak : Bytes → Root)

def budgetHash (value : Bytes) : Task Root :=
  mapError (fun _ => .resourceLimit .builderHashes) (hash keccak value)

def BuilderNode.reference (current : BuilderNode) : Task Rlp.Value := do
  let value ← lift current.valueRLP
  let encoded ← lift current.encoded
  if encoded.length < rootBytes then pure value
  else do
    let root ← budgetHash keccak encoded
    pure (.string root.bytes)

def builderElement : Option BuilderNode → Task Rlp.Value
  | none => pure (.string [])
  | some child => child.reference keccak

def builderReferences (ctx : Context) (children : Nibble → Option BuilderNode) :
    List Nibble → Task (List Rlp.Value)
  | [] => pure []
  | index :: rest => do
    checkContext ctx
    let value ← builderElement keccak (children index)
    let values ← builderReferences ctx children rest
    pure (value :: values)

def newBuilderBranch (ctx : Context) (frame : BuilderFrame) : Task BuilderNode := do
  let values ← builderReferences keccak ctx frame.children (List.finRange 16)
  pure (.branch (.list (values ++ [.string frame.value])))

def prependBuilderNibble (ctx : Context) (nibble : Nibble) : BuilderNode → Task BuilderNode
  | .leaf path value => pure (.leaf (nibble :: path) value)
  | .extension path child => pure (.extension (nibble :: path) child)
  | .branch node => do
    checkContext ctx
    let reference ← (BuilderNode.branch node).reference keccak
    pure (.extension [nibble] reference)

def builderFrameNode (ctx : Context) (frame : BuilderFrame) : Task BuilderNode :=
  if frame.value.length ≠ 0 then
    if (occupied Option.isNone frame.children).length = 0 then pure (.leaf [] frame.value)
    else newBuilderBranch keccak ctx frame
  else
    match occupied Option.isNone frame.children with
    | [] => fail (.malformedNode .emptyStreamingFrame)
    | [only] =>
      match frame.children only with
      | none => fail .nilDereference
      | some child => prependBuilderNibble keccak ctx only child
    | _ => newBuilderBranch keccak ctx frame

/-- `finishBuilderFrame`, with the number of nodes left before and after. -/
def finishBuilderFrame (ctx : Context) (frame : BuilderFrame) (nodesLeft : Nat) :
    Task (BuilderNode × Nat) := do
  checkContext ctx
  failIf (nodesLeft = 0) (.resourceLimit .builderNodes)
  let node ← builderFrameNode keccak ctx frame
  pure (node, nodesLeft - 1)

/-- `closeBuilderFrames`: the frames left, the last one apart, and the nodes left. There is one
frame more than the previous path has digits, so that a frame that is closed has a digit. -/
def closeBuilderFrames (ctx : Context) (previous : Path) (keepDepth : Nat) :
    BuilderFrame → List BuilderFrame → Nat → Task ((BuilderFrame × List BuilderFrame) × Nat)
  | top, [], nodesLeft => pure ((top, []), nodesLeft)
  | top, parent :: rest, nodesLeft =>
    if rest.length + 1 > keepDepth then do
      checkContext ctx
      let (child, nodesLeft) ← finishBuilderFrame keccak ctx top nodesLeft
      closeBuilderFrames ctx previous keepDepth
        { parent with
          children := Function.update parent.children (previous.getD rest.length (lowNibble 0))
            (some child) }
        rest nodesLeft
    else pure ((top, parent :: rest), nodesLeft)

def appendFrames : Nat → BuilderFrame → List BuilderFrame → BuilderFrame × List BuilderFrame
  | 0, top, above => (top, above)
  | n + 1, top, above => appendFrames n .empty (top :: above)

/-- `Add`, from the hash operations the builder has left. -/
def SortedBuilder.addStep (ctx : Context) (builder : SortedBuilder) (key value : Bytes) :
    Task SortedBuilder := do
  failIf builder.closed .closedBuilder
  checkContext ctx
  failIf (key.length > builder.limits.maxKeyBytes) .invalidKey
  failIf (value.length = 0 ∨ value.length > builder.limits.maxValueBytes)
    (.invalidValue .builderValue)
  failIf (builder.hasPrevious ∧ key = builder.previousKey) .duplicateBuilderKey
  failIf (builder.hasPrevious ∧ key < builder.previousKey) .outOfOrderKey
  let path := bytesToNibbles key
  failIf (path.length + 1 > builder.limits.maxTraversalDepth) (.resourceLimit .builderDepth)
  let common := if builder.hasPrevious then commonPrefixLength path builder.previous else 0
  let ((top, above), nodesLeft) ← closeBuilderFrames keccak ctx builder.previous common builder.top
    builder.above builder.nodesLeft
  let (top, above) := appendFrames (path.length - above.length) top above
  let work ← get
  pure { builder with
    top := { top with value }, above, previousKey := key, previous := path, hasPrevious := true
    hashesLeft := work.hashesLeft, nodesLeft }

/-- `Finalize`, from the hash operations the builder has left. -/
def SortedBuilder.finalizeStep (ctx : Context) (builder : SortedBuilder) :
    Task (Root × SortedBuilder) := do
  failIf builder.closed .closedBuilder
  checkContext ctx
  if builder.hasPrevious then do
    let ((top, _), nodesLeft) ← closeBuilderFrames keccak ctx builder.previous 0 builder.top
      builder.above builder.nodesLeft
    let (rootNode, nodesLeft) ← finishBuilderFrame keccak ctx top nodesLeft
    let encoded ← lift rootNode.encoded
    let root ← budgetHash keccak encoded
    let work ← get
    pure (root, { builder with closed := true, hashesLeft := work.hashesLeft, nodesLeft })
  else pure (emptyRoot, { builder with closed := true })

def SortedBuilder.work (builder : SortedBuilder) : Work := ⟨0, 0, builder.hashesLeft, []⟩

/-- `Add`: the builder after it, or the error that leaves the builder as it is. -/
def SortedBuilder.add (ctx : Context) (builder : SortedBuilder) (key value : Bytes) :
    Except Err SortedBuilder :=
  (builder.addStep keccak ctx key value builder.work).map Prod.fst

def SortedBuilder.finalize (ctx : Context) (builder : SortedBuilder) :
    Except Err (Root × SortedBuilder) :=
  (builder.finalizeStep keccak ctx builder.work).map Prod.fst

/-! ### Runs -/

structure Addition where
  ctx : Context
  key : Bytes
  value : Bytes

def SortedBuilder.addAll (builder : SortedBuilder) : List Addition → SortedBuilder
  | [] => builder
  | a :: rest =>
    match builder.add keccak a.ctx a.key a.value with
    | .ok next => next.addAll rest
    | .error _ => builder.addAll rest

def SortedBuilder.accepted (builder : SortedBuilder) : List Addition → List Addition
  | [] => []
  | a :: rest =>
    match builder.add keccak a.ctx a.key a.value with
    | .ok next => a :: next.accepted rest
    | .error _ => builder.accepted rest

end

end Golib.MerklePatriciaTrie
