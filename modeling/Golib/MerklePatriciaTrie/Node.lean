import Mathlib.Data.List.AList
import Golib.Lib.Radix
import Golib.MerklePatriciaTrie.Types

/-! Nodes in memory, their hex-prefix paths, and their encoding and decoding. -/
namespace Golib.MerklePatriciaTrie

open Program

/-! ### Compact paths -/

def Nibble.byte (nibble : Nibble) : UInt8 := UInt8.ofNat nibble.val

def highNibble (value : UInt8) : Nibble := Fin.ofNat 16 (value >>> 4).toNat

def lowNibble (value : UInt8) : Nibble := Fin.ofNat 16 (value &&& 0x0f).toNat

def bytesToNibbles : Bytes → Path
  | [] => []
  | current :: rest => highNibble current :: lowNibble current :: bytesToNibbles rest

/-- The bytes of a path, two nibbles a byte. -/
def packNibbles : Path → Bytes
  | high :: low :: rest => (high.byte <<< 4 ||| low.byte) :: packNibbles rest
  | _ => []

def pathFlag (leaf : Bool) : UInt8 := if leaf then 2 else 0

/-- The flag and the nibbles, of which the first of an odd number stands beside the flag. -/
def compactBytes (path : Path) (leaf : Bool) : Bytes :=
  if path.length % 2 = 1 then
    ((pathFlag leaf + 1) <<< 4 ||| (path.headD 0).byte) :: packNibbles path.tail
  else (pathFlag leaf <<< 4) :: packNibbles path

def encodeCompactPath (nibbles : Path) (leaf : Bool) : Except PathFault Bytes :=
  if nibbles.length > maxCompactPathNibbles then .error .nibbleLimit
  else .ok (compactBytes nibbles leaf)

structure CompactPath where
  nibbles : Path
  leaf : Bool
  deriving DecidableEq, Repr

def decodeCompactPath (encoded : Bytes) : Except PathFault CompactPath :=
  match encoded with
  | [] => .error .emptyEncoding
  | first :: rest =>
    if encoded.length > maxCompactPathBytes then .error .nibbleLimit
    else
      let flag := first >>> 4
      if flag > 3 then .error .unsupportedFlag
      else
        let odd := flag &&& 1 = 1
        if ¬ odd ∧ first &&& 0x0f ≠ 0 then .error .evenPadding
        else
          let count := encoded.length * 2 - 2 + if odd then 1 else 0
          if count > maxCompactPathNibbles then .error .nibbleLimit
          else
            .ok {
              nibbles := (if odd then [lowNibble first] else []) ++ bytesToNibbles rest
              leaf := flag &&& 2 = 2 }

/-! ### Nodes -/

inductive Node where
  | nil
  | leaf (path : Path) (value : Bytes)
  | extension (path : Path) (child : Node)
  | branch (children : Nibble → Node) (value : Bytes)
  | hash (root : Root)

def Node.isNil : Node → Bool
  | .nil => true
  | _ => false

def validateNibbles (path : Path) : Except NodeFault Unit :=
  if path.length > maxCompactPathNibbles then .error .pathLimit else .ok ()

def newLeaf (path : Path) (value : Bytes) : Except NodeFault Node :=
  if value.length = 0 then .error .leafValueEmpty
  else do
    validateNibbles path
    .ok (.leaf path value)

def newExtension (path : Path) (child : Node) : Except NodeFault Node :=
  if path.length = 0 then .error .extensionPathEmpty
  else do
    validateNibbles path
    match child with
    | .nil => .error .extensionChildNull
    | .leaf _ _ => .error .adjacentCompact
    | .extension _ _ => .error .adjacentCompact
    | child => .ok (.extension path child)

def newBranch (children : Nibble → Node) (value : Bytes) : Except NodeFault Node :=
  let childCount := (occupied Node.isNil children).length
  if value.length = 0 ∧ childCount < 2 then .error .fewChildren
  else if value.length ≠ 0 ∧ childCount = 0 then .error .valueOnlyBranch
  else .ok (.branch children value)

/-- A result whose faults are reported as `ErrMalformedNode`. -/
def wellFormed {α : Type} (r : Except NodeFault α) : Task α := lift (r.mapError .malformedNode)

/-! ### Encoding -/

/-- `map[Root][]byte`. -/
abbrev NodeMap := AList (fun _ : Root => Bytes)

structure NodeEncoding where
  value : Rlp.Value
  bytes : Bytes
  persisted : NodeMap

def mergePersisted (target source : NodeMap) : NodeMap := source ∪ target

def encodeRLPValue (value : Rlp.Value) (persisted : NodeMap) : Except NodeFault NodeEncoding :=
  match Rlp.encodeValue value Rlp.defaultLimits with
  | .ok encoded => .ok ⟨value, encoded, persisted⟩
  | .error fault => .error (.encodeRLP fault)

/-- `encodingState.visit`: one of the nodes that may still be encoded. -/
def visitEncoding (ctx : Context) (nodesLeft : Nat) : Task Nat := do
  checkContext ctx
  failIf (nodesLeft = 0) (.resourceLimit .encodingNodes)
  pure (nodesLeft - 1)

section

variable (keccak : Bytes → Root)

def childReference (child : NodeEncoding) : Task (Rlp.Value × NodeMap) :=
  if child.bytes.length < rootBytes then pure (child.value, child.persisted)
  else do
    let root ← hash keccak child.bytes
    pure (.string root.bytes, child.persisted.insert root child.bytes)

/-- The children of a branch in order, with the nodes their encoding persists. -/
def encodeChildren (reference : Nibble → Nat → Task ((Rlp.Value × NodeMap) × Nat)) :
    List Nibble → Nat → Task ((List Rlp.Value × NodeMap) × Nat)
  | [], nodesLeft => pure (([], ∅), nodesLeft)
  | i :: rest, nodesLeft => do
    let ((value, persisted), nodesLeft) ← reference i nodesLeft
    let ((values, others), nodesLeft) ← encodeChildren reference rest nodesLeft
    pure ((value :: values, mergePersisted persisted others), nodesLeft)

/-- The reference a parent holds to a child, given the encoding of a child that is no hash. -/
def encodeChildReference (encode : Nat → Task (NodeEncoding × Nat)) (current : Node)
    (nodesLeft : Nat) : Task ((Rlp.Value × NodeMap) × Nat) :=
  match current with
  | .hash root => pure ((.string root.bytes, ∅), nodesLeft)
  | _ => do
    let (child, nodesLeft) ← encode nodesLeft
    let reference ← childReference keccak child
    pure (reference, nodesLeft)

/-- The encoding of a node, and how many nodes may still be encoded. -/
def encodeNodeValue (ctx : Context) : Node → Nat → Task (NodeEncoding × Nat)
  | .nil, nodesLeft => do
    let nodesLeft ← visitEncoding ctx nodesLeft
    let encoding ← wellFormed (encodeRLPValue (.string []) ∅)
    pure (encoding, nodesLeft)
  | .leaf path value, nodesLeft => do
    let nodesLeft ← visitEncoding ctx nodesLeft
    match encodeCompactPath path true with
    | .error fault => fail (.malformedNode (.encodeLeafPath fault))
    | .ok compact =>
      let encoding ← wellFormed (encodeRLPValue (.list [.string compact, .string value]) ∅)
      pure (encoding, nodesLeft)
  | .extension path child, nodesLeft => do
    let nodesLeft ← visitEncoding ctx nodesLeft
    let ((reference, persisted), nodesLeft) ←
      encodeChildReference keccak (encodeNodeValue ctx child) child nodesLeft
    match encodeCompactPath path false with
    | .error fault => fail (.malformedNode (.encodeExtensionPath fault))
    | .ok compact =>
      let encoding ← wellFormed (encodeRLPValue (.list [.string compact, reference]) persisted)
      pure (encoding, nodesLeft)
  | .branch children value, nodesLeft => do
    let nodesLeft ← visitEncoding ctx nodesLeft
    let ((values, persisted), nodesLeft) ← encodeChildren
      (fun i left =>
        if (children i).isNil then pure ((.string [], ∅), left)
        else encodeChildReference keccak (encodeNodeValue ctx (children i)) (children i) left)
      (List.finRange 16) nodesLeft
    let encoding ← wellFormed (encodeRLPValue (.list (values ++ [.string value])) persisted)
    pure (encoding, nodesLeft)
  | .hash _, nodesLeft => do
    let _ ← visitEncoding ctx nodesLeft
    fail (.malformedNode .unsupportedNode)
termination_by structural current => current

def encodeNodeBounded (ctx : Context) (current : Node) (maximumNodes : Nat) :
    Task (Bytes × NodeMap) := do
  let (encoded, _) ← encodeNodeValue keccak ctx current maximumNodes
  pure (encoded.bytes, encoded.persisted)

def encodeNode (current : Node) : Except Err (Bytes × NodeMap) :=
  (encodeNodeBounded keccak Context.background current Rlp.maximumInt
    ⟨0, 0, Rlp.maximumInt, []⟩).map Prod.fst

end

/-! ### Decoding -/

/-- A reference to a child by hash, or no child. -/
def decodeHashReference (reference : Bytes) : Except NodeFault Node :=
  if reference.length = 0 then .ok .nil
  else
    match Bytes32.ofList reference with
    | some root => .ok (.hash root)
    | none => .error (.referenceBytes reference.length)

/-- Whether an embedded child is too large to be one. -/
def oversized (value : Rlp.Value) : Bool :=
  match Rlp.encodeValue value Rlp.defaultLimits with
  | .ok encoded => encoded.length ≥ rootBytes
  | .error _ => false

def decodeLeaf (path : Path) : Rlp.Value → Except NodeFault Node
  | .string value => newLeaf path value
  | .list _ => .error .leafNotString

def decodeBranchValue (children : List Node) : Rlp.Value → Except NodeFault Node
  | .string value => newBranch (fun i => children.getD i.val .nil) value
  | .list _ => .error .valueNotString

mutual

/-- The two shapes of a node: a compact path with a value or a child, or sixteen
children and a value. -/
def decodeElements : List Rlp.Value → Except NodeFault Node
  | [] => .error (.unsupportedArity 0)
  | [.list _, _] => .error .pathNotString
  | [.string encoded, second] =>
    match decodeCompactPath encoded with
    | .error fault => .error (.compactPath fault)
    | .ok compact =>
      if compact.leaf then decodeLeaf compact.nibbles second
      else do
        let child ← decodeChildReference second
        newExtension compact.nibbles child
  | first :: rest =>
    if rest.length = 16 then do
      let child ← decodeChildReference first
      let children ← decodeChildren rest
      decodeBranchValue (child :: children) (rest.getLastD first)
    else .error (.unsupportedArity (rest.length + 1))
termination_by structural elements => elements

/-- Every element but the last as a child. -/
def decodeChildren : List Rlp.Value → Except NodeFault (List Node)
  | [] => .ok []
  | [_] => .ok []
  | first :: second :: rest => do
    let child ← decodeChildReference first
    let children ← decodeChildren (second :: rest)
    .ok (child :: children)
termination_by structural elements => elements

def decodeChildReference : Rlp.Value → Except NodeFault Node
  | .string reference => decodeHashReference reference
  | .list elements =>
    if oversized (.list elements) then .error .oversizedEmbedded
    else decodeElements elements
termination_by structural value => value

end

def decodeNodeValue : Rlp.Value → Except NodeFault Node
  | .string bytes => if bytes.length = 0 then .ok .nil else .error .rootNotList
  | .list elements => decodeElements elements

def decodeNode (encoded : Bytes) : Except NodeFault Node :=
  match Rlp.decodeValue encoded Rlp.defaultLimits with
  | .error fault => .error (.decodeRLP fault)
  | .ok value => decodeNodeValue value

end Golib.MerklePatriciaTrie
