import Golib.Lib.Bytes

/-! The canonical Recursive Length Prefix codec of the trie nodes, with the limits
it enforces. Every `int` that holds a length or a count is a `Nat`. -/
namespace Golib.MerklePatriciaTrie

abbrev Bytes := List UInt8

namespace Rlp

inductive Malformed where
  | emptyInput | trailingBytes | truncatedItem | truncatedPayload | truncatedLength
  deriving DecidableEq, Repr

inductive NonCanonical where
  | overlongByte | longString | longList | leadingZero
  deriving DecidableEq, Repr

inductive Limit where
  | invalidLimits | maximumDepth | maximumItems | maximumEncodedBytes | lengthOverflow
  deriving DecidableEq, Repr

inductive Err where
  | malformed (fault : Malformed)
  | nonCanonical (fault : NonCanonical)
  | limit (fault : Limit)
  deriving DecidableEq, Repr

structure Limits where
  maxEncodedBytes : Nat
  maxDepth : Nat
  maxItems : Nat
  deriving DecidableEq, Repr

def defaultLimits : Limits := ⟨16 <<< 20, 1024, 1 <<< 20⟩

def validateLimits (limits : Limits) : Except Err Unit :=
  if limits.maxEncodedBytes = 0 ∨ limits.maxItems = 0 then
    .error (.limit .invalidLimits) else .ok ()

inductive Value where
  | string (bytes : Bytes)
  | list (elements : List Value)

/-- The bytes of a length, most significant first, in a storage of `size` bytes. -/
def lengthBytes : Nat → Nat → Bytes
  | 0, _ => []
  | size + 1, length =>
    if length > 0 then lengthBytes size (length / 256) ++ [UInt8.ofNat length] else []

def encodeLength (length : Nat) : Bytes := lengthBytes 8 length

def prefixPayload (shortBase longBase : UInt8) (payload : Bytes) (maximum : Nat) :
    Except Err Bytes :=
  if payload.length ≤ 55 then
    if payload.length + 1 > maximum then .error (.limit .maximumEncodedBytes)
    else .ok ((shortBase + UInt8.ofNat payload.length) :: payload)
  else
    let length := encodeLength payload.length
    if payload.length + (1 + length.length) > maximum then .error (.limit .maximumEncodedBytes)
    else .ok ((longBase + UInt8.ofNat length.length) :: (length ++ payload))

def appendListPayload (payload encoded : Bytes) (maximum : Nat) : Except Err Bytes :=
  if encoded.length + payload.length + 1 > maximum then .error (.limit .maximumEncodedBytes)
  else .ok (payload ++ encoded)

mutual

/-- The encoding of a value and the number of items seen so far. -/
def encode (limits : Limits) : Value → Nat → Nat → Except Err (Bytes × Nat)
  | .string bytes, depth, items =>
    if depth > limits.maxDepth then .error (.limit .maximumDepth)
    else if items ≥ limits.maxItems then .error (.limit .maximumItems)
    else if bytes.length = 1 ∧ bytes.headD 0 < 0x80 then .ok (bytes, items + 1)
    else do
      let encoded ← prefixPayload 0x80 0xb7 bytes limits.maxEncodedBytes
      .ok (encoded, items + 1)
  | .list elements, depth, items =>
    if depth > limits.maxDepth then .error (.limit .maximumDepth)
    else if items ≥ limits.maxItems then .error (.limit .maximumItems)
    else do
      let (payload, items) ← encodeElements limits elements (depth + 1) (items + 1) []
      let encoded ← prefixPayload 0xc0 0xf7 payload limits.maxEncodedBytes
      .ok (encoded, items)

def encodeElements (limits : Limits) : List Value → Nat → Nat → Bytes → Except Err (Bytes × Nat)
  | [], _, items, payload => .ok (payload, items)
  | child :: rest, depth, items, payload => do
    let (encoded, items) ← encode limits child depth items
    let payload ← appendListPayload payload encoded limits.maxEncodedBytes
    encodeElements limits rest depth items payload

end

/-- `Encode`. -/
def encodeValue (value : Value) (limits : Limits) : Except Err Bytes := do
  validateLimits limits
  let (encoded, _) ← encode limits value 0 0
  .ok encoded

def stringPayload (encoded : Bytes) (offset length : Nat) : Except Err Bytes :=
  if offset + length > encoded.length then .error (.malformed .truncatedPayload)
  else .ok ((encoded.drop offset).take length)

def maximumInt : Nat := 2 ^ 63 - 1

def accumulateLength : Bytes → Nat → Except Err Nat
  | [], length => .ok length
  | current :: rest, length =>
    if length > (maximumInt - current.toNat) / 256 then .error (.limit .lengthOverflow)
    else accumulateLength rest (length * 256 + current.toNat)

/-- The length a long form announces, and the offset of its payload. -/
def longPayloadLength (encoded : Bytes) (lengthBytes : Nat) : Except Err (Nat × Nat) :=
  let offset := 1 + lengthBytes
  if lengthBytes = 0 ∨ offset > encoded.length then .error (.malformed .truncatedLength)
  else if encoded.getD 1 0 = 0 then .error (.nonCanonical .leadingZero)
  else do
    let length ← accumulateLength ((encoded.drop 1).take lengthBytes) 0
    .ok (length, offset)

/-- The elements of a list payload. Every element takes at least a byte, so the
length of the payload bounds the loop. -/
def decodeElements (element : Bytes → Nat → Except Err (Value × Nat × Nat)) :
    Nat → Bytes → Nat → Except Err (List Value × Nat)
  | _, [], items => .ok ([], items)
  | 0, _ :: _, _ => .error (.malformed .truncatedItem)
  | fuel + 1, first :: payload, items => do
    let (value, consumed, items) ← element (first :: payload) items
    let (values, items) ← decodeElements element fuel ((first :: payload).drop consumed) items
    .ok (value :: values, items)

def decodeList (element : Bytes → Nat → Except Err (Value × Nat × Nat))
    (encoded : Bytes) (offset length items : Nat) : Except Err (Value × Nat × Nat) := do
  let payload ← stringPayload encoded offset length
  let (values, items) ← decodeElements element payload.length payload items
  .ok (.list values, offset + length, items)

/-- The first value of the input, the bytes it takes and the items seen so far.
`levels` is the number of nesting levels that `MaxDepth` still allows. -/
def decode (limits : Limits) : Nat → Bytes → Nat → Except Err (Value × Nat × Nat)
  | 0, _, _ => .error (.limit .maximumDepth)
  | levels + 1, encoded, items =>
    if items ≥ limits.maxItems then .error (.limit .maximumItems)
    else
      match encoded with
      | [] => .error (.malformed .truncatedItem)
      | first :: _ =>
        if first ≤ 0x7f then .ok (.string (encoded.take 1), 1, items + 1)
        else if first ≤ 0xb7 then do
          let length := first.toNat - 128
          let value ← stringPayload encoded 1 length
          if length = 1 ∧ value.headD 0 < 0x80 then .error (.nonCanonical .overlongByte)
          else .ok (.string value, 1 + length, items + 1)
        else if first ≤ 0xbf then do
          let (length, offset) ← longPayloadLength encoded (first - 0xb7).toNat
          if length < 56 then .error (.nonCanonical .longString)
          else do
            let value ← stringPayload encoded offset length
            .ok (.string value, offset + length, items + 1)
        else if first ≤ 0xf7 then
          decodeList (decode limits levels) encoded 1 (first - 0xc0).toNat (items + 1)
        else do
          let (length, offset) ← longPayloadLength encoded (first - 0xf7).toNat
          if length < 56 then .error (.nonCanonical .longList)
          else decodeList (decode limits levels) encoded offset length (items + 1)

/-- `Decode`. -/
def decodeValue (encoded : Bytes) (limits : Limits) : Except Err Value := do
  validateLimits limits
  if encoded.length = 0 then .error (.malformed .emptyInput)
  else if encoded.length > limits.maxEncodedBytes then .error (.limit .maximumEncodedBytes)
  else do
    let (value, consumed, _) ← decode limits (limits.maxDepth + 1) encoded 0
    if consumed ≠ encoded.length then .error (.malformed .trailingBytes) else .ok value

end Rlp

end Golib.MerklePatriciaTrie
