import Golib.MerklePatriciaTrie.Node
import Golib.MerklePatriciaTrie.RlpCanonical

/-! The canonical encoding of a radix trie of nibbles, and that decoding it gives
the trie back with its large subtries named by hash. -/
namespace Golib.MerklePatriciaTrie

open List

/-- A stored value: empty values mean deletion and are never stored. -/
abbrev Content := { bytes : Bytes // bytes ≠ [] }

abbrev Tree := Radix 16 Content

def contentBytes : Option Content → Bytes
  | none => []
  | some value => value.val

theorem contentBytes_injective {a b : Option Content}
    (eq : contentBytes a = contentBytes b) : a = b := by
  cases a with
  | none =>
    cases b with
    | none => rfl
    | some b => exact absurd eq.symm b.property
  | some a =>
    cases b with
    | none => exact absurd eq a.property
    | some b => exact congrArg some (Subtype.ext eq)

/-! ### Compact paths -/

variable {p : Path}

theorem encodeCompactPath_eq (short : p.length ≤ maxCompactPathNibbles) (leaf : Bool) :
    encodeCompactPath p leaf = .ok (compactBytes p leaf) := by
  rw [encodeCompactPath, if_neg (by omega)]

theorem nibbles_of_byte (high low : Nibble) :
    highNibble (high.byte <<< 4 ||| low.byte) = high ∧
      lowNibble (high.byte <<< 4 ||| low.byte) = low := by
  revert high low
  decide

theorem bytesToNibbles_pack (p : Path) (even : p.length % 2 = 0) :
    bytesToNibbles (packNibbles p) = p ∧ (packNibbles p).length = p.length / 2 := by
  induction p using packNibbles.induct with
  | case1 high low rest ih =>
    obtain ⟨eq, length⟩ := ih (by simp at even; omega)
    obtain ⟨first, second⟩ := nibbles_of_byte high low
    refine ⟨?_, ?_⟩
    · rw [packNibbles, bytesToNibbles, first, second, eq]
    · simp only [packNibbles, length_cons, length]
      omega
  | case2 p short =>
    cases p with
    | nil => exact ⟨rfl, rfl⟩
    | cons a p =>
      cases p with
      | nil => simp at even
      | cons b p => exact absurd rfl (short a b p)

theorem flag_even (leaf : Bool) : let first := pathFlag leaf <<< 4
    ¬ first >>> 4 > 3 ∧ ¬ (first >>> 4) &&& 1 = 1 ∧ first &&& 0x0f = 0 ∧
      ((first >>> 4) &&& 2 = 2 ↔ leaf = true) := by
  cases leaf <;> decide

theorem flag_odd (leaf : Bool) (nibble : Nibble) :
    let first := (pathFlag leaf + 1) <<< 4 ||| nibble.byte
    ¬ first >>> 4 > 3 ∧ (first >>> 4) &&& 1 = 1 ∧ lowNibble first = nibble ∧
      ((first >>> 4) &&& 2 = 2 ↔ leaf = true) := by
  revert nibble
  cases leaf <;> decide

theorem decodeCompactPath_eq (short : p.length ≤ maxCompactPathNibbles) (leaf : Bool) :
    decodeCompactPath (compactBytes p leaf) = .ok ⟨p, leaf⟩ := by
  unfold maxCompactPathNibbles at short
  unfold compactBytes
  split
  · rename_i odd
    cases p with
    | nil => simp at odd
    | cons nibble rest =>
      simp only [length_cons] at odd short
      obtain ⟨unpacked, length⟩ := bytesToNibbles_pack rest (by omega)
      obtain ⟨known, flagged, low, terminal⟩ := flag_odd leaf nibble
      simp only [headD_cons, tail_cons, decodeCompactPath, length_cons, length]
      rw [if_neg, if_neg known, if_neg, if_neg]
      · simp only [flagged, if_true, low, terminal, Bool.decide_eq_true, unpacked, singleton_append]
      · simp only [flagged, if_true, maxCompactPathNibbles]
        omega
      · simp [flagged]
      · unfold maxCompactPathBytes
        omega
  · rename_i even
    obtain ⟨unpacked, length⟩ := bytesToNibbles_pack p (by omega)
    obtain ⟨known, flagged, padding, terminal⟩ := flag_even leaf
    simp only [decodeCompactPath, length_cons, length]
    rw [if_neg, if_neg known, if_neg, if_neg]
    · simp only [flagged, if_false, terminal, Bool.decide_eq_true, unpacked, nil_append]
    · simp only [flagged, if_false, maxCompactPathNibbles]
      omega
    · simp [padding]
    · unfold maxCompactPathBytes
      omega

theorem byte_of_nibbles (b : UInt8) : (highNibble b).byte <<< 4 ||| (lowNibble b).byte = b := by
  revert b
  refine forall_byte ?_
  decide +kernel

theorem pack_bytesToNibbles (bs : Bytes) : packNibbles (bytesToNibbles bs) = bs := by
  induction bs with
  | nil => rfl
  | cons b bs ih => rw [bytesToNibbles, packNibbles, ih, byte_of_nibbles]

theorem bytesToNibbles_injective {a b : Bytes}
    (eq : bytesToNibbles a = bytesToNibbles b) : a = b := by
  rw [← pack_bytesToNibbles a, eq, pack_bytesToNibbles]

theorem length_bytesToNibbles (bs : Bytes) : (bytesToNibbles bs).length = 2 * bs.length := by
  induction bs with
  | nil => rfl
  | cons b bs ih =>
    simp only [bytesToNibbles, length_cons, ih]
    omega

/-! ### Constructors -/

theorem newLeaf_eq (short : p.length ≤ maxCompactPathNibbles) (v : Content) :
    newLeaf p v.val = .ok (.leaf p v.val) := by
  have some : v.val.length ≠ 0 := fun none => v.property (eq_nil_of_length_eq_zero none)
  unfold newLeaf validateNibbles
  rw [if_neg some, if_neg (by omega)]
  rfl

/-- A node that may stand below an extension. -/
def Node.Opens : Node → Prop
  | .branch _ _ => True
  | .hash _ => True
  | _ => False

theorem newExtension_eq {p : List Nibble} {c : Node}
    (some : p ≠ []) (short : p.length ≤ maxCompactPathNibbles)
    (opens : c.Opens) : newExtension p c = .ok (.extension p c) := by
  unfold newExtension validateNibbles
  rw [if_neg (fun none => some (eq_nil_of_length_eq_zero none)), if_neg (by omega)]
  cases c with
  | branch | hash => rfl
  | nil | leaf | extension => exact absurd opens id

variable {v : Option Content}

theorem length_contentBytes : (contentBytes v).length = 0 ↔ v = none := by
  cases v with
  | none => simp [contentBytes]
  | some v => simp [contentBytes, v.property]

theorem newBranch_eq {kids : Nibble → Node} {tries : Nibble → Tree}
    (eq : ∀ i, (kids i).isNil = (tries i).isNil) (forks : Radix.Forks tries v) :
    newBranch kids (contentBytes v) = .ok (.branch kids (contentBytes v)) := by
  have counted := forks.count
  rw [← occupied_congr eq] at counted
  unfold newBranch
  rw [if_neg, if_neg]
  · omega
  · rintro ⟨unset, few⟩
    have := counted.2 (length_contentBytes.mp unset)
    omega

/-! ### The encoding of a trie -/

section

variable (keccak : Bytes → Root) {t : Tree}

/-- What a parent holds of a child: its value when that is small, its hash otherwise. -/
def reference (value : Rlp.Value) : Rlp.Value :=
  if value.bytes.length < rootBytes then value else .string (keccak value.bytes).bytes

def treeValue : Tree → Rlp.Value
  | .nil => .string []
  | .leaf path value => .list [.string (compactBytes path true), .string value.val]
  | .ext path child => .list [.string (compactBytes path false), reference keccak (treeValue child)]
  | .branch children value =>
    .list ((finRange 16).map (fun i => reference keccak (treeValue (children i))) ++
      [.string (contentBytes value)])

/-- The encoding of a trie, with its large subtries named by hash. -/
def treeBytes (t : Tree) : Bytes := (treeValue keccak t).bytes

def link (encoded : Bytes) (node : Node) : Node :=
  if encoded.length < rootBytes then node else .hash (keccak encoded)

/-- The node that a trie is decoded to. -/
def freeze : Tree → Node
  | .nil => .nil
  | .leaf path value => .leaf path value.val
  | .ext path child => .extension path (link keccak (treeBytes keccak child) (freeze child))
  | .branch children value =>
    .branch (fun i => link keccak (treeBytes keccak (children i)) (freeze (children i)))
      (contentBytes value)

variable {H : Bytes → Root} {f : Nibble → Rlp.Value} {g : Nibble → Node}

@[simp] theorem treeBytes_nil : treeBytes H .nil = [0x80] := by
  rw [treeBytes, treeValue]
  decide

theorem isNil_link (t : Tree) : (link H (treeBytes H t) (freeze H t)).isNil = t.isNil := by
  cases t with
  | nil =>
    rfl
  | leaf | ext | branch =>
    unfold link
    split <;> rfl

theorem not_oversized {v : Rlp.Value} (small : v.bytes.length < rootBytes) :
    oversized v = false := by
  unfold oversized
  split
  · rename_i enc made
    rw [(Rlp.encodeValue_ok made).1]
    simpa using small
  · rfl

theorem decodeHashReference_root (r : Root) : decodeHashReference r.bytes = .ok (.hash r) := by
  unfold decodeHashReference
  rw [if_neg (by rw [r.size]; decide), Bytes32.ofList_bytes]

theorem decodeChildReference_eq
    (below : t ≠ .nil → decodeNodeValue (treeValue H t) = .ok (freeze H t)) :
    decodeChildReference (reference H (treeValue H t)) =
      .ok (link H (treeBytes H t) (freeze H t)) := by
  unfold reference link
  by_cases small : (treeBytes H t).length < rootBytes
  · rw [if_pos small]
    rw [treeBytes] at small
    rw [if_pos small]
    have list : ∀ es, treeValue H t = .list es → t ≠ .nil →
        decodeChildReference (treeValue H t) = .ok (freeze H t) := by
      intro es shape some
      rw [← below some]
      rw [shape] at small ⊢
      rw [decodeChildReference, not_oversized small]
      rfl
    cases t with
    | nil => rfl
    | leaf | ext | branch => exact list _ rfl (by simp)
  · rw [if_neg small]
    rw [treeBytes] at small
    rw [if_neg small]
    exact decodeHashReference_root _

theorem decodeChildren_eq (kids : ∀ i, decodeChildReference (f i) = .ok (g i)) (last : Rlp.Value)
    (digits : List Nibble) : decodeChildren (digits.map f ++ [last]) = .ok (digits.map g) := by
  induction digits with
  | nil => rfl
  | cons i digits ih =>
    have step : ∀ rest, rest ≠ [] → decodeChildren (f i :: rest) = (do
        let c ← decodeChildReference (f i)
        let kids ← decodeChildren rest
        .ok (c :: kids)) := by
      intro rest some
      cases rest with
      | nil => exact absurd rfl some
      | cons second rest => rfl
    rw [map_cons, cons_append, step _ (by simp), kids, ih]
    rfl

theorem decodeElements_long (first second third : Rlp.Value) (rest : List Rlp.Value) :
    decodeElements (first :: second :: third :: rest) =
      if rest.length + 2 = 16 then do
        let c ← decodeChildReference first
        let kids ← decodeChildren (second :: third :: rest)
        decodeBranchValue (c :: kids) ((second :: third :: rest).getLastD first)
      else .error (.unsupportedArity (rest.length + 3)) := by
  cases first <;> rfl

theorem decodeElements_branch (kids : ∀ i, decodeChildReference (f i) = .ok (g i)) (v : Bytes) :
    decodeElements ((finRange 16).map f ++ [.string v]) = newBranch g v := by
  have digits : finRange 16 = 0 :: 1 :: 2 :: (finRange 16).drop 3 := by decide
  have tail := decodeChildren_eq kids (.string v) (1 :: 2 :: (finRange 16).drop 3)
  have all : (fun i : Nibble =>
      (g 0 :: (1 :: 2 :: (finRange 16).drop 3).map g).getD i.val .nil) = g := by
    funext i
    have nth : ∀ i : Nibble,
        (0 :: 1 :: 2 :: (finRange 16).drop 3 : List Nibble)[i.val]? = some i := by decide
    rw [← map_cons, getD_eq_getElem?_getD, getElem?_map, nth i]
    rfl
  have last : (((1 :: 2 :: (finRange 16).drop 3).map f ++ [Rlp.Value.string v]).getLastD
      (f 0)) = .string v := by
    rfl
  rw [digits, map_cons, map_cons, map_cons, cons_append, cons_append,
    cons_append, decodeElements_long, if_pos]
  · rw [kids]
    simp only [map_cons, cons_append] at tail last
    simp only [bind, Except.bind, tail, last, decodeBranchValue]
    rw [← map_cons, ← map_cons, all]
  · simp

theorem freeze_opens (branching : t.IsBranch) : (link H (treeBytes H t) (freeze H t)).Opens := by
  unfold link
  split
  · cases t with
    | branch kids v => trivial
    | nil | leaf | ext => exact absurd branching id
  · trivial

theorem decodeNodeValue_tree (proper : t.Proper) (short : t.Short maxCompactPathNibbles) :
    decodeNodeValue (treeValue H t) = .ok (freeze H t) := by
  induction t with
  | nil => exact absurd proper id
  | leaf p v =>
    have path_short := short.leaf
    simp only [treeValue, decodeNodeValue, decodeElements, decodeCompactPath_eq path_short, if_true,
      decodeLeaf, newLeaf_eq path_short, freeze]
  | ext p c ih =>
    obtain ⟨some, branching, below⟩ := proper
    have path_short := short.path below
    have reference : decodeChildReference (reference H (treeValue H c)) =
        .ok (link H (treeBytes H c) (freeze H c)) :=
      decodeChildReference_eq (fun _ => ih below short.below)
    simp only [treeValue, decodeNodeValue, decodeElements, decodeCompactPath_eq path_short,
      reference, bind, Except.bind]
    exact newExtension_eq some path_short (freeze_opens branching)
  | branch kids v ih =>
    have references : ∀ i, decodeChildReference (reference H (treeValue H (kids i))) =
        .ok (link H (treeBytes H (kids i)) (freeze H (kids i))) := by
      intro i
      apply decodeChildReference_eq
      intro some
      exact ih i (proper.2 i some) (short.child i)
    rw [treeValue, decodeNodeValue, decodeElements_branch references]
    exact newBranch_eq (fun i => isNil_link (kids i)) proper.1

end

end Golib.MerklePatriciaTrie
