import Golib.MerklePatriciaTrie.Represents

/-! The codec of single nodes in both directions: what is decoded is encoded to the
same bytes, and what is encoded is decoded to the node with its large children named
by hash. -/
namespace Golib.MerklePatriciaTrie

open Program Rlp.Value List

/-! ### Compact paths -/

theorem first_of_flag (first : UInt8) (known : ¬ first >>> 4 > 3) :
    (first >>> 4 &&& 1 = 1 →
      first = (pathFlag (first >>> 4 &&& 2 = 2) + 1) <<< 4 ||| (lowNibble first).byte) ∧
    (¬ first >>> 4 &&& 1 = 1 → first &&& 0x0f = 0 →
      first = pathFlag (first >>> 4 &&& 2 = 2) <<< 4) := by
  revert first
  refine forall_byte ?_
  decide +kernel

theorem decodeCompactPath_ok {enc : Bytes} {compact : CompactPath}
    (read : decodeCompactPath enc = .ok compact) :
    enc = compactBytes compact.nibbles compact.leaf ∧
      compact.nibbles.length ≤ maxCompactPathNibbles := by
  unfold decodeCompactPath at read
  cases enc with
  | nil => cases read
  | cons first rest =>
    dsimp only at read
    split at read
    · cases read
    split at read
    · cases read
    rename_i known
    have size := length_bytesToNibbles rest
    obtain ⟨oddly, evenly⟩ := first_of_flag first known
    by_cases odd : first >>> 4 &&& 1 = 1
    · simp only [odd, not_true_eq_false, false_and, if_false, if_true] at read
      split at read
      · cases read
      rename_i few
      rw [length_cons] at few
      cases read
      rw [singleton_append, length_cons]
      refine ⟨?_, by omega⟩
      rw [compactBytes, if_pos (by rw [length_cons]; omega), headD_cons, tail_cons,
        pack_bytesToNibbles, ← oddly odd]
    · simp only [odd, not_false_eq_true, true_and, if_false] at read
      split at read
      · cases read
      rename_i padded
      split at read
      · cases read
      rename_i few
      rw [length_cons] at few
      cases read
      dsimp only
      rw [nil_append]
      refine ⟨?_, by omega⟩
      rw [compactBytes, if_neg (by omega), pack_bytesToNibbles, ← evenly odd (not_not.mp padded)]

variable {n : Node} {es : List Rlp.Value}

/-! ### Decoding -/

theorem decodeChildren_ok {kids : List Node} (read : decodeChildren es = .ok kids)
    (some : es ≠ []) :
    ∃ init last, es = init ++ [last] ∧
      Forall₂ (fun v c => decodeChildReference v = .ok c) init kids := by
  induction es generalizing kids with
  | nil => exact absurd rfl some
  | cons first rest ih =>
    cases rest with
    | nil =>
      cases read
      exact ⟨[], first, rfl, .nil⟩
    | cons second rest =>
      obtain ⟨child, head, read⟩ := except_bind_ok.mp read
      obtain ⟨others, tail, read⟩ := except_bind_ok.mp read
      cases read
      obtain ⟨init, last, split, each⟩ := ih tail (by simp)
      exact ⟨first :: init, last, by rw [split, cons_append], .cons head each⟩

theorem forall₂_digits {values : List Rlp.Value} {ns : List Node}
    {related : Rlp.Value → Node → Prop} (each : Forall₂ related values ns)
    (size : values.length = 16) :
    ∃ f : Nibble → Rlp.Value, values = (finRange 16).map f ∧
      ∀ i, related (f i) (ns.getD i.val .nil) := by
  refine ⟨fun i => values.get (i.cast size.symm), ?_, ?_⟩
  · apply ext_get
    · simp [size]
    · simp
  · intro i
    have bound : i.val < values.length := by omega
    have bound' : i.val < ns.length := by
      have := each.length_eq
      omega
    rw [getD_eq_getElem?_getD, getElem?_eq_getElem bound', Option.getD_some]
    exact (forall₂_iff_get.mp each).2 i.val bound bound'

theorem decodeElements_ok (read : decodeElements es = .ok n) :
    (∃ enc second compact, es = [.string enc, second] ∧
      decodeCompactPath enc = .ok compact ∧
      ((compact.leaf = true ∧ ∃ v, second = .string v ∧
          newLeaf compact.nibbles v = .ok n) ∨
        (compact.leaf = false ∧ ∃ c, decodeChildReference second = .ok c ∧
          newExtension compact.nibbles c = .ok n))) ∨
    (∃ (f : Nibble → Rlp.Value) (g : Nibble → Node) (v : Bytes),
      es = (finRange 16).map f ++ [.string v] ∧
      (∀ i, decodeChildReference (f i) = .ok (g i)) ∧ newBranch g v = .ok n) := by
  match es with
  | [] => cases read
  | [.string _] => cases read
  | [.list _] => cases read
  | [.list _, _] => cases read
  | [.string enc, second] =>
    left
    simp only [decodeElements] at read
    split at read
    · cases read
    rename_i compact p
    split at read
    · rename_i leaf
      cases second with
      | string v => exact ⟨enc, _, compact, rfl, p, Or.inl ⟨leaf, v, rfl, read⟩⟩
      | list es => cases read
    · rename_i inner
      obtain ⟨c, below, made⟩ := except_bind_ok.mp read
      exact ⟨enc, second, compact, rfl, p, Or.inr ⟨Bool.eq_false_iff.mpr inner, c, below, made⟩⟩
  | first :: second :: third :: rest =>
    right
    rw [decodeElements_long] at read
    split at read
    swap
    · cases read
    rename_i size
    obtain ⟨c, head, read⟩ := except_bind_ok.mp read
    obtain ⟨kids, tail, read⟩ := except_bind_ok.mp read
    obtain ⟨init, last, split, each⟩ := decodeChildren_ok tail (by simp)
    have sixteen : (first :: init).length = 16 := by
      have tot := congrArg length split
      simp only [length_cons, length_append, length_nil] at tot ⊢
      omega
    obtain ⟨f, digits, related⟩ := forall₂_digits (.cons head each) sixteen
    have ending : (second :: third :: rest).getLastD first = last := by
      rw [split, getLastD_eq_getLast?, getLast?_concat]
      rfl
    rw [ending] at read
    cases last with
    | list es => cases read
    | string v =>
      refine ⟨f, _, v, ?_, related, read⟩
      rw [← digits, split, cons_append]

section

variable {H : Bytes → Root} {c : Node} {v : Rlp.Value}

/-- A node that was decoded from the value: encoding it restores the value and takes no
hash operation. -/
structure Decoded (keccak : Bytes → Root) (value : Rlp.Value) (node : Node) : Prop where
  built : node.Built
  inner : ∀ root, node ≠ .hash root
  encoded : node.encoded keccak = value
  visits : node.visits ≤ value.items
  hashes : node.hashes keccak = 0
  fits : node.Fits keccak

/-- A child that was decoded from the reference its parent holds. -/
structure Referred (keccak : Bytes → Root) (value : Rlp.Value) (child : Node) : Prop where
  built : child.Built
  encoded : childValue keccak child (child.encoded keccak) = value
  visits : (if child.isNil then 0 else child.visits) ≤ value.items
  hashes : child.hashes keccak + child.named keccak = 0
  fits : child.Fits keccak

theorem decoded_branch {node : Node} {f : Nibble → Rlp.Value} {g : Nibble → Node} {value : Bytes}
    (below : ∀ i, Referred H (f i) (g i))
    (fits : (list ((finRange 16).map f ++ [.string value])).Fits Rlp.defaultLimits)
    (made : newBranch g value = .ok node) :
    Decoded H (.list ((finRange 16).map f ++ [.string value])) node := by
  have built : node.Built := .branch (fun i => (below i).built) made
  obtain rfl := newBranch_ok made
  have whole : Node.encoded H (.branch g value) =
      .list ((finRange 16).map f ++ [.string value]) := by
    rw [Node.encoded]
    simp only [(below _).encoded]
  refine ⟨built, by simp, whole, ?_, ?_, ?_, fun i => (below i).fits⟩
  · have counted : ∀ digits : List Nibble,
        (digits.map fun i => if (g i).isNil then 0 else (g i).visits).sum ≤
          itemsIn (digits.map f ++ [.string value]) := by
      intro digits
      induction digits with
      | nil => simp
      | cons i digits ih =>
        have := (below i).visits
        rw [map_cons, map_cons, sum_cons, cons_append, itemsIn]
        omega
    have := counted (finRange 16)
    rw [Node.visits, items]
    omega
  · rw [Node.hashes]
    simp only [(below _).hashes]
    simp
  · rw [whole]
    exact fits

theorem decoded_elements {node : Node} {elements : List Rlp.Value}
    (below : ∀ element ∈ elements, ∀ child, decodeChildReference element = .ok child →
      Referred H element child) (fits : (list elements).Fits Rlp.defaultLimits)
    (read : decodeElements elements = .ok node) : Decoded H (.list elements) node := by
  obtain ⟨enc, second, ⟨path, leaf⟩, rfl, compact, shape⟩ | ⟨f, g, value, rfl, each, made⟩ :=
    decodeElements_ok read
  · obtain ⟨rfl, short⟩ := decodeCompactPath_ok compact
    rcases shape with ⟨rfl, value, rfl, made⟩ | ⟨rfl, child, reference, made⟩
    · have built : node.Built := .leaf made
      obtain ⟨rfl, some, -⟩ := newLeaf_ok made
      exact ⟨built, by simp, rfl, by simp [Node.visits, items], rfl, fits⟩
    · have referred := below second (by simp) child reference
      have built : node.Built := .extension referred.built made
      obtain ⟨rfl, some, -, opens⟩ := newExtension_ok made
      have whole : Node.encoded H (.extension path child) =
          .list [.string (compactBytes path false), second] := by
        rw [Node.encoded, referred.encoded]
      have present : child.isNil = false := by
        cases child with
        | nil => exact absurd opens id
        | leaf | extension | branch | hash => rfl
      refine ⟨built, by simp, whole, ?_, referred.hashes, ?_, referred.fits⟩
      · have visited := referred.visits
        rw [present] at visited
        simp only [Node.visits, items, itemsIn]
        simp at visited
        omega
      · rw [whole]
        exact fits
  · refine decoded_branch (fun i => below (f i) ?_ (g i) (each i)) fits made
    exact mem_append_left _ (mem_map_of_mem (mem_finRange i))

theorem small_of_not_oversized (fits : v.Fits Rlp.defaultLimits)
    (allowed : oversized v = false) : v.bytes.length < rootBytes := by
  unfold oversized at allowed
  rw [Rlp.encodeValue_bytes fits] at allowed
  simpa using allowed

theorem decodeHashReference_ok {bs : Bytes} (read : decodeHashReference bs = .ok c) :
    (bs = [] ∧ c = .nil) ∨ ∃ r : Root, bs = r.bytes ∧ c = .hash r := by
  unfold decodeHashReference at read
  split at read
  · rename_i none
    cases read
    exact Or.inl ⟨eq_nil_of_length_eq_zero none, rfl⟩
  · split at read
    · rename_i r eq
      cases read
      exact Or.inr ⟨r, Bytes32.ofList_eq_some.mp eq, rfl⟩
    · cases read

theorem decodeChildReference_referred {value : Rlp.Value} (fits : value.Fits Rlp.defaultLimits)
    {child : Node} (read : decodeChildReference value = .ok child) : Referred H value child := by
  match value with
  | .string bs =>
    obtain ⟨rfl, rfl⟩ | ⟨root, rfl, rfl⟩ := decodeHashReference_ok read
    · exact ⟨.nil, rfl, Nat.zero_le _, rfl, trivial⟩
    · exact ⟨.hash root, rfl, Nat.zero_le _, rfl, trivial⟩
  | .list elements =>
    rw [decodeChildReference] at read
    split at read
    · cases read
    rename_i allowed
    have small := small_of_not_oversized fits (Bool.eq_false_iff.mpr allowed)
    have decoded : Decoded H (.list elements) child :=
      decoded_elements
        (fun element mem child read =>
          have : element.items < (list elements).items := by
            have := Rlp.element_le mem
            rw [items]
            omega
          decodeChildReference_referred (fits.element mem) read) fits read
    refine ⟨decoded.built, ?_, ?_, ?_, decoded.fits⟩
    · rw [childValue_inner decoded.inner, decoded.encoded, reference, if_pos small]
    · have := decoded.visits
      split <;> omega
    · rw [decoded.hashes, named_inner decoded.inner, decoded.encoded, if_pos small]
termination_by value.items

theorem decodeNodeValue_decoded (fits : v.Fits Rlp.defaultLimits)
    (read : decodeNodeValue v = .ok n) : Decoded H v n := by
  cases v with
  | string bs =>
    rw [decodeNodeValue] at read
    split at read
    · rename_i none
      cases read
      obtain rfl := eq_nil_of_length_eq_zero none
      exact ⟨.nil, by simp, rfl, Nat.le_refl _, rfl, trivial⟩
    · cases read
  | list es =>
    exact decoded_elements
      (fun element mem c read => decodeChildReference_referred (fits.element mem) read)
      fits read

/-! ### The codec -/

/-- Encoding the node stays within the bounds of `encodeNode`. -/
structure Node.Bounded (keccak : Bytes → Root) (node : Node) : Prop where
  fits : node.Fits keccak
  visits : node.visits ≤ Rlp.maximumInt
  hashes : node.hashes keccak ≤ Rlp.maximumInt

theorem encodeNode_eq (built : n.Built) (inner : ∀ root, n ≠ .hash root) :
    (∃ persisted, encodeNode H n = .ok ((n.encoded H).bytes, persisted) ∧ n.Bounded H) ∨
    (∃ e, encodeNode H n = .error e ∧ e.Interrupts ∧ ¬ n.Bounded H) := by
  have ends : Ends (encodeNodeBounded H .background n Rlp.maximumInt)
      ⟨0, 0, Rlp.maximumInt, []⟩
      (fun r _ => r.1 = (n.encoded H).bytes ∧ n.Bounded H)
      (fun e => e.Interrupts ∧ ¬ n.Bounded H) := by
    refine ((encodeNodeValue_takes built inner _ _).unless fun bounded =>
      ⟨live_background, bounded.fits, bounded.visits, bounded.hashes⟩).bind ?_
    rintro ⟨encoding, left⟩ w ⟨yields, visited, hashed, -, fits⟩
    dsimp only at visited hashed
    exact ends_pure ⟨yields.bytes, fits, by omega, by omega⟩
  unfold encodeNode
  cases out : encodeNodeBounded H .background n Rlp.maximumInt
      ⟨0, 0, Rlp.maximumInt, []⟩ with
  | ok r =>
    obtain ⟨⟨enc, persisted⟩, w⟩ := r
    obtain ⟨rfl, bounded⟩ := ends.ok out
    exact Or.inl ⟨persisted, rfl, bounded⟩
  | error e => exact Or.inr ⟨e, rfl, ends.error out⟩

theorem Node.Fits.whole (fits : n.Fits H) (inner : ∀ r, n ≠ .hash r) :
    (n.encoded H).Fits Rlp.defaultLimits := by
  cases n with
  | hash r => exact absurd rfl (inner r)
  | nil => exact fits_empty
  | leaf p v => exact fits
  | extension | branch => exact fits.1

theorem Node.Bounded.encodes (bounded : n.Bounded H) (built : n.Built) (inner : ∀ r, n ≠ .hash r) :
    ∃ persisted, encodeNode H n = .ok ((n.encoded H).bytes, persisted) := by
  obtain ⟨persisted, made, -⟩ | ⟨e, -, -, lacking⟩ := encodeNode_eq built inner
  · exact ⟨persisted, made⟩
  · exact absurd bounded lacking

/-- A child as its parent holds it after decoding: by its hash when its own encoding has
32 bytes or more. -/
def Node.linked (keccak : Bytes → Root) (child : Node) : Node :=
  match encodeNode keccak child with
  | .ok (encoded, _) => if encoded.length ≥ rootBytes then .hash (keccak encoded) else child
  | .error _ => child

def Node.mapChildren (f : Node → Node) : Node → Node
  | .extension path child => .extension path (f child)
  | .branch children value => .branch (fun i => f (children i)) value
  | node => node

theorem linked_inner {c : Node} (bounded : c.Bounded H) (built : c.Built)
    (inner : ∀ r, c ≠ .hash r) :
    c.linked H =
      if (c.encoded H).bytes.length < rootBytes then c
      else .hash (H (c.encoded H).bytes) := by
  obtain ⟨persisted, made⟩ := bounded.encodes built inner
  rw [Node.linked, made]
  dsimp only
  split
  · rw [if_neg (by omega)]
  · rw [if_pos (by omega)]

theorem linked_of_small (bounded : c.Bounded H) (built : c.Built)
    (small : (childValue H c (c.encoded H)).bytes.length < rootBytes) : c.linked H = c := by
  have long : ∀ r : Root, ¬ (string r.bytes).bytes.length < rootBytes := by
    intro r
    have size := r.size
    rw [bytes, if_neg (by omega)]
    have := (Rlp.length_frame 0x80 0xb7 r.bytes).1
    unfold rootBytes
    omega
  cases c with
  | hash r => rfl
  | nil | leaf | extension | branch =>
    rw [linked_inner bounded built (by simp)]
    rw [childValue_inner (by simp), reference] at small
    split
    · rfl
    · rename_i large
      rw [if_neg large] at small
      exact absurd small (long _)

theorem Node.Bounded.below {p : Path} (bounded : (Node.extension p c).Bounded H) : c.Bounded H := by
  have vs := bounded.visits
  have hs := bounded.hashes
  rw [Node.visits] at vs
  rw [Node.hashes] at hs
  exact ⟨bounded.fits.2, by omega, by omega⟩

theorem Node.Bounded.child {kids : Nibble → Node}
    {v : Bytes} (bounded : (Node.branch kids v).Bounded H)
    (i : Nibble) : (kids i).Bounded H := by
  have vs := bounded.visits
  have hs := bounded.hashes
  rw [Node.visits] at vs
  rw [Node.hashes] at hs
  have visited := le_sum_of_mem (mem_map_of_mem
    (f := fun i => if (kids i).isNil then 0 else (kids i).visits) (mem_finRange i))
  have hashed := le_sum_of_mem (mem_map_of_mem
    (f := fun i => (kids i).hashes H + (kids i).named H) (mem_finRange i))
  refine ⟨bounded.fits.2 i, ?_, by omega⟩
  split at visited
  · rename_i vacant
    rw [Node.isNil_eq_true] at vacant
    rw [vacant]
    decide
  · omega

theorem element_small {element : Rlp.Value}
    (small : (list es).bytes.length < rootBytes) (mem : element ∈ es) :
    element.bytes.length < rootBytes := by
  have framed := (Rlp.length_frame 0xc0 0xf7 (payload es)).1
  have sub := (Rlp.element_le mem).1
  rw [bytes] at small
  omega

theorem mapChildren_of_small (bounded : n.Bounded H) (built : n.Built)
    (small : (n.encoded H).bytes.length < rootBytes) : n.mapChildren (Node.linked H) = n := by
  cases built with
  | nil | hash => rfl
  | leaf made =>
    obtain ⟨rfl, -, -⟩ := newLeaf_ok made
    rfl
  | extension below made =>
    obtain ⟨rfl, -, -, -⟩ := newExtension_ok made
    rw [Node.mapChildren, linked_of_small bounded.below below]
    exact element_small small (by simp)
  | @branch kids v _ below made =>
    obtain rfl := newBranch_ok made
    rw [Node.mapChildren]
    congr 1
    funext i
    apply linked_of_small (bounded.child i) (below i)
    exact element_small small
      (mem_append_left _ (mem_map.mpr ⟨i, mem_finRange i, rfl⟩))

theorem decodeChildReference_childValue (bounded : c.Bounded H)
    (built : c.Built)
    (decoded : (∀ r, c ≠ .hash r) →
      decodeNodeValue (c.encoded H) = .ok (c.mapChildren (Node.linked H))) :
    decodeChildReference (childValue H c (c.encoded H)) = .ok (c.linked H) := by
  cases c with
  | hash r =>
    exact decodeHashReference_root r
  | nil =>
    rfl
  | leaf | extension | branch =>
    rw [linked_inner bounded built (by simp), childValue_inner (by simp), reference]
    split
    · rename_i small
      have read := decoded (by simp)
      rw [mapChildren_of_small bounded built small] at read
      rw [← read, Node.encoded, decodeChildReference]
      rw [Node.encoded] at small
      rw [not_oversized small]
      rfl
    · exact decodeHashReference_root _

/-- What is encoded is decoded to the node with its large children named by hash. -/
theorem decodeNodeValue_encoded (bounded : n.Bounded H) (built : n.Built)
    (inner : ∀ r, n ≠ .hash r) :
    decodeNodeValue (n.encoded H) = .ok (n.mapChildren (Node.linked H)) := by
  induction built with
  | nil => rfl
  | hash r => exact absurd rfl (inner r)
  | leaf made =>
    obtain ⟨rfl, some, short⟩ := newLeaf_ok made
    simp only [Node.encoded, decodeNodeValue, decodeElements, decodeCompactPath_eq short, if_true,
      decodeLeaf, made, Node.mapChildren]
  | @extension p c _ below made ih =>
    obtain ⟨rfl, some, short, opens⟩ := newExtension_ok made
    have read := decodeChildReference_childValue bounded.below below (ih bounded.below)
    have opens' : (c.linked H).Opens := by
      cases c with
      | hash r => trivial
      | branch kids v =>
        rw [linked_inner bounded.below below (by simp)]
        split <;> trivial
      | nil | leaf | extension => exact absurd opens id
    simp only [Node.encoded, decodeNodeValue, decodeElements, decodeCompactPath_eq short, read,
      bind, Except.bind]
    exact newExtension_eq some short opens'
  | @branch kids v _ below made ih =>
    obtain rfl := newBranch_ok made
    have read := fun i => decodeChildReference_childValue (bounded.child i) (below i)
      (ih i (bounded.child i))
    have vacant : ∀ i, ((kids i).linked H).isNil = (kids i).isNil := by
      intro i
      cases shape : kids i with
      | hash r => rfl
      | nil =>
        have small := encoded_nil_small H
        have room := bounded.child i
        rw [shape] at room
        rw [linked_inner room .nil (by simp), if_pos small]
      | leaf | extension | branch =>
        have room := bounded.child i
        have made := below i
        rw [shape] at room made
        rw [linked_inner room made (by simp)]
        split <;> rfl
    rw [Node.encoded, decodeNodeValue, decodeElements_branch read, Node.mapChildren]
    unfold newBranch at made ⊢
    rw [occupied_congr vacant]
    dsimp only at made ⊢
    split at made
    · cases made
    split at made
    · cases made
    rename_i forked present
    rw [if_neg forked, if_neg present]

/-- The codec is canonical in both directions: a decoded node is encoded to the bytes it
came from, and an encoded node is decoded to the node with its large children named by
hash. Encoding fails only at a limit, which the node then does not keep. -/
theorem node_codec_canonical (keccak : Bytes → Root) :
    (∀ encoded node, decodeNode encoded = .ok node →
      ∃ persisted, encodeNode keccak node = .ok (encoded, persisted)) ∧
    (∀ encoded encoded' node, decodeNode encoded = .ok node → decodeNode encoded' = .ok node →
      encoded = encoded') ∧
    (∀ node : Node, node.Built → (∀ root, node ≠ .hash root) →
      match encodeNode keccak node with
      | .ok (encoded, _) => decodeNode encoded = .ok (node.mapChildren (Node.linked keccak))
      | .error e => e.Interrupts ∧ ¬ node.Bounded keccak) := by
  have restores : ∀ encoded node, decodeNode encoded = .ok node →
      ∃ persisted, encodeNode keccak node = .ok (encoded, persisted) := by
    intro encoded node read
    unfold decodeNode at read
    split at read
    · cases read
    rename_i value accepted
    obtain ⟨rfl, fits⟩ := Rlp.decodeValue_ok accepted
    have decoded : Decoded keccak value node := decodeNodeValue_decoded fits read
    have bounded : node.Bounded keccak := by
      refine ⟨decoded.fits, ?_, ?_⟩
      · have few := Nat.le_trans decoded.visits fits.items
        exact Nat.le_trans few (by decide)
      · rw [decoded.hashes]
        exact Nat.zero_le _
    obtain ⟨persisted, made⟩ := bounded.encodes decoded.built decoded.inner
    rw [decoded.encoded] at made
    exact ⟨persisted, made⟩
  refine ⟨restores, ?_, ?_⟩
  · intro encoded encoded' node read read'
    obtain ⟨persisted, made⟩ := restores encoded node read
    obtain ⟨persisted', made'⟩ := restores encoded' node read'
    rw [made] at made'
    cases made'
    rfl
  · intro node built inner
    rcases encodeNode_eq built inner with ⟨persisted, made, bounded⟩ | ⟨e, made, stopped⟩
    · rw [made]
      dsimp only
      unfold decodeNode
      rw [Rlp.decodeValue_bytes (bounded.fits.whole inner) (by decide)]
      exact decodeNodeValue_encoded bounded built inner
    · rw [made]
      exact stopped

/-- A leaf that is named by its hash and one that is not. -/
def twigLeaves (i : Nibble) : Node :=
  if i.val = 1 then .leaf [] (replicate 32 0x41) else if i.val = 2 then .leaf [] [0x42] else .nil

def twig : Node := .branch twigLeaves []

def twigBytes : Bytes :=
  0xf3 :: 0x80 :: 0xa0 :: emptyRoot.bytes ++ 0xc2 :: 0x20 :: 0x42 :: replicate 14 0x80

theorem node_codec_canonical_branch :
    ∃ node persisted persisted', encodeNode (fun _ => emptyRoot) twig = .ok (twigBytes, persisted) ∧
      decodeNode twigBytes = .ok node ∧
      node = twig.mapChildren (Node.linked fun _ => emptyRoot) ∧
      encodeNode (fun _ => emptyRoot) node = .ok (twigBytes, persisted') := by
  obtain ⟨restores, -, reads⟩ := node_codec_canonical (fun _ => emptyRoot)
  have built : twig.Built := by
    have made : newBranch twigLeaves [] = .ok twig := rfl
    refine .branch (fun i => ?_) made
    unfold twigLeaves
    split_ifs
    · exact .leaf (show newLeaf [] (replicate 32 0x41) = _ from rfl)
    · exact .leaf (show newLeaf [] [0x42] = _ from rfl)
    · exact .nil
  have bytes : (encodeNode (fun _ => emptyRoot) twig).map Prod.fst = .ok twigBytes := by
    decide +kernel
  have read := reads twig built (by simp [twig])
  cases made : encodeNode (fun _ => emptyRoot) twig with
  | error e =>
    rw [made] at bytes
    cases bytes
  | ok result =>
    obtain ⟨encoded, persisted⟩ := result
    rw [made] at bytes read
    have same : encoded = twigBytes := Except.ok.inj bytes
    subst same
    obtain ⟨persisted', again⟩ := restores _ _ read
    exact ⟨_, persisted, persisted', rfl, read, rfl, again⟩

end

end Golib.MerklePatriciaTrie
