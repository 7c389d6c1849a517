import Mathlib.Algebra.BigOperators.Fin
import Golib.MerklePatriciaTrie.NodeCodec

/-! Tries that were encoded within the limits: their nodes decode to themselves, and
where the hash has no collision among their encodings the encoding determines the
trie. -/
namespace Golib.MerklePatriciaTrie

section

variable (keccak : Bytes → Root) {t : Tree}

/-- The trie and all its subtries are encodable, with encodings among `K`. -/
structure Stored (K : Set Bytes) (t : Tree) : Prop where
  proper : t.Proper
  short : t.Short maxCompactPathNibbles
  fits : t.Every (fun s => (treeValue keccak s).Fits Rlp.defaultLimits)
  known : t.Every (fun s => treeBytes keccak s ∈ K)

/-- The encoding of a subtrie that its parent names by hash. -/
def entry (t : Tree) : Multiset Bytes :=
  if (treeBytes keccak t).length < rootBytes then 0 else {treeBytes keccak t}

/-- The encodings that are named by hash below the root, once for each occurrence. -/
def hashedBelow : Tree → Multiset Bytes
  | .nil => 0
  | .leaf _ _ => 0
  | .ext _ child => entry keccak child + hashedBelow child
  | .branch children _ => ∑ i, (entry keccak (children i) + hashedBelow (children i))

variable {H : Bytes → Root} {K : Set Bytes} {s : Tree} {b : Bytes}

theorem Stored.child {v : Option Content} {i : Nibble}
    {kids : Nibble → Tree} (st : Stored H K (.branch kids v))
    (some : kids i ≠ .nil) : Stored H K (kids i) :=
  ⟨st.proper.2 i some, st.short.child i, st.fits.2 i, st.known.2 i⟩

theorem Stored.below {p : Path} {c : Tree} (st : Stored H K (.ext p c)) : Stored H K c :=
  ⟨st.proper.2.2, st.short.below, st.fits.2, st.known.2⟩

theorem Stored.subtrie {s : Radix 16 Content} (st : Stored H K t) (below : Radix.Below s t)
    (some : s ≠ .nil) : Stored H K s := by
  induction t with
  | nil | leaf => exact absurd below id
  | ext p c ih =>
    rcases below with rfl | deeper
    · exact st.below
    · exact ih st.below deeper
  | branch kids v ih =>
    obtain ⟨i, here⟩ := below
    have occupied : kids i ≠ .nil := by
      intro vacant
      rw [vacant] at here
      exact here.elim some id
    rcases here with rfl | deeper
    · exact st.child occupied
    · exact ih i (st.child occupied) deeper

theorem Stored.mem (stored : Stored H K t) : treeBytes H t ∈ K :=
  stored.known.here stored.proper.ne_nil

theorem Stored.decode (stored : Stored H K t) : decodeNode (treeBytes H t) = .ok (freeze H t) := by
  have fits := stored.fits.here stored.proper.ne_nil
  have read : Rlp.decodeValue (treeBytes H t) Rlp.defaultLimits = .ok (treeValue H t) :=
    Rlp.decodeValue_bytes fits (by decide)
  unfold decodeNode
  rw [read]
  exact decodeNodeValue_tree stored.proper stored.short

theorem freeze_ne_nil (some : t ≠ .nil) : freeze H t ≠ .nil := by
  cases t with
  | nil => exact absurd rfl some
  | leaf | ext | branch => simp [freeze]

theorem freeze_ne_hash (t : Tree) (r : Root) : freeze H t ≠ .hash r := by
  cases t <;> simp [freeze]

theorem ne_nil_of_large (large : rootBytes ≤ (treeBytes H t).length) : t ≠ .nil := by
  rintro rfl
  rw [treeBytes_nil] at large
  exact absurd large (by decide)

theorem freeze_eq_of_link (inj : Set.InjOn H K)
    (left : s ≠ .nil → Stored H K s) (right : t ≠ .nil → Stored H K t)
    (eq : link H (treeBytes H s) (freeze H s) = link H (treeBytes H t) (freeze H t)) :
    freeze H s = freeze H t := by
  unfold link at eq
  split at eq
  · split at eq
    · exact eq
    · exact absurd eq (freeze_ne_hash s _)
  · rename_i largeLeft
    split at eq
    · exact absurd eq.symm (freeze_ne_hash t _)
    · rename_i largeRight
      have storedLeft := left (ne_nil_of_large (Nat.le_of_not_lt largeLeft))
      have storedRight := right (ne_nil_of_large (Nat.le_of_not_lt largeRight))
      have bytes := inj storedLeft.mem storedRight.mem (Node.hash.inj eq)
      have decoded := storedRight.decode
      rw [← bytes, storedLeft.decode] at decoded
      exact Except.ok.inj decoded

theorem freeze_injective (inj : Set.InjOn H K) (left : s ≠ .nil → Stored H K s)
    (right : t ≠ .nil → Stored H K t) (eq : freeze H s = freeze H t) : s = t := by
  induction s generalizing t with
  | nil =>
    by_contra some
    exact freeze_ne_nil (Ne.symm some) eq.symm
  | leaf path v =>
    cases t with
    | leaf path' value' =>
      simp only [freeze, Node.leaf.injEq] at eq
      rw [eq.1, Subtype.ext eq.2]
    | nil | ext | branch => simp [freeze] at eq
  | ext path child ih =>
    cases t with
    | ext path' child' =>
      simp only [freeze, Node.extension.injEq] at eq
      have below : ∀ {p : Path} {c : Tree}, (Radix.ext p c ≠ .nil → Stored H K (.ext p c)) →
          c ≠ .nil → Stored H K c := fun st _ => (st (by simp)).below
      have frozen := freeze_eq_of_link inj (below left) (below right) eq.2
      rw [eq.1, ih (below left) (below right) frozen]
    | nil | leaf | branch => simp [freeze] at eq
  | branch kids v ih =>
    cases t with
    | branch children' value' =>
      simp only [freeze, Node.branch.injEq] at eq
      have child : kids = children' := by
        funext i
        have below : kids i ≠ .nil → Stored H K (kids i) := (left (by simp)).child
        have below' : children' i ≠ .nil → Stored H K (children' i) := (right (by simp)).child
        exact ih i below below' (freeze_eq_of_link inj below below' (congrFun eq.1 i))
      rw [child, contentBytes_injective eq.2]
    | nil | leaf | ext => simp [freeze] at eq

theorem Stored.unique (inj : Set.InjOn H K) (left : Stored H K s)
    (right : Stored H K t) (eq : treeBytes H s = treeBytes H t) : s = t := by
  have decoded := right.decode
  rw [← eq, left.decode] at decoded
  exact freeze_injective inj (fun _ => left) (fun _ => right) (Except.ok.inj decoded)

theorem fits_empty : (Rlp.Value.string []).Fits Rlp.defaultLimits :=
  ⟨by decide, by decide, by decide⟩

theorem decodeNode_empty : decodeNode [0x80] = .ok .nil := by
  have bs : [0x80] = (Rlp.Value.string []).bytes := by decide
  rw [bs, decodeNode, Rlp.decodeValue_bytes fits_empty (by decide)]
  rfl

theorem Stored.not_empty (stored : Stored H K t) : treeBytes H t ≠ [0x80] := by
  intro empty
  have decoded := stored.decode
  rw [empty, decodeNode_empty] at decoded
  exact freeze_ne_nil stored.proper.ne_nil (Except.ok.inj decoded).symm

theorem Stored.root_ne_empty (inj : Set.InjOn H K) (empty : H [0x80] = emptyRoot)
    (reserved : [0x80] ∈ K) (stored : Stored H K t) : H (treeBytes H t) ≠ emptyRoot := by
  rw [← empty]
  exact fun collides => stored.not_empty (inj stored.mem reserved collides)

theorem mem_entry : b ∈ entry H t ↔ b = treeBytes H t ∧ rootBytes ≤ b.length := by
  unfold entry
  split
  · rename_i small
    simp only [Multiset.notMem_zero, false_iff, not_and, Nat.not_le]
    rintro rfl
    exact small
  · rename_i large
    simp only [Multiset.mem_singleton]
    constructor
    · rintro rfl
      exact ⟨rfl, by omega⟩
    · exact And.left

theorem exists_below (hashed : b ∈ hashedBelow H t) :
    ∃ s, Radix.Below s t ∧ b = treeBytes H s ∧ rootBytes ≤ b.length := by
  induction t with
  | nil | leaf => simp [hashedBelow] at hashed
  | ext path child ih =>
    rcases Multiset.mem_add.mp hashed with here | deeper
    · exact ⟨child, Or.inl rfl, mem_entry.mp here⟩
    · obtain ⟨s, below, found⟩ := ih deeper
      exact ⟨s, Or.inr below, found⟩
  | branch kids value ih =>
    obtain ⟨i, -, mem⟩ := Multiset.mem_sum.mp hashed
    rcases Multiset.mem_add.mp mem with here | deeper
    · exact ⟨kids i, ⟨i, Or.inl rfl⟩, mem_entry.mp here⟩
    · obtain ⟨s, below, found⟩ := ih i deeper
      exact ⟨s, ⟨i, Or.inr below⟩, found⟩

theorem Stored.exists_stored (stored : Stored H K t) (hashed : b ∈ hashedBelow H t) :
    ∃ s, Radix.Below s t ∧ Stored H K s ∧ b = treeBytes H s ∧ rootBytes ≤ b.length := by
  obtain ⟨s, below, rfl, large⟩ := exists_below hashed
  exact ⟨s, below, stored.subtrie below (ne_nil_of_large large), rfl, large⟩

theorem Stored.hashed_mem (stored : Stored H K t) (hashed : b ∈ hashedBelow H t) : b ∈ K := by
  obtain ⟨s, -, sub, rfl, -⟩ := stored.exists_stored hashed
  exact sub.mem

theorem Stored.root_not_below (inj : Set.InjOn H K) (stored : Stored H K t) :
    treeBytes H t ∉ hashedBelow H t := by
  intro mem
  obtain ⟨s, below, sub, eq, -⟩ := stored.exists_stored mem
  exact below.ne (stored.unique inj sub eq).symm

end

end Golib.MerklePatriciaTrie
