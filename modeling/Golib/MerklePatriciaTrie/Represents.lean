import Golib.MerklePatriciaTrie.Encoding

/-! Nodes in memory as representations of tries: which subtries they still name by
hash, and what encoding them yields. -/
namespace Golib.MerklePatriciaTrie

open Program Finset

variable {node : Node}

section

variable (keccak : Bytes → Root) {t : Tree}

/-- The node stands for the trie: its hashes are those of stored subtries. -/
inductive Rep (K : Set Bytes) : Node → Tree → Prop where
  | nil : Rep K .nil .nil
  | leaf (path : Path) (value : Content) : Rep K (.leaf path value.val) (.leaf path value)
  | extension {path : Path} {child : Node} {trie : Tree} (below : Rep K child trie) :
      Rep K (.extension path child) (.ext path trie)
  | branch {children : Nibble → Node} {tries : Nibble → Tree} (value : Option Content)
      (below : ∀ i, Rep K (children i) (tries i)) :
      Rep K (.branch children (contentBytes value)) (.branch tries value)
  | hash {trie : Tree} (stored : Stored keccak K trie)
      (large : rootBytes ≤ (treeBytes keccak trie).length) :
      Rep K (.hash (keccak (treeBytes keccak trie))) trie

/-- The encodings that the node names by hash or reaches through such a name. -/
def kept : Node → Tree → Multiset Bytes
  | .hash _, trie => treeBytes keccak trie ::ₘ hashedBelow keccak trie
  | .extension _ child, .ext _ trie => kept child trie
  | .branch children _, .branch tries _ => ∑ i, kept (children i) (tries i)
  | _, _ => 0

/-- The trie as a tree that is in memory as a whole. -/
def expand : Tree → Node
  | .nil => .nil
  | .leaf path value => .leaf path value.val
  | .ext path child => .extension path (expand child)
  | .branch children value => .branch (fun i => expand (children i)) (contentBytes value)

variable {H : Bytes → Root} {K : Set Bytes}

theorem Rep.isNil_eq (rep : Rep H K node t) : node.isNil = t.isNil := by
  cases rep with
  | nil | leaf | extension | branch => rfl
  | hash st large =>
    cases t with
    | nil => exact absurd st.proper id
    | leaf | ext | branch => rfl

theorem rep_expand (t : Tree) : Rep H K (expand t) t := by
  induction t with
  | nil => exact .nil
  | leaf p v => exact .leaf p v
  | ext p c ih => exact .extension ih
  | branch kids v ih => exact .branch v ih

theorem kept_expand (t : Tree) : kept H (expand t) t = 0 := by
  induction t with
  | nil | leaf => rfl
  | ext p c ih => exact ih
  | branch kids v ih =>
    simp only [expand, kept, ih, sum_const_zero]

theorem Rep.eq_expand (rep : Rep H K node t) (whole : kept H node t = 0) : node = expand t := by
  induction rep with
  | nil | leaf => rfl
  | extension below ih => rw [expand, ih whole]
  | @branch kids tries v below ih =>
    congr 1
    funext i
    apply ih i
    apply Multiset.eq_zero_of_forall_notMem
    intro b named
    have mem : b ∈ ∑ i, kept H (kids i) (tries i) := Multiset.mem_sum.mpr ⟨i, mem_univ i, named⟩
    rw [kept] at whole
    rw [whole] at mem
    exact Multiset.notMem_zero b mem
  | hash st large => simp [kept] at whole

theorem rep_freeze {trie : Tree} (stored : trie ≠ .nil → Stored H K trie) :
    Rep H K (freeze H trie) trie ∧ kept H (freeze H trie) trie = hashedBelow H trie := by
  have linked : ∀ t : Tree, (t ≠ .nil → Stored H K t) →
      (Rep H K (freeze H t) t ∧ kept H (freeze H t) t = hashedBelow H t) →
      Rep H K (link H (treeBytes H t) (freeze H t)) t ∧
        kept H (link H (treeBytes H t) (freeze H t)) t = entry H t + hashedBelow H t := by
    intro t stored frozen
    unfold link entry
    split
    · simpa using frozen
    · rename_i small
      have large := Nat.le_of_not_lt small
      refine ⟨.hash (stored (ne_nil_of_large large)) large, ?_⟩
      rw [kept, Multiset.singleton_add]
  induction trie with
  | nil => exact ⟨.nil, rfl⟩
  | leaf p v => exact ⟨.leaf p v, rfl⟩
  | ext p c ih =>
    have below : c ≠ .nil → Stored H K c := fun _ => (stored (by simp)).below
    obtain ⟨rep, names⟩ := linked c below (ih below)
    exact ⟨.extension rep, names⟩
  | branch kids v ih =>
    have below : ∀ i, kids i ≠ .nil → Stored H K (kids i) := fun i => (stored (by simp)).child
    refine ⟨.branch v fun i => (linked (kids i) (below i) (ih i (below i))).1, ?_⟩
    exact sum_congr rfl fun i _ => (linked (kids i) (below i) (ih i (below i))).2

/-! ### Encoding -/

section

variable (rep : Rep H K node t)

include rep

theorem Rep.childValue_eq (whole : (∀ r, node ≠ .hash r) → node.encoded H = treeValue H t) :
    childValue H node (node.encoded H) = reference H (treeValue H t) := by
  cases rep with
  | hash stored large =>
      rw [reference, if_neg (by rw [treeBytes] at large; omega), ← treeBytes]
      rfl
  | nil | leaf | extension | branch => exact congrArg (reference H) (whole (by simp))

theorem Rep.encoded_eq (inner : ∀ r, node ≠ .hash r) : node.encoded H = treeValue H t := by
  induction rep with
  | nil | leaf => rfl
  | extension below ih => rw [Node.encoded, below.childValue_eq ih, treeValue]
  | branch v below ih =>
    simp only [Node.encoded, fun i => (below i).childValue_eq (ih i), treeValue]
  | hash st large => exact absurd rfl (inner _)

theorem Rep.opens (branching : t.IsBranch) : node.Opens := by
  cases rep with
  | branch | hash => trivial
  | nil | leaf | extension => exact branching

theorem Rep.built (canon : t.Canonical) (short : t.Short maxCompactPathNibbles) : node.Built := by
  induction rep with
  | nil => exact .nil
  | leaf p v => exact .leaf (newLeaf_eq short.leaf v)
  | extension below ih =>
    have proper := canon.proper (by simp)
    exact .extension (ih (Or.inr proper.2.2) short.below)
      (newExtension_eq proper.1 (short.path proper.2.2) (below.opens proper.2.1))
  | branch v below ih =>
    have proper := canon.proper (by simp)
    exact .branch (fun i => ih i (proper.child i) (short.child i))
      (newBranch_eq (fun i => (below i).isNil_eq) proper.1)
  | hash st large => exact .hash _

theorem Rep.fits_iff : node.Fits H ↔ t.Every fun s => (treeValue H s).Fits Rlp.defaultLimits := by
  induction rep with
  | nil | leaf => exact Iff.rfl
  | @extension p c t below ih =>
    have rep : Rep H K (.extension p c) (.ext p t) := .extension below
    exact and_congr (by rw [rep.encoded_eq (by simp)]) ih
  | @branch kids tries v below ih =>
    have whole := (Rep.branch v below).encoded_eq (by simp)
    exact and_congr (by rw [whole]) (forall_congr' ih)
  | hash st large => exact iff_of_true trivial st.fits

theorem Rep.entry_eq
    (whole : (∀ r, node ≠ .hash r) → hashedBelow H t = node.stores H + kept H node t) :
    entry H t + hashedBelow H t = node.entries H + kept H node t := by
  cases node with
  | hash r =>
    cases rep with
    | hash stored large =>
      rw [entry, if_neg (by omega), kept, Multiset.singleton_add]
      exact (zero_add _).symm
  | nil | leaf | extension | branch =>
    rw [whole (by simp), Node.entries, named_inner (by simp), rep.encoded_eq (by simp), entry,
      treeBytes, add_assoc]
    split <;> rfl

/-- The encodings that a trie names by hash are stored, or named by the node. -/
theorem Rep.hashedBelow_eq (inner : ∀ r, node ≠ .hash r) :
    hashedBelow H t = node.stores H + kept H node t := by
  induction rep with
  | nil | leaf => rfl
  | extension below ih => exact below.entry_eq ih
  | branch v below ih =>
    rw [hashedBelow, sum_congr rfl fun i _ => (below i).entry_eq (ih i), sum_add_distrib]
    rfl
  | hash st large => exact absurd rfl (inner _)

end

theorem encodeNodeBounded_ends (ctx : Context) (rep : Rep H K node t)
    (inner : ∀ root, node ≠ .hash root) (canon : t.Canonical)
    (short : t.Short maxCompactPathNibbles) (maximumNodes : Nat) (w : Work) :
    Ends (encodeNodeBounded H ctx node maximumNodes) w
      (fun r work' => r.1 = treeBytes H t ∧
        t.Every (fun s => (treeValue H s).Fits Rlp.defaultLimits) ∧
        Persists H r.2 (hashedBelow H t) (kept H node t) ∧
        work'.hashesLeft + node.hashes H = w.hashesLeft ∧ work'.readsLeft = w.readsLeft)
      (fun e => e.Interrupts ∧ ¬ (ctx.Live ∧
        t.Every (fun s => (treeValue H s).Fits Rlp.defaultLimits) ∧
        node.visits ≤ maximumNodes ∧ node.hashes H ≤ w.hashesLeft)) := by
  rw [← rep.fits_iff, rep.hashedBelow_eq inner, treeBytes, ← rep.encoded_eq inner]
  refine (encodeNodeValue_takes (rep.built canon short) inner maximumNodes w).bind ?_
  rintro ⟨encoding, left⟩ work' ⟨yields, -, hashed, read, fits⟩
  exact ends_pure ⟨yields.bytes, fits, yields.persists.and_named _, hashed, read⟩

end

end Golib.MerklePatriciaTrie
