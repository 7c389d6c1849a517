import Golib.MerklePatriciaTrie.Represents
import Golib.MerklePatriciaTrie.Trie

/-! The node constructors of the traversals against the radix trie: splitting a leaf
or an extension, merging paths and collapsing a branch. -/
namespace Golib.MerklePatriciaTrie

open Function List Finset

open Radix (Forks branch compact compact_canonical empty ext grow isNil isNil_eq_false leaf
  lookup_compact lookup_ext_append lookup_grow_append lookup_grow_of_not seat splitExt
  splitExt_proper splitLeaf splitLeaf_proper update_vacant)

variable {kids : Nibble → Node}

section

variable {H : Bytes → Root} {K : Set Bytes} {t : Tree} {set : Option Content} {p front : Path}
  {tries : Nibble → Radix 16 Content} {v : Content} {n c : Node}

def Node.IsHash : Node → Prop
  | .hash _ => True
  | _ => False

/-- A node in memory for the trie, with the encodings it names. -/
structure Builds (keccak : Bytes → Root) (K : Set Bytes)
    (node : Node) (trie : Tree) (named : Multiset Bytes) : Prop where
  rep : Rep keccak K node trie
  inner : ¬ node.IsHash
  named : kept keccak node trie = named

variable (H K) in
theorem newLeaf_builds (short : p.length ≤ maxCompactPathNibbles) (v : Content) :
    ∃ n, newLeaf p v.val = .ok n ∧ Builds H K n (.leaf p v) 0 :=
  ⟨_, newLeaf_eq short v, .leaf p v, id, rfl⟩

theorem newBranch_builds {v : Option Content}
    (below : ∀ i, Rep H K (kids i) (tries i)) (forks : Forks tries v) :
    ∃ n, newBranch kids (contentBytes v) = .ok n ∧
      Builds H K n (.branch tries v) (∑ i, kept H (kids i) (tries i)) :=
  ⟨_, newBranch_eq (fun i => (below i).isNil_eq) forks, .branch v below, id, rfl⟩

theorem newExtension_builds (some : p ≠ []) (rep : Rep H K c t) (branching : t.IsBranch)
    (proper : t.Proper) (short : (ext p t).Short maxCompactPathNibbles) :
    ∃ n, newExtension p c = .ok n ∧ Builds H K n (.ext p t) (kept H c t) :=
  ⟨_, newExtension_eq some (short.path proper) (rep.opens branching), .extension rep, id, rfl⟩

theorem makeExtension_builds (some : p ≠ []) (rep : Rep H K c t) (inner : ¬ c.IsHash)
    (proper : t.Proper) (short : (grow p t).Short maxCompactPathNibbles) :
    ∃ n, makeExtension p c = .ok n ∧ Builds H K n (grow p t) (kept H c t) := by
  cases rep with
  | nil => exact absurd proper id
  | leaf rest v => exact newLeaf_builds H K short.leaf v
  | @extension rest c t below =>
    have merged : p ++ rest ≠ [] := by simp [some]
    exact newExtension_builds merged below proper.2.1 proper.2.2 short
  | branch v below =>
    rw [grow, if_neg some] at short ⊢
    exact newExtension_builds some (.branch v below) trivial proper short
  | hash st large => exact absurd trivial inner

theorem prependNibble_eq (nibble : Nibble) (c : Node) (inner : ¬ c.IsHash)
    (extension : ∀ p grandchild, c = .extension p grandchild → grandchild.Opens) :
    prependNibble nibble c = makeExtension [nibble] c := by
  cases c with
  | extension p grandchild =>
    have opens := extension p grandchild rfl
    cases grandchild with
    | branch | hash => rfl
    | nil | leaf | extension => exact absurd opens id
  | nil | leaf | branch => rfl
  | hash r => exact absurd trivial inner

/-! ### Sums over children -/

variable (H) in
theorem exists_rest (kids : Nibble → Node) (tries : Nibble → Tree) (i : Nibble) :
    ∃ rest, ∀ n t, ∑ j, kept H (update kids i n j) (update tries i t j) = kept H n t + rest := by
  refine ⟨∑ j ∈ univ.erase i, kept H (kids j) (tries j), fun n t => ?_⟩
  rw [← add_sum_erase _ _ (mem_univ i), update_self, update_self]
  congr 1
  apply sum_congr rfl
  intro j mem
  have ne := ne_of_mem_erase mem
  rw [update_of_ne ne, update_of_ne ne]

theorem kept_nil (t : Tree) : kept H .nil t = 0 := by
  cases t <;> rfl

theorem kept_leaf (p : Path) (v : Bytes) (t : Tree) : kept H (.leaf p v) t = 0 := by
  cases t <;> rfl

theorem update_rep {tries : Nibble → Tree}
    (below : ∀ i, Rep H K (kids i) (tries i)) (rep : Rep H K n t)
    (i j : Nibble) : Rep H K (update kids i n j) (update tries i t j) := by
  by_cases eq : j = i
  · subst eq
    rw [update_self, update_self]
    exact rep
  · rw [update_of_ne eq, update_of_ne eq]
    exact below j

theorem sum_single (i : Nibble) (n : Node) (t : Tree) :
    ∑ j, kept H (update (fun _ => Node.nil) i n j)
      (update (empty : Nibble → Tree) i t j) = kept H n t := by
  obtain ⟨rest, split⟩ := exists_rest H (fun _ => Node.nil) empty i
  have none := split .nil .nil
  rw [kept_nil, zero_add, update_eq_self_iff.mpr rfl] at none
  rw [split, ← none]
  simp [kept_nil]

/-! ### Insertion -/

theorem placeValue_builds {rest : Path} (below : ∀ i, Rep H K (kids i) (tries i)) (v : Content)
    (short : rest.length ≤ maxCompactPathNibbles)
    (vacant : ∀ i, rest.head? = some i → tries i = .nil) :
    ∃ children' tries' set', placeValue kids (contentBytes set) rest v.val =
        .ok (children', contentBytes set') ∧
      seat tries set v rest = .branch tries' set' ∧
      (∀ i, Rep H K (children' i) (tries' i)) ∧
      ∑ i, kept H (children' i) (tries' i) = ∑ i, kept H (kids i) (tries i) := by
  cases rest with
  | nil => exact ⟨kids, tries, some v, rfl, rfl, below, rfl⟩
  | cons i rest =>
    simp only [length_cons] at short
    refine ⟨_, _, set, ?_, rfl, update_rep below (.leaf rest v) i, ?_⟩
    · rw [placeValue, newLeaf_eq (by omega)]
      rfl
    · obtain ⟨others, split⟩ := exists_rest H kids tries i
      have before := split (kids i) (tries i)
      rw [update_eq_self, update_eq_self, vacant i rfl] at before
      have absent := below i
      rw [vacant i rfl] at absent
      have none : kept H (kids i) (.nil : Tree) = 0 := by
        cases nil : kids i with
        | hash r =>
          rw [nil] at absent
          cases absent with
          | hash st large => exact absurd st.proper id
        | nil | leaf | extension | branch => rfl
      rw [split, before, none, kept_leaf]

theorem fork_builds (below : ∀ i, Rep H K (kids i) (tries i)) (proper : (branch tries set).Proper)
    (short : (grow front (.branch tries set)).Short maxCompactPathNibbles) :
    ∃ branch n, newBranch kids (contentBytes set) = .ok branch ∧
      (if front.length = 0 then .ok branch else makeExtension front branch) = .ok n ∧
      Builds H K n (grow front (.branch tries set)) (∑ i, kept H (kids i) (tries i)) := by
  obtain ⟨branch, made, builds⟩ := newBranch_builds below proper.1
  by_cases none : front = []
  · subst none
    exact ⟨branch, branch, made, rfl, builds⟩
  · obtain ⟨n, extended, grown⟩ := makeExtension_builds none builds.rep builds.inner proper short
    refine ⟨branch, n, made, ?_, ?_⟩
    · rw [if_neg (by simpa using none), extended]
    · rw [← builds.named]
      exact grown

theorem extended_ok (report : NodeFault → Err) {branch : Node}
    (extended : (if front.length = 0 then .ok branch else makeExtension front branch) = .ok n) :
    (if front.length = 0 then .ok branch else (makeExtension front branch).mapError report) =
      .ok n := by
  split at extended
  · rename_i none
    rw [if_pos none, Except.ok.inj extended]
  · rename_i some
    rw [if_neg some, extended]
    rfl

variable (H K) in
theorem placeFirst_builds {rest : List Nibble} {other : Path} (value : Content)
    (short : rest.length ≤ maxCompactPathNibbles) (parted : Parted rest other) :
    ∃ kids tries set, placeValue (fun _ => .nil) [] rest value.val =
        .ok (kids, contentBytes set) ∧
      (∀ v, splitLeaf rest value other v = seat tries set v other) ∧
      (∀ i, Rep H K (kids i) (tries i)) ∧
      (∀ i, other.head? = some i → tries i = .nil) ∧
      ∑ i, kept H (kids i) (tries i) = 0 := by
  have bare : ∀ i : Nibble, Rep H K .nil ((empty : Nibble → Tree) i) := fun _ => .nil
  cases rest with
  | nil =>
    refine ⟨fun _ => .nil, empty, some value, rfl, fun _ => rfl, bare, fun _ _ => rfl, ?_⟩
    simp [kept_nil]
  | cons i rest =>
    simp only [length_cons] at short
    refine ⟨_, _, none, ?_, fun _ => rfl, update_rep bare (.leaf rest value) i,
      update_vacant parted, ?_⟩
    · rw [placeValue, newLeaf_eq (by omega)]
      rfl
    · rw [sum_single, kept_leaf]

theorem insertLeaf_builds {leafPath : Path} {leafValue : Content}
    (short : (leaf leafPath leafValue : Tree).Short maxCompactPathNibbles)
    (fits : p.length ≤ maxCompactPathNibbles) :
    ∃ n, insertLeaf leafPath leafValue.val p v.val = .ok n ∧
      Builds H K n ((leaf leafPath leafValue).insert p v) 0 := by
  have grown := short.insert v fits
  have pathShort := short.leaf
  obtain ⟨front, l, r, rfl, rfl, length, parted⟩ := commonLength_split leafPath p
  simp only [length_append] at fits pathShort
  unfold insertLeaf commonPrefixLength
  unfold Radix.insert at grown ⊢
  simp only [length, take_left, drop_left, length_append] at grown ⊢
  by_cases eq : l = r
  · subst eq
    have none : l = [] := by
      cases l with
      | nil => rfl
      | cons i l => exact absurd rfl (parted i rfl)
    subst none
    rw [if_pos ⟨by simp, by simp⟩, if_pos rfl, newLeaf_eq (by simpa using fits)]
    exact ⟨_, rfl, .leaf _ v, id, rfl⟩
  · have apart : ¬ front ++ l = front ++ r := fun h => eq (append_cancel_left h)
    rw [if_neg, if_neg apart]
    · rw [if_neg apart] at grown
      obtain ⟨first, tries, set, placed, split, below, vacant, named⟩ :=
        placeFirst_builds H K leafValue (by omega) parted
      obtain ⟨kids, tries', set', placed', shape, below', named'⟩ :=
        placeValue_builds below v (by omega) vacant
      have proper := splitLeaf_proper leafValue v parted eq
      rw [split, shape] at grown proper ⊢
      obtain ⟨branch, n, made, extended, builds⟩ := fork_builds below' proper grown
      refine ⟨n, ?_, ?_⟩
      · rw [placed]
        simp only [bind, Except.bind, Except.mapError, placed', unchecked, made]
        exact extended_ok _ extended
      · rw [named', named] at builds
        exact builds
    · rintro ⟨left, right⟩
      have leftNil : l = [] := eq_nil_of_length_eq_zero (by omega)
      have rightNil : r = [] := eq_nil_of_length_eq_zero (by omega)
      exact eq (leftNil.trans rightNil.symm)

theorem splitExtension_builds {i : Nibble} {l r : Path} (rep : Rep H K c t) (inner : ¬ c.IsHash)
    (branching : t.IsBranch) (proper : t.Proper) (parted : Parted (i :: l) r)
    (short : (ext (front ++ i :: l) t).Short maxCompactPathNibbles)
    (fits : (front ++ r).length ≤ maxCompactPathNibbles)
    (grown : (grow front (splitExt (i :: l) t r v)).Short maxCompactPathNibbles) :
    ∃ n, splitExtension (front ++ i :: l) c front.length (front ++ r) v.val = .ok n ∧
      Builds H K n (grow front (splitExt (i :: l) t r v)) (kept H c t) := by
  have shortBelow : (grow l t).Short maxCompactPathNibbles := by
    intro key found
    by_cases shared : l <+: key
    · obtain ⟨rest, rfl⟩ := shared
      have := short (front ++ i :: l ++ rest) (by
        rwa [lookup_ext_append, ← lookup_grow_append l])
      simp only [length_append, length_cons] at this ⊢
      omega
    · exact absurd (lookup_grow_of_not t shared) found
  have lower : ∃ below, shortenExtension l c = .ok below ∧
      Builds H K below (grow l t) (kept H c t) := by
    by_cases none : l = []
    · subst none
      refine ⟨c, rfl, ?_⟩
      cases t with
      | branch tries set => exact ⟨rep, inner, rfl⟩
      | nil | leaf | ext => exact absurd branching id
    · obtain ⟨below, made, builds⟩ := makeExtension_builds none rep inner proper shortBelow
      refine ⟨below, ?_, builds⟩
      rw [shortenExtension, if_neg (by simpa using none), made]
      rfl
  obtain ⟨below, made, builds⟩ := lower
  have bare : ∀ i : Nibble, Rep H K .nil ((empty : Nibble → Tree) i) := fun _ => .nil
  simp only [length_append] at fits
  obtain ⟨kids, tries, set, placed, shape, reps, named⟩ :=
    placeValue_builds (update_rep bare builds.rep i) v (by omega) (update_vacant parted)
  have split := splitExt_proper v proper parted
  rw [splitExt, shape] at grown split ⊢
  obtain ⟨branch, n, forked, extended, whole⟩ := fork_builds reps split grown
  refine ⟨n, ?_, ?_⟩
  · unfold splitExtension
    rw [drop_left, drop_left, take_left]
    simp only [made, bind, Except.bind]
    have placed' : placeValue (update (fun _ => Node.nil) i below) [] r v.val =
        .ok (kids, contentBytes set) := placed
    simp only [placed', Except.mapError, unchecked, forked]
    exact extended_ok _ extended
  · rw [named, sum_single, builds.named] at whole
    exact whole

/-! ### Deletion -/

theorem occupied_eq (below : ∀ i, Rep H K (kids i) (tries i)) :
    occupied Node.isNil kids = occupied isNil tries :=
  occupied_congr (fun i => (below i).isNil_eq)

theorem sum_occupied {digits : Path} (below : ∀ i, Rep H K (kids i) (tries i))
    (occupants : occupied isNil tries = digits) :
    ∑ i, kept H (kids i) (tries i) = ∑ i ∈ digits.toFinset, kept H (kids i) (tries i) := by
  symm
  apply sum_subset (subset_univ _)
  intro i _ absent
  rw [mem_toFinset, ← occupants, mem_occupied, ← (below i).isNil_eq] at absent
  have vacant : kids i = .nil := Node.isNil_eq_true.mp (by simpa using absent)
  rw [vacant, kept_nil]

theorem prependNibble_builds {i : Nibble} (rep : Rep H K c t) (inner : ¬ c.IsHash)
    (proper : t.Proper) (short : (grow [i] t).Short maxCompactPathNibbles) :
    ∃ n, prependNibble i c = .ok n ∧ Builds H K n (grow [i] t) (kept H c t) := by
  rw [prependNibble_eq i c inner]
  · exact makeExtension_builds (by simp) rep inner proper short
  · rintro p grandchild rfl
    cases rep with
    | extension below => exact below.opens proper.2.1

/-- A branch whose only child is in memory collapses as the radix trie does. -/
theorem compactBranch_builds (below : ∀ i, Rep H K (kids i) (tries i))
    (canon : ∀ i, (tries i).Canonical)
    (resolved : set = none → ∀ i, occupied isNil tries = [i] → ¬ (kids i).IsHash)
    (short : (branch tries set).Short maxCompactPathNibbles) :
    ∃ n, compactBranch kids (contentBytes set) = .ok n ∧
      Builds H K n (compact tries set) (∑ i, kept H (kids i) (tries i)) := by
  have shortCompact : (compact tries set).Short maxCompactPathNibbles := by
    intro key found
    rw [lookup_compact] at found
    exact short key found
  have proper : (compact tries set).Canonical := compact_canonical canon
  have eq := occupied_eq below
  unfold compactBranch
  unfold compact at shortCompact proper ⊢
  rw [eq]
  cases set with
  | some v =>
    have nonempty : (contentBytes (some v)).length ≠ 0 :=
      fun none => by cases length_contentBytes.mp none
    rw [if_pos nonempty]
    cases occupants : occupied isNil tries with
    | nil =>
      have shortest : ([] : Path).length ≤ maxCompactPathNibbles := Nat.zero_le _
      obtain ⟨n, made, builds⟩ := newLeaf_builds H K shortest v
      refine ⟨n, made, ?_⟩
      rw [sum_occupied below occupants]
      exact builds
    | cons i rest =>
      simp only [occupants] at proper
      exact newBranch_builds below (proper.proper (by simp)).1
  | none =>
    cases occupants : occupied isNil tries with
    | nil =>
      refine ⟨.nil, rfl, .nil, id, ?_⟩
      rw [sum_occupied below occupants]
      rfl
    | cons i rest =>
      cases rest with
      | nil =>
        simp only [occupants] at shortCompact
        have some : tries i ≠ .nil := isNil_eq_false.mp (mem_occupied.mp (by simp [occupants]))
        obtain ⟨n, made, builds⟩ := prependNibble_builds (below i) (resolved rfl i occupants)
          ((canon i).proper some) shortCompact
        refine ⟨n, made, ?_⟩
        rw [sum_occupied below occupants]
        simpa using builds
      | cons j rest =>
        simp only [occupants] at proper
        exact newBranch_builds below (proper.proper (by simp)).1

end

end Golib.MerklePatriciaTrie
