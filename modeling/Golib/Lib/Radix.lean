import Mathlib.Data.Finset.Lattice.Fold
import Mathlib.Data.Fintype.Basic

/-! Radix tries with compressed paths over an alphabet of `k` digits: lookup,
insertion and deletion as maps of keys, the shape they keep, and that a map has
only one trie of that shape. -/
namespace Golib

open List Function Option Finset

variable {α : Type} {k : Nat}

inductive Radix (k : Nat) (β : Type) where
  | nil
  | leaf (path : List (Fin k)) (value : β)
  | ext (path : List (Fin k)) (child : Radix k β)
  | branch (children : Fin k → Radix k β) (value : Option β)

/-- The number of leading digits two paths share. -/
def commonLength {α : Type} [DecidableEq α] : List α → List α → Nat
  | a :: left, b :: right => if a = b then commonLength left right + 1 else 0
  | _, _ => 0

/-- Two remainders that do not go on with the same digit. -/
def Parted {α : Type} (left right : List α) : Prop :=
  ∀ a, left.head? = some a → right.head? = some a → False

theorem commonLength_split [DecidableEq α] (left right : List α) :
    ∃ front l r, left = front ++ l ∧ right = front ++ r ∧
      commonLength left right = front.length ∧ Parted l r := by
  induction left generalizing right with
  | nil => exact ⟨[], [], right, rfl, rfl, rfl, by simp [Parted]⟩
  | cons a left ih =>
    cases right with
    | nil => exact ⟨[], a :: left, [], rfl, rfl, rfl, by simp [Parted]⟩
    | cons b right =>
      by_cases eq : a = b
      · obtain ⟨front, l, r, rfl, rfl, length, parted⟩ := ih right
        refine ⟨b :: front, l, r, ?_, rfl, ?_, parted⟩
        · rw [eq]
          rfl
        · simp [commonLength, eq, length]
      · refine ⟨[], a :: left, b :: right, rfl, rfl, ?_, ?_⟩
        · simp [commonLength, eq]
        · intro c hc hb
          cases hc
          exact eq (some.inj hb).symm

/-- The digits at which a family of tries is not empty. -/
def occupied {k : Nat} {α : Type} (isNil : α → Bool) (children : Fin k → α) : List (Fin k) :=
  (finRange k).filter (fun i => !isNil (children i))

theorem mem_occupied {isNil : α → Bool} {kids : Fin k → α} {i : Fin k} :
    i ∈ occupied isNil kids ↔ isNil (kids i) = false := by
  simp [occupied]

theorem occupied_congr {γ : Type} {isNil : α → Bool} {isNil' : γ → Bool} {kids : Fin k → α}
    {children' : Fin k → γ} (eq : ∀ i, isNil (kids i) = isNil' (children' i)) :
    occupied isNil kids = occupied isNil' children' := by
  simp only [occupied, eq]

theorem occupied_nodup (isNil : α → Bool) (kids : Fin k → α) : (occupied isNil kids).Nodup :=
  (nodup_finRange k).filter _

namespace Radix

variable {k n : Nat} {β : Type} {t s : Radix k β} {rest rest' : List (Fin k)} {i : Fin k}
  {P : Radix k β → Prop} {v : β}

def isNil : Radix k β → Bool
  | nil => true
  | _ => false

@[simp] theorem isNil_eq_true : t.isNil = true ↔ t = nil := by
  cases t <;> simp [isNil]

@[simp] theorem isNil_eq_false : t.isNil = false ↔ t ≠ nil := by
  cases t <;> simp [isNil]

variable {kids : Fin k → Radix k β}

theorem eq_nil_of_not_occupied (vacant : i ∉ occupied isNil kids) : kids i = nil := by
  by_contra some
  exact vacant (mem_occupied.mpr (isNil_eq_false.mpr some))

def lookup : Radix k β → List (Fin k) → Option β
  | nil, _ => none
  | leaf path value, key => if path = key then some value else none
  | ext path child, key => if path <+: key then child.lookup (key.drop path.length) else none
  | branch _ value, [] => value
  | branch children _, i :: key => (children i).lookup key

/-- The trie moved below a path, with compressed paths merged. -/
def grow (path : List (Fin k)) : Radix k β → Radix k β
  | nil => nil
  | leaf rest value => leaf (path ++ rest) value
  | ext rest child => ext (path ++ rest) child
  | branch children value =>
    if path = [] then branch children value else ext path (branch children value)

/-- A value seated at a remainder below a branching point. -/
def seat (children : Fin k → Radix k β) (value : Option β) (v : β) : List (Fin k) → Radix k β
  | [] => branch children (some v)
  | i :: rest => branch (update children i (leaf rest v)) value

def empty : Fin k → Radix k β := fun _ => nil

/-- The branching point of a leaf and a key that differs from it. -/
def splitLeaf (rest : List (Fin k)) (value : β) (rest' : List (Fin k)) (value' : β) : Radix k β :=
  match rest with
  | [] => seat empty (some value) value' rest'
  | i :: rest => seat (update empty i (leaf rest value)) none value' rest'

/-- The branching point of an extension and a key that leaves it early. -/
def splitExt (rest : List (Fin k)) (child : Radix k β) (rest' : List (Fin k)) (value' : β) :
    Radix k β :=
  match rest with
  | [] => child
  | i :: rest => seat (update empty i (grow rest child)) none value' rest'

def insert : Radix k β → List (Fin k) → β → Radix k β
  | nil, key, v => leaf key v
  | leaf path value, key, v =>
    if path = key then leaf key v
    else
      let n := commonLength path key
      grow (key.take n) (splitLeaf (path.drop n) value (key.drop n) v)
  | ext path child, key, v =>
    let n := commonLength path key
    if n = path.length then grow path (child.insert (key.drop n) v)
    else grow (key.take n) (splitExt (path.drop n) child (key.drop n) v)
  | branch children _, [], v => branch children (some v)
  | branch children value, i :: key, v =>
    branch (update children i ((children i).insert key v)) value

/-- A branching point in the shape its occupants call for. -/
def compact (children : Fin k → Radix k β) (value : Option β) : Radix k β :=
  match value, occupied isNil children with
  | some v, [] => leaf [] v
  | none, [] => nil
  | none, [i] => grow [i] (children i)
  | value, _ => branch children value

/-- The trie without a key; `none` when it does not hold the key. -/
def delete : Radix k β → List (Fin k) → Option (Radix k β)
  | nil, _ => none
  | leaf path _, key => if path = key then some nil else none
  | ext path child, key =>
    if path <+: key then (child.delete (key.drop path.length)).map (grow path) else none
  | branch children value, [] => value.map (fun _ => compact children none)
  | branch children value, i :: key =>
    ((children i).delete key).map (fun t => compact (update children i t) value)

/-! ### Lookup -/

@[simp] theorem lookup_nil (key : List (Fin k)) : (nil : Radix k β).lookup key = none := rfl

theorem lookup_leaf (p : List (Fin k)) (value : β) (key : List (Fin k)) :
    (leaf p value).lookup key = if p = key then some value else none := rfl

@[simp] theorem lookup_ext_append (p : List (Fin k)) (c : Radix k β) (rest : List (Fin k)) :
    (ext p c).lookup (p ++ rest) = c.lookup rest := by
  simp [lookup]

variable {key p : List (Fin k)} {t' : Radix k β}

theorem lookup_ext_of_not (c : Radix k β) (apart : ¬ p <+: key) : (ext p c).lookup key = none := by
  simp [lookup, apart]

theorem lookup_ext_below (front p : List (Fin k)) (c : Radix k β) (key : List (Fin k)) :
    (ext (front ++ p) c).lookup (front ++ key) = (ext p c).lookup key := by
  by_cases shared : p <+: key
  · obtain ⟨rest, rfl⟩ := shared
    rw [← append_assoc, lookup_ext_append, lookup_ext_append]
  · rw [lookup_ext_of_not c shared, lookup_ext_of_not]
    rwa [prefix_append_right_inj]

@[simp] theorem lookup_branch_nil (kids : Fin k → Radix k β) (value : Option β) :
    (branch kids value).lookup [] = value := rfl

@[simp] theorem lookup_branch_cons (kids : Fin k → Radix k β) (value : Option β) (i : Fin k)
    (key : List (Fin k)) : (branch kids value).lookup (i :: key) = (kids i).lookup key := rfl

@[simp] theorem lookup_grow_append (p : List (Fin k)) (t : Radix k β) (rest : List (Fin k)) :
    (grow p t).lookup (p ++ rest) = t.lookup rest := by
  cases t with
  | nil => rfl
  | leaf q v => simp [grow, lookup_leaf]
  | ext q c => exact lookup_ext_below p q c rest
  | branch c w =>
    by_cases short : p = []
    · rw [grow, if_pos short, short, nil_append]
    · rw [grow, if_neg short, lookup_ext_append]

theorem lookup_grow_of_not (t : Radix k β) (apart : ¬ p <+: key) :
    (grow p t).lookup key = none := by
  cases t with
  | nil => rfl
  | leaf q v =>
    rw [grow, lookup_leaf, if_neg]
    rintro rfl
    exact apart (prefix_append p q)
  | ext q c =>
    apply lookup_ext_of_not
    intro shared
    exact apart ((prefix_append p q).trans shared)
  | branch c w =>
    rw [grow, if_neg]
    · exact lookup_ext_of_not _ apart
    · rintro rfl
      exact apart nil_prefix

theorem lookup_grow_grow (i : Fin k) (rest : List (Fin k)) (t : Radix k β) (key : List (Fin k)) :
    (grow [i] (grow rest t)).lookup key = (ext (i :: rest) t).lookup key := by
  by_cases first : [i] <+: key
  · obtain ⟨key, rfl⟩ := first
    rw [lookup_grow_append]
    by_cases shared : rest <+: key
    · obtain ⟨key, rfl⟩ := shared
      rw [lookup_grow_append]
      exact (lookup_ext_append (i :: rest) t key).symm
    · rw [lookup_grow_of_not t shared, lookup_ext_of_not]
      simpa using shared
  · rw [lookup_grow_of_not _ first, lookup_ext_of_not]
    intro shared
    exact first ((prefix_append [i] rest).trans shared)

theorem lookup_update_cons (kids : Fin k → Radix k β) (value : Option β) (i : Fin k)
    (t : Radix k β) (j : Fin k) (key : List (Fin k)) :
    (branch (update kids i t) value).lookup (j :: key) =
      if j = i then t.lookup key else (kids j).lookup key := by
  rw [lookup_branch_cons, update_apply, apply_ite lookup, ite_apply]

theorem lookup_seat (kids : Fin k → Radix k β) (value : Option β) (v : β)
    (rest key : List (Fin k)) (vacant : ∀ i, rest.head? = some i → kids i = nil) :
    (seat kids value v rest).lookup key =
      if key = rest then some v else (branch kids value).lookup key := by
  cases rest with
  | nil =>
    cases key with
    | nil | cons => simp [seat]
  | cons i rest =>
    cases key with
    | nil => simp [seat]
    | cons j key =>
      rw [seat, lookup_update_cons]
      by_cases eq : j = i
      · rw [eq, lookup_branch_cons, vacant i rfl, lookup_leaf, lookup_nil]
        simp [eq_comm]
      · rw [if_neg eq, if_neg (by simp [eq]), lookup_branch_cons]

theorem lookup_empty (value : Option β) (key : List (Fin k)) :
    (branch empty value).lookup key = if key = [] then value else none := by
  cases key <;> rfl

theorem lookup_single (i : Fin k) (t : Radix k β) (key : List (Fin k)) :
    (branch (update empty i t) none).lookup key = (grow [i] t).lookup key := by
  cases key with
  | nil =>
    rw [lookup_branch_nil, lookup_grow_of_not]
    simp
  | cons j key =>
    rw [lookup_update_cons]
    by_cases eq : j = i
    · rw [if_pos eq, eq]
      exact (lookup_grow_append [i] t key).symm
    · rw [if_neg eq, lookup_grow_of_not]
      · rfl
      · simp [cons_prefix_cons, Ne.symm eq]

theorem update_vacant (parted : Parted (i :: rest) rest') (j : Fin k)
    (head : rest'.head? = some j) :
    update (empty : Fin k → Radix k β) i t j = nil := by
  have apart : j ≠ i := by
    rintro rfl
    exact parted j rfl head
  exact update_of_ne apart t empty

theorem lookup_splitLeaf (value v : β) (key : List (Fin k)) (parted : Parted rest rest')
    (ne : rest ≠ rest') :
    (splitLeaf rest value rest' v).lookup key =
      if key = rest' then some v else (leaf rest value).lookup key := by
  cases rest with
  | nil =>
    rw [splitLeaf, lookup_seat empty _ _ _ _ fun _ _ => rfl, lookup_empty, lookup_leaf]
    simp [eq_comm]
  | cons i rest =>
    rw [splitLeaf, lookup_seat _ _ _ _ _ (update_vacant parted), lookup_single]
    rfl

theorem lookup_splitExt (c : Radix k β) (v : β) (key : List (Fin k))
    (parted : Parted (i :: rest) rest') :
    (splitExt (i :: rest) c rest' v).lookup key =
      if key = rest' then some v else (ext (i :: rest) c).lookup key := by
  rw [splitExt, lookup_seat _ _ _ _ _ (update_vacant parted), lookup_single, lookup_grow_grow]

theorem lookup_grow_set {front : List (Fin k)}
    (set : ∀ key, s.lookup key = if key = rest then some v else t.lookup (front ++ key))
    (shared : ∀ key, ¬ front <+: key → t.lookup key = none) (key : List (Fin k)) :
    (grow front s).lookup key = if key = front ++ rest then some v else t.lookup key := by
  by_cases sub : front <+: key
  · obtain ⟨key, rfl⟩ := sub
    rw [lookup_grow_append, set]
    simp
  · rw [lookup_grow_of_not s sub, shared key sub, if_neg]
    rintro rfl
    exact sub (prefix_append front rest)

theorem lookup_insert (t : Radix k β) (key : List (Fin k)) (v : β) (key' : List (Fin k)) :
    (t.insert key v).lookup key' = if key' = key then some v else t.lookup key' := by
  induction t generalizing key key' with
  | nil => simp [insert, lookup_leaf, eq_comm]
  | leaf p value =>
    unfold insert
    split
    · rename_i eq
      rw [eq, lookup_leaf, lookup_leaf]
      by_cases found : key = key'
      · rw [if_pos found, if_pos found.symm]
      · rw [if_neg found, if_neg (Ne.symm found), if_neg found]
    · rename_i ne
      obtain ⟨front, l, r, rfl, rfl, length, parted⟩ := commonLength_split p key
      simp only [length, take_left, drop_left]
      have apart : l ≠ r := fun eq => ne (congrArg _ eq)
      refine lookup_grow_set (fun rest => ?_) (fun rest outside => ?_) key'
      · rw [lookup_splitLeaf value v rest parted apart]
        simp [lookup_leaf]
      · rw [lookup_leaf, if_neg]
        rintro rfl
        exact outside (prefix_append front l)
  | ext p c ih =>
    obtain ⟨front, l, r, rfl, rfl, length, parted⟩ := commonLength_split p key
    simp only [insert, length, take_left, drop_left, length_append]
    split
    · rename_i whole
      have none : l = [] := eq_nil_of_length_eq_zero (by omega)
      rw [none, append_nil]
      refine lookup_grow_set (fun rest => ?_) (fun rest => lookup_ext_of_not c) key'
      rw [ih, lookup_ext_append]
    · rename_i short
      cases l with
      | nil => simp at short
      | cons i l =>
        refine lookup_grow_set (fun rest => ?_) (fun rest outside => lookup_ext_of_not _ ?_) key'
        · rw [lookup_splitExt c v rest parted, lookup_ext_below]
        · intro whole
          exact outside ((prefix_append front (i :: l)).trans whole)
  | branch kids value ih =>
    cases key with
    | nil => cases key' <;> simp [insert]
    | cons i key =>
      cases key' with
      | nil => simp [insert]
      | cons j key' =>
        rw [insert, lookup_update_cons]
        by_cases eq : j = i
        · rw [if_pos eq, ih, eq, lookup_branch_cons]
          simp
        · rw [if_neg eq, if_neg (by simp [eq]), lookup_branch_cons]

theorem lookup_compact (kids : Fin k → Radix k β) (value : Option β) (key : List (Fin k)) :
    (compact kids value).lookup key = (branch kids value).lookup key := by
  unfold compact
  split
  · rename_i v none
    cases key with
    | nil => simp [lookup_leaf]
    | cons j key =>
      have vacant : kids j = nil := eq_nil_of_not_occupied (by simp [none])
      simp [lookup_leaf, vacant]
  · rename_i none
    cases key with
    | nil => rfl
    | cons j key =>
      have vacant : kids j = nil := eq_nil_of_not_occupied (by simp [none])
      simp [vacant]
  · rename_i i only
    cases key with
    | nil =>
      rw [lookup_grow_of_not]
      · rfl
      · simp
    | cons j key =>
      by_cases eq : j = i
      · rw [eq]
        exact lookup_grow_append [i] (kids i) key
      · have vacant : kids j = nil := eq_nil_of_not_occupied (by simp [only, eq])
        rw [lookup_grow_of_not, lookup_branch_cons, vacant, lookup_nil]
        simp [Ne.symm eq]
  · rfl

theorem lookup_delete (deleted : t.delete key = some t') (key' : List (Fin k)) :
    t'.lookup key' = if key' = key then none else t.lookup key' := by
  induction t generalizing t' key key' with
  | nil => cases deleted
  | leaf p value =>
    unfold delete at deleted
    split at deleted
    · rename_i eq
      cases deleted
      rw [← eq, lookup_leaf]
      by_cases found : p = key'
      · rw [if_pos found.symm]
        rfl
      · rw [if_neg (Ne.symm found), if_neg found]
        rfl
    · cases deleted
  | ext p child ih =>
    unfold delete at deleted
    split at deleted
    · rename_i shared
      obtain ⟨rest, rfl⟩ := shared
      rw [drop_left, map_eq_some_iff] at deleted
      obtain ⟨c, below, rfl⟩ := deleted
      by_cases shared' : p <+: key'
      · obtain ⟨rest', rfl⟩ := shared'
        rw [lookup_grow_append, ih below, lookup_ext_append]
        simp
      · rw [lookup_grow_of_not _ shared', lookup_ext_of_not _ shared']
        simp
    · cases deleted
  | branch kids value ih =>
    cases key with
    | nil =>
      obtain ⟨v, -, rfl⟩ := map_eq_some_iff.mp deleted
      rw [lookup_compact]
      cases key' <;> simp
    | cons i key =>
      obtain ⟨t, below, rfl⟩ := map_eq_some_iff.mp deleted
      rw [lookup_compact]
      cases key' with
      | nil => simp
      | cons j key' =>
        rw [lookup_update_cons]
        by_cases eq : j = i
        · rw [if_pos eq, ih i below, eq, lookup_branch_cons]
          simp
        · rw [if_neg eq, if_neg (by simp [eq]), lookup_branch_cons]

theorem delete_eq_none_iff : t.delete key = none ↔ t.lookup key = none := by
  induction t generalizing key with
  | nil => simp [delete]
  | leaf p value =>
    rw [delete, lookup_leaf]
    split <;> simp
  | ext p c ih =>
    rw [delete, lookup]
    split
    · rw [map_eq_none_iff, ih]
    · simp
  | branch kids value ih =>
    cases key with
    | nil => rw [delete, map_eq_none_iff, lookup_branch_nil]
    | cons i key => rw [delete, map_eq_none_iff, lookup_branch_cons, ih]

/-! ### Shape -/

def Forks (children : Fin k → Radix k β) (value : Option β) : Prop :=
  (∃ i j, i ≠ j ∧ children i ≠ nil ∧ children j ≠ nil) ∨ (value ≠ none ∧ ∃ i, children i ≠ nil)

def IsBranch : Radix k β → Prop
  | branch _ _ => True
  | _ => False

/-- A trie with a key whose paths are as long as they can be. -/
def Proper : Radix k β → Prop
  | nil => False
  | leaf _ _ => True
  | ext path child => path ≠ [] ∧ child.IsBranch ∧ child.Proper
  | branch children value => Forks children value ∧ ∀ i, children i ≠ nil → (children i).Proper

def Canonical (t : Radix k β) : Prop := t = nil ∨ t.Proper

theorem Proper.ne_nil (proper : t.Proper) : t ≠ nil := by
  rintro rfl
  exact proper

theorem Canonical.proper (canon : t.Canonical) (some : t ≠ nil) : t.Proper :=
  canon.resolve_left some

variable {value : Option β} {c : Radix k β}

theorem Proper.child (proper : (branch kids value).Proper) (i : Fin k) : (kids i).Canonical := by
  by_cases vacant : kids i = nil
  · exact Or.inl vacant
  · exact Or.inr (proper.2 i vacant)

theorem grow_proper (p : List (Fin k)) (proper : t.Proper) : (grow p t).Proper := by
  cases t with
  | nil => exact proper
  | leaf rest v => trivial
  | ext rest c =>
    refine ⟨?_, proper.2⟩
    intro none
    exact proper.1 (append_eq_nil_iff.mp none).2
  | branch c w =>
    by_cases short : p = []
    · rw [grow, if_pos short]
      exact proper
    · rw [grow, if_neg short]
      exact ⟨short, trivial, proper⟩

theorem grow_canonical (p : List (Fin k)) (canon : t.Canonical) : (grow p t).Canonical := by
  rcases canon with rfl | proper
  · exact Or.inl rfl
  · exact Or.inr (grow_proper p proper)

theorem seat_proper (canon : ∀ i, (kids i).Canonical)
    (other : (∃ i, kids i ≠ nil ∧ rest.head? ≠ some i) ∨ (value ≠ none ∧ rest ≠ [])) :
    (seat kids value v rest).Proper := by
  cases rest with
  | nil =>
    obtain ⟨i, occupant, -⟩ := other.resolve_right (by simp)
    exact ⟨Or.inr ⟨by simp, i, occupant⟩, fun j => (canon j).proper⟩
  | cons i rest =>
    have self : update kids i (leaf rest v) i ≠ nil := by simp
    refine ⟨?_, ?_⟩
    · rcases other with ⟨j, occupant, apart⟩ | ⟨set, -⟩
      · have ne : j ≠ i := by
          rintro rfl
          exact apart rfl
        refine Or.inl ⟨i, j, Ne.symm ne, self, ?_⟩
        rwa [update_of_ne ne]
      · exact Or.inr ⟨set, i, self⟩
    · refine (forall_update_iff kids fun _ t => t ≠ nil → t.Proper).mpr ?_
      exact ⟨fun _ => trivial, fun j _ => (canon j).proper⟩

theorem update_canonical (others : ∀ j, (kids j).Canonical) (canon : t.Canonical)
    (j : Fin k) : (update kids i t j).Canonical :=
  (forall_update_iff kids fun _ => Canonical).mpr ⟨canon, fun j _ => others j⟩ j

theorem splitLeaf_proper (value v : β) (parted : Parted rest rest') (ne : rest ≠ rest') :
    (splitLeaf rest value rest' v).Proper := by
  cases rest with
  | nil =>
    apply seat_proper
    · intro i
      exact Or.inl rfl
    · exact Or.inr ⟨by simp, Ne.symm ne⟩
  | cons i rest =>
    apply seat_proper (update_canonical (t := leaf rest value) (fun _ => Or.inl rfl)
      (Or.inr trivial))
    refine Or.inl ⟨i, by simp, ?_⟩
    intro head
    exact parted i rfl head

theorem splitExt_proper (v : β) (proper : c.Proper) (parted : Parted (i :: rest) rest') :
    (splitExt (i :: rest) c rest' v).Proper := by
  have grown := grow_proper rest proper
  apply seat_proper (update_canonical (fun _ => Or.inl rfl) (Or.inr grown))
  refine Or.inl ⟨i, ?_, ?_⟩
  · rw [update_self]
    exact grown.ne_nil
  · intro head
    exact parted i rfl head

theorem insert_proper (canon : t.Canonical) (key : List (Fin k)) (v : β) :
    (t.insert key v).Proper := by
  induction t generalizing key with
  | nil => trivial
  | leaf p value =>
    unfold insert
    split
    · trivial
    · rename_i ne
      obtain ⟨front, l, r, rfl, rfl, length, parted⟩ := commonLength_split p key
      simp only [length, take_left, drop_left]
      apply grow_proper
      apply splitLeaf_proper value v parted
      rintro rfl
      exact ne rfl
  | ext p c ih =>
    obtain ⟨-, -, proper⟩ := canon.proper (by simp)
    unfold insert
    obtain ⟨front, l, r, rfl, rfl, length, parted⟩ := commonLength_split p key
    simp only [length, take_left, drop_left]
    split
    · exact grow_proper _ (ih (Or.inr proper) r)
    · rename_i short
      cases l with
      | nil => simp at short
      | cons i l => exact grow_proper front (splitExt_proper v proper parted)
  | branch kids value ih =>
    have proper := canon.proper (by simp)
    cases key with
    | nil =>
      refine ⟨?_, proper.2⟩
      rcases proper.1 with ⟨i, -, -, occupant, -⟩ | ⟨-, i, occupant⟩
      · exact Or.inr ⟨by simp, i, occupant⟩
      · exact Or.inr ⟨by simp, i, occupant⟩
    | cons i key =>
      have below := ih i (proper.child i) key
      have grew : ∀ j, kids j ≠ nil → update kids i ((kids i).insert key v) j ≠ nil := by
        intro j occupant
        by_cases eq : j = i
        · rw [eq, update_self]
          exact below.ne_nil
        · rwa [update_of_ne eq]
      refine ⟨?_, ?_⟩
      · rcases proper.1 with ⟨a, b, ne, left, right⟩ | ⟨set, a, occupant⟩
        · exact Or.inl ⟨a, b, ne, grew a left, grew b right⟩
        · exact Or.inr ⟨set, a, grew a occupant⟩
      · exact fun j => (update_canonical proper.child (Or.inr below) j).proper

theorem compact_canonical (canon : ∀ i, (kids i).Canonical) : (compact kids value).Canonical := by
  have below : ∀ i, kids i ≠ nil → (kids i).Proper := fun i => (canon i).proper
  have mem : ∀ i, i ∈ occupied isNil kids → kids i ≠ nil :=
    fun i h => isNil_eq_false.mp (mem_occupied.mp h)
  unfold compact
  split
  · exact Or.inr trivial
  · exact Or.inl rfl
  · exact grow_canonical _ (canon _)
  · rename_i value _ _ vacant unoccupied lone
    refine Or.inr ⟨?_, below⟩
    cases found : occupied isNil kids with
    | nil =>
      cases value with
      | none => exact absurd found (unoccupied rfl)
      | some v => exact absurd found (vacant v rfl)
    | cons i rest =>
      have first := mem i (by simp [found])
      cases value with
      | some v => exact Or.inr ⟨by simp, i, first⟩
      | none =>
        cases rest with
        | nil => exact absurd found (lone i rfl)
        | cons j rest =>
          have distinct := occupied_nodup isNil kids
          rw [found] at distinct
          refine Or.inl ⟨i, j, ?_, first, mem j (by simp [found])⟩
          rintro rfl
          simp at distinct

theorem delete_canonical (canon : t.Canonical)
    (deleted : t.delete key = some t') : t'.Canonical := by
  induction t generalizing t' key with
  | nil => cases deleted
  | leaf p value =>
    unfold delete at deleted
    split at deleted
    · cases deleted
      exact Or.inl rfl
    · cases deleted
  | ext p child ih =>
    unfold delete at deleted
    split at deleted
    · obtain ⟨c, below, rfl⟩ := map_eq_some_iff.mp deleted
      exact grow_canonical p (ih (Or.inr (canon.proper (by simp)).2.2) below)
    · cases deleted
  | branch kids value ih =>
    have proper := canon.proper (by simp)
    cases key with
    | nil =>
      obtain ⟨v, -, rfl⟩ := map_eq_some_iff.mp deleted
      exact compact_canonical proper.child
    | cons i key =>
      obtain ⟨t, below, rfl⟩ := map_eq_some_iff.mp deleted
      exact compact_canonical (update_canonical proper.child (ih i (proper.child i) below))

theorem Forks.count (forks : Forks kids value) :
    0 < (occupied isNil kids).length ∧ (value = none → 2 ≤ (occupied isNil kids).length) := by
  have mem : ∀ i, kids i ≠ nil → i ∈ occupied isNil kids :=
    fun i some => mem_occupied.mpr (isNil_eq_false.mpr some)
  rcases forks with ⟨i, j, ne, left, right⟩ | ⟨set, i, occupant⟩
  · have two : 2 ≤ (occupied isNil kids).length := by
      have pair : [i, j].Nodup := by simp [ne]
      apply (subperm_of_subset pair ?_).length_le
      intro a ha
      rcases mem_pair.mp ha with rfl | rfl
      · exact mem a left
      · exact mem a right
    exact ⟨by omega, fun _ => two⟩
  · exact ⟨length_pos_of_mem (mem i occupant), fun unset => absurd unset set⟩

/-! ### Length of keys -/

def Short (n : Nat) (t : Radix k β) : Prop := ∀ key, t.lookup key ≠ none → key.length ≤ n

theorem short_nil (n : Nat) : (nil : Radix k β).Short n := by
  intro key found
  exact absurd rfl found

theorem Short.leaf {p : List (Fin k)} (short : (leaf p v).Short n) : p.length ≤ n :=
  short p (by simp [lookup_leaf])

theorem Short.child (short : (branch kids value).Short n) (i : Fin k) : (kids i).Short n := by
  intro key found
  have := short (i :: key) found
  simp only [length_cons] at this
  omega

theorem Short.below {c : Radix k β} (short : (ext p c).Short n) : c.Short n := by
  intro key found
  have := short (p ++ key) (by rwa [lookup_ext_append])
  simp only [length_append] at this
  omega

theorem Short.insert (short : t.Short n) (v : β) (fits : key.length ≤ n) :
    (t.insert key v).Short n := by
  intro key' found
  rw [lookup_insert] at found
  split at found
  · rename_i eq
    rwa [eq]
  · exact short key' found

theorem Short.delete (short : t.Short n) (deleted : t.delete key = some t') : t'.Short n := by
  intro key' found
  rw [lookup_delete deleted] at found
  split at found
  · exact absurd rfl found
  · exact short key' found

/-! ### Subtries -/

/-- A property of every subtrie that is not empty, the trie itself included. -/
def Every (P : Radix k β → Prop) : Radix k β → Prop
  | nil => True
  | leaf path value => P (leaf path value)
  | ext path child => P (ext path child) ∧ child.Every P
  | branch children value => P (branch children value) ∧ ∀ i, (children i).Every P

theorem every_of_forall (holds : ∀ t, P t) (t : Radix k β) : t.Every P := by
  induction t with
  | nil => trivial
  | leaf p value => exact holds _
  | ext p c ih => exact ⟨holds _, ih⟩
  | branch kids value ih => exact ⟨holds _, ih⟩

theorem Every.here (every : t.Every P) (some : t ≠ nil) : P t := by
  cases t with
  | nil => exact absurd rfl some
  | leaf p value => exact every
  | ext | branch => exact every.1

def Below (s : Radix k β) : Radix k β → Prop
  | nil => False
  | leaf _ _ => False
  | ext _ child => s = child ∨ Below s child
  | branch children _ => ∃ i, s = children i ∨ Below s (children i)

def height : Radix k β → Nat
  | nil => 0
  | leaf _ _ => 0
  | ext _ child => child.height + 1
  | branch children _ => (univ.sup fun i => (children i).height) + 1

theorem Below.height_lt (below : Below s t) : s.height < t.height := by
  induction t with
  | nil | leaf => exact absurd below id
  | ext p c ih =>
    rcases below with rfl | deeper
    · exact Nat.lt_succ_self _
    · exact Nat.lt_succ_of_lt (ih deeper)
  | branch kids value ih =>
    obtain ⟨i, here | deeper⟩ := below
    · subst here
      exact Nat.lt_succ_of_le (le_sup (f := fun i => (kids i).height) (mem_univ i))
    · exact Nat.lt_succ_of_le (Nat.le_trans (Nat.le_of_lt (ih i deeper))
        (le_sup (f := fun i => (kids i).height) (mem_univ i)))

theorem Below.ne (below : Below s t) : s ≠ t := by
  rintro rfl
  exact Nat.lt_irrefl _ below.height_lt

/-! ### One trie for each map -/

theorem Proper.exists_key (proper : t.Proper) : ∃ key v, t.lookup key = some v := by
  induction t with
  | nil => exact absurd proper id
  | leaf p value => exact ⟨p, value, by simp [lookup_leaf]⟩
  | ext p c ih =>
    obtain ⟨key, v, found⟩ := ih proper.2.2
    exact ⟨p ++ key, v, by rw [lookup_ext_append, found]⟩
  | branch kids value ih =>
    have c : ∃ i, kids i ≠ nil := by
      rcases proper.1 with ⟨i, -, -, occupant, -⟩ | ⟨-, occupant⟩
      · exact ⟨i, occupant⟩
      · exact occupant
    obtain ⟨i, occupant⟩ := c
    obtain ⟨key, v, found⟩ := ih i (proper.2 i occupant)
    exact ⟨i :: key, v, found⟩

theorem Short.path {p : List (Fin k)} {c : Radix k β} (short : (ext p c).Short n)
    (proper : c.Proper) : p.length ≤ n := by
  obtain ⟨key, v, found⟩ := proper.exists_key
  have := short (p ++ key) (by simp [found])
  simp only [length_append] at this
  omega

/-- A proper branching point has two keys that share no digit. -/
theorem Proper.diverges (proper : t.Proper) (branching : t.IsBranch) :
    ∃ left right, t.lookup left ≠ none ∧ t.lookup right ≠ none ∧ left ≠ right ∧
      ∀ front, front <+: left → front <+: right → front = [] := by
  cases t with
  | nil | leaf | ext => exact absurd branching id
  | branch kids value =>
    have key : ∀ i, kids i ≠ nil → ∃ rest, (kids i).lookup rest ≠ none := by
      intro i occupant
      obtain ⟨rest, v, found⟩ := (proper.2 i occupant).exists_key
      exact ⟨rest, by simp [found]⟩
    rcases proper.1 with ⟨i, j, ne, hi, hj⟩ | ⟨set, i, hi⟩
    · obtain ⟨left, foundLeft⟩ := key i hi
      obtain ⟨right, foundRight⟩ := key j hj
      refine ⟨i :: left, j :: right, foundLeft, foundRight, ?_, ?_⟩
      · intro eq
        exact ne (cons.inj eq).1
      · intro front onLeft onRight
        cases front with
        | nil => rfl
        | cons a front =>
          have first := (cons_prefix_cons.mp onLeft).1
          exact absurd (first.symm.trans (cons_prefix_cons.mp onRight).1) ne
    · obtain ⟨right, found⟩ := key i hi
      refine ⟨[], i :: right, set, found, by simp, ?_⟩
      intro front onLeft _
      exact prefix_nil.mp onLeft

theorem ext_shared (found : (ext p c).lookup key ≠ none) : p <+: key := by
  by_contra apart
  exact found (lookup_ext_of_not c apart)

theorem Proper.delete_ne_nil (proper : t.Proper) (branching : t.IsBranch)
    (deleted : t.delete key = some t') : t' ≠ nil := by
  obtain ⟨left, right, foundLeft, foundRight, ne, -⟩ := proper.diverges branching
  have rest := lookup_delete deleted
  rintro rfl
  by_cases first : left = key
  · have := rest right
    rw [if_neg (fun eq => ne (first.trans eq.symm))] at this
    exact foundRight this.symm
  · have := rest left
    rw [if_neg first] at this
    exact foundLeft this.symm

theorem ext_longest {p front : List (Fin k)} {c : Radix k β} (branching : c.IsBranch)
    (proper : c.Proper)
    (shared : ∀ key, (ext p c).lookup key ≠ none → front <+: key) : front <+: p := by
  obtain ⟨left, right, foundLeft, foundRight, -, apart⟩ := proper.diverges branching
  have onLeft := shared (p ++ left) (by rwa [lookup_ext_append])
  have onRight := shared (p ++ right) (by rwa [lookup_ext_append])
  rcases prefix_or_prefix_of_prefix onLeft (prefix_append p left) with sub | beyond
  · exact sub
  · obtain ⟨rest, rfl⟩ := beyond
    rw [prefix_append_right_inj] at onLeft onRight
    rw [apart rest onLeft onRight, append_nil]

theorem Proper.two_keys (proper : t.Proper) (inner : ∀ p v, t ≠ leaf p v) :
    ∃ left right, t.lookup left ≠ none ∧ t.lookup right ≠ none ∧ left ≠ right := by
  cases t with
  | nil => exact absurd proper id
  | leaf p v => exact absurd rfl (inner p v)
  | branch kids value =>
    obtain ⟨left, right, foundLeft, foundRight, ne, -⟩ := proper.diverges trivial
    exact ⟨left, right, foundLeft, foundRight, ne⟩
  | ext p c =>
    obtain ⟨-, branching, below⟩ := proper
    obtain ⟨left, right, foundLeft, foundRight, ne, -⟩ := below.diverges branching
    refine ⟨p ++ left, p ++ right, ?_, ?_, ?_⟩
    · rwa [lookup_ext_append]
    · rwa [lookup_ext_append]
    · intro eq
      exact ne (append_cancel_left eq)

theorem leaf_unique (proper : t.Proper)
    (eq : ∀ key, (leaf p v).lookup key = t.lookup key) : t = leaf p v := by
  have key : ∀ key, t.lookup key ≠ none → key = p := by
    intro key found
    rw [← eq, lookup_leaf] at found
    by_contra ne
    exact found (if_neg (Ne.symm ne))
  by_cases inner : ∀ p v, t ≠ leaf p v
  · obtain ⟨left, right, foundLeft, foundRight, ne⟩ := proper.two_keys inner
    exact absurd ((key left foundLeft).trans (key right foundRight).symm) ne
  · push Not at inner
    obtain ⟨path', v', rfl⟩ := inner
    have found : (leaf path' v').lookup path' = some v' := by simp [lookup_leaf]
    have there := key path' (by simp [found])
    rw [← eq, there, lookup_leaf, if_pos rfl] at found
    rw [there, some.inj found]

theorem branch_not_ext (proper : (branch kids value).Proper) (long : p ≠ [])
    (eq : ∀ key, (branch kids value).lookup key = (ext p c).lookup key) : False := by
  obtain ⟨left, right, foundLeft, foundRight, -, apart⟩ := proper.diverges trivial
  rw [eq] at foundLeft foundRight
  exact long (apart p (ext_shared foundLeft) (ext_shared foundRight))

theorem Canonical.unique_of (canon : t.Canonical) (canon' : t'.Canonical)
    (eq : ∀ key, t.lookup key = t'.lookup key) (unique : t.Proper → t'.Proper → t = t') :
    t = t' := by
  rcases canon with rfl | proper
  · rcases canon' with rfl | proper'
    · rfl
    · obtain ⟨key, v, found⟩ := proper'.exists_key
      cases (eq key).trans found
  · rcases canon' with rfl | proper'
    · obtain ⟨key, v, found⟩ := proper.exists_key
      cases (eq key).symm.trans found
    · exact unique proper proper'

/-- A map of keys has one proper trie. -/
theorem Proper.unique (proper : t.Proper) (proper' : t'.Proper)
    (eq : ∀ key, t.lookup key = t'.lookup key) : t = t' := by
  induction t generalizing t' with
  | nil => exact absurd proper id
  | leaf p v => exact (leaf_unique proper' eq).symm
  | ext p c ih =>
    cases t' with
    | nil => exact absurd proper' id
    | leaf path' v => exact leaf_unique proper (fun key => (eq key).symm)
    | branch kids value =>
      exact absurd (fun key => (eq key).symm) (branch_not_ext proper' proper.1)
    | ext path' child' =>
      have shorter : p <+: path' := ext_longest proper'.2.1 proper'.2.2 (by
        intro key found
        rw [← eq] at found
        exact ext_shared found)
      have longer : path' <+: p := ext_longest proper.2.1 proper.2.2 (by
        intro key found
        rw [eq] at found
        exact ext_shared found)
      have path_eq : p = path' := shorter.eq_of_length (by
        have := shorter.length_le
        have := longer.length_le
        omega)
      subst path_eq
      rw [ih proper.2.2 proper'.2.2]
      intro key
      have below := eq (p ++ key)
      rwa [lookup_ext_append, lookup_ext_append] at below
  | branch kids value ih =>
    cases t' with
    | nil => exact absurd proper' id
    | leaf path' v => exact leaf_unique proper (fun key => (eq key).symm)
    | ext p c => exact absurd eq (branch_not_ext proper proper'.1)
    | branch children' value' =>
      have value_eq : value = value' := eq []
      have children_eq : kids = children' := by
        funext i
        have below : ∀ key, (kids i).lookup key = (children' i).lookup key :=
          fun key => eq (i :: key)
        exact (proper.child i).unique_of (proper'.child i) below
          fun occupied occupied' => ih i occupied occupied' below
      rw [value_eq, children_eq]

theorem Canonical.unique (canon : t.Canonical) (canon' : t'.Canonical)
    (eq : ∀ key, t.lookup key = t'.lookup key) : t = t' :=
  canon.unique_of canon' eq fun proper proper' => proper.unique proper' eq

end Radix

end Golib
