import Golib.MerklePatriciaTrie.Stored

/-! Sizes of node encodings: a trie whose keys and values are not too long has no node that
exceeds the limits of the codec. -/
namespace Golib.MerklePatriciaTrie

open Rlp.Value List Nat

namespace Rlp

variable {es : List Rlp.Value}

theorem length_string (bs : Bytes) : (Value.string bs).bytes.length ≤ bs.length + 9 := by
  rw [Value.bytes]
  split
  · exact le_add_right _ _
  · exact (length_frame _ _ _).2

mutual

theorem levels_le_items : ∀ v : Value, v.levels ≤ v.items
  | .string _ => le_refl 1
  | .list es => succ_le_succ (levelsIn_le_itemsIn es)

theorem levelsIn_le_itemsIn : ∀ elements : List Value,
    Value.levelsIn elements ≤ Value.itemsIn elements
  | [] => le_refl 0
  | child :: rest => by
    have first := levels_le_items child
    have others := levelsIn_le_itemsIn rest
    rw [Value.levelsIn, Value.itemsIn]
    omega

end

theorem payload_concat (es : List Value) (last : Value) :
    (Value.payload (es ++ [last])).length = (Value.payload es).length + last.bytes.length := by
  induction es with
  | nil => simp [Value.payload]
  | cons first rest ih =>
    rw [cons_append, Value.payload, Value.payload, length_append, length_append, ih]
    omega

theorem itemsIn_concat (es : List Value) (last : Value) :
    Value.itemsIn (es ++ [last]) = Value.itemsIn es + last.items := by
  induction es with
  | nil => simp [Value.itemsIn]
  | cons first rest ih =>
    rw [cons_append, Value.itemsIn, Value.itemsIn, ih]
    omega

theorem payload_le {n : Nat} (small : ∀ element ∈ es, element.bytes.length ≤ n) :
    (Value.payload es).length ≤ es.length * n := by
  induction es with
  | nil => exact zero_le _
  | cons first rest ih =>
    have head := small first (mem_cons_self ..)
    have tail := ih (forall_mem_cons.mp small).2
    rw [Value.payload, length_append, length_cons, succ_mul]
    omega

theorem fits_list (small : (Value.payload es).length ≤ 15800000)
    (few : Value.itemsIn es ≤ 1000) : (Value.list es).Fits defaultLimits := by
  have xs : (Value.list es).items ≤ 1001 := by
    rw [Value.items]
    omega
  have size := (length_frame 0xc0 0xf7 (Value.payload es)).2
  refine ⟨?_, ?_, ?_⟩
  · exact le_trans (le_trans (levels_le_items _) xs) (by decide)
  · exact le_trans xs (by decide)
  · refine le_trans size (le_trans ?_ (show 15800009 ≤ defaultLimits.maxEncodedBytes by decide))
    omega

end Rlp

section

variable {H : Bytes → Root} {t : Tree} {n : Nat} {p : Path}

theorem length_compactBytes (short : p.length ≤ maxCompactPathNibbles)
    (leaf : Bool) : (compactBytes p leaf).length ≤ 4097 := by
  unfold maxCompactPathNibbles at short
  have packed : ∀ rest : Path, (packNibbles rest).length ≤ rest.length / 2 := by
    intro rest
    induction rest using packNibbles.induct with
    | case1 high low rest ih =>
      rw [packNibbles]
      simp only [length_cons]
      omega
    | case2 rest single =>
      rw [packNibbles]
      · exact zero_le _
      · exact single
  unfold compactBytes
  split
  · have rest := packed p.tail
    simp only [length_cons, length_tail] at rest ⊢
    omega
  · have rest := packed p
    simp only [length_cons]
    omega

theorem length_reference (v : Rlp.Value) : (reference H v).bytes.length ≤ 41 := by
  unfold reference
  split
  · rename_i small
    unfold rootBytes at small
    omega
  · have framed := Rlp.length_string (H v.bytes).bytes
    rw [(H v.bytes).size] at framed
    exact framed

def Sized (n : Nat) (t : Tree) : Prop :=
  ∀ key content, t.lookup key = some content → content.val.length ≤ n

theorem treeValue_fits (proper : t.Proper) (short : t.Short maxCompactPathNibbles)
    (sized : Sized (15 <<< 20) t) : (treeValue H t).Fits Rlp.defaultLimits := by
  have string : ∀ {path : Path} (leaf : Bool), path.length ≤ maxCompactPathNibbles →
      (string (compactBytes path leaf)).bytes.length ≤ 4106 := fun leaf short =>
    le_trans (Rlp.length_string _) (Nat.add_le_add_right (length_compactBytes short leaf) 9)
  cases t with
  | nil => exact absurd proper id
  | leaf path content =>
    have bounded := sized path content (by simp [Radix.lookup_leaf])
    have first := string true short.leaf
    have second := Rlp.length_string content.val
    apply Rlp.fits_list
    · simp only [payload, length_append, length_nil]
      omega
    · simp [itemsIn, items]
  | ext path child =>
    have first := string false (short.path proper.2.2)
    have second : (reference H (treeValue H child)).bytes.length ≤ 41 := length_reference _
    have few := Rlp.items_le_bytes (reference H (treeValue H child))
    apply Rlp.fits_list
    · simp only [payload, length_append, length_nil]
      omega
    · simp only [itemsIn, items]
      omega
  | branch kids value =>
    have bounded : (contentBytes value).length ≤ 15 <<< 20 := by
      cases value with
      | none => exact zero_le _
      | some content => exact sized [] content rfl
    have second := Rlp.length_string (contentBytes value)
    have references : (payload ((finRange 16).map fun i =>
        reference H (treeValue H (kids i)))).length ≤ 16 * 41 := by
      refine le_trans (Rlp.payload_le ?_) (by rw [length_map, length_finRange])
      intro element mem
      obtain ⟨i, -, rfl⟩ := mem_map.mp mem
      exact length_reference _
    have few := Rlp.itemsIn_le_payload ((finRange 16).map fun i =>
      reference H (treeValue H (kids i)))
    apply Rlp.fits_list
    · rw [Rlp.payload_concat]
      omega
    · rw [Rlp.itemsIn_concat, items]
      omega

theorem sized_nil (n : Nat) : Sized n .nil := fun _ _ found => by cases found

theorem Sized.insert {content : Content} (sized : Sized n t)
    (small : content.val.length ≤ n) : Sized n (t.insert p content) := by
  intro key content' found
  rw [Radix.lookup_insert] at found
  split at found
  · cases found
    exact small
  · exact sized key content' found

theorem Sized.child {v : Option Content} {kids : Nibble → Tree}
    (sized : Sized n (.branch kids v)) (i : Nibble) : Sized n (kids i) :=
  fun key content found => sized (i :: key) content found

theorem Sized.below {c : Tree} (sized : Sized n (.ext p c)) : Sized n c :=
  fun key content found => sized (p ++ key) content (by rw [Radix.lookup_ext_append, found])

theorem every_fits (canon : t.Canonical) (short : t.Short maxCompactPathNibbles)
    (sized : Sized (15 <<< 20) t) : t.Every (fun s => (treeValue H s).Fits Rlp.defaultLimits) := by
  induction t with
  | nil => trivial
  | leaf p content => exact treeValue_fits trivial short sized
  | ext p c ih =>
    have proper := canon.proper (by simp)
    exact ⟨treeValue_fits proper short sized, ih (Or.inr proper.2.2) short.below sized.below⟩
  | branch kids v ih =>
    have proper := canon.proper (by simp)
    exact ⟨treeValue_fits proper short sized,
      fun i => ih i (proper.child i) (short.child i) (sized.child i)⟩

end

end Golib.MerklePatriciaTrie
