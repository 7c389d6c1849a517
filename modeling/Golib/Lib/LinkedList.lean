import Mathlib.Data.List.Nodup

/-! Doubly linked lists in a heap of nodes: what it is for one to hold a sequence, and what a push
at the end and a removal anywhere make of it. -/
namespace Golib

open List Function

structure Node (ι : Type) where
  previous : Option ι
  next : Option ι

structure LinkedList (ι : Type) where
  head : Option ι
  tail : Option ι
  node : ι → Node ι

namespace LinkedList

variable {ι : Type}

def empty : LinkedList ι := ⟨none, none, fun _ => ⟨none, none⟩⟩

/-- The list holds the sequence: from its ends, and from every node to both sides. -/
structure Holds (list : LinkedList ι) (xs : List ι) : Prop where
  nodup : xs.Nodup
  head : list.head = xs.head?
  tail : list.tail = xs.getLast?
  node : ∀ front x back, xs = front ++ x :: back → list.node x = ⟨front.getLast?, back.head?⟩

theorem holds_empty : (empty : LinkedList ι).Holds [] where
  nodup := .nil
  head := rfl
  tail := rfl
  node := by simp

variable [DecidableEq ι] {list : LinkedList ι} {x : ι} {xs front back : List ι}

omit [DecidableEq ι] in
theorem Holds.unique {ys : List ι} (holds : list.Holds xs) (holds' : list.Holds ys) : xs = ys := by
  have rest : ∀ as bs front, xs = front ++ as → ys = front ++ bs → as.head? = bs.head? →
    as = bs := by
    intro as
    induction as with
    | nil =>
      intro bs front _ _ heads
      exact (head?_eq_none_iff.mp heads.symm).symm
    | cons a as ih =>
      intro bs front left right heads
      cases bs with
      | nil => cases heads
      | cons b bs =>
        cases heads
        have links := (holds.node _ _ _ left).symm.trans (holds'.node _ _ _ right)
        rw [ih bs (front ++ [a]) (by simp [left]) (by simp [right]) (Node.mk.inj links).2]
  exact rest xs ys [] rfl rfl (holds.head.symm.trans holds'.head)

omit [DecidableEq ι] in
theorem notMem_of_split (nodup : (front ++ x :: back).Nodup) : x ∉ front ∧ x ∉ back := by
  have apart := (nodup_cons.mp (nodup_middle.mp nodup)).1
  simpa using apart

omit [DecidableEq ι] in
theorem split_cases {f b : List ι} {y : ι} (split : front ++ back = f ++ y :: b) :
    (∃ a, f = front ++ a ∧ back = a ++ y :: b) ∨ ∃ c, front = f ++ y :: c ∧ b = c ++ back := by
  rcases append_eq_append_iff.mp split with found | ⟨c, rfl, rest⟩
  · exact Or.inl found
  · cases c with
    | nil => exact Or.inl ⟨[], by simp, by simpa using rest.symm⟩
    | cons z c =>
      cases rest
      exact Or.inr ⟨c, rfl, rfl⟩

omit [DecidableEq ι] in
theorem getLast_ne {y z : ι} {c : List ι} (nodup : (front ++ y :: z :: c).Nodup) :
    (front ++ y :: z :: c).getLast? ≠ some y := by
  intro last
  have mem : y ∈ z :: c := mem_of_getLast? (by simpa using last)
  exact (notMem_of_split nodup).2 mem

/-! ### Push -/

def push (list : LinkedList ι) (x : ι) : LinkedList ι :=
  let node := update list.node x { list.node x with previous := list.tail }
  match list.tail with
  | none => { head := some x, tail := some x, node }
  | some last =>
    { head := list.head, tail := some x,
      node := update node last { node last with next := some x } }

theorem push_eq (apart : list.tail ≠ some x) :
    (list.push x).head = (if list.tail = none then some x else list.head) ∧
      (list.push x).tail = some x ∧
      (list.push x).node x = ⟨list.tail, (list.node x).next⟩ ∧
      ∀ y, y ≠ x → (list.push x).node y =
        ⟨(list.node y).previous, if list.tail = some y then some x else (list.node y).next⟩ := by
  unfold push
  cases last : list.tail with
  | none => simp +contextual
  | some l =>
    have other : x ≠ l := fun eq => apart (by rw [last, eq])
    refine ⟨by simp, rfl, by simp [other], fun y new => ?_⟩
    by_cases eq : y = l
    · subst eq
      simp [new]
    · simp [new, eq, Ne.symm eq]

theorem Holds.push (holds : list.Holds xs) (new : x ∉ xs) (unlinked : (list.node x).next = none) :
    (list.push x).Holds (xs ++ [x]) := by
  obtain ⟨nodup, head, tail, n⟩ := holds
  have last : ∀ y, list.tail = some y → y ∈ xs := fun y found =>
    mem_of_getLast? (tail.symm.trans found)
  obtain ⟨head', tail', here, others⟩ := push_eq fun eq => new (last x eq)
  constructor
  · exact nodup_append_comm.mp (nodup_cons.mpr ⟨new, nodup⟩)
  · rw [head', tail, head]
    cases xs <;> simp
  · rw [tail', getLast?_concat]
  · intro front y back split
    rcases eq_nil_or_concat back with rfl | ⟨middle, z, rfl⟩
    · -- The new node is behind all others.
      obtain ⟨rfl, eq⟩ := append_inj' split rfl
      cases eq
      rw [here, unlinked, tail]
      rfl
    · rw [concat_eq_append, ← cons_append, ← append_assoc] at split
      obtain ⟨rfl, eq⟩ := append_inj' split rfl
      cases eq
      have old : y ≠ x := fun eq => new (by simp [eq])
      rw [others y old, n front y middle rfl, tail]
      -- Only the last node gets a new neighbour.
      cases middle with
      | nil => simp
      | cons z middle =>
        rw [if_neg (getLast_ne nodup)]
        rfl

/-- A node that is not in the list may be made anew. -/
def alloc (list : LinkedList ι) (x : ι) : LinkedList ι :=
  { list with node := update list.node x ⟨none, none⟩ }

theorem Holds.alloc (holds : list.Holds xs) (new : x ∉ xs) :
    (list.alloc x).Holds xs ∧ ((list.alloc x).node x).next = none := by
  obtain ⟨nodup, head, tail, n⟩ := holds
  refine ⟨⟨nodup, head, tail, fun front y back split => ?_⟩, by simp [LinkedList.alloc]⟩
  have other : y ≠ x := by
    rintro rfl
    exact new (by simp [split])
  rw [← n front y back split]
  exact update_of_ne other _ _

/-! ### Removal -/

def remove (list : LinkedList ι) (x : ι) : LinkedList ι :=
  let previous := (list.node x).previous
  let next := (list.node x).next
  let list :=
    match previous with
    | none => { list with head := next }
    | some y => { list with node := update list.node y { list.node y with next } }
  let list :=
    match next with
    | none => { list with tail := previous }
    | some y => { list with node := update list.node y { list.node y with previous } }
  { list with node := update list.node x ⟨none, none⟩ }

theorem remove_eq {prev next : Option ι} (here : list.node x = ⟨prev, next⟩) :
    (list.remove x).head = (if prev = none then next else list.head) ∧
      (list.remove x).tail = (if next = none then prev else list.tail) ∧
      ∀ y, y ≠ x → (list.remove x).node y =
        ⟨if next = some y then prev else (list.node y).previous,
          if prev = some y then next else (list.node y).next⟩ := by
  unfold remove
  rw [here]
  cases prev with
  | none =>
    cases next with
    | none => simp +contextual
    | some n =>
      refine ⟨rfl, by simp, fun y other => ?_⟩
      by_cases eq : y = n
      · subst eq
        simp [other]
      · simp [other, eq, Ne.symm eq]
  | some p =>
    cases next with
    | none =>
      refine ⟨by simp, by simp, fun y other => ?_⟩
      by_cases eq : y = p
      · subst eq
        simp [other]
      · simp [other, eq, Ne.symm eq]
    | some n =>
      refine ⟨by simp, by simp, fun y other => ?_⟩
      by_cases eq : y = n
      · subst eq
        by_cases both : y = p
        · subst both
          simp [other]
        · simp [other, both, Ne.symm both]
      · by_cases both : y = p
        · subst both
          simp [other, eq, Ne.symm eq]
        · simp [other, eq, Ne.symm eq, both, Ne.symm both]

/-- A node is removed from the front, from the back or from between. -/
theorem Holds.remove (holds : list.Holds (front ++ x :: back)) :
    (list.remove x).Holds (front ++ back) := by
  obtain ⟨nodup, head, tail, n⟩ := holds
  obtain ⟨head', tail', others⟩ := remove_eq (n front x back rfl)
  obtain ⟨notFront, notBack⟩ := notMem_of_split nodup
  constructor
  · exact (nodup_cons.mp (nodup_middle.mp nodup)).2
  · rw [head', head]
    cases front <;> simp
  · rw [tail', tail]
    rcases eq_nil_or_concat back with rfl | ⟨middle, z, rfl⟩
    · simp
    · simp [getLast?_cons]
  · intro f y b split
    have mem : y ∈ front ++ back := by simp [split]
    have other : y ≠ x := by
      rintro rfl
      exact (mem_append.mp mem).elim notFront notBack
    have apart : ∀ z ∈ front, z ∉ back := fun z inFront inBack =>
      (nodup_append.mp nodup).2.2 z inFront z (mem_cons_of_mem _ inBack) rfl
    rw [others y other]
    rcases split_cases split with ⟨a, rfl, rfl⟩ | ⟨c, rfl, rfl⟩
    · -- The other node is behind the removed one.
      have inFront : front.getLast? ≠ some y := fun last =>
        apart y (mem_of_getLast? last) (by simp)
      rw [n (front ++ x :: a) y b (by simp), if_neg inFront]
      cases a with
      | nil => simp
      | cons z a =>
        have next : z ≠ y := by
          rintro rfl
          have nodup' := (nodup_append.mp nodup).2.1
          simp at nodup'
        simp [next, getLast?_cons]
    · have inBack : back.head? ≠ some y := fun first =>
        apart y (by simp) (mem_of_head? first)
      rw [n f y (c ++ x :: back) (by simp), if_neg inBack]
      cases c with
      | nil => simp
      | cons z c =>
        rw [if_neg (getLast_ne (nodup_append.mp nodup).1)]
        rfl

end LinkedList

end Golib
