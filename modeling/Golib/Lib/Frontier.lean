import Mathlib.Algebra.Ring.Nat
import Mathlib.Data.List.Lex
import Golib.Lib.Radix

/-! Building a radix trie from keys in ascending order. The frontier holds the branching
points along the last key, each with the subtries that are already complete. -/
namespace Golib

open List

namespace Radix

variable {k : Nat} {β : Type}

/-- A branching point that is still open. -/
structure Frame (k : Nat) (β : Type) where
  children : Fin k → Radix k β
  value : Option β

variable {frame : Frame k β} {v : β}

namespace Frame

variable {i : Fin k}

def vacant : Frame k β := ⟨empty, none⟩

def node (frame : Frame k β) : Radix k β := branch frame.children frame.value

def finish (frame : Frame k β) : Radix k β := compact frame.children frame.value

def put (frame : Frame k β) (i : Fin k) (t : Radix k β) : Frame k β :=
  { frame with children := Function.update frame.children i t }

/-- The frame with a value at a remainder below it. -/
def seat (frame : Frame k β) (v : β) : List (Fin k) → Frame k β
  | [] => { frame with value := some v }
  | i :: rest => frame.put i (leaf rest v)

@[simp] theorem put_children_self (frame : Frame k β) (i : Fin k) (t : Radix k β) :
    (frame.put i t).children i = t := by
  simp [put]

theorem put_children_of_ne {j : Fin k} (frame : Frame k β) (other : j ≠ i) (t : Radix k β) :
    (frame.put i t).children j = frame.children j := by
  simp [put, other]

def Canonical (frame : Frame k β) : Prop := ∀ i, (frame.children i).Canonical

theorem Canonical.finish (canon : frame.Canonical) :
    frame.finish.Canonical := compact_canonical canon

theorem Canonical.put {t : Radix k β} (canon : frame.Canonical) (new : t.Canonical) :
    (frame.put i t).Canonical := update_canonical canon new

theorem lookup_finish (frame : Frame k β) (key : List (Fin k)) :
    frame.finish.lookup key = frame.node.lookup key :=
  lookup_compact frame.children frame.value key

theorem finish_leaf (value : frame.value = some v) (none : occupied isNil frame.children = []) :
    frame.finish = leaf [] v := by
  simp only [finish, compact, value, none]

theorem finish_lone (value : frame.value = none) (only : occupied isNil frame.children = [i]) :
    frame.finish = grow [i] (frame.children i) := by
  simp only [finish, compact, value, only]

theorem finish_branch (several : 2 ≤ (occupied isNil frame.children).length ∨
      frame.value ≠ none ∧ occupied isNil frame.children ≠ []) : frame.finish = frame.node := by
  unfold finish compact
  split
  · rename_i v value none
    rcases several with two | some
    · simp [none] at two
    · exact absurd none some.2
  · rename_i value none
    rcases several with two | some
    · simp [none] at two
    · exact absurd none some.2
  · rename_i i value only
    rcases several with two | some
    · simp [only] at two
    · exact absurd value some.1
  · rfl

theorem finish_ne_nil (some : frame.value ≠ none ∨ ∃ i, frame.children i ≠ nil) :
    frame.finish ≠ nil := by
  unfold finish compact
  split
  · simp
  · rename_i unset vacant
    rcases some with value | ⟨i, c⟩
    · exact absurd unset value
    · exact absurd (eq_nil_of_not_occupied (by simp [vacant])) c
  · rename_i i unset only
    have c : frame.children i ≠ nil := isNil_eq_false.mp (mem_occupied.mp (by simp [only]))
    cases shape : frame.children i with
    | nil => exact absurd shape c
    | leaf | ext | branch => simp [grow]
  · simp

def count (frame : Frame k β) : Nat := (occupied isNil frame.children).length

theorem count_put_le (frame : Frame k β) (i : Fin k) (t : Radix k β) :
    (frame.put i t).count ≤ frame.count + 1 := by
  have sub : occupied isNil (frame.put i t).children ⊆ i :: occupied isNil frame.children := by
    intro j mem
    by_cases here : j = i
    · exact mem_cons.mpr (Or.inl here)
    · rw [mem_occupied, put_children_of_ne frame here] at mem
      exact mem_cons_of_mem _ (mem_occupied.mpr mem)
  exact ((occupied_nodup _ _).subperm sub).length_le

theorem finish_seat_vacant (v : β) (rest : List (Fin k)) :
    ((vacant : Frame k β).seat v rest).finish = leaf rest v := by
  cases rest with
  | nil =>
    have none : occupied isNil (empty : Fin k → Radix k β) = [] := by simp [occupied, empty, isNil]
    simp only [seat, finish, compact, vacant, none]
  | cons i rest =>
    have only : occupied isNil (Function.update (empty : Fin k → Radix k β) i
      (leaf rest v)) = [i] := by
      have mem : ∀ j, j ∈ occupied isNil (Function.update (empty : Fin k → Radix k β) i
          (leaf rest v)) ↔ j ∈ [i] := by
        intro j
        rw [mem_occupied, mem_singleton]
        by_cases eq : j = i
        · simp [eq, isNil]
        · simp [eq, empty, isNil]
      exact perm_singleton.mp
        ((perm_ext_iff_of_nodup (occupied_nodup _ _) (nodup_singleton i)).mpr mem)
    simp only [seat, put, finish, compact, vacant, only, Function.update_self]
    rfl

theorem lookup_node_seat {rest : List (Fin k)}
    (free : ∀ i, rest.head? = some i → frame.children i = nil) (key : List (Fin k)) :
    (frame.seat v rest).node.lookup key = if key = rest then some v else frame.node.lookup key := by
  have seated := lookup_seat frame.children frame.value v rest key free
  cases rest with
  | nil | cons => exact seated

end Frame

/-- The deepest open branching point, and those above it, nearest first, each with the digit at
which it goes on. -/
structure Frontier (k : Nat) (β : Type) where
  top : Frame k β
  above : List (Frame k β × Fin k)

namespace Frontier

variable {above : List (Frame k β × Fin k)} {top : Frame k β} {rest : List (Fin k)} {keep : Nat}

def start : Frontier k β := ⟨.vacant, []⟩

def digits (above : List (Frame k β × Fin k)) : List (Fin k) := (above.map Prod.snd).reverse

def path (f : Frontier k β) : List (Fin k) := digits f.above

theorem digits_cons (frame : Frame k β) (i : Fin k) (above : List (Frame k β × Fin k)) :
    digits ((frame, i) :: above) = digits above ++ [i] := by
  simp [digits]

theorem length_digits (above : List (Frame k β × Fin k)) :
    (digits above).length = above.length := by
  simp [digits]

def assembleFrom : Frame k β → List (Frame k β × Fin k) → Radix k β
  | top, [] => top.finish
  | top, (parent, i) :: rest => assembleFrom (parent.put i top.finish) rest

/-- The trie that is left when every branching point is closed. -/
def assemble (f : Frontier k β) : Radix k β := assembleFrom f.top f.above

/-- The frontier with the branching points below a depth closed. -/
def closeFrom (keep : Nat) : Frame k β → List (Frame k β × Fin k) → Frontier k β
  | top, [] => ⟨top, []⟩
  | top, (parent, i) :: rest =>
    if rest.length + 1 > keep then closeFrom keep (parent.put i top.finish) rest
    else ⟨top, (parent, i) :: rest⟩

/-- The frontier with new branching points along a path. -/
def openFrom : Frame k β → List (Frame k β × Fin k) → List (Fin k) → Frontier k β
  | top, above, [] => ⟨top, above⟩
  | top, above, i :: rest => openFrom .vacant ((top, i) :: above) rest

def store (f : Frontier k β) (v : β) : Frontier k β :=
    { f with top := { f.top with value := some v } }

def close (f : Frontier k β) (keep : Nat) : Frontier k β := closeFrom keep f.top f.above

def add (f : Frontier k β) (key : List (Fin k)) (v : β) : Frontier k β :=
  let common := commonLength key f.path
  let closed := f.close common
  (openFrom closed.top closed.above (key.drop common)).store v

def count (f : Frontier k β) : Nat := f.top.count + (f.above.map fun entry => entry.1.count).sum

/-! ### Closing and opening -/

theorem assemble_openFrom (v : β) (rest : List (Fin k)) (top : Frame k β)
    (above : List (Frame k β × Fin k)) :
    ((openFrom top above rest).store v).assemble = assembleFrom (top.seat v rest) above := by
  induction rest generalizing top above with
  | nil => rfl
  | cons i rest ih =>
    rw [openFrom, ih, assembleFrom, Frame.finish_seat_vacant]
    rfl

theorem path_openFrom (rest : List (Fin k)) (top : Frame k β) (above : List (Frame k β × Fin k)) :
    (openFrom top above rest).path = digits above ++ rest := by
  induction rest generalizing top above with
  | nil => rw [openFrom, path, append_nil]
  | cons i rest ih => rw [openFrom, ih, digits_cons, append_assoc, singleton_append]

theorem assemble_closeFrom (keep : Nat) (top : Frame k β) (above : List (Frame k β × Fin k)) :
    (closeFrom keep top above).assemble = assembleFrom top above := by
  induction above generalizing top with
  | nil => rfl
  | cons e rest ih =>
    rw [closeFrom]
    split
    · exact ih _
    · rfl

theorem length_closeFrom_le (keep : Nat) (top : Frame k β) (above : List (Frame k β × Fin k)) :
    (closeFrom keep top above).above.length ≤ above.length := by
  induction above generalizing top with
  | nil => exact Nat.le_refl _
  | cons e rest ih =>
    rw [closeFrom]
    split
    · exact Nat.le_succ_of_le (ih _)
    · exact Nat.le_refl _

theorem closeFrom_ne_nil (some : top.finish ≠ nil) :
    (closeFrom keep top above).top.finish ≠ nil := by
  induction above generalizing top with
  | nil => exact some
  | cons e rest ih =>
    obtain ⟨parent, i⟩ := e
    rw [closeFrom]
    split
    · exact ih (Frame.finish_ne_nil (Or.inr ⟨i, by rwa [Frame.put_children_self]⟩))
    · exact some

theorem closeFrom_zero (top : Frame k β) (above : List (Frame k β × Fin k)) :
    (closeFrom 0 top above).above = [] := by
  induction above generalizing top with
  | nil => rfl
  | cons e rest ih =>
    exact ih _

/-- The number of subtries of the branching points that are closed, as each is closed. -/
def closeCost (keep : Nat) : Frame k β → List (Frame k β × Fin k) → Nat
  | _, [] => 0
  | top, (parent, i) :: rest =>
    if rest.length + 1 > keep then top.count + closeCost keep (parent.put i top.finish) rest else 0

theorem closeCost_le (keep : Nat) (top : Frame k β) (above : List (Frame k β × Fin k)) :
    closeCost keep top above + (closeFrom keep top above).count +
      (closeFrom keep top above).above.length ≤ count ⟨top, above⟩ + above.length := by
  induction above generalizing top with
  | nil => simp [closeCost, closeFrom]
  | cons e rest ih =>
    obtain ⟨parent, i⟩ := e
    rw [closeCost, closeFrom]
    split
    · have later := ih (parent.put i top.finish)
      have one := parent.count_put_le i top.finish
      simp only [count, map_cons, sum_cons, length_cons] at later ⊢
      omega
    · rw [Nat.zero_add]

theorem count_openFrom (v : β) (rest : List (Fin k)) (top : Frame k β)
    (above : List (Frame k β × Fin k)) :
    ((openFrom top above rest).store v).count = count ⟨top, above⟩ := by
  induction rest generalizing top above with
  | nil => rfl
  | cons i rest ih =>
    have none : (Frame.vacant : Frame k β).count = 0 := by
      simp [Frame.count, occupied, Frame.vacant, empty, isNil]
    rw [openFrom, ih]
    simp only [count, map_cons, sum_cons]
    omega

theorem lookup_assembleFrom {top' : Frame k β}
    (eq : ∀ key, top'.node.lookup key = if key = rest then some v else top.node.lookup key)
    (key : List (Fin k)) :
    (assembleFrom top' above).lookup key =
      if key = digits above ++ rest then some v else (assembleFrom top above).lookup key := by
  induction above generalizing top top' rest with
  | nil =>
    rw [assembleFrom, assembleFrom, Frame.lookup_finish, Frame.lookup_finish]
    exact eq key
  | cons e above ih =>
    obtain ⟨parent, i⟩ := e
    rw [digits_cons, append_assoc, singleton_append]
    refine ih fun key' => ?_
    cases key' with
    | nil => rfl
    | cons j key' =>
      rw [Frame.node, Frame.put, Frame.node, Frame.put, lookup_update_cons, lookup_update_cons]
      by_cases here : j = i
      · rw [if_pos here, if_pos here, Frame.lookup_finish, Frame.lookup_finish, eq, here]
        simp
      · rw [if_neg here, if_neg here, if_neg (by simp [here])]

theorem lookup_assembleFrom_top (top : Frame k β) (above : List (Frame k β × Fin k))
    (key : List (Fin k)) :
    (assembleFrom top above).lookup (digits above ++ key) = top.node.lookup key := by
  induction above generalizing top key with
  | nil => exact top.lookup_finish key
  | cons e above ih =>
    rw [digits_cons, append_assoc, singleton_append, assembleFrom, ih, Frame.node,
      lookup_branch_cons, Frame.put_children_self, Frame.lookup_finish]

/-! ### Ascending keys -/

/-- The subtries of a branching point above the deepest one lie before the digit at which it
goes on, and the deepest one has none. -/
structure Ascending (f : Frontier k β) : Prop where
  free : ∀ i, f.top.children i = nil
  canonical : ∀ entry ∈ f.above, entry.1.Canonical
  before : ∀ entry ∈ f.above, ∀ j, entry.1.children j ≠ nil → j < entry.2

theorem assemble_start : (start : Frontier k β).assemble = .nil := by
  simp [assemble, start, assembleFrom, Frame.finish, compact, Frame.vacant, occupied, empty, isNil]

/-- What is closed: the subtries of the deepest branching point that is left lie up to the digit
at which the closed path went on. -/
structure Closed (f : Frontier k β) (gone : List (Fin k)) : Prop where
  top : f.top.Canonical
  upTo : ∀ j, f.top.children j ≠ nil → ∃ i, gone.head? = some i ∧ j ≤ i
  canonical : ∀ entry ∈ f.above, entry.1.Canonical
  before : ∀ entry ∈ f.above, ∀ j, entry.1.children j ≠ nil → j < entry.2

theorem Ascending.closed {f : Frontier k β} (asc : f.Ascending) : f.Closed [] :=
  ⟨fun i => Or.inl (asc.free i), fun j some => absurd (asc.free j) some, asc.canonical, asc.before⟩

theorem closeFrom_closed {gone front : List (Fin k)} (closed : Closed ⟨top, above⟩ gone)
    (split : digits above ++ gone = front ++ rest) (length : front.length = keep)
    (deep : keep ≤ above.length) :
    (closeFrom keep top above).path = front ∧ (closeFrom keep top above).Closed rest := by
  induction above generalizing top gone with
  | nil =>
    have none : front = [] := eq_nil_of_length_eq_zero (by simp at deep; omega)
    subst none
    have eq : gone = rest := split
    subst eq
    exact ⟨rfl, closed⟩
  | cons e above ih =>
    obtain ⟨parent, i⟩ := e
    rw [closeFrom]
    split
    · rename_i deeper
      have parent_canonical := closed.canonical _ (mem_cons_self ..)
      have next : Closed ⟨parent.put i top.finish, above⟩ (i :: gone) := by
        refine ⟨parent_canonical.put closed.top.finish, ?_,
          (forall_mem_cons.mp closed.canonical).2,
          (forall_mem_cons.mp closed.before).2⟩
        intro j some
        refine ⟨i, rfl, ?_⟩
        by_cases here : j = i
        · exact le_of_eq here
        · rw [Frame.put_children_of_ne parent here] at some
          exact le_of_lt (closed.before _ (mem_cons_self ..) j some)
      refine ih next ?_ (by omega)
      rw [← split, digits_cons, append_assoc, singleton_append]
    · rename_i shallow
      have whole : (digits ((parent, i) :: above)).length = front.length := by
        rw [length_digits, length]
        simp only [length_cons] at deep ⊢
        omega
      obtain ⟨eq, rfl⟩ := append_inj split whole
      exact ⟨eq, closed⟩

theorem openFrom_ascending (v : β) (canon : ∀ e ∈ above, e.1.Canonical)
    (before : ∀ e ∈ above, ∀ j, e.1.children j ≠ nil → j < e.2) (top_canonical : top.Canonical)
    (lower : ∀ j, top.children j ≠ nil → ∃ i, rest.head? = some i ∧ j < i) :
    ((openFrom top above rest).store v).Ascending := by
  induction rest generalizing top above with
  | nil =>
    refine ⟨fun i => ?_, canon, before⟩
    by_contra some
    obtain ⟨_, first, -⟩ := lower i some
    cases first
  | cons i rest ih =>
    refine ih (forall_mem_cons.mpr ⟨top_canonical, canon⟩)
      (forall_mem_cons.mpr ⟨fun j some => ?_, before⟩) (fun _ => Or.inl rfl)
      (fun j some => absurd rfl some)
    obtain ⟨_, first, lt⟩ := lower j some
    cases first
    exact lt

theorem assembleFrom_canonical (top_canonical : top.Canonical)
    (canon : ∀ e ∈ above, e.1.Canonical) : (assembleFrom top above).Canonical := by
  induction above generalizing top with
  | nil => exact top_canonical.finish
  | cons e above ih =>
    exact ih ((canon _ (mem_cons_self ..)).put top_canonical.finish)
      (forall_mem_cons.mp canon).2

theorem Ascending.assemble_canonical {f : Frontier k β} (asc : f.Ascending) :
    f.assemble.Canonical :=
  assembleFrom_canonical (fun i => Or.inl (asc.free i)) asc.canonical

theorem parted_up {l r : List (Fin k)} (parted : Parted l r) (later : ¬ r < l) {i : Fin k}
    (first : l.head? = some i) : ∃ j, r.head? = some j ∧ i < j := by
  cases l with
  | nil => cases first
  | cons a l =>
    obtain rfl : a = i := Option.some.inj first
    cases r with
    | nil => exact absurd (nil_lt_cons a l) later
    | cons j r =>
      have differ : a ≠ j := fun eq => parted a rfl (by rw [eq]; rfl)
      have above : ¬ j < a := fun lt => later (cons_lt_cons_iff.mpr (Or.inl lt))
      exact ⟨j, rfl, by omega⟩

section

variable {f : Frontier k β} {key : List (Fin k)} (asc : f.Ascending) (later : ¬ key < f.path)

include asc later

/-- Where the new key leaves the frontier: what is above stays open, and the branching point it
leaves from has nothing at or after its next digit. -/
theorem Ascending.close_common :
    ∃ rest, key.drop (commonLength key f.path) = rest ∧
      key = (f.close (commonLength key f.path)).path ++ rest ∧
      (f.close (commonLength key f.path)).Closed (f.path.drop (commonLength key f.path)) ∧
      ∀ j, (f.close (commonLength key f.path)).top.children j ≠ nil →
        ∃ i, rest.head? = some i ∧ j < i := by
  obtain ⟨front, r, l, forKey, forPath, length, parted⟩ := commonLength_split key f.path
  have bound : front.length ≤ f.above.length := by
    have whole := congrArg List.length forPath
    rw [path, length_digits, length_append] at whole
    omega
  obtain ⟨same, closed⟩ := closeFrom_closed asc.closed
    (by rw [append_nil]; exact forPath) length.symm (by omega)
  have gone : f.path.drop (commonLength key f.path) = l := by
    rw [length, forPath, drop_left]
  have rest : key.drop (commonLength key f.path) = r := by
    conv_lhs => rw [length, forKey]
    exact drop_left
  refine ⟨r, rest, forKey.trans (congrArg (· ++ r) same.symm), ?_, ?_⟩
  · rw [gone]
    exact closed
  · intro j some
    obtain ⟨i, first, upTo⟩ := closed.upTo j some
    have after : ¬ r < l := by
      intro before
      apply later
      rw [forKey, forPath]
      exact append_left_lt before
    obtain ⟨next, leads, lt⟩ := parted_up (fun a hl hr => parted a hr hl) after first
    exact ⟨next, leads, lt_of_le_of_lt upTo lt⟩

theorem Ascending.add (v : β) : (f.add key v).Ascending := by
  obtain ⟨rest, rem, -, closed, lower⟩ := asc.close_common later
  rw [Frontier.add, rem]
  exact openFrom_ascending v closed.canonical closed.before closed.top lower

theorem Ascending.path_add (v : β) : (f.add key v).path = key := by
  obtain ⟨rest, rem, whole, -, -⟩ := asc.close_common later
  rw [Frontier.add, rem]
  exact (path_openFrom rest _ _).trans whole.symm

theorem Ascending.assemble_add (v : β) : (f.add key v).assemble = f.assemble.insert key v := by
  have canon := insert_proper asc.assemble_canonical key v
  refine (asc.add later v).assemble_canonical.unique (Or.inr canon) fun key' => ?_
  obtain ⟨rest, rem, whole, -, lower⟩ := asc.close_common later
  have free : ∀ i, rest.head? = some i →
      (f.close (commonLength key f.path)).top.children i = nil := by
    intro i first
    by_contra some
    obtain ⟨next, leads, lt⟩ := lower i some
    rw [first] at leads
    cases leads
    exact lt_irrefl i lt
  have kept : (f.close (commonLength key f.path)).assemble = f.assemble := assemble_closeFrom _ _ _
  rw [lookup_insert, ← kept, Frontier.add, rem, assemble_openFrom,
    lookup_assembleFrom (Frame.lookup_node_seat free)]
  have position : digits (f.close (commonLength key f.path)).above ++ rest = key := whole.symm
  rw [position]
  rfl

end

end Frontier

end Radix

end Golib
