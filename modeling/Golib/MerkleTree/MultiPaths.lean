import Mathlib.Data.List.GetD
import Golib.MerkleTree.Multi
import Golib.MerkleTree.InclusionProofs

/-! Multi-inclusion proofs. Generation, the frontier count and the reconstruction cut one
sorted list of indexes at the split points of one tree; the frontier is the list of maximal
subtrees without an index, from left to right. -/
namespace Golib.MerkleTree

open HashTree Polled List Nat

variable {D α : Type} {indexes js : List UInt64} {a b : Nat}

/-- Strictly ascending indexes among the `size` leaves from `start` on. -/
structure Selection (start : UInt64) (size : Nat) (indexes : List UInt64) : Prop where
  ascending : indexes.Pairwise (· < ·)
  lower : ∀ i ∈ indexes, start.toNat ≤ i.toNat
  upper : ∀ i ∈ indexes, i.toNat < start.toNat + size
  word : start.toNat + size < 2 ^ 64

theorem splitIndex_spec (asc : js.Pairwise (· < ·)) (bound : UInt64) :
    splitIndex js bound ≤ js.length ∧
      (∀ i ∈ js.take (splitIndex js bound), i < bound) ∧
      (∀ i ∈ js.drop (splitIndex js bound), bound ≤ i) := by
  have monotone : ∀ a b, a ≤ b → b < js.length → decide (js.getD a 0 ≥ bound) = true →
      decide (js.getD b 0 ≥ bound) = true := by
    intro a b order sub above
    rw [decide_eq_true_eq, getD_eq_getElem _ _ (by omega)] at above
    rw [decide_eq_true_eq, getD_eq_getElem _ _ sub]
    rcases lt_or_eq_of_le order with less | rfl
    · exact UInt64.le_trans above (UInt64.le_of_lt (pairwise_iff_getElem.mp asc _ _ _ _ less))
    · exact above
  obtain ⟨sub, below, above⟩ := search_spec monotone
  refine ⟨sub, ?_, ?_⟩
  · intro i mem
    obtain ⟨j, hj, rfl⟩ := mem_take_iff_getElem.mp mem
    have := below j (by unfold splitIndex at hj; omega)
    rw [decide_eq_false_iff_not, getD_eq_getElem _ _ (by omega)] at this
    exact UInt64.not_le.mp this
  · intro i mem
    obtain ⟨j, hj, rfl⟩ := mem_drop_iff_getElem.mp mem
    have := above (splitIndex js bound + j) (by unfold splitIndex; omega) (by omega)
    rw [decide_eq_true_eq, getD_eq_getElem _ _ (by omega)] at this
    exact this

variable {start left size : UInt64}

theorem Selection.bound (selection : Selection start (a + b) js) (size : left.toNat = a) :
    (start + left).toNat = start.toNat + a := by
  have := selection.word
  rw [toNat_add_of_lt (by omega), size]

theorem Selection.split (selection : Selection start (a + b) js) (size : left.toNat = a) :
    Selection start a (js.take (splitIndex js (start + left))) ∧
      Selection (start + left) b (js.drop (splitIndex js (start + left))) := by
  have bound := selection.bound size
  have word := selection.word
  obtain ⟨_, below, above⟩ := splitIndex_spec selection.ascending (start + left)
  refine ⟨⟨?_, ?_, ?_, by omega⟩, ⟨?_, ?_, ?_, by omega⟩⟩
  · exact selection.ascending.sublist (take_sublist _ _)
  · intro i mem
    exact selection.lower i (mem_of_mem_take mem)
  · intro i mem
    have := below i mem
    rw [UInt64.lt_iff_toNat_lt] at this
    omega
  · exact selection.ascending.sublist (drop_sublist _ _)
  · intro i mem
    have := above i mem
    rwa [UInt64.le_iff_toNat_le] at this
  · intro i mem
    have := selection.upper i (mem_of_mem_drop mem)
    omega

theorem Selection.single (selection : Selection start 1 js) (nonempty : js ≠ []) :
    js = [start] := by
  cases js with
  | nil => exact absurd rfl nonempty
  | cons i rest =>
    have first : i = start := by
      have := selection.lower i (by simp)
      have := selection.upper i (by simp)
      apply UInt64.toNat_inj.mp
      omega
    cases rest with
    | nil => rw [first]
    | cons j rest =>
      have order := rel_of_pairwise_cons selection.ascending (mem_cons_self ..)
      have := selection.upper j (by simp)
      rw [UInt64.lt_iff_toNat_lt, first] at order
      omega

/-- The leaves of a tree from `start` on, at the given indexes. -/
def selected {α : Type} (items : List α) (start : UInt64) (indexes : List UInt64) : List α :=
  indexes.filterMap (fun i => items[i.toNat - start.toNat]?)

variable {xs : List α}

theorem length_selected (selection : Selection start xs.length js) :
    (selected xs start js).length = js.length := by
  rw [selected, length_filterMap_eq_countP, countP_eq_length]
  intro i mem
  have := selection.lower i mem
  have := selection.upper i mem
  rw [getElem?_eq_getElem (by omega)]
  rfl

theorem selected_map (sub : ∀ i ∈ js, i.toNat < xs.length) :
    (selected xs 0 js).map some = js.map (fun i => xs[i.toNat]?) := by
  induction js with
  | nil => rfl
  | cons i rest ih =>
    have found := getElem?_eq_getElem (sub i (by simp))
    have tail := ih (fun j mem => sub j (by simp [mem]))
    simp only [selected, UInt64.toNat_zero, Nat.sub_zero, filterMap_cons, found, map_cons] at tail ⊢
    rw [tail]

theorem selected_split (xs ys : List α)
    (selection : Selection start (xs.length + ys.length) js) (size : left.toNat = xs.length) :
    selected (xs ++ ys) start js =
      selected xs start (js.take (splitIndex js (start + left))) ++
        selected ys (start + left) (js.drop (splitIndex js (start + left))) := by
  obtain ⟨first, second⟩ := selection.split size
  have bound := selection.bound size
  conv => lhs; rw [selected, ← take_append_drop (splitIndex js (start + left)) js, filterMap_append]
  congr 1
  · apply filterMap_congr
    intro i mem
    have := first.lower i mem
    have := first.upper i mem
    rw [getElem?_append_left (by omega)]
  · apply filterMap_congr
    intro i mem
    have := second.lower i mem
    rw [getElem?_append_right (by omega), bound, Nat.sub_sub]

variable {n fuel : Nat}

section Frontier

theorem Balanced.split_point {l : HashTree.DigestTree D}
    {r : DigestTree D} (bal : Balanced (.node l r))
    (whole : size.toNat = l.size + r.size) :
    largestPowerOfTwoBelow size = UInt64.ofNat l.size ∧ (UInt64.ofNat l.size).toNat = l.size ∧
      (size - UInt64.ofNat l.size).toNat = r.size := by
  obtain ⟨lsize, rsize⟩ := Balanced.split_sizes bal whole
  have point : largestPowerOfTwoBelow size = UInt64.ofNat l.size := by
    rw [eq_comm, ofNat_eq_iff (by have := size.toNat_lt; omega), lsize]
  rw [point] at lsize rsize
  exact ⟨point, lsize, rsize⟩

variable (H : Hasher D) {t : DigestTree D}

/-- The maximal subtrees that hold none of the indexes. -/
def multiFrontier : DigestTree D → UInt64 → List UInt64 → List D
  | t, _, [] => [t.digest H.hashBranch]
  | .leaf _, _, _ :: _ => []
  | .node l r, start, i :: rest =>
    let bound := start + UInt64.ofNat l.size
    let cut := splitIndex (i :: rest) bound
    multiFrontier l start ((i :: rest).take cut) ++ multiFrontier r bound ((i :: rest).drop cut)

theorem multiFrontier_node (l r : DigestTree D) (start : UInt64)
    (nonempty : js ≠ []) : multiFrontier H (.node l r) start js =
      multiFrontier H l start (js.take (splitIndex js (start + UInt64.ofNat l.size))) ++
        multiFrontier H r (start + UInt64.ofNat l.size)
          (js.drop (splitIndex js (start + UInt64.ofNat l.size))) := by
  cases js with
  | nil => exact absurd rfl nonempty
  | cons i rest => rw [multiFrontier]

@[simp] theorem multiFrontier_nil (t : DigestTree D) (start : UInt64) :
    multiFrontier H t start [] = [t.digest H.hashBranch] := by
  cases t <;> rw [multiFrontier]

theorem length_multiFrontier_le (t : DigestTree D) (start : UInt64) (js : List UInt64) :
    (multiFrontier H t start js).length ≤ t.size := by
  induction t generalizing start js with
  | leaf d => cases js <;> simp [multiFrontier, DigestTree.size]
  | node l r hl hr =>
    by_cases none : js = []
    · have := l.size_pos
      rw [none, multiFrontier_nil]
      simp only [length_singleton, DigestTree.size]
      omega
    · rw [multiFrontier_node H l r start none, length_append, DigestTree.size]
      exact Nat.add_le_add (hl _ _) (hr _ _)

theorem multiFrontierCountLoop_eq (bal : Balanced t) (small : t.size ≤ 2 ^ n)
    (enough : n < fuel) (whole : size.toNat = t.size) (start : UInt64) (js : List UInt64) :
    multiFrontierCountLoop fuel start size js =
      UInt64.ofNat (multiFrontier H t start js).length := by
  induction t generalizing n fuel size start js with
  | leaf d =>
    obtain ⟨fuel, rfl⟩ : ∃ f, fuel = f + 1 := ⟨fuel - 1, by omega⟩
    have one : size = 1 := size_eq_one.mpr whole
    cases js <;> simp [multiFrontierCountLoop, multiFrontier, one]
  | node l r hl hr =>
    obtain ⟨fuel, rfl⟩ : ∃ f, fuel = f + 1 := ⟨fuel - 1, by omega⟩
    by_cases none : js = []
    · simp [none, multiFrontierCountLoop]
    · have lpos := l.size_pos
      have rpos := r.size_pos
      simp only [DigestTree.size] at small whole
      cases n with
      | zero => omega
      | succ n =>
        obtain ⟨left, right⟩ := bal.halves small
        obtain ⟨point, lsize, rsize⟩ := Balanced.split_point bal whole
        rw [multiFrontierCountLoop, if_neg (by simpa using none),
          if_neg (by rw [size_eq_one]; omega), multiFrontier_node H l r start none]
        simp only [hl bal.2.1 left (by omega : n < fuel) lsize,
          hr bal.2.2 right (by omega : n < fuel) rsize, point, length_append, UInt64.ofNat_add]

theorem multiFrontierCount_eq (bal : Balanced t) (whole : size.toNat = t.size) (start : UInt64)
    (js : List UInt64) :
    multiFrontierCount start size js = UInt64.ofNat (multiFrontier H t start js).length :=
  multiFrontierCountLoop_eq H bal (n := 64) (by have := size.toNat_lt; omega) (by decide) whole
    start js

end Frontier

section Generation

variable {H : Hasher D} (alg : UInt8) {array : List (SnapshotNode D)} {t : DigestTree D}
  {base : Nat}

theorem frontier_room {maxElements : UInt64}
    {frontier : List (Digest D)} (room : frontier.length + 1 ≤ maxElements.toNat) :
    ¬ UInt64.ofNat frontier.length = maxElements := by
  have := maxElements.toNat_lt
  rw [ofNat_eq_iff (by omega)]
  omega

theorem appendMultiProof_none (fits : array.length < 2 ^ 64) (held : Holds H array base t)
    (fuel : Nat) (start : UInt64) (maxElements : UInt64) (ds frontier : List (Digest D))
    (room : frontier.length + 1 ≤ maxElements.toNat) :
    (appendMultiProof alg array maxElements (fuel + 1) (UInt64.ofNat (base + nodeCount t - 1))
      start [] ds frontier).outcome =
      .ok (ds, frontier ++ [newDigest alg (t.digest H.hashBranch)]) := by
  rw [appendMultiProof, poll_bind]
  refine bind_ok.mpr ⟨_, held.read (by omega), ?_⟩
  rw [if_pos length_nil, failIf_bind, if_neg (frontier_room room), rootEntry_digest]
  rfl

/-- The recursion over the array collects the selected digests and the frontier, as long
as the frontier stays within its limit. -/
theorem appendMultiProof_eq (fits : array.length < 2 ^ 64) (held : Holds H array base t)
    (enough : t.size ≤ fuel) (selection : Selection start t.size js) (maxElements : UInt64)
    (ds frontier : List (Digest D))
    (room : frontier.length + (multiFrontier H t start js).length ≤ maxElements.toNat) :
    (appendMultiProof alg array maxElements fuel (UInt64.ofNat (base + nodeCount t - 1)) start
      js ds frontier).outcome =
      .ok (ds ++ (selected t.leaves start js).map (newDigest alg),
        frontier ++ (multiFrontier H t start js).map (newDigest alg)) := by
  induction t generalizing base fuel start js ds frontier with
  | leaf d =>
    obtain ⟨fuel, rfl⟩ := exists_eq_add_one.mpr ((DigestTree.size_pos _).trans_le enough)
    by_cases none : js = []
    · subst none
      rw [appendMultiProof_none alg fits held fuel start maxElements ds frontier room]
      simp [selected]
    · have single := selection.single none
      rw [appendMultiProof, poll_bind]
      refine bind_ok.mpr ⟨_, held.read (by omega), ?_⟩
      rw [if_neg (by simpa using none), if_pos
        (show (rootEntry H base (.leaf d)).size = 1 from rfl),
        single]
      simp [selected, multiFrontier, DigestTree.leaves, rootEntry]
  | node l r hl hr =>
    have lpos := l.size_pos
    have rpos := r.size_pos
    obtain ⟨fuel, rfl⟩ := exists_eq_add_one.mpr ((DigestTree.size_pos _).trans_le enough)
    by_cases none : js = []
    · subst none
      rw [appendMultiProof_none alg fits held fuel start maxElements ds frontier room]
      simp [selected]
    · have bound := held.bound
      rw [nodeCount_node] at bound
      have lsize : (UInt64.ofNat l.size).toNat = l.size :=
        toNat_ofNat_of_lt (by unfold nodeCount at bound; omega)
      have branch : ¬ (rootEntry H base (.node l r)).size = 1 := by
        rw [size_eq_one, rootEntry_size, DigestTree.size,
          toNat_ofNat_of_lt (by unfold nodeCount at bound; omega)]
        omega
      simp only [DigestTree.size] at enough selection
      obtain ⟨first, second⟩ := selection.split lsize
      rw [multiFrontier_node H l r start none, length_append] at room
      have whole := selected_split l.leaves r.leaves (by simpa using selection)
        (show (UInt64.ofNat l.size).toNat = l.leaves.length by rw [lsize, DigestTree.length_leaves])
      rw [DigestTree.leaves, whole, multiFrontier_node H l r start none]
      rw [appendMultiProof, poll_bind]
      refine bind_ok.mpr ⟨_, held.read (by omega), ?_⟩
      rw [if_neg (by simpa using none), if_neg branch]
      refine bind_ok.mpr ⟨_, held.left.read (by omega), ?_⟩
      rw [rootEntry_size]
      refine bind_ok.mpr
        ⟨_, hl held.left (by omega) first ds frontier (by omega), ?_⟩
      refine (hr held.right (show r.size ≤ fuel by omega) second _ _
        (by rw [length_append, length_map]; omega)).trans ?_
      simp only [map_append, append_assoc]

end Generation

section Reconstruction

variable {H : Hasher D} {js : List UInt64} {frontier ds : List (Digest D)}
  {position consumed fuel : Nat} {t : HashTree.DigestTree D}

theorem reconstructMultiRoot_eq {before rest : List D}
    (bal : Balanced t) (small : t.size ≤ 2 ^ n) (enough : n < fuel)
    (whole : size.toNat = t.size) (selection : Selection start t.size js)
    (ls : ds.map Digest.value = selected t.leaves start js)
    (ns : frontier.map Digest.value = before ++ (multiFrontier H t start js ++ rest)) :
    (reconstructMultiRoot H frontier fuel start size js ds before.length).outcome =
      .ok (t.digest H.hashBranch, before.length + (multiFrontier H t start js).length) := by
  induction t generalizing n fuel start size js ds before rest with
  | leaf d =>
    obtain ⟨fuel, rfl⟩ : ∃ f, fuel = f + 1 := ⟨fuel - 1, by omega⟩
    rw [reconstructMultiRoot, poll_bind]
    by_cases none : js = []
    · subst none
      obtain ⟨node, found, v⟩ := sibling_at ns
      simp [found, v, Except.bind]
    · have single := selection.single none
      rw [single] at ls
      have one : ds.head?.map Digest.value = some d := by
        rw [← head?_map, ls]
        simp [selected, DigestTree.leaves]
      obtain ⟨digest, head, v⟩ := Option.map_eq_some_iff.mp one
      rw [if_neg (by simpa using none), if_pos (size_eq_one.mpr whole), single]
      simp [head, v, multiFrontier, DigestTree.digest, Except.bind]
  | node l r hl hr =>
    have lpos := l.size_pos
    have rpos := r.size_pos
    obtain ⟨fuel, rfl⟩ : ∃ f, fuel = f + 1 := ⟨fuel - 1, by omega⟩
    rw [reconstructMultiRoot, poll_bind]
    by_cases none : js = []
    · subst none
      obtain ⟨node, found, v⟩ := sibling_at ns
      simp [found, v, Except.bind]
    · simp only [DigestTree.size] at small whole selection
      cases n with
      | zero => omega
      | succ n =>
        obtain ⟨left, right⟩ := bal.halves small
        obtain ⟨point, lsize, rsize⟩ := Balanced.split_point bal whole
        obtain ⟨first, second⟩ := selection.split lsize
        have halves := selected_split l.leaves r.leaves (by simpa using selection)
          (show (UInt64.ofNat l.size).toNat =
            l.leaves.length by rw [lsize, DigestTree.length_leaves])
        have count := length_selected (show Selection _ l.leaves.length _ by simpa using first)
        rw [multiFrontier_node H l r start none] at ns ⊢
        rw [append_assoc] at ns
        rw [DigestTree.leaves, halves] at ls
        rw [if_neg (by simpa using none), if_neg (by rw [size_eq_one]; omega), point]
        obtain ⟨sub, _⟩ := splitIndex_spec selection.ascending (start + UInt64.ofNat l.size)
        dsimp only
        generalize splitIndex js (start + UInt64.ofNat l.size) = cut at *
        have taken : (selected l.leaves start (js.take cut)).length = cut := by
          rw [count, length_take, min_eq_left sub]
        have lower : (ds.take cut).map Digest.value = selected l.leaves start (js.take cut) := by
          rw [map_take, ls, take_left' taken]
        have upper : (ds.drop cut).map Digest.value =
            selected r.leaves (start + UInt64.ofNat l.size) (js.drop cut) := by
          rw [map_drop, ls, drop_left' taken]
        refine bind_ok.mpr
          ⟨_, hl bal.2.1 left (by omega) lsize first lower ns, ?_⟩
        rw [← append_assoc] at ns
        have tail := hr bal.2.2 right (by omega : n < fuel) rsize second upper ns
        rw [length_append] at tail
        refine bind_ok.mpr ⟨_, tail, ?_⟩
        rw [length_append, add_assoc]
        rfl

theorem reconstructMultiRoot_multiFrontier (alg : UInt8) (bal : Balanced t)
    (whole : size.toNat = t.size) (selection : Selection 0 t.size js) :
    (reconstructMultiRoot H ((multiFrontier H t 0 js).map (newDigest alg)) sizeFuel 0 size
      js ((selected t.leaves 0 js).map (newDigest alg)) 0).outcome =
      .ok (t.digest H.hashBranch, (multiFrontier H t 0 js).length) := by
  have word := size.toNat_lt
  have reached := reconstructMultiRoot_eq (H := H) bal (show t.size ≤ 2 ^ 64 by omega)
    (show 64 < sizeFuel by decide) whole selection (value_newDigest alg _)
    (show ((multiFrontier H t 0 js).map (newDigest alg)).map Digest.value =
      [] ++ (multiFrontier H t 0 js ++ []) by rw [value_newDigest, append_nil, nil_append])
  simpa using reached

/-- The sizes and the indexes fix how a reconstruction joins its digests, so two reconstructions of
one root use the same leaf digests, and as many of their frontiers. -/
theorem reconstructMultiRoot_injective
    {r : D} {frontier' digests' : List (Digest D)} {position' consumed' : Nat}
    (inj : H.Injective)
    (selection : Selection start size.toNat js) (count : ds.length = js.length)
    (count' : digests'.length = js.length)
    (one : (reconstructMultiRoot H frontier fuel start size js ds position).outcome =
      .ok (r, consumed))
    (other : (reconstructMultiRoot H frontier' fuel start size js digests' position').outcome =
      .ok (r, consumed')) :
    ds.map Digest.value = digests'.map Digest.value ∧
      consumed + position' = consumed' + position := by
  induction fuel generalizing start size js ds digests' position position' consumed consumed'
    r with
  | zero => cases one
  | succ fuel ih =>
    rw [reconstructMultiRoot, poll_bind] at one other
    by_cases none : js.length = 0
    · simp only [if_pos none, bind_ok, outcome_pure, Except.ok.injEq, Prod.mk.injEq]
        at one other
      rw [eq_nil_of_length_eq_zero (count.trans none), eq_nil_of_length_eq_zero (count'.trans none)]
      exact ⟨rfl, by omega⟩
    · have nonempty : js ≠ [] := fun empty => none (by rw [empty]; rfl)
      rw [if_neg none] at one other
      by_cases single : size = 1
      · rw [if_pos single] at one other
        rw [size_eq_one.mp single] at selection
        rw [selection.single nonempty] at count count'
        obtain ⟨d, rfl⟩ := length_eq_one_iff.mp count
        obtain ⟨e, rfl⟩ := length_eq_one_iff.mp count'
        simp only [head?_cons, get_bind, outcome_pure, Except.ok.injEq, Prod.mk.injEq] at one other
        exact ⟨by simp [one.1.trans other.1.symm], by omega⟩
      · rw [if_neg single] at one other
        rw [size_eq_one] at single
        obtain ⟨i, mem⟩ := exists_mem_of_ne_nil _ nonempty
        have large : 2 ≤ size.toNat := by
          have := selection.lower i mem
          have := selection.upper i mem
          omega
        obtain ⟨lsize, rsize⟩ := split_toNat large
        have cut := split_lt large
        rw [← Nat.add_sub_cancel' cut.le] at selection
        obtain ⟨first, second⟩ := selection.split lsize
        simp only [bind_ok, Prod.exists, outcome_pure, Except.ok.injEq, Prod.mk.injEq]
          at one other
        obtain ⟨_, _, left, _, _, right, joined, rfl⟩ := one
        obtain ⟨_, _, left', _, _, right', joined', rfl⟩ := other
        obtain ⟨rfl, rfl⟩ := inj.branch _ _ _ _ (joined.trans joined'.symm)
        obtain ⟨lower, usedL⟩ := ih (lsize ▸ first) (by simp [count]) (by simp [count']) left left'
        obtain ⟨upper, usedR⟩ := ih (rsize ▸ second) (by simp [count])
          (by simp [count']) right right'
        rw [map_take, map_take] at lower
        rw [map_drop, map_drop] at upper
        refine ⟨?_, by omega⟩
        rw [← take_append_drop _ (ds.map _), lower, upper, take_append_drop]

end Reconstruction

end Golib.MerkleTree
