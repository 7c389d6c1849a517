import Golib.Lib.RadixOrder
import Golib.MerklePatriciaTrie.RangeProof
import Golib.MerklePatriciaTrie.SharedNodes

/-! The walk over the part of a trie that meets a range, told as the events it consists of,
and which entries of the trie it comes to. -/
namespace Golib.MerklePatriciaTrie

open Program List

/-! ### The part of a trie that meets a range -/

theorem raiseLast_split {digits raised : List Nibble} (some : raiseLast digits = some raised) :
    ∃ tops last next rest, digits = tops ++ last :: rest ∧ raised = next :: rest ∧ last < next := by
  induction digits with
  | nil => cases some
  | cons last rest ih =>
    rw [raiseLast] at some
    split at some
    · rename_i low
      cases some
      have raises : ∀ n : Nibble, n.val ≠ 15 → n < lowNibble (n.byte + 1) := by decide
      exact ⟨[], last, _, rest, rfl, rfl, raises last low⟩
    · obtain ⟨tops, digit, next, rest', rfl, rfl, less⟩ := ih some
      exact ⟨last :: tops, digit, next, rest', rfl, rfl, less⟩

variable {front : Path} {a b : Bytes}

theorem lt_nibblePrefixSuccessor {upper : Path} (some : nibblePrefixSuccessor front = some upper)
    (rest : Path) : front ++ rest < upper := by
  obtain ⟨raised, found, rfl⟩ := Option.map_eq_some_iff.mp some
  obtain ⟨tops, last, next, base, split, rfl, less⟩ := raiseLast_split found
  have whole : front ++ rest = base.reverse ++ last :: (tops.reverse ++ rest) := by
    rw [← reverse_reverse front, split]
    simp
  rw [whole, reverse_cons]
  exact append_left_lt (cons_lt_cons_iff.mpr (Or.inl less))

theorem intersects_of_matches {rest : Path} {bd : RangeBounds}
    (sub : rangePathMatches (front ++ rest) bd = true) :
    rangeSubtreeIntersects front bd = true := by
  simp only [rangePathMatches, decide_eq_true_eq] at sub
  obtain ⟨low, high⟩ := sub
  have longer : front ≤ front ++ rest := by
    rw [← not_lt]
    exact List.not_lt.mpr List.le_append_left
  unfold rangeSubtreeIntersects
  rw [if_neg]
  · cases upper : nibblePrefixSuccessor front with
    | none => rfl
    | some upper =>
      exact decide_eq_true (lt_of_le_of_lt low (lt_nibblePrefixSuccessor ‹_› rest))
  · rintro ⟨bounded, after⟩
    rcases high with unbounded | before
    · exact bounded unbounded
    · exact absurd (lt_of_lt_of_le before (after.trans longer)) (lt_irrefl _)

/-! ### Bytes and nibbles -/

theorem byte_lt_iff (a b : UInt8) :
    a < b ↔ highNibble a < highNibble b ∨ highNibble a = highNibble b ∧ lowNibble a <
    lowNibble b := by
  have high : ∀ x : UInt8, (highNibble x).val = x.toNat / 16 := by
    intro x
    have := x.toNat_lt
    simp [highNibble, Nat.shiftRight_eq_div_pow]
    omega
  have low : ∀ x : UInt8, (lowNibble x).val = x.toNat % 16 := by
    intro x
    have := Nat.and_two_pow_sub_one_eq_mod x.toNat 4
    simp [lowNibble] at *
    omega
  rw [UInt8.lt_iff_toNat_lt, Fin.lt_def, Fin.ext_iff, Fin.lt_def, high, high, low, low]
  omega

theorem bytesToNibbles_lt : bytesToNibbles a < bytesToNibbles b ↔ a < b := by
  induction a generalizing b with
  | nil =>
    cases b with
    | nil | cons => simp [bytesToNibbles]
  | cons x a ih =>
    cases b with
    | nil => simp [bytesToNibbles]
    | cons y b =>
      rw [bytesToNibbles, bytesToNibbles, cons_lt_cons_iff, cons_lt_cons_iff,
        cons_lt_cons_iff, ih, byte_lt_iff]
      constructor
      · rintro (high | ⟨eq, low | ⟨same', rest⟩⟩)
        · exact Or.inl (Or.inl high)
        · exact Or.inl (Or.inr ⟨eq, low⟩)
        · refine Or.inr ⟨?_, rest⟩
          have equal := bytesToNibbles_injective (a := [x]) (b := [y])
            (by simp only [bytesToNibbles, eq, same'])
          exact (cons.inj equal).1
      · rintro ((high | ⟨eq, low⟩) | ⟨rfl, rest⟩)
        · exact Or.inl high
        · exact Or.inr ⟨eq, Or.inl low⟩
        · exact Or.inr ⟨rfl, Or.inr ⟨rfl, rest⟩⟩

theorem bytesToNibbles_le : bytesToNibbles a ≤ bytesToNibbles b ↔ a ≤ b := by
  rw [← not_lt, bytesToNibbles_lt]
  exact List.not_lt

/-! ### The events of a walk -/

inductive RangeEvent where
  | visit (depth : Nat)
  | load (encoded : Bytes)
  | emit (path : Path) (value : Bytes)

def visited (events : List RangeEvent) : List Nat :=
  events.filterMap fun
    | .visit depth => some depth
    | _ => none

def loaded (events : List RangeEvent) : List Bytes :=
  events.filterMap fun
    | .load encoded => some encoded
    | _ => none

def emitted (bounds : RangeBounds) (events : List RangeEvent) : List (Path × Bytes) :=
  events.filterMap fun
    | .emit path value => if rangePathMatches path bounds then some (path, value) else none
    | _ => none

variable {work : Work}

section

variable (keccak : Bytes → Root) (bounds : RangeBounds)

/-- What happens on the walk over a trie under a prefix. -/
def rangeEvents : Tree → Path → Nat → List RangeEvent
  | trie, front, depth =>
    if rangeSubtreeIntersects front bounds then
      .visit depth :: match trie with
        | .nil => []
        | .leaf path value => [.emit (front ++ path) value.val]
        | .ext path child =>
          if rangeSubtreeIntersects (front ++ path) bounds then
            (shown keccak child).map .load ++ rangeEvents child (front ++ path) (depth + 1)
          else []
        | .branch children value =>
          (value.map fun v => .emit front v.val).toList ++
            (finRange 16).flatMap fun i =>
              if (children i).isNil then []
              else if rangeSubtreeIntersects (front ++ [i]) bounds then
                (shown keccak (children i)).map .load ++
                  rangeEvents (children i) (front ++ [i]) (depth + 1)
              else []
    else []

def childEvents (children : Nibble → Tree) (front : Path) (depth : Nat) (i : Nibble) :
    List RangeEvent :=
  if (children i).isNil then []
  else if rangeSubtreeIntersects (front ++ [i]) bounds then
    (shown keccak (children i)).map .load ++
      rangeEvents keccak bounds (children i) (front ++ [i]) (depth + 1)
  else []

variable {H : Bytes → Root} {bd : RangeBounds} {K : Set Bytes}

theorem rangeEvents_branch (kids : Nibble → Tree) (value : Option Content) (front : Path)
    (d : Nat) (meets : rangeSubtreeIntersects front bd = true) :
    rangeEvents H bd (.branch kids value) front d =
      .visit d :: ((value.map fun v => .emit front v.val).toList ++
        (finRange 16).flatMap (childEvents H bd kids front d)) := by
  rw [rangeEvents, if_pos meets]
  rfl

theorem rangeEvents_ext (p : Path) (c : Tree) (front : Path) (d : Nat)
    (meets : rangeSubtreeIntersects front bd = true) :
    rangeEvents H bd (.ext p c) front d =
      .visit d :: if rangeSubtreeIntersects (front ++ p) bd then
        (shown H c).map .load ++ rangeEvents H bd c (front ++ p) (d + 1)
      else [] := by
  rw [rangeEvents, if_pos meets]

theorem rangeEvents_outside (t : Tree) (front : Path) (d : Nat)
    (misses : ¬ rangeSubtreeIntersects front bd = true) : rangeEvents H bd t front d = [] := by
  cases t <;> rw [rangeEvents, if_neg misses]

theorem rangeWalk_outside {σ : Type} (walker : RangeWalker σ) (fuel : Nat) (n : Node)
    (d : Nat) (s : σ) (misses : ¬ rangeSubtreeIntersects front bd = true) :
    rangeWalk walker bd fuel n front d s = pure s := by
  cases fuel with
  | zero => rw [rangeWalk, if_neg misses]
  | succ fuel => rw [rangeWalk, if_pos misses]

/-! ### The entries of the range -/

@[simp] theorem emitted_append (es events' : List RangeEvent) :
    emitted bd (es ++ events') = emitted bd es ++ emitted bd events' :=
  filterMap_append

@[simp] theorem emitted_visit (d : Nat) (es : List RangeEvent) :
    emitted bd (.visit d :: es) = emitted bd es := rfl

theorem emitted_loads (enc : List Bytes) : emitted bd (enc.map .load) = [] := by
  induction enc with
  | nil => rfl
  | cons b enc ih => exact ih

theorem emitted_flatMap {α : Type} (f : α → List RangeEvent) (xs : List α) :
    emitted bd (xs.flatMap f) = xs.flatMap fun x => emitted bd (f x) := by
  induction xs with
  | nil => rfl
  | cons x xs ih => rw [flatMap_cons, emitted_append, ih, flatMap_cons]

/-- The entries of a trie under a prefix that lie in the range. -/
def rangeEntries (bounds : RangeBounds) (trie : Tree) (front : Path) : List (Path × Bytes) :=
  (trie.entries.map fun entry => (front ++ entry.1, entry.2.val)).filter fun entry =>
    rangePathMatches entry.1 bounds

theorem rangeEntries_outside (t : Tree) (front : Path)
    (misses : ¬ rangeSubtreeIntersects front bd = true) : rangeEntries bd t front = [] := by
  rw [rangeEntries, filter_eq_nil_iff]
  intro e mem sub
  obtain ⟨⟨p, v⟩, -, rfl⟩ := mem_map.mp mem
  exact misses (intersects_of_matches sub)

def entriesUnder (trie : Tree) (front : Path) : List (Path × Bytes) :=
  trie.entries.map fun entry => (front ++ entry.1, entry.2.val)

theorem entriesUnder_ext (p : Path) (c : Tree) (front : Path) :
    entriesUnder (.ext p c) front = entriesUnder c (front ++ p) := by
  rw [entriesUnder, entriesUnder, Radix.entries, map_map]
  congr 1
  funext e
  simp

theorem entriesUnder_branch (kids : Nibble → Tree) (value : Option Content) (front : Path) :
    entriesUnder (.branch kids value) front = (value.map fun v => (front, v.val)).toList ++
      (finRange 16).flatMap fun i => entriesUnder (kids i) (front ++ [i]) := by
  rw [entriesUnder, Radix.entries, map_append, map_flatMap]
  congr 1
  · cases value <;> simp
  · congr 1
    funext i
    rw [entriesUnder, map_map]
    congr 1
    funext e
    simp

theorem rangeEntries_ext (p : Path) (c : Tree) (front : Path) :
    rangeEntries bd (.ext p c) front = rangeEntries bd c (front ++ p) :=
  congrArg (filter _) (entriesUnder_ext p c front)

theorem rangeEntries_branch (kids : Nibble → Tree) (value : Option Content) (front : Path) :
    rangeEntries bd (.branch kids value) front =
      emitted bd (value.map fun v => RangeEvent.emit front v.val).toList ++
        (finRange 16).flatMap fun i => rangeEntries bd (kids i) (front ++ [i]) := by
  refine (congrArg (filter _) (entriesUnder_branch kids value front)).trans ?_
  rw [filter_append, filter_flatMap]
  congr 1
  cases value with
  | none => rfl
  | some v =>
    by_cases sub : rangePathMatches front bd = true
    · simp [emitted, sub]
    · simp [emitted, sub]

/-- The walk comes to exactly the entries of the range: what it leaves out holds none. -/
theorem emitted_rangeEvents (t : Tree) (front : Path) (d : Nat) :
    emitted bd (rangeEvents H bd t front d) = rangeEntries bd t front := by
  induction t generalizing front d with
  | nil =>
    rw [rangeEvents]
    split <;> rfl
  | leaf p v =>
    by_cases meets : rangeSubtreeIntersects front bd = true
    · rw [rangeEvents, if_pos meets, emitted_visit, rangeEntries, Radix.entries]
      by_cases sub : rangePathMatches (front ++ p) bd = true
      · simp [emitted, sub]
      · simp [emitted, sub]
    · rw [rangeEvents_outside _ _ _ meets, rangeEntries_outside _ _ meets]
      rfl
  | ext p c ih =>
    by_cases meets : rangeSubtreeIntersects front bd = true
    · rw [rangeEvents_ext p c front d meets, emitted_visit, rangeEntries_ext]
      split
      · rw [emitted_append, emitted_loads, ih]
        rfl
      · rename_i misses
        rw [rangeEntries_outside c _ misses]
        rfl
    · rw [rangeEvents_outside _ _ _ meets, rangeEntries_outside _ _ meets]
      rfl
  | branch kids v ih =>
    by_cases meets : rangeSubtreeIntersects front bd = true
    · rw [rangeEvents_branch kids v front d meets, emitted_visit, emitted_append,
        emitted_flatMap, rangeEntries_branch]
      congr 2
      funext i
      unfold childEvents
      split
      · rename_i vacant
        rw [Radix.isNil_eq_true.mp vacant]
        rfl
      split
      · rw [emitted_append, emitted_loads, ih]
        rfl
      · rename_i misses
        rw [rangeEntries_outside _ _ misses]
        rfl
    · rw [rangeEvents_outside _ _ _ meets, rangeEntries_outside _ _ meets]
      rfl

/-! ### The walk -/

/-- A walker that tells by its state which events there were; `failed` tells which events an
error is due to. -/
structure RangeWalker.Tracks (keccak : Bytes → Root)
    {σ : Type} (walker : RangeWalker σ) (K : Set Bytes) (maximum : Nat)
    (findable : Bytes → Prop) (fine : Path → Prop) (now : List RangeEvent → σ → Work → Prop)
    (failed : List RangeEvent → Err → Prop) : Prop where
  visit : ∀ {events state work}, now events state work → ∀ depth,
    Ends (walker.visit depth state) work (now (events ++ [.visit depth]))
      (failed (events ++ [.visit depth]))
  load : ∀ {events state work}, now events state work → ∀ {trie : Tree}, Stored keccak K trie →
    rootBytes ≤ (treeBytes keccak trie).length → findable (treeBytes keccak trie) →
    Ends (walker.load (keccak (treeBytes keccak trie)) state) work
      (fun r work' => r.1 = freeze keccak trie ∧
        now (events ++ [.load (treeBytes keccak trie)]) r.2 work')
      (failed (events ++ [.load (treeBytes keccak trie)]))
  emit : ∀ {events state work}, now events state work → ∀ path, fine path → ∀ value : Content,
    Ends (walker.emit path value.val state) work (now (events ++ [.emit path value.val]))
      (failed (events ++ [.emit path value.val]))
  bounded : ∀ {events state work}, now events state work → (visited events).length ≤ maximum
  mono : ∀ {events events' e}, failed events e → events <+: events' → failed events' e

section

variable {σ : Type} {walker : RangeWalker σ} {maximum depth : Nat} {findable : Bytes → Prop}
  {fine : Path → Prop} {now : List RangeEvent → σ → Work → Prop}
  {failed : List RangeEvent → Err → Prop}
  (tracks : walker.Tracks H K maximum findable fine now failed) {events : List RangeEvent}
  {state : σ} {trie : Tree}

include tracks

theorem RangeWalker.Tracks.branchChild (begun : now events state work)
    (stored : trie ≠ .nil → Stored H K trie) (found : ∀ b ∈ entry H trie, findable b) :
    Ends (walker.branchChild (link H (treeBytes H trie) (freeze H trie)) state) work
      (fun r work' => r.1 = freeze H trie ∧ now (events ++ (shown H trie).map .load) r.2 work')
      (failed (events ++ (shown H trie).map .load)) := by
  unfold link shown
  split
  · rw [map_nil, append_nil]
    unfold RangeWalker.branchChild
    cases shape : freeze H trie with
    | hash root => exact absurd shape (freeze_ne_hash trie root)
    | nil | leaf | extension | branch => exact ends_pure ⟨rfl, begun⟩
  · rename_i large
    have large : rootBytes ≤ (treeBytes H trie).length := by omega
    exact tracks.load begun (stored (ne_nil_of_large large)) large
      (found _ (mem_entry.mpr ⟨rfl, large⟩))

theorem RangeWalker.Tracks.extensionChild (begun : now events state work) (stored : Stored H K trie)
    (branching : trie.IsBranch) (found : ∀ b ∈ entry H trie, findable b) :
    Ends (walker.extensionChild (link H (treeBytes H trie) (freeze H trie)) state) work
      (fun r work' => r.1 = freeze H trie ∧ now (events ++ (shown H trie).map .load) r.2 work')
      (failed (events ++ (shown H trie).map .load)) := by
  cases trie with
  | nil | leaf | ext => exact absurd branching id
  | branch kids value =>
    unfold link shown
    split
    · rw [map_nil, append_nil]
      exact ends_pure ⟨rfl, begun⟩
    · rename_i large
      have large : rootBytes ≤ (treeBytes H (.branch kids value)).length := by omega
      refine Ends.bind (tracks.load begun stored large (found _ (mem_entry.mpr ⟨rfl, large⟩))) ?_
      rintro ⟨node, state'⟩ work' ⟨rfl, now'⟩
      exact ends_pure ⟨rfl, now'⟩

/-- The children of a branch, where the walk below each child goes through its events. -/
theorem RangeWalker.Tracks.walkChildren {bounds : RangeBounds} (base : List RangeEvent)
    {kids : Nibble → Tree} {walk : Node → Path → σ → Task σ}
    (stored : ∀ i, kids i ≠ .nil → Stored H K (kids i))
    (found : ∀ i, ∀ b ∈ entry H (kids i), findable b)
    (below : ∀ i {events state work}, now events state work → base <+: events →
      Ends (walk (freeze H (kids i)) (front ++ [i]) state) work
        (now (events ++ rangeEvents H bounds (kids i) (front ++ [i]) (depth + 1)))
        (failed (events ++ rangeEvents H bounds (kids i) (front ++ [i]) (depth + 1))))
    (digits : List Nibble) (begun : now events state work) (front' : base <+: events) :
    Ends (walker.walkChildren bounds walk
        (fun i => link H (treeBytes H (kids i)) (freeze H (kids i))) front
        digits state) work
      (now (events ++ digits.flatMap (childEvents H bounds kids front depth)))
      (failed (events ++ digits.flatMap (childEvents H bounds kids front depth))) := by
  induction digits generalizing events state work with
  | nil =>
    rw [flatMap_nil, append_nil]
    exact ends_pure begun
  | cons i digits ih =>
    unfold RangeWalker.walkChildren
    rw [flatMap_cons, isNil_link]
    unfold childEvents
    split
    · exact ih begun front'
    by_cases meets : rangeSubtreeIntersects (front ++ [i]) bounds = true
    · rw [if_neg (not_not.mpr meets), if_pos meets, ← append_assoc, ← append_assoc]
      refine Ends.bind ((tracks.branchChild begun (stored i) (found i)).weaken
        (fun e stopped => tracks.mono stopped ((prefix_append _ _).trans
          (prefix_append _ _)))) ?_
      rintro ⟨node, state'⟩ work' ⟨rfl, now'⟩
      refine Ends.bind ((below i now' (front'.trans (prefix_append _ _))).weaken
        (fun e stopped => tracks.mono stopped (prefix_append _ _))) ?_
      intro state'' work'' now''
      exact ih now'' (front'.trans ((prefix_append _ _).trans (prefix_append _ _)))
    · rw [if_pos meets, if_neg meets, nil_append]
      exact ih begun front'

/-- The walk goes through its events, or fails because of one of them. -/
theorem RangeWalker.Tracks.walk {bounds : RangeBounds} {fuel : Nat} (begun : now events state work)
    (stored : trie ≠ .nil → Stored H K trie) (found : ∀ b ∈ hashedBelow H trie, findable b)
    (whole : ∀ path v, trie.lookup path = some v → fine (front ++ path))
    (enough : maximum ≤ fuel + (visited events).length) :
    Ends (rangeWalk walker bounds fuel (freeze H trie) front depth state) work
      (now (events ++ rangeEvents H bounds trie front depth))
      (failed (events ++ rangeEvents H bounds trie front depth)) := by
  have visits : ∀ (es : List RangeEvent) (d : Nat), (visited (es ++ [.visit d])).length =
      (visited es).length + 1 := by
    intro es d
    rw [visited, filterMap_append, length_append]
    rfl
  by_cases meets : rangeSubtreeIntersects front bounds = true
  swap
  · rw [rangeEvents_outside _ _ _ meets, append_nil, rangeWalk_outside _ _ _ _ _ meets]
    exact ends_pure begun
  induction fuel generalizing trie front depth events state work with
  | zero =>
    -- a visit with no nodes left does not succeed
    unfold rangeWalk
    rw [if_pos meets]
    refine (tracks.visit begun depth).mono (fun state' work' now' => ?_) fun e stopped => ?_
    · have := tracks.bounded now'
      rw [visits] at this
      omega
    · exact tracks.mono stopped ((prefix_append_right_inj _).mpr
        (by cases trie <;> rw [rangeEvents, if_pos meets] <;> exact ⟨_, rfl⟩))
  | succ fuel ih =>
    unfold rangeWalk
    rw [if_neg (not_not.mpr meets)]
    have first : ∀ rest : List RangeEvent, events ++ .visit depth :: rest =
        events ++ [.visit depth] ++ rest := fun rest => by simp
    -- the walk below this node has one node less, and one visit more behind it
    have deeper : ∀ {t : Tree} {front' : Path} {events' : List RangeEvent} {state' : σ}
      {work' : Work},
        now events' state' work' → events ++ [.visit depth] <+: events' →
        (t ≠ .nil → Stored H K t) → (∀ b ∈ hashedBelow H t, findable b) →
        (∀ path v, t.lookup path = some v → fine (front' ++ path)) →
        Ends (rangeWalk walker bounds fuel (freeze H t) front' (depth + 1) state') work'
          (now (events' ++ rangeEvents H bounds t front' (depth + 1)))
          (failed (events' ++ rangeEvents H bounds t front' (depth + 1))) := by
      intro t front' events' state' work' now' longer stored' found' whole'
      by_cases meets' : rangeSubtreeIntersects front' bounds = true
      · refine ih now' stored' found' whole' ?_ meets'
        obtain ⟨rest, rfl⟩ := longer
        have grows : (visited (events ++ [.visit depth])).length ≤
            (visited (events ++ [.visit depth] ++ rest)).length := by
          have split : visited (events ++ [.visit depth] ++ rest) =
              visited (events ++ [.visit depth]) ++ visited rest := filterMap_append
          rw [split, length_append]
          omega
        rw [visits] at grows
        omega
      · rw [rangeEvents_outside _ _ _ meets', append_nil, rangeWalk_outside _ _ _ _ _ meets']
        exact ends_pure now'
    cases trie with
    | nil =>
      rw [rangeEvents, if_pos meets]
      refine (tracks.visit begun depth).bind fun state' work' now' => ends_pure now'
    | leaf path value =>
      rw [rangeEvents, if_pos meets, first]
      refine Ends.bind ((tracks.visit begun depth).weaken
        (fun e stopped => tracks.mono stopped (prefix_append _ _))) fun state' work' now' => ?_
      exact tracks.emit now' _ (whole path value (by simp [Radix.lookup_leaf])) value
    | ext path child =>
      have stored := stored (by simp)
      rw [rangeEvents_ext path child front depth meets, first]
      refine Ends.bind ((tracks.visit begun depth).weaken
        (fun e stopped => tracks.mono stopped (prefix_append _ _))) fun state' work' now' => ?_
      rw [freeze]
      dsimp only
      by_cases meets' : rangeSubtreeIntersects (front ++ path) bounds = true
      · rw [if_neg (not_not.mpr meets'), if_pos meets', ← append_assoc]
        refine Ends.bind ((tracks.extensionChild now' stored.below stored.proper.2.1
          (fun b mem => found b (Multiset.mem_add.mpr (Or.inl mem)))).weaken
          (fun e stopped => tracks.mono stopped (prefix_append _ _))) ?_
        rintro ⟨node, state''⟩ work'' ⟨rfl, now''⟩
        refine deeper now'' (prefix_append _ _) (fun _ => stored.below)
          (fun b mem => found b (Multiset.mem_add.mpr (Or.inr mem))) fun rest v held => ?_
        have held := whole (path ++ rest) v (by rw [Radix.lookup_ext_append]; exact held)
        rwa [append_assoc]
      · rw [if_pos meets', if_neg meets', append_nil]
        exact ends_pure now'
    | branch kids value =>
      have stored := stored (by simp)
      rw [rangeEvents_branch kids value front depth meets, first, ← append_assoc]
      refine Ends.bind ((tracks.visit begun depth).weaken
        (fun e stopped => tracks.mono stopped ((prefix_append _ _).trans
          (prefix_append _ _)))) fun state' work' now' => ?_
      rw [freeze]
      dsimp only
      have rest : ∀ state'' work'', now (events ++ [.visit depth] ++
            (value.map fun v => RangeEvent.emit front v.val).toList) state'' work'' →
          Ends (walker.walkChildren bounds
            (fun child front state => rangeWalk walker bounds fuel child front (depth + 1) state)
            (fun i => link H (treeBytes H (kids i)) (freeze H (kids i))) front
            (finRange 16) state'') work''
          (now (events ++ [.visit depth] ++
            (value.map fun v => RangeEvent.emit front v.val).toList ++
              (finRange 16).flatMap (childEvents H bounds kids front depth)))
          (failed (events ++ [.visit depth] ++
            (value.map fun v => RangeEvent.emit front v.val).toList ++
              (finRange 16).flatMap (childEvents H bounds kids front depth))) := by
        intro state'' work'' now''
        refine tracks.walkChildren (events ++ [.visit depth]) (fun i => stored.child)
          (fun i b mem => found b (Multiset.mem_sum.mpr ⟨i, Finset.mem_univ i,
            Multiset.mem_add.mpr (Or.inl mem)⟩)) ?_ _ now'' (prefix_append _ _)
        intro i events' state' work' begun' longer
        refine deeper begun' longer stored.child (fun b mem => found b (Multiset.mem_sum.mpr
          ⟨i, Finset.mem_univ i, Multiset.mem_add.mpr (Or.inr mem)⟩)) fun rest v held => ?_
        have held := whole (i :: rest) v held
        rwa [append_assoc]
      cases value with
      | none =>
        refine rest state' work' ?_
        rwa [Option.map_none, Option.toList_none, append_nil]
      | some v =>
        have filled : (contentBytes (some v)).length ≠ 0 :=
          fun none => v.property (eq_nil_of_length_eq_zero none)
        rw [if_pos filled]
        have held := whole [] v rfl
        rw [append_nil] at held
        exact Ends.bind ((tracks.emit now' front held v).weaken
          (fun e stopped => tracks.mono stopped (prefix_append _ _))) rest

end

end

end Golib.MerklePatriciaTrie
