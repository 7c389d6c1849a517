import Golib.MerklePatriciaTrie.MultiProofs
import Golib.MerklePatriciaTrie.RangeWalk

/-! Range proofs: the prover lists exactly the entries of the interval, and the verifier
accepts exactly these, with exactly the nodes that show them. -/
namespace Golib.MerklePatriciaTrie

open Program Session List Set

def rawBounds (start stop : Bytes) : RangeBounds :=
  ⟨start, stop, bytesToNibbles start, bytesToNibbles stop, false⟩

def itemOf (entry : Path × Bytes) : RangeItem := newRangeItem (packNibbles entry.1) entry.2

/-- The key lies in the interval; an empty `stop` bounds nothing. -/
def InRange (start stop key : Bytes) : Prop := start ≤ key ∧ (stop = [] ∨ key < stop)

/-- The items are exactly the entries of the map in the interval, in ascending order. -/
structure Lists (contents : Bytes → Option Content) (start stop : Bytes) (items : List RangeItem) :
    Prop where
  sorted : items.Pairwise fun a b => a.key < b.key
  exact : ∀ item, item ∈ items ↔ item.valid = true ∧
    (contents item.key).map Subtype.val = some item.value ∧ InRange start stop item.key

theorem rangePathKey_bytes {sec : Bool}
    (key : Bytes) (sized : sec = true → key.length = rootBytes) :
    rangePathKey (bytesToNibbles key) sec = .ok key := by
  unfold rangePathKey
  rw [if_neg (by rw [length_bytesToNibbles]; omega)]
  simpa [pack_bytesToNibbles] using sized

variable {stop key : Bytes} {lim : Limits}

theorem rangePathMatches_raw {start : Bytes} :
    rangePathMatches (bytesToNibbles key) (rawBounds start stop) = true ↔
    InRange start stop key := by
  have none : (bytesToNibbles stop).length = 0 ↔ stop = [] := by
    rw [length_bytesToNibbles]
    constructor
    · exact fun zero => eq_nil_of_length_eq_zero (by omega)
    · rintro rfl
      rfl
  simp only [rangePathMatches, rawBounds, decide_eq_true_eq, bytesToNibbles_le, bytesToNibbles_lt,
    none, InRange]

theorem rangeBytesMatch_raw {start : Bytes} :
    rangeBytesMatch key (rawBounds start stop) = true ↔ InRange start stop key := by
  simp only [rangeBytesMatch, rawBounds, decide_eq_true_eq, length_eq_zero_iff, InRange]

theorem newRangeBounds_raw {start : Bytes} :
    (∀ bd, newRangeBounds start stop lim false = .ok bd → bd = rawBounds start stop) ∧
    (∀ e, newRangeBounds start stop lim false = .error e → (stop = [] ∨ start < stop) →
      e.Declines ∧ ¬ (start.length ≤ lim.maxKeyBytes ∧ stop.length ≤ lim.maxKeyBytes)) := by
  unfold newRangeBounds
  simp only [Bool.false_eq_true, false_and, if_false]
  constructor
  · intro bd made
    split at made
    · cases made
    split at made
    · cases made
    · exact (Except.ok.inj made).symm
  · intro e refused ordered
    split at refused
    · rename_i long
      cases refused
      exact ⟨trivial, by omega⟩
    split at refused
    · rename_i reversed
      rcases ordered with rfl | less
      · exact absurd rfl reversed.1
      · exact absurd less (List.not_lt.mpr reversed.2)
    · cases refused

variable {p : Path} {contents : Bytes → Option Content} {es : List RangeEvent} {w : Work}

section

variable (keccak : Bytes → Root) {t : Tree} {prev : Option Bytes}

def walkOf (trie : Tree) (start stop : Bytes) : List RangeEvent :=
  rangeEvents keccak (rawBounds start stop) trie [] 0

def rangeItemsOf (trie : Tree) (start stop : Bytes) : List RangeItem :=
  (rangeEntries (rawBounds start stop) trie []).map itemOf

def rangeProofOf (trie : Tree) (start stop : Bytes) : Proof :=
  if trie.isNil then []
  else firstUses [] (treeBytes keccak trie :: loaded (walkOf keccak trie start stop))

variable {H : Bytes → Root} {K : Set Bytes} {bd : RangeBounds} {xs : List RangeItem} {b : Bytes}

theorem mem_rangeEntries {start : Bytes} {e : Path × Bytes} :
    e ∈ rangeEntries (rawBounds start stop) t [] ↔
      (t.lookup e.1).map Subtype.val = some e.2 ∧
        rangePathMatches e.1 (rawBounds start stop) = true := by
  obtain ⟨p, v⟩ := e
  rw [rangeEntries, mem_filter, mem_map]
  refine and_congr_left fun _ => ?_
  constructor
  · rintro ⟨⟨path', content⟩, mem, eq⟩
    cases eq
    rw [nil_append, Radix.mem_entries.mp mem]
    rfl
  · intro found
    obtain ⟨content, held, rfl⟩ := Option.map_eq_some_iff.mp found
    exact ⟨(p, content), Radix.mem_entries.mpr held, rfl⟩

theorem rangeEntries_sorted (t : Tree) (bd : RangeBounds) :
    (rangeEntries bd t []).Pairwise fun a b => a.1 < b.1 := by
  refine Pairwise.filter _ (pairwise_map.mpr ?_)
  exact t.entries_sorted.imp fun less => less

theorem lists_rangeItemsOf (held : Matches H false univ t contents) (start stop : Bytes) :
    Lists contents start stop (rangeItemsOf t start stop) := by
  have keyed : ∀ e ∈ rangeEntries (rawBounds start stop) t [], ∃ key, e.1 = bytesToNibbles key := by
    intro e mem
    obtain ⟨content, found, -⟩ := Option.map_eq_some_iff.mp (mem_rangeEntries.mp mem).1
    exact (held.keys e.1 (by rw [found]; simp)).imp fun _ => And.right
  refine ⟨?_, fun item => ?_⟩
  · rw [rangeItemsOf, pairwise_map]
    refine (rangeEntries_sorted t _).imp_of_mem fun {a b} mem mem' less => ?_
    obtain ⟨key, eq⟩ := keyed a mem
    obtain ⟨key', same'⟩ := keyed b mem'
    rw [eq, same', bytesToNibbles_lt] at less
    rw [itemOf, itemOf, eq, same']
    simpa [newRangeItem, pack_bytesToNibbles] using less
  · rw [rangeItemsOf, mem_map]
    constructor
    · rintro ⟨e, mem, rfl⟩
      obtain ⟨key, eq⟩ := keyed e mem
      obtain ⟨found, sub⟩ := mem_rangeEntries.mp mem
      rw [eq] at found sub
      have key_eq : (itemOf e).key = key := by
        rw [itemOf, eq]
        exact pack_bytesToNibbles key
      rw [key_eq, ← held.values key trivial]
      exact ⟨rfl, found, rangePathMatches_raw.mp sub⟩
    · rintro ⟨valid, found, sub⟩
      rw [← held.values item.key trivial] at found
      refine ⟨(bytesToNibbles item.key, item.value), mem_rangeEntries.mpr
        ⟨found, rangePathMatches_raw.mpr sub⟩, ?_⟩
      obtain ⟨key, v, _⟩ := item
      cases valid
      simp [itemOf, newRangeItem, pack_bytesToNibbles]

/-! ### Events -/

@[simp] theorem visited_append (es events' : List RangeEvent) :
    visited (es ++ events') = visited es ++ visited events' := filterMap_append

@[simp] theorem loaded_append (es events' : List RangeEvent) :
    loaded (es ++ events') = loaded es ++ loaded events' := filterMap_append

theorem visited_snoc (es : List RangeEvent) (d : Nat) :
    visited (es ++ [.visit d]) = visited es ++ [d] := visited_append _ _

theorem loaded_snoc (top : Bytes) (es : List RangeEvent) (b : Bytes) :
    top :: loaded (es ++ [.load b]) = top :: loaded es ++ [b] :=
  congrArg (cons top) (loaded_append _ _)

structure WalkRoom (limits : Limits) (bounds : RangeBounds) (events : List RangeEvent) : Prop where
  visits : (visited events).length ≤ limits.maxTraversalNodes
  depth : ∀ depth ∈ visited events, depth ≤ limits.maxTraversalDepth
  items : (emitted bounds events).length ≤ limits.maxProofKeys

theorem WalkRoom.mono {events' : List RangeEvent}
    (room : WalkRoom lim bd events') (front : es <+: events') :
    WalkRoom lim bd es := by
  obtain ⟨rest, rfl⟩ := front
  obtain ⟨vs, depth, xs⟩ := room
  rw [visited_append, length_append] at vs
  rw [visited_append] at depth
  rw [emitted_append, length_append] at xs
  exact ⟨by omega, fun d mem => depth d (mem_append_left _ mem), by omega⟩

theorem loaded_loads (enc : List Bytes) : loaded (enc.map .load) = enc := by
  induction enc with
  | nil => rfl
  | cons b enc ih => exact congrArg (cons b) ih

theorem loaded_flatMap {α : Type} (f : α → List RangeEvent) (xs : List α) :
    loaded (xs.flatMap f) = xs.flatMap fun x => loaded (f x) := by
  induction xs with
  | nil => rfl
  | cons x xs ih => rw [flatMap_cons, loaded_append, ih, flatMap_cons]

theorem exists_stored_of_loaded {front : Path} {depth : Nat} (stored : t ≠ .nil → Stored H K t)
    (member : b ∈ loaded (rangeEvents H bd t front depth)) :
    ∃ s, Stored H K s ∧ b = treeBytes H s := by
  induction t generalizing front depth with
  | nil | leaf =>
    rw [rangeEvents] at member
    split at member <;> cases member
  | ext p c ih =>
    have below : c ≠ .nil → Stored H K c := fun _ => (stored (by simp)).below
    by_cases meets : rangeSubtreeIntersects front bd = true
    · rw [rangeEvents_ext p c front depth meets] at member
      split at member
      · have member : b ∈ loaded ((shown H c).map .load ++
            rangeEvents H bd c (front ++ p) (depth + 1)) := member
        rw [loaded_append, loaded_loads] at member
        rcases mem_append.mp member with here | deeper
        · exact mem_shown below here
        · exact ih below deeper
      · cases member
    · rw [rangeEvents_outside _ _ _ meets] at member
      cases member
  | branch kids value ih =>
    have below : ∀ i, kids i ≠ .nil → Stored H K (kids i) := fun i => (stored (by simp)).child
    by_cases meets : rangeSubtreeIntersects front bd = true
    · rw [rangeEvents_branch kids value front depth meets] at member
      have member : b ∈ loaded ((value.map fun v => RangeEvent.emit front v.val).toList ++
          (finRange 16).flatMap (childEvents H bd kids front depth)) := member
      rw [loaded_append, loaded_flatMap] at member
      rcases mem_append.mp member with own | deeper
      · cases value <;> cases own
      · obtain ⟨i, -, member⟩ := mem_flatMap.mp deeper
        unfold childEvents at member
        split at member
        · cases member
        split at member
        · rw [loaded_append, loaded_loads] at member
          rcases mem_append.mp member with here | deeper
          · exact mem_shown (below i) here
          · exact ih i (below i) deeper
        · cases member
    · rw [rangeEvents_outside _ _ _ meets] at member
      cases member

theorem rangeProofOf_proper (some : t ≠ .nil) (start stop : Bytes) :
    rangeProofOf H t start stop = firstUses [] (treeBytes H t :: loaded (walkOf H t start stop)) :=
  if_neg (by simpa using some)

theorem exists_stored_of_range (stored : t ≠ .nil → Stored H K t) {start : Bytes}
    (mem : b ∈ rangeProofOf H t start stop) : ∃ s, Stored H K s ∧ b = treeBytes H s := by
  by_cases none : t = .nil
  · rw [none] at mem
    cases mem
  · rw [rangeProofOf_proper none] at mem
    rcases mem_cons.mp (mem_firstUses.mp mem).1 with rfl | below
    · exact ⟨t, stored none, rfl⟩
    · exact exists_stored_of_loaded stored below

/-! ### Generation -/

/-- The limits of a snapshot that do not stand in the way of a range proof. -/
structure Snapshot.AllowsRange (keccak : Bytes → Root) (ctx : Context) (snapshot : Snapshot)
    (trie : Tree) (start stop : Bytes) : Prop where
  live : ctx.Live
  endpoints : start.length ≤ snapshot.limits.maxKeyBytes ∧ stop.length ≤ snapshot.limits.maxKeyBytes
  walk : WalkRoom snapshot.limits (rawBounds start stop) (walkOf keccak trie start stop)
  nodes : (rangeProofOf keccak trie start stop).length ≤ snapshot.limits.maxProofNodes
  bytes : ((rangeProofOf keccak trie start stop).map length).sum ≤ snapshot.limits.maxProofBytes
  hashes : (rangeProofOf keccak trie start stop).length ≤ snapshot.limits.maxHashOperations
  reads : (rangeProofOf keccak trie start stop).length ≤ snapshot.limits.maxNodeReads
  encoding : snapshot.root.visits ≤ snapshot.limits.maxEncodingNodes

def IsKeyPath (path : Path) : Prop := ∃ key, path = bytesToNibbles key

theorem emitted_snoc_inside (es : List RangeEvent) (v : Bytes)
    (sub : rangePathMatches p bd = true) :
    emitted bd (es ++ [.emit p v]) = emitted bd es ++ [(p, v)] := by
  simp [emitted, sub]

theorem emitted_snoc_outside (es : List RangeEvent) (v : Bytes)
    (outside : ¬ rangePathMatches p bd = true) :
    emitted bd (es ++ [.emit p v]) = emitted bd es := by
  simp [emitted, outside]

section

variable {env : Env} {lim : Limits} {bd : RangeBounds} {start : Work} {r : Node} {top : Bytes}

structure Generated (keccak : Bytes → Root) (K : Set Bytes) (env : Env) (limits : Limits)
    (bounds : RangeBounds) (start : Work) (root : Node) (top : Bytes)
    (events : List RangeEvent) (state : RangeGeneration) (work : Work) : Prop where
  gathering : Gathering keccak K env.ctx start root 0 (top :: loaded events) state.builder work
  items : state.items = (emitted bounds events).map itemOf
  visits : state.nodesLeft + (visited events).length = limits.maxTraversalNodes

def GenerationFails (env : Env) (limits : Limits) (bounds : RangeBounds) (start : Work)
    (top : Bytes)
    (events : List RangeEvent) (e : Err) : Prop :=
  e.Interrupts ∧ ¬ (Room env.ctx limits start 0 (top :: loaded events) ∧
    WalkRoom limits bounds events)

theorem RangeGeneration.emit_ends {s : RangeGeneration} (raw : bd.secure = false)
    (generated : Generated H K env lim bd start r top es s w) (fine : IsKeyPath p) (v : Bytes) :
    Ends (RangeGeneration.emit lim bd p v s) w
      (Generated H K env lim bd start r top (es ++ [.emit p v]))
      (GenerationFails env lim bd start top (es ++ [.emit p v])) := by
  obtain ⟨gathering, xs, vs⟩ := generated
  unfold RangeGeneration.emit
  by_cases sub : rangePathMatches p bd = true
  · rw [if_neg (not_not.mpr sub)]
    refine ends_guard (fun full => ⟨trivial, fun enough => ?_⟩) fun _ => ?_
    · have few := enough.2.items
      rw [emitted_snoc_inside es v sub, length_append, length_singleton,
        ← length_map itemOf, ← xs] at few
      omega
    obtain ⟨key, rfl⟩ := fine
    rw [raw, rangePathKey_bytes key (by simp)]
    refine ends_pure ⟨by simpa [loaded] using gathering, ?_, by simpa [visited] using vs⟩
    rw [emitted_snoc_inside es v sub, map_append, ← xs, map_singleton, itemOf, pack_bytesToNibbles]
  · rw [if_pos sub]
    refine ends_pure ⟨by simpa [loaded] using gathering, ?_, by simpa [visited] using vs⟩
    rwa [emitted_snoc_outside es v sub]

theorem rangeGenerator_tracks (sound : env.Sound H K) (inj : InjOn H K)
    (raw : bd.secure = false) (deep : env.maxDepth = lim.maxTraversalDepth) :
    (rangeGenerator H env lim bd).Tracks H K lim.maxTraversalNodes
      (fun b => (env.find (H b)).isSome) IsKeyPath
      (Generated H K env lim bd start r top)
      (GenerationFails env lim bd start top) where
  visit := by
    rintro es s w ⟨gathering, xs, vs⟩ d
    dsimp only [rangeGenerator]
    split
    · rename_i none
      refine (visitNone_ends env w _).weaken fun e stopped => ⟨stopped, ?_⟩
      intro enough
      have few := enough.2.visits
      rw [visited_snoc, length_append, length_singleton] at few
      omega
    · rename_i some
      refine ((visit_live env d w).unless fun enough => ⟨enough.1.live, ?_⟩).bind ?_
      · rw [deep]
        exact enough.2.depth d (by rw [visited_snoc]; simp)
      · rintro _ _ ⟨polls, rfl⟩
        refine ends_pure ⟨?_, by simpa [emitted] using xs, ?_⟩
        · have polled : Gathering H K env.ctx start r 0 _ _ { w with polls } :=
            { gathering with }
          simpa [loaded] using polled
        · rw [visited_snoc, length_append, length_singleton]
          dsimp only
          omega
  load := by
    rintro es s w ⟨gathering, xs, vs⟩ t st large found
    refine Ends.bind ((load_ends sound inj gathering st large found).unless
      fun enough => ?_) ?_
    · have room := enough.1
      rwa [loaded_snoc] at room
    · rintro ⟨n, builder⟩ work' ⟨rfl, gathering'⟩
      refine ends_pure ⟨rfl, ?_, by simpa [emitted] using xs, by simpa [visited] using vs⟩
      rwa [loaded_snoc]
  emit := fun generated p fine v => RangeGeneration.emit_ends raw generated fine v.val
  bounded := fun generated => by
    have := generated.visits
    omega
  mono := by
    rintro es events' e ⟨stopped, lacking⟩ front
    refine ⟨stopped, fun enough => lacking ⟨?_, enough.2.mono front⟩⟩
    refine enough.1.mono le_rfl ?_
    obtain ⟨rest, rfl⟩ := front
    rw [loaded_append]
    exact prefix_append (top :: loaded es) _

end

theorem proveRange_ends (inj : InjOn H K) {h : Heap} {snap : Snapshot}
    (holds : snap.Holds H K h t) (keyed : ∀ p, t.lookup p ≠ none → IsKeyPath p)
    (found : ∀ b ∈ kept H snap.root t, (snap.find h (H b)).isSome) {start : Bytes}
    (ordered : stop = [] ∨ start < stop) (ctx : Context) :
    Ends (snap.proveRange H h ctx start stop false) snap.limits.work
      (fun r _ => r = (rangeProofOf H t start stop, rangeItemsOf t start stop))
      (fun e => e.Declines ∧ ¬ snap.AllowsRange H ctx t start stop) := by
  unfold Snapshot.proveRange
  refine ((checkContext_live ctx _).weaken (fun e stopped =>
    ⟨stopped.1.refuses.declines, fun allows => stopped.2 allows.live⟩)).bind ?_
  rintro _ _ ⟨polls, rfl⟩
  refine ends_check (fun e refused => ?_) fun bd made => ?_
  · obtain ⟨declines, long⟩ := newRangeBounds_raw.2 e refused ordered
    exact ⟨declines, fun allows => long allows.endpoints⟩
  obtain rfl := newRangeBounds_raw.1 bd made
  by_cases none : t = .nil
  · rw [if_pos (by rw [holds.isNil_root, none]; rfl), none]
    exact ends_pure rfl
  have stored := holds.stored none
  have shown := rangeProofOf_proper (H := H) (t := t) none start stop
  rw [if_neg (by rw [holds.isNil_root]; simpa using none)]
  have spacious : snap.AllowsRange H ctx t start stop →
      Room ctx snap.limits { snap.limits.work with polls } 0
        (treeBytes H t :: loaded (walkOf H t start stop)) := by
    intro allows
    refine ⟨allows.live, ?_, ?_, ?_, ?_⟩ <;> rw [← shown]
    · exact allows.nodes
    · exact allows.bytes
    · exact allows.hashes
    · exact allows.reads
  refine Ends.bind ((prepareRoot_ends inj holds found _).weaken ?_) ?_
  · rintro e ⟨stopped, lacking⟩
    rw [showAt_top none] at lacking
    refine ⟨stopped.refuses.declines, fun allows => lacking ⟨?_, allows.encoding⟩⟩
    exact (spacious allows).mono le_rfl (prefix_append [treeBytes H t] _)
  intro builder work₁ gathering
  rw [showAt_top none] at gathering
  have begun : Generated H K (snap.proofEnv h ctx) snap.limits
      (rawBounds start stop) { snap.limits.work with polls } (freeze H t)
      (treeBytes H t) [] ⟨builder, [], snap.limits.maxTraversalNodes⟩ work₁ :=
    ⟨gathering, rfl, rfl⟩
  have keyed : ∀ p v, t.lookup p = some v → IsKeyPath ([] ++ p) :=
    fun p v held => keyed p (by rw [held]; simp)
  rw [gathering.root]
  refine Ends.bind (((rangeGenerator_tracks (holds.proofEnv_sound ctx) inj rfl rfl).walk begun
    (fun _ => stored) (holds.find_below found) keyed (Nat.le_add_right _ _)).weaken ?_) ?_
  · rintro e ⟨stopped, lacking⟩
    exact ⟨stopped.refuses.declines, fun allows => lacking ⟨spacious allows, allows.walk⟩⟩
  · rintro state work₂ ⟨gathering', xs, -⟩
    refine ends_pure ?_
    rw [Prod.mk.injEq]
    refine ⟨?_, ?_⟩
    · rw [shown]
      exact gathering'.gathers.nodes
    · rw [xs, nil_append, emitted_rangeEvents]
      rfl

/-! ### Verification -/

section

variable {ctx : Context} {lim : Limits} {bd : RangeBounds} {proof : Proof}
  {lookup : MultiProofLookup} {items xs : List RangeItem} {top : Bytes}

structure Verified (keccak : Bytes → Root) (K : Set Bytes) (limits : Limits) (bounds : RangeBounds)
    (proof : Proof) (items : List RangeItem) (top : Bytes)
    (events : List RangeEvent) (state : RangeVerification) (_ : Work) : Prop where
  consumes : Consumes keccak K proof (top :: loaded events) state.cursor
  items : items = (emitted bounds events).map itemOf ++ state.items
  visits : state.nodesLeft + (visited events).length = limits.maxTraversalNodes

/-- Why a verification fails: the proof or the items are others, or the limits are exceeded. -/
def VerificationFails (ctx : Context) (limits : Limits) (bounds : RangeBounds) (proof : Proof)
    (items : List RangeItem) (top : Bytes)
    (events : List RangeEvent) (e : Err) : Prop :=
  firstUses [] (top :: loaded events) <+: proof → (emitted bounds events).map itemOf <+: items →
    e.Interrupts ∧ ¬ (ctx.Live ∧ WalkRoom limits bounds events)

theorem RangeVerification.emit_ends {s : RangeVerification} (raw : bd.secure = false)
    (valid : ∀ item ∈ xs, item.valid = true)
    (verified : Verified H K lim bd proof xs top es s w) (fine : IsKeyPath p) (v : Bytes) :
    Ends (Program.lift (RangeVerification.emit bd p v s)) w
      (Verified H K lim bd proof xs top (es ++ [.emit p v]))
      (VerificationFails ctx lim bd proof xs top (es ++ [.emit p v])) := by
  obtain ⟨consumes, listed, vs⟩ := verified
  unfold RangeVerification.emit
  by_cases sub : rangePathMatches p bd = true
  swap
  · rw [if_pos sub]
    refine ends_lift (fun state' eq => ?_) (fun e eq => (by cases eq))
    cases eq
    refine ⟨by simpa [loaded] using consumes, ?_, by simpa [visited] using vs⟩
    rwa [emitted_snoc_outside es v sub]
  rw [if_neg (not_not.mpr sub)]
  obtain ⟨key, rfl⟩ := fine
  have next : (emitted bd (es ++ [.emit (bytesToNibbles key) v])).map itemOf =
      (emitted bd es).map itemOf ++ [newRangeItem key v] := by
    rw [emitted_snoc_inside es v sub, map_append, map_singleton, itemOf, pack_bytesToNibbles]
  cases remaining : s.items with
  | nil =>
    refine ends_lift (fun _ eq => (by cases eq)) fun e _ _ front => ?_
    -- no item is left for this entry
    rw [remaining, append_nil] at listed
    rw [next, listed] at front
    have := front.length_le
    simp at this
  | cons item rest =>
    rw [remaining] at listed
    rw [raw, rangePathKey_bytes key (by simp)]
    dsimp only
    split
    · rename_i differs
      refine ends_lift (fun _ eq => (by cases eq)) fun e _ _ front => ?_
      rw [next, listed, prefix_append_right_inj] at front
      obtain ⟨tail, eq⟩ := front
      obtain rfl : newRangeItem key v = item := (cons.inj eq).1
      rcases differs with other | other <;> exact absurd rfl other
    · rename_i agrees
      rw [not_or, not_not, not_not] at agrees
      refine ends_lift (fun state' eq => ?_) (fun e eq => (by cases eq))
      cases eq
      have known : newRangeItem key v = item := by
        have valid := valid item (by rw [listed]; simp)
        obtain ⟨key', value', valid'⟩ := item
        cases valid
        rw [newRangeItem, agrees.1, agrees.2]
      refine ⟨by simpa [loaded] using consumes, ?_, by simpa [visited] using vs⟩
      rw [next, listed, known]
      simp

theorem rangeVerifier_tracks (inj : InjOn H K) (sub : ∀ b ∈ proof, b ∈ K)
    (js : Indexes H proof lookup) (raw : bd.secure = false)
    (valid : ∀ item ∈ xs, item.valid = true) :
    (rangeVerifier ctx lim lookup bd).Tracks H K lim.maxTraversalNodes
      (fun _ => True) IsKeyPath (Verified H K lim bd proof xs top)
      (VerificationFails ctx lim bd proof xs top) where
  visit := by
    rintro es s w ⟨consumes, listed, vs⟩ d
    refine ((checkContext_live ctx w).weaken
      (fun e stopped _ _ => ⟨stopped.1, fun enough => stopped.2 enough.1⟩)).bind ?_
    rintro _ _ ⟨polls, rfl⟩
    refine ends_guard (fun beyond _ _ => ⟨trivial, fun enough => ?_⟩) fun within => ?_
    · rcases beyond with deep | none
      · have := enough.2.depth d (by rw [visited_snoc]; simp)
        omega
      · have few := enough.2.visits
        rw [visited_snoc, length_append, length_singleton] at few
        omega
    · refine ends_pure ⟨by simpa [loaded] using consumes, by simpa [emitted] using listed, ?_⟩
      rw [visited_snoc, length_append, length_singleton]
      dsimp only
      omega
  load := by
    rintro es s w ⟨consumes, listed, vs⟩ t st large -
    refine Ends.bind ((resolve_consumes inj sub js consumes st (Or.inr large)
      w).weaken ?_) ?_
    · intro e apart front _
      rw [loaded_snoc] at front
      exact absurd front apart
    · rintro ⟨n, c⟩ _ ⟨rfl, rfl, consumes'⟩
      refine ends_pure ⟨rfl, ?_, by simpa [emitted] using listed, by simpa [visited] using vs⟩
      rwa [loaded_snoc]
  emit := fun verified p fine v => RangeVerification.emit_ends raw valid verified fine v.val
  bounded := fun verified => by
    have := verified.visits
    omega
  mono := by
    rintro es events' e stopped ⟨rest, rfl⟩ shown listed
    rw [loaded_append] at shown
    rw [emitted_append, map_append] at listed
    obtain ⟨interrupts, lacking⟩ := stopped
      ((firstUses_isFront (prefix_append (top :: loaded es) _)).trans shown)
      ((prefix_append _ _).trans listed)
    exact ⟨interrupts, fun enough => lacking ⟨enough.1, enough.2.mono (prefix_append _ _)⟩⟩

end

theorem valid_of_checkRangeItems (passed : checkRangeItems bd lim prev xs = .ok ()) :
    ∀ item ∈ xs, item.valid = true := by
  induction xs generalizing prev with
  | nil => simp
  | cons item xs ih =>
    rw [checkRangeItems] at passed
    generalize (if bd.secure = true then rootBytes else lim.maxKeyBytes) = maximum at passed
    split at passed
    · cases passed
    rename_i sound
    rw [not_or, not_not] at sound
    split at passed
    · cases passed
    split at passed
    · cases passed
    split at passed
    · cases passed
    split at passed
    · cases passed
    split at passed
    · cases passed
    intro other mem
    rcases mem_cons.mp mem with rfl | later
    · exact sound.1
    · exact ih passed other later

/-- Items that list an interval fail the checks only for their sizes. -/
theorem checkRangeItems_error {e : Err} {start : Bytes} (valid : ∀ item ∈ xs, item.valid = true)
    (filled : ∀ item ∈ xs, item.value ≠ []) (sub : ∀ item ∈ xs, InRange start stop item.key)
    (sorted : xs.Pairwise fun a b => a.key < b.key)
    (after : ∀ key ∈ prev, ∀ item ∈ xs, key < item.key)
    (refused : checkRangeItems (rawBounds start stop) lim prev xs = .error e) :
    e.Refuses ∧ ¬ ∀ item ∈ xs, item.key.length ≤ lim.maxKeyBytes ∧
      item.value.length ≤ lim.maxValueBytes := by
  induction xs generalizing prev with
  | nil => cases refused
  | cons item xs ih =>
    have here : item ∈ item :: xs := mem_cons_self
    rw [checkRangeItems] at refused
    have raw : (if (rawBounds start stop).secure = true then rootBytes else lim.maxKeyBytes) =
        lim.maxKeyBytes := rfl
    rw [raw] at refused
    split at refused
    · rename_i unsound
      rcases unsound with invalid | none
      · exact absurd (valid item here) invalid
      · exact absurd (eq_nil_of_length_eq_zero none) (filled item here)
    split at refused
    · rename_i sec
      cases sec.1
    split at refused
    · rename_i long
      cases refused
      refine ⟨trivial, fun short => ?_⟩
      have := (short item here).1
      omega
    split at refused
    · rename_i large
      cases refused
      refine ⟨trivial, fun short => ?_⟩
      have := (short item here).2
      omega
    split at refused
    · rename_i outside
      exact absurd (rangeBytesMatch_raw.mpr (sub item here)) outside
    split at refused
    · rename_i reversed
      obtain ⟨key, mem, before⟩ := reversed
      exact absurd (after key mem item here) (List.not_lt.mpr before)
    · obtain ⟨first, rest⟩ := pairwise_cons.mp sorted
      have after' : ∀ key ∈ some item.key, ∀ other ∈ xs, key < other.key := by
        intro key eq other mem
        rw [← Option.some.inj eq]
        exact first other mem
      obtain ⟨refuses, long⟩ := ih (forall_mem_cons.mp valid).2
        (forall_mem_cons.mp filled).2
        (forall_mem_cons.mp sub).2 rest after' refused
      exact ⟨refuses, fun short => long (forall_mem_cons.mp short).2⟩

/-- The limits of a verifier that do not stand in the way of a range proof. -/
structure AllowsRange (keccak : Bytes → Root) (ctx : Context) (limits : Limits) (trie : Tree)
    (start stop : Bytes) (items : List RangeItem) (proof : Proof) : Prop where
  valid : validateTrieLimits limits = .ok ()
  live : ctx.Live
  endpoints : start.length ≤ limits.maxKeyBytes ∧ stop.length ≤ limits.maxKeyBytes
  count : items.length ≤ limits.maxProofKeys
  short : ∀ item ∈ items, item.key.length ≤ limits.maxKeyBytes ∧
    item.value.length ≤ limits.maxValueBytes
  nodes : proof.length ≤ limits.maxProofNodes
  bytes : (proof.map length).sum ≤ limits.maxProofBytes
  hashes : proof.length ≤ limits.maxHashOperations
  walk : WalkRoom limits (rawBounds start stop) (walkOf keccak trie start stop)

/-- The verifier accepts exactly the items and the proof of the range. -/
theorem verifyRange_ends {proof : Proof} {ctx : Context}
    (inj : InjOn H K) (empty : H [0x80] = emptyRoot) (reserved : [0x80] ∈ K)
    (held : Matches H false univ t contents) (stored : t ≠ .nil → Stored H K t)
    {start : Bytes} (sub : ∀ b ∈ proof, b ∈ K) :
    Ends (verifyRange H ctx (rootHash H t) start stop xs proof lim false) lim.work
      (fun _ _ => xs = rangeItemsOf t start stop ∧ proof = rangeProofOf H t start stop)
      (fun e => (xs = rangeItemsOf t start stop ∧ proof = rangeProofOf H t start stop) ∧
        (stop = [] ∨ start < stop) →
        e.Declines ∧ ¬ AllowsRange H ctx lim t start stop xs proof) := by
  unfold verifyRange
  refine ends_check (fun e invalid _ => ?_) fun _ _ => ?_
  · obtain ⟨stopped, wrong⟩ := validateTrieLimits_error invalid
    exact ⟨stopped.refuses.declines, fun allows => wrong allows.valid⟩
  refine ((checkContext_live ctx _).weaken (fun e stopped _ =>
    ⟨stopped.1.refuses.declines, fun allows => stopped.2 allows.live⟩)).bind ?_
  rintro _ _ ⟨polls, rfl⟩
  refine ends_check (fun e refused claimed => ?_) fun bd made => ?_
  · obtain ⟨declines, long⟩ := newRangeBounds_raw.2 e refused claimed.2
    exact ⟨declines, fun allows => long allows.endpoints⟩
  obtain rfl := newRangeBounds_raw.1 bd made
  unfold validateRangeItems
  split
  · refine ends_check (fun e eq _ => ?_) fun _ eq => (by cases eq)
    cases eq
    refine ⟨trivial, fun allows => ?_⟩
    have := allows.count
    omega
  refine ends_check (fun e refused claimed => ?_) fun _ passed => ?_
  · obtain ⟨⟨rfl, -⟩, -⟩ := claimed
    have lists := lists_rangeItemsOf held start stop
    obtain ⟨refuses, long⟩ := checkRangeItems_error (fun item mem => ((lists.exact item).mp mem).1)
      (fun item mem => by
        obtain ⟨content, -, eq⟩ := Option.map_eq_some_iff.mp ((lists.exact item).mp mem).2.1
        rw [← eq]
        exact content.property)
      (fun item mem => ((lists.exact item).mp mem).2.2) lists.sorted (by simp) refused
    exact ⟨refuses.declines, fun allows => long allows.short⟩
  have valid := valid_of_checkRangeItems passed
  refine ends_check (fun e beyond _ => ?_) fun _ _ => ?_
  · obtain ⟨stopped, large⟩ := validateProofLimits_error beyond
    exact ⟨stopped.refuses.declines, fun allows => large ⟨allows.nodes, allows.bytes⟩⟩
  have whole (none : t ≠ .nil) := rangeProofOf_proper (H := H) (t := t) none start stop
  refine ends_underRoot inj empty reserved stored (fun none claimed => ?_)
    (fun none consumed absent => ?_) (fun none claimed => ?_) fun none stored => ?_
  · obtain ⟨⟨rfl, rfl⟩, -⟩ := claimed
    rw [none]
    exact ⟨rfl, not_not.mpr rfl⟩
  · rw [none]
    exact ⟨eq_nil_of_length_eq_zero (not_not.mp absent), consumed⟩
  · rw [claimed.1.2, whole none]
    exact ne_nil_of_mem (mem_firstUses.mpr ⟨mem_cons_self, by simp⟩)
  have whole := whole none
  refine Ends.bind ((newMultiProofLookup_indexes inj sub _).weaken ?_) ?_
  · rintro e stopped ⟨⟨-, shown⟩, -⟩
    have once : ShowsOnce H K proof := by
      rw [shown]
      exact ⟨whole ▸ firstUses_nodup _ _, fun b mem =>
        exists_stored_of_range (fun _ => stored) mem⟩
    obtain ⟨interrupts, lacking⟩ := stopped once
    exact ⟨interrupts.refuses.declines, fun allows => lacking ⟨allows.live, allows.hashes⟩⟩
  rintro lookup work₁ ⟨js, -⟩
  have order : lookup.order.length = proof.length := by rw [js.order, length_map]
  rw [rootHash_proper none, order]
  refine Ends.bind ((resolve_consumes inj sub js (consumes_start proof) stored
    (Or.inl rfl) work₁).weaken ?_) ?_
  · rintro e apart ⟨⟨-, shown⟩, -⟩
    refine absurd ?_ apart
    rw [shown, whole]
    exact firstUses_isFront (prefix_append [treeBytes H t] _)
  rintro ⟨n, c⟩ work₂ ⟨rfl, rfl, consumes⟩
  have begun : Verified H K lim (rawBounds start stop) proof xs (treeBytes H t) []
      ⟨c, xs, lim.maxTraversalNodes⟩ work₂ := ⟨consumes, rfl, rfl⟩
  have keyed : ∀ p v, t.lookup p = some v → IsKeyPath ([] ++ p) :=
    fun p v found => (held.keys p (by rw [found]; simp)).imp fun _ => And.right
  refine Ends.bind (((rangeVerifier_tracks inj sub js rfl valid).walk begun
    (fun _ => stored) (fun _ _ => trivial) keyed (Nat.le_add_right _ _)).weaken ?_) ?_
  · rintro e stopped ⟨⟨listed, shown⟩, -⟩
    obtain ⟨interrupts, lacking⟩ := stopped (by rw [shown, whole]; exact prefix_rfl)
      (by rw [listed, nil_append, emitted_rangeEvents]; exact prefix_rfl)
    exact ⟨interrupts.refuses.declines, fun allows => lacking ⟨allows.live, allows.walk⟩⟩
  rintro state work₃ ⟨consumed, listed, -⟩
  rw [nil_append, emitted_rangeEvents] at listed
  refine ends_guard (fun surplus claimed => ?_) fun done => ?_
  · rw [claimed.1.1] at listed
    exact absurd (length_eq_zero_iff.mpr (append_right_eq_self.mp listed.symm)) surplus
  have done : state.items = [] := eq_nil_of_length_eq_zero (not_not.mp done)
  rw [done, append_nil] at listed
  have shown : firstUses [] (treeBytes H t :: loaded (walkOf H t start stop)) <+:
      proof := consumed.shown
  have next : state.cursor.next = (rangeProofOf H t start stop).length := by
    rw [whole]
    exact consumed.next
  rw [← whole] at shown
  refine ends_failIf (fun surplus claimed => ?_) fun done => ?_
  · rw [next, claimed.1.2] at surplus
    exact absurd rfl surplus
  · rw [next] at done
    exact ⟨listed, (shown.eq_of_length (not_not.mp done)).symm⟩

/-- In every session of raw tries, for a snapshot whose references are found, a range proof
lists exactly the entries of the interval in ascending order and is accepted; and whatever is
accepted under the root of a snapshot lists exactly these entries. -/
theorem range_proofs_exact {keccak : Bytes → Root} {actions : List Action} {entry : Entry}
    (here : entry ∈ (run keccak false actions).held) (empty : keccak [0x80] = emptyRoot)
    {start stop : Bytes} (ordered : stop = [] ∨ start < stop) :
    ((∀ root, Reachable (entry.snapshot.find (run keccak false actions).heap)
        entry.snapshot.root root →
        (entry.snapshot.find (run keccak false actions).heap root).isSome) →
      InjOn keccak {b | b ∈ (run keccak false actions).encodings keccak} →
      ∃ proof items, Lists entry.version.contents start stop items ∧
        (∀ ctx,
          (entry.snapshot.proveRange keccak (run keccak false actions).heap ctx start stop
            false entry.snapshot.limits.work).map Prod.fst = .ok (proof, items) ∨
          ∃ e, (entry.snapshot.proveRange keccak (run keccak false actions).heap ctx start
              stop false entry.snapshot.limits.work).map Prod.fst = .error e ∧ e.Declines ∧
            ¬ entry.snapshot.AllowsRange keccak ctx entry.version.trie start stop) ∧
        ∀ ctx limits, AllowsRange keccak ctx limits entry.version.trie start stop items proof →
          verifyRawRange keccak ctx entry.snapshot.hash start stop items proof limits = .ok ()) ∧
    ∀ (items : List RangeItem) (proof : Proof) (ctx : Context) (limits : Limits),
      InjOn keccak {b | b ∈ (run keccak false actions).encodings keccak ++ proof} →
      verifyRawRange keccak ctx entry.snapshot.hash start stop items proof limits = .ok () →
      Lists entry.version.contents start stop items := by
  have queried : ∀ action ∈ actions, ∀ key ∈ action.keys, key ∈ (univ : Set Bytes) :=
    fun _ _ key _ => mem_univ key
  constructor
  · intro found inj
    obtain ⟨holds, held⟩ := run_entry inj empty (by simp) (fun b mem => mem) queried
      here
    have shown : ∀ b ∈ rangeProofOf keccak entry.version.trie start stop,
        b ∈ {b | b ∈ (run keccak false actions).encodings keccak} := by
      intro b mem
      obtain ⟨s, stored, rfl⟩ := exists_stored_of_range holds.stored mem
      exact stored.mem
    refine ⟨rangeProofOf keccak entry.version.trie start stop, rangeItemsOf entry.version.trie start
      stop, lists_rangeItemsOf held start stop, fun ctx => ?_, fun ctx limits allows => ?_⟩
    · have proved := proveRange_ends inj holds
        (fun path found => (held.keys path found).imp fun _ => And.right) (fun b named =>
          holds.find_kept inj found named) ordered ctx
      rcases proved.outcome with ⟨_, done, rfl⟩ | failed
      · exact Or.inl done
      · exact Or.inr failed
    · have verified : Ends (verifyRange keccak ctx (rootHash keccak entry.version.trie) start stop
          (rangeItemsOf entry.version.trie start stop) (rangeProofOf keccak entry.version.trie start
            stop) limits false) limits.work _ _ :=
        verifyRange_ends inj empty mem_cons_self held holds.stored shown
      rw [verifyRawRange, holds.hash]
      rcases verified.outcome with ⟨_, done, -⟩ | ⟨e, -, stopped⟩
      · exact done
      · exact absurd allows (stopped ⟨⟨rfl, rfl⟩, ordered⟩).2
  · intro items proof ctx limits inj accepted
    obtain ⟨holds, held⟩ := run_entry inj empty (by simp)
      (fun b mem => mem_append_left _ mem) queried here
    have verified : Ends (verifyRange keccak ctx
      (rootHash keccak entry.version.trie) start stop items
        proof limits false) limits.work _ _ :=
      verifyRange_ends inj empty (mem_append_left _ mem_cons_self) held holds.stored
        (fun b mem => mem_append_right _ mem)
    rw [verifyRawRange, holds.hash] at accepted
    rw [(verified.run.1 _ accepted).1]
    exact lists_rangeItemsOf held start stop

end

theorem range_proofs_exact_shared :
    ∃ entry ∈ sharedSession.held, ∃ proof : Proof,
      (entry.snapshot.proveRange keccakShared sharedSession.heap .background [0x10] [0x20] false
        entry.snapshot.limits.work).map Prod.fst =
        .ok (proof, [newRangeItem [0x10] (replicate 32 0x41)]) ∧
      verifyRawRange keccakShared .background entry.snapshot.hash [0x10] [0x20]
        [newRangeItem [0x10] (replicate 32 0x41)] proof defaultLimits = .ok () ∧
      Lists entry.version.contents [0x10] [0x20] [newRangeItem [0x10] (replicate 32 0x41)] := by
  obtain ⟨entry, here, mem⟩ := shared_held 2 (by decide)
  have ran : ∀ entry ∈ sharedSession.held[2]?,
      ((entry.snapshot.proveRange keccakShared sharedSession.heap .background [0x10] [0x20] false
        entry.snapshot.limits.work).map Prod.fst).map (fun r =>
          (r.2, verifyRawRange keccakShared .background entry.snapshot.hash [0x10] [0x20] r.2 r.1
            defaultLimits, decide (∀ b ∈ r.1, b ∈ sharedSession.encodings keccakShared))) =
        .ok ([newRangeItem [0x10] (replicate 32 0x41)], .ok (), true) := by decide +kernel
  obtain ⟨⟨proof, items⟩, proved, measured⟩ := except_map_ok.mp (ran entry here)
  simp only [Prod.mk.injEq, decide_eq_true_eq] at measured
  obtain ⟨rfl, accepted, inside⟩ := measured
  exact ⟨entry, mem, proof, proved, accepted,
    (range_proofs_exact mem shared_empty (Or.inr (by decide))).2 _ proof .background defaultLimits
      (injOn_append shared_injective inside) accepted⟩

end Golib.MerklePatriciaTrie
