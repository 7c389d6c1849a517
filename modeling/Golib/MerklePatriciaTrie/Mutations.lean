import Golib.Lib.RadixSize
import Golib.MerklePatriciaTrie.Layers

/-! Snapshots that stand for a trie: what updates, deletions and batches make of them,
and which of the nodes they name can still be found afterwards. -/
namespace Golib.MerklePatriciaTrie

open Program Option
open Multiset

variable {next : Snapshot} {r readRoot : Node}

section

variable (keccak : Bytes → Root) {trie' : Tree} {ctx : Context} {resolved : List Root}
  {previous : Snapshot} {nodesLeft : Nat}

/-- The hash of a trie as a snapshot reports it. -/
def rootHash (trie : Tree) : Root :=
  if trie.isNil then emptyRoot else keccak (treeBytes keccak trie)

def Snapshot.find (heap : Heap) (snapshot : Snapshot) (root : Root) : Option Bytes :=
  (snapshot.lookupPending root).or
    ((snapshot.reader.map heap).bind fun store => store.nodes.lookup root)

/-- Every node of the store is one of the encodings `K`, under its own hash. -/
def StoreState.Sound (K : Set Bytes) (state : StoreState) : Prop :=
  ∀ root b, state.nodes.lookup root = some b → root = keccak b ∧ b ∈ K

/-- The snapshot stands for the trie, and what it finds are encodings of `K`. -/
structure Snapshot.Holds (K : Set Bytes) (heap : Heap) (snapshot : Snapshot) (trie : Tree) :
    Prop where
  canonical : trie.Canonical
  short : trie.Short maxCompactPathNibbles
  stored : trie ≠ .nil → Stored keccak K trie
  root : snapshot.root = freeze keccak trie ∨
    (trie ≠ .nil ∧ snapshot.root = .hash (keccak (treeBytes keccak trie)) ∧
      ∀ root, snapshot.lookupPending root = none)
  hash : snapshot.hash = rootHash keccak trie
  read : snapshot.materialized = true → snapshot.readRoot = expand trie
  pending : ∀ root b, snapshot.lookupPending root = some b → root = keccak b ∧ b ∈ K
  backing : ∀ store ∈ snapshot.reader, (heap store).Sound keccak K
  plain : snapshot.recovered.entries = []
  limits : validateTrieLimits snapshot.limits = .ok ()

/-- The trie with a key set or, for `none`, deleted. -/
def change (trie : Tree) (path : Path) : Option Content → Option Tree
  | some value => some (trie.insert path value)
  | none => trie.delete path

def changeVisits (trie : Tree) (path : Path) : Option Content → List Bytes
  | some _ => insertVisits keccak trie path
  | none => deleteVisits keccak trie path

variable {H : Bytes → Root} {K : Set Bytes} {h : Heap} {snap : Snapshot} {base t : Tree} {w : Work}
  {v : Option Content} {p : Path} {lim : Limits}

theorem Snapshot.Holds.rep (holds : snap.Holds H K h t) : RepAt H K 0 snap.root t := by
  rcases holds.root with frozen | ⟨some, hashed, -⟩
  · rw [frozen]
    exact Or.inl (rep_freeze holds.stored).1
  · exact Or.inr ⟨rfl, holds.stored some, hashed⟩

theorem Snapshot.Holds.env_sound (holds : snap.Holds H K h t) (ctx : Context) :
    (snap.env h ctx).Sound H K := by
  intro r b found
  rcases or_eq_some_iff.mp found with here | ⟨-, stored⟩
  · exact holds.pending r b here
  · obtain ⟨state, opened, found⟩ := bind_eq_some_iff.mp stored
    obtain ⟨s, reader, rfl⟩ := map_eq_some_iff.mp opened
    exact holds.backing s reader r b found

theorem readEnv_sound (ctx : Context) (recording : Bool) :
    (snap.readEnv ctx recording).Sound H K := by
  intro r b found
  cases found

theorem Env.Stops.whole {e : Err} {env : Env} {room : Prop} (stops : env.Stops H 0 room e) :
    e.Interrupts ∧ ¬ room := by
  rcases stops with stop | ⟨-, b, mem, -⟩
  · exact stop
  · exact absurd mem (notMem_zero b)

theorem toll_zero (extra n : Nat) : toll 0 extra n = 0 := if_pos rfl

theorem change_canonical (canon : t.Canonical)
    (changed : change t p v = some trie') : trie'.Canonical := by
  cases v with
  | some v =>
    cases changed
    exact Or.inr (Radix.insert_proper canon p v)
  | none => exact Radix.delete_canonical canon changed

theorem change_short (short : t.Short maxCompactPathNibbles)
    (fits : v ≠ none → p.length ≤ maxCompactPathNibbles)
    (changed : change t p v = some trie') : trie'.Short maxCompactPathNibbles := by
  cases v with
  | some v =>
    cases changed
    exact short.insert v (fits (by simp))
  | none => exact short.delete changed

theorem lookup_change (changed : change t p v = some trie') (path' : Path) :
    trie'.lookup path' = if path' = p then v else t.lookup path' := by
  cases v with
  | some v =>
    cases changed
    exact Radix.lookup_insert t p v path'
  | none => exact Radix.lookup_delete changed path'

/-- What one change leaves behind. -/
structure Changes (keccak : Bytes → Root) (K : Set Bytes) (materialized : Bool) (root : Node)
    (trie : Tree) (path : Path) (value : Option Content) (work : Work)
    (r : Node × Node × Nat) (work' : Work) (trie' : Tree) : Prop where
  changed : change trie path value = some trie'
  rep : Rep keccak K r.1 trie'
  inner : ¬ r.1.IsHash
  read : materialized = true → r.2.1 = expand trie'
  spends : Spends keccak (treeBytes keccak trie :: changeVisits keccak trie path value)
    (kept keccak root trie) (kept keccak r.1 trie') work work'

/-- What is enough to change the value at a path of `n` digits, which is then followed once more in
the tree for reading. -/
structure Env.ChangeRoom (env : Env) (toll n nodesLeft : Nat) (work : Work) : Prop
    extends env.Room toll n nodesLeft 0 work where
  again : n + toll + 1 + (n + 1) ≤ nodesLeft

theorem insertReadRoot_ends (canon : t.Canonical) (short : t.Short maxCompactPathNibbles)
    (fits : v ≠ none → p.length ≤ maxCompactPathNibbles)
    (changed : change t p v = some trie') (w : Work) :
    Ends (insertReadRoot H ctx snap nodesLeft (expand t) p
        (v.map Subtype.val)) w
      (fun r work' => (r = expand trie' ∧ ∀ root ∈ work'.resolved, root ∈ w.resolved) ∧
        w.Uses work' 0)
      (fun e => e.Interrupts ∧ ¬ (snap.readEnv ctx false).Room 0 p.length nodesLeft 0 w) := by
  have sound : (snap.readEnv ctx false).Sound H (∅ : Set Bytes) := readEnv_sound ctx false
  have inj : Set.InjOn H (∅ : Set Bytes) := Set.injOn_empty _
  have rep : RepAt H ∅ 0 (expand t) t := Or.inl (rep_expand t)
  -- nothing is named by hash, so nothing is resolved and the result is in memory as a whole
  have whole : ∀ {touched : List Bytes} {n : Node} {work' : Work}, Rep H ∅ n trie' →
      Spends H touched 0 (kept H n trie') w work' →
      n = expand trie' ∧ ∀ root ∈ work'.resolved, root ∈ w.resolved := by
    rintro touched n work' rep' ⟨spent, le, -, noted⟩
    have none : spent = 0 ∧ kept H n trie' = 0 :=
      ⟨le_zero.mp (le_trans (le_add_right _ _) le), le_zero.mp (le_trans (le_add_left _ _) le)⟩
    refine ⟨rep'.eq_expand none.2, fun root mem => ?_⟩
    rcases noted root mem with old | ⟨b, new, -⟩
    · exact old
    · rw [none.1] at new
      exact absurd new (notMem_zero b)
  cases v with
  | some v =>
    cases changed
    refine ((insertNode_ends sound inj rep canon short (fits (by simp)) w).weaken ?_).bind ?_
    · intro e stops
      rw [kept_expand, toll_zero] at stops
      exact stops.whole
    · rintro ⟨n, left⟩ work' ⟨⟨rep', -, spends⟩, paid⟩
      rw [kept_expand] at spends paid
      rw [toll_zero] at paid
      exact ends_pure ⟨whole rep' spends, paid.uses⟩
  | none =>
    refine ((deleteNode_ends sound inj rep canon short w).weaken ?_).bind ?_
    · intro e stops
      rw [kept_expand, toll_zero] at stops
      exact stops.whole
    · rintro ⟨deleted, left⟩ work' ⟨deletes, paid⟩
      have outcome : t.delete p = some trie' := changed
      rw [outcome, kept_expand] at deletes
      rw [kept_expand, toll_zero] at paid
      cases deleted with
      | none => exact absurd deletes id
      | some n => exact ends_pure ⟨whole deletes.1 deletes.2.2, paid.uses⟩

theorem mutate_ends {root : Node} {v : Option { bytes // bytes ≠ [] }}
    (inj : Set.InjOn H K) (holds : snap.Holds H K h base)
    (rep : RepAt H K 0 root t) (read : snap.materialized = true → readRoot = expand t)
    (canon : t.Canonical) (short : t.Short maxCompactPathNibbles)
    (fits : v ≠ none → p.length ≤ maxCompactPathNibbles) (w : Work) :
    Ends (mutate H h ctx snap p (v.map Subtype.val) root readRoot nodesLeft) w
      (fun r work' => (∃ trie', Changes H K snap.materialized root t p v w r work' trie') ∧
        Paid (toll (kept H root t) root.link p.length) p.length nodesLeft r.2.2 w work')
      (fun e => (snap.env h ctx).Stops H (kept H root t) ((snap.env h ctx).ChangeRoom
          (toll (kept H root t) root.link p.length) p.length nodesLeft w) e ∨
        (e = .absentKey ∧ change t p v = none)) := by
  have sound := holds.env_sound ctx
  -- the tree in memory follows the lazily hashed one
  have follow : ∀ {n : Node} {left : Nat} {work₁ : Work} {trie' : Tree},
      change t p v = some trie' → Rep H K n trie' → ¬ n.IsHash →
      Spends H (treeBytes H t :: changeVisits H t p v)
        (kept H root t) (kept H n trie') w work₁ →
      Paid (toll (kept H root t) root.link p.length) p.length nodesLeft left w work₁ →
      Ends (if snap.materialized = true then do
          let readRoot ← insertReadRoot H ctx snap left readRoot p
            (v.map Subtype.val)
          pure (n, readRoot, left)
        else do
          pure (n, readRoot, left)) work₁
        (fun r work' => (∃ trie', Changes H K snap.materialized root t p v w r work' trie') ∧
          Paid (toll (kept H root t) root.link p.length) p.length nodesLeft r.2.2 w work')
        (fun e => (snap.env h ctx).Stops H (kept H root t) ((snap.env h ctx).ChangeRoom
            (toll (kept H root t) root.link p.length) p.length nodesLeft w) e ∨
          (e = .absentKey ∧ change t p v = none)) := by
    intro n left work₁ trie' changed rep' inner spends paid
    split
    · rename_i materialized
      rw [read materialized]
      refine ((insertReadRoot_ends canon short fits changed work₁).weaken ?_).bind ?_
      · refine fun e stop => Or.inl (Or.inl ⟨stop.1, fun room => stop.2 ?_⟩)
        have again := room.again
        have left := paid.nodes
        exact ⟨room.live, room.shallow, by omega, Nat.zero_le _, Nat.zero_le _⟩
      rintro readRoot' work₂ ⟨⟨rfl, noted⟩, uses⟩
      refine ends_pure ⟨⟨trie', changed, rep', inner, fun _ => rfl, ?_⟩,
        paid.nodes, paid.uses.trans uses⟩
      obtain ⟨spent, le, sub, noted'⟩ := spends
      exact ⟨spent, le, sub, fun root mem => noted' root (noted root mem)⟩
    · rename_i lazy
      exact ends_pure ⟨⟨trie', changed, rep', inner, fun materialized => absurd materialized lazy,
        spends⟩, paid⟩
  unfold mutate
  cases v with
  | some v =>
    refine ((insertNode_ends sound inj rep canon short (fits (by simp)) w).weaken
      fun e stops => Or.inl (stops.mono le_rfl fun room => room.toRoom)).bind ?_
    rintro ⟨n, left⟩ work₁ ⟨⟨rep', inner, spends⟩, paid⟩
    exact follow rfl rep' inner spends paid
  | none =>
    refine ((deleteNode_ends sound inj rep canon short w).weaken
      fun e stops => Or.inl (stops.mono le_rfl fun room => room.toRoom)).bind ?_
    rintro ⟨deleted, left⟩ work₁ ⟨deletes, paid⟩
    cases outcome : t.delete p with
    | none =>
      rw [outcome] at deletes
      cases deleted with
      | none => exact ends_fail (Or.inr ⟨rfl, outcome⟩)
      | some n => exact absurd deletes id
    | some trie' =>
      rw [outcome] at deletes
      cases deleted with
      | none => exact absurd deletes id
      | some n => exact follow outcome deletes.1 deletes.2.1 deletes.2.2 paid

/-! ### Finishing a snapshot -/

/-- Which nodes the next snapshot finds among its pending ones: those it encoded anew, and of
those it only names the ones that were pending before and are not tombstoned. -/
structure Finished (keccak : Bytes → Root) (previous next : Snapshot) (resolved : List Root)
    (root : Node) (trie : Tree) : Prop where
  reader : next.reader = previous.reader
  base : next.base = previous.base
  limits : next.limits = previous.limits
  materialized : next.materialized = previous.materialized
  inner : next.root = freeze keccak trie
  found : ∀ b ∈ hashedBelow keccak trie, (next.lookupPending (keccak b)).isSome ∨
    (b ∈ kept keccak root trie ∧
      (keccak b ∈ previous.hash :: resolved ∨ previous.lookupPending (keccak b) = none))
  top : trie ≠ .nil → (next.lookupPending next.hash).isSome

theorem rootHash_proper (some : t ≠ .nil) : rootHash H t = H (treeBytes H t) := by
  rw [rootHash, if_neg (by simpa using some)]

theorem lookup_next {added : NodeMap}
    (layers : (next.pending, next.parent, next.removed) =
      stackLayers added previous.pendingLayer (previous.hash :: resolved)) (r : Root) :
    next.lookupPending r = (added.lookup r).or
      (if r ∈ previous.hash :: resolved then none else previous.lookupPending r) := by
  have stacked := lookup_stackLayers added previous.pendingLayer (previous.hash :: resolved) r
  rw [← layers] at stacked
  rw [Snapshot.lookupPending, stacked, lookupPending_eq, Snapshot.lookup_pendingLayer]

theorem finished_holds {persisted : NodeMap}
    (holds : previous.Holds H K h base) (stored : Stored H K t)
    (persists : Persists H persisted (hashedBelow H t) (kept H r t))
    (layers : (next.pending, next.parent, next.removed) =
      stackLayers (persisted.insert (H (treeBytes H t)) (treeBytes H t))
        previous.pendingLayer (previous.hash :: resolved)) (frozen : next.root = freeze H t)
    (hash : next.hash = H (treeBytes H t))
    (read : next.materialized = true → next.readRoot = expand t)
    (reader : next.reader = previous.reader) (base' : next.base = previous.base)
    (lim : next.limits = previous.limits)
    (materialized : next.materialized = previous.materialized)
    (plain : next.recovered.entries = []) :
    next.Holds H K h t ∧ Finished H previous next resolved r t := by
  have look := lookup_next layers
  have all := persists.insert (b := treeBytes H t)
  have some := stored.proper.ne_nil
  refine ⟨⟨Or.inr stored.proper, stored.short, fun _ => stored, Or.inl frozen, ?_, read, ?_, ?_,
    plain, ?_⟩, ⟨reader, base', lim, materialized, frozen, ?_, ?_⟩⟩
  · rw [hash, rootHash_proper some]
  · intro root' b found
    rw [look] at found
    rcases or_eq_some_iff.mp found with here | ⟨-, old⟩
    · obtain ⟨eq, mem⟩ := all.sound root' b here
      refine ⟨eq, ?_⟩
      rcases mem_add.mp mem with top | below
      · rw [mem_singleton.mp top]
        exact stored.mem
      · exact stored.hashed_mem below
    · split at old
      · cases old
      · exact holds.pending root' b old
  · rw [reader]
    exact holds.backing
  · rw [lim]
    exact holds.limits
  · intro b mem
    rw [look]
    rcases all.complete b (mem_add.mpr (Or.inr mem)) with named | found
    · cases e : (persisted.insert (H (treeBytes H t))
          (treeBytes H t)).lookup (H b) with
      | some encoded => exact Or.inl rfl
      | none =>
        split
        · rename_i gone
          exact Or.inr ⟨named, Or.inl gone⟩
        · cases previous.lookupPending (H b) with
          | some encoded => exact Or.inl rfl
          | none => exact Or.inr ⟨named, Or.inr rfl⟩
    · rw [isSome_or, found]
      exact Or.inl rfl
  · intro _
    rw [look, hash, AList.lookup_insert]
    rfl

/-- What is enough to encode and hash a root that stands for a trie. -/
structure RootRoom (keccak : Bytes → Root) (ctx : Context) (limits : Limits) (root : Node)
    (trie : Tree) (work : Work) : Prop where
  live : ctx.Live
  fits : trie.Every fun s => (treeValue keccak s).Fits Rlp.defaultLimits
  visits : root.visits ≤ limits.maxEncodingNodes
  hashes : root.hashes keccak + 1 ≤ work.hashesLeft

theorem Rep.visits_le (rep : Rep H K r t) (canon : t.Canonical) :
    (if r.isNil then 0 else r.visits) ≤ t.nodes := by
  induction rep with
  | nil => exact Nat.le_refl 0
  | leaf => exact Nat.le_refl 1
  | extension below ih =>
    have proper := canon.proper (by simp)
    have fewer := ih (Or.inr proper.2.2)
    rw [below.isNil_eq, if_neg (by simpa using proper.2.2.ne_nil)] at fewer
    exact Nat.succ_le_succ fewer
  | branch v below ih =>
    have proper := canon.proper (by simp)
    exact Nat.succ_le_succ (List.sum_le_sum fun i _ => ih i (proper.child i))
  | hash => exact Nat.zero_le _

theorem Rep.root_room {n : Nat} (rep : Rep H K r t) (inner : ¬ r.IsHash) (canon : t.Canonical)
    (live : ctx.Live) (fits : t.Every fun s => (treeValue H s).Fits Rlp.defaultLimits)
    (counted : t.nodes ≤ n) (some : n ≠ 0) (encoding : n ≤ lim.maxEncodingNodes)
    (hashes : n ≤ w.hashesLeft) : RootRoom H ctx lim r t w := by
  have unhashed : ∀ root', r ≠ .hash root' := by
    rintro root' rfl
    exact inner trivial
  have visits : r.visits ≤ n := by
    have fewer := rep.visits_le canon
    split at fewer
    · rename_i vacant
      cases r with
      | nil => exact Nat.pos_of_ne_zero some
      | _ => cases vacant
    · exact le_trans fewer counted
  have fewer : r.hashes H + 1 ≤ r.visits := Node.hashes_lt unhashed
  exact ⟨live, fits, by omega, by omega⟩

section

variable (holds : previous.Holds H K h base) (rep : Rep H K r t)
  (inner : ¬ r.IsHash) (canon : t.Canonical) (short : t.Short maxCompactPathNibbles)
  (read : previous.materialized = true → readRoot = expand t)

include holds rep inner canon short read

theorem finishSnapshot_ends (resolved : List Root) (w : Work) :
    Ends (finishSnapshotWithPending H ctx r readRoot previous.limits previous.base
        previous.reader (some previous) resolved previous.materialized) w
      (fun next _ => next.hash = rootHash H t ∧
        (t.Every (fun s => treeBytes H s ∈ K) → next.Holds H K h t ∧
          Finished H previous next resolved r t))
      (fun e => e.Interrupts ∧ ¬ RootRoom H ctx previous.limits r t w) := by
  refine ((checkContext_live ctx w).unless RootRoom.live).bind ?_
  rintro _ _ ⟨polls, rfl⟩
  by_cases vacant : r.isNil = true
  · rw [if_pos vacant]
    have empty : t = .nil := by
      rw [rep.isNil_eq, Radix.isNil_eq_true] at vacant
      exact vacant
    subst empty
    refine ends_pure ⟨rfl, fun _ => ⟨⟨canon, short, fun some => absurd rfl some, Or.inl rfl, rfl,
      fun _ => rfl, ?_, holds.backing, rfl, holds.limits⟩,
      ⟨rfl, rfl, rfl, rfl, rfl, ?_, fun some => absurd rfl some⟩⟩⟩
    · intro r b found
      cases found
    · intro b mem
      exact absurd mem (notMem_zero b)
  · rw [if_neg vacant]
    have some : t ≠ .nil := by
      rintro rfl
      rw [rep.isNil_eq] at vacant
      exact vacant rfl
    have unhashed : ∀ root', r ≠ .hash root' := by
      rintro root' rfl
      exact inner trivial
    refine ((encodeNodeBounded_ends ctx rep unhashed canon short _ _).unless fun room =>
      ⟨room.live, room.fits, room.visits, Nat.le_of_succ_le room.hashes⟩).bind ?_
    rintro ⟨encoded, persisted⟩ work₂ ⟨eq, fits, persists, spent, -⟩
    dsimp only at eq persists spent
    subst eq
    have encodable : Stored H Set.univ t :=
      ⟨canon.proper some, short, fits, Radix.every_of_forall (fun _ => trivial) t⟩
    refine ((checkContext_live ctx work₂).unless RootRoom.live).bind ?_
    rintro _ _ ⟨polls', rfl⟩
    refine ((hash_spends H _ _).weaken ?_).bind ?_
    · rintro e ⟨stop, none⟩
      refine ⟨stop, fun room => ?_⟩
      have hashes := room.hashes
      dsimp only at none
      omega
    rintro hash work₄ ⟨rfl, -⟩
    refine wellFormed_bind encodable.decode ?_
    rcases layers : stackLayers (persisted.insert (H (treeBytes H t))
      (treeBytes H t)) previous.pendingLayer (previous.hash :: resolved) with
      ⟨pending, parent, removed⟩
    simp only [nextPendingLayer, layers]
    exact ends_pure ⟨(rootHash_proper some).symm, fun known => finished_holds holds
      ⟨canon.proper some, short, fits, known⟩ persists layers.symm rfl rfl read rfl rfl rfl rfl
      rfl⟩

theorem finishMutatedSnapshot_ends (w : Work) :
    Ends (finishMutatedSnapshot H ctx r readRoot previous) w
      (fun next _ => next.hash = rootHash H t ∧
        (t.Every (fun s => treeBytes H s ∈ K) → next.Holds H K h t ∧
          Finished H previous next w.resolved r t))
      (fun e => e.Interrupts ∧ ¬ RootRoom H ctx previous.limits r t w) := by
  refine ends_bind (ends_get ?_)
  refine (finishSnapshot_ends holds rep inner canon short read w.resolved w).bind ?_
  rintro next work' finished
  rw [inheritRecovery, if_pos (Or.inr (by rw [holds.plain]; rfl))]
  exact finished

end

/-! ### Closure -/

/-- Every node that the trie names by hash is found, and so is its root. -/
structure Snapshot.Closed (keccak : Bytes → Root)
    (heap : Heap) (snapshot : Snapshot) (trie : Tree) : Prop where
  below : ∀ b ∈ hashedBelow keccak trie, (snapshot.find heap (keccak b)).isSome
  top : trie ≠ .nil → (snapshot.find heap snapshot.hash).isSome

theorem find_of_pending {r : Root} (found : (snap.lookupPending r).isSome) :
    (snap.find h r).isSome := by
  rw [Snapshot.find, isSome_or, found]
  rfl

theorem find_of_reader {r : Root} (reader : next.reader = snap.reader)
    (found : (snap.find h r).isSome) (absent : snap.lookupPending r = none) :
    (next.find h r).isSome := by
  rw [Snapshot.find, absent, none_or] at found
  rw [Snapshot.find, reader, isSome_or, found, Bool.or_true]

/-- A change that resolves only nodes with one occurrence keeps the snapshot closed: the
nodes it tombstones are named nowhere else. -/
theorem Finished.closed {visits : List Bytes} {work' : Work}
    (inj : Set.InjOn H K) (holds : snap.Holds H K h t)
    (closed : snap.Closed H h t) (finished : Finished H snap next work'.resolved r trie')
    (fresh : w.resolved = [])
    (spends : Spends H visits (kept H snap.root t) (kept H r trie') w work')
    (once : ∀ b ∈ visits, (hashedBelow H t).count b ≤ 1) : next.Closed H h trie' := by
  refine ⟨?_, fun some => find_of_pending (finished.top some)⟩
  intro b mem
  rcases finished.found b mem with found | ⟨named, lost⟩
  · exact find_of_pending found
  have before := mem_of_le spends.le named
  rcases holds.root with frozen | ⟨some, hashed, bare⟩
  · have stored : t ≠ .nil := by
      rintro rfl
      rw [frozen] at before
      exact absurd before (notMem_zero b)
    have stored := holds.stored stored
    rw [frozen, (rep_freeze holds.stored).2] at spends before
    have found := closed.below b before
    cases pending : snap.lookupPending (H b) with
    | none => exact find_of_reader finished.reader found pending
    | some encoded =>
      rw [pending] at lost
      have gone := lost.resolve_right (by simp)
      exfalso
      obtain ⟨spent, le, sub, noted⟩ := spends
      rcases List.mem_cons.mp gone with top | resolved
      · rw [holds.hash, rootHash_proper stored.proper.ne_nil] at top
        obtain rfl := inj (stored.hashed_mem before) stored.mem top
        exact stored.root_not_below inj before
      · rcases noted _ resolved with old | ⟨b', taken, eq⟩
        · rw [fresh] at old
          cases old
        · have taken' := mem_of_le (le_trans (le_add_right _ _) le) taken
          obtain rfl := inj (stored.hashed_mem before) (stored.hashed_mem taken') eq
          have twice := count_le_of_le b le
          rw [count_add] at twice
          have one := count_pos.mpr taken
          have two := count_pos.mpr named
          have least := once b (sub b taken)
          omega
  · have found : (snap.find h (H b)).isSome := by
      rw [hashed, kept_hash] at before
      rcases mem_cons.mp before with rfl | below
      · have top := closed.top some
        rwa [holds.hash, rootHash_proper some] at top
      · exact closed.below b below
    exact find_of_reader finished.reader found (bare _)

/-! ### Calls -/

def pathOf (keccak : Bytes → Root) (secure : Bool) (key : Bytes) : Path :=
  if secure then bytesToNibbles (keccak key).bytes else bytesToNibbles key

/-- The errors with which an operation refuses its input or stops at a limit. -/
def Err.Refuses : Err → Prop
  | .invalidKey => True
  | .invalidValue _ => True
  | .invalidBatch => True
  | .duplicateBatchKey => True
  | e => e.Interrupts

theorem Err.Interrupts.refuses {e : Err} (stop : e.Interrupts) : e.Refuses := by
  cases e <;> trivial

/-- The errors of an input that is too large, of a limit and of the context. -/
def Err.Exceeds : Err → Prop
  | .invalidKey => True
  | .invalidValue .byteLimit => True
  | e => e.Interrupts

theorem Err.Interrupts.exceeds {e : Err} (stop : e.Interrupts) : e.Exceeds := by
  cases e <;> trivial

theorem Err.Exceeds.refuses {e : Err} (exceeds : e.Exceeds) : e.Refuses := by
  cases e <;> trivial

theorem length_pathOf {sec : Bool} {key : Bytes} (valid : validateTrieLimits lim = .ok ())
    (fits : key.length ≤ lim.maxKeyBytes) : (pathOf H sec key).length ≤ maxCompactPathNibbles := by
  unfold validateTrieLimits at valid
  split at valid
  · cases valid
  rename_i within
  unfold pathOf
  unfold maxCompactPathNibbles at within ⊢
  split
  · rw [length_bytesToNibbles, (H key).size]
    omega
  · rw [length_bytesToNibbles]
    omega

theorem validateOperation_ends (ctx : Context) (key v : Bytes) (checkValue : Bool) (w : Work) :
    Ends (validateOperation ctx snap key v checkValue) w
      (fun _ work' => (∃ polls, work' = { w with polls }) ∧
        key.length ≤ snap.limits.maxKeyBytes ∧
        (checkValue = true → v.length ≤ snap.limits.maxValueBytes))
      (fun e => e.Exceeds ∧ ¬ (ctx.Live ∧ key.length ≤ snap.limits.maxKeyBytes ∧
        (checkValue = true → v.length ≤ snap.limits.maxValueBytes))) := by
  refine ((checkContext_live ctx w).weaken fun _ stop =>
    ⟨stop.1.exceeds, fun room => stop.2 room.1⟩).bind fun _ work₁ eq => ?_
  refine ends_guard (fun long => ⟨trivial, fun room => by omega⟩) fun fits => ?_
  refine ends_failIf (fun long => ⟨trivial, fun room => ?_⟩) fun small =>
    ⟨eq, by omega, fun checked => ?_⟩
  · have least := room.2.2 long.1
    omega
  · by_contra large
    exact small ⟨checked, by omega⟩

/-- The path of a key, for which a secure trie spends a hash operation. -/
structure PathFound (keccak : Bytes → Root)
    (secure : Bool) (key : Bytes) (work : Work) (path : Path) (work' : Work) :
    Prop where
  path : path = pathOf keccak secure key
  resolved : work'.resolved = work.resolved
  reads : work'.readsLeft = work.readsLeft
  hashes : work.hashesLeft = work'.hashesLeft + secure.toNat

theorem keyPath_ends (key : Bytes) (sec : Bool) (w : Work) :
    Ends (keyPath H key sec) w (PathFound H sec key w)
      (fun e => e.Interrupts ∧ w.hashesLeft < sec.toNat) := by
  unfold keyPath
  cases sec with
  | false => exact ends_pure ⟨rfl, rfl, rfl, rfl⟩
  | true =>
    have hashed : Ends (hash H key) w
        (fun r work' => PathFound H true key w (bytesToNibbles r.bytes) work')
        (fun e => e.Interrupts ∧ w.hashesLeft < 1) := by
      unfold Ends hash
      by_cases spent : w.hashesLeft = 0
      · rw [if_pos spent]
        exact ⟨trivial, by omega⟩
      · rw [if_neg spent]
        refine ⟨rfl, rfl, rfl, ?_⟩
        dsimp only [Bool.toNat_true]
        omega
    exact hashed.bind fun r work' found => ends_pure found

theorem orZero_keyPath_ends {failed : Err → Prop} (key : Bytes) (sec : Bool)
    (left : w.hashesLeft ≠ 0) :
    Ends (orZero [] (keyPath H key sec)) w (PathFound H sec key w) failed := by
  have ends : Ends (keyPath H key sec) w _ _ := keyPath_ends key sec w
  unfold Ends orZero at *
  cases outcome : keyPath H key sec w with
  | ok r =>
    rw [outcome] at ends
    exact ends
  | error e =>
    rw [outcome] at ends
    have one := sec.toNat_le
    omega

end

end Golib.MerklePatriciaTrie
