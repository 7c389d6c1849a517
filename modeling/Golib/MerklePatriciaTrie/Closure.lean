import Golib.MerklePatriciaTrie.SingleProofs

/-! Which sessions keep every node that their snapshots refer to. A change tombstones the
nodes on its path, so a node that is also referred to from elsewhere is lost; where no
change comes upon such a node, nothing is. -/
namespace Golib.MerklePatriciaTrie

open Program Session Multiset

/-- The hashes that are met from a node when the hashes on the way are resolved. -/
inductive Reachable (find : Root → Option Bytes) : Node → Root → Prop where
  | here (root : Root) : Reachable find (.hash root) root
  | resolved {root target : Root} {encoded : Bytes} {node : Node} (found : find root = some encoded)
      (decoded : decodeNode encoded = .ok node) (below : Reachable find node target) :
      Reachable find (.hash root) target
  | extension {path : Path} {child : Node} {target : Root} (below : Reachable find child target) :
      Reachable find (.extension path child) target
  | branch {children : Nibble → Node} {value : Bytes} {target : Root} (i : Nibble)
      (below : Reachable find (children i) target) : Reachable find (.branch children value) target

variable {r : Root} {next : Snapshot} {n : Node} {find : Root → Option Bytes}

section

variable (keccak : Bytes → Root) {session : Session} {b : Bytes}

/-- Nothing that the snapshot refers to is lost: every reachable hash is found, no operation
fails for want of a node, and a commit hands over what the store does not have yet. -/
structure Snapshot.Resolves (heap : Heap) (secure : Bool) (snapshot : Snapshot) : Prop where
  found : ∀ root, Reachable (snapshot.find heap) snapshot.root root →
    (snapshot.find heap root).isSome
  get : ∀ ctx key e, (Snapshot.get keccak heap ctx snapshot key secure
    snapshot.limits.work).map Prod.fst = .error e → ¬ e.Lost
  call : ∀ (call : Call) e, call.run keccak heap secure snapshot = .error e → ¬ e.Lost
  prove : ∀ ctx key e, (Snapshot.prove keccak heap ctx snapshot key secure
    snapshot.limits.work).map Prod.fst = .error e → ¬ e.Lost
  commit : ∀ store, snapshot.reader = none ∨ snapshot.reader = some store →
    ∀ root, Reachable (snapshot.find heap) snapshot.root root ∨
        (snapshot.root ≠ .nil ∧ root = snapshot.hash) →
      (snapshot.commitRequest.nodes.lookup root).isSome ∨ ((heap store).nodes.lookup root).isSome

/-- The action changes no trie along a node that the trie refers to more than once. -/
def Action.Alone (secure : Bool) (session : Session) : Action → Prop
  | .call on change => ∀ entry ∈ session.held[on]?,
      ∀ b ∈ changeAllVisits keccak secure entry.version.trie change.mutations,
        (hashedBelow keccak entry.version.trie).count b ≤ 1
  | _ => True

/-- The sessions whose actions all meet the condition. -/
inductive Session.Reached (secure : Bool) : Session → Prop where
  | start : Reached secure .start
  | step {session : Session} {action : Action} (reached : Reached secure session)
      (alone : action.Alone keccak secure session) :
      Reached secure (session.step keccak secure action)

/-- Every snapshot finds the nodes of its trie, and so does every store for the root that it
publishes. -/
structure Session.Closed (session : Session) : Prop where
  held : ∀ entry ∈ session.held, entry.snapshot.Closed keccak session.heap entry.version.trie
  published : ∀ store, ∀ b ∈ hashedBelow keccak (session.published store).trie,
    ((session.heap store).nodes.lookup (keccak b)).isSome
  roots : ∀ store, (session.published store).trie ≠ .nil →
    ((session.heap store).nodes.lookup (session.heap store).root).isSome

variable {H : Bytes → Root} {K : Set Bytes} {snap : Snapshot} {s : StoreRef} {h heap' : Heap}
  {t : Tree} {sec : Bool}

/-! ### What one action keeps -/

theorem Snapshot.Closed.mono (closed : snap.Closed H h t)
    (grows : ∀ s r, ((h s).nodes.lookup r).isSome → ((heap' s).nodes.lookup r).isSome) :
    snap.Closed H heap' t := by
  have find : ∀ r, (snap.find h r).isSome → (snap.find heap' r).isSome := by
    intro r found
    unfold Snapshot.find at found ⊢
    rw [Option.isSome_or, Bool.or_eq_true] at found ⊢
    rcases found with here | there
    · exact Or.inl here
    · cases reader : snap.reader with
      | none =>
        rw [reader] at there
        cases there
      | some s =>
        rw [reader] at there
        exact Or.inr (grows s r there)
  exact ⟨fun b mem => find _ (closed.below b mem), fun some => find _ (closed.top some)⟩

theorem Committed.grows (committed : Committed h heap' snap next s) (store' : StoreRef) (r : Root)
    (found : ((h store').nodes.lookup r).isSome) : ((heap' store').nodes.lookup r).isSome := by
  by_cases eq : store' = s
  · subst eq
    rw [committed.nodes, Option.isSome_or, found, Bool.or_true]
  · rwa [committed.others store' eq]

theorem find_cases (own : snap.reader = none ∨ snap.reader = some s)
    (found : (snap.find h r).isSome) :
    (snap.lookupPending r).isSome ∨ ((h s).nodes.lookup r).isSome := by
  rw [Snapshot.find, Option.isSome_or, Bool.or_eq_true] at found
  rcases found with pending | st
  · exact Or.inl pending
  · rcases own with none | own
    · rw [none] at st
      cases st
    · rw [own] at st
      exact Or.inr st

theorem Committed.found (committed : Committed h heap' snap next s)
    (found : (snap.find h r).isSome) : ((heap' s).nodes.lookup r).isSome := by
  rw [committed.nodes, Option.isSome_or, Bool.or_eq_true]
  exact find_cases committed.reader found

theorem find_of_store (reader : snap.reader = some s)
    (found : ((h s).nodes.lookup r).isSome) : (snap.find h r).isSome := by
  rw [Snapshot.find, reader, Option.isSome_or, Bool.or_eq_true]
  exact Or.inr found

theorem Session.Closed.hold {e : Entry} (closed : session.Closed H)
    (here : e.snapshot.Closed H session.heap e.version.trie) : (session.hold e).Closed H := by
  exact ⟨List.forall_mem_append.mpr ⟨closed.held, List.forall_mem_singleton.mpr here⟩,
    closed.published, closed.roots⟩

theorem Session.Closed.step {action : Action} {session' : Session}
    (inj : Set.InjOn H K) (empty : H [0x80] = emptyRoot)
    (reserved : [0x80] ∈ K) (sound : session.Sound H K) (known : session'.Known H K)
    (closed : session.Closed H) (alone : action.Alone H sec session)
    (stepped : session.Stepped H sec action session') : session'.Closed H := by
  cases stepped with
  | same => exact closed
  | @new lim snap made =>
    have fresh : snap.Closed H session.heap .nil := (newTrie_holds (K := K) made).2.1
    exact closed.hold fresh
  | call called here ran =>
    subst called
    have mem := List.mem_of_getElem? here
    exact closed.hold ((sound.called inj mem known ran).2.closed (closed.held _ mem)
      (alone _ here))
  | @commit ctx s e h next w here ran =>
    have closed' := closed.held e here
    rcases (commit_ends ctx s _).ok ran with eq | committed
    · cases eq
      rw [if_pos rfl, Function.update_eq_self]
      exact closed.hold closed'
    · dsimp only at committed
      refine ⟨List.forall_mem_append.mpr ⟨fun other old => (closed.held other old).mono
          committed.grows, List.forall_mem_singleton.mpr ?_⟩,
        forall_published (P := fun store' version => ∀ b ∈ hashedBelow H version.trie,
            ((h store').nodes.lookup (H b)).isSome)
          (fun store' _ b mem => committed.grows _ _ (closed.published _ b mem))
          (fun _ b mem => committed.grows _ _ (closed.published _ b mem))
          fun b mem => committed.found (closed'.below b mem),
        forall_published (P := fun store' version => version.trie ≠ .nil →
            ((h store').nodes.lookup (h store').root).isSome)
          (fun store' other some => ?_) (fun unchanged some => ?_) fun some => ?_⟩
      · obtain rfl := committed.next
        exact ⟨fun b below => find_of_store rfl (committed.found (closed'.below b below)),
          fun some => find_of_store rfl (committed.found (closed'.top some))⟩
      · rw [committed.others store' other]
        exact closed.roots store' some
      · rw [unchanged]
        exact committed.grows _ _ (closed.roots _ some)
      · rw [committed.root]
        exact committed.found (closed'.top some)
  | @load s lim snap loaded =>
    rw [sound.roots] at loaded
    obtain ⟨holds, reader, -⟩ := loadSnapshot_holds inj empty reserved (sound.stores s)
      (sound.stored s) loaded
    refine closed.hold ⟨fun b below => find_of_store reader (closed.published s b below),
      fun some => find_of_store reader ?_⟩
    rw [holds.hash, ← sound.roots]
    exact closed.roots s some

theorem Session.Reached.closed (reached : Reached H sec session) (inj : Set.InjOn H K)
    (empty : H [0x80] = emptyRoot) (reserved : [0x80] ∈ K) (known : session.Known H K) :
    session.Sound H K ∧ session.Closed H := by
  induction reached with
  | start =>
    refine ⟨sound_start, ⟨fun e mem => ?_, fun s b mem => ?_, fun s some => absurd rfl some⟩⟩
    · cases mem
    · exact absurd mem (notMem_zero b)
  | @step session action reached alone ih =>
    have stepped := stepped H sec session action
    obtain ⟨sound, closed⟩ := ih (stepped.known known)
    exact ⟨sound.step inj empty reserved known stepped,
      closed.step inj empty reserved sound known alone stepped⟩

/-! ### Nothing is lost -/

theorem Reachable.kept {target : Root} (reachable : Reachable find n target) (inj : Set.InjOn H K)
    (sound : ∀ r b, find r = some b → r = H b ∧ b ∈ K) (rep : RepAt H K 0 n t) :
    ∃ b ∈ MerklePatriciaTrie.kept H n t, target = H b := by
  induction reachable generalizing t with
  | here r =>
    obtain ⟨stored, rfl, -⟩ := rep.hash
    refine ⟨treeBytes H t, ?_, rfl⟩
    exact mem_cons_self _ _
  | resolved found decoded below ih =>
    obtain ⟨stored, rfl, -⟩ := rep.hash
    obtain ⟨collides, mem⟩ := sound _ _ found
    obtain rfl := inj stored.mem mem collides
    rw [stored.decode] at decoded
    cases decoded
    obtain ⟨frozen, names⟩ := rep_freeze (fun _ => stored)
    obtain ⟨b, sub, eq⟩ := ih (Or.inl frozen)
    refine ⟨b, ?_, eq⟩
    rw [names] at sub
    exact mem_cons_of_mem sub
  | extension below ih =>
    cases rep.inner id with
    | extension inner => exact ih (Or.inl inner)
  | @branch kids v target i below ih =>
    cases rep.inner id with
    | @branch _ tries content inner =>
      obtain ⟨b, sub, eq⟩ := ih (Or.inl (inner i))
      exact ⟨b, mem_of_le (kept_child_le kids tries i) sub, eq⟩

theorem Snapshot.Closed.find_kept (closed : snap.Closed H h t) (holds : snap.Holds H K h t)
    (named : b ∈ kept H snap.root t) : (snap.find h (H b)).isSome := by
  rcases holds.root with frozen | ⟨some, hashed, -⟩
  · rw [frozen, (rep_freeze holds.stored).2] at named
    exact closed.below b named
  · rw [hashed, kept_hash] at named
    rcases mem_cons.mp named with rfl | below
    · have top := closed.top some
      rwa [holds.hash, rootHash_proper some] at top
    · exact closed.below b below

/-- Where all that is reachable from a stored trie's node is found, what the trie names by hash
is reachable. -/
theorem reachable_of_hashed {trie : Tree} (inj : Set.InjOn H K)
    (sound : ∀ root b, find root = some b → root = H b ∧ b ∈ K)
    (stored : trie ≠ .nil → Stored H K trie)
    (found : ∀ root, Reachable find (freeze H trie) root → (find root).isSome)
    (hashed : b ∈ hashedBelow H trie) : Reachable find (freeze H trie) (H b) := by
  -- one child, as its parent holds it
  have linked : ∀ t : Tree, (t ≠ .nil → Stored H K t) →
      ((∀ root, Reachable find (freeze H t) root → (find root).isSome) →
        b ∈ hashedBelow H t → Reachable find (freeze H t) (H b)) →
      (∀ root, Reachable find (link H (treeBytes H t) (freeze H t)) root → (find root).isSome) →
      b ∈ entry H t + hashedBelow H t →
      Reachable find (link H (treeBytes H t) (freeze H t)) (H b) := by
    intro t stored ih found mem
    unfold link entry at *
    split at mem
    · rename_i small
      rw [if_pos small] at found ⊢
      rw [zero_add] at mem
      exact ih found mem
    · rename_i large
      rw [if_neg large] at found ⊢
      have large : rootBytes ≤ (treeBytes H t).length := by omega
      have stored := stored (ne_nil_of_large large)
      rw [mem_add, mem_singleton] at mem
      rcases mem with rfl | deeper
      · exact .here _
      · obtain ⟨encoded, there⟩ := Option.isSome_iff_exists.mp (found _ (.here _))
        obtain ⟨collides, known⟩ := sound _ _ there
        obtain rfl := inj stored.mem known collides
        exact .resolved there stored.decode
          (ih (fun root below => found root (.resolved there stored.decode below)) deeper)
  induction trie with
  | nil | leaf => exact absurd hashed (notMem_zero b)
  | ext path child ih =>
    have below : child ≠ .nil → Stored H K child := fun _ => (stored (by simp)).below
    exact .extension (linked child below (ih below)
      (fun root reachable => found root (.extension reachable)) hashed)
  | branch kids value ih =>
    obtain ⟨i, -, mem⟩ := mem_sum.mp hashed
    have below : kids i ≠ .nil → Stored H K (kids i) := (stored (by simp)).child
    exact .branch i (linked (kids i) below (ih i below)
      (fun root reachable => found root (.branch i reachable)) mem)

theorem Snapshot.Holds.find_kept (inj : Set.InjOn H K) (holds : snap.Holds H K h t)
    (found : ∀ r, Reachable (snap.find h) snap.root r → (snap.find h r).isSome)
    (named : b ∈ kept H snap.root t) : (snap.find h (H b)).isSome := by
  have sound : ∀ r b, snap.find h r = some b → r = H b ∧ b ∈ K := holds.env_sound .background
  rcases holds.root with frozen | ⟨some, hashed, -⟩
  · rw [frozen] at found named
    rw [(rep_freeze holds.stored).2] at named
    exact found _ (reachable_of_hashed inj sound holds.stored found named)
  · have st := holds.stored some
    rw [hashed] at found named
    rcases mem_cons.mp named with rfl | below
    · exact found _ (.here _)
    · obtain ⟨enc, there⟩ := Option.isSome_iff_exists.mp (found _ (.here _))
      obtain ⟨collides, known⟩ := sound _ _ there
      obtain rfl := inj st.mem known collides
      have inner : ∀ r, Reachable (snap.find h) (freeze H t) r → (snap.find h r).isSome :=
        fun r reachable => found r (.resolved there st.decode reachable)
      exact inner _ (reachable_of_hashed inj sound holds.stored inner below)

theorem Snapshot.Closed.not_missing {e : Err} (closed : snap.Closed H h t)
    (holds : snap.Holds H K h t) : ¬ Missing H h snap t e := by
  rintro ⟨-, b, named, absent⟩
  have found := closed.find_kept holds named
  rw [absent] at found
  cases found

theorem Err.Refuses.not_lost {e : Err} (refuses : e.Refuses) : ¬ e.Lost := by
  intro lost
  cases e with
  | missingNode hash => exact refuses
  | malformedNode fault =>
    cases fault with
    | unresolvedHash => exact refuses
    | _ => exact lost
  | _ => exact lost

theorem Snapshot.Closed.resolves (closed : snap.Closed H h t) (inj : Set.InjOn H K)
    (holds : snap.Holds H K h t) : snap.Resolves H h sec := by
  have found : ∀ r, Reachable (snap.find h) snap.root r → (snap.find h r).isSome := by
    intro r reachable
    obtain ⟨b, named, rfl⟩ := reachable.kept inj (holds.env_sound .background) holds.rep
    exact closed.find_kept holds named
  refine ⟨found, fun ctx key e failed => ?_, fun call e failed => ?_, fun ctx key e failed => ?_,
    fun s own r reachable => ?_⟩
  · rcases (get_ends inj holds).run.2 e failed with refused | ⟨-, missing⟩ | ⟨rfl, -⟩
    · exact refused.1.not_lost
    · exact absurd missing (closed.not_missing holds)
    · exact id
  · rcases (Call.run_spec inj holds).2 e failed with refused | missing | ⟨rfl, -⟩
    · exact refused.not_lost
    · exact absurd missing (closed.not_missing holds)
    · exact id
  · rcases (prove_ends inj holds _).run.2 e failed with refused | missing
    · exact refused.not_lost
    · exact absurd missing (closed.not_missing holds)
  · have here : (snap.find h r).isSome := by
      rcases reachable with reachable | ⟨some, rfl⟩
      · exact found r reachable
      · refine closed.top ?_
        rintro rfl
        rcases holds.root with frozen | ⟨proper, -, -⟩
        · exact some frozen
        · exact proper rfl
    rw [Snapshot.commitRequest, lookup_commitNodes, Snapshot.lookup_materializePending]
    exact find_cases own here

/-- In every session whose changes all meet the condition, no snapshot loses a node, and
neither does a store of the root that it publishes. -/
theorem references_resolve {keccak : Bytes → Root} {secure : Bool} {session : Session}
    (reached : Reached keccak secure session) (empty : keccak [0x80] = emptyRoot)
    (injective : Set.InjOn keccak {b | b ∈ session.encodings keccak}) :
    (∀ entry ∈ session.held, entry.snapshot.Resolves keccak session.heap secure) ∧
    ∀ store, (session.heap store).root ≠ emptyRoot →
      ∀ root, Reachable (fun root => (session.heap store).nodes.lookup root)
          (.hash (session.heap store).root) root →
        ((session.heap store).nodes.lookup root).isSome := by
  have known := known_of_encodings (fun b (inside : b ∈ session.encodings keccak) => inside)
  obtain ⟨sound, closed⟩ := reached.closed injective empty List.mem_cons_self known
  refine ⟨fun entry mem => (closed.held entry mem).resolves injective (sound.held entry mem),
    fun store some root reachable => ?_⟩
  have proper : (session.published store).trie ≠ .nil := by
    intro none
    rw [sound.roots, none] at some
    exact some rfl
  have stored := sound.stored store proper
  have hash : (session.heap store).root = keccak
    (treeBytes keccak (session.published store).trie) := by
    rw [sound.roots, rootHash_proper proper]
  have rep : RepAt keccak {b | b ∈ session.encodings keccak} 0 (.hash (session.heap store).root)
      (session.published store).trie := Or.inr ⟨rfl, stored, by rw [hash]⟩
  obtain ⟨b, named, rfl⟩ := reachable.kept injective (sound.stores store) rep
  rcases mem_cons.mp named with rfl | below
  · rw [← hash]
    exact closed.roots store proper
  · exact closed.published store b below

end

/-- The two keys are written to a store and read back. -/
def twinSession : Session :=
  run keccakShared false (sharedActions ++ [.commit 2 .background 0, .load 0 defaultLimits])

theorem twin_injective : Set.InjOn keccakShared {b | b ∈ twinSession.encodings keccakShared} :=
  injOn_list (by decide +kernel)

/-- A trie that refers to no node by hash can be changed along any path. -/
theorem alone_call {keccak : Bytes → Root} {secure : Bool} {session : Session} {on : Nat}
    {call : Call}
    (whole : ∀ e ∈ session.held[on]?, hashedBelow keccak e.version.trie = 0) :
    (Action.call on call).Alone keccak secure session := by
  intro e here b visited
  rw [whole e here]
  exact Nat.zero_le _

theorem Session.Reached.concat {keccak : Bytes → Root} {secure : Bool} {actions : List Action}
    (reached : Reached keccak secure (run keccak secure actions)) (action : Action)
    (alone : action.Alone keccak secure (run keccak secure actions)) :
    Reached keccak secure (run keccak secure (actions ++ [action])) := by
  rw [run, List.foldl_append]
  exact .step reached alone

theorem reached_twin : Reached keccakShared false twinSession := by
  have none : Reached keccakShared false (run keccakShared false []) := .start
  have fresh := none.concat (.new defaultLimits) trivial
  have one := fresh.concat (putTwin 0 0x10) (alone_call (by decide +kernel))
  have two := one.concat (putTwin 1 0x20) (alone_call (by decide +kernel))
  have committed := two.concat (.commit 2 .background 0) trivial
  exact committed.concat (.load 0 defaultLimits) trivial

/-- The hash by which a branch refers to a child. -/
def Node.childHash : Node → Nibble → Option Root
  | .branch children _, i =>
    match children i with
    | .hash root => some root
    | _ => none
  | _, _ => none

theorem reachable_childHash {i : Nibble} (held : n.childHash i = some r) : Reachable find n r := by
  cases n with
  | branch kids v =>
    refine .branch i ?_
    rw [Node.childHash] at held
    cases c : kids i with
    | hash other =>
      rw [c] at held
      cases held
      exact .here r
    | _ =>
      rw [c] at held
      cases held
  | _ => cases held

/-- The committed snapshot finds the leaf that both keys refer to. -/
theorem references_resolve_loaded :
    twinSession.held.length = 5 ∧
    (∀ entry ∈ twinSession.held, entry.snapshot.Resolves keccakShared twinSession.heap false) ∧
    ((twinSession.heap 0).nodes.lookup (twinSession.heap 0).root).isSome ∧
    ∃ entry, twinSession.held[3]? = some entry ∧
      (entry.snapshot.find twinSession.heap sharedDigest).isSome := by
  have resolve := references_resolve reached_twin shared_empty twin_injective
  refine ⟨by decide +kernel, resolve.1, resolve.2 0 (by decide +kernel) _ (.here _), ?_⟩
  obtain ⟨entry, here, held⟩ : ∃ entry, twinSession.held[3]? = some entry ∧
      entry.snapshot.root.childHash 2 = some sharedDigest := by
    decide +kernel
  exact ⟨entry, here,
    (resolve.1 entry (List.mem_of_getElem? here)).found _ (reachable_childHash held)⟩

/-! ### A node that is referred to twice -/

/-- Two keys get the same value, then one of them another. -/
def sharedSession : Session :=
  run keccakShared false
    (sharedActions ++ [.call 2 (.update .background [0x10] (List.replicate 32 0x42))])

theorem shared_held (on : Nat) (sub : on < 4) :
    ∃ e, sharedSession.held[on]? = some e ∧ e ∈ sharedSession.held := by
  have four : sharedSession.held.length = 4 := by decide +kernel
  exact ⟨_, List.getElem?_eq_getElem (four ▸ sub), List.getElem_mem _⟩

theorem shared_injective : Set.InjOn keccakShared {b | b ∈ sharedSession.encodings keccakShared} :=
  injOn_list (by decide +kernel)

/-- Whether a call fails is decided without comparing what it returns. -/
instance decidableEqError {α : Type} (r : Except Err α) (e : Err) : Decidable (r = .error e) :=
  match r with
  | .error e' => decidable_of_iff (e' = e) (by simp)
  | .ok _ => isFalse (by simp)

/-- The last update tombstones the leaf that the other key still refers to: its hash is
reachable and not found, the other key can be neither changed nor proved, and a commit
does not hand the leaf over. -/
theorem shared_node_lost :
    Set.InjOn keccakShared {b | b ∈ sharedSession.encodings keccakShared} ∧
    keccakShared [0x80] = emptyRoot ∧
    ∃ entry, sharedSession.held[3]? = some entry ∧
      Reachable (entry.snapshot.find sharedSession.heap) entry.snapshot.root sharedDigest ∧
      entry.snapshot.find sharedSession.heap sharedDigest = none ∧
      (Call.update .background [0x20] [0x43]).run keccakShared sharedSession.heap false
        entry.snapshot = .error (.malformedNode .unresolvedHash) ∧
      (Call.delete .background [0x20]).run keccakShared sharedSession.heap false entry.snapshot =
        .error (.malformedNode .unresolvedHash) ∧
      (Snapshot.prove keccakShared sharedSession.heap .background entry.snapshot [0x20] false
        entry.snapshot.limits.work).map Prod.fst = .error (.malformedNode .unresolvedHash) ∧
      entry.snapshot.commitRequest.nodes.lookup sharedDigest = none := by
  refine ⟨shared_injective, shared_empty, ?_⟩
  refine Exists.imp (fun entry => And.imp_right <| And.imp_left (reachable_childHash (i := 2))) ?_
  decide +kernel

end Golib.MerklePatriciaTrie
