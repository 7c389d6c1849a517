import Golib.MerklePatriciaTrie.History

/-! Sessions: callers make tries, change them, commit them to stores and load them back,
and keep every snapshot they were given. -/
namespace Golib.MerklePatriciaTrie

open Program List Set

/-- What a snapshot stands for: a map from keys to values, and the trie that holds it. -/
structure Version where
  trie : Tree
  contents : Bytes → Option Content

def Version.empty : Version := ⟨.nil, fun _ => none⟩

/-- A snapshot that a caller holds. -/
structure Entry where
  snapshot : Snapshot
  version : Version

/-- The stores, the versions whose roots they publish, and the snapshots, oldest first. -/
structure Session where
  heap : Heap
  published : StoreRef → Version
  held : List Entry

open Session

def Session.start : Session := ⟨Heap.new, fun _ => .empty, []⟩

def Session.hold (session : Session) (entry : Entry) : Session :=
  { session with held := session.held ++ [entry] }

inductive Action where
  | new (limits : Limits)
  | call (on : Nat) (call : Call)
  | commit (on : Nat) (ctx : Context) (store : StoreRef)
  | load (store : StoreRef) (limits : Limits)

variable {s : StoreRef} {next : Snapshot}

section

variable (keccak : Bytes → Root) (secure : Bool) {session : Session} {actions : List Action}
  {Q : Set Bytes} {action : Action} {heap' : Heap}

def Version.mutate (version : Version) (mutations : List Mutation) : Version where
  trie := (changeAll keccak secure version.trie mutations).getD version.trie
  contents := mutateMap version.contents mutations

/-- One action; what fails leaves the session as it is. -/
def Session.step (session : Session) : Action → Session
  | .new limits =>
    match newTrie limits with
    | .error _ => session
    | .ok snapshot => session.hold ⟨snapshot, .empty⟩
  | .call on call =>
    match session.held[on]? with
    | none => session
    | some entry =>
      match call.run keccak session.heap secure entry.snapshot with
      | .error _ => session
      | .ok next => session.hold ⟨next, entry.version.mutate keccak secure call.mutations⟩
  | .commit on ctx store =>
    match session.held[on]? with
    | none => session
    | some entry =>
      match entry.snapshot.commit session.heap ctx (some store) entry.snapshot.limits.work with
      | .error _ => session
      | .ok ((heap, next), _) =>
        { heap
          published := Function.update session.published store
            (if (heap store).root = (session.heap store).root then session.published store
              else entry.version)
          held := session.held ++ [⟨next, entry.version⟩] }
  | .load store limits =>
    match loadSnapshot (session.heap store).root (some store) limits with
    | .error _ => session
    | .ok snapshot => session.hold ⟨snapshot, session.published store⟩

def Session.run (actions : List Action) : Session := actions.foldl (step keccak secure) .start

def Session.encodings (session : Session) : List Bytes :=
  [0x80] :: session.held.flatMap fun entry => encodingsOf keccak entry.version.trie

/-- Every snapshot stands for its trie, and every store publishes the root of its own. -/
structure Session.Sound (K : Set Bytes) (session : Session) : Prop where
  held : ∀ entry ∈ session.held, entry.snapshot.Holds keccak K session.heap entry.version.trie
  stores : ∀ store, (session.heap store).Sound keccak K
  roots : ∀ store, (session.heap store).root = rootHash keccak (session.published store).trie
  stored : ∀ store, (session.published store).trie ≠ .nil →
    Stored keccak K (session.published store).trie

variable {H : Bytes → Root} {sec : Bool} {K : Set Bytes} {h : Heap} {snap : Snapshot} {t : Tree}
  {e : Entry} {session' : Session}

/-! ### Commits -/

theorem pollEach_ends {α : Type} (ctx : Context) (values : List α) (w : Work) :
    Ends (pollEach ctx values) w (fun _ _ => True) (fun _ => True) := by
  induction values generalizing w with
  | nil => exact ends_pure trivial
  | cons v rest ih =>
    exact ((checkContext_ends ctx w).weaken (fun _ _ => trivial)).bind
      fun _ work' _ => ih work'

theorem lookup_insertAll (entries : List (Root × Bytes)) (ns : NodeMap) (r : Root)
    (distinct : (entries.map Prod.fst).Nodup) :
    (entries.foldl (fun ns n => ns.insert n.1 n.2) ns).lookup r =
      (entries.lookup r).or (ns.lookup r) := by
  induction entries generalizing ns with
  | nil => rfl
  | cons e rest ih =>
    obtain ⟨hash, enc⟩ := e
    rw [map_cons, nodup_cons] at distinct
    rw [foldl_cons, ih _ distinct.2, lookup_cons]
    by_cases eq : r = hash
    · subst eq
      have absent : rest.lookup r = none := by
        rw [lookup_eq_none_iff]
        intro e mem
        rw [bne_iff_ne]
        rintro rfl
        exact distinct.1 (mem_map.mpr ⟨_, mem, rfl⟩)
      rw [absent, AList.lookup_insert, beq_self_eq_true]
      rfl
    · rw [AList.lookup_insert_ne eq, beq_false_of_ne eq]

theorem lookup_commitNodes (prev r : Root) (pending : NodeMap) (hash : Root) :
    (newStoreCommit prev r pending).nodes.lookup hash = pending.lookup hash := by
  have lookup : ∀ keys : List Root, (keys.map fun key => (key, (pending.lookup key).getD [])).lookup
      hash = if hash ∈ keys then some ((pending.lookup hash).getD []) else none := by
    intro keys
    induction keys with
    | nil => rfl
    | cons key rest ih =>
      rw [map_cons, lookup_cons, ih]
      by_cases eq : hash = key
      · subst eq
        simp
      · rw [beq_false_of_ne eq]
        simp [eq]
  rw [newStoreCommit, lookup]
  simp only [mem_insertionSort]
  split
  · rename_i mem
    obtain ⟨b, found⟩ := Option.isSome_iff_exists.mp (AList.lookup_isSome.mpr mem)
    rw [found]
    rfl
  · rename_i absent
    rw [AList.lookup_eq_none.mpr absent]

theorem commitNodes_nodup (prev r : Root) (pending : NodeMap) :
    ((newStoreCommit prev r pending).nodes.map Prod.fst).Nodup := by
  rw [newStoreCommit, map_map]
  have fst : (Prod.fst ∘ fun hash => (hash, (pending.lookup hash).getD [])) = id := rfl
  rw [fst, map_id]
  exact (perm_insertionSort _ _).nodup_iff.mpr pending.keys_nodup

/-- What a commit that writes leaves behind. -/
structure Committed (heap heap' : Heap) (snapshot next : Snapshot) (store : StoreRef) : Prop where
  reader : snapshot.reader = none ∨ snapshot.reader = some store
  current : (heap store).root = snapshot.base
  others : ∀ store', store' ≠ store → heap' store' = heap store'
  root : (heap' store).root = snapshot.hash
  nodes : ∀ root, (heap' store).nodes.lookup root =
    (snapshot.lookupPending root).or ((heap store).nodes.lookup root)
  next : next = {
    root := snapshot.root, readRoot := snapshot.readRoot, hash := snapshot.hash
    base := snapshot.hash, limits := snapshot.limits, reader := some store
    pending := ∅, parent := [], removed := [], materialized := snapshot.materialized
    recovered := ∅, recoveryNodes := 0, recoveryBytes := 0 }

theorem commitTrie_ends (ctx : Context) (state : StoreState) (w : Work) :
    Ends (state.commitTrie ctx snap.commitRequest) w
      (fun state' _ => state.root = snap.base ∧ state'.root = snap.hash ∧
        ∀ r, state'.nodes.lookup r = (snap.lookupPending r).or (state.nodes.lookup r))
      (fun _ => True) := by
  have polled : ∀ w, Ends (checkContext ctx) w (fun _ _ => True) (fun _ => True) :=
    fun w => (checkContext_ends ctx w).mono (fun _ _ _ => trivial) (fun _ _ => trivial)
  refine (polled w).bind fun _ work₁ _ => ?_
  refine (pollEach_ends ctx _ work₁).bind fun _ work₂ _ => ?_
  refine ends_guard (fun _ => trivial) fun cur => ?_
  refine (pollEach_ends ctx _ work₂).bind fun _ work₃ _ => ?_
  refine (polled work₃).bind fun _ work₄ _ => ?_
  refine (polled work₄).bind fun _ work₅ _ => ?_
  refine ends_pure ⟨not_not.mp cur, rfl, fun r => ?_⟩
  rw [lookup_merge, Snapshot.commitRequest, lookup_insertAll _ _ _ (commitNodes_nodup _ _ _),
    lookup_commitNodes, Snapshot.lookup_materializePending]
  simp

theorem commit_ends (ctx : Context) (s : StoreRef) (w : Work) :
    Ends (snap.commit h ctx (some s)) w
      (fun r _ => r = (h, snap) ∨ Committed h r.1 snap r.2 s)
      (fun _ => True) := by
  refine ((checkContext_ends ctx w).weaken (fun _ _ => trivial)).bind
    fun _ work₁ _ => ?_
  refine ends_guard (fun _ => trivial) fun own => ?_
  split
  · exact ends_pure (Or.inl rfl)
  · refine (ends_mapError (commitTrie_ends ctx (h s) work₁)).bind ?_
    rintro state work₂ ⟨cur, root, ns⟩
    refine ends_pure (Or.inr ⟨?_, cur, ?_, ?_, ?_, rfl⟩)
    · cases reader : snap.reader with
      | none => exact Or.inl rfl
      | some store' =>
        rw [reader] at own
        simp only [Option.isSome_some, true_and, ne_eq, not_not] at own
        exact Or.inr own
    · exact fun store' other => Function.update_of_ne other _ _
    · dsimp only
      rw [Function.update_self]
      exact root
    · intro root'
      dsimp only
      rw [Function.update_self]
      exact ns root'

/-! ### What one action keeps -/

theorem loadSnapshot_holds {lim : Limits}
    (inj : InjOn H K) (empty : H [0x80] = emptyRoot) (reserved : [0x80] ∈ K)
    (sound : (h s).Sound H K) (st : t ≠ .nil → Stored H K t)
    (loaded : loadSnapshot (rootHash H t) (some s) lim = .ok snap) :
    snap.Holds H K h t ∧ snap.reader = some s ∧ ∀ r, snap.lookupPending r = none := by
  obtain ⟨_, valid, made⟩ := except_bind_ok.mp loaded
  cases made
  have nothing : ∀ r b, lookupPending ∅ [] [] r = some b → False := by
    intro r b found
    cases found
  refine ⟨⟨?_, ?_, st, ?_, rfl, fun whole => (by cases whole), fun r b found =>
    (nothing r b found).elim, ?_, rfl, valid⟩, rfl, fun _ => rfl⟩
  · by_cases none : t = .nil
    · exact Or.inl none
    · exact Or.inr (st none).proper
  · by_cases none : t = .nil
    · rw [none]
      exact Radix.short_nil _
    · exact (st none).short
  · by_cases none : t = .nil
    · subst none
      exact Or.inl rfl
    · refine Or.inr ⟨none, ?_, fun _ => rfl⟩
      rw [rootHash_proper none, if_pos ((st none).root_ne_empty inj empty reserved)]
  · rintro store' ⟨⟩
    exact sound

theorem Committed.sound (committed : Committed h heap' snap next s)
    (pending : ∀ r b, snap.lookupPending r = some b → r = H b ∧ b ∈ K)
    (sound : ∀ s, (h s).Sound H K) (store' : StoreRef) : (heap' store').Sound H K := by
  by_cases eq : store' = s
  · subst eq
    intro r b found
    rw [committed.nodes] at found
    rcases Option.or_eq_some_iff.mp found with here | ⟨-, old⟩
    · exact pending r b here
    · exact sound store' r b old
  · rw [committed.others store' eq]
    exact sound store'

theorem Snapshot.Holds.committed (holds : snap.Holds H K h t)
    (committed : Committed h heap' snap next s)
    (sound : ∀ s, (heap' s).Sound H K) : next.Holds H K heap' t := by
  obtain rfl := committed.next
  refine ⟨holds.canonical, holds.short, holds.stored, ?_, holds.hash, holds.read, ?_, ?_, rfl,
    holds.limits⟩
  · rcases holds.root with frozen | ⟨some, hashed, -⟩
    · exact Or.inl frozen
    · exact Or.inr ⟨some, hashed, fun _ => rfl⟩
  · intro r b found
    cases found
  · exact fun s _ => sound s

theorem Snapshot.Holds.elsewhere (holds : snap.Holds H K h t)
    (sound : ∀ s, (heap' s).Sound H K) : snap.Holds H K heap' t :=
  ⟨holds.canonical, holds.short, holds.stored, holds.root, holds.hash, holds.read, holds.pending,
    fun s _ => sound s, holds.plain, holds.limits⟩

theorem Session.sound_start : start.Sound H K := by
  refine ⟨fun e mem => ?_, fun s r b found => ?_, fun _ => rfl, fun _ some => ?_⟩
  · cases mem
  · cases found
  · exact absurd rfl some

theorem Session.Sound.hold (sound : session.Sound H K)
    (holds : e.snapshot.Holds H K session.heap e.version.trie) : (session.hold e).Sound H K := by
  exact ⟨forall_mem_append.mpr ⟨sound.held, forall_mem_singleton.mpr holds⟩,
    sound.stores, sound.roots, sound.stored⟩

/-- Everything that an action can make of a session. -/
inductive Session.Stepped (keccak : Bytes → Root) (secure : Bool)
    (session : Session) (action : Action) : Session → Prop where
  | same : Stepped keccak secure session action session
  | new {limits : Limits} {snapshot : Snapshot} (made : newTrie limits = .ok snapshot) :
      Stepped keccak secure session action (session.hold ⟨snapshot, .empty⟩)
  | call {on : Nat} {call : Call} {entry : Entry} {next : Snapshot}
      (called : action = .call on call) (here : session.held[on]? = some entry)
      (ran : call.run keccak session.heap secure entry.snapshot = .ok next) :
      Stepped keccak secure session action
        (session.hold ⟨next, entry.version.mutate keccak secure call.mutations⟩)
  | commit {ctx : Context} {store : StoreRef} {entry : Entry} {heap : Heap} {next : Snapshot}
      {work : Work} (here : entry ∈ session.held)
      (ran : entry.snapshot.commit session.heap ctx (some store) entry.snapshot.limits.work =
        .ok ((heap, next), work)) :
      Stepped keccak secure session action {
        heap
        published := Function.update session.published store
          (if (heap store).root = (session.heap store).root then session.published store
            else entry.version)
        held := session.held ++ [⟨next, entry.version⟩] }
  | load {store : StoreRef} {limits : Limits} {snapshot : Snapshot}
      (loaded : loadSnapshot (session.heap store).root (some store) limits = .ok snapshot) :
      Stepped keccak secure session action (session.hold ⟨snapshot, session.published store⟩)

variable (H sec) in
theorem Session.stepped (session : Session) (action : Action) :
    session.Stepped H sec action (session.step H sec action) := by
  cases action with
  | new lim =>
    rw [step]
    cases made : newTrie lim with
    | error e => exact .same
    | ok snap => exact .new made
  | call on call =>
    rw [step]
    cases here : session.held[on]? with
    | none => exact .same
    | some entry =>
      dsimp only
      cases ran : call.run H session.heap sec entry.snapshot with
      | error e => exact .same
      | ok next => exact .call rfl here ran
  | commit on ctx s =>
    rw [step]
    cases here : session.held[on]? with
    | none => exact .same
    | some entry =>
      dsimp only
      cases ran : entry.snapshot.commit session.heap ctx (some s)
          entry.snapshot.limits.work with
      | error e => exact .same
      | ok r => exact .commit (mem_of_getElem? here) ran
  | load s lim =>
    rw [step]
    cases loaded : loadSnapshot (session.heap s).root (some s) lim with
    | error e => exact .same
    | ok snap => exact .load loaded

/-- A property of what the stores publish after a commit: the old version where the root stays,
else the new one. -/
theorem forall_published {version : Version}
    {P : StoreRef → Version → Prop} {published : StoreRef → Version}
    {eq : Prop} [Decidable eq] (others : ∀ store' ≠ s, P store' (published store'))
    (old : eq → P s (published s)) (new : P s version) (store' : StoreRef) :
    P store' (Function.update published s (if eq then published s else version) store') := by
  refine (Function.forall_update_iff published P).mpr ⟨?_, others⟩ store'
  split
  · rename_i unchanged
    exact old unchanged
  · exact new

theorem Session.Stepped.held (stepped : session.Stepped H sec action session') :
    session.held <+: session'.held := by
  cases stepped with
  | same => exact prefix_rfl
  | new | call | commit | load => exact prefix_append _ _

/-- The tries of the session are among the encodings `K`. -/
def Session.Known (keccak : Bytes → Root) (K : Set Bytes) (session : Session) : Prop :=
  ∀ entry ∈ session.held, entry.version.trie.Every (fun s => treeBytes keccak s ∈ K)

theorem Session.Stepped.known (stepped : session.Stepped H sec action session')
    (known : session'.Known H K) : session.Known H K :=
  fun e mem => known e (stepped.held.subset mem)

section

variable (inj : InjOn H K) (empty : H [0x80] = emptyRoot) (reserved : [0x80] ∈ K)

include inj

theorem Session.Sound.called {call : Call} (sound : session.Sound H K) (here : e ∈ session.held)
    (known : (session.hold ⟨next, e.version.mutate H sec call.mutations⟩).Known H K)
    (ran : call.run H session.heap sec e.snapshot = .ok next) :
    changeAll H sec e.version.trie call.mutations =
        some (e.version.mutate H sec call.mutations).trie ∧
      Called H K session.heap e.snapshot next e.version.trie
        (e.version.mutate H sec call.mutations).trie
        (changeAllVisits H sec e.version.trie call.mutations) := by
  have kept := known ⟨next, _⟩ (mem_append_right _ (mem_singleton_self _))
  unfold Version.mutate at kept ⊢
  obtain ⟨trie', changed, called⟩ := (Call.run_spec inj (sound.held e here)).1 next ran
  rw [changed] at kept ⊢
  exact ⟨rfl, called kept⟩

include empty reserved

theorem Session.Sound.step (sound : session.Sound H K) (known : session'.Known H K)
    (stepped : session.Stepped H sec action session') : session'.Sound H K := by
  cases stepped with
  | same => exact sound
  | new made => exact sound.hold (newTrie_holds made).1
  | call called here ran =>
    exact sound.hold (sound.called inj (mem_of_getElem? here) known ran).2.holds
  | @commit ctx s e h next w here ran =>
    have holds := sound.held e here
    rcases (commit_ends ctx s _).ok ran with eq | committed
    · cases eq
      rw [if_pos rfl, Function.update_eq_self]
      exact sound.hold holds
    · dsimp only at committed
      have stores := committed.sound holds.pending sound.stores
      refine ⟨forall_mem_append.mpr ⟨fun other old => (sound.held other old).elsewhere stores,
          forall_mem_singleton.mpr (holds.committed committed stores)⟩, stores,
        forall_published (P := fun store' version => (h store').root = rootHash H version.trie)
          (fun store' other => ?_) (fun unchanged => unchanged.trans (sound.roots s))
          (committed.root.trans holds.hash),
        forall_published (P := fun _ version => version.trie ≠ .nil → Stored H K version.trie)
          (fun store' _ => sound.stored store') (fun _ => sound.stored s) holds.stored⟩
      rw [committed.others store' other]
      exact sound.roots store'
  | load loaded =>
    rw [sound.roots] at loaded
    exact sound.hold (loadSnapshot_holds inj empty reserved (sound.stores _) (sound.stored _)
      loaded).1

end

variable (H sec) in
theorem Session.run_append (actions : List Action) (action : Action) :
    run H sec (actions ++ [action]) = (run H sec actions).step H sec action := by
  rw [run, foldl_append]
  rfl

theorem Session.known_of_encodings
    (sub : ∀ b ∈ session.encodings H, b ∈ K) : session.Known H K := by
  intro e mem
  apply every_encodings
  intro b here
  exact sub b (mem_cons_of_mem _ (mem_flatMap.mpr ⟨e, mem, here⟩))

theorem Session.run_sound (inj : InjOn H K) (empty : H [0x80] = emptyRoot) (reserved : [0x80] ∈ K)
    (known : (run H sec actions).Known H K) : (run H sec actions).Sound H K := by
  induction actions using reverseRecOn with
  | nil => exact sound_start
  | append_singleton actions action ih =>
    rw [run_append] at known ⊢
    have stepped := stepped H sec (run H sec actions) action
    exact (ih (stepped.known known)).step inj empty reserved known stepped

/-! ### Contents -/

def Action.keys : Action → List Bytes
  | .call _ change => change.mutations.map Mutation.key
  | _ => []

/-- The tries of a session hold their contents, as far as the keys of `Q` go. -/
structure Session.Faithful (keccak : Bytes → Root) (secure : Bool)
    (Q : Set Bytes) (session : Session) : Prop where
  held : ∀ entry ∈ session.held, Matches keccak secure Q entry.version.trie entry.version.contents
  published : ∀ store,
    Matches keccak secure Q (session.published store).trie (session.published store).contents

theorem Session.Faithful.hold (faithful : session.Faithful H sec Q)
    (held : Matches H sec Q e.version.trie e.version.contents) :
    (session.hold e).Faithful H sec Q := by
  exact ⟨forall_mem_append.mpr ⟨faithful.held, forall_mem_singleton.mpr held⟩, faithful.published⟩

theorem Session.Faithful.step (inj : InjOn H K) (apart : InjOn (pathOf H sec) Q)
    (sound : session.Sound H K) (known : session'.Known H K)
    (faithful : session.Faithful H sec Q) (members : ∀ key ∈ action.keys, key ∈ Q)
    (stepped : session.Stepped H sec action session') : session'.Faithful H sec Q := by
  cases stepped with
  | same => exact faithful
  | new made => exact faithful.hold matches_nil
  | call called here ran =>
    subst called
    have mem := mem_of_getElem? here
    refine faithful.hold ((faithful.held _ mem).changeAll apart (fun m sub => ?_)
      (sound.called inj mem known ran).1)
    exact members _ (mem_map_of_mem sub)
  | @commit ctx s e h next w here ran =>
    exact ⟨forall_mem_append.mpr ⟨faithful.held,
        forall_mem_singleton.mpr (faithful.held e here)⟩,
      forall_published (P := fun _ version => Matches H sec Q version.trie version.contents)
        (fun store' _ => faithful.published store') (fun _ => faithful.published s)
        (faithful.held e here)⟩
  | load loaded => exact faithful.hold (faithful.published _)

theorem Session.run_faithful (inj : InjOn H K) (empty : H [0x80] = emptyRoot)
    (reserved : [0x80] ∈ K) (apart : InjOn (pathOf H sec) Q) (known : (run H sec actions).Known H K)
    (members : ∀ action ∈ actions, ∀ key ∈ action.keys, key ∈ Q) :
    (run H sec actions).Faithful H sec Q := by
  induction actions using reverseRecOn with
  | nil => exact ⟨fun e mem => (by cases mem), fun _ => matches_nil⟩
  | append_singleton actions action ih =>
    rw [run_append] at known ⊢
    have stepped := stepped H sec (run H sec actions) action
    have known' := stepped.known known
    exact (ih known' fun action mem => members action (by simp [mem])).step inj apart
      (run_sound inj empty reserved known') known (members action (by simp)) stepped

theorem Session.run_entry (inj : InjOn H K) (empty : H [0x80] = emptyRoot)
    (apart : sec = true → InjOn H Q) (sub : ∀ b ∈ (run H sec actions).encodings H, b ∈ K)
    (members : ∀ action ∈ actions, ∀ key ∈ action.keys, key ∈ Q)
    (here : e ∈ (run H sec actions).held) :
    e.snapshot.Holds H K (run H sec actions).heap e.version.trie ∧
      Matches H sec Q e.version.trie e.version.contents := by
  have reserved : [0x80] ∈ K := sub _ mem_cons_self
  have known := known_of_encodings sub
  exact ⟨(run_sound inj empty reserved known).held e here,
    (run_faithful inj empty reserved (pathOf_injOn apart) known members).held e
      here⟩

end

end Golib.MerklePatriciaTrie
