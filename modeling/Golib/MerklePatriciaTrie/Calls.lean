import Golib.MerklePatriciaTrie.Mutations

/-! The calls that change a snapshot, as changes of the trie it stands for. -/
namespace Golib.MerklePatriciaTrie

open Program List

/-- What the mutation stores; an empty value stores nothing. -/
def Mutation.content : Mutation → Option Content
  | put _ value => if nonempty : value ≠ [] then some ⟨value, nonempty⟩ else none
  | remove _ => none
  | unknown _ => none

inductive Call where
  | update (ctx : Context) (key value : Bytes)
  | delete (ctx : Context) (key : Bytes)
  | applyBatch (ctx : Context) (mutations : List Mutation)

/-- The call as a batch: an update with an empty value deletes. -/
def Call.mutations : Call → List Mutation
  | update _ key value => [if value.length = 0 then .remove key else .put key value]
  | delete _ key => [.remove key]
  | applyBatch _ mutations => mutations

variable {key : Bytes} {w : Work} {r : Node}

section

variable (keccak : Bytes → Root) {ctx : Context} {sec : Bool} {trie' : Tree}

def Call.run (heap : Heap) (secure : Bool) (snapshot : Snapshot) : Call → Except Err Snapshot
  | update ctx key value =>
    (Snapshot.update keccak heap ctx snapshot key value secure snapshot.limits.work).map Prod.fst
  | delete ctx key =>
    (Snapshot.delete keccak heap ctx snapshot key secure snapshot.limits.work).map Prod.fst
  | applyBatch ctx mutations =>
    (Snapshot.applyBatch keccak heap ctx snapshot mutations secure
      snapshot.limits.work).map Prod.fst

/-- The trie after the mutations, when each key they remove is there. -/
def changeAll (secure : Bool) : Tree → List Mutation → Option Tree
  | trie, [] => some trie
  | trie, mutation :: rest =>
    (change trie (pathOf keccak secure mutation.key) mutation.content).bind
      fun trie' => changeAll secure trie' rest

/-- The subtries that the mutations resolve when they are named by hash. -/
def changeAllVisits (secure : Bool) : Tree → List Mutation → List Bytes
  | _, [] => []
  | trie, mutation :: rest =>
    treeBytes keccak trie ::
      changeVisits keccak trie (pathOf keccak secure mutation.key) mutation.content ++
      match change trie (pathOf keccak secure mutation.key) mutation.content with
      | none => []
      | some trie' => changeAllVisits secure trie' rest

structure Called (K : Set Bytes) (heap : Heap) (previous next : Snapshot) (trie trie' : Tree)
    (visits : List Bytes) : Prop where
  holds : next.Holds keccak K heap trie'
  reader : next.reader = previous.reader
  base : next.base = previous.base
  limits : next.limits = previous.limits
  materialized : next.materialized = previous.materialized
  closed : previous.Closed keccak heap trie →
    (∀ b ∈ visits, (hashedBelow keccak trie).count b ≤ 1) → next.Closed keccak heap trie'

/-- How a call fails: it refuses its input or stops at a limit, it removes a key that is not
there, or it misses a node. -/
def Missing (heap : Heap) (snapshot : Snapshot) (trie : Tree) (e : Err) : Prop :=
  e.Lost ∧ ∃ b ∈ kept keccak snapshot.root trie, snapshot.find heap (keccak b) = none

variable {H : Bytes → Root} {K : Set Bytes} {h : Heap} {snap : Snapshot} {t : Tree}
  {ms : List Mutation} {lim : Limits} {v : Bytes} {nl : Nat} {readRoot : Node}

theorem Env.Stops.called {e : Err} {room P Q : Prop}
    (failed : (snap.env h ctx).Stops H (kept H snap.root t) room e ∨ P)
    (stops : e.Interrupts → ¬ room → Q) : Q ∨ Missing H h snap t e ∨ P := by
  rcases failed with (⟨stop, lacking⟩ | lost) | other
  · exact Or.inl (stops stop lacking)
  · exact Or.inr (Or.inl lost)
  · exact Or.inr (Or.inr other)

theorem changeAll_canonical {trie : Tree} (canon : trie.Canonical)
    (changed : changeAll H sec trie ms = some trie') : trie'.Canonical := by
  induction ms generalizing trie with
  | nil =>
    cases changed
    exact canon
  | cons m rest ih =>
    obtain ⟨t, first, later⟩ := Option.bind_eq_some_iff.mp changed
    exact ih (change_canonical canon first) later

structure Mutation.Valid (limits : Limits) (mutation : Mutation) : Prop where
  value : mutation.content.map Subtype.val = mutation.value
  key : mutation.key.length ≤ limits.maxKeyBytes

/-- What the mutations of a batch leave behind before the snapshot is finished. -/
structure Applied (keccak : Bytes → Root) (K : Set Bytes) (materialized secure : Bool) (root : Node)
    (trie : Tree) (mutations : List Mutation) (work : Work) (r : Node × Node) (work' : Work)
    (trie' : Tree) : Prop where
  changed : changeAll keccak secure trie mutations = some trie'
  short : trie'.Short maxCompactPathNibbles
  rep : RepAt keccak K 0 r.1 trie'
  inner : ¬ r.1.IsHash ∨ (mutations = [] ∧ r.1 = root)
  read : materialized = true → r.2 = expand trie'
  spends : Spends keccak (changeAllVisits keccak secure trie mutations) (kept keccak root trie)
    (kept keccak r.1 trie') work work'

/-- What is enough for the mutations of a batch, at paths of at most `n` digits, in a trie that
names the given encodings. -/
structure ChangesRoom (keccak : Bytes → Root) (env : Env) (secure : Bool) (named : Multiset Bytes)
    (mutations : List Mutation) (n nodesLeft : Nat) (work : Work) : Prop where
  paths : ∀ mutation ∈ mutations, (pathOf keccak secure mutation.key).length ≤ n
  live : env.ctx.Live
  shallow : n ≤ env.maxDepth
  nodes : mutations.length * (n + toll named 1 n + 1) + (n + 1) ≤ nodesLeft
  hashes : mutations.length * (toll named 1 n + secure.toNat) ≤ work.hashesLeft
  reads : mutations.length * toll named 1 n ≤ work.readsLeft

theorem ChangesRoom.polled {env : Env} {named : Multiset Bytes} {n : Nat}
    {w : Work} (room : ChangesRoom H env sec named ms n nl w) (polls : Nat) :
    ChangesRoom H env sec named ms n nl { w with polls } :=
  ⟨room.paths, room.live, room.shallow, room.nodes, room.hashes, room.reads⟩

section

variable {env : Env} {n nl : Nat} {m : Mutation} {rest : List Mutation} {named : Multiset Bytes}
  {w w' : Work} {p : Path} (room : ChangesRoom H env sec named (m :: rest) n nl w)
  (path : PathFound H sec m.key w p w')

include room path

theorem ChangesRoom.first (node : Node) :
    env.ChangeRoom (toll named node.link p.length) p.length nl w' := by
  obtain ⟨paths, live, shallow, nodes, hashes, reads⟩ := room
  obtain ⟨rfl, -, read, hashed⟩ := path
  have short := paths m (mem_cons_self ..)
  have cost : toll named node.link (pathOf H sec m.key).length ≤ toll named 1 n :=
    toll_mono le_rfl node.link_le short
  rw [length_cons, Nat.succ_mul] at nodes hashes reads
  refine ⟨⟨live, ?_, ?_, ?_, ?_⟩, ?_⟩ <;> omega

theorem ChangesRoom.later {named' : Multiset Bytes} {left : Nat} {w'' : Work}
    (le : named' ≤ named) (node : Node)
    (paid : Paid (toll named node.link p.length) p.length nl left w' w'') :
    ChangesRoom H env sec named' rest n left w'' := by
  obtain ⟨paths, live, shallow, nodes, hashes, reads⟩ := room
  obtain ⟨rfl, -, read, hashed⟩ := path
  have short := paths m (mem_cons_self ..)
  have cost : toll named node.link (pathOf H sec m.key).length ≤ toll named 1 n :=
    toll_mono le_rfl node.link_le short
  have less : rest.length * toll named' 1 n ≤ rest.length * toll named 1 n :=
    Nat.mul_le_mul_left _ (toll_mono le le_rfl le_rfl)
  obtain ⟨left, used, usedReads⟩ := paid
  simp only [length_cons, Nat.succ_mul, Nat.mul_add] at nodes hashes reads
  refine ⟨(forall_mem_cons.mp paths).2, live, shallow, ?_, ?_, ?_⟩
  · rw [Nat.mul_add, Nat.mul_add]
    omega
  · rw [Nat.mul_add]
    omega
  · omega

end

theorem applyMutations_ends {root : Node}
    {base : Tree} (inj : Set.InjOn H K) (holds : snap.Holds H K h base)
    (valid : ∀ m ∈ ms, m.Valid snap.limits) (rep : RepAt H K 0 root t)
    (read : snap.materialized = true → readRoot = expand t) (canon : t.Canonical)
    (short : t.Short maxCompactPathNibbles) (w : Work) :
    Ends (applyMutations H h ctx snap sec ms root readRoot nl) w
      (fun r work' => (∃ trie', Applied H K snap.materialized sec root t ms w r work' trie') ∧
        ∀ n, ChangesRoom H (snap.env h ctx) sec (kept H root t) ms n nl w →
          w.hashesLeft ≤ work'.hashesLeft +
            ms.length * (toll (kept H root t) 1 n + sec.toNat))
      (fun e => (snap.env h ctx).Stops H (kept H root t)
          (∃ n, ChangesRoom H (snap.env h ctx) sec (kept H root t) ms n nl w) e ∨
        (e = .absentKey ∧ changeAll H sec t ms = none)) := by
  induction ms generalizing root readRoot t nl w with
  | nil =>
    exact ends_pure ⟨⟨t, rfl, short, rep, Or.inr ⟨rfl, rfl⟩, read, spends_none rfl⟩,
      fun _ _ => Nat.le_add_right _ _⟩
  | cons m rest ih =>
    have checked := valid m (by simp)
    refine ((keyPath_ends m.key sec w).weaken ?_).bind ?_
    · rintro e ⟨stop, spent⟩
      refine Or.inl (Or.inl ⟨stop, fun ⟨n, room⟩ => ?_⟩)
      have hashes := room.hashes
      simp only [length_cons, Nat.succ_mul, Nat.mul_add] at hashes
      omega
    rintro p work₁ path
    obtain ⟨rfl, same₁, -, hs⟩ := id path
    have fits : (pathOf H sec m.key).length ≤ maxCompactPathNibbles :=
      length_pathOf holds.limits checked.key
    rw [← checked.value]
    refine ((mutate_ends inj holds rep read canon short (fun _ => fits) work₁).weaken ?_).bind ?_
    · refine fun e failed => failed.imp
        (fun stops => stops.mono le_rfl fun ⟨n, room⟩ => room.first path root) ?_
      rintro ⟨rfl, absent⟩
      refine ⟨rfl, ?_⟩
      rw [changeAll, absent]
      rfl
    rintro ⟨root', readRoot', left'⟩ work₂ ⟨⟨trie', changes⟩, paid⟩
    have changed := changes.changed
    have short' := change_short short (fun _ => fits) changed
    refine (ih (forall_mem_cons.mp valid).2 (Or.inl changes.rep)
      changes.read (change_canonical canon changed) short' work₂).mono ?_ ?_
    · rintro r work₃ ⟨⟨trie'', applied⟩, spent⟩
      refine ⟨⟨trie'', ?_, applied.short, applied.rep, ?_, applied.read, ?_⟩, fun n room => ?_⟩
      · rw [changeAll, changed]
        exact applied.changed
      · left
        rcases applied.inner with inner | ⟨-, eq⟩
        · exact inner
        · rw [eq]
          exact changes.inner
      · have start : Spends H (changeAllVisits H sec t (m :: rest))
            (kept H root t) (kept H root t) w work₁ := spends_none same₁
        refine start.trans ((changes.spends.mono ?_).trans (applied.spends.mono ?_))
        · intro b mem
          exact mem_append_left _ mem
        · intro b mem
          rw [changeAllVisits, changed]
          exact mem_append_right _ mem
      · have others := spent n (room.later path changes.spends.le root paid)
        have used := paid.uses.1
        have cost : toll (kept H root t) root.link (pathOf H sec m.key).length ≤
            toll (kept H root t) 1 n :=
          toll_mono le_rfl root.link_le (room.paths m (mem_cons_self ..))
        have less : rest.length * toll (kept H root' trie') 1 n ≤
            rest.length * toll (kept H root t) 1 n :=
          Nat.mul_le_mul_left _ (toll_mono changes.spends.le le_rfl le_rfl)
        simp only [length_cons, Nat.succ_mul, Nat.mul_add] at others ⊢
        omega
    · refine fun e failed => failed.imp (fun stops => stops.mono changes.spends.le
        fun ⟨n, room⟩ => ⟨n, room.later path changes.spends.le root paid⟩) ?_
      rintro ⟨rfl, absent⟩
      refine ⟨rfl, ?_⟩
      rw [changeAll, changed]
      exact absent

theorem finish_called {visits : List Bytes} {start : Work}
    (inj : Set.InjOn H K) (holds : snap.Holds H K h t) (rep : Rep H K r trie')
    (inner : ¬ r.IsHash) (canon : trie'.Canonical) (short : trie'.Short maxCompactPathNibbles)
    (read : snap.materialized = true → readRoot = expand trie') (fresh : start.resolved = [])
    (spends : Spends H visits (kept H snap.root t) (kept H r trie') start w) :
    Ends (finishMutatedSnapshot H ctx r readRoot snap) w
      (fun next _ => next.hash = rootHash H trie' ∧
        (trie'.Every (fun s => treeBytes H s ∈ K) →
          Called H K h snap next t trie' visits))
      (fun e => e.Interrupts ∧ ¬ RootRoom H ctx snap.limits r trie' w) := by
  refine (finishMutatedSnapshot_ends holds rep inner canon short read w).mono ?_
    (fun _ stop => stop)
  refine fun next work' ends => ⟨ends.1, fun known => ?_⟩
  obtain ⟨holds', finished⟩ := ends.2 known
  exact ⟨holds', finished.reader, finished.base, finished.limits, finished.materialized,
    fun closed once => finished.closed inj holds closed fresh spends once⟩

/-- A call of these mutations succeeds with what they make of the trie, or fails. -/
def CallEnds (keccak : Bytes → Root) (K : Set Bytes) (heap : Heap) (snapshot : Snapshot)
    (trie : Tree)
    (secure : Bool) (mutations : List Mutation) (m : Task Snapshot) (work : Work) : Prop :=
  Ends m work
    (fun next _ => ∃ trie', changeAll keccak secure trie mutations = some trie' ∧
      (trie'.Every (fun s => treeBytes keccak s ∈ K) →
        Called keccak K heap snapshot next trie trie'
          (changeAllVisits keccak secure trie mutations)))
    (fun e => e.Refuses ∨ Missing keccak heap snapshot trie e ∨
      (e = .absentKey ∧ changeAll keccak secure trie mutations = none))

theorem changeAll_single (sec : Bool) (m : Mutation) :
    changeAll H sec t [m] = change t (pathOf H sec m.key) m.content := by
  rw [changeAll]
  cases change t (pathOf H sec m.key) m.content <;> rfl

theorem mutateSnapshot_ends {m : Mutation} (inj : Set.InjOn H K) (holds : snap.Holds H K h t)
    (checked : m.Valid snap.limits) (fresh : w.resolved = []) (left : w.hashesLeft ≠ 0) :
    CallEnds H K h snap t sec [m] (mutateSnapshot H h ctx snap m.key m.value sec) w := by
  unfold CallEnds mutateSnapshot
  refine (orZero_keyPath_ends m.key sec left).bind ?_
  rintro p work₁ ⟨rfl, same₁, -, -⟩
  have fits : (pathOf H sec m.key).length ≤ maxCompactPathNibbles :=
    length_pathOf holds.limits checked.key
  have read : snap.materialized = true →
      (if snap.materialized = true then snap.readRoot else .nil) = expand t := by
    intro materialized
    rw [if_pos materialized]
    exact holds.read materialized
  rw [changeAll_single]
  rw [← checked.value]
  refine ((mutate_ends inj holds holds.rep read holds.canonical holds.short (fun _ => fits)
    work₁).weaken ?_).bind ?_
  · exact fun e failed => Env.Stops.called failed fun stop _ => stop.refuses
  rintro ⟨r, readRoot, left'⟩ work₂ ⟨⟨trie', changes⟩, -⟩
  have changed := changes.changed
  have spends : Spends H (changeAllVisits H sec t [m])
      (kept H snap.root t) (kept H r trie') work₁ work₂ := by
    refine changes.spends.mono fun b mem => ?_
    exact mem_append_left _ mem
  refine (finish_called inj holds changes.rep changes.inner
    (change_canonical holds.canonical changed) (change_short holds.short (fun _ => fits) changed)
    changes.read (same₁.trans fresh) spends).mono ?_ ?_
  · exact fun next work₃ called => ⟨trie', changed, called.2⟩
  · exact fun e stop => Or.inl stop.1.refuses

theorem put_valid (some : v.length ≠ 0) (fits : key.length ≤ lim.maxKeyBytes) :
    (Mutation.put key v).Valid lim := by
  refine ⟨?_, fits⟩
  have nonempty : v ≠ [] := fun none => some (by rw [none]; rfl)
  simp only [Mutation.content, dif_pos nonempty]
  rfl

theorem remove_valid (fits : key.length ≤ lim.maxKeyBytes) :
    (Mutation.remove key).Valid lim := ⟨rfl, fits⟩

/-- A mutation as `Put` with a value, or `Remove`, makes it. -/
def Mutation.Formed : Mutation → Prop
  | put _ value => value ≠ []
  | remove _ => True
  | unknown _ => False

def Mutation.Within (limits : Limits) (mutation : Mutation) : Prop :=
  mutation.key.length ≤ limits.maxKeyBytes ∧
    ∀ value ∈ mutation.value, value.length ≤ limits.maxValueBytes

/-- Mutations of different keys, none of them seen before. -/
structure BatchFormed (seen : List Bytes) (mutations : List Mutation) : Prop where
  formed : ∀ mutation ∈ mutations, mutation.Formed
  distinct : (mutations.map Mutation.key).Nodup
  fresh : ∀ mutation ∈ mutations, mutation.key ∉ seen

structure BatchValid (ctx : Context) (limits : Limits) (seen : List Bytes)
    (mutations : List Mutation) : Prop extends BatchFormed seen mutations where
  live : ctx.Live
  within : ∀ mutation ∈ mutations, mutation.Within limits

theorem BatchFormed.later {seen : List Bytes} {mutation : Mutation} {rest : List Mutation}
    (batch : BatchFormed seen (mutation :: rest)) : BatchFormed (mutation.key :: seen) rest := by
  have distinct := batch.distinct
  rw [map_cons, nodup_cons] at distinct
  refine ⟨(forall_mem_cons.mp batch.formed).2, distinct.2, fun m mem again => ?_⟩
  rcases mem_cons.mp again with eq | before
  · exact distinct.1 (eq ▸ mem_map_of_mem mem)
  · exact batch.fresh m (mem_cons_of_mem _ mem) before

theorem validateMutation_ends (m : Mutation) (w : Work) :
    Ends (validateMutation ctx snap m) w
      (fun _ work' => (∃ polls, work' = { w with polls }) ∧ m.Valid snap.limits)
      (fun e => e.Refuses ∧ (m.Formed → e.Exceeds ∧ ¬ (ctx.Live ∧ m.Within snap.limits))) := by
  cases m with
  | put key v =>
    refine ends_guard (fun none => ?_) fun some => ?_
    · exact ⟨trivial, fun formed => absurd (eq_nil_of_length_eq_zero none) formed⟩
    refine (validateOperation_ends ctx key v true w).mono ?_ fun e refused =>
      ⟨refused.1.refuses, fun _ => ⟨refused.1, fun room => refused.2 ?_⟩⟩
    · rintro _ work' ⟨eq, fits, -⟩
      exact ⟨eq, put_valid some fits⟩
    · exact ⟨room.1, room.2.1, fun _ => room.2.2 v rfl⟩
  | remove key =>
    refine (validateOperation_ends ctx key [] false w).mono ?_ fun e refused =>
      ⟨refused.1.refuses, fun _ => ⟨refused.1, fun room => refused.2 ?_⟩⟩
    · rintro _ work' ⟨eq, fits, -⟩
      exact ⟨eq, remove_valid fits⟩
    · exact ⟨room.1, room.2.1, by simp⟩
  | unknown key => exact ends_fail ⟨trivial, fun formed => absurd formed id⟩

theorem validateMutations_ends (seen : List Bytes) (ms : List Mutation) (w : Work) :
    Ends (validateMutations ctx snap seen ms) w
      (fun _ work' => (∃ polls, work' = { w with polls }) ∧ ∀ m ∈ ms, m.Valid snap.limits)
      (fun e => e.Refuses ∧ (BatchFormed seen ms →
        e.Exceeds ∧ ¬ BatchValid ctx snap.limits seen ms)) := by
  induction ms generalizing seen w with
  | nil => exact ends_pure ⟨⟨w.polls, rfl⟩, by simp⟩
  | cons m rest ih =>
    refine ((validateMutation_ends m w).weaken ?_).bind ?_
    · refine fun e refused => ⟨refused.1, fun batch => ?_⟩
      have here := mem_cons_self (a := m) (l := rest)
      obtain ⟨exceeds, lacking⟩ := refused.2 (batch.formed m here)
      exact ⟨exceeds, fun valid => lacking ⟨valid.live, valid.within m here⟩⟩
    rintro _ work₁ ⟨⟨polls, rfl⟩, valid⟩
    refine ends_guard (fun again => ⟨trivial, fun batch => ?_⟩) fun _ => ?_
    · exact absurd again (batch.fresh m (mem_cons_self ..))
    refine (ih (m.key :: seen) _).mono ?_ fun e refused => ⟨refused.1, fun batch => ?_⟩
    · rintro _ work₂ ⟨⟨polls', rfl⟩, others⟩
      exact ⟨⟨polls', rfl⟩, forall_mem_cons.mpr ⟨valid, others⟩⟩
    · obtain ⟨exceeds, lacking⟩ := refused.2 batch.later
      exact ⟨exceeds, fun valid => lacking
        ⟨batch.later, valid.live, (forall_mem_cons.mp valid.within).2⟩⟩

/-- What is enough for a batch at paths of at most `n` digits. -/
structure ApplyRoom (keccak : Bytes → Root) (heap : Heap) (ctx : Context) (snapshot : Snapshot)
    (secure : Bool) (trie : Tree) (mutations : List Mutation) (n : Nat) (work : Work) : Prop where
  count : mutations.length ≤ snapshot.limits.maxBatchOperations
  within : ∀ mutation ∈ mutations, mutation.Within snapshot.limits
  changes : ChangesRoom keccak (snapshot.env heap ctx) secure (kept keccak snapshot.root trie)
    mutations n snapshot.limits.maxTraversalNodes work
  fits : ∀ trie', changeAll keccak secure trie mutations = some trie' →
    trie'.Short maxCompactPathNibbles →
    trie'.Every fun s => (treeValue keccak s).Fits Rlp.defaultLimits
  encoding : trie.nodes + 3 * mutations.length ≤ snapshot.limits.maxEncodingNodes
  hashes : mutations.length * (toll (kept keccak snapshot.root trie) 1 n + secure.toNat) +
    (trie.nodes + 3 * mutations.length) ≤ work.hashesLeft

theorem changeAll_nodes {trie : Tree} (changed : changeAll H sec trie ms = some trie') :
    trie'.nodes ≤ trie.nodes + 3 * ms.length := by
  induction ms generalizing trie with
  | nil =>
    cases changed
    exact Nat.le_refl _
  | cons m rest ih =>
    obtain ⟨t, first, later⟩ := Option.bind_eq_some_iff.mp changed
    have one : t.nodes ≤ trie.nodes + 3 := by
      cases st : m.content with
      | some content =>
        rw [st] at first
        cases first
        exact Radix.nodes_insert trie _ content
      | none =>
        rw [st] at first
        exact le_trans (Radix.nodes_delete first) (Nat.le_add_right _ _)
    have more := ih later
    rw [length_cons]
    omega

section

variable (inj : Set.InjOn H K) (holds : snap.Holds H K h t)
  (fresh : w.resolved = [])

include inj holds fresh

theorem delete_ends (left : w.hashesLeft ≠ 0) :
    CallEnds H K h snap t sec [.remove key] (Snapshot.delete H h ctx snap key sec) w := by
  refine ((validateOperation_ends ctx key [] false w).weaken
    (fun _ refused => Or.inl refused.1.refuses)).bind ?_
  rintro _ work' ⟨⟨polls, rfl⟩, fits, -⟩
  exact mutateSnapshot_ends inj holds (remove_valid fits) fresh left

theorem update_ends (left : w.hashesLeft ≠ 0) :
    CallEnds H K h snap t sec
      [if v.length = 0 then .remove key else .put key v]
      (Snapshot.update H h ctx snap key v sec) w := by
  refine ((validateOperation_ends ctx key v true w).weaken
    (fun _ refused => Or.inl refused.1.refuses)).bind ?_
  rintro _ work' ⟨⟨polls, rfl⟩, fits, -⟩
  by_cases empty : v.length = 0
  · rw [if_pos empty, if_pos empty]
    exact delete_ends inj holds fresh left
  · rw [if_neg empty, if_neg empty]
    exact mutateSnapshot_ends inj holds (put_valid empty fits) fresh left

theorem applyBatch_hashes :
    Ends (Snapshot.applyBatch H h ctx snap ms sec) w
      (fun next _ => ∃ trie', changeAll H sec t ms = some trie' ∧
        next.hash = rootHash H trie' ∧ (trie'.Every (fun s => treeBytes H s ∈ K) →
          Called H K h snap next t trie' (changeAllVisits H sec t ms)))
      (fun e => (e.Refuses ∧ (BatchFormed [] ms →
          e.Exceeds ∧ ¬ ∃ n, ApplyRoom H h ctx snap sec t ms n w)) ∨
        Missing H h snap t e ∨
        (e = .absentKey ∧ changeAll H sec t ms = none)) := by
  have stops : ∀ {e : Err}, e.Interrupts → (¬ ∃ n, ApplyRoom H h ctx snap sec t ms n w) →
      (e.Refuses ∧ (BatchFormed [] ms →
        e.Exceeds ∧ ¬ ∃ n, ApplyRoom H h ctx snap sec t ms n w)) :=
    fun stop lacking => ⟨stop.refuses, fun _ => ⟨stop.exceeds, lacking⟩⟩
  refine ((checkContext_live ctx w).weaken fun _ stop =>
    Or.inl (stops stop.1 fun ⟨_, room⟩ => stop.2 room.changes.live)).bind ?_
  rintro _ work₁ ⟨polls, rfl⟩
  refine ends_guard (fun many => Or.inl (stops trivial ?_)) fun _ => ?_
  · exact fun ⟨_, room⟩ => absurd room.count (by omega)
  by_cases none : ms.length = 0
  · obtain rfl := eq_nil_of_length_eq_zero none
    exact ends_pure ⟨t, rfl, holds.hash, fun _ =>
      ⟨holds, rfl, rfl, rfl, rfl, fun closed _ => closed⟩⟩
  · rw [if_neg none]
    refine ((validateMutations_ends [] ms _).weaken fun _ refused =>
      Or.inl ⟨refused.1, fun batch => ⟨(refused.2 batch).1, fun ⟨_, room⟩ =>
        (refused.2 batch).2 ⟨batch, room.changes.live, room.within⟩⟩⟩).bind ?_
    rintro _ work₂ ⟨⟨polls', rfl⟩, valid⟩
    refine ((applyMutations_ends inj holds valid holds.rep holds.read holds.canonical
      holds.short _).weaken fun e failed => Env.Stops.called failed fun stop lacking =>
        stops stop fun ⟨n, room⟩ => lacking ⟨n, room.changes.polled polls'⟩).bind ?_
    rintro ⟨r, readRoot⟩ work₃ ⟨⟨trie', applied⟩, spent⟩
    have inner : ¬ r.IsHash := applied.inner.resolve_right fun empty => none (by rw [empty.1]; rfl)
    have canon := changeAll_canonical holds.canonical applied.changed
    refine (finish_called inj holds (applied.rep.inner inner) inner canon applied.short
      applied.read fresh applied.spends).mono ?_ fun e stop => Or.inl (stops stop.1 ?_)
    · exact fun next work₃ called => ⟨trie', applied.changed, called⟩
    rintro ⟨n, room⟩
    have used := spent n (room.changes.polled polls')
    have hashes := room.hashes
    exact stop.2 ((applied.rep.inner inner).root_room inner canon room.changes.live
      (room.fits trie' applied.changed applied.short) (changeAll_nodes applied.changed) (by omega)
      room.encoding (by dsimp only at used; omega))

theorem applyBatch_ends :
    CallEnds H K h snap t sec ms (Snapshot.applyBatch H h ctx snap ms sec) w := by
  refine (applyBatch_hashes inj holds fresh).mono ?_ fun e failed => failed.imp And.left id
  exact fun next work' ⟨trie', changed, _, called⟩ => ⟨trie', changed, called⟩

end

theorem hashesLeft_ne_zero (valid : validateTrieLimits lim = .ok ()) : lim.work.hashesLeft ≠ 0 := by
  unfold validateTrieLimits at valid
  split at valid
  · cases valid
  · intro none
    have zero : lim.maxHashOperations = 0 := none
    omega

theorem Call.run_spec (inj : Set.InjOn H K) (holds : snap.Holds H K h t) {call : Call} :
    (∀ next, call.run H h sec snap = .ok next →
      ∃ trie', changeAll H sec t call.mutations = some trie' ∧
        (trie'.Every (fun s => treeBytes H s ∈ K) →
          Called H K h snap next t trie' (changeAllVisits H sec t call.mutations))) ∧
    (∀ e, call.run H h sec snap = .error e →
      e.Refuses ∨ Missing H h snap t e ∨
        (e = .absentKey ∧ changeAll H sec t call.mutations = none)) := by
  have left := hashesLeft_ne_zero holds.limits
  cases call with
  | update ctx key v => exact (update_ends inj holds rfl left).run
  | delete ctx key => exact (delete_ends inj holds rfl left).run
  | applyBatch ctx ms => exact (applyBatch_ends inj holds rfl).run

/-! ### Lookup -/

/-- What is enough to look up a path of `n` digits: in memory, or where hashes have to be
resolved. -/
structure GetRoom (ctx : Context) (snapshot : Snapshot) (key : Bytes) (n : Nat) : Prop where
  live : ctx.Live
  fits : key.length ≤ snapshot.limits.maxKeyBytes
  shallow : n ≤ snapshot.limits.maxTraversalDepth
  enough : n < snapshot.limits.maxTraversalNodes
  resolves : snapshot.materialized = true ∨ (3 * n + 2 < snapshot.limits.maxTraversalNodes ∧
    2 * n + 2 < snapshot.limits.maxHashOperations ∧ 2 * n + 2 ≤ snapshot.limits.maxNodeReads)

theorem get_ends (inj : Set.InjOn H K) (holds : snap.Holds H K h t) :
    Ends (Snapshot.get H h ctx snap key sec) snap.limits.work
      (fun v _ => ∃ content, t.lookup (pathOf H sec key) = some content ∧ content.val = v)
      (fun e => (e.Refuses ∧ ¬ GetRoom ctx snap key (pathOf H sec key).length) ∨
        (snap.materialized ≠ true ∧ Missing H h snap t e) ∨
        (e = .absentKey ∧ t.lookup (pathOf H sec key) = none)) := by
  refine ((validateOperation_ends ctx key [] false _).weaken fun _ refused =>
    Or.inl ⟨refused.1.refuses, fun room => refused.2 ⟨room.live, room.fits, by simp⟩⟩).bind ?_
  rintro _ _ ⟨⟨polls, rfl⟩, fits, -⟩
  refine Ends.bind (orZero_keyPath_ends key sec (hashesLeft_ne_zero holds.limits)) ?_
  rintro p work₂ ⟨rfl, -, read, hashed⟩
  have finish : ∀ {rest : Option Bytes → Task Bytes}, rest none = Program.fail .absentKey →
      (∀ v, rest (some v) = pure v) → ∀ (found : Option Bytes) (work₃ : Work),
      found = (t.lookup (pathOf H sec key)).map Subtype.val →
      Ends (rest found) work₃
        (fun v _ => ∃ content, t.lookup (pathOf H sec key) = some content ∧ content.val = v)
        (fun e => (e.Refuses ∧ ¬ GetRoom ctx snap key (pathOf H sec key).length) ∨
          (snap.materialized ≠ true ∧ Missing H h snap t e) ∨
          (e = .absentKey ∧ t.lookup (pathOf H sec key) = none)) := by
    rintro rest absent present _ work₃ rfl
    cases t.lookup (pathOf H sec key) with
    | none =>
      rw [Option.map_none, absent]
      exact ends_fail (Or.inr (Or.inr ⟨rfl, rfl⟩))
    | some content =>
      rw [Option.map_some, present]
      exact ends_pure ⟨content, rfl, rfl⟩
  by_cases whole : snap.materialized = true
  · rw [if_pos whole, holds.read whole]
    refine ((getNode_ends (readEnv_sound ctx true) inj (Or.inl (rep_expand t))
      holds.canonical work₂).weaken ?_).bind (finish rfl fun _ => rfl)
    intro e stops
    rw [kept_expand, toll_zero] at stops
    refine Or.inl ⟨stops.whole.1.refuses, fun room => stops.whole.2 ⟨room.live, ?_, room.enough,
      Nat.zero_le _, Nat.zero_le _⟩⟩
    rw [Nat.zero_add]
    exact room.shallow
  · rw [if_neg whole]
    refine ((getNode_ends (holds.env_sound ctx) inj holds.rep holds.canonical work₂).weaken
      ?_).bind (finish rfl fun _ => rfl)
    rintro e (⟨stop, lacking⟩ | missing)
    · refine Or.inl ⟨stop.refuses, fun room => lacking ?_⟩
      obtain ⟨nodes, hashes, reads⟩ := room.resolves.resolve_left whole
      have cost : toll (kept H snap.root t) snap.root.link (pathOf H sec key).length ≤
          2 * (pathOf H sec key).length + 1 + snap.root.link := toll_le
      have first := snap.root.link_le
      have once := sec.toNat_le
      have start : snap.limits.maxHashOperations = work₂.hashesLeft + sec.toNat := hashed
      have reads' : work₂.readsLeft = snap.limits.maxNodeReads := read
      have shallow : 0 + (pathOf H sec key).length ≤ (snap.env h ctx).maxDepth := by
        rw [Nat.zero_add]
        exact room.shallow
      exact ⟨room.live, shallow, by omega, by omega, by omega⟩
    · exact Or.inr (Or.inl ⟨whole, missing⟩)

end

end Golib.MerklePatriciaTrie
