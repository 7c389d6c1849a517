import Golib.MerklePatriciaTrie.Batches
import Golib.MerklePatriciaTrie.Closure

/-! A materialized snapshot keeps its trie twice, expanded and hashed; both trees stand for the
same map. And a batch comes to the same root as its mutations made in any other way. -/
namespace Golib.MerklePatriciaTrie

open Program Session List

/-- The snapshot as it is read through its hashed tree. -/
def Snapshot.lazily (snapshot : Snapshot) : Snapshot := { snapshot with materialized := false }

section

variable (keccak : Bytes → Root)

/-- Lookups in the snapshot return the map: its value, or that the key is absent; otherwise they
refuse the key, or stop at a limit or with the context. -/
structure Snapshot.Answers (heap : Heap) (secure : Bool) (snapshot : Snapshot)
    (map : Bytes → Option Content) : Prop where
  returned : ∀ ctx key value, (Snapshot.get keccak heap ctx snapshot key secure
    snapshot.limits.work).map Prod.fst = .ok value →
      ∃ content, map key = some content ∧ content.val = value
  refused : ∀ ctx key e, (Snapshot.get keccak heap ctx snapshot key secure
    snapshot.limits.work).map Prod.fst = .error e →
      (e = .absentKey ∧ map key = none) ∨
        (e.Refuses ∧ ¬ GetRoom ctx snapshot key (pathOf keccak secure key).length)

/-- The expanded tree encodes to the root, no change of the snapshot reports that its trees
diverged, and reads through the expanded tree and, where `alone` holds, through the hashed one
return one map. -/
structure Snapshot.Agrees (heap : Heap) (secure : Bool) (alone : Prop) (snapshot : Snapshot) :
    Prop where
  encodes : snapshot.readRoot.visits ≤ Rlp.maximumInt → ∃ encoded persisted,
    encodeNode keccak snapshot.readRoot = .ok (encoded, persisted) ∧ keccak encoded = snapshot.hash
  undiverged : ∀ (call : Call) e, call.run keccak heap secure snapshot = .error e →
    e ≠ .malformedNode .diverged
  same : ∃ map, snapshot.Answers keccak heap secure map ∧
    (alone → snapshot.lazily.Answers keccak heap secure map)

variable {H : Bytes → Root} {K : Set Bytes} {snap : Snapshot} {t : Tree} {sec : Bool} {h : Heap}

theorem Snapshot.Holds.lazily (holds : snap.Holds H K h t) : snap.lazily.Holds H K h t :=
  ⟨holds.canonical, holds.short, holds.stored, holds.root, holds.hash, fun whole =>
    (by cases whole),
    holds.pending, holds.backing, holds.plain, holds.limits⟩

theorem Snapshot.Holds.not_missing (inj : Set.InjOn H K) (holds : snap.Holds H K h t)
    (found : ∀ r, Reachable (snap.find h) snap.root r → (snap.find h r).isSome)
    (e : Err) : ¬ Missing H h snap t e := by
  rintro ⟨-, b, named, absent⟩
  have present := holds.find_kept inj found named
  rw [absent] at present
  cases present

theorem Snapshot.Holds.answers (inj : Set.InjOn H K) (holds : snap.Holds H K h t)
    (complete : snap.materialized = true ∨ ∀ e, ¬ Missing H h snap t e) :
    snap.Answers H h sec fun key => t.lookup (pathOf H sec key) := by
  refine ⟨fun ctx key v => (get_ends inj holds).run.1 v, fun ctx key e failed => ?_⟩
  rcases (get_ends inj holds).run.2 e failed with refused | ⟨lazy, missing⟩ | absent
  · exact Or.inr refused
  · exact absurd missing (complete.resolve_left lazy e)
  · exact Or.inl absent

theorem encodeNode_expand (empty : H [0x80] = emptyRoot) (canon : t.Canonical)
    (short : t.Short maxCompactPathNibbles) (st : t ≠ .nil → Stored H K t)
    (counted : (expand t).visits ≤ Rlp.maximumInt) :
    ∃ enc persisted, encodeNode H (expand t) = .ok (enc, persisted) ∧ H enc = rootHash H t := by
  have rep : Rep H K (expand t) t := rep_expand t
  have inner : ∀ r, expand t ≠ .hash r := by cases t <;> simp [expand]
  have fewer : (expand t).hashes H + 1 ≤ (expand t).visits := Node.hashes_lt inner
  have bounded : (expand t).Bounded H := by
    refine ⟨rep.fits_iff.mpr ?_, counted, by omega⟩
    by_cases vacant : t = .nil
    · subst vacant
      trivial
    · exact (st vacant).fits
  obtain ⟨persisted, made⟩ := bounded.encodes (rep.built canon short) inner
  refine ⟨_, persisted, made, ?_⟩
  rw [rep.encoded_eq inner]
  by_cases vacant : t = .nil
  · subst vacant
    exact empty
  · exact (rootHash_proper vacant).symm

/-- In every session, the two trees of a snapshot that keeps both agree; reads through the hashed
one where no change passes a node that its trie refers to more than once. -/
theorem materialized_trees_agree {keccak : Bytes → Root}
    {secure : Bool} {actions : List Action} {entry : Entry}
    (here : entry ∈ (run keccak secure actions).held)
    (materialized : entry.snapshot.materialized = true) (empty : keccak [0x80] = emptyRoot)
    (injective : Set.InjOn keccak {b | b ∈ (run keccak secure actions).encodings keccak}) :
    entry.snapshot.Agrees keccak (run keccak secure actions).heap secure
      (Reached keccak secure (run keccak secure actions)) := by
  have known := known_of_encodings
    (fun b (inside : b ∈ (run keccak secure actions).encodings keccak) => inside)
  have holds := (run_sound injective empty mem_cons_self known).held entry here
  refine ⟨fun counted => ?_, fun call e failed => ?_, _,
    holds.answers injective (Or.inl materialized),
    fun reached => holds.lazily.answers injective (Or.inr fun e missing => ?_)⟩
  · rw [holds.read materialized] at counted ⊢
    rw [holds.hash]
    exact encodeNode_expand empty holds.canonical holds.short holds.stored counted
  · rintro rfl
    rcases (Call.run_spec injective holds).2 _ failed with refused | missing | ⟨absent, -⟩
    · exact refused
    · exact missing.1
    · cases absent
  · obtain ⟨-, closed⟩ := reached.closed injective empty mem_cons_self known
    exact (closed.held entry here).not_missing holds missing

end

/-- Both keys are read through hashes, which the defaults leave room for. -/
theorem materialized_trees_agree_twins :
    ∃ entry, twinSession.held[2]? = some entry ∧ entry.snapshot.materialized = true ∧
      entry.snapshot.Agrees keccakShared twinSession.heap false True ∧
      GetRoom .background entry.snapshot.lazily [0x20]
      (pathOf keccakShared false [0x20]).length := by
  obtain ⟨entry, here⟩ : ∃ entry, twinSession.held[2]? = some entry :=
    Option.isSome_iff_exists.mp (by decide +kernel)
  have checked : ∀ entry ∈ twinSession.held[2]?, entry.snapshot.materialized = true ∧
      entry.snapshot.limits = defaultLimits := by
    decide +kernel
  obtain ⟨materialized, limits⟩ := checked entry here
  obtain ⟨encodes, undiverged, map, answers, lazily⟩ := materialized_trees_agree
    (mem_of_getElem? here) materialized shared_empty twin_injective
  refine ⟨entry, here, materialized, ⟨encodes, undiverged, map, answers, fun _ =>
    lazily reached_twin⟩, ?_⟩
  have same : entry.snapshot.lazily.limits = defaultLimits := limits
  refine ⟨live_background, ?_, ?_, ?_, Or.inr ?_⟩ <;> rw [same] <;> decide

/-- After the update of one of two keys with the same value, the expanded tree holds the other
key, and the hashed tree has lost it. -/
theorem hashed_tree_loses_key :
    keccakShared [0x80] = emptyRoot ∧
    Set.InjOn keccakShared {b | b ∈ sharedSession.encodings keccakShared} ∧
    ∃ entry, sharedSession.held[3]? = some entry ∧ entry.snapshot.materialized = true ∧
      (Snapshot.get keccakShared sharedSession.heap .background entry.snapshot [0x20] false
        entry.snapshot.limits.work).map Prod.fst = .ok (replicate 32 0x41) ∧
      (Snapshot.get keccakShared sharedSession.heap .background entry.snapshot.lazily [0x20] false
        entry.snapshot.limits.work).map Prod.fst = .error (.malformedNode .unresolvedHash) := by
  refine ⟨shared_empty, shared_injective, ?_⟩
  decide +kernel

/-! ### Batches and single calls -/

section

variable {H : Bytes → Root} {sec : Bool} {ms : List Mutation} {Q : Set Bytes} {t : Tree}
  {map : Bytes → Option Content}

theorem Mutation.Formed.content_none {m : Mutation} (formed : m.Formed) :
    m.content = none ↔ m = .remove m.key := by
  cases m with
  | put key v =>
    have some : v ≠ [] := formed
    simp [Mutation.content, some]
  | remove key => exact ⟨fun _ => rfl, fun _ => rfl⟩
  | unknown key => exact absurd formed id

theorem nodup_paths (apart : Set.InjOn (pathOf H sec) Q) (members : ∀ m ∈ ms, m.key ∈ Q)
    (distinct : (ms.map Mutation.key).Nodup) : (ms.map fun m => pathOf H sec m.key).Nodup := by
  have keys : ∀ key ∈ ms.map Mutation.key, key ∈ Q := by
    simpa using members
  have paths := distinct.map_on fun key mem key' mem' eq =>
    apart (keys key mem) (keys key' mem') eq
  rwa [map_map] at paths

/-- Mutations of different keys come to nothing exactly when they remove a key that is absent. -/
theorem changeAll_eq_none_iff_removes (held : Matches H sec Q t map)
    (apart : Set.InjOn (pathOf H sec) Q) (members : ∀ m ∈ ms, m.key ∈ Q)
    (batch : BatchFormed [] ms) :
    changeAll H sec t ms = none ↔ ∃ key, Mutation.remove key ∈ ms ∧ map key = none := by
  rw [changeAll_eq_none (nodup_paths apart members batch.distinct)]
  constructor
  · rintro ⟨m, mem, st, absent⟩
    rw [held.values _ (members m mem)] at absent
    rw [(batch.formed m mem).content_none] at st
    exact ⟨m.key, st ▸ mem, absent⟩
  · rintro ⟨key, mem, absent⟩
    exact ⟨.remove key, mem, rfl, (held.values key (members _ mem)).trans absent⟩

/-- In every session, for a snapshot whose references are found: a batch of values to put and of
keys to remove, each key once, succeeds exactly when what it removes is there, unless there is too
little room for it; and any calls that make the same mutations, in any order and grouping, come to
the same root. -/
theorem batches_order_independent {keccak : Bytes → Root}
    {secure : Bool} {actions : List Action} {entry : Entry}
    {mutations : List Mutation} {calls : List Call}
    (here : entry ∈ (run keccak secure actions).held) (empty : keccak [0x80] = emptyRoot)
    (found : ∀ root, Reachable (entry.snapshot.find (run keccak secure actions).heap)
      entry.snapshot.root root →
      (entry.snapshot.find (run keccak secure actions).heap root).isSome)
    (formed : ∀ mutation ∈ mutations, mutation.Formed)
    (distinct : (mutations.map Mutation.key).Nodup)
    (together : (calls.flatMap Call.mutations).Perm mutations)
    (apart : secure = true →
      Set.InjOn keccak {key | key ∈ actions.flatMap Action.keys ++ mutations.map Mutation.key})
    (injective : Set.InjOn keccak {b | b ∈ (run keccak secure actions).encodings keccak ++
      callEncodings keccak secure entry.version.trie calls}) :
    (∀ ctx next, (Call.applyBatch ctx mutations).run keccak (run keccak secure actions).heap
        secure entry.snapshot = .ok next →
      (∀ key, Mutation.remove key ∈ mutations → entry.version.contents key ≠ none) ∧
      ∀ last, runCalls keccak (run keccak secure actions).heap secure entry.snapshot calls =
        .ok last → last.hash = next.hash) ∧
    (∀ ctx e, (Call.applyBatch ctx mutations).run keccak (run keccak secure actions).heap
        secure entry.snapshot = .error e →
      (e.Exceeds ∧ ∀ n, ¬ BatchFits keccak ctx entry.snapshot.limits secure entry.version.trie n
        mutations) ∨
      (e = .absentKey ∧
        ∃ key, Mutation.remove key ∈ mutations ∧ entry.version.contents key = none)) := by
  obtain ⟨holds, held⟩ := run_entry injective empty apart
    (fun b mem => mem_append_left _ mem)
    (fun action mem key queried => mem_append_left _ (mem_flatMap.mpr
      ⟨action, mem, queried⟩)) here
  have members : ∀ mutation ∈ mutations, mutation.key ∈
      {key | key ∈ actions.flatMap Action.keys ++ mutations.map Mutation.key} :=
    fun mutation mem => mem_append_right _ (mem_map_of_mem mem)
  have paths := pathOf_injOn apart
  have batch : BatchFormed [] mutations := ⟨formed, distinct, fun _ _ => not_mem_nil⟩
  have removes := changeAll_eq_none_iff_removes held paths members batch
  refine ⟨fun ctx next ran => ?_, fun ctx e failed => ?_⟩
  · obtain ⟨trie, changed, hash, -⟩ := (applyBatch_hashes injective holds rfl).run.1 next ran
    refine ⟨fun key mem absent => ?_, fun last ran' => ?_⟩
    · rw [removes.mpr ⟨key, mem, absent⟩] at changed
      cases changed
    · obtain ⟨trie', changed', holds', -⟩ := runCalls_holds injective holds (fun n _ =>
        every_callEncodings (fun b mem => mem_append_right _ mem) n) ran'
      rw [hash, holds'.hash, changeAll_perm together.symm (nodup_paths paths members distinct)
        holds.canonical changed changed']
  · rcases (applyBatch_hashes injective holds rfl).run.2 e failed with refused | missing | absent
    · obtain ⟨exceeds, lacking⟩ := refused.2 batch
      exact Or.inl ⟨exceeds, fun n fits => lacking ⟨n, fits.apply_room holds.canonical⟩⟩
    · exact absurd missing (holds.not_missing injective found e)
    · exact Or.inr ⟨absent.1, removes.mp absent.2⟩

end

def updateOnce : List Action := [.new defaultLimits, .call 0 (.update .background [0x10] [0x41])]

def replaceBatch : List Mutation := [.put [0x20] [0x42], .remove [0x10]]

def replaceCalls : List Call := [.delete .background [0x10], .update .background [0x20] [0x42]]

theorem batches_order_independent_replace :
    ∃ entry ∈ (run keccakLeaves false updateOnce).held,
      BatchFits keccakLeaves .background entry.snapshot.limits false entry.version.trie 2
        replaceBatch ∧
      ∃ next last, (Call.applyBatch .background replaceBatch).run keccakLeaves
          (run keccakLeaves false updateOnce).heap false entry.snapshot = .ok next ∧
        runCalls keccakLeaves (run keccakLeaves false updateOnce).heap false entry.snapshot
          replaceCalls = .ok last ∧ last.hash = next.hash := by
  have none : Reached keccakLeaves false (run keccakLeaves false []) := .start
  have fresh := none.concat (.new defaultLimits) trivial
  have reached := fresh.concat (.call 0 (.update .background [0x10] [0x41]))
    (alone_call (by decide +kernel))
  obtain ⟨entry, here⟩ : ∃ entry, (run keccakLeaves false updateOnce).held[1]? = some entry :=
    Option.isSome_iff_exists.mp (by decide +kernel)
  have state : ∀ entry ∈ (run keccakLeaves false updateOnce).held[1]?,
      entry.snapshot.limits = defaultLimits ∧ entry.version.trie.nodes = 1 ∧
      (match entry.version.trie with
        | .leaf _ content => decide (content.val.length ≤ 15 <<< 20)
        | _ => false : Bool) = true ∧
      (entry.version.contents [0x10]).isSome ∧
      (runCalls keccakLeaves (run keccakLeaves false updateOnce).heap false entry.snapshot
        replaceCalls).toBool ∧
      ∀ b ∈ (run keccakLeaves false updateOnce).encodings keccakLeaves ++
          callEncodings keccakLeaves false entry.version.trie replaceCalls,
        ∀ b' ∈ (run keccakLeaves false updateOnce).encodings keccakLeaves ++
          callEncodings keccakLeaves false entry.version.trie replaceCalls,
        keccakLeaves b = keccakLeaves b' → b = b' := by
    decide +kernel
  obtain ⟨limits, nodes, small, present, single, differ⟩ := state entry here
  obtain ⟨last, ran⟩ := exists_of_toBool single
  have mem := mem_of_getElem? here
  have empty : keccakLeaves [0x80] = emptyRoot := by decide +kernel
  have inj := injOn_list differ
  have within := inj.mono fun b => mem_append_left _
  obtain ⟨sound, closed⟩ := reached.closed within empty mem_cons_self
    (known_of_encodings fun b inside => inside)
  have resolves : entry.snapshot.Resolves keccakLeaves _ false :=
    (closed.held entry mem).resolves within (sound.held entry mem)
  have formed : ∀ mutation ∈ replaceBatch, mutation.Formed := by
    simp [replaceBatch, Mutation.Formed]
  have together : (replaceCalls.flatMap Call.mutations).Perm replaceBatch := Perm.swap ..
  have fits : BatchFits keccakLeaves .background entry.snapshot.limits false entry.version.trie 2
      replaceBatch := by
    rw [limits]
    refine ⟨live_background, by decide, ?_, by decide +kernel, ?_, by decide +kernel, by decide,
      by decide, by decide, ?_, ?_⟩
    · simp [replaceBatch, Mutation.Within, Mutation.key, Mutation.value, defaultLimits]
    · cases shape : entry.version.trie with
      | leaf p content =>
        rw [shape] at small
        intro key content' found
        rw [Radix.lookup_leaf] at found
        split at found
        · cases found
          exact of_decide_eq_true small
        · cases found
      | _ =>
        rw [shape] at small
        cases small
    · rw [nodes]
      decide
    · rw [nodes]
      decide
  obtain ⟨done, failed⟩ := batches_order_independent mem empty resolves.found formed (by decide)
    together (by simp) inj
  cases out : (Call.applyBatch .background replaceBatch).run keccakLeaves
      (run keccakLeaves false updateOnce).heap false entry.snapshot with
  | ok next =>
    exact ⟨entry, mem, fits, next, last, out, ran, (done .background next out).2 last ran⟩
  | error e =>
    rcases failed .background e out with ⟨-, lacking⟩ | ⟨-, key, removed, absent⟩
    · exact absurd fits (lacking 2)
    · obtain rfl : key = [0x10] := by simpa [replaceBatch] using removed
      rw [absent] at present
      cases present

/-- A value that is put must not be empty. -/
theorem empty_put_refused :
    ∃ snapshot, newTrie defaultLimits = .ok snapshot ∧
      (Call.applyBatch .background [.put [0x10] []]).run keccakLeaves Heap.new false snapshot =
        .error (.invalidValue .emptyPut) := by
  exact ⟨_, rfl, rfl⟩

end Golib.MerklePatriciaTrie
