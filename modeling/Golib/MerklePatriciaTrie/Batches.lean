import Golib.Lib.RadixSize
import Golib.MerklePatriciaTrie.History
import Golib.MerklePatriciaTrie.NodeCanonical
import Golib.MerklePatriciaTrie.NodeSizes

/-! Limits within which a batch succeeds; and a batch of values on an empty trie, with the root it
gives whatever the hash function. -/
namespace Golib.MerklePatriciaTrie

open Program List Nat

variable {n : Nat}

section

variable {H : Bytes → Root} {lim : Limits} {snap : Snapshot} {ctx : Context} {ms : List Mutation}
  {h : Heap} {sec : Bool} {t : Tree}

/-! ### Batches on an empty trie -/

/-- What is enough for a batch of values on an empty trie: it and its keys and values are within
their limits, and the paths are no longer than `n`. -/
structure BatchRoom (ctx : Context) (limits : Limits) (n : Nat) (mutations : List Mutation) :
    Prop where
  live : ctx.Live
  count : mutations.length ≤ limits.maxBatchOperations
  distinct : (mutations.map Mutation.key).Nodup
  puts : ∀ mutation ∈ mutations, ∃ key value, mutation = .put key value ∧ value ≠ [] ∧
    key.length ≤ limits.maxKeyBytes ∧ value.length ≤ limits.maxValueBytes ∧
    value.length ≤ 15 <<< 20 ∧ 2 * key.length ≤ n
  depth : n ≤ limits.maxTraversalDepth
  traversal : (mutations.length + 1) * (n + 1) ≤ limits.maxTraversalNodes
  encoding : 3 * mutations.length ≤ limits.maxEncodingNodes
  hashes : 3 * mutations.length ≤ limits.maxHashOperations

theorem BatchRoom.perm {mutations' : List Mutation}
    (room : BatchRoom ctx lim n ms) (perm : mutations'.Perm ms) :
    BatchRoom ctx lim n mutations' := by
  obtain ⟨live, count, distinct, puts, d, traversal, encoding, hs⟩ := room
  rw [← perm.length_eq] at count traversal encoding hs
  exact ⟨live, count, (perm.map _).nodup_iff.mpr distinct,
    fun m mem => puts m (perm.mem_iff.mp mem), d, traversal, encoding, hs⟩

/-- What is enough for a batch on any snapshot of a trie, whose nodes may have to be resolved: on a
path of `n` digits at most two for every digit and two more. -/
structure BatchFits (keccak : Bytes → Root) (ctx : Context) (limits : Limits) (secure : Bool)
    (trie : Tree) (n : Nat) (mutations : List Mutation) : Prop where
  live : ctx.Live
  count : mutations.length ≤ limits.maxBatchOperations
  within : ∀ mutation ∈ mutations, mutation.Within limits
  paths : ∀ mutation ∈ mutations, (pathOf keccak secure mutation.key).length ≤ n
  stored : Sized (15 <<< 20) trie
  values : ∀ mutation ∈ mutations, ∀ content ∈ mutation.content, content.val.length ≤ 15 <<< 20
  depth : n ≤ limits.maxTraversalDepth
  traversal : mutations.length * (3 * n + 3) + (n + 1) ≤ limits.maxTraversalNodes
  reads : mutations.length * (2 * n + 2) ≤ limits.maxNodeReads
  encoding : trie.nodes + 3 * mutations.length ≤ limits.maxEncodingNodes
  hashes : mutations.length * (2 * n + 2 + secure.toNat) + (trie.nodes + 3 * mutations.length) ≤
    limits.maxHashOperations

theorem changeAll_sized {trie trie' : Tree} (sized : Sized n trie)
    (small : ∀ m ∈ ms, ∀ content ∈ m.content, content.val.length ≤ n)
    (changed : changeAll H sec trie ms = some trie') : Sized n trie' := by
  induction ms generalizing trie with
  | nil =>
    cases changed
    exact sized
  | cons m rest ih =>
    obtain ⟨t, first, later⟩ := Option.bind_eq_some_iff.mp changed
    refine ih ?_ (forall_mem_cons.mp small).2 later
    intro key content found
    rw [lookup_change first] at found
    split at found
    · exact small m (mem_cons_self ..) content found
    · exact sized key content found

theorem BatchFits.apply_room (fits : BatchFits H ctx snap.limits sec t n ms) (canon : t.Canonical) :
    ApplyRoom H h ctx snap sec t ms n snap.limits.work := by
  have cost : toll (kept H snap.root t) 1 n ≤ 2 * n + 2 := toll_le
  have traversal := fits.traversal
  have hashes := fits.hashes
  have nodes : ms.length * (n + toll (kept H snap.root t) 1 n + 1) ≤ ms.length * (3 * n + 3) :=
    Nat.mul_le_mul_left _ (by omega)
  have resolved : ms.length * (toll (kept H snap.root t) 1 n + sec.toNat) ≤
      ms.length * (2 * n + 2 + sec.toNat) := Nat.mul_le_mul_left _ (by omega)
  have left : snap.limits.work.hashesLeft = snap.limits.maxHashOperations := rfl
  refine ⟨fits.count, fits.within, ⟨fits.paths, fits.live, fits.depth, by omega, by omega, ?_⟩,
    fun trie changed short => ?_, fits.encoding, by omega⟩
  · exact le_trans (Nat.mul_le_mul_left _ cost) fits.reads
  · exact every_fits (changeAll_canonical canon changed) short
      (changeAll_sized fits.stored fits.values changed)

section

variable {ctx : Context} {lim : Limits} {ms : List Mutation}
  (room : BatchRoom ctx lim n ms)

include room

theorem BatchRoom.valid : BatchValid ctx lim [] ms := by
  refine ⟨⟨fun m mem => ?_, room.distinct, fun _ _ => not_mem_nil⟩, room.live, fun m mem => ?_⟩
  · obtain ⟨key, v, rfl, some, -⟩ := room.puts m mem
    exact some
  · obtain ⟨key, v, rfl, -, short, small, -⟩ := room.puts m mem
    refine ⟨short, ?_⟩
    rintro _ ⟨⟩
    exact small

theorem BatchRoom.stored {m : Mutation} (mem : m ∈ ms) :
    ∃ content, m.content = some content ∧ content.val.length ≤ 15 <<< 20 ∧
      (bytesToNibbles m.key).length ≤ n := by
  obtain ⟨key, v, rfl, some, -, -, small, short⟩ := room.puts m mem
  refine ⟨⟨v, some⟩, dif_pos some, small, ?_⟩
  rw [length_bytesToNibbles]
  exact short

theorem BatchRoom.changeAll_ne_none : changeAll H false t ms ≠ none := by
  have puts : ∀ m ∈ ms, m.content ≠ none := fun m mem => by
    obtain ⟨content, st, -⟩ := room.stored mem
    rw [st]
    exact Option.some_ne_none content
  clear room
  induction ms generalizing t with
  | nil => exact Option.some_ne_none t
  | cons m rest ih =>
    obtain ⟨some, later⟩ := forall_mem_cons.mp puts
    obtain ⟨content, st⟩ := Option.ne_none_iff_exists'.mp some
    rw [changeAll, st]
    exact ih later

theorem BatchRoom.apply_room (eq : snap.limits = lim) (whole : kept H snap.root .nil = 0) :
    ApplyRoom H h ctx snap false .nil ms n snap.limits.work := by
  subst eq
  have nothing : toll (kept H snap.root .nil) 1 n + Bool.toNat false = 0 := by
    rw [whole, toll_zero]
    rfl
  have paths : ∀ m ∈ ms, (pathOf H false m.key).length ≤ n := fun m mem => by
    obtain ⟨_, -, -, short⟩ := room.stored mem
    exact short
  refine ⟨room.count, room.valid.within, ⟨paths, room.live, room.depth, ?_, ?_, ?_⟩,
    fun trie changed short => ?_, ?_, ?_⟩
  · have enough := room.traversal
    rw [whole, toll_zero]
    rwa [Nat.succ_mul] at enough
  · rw [nothing]
    exact Nat.zero_le _
  · rw [whole, toll_zero]
    exact Nat.zero_le _
  · refine every_fits (changeAll_canonical (Or.inl rfl) changed) short
      (changeAll_sized (sized_nil _) (fun m mem content found => ?_) changed)
    obtain ⟨content', st, small, -⟩ := room.stored mem
    rw [st] at found
    cases found
    exact small
  · rw [Radix.nodes, Nat.zero_add]
    exact room.encoding
  · rw [nothing, Nat.mul_zero, Radix.nodes, Nat.zero_add, Nat.zero_add]
    exact room.hashes

end

/-- A batch on an empty trie gives the root of the trie it makes, whatever the hash function. -/
theorem applyBatch_new (made : newTrie lim = .ok snap) :
    (∀ next, (Call.applyBatch ctx ms).run H h false snap = .ok next →
      ∃ trie, changeAll H false .nil ms = some trie ∧ next.hash = rootHash H trie) ∧
    (∀ e, (Call.applyBatch ctx ms).run H h false snap = .error e →
      ∀ n, ¬ BatchRoom ctx lim n ms) := by
  obtain ⟨holds, -, eq, -, -⟩ : snap.Holds H ∅ h .nil ∧ _ := newTrie_holds made
  have inj : Set.InjOn H (∅ : Set Bytes) := Set.injOn_empty _
  have whole : kept H snap.root .nil = 0 := by
    rcases holds.root with frozen | ⟨some, -, -⟩
    · rw [frozen]
      rfl
    · exact absurd rfl some
  have ends := (applyBatch_hashes inj holds rfl :
    Ends (Snapshot.applyBatch H h ctx snap ms false) snap.limits.work _ _).run
  refine ⟨fun next ran => ?_, fun e failed n room => ?_⟩
  · obtain ⟨trie, changed, hash, -⟩ := ends.1 next ran
    exact ⟨trie, changed, hash⟩
  · rcases ends.2 e failed with refused | ⟨-, b, mem, -⟩ | ⟨-, absent⟩
    · exact (refused.2 room.valid.toBatchFormed).2 ⟨n, room.apply_room eq whole⟩
    · rw [whole] at mem
      exact absurd mem (Multiset.notMem_zero b)
    · exact room.changeAll_ne_none absent

end

end Golib.MerklePatriciaTrie
