import Golib.MerkleTree.Construction

/-! The two builders over whole sequences of calls. A call that is rejected or
cancelled keeps the builder, so after any calls a builder stands for the leaves of the
accepted batches, in order. -/
namespace Golib.MerkleTree

open HashTree Polled List Except Nat

variable {D : Type}

variable {ls : List RawLeaf}

section Runs

variable {B : Type} (call : B → List RawLeaf → Polled Err B)

/-- The builder after the calls, and the leaves of the batches that were accepted. -/
def runCalls (builder : B) : List (Context × List RawLeaf) → B × List RawLeaf
  | [] => (builder, [])
  | (ctx, batch) :: rest =>
    match ctx.run (call builder batch) with
    | .ok next => ((runCalls next rest).1, batch ++ (runCalls next rest).2)
    | .error _ => runCalls builder rest

variable {call}

theorem runCalls_invariant {b : B} (inv : B → List RawLeaf → Prop) (capacity : Nat)
    (step : ∀ b ls batch next, inv b ls → (ls ++ batch).length < capacity →
      (call b batch).outcome = .ok next → inv next (ls ++ batch)) (start : inv b ls)
    (cs : List (Context × List RawLeaf))
    (bound : (ls ++ (runCalls call b cs).2).length < capacity) :
    inv (runCalls call b cs).1 (ls ++ (runCalls call b cs).2) := by
  induction cs generalizing b ls with
  | nil => simpa [runCalls] using start
  | cons head rest ih =>
    obtain ⟨ctx, batch⟩ := head
    cases result : ctx.run (call b batch) with
    | error e =>
      simp only [runCalls, result] at bound ⊢
      exact ih start bound
    | ok next =>
      simp only [runCalls, result, ← append_assoc] at bound ⊢
      apply ih _ bound
      apply step b ls batch next start _ (Context.run_ok result)
      rw [length_append] at bound
      omega

end Runs

section Roots

structure RootBuilder.Stands (H : Hasher D) (profile : Profile) (limits : Limits)
    (builder : RootBuilder D) (leaves : List RawLeaf) : Prop where
  initialized : builder.initialized = true
  identity : builder.profile = profile
  configured : builder.limits = limits
  frontier : ∃ ts, Forest 0 leaves.length ts ∧ stackLeaves ts = leafDigests H leaves ∧
    builder.frontier = ts.map (DigestTree.digest H.hashBranch)
  size : builder.treeSize = UInt64.ofNat leaves.length
  count : leaves.length ≤ limits.maxLeaves.toNat
  total : builder.totalBytes = sumLeafBytes 0 leaves
  bytes : builder.totalBytes ≤ limits.maxTotalBytes

variable {H : Hasher D} {pr : Profile} {lim : Limits}

theorem batch_fits {done more : Nat} {size maximum : UInt64} (n : size.toNat = done)
    (below : done ≤ maximum.toNat) (word : done + more < 2 ^ 64) :
    ¬ UInt64.ofNat more > maximum - size ↔ done + more ≤ maximum.toNat := by
  rw [gt_iff_lt, UInt64.lt_iff_toNat_lt, toNat_sub_of_le (by omega), n,
    toNat_ofNat_of_lt (by omega)]
  omega

theorem Limits.Admits.batch {done batch : List RawLeaf} (within : lim.Admits (done ++ batch)) :
    (checkLeafBytes lim (sumLeafBytes 0 done) batch).outcome =
      .ok (sumLeafBytes (sumLeafBytes 0 done) batch) := by
  have tot := within.total
  have bound := lim.maxTotalBytes.toNat_lt
  have sum : byteCount (done ++ batch) = byteCount done + byteCount batch := by
    simp [byteCount]
  apply checkLeafBytes_ok (fun leaf hl => within.each leaf (mem_append_right _ hl))
  rw [sumLeafBytes_eq, UInt64.zero_add, toNat_ofNat_of_lt (by omega)]
  omega

namespace RootBuilder

theorem Stands.new (known : pr.validate = .ok ()) (valid : lim.validate = .ok ()) :
    ∃ b : RootBuilder D, newRootBuilder pr lim = .ok b ∧ b.Stands H pr lim [] := by
  refine ⟨⟨true, pr, lim, [], 0, 0⟩, ?_, rfl, rfl, rfl, ⟨[], .nil 0, rfl, rfl⟩, rfl,
    zero_le _, rfl, ?_⟩
  · simp [newRootBuilder, known, valid, bind, Except.bind, pure, Except.pure]
  · simp [UInt64.le_iff_toNat_le]

section

variable {b : RootBuilder D} {batch : List RawLeaf} (known : pr.validate = .ok ())
  (valid : lim.validate = .ok ()) (h : b.Stands H pr lim ls)

include h

theorem Stands.toNat_size : b.treeSize.toNat = ls.length := by
  rw [h.size]
  exact toNat_ofNat_of_lt (lt_of_le_of_lt h.count lim.maxLeaves.toNat_lt)

theorem Stands.appendBatch {next : RootBuilder D} (word : (ls ++ batch).length < 2 ^ 64)
    (accepted : (b.appendBatch H batch).outcome = .ok next) :
    next.Stands H pr lim (ls ++ batch) := by
  rw [length_append] at word
  simp only [RootBuilder.appendBatch, bind_ok, poll_bind, failIf_eq_ok,
    h.configured, exists_const] at accepted
  obtain ⟨_, _, room, totalBytes, bs, accepted⟩ := accepted
  have n := (batch_fits h.toNat_size h.count word).mp room
  have tot := checkLeafBytes_sum bs
  have below := checkLeafBytes_le h.bytes bs
  have sum : totalBytes = sumLeafBytes 0 (ls ++ batch) := by
    rw [tot, h.total, ← sumLeafBytes_append]
  by_cases none : UInt64.ofNat batch.length = 0
  · have empty : batch = [] := by
      rw [ofNat_eq_iff (by omega)] at none
      exact eq_nil_of_length_eq_zero none
    subst empty
    cases ok.inj accepted
    simpa using h
  · obtain ⟨ts, forest, eq, frontier⟩ := h.frontier
    obtain ⟨ts', pushed, forest', same'⟩ := pushDigests_forest H forest h.toNat_size batch word
    rw [if_neg none, bind_ok] at accepted
    obtain ⟨⟨u, stack⟩, ran, accepted⟩ := accepted
    rw [frontier, pushed] at ran
    cases ok.inj ran
    cases ok.inj accepted
    refine ⟨h.initialized, h.identity, rfl, ⟨ts', ?_, ?_, rfl⟩, ?_, ?_, sum, below⟩
    · rw [length_append]
      exact forest'
    · rw [same', eq, leafDigests_append]
    · rw [length_append, UInt64.ofNat_add, ← h.size]
    · rw [length_append]
      exact n

include known valid

theorem Stands.validate : b.validate = .ok () := by
  obtain ⟨ts, forest, _, frontier⟩ := h.frontier
  have size := h.toNat_size
  have width : ts.length = onesCount64 b.treeSize := by
    rw [onesCount64, size]
    exact forest.length_eq 64 (size ▸ b.treeSize.toNat_lt)
  have few : ¬ b.treeSize > lim.maxLeaves := by
    rw [h.size]
    exact ofNat_le h.count
  have small : ¬ b.totalBytes > lim.maxTotalBytes := by
    rw [gt_iff_lt, UInt64.not_lt]
    exact h.bytes
  by_cases zero : b.treeSize = 0
  · have none : ts.length = 0 := by rw [width, zero]; rfl
    simp [RootBuilder.validate, h.initialized, h.identity, h.configured, known, valid, small,
      zero, frontier, none, Except.isOk, Except.toBool]
  · simp [RootBuilder.validate, h.initialized, h.identity, h.configured, known, valid, few, small,
      zero, frontier, width, Except.isOk, Except.toBool]

theorem Stands.accepts (within : lim.Admits (ls ++ batch)) :
    ∃ next, (b.appendBatch H batch).outcome = .ok next := by
  have word : (ls ++ batch).length < 2 ^ 64 := lt_of_le_of_lt within.count lim.maxLeaves.toNat_lt
  have n := within.count
  rw [length_append] at word n
  have room := (batch_fits h.toNat_size h.count word).mpr n
  simp only [RootBuilder.appendBatch, outcome_bind, outcome_lift,
    h.validate known valid, Except.bind, outcome_poll, outcome_failIf, h.configured,
    if_neg room, h.total, within.batch]
  split
  · exact ⟨_, rfl⟩
  · obtain ⟨ts, forest, eq, frontier⟩ := h.frontier
    obtain ⟨ts', pushed, _⟩ := pushDigests_forest H forest h.toNat_size batch word
    rw [frontier, outcome_bind, pushed]
    exact ⟨_, rfl⟩

theorem Stands.root :
    (b.root H).outcome = .ok (newRoot pr (UInt64.ofNat ls.length) (treeDigest H ls)) := by
  simp only [RootBuilder.root, outcome_bind, outcome_lift, h.validate known valid,
    Except.bind, outcome_poll, h.identity]
  have size := h.toNat_size
  by_cases zero : b.treeSize = 0
  · have none : ls = [] := by
      rw [zero] at size
      exact eq_nil_of_length_eq_zero size.symm
    subst none
    rw [if_pos zero]
    simp [treeDigest, leafDigests]
  · obtain ⟨ts, forest, eq, frontier⟩ := h.frontier
    have pos : 0 < ls.length := size ▸ toNat_pos zero
    rw [if_neg zero, frontier, outcome_bind, foldDigests_forest H forest pos, eq, h.size]
    rfl

end

end RootBuilder

end Roots

section Nodes

structure Builder.Stands (H : Hasher D) (profile : Profile) (limits : SnapshotLimits)
    (builder : Builder D) (digests : List D) : Prop where
  initialized : builder.initialized = true
  identity : builder.profile = profile
  configured : builder.limits = limits
  array : ∃ ts, Forest 0 digests.length ts ∧ stackLeaves ts = digests ∧
    builder.nodes = stackLayout H ts ∧ builder.frontier = stackIndexes H ts
  size : builder.treeSize = UInt64.ofNat digests.length
  count : digests.length ≤ limits.construction.maxLeaves.toNat
  empty : digests = [] → builder.totalBytes = 0
  bytes : builder.totalBytes ≤ limits.construction.maxTotalBytes
  retained : 2 * digests.length ≤ limits.maxRetainedNodes.toNat + 1

def Builder.Fed (H : Hasher D) (profile : Profile) (limits : SnapshotLimits) (builder : Builder D)
    (leaves : List RawLeaf) : Prop :=
  builder.Stands H profile limits (leafDigests H leaves) ∧ builder.totalBytes =
    sumLeafBytes 0 leaves

variable {H : Hasher D} {pr : Profile} {lim : SnapshotLimits} {ts : List (HashTree.DigestTree D)}

theorem stackIndexes_lt (fits : 2 * (stackLeaves ts).length ≤ 2 ^ 64) :
    ∀ i ∈ stackIndexes H ts, i.toNat < (stackLayout H ts).length := by
  induction ts with
  | nil =>
    intro i mem
    cases mem
  | cons t ts ih =>
    intro i mem
    have tot := length_stackLayout_le H (t :: ts)
    have pos := nodeCount_pos t
    simp only [stackLayout, stackLeaves, length_append, length_layout] at tot fits ⊢
    rcases mem_cons.mp mem with rfl | mem
    · rw [toNat_ofNat_of_lt (by omega)]
      omega
    · have := ih (by omega) i mem
      omega

namespace Builder

variable {b next : Builder D} {ds : List D} {batch : List RawLeaf}

theorem Stands.new (known : pr.validate = .ok ()) (valid : lim.validate = .ok ()) :
    ∃ b : Builder D, newBuilder pr lim = .ok b ∧ b.Fed H pr lim [] := by
  refine ⟨⟨true, pr, lim, [], [], 0, 0⟩, ?_, ⟨rfl, rfl, rfl, ⟨[], .nil 0, rfl, rfl, rfl⟩, rfl,
    zero_le _, fun _ => rfl, ?_, zero_le _⟩, rfl⟩
  · simp [newBuilder, known, valid, bind, Except.bind, pure, Except.pure]
  · simp [UInt64.le_iff_toNat_le]

theorem copyNodes_ok (ns : List (SnapshotNode D)) : (copyNodes ns).outcome = .ok ns := by
  induction ns with
  | nil => rfl
  | cons n rest ih =>
    rw [copyNodes, poll_bind]
    exact bind_ok.mpr ⟨rest, ih, rfl⟩

theorem pushBatch_forest {n : Nat} {completed : UInt64} (forest : Forest 0 n ts)
    (count : completed.toNat = n) (batch : List RawLeaf) (fits : 2 * (n + batch.length) ≤ 2 ^ 64)
    (retained : (stackLayout H ts).length < 2 ^ 64) :
    ∃ ts' added, (pushAll (pushBuilderNode H (UInt64.ofNat (stackLayout H ts).length))
        (mergeBuilderNodes H (stackLayout H ts)
          (UInt64.ofNat (stackLayout H ts).length)) .outOfRange
        completed [] (stackIndexes H ts) batch).outcome = .ok (added, stackIndexes H ts') ∧
      stackLayout H ts ++ added = stackLayout H ts' ∧ Forest 0 (n + batch.length) ts' ∧
      stackLeaves ts' = stackLeaves ts ++ leafDigests H batch := by
  have start : NodeStack H (stackLayout H ts) [] (stackIndexes H ts) ts :=
    ⟨append_nil _, rfl, by rw [forest.length_leaves]; omega⟩
  obtain ⟨added, stack, ts', pushed, rel, forest', eq⟩ :=
    pushAll_forest Err.outOfRange (builderStack_merges H retained) (nodeStack_sameLength H _)
      (fun leaf : RawLeaf => H.hashLeaf leaf.value) (show n + batch.length < 2 ^ 64 by omega)
      (builderStack_pushes H fits (stackLayout H ts)) batch forest count (le_refl _) start
  exact ⟨ts', added, by rw [pushed, rel.indexes], rel.nodes, forest', eq⟩

section

variable (known : pr.validate = .ok ()) (valid : lim.validate = .ok ()) (h : b.Stands H pr lim ds)

include h

theorem Stands.toNat_size : b.treeSize.toNat = ds.length := by
  rw [h.size]
  exact toNat_ofNat_of_lt (lt_of_le_of_lt h.count lim.construction.maxLeaves.toNat_lt)

theorem Stands.unique {builder' : Builder D} (h' : builder'.Stands H pr lim ds)
    (tot : b.totalBytes = builder'.totalBytes) : b = builder' := by
  obtain ⟨ts, forest, eq, ns, frontier⟩ := h.array
  obtain ⟨ts', forest', same', nodes', frontier'⟩ := h'.array
  have trees := forest.unique forest' (eq.trans same'.symm)
  subst trees
  cases b
  cases builder'
  simp only [Builder.mk.injEq]
  exact ⟨h.initialized.trans h'.initialized.symm, h.identity.trans h'.identity.symm,
    h.configured.trans h'.configured.symm, ns.trans nodes'.symm, frontier.trans frontier'.symm,
    h.size.trans h'.size.symm, tot⟩

include valid

theorem Stands.fits : 2 * ds.length ≤ 2 ^ 64 := by
  have := lim.retained_lt valid
  have := h.retained
  omega

theorem Stands.array_lt (eq : stackLeaves ts = ds) : (stackLayout H ts).length < 2 ^ 64 := by
  have bounded := length_stackLayout_le H ts
  rw [eq] at bounded
  have := h.retained
  have := lim.retained_lt valid
  omega

theorem Stands.appendBatch (word : ds.length + batch.length < 2 ^ 63)
    (accepted : (b.appendBatch H batch).outcome = .ok next) :
    next.Stands H pr lim (ds ++ leafDigests H batch) ∧
      next.totalBytes = sumLeafBytes b.totalBytes batch := by
  simp only [Builder.appendBatch, bind_ok, poll_bind, failIf_eq_ok,
    h.configured, exists_const] at accepted
  obtain ⟨_, _, room, totalBytes, bs, enough, accepted⟩ := accepted
  have n := (batch_fits h.toNat_size h.count (by omega)).mp room
  have tot := checkLeafBytes_sum bs
  have below := checkLeafBytes_le h.bytes bs
  have size : b.treeSize + UInt64.ofNat batch.length = UInt64.ofNat (ds.length + batch.length) := by
    rw [h.size, UInt64.ofNat_add]
  have length : (ds ++ leafDigests H batch).length = ds.length + batch.length := by
    rw [length_append, length_leafDigests]
  rw [size, retained_fits (by omega)] at enough
  by_cases none : UInt64.ofNat batch.length = 0
  · have empty : batch = [] := by
      rw [ofNat_eq_iff (by omega)] at none
      exact eq_nil_of_length_eq_zero none
    subst empty
    cases ok.inj accepted
    simpa [leafDigests, sumLeafBytes] using h
  · obtain ⟨ts, forest, eq, ns, frontier⟩ := h.array
    obtain ⟨ts', added, pushed, whole, forest', same'⟩ :=
      pushBatch_forest (H := H) forest h.toNat_size
      batch (by omega) (h.array_lt valid eq)
    rw [if_neg none, bind_ok] at accepted
    obtain ⟨⟨more, stack⟩, ran, accepted⟩ := accepted
    rw [ns, frontier, pushed] at ran
    cases ok.inj ran
    cases ok.inj accepted
    refine ⟨⟨h.initialized, h.identity, rfl, ⟨ts', ?_, ?_, ?_, rfl⟩, ?_, ?_, ?_, below, ?_⟩, tot⟩
    · rw [length]
      exact forest'
    · rw [same', eq]
    · rw [ns]
      exact whole
    · rw [length]
      exact size
    · rw [length]
      exact n
    · intro nothing
      rw [nothing, length_nil] at length
      exact absurd (show UInt64.ofNat batch.length =
        0 by rw [show batch.length = 0 by omega]; rfl) none
    · rw [length]
      exact enough

include known

theorem Stands.validate : b.validate = .ok () := by
  obtain ⟨ts, forest, eq, ns, frontier⟩ := h.array
  have size := h.toNat_size
  have fits := h.fits valid
  have leaves_eq : (stackLeaves ts).length = ds.length := by rw [eq]
  have width : ts.length = onesCount64 b.treeSize := by
    rw [onesCount64, size]
    exact forest.length_eq 64 (size ▸ b.treeSize.toNat_lt)
  have few : ¬ b.treeSize > lim.construction.maxLeaves := by
    rw [h.size]
    exact ofNat_le h.count
  have small : ¬ b.totalBytes > lim.construction.maxTotalBytes := by
    rw [gt_iff_lt, UInt64.not_lt]
    exact h.bytes
  have enough : ¬ snapshotNodeCount b.treeSize > lim.maxRetainedNodes := by
    rw [h.size]
    exact (retained_fits fits).mpr h.retained
  by_cases zero : b.treeSize = 0
  · have none : ts = [] := eq_nil_of_length_eq_zero (by rw [width, zero]; rfl)
    subst none
    simp [Builder.validate, h.initialized, h.identity, h.configured, known, valid, small, zero,
      frontier, ns, stackIndexes, stackLayout, snapshotNodeCount, Except.isOk, Except.toBool]
  · have pos : 0 < ds.length := size ▸ toNat_pos zero
    obtain ⟨t, rest, rfl⟩ := forest_nonempty forest pos
    have some_node : (stackLayout H (t :: rest)).length ≠ 0 := by
      have := nodeCount_pos t
      simp only [stackLayout, length_append, length_layout]
      omega
    have sub : (stackIndexes H (t :: rest)).any
        (fun i => i ≥ UInt64.ofNat (stackLayout H (t :: rest)).length) = false := by
      rw [any_eq_false]
      intro i mem
      have below := stackIndexes_lt (by omega) i mem
      simp only [ge_iff_le, decide_eq_true_eq, UInt64.le_iff_toNat_le,
        toNat_ofNat_of_lt (h.array_lt valid eq)]
      omega
    unfold Builder.validate
    rw [if_neg, if_neg zero, if_neg, if_neg]
    · rw [frontier, ns, sub]
      decide
    · rw [ns, frontier, length_stackIndexes]
      exact fun bad => bad.elim some_node (fun ne => ne width)
    · simp [h.initialized, h.identity, h.configured, known, valid, few, small, enough, Except.isOk,
        Except.toBool]

omit h in
theorem Fed.accepts (fed : b.Fed H pr lim ls) (within : lim.Admits (ls ++ batch)) :
    ∃ next, (b.appendBatch H batch).outcome = .ok next := by
  obtain ⟨h, tot⟩ := fed
  have bound := lim.retained_lt valid
  have n := within.construction.count
  have retained := within.nodes
  rw [length_append, ← length_leafDigests H ls] at n retained
  have room := (batch_fits h.toNat_size h.count (by omega)).mpr n
  have size : b.treeSize + UInt64.ofNat batch.length =
      UInt64.ofNat ((leafDigests H ls).length + batch.length) := by
    rw [h.size, UInt64.ofNat_add]
  have enough := (retained_fits (by omega)).mpr retained
  simp only [Builder.appendBatch, outcome_bind, outcome_lift, h.validate known valid,
    Except.bind, outcome_poll, outcome_failIf, h.configured, if_neg room, tot,
    within.construction.batch, size,
    if_neg enough]
  split
  · exact ⟨_, rfl⟩
  · obtain ⟨ts, forest, eq, array, frontier⟩ := h.array
    obtain ⟨ts', added, pushed, _⟩ := pushBatch_forest (H := H) forest h.toNat_size batch (by omega)
      (h.array_lt valid eq)
    rw [array, frontier, outcome_bind, pushed]
    exact ⟨_, rfl⟩

theorem Stands.snapshot :
    ∃ s, (b.snapshot H).outcome = .ok s ∧ s.Represents H pr ds ∧ s.totalBytes = b.totalBytes := by
  simp only [Builder.snapshot, outcome_bind, outcome_lift, h.validate known valid,
    Except.bind, outcome_poll, h.identity]
  have size := h.toNat_size
  have fits := h.fits valid
  by_cases zero : b.treeSize = 0
  · have none : ds = [] := by
      rw [zero] at size
      exact eq_nil_of_length_eq_zero size.symm
    subst none
    rw [if_pos zero]
    exact ⟨_, rfl, ⟨rfl, by simp, fun _ => ⟨rfl, rfl, h.empty rfl⟩, fun some =>
      absurd rfl some⟩, rfl⟩
  · obtain ⟨ts, forest, eq, ns, frontier⟩ := h.array
    have pos : 0 < ds.length := size ▸ toNat_pos zero
    obtain ⟨t, folded, bal, ls⟩ := foldNodes_forest H forest pos fits
    have tsize : t.size = ds.length := by
      rw [← DigestTree.length_leaves, ls, eq]
    have d : treeHash H.hashBranch H.empty ds = t.digest H.hashBranch := by
      rw [← eq, ← ls, treeHash_leaves _ _ bal]
    have read := (holds_layout (H := H) t).read (by rw [length_layout, nodeCount]; omega)
    rw [zero_add] at read
    refine ⟨⟨pr, newRoot pr b.treeSize (t.digest H.hashBranch), layout H 0 t,
      UInt64.ofNat (nodeCount t - 1), b.totalBytes⟩, ?_, ⟨rfl, ?_, ?_, ?_⟩, rfl⟩
    · rw [if_neg zero]
      refine bind_ok.mpr ⟨_, copyNodes_ok _, ?_⟩
      rw [ns, frontier]
      refine bind_ok.mpr ⟨_, folded, bind_ok.mpr ⟨_, read, ?_⟩⟩
      rw [outcome_pure, rootEntry_digest]
    · rw [h.size, d]
    · intro none
      simp [none] at pos
    · intro _
      exact ⟨t, bal, ls.trans eq, rfl, rfl⟩

end

end Builder

end Nodes

section Agreement

variable (H : Hasher D) {pr : Profile} {lim : SnapshotLimits}

theorem RootBuilder.Stands.calls {b : RootBuilder D} {lim : Limits}
    (h : b.Stands H pr lim []) (cs : List (Context × List RawLeaf))
    (bound : (runCalls (RootBuilder.appendBatch H) b cs).2.length < 2 ^ 64) :
    (runCalls (RootBuilder.appendBatch H) b cs).1.Stands H pr lim
      (runCalls (RootBuilder.appendBatch H) b cs).2 :=
  runCalls_invariant _ _ (fun _ _ _ _ start word accepted => start.appendBatch word accepted) h cs
    bound

theorem Builder.Fed.calls {builder : Builder D} (valid : lim.validate = .ok ())
    (h : builder.Fed H pr lim ls) (cs : List (Context × List RawLeaf))
    (bound : (ls ++ (runCalls (Builder.appendBatch H) builder cs).2).length < 2 ^ 63) :
    (runCalls (Builder.appendBatch H) builder cs).1.Fed H pr lim
      (ls ++ (runCalls (Builder.appendBatch H) builder cs).2) := by
  refine runCalls_invariant _ _ (fun b ls batch next fed word accepted => ?_) h cs bound
  rw [length_append, ← length_leafDigests H ls] at word
  obtain ⟨stands, tot⟩ := fed.1.appendBatch valid word accepted
  rw [← leafDigests_append] at stands
  exact ⟨stands, by rw [tot, fed.2, sumLeafBytes_append]⟩

/-- However the leaves are fed, every construction path gives their tree hash, and the
builder retains the node array of the snapshot made at once. A batch that continues the
leaves is refused only by its context. -/
theorem construction_paths_agree {profile : Profile} {limits : SnapshotLimits}
    [DecidableEq D] (known : profile.validate = .ok ())
    (valid : limits.validate = .ok ()) {leaves : List RawLeaf} (within : limits.Admits leaves) :
    Context.background.run (computeRoot H profile leaves limits.construction) =
        .ok (newRoot profile (UInt64.ofNat leaves.length) (treeDigest H leaves)) ∧
      ∃ snapshot rootBuilder builder,
        Context.background.run (newSnapshot H profile leaves limits) = .ok snapshot ∧
        snapshot.rootIdentity =
          .ok (newRoot profile (UInt64.ofNat leaves.length) (treeDigest H leaves)) ∧
        newRootBuilder profile limits.construction = .ok rootBuilder ∧
        newBuilder profile limits = .ok builder ∧
        (∀ calls, (runCalls (RootBuilder.appendBatch H) rootBuilder calls).2 = leaves →
          Context.background.run ((runCalls (RootBuilder.appendBatch H) rootBuilder
            calls).1.root H) =
            .ok (newRoot profile (UInt64.ofNat leaves.length) (treeDigest H leaves))) ∧
        (∀ calls, (runCalls (Builder.appendBatch H) builder calls).2 = leaves →
          ∃ built, Context.background.run
              ((runCalls (Builder.appendBatch H) builder calls).1.snapshot H) = .ok built ∧
            built.rootIdentity =
              .ok (newRoot profile (UInt64.ofNat leaves.length) (treeDigest H leaves)) ∧
            built.nodes = snapshot.nodes) ∧
        (∀ calls batch rest,
          (runCalls (RootBuilder.appendBatch H) rootBuilder calls).2 ++ batch ++ rest = leaves →
          ∃ next, Context.background.run
            ((runCalls (RootBuilder.appendBatch H) rootBuilder calls).1.appendBatch H batch) =
              .ok next) ∧
        (∀ calls batch rest,
          (runCalls (Builder.appendBatch H) builder calls).2 ++ batch ++ rest = leaves →
          ∃ next, Context.background.run
            ((runCalls (Builder.appendBatch H) builder calls).1.appendBatch H batch) =
            .ok next) := by
  have inner := limits.construction_valid valid
  have retained := limits.retained_lt valid
  have nodes := within.nodes
  simp only [Context.run_background]
  obtain ⟨snapshot, made, represents, bytes⟩ := newSnapshot_represents H known valid within
  obtain ⟨rootBuilder, newRoots, roots⟩ := RootBuilder.Stands.new (H := H) known inner
  obtain ⟨builder, newNodes, fed⟩ := Builder.Stands.new (H := H) known valid
  refine ⟨computeRoot_eq H known inner within.construction, snapshot, rootBuilder, builder, made,
    represents.rootIdentity known (by omega), newRoots, newNodes, ?_, ?_, ?_, ?_⟩
  · intro calls accepted
    have after := roots.calls H calls (by rw [accepted]; omega)
    rw [accepted] at after
    exact after.root known inner
  · intro calls accepted
    have after := fed.calls H valid calls (by rw [accepted, nil_append]; omega)
    rw [accepted, nil_append] at after
    obtain ⟨built, ran, same, bytes'⟩ := after.1.snapshot known valid
    refine ⟨built, ran, same.rootIdentity known (by omega), ?_⟩
    rw [same.unique represents (by rw [bytes', after.2, bytes])]
  · rintro calls batch rest rfl
    rw [length_append, length_append] at nodes
    exact (roots.calls H calls (by omega)).accepts known inner within.construction.left
  · rintro calls batch rest rfl
    rw [length_append, length_append] at nodes
    exact (fed.calls H valid calls (by rw [nil_append]; omega)).accepts known valid within.left

def threeLeaves : List RawLeaf := [⟨[1]⟩, ⟨[2]⟩, ⟨[3]⟩]

def smallLimits : SnapshotLimits := ⟨⟨8, 8, 64⟩, 15⟩

theorem smallLimits_admits : smallLimits.Admits threeLeaves :=
  ⟨⟨by decide, by decide, by decide⟩, by decide⟩

/-- Two leaves in one batch, a batch that no context stands behind, and the third leaf. -/
def threeCalls : List (Context × List RawLeaf) :=
  [(.background, [⟨[1]⟩, ⟨[2]⟩]), (none, [⟨[4]⟩]), (.background, [⟨[3]⟩])]

theorem construction_paths_agree_three :
    ∃ root snapshot rootBuilder builder built,
      Context.background.run (computeRoot Hasher.free canonicalProfile threeLeaves
        smallLimits.construction) = .ok root ∧
      Context.background.run (newSnapshot Hasher.free canonicalProfile threeLeaves smallLimits) =
        .ok snapshot ∧ snapshot.rootIdentity = .ok root ∧
      newRootBuilder canonicalProfile smallLimits.construction = .ok rootBuilder ∧
      Context.background.run ((runCalls (RootBuilder.appendBatch Hasher.free) rootBuilder
        threeCalls).1.root Hasher.free) = .ok root ∧
      newBuilder canonicalProfile smallLimits = .ok builder ∧
      Context.background.run ((runCalls (Builder.appendBatch Hasher.free) builder
        threeCalls).1.snapshot Hasher.free) = .ok built ∧
      built.rootIdentity = .ok root ∧ built.nodes = snapshot.nodes := by
  obtain ⟨root, snapshot, rootBuilder, builder, made, same, roots, nodes, rooted, stored, -, -⟩ :=
    construction_paths_agree Hasher.free (show canonicalProfile.validate = .ok () from rfl)
      (show smallLimits.validate = .ok () from rfl) smallLimits_admits
  have fedRoots : (runCalls (RootBuilder.appendBatch Hasher.free) rootBuilder threeCalls).2 =
      threeLeaves := by
    cases Except.ok.inj (roots.symm.trans rfl)
    rfl
  have fedNodes : (runCalls (Builder.appendBatch Hasher.free) builder threeCalls).2 =
      threeLeaves := by
    cases Except.ok.inj (nodes.symm.trans rfl)
    rfl
  obtain ⟨built, ran, identity, retained⟩ := stored threeCalls fedNodes
  exact ⟨_, snapshot, rootBuilder, builder, built, root, made, same, roots,
    rooted threeCalls fedRoots, nodes, ran, identity, retained⟩

end Agreement

end Golib.MerkleTree
