import Golib.MerkleTree.Resume

/-! Snapshots over whole lives: made at once, by builders, by decoding, and by builders that
were resumed from any of these. -/
namespace Golib.MerkleTree

open HashTree List
open Builder
open Context

section Canonical

variable {D : Type} {H : Hasher D}

/-- The digests of the nodes of size one, in array order. -/
def Snapshot.leafValues (s : Snapshot D) : List D :=
  (s.nodes.filter (fun node => node.size == 1)).map SnapshotNode.digest

theorem Snapshot.Represents.leafValues {ds : List D} {s : Snapshot D} {pr : Profile}
    (rep : s.Represents H pr ds) (small : 2 * ds.length ≤ 2 ^ 64) : s.leafValues = ds := by
  rw [Snapshot.leafValues, rep.leafNodes small, map_map]
  exact map_id ds

theorem Holds.children {base : Nat} {t : HashTree.DigestTree D}
    {ns : List (SnapshotNode D)} (fits : ns.length < 2 ^ 64)
    (held : Holds H ns base t) :
    ∀ n ∈ layout H base t, n.size ≠ 1 → ∃ l r, ns[n.left.toNat]? = some l ∧
      ns[n.right.toNat]? = some r ∧ n.digest = H.hashBranch l.digest r.digest := by
  induction t generalizing base with
  | leaf d =>
    intro n mem inner
    rw [layout, mem_singleton] at mem
    rw [mem] at inner
    exact absurd rfl inner
  | node l r hl hr =>
    intro n mem inner
    have bound := held.bound
    rw [nodeCount_node] at bound
    rw [layout, mem_append, mem_append, mem_singleton] at mem
    rcases mem with (mem | mem) | rfl
    · exact hl held.left n mem inner
    · exact hr held.right n mem inner
    · refine ⟨rootEntry H base l, rootEntry H (base + nodeCount l) r, ?_, ?_, ?_⟩
      · rw [rootEntry, toNat_ofNat_of_lt (by omega)]
        exact held.left.root
      · rw [rootEntry, toNat_ofNat_of_lt (by omega)]
        exact held.right.root
      · rw [rootEntry_digest, rootEntry_digest, rootEntry_digest]
        rfl

end Canonical

variable {s : Snapshot Bytes32} {b : Builder Bytes32} {ctx : Context} {ls : List RawLeaf}

section Lives

variable (H : Hasher Bytes32)

mutual

/-- The snapshots a program can hold. A slice of leaves takes 24 bytes for each of them. -/
inductive Produced : Snapshot Bytes32 → Prop where
  | new {ctx : Context} {profile : Profile} {leaves : List RawLeaf} {limits : SnapshotLimits}
      {s : Snapshot Bytes32} (fits : 24 * leaves.length ≤ maxInt)
      (made : ctx.run (newSnapshot H profile leaves limits) = .ok s) : Produced s
  | built {ctx : Context} {builder : Builder Bytes32} {s : Snapshot Bytes32} (held : Held builder)
      (made : ctx.run (builder.snapshot H) = .ok s) : Produced s
  | parsed {ctx : Context} {data : Bytes} {limits : SnapshotPersistenceLimits}
    {s : Snapshot Bytes32}
      (made : ctx.run (parseSnapshot H data limits) = .ok s) : Produced s

inductive Held : Builder Bytes32 → Prop where
  | new {profile : Profile} {limits : SnapshotLimits} {builder : Builder Bytes32}
      (made : newBuilder profile limits = .ok builder) : Held builder
  | resumed {ctx : Context} {s : Snapshot Bytes32} {expected : UInt64} {limits : SnapshotLimits}
      {builder : Builder Bytes32} (produced : Produced s)
      (made : ctx.run (resumeBuilder H s expected limits) = .ok builder) : Held builder
  | appended {ctx : Context} {builder next : Builder Bytes32} {batch : List RawLeaf}
      (held : Held builder) (fits : 24 * batch.length ≤ maxInt)
      (made : ctx.run (builder.appendBatch H batch) = .ok next) : Held next

end

variable {H} {lim : SnapshotLimits}

theorem newBuilder_stands {pr : Profile} (made : newBuilder pr lim = .ok b) :
    pr.validate = .ok () ∧ lim.validate = .ok () ∧ b.Fed H pr lim [] := by
  obtain ⟨_, known, checks⟩ := except_bind_ok.mp made
  obtain ⟨_, valid, -⟩ := except_bind_ok.mp checks
  obtain ⟨builder', again, fed⟩ := Stands.new (H := H) known valid
  cases Except.ok.inj (again.symm.trans made)
  exact ⟨known, valid, fed⟩

def Builder.Sound (H : Hasher Bytes32) (builder : Builder Bytes32) : Prop :=
  ∃ profile limits digests, profile.validate = .ok () ∧ limits.validate = .ok () ∧
    builder.Stands H profile limits digests

theorem Snapshot.Represents.canonical {ds : List Bytes32}
    {pr : Profile} (rep : s.Represents H pr ds)
    (known : pr.validate = .ok ()) (small : 2 * ds.length ≤ 2 ^ 64) : s.Canonical H := by
  have eq := rep.profile
  refine ⟨by rw [eq]; exact known, ds, ?_, small⟩
  rw [eq]
  exact rep

theorem newSnapshot_canonical {pr : Profile} (fits : 24 * ls.length ≤ maxInt)
    (made : ctx.run (newSnapshot H pr ls lim) = .ok s) : s.Canonical H := by
  have small : 2 * ls.length ≤ 2 ^ 64 := by
    unfold maxInt at fits
    omega
  obtain ⟨known, _, rep, _⟩ := newSnapshot_run H small made
  exact rep.canonical known (by simpa using small)

theorem Builder.Sound.snapshot (sound : b.Sound H)
    (made : ctx.run (b.snapshot H) = .ok s) : s.Canonical H := by
  obtain ⟨pr, lim, ds, known, valid, stands⟩ := sound
  obtain ⟨s', again, rep, _⟩ := stands.snapshot known valid
  cases Except.ok.inj (again.symm.trans (run_ok made))
  exact rep.canonical known (stands.fits valid)

theorem Snapshot.Canonical.resume {expected : UInt64} (canon : s.Canonical H)
    (made : ctx.run (resumeBuilder H s expected lim) = .ok b) : b.Sound H := by
  obtain ⟨known, ds, rep, small⟩ := canon
  obtain ⟨valid, stands, _⟩ := resumeBuilder_run known rep small made
  exact ⟨_, _, _, known, valid, stands⟩

theorem Builder.Sound.appendBatch {next : Builder Bytes32} {batch : List RawLeaf}
    (sound : b.Sound H) (fits : 24 * batch.length ≤ maxInt)
    (made : ctx.run (b.appendBatch H batch) = .ok next) : next.Sound H := by
  obtain ⟨pr, lim, ds, known, valid, stands⟩ := sound
  have retained := stands.retained
  have bound := lim.retained_lt valid
  unfold maxInt at fits
  obtain ⟨stands', _⟩ := stands.appendBatch valid (by omega) (run_ok made)
  exact ⟨_, _, _, known, valid, stands'⟩

mutual

theorem Produced.canonical {s : Snapshot Bytes32} : Produced H s → s.Canonical H
  | .new fits made => newSnapshot_canonical fits made
  | .built held made => held.sound.snapshot made
  | .parsed made => (parseSnapshot_ok.mp (run_ok made)).2.1

theorem Held.sound {b : Builder Bytes32} : Held H b → b.Sound H
  | .new made =>
    have ⟨known, valid, fed⟩ := newBuilder_stands made
    ⟨_, _, _, known, valid, fed.1⟩
  | .resumed produced made => produced.canonical.resume made
  | .appended held fits made => held.sound.appendBatch fits made

end

/-- What the decoder accepts is the encoding of a tree's array, no read of it leaves the data
or the array, and it gives back every snapshot a program can hold and its limits admit. -/
theorem persisted_snapshots_canonical (H : Hasher Bytes32) :
    (∀ (ctx : Context) (data : Bytes) (limits : SnapshotPersistenceLimits) (s : Snapshot Bytes32),
      ctx.run (parseSnapshot H data limits) = .ok s →
      (s.nodes = [] ∧ s.leafValues = [] ∨
        ∃ t, Balanced t ∧ t.leaves = s.leafValues ∧ s.nodes = layout H 0 t) ∧
      (∀ node ∈ s.nodes, node.size ≠ 1 → ∃ l r, s.nodes[node.left.toNat]? = some l ∧
        s.nodes[node.right.toNat]? = some r ∧ node.digest = H.hashBranch l.digest r.digest) ∧
      s.root.digest.value = treeHash H.hashBranch H.empty s.leafValues ∧
      s.root.treeSize.toNat = s.leafValues.length ∧ s.marshalBinary H = .ok data) ∧
    (∀ (ctx : Context) (data : Bytes) (limits : SnapshotPersistenceLimits),
      ctx.run (parseSnapshot H data limits) ≠ .error .outOfRange) ∧
    (∀ (s : Snapshot Bytes32), Produced H s → ∀ (limits : SnapshotPersistenceLimits),
      limits.Admits s → ∃ data, s.marshalBinary H = .ok data ∧
        background.run (parseSnapshot H data limits) = .ok s) := by
  refine ⟨?_, ?_, ?_⟩
  · intro ctx data limits s accepted
    obtain ⟨admits, canon, same⟩ := parseSnapshot_ok.mp (run_ok accepted)
    have encoded := canon.marshalBinary admits.representable
    obtain ⟨known, digests, represents, small⟩ := canon
    have values := represents.leafValues small
    rw [same, values]
    refine ⟨?_, ?_, by rw [represents.root]; rfl, represents.treeSize_toNat small, encoded⟩
    · by_cases none : digests = []
      · exact Or.inl ⟨(represents.empty none).1, none⟩
      · obtain ⟨t, balanced, leaves, nodes, _⟩ := represents.tree none
        exact Or.inr ⟨t, balanced, leaves, nodes⟩
    · by_cases none : digests = []
      · intro node mem
        rw [(represents.empty none).1] at mem
        cases mem
      · obtain ⟨t, balanced, leaves, nodes, _⟩ := represents.tree none
        have length := represents.length_nodes
        rw [nodes] at length ⊢
        exact (holds_layout t).children (by omega)
  · intro ctx data limits bad
    rcases ctx.run_cases (parseSnapshot H data limits) with h | h | ⟨cause, h⟩
    · exact parseSnapshot_safe (h.symm.trans bad)
    · rw [h] at bad
      cases bad
    · rw [h] at bad
      cases bad
  · intro s produced limits admits
    have canon := produced.canonical
    refine ⟨_, canon.marshalBinary admits.representable, ?_⟩
    rw [run_background]
    exact parseSnapshot_ok.mpr ⟨admits, canon, rfl⟩

/-- SHA-256 on the leaves `1` and `2`. -/
def pairHasher : Hasher Bytes32 where
  empty := .ofNat 0xe3b0c44298fc1c149afbf4c8996fb92427ae41e4649b934ca495991b7852b855
  hashLeaf value :=
    if value = [1] then .ofNat 0xb413f47d13ee2fe6c845b2ee141af81de858df4ec549a58b7970bb96645bc8d2
    else .ofNat 0xfcf0a6c700dd13e274b6fba8deea8dd9b26e4eedde3495717cac8408c9c5177f
  hashBranch _ _ := .ofNat 0x6bcf0e2e93e0a18e22789aee965e6553f4fbe93f0acfc4a705d691c8311c4965

theorem persisted_snapshots_canonical_pair :
    ∃ s data, Produced pairHasher s ∧ s.root.treeSize = 2 ∧ s.marshalBinary pairHasher = .ok data ∧
      background.run (parseSnapshot pairHasher data ⟨1024, 8, 64, 16, 8, 16, 1024⟩) = .ok s ∧
      s.root.digest.value = treeHash pairHasher.hashBranch pairHasher.empty s.leafValues := by
  have within : SnapshotLimits.Admits ⟨⟨8, 8, 64⟩, 15⟩ [⟨[1]⟩, ⟨[2]⟩] :=
    ⟨⟨by decide, by decide, by decide⟩, by decide⟩
  obtain ⟨s, made, represents, total⟩ := newSnapshot_represents pairHasher
    (show canonicalProfile.validate = .ok () from rfl) rfl within
  have nodes : s.nodes.length = 3 := represents.length_nodes
  have size : s.root.treeSize = 2 := by rw [represents.root]; rfl
  have produced : Produced pairHasher s := .new (by decide) ((run_background _).trans made)
  have admits : SnapshotPersistenceLimits.Admits ⟨1024, 8, 64, 16, 8, 16, 1024⟩ s :=
    ⟨rfl, by rw [nodes]; decide, by rw [nodes]; decide, by rw [size]; decide, by rw [total]; decide,
      by rw [nodes]; decide, by rw [nodes]; decide, by rw [size]; decide, by rw [nodes]; decide⟩
  obtain ⟨decoding, _, encoding⟩ := persisted_snapshots_canonical pairHasher
  obtain ⟨data, marshalled, parsed⟩ := encoding s produced _ admits
  exact ⟨s, data, produced, size, marshalled, parsed, (decoding _ _ _ _ parsed).2.2.1⟩

end Lives

section Resuming

/-- The snapshots over the given leaves: made at once, by a builder, or reloaded. -/
inductive SnapshotOf (H : Hasher Bytes32) (profile : Profile) (leaves : List RawLeaf) :
    Snapshot Bytes32 → Prop where
  | new {ctx : Context} {limits : SnapshotLimits} {s : Snapshot Bytes32}
      (made : ctx.run (newSnapshot H profile leaves limits) = .ok s) : SnapshotOf H profile leaves s
  | built {ctx : Context} {limits : SnapshotLimits} {builder : Builder Bytes32}
      {calls : List (Context × List RawLeaf)} {s : Snapshot Bytes32}
      (fresh : newBuilder profile limits = .ok builder)
      (accepted : (runCalls (appendBatch H) builder calls).2 = leaves)
      (made : ctx.run ((runCalls (appendBatch H) builder calls).1.snapshot H) = .ok s) :
      SnapshotOf H profile leaves s
  | reloaded {ctx : Context} {limits : SnapshotPersistenceLimits} {data : Bytes}
      {s s' : Snapshot Bytes32} (taken : SnapshotOf H profile leaves s)
      (encoded : s.marshalBinary H = .ok data)
      (made : ctx.run (parseSnapshot H data limits) = .ok s') : SnapshotOf H profile leaves s'

variable {H : Hasher Bytes32}

theorem SnapshotOf.represents {pr : Profile}
    (small : ls.length < 2 ^ 63) (taken : SnapshotOf H pr ls s) :
    pr.validate = .ok () ∧ s.Represents H pr (leafDigests H ls) ∧
      s.totalBytes = sumLeafBytes 0 ls := by
  induction taken with
  | new made =>
    obtain ⟨known, _, rep, tot⟩ := newSnapshot_run H (by omega) made
    exact ⟨known, rep, tot⟩
  | built fresh accepted made =>
    obtain ⟨known, valid, fed⟩ := newBuilder_stands (H := H) fresh
    have after := fed.calls H valid _ (by rw [accepted, nil_append]; omega)
    rw [accepted, nil_append] at after
    obtain ⟨s', again, rep, bs⟩ := after.1.snapshot known valid
    cases Except.ok.inj (again.symm.trans (run_ok made))
    exact ⟨known, rep, bs.trans after.2⟩
  | reloaded taken enc made ih =>
    obtain ⟨known, rep, tot⟩ := ih
    have canon := rep.canonical known (by rw [length_leafDigests]; omega)
    obtain ⟨_, canon', eq⟩ := parseSnapshot_ok.mp (run_ok made)
    have equal := encodedSnapshot_injective canon canon'
      ((marshalBinary_eq enc).symm.trans eq)
    subst equal
    exact ⟨known, rep, tot⟩

/-- A builder resumed from a snapshot of the first leaves and fed the rest, in any batches, is the
builder that was fed all of them, and its snapshot is the one made at once. A batch that
continues the leaves is refused only by its context. -/
theorem resumed_builder_agrees (H : Hasher Bytes32) {profile : Profile} {limits : SnapshotLimits}
    (valid : limits.validate = .ok ()) {before after : List RawLeaf}
    (within : limits.Admits (before ++ after)) {s : Snapshot Bytes32}
    (taken : SnapshotOf H profile before s) :
    ∃ resumed fresh snapshot,
      background.run (resumeBuilder H s (UInt64.ofNat (byteCount before)) limits) = .ok resumed ∧
      newBuilder profile limits = .ok fresh ∧
      background.run (newSnapshot H profile (before ++ after) limits) = .ok snapshot ∧
      (∀ calls calls', (runCalls (appendBatch H) resumed calls).2 = after →
        (runCalls (appendBatch H) fresh calls').2 = before ++ after →
        (runCalls (appendBatch H) resumed calls).1 = (runCalls (appendBatch H) fresh calls').1) ∧
      (∀ calls, (runCalls (appendBatch H) resumed calls).2 = after →
        background.run ((runCalls (appendBatch H) resumed calls).1.snapshot H) = .ok snapshot) ∧
      (∀ calls batch rest, (runCalls (appendBatch H) resumed calls).2 ++ batch ++ rest = after →
        ∃ next, background.run
          ((runCalls (appendBatch H) resumed calls).1.appendBatch H batch) = .ok next) := by
  have bound := limits.retained_lt valid
  have nodes := within.nodes
  have first := within.left
  rw [length_append] at nodes
  obtain ⟨known, represents, total⟩ := taken.represents (by omega)
  have bytes : s.totalBytes = UInt64.ofNat (byteCount before) := by
    rw [total, sumLeafBytes_eq, UInt64.zero_add]
  have resumes : limits.Resumes s (leafDigests H before) := by
    refine ⟨valid, by simpa using first.construction.count, ?_, by simpa using first.nodes⟩
    rw [bytes, ← UInt64.not_lt]
    exact ofNat_le first.construction.total
  obtain ⟨resumed, ran, stands, sum⟩ := resumeBuilder_stands known represents resumes
  obtain ⟨fresh, made, nothing⟩ := Stands.new (H := H) known valid
  obtain ⟨snapshot, snapped, whole, all⟩ := newSnapshot_represents H known valid within
  simp only [run_background]
  have fed : resumed.Fed H profile limits before := ⟨stands, sum.trans total⟩
  have word : (before ++ after).length < 2 ^ 63 := by rw [length_append]; omega
  rw [bytes] at ran
  refine ⟨resumed, fresh, snapshot, ran, made, snapped, ?_, ?_, ?_⟩
  · intro calls calls' rest all
    have left := fed.calls H valid calls (by rwa [rest])
    have right := nothing.calls H valid calls' (by rwa [all])
    rw [rest] at left
    rw [all] at right
    exact left.1.unique right.1 (left.2.trans right.2.symm)
  · intro calls rest
    have left := fed.calls H valid calls (by rwa [rest])
    rw [rest] at left
    obtain ⟨built, ran, same, bytes⟩ := left.1.snapshot known valid
    rw [ran, same.unique whole (by rw [bytes, left.2, all])]
  · rintro calls batch rest rfl
    have left := fed.calls H valid calls (by simp only [length_append] at word ⊢; omega)
    rw [← append_assoc, ← append_assoc] at within
    exact left.accepts known valid within.left

theorem resumed_builder_agrees_pair :
    ∃ s resumed snapshot, SnapshotOf pairHasher canonicalProfile [⟨[1]⟩] s ∧
      background.run (resumeBuilder pairHasher s 1 ⟨⟨8, 8, 64⟩, 15⟩) = .ok resumed ∧
      background.run
        (newSnapshot pairHasher canonicalProfile [⟨[1]⟩, ⟨[2]⟩] ⟨⟨8, 8, 64⟩, 15⟩) = .ok snapshot ∧
      ∀ calls, (runCalls (appendBatch pairHasher) resumed calls).2 = [⟨[2]⟩] →
        background.run
          ((runCalls (appendBatch pairHasher) resumed calls).1.snapshot pairHasher) =
            .ok snapshot := by
  have valid : SnapshotLimits.validate ⟨⟨8, 8, 64⟩, 15⟩ = .ok () := rfl
  have within : SnapshotLimits.Admits ⟨⟨8, 8, 64⟩, 15⟩ ([⟨[1]⟩] ++ [⟨[2]⟩]) :=
    ⟨⟨by decide, by decide, by decide⟩, by decide⟩
  obtain ⟨s, made, _⟩ := newSnapshot_represents pairHasher
    (show canonicalProfile.validate = .ok () from rfl) valid within.left
  have taken : SnapshotOf pairHasher canonicalProfile [⟨[1]⟩] s :=
    .new ((run_background _).trans made)
  obtain ⟨resumed, _, snapshot, ran, _, snapped, _, agrees, _⟩ :=
    resumed_builder_agrees pairHasher valid within taken
  exact ⟨s, resumed, snapshot, taken, ran, snapped, agrees⟩

end Resuming

end Golib.MerkleTree
