import Golib.MerkleTree.SnapshotCodec

/-! Builders resumed from a snapshot. The loop drops every node but the leaves and carries
them as a builder does, so a resumed builder stands for the leaf digests of its snapshot. -/
namespace Golib.MerkleTree

open HashTree List

variable {D : Type} {ds : List D}

section Rebuilding

variable (H : Hasher D) {n : Nat} {completed : UInt64}

theorem resumeMerge_merges : Merges (resumeMerge H) (NodeStack H []) := by
  intro ns a b as l r ts h
  obtain ⟨branch, merged⟩ := NodeStack.merged H h
  exact ⟨_, _, Polled.bind_ok.mpr ⟨_, branch, rfl⟩, merged⟩

theorem saturatedAdd_one (count : completed.toNat = n) (word : n + 1 < 2 ^ 64) :
    (saturatedAdd completed 1).toNat = n + 1 := by
  have one : (1 : UInt64).toNat = 1 := rfl
  rw [saturatedAdd, if_pos (by rw [one]; omega), toNat_add_of_lt (by rw [one]; omega), one, count]

theorem resumeNodes_forest {ts : List (HashTree.DigestTree D)} {input : List (SnapshotNode D)}
    (ls : input.filter (fun node => node.size == 1) =
      ds.map (fun d => ⟨d, 1, noSnapshotNode, noSnapshotNode⟩))
    (forest : Forest 0 n ts) (count : completed.toNat = n)
    (fits : 2 * (n + ds.length) ≤ 2 ^ 64) :
    ∃ ts', (resumeNodes H completed (stackLayout H ts) (stackIndexes H ts) input).outcome =
        .ok (stackLayout H ts', stackIndexes H ts') ∧
      Forest 0 (n + ds.length) ts' ∧ stackLeaves ts' = stackLeaves ts ++ ds := by
  induction input generalizing ds n ts completed with
  | nil =>
    have none : ds = [] := by simpa using ls.symm
    subst none
    exact ⟨ts, rfl, forest, by simp⟩
  | cons node rest ih =>
    by_cases leaf : node.size = 1
    · rw [filter_cons_of_pos (by simpa using leaf)] at ls
      cases ds with
      | nil => cases ls
      | cons d ds =>
        rw [map_cons, cons.injEq] at ls
        obtain ⟨rfl, ls⟩ := ls
        rw [length_cons] at fits
        have size := forest.length_leaves
        have next := saturatedAdd_one count (by omega)
        have start : NodeStack H [] (stackLayout H ts) (stackIndexes H ts) ts :=
          ⟨rfl, rfl, by omega⟩
        obtain ⟨nodes', stack', ts₁, carried, rel, forest₁, eq⟩ :=
          carry_forest Err.outOfRange (resumeMerge_merges H) (nodeStack_sameLength H []) forest
            (t := .leaf d) trivial next (NodeStack.pushed H start d (by omega))
        have array : nodes' = stackLayout H ts₁ := rel.nodes
        rw [array, rel.indexes] at carried
        obtain ⟨ts', ran, forest', all⟩ := ih ls forest₁ next (by omega)
        refine ⟨ts', ?_, ?_, ?_⟩
        · rw [resumeNodes, if_neg (not_not_intro rfl), Polled.poll_bind]
          exact Polled.bind_ok.mpr ⟨_, carried, ran⟩
        · rw [length_cons, Nat.add_comm ds.length 1, ← Nat.add_assoc]
          exact forest'
        · rw [all, eq]
          simp [stackLeaves, DigestTree.leaves]
    · rw [filter_cons_of_neg (by simpa using leaf)] at ls
      obtain ⟨ts', ran, forest', all⟩ := ih ls forest count fits
      refine ⟨ts', ?_, forest', all⟩
      rw [resumeNodes, if_pos leaf]
      exact ran

end Rebuilding

section Builders

variable {H : Hasher D} [DecidableEq D] {lim : SnapshotLimits} {s : Snapshot D} {pr : Profile}

/-- What a snapshot must meet for a builder to resume from it. -/
structure SnapshotLimits.Resumes (limits : SnapshotLimits) (s : Snapshot D) (digests : List D) :
    Prop where
  valid : limits.validate = .ok ()
  count : digests.length ≤ limits.construction.maxLeaves.toNat
  bytes : s.totalBytes ≤ limits.construction.maxTotalBytes
  retained : 2 * digests.length ≤ limits.maxRetainedNodes.toNat + 1

theorem resumeBuilder_stands (known : pr.validate = .ok ())
    (rep : s.Represents H pr ds) (resumes : lim.Resumes s ds) :
    ∃ b, (resumeBuilder H s s.totalBytes lim).outcome = .ok b ∧
      b.Stands H pr lim ds ∧ b.totalBytes = s.totalBytes := by
  have bound := lim.retained_lt resumes.valid
  have retained := resumes.retained
  have small : 2 * ds.length ≤ 2 ^ 64 := by omega
  have size : s.root.treeSize = UInt64.ofNat ds.length := by
    rw [rep.root]
    rfl
  have checked : (validateSnapshotStructure H s defaultMaxProofElements
    lim.maxRetainedNodes).outcome =
      .ok () := by
    apply validateSnapshotStructure_complete rep small (len64_le _)
    rw [rep.length_nodes]
    omega
  have few : ¬ s.root.treeSize > lim.construction.maxLeaves := by
    rw [size]
    exact ofNat_le resumes.count
  have enough : ¬ snapshotNodeCount s.root.treeSize > lim.maxRetainedNodes := by
    rw [size]
    exact (retained_fits small).mpr retained
  simp only [resumeBuilder, Polled.outcome_bind, Polled.outcome_lift, resumes.valid, Except.bind,
    rep.validate known small, Polled.outcome_failIf, ne_eq, not_true_eq_false, if_false,
    if_neg few, if_neg (UInt64.not_lt.mpr resumes.bytes), gt_iff_lt, if_neg enough,
      mapError_ok.mpr checked]
  by_cases zero : s.root.treeSize = 0
  · have none := (rep.treeSize_eq_zero small).mp zero
    rw [if_pos zero]
    refine ⟨_, rfl, ⟨rfl, rep.profile, rfl, ⟨[], ?_, none.symm, rfl, rfl⟩, size, resumes.count,
      fun _ => (rep.empty none).2.2, resumes.bytes, retained⟩, rfl⟩
    rw [none]
    exact .nil 0
  · obtain ⟨ts, ran, forest, eq⟩ := resumeNodes_forest H (rep.leafNodes small) (Forest.nil 0)
      (show (0 : UInt64).toNat = 0 from rfl) (by omega)
    rw [if_neg zero]
    rw [Nat.zero_add] at forest
    refine ⟨⟨true, s.profile, lim, stackLayout H ts, stackIndexes H ts, s.root.treeSize,
      s.totalBytes⟩, Polled.bind_ok.mpr ⟨_, ran, rfl⟩, ⟨rfl, rep.profile, rfl,
      ⟨ts, forest, eq, rfl, rfl⟩, size, resumes.count, ?_, resumes.bytes, retained⟩, rfl⟩
    intro none
    exact absurd ((rep.treeSize_eq_zero small).mpr none) zero

theorem resumeBuilder_run {expected : UInt64} {b : Builder D}
    {ctx : Context} (known : pr.validate = .ok ())
    (rep : s.Represents H pr ds) (small : 2 * ds.length ≤ 2 ^ 64)
    (resumed : ctx.run (resumeBuilder H s expected lim) = .ok b) :
    lim.validate = .ok () ∧ b.Stands H pr lim ds ∧ b.totalBytes = s.totalBytes := by
  have out := Context.run_ok resumed
  have checks := out
  have size : s.root.treeSize = UInt64.ofNat ds.length := by
    rw [rep.root]
    rfl
  simp only [resumeBuilder, Polled.bind_ok, Polled.outcome_lift, Polled.failIf_eq_ok, exists_const,
    not_not] at checks
  obtain ⟨_, valid, _, _, tot, few, bs, enough, _⟩ := checks
  rw [size, gt_iff_lt, UInt64.not_lt, UInt64.le_iff_toNat_le, toNat_ofNat_of_lt (by omega)] at few
  rw [size, retained_fits small] at enough
  obtain ⟨builder', again, stands⟩ := resumeBuilder_stands known rep
    ⟨valid, few, UInt64.not_lt.mp bs, enough⟩
  rw [tot] at again
  cases Except.ok.inj (again.symm.trans out)
  exact ⟨valid, stands⟩

end Builders

end Golib.MerkleTree
