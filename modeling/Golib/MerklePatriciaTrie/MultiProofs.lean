import Golib.MerklePatriciaTrie.SharedNodes

/-! Proofs for several keys: what the prover returns for the keys in any order, and that the
verifier accepts exactly that, with exactly the values of the trie. -/
namespace Golib.MerklePatriciaTrie

open Program Session List Nat Set Subtype

/-- The errors of a proof request that say nothing about the trie: those of a single request,
too many keys, or an endpoint that is too long. -/
def Err.Declines : Err → Prop
  | .invalidProofClaim _ => True
  | .invalidEndpoint => True
  | e => e.Refuses

variable {e : Err}

theorem Err.Refuses.declines (refuses : e.Refuses) : e.Declines := by
  cases e <;> trivial

variable {keys keys' : List Bytes} {contents : Bytes → Option Content} {p : Path} {snap : Snapshot}
  {claim : ProofClaim} {d : Nat} {w : Work}

section

variable (keccak : Bytes → Root) {t : Tree} {claims : List ProofClaim} {sec : Bool} {b : Bytes}
  {prev : Option Bytes} {paths : List Path} {h : Heap}

/-- The proof of several paths: the nodes of their single proofs, each at its first use. -/
def sharedProof (trie : Tree) (paths : List Path) : Proof :=
  firstUses [] (paths.flatMap (proofOf keccak trie))

def proofOfKeys (secure : Bool) (trie : Tree) (keys : List Bytes) : Proof :=
  sharedProof keccak trie ((copyAndSortProofKeys keys).map (pathOf keccak secure))

variable {H : Bytes → Root} {K : Set Bytes} {lim : Limits} {proof : Proof}

theorem sharedProof_nil (paths : List Path) : sharedProof H .nil paths = [] := by
  have none : ∀ paths : List Path, paths.flatMap (proofOf H .nil) = [] := by
    intro paths
    rw [flatMap_eq_nil_iff]
    exact fun p _ => proofOf_nil p
  rw [sharedProof, none]
  rfl

theorem mem_sharedProof : b ∈ sharedProof H t paths ↔ ∃ p ∈ paths, b ∈ proofOf H t p := by
  rw [sharedProof, mem_firstUses, mem_flatMap]
  simp

theorem mem_shown (stored : t ≠ .nil → Stored H K t) (mem : b ∈ shown H t) :
    ∃ s, Stored H K s ∧ b = treeBytes H s := by
  unfold shown at mem
  split at mem
  · cases mem
  · rename_i large
    have large : rootBytes ≤ (treeBytes H t).length := by omega
    exact ⟨t, stored (ne_nil_of_large large), mem_singleton.mp mem⟩

theorem exists_stored_of_shown (stored : Stored H K t) (mem : b ∈ proofBelow H t p) :
    ∃ s, Stored H K s ∧ b = treeBytes H s := by
  induction t generalizing p with
  | nil | leaf => cases mem
  | ext extensionPath c ih =>
    rw [proofBelow] at mem
    split at mem
    · rcases mem_append.mp mem with top | deeper
      · exact mem_shown (fun _ => stored.below) top
      · exact ih stored.below deeper
    · cases mem
  | branch kids v ih =>
    cases p with
    | nil => cases mem
    | cons i rest =>
      rcases mem_append.mp mem with top | deeper
      · exact mem_shown stored.child top
      · by_cases vacant : kids i = .nil
        · rw [vacant] at deeper
          cases deeper
        · exact ih i (stored.child vacant) deeper

theorem exists_stored_of_mem (stored : t ≠ .nil → Stored H K t)
    (mem : b ∈ sharedProof H t paths) : ∃ s, Stored H K s ∧ b = treeBytes H s := by
  by_cases none : t = .nil
  · rw [none, sharedProof_nil] at mem
    cases mem
  · obtain ⟨p, -, sub⟩ := mem_sharedProof.mp mem
    rw [proofOf_proper none] at sub
    rcases mem_cons.mp sub with rfl | below
    · exact ⟨t, stored none, rfl⟩
    · exact exists_stored_of_shown (stored none) below

/-! ### Generation -/

section

variable {env : Env} (sound : env.Sound H K) (inj : InjOn H K) {lim : Limits} {start : Work}
  {root : Node} {extra nl : Nat} {builder : MultiProofBuilder} {touched : List Bytes} {t : Tree}

include sound inj

theorem addPathLoop_ends (gathering : Gathering H K env.ctx start root extra touched builder w)
    (st : t ≠ .nil → Stored H K t) (found : ∀ b ∈ hashedBelow H t, (env.find (H b)).isSome) :
    Ends (addPathLoop H env lim nl (freeze H t) p d builder) w
      (fun r work' => Gathering H K env.ctx start root extra
        (touched ++ proofBelow H t p) r.1 work' ∧ nl ≤ r.2 + p.length + 1)
      (fun e => e.Interrupts ∧ ¬ (Room env.ctx lim start extra
          (touched ++ proofBelow H t p) ∧
        d + p.length ≤ env.maxDepth ∧ p.length < nl)) := by
  have vacant : (freeze H t).isNil = t.isNil := (rep_freeze st).1.isNil_eq
  induction nl generalizing t p d touched builder w with
  | zero =>
    unfold addPathLoop
    rw [vacant]
    split
    · rename_i none
      obtain rfl := Radix.isNil_eq_true.mp none
      exact ends_pure ⟨by simpa [proofBelow] using gathering, by omega⟩
    · exact (visitNone_ends env w _).weaken
        (fun e stop => ⟨stop, by omega⟩)
  | succ nl ih =>
    unfold addPathLoop
    rw [vacant]
    split
    · rename_i none
      obtain rfl := Radix.isNil_eq_true.mp none
      exact ends_pure ⟨by simpa [proofBelow] using gathering, by omega⟩
    rename_i occupied
    have st := st fun none => occupied (Radix.isNil_eq_true.mpr none)
    refine ((visit_live env d w).unless fun enough => ⟨enough.1.live, by omega⟩).bind ?_
    rintro _ _ ⟨polls, rfl⟩
    have gathering : Gathering H K env.ctx start root extra touched builder
        { w with polls } := { gathering with }
    cases t with
    | nil => exact absurd rfl occupied
    | leaf leafPath v =>
      exact ends_pure ⟨by simpa [proofBelow] using gathering, by dsimp only; omega⟩
    | ext extensionPath c =>
      have proper := st.proper
      have shorter : 0 < extensionPath.length := length_pos_iff.mpr proper.1
      rw [freeze]
      dsimp only
      split
      · rename_i shared
        have room := shared.length_le
        rw [proofBelow_ext c shared, ← append_assoc]
        refine Ends.bind ((buildExtensionChild_ends sound inj gathering st.below proper.2.1
          (fun b mem => found b (Multiset.mem_add.mpr (Or.inl mem)))).unless fun enough =>
            enough.1.mono le_rfl (prefix_append _ _)) ?_
        rintro ⟨n, builder'⟩ work' ⟨rfl, gathering'⟩
        refine (ih gathering' (fun _ => st.below)
          (fun b mem => found b (Multiset.mem_add.mpr (Or.inr mem)))
          (rep_freeze fun _ => st.below).1.isNil_eq).mono ?_ ?_
        · rintro ⟨builder'', left⟩ work'' ⟨gathering'', visited⟩
          rw [length_drop] at visited
          refine ⟨gathering'', ?_⟩
          omega
        · rintro e ⟨stop, lacking⟩
          refine ⟨stop, fun enough => lacking ⟨enough.1, ?_⟩⟩
          rw [length_drop]
          omega
      · rename_i apart
        have below : proofBelow H (.ext extensionPath c) p = [] := if_neg apart
        rw [below, append_nil]
        exact ends_pure ⟨gathering, by dsimp only; omega⟩
    | branch kids v =>
      cases p with
      | nil =>
        rw [proofBelow, append_nil]
        exact ends_pure ⟨gathering, by dsimp only; omega⟩
      | cons i rest =>
        have here : ∀ b, b ∈ entry H (kids i) + hashedBelow H (kids i) →
            (env.find (H b)).isSome := fun b mem =>
          found b (Multiset.mem_sum.mpr ⟨i, Finset.mem_univ i, mem⟩)
        rw [proofBelow, ← append_assoc]
        refine Ends.bind ((branchChild_ends sound inj gathering st.child
          (fun b mem => here b (Multiset.mem_add.mpr (Or.inl mem)))).unless fun enough =>
            enough.1.mono le_rfl (prefix_append _ _)) ?_
        rintro ⟨n, builder'⟩ work' ⟨rfl, gathering'⟩
        refine (ih gathering' st.child
          (fun b mem => here b (Multiset.mem_add.mpr (Or.inr mem)))
          (rep_freeze st.child).1.isNil_eq).mono ?_ ?_
        · rintro ⟨builder'', left⟩ work'' ⟨gathering'', visited⟩
          refine ⟨gathering'', ?_⟩
          rw [length_cons]
          omega
        · rintro e ⟨stop, lacking⟩
          refine ⟨stop, fun enough => lacking ⟨enough.1, ?_⟩⟩
          rw [length_cons] at enough
          omega

theorem addPaths_ends {nodesLeft : Nat}
    (gathering : Gathering H K env.ctx start (freeze H t) extra touched builder w)
    (stored : t ≠ .nil → Stored H K t) (begun : t ≠ .nil → treeBytes H t ∈ touched)
    (found : ∀ b ∈ hashedBelow H t, (env.find (H b)).isSome) :
    Ends (addPaths H env lim sec keys builder nodesLeft) w
      (fun builder' _ => builder'.nodes = firstUses []
        (touched ++ (keys.map (pathOf H sec)).flatMap (proofOf H t)))
      (fun e => e.Interrupts ∧ ¬ (Room env.ctx lim start (extra + keys.length * sec.toNat)
          (touched ++ (keys.map (pathOf H sec)).flatMap (proofOf H t)) ∧
        (∀ key ∈ keys, (pathOf H sec key).length ≤ env.maxDepth) ∧
        (keys.map fun key => (pathOf H sec key).length + 1).sum ≤ nodesLeft)) := by
  induction keys generalizing extra nodesLeft touched builder w with
  | nil =>
    rw [map_nil, flatMap_nil, append_nil]
    exact ends_pure gathering.gathers.nodes
  | cons key keys ih =>
    have total : extra + (key :: keys).length * sec.toNat =
        extra + sec.toNat + keys.length * sec.toNat := by
      rw [length_cons, succ_mul]
      omega
    rw [map_cons, flatMap_cons, map_cons, sum_cons, total, proofOf, ← append_assoc, ← append_assoc]
    unfold addPaths
    refine ((keyPath_ends key sec w).weaken ?_).bind ?_
    · rintro e ⟨stop, spent⟩
      refine ⟨stop, fun enough => ?_⟩
      -- the nodes so far are among those of the whole proof
      have room := enough.1.mono (le_add_right _ _)
        (((prefix_append touched _).trans (prefix_append _ _)).trans
          (prefix_append _ _))
      have hashes := room.hashes
      have paid := gathering.hashes room.live
      rw [← gathering.gathers.nodes] at hashes
      omega
    rintro p work₁ ⟨rfl, -, reads, spent⟩
    have paid : Gathering H K env.ctx start (freeze H t) (extra + sec.toNat) touched
        builder work₁ := by
      refine ⟨gathering.gathers, gathering.pending, gathering.root, fun live => ?_, fun live => ?_⟩
      · have := gathering.hashes live
        omega
      · rw [reads]
        exact gathering.reads live
    have again : Gathering H K env.ctx start (freeze H t) (extra + sec.toNat)
        (touched ++ showAt H true t) builder work₁ := by
      by_cases none : t = .nil
      · rwa [none, showAt_nil, append_nil, ← none]
      · rw [showAt_top none]
        exact paid.again (begun none)
    rw [gathering.root]
    refine Ends.bind ((addPathLoop_ends sound inj again stored found).unless fun enough =>
      ⟨enough.1.mono (le_add_right _ _) (prefix_append _ _), ?_, by omega⟩) ?_
    · have := enough.2.1 key mem_cons_self
      omega
    rintro ⟨builder', left⟩ work₂ ⟨gathering', visited⟩
    refine (ih gathering' fun some => mem_append_left _ (mem_append_left _
      (begun some))).unless fun enough => ⟨enough.1, fun key' mem => ?_, by omega⟩
    exact enough.2.1 key' (mem_cons_of_mem _ mem)

end

/-! ### Sorting -/

theorem copyAndSortProofKeys_perm (keys : List Bytes) : (copyAndSortProofKeys keys).Perm keys :=
  perm_insertionSort _ _

theorem copyAndSortProofKeys_sorted (keys : List Bytes) :
    (copyAndSortProofKeys keys).Pairwise (· ≤ ·) := by
  exact pairwise_insertionSort _ _

theorem eq_of_sorted (sorted : keys.Pairwise (· ≤ ·)) (sorted' : keys'.Pairwise (· ≤ ·))
    (eq : keys.Perm keys') : keys = keys' :=
  eq.eq_of_pairwise (fun _ _ _ _ => List.le_antisymm) sorted sorted'

theorem copyAndSortProofKeys_congr (eq : keys.Perm keys') :
    copyAndSortProofKeys keys = copyAndSortProofKeys keys' :=
  eq_of_sorted (copyAndSortProofKeys_sorted keys) (copyAndSortProofKeys_sorted keys')
    ((copyAndSortProofKeys_perm keys).trans (eq.trans (copyAndSortProofKeys_perm keys').symm))

theorem sortClaims_perm (claims : List ProofClaim) : (sortClaims claims).Perm claims :=
  perm_insertionSort _ _

theorem map_key_sortClaims (claims : List ProofClaim) :
    (sortClaims claims).map ProofClaim.key = copyAndSortProofKeys (claims.map ProofClaim.key) := by
  have sorted : (sortClaims claims).Pairwise (fun left right => left.key ≤ right.key) := by
    exact pairwise_insertionSort _ _
  exact eq_of_sorted (pairwise_map.mpr sorted) (copyAndSortProofKeys_sorted _)
    (((sortClaims_perm claims).map _).trans (copyAndSortProofKeys_perm _).symm)

/-! ### The generated proof -/

theorem checkProofClaims_error (valid : ∀ claim ∈ claims, claim.valid = true)
    (filled : ∀ claim ∈ claims, claim.present = true → claim.value ≠ [])
    (nodup : (claims.map ProofClaim.key).Nodup)
    (apart : ∀ key ∈ prev, key ∉ claims.map ProofClaim.key)
    (refused : checkProofClaims lim prev claims = .error e) :
    e.Refuses ∧ ¬ ∀ claim ∈ claims, claim.key.length ≤ lim.maxKeyBytes ∧
      (claim.present = true → claim.value.length ≤ lim.maxValueBytes) := by
  induction claims generalizing prev with
  | nil => cases refused
  | cons claim claims ih =>
    rw [checkProofClaims] at refused
    split at refused
    · rename_i invalid
      exact absurd (valid claim mem_cons_self) invalid
    split at refused
    · rename_i long
      cases refused
      refine ⟨trivial, fun short => ?_⟩
      have := (short claim mem_cons_self).1
      omega
    split at refused
    · rename_i unfit
      cases refused
      refine ⟨trivial, fun short => ?_⟩
      have small := (short claim mem_cons_self).2 unfit.1
      have some := filled claim mem_cons_self unfit.1
      rcases unfit.2 with none | large
      · exact some (eq_nil_of_length_eq_zero none)
      · omega
    split at refused
    · rename_i again
      exact absurd mem_cons_self (apart claim.key (by rw [again]; rfl))
    · obtain ⟨fresh, rest⟩ := nodup_cons.mp nodup
      have apart' : ∀ key ∈ some claim.key, key ∉ claims.map ProofClaim.key := by
        intro key eq
        rwa [← Option.some.inj eq]
      obtain ⟨refuses, long⟩ := ih (forall_mem_cons.mp valid).2
        (forall_mem_cons.mp filled).2 rest apart' refused
      exact ⟨refuses, fun short => long (forall_mem_cons.mp short).2⟩

theorem checkProofClaims_absences (lim : Limits) (prev : Option Bytes) (keys : List Bytes) :
    checkProofClaims lim prev (keys.map absenceClaim) = checkProofKeys lim prev keys := by
  induction keys generalizing prev with
  | nil => rfl
  | cons key keys ih =>
    rw [checkProofKeys, ← ih]
    simp [checkProofClaims, absenceClaim]

theorem checkProofKeys_error (nodup : keys.Nodup)
    (refused : checkProofKeys lim none keys = .error e) :
    e.Refuses ∧ ¬ ∀ key ∈ keys, key.length ≤ lim.maxKeyBytes := by
  rw [← checkProofClaims_absences] at refused
  have keyed : (keys.map absenceClaim).map ProofClaim.key = keys := by
    rw [map_map]
    exact map_id keys
  obtain ⟨refuses, long⟩ := checkProofClaims_error (by simp [absenceClaim]) (by simp [absenceClaim])
    (by rwa [keyed]) (by simp) refused
  exact ⟨refuses, fun short => long (by simpa [absenceClaim] using short)⟩

/-- The limits of a snapshot that do not stand in the way of a proof for the keys. -/
structure Snapshot.AllowsMany (keccak : Bytes → Root)
    (ctx : Context) (snapshot : Snapshot) (secure : Bool)
    (keys : List Bytes) (proof : Proof) : Prop where
  live : ctx.Live
  count : keys.length ≤ snapshot.limits.maxProofKeys
  short : ∀ key ∈ keys, key.length ≤ snapshot.limits.maxKeyBytes
  depth : ∀ key ∈ keys, (pathOf keccak secure key).length ≤ snapshot.limits.maxTraversalDepth
  visits : (keys.map fun key => (pathOf keccak secure key).length + 1).sum ≤
    snapshot.limits.maxTraversalNodes
  nodes : proof.length ≤ snapshot.limits.maxProofNodes
  bytes : (proof.map length).sum ≤ snapshot.limits.maxProofBytes
  hashes : proof.length + keys.length * secure.toNat ≤ snapshot.limits.maxHashOperations
  reads : proof.length ≤ snapshot.limits.maxNodeReads
  encoding : snapshot.root.visits ≤ snapshot.limits.maxEncodingNodes

theorem firstUses_begun {rest : List Bytes} (front : rest.head? = some b) :
    firstUses [] ([b] ++ rest) = firstUses [] rest := by
  cases rest with
  | nil => cases front
  | cons c rest =>
    cases front
    rw [singleton_append, firstUses_cons_new (by simp), firstUses_cons_seen (by simp),
      firstUses_cons_new (by simp)]

theorem proveMany_ends (inj : InjOn H K) (holds : snap.Holds H K h t)
    (found : ∀ b ∈ kept H snap.root t, (snap.find h (H b)).isSome)
    (some : keys ≠ []) (nodup : keys.Nodup) (ctx : Context) :
    Ends (snap.proveMany H h ctx keys sec) snap.limits.work
      (fun proof _ => proof = proofOfKeys H sec t keys)
      (fun e => e.Declines ∧ ¬ snap.AllowsMany H ctx sec keys (proofOfKeys H sec t keys)) := by
  have eq := copyAndSortProofKeys_perm keys
  unfold Snapshot.proveMany
  refine ((checkContext_live ctx _).weaken (fun e stop =>
    ⟨stop.1.refuses.declines, fun allows => stop.2 allows.live⟩)).bind ?_
  rintro _ _ ⟨polls, rfl⟩
  refine ends_guard (fun counted => ⟨trivial, fun allows => ?_⟩) fun _ => ?_
  · rcases counted with none | many
    · exact some (eq_nil_of_length_eq_zero none)
    · have := allows.count
      omega
  refine ends_check (fun e refused => ?_) fun _ _ => ?_
  · obtain ⟨refuses, long⟩ := checkProofKeys_error (eq.nodup_iff.mpr nodup) refused
    exact ⟨refuses.declines, fun allows => long fun key mem =>
      allows.short key (eq.mem_iff.mp mem)⟩
  have begun : firstUses [] (showAt H true t ++
      ((copyAndSortProofKeys keys).map (pathOf H sec)).flatMap (proofOf H t)) =
      proofOfKeys H sec t keys := by
    by_cases none : t = .nil
    · rw [none, showAt_nil]
      rfl
    rw [showAt_top none]
    apply firstUses_begun
    cases sorted : copyAndSortProofKeys keys with
    | nil =>
      rw [sorted] at eq
      exact absurd eq.symm.eq_nil some
    | cons key rest =>
      rw [map_cons, flatMap_cons, proofOf_proper none]
      rfl
  have spacious : ∀ allows : snap.AllowsMany H ctx sec keys
      (proofOfKeys H sec t keys),
      Room ctx snap.limits { snap.limits.work with polls }
        (0 + (copyAndSortProofKeys keys).length * sec.toNat) (showAt H true t ++
          ((copyAndSortProofKeys keys).map (pathOf H sec)).flatMap (proofOf H t)) := by
    intro allows
    refine ⟨allows.live, ?_, ?_, ?_, ?_⟩ <;> rw [begun]
    · exact allows.nodes
    · exact allows.bytes
    · rw [zero_add, eq.length_eq]
      exact allows.hashes
    · exact allows.reads
  refine Ends.bind ((prepareRoot_ends inj holds found _).weaken ?_) ?_
  · rintro e ⟨stop, lacking⟩
    refine ⟨stop.refuses.declines, fun allows => lacking ⟨?_, allows.encoding⟩⟩
    exact (spacious allows).mono (zero_le _) (prefix_append _ _)
  intro builder work₁ gathering
  refine Ends.bind ((addPaths_ends (holds.proofEnv_sound ctx) inj gathering holds.stored
    (fun some => by simp [showAt_top some]) (holds.find_below found)).weaken ?_) ?_
  · rintro e ⟨stop, lacking⟩
    refine ⟨stop.refuses.declines, fun allows => lacking ⟨spacious allows, ?_, ?_⟩⟩
    · exact fun key mem => allows.depth key (eq.mem_iff.mp mem)
    · rw [(eq.map _).sum_eq]
      exact allows.visits
  · intro builder' work₂ shown
    rw [begun] at shown
    exact ends_pure shown

/-! ### Verification -/

/-- The claim states what was found under its key. -/
def ProofClaim.Tells (claim : ProofClaim) : Option Bytes → Prop
  | some value => claim.present = true ∧ claim.value = value
  | none => claim.present = false

theorem finishMultiClaim_ok {present : Bool} {v : Bytes} :
    finishMultiClaim present v claim = .ok () ↔ claim.Tells (if present then some v else none) := by
  unfold finishMultiClaim
  cases present <;> cases shape : claim.present <;> simp [ProofClaim.Tells, shape, eq_comm]

section

variable (inj : InjOn H K) {ctx : Context} {lim : Limits} {proof : Proof}
  {lookup : MultiProofLookup} (sub : ∀ b ∈ proof, b ∈ K) (js : Indexes H proof lookup)
  {touched : List Bytes} {c : Cursor} {t : Tree}

include inj sub js

theorem multiClaimLoop_ends {cursor : Cursor}
    {nl : Nat} (consumes : Consumes H K proof touched cursor)
    (st : Stored H K t) (w : Work) :
    Ends (multiClaimLoop ctx lim lookup claim nl (freeze H t) p d cursor) w
      (fun cursor' work' => work'.hashesLeft = w.hashesLeft ∧
        Consumes H K proof (touched ++ proofBelow H t p) cursor' ∧
        claim.Tells ((t.lookup p).map val))
      (fun e => firstUses [] (touched ++ proofBelow H t p) <+: proof ∧
        claim.Tells ((t.lookup p).map val) →
        e.Interrupts ∧ ¬ (ctx.Live ∧ d + p.length ≤ lim.maxTraversalDepth ∧ p.length < nl)) := by
  induction nl generalizing t p d cursor touched w with
  | zero =>
    refine ((checkContext_live ctx w).weaken
      (fun e stop _ => ⟨stop.1, by omega⟩)).bind fun _ work₁ _ => ?_
    exact ends_fail fun _ => ⟨trivial, by omega⟩
  | succ nl ih =>
    unfold multiClaimLoop
    refine ((checkContext_live ctx w).weaken
      (fun e stop _ => ⟨stop.1, fun enough => stop.2 enough.1⟩)).bind ?_
    rintro _ _ ⟨polls, rfl⟩
    refine ends_guard (fun deep _ => ⟨trivial, by omega⟩) fun _ => ?_
    -- a claim that ends here
    have finish : ∀ (present : Bool) (v : Bytes), proofBelow H t p = [] →
        (t.lookup p).map val = (if present then some v else none) →
        Ends (lift (finishMultiClaim present v claim) >>= fun _ => pure cursor)
          { w with polls }
          (fun cursor' work' => work'.hashesLeft = w.hashesLeft ∧
            Consumes H K proof (touched ++ proofBelow H t p) cursor' ∧
            claim.Tells ((t.lookup p).map val))
          (fun e => firstUses [] (touched ++ proofBelow H t p) <+: proof ∧
            claim.Tells ((t.lookup p).map val) →
            e.Interrupts ∧ ¬ (ctx.Live ∧ d + p.length ≤ lim.maxTraversalDepth ∧
              p.length < nl + 1)) := by
      intro present v last holds
      rw [last, append_nil, holds]
      apply ends_bind
      refine ends_lift (fun _ accepted => ?_) fun e refused told => ?_
      · exact ends_pure ⟨rfl, consumes, finishMultiClaim_ok.mp accepted⟩
      · rw [finishMultiClaim_ok.mpr told.2] at refused
        cases refused
    cases t with
    | nil => exact absurd st.proper id
    | leaf leafPath v =>
      refine finish (leafPath = p) v.val rfl ?_
      rw [Radix.lookup_leaf]
      by_cases eq : leafPath = p
      · simp [eq]
      · simp [eq]
    | ext extensionPath c =>
      have proper := st.proper
      rw [freeze]
      dsimp only
      split
      · rename_i shared
        have shorter : 0 < extensionPath.length := length_pos_iff.mpr proper.1
        have room := shared.length_le
        rw [proofBelow_ext c shared, Radix.lookup, if_pos shared, ← append_assoc]
        refine Ends.bind ((lookupExtensionChild_ends inj sub js consumes st.below
          proper.2.1 _).weaken (fun e apart shown => absurd ?_ apart)) ?_
        · exact (firstUses_isFront (prefix_append _ _)).trans shown.1
        rintro ⟨n, cursor'⟩ _ ⟨rfl, rfl, consumes'⟩
        refine (ih consumes' st.below _).given id (fun _ h => h) fun _ enough =>
          ⟨enough.1, ?_, ?_⟩ <;> rw [length_drop]
        · omega
        · omega
      · rename_i apart
        refine finish false [] (if_neg apart) ?_
        rw [Radix.lookup_ext_of_not _ apart]
        rfl
    | branch kids v =>
      rw [freeze]
      cases p with
      | nil =>
        refine finish ((contentBytes v).length ≠ 0) (contentBytes v) rfl ?_
        cases v with
        | none => rfl
        | some content =>
          have some : (contentBytes (some content)).length ≠ 0 :=
            fun none => content.property (eq_nil_of_length_eq_zero none)
          rw [if_pos (by simpa using some)]
          rfl
      | cons i rest =>
        dsimp only
        split
        · rename_i none
          rw [isNil_link, Radix.isNil_eq_true] at none
          refine finish false [] ?_ ?_
          · rw [proofBelow, none, shown_nil]
            rfl
          · rw [Radix.lookup_branch_cons, none]
            rfl
        · rename_i some
          rw [isNil_link, Radix.isNil_eq_true] at some
          rw [proofBelow, ← append_assoc, Radix.lookup_branch_cons]
          refine Ends.bind ((lookupBranchChild_ends inj sub js consumes st.child
            _).weaken (fun e apart shown => absurd ?_ apart)) ?_
          · exact (firstUses_isFront (prefix_append _ _)).trans shown.1
          rintro ⟨n, cursor'⟩ _ ⟨rfl, rfl, consumes'⟩
          refine (ih consumes' (st.child some) _).given id (fun _ h => h) fun _ enough => ?_
          rw [length_cons] at enough
          exact ⟨enough.1, by omega, by omega⟩

def Told (keccak : Bytes → Root) (secure : Bool) (trie : Tree) (claims : List ProofClaim) : Prop :=
  ∀ claim ∈ claims, claim.Tells ((trie.lookup (pathOf keccak secure claim.key)).map val)

/-- Enough to follow the path of the claim's key. -/
structure Follows (keccak : Bytes → Root) (ctx : Context) (limits : Limits)
    (secure : Bool) (claim : ProofClaim) : Prop where
  live : ctx.Live
  depth : (pathOf keccak secure claim.key).length ≤ limits.maxTraversalDepth
  visits : (pathOf keccak secure claim.key).length < limits.maxTraversalNodes

theorem verifyMultiClaims_ends (stored : Stored H K t)
    (consumes : Consumes H K proof touched c) (w : Work) :
    Ends (verifyMultiClaims H ctx lim (H (treeBytes H t)) lookup sec claims
        c) w
      (fun cursor' _ => Consumes H K proof (touched ++ (claims.map fun claim =>
          pathOf H sec claim.key).flatMap (proofOf H t)) cursor' ∧
        Told H sec t claims)
      (fun e => firstUses [] (touched ++ (claims.map fun claim =>
          pathOf H sec claim.key).flatMap (proofOf H t)) <+: proof ∧
        Told H sec t claims →
        e.Interrupts ∧ ¬ ((∀ claim ∈ claims, Follows H ctx lim sec claim) ∧
          claims.length * sec.toNat ≤ w.hashesLeft)) := by
  induction claims generalizing c touched w with
  | nil =>
    rw [map_nil, flatMap_nil, append_nil]
    exact ends_pure ⟨consumes, by simp [Told]⟩
  | cons claim claims ih =>
    have total : (claim :: claims).length * sec.toNat = claims.length * sec.toNat + sec.toNat := by
      rw [length_cons, succ_mul]
    rw [map_cons, flatMap_cons, proofOf_proper stored.proper.ne_nil, ← append_assoc, total]
    have step : touched ++ (treeBytes H t :: proofBelow H t
        (pathOf H sec claim.key)) = touched ++ [treeBytes H t] ++
          proofBelow H t (pathOf H sec claim.key) := by simp
    rw [step]
    unfold verifyMultiClaims verifyMultiClaim
    rw [bind_assoc]
    refine Ends.bind ((resolve_consumes inj sub js consumes stored (Or.inl rfl)
      w).weaken (fun e apart shown => absurd ?_ apart)) ?_
    · exact (firstUses_isFront ((prefix_append _ _).trans (prefix_append _ _))).trans
        shown.1
    rintro ⟨n, cursor'⟩ work₀ ⟨rfl, rfl, consumes'⟩
    rw [bind_assoc]
    refine ((keyPath_ends claim.key sec work₀).weaken
      (fun e stop _ => ⟨stop.1, by omega⟩)).bind ?_
    rintro p work₁ ⟨rfl, -, -, spent⟩
    refine Ends.bind ((multiClaimLoop_ends inj sub js consumes' stored work₁).given
      (fun shown => ⟨(firstUses_isFront (prefix_append _ _)).trans shown.1,
        shown.2 claim mem_cons_self⟩) (fun _ h => h) fun _ enough => ?_) ?_
    · have follows := enough.1 claim mem_cons_self
      exact ⟨follows.live, by rw [zero_add]; exact follows.depth, follows.visits⟩
    · rintro cursor'' work₂ ⟨kept, consumes'', told⟩
      refine Ends.mono ((ih consumes'' work₂).given
        (fun shown => ⟨shown.1, (forall_mem_cons.mp shown.2).2⟩) (fun _ h => h)
        fun _ enough => ⟨(forall_mem_cons.mp enough.1).2, by omega⟩) ?_ (fun _ h => h)
      rintro last work₃ ⟨consumed, others⟩
      exact ⟨consumed, forall_mem_cons.mpr ⟨told, others⟩⟩

end

/-- The limits of a verifier that do not stand in the way of the claims. -/
structure AllowsClaims (keccak : Bytes → Root)
    (ctx : Context) (limits : Limits) (secure : Bool) (claims : List ProofClaim)
    (proof : Proof) : Prop where
  valid : validateTrieLimits limits = .ok ()
  live : ctx.Live
  count : claims.length ≤ limits.maxProofKeys
  nodes : proof.length ≤ limits.maxProofNodes
  bytes : (proof.map length).sum ≤ limits.maxProofBytes
  short : ∀ claim ∈ claims, claim.key.length ≤ limits.maxKeyBytes ∧
    (claim.present = true → claim.value.length ≤ limits.maxValueBytes)
  depth : ∀ claim ∈ claims, (pathOf keccak secure claim.key).length ≤ limits.maxTraversalDepth
  visits : ∀ claim ∈ claims, (pathOf keccak secure claim.key).length < limits.maxTraversalNodes
  hashes : proof.length + claims.length * secure.toNat ≤ limits.maxHashOperations

/-- The claims are well formed and state what the trie holds. -/
structure Claimed (keccak : Bytes → Root)
    (secure : Bool) (trie : Tree) (claims : List ProofClaim) : Prop where
  some : claims ≠ []
  valid : ∀ claim ∈ claims, claim.valid = true
  nodup : (claims.map ProofClaim.key).Nodup
  told : ∀ claim ∈ claims, claim.Tells ((trie.lookup (pathOf keccak secure claim.key)).map val)

/-- The verifier accepts exactly the proof of the paths, with claims that state what the trie
holds. -/
theorem verifyMultiProof_ends {ctx : Context} (inj : InjOn H K) (empty : H [0x80] = emptyRoot)
    (reserved : [0x80] ∈ K) (stored : t ≠ .nil → Stored H K t) (sub : ∀ b ∈ proof, b ∈ K) :
    Ends (verifyMultiProof H ctx (rootHash H t) claims proof lim sec) lim.work
      (fun _ _ => proof = proofOfKeys H sec t (claims.map ProofClaim.key) ∧ Told H sec t claims)
      (fun e => proof = proofOfKeys H sec t (claims.map ProofClaim.key) ∧
        Claimed H sec t claims →
        e.Declines ∧ ¬ AllowsClaims H ctx lim sec claims proof) := by
  have eq := sortClaims_perm claims
  have forall_sorted : ∀ {P : ProofClaim → Prop},
      (∀ claim ∈ sortClaims claims, P claim) ↔ ∀ claim ∈ claims, P claim := by
    intro P
    constructor
    · exact fun all claim mem => all claim (eq.mem_iff.mpr mem)
    · exact fun all claim mem => all claim (eq.mem_iff.mp mem)
  unfold proofOfKeys
  rw [← map_key_sortClaims, map_map]
  unfold verifyMultiProof
  refine ends_check (fun e invalid _ => ?_) fun _ _ => ?_
  · obtain ⟨stop, wrong⟩ := validateTrieLimits_error invalid
    exact ⟨stop.refuses.declines, fun allows => wrong allows.valid⟩
  refine ((checkContext_live ctx _).weaken (fun e stop _ =>
    ⟨stop.1.refuses.declines, fun allows => stop.2 allows.live⟩)).bind ?_
  rintro _ _ ⟨polls, rfl⟩
  refine ends_guard (fun counted ⟨_, claimed⟩ => ⟨trivial, fun allows => ?_⟩) fun _ => ?_
  · rcases counted with none | many
    · exact claimed.some (eq_nil_of_length_eq_zero none)
    · have := allows.count
      omega
  refine ends_check (fun e beyond _ => ?_) fun _ _ => ?_
  · obtain ⟨stop, large⟩ := validateProofLimits_error beyond
    exact ⟨stop.refuses.declines, fun allows => large ⟨allows.nodes, allows.bytes⟩⟩
  refine ends_check (fun e refused ⟨_, claimed⟩ => ?_) fun _ _ => ?_
  · have filled : ∀ claim ∈ claims, claim.present = true → claim.value ≠ [] := by
      intro claim mem present
      have told := claimed.told claim mem
      cases held : t.lookup (pathOf H sec claim.key) with
      | none =>
        rw [held] at told
        exact absurd (present.symm.trans told) (by simp)
      | some content =>
        rw [held] at told
        rw [told.2]
        exact content.property
    obtain ⟨refuses, long⟩ := checkProofClaims_error (forall_sorted.mpr claimed.valid)
      (forall_sorted.mpr filled) ((eq.map _).nodup_iff.mpr claimed.nodup) (by simp) refused
    exact ⟨refuses.declines, fun allows => long (forall_sorted.mpr allows.short)⟩
  refine ends_underRoot inj empty reserved stored (fun none ⟨shown, claimed⟩ => ?_)
    (fun none consumed absent => ?_) (fun none ⟨shown, claimed⟩ => ?_) fun none stored => ?_
  · rw [none, sharedProof_nil] at shown
    refine ⟨shown, fun present => ?_⟩
    obtain ⟨claim, mem, present⟩ := any_eq_true.mp present
    have told := claimed.told claim (eq.mem_iff.mp mem)
    rw [none] at told
    exact absurd (present.symm.trans told) (by simp)
  · rw [none, sharedProof_nil]
    refine ⟨consumed, forall_sorted.mp fun claim mem => ?_⟩
    exact (Bool.eq_false_of_not_eq_true fun present =>
      absent (any_eq_true.mpr ⟨claim, mem, present⟩) : claim.present = false)
  · obtain ⟨claim, mem⟩ := exists_mem_of_ne_nil _ claimed.some
    rw [shown]
    refine ne_nil_of_mem (a := treeBytes H t) (mem_sharedProof.mpr
      ⟨pathOf H sec claim.key, mem_map.mpr ⟨claim, eq.mem_iff.mpr mem, rfl⟩, ?_⟩)
    rw [proofOf_proper none]
    exact mem_cons_self
  refine Ends.bind ((newMultiProofLookup_indexes inj sub _).weaken ?_) ?_
  · rintro e stop ⟨shown, -⟩
    have once : ShowsOnce H K proof := by
      rw [shown]
      exact ⟨firstUses_nodup _ _, fun b mem => exists_stored_of_mem (fun _ => stored) mem⟩
    obtain ⟨interrupts, lacking⟩ := stop once
    refine ⟨interrupts.refuses.declines, fun allows => lacking ⟨allows.live, ?_⟩⟩
    exact le_trans (le_add_right _ _) allows.hashes
  rintro lookup work₁ ⟨js, spent⟩
  have spent : lim.maxHashOperations = work₁.hashesLeft + proof.length := spent
  rw [rootHash_proper none]
  refine Ends.bind ((verifyMultiClaims_ends inj sub js stored
    (consumes_start proof) work₁).given ?_ (fun _ interrupts => interrupts.refuses.declines)
    fun _ allows => ⟨?_, ?_⟩) ?_
  · rintro ⟨shown, claimed⟩
    exact ⟨by rw [shown]; exact prefix_rfl, forall_sorted.mpr claimed.told⟩
  · exact forall_sorted.mpr fun claim mem =>
      ⟨allows.live, allows.depth claim mem, allows.visits claim mem⟩
  · have := allows.hashes
    rw [eq.length_eq]
    omega
  rintro c work₂ ⟨consumes, told⟩
  have order : lookup.order.length = proof.length := by rw [js.order, length_map]
  rw [order, consumes.next, nil_append]
  have shown := consumes.shown
  refine ends_failIf (fun surplus claimed => ?_) fun whole => ?_
  · exact absurd (congrArg length claimed.1.symm) surplus
  · exact ⟨(shown.eq_of_length (not_not.mp whole)).symm, forall_sorted.mp told⟩

/-! ### Sessions -/

/-- `VerifyRawMultiProof` or `VerifySecureMultiProof`. -/
def verifyMany (keccak : Bytes → Root)
    (secure : Bool) : Context → Root → List ProofClaim → Proof → Limits → Except Err Unit :=
  if secure then verifySecureMultiProof keccak else verifyRawMultiProof keccak

/-- The claim that states what the map holds under the key. -/
def claimOf (contents : Bytes → Option Content) (key : Bytes) : ProofClaim :=
  match contents key with
  | some value => membershipClaim key value.val
  | none => absenceClaim key

theorem key_claimOf (contents : Bytes → Option Content) (key : Bytes) :
    (claimOf contents key).key = key := by
  unfold claimOf
  split <;> rfl

theorem verifyMany_eq (sec : Bool) (ctx : Context) (r : Root) (claims : List ProofClaim)
    (proof : Proof) (lim : Limits) :
    verifyMany H sec ctx r claims proof lim =
      (verifyMultiProof H ctx r claims proof lim sec lim.work).map Prod.fst := by
  cases sec <;> rfl

theorem claimed_of_perm {Q : Set Bytes} (held : Matches H sec Q t contents)
    (queried : ∀ key ∈ keys, key ∈ Q) (some : keys ≠ []) (nodup : keys.Nodup)
    (eq : claims.Perm (keys.map (claimOf contents))) : Claimed H sec t claims := by
  have keyed : (keys.map (claimOf contents)).map ProofClaim.key = keys := by
    rw [map_map]
    exact (map_congr_left fun key _ => key_claimOf contents key).trans (map_id keys)
  have each : ∀ claim ∈ claims, ∃ key ∈ keys, claim = claimOf contents key := by
    intro claim mem
    obtain ⟨key, sub, rfl⟩ := mem_map.mp (eq.mem_iff.mp mem)
    exact ⟨key, sub, rfl⟩
  refine ⟨?_, ?_, ?_, ?_⟩
  · rintro rfl
    exact some (map_eq_nil_iff.mp eq.nil_eq.symm)
  · intro claim mem
    obtain ⟨key, -, rfl⟩ := each claim mem
    unfold claimOf
    split <;> rfl
  · rw [(eq.map _).nodup_iff, keyed]
    exact nodup
  · intro claim mem
    obtain ⟨key, sub, rfl⟩ := each claim mem
    rw [key_claimOf, held.values key (queried key sub)]
    unfold claimOf
    cases contents key with
    | none => rfl
    | some v => exact ⟨rfl, rfl⟩

theorem verifyMany_spec (inj : InjOn H K) (empty : H [0x80] = emptyRoot) (reserved : [0x80] ∈ K)
    (holds : snap.Holds H K h t) (sec : Bool) (claims : List ProofClaim)
    (sub : ∀ b ∈ proof, b ∈ K) (ctx : Context) (lim : Limits) :
    (verifyMany H sec ctx snap.hash claims proof lim = .ok () →
      proof = proofOfKeys H sec t (claims.map ProofClaim.key) ∧ Told H sec t claims) ∧
    (proof = proofOfKeys H sec t (claims.map ProofClaim.key) →
      Claimed H sec t claims → AllowsClaims H ctx lim sec claims proof →
      verifyMany H sec ctx snap.hash claims proof lim = .ok ()) := by
  have verified : Ends (verifyMultiProof H ctx (rootHash H t) claims proof lim sec)
      lim.work _ _ := verifyMultiProof_ends inj empty reserved holds.stored sub
  rw [verifyMany_eq, holds.hash]
  refine ⟨fun accepted => verified.run.1 _ accepted, fun shown claimed allows => ?_⟩
  rcases verified.outcome with ⟨_, done, -⟩ | ⟨e, -, stop⟩
  · exact done
  · exact absurd allows (stop ⟨shown, claimed⟩).2

theorem copyAndSort_claims (eq : claims.Perm (keys.map (claimOf contents))) :
    copyAndSortProofKeys (claims.map ProofClaim.key) = copyAndSortProofKeys keys := by
  apply copyAndSortProofKeys_congr
  refine (eq.map _).trans ?_
  rw [map_map]
  exact Perm.of_eq
    ((map_congr_left fun key _ => key_claimOf contents key).trans (map_id keys))

/-- In every session, for a snapshot whose references are found, the proof for several keys is
the same in whatever order they are given, shows each node of their single proofs once, and is
accepted with what the snapshot holds; and whatever is accepted under the root of a snapshot
is what it holds, with no other selection of the nodes. -/
theorem multi_key_proofs_exact {keccak : Bytes → Root}
    {secure : Bool} {actions : List Action} {entry : Entry}
    (here : entry ∈ (run keccak secure actions).held) (empty : keccak [0x80] = emptyRoot) :
    (∀ keys : List Bytes, keys ≠ [] → keys.Nodup →
      (∀ root, Reachable (entry.snapshot.find (run keccak secure actions).heap)
        entry.snapshot.root root →
        (entry.snapshot.find (run keccak secure actions).heap root).isSome) →
      InjOn keccak {b | b ∈ (run keccak secure actions).encodings keccak} →
      (secure = true → InjOn keccak {key | key ∈ actions.flatMap Action.keys ++ keys}) →
      (∀ keys', keys'.Perm keys → ∀ ctx,
        entry.snapshot.proveMany keccak (run keccak secure actions).heap ctx keys' secure =
          entry.snapshot.proveMany keccak (run keccak secure actions).heap ctx keys secure) ∧
      ∃ proof : Proof, proof.Nodup ∧
        (∀ b, b ∈ proof ↔
          ∃ key ∈ keys, b ∈ proofOf keccak entry.version.trie (pathOf keccak secure key)) ∧
        (∀ ctx,
          (entry.snapshot.proveMany keccak (run keccak secure actions).heap ctx keys secure
            entry.snapshot.limits.work).map Prod.fst = .ok proof ∨
          ∃ e, (entry.snapshot.proveMany keccak (run keccak secure actions).heap ctx keys
              secure entry.snapshot.limits.work).map Prod.fst = .error e ∧ e.Declines ∧
            ¬ entry.snapshot.AllowsMany keccak ctx secure keys proof) ∧
        ∀ claims, claims.Perm (keys.map (claimOf entry.version.contents)) → ∀ ctx limits,
          AllowsClaims keccak ctx limits secure claims proof →
          verifyMany keccak secure ctx entry.snapshot.hash claims proof limits = .ok ()) ∧
    ∀ (claims : List ProofClaim) (proof : Proof) (ctx : Context) (limits : Limits),
      InjOn keccak {b | b ∈ (run keccak secure actions).encodings keccak ++ proof} →
      (secure = true → InjOn keccak
        {key | key ∈ actions.flatMap Action.keys ++ claims.map ProofClaim.key}) →
      verifyMany keccak secure ctx entry.snapshot.hash claims proof limits = .ok () →
      (∀ claim ∈ claims, claim.Tells ((entry.version.contents claim.key).map val)) ∧
      ∀ proof' : Proof, (∀ b ∈ proof', b ∈ proof) → proof' ≠ proof → ∀ ctx' limits',
        verifyMany keccak secure ctx' entry.snapshot.hash claims proof' limits' ≠ .ok () := by
  have queried : ∀ keys : List Bytes, ∀ action ∈ actions, ∀ key ∈ action.keys,
      key ∈ {key | key ∈ actions.flatMap Action.keys ++ keys} := fun keys action mem key inside =>
    mem_append_left _ (mem_flatMap.mpr ⟨action, mem, inside⟩)
  constructor
  · intro keys some nodup found inj apart
    obtain ⟨holds, held⟩ := run_entry inj empty apart (fun b mem => mem)
      (queried keys) here
    refine ⟨fun keys' same ctx => ?_, proofOfKeys keccak secure entry.version.trie keys,
      firstUses_nodup _ _, fun b => ?_,
      fun ctx => ?_, fun claims same ctx limits allows => ?_⟩
    · unfold Snapshot.proveMany
      rw [copyAndSortProofKeys_congr same, same.length_eq]
    · refine mem_sharedProof.trans ?_
      constructor
      · rintro ⟨path, mem, inside⟩
        obtain ⟨key, sorted, rfl⟩ := mem_map.mp mem
        exact ⟨key, (copyAndSortProofKeys_perm keys).mem_iff.mp sorted, inside⟩
      · rintro ⟨key, mem, inside⟩
        exact ⟨_, mem_map.mpr ⟨key, (copyAndSortProofKeys_perm keys).mem_iff.mpr mem, rfl⟩, inside⟩
    · rcases (proveMany_ends inj holds (fun b named => holds.find_kept inj found named) some
        nodup ctx).outcome with ⟨_, done, rfl⟩ | failed
      · exact Or.inl done
      · exact Or.inr failed
    · have shown : ∀ b ∈ proofOfKeys keccak secure entry.version.trie keys,
          b ∈ {b | b ∈ (run keccak secure actions).encodings keccak} := by
        intro b mem
        obtain ⟨s, stored, rfl⟩ := exists_stored_of_mem holds.stored mem
        exact stored.mem
      refine (verifyMany_spec inj empty mem_cons_self holds secure claims shown ctx
        limits).2 ?_ ?_ allows
      · rw [proofOfKeys, proofOfKeys, copyAndSort_claims same]
      · exact claimed_of_perm held (fun key mem => mem_append_right _ mem) some nodup same
  · intro claims proof ctx limits inj apart accepted
    obtain ⟨holds, held⟩ := run_entry inj empty apart
      (fun b mem => mem_append_left _ mem) (queried _) here
    have verified : ∀ (proof' : Proof), (∀ b ∈ proof', b ∈ proof) → ∀ ctx' limits', _ :=
      fun proof' selected ctx' limits' => (verifyMany_spec inj empty
        (mem_append_left _ mem_cons_self) holds secure claims
        (fun b mem => mem_append_right _ (selected b mem)) ctx' limits').1
    obtain ⟨shown, told⟩ := verified proof (fun _ mem => mem) ctx limits accepted
    refine ⟨fun claim mem => ?_, fun proof' selected other ctx' limits' accepted' => ?_⟩
    · have told := told claim mem
      rwa [held.values claim.key (mem_append_right _ (mem_map.mpr ⟨claim, mem, rfl⟩))]
        at told
    · exact other ((verified proof' selected ctx' limits' accepted').1.trans shown.symm)

end

def sharedClaims : List ProofClaim :=
  [membershipClaim [0x10] (replicate 32 0x41), membershipClaim [0x20] (replicate 32 0x41)]

theorem multi_key_proofs_exact_shared :
    ∃ entry ∈ sharedSession.held, ∃ proof : Proof, proof.length = 2 ∧
      (entry.snapshot.proveMany keccakShared sharedSession.heap .background [[0x20], [0x10]] false
        entry.snapshot.limits.work).map Prod.fst = .ok proof ∧
      verifyRawMultiProof keccakShared .background entry.snapshot.hash sharedClaims proof
        defaultLimits = .ok () ∧
      verifyRawMultiProof keccakShared .background entry.snapshot.hash sharedClaims proof.reverse
        defaultLimits ≠ .ok () := by
  obtain ⟨entry, here, mem⟩ := shared_held 2 (by decide)
  have ran : ∀ entry ∈ sharedSession.held[2]?,
      ((entry.snapshot.proveMany keccakShared sharedSession.heap .background [[0x20], [0x10]] false
        entry.snapshot.limits.work).map Prod.fst).map (fun proof => (proof.length,
          verifyRawMultiProof keccakShared .background entry.snapshot.hash sharedClaims proof
            defaultLimits, decide (∀ b ∈ proof, b ∈ sharedSession.encodings keccakShared),
          decide (proof.reverse ≠ proof))) = .ok (2, .ok (), true, true) := by decide +kernel
  obtain ⟨proof, proved, measured⟩ := except_map_ok.mp (ran entry here)
  simp only [Prod.mk.injEq, decide_eq_true_eq] at measured
  obtain ⟨two, verified, inside, other⟩ := measured
  refine ⟨entry, mem, proof, two, proved, verified, ?_⟩
  exact ((multi_key_proofs_exact mem shared_empty).2 sharedClaims proof .background defaultLimits
    (injOn_append shared_injective inside) (by simp) verified).2 proof.reverse
    (fun b mem => mem_reverse.mp mem) other .background defaultLimits

end Golib.MerklePatriciaTrie
