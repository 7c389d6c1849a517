import Golib.MerklePatriciaTrie.Proof
import Golib.MerklePatriciaTrie.Sessions

/-! Single-key proofs: what the prover returns, and that the verifier accepts exactly
that, with exactly the value of the trie. -/
namespace Golib.MerklePatriciaTrie

open Program List Set Subtype

variable {nodesLeft depth : Nat} {rootNode : Bool} {nodes : Proof} {key : Bytes}

section

variable (keccak : Bytes → Root) {remaining proof : Proof} {expected : Option Bytes}
  {ctx : Context} {e : Err}

/-- What a proof shows of a node below the root: nothing when its parent embeds it. -/
def shown (trie : Tree) : Proof :=
  if (treeBytes keccak trie).length < rootBytes then [] else [treeBytes keccak trie]

/-- The nodes that a proof shows below a trie, along a path. -/
def proofBelow : Tree → Path → Proof
  | .nil, _ => []
  | .leaf _ _, _ => []
  | .ext extensionPath child, path =>
    if extensionPath <+: path then
      shown keccak child ++ proofBelow child (path.drop extensionPath.length)
    else []
  | .branch _ _, [] => []
  | .branch children _, i :: rest => shown keccak (children i) ++ proofBelow (children i) rest

/-- What a proof shows of the node it comes to: the root in any case. -/
def showAt (rootNode : Bool) (trie : Tree) : Proof :=
  if rootNode ∧ ¬ trie.isNil then [treeBytes keccak trie] else shown keccak trie

def proofOf (trie : Tree) (path : Path) : Proof :=
  showAt keccak true trie ++ proofBelow keccak trie path

variable {H : Bytes → Root} {K : Set Bytes} {n : Node} {t : Tree} {lim : Limits} {p : Path}
  {tot : Nat} {sec : Bool}

theorem proofBelow_ext {extensionPath : Path} (c : Tree) (shared : extensionPath <+: p) :
    proofBelow H (.ext extensionPath c) p =
      shown H c ++ proofBelow H c (p.drop extensionPath.length) :=
  if_pos shared

theorem shown_nil : shown H .nil = [] := by
  rfl

@[simp] theorem showAt_below (t : Tree) : showAt H false t = shown H t :=
  if_neg (by simp)

theorem showAt_top (some : t ≠ .nil) : showAt H true t = [treeBytes H t] :=
  if_pos ⟨rfl, by simpa using some⟩

theorem showAt_nil : showAt H true .nil = [] := by
  simp [showAt, shown_nil, Radix.isNil]

theorem proofOf_nil (p : Path) : proofOf H .nil p = [] := by
  rfl

theorem proofOf_proper (some : t ≠ .nil) (p : Path) :
    proofOf H t p = treeBytes H t :: proofBelow H t p := by
  rw [proofOf, showAt_top some]
  rfl

/-! ### Generation -/

theorem proofAppend_ends {total : Nat} (some : t ≠ .nil) (w : Work) :
    Ends (proofAppend lim rootNode (treeBytes H t) nodes total) w
      (fun r _ => r.1 = nodes ++ showAt H rootNode t)
      Err.Interrupts := by
  unfold proofAppend
  split
  · rename_i joins
    refine ends_guard (fun _ => trivial) fun _ => ?_
    refine ends_guard (fun _ => trivial) fun _ => ends_pure ?_
    cases rootNode with
    | true => rw [showAt_top some]
    | false => rw [showAt_below, shown, if_neg (by have := joins.resolve_left (by simp); omega)]
  · rename_i stays
    rw [not_or] at stays
    have small : shown H t = [] := if_pos (by omega)
    have below : rootNode = false := by simpa using stays.1
    rw [below, showAt_below, small]
    exact ends_pure (append_nil _).symm

section

variable {env : Env} (sound : env.Sound H K) (inj : InjOn H K)

include sound inj

theorem proveLoop_ends {d nl : Nat} {ns : Proof}
    (top : rootNode = decide (d = 0)) (rep : RepAt H K d n t)
    (canon : t.Canonical) (short : t.Short maxCompactPathNibbles) (w : Work) :
    Ends (proveLoop H env lim nl n p d rootNode ns tot) w
      (fun r _ => r = ns ++ showAt H rootNode t ++ proofBelow H t p)
      (env.Fails H (kept H n t)) := by
  induction nl generalizing n t p d rootNode ns tot w with
  | zero =>
    unfold proveLoop
    split
    · rename_i vacant
      rw [Node.isNil_eq_true] at vacant
      subst vacant
      cases rep.inner id
      exact ends_pure (by simp [proofBelow, showAt, shown_nil, Radix.isNil])
    · exact (visitNone_ends env w _).weaken (fun _ => Or.inl)
  | succ nl ih =>
    unfold proveLoop
    split
    · rename_i vacant
      rw [Node.isNil_eq_true] at vacant
      subst vacant
      cases rep.inner id
      exact ends_pure (by simp [proofBelow, showAt, shown_nil, Radix.isNil])
    rename_i occupied
    refine ((visit_live env d w).weaken (fun _ stop => Or.inl stop.1)).bind ?_
    intro _ work₁ _
    -- what an inner node adds to the proof before the loop goes on below it
    have enc : ∀ {rest : Proof × Nat → Task Proof} {done : Proof → Work → Prop},
        ¬ n.IsHash → t ≠ .nil → (∀ r work', r.1 = ns ++ showAt H rootNode t →
          Ends (rest r) work' done (env.Fails H (kept H n t))) →
        Ends (encodeNodeBounded H env.ctx n lim.maxEncodingNodes >>= fun r =>
          proofAppend lim rootNode r.1 ns tot >>= rest) work₁ done
          (env.Fails H (kept H n t)) := by
      intro rest done inner some go
      have unhashed : ∀ root, n ≠ .hash root := by
        rintro root rfl
        exact inner trivial
      refine ((encodeNodeBounded_ends env.ctx (rep.inner inner) unhashed canon short _
        work₁).weaken (fun _ stop => Or.inl stop.1)).bind ?_
      rintro ⟨enc, persisted⟩ work₂ ⟨eq, -⟩
      subst eq
      exact ((proofAppend_ends some work₂).weaken (fun _ => Or.inl)).bind
        fun r work₃ joined => go r work₃ joined
    cases n with
    | nil => exact absurd rfl occupied
    | hash root =>
      have go : ∀ r work₂, Resolves H K (.hash root) t work₁ r work₂ ∧ work₁.Uses work₂ 1 →
          Ends (proveLoop H env lim nl r p d rootNode ns tot) work₂
            (fun r _ => r = ns ++ showAt H rootNode t ++ proofBelow H t p)
            (env.Fails H (kept H (.hash root) t)) := fun _ work₂ opened =>
        (ih top (Or.inl opened.1.1) canon short work₂).weaken
          fun _ fails => fails.mono opened.1.2.2.le
      obtain ⟨st, rfl, allowed⟩ := rep.hash
      dsimp only
      split
      · exact ((resolve_ends sound inj st work₁).weaken fun _ stops => stops.fails).bind go
      · rename_i deep
        rw [top, decide_eq_true_eq] at deep
        exact ((resolveChild_ends sound inj st (allowed.resolve_left deep) work₁).weaken
          fun _ stops => stops.fails).bind go
    | leaf leafPath v =>
      cases rep.inner id with
      | leaf _ content =>
        refine enc id (by simp) fun r work' joined => ?_
        exact ends_pure (by rw [joined, proofBelow, append_nil])
    | extension extensionPath c =>
      cases rep.inner id with
      | @extension _ _ childTrie below =>
        have proper := canon.proper (by simp)
        refine enc id (by simp) fun r work' joined => ?_
        obtain ⟨nodes', total'⟩ := r
        dsimp only at joined ⊢
        subst joined
        rw [proofBelow]
        split
        · refine (ih (by simp) (Or.inl below) (Or.inr proper.2.2) short.below work').mono ?_
            (fun _ h => h)
          intro r work'' eq
          rw [eq]
          simp
        · exact ends_pure (append_nil _).symm
    | branch kids v =>
      cases rep.inner id with
      | @branch _ tries content below =>
        have proper := canon.proper (by simp)
        refine enc id (by simp) fun r work' joined => ?_
        obtain ⟨nodes', total'⟩ := r
        subst joined
        cases p with
        | nil => exact ends_pure (append_nil _).symm
        | cons i rest =>
          refine (ih (by simp) (Or.inl (below i)) (proper.child i) (short.child i) work').mono ?_ ?_
          · intro r work'' eq
            rw [eq, proofBelow]
            simp
          · exact fun e fails => fails.mono (kept_child_le kids tries i)

end

theorem prove_ends {h : Heap} {snap : Snapshot}
    (inj : InjOn H K) (holds : snap.Holds H K h t) (w : Work) :
    Ends (Snapshot.prove H h ctx snap key sec) w
      (fun proof _ => proof = proofOf H t (pathOf H sec key))
      (fun e => e.Refuses ∨ Missing H h snap t e) := by
  refine ((validateOperation_ends ctx key [] false w).weaken
    (fun _ refused => Or.inl refused.1.refuses)).bind ?_
  rintro _ work₁ -
  have rep := holds.rep
  split
  · rename_i vacant
    rw [Node.isNil_eq_true] at vacant
    rw [vacant] at rep
    cases rep.inner id
    exact ends_pure (proofOf_nil _).symm
  · refine ((keyPath_ends key sec work₁).weaken
      (fun e stop => Or.inl stop.1.refuses)).bind ?_
    rintro p work₂ ⟨rfl, -, -, -⟩
    have sound : ({ snap.env h ctx with recording := false } : Env).Sound H K := holds.env_sound ctx
    refine (proveLoop_ends sound inj (by simp) rep holds.canonical holds.short work₂).mono ?_ ?_
    · rintro proof work' rfl
      rfl
    · exact fun e fails => fails.imp (fun stop => stop.refuses) id

/-! ### Verification -/

theorem finishProofClaim_ok {found : Option Bytes} :
    finishProofClaim remaining found expected = .ok () ↔ remaining = [] ∧ expected = found := by
  unfold finishProofClaim
  cases remaining with
  | cons n rest => simp
  | nil =>
    cases found <;> cases expected <;> simp [eq_comm]

theorem proofNode_ends {top : Bool} (inj : InjOn H K) (stored : Stored H K t)
    (allowed : top = true ∨ rootBytes ≤ (treeBytes H t).length)
    (sub : ∀ b ∈ remaining, b ∈ K) (w : Work) :
    Ends (proofNode H remaining (H (treeBytes H t)) top) w
      (fun r work' => r.1 = freeze H t ∧ remaining = treeBytes H t :: r.2 ∧
        w.hashesLeft = work'.hashesLeft + 1)
      (fun e => ∀ rest, remaining = treeBytes H t :: rest → e.Interrupts ∧ w.hashesLeft = 0) := by
  unfold proofNode
  cases remaining with
  | nil => exact ends_fail fun rest eq => (by cases eq)
  | cons encoded rest =>
    refine ends_guard ?_ fun _ => ?_
    · rintro ⟨below, small⟩ rest' eq
      cases eq
      have large := allowed.resolve_left (by simp [below])
      omega
    refine ((hash_spends H encoded w).weaken (fun _ h _ _ => h)).bind ?_
    rintro actual work₁ ⟨rfl, spent, -, -⟩
    refine ends_guard ?_ fun eq => ?_
    · intro differs rest' eq
      cases eq
      exact absurd rfl differs
    have eq := inj (sub encoded (by simp)) stored.mem (not_not.mp eq)
    subst eq
    rw [stored.decode]
    have some : freeze H t ≠ .nil := freeze_ne_nil stored.proper.ne_nil
    cases shape : freeze H t with
    | nil => exact absurd shape some
    | leaf | extension | branch | hash => exact ends_pure ⟨rfl, rfl, spent⟩

/-- A node as the verifier meets it, with what the proof has to show of it first. -/
inductive Opens (keccak : Bytes → Root) : Node → Tree → Proof → Prop where
  | node (trie : Tree) : Opens keccak (freeze keccak trie) trie []
  | hash {trie : Tree} (large : rootBytes ≤ (treeBytes keccak trie).length) :
      Opens keccak (.hash (keccak (treeBytes keccak trie))) trie [treeBytes keccak trie]

theorem opens_link (t : Tree) : Opens H (link H (treeBytes H t) (freeze H t)) t (shown H t) := by
  unfold link shown
  split
  · exact .node t
  · rename_i large
    exact .hash (by omega)

theorem proofExtensionChild_ends (inj : InjOn H K) (stored : Stored H K t)
    (branching : t.IsBranch) (sub : ∀ b ∈ remaining, b ∈ K) (w : Work) :
    Ends (proofExtensionChild H (link H (treeBytes H t) (freeze H t))
        remaining) w
      (fun r work' => r.1 = freeze H t ∧ remaining = shown H t ++ r.2 ∧
        w.hashesLeft = work'.hashesLeft + (shown H t).length)
      (fun e => ∀ rest, remaining = shown H t ++ rest →
        e.Interrupts ∧ w.hashesLeft < remaining.length) := by
  cases t with
  | nil | leaf | ext => exact absurd branching id
  | branch kids v =>
    unfold link shown
    split
    · exact ends_pure ⟨rfl, rfl, rfl⟩
    · rename_i large
      refine ((proofNode_ends inj stored (Or.inr (by omega)) sub w).weaken ?_).bind ?_
      · intro e stop rest eq
        obtain ⟨interrupts, spent⟩ := stop rest eq
        refine ⟨interrupts, ?_⟩
        rw [spent, eq]
        simp
      · rintro ⟨n, rest⟩ work' ⟨rfl, eq, spent⟩
        exact ends_pure ⟨rfl, eq, spent⟩

/-- Enough of everything to follow the path to its end. -/
structure Affords (ctx : Context) (limits : Limits) (nodesLeft : Nat) (front : Proof) (path : Path)
    (depth : Nat) (remaining : Proof) (work : Work) : Prop where
  live : ctx.Live
  depth : depth + path.length ≤ limits.maxTraversalDepth
  nodes : 2 * path.length + front.length < nodesLeft
  hashes : remaining.length ≤ work.hashesLeft

/-- The loop accepts exactly the nodes that the proof shows along the path, with exactly the
value that the trie holds. -/
theorem verifyLoop_ends {front : Proof} (inj : InjOn H K) (opens : Opens H n t front)
    (stored : Stored H K t) (sub : ∀ b ∈ remaining, b ∈ K) (w : Work) :
    Decides (verifyLoop H ctx lim expected nodesLeft n p depth remaining) w
      (remaining = front ++ proofBelow H t p ∧ expected = (t.lookup p).map val)
      Err.Interrupts (Affords ctx lim nodesLeft front p depth remaining w) := by
  induction nodesLeft generalizing n t front p depth remaining w with
  | zero =>
    have none : ∀ work', ¬ Affords ctx lim 0 front p depth remaining work' :=
      fun _ affords => Nat.not_lt_zero _ affords.nodes
    refine ((checkContext_live ctx w).weaken
      (fun e stop _ => ⟨stop.1, none w⟩)).bind fun _ work₁ _ => ?_
    exact ends_fail fun _ => ⟨trivial, none w⟩
  | succ nodesLeft ih =>
    unfold verifyLoop
    refine ((checkContext_live ctx w).weaken
      (fun e stop _ => ⟨stop.1, fun affords => stop.2 affords.live⟩)).bind ?_
    rintro _ work₁ ⟨polls, rfl⟩
    refine ends_guard (fun deep _ => ⟨trivial, fun affords => ?_⟩) fun _ => ?_
    · have := affords.depth
      omega
    -- a claim that ends here
    have finish : ∀ found : Option Bytes, front = [] → proofBelow H t p = [] →
        (t.lookup p).map val = found →
        Decides (lift (finishProofClaim remaining found expected)) { w with polls }
          (remaining = front ++ proofBelow H t p ∧ expected = (t.lookup p).map val)
          Err.Interrupts (Affords ctx lim (nodesLeft + 1) front p depth remaining w) := by
      rintro found rfl last rfl
      rw [last]
      refine ends_lift (fun _ accepted => finishProofClaim_ok.mp accepted) fun e refused
        claimed => ?_
      rw [finishProofClaim_ok.mpr claimed] at refused
      cases refused
    cases opens with
    | hash large =>
      refine Ends.bind ((proofNode_ends inj stored (Or.inr large) sub _).weaken ?_) ?_
      · rintro e stop ⟨shown, -⟩
        obtain ⟨interrupts, spent⟩ := stop _ shown
        refine ⟨interrupts, fun affords => ?_⟩
        have hashes := affords.hashes
        have empty : w.hashesLeft = 0 := spent
        rw [shown, empty] at hashes
        simp at hashes
      · rintro ⟨resolved, rest⟩ work₂ ⟨rfl, rfl, spent⟩
        dsimp only at spent ⊢
        refine (ih (.node t) stored (fun b mem => sub b (by simp [mem])) work₂).congr
          (by simp) (fun _ h => h) fun _ affords => ⟨affords.live, affords.depth, ?_, ?_⟩
        · have := affords.nodes
          simp only [length_cons, length_nil] at this ⊢
          omega
        · have := affords.hashes
          rw [length_cons] at this
          omega
    | node =>
      cases t with
      | nil => exact absurd stored.proper id
      | leaf leafPath v =>
        refine finish _ rfl rfl ?_
        rw [Radix.lookup_leaf]
        split <;> rfl
      | ext extensionPath c =>
        have proper := stored.proper
        rw [freeze]
        dsimp only
        split
        · rename_i shared
          have shorter : 0 < extensionPath.length := length_pos_iff.mpr proper.1
          have room := shared.length_le
          rw [proofBelow_ext c shared, Radix.lookup, if_pos shared]
          refine Ends.bind ((proofExtensionChild_ends inj stored.below proper.2.1 sub _).weaken ?_)
            ?_
          · rintro e stop ⟨shown, -⟩
            obtain ⟨interrupts, spent⟩ := stop _ shown
            exact ⟨interrupts, fun affords => absurd affords.hashes (Nat.not_le.mpr spent)⟩
          · rintro ⟨resolved, rest⟩ work₂ ⟨rfl, rfl, spent⟩
            dsimp only at spent ⊢
            refine (ih (.node c) stored.below
              (fun b mem => sub b (by simp [mem])) work₂).congr (by simp) (fun _ h => h)
              fun _ affords => ⟨affords.live, ?_, ?_, ?_⟩
            · have := affords.depth
              rw [length_drop]
              omega
            · have := affords.nodes
              rw [length_drop]
              omega
            · have := affords.hashes
              rw [length_append] at this
              omega
        · rename_i apart
          refine finish _ rfl (if_neg apart) ?_
          rw [Radix.lookup_ext_of_not _ apart]
          rfl
      | branch kids v =>
        rw [freeze]
        cases p with
        | nil =>
          refine finish _ rfl rfl ?_
          cases v with
          | none => rfl
          | some content =>
            rw [if_pos]
            · rfl
            · exact fun none => content.property (eq_nil_of_length_eq_zero none)
        | cons i rest =>
          dsimp only
          split
          · rename_i none
            rw [isNil_link, Radix.isNil_eq_true] at none
            refine finish _ rfl ?_ ?_
            · rw [proofBelow, none, shown_nil]
              rfl
            · rw [Radix.lookup_branch_cons, none]
              rfl
          · rename_i some
            rw [isNil_link, Radix.isNil_eq_true] at some
            refine (ih (opens_link (kids i)) (stored.child some) sub _).congr Iff.rfl
              (fun _ h => h) fun _ affords => ⟨affords.live, ?_, ?_, affords.hashes⟩
            · have := affords.depth
              rw [length_cons] at this
              omega
            · have := affords.nodes
              have one : (shown H (kids i)).length ≤ 1 := by
                unfold shown
                split <;> simp
              simp only [length_cons, length_nil] at this
              omega

theorem checkProofBytes_error {maximum : Nat}
    (beyond : checkProofBytes maximum tot proof = .error e) :
    e.Interrupts ∧ maximum < tot + (proof.map length).sum := by
  induction proof generalizing tot with
  | nil => cases beyond
  | cons enc rest ih =>
    rw [map_cons, sum_cons]
    rw [checkProofBytes] at beyond
    split at beyond
    · cases beyond
      exact ⟨trivial, by omega⟩
    · obtain ⟨stop, large⟩ := ih beyond
      exact ⟨stop, by omega⟩

theorem validateProofLimits_error (beyond : validateProofLimits proof lim = .error e) :
    e.Interrupts ∧ ¬ (proof.length ≤ lim.maxProofNodes ∧
      (proof.map length).sum ≤ lim.maxProofBytes) := by
  unfold validateProofLimits at beyond
  split at beyond
  · cases beyond
    exact ⟨trivial, by omega⟩
  · obtain ⟨stop, large⟩ := checkProofBytes_error beyond
    exact ⟨stop, by omega⟩

theorem validateTrieLimits_error (invalid : validateTrieLimits lim = .error e) :
    e.Interrupts ∧ validateTrieLimits lim ≠ .ok () := by
  refine ⟨?_, by simp [invalid]⟩
  unfold validateTrieLimits at invalid
  split at invalid
  · cases invalid
    trivial
  · cases invalid

/-- The limits of a verifier that do not stand in the way of a claim. -/
structure Allows (ctx : Context) (limits : Limits) (secure : Bool) (path : Path) (key : Bytes)
    (expected : Option Bytes) (proof : Proof) : Prop where
  valid : validateTrieLimits limits = .ok ()
  live : ctx.Live
  key : key.length ≤ limits.maxKeyBytes
  value : ∀ value ∈ expected, value.length ≤ limits.maxValueBytes
  nodes : proof.length ≤ limits.maxProofNodes
  bytes : (proof.map length).sum ≤ limits.maxProofBytes
  depth : path.length ≤ limits.maxTraversalDepth
  visits : 2 * path.length < limits.maxTraversalNodes
  hashes : proof.length + secure.toNat ≤ limits.maxHashOperations

/-- A verifier past its checks: a claim about the empty trie comes without nodes, and one about any
other trie does not. -/
theorem ends_underRoot {σ : Type} {rest : Program σ Err Unit} {w : σ}
    (inj : InjOn H K) (empty : H [0x80] = emptyRoot) (reserved : [0x80] ∈ K)
    (st : t ≠ .nil → Stored H K t) {present : Prop} [Decidable present] {done claim : Prop}
    {fails : Err → Prop} (bare : t = .nil → claim → proof = [] ∧ ¬ present)
    (nothing : t = .nil → proof = [] → ¬ present → done) (shows : t ≠ .nil → claim → proof ≠ [])
    (goes : t ≠ .nil → Stored H K t → Ends rest w (fun _ _ => done) (fun e => claim → fails e)) :
    Ends (if rootHash H t = emptyRoot then
        if proof.length ≠ 0 then Program.fail (.malformedProof .surplusForEmpty)
        else if present then Program.fail .failedProof
        else pure ()
      else if proof.length = 0 then Program.fail .incompleteProof
      else rest) w (fun _ _ => done) (fun e => claim → fails e) := by
  by_cases none : t = .nil
  · rw [none, if_pos (show rootHash H .nil = emptyRoot from rfl)]
    split
    · rename_i surplus
      exact ends_fail fun claimed => absurd (congrArg length (bare none claimed).1) surplus
    · rename_i consumed
      split
      · rename_i claimed
        exact ends_fail fun told => absurd claimed (bare none told).2
      · rename_i absent
        exact ends_pure (nothing none (eq_nil_of_length_eq_zero (not_not.mp consumed)) absent)
  · have st := st none
    have apart : rootHash H t ≠ emptyRoot := by
      rw [rootHash_proper none]
      exact st.root_ne_empty inj empty reserved
    rw [if_neg apart]
    split
    · rename_i few
      exact ends_fail fun claimed =>
        absurd (eq_nil_of_length_eq_zero few) (shows none claimed)
    · exact goes none st

/-- The verifier accepts exactly the proof of the path with exactly the value of the trie. -/
theorem verifyClaim_ends (inj : InjOn H K) (empty : H [0x80] = emptyRoot) (reserved : [0x80] ∈ K)
    (stored : t ≠ .nil → Stored H K t) (sub : ∀ b ∈ proof, b ∈ K) :
    Decides (verifyClaim H ctx (rootHash H t) key expected sec proof lim)
      lim.work (proof = proofOf H t (pathOf H sec key) ∧
        expected = (t.lookup (pathOf H sec key)).map val)
      Err.Refuses (Allows ctx lim sec (pathOf H sec key) key expected proof) := by
  refine ends_check (fun e invalid _ => ?_) fun _ valid => ?_
  · obtain ⟨stop, wrong⟩ := validateTrieLimits_error invalid
    exact ⟨stop.refuses, fun allows => wrong allows.valid⟩
  have left := hashesLeft_ne_zero valid
  refine ((checkContext_live ctx _).weaken (fun e stop _ =>
    ⟨stop.1.refuses, fun allows => stop.2 allows.live⟩)).bind ?_
  rintro _ _ ⟨polls, rfl⟩
  refine ends_guard (fun long _ => ⟨trivial, fun allows => ?_⟩) fun _ => ?_
  · have := allows.key
    omega
  refine ends_guard (fun invalid claimed => ⟨trivial, fun allows => ?_⟩) fun _ => ?_
  · obtain ⟨v, mem, empty | large⟩ := invalid
    · rw [claimed.2] at mem
      obtain ⟨content, -, eq⟩ := Option.map_eq_some_iff.mp mem
      exact content.property (by rw [eq]; exact eq_nil_of_length_eq_zero empty)
    · have := allows.value v mem
      omega
  refine ends_check (fun e beyond _ => ?_) fun _ _ => ?_
  · obtain ⟨stop, large⟩ := validateProofLimits_error beyond
    exact ⟨stop.refuses, fun allows => large ⟨allows.nodes, allows.bytes⟩⟩
  refine ends_underRoot inj empty reserved stored (fun none claimed => ?_)
    (fun none consumed absent => ?_) (fun none claimed => ?_) fun none stored => ?_
  · rw [none, proofOf_nil] at claimed
    exact ⟨claimed.1, by rw [claimed.2]; simp⟩
  · rw [none, proofOf_nil]
    exact ⟨consumed, Option.not_isSome_iff_eq_none.mp absent⟩
  · rw [claimed.1, proofOf_proper none]
    exact cons_ne_nil _ _
  rw [proofOf_proper none]
  refine Ends.bind (orZero_keyPath_ends key sec left) ?_
  rintro p work₁ ⟨rfl, -, -, spent⟩
  rw [rootHash_proper none]
  refine Ends.bind ((proofNode_ends inj stored (Or.inl rfl) sub work₁).weaken ?_) ?_
  · rintro e stop ⟨shown, -⟩
    obtain ⟨interrupts, none⟩ := stop _ shown
    refine ⟨interrupts.refuses, fun allows => ?_⟩
    have hashes := allows.hashes
    have total : lim.maxHashOperations = work₁.hashesLeft + sec.toNat := spent
    rw [shown, length_cons] at hashes
    omega
  rintro ⟨n, rest⟩ work₂ ⟨rfl, rfl, spent'⟩
  dsimp only at spent' ⊢
  refine (verifyLoop_ends inj (.node t) stored
    (fun b mem => sub b (by simp [mem])) work₂).congr (by simp)
    (fun _ interrupts => interrupts.refuses) fun _ allows => ⟨allows.live, ?_, allows.visits, ?_⟩
  · rw [Nat.zero_add]
    exact allows.depth
  · have hashes := allows.hashes
    have total : lim.maxHashOperations = work₁.hashesLeft + sec.toNat := spent
    rw [length_cons] at hashes
    omega

/-- In every session of raw tries, a proof that a snapshot returns is accepted with what the
snapshot holds, and whatever is accepted under its root is what it holds. -/
theorem single_proofs_exact {keccak : Bytes → Root}
    {actions : List Action} {entry : Entry} {proof : Proof}
    (here : entry ∈ (Session.run keccak false actions).held) (empty : keccak [0x80] = emptyRoot)
    (injective : InjOn keccak
      {b | b ∈ (Session.run keccak false actions).encodings keccak ++ proof}) (key : Bytes) :
    (∀ ctx, (Snapshot.prove keccak (Session.run keccak false actions).heap ctx entry.snapshot key
        false entry.snapshot.limits.work).map Prod.fst = .ok proof →
      ∀ ctx' limits, Allows ctx' limits false (bytesToNibbles key) key
        ((entry.version.contents key).map val) proof →
      match entry.version.contents key with
      | some value =>
        verifyRawMembership keccak ctx' entry.snapshot.hash key value.val proof limits = .ok ()
      | none => verifyRawAbsence keccak ctx' entry.snapshot.hash key proof limits = .ok ()) ∧
    (∀ ctx limits value,
      verifyRawMembership keccak ctx entry.snapshot.hash key value proof limits = .ok () →
      (entry.version.contents key).map val = some value) ∧
    (∀ ctx limits, verifyRawAbsence keccak ctx entry.snapshot.hash key proof limits = .ok () →
      entry.version.contents key = none) := by
  have shown : ∀ b ∈ proof,
      b ∈ {b | b ∈ (Session.run keccak false actions).encodings keccak ++ proof} :=
    fun b mem => mem_append_right _ mem
  have made : ∀ b ∈ (Session.run keccak false actions).encodings keccak,
      b ∈ {b | b ∈ (Session.run keccak false actions).encodings keccak ++ proof} :=
    fun b mem => mem_append_left _ mem
  obtain ⟨holds, held⟩ := Session.run_entry injective empty (by simp) made
    (fun _ _ key _ => mem_univ key) here
  have verified : ∀ {ctx : Context} {limits : Limits} {expected : Option Bytes}, Decides
      (verifyClaim keccak ctx entry.snapshot.hash key expected false proof limits) limits.work
      (proof = proofOf keccak entry.version.trie (bytesToNibbles key) ∧
        expected = (entry.version.contents key).map val)
      Err.Refuses (Allows ctx limits false (bytesToNibbles key) key expected proof) := by
    rw [holds.hash, ← held.values key trivial]
    exact verifyClaim_ends injective empty (made _ mem_cons_self) holds.stored shown
  refine ⟨fun ctx proved ctx' limits allows => ?_, fun ctx limits value accepted => ?_,
    fun ctx limits accepted => ?_⟩
  · have proved := (prove_ends injective holds _).run.1 proof proved
    have accepted : (verifyClaim keccak ctx' entry.snapshot.hash key
        ((entry.version.contents key).map val) false proof limits limits.work).map Prod.fst =
        .ok () := by
      rcases verified.outcome with ⟨_, done, -⟩ | ⟨e, -, stopped⟩
      · exact done
      · exact absurd allows (stopped ⟨proved, rfl⟩).2
    cases value : entry.version.contents key with
    | some | none =>
      rw [value] at accepted
      exact accepted
  · exact (verified.run.1 _ accepted).2.symm
  · exact Option.map_eq_none_iff.mp (verified.run.1 _ accepted).2.symm

end

/-- The leaf of two keys that get the same value. -/
def sharedLeaf : Bytes := 0xe2 :: 0x30 :: 0xa0 :: replicate 32 0x41

def sharedDigest : Root :=
  .ofNat 0xe641cb45b2db6ee639a68372035fafb22b0b98e0ec728ccb426d6d03224525f7

/-- The digest of the leaf that replaces it under one of the keys. -/
def newDigest : Root :=
  .ofNat 0xd975d680844f8899f509109410a4359a4a209e9d70bf200f0f1029a4dc2a7a2c

def sharedBranch : Bytes :=
  0xf8 :: 0x51 :: 0x80 :: 0xa0 :: sharedDigest.bytes ++ 0xa0 :: sharedDigest.bytes ++
    replicate 14 0x80

def keccakShared : Bytes → Root := keccakOn
  [(0xe4 :: 0x82 :: 0x20 :: 0x10 :: 0xa0 :: replicate 32 0x41,
    .ofNat 0xc601707a39833e277dd632dc55d0ffc05c4f2cbd53632df692068bfb6b936897),
   (sharedLeaf, sharedDigest),
   (0xe2 :: 0x30 :: 0xa0 :: replicate 32 0x42, newDigest),
   (sharedBranch,
    .ofNat 0x203476fa108cff0d5610b28572a38331a15289501c60f30f59d0bc4bb5ad44c4),
   (0xf8 :: 0x51 :: 0x80 :: 0xa0 :: newDigest.bytes ++ 0xa0 :: sharedDigest.bytes ++
      replicate 14 0x80,
    .ofNat 0xb54523779b621cf2b5b494762a66853f36cd5d7df5a96e89c88d4d1c8462de29)]

theorem shared_empty : keccakShared [0x80] = emptyRoot := by decide +kernel

def putTwin (on : Nat) (key : UInt8) : Action :=
  .call on (.update .background [key] (replicate 32 0x41))

/-- Two keys get the same value. -/
def sharedActions : List Action := [.new defaultLimits, putTwin 0 0x10, putTwin 1 0x20]

/-- Below a branch, a key that is held has a proof of two nodes and one that is not of one. -/
theorem single_proofs_exact_twins :
    ∃ entry ∈ (Session.run keccakShared false sharedActions).held,
      (∀ value, verifyRawMembership keccakShared .background entry.snapshot.hash [0x10] value
        [sharedBranch, sharedLeaf] defaultLimits = .ok () ↔ value = replicate 32 0x41) ∧
      verifyRawAbsence keccakShared .background entry.snapshot.hash [0x30] [sharedBranch]
        defaultLimits = .ok () := by
  obtain ⟨entry, here⟩ : ∃ entry,
      (Session.run keccakShared false sharedActions).held[2]? = some entry :=
    Option.isSome_iff_exists.mp (by decide +kernel)
  have mem : entry ∈ (Session.run keccakShared false sharedActions).held := mem_of_getElem? here
  have known : ∀ entry ∈ (Session.run keccakShared false sharedActions).held[2]?,
      (Snapshot.prove keccakShared (Session.run keccakShared false sharedActions).heap .background
        entry.snapshot [0x10] false entry.snapshot.limits.work).map Prod.fst =
          .ok [sharedBranch, sharedLeaf] ∧
      (Snapshot.prove keccakShared (Session.run keccakShared false sharedActions).heap .background
        entry.snapshot [0x30] false entry.snapshot.limits.work).map Prod.fst =
          .ok [sharedBranch] ∧
      (entry.version.contents [0x10]).map val = some (replicate 32 0x41) ∧
      (entry.version.contents [0x30]).map val = none := by
    decide +kernel
  obtain ⟨proved, proved', holds, absent⟩ := known entry here
  have two : Allows .background defaultLimits false (bytesToNibbles [0x10]) [0x10]
      ((entry.version.contents [0x10]).map val) [sharedBranch, sharedLeaf] := by
    rw [holds]
    exact ⟨rfl, live_background, by decide, by decide, by decide, by decide, by decide,
      by decide, by decide⟩
  have one : Allows .background defaultLimits false (bytesToNibbles [0x30]) [0x30]
      ((entry.version.contents [0x30]).map val) [sharedBranch] := by
    rw [absent]
    exact ⟨rfl, live_background, by decide, by decide, by decide, by decide, by decide,
      by decide, by decide⟩
  have apart : InjOn keccakShared {b | b ∈ (Session.run keccakShared false sharedActions).encodings
      keccakShared ++ [sharedBranch, sharedLeaf]} := injOn_list (by decide +kernel)
  obtain ⟨complete, sound, -⟩ := single_proofs_exact mem shared_empty apart [0x10]
  have apart' : InjOn keccakShared {b | b ∈ (Session.run keccakShared false sharedActions).encodings
      keccakShared ++ [sharedBranch]} := injOn_list (by decide +kernel)
  obtain ⟨complete', -, -⟩ := single_proofs_exact mem shared_empty apart' [0x30]
  refine ⟨entry, mem, fun value => ⟨fun accepted => ?_, ?_⟩, ?_⟩
  · exact Option.some.inj ((sound _ _ _ accepted).symm.trans holds)
  · rintro rfl
    have accepted := complete _ proved _ _ two
    obtain ⟨value, eq, same⟩ := Option.map_eq_some_iff.mp holds
    rw [eq] at accepted
    rwa [← same]
  · have accepted := complete' _ proved' _ _ one
    rwa [Option.map_eq_none_iff.mp absent] at accepted

end Golib.MerklePatriciaTrie
