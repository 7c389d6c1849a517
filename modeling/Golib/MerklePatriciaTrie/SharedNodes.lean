import Golib.Lib.FirstUse
import Golib.MerklePatriciaTrie.Closure
import Golib.MerklePatriciaTrie.NodeCanonical
import Golib.MerklePatriciaTrie.MultiProof

/-! The nodes that several paths share: what the builder of a proof has collected and what
the verifier has consumed, both told by the list of the nodes that were come to so far. -/
namespace Golib.MerklePatriciaTrie

open Program List
open MultiProofBuilder

variable {b : Bytes}

/-! ### What the builder has collected -/

variable {lookup : MultiProofLookup} {snap : Snapshot}

section

variable (keccak : Bytes → Root) {cursor : Cursor} {proof : Proof}

/-- The builder has come to the nodes of `touched`, and shows each of them once. -/
structure Gathers (K : Set Bytes) (touched : List Bytes) (builder : MultiProofBuilder) : Prop where
  inside : ∀ b ∈ touched, b ∈ K
  nodes : builder.nodes = firstUses [] touched
  total : builder.total = (builder.nodes.map length).sum
  seen : ∀ b ∈ K, keccak b ∈ builder.seen ↔ b ∈ touched
  decoded : ∀ root node, builder.decoded.lookup root = some node → ∃ trie, Stored keccak K trie ∧
    root = keccak (treeBytes keccak trie) ∧ node = freeze keccak trie
  complete : ∀ b ∈ K, (builder.decoded.lookup (keccak b)).isSome ↔ b ∈ touched

/-- The state of a generation: what was collected, and that each collected node took at most
one hash operation and one read; `extra` are the hash operations for keys. -/
structure Gathering (K : Set Bytes) (ctx : Context) (start : Work) (root : Node) (extra : Nat)
    (touched : List Bytes) (builder : MultiProofBuilder) (work : Work) : Prop where
  gathers : Gathers keccak K touched builder
  pending : ∀ root b, builder.pending.lookup root = some b → root = keccak b ∧ b ∈ K
  root : builder.root = root
  hashes : ctx.Live → start.hashesLeft ≤ work.hashesLeft + builder.nodes.length + extra
  reads : ctx.Live → start.readsLeft ≤ work.readsLeft + builder.nodes.length

/-- Enough of everything to collect the nodes. -/
structure Room (ctx : Context) (limits : Limits) (start : Work) (extra : Nat)
    (touched : List Bytes) : Prop where
  live : ctx.Live
  nodes : (firstUses [] touched).length ≤ limits.maxProofNodes
  bytes : ((firstUses [] touched).map length).sum ≤ limits.maxProofBytes
  hashes : (firstUses [] touched).length + extra ≤ start.hashesLeft
  reads : (firstUses [] touched).length ≤ start.readsLeft

/-- A generation comes to a node and collects the nodes up to it, or there is no room for them. -/
def Comes (K : Set Bytes) (ctx : Context) (limits : Limits) (start : Work) (root : Node)
    (extra : Nat)
    (touched : List Bytes) (trie : Tree) (m : Task (Node × MultiProofBuilder))
    (work : Work) : Prop :=
  Ends m work
    (fun r work' => r.1 = freeze keccak trie ∧
      Gathering keccak K ctx start root extra touched r.2 work')
    (fun e => e.Interrupts ∧ ¬ Room ctx limits start extra touched)

variable {H : Bytes → Root} {K : Set Bytes} {start w : Work} {r : Node} {extra : Nat}
  {touched : List Bytes} {builder : MultiProofBuilder} {t : Tree} {ctx : Context} {lim : Limits}
  {h : Heap} {top : Bool}

theorem Room.mono {extra' : Nat} {touched' : List Bytes}
    (room : Room ctx lim start extra touched) (fewer : extra' ≤ extra)
    (front : touched' <+: touched) : Room ctx lim start extra' touched' := by
  obtain ⟨rest, rfl⟩ := front
  have ns := room.nodes
  have bs := room.bytes
  have hs := room.hashes
  have reads := room.reads
  rw [firstUses_append, length_append] at ns hs reads
  rw [firstUses_append, map_append, sum_append] at bs
  exact ⟨room.live, by omega, by omega, by omega, by omega⟩

theorem mem_snoc {c : Bytes} (known : b ∈ touched) : c ∈ touched ++ [b] ↔ c ∈ touched := by
  rw [mem_append, mem_singleton]
  exact or_iff_left_of_imp fun eq => eq ▸ known

theorem forall_snoc (sub : ∀ c ∈ touched, c ∈ K) (mem : b ∈ K) : ∀ c ∈ touched ++ [b], c ∈ K :=
  forall_mem_append.mpr ⟨sub, forall_mem_singleton.mpr mem⟩

theorem Gathering.again (gathering : Gathering H K ctx start r extra touched builder w)
    (known : b ∈ touched) : Gathering H K ctx start r extra (touched ++ [b]) builder w := by
  obtain ⟨⟨sub, ns, tot, seen, decoded, complete⟩, pending, eq, hs, reads⟩ := gathering
  have members : ∀ c, c ∈ touched ++ [b] ↔ c ∈ touched := fun _ => mem_snoc known
  refine ⟨⟨fun c mem => sub c ((members c).mp mem), ?_, tot, ?_, decoded, ?_⟩, pending, eq,
    hs, reads⟩
  · rw [firstUses_snoc, if_pos known, ns]
  · intro c mem
    rw [members, seen c mem]
  · intro c mem
    rw [members, complete c mem]

theorem appendNode_ends (gathers : Gathers H K touched builder) (inj : Set.InjOn H K)
    (stored : Stored H K t) (fresh : treeBytes H t ∉ touched) {pending : NodeMap}
    (sound : ∀ r b, pending.lookup r = some b → r = H b ∧ b ∈ K) (node : Node)
    (hashes : ctx.Live → start.hashesLeft ≤ w.hashesLeft + (builder.nodes.length + 1) + extra)
    (reads : ctx.Live → start.readsLeft ≤ w.readsLeft + (builder.nodes.length + 1)) :
    Ends (appendNode lim (H (treeBytes H t)) (treeBytes H t)
        { builder with
          decoded := builder.decoded.insert (H (treeBytes H t)) (freeze H t)
          pending := pending
          root := node }) w
      (Gathering H K ctx start node extra (touched ++ [treeBytes H t]))
      (fun e => e.Interrupts ∧ ¬ Room ctx lim start extra (touched ++ [treeBytes H t])) := by
  have shown : firstUses [] (touched ++ [treeBytes H t]) = builder.nodes ++ [treeBytes H t] := by
    rw [firstUses_snoc, if_neg fresh, gathers.nodes]
  unfold appendNode
  dsimp only
  rw [if_neg (fun seen => fresh ((gathers.seen _ stored.mem).mp seen))]
  refine ends_guard (fun full => ⟨trivial, fun room => ?_⟩) fun _ => ?_
  · have nodes := room.nodes
    rw [shown, length_append, full, length_singleton] at nodes
    omega
  refine ends_guard (fun large => ⟨trivial, fun room => ?_⟩) fun _ => ?_
  · have bytes := room.bytes
    rw [shown, map_append, sum_append, ← gathers.total] at bytes
    simp only [map_cons, map_nil, sum_singleton] at bytes
    omega
  have eq : ∀ b ∈ K, H b = H (treeBytes H t) ↔ b = treeBytes H t :=
    fun b mem => ⟨fun collides => inj mem stored.mem collides, congrArg H⟩
  refine ends_pure ⟨⟨forall_snoc gathers.inside stored.mem, shown.symm, ?_, ?_, ?_, ?_⟩, sound, rfl,
    by rwa [length_append], by rwa [length_append]⟩
  · rw [map_append, sum_append, gathers.total]
    rfl
  · intro b mem
    rw [mem_cons, eq b mem, gathers.seen b mem, mem_append, mem_singleton]
    exact or_comm
  · intro r node found
    by_cases here : r = H (treeBytes H t)
    · subst here
      rw [AList.lookup_insert] at found
      cases found
      exact ⟨t, stored, rfl, rfl⟩
    · rw [AList.lookup_insert_ne here] at found
      exact gathers.decoded r node found
  · intro b mem
    rw [mem_append, mem_singleton, ← gathers.complete b mem, ← eq b mem]
    by_cases here : H b = H (treeBytes H t)
    · rw [here, AList.lookup_insert]
      simp
    · simp [here]

theorem decodePending_ends {encoded : Bytes} (inj : Set.InjOn H K) (stored : Stored H K t)
    (allowed : top = true ∨ rootBytes ≤ (treeBytes H t).length)
    (pending : ∀ root b, builder.pending.lookup root = some b → root = H b ∧ b ∈ K)
    (found : builder.pending.lookup (H (treeBytes H t)) = some encoded) (w : Work) :
    Ends (builder.decodePending H (H (treeBytes H t)) encoded top) w
      (fun r work' => encoded = treeBytes H t ∧ r = (freeze H t, { builder with
          decoded := builder.decoded.insert (H (treeBytes H t)) (freeze H t) }) ∧
        w.hashesLeft = work'.hashesLeft + 1 ∧ work'.readsLeft = w.readsLeft)
      (fun e => e.Interrupts ∧ w.hashesLeft = 0) := by
  obtain ⟨collides, known⟩ := pending _ _ found
  obtain rfl := inj stored.mem known collides
  unfold decodePending
  refine (hash_spends H _ w).bind ?_
  rintro _ work₁ ⟨rfl, spent, kept, -⟩
  refine ends_guard (fun differs => absurd rfl differs) fun _ => ?_
  refine ends_guard ?_ fun _ => ?_
  · rintro ⟨below, small⟩
    have large := allowed.resolve_left (by simp [below])
    omega
  rw [stored.decode]
  have some : freeze H t ≠ .nil := freeze_ne_nil stored.proper.ne_nil
  cases shape : freeze H t with
  | nil => exact absurd shape some
  | leaf | extension | branch | hash => exact ends_pure ⟨rfl, rfl, spent, kept⟩

section

variable {env : Env} (sound : env.Sound H K) (inj : Set.InjOn H K)
  (gathering : Gathering H K env.ctx start r extra touched builder w)

include sound inj gathering

theorem load_ends (stored : Stored H K t) (large : rootBytes ≤ (treeBytes H t).length)
    (found : (env.find (H (treeBytes H t))).isSome) :
    Comes H K env.ctx lim start r extra (touched ++ [treeBytes H t]) t
      (builder.load H env lim (H (treeBytes H t))) w := by
  obtain ⟨gathers, pending, rfl, hashes, reads⟩ := gathering
  unfold load
  cases cached : builder.decoded.lookup (H (treeBytes H t)) with
  | some node =>
    obtain ⟨other, stored', collides, rfl⟩ := gathers.decoded _ _ cached
    obtain rfl := stored.unique inj stored' (inj stored.mem stored'.mem collides)
    have known := (gathers.complete _ stored.mem).mp (by rw [cached]; rfl)
    exact ends_pure ⟨rfl, Gathering.again ⟨gathers, pending, rfl, hashes, reads⟩ known⟩
  | none =>
    have fresh : treeBytes H t ∉ touched := by
      intro known
      have some := (gathers.complete _ stored.mem).mpr known
      rw [cached] at some
      cases some
    -- with room for one more node there is a hash operation and a read left
    have spare : Room env.ctx lim start extra (touched ++ [treeBytes H t]) →
        env.ctx.Live ∧ 0 < w.hashesLeft ∧ 0 < w.readsLeft := by
      intro room
      have few := room.hashes
      have few' := room.reads
      have enough := hashes room.live
      have enough' := reads room.live
      rw [firstUses_snoc, if_neg fresh, length_append, length_singleton,
        ← gathers.nodes] at few few'
      exact ⟨room.live, by omega, by omega⟩
    have joined : ∀ work₁ : Work, w.hashesLeft = work₁.hashesLeft + 1 →
        w.readsLeft ≤ work₁.readsLeft + 1 →
        Comes H K env.ctx lim start builder.root extra (touched ++ [treeBytes H t]) t
          (appendNode lim (H (treeBytes H t))
            (treeBytes H t) { builder with
              decoded := builder.decoded.insert (H (treeBytes H t))
                (freeze H t) } >>=
            fun builder => pure (freeze H t, builder)) work₁ := by
      intro work₁ spent read
      refine (appendNode_ends gathers inj stored fresh pending builder.root
        (fun live => ?_) (fun live => ?_)).bind fun builder' _ joins => ends_pure ⟨rfl, joins⟩
      · have := hashes live
        omega
      · have := reads live
        omega
    cases waiting : builder.pending.lookup (H (treeBytes H t)) with
    | some encoded =>
      refine Ends.bind ((decodePending_ends inj stored (Or.inr large) pending waiting w).weaken
        (fun e stop => ⟨stop.1, fun room => ?_⟩)) ?_
      · have := spare room
        omega
      · rintro _ work₁ ⟨rfl, rfl, spent, read⟩
        exact joined work₁ spent (by omega)
    | none =>
      unfold Env.resolveEncodedChild
      rw [bind_assoc]
      refine Ends.bind ((resolveEncoded_found sound inj stored found w).unless spare) ?_
      rintro _ work₁ ⟨rfl, spent, read⟩
      rw [bind_assoc]
      exact ends_guard (fun small => absurd large (Nat.not_le.mpr small)) fun _ =>
        joined work₁ spent read

theorem branchChild_ends (stored : t ≠ .nil → Stored H K t)
    (found : ∀ b ∈ entry H t, (env.find (H b)).isSome) :
    Comes H K env.ctx lim start r extra (touched ++ shown H t) t
      (builder.branchChild H env lim (link H (treeBytes H t) (freeze H t))) w := by
  unfold link shown
  split
  · rw [append_nil]
    unfold branchChild
    cases shape : freeze H t with
    | hash r => exact absurd shape (freeze_ne_hash t r)
    | nil | leaf | extension | branch => exact ends_pure ⟨shape.symm, gathering⟩
  · rename_i large
    have large : rootBytes ≤ (treeBytes H t).length := by omega
    exact load_ends sound inj gathering (stored (ne_nil_of_large large)) large
      (found _ (mem_entry.mpr ⟨rfl, large⟩))

theorem buildExtensionChild_ends (stored : Stored H K t) (branching : t.IsBranch)
    (found : ∀ b ∈ entry H t, (env.find (H b)).isSome) :
    Comes H K env.ctx lim start r extra (touched ++ shown H t) t
      (builder.extensionChild H env lim (link H (treeBytes H t) (freeze H t))) w := by
  cases t with
  | nil | leaf | ext => exact absurd branching id
  | branch kids v =>
    unfold link shown
    split
    · rw [append_nil]
      exact ends_pure ⟨rfl, gathering⟩
    · rename_i large
      have large : rootBytes ≤ (treeBytes H (.branch kids v)).length := by omega
      refine Ends.bind (load_ends sound inj gathering stored large
        (found _ (mem_entry.mpr ⟨rfl, large⟩))) ?_
      rintro ⟨node, builder'⟩ work' ⟨rfl, gathering'⟩
      exact ends_pure ⟨rfl, gathering'⟩

end

/-! ### The root of a generation -/

theorem encodeFrozen_ends (ctx : Context) (stored : Stored H K t) (maximum : Nat) (w : Work) :
    Ends (encodeNodeBounded H ctx (freeze H t) maximum) w
      (fun r work' => r.1 = treeBytes H t ∧
        (∀ root b, r.2.lookup root = some b → root = H b ∧ b ∈ K) ∧
        (ctx.Live → work'.hashesLeft = w.hashesLeft ∧ work'.readsLeft = w.readsLeft))
      (fun e => e.Interrupts ∧ ¬ (ctx.Live ∧ (freeze H t).visits ≤ maximum)) := by
  have decoded : Decoded H (treeValue H t) (freeze H t) :=
    decodeNodeValue_decoded (stored.fits.here stored.proper.ne_nil)
      (decodeNodeValue_tree stored.proper stored.short)
  have whole := encodeNodeBounded_ends ctx (rep_freeze fun _ => stored).1 (freeze_ne_hash t)
    (Or.inr stored.proper) stored.short maximum w
  rw [decoded.hashes] at whole
  refine (whole.unless fun enough => ⟨enough.1, stored.fits, enough.2, Nat.zero_le _⟩).mono ?_
    (fun _ h => h)
  rintro r work' ⟨eq, -, persists, hashed, read⟩
  refine ⟨eq, fun root b found => ?_, fun _ => ⟨hashed, read⟩⟩
  obtain ⟨eq, mem⟩ := persists.sound root b found
  exact ⟨eq, stored.hashed_mem mem⟩

theorem gathers_new (snap : Snapshot) : Gathers H K [] (newMultiProofBuilder snap) :=
  ⟨by simp, rfl, rfl, by simp [newMultiProofBuilder], by simp [newMultiProofBuilder],
    by simp [newMultiProofBuilder]⟩

theorem Snapshot.Holds.proofEnv_sound (holds : snap.Holds H K h t) (ctx : Context) :
    (snap.proofEnv h ctx).Sound H K := holds.env_sound ctx

theorem Snapshot.Holds.isNil_root (holds : snap.Holds H K h t) : snap.root.isNil = t.isNil := by
  rcases holds.root with frozen | ⟨proper, hashed, -⟩
  · rw [frozen]
    exact (rep_freeze holds.stored).1.isNil_eq
  · rw [hashed]
    exact (Radix.isNil_eq_false.mpr proper).symm

theorem prepareRoot_ends (inj : Set.InjOn H K) (holds : snap.Holds H K h t)
    (found : ∀ b ∈ kept H snap.root t, (snap.find h (H b)).isSome) (w : Work) :
    Ends ((newMultiProofBuilder snap).prepareRoot H (snap.proofEnv h ctx) snap) w
      (Gathering H K ctx w (freeze H t) 0 (showAt H true t))
      (fun e => e.Interrupts ∧ ¬ (Room ctx snap.limits w 0 (showAt H true t) ∧
        snap.root.visits ≤ snap.limits.maxEncodingNodes)) := by
  have pending : ∀ r b, (newMultiProofBuilder snap).pending.lookup r = Option.some b →
      r = H b ∧ b ∈ K := by
    intro r b there
    rw [newMultiProofBuilder, Snapshot.lookup_materializePending] at there
    exact holds.pending r b there
  have occupied := holds.isNil_root
  unfold prepareRoot
  rcases eq_or_ne t .nil with rfl | some
  · have vacant : snap.root.isNil = true := occupied
    rw [if_pos vacant, showAt_nil]
    exact ends_pure ⟨gathers_new snap, pending, rfl, fun _ => le_rfl, fun _ => le_rfl⟩
  rw [Radix.isNil_eq_false.mpr some] at occupied
  have stored := holds.stored some
  rw [showAt_top some]
  have one : (firstUses [] [treeBytes H t]).length = 1 := rfl
  have spare : Room ctx snap.limits w 0 [treeBytes H t] →
      ctx.Live ∧ 0 < w.hashesLeft ∧ 0 < w.readsLeft := by
    intro room
    have hashes := room.hashes
    have reads := room.reads
    exact ⟨room.live, by omega, by omega⟩
  have hash : snap.hash = H (treeBytes H t) := by
    rw [holds.hash, rootHash_proper some]
  rw [if_neg (by simp [occupied]), hash]
  cases waiting : (newMultiProofBuilder snap).pending.lookup (H (treeBytes H t)) with
  | some encoded =>
    refine Ends.bind ((decodePending_ends inj stored (Or.inl rfl) pending waiting w).weaken
      (fun e stop => ⟨stop.1, fun enough => ?_⟩)) ?_
    · have := spare enough.1
      omega
    · rintro _ work₁ ⟨rfl, rfl, spent, read⟩
      exact (appendNode_ends (gathers_new snap) inj stored (by simp) pending _
        (fun _ => by omega) fun _ => by omega).unless And.left
  | none =>
    rcases holds.root with frozen | ⟨-, hashed, -⟩
    · have visits : snap.root.visits = (freeze H t).visits := congrArg Node.visits frozen
      rw [frozen]
      cases shape : freeze H t with
      | nil => exact absurd shape (freeze_ne_nil some)
      | hash r => exact absurd shape (freeze_ne_hash t r)
      | leaf | extension | branch =>
        dsimp only
        rw [← shape]
        refine Ends.bind ((encodeFrozen_ends ctx stored snap.limits.maxEncodingNodes w).weaken ?_)
          ?_
        · rintro e ⟨stop, lacking⟩
          exact ⟨stop, fun enough => lacking ⟨enough.1.live, visits ▸ enough.2⟩⟩
        rintro ⟨_, persisted⟩ work₁ ⟨rfl, sound, kept⟩
        refine ((hash_spends H _ work₁).weaken ?_).bind ?_
        · rintro e ⟨stop, spent⟩
          refine ⟨stop, fun enough => ?_⟩
          have left := spare enough.1
          have eq := kept enough.1.live
          omega
        rintro _ work₂ ⟨rfl, spent, read, -⟩
        refine ends_guard (fun differs => absurd rfl differs) fun _ => ?_
        refine (appendNode_ends (gathers_new snap) inj stored (by simp)
          (fun r b there => ?_) _ (fun live => ?_) fun live => ?_).unless And.left
        · rcases Option.or_eq_some_iff.mp ((lookup_merge _ _ _).symm.trans there)
            with new | ⟨-, old⟩
          · exact sound r b new
          · exact pending r b old
        · have := kept live
          omega
        · have := kept live
          omega
    · rw [hashed]
      have here : (snap.find h (H (treeBytes H t))).isSome := by
        refine found _ ?_
        rw [hashed, kept_hash]
        exact Multiset.mem_cons_self _ _
      refine Ends.bind ((resolveEncoded_found (holds.proofEnv_sound ctx) inj stored here
        w).weaken ?_) ?_
      · rintro e ⟨stop, lacking⟩
        exact ⟨stop, fun enough => lacking (spare enough.1)⟩
      · rintro _ work₁ ⟨rfl, spent, read⟩
        exact (appendNode_ends (gathers_new snap) inj stored (by simp) pending _
          (fun _ => by omega) fun _ => by omega).unless And.left

/-! ### What the verifier has consumed -/

/-- The lookup holds the nodes of the proof, under their hashes and in their order. -/
structure Indexes (keccak : Bytes → Root) (proof : Proof) (lookup : MultiProofLookup) : Prop where
  sound : ∀ root stored, lookup.nodes.lookup root = some stored →
    ∃ b ∈ proof, root = keccak b ∧ stored.size = b.length ∧ decodeNode b = .ok stored.decoded
  complete : ∀ b ∈ proof, (lookup.nodes.lookup (keccak b)).isSome
  order : lookup.order = proof.map keccak

/-- The verifier has come to the nodes of `touched`, and the proof shows them in this order. -/
structure Consumes (keccak : Bytes → Root)
    (K : Set Bytes) (proof touched : List Bytes) (cursor : Cursor) : Prop where
  inside : ∀ b ∈ touched, b ∈ K
  shown : firstUses [] touched <+: proof
  next : cursor.next = (firstUses [] touched).length
  used : ∀ b ∈ K, keccak b ∈ cursor.used ↔ b ∈ touched

/-- The verifier comes to a node, and the proof has shown the nodes up to it in their order. -/
def Reaches (keccak : Bytes → Root)
    (K : Set Bytes) (proof touched : List Bytes) (trie : Tree) (m : Task (Node × Cursor))
    (work : Work) : Prop :=
  Ends m work
    (fun r work' => work' = work ∧ r.1 = freeze keccak trie ∧ Consumes keccak K proof touched r.2)
    (fun _ => ¬ firstUses [] touched <+: proof)

theorem Consumes.again (consumes : Consumes H K proof touched cursor) (known : b ∈ touched) :
    Consumes H K proof (touched ++ [b]) cursor := by
  have eq : firstUses [] (touched ++ [b]) = firstUses [] touched := by
    rw [firstUses_snoc, if_pos known]
  refine ⟨forall_snoc consumes.inside (consumes.inside b known), eq ▸ consumes.shown,
    eq ▸ consumes.next, fun c mem => ?_⟩
  rw [consumes.used c mem, mem_snoc known]

theorem Consumes.first (inj : Set.InjOn H K) (consumes : Consumes H K proof touched cursor)
    (fresh : b ∉ touched) (mem : b ∈ K) (shown : firstUses [] touched ++ [b] <+: proof) :
    Consumes H K proof (touched ++ [b]) ⟨H b :: cursor.used, cursor.next + 1⟩ := by
  have more : firstUses [] (touched ++ [b]) = firstUses [] touched ++ [b] := by
    rw [firstUses_snoc, if_neg fresh]
  refine ⟨forall_snoc consumes.inside mem, more ▸ shown, ?_, fun c sub => ?_⟩
  · rw [more, length_append, ← consumes.next]
    rfl
  · rw [mem_append, mem_singleton, ← consumes.used c sub, mem_cons,
      inj.eq_iff sub mem]
    exact or_comm

theorem consumes_start (proof : Proof) : Consumes H K proof [] .start :=
  ⟨by simp, nil_prefix, rfl, by simp [Cursor.start]⟩

theorem Indexes.insert {node : Node}
    (indexes : Indexes H proof lookup) (decoded : decodeNode b = .ok node) :
    Indexes H (proof ++ [b])
      ⟨lookup.nodes.insert (H b) ⟨node, b.length⟩, lookup.order ++ [H b]⟩ := by
  refine ⟨fun r st found => ?_, fun c mem => ?_, ?_⟩
  · by_cases here : r = H b
    · subst here
      rw [AList.lookup_insert] at found
      cases found
      exact ⟨b, by simp, rfl, rfl, decoded⟩
    · rw [AList.lookup_insert_ne here] at found
      obtain ⟨c, mem, known⟩ := indexes.sound r st found
      exact ⟨c, by simp [mem], known⟩
  · by_cases here : H c = H b
    · rw [here, AList.lookup_insert]
      rfl
    · rw [AList.lookup_insert_ne here]
      rcases mem_append.mp mem with old | new
      · exact indexes.complete c old
      · exact absurd (congrArg H (mem_singleton.mp new)) here
  · rw [indexes.order, map_append]
    rfl

/-- Where the nodes are those of tries and no node comes twice, only the budget can be in the
way of the lookup. -/
theorem newMultiProofLookup_ends {seen : Proof} (indexes : Indexes H seen lookup) (w : Work) :
    Ends (newMultiProofLookup H ctx lookup proof) w
      (fun lookup' work' => Indexes H (seen ++ proof) lookup' ∧
        w.hashesLeft = work'.hashesLeft + proof.length)
      (fun e => Set.InjOn H {b | b ∈ seen ++ proof} → (seen ++ proof).Nodup →
        (∀ b ∈ proof, ∃ node, decodeNode b = .ok node ∧ node ≠ .nil) →
        e.Interrupts ∧ ¬ (ctx.Live ∧ proof.length ≤ w.hashesLeft)) := by
  induction proof generalizing seen lookup w with
  | nil =>
    rw [append_nil]
    exact ends_pure ⟨indexes, rfl⟩
  | cons b proof ih =>
    refine ((checkContext_live ctx w).weaken (fun e stop _ _ _ =>
      ⟨stop.1, fun enough => stop.2 enough.1⟩)).bind ?_
    rintro _ _ ⟨polls, rfl⟩
    refine ((hash_spends H b _).weaken ?_).bind ?_
    · rintro e ⟨stop, spent⟩ - - -
      refine ⟨stop, fun enough => ?_⟩
      have spent : w.hashesLeft = 0 := spent
      rw [length_cons] at enough
      omega
    rintro _ work₁ ⟨rfl, spent, -, -⟩
    refine ends_guard (fun known apart nodup _ => ?_) fun fresh => ?_
    · obtain ⟨st, found⟩ := Option.isSome_iff_exists.mp known
      obtain ⟨c, mem, collides, -⟩ := indexes.sound _ _ found
      obtain rfl := apart (by simp) (by simp [mem]) collides
      have := (nodup_append.mp nodup).2.2 b mem b (by simp)
      exact absurd rfl this
    cases decoded : decodeNode b with
    | error fault =>
      refine ends_fail fun _ _ ns => ?_
      obtain ⟨node, eq, -⟩ := ns b (by simp)
      rw [decoded] at eq
      cases eq
    | ok node =>
      cases node with
      | nil =>
        refine ends_fail fun _ _ ns => ?_
        obtain ⟨node, eq, some⟩ := ns b (by simp)
        rw [decoded] at eq
        cases eq
        exact absurd rfl some
      | leaf | extension | branch | hash =>
        have together : seen ++ [b] ++ proof = seen ++ b :: proof := by simp
        have spent : w.hashesLeft = work₁.hashesLeft + 1 := spent
        refine (ih (indexes.insert decoded) work₁).mono ?_ ?_
        · rintro lookup' work' ⟨all, spent'⟩
          rw [together] at all
          refine ⟨all, ?_⟩
          rw [length_cons]
          omega
        · rw [together]
          intro e stop apart nodup ns
          obtain ⟨interrupts, lacking⟩ := stop apart nodup fun c mem => ns c (by simp [mem])
          refine ⟨interrupts, fun enough => lacking ⟨enough.1, ?_⟩⟩
          rw [length_cons] at enough
          omega

/-- A proof that shows nodes of tries, each of them once. -/
def ShowsOnce (keccak : Bytes → Root) (K : Set Bytes) (proof : Proof) : Prop :=
  proof.Nodup ∧ ∀ b ∈ proof, ∃ s, Stored keccak K s ∧ b = treeBytes keccak s

theorem newMultiProofLookup_indexes (inj : Set.InjOn H K) (sub : ∀ b ∈ proof, b ∈ K) (w : Work) :
    Ends (newMultiProofLookup H ctx ⟨∅, []⟩ proof) w
      (fun lookup work' => Indexes H proof lookup ∧ w.hashesLeft = work'.hashesLeft + proof.length)
      (fun e => ShowsOnce H K proof →
        e.Interrupts ∧ ¬ (ctx.Live ∧ proof.length ≤ w.hashesLeft)) := by
  have start : Indexes H [] ⟨∅, []⟩ := ⟨fun r st found => (by simp at found), by simp, rfl⟩
  refine (newMultiProofLookup_ends start w).weaken fun e stop shows => ?_
  refine stop (inj.mono fun b mem => sub b mem) shows.1 fun b mem => ?_
  obtain ⟨s, st, rfl⟩ := shows.2 b mem
  exact ⟨_, st.decode, freeze_ne_nil st.proper.ne_nil⟩

theorem Snapshot.Holds.find_below (holds : snap.Holds H K h t)
    (found : ∀ b ∈ kept H snap.root t, (snap.find h (H b)).isSome) :
    ∀ b ∈ hashedBelow H t, (snap.find h (H b)).isSome := by
  intro b mem
  apply found
  rcases holds.root with frozen | ⟨-, hashed, -⟩
  · rwa [frozen, (rep_freeze holds.stored).2]
  · rw [hashed, kept_hash]
    exact Multiset.mem_cons_of_mem mem

section

variable (inj : Set.InjOn H K) (sub : ∀ b ∈ proof, b ∈ K)
  (indexes : Indexes H proof lookup) (consumes : Consumes H K proof touched cursor)

include inj sub indexes consumes

/-- The verifier comes to a node: the proof shows it next, unless it has been shown. -/
theorem resolve_consumes (stored : Stored H K t)
    (allowed : top = true ∨ rootBytes ≤ (treeBytes H t).length) (w : Work) :
    Reaches H K proof (touched ++ [treeBytes H t]) t
      (Program.lift (lookup.resolve (H (treeBytes H t)) top cursor)) w := by
  have whole : ∀ stored', lookup.nodes.lookup (H (treeBytes H t)) = some stored' →
      stored'.decoded = freeze H t ∧ stored'.size = (treeBytes H t).length := by
    intro stored' found
    obtain ⟨b, mem, collides, size, decoded⟩ := indexes.sound _ _ found
    obtain rfl := inj stored.mem (sub b mem) collides
    rw [stored.decode] at decoded
    exact ⟨(Except.ok.inj decoded).symm, size⟩
  unfold MultiProofLookup.resolve
  cases found : lookup.nodes.lookup (H (treeBytes H t)) with
  | none =>
    refine ends_fail fun front => ?_
    have mem : treeBytes H t ∈ firstUses [] (touched ++ [treeBytes H t]) :=
      mem_firstUses.mpr ⟨by simp, by simp⟩
    have some := indexes.complete _ (front.subset mem)
    rw [found] at some
    cases some
  | some stored' =>
    obtain ⟨decoded, size⟩ := whole stored' found
    dsimp only
    split
    · rename_i small
      have large := allowed.resolve_left (by simp [small.1])
      omega
    split
    · rename_i used
      have known := (consumes.used _ stored.mem).mp used
      exact ends_pure ⟨rfl, decoded, consumes.again known⟩
    · rename_i unused
      have fresh : treeBytes H t ∉ touched :=
        fun known => unused ((consumes.used _ stored.mem).mpr known)
      obtain ⟨rest, split⟩ := consumes.shown
      have upcoming : lookup.order[cursor.next]? = (rest.map H)[0]? := by
        rw [indexes.order, ← split, map_append, consumes.next, getElem?_append_right (by simp)]
        simp
      split
      · rename_i here
        rw [here] at upcoming
        cases rest with
        | nil => cases upcoming
        | cons b rest =>
          have collides : H (treeBytes H t) = H b := Option.some.inj upcoming
          obtain rfl := inj stored.mem (sub b (by rw [← split]; simp)) collides
          exact ends_pure ⟨rfl, decoded,
            consumes.first inj fresh stored.mem ⟨rest, by rw [← split]; simp⟩⟩
      · rename_i other
        refine ends_fail fun front => other ?_
        rw [upcoming]
        rw [firstUses_snoc, if_neg fresh, ← split, prefix_append_right_inj] at front
        obtain ⟨rest', rfl⟩ := front
        rfl

theorem lookupBranchChild_ends (stored : t ≠ .nil → Stored H K t) (w : Work) :
    Reaches H K proof (touched ++ shown H t) t (Program.lift (lookup.branchChild
      (link H (treeBytes H t) (freeze H t)) cursor)) w := by
  unfold link shown
  split
  · rw [append_nil]
    unfold MultiProofLookup.branchChild
    cases shape : freeze H t with
    | hash r => exact absurd shape (freeze_ne_hash t r)
    | nil | leaf | extension | branch =>
      exact ends_pure ⟨rfl, shape.symm, consumes⟩
  · rename_i large
    have large : rootBytes ≤ (treeBytes H t).length := by omega
    exact resolve_consumes inj sub indexes consumes (stored (ne_nil_of_large large))
      (Or.inr large) w

theorem lookupExtensionChild_ends (stored : Stored H K t) (branching : t.IsBranch) (w : Work) :
    Reaches H K proof (touched ++ shown H t) t (Program.lift (lookup.extensionChild
      (link H (treeBytes H t) (freeze H t)) cursor)) w := by
  cases t with
  | nil | leaf | ext => exact absurd branching id
  | branch kids v =>
    unfold link shown
    split
    · rw [append_nil]
      exact ends_pure ⟨rfl, rfl, consumes⟩
    · rename_i large
      have large : rootBytes ≤ (treeBytes H (.branch kids v)).length := by omega
      unfold MultiProofLookup.extensionChild
      rw [Program.lift_seq]
      refine Ends.bind (resolve_consumes inj sub indexes consumes stored (Or.inr large)
        w) ?_
      rintro ⟨node, cursor'⟩ _ ⟨rfl, rfl, consumes'⟩
      exact ends_pure ⟨rfl, rfl, consumes'⟩

end

end

end Golib.MerklePatriciaTrie
