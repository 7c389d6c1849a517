import Mathlib.Algebra.Order.BigOperators.Group.List
import Mathlib.Algebra.Order.Group.Nat
import Golib.MerklePatriciaTrie.Stored

/-! What encoding a node yields, what it stores by hash and what it takes. -/
namespace Golib.MerklePatriciaTrie

open Program Multiset

/-- The errors that say nothing about the trie: a cancelled context, a resource limit,
or an encoding larger than the codec allows. -/
def Err.Interrupts : Err → Prop
  | .invalidContext => True
  | .canceled _ => True
  | .resourceLimit _ => True
  | .malformedNode (.encodeRLP _) => True
  | .storageRead .invalidContext => True
  | .storageRead (.canceled _) => True
  | _ => False

def Err.OfContext : Err → Prop
  | .invalidContext => True
  | .canceled _ => True
  | _ => False

theorem Err.OfContext.interrupts {e : Err} (stop : e.OfContext) : e.Interrupts := by
  cases e <;> trivial

def Context.Live (ctx : Context) : Prop := ∃ answers, ctx = some answers ∧ ∀ n, answers n = none

theorem live_background : Context.background.Live := ⟨_, rfl, fun _ => rfl⟩

theorem checkContext_ends (ctx : Context) (w : Work) :
    Ends (checkContext ctx) w (fun _ work' => ∃ polls, work' = { w with polls })
      (fun e => e.OfContext ∧ ¬ ctx.Live) := by
  unfold Ends checkContext
  cases ctx with
  | none => exact ⟨trivial, fun ⟨_, given, _⟩ => (by cases given)⟩
  | some answers =>
    dsimp only
    cases answer : answers w.polls with
    | none => exact ⟨_, rfl⟩
    | some cause =>
      refine ⟨trivial, ?_⟩
      rintro ⟨_, ⟨⟩, quiet⟩
      rw [quiet] at answer
      cases answer

theorem checkContext_live (ctx : Context) (w : Work) :
    Ends (checkContext ctx) w (fun _ work' => ∃ polls, work' = { w with polls })
      (fun e => e.Interrupts ∧ ¬ ctx.Live) :=
  (checkContext_ends ctx w).weaken fun _ stop => ⟨stop.1.interrupts, stop.2⟩

theorem hash_spends (H : Bytes → Root) (v : Bytes) (w : Work) :
    Ends (hash H v) w
      (fun r work' => r = H v ∧ w.hashesLeft = work'.hashesLeft + 1 ∧
        work'.readsLeft = w.readsLeft ∧ work'.resolved = w.resolved)
      (fun e => e.Interrupts ∧ w.hashesLeft = 0) := by
  unfold Ends hash
  by_cases spent : w.hashesLeft = 0
  · rw [if_pos spent]
    exact ⟨trivial, spent⟩
  · rw [if_neg spent]
    exact ⟨rfl, (Nat.sub_add_cancel (Nat.pos_of_ne_zero spent)).symm, rfl, rfl⟩

variable {n c : Node} {p : Path} {kids : Nibble → Node} {v : Bytes}

theorem Node.isNil_eq_true : n.isNil = true ↔ n = .nil := by
  cases n <;> simp [Node.isNil]

/-! ### Constructors -/

theorem newLeaf_ok (made : newLeaf p v = .ok n) :
    n = .leaf p v ∧ v ≠ [] ∧ p.length ≤ maxCompactPathNibbles := by
  unfold newLeaf at made
  split at made
  · cases made
  rename_i some
  obtain ⟨_, valid, made⟩ := except_bind_ok.mp made
  cases made
  unfold validateNibbles at valid
  split at valid
  · cases valid
  · refine ⟨rfl, ?_, by omega⟩
    rintro rfl
    exact some rfl

theorem newExtension_ok (made : newExtension p c = .ok n) :
    n = .extension p c ∧ p ≠ [] ∧ p.length ≤ maxCompactPathNibbles ∧ c.Opens := by
  unfold newExtension at made
  split at made
  · cases made
  rename_i some
  obtain ⟨_, valid, made⟩ := except_bind_ok.mp made
  unfold validateNibbles at valid
  split at valid
  · cases valid
  rename_i short
  have path_some : p ≠ [] := by
    rintro rfl
    exact some rfl
  cases c with
  | nil | leaf | extension => cases made
  | branch | hash =>
    cases made
    exact ⟨rfl, path_some, by omega, trivial⟩

theorem newBranch_ok (made : newBranch kids v = .ok n) : n = .branch kids v := by
  unfold newBranch at made
  dsimp only at made
  split at made
  · cases made
  split at made
  · cases made
  · cases made
    rfl

/-- A node that the constructors make, of hashes and of other such nodes. -/
inductive Node.Built : Node → Prop where
  | nil : Built .nil
  | hash (root : Root) : Built (.hash root)
  | leaf {path : Path} {value : Bytes} {node : Node} (made : newLeaf path value = .ok node) :
      Built node
  | extension {path : Path} {child node : Node} (below : child.Built)
      (made : newExtension path child = .ok node) : Built node
  | branch {children : Nibble → Node} {value : Bytes} {node : Node}
      (below : ∀ i, (children i).Built) (made : newBranch children value = .ok node) : Built node

/-! ### The encoding of a node -/

section

variable (keccak : Bytes → Root)

/-- What a parent holds of a child with the given encoding. -/
def childValue (child : Node) (encoded : Rlp.Value) : Rlp.Value :=
  match child with
  | .hash root => .string root.bytes
  | _ => reference keccak encoded

def Node.encoded : Node → Rlp.Value
  | .nil => .string []
  | .leaf path value => .list [.string (compactBytes path true), .string value]
  | .extension path child =>
    .list [.string (compactBytes path false), childValue keccak child child.encoded]
  | .branch children value =>
    .list ((List.finRange 16).map (fun i => childValue keccak (children i) (children i).encoded) ++
      [.string value])
  | .hash root => .string root.bytes

def Node.visits : Node → Nat
  | .nil => 1
  | .leaf _ _ => 1
  | .extension _ child => child.visits + 1
  | .branch children _ =>
    ((List.finRange 16).map fun i => if (children i).isNil then 0 else (children i).visits).sum + 1
  | .hash _ => 0

/-- Whether the parent of a node names it by its hash. -/
def Node.named : Node → Nat
  | .hash _ => 0
  | node => if (node.encoded keccak).bytes.length < rootBytes then 0 else 1

def Node.hashes : Node → Nat
  | .extension _ child => child.hashes + child.named keccak
  | .branch children _ =>
    ((List.finRange 16).map fun i => (children i).hashes + (children i).named keccak).sum
  | _ => 0

/-- Every node that is encoded stays within the limits of the codec. -/
def Node.Fits : Node → Prop
  | .hash _ => True
  | .nil => True
  | .leaf path value => (Node.encoded keccak (.leaf path value)).Fits Rlp.defaultLimits
  | .extension path child =>
    (Node.encoded keccak (.extension path child)).Fits Rlp.defaultLimits ∧ child.Fits
  | .branch children value =>
    (Node.encoded keccak (.branch children value)).Fits Rlp.defaultLimits ∧ ∀ i, (children i).Fits

/-- The encodings that are stored: those of the nodes below that are named by their hash. -/
def Node.stores : Node → Multiset Bytes
  | .extension _ child =>
    .replicate (child.named keccak) (child.encoded keccak).bytes + child.stores
  | .branch children _ =>
    ∑ i, (.replicate ((children i).named keccak) ((children i).encoded keccak).bytes +
      (children i).stores)
  | _ => 0

def Node.entries (child : Node) : Multiset Bytes :=
  .replicate (child.named keccak) (child.encoded keccak).bytes + child.stores keccak

/-- A map of encodings by their hashes holds all of `hashed` that is not in `named`. -/
structure Persists (nodes : NodeMap) (hashed named : Multiset Bytes) : Prop where
  sound : ∀ root b, nodes.lookup root = some b → root = keccak b ∧ b ∈ hashed
  complete : ∀ b ∈ hashed, b ∈ named ∨ (nodes.lookup (keccak b)).isSome

structure Node.Yields (node : Node) (encoding : NodeEncoding) : Prop where
  value : encoding.value = node.encoded keccak
  bytes : encoding.bytes = (node.encoded keccak).bytes
  persists : Persists keccak encoding.persisted (node.stores keccak) 0

structure Node.Refers (child : Node) (r : Rlp.Value × NodeMap) : Prop where
  value : r.1 = childValue keccak child (child.encoded keccak)
  persists : Persists keccak r.2 (child.entries keccak) 0

structure RefersAll (children : Nibble → Node) (digits : List Nibble)
    (r : List Rlp.Value × NodeMap) : Prop where
  values : r.1 = digits.map fun i => childValue keccak (children i) ((children i).encoded keccak)
  persists : Persists keccak r.2 (digits.map fun i => (children i).entries keccak).sum 0

end

section

variable {H : Bytes → Root} {ns : NodeMap} {hashed named : Multiset Bytes}

variable (H) in
theorem encoded_nil_small : (Node.encoded H .nil).bytes.length < rootBytes := by
  rw [Node.encoded]
  decide

theorem Node.named_le (node : Node) : node.named H ≤ 1 := by
  unfold Node.named
  split
  · exact Nat.zero_le 1
  · split <;> decide

/-- No more nodes are hashed than visited. -/
theorem Node.hashes_le (node : Node) :
    node.hashes H + node.named H ≤ if node.isNil then 0 else node.visits := by
  induction node with
  | nil =>
    have small : (Node.nil).named H = 0 := by
      rw [Node.named]
      · exact if_pos (encoded_nil_small H)
      · simp
    rw [small]
    exact Nat.le_refl 0
  | leaf p v => exact Nat.add_le_add (Nat.le_refl 0) (Node.named_le _)
  | extension p c ih =>
    refine Nat.add_le_add (le_trans ih ?_) (Node.named_le _)
    split
    · exact Nat.zero_le _
    · exact Nat.le_refl _
  | branch kids v ih => exact Nat.add_le_add (List.sum_le_sum fun i _ => ih i) (Node.named_le _)
  | hash root => exact Nat.le_refl 0

theorem Node.hashes_lt {node : Node} (inner : ∀ root, node ≠ .hash root) :
    node.hashes H + 1 ≤ node.visits := by
  cases node with
  | nil | leaf => exact Nat.le_refl 1
  | extension p c =>
    refine Nat.succ_le_succ (le_trans (Node.hashes_le c) ?_)
    split
    · exact Nat.zero_le _
    · exact Nat.le_refl _
  | branch kids v => exact Nat.succ_le_succ (List.sum_le_sum fun i _ => Node.hashes_le (kids i))
  | hash root => exact absurd rfl (inner root)

theorem persists_named (hashed : Multiset Bytes) : Persists H ∅ hashed hashed :=
  ⟨fun r b found => by simp at found, fun b mem => Or.inl mem⟩

theorem lookup_union (ns ns' : NodeMap) (r : Root) :
    (ns ∪ ns').lookup r = (ns.lookup r).or (ns'.lookup r) := by
  by_cases mem : r ∈ ns
  · rw [AList.lookup_union_left mem]
    obtain ⟨b, found⟩ := Option.isSome_iff_exists.mp (AList.lookup_isSome.mpr mem)
    rw [found]
    rfl
  · rw [AList.lookup_union_right mem, AList.lookup_eq_none.mpr mem]
    rfl

theorem Persists.merge {nodes' : NodeMap} {hashed' named' : Multiset Bytes}
    (left : Persists H ns hashed named) (right : Persists H nodes' hashed' named') :
    Persists H (mergePersisted ns nodes') (hashed + hashed') (named + named') := by
  refine ⟨?_, ?_⟩
  · intro r b found
    rw [mergePersisted, lookup_union] at found
    rw [mem_add]
    rcases Option.or_eq_some_iff.mp found with there | ⟨-, here⟩
    · exact (right.sound r b there).imp_right Or.inr
    · exact (left.sound r b here).imp_right Or.inl
  · intro b mem
    rw [mergePersisted, lookup_union, mem_add]
    rcases mem_add.mp mem with here | there
    · exact (left.complete b here).imp Or.inl fun found => by simp [found]
    · exact (right.complete b there).imp Or.inr fun found => by simp [found]

theorem Persists.insert {b : Bytes} (persists : Persists H ns hashed named) :
    Persists H (ns.insert (H b) b) ({b} + hashed) named := by
  refine ⟨?_, ?_⟩
  · intro r b' found
    by_cases here : r = H b
    · rw [here, AList.lookup_insert] at found
      cases found
      exact ⟨here, by simp⟩
    · rw [AList.lookup_insert_ne here] at found
      exact (persists.sound r b' found).imp_right fun old => mem_add.mpr (Or.inr old)
  · intro b' mem
    by_cases here : H b' = H b
    · right
      rw [here, AList.lookup_insert]
      rfl
    · rw [AList.lookup_insert_ne here]
      apply persists.complete
      rcases mem_add.mp mem with new | old
      · rw [mem_singleton.mp new] at here
        exact absurd rfl here
      · exact old

theorem childValue_inner (inner : ∀ r, c ≠ .hash r) (v : Rlp.Value) :
    childValue H c v = reference H v := by
  cases c with
  | hash r => exact absurd rfl (inner r)
  | nil | leaf | extension | branch => rfl

theorem named_inner (inner : ∀ r, c ≠ .hash r) :
    c.named H = if (c.encoded H).bytes.length < rootBytes then 0 else 1 := by
  cases c with
  | hash r => exact absurd rfl (inner r)
  | nil | leaf | extension | branch => rfl

theorem Persists.and_named (persists : Persists H ns hashed 0)
    (named : Multiset Bytes) : Persists H ns (hashed + named) named := by
  refine ⟨fun r b found => ?_, fun b mem => ?_⟩
  · exact (persists.sound r b found).imp_right fun st => mem_add.mpr (Or.inl st)
  · rcases mem_add.mp mem with st | other
    · exact Or.inr ((persists.complete b st).resolve_left (notMem_zero b))
    · exact Or.inl other

/-! ### What it takes -/

variable {ctx : Context}

theorem visitEncoding_exact (left : Nat) (w : Work) :
    Ends (visitEncoding ctx left) w
      (fun left' work' => left' + 1 = left ∧ work'.hashesLeft = w.hashesLeft ∧
        work'.readsLeft = w.readsLeft)
      (fun e => e.Interrupts ∧ ¬ (ctx.Live ∧ 0 < left)) := by
  refine ((checkContext_live ctx w).unless fun enough => enough.1).bind ?_
  rintro _ _ ⟨polls, rfl⟩
  apply ends_bind
  exact ends_failIf (fun none => ⟨trivial, by omega⟩) (fun some => ends_pure ⟨by omega, rfl, rfl⟩)

variable (ctx) in
/-- A part of an encoding that takes so many nodes and hash operations: it succeeds with
`done` only when it fits, and it does when the context and the budgets allow it. -/
def Takes {α : Type} (visits hashes : Nat) (fits : Prop) (done : α → Prop)
    (m : Nat → Task (α × Nat)) : Prop :=
  ∀ left work, Ends (m left) work
    (fun r work' => done r.1 ∧ r.2 + visits = left ∧ work'.hashesLeft + hashes = work.hashesLeft ∧
      work'.readsLeft = work.readsLeft ∧ fits)
    (fun e => e.Interrupts ∧ ¬ (ctx.Live ∧ fits ∧ visits ≤ left ∧ hashes ≤ work.hashesLeft))

section

variable {α : Type} {vs hs visits' hashes' : Nat} {fits fits' : Prop} {done : α → Prop}
  {m : Nat → Task (α × Nat)}

theorem takes_pure {a : α}
    (holds : done a) : Takes ctx 0 0 True done (fun left => pure (a, left)) :=
  fun _ _ => ends_pure ⟨holds, rfl, rfl, rfl, trivial⟩

theorem Takes.bind {β : Type} {done' : β → Prop} {next : α → Nat → Task (β × Nat)}
    (first : Takes ctx vs hs fits done m)
    (rest : ∀ a, done a → Takes ctx visits' hashes' fits' done' (next a)) :
    Takes ctx (vs + visits') (hs + hashes') (fits ∧ fits') done'
      (fun left => m left >>= fun r => next r.1 r.2) := by
  intro left w
  refine ((first left w).unless fun enough =>
    ⟨enough.1, enough.2.1.1, by omega, by omega⟩).bind ?_
  rintro ⟨a, left'⟩ work' ⟨holds, visited, hashed, read, fit⟩
  refine ((rest a holds left' work').unless fun enough =>
    ⟨enough.1, enough.2.1.2, by omega, by omega⟩).mono ?_ (fun _ h => h)
  rintro r work'' ⟨holds', visited', hashed', read', fit'⟩
  exact ⟨holds', by omega, by omega, read'.trans read, fit, fit'⟩

theorem Takes.congr (takes : Takes ctx vs hs fits done m) (eq : vs = visits')
    (same' : hs = hashes') (iff : fits ↔ fits') : Takes ctx visits' hashes' fits' done m := by
  subst eq same'
  rwa [propext iff] at takes

theorem takes_visit (rest : Takes ctx vs hs fits done m) :
    Takes ctx (vs + 1) hs fits done (fun left => visitEncoding ctx left >>= m) := by
  intro left w
  refine ((visitEncoding_exact left w).unless fun enough => ⟨enough.1, by omega⟩).bind ?_
  rintro left' work' ⟨visited, hashed, read⟩
  refine ((rest left' work').unless fun enough =>
    ⟨enough.1, enough.2.1, by omega, by omega⟩).mono ?_ (fun _ h => h)
  rintro r work'' ⟨holds, visited', hashed', read', fit⟩
  exact ⟨holds, by omega, by omega, read'.trans read, fit⟩

theorem takes_value {v : Rlp.Value} {persisted : NodeMap}
    (eq : v = n.encoded H) (persists : Persists H persisted (n.stores H) 0) :
    Takes ctx 0 0 ((n.encoded H).Fits Rlp.defaultLimits) (n.Yields H)
      (fun left => do
        let encoding ← wellFormed (encodeRLPValue v persisted)
        pure (encoding, left)) := by
  intro left w
  subst eq
  unfold encodeRLPValue
  cases made : Rlp.encodeValue (n.encoded H) Rlp.defaultLimits with
  | ok enc =>
    obtain ⟨rfl, fits⟩ := Rlp.encodeValue_ok made
    exact ⟨⟨rfl, rfl, persists⟩, rfl, rfl, rfl, fits⟩
  | error fault =>
    refine ⟨trivial, fun enough => ?_⟩
    rw [Rlp.encodeValue_bytes enough.2.1] at made
    cases made

end

theorem childReference_takes {encoding : NodeEncoding}
    (inner : ∀ r, c ≠ .hash r) (yields : c.Yields H encoding) :
    Takes ctx 0 (c.named H) True (c.Refers H)
      (fun left => do
        let reference ← childReference H encoding
        pure (reference, left)) := by
  intro left w
  have held : childValue H c (c.encoded H) = _ := childValue_inner inner _
  unfold reference at held
  unfold childReference
  rw [yields.bytes, named_inner inner]
  split
  · rename_i small
    rw [if_pos small] at held
    refine ends_pure ⟨⟨yields.value.trans held.symm, ?_⟩, rfl, rfl, rfl, trivial⟩
    rw [Node.entries, named_inner inner, if_pos small, replicate_zero, zero_add]
    exact yields.persists
  · rename_i large
    rw [if_neg large] at held
    refine ends_bind (((hash_spends H _ w).weaken ?_).bind ?_)
    · rintro e ⟨stop, spent⟩
      exact ⟨stop, by omega⟩
    · rintro r work' ⟨rfl, spent, read, -⟩
      refine ends_pure (ends_pure ⟨⟨held.symm, ?_⟩, rfl, spent.symm, read, trivial⟩)
      rw [Node.entries, named_inner inner, if_neg large, replicate_one]
      exact yields.persists.insert

theorem encodeChildReference_takes {encode : Nat → Task (NodeEncoding × Nat)}
    (below : (∀ r, c ≠ .hash r) → Takes ctx c.visits (c.hashes H) (c.Fits H) (c.Yields H) encode) :
    Takes ctx c.visits (c.hashes H + c.named H) (c.Fits H)
      (c.Refers H) (encodeChildReference H encode c) := by
  cases c with
  | hash r => exact takes_pure ⟨rfl, persists_named 0⟩
  | nil | leaf | extension | branch =>
    exact ((below (by simp)).bind fun _ yields =>
      childReference_takes (by simp) yields).congr rfl rfl
      (by simp)

theorem encodeChildren_takes {refer : Nibble → Nat → Task ((Rlp.Value × NodeMap) × Nat)}
    {vs hs : Nibble → Nat} {fits : Nibble → Prop}
    (each : ∀ i, Takes ctx (vs i) (hs i) (fits i) ((kids i).Refers H) (refer i))
    (digits : List Nibble) :
    Takes ctx (digits.map vs).sum (digits.map hs).sum (∀ i ∈ digits, fits i)
      (RefersAll H kids digits) (encodeChildren refer digits) := by
  induction digits with
  | nil => exact (takes_pure ⟨rfl, persists_named 0⟩).congr rfl rfl (by simp)
  | cons i digits ih =>
    have both := (each i).bind fun first refers => ih.bind fun others rest =>
      (takes_pure ⟨congrArg₂ List.cons refers.value rest.values,
          by simpa using refers.persists.merge rest.persists⟩ :
        Takes ctx 0 0 True (RefersAll H kids (i :: digits))
          fun left => pure ((first.1 :: others.1, mergePersisted first.2 others.2), left))
    exact both.congr (by simp) (by simp) (by simp)

theorem encodeNodeValue_takes (built : n.Built) (inner : ∀ root, n ≠ .hash root) :
    Takes ctx n.visits (n.hashes H) (n.Fits H) (n.Yields H) (encodeNodeValue H ctx n) := by
  induction built with
  | hash root => exact absurd rfl (inner root)
  | nil =>
    exact (takes_visit (takes_value rfl (persists_named 0))).congr rfl rfl
      (iff_of_true fits_empty trivial)
  | @leaf p v n made =>
    obtain ⟨rfl, some, short⟩ := newLeaf_ok made
    simp only [encodeNodeValue, encodeCompactPath_eq short]
    exact takes_visit (takes_value rfl (persists_named 0))
  | @extension p c n below made ih =>
    obtain ⟨rfl, some, short, opens⟩ := newExtension_ok made
    have takes := takes_visit ((encodeChildReference_takes ih).bind fun r refers =>
      takes_value (show Rlp.Value.list [.string (compactBytes p false), r.1] =
        Node.encoded H (.extension p c) by rw [Node.encoded, refers.value])
        refers.persists)
    simp only [encodeNodeValue, encodeCompactPath_eq short]
    exact takes.congr (by simp [Node.visits]) (by simp [Node.hashes]) and_comm
  | @branch kids v n below made ih =>
    obtain rfl := newBranch_ok made
    have each : ∀ i, Takes ctx (if (kids i).isNil then 0 else (kids i).visits)
        ((kids i).hashes H + (kids i).named H) ((kids i).Fits H)
        ((kids i).Refers H)
        (fun left =>
          if (kids i).isNil then pure ((.string [], ∅), left)
          else encodeChildReference H (encodeNodeValue H ctx (kids i))
            (kids i) left) := by
      intro i
      by_cases vacant : (kids i).isNil
      · rw [Node.isNil_eq_true] at vacant
        rw [vacant]
        exact takes_pure ⟨rfl, persists_named 0⟩
      · simp only [vacant]
        exact encodeChildReference_takes (ih i)
    have takes := takes_visit ((encodeChildren_takes each (List.finRange 16)).bind fun r refers =>
      takes_value (show Rlp.Value.list (r.1 ++ [.string v]) =
        Node.encoded H (.branch kids v) by rw [Node.encoded, refers.values])
        (by rw [Node.stores, Fin.sum_univ_def]; exact refers.persists))
    exact takes.congr (by simp [Node.visits]) (by simp [Node.hashes])
      (by simp [Node.Fits, and_comm])

end

end Golib.MerklePatriciaTrie
