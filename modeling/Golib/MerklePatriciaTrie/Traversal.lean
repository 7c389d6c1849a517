import Golib.MerklePatriciaTrie.Construct

/-! The traversals against the radix trie: lookup, insertion and deletion on a node
that stands for a trie compute what the trie does, or they stop with an error that
does not concern the trie, or a hash they need is not to be found. -/
namespace Golib.MerklePatriciaTrie

open Program Function
open Multiset

/-- An error that reports a hash without its node. -/
def Err.Lost : Err → Prop
  | .malformedNode .unresolvedHash => True
  | .missingNode _ => True
  | _ => False

def Env.find (env : Env) (root : Root) : Option Bytes :=
  (lookupPending env.pending env.removed env.parent root).or
    (env.reader.bind fun store => store.nodes.lookup root)

theorem getNode_stops (ctx : Context) (s : StoreState) (root : Root) (w : Work) :
    Ends (s.getNode ctx root) w
      (fun enc work' => s.nodes.lookup root = some enc ∧ ∃ polls, work' = { w with polls })
      (fun e => ((readFailure root e).Interrupts ∧ ¬ ctx.Live) ∨
        ((readFailure root e).Lost ∧ s.nodes.lookup root = none)) := by
  have polled : ∀ {P : Prop} w, Ends (checkContext ctx) w
      (fun _ work' => ∃ polls, work' = { w with polls })
      (fun e => ((readFailure root e).Interrupts ∧ ¬ ctx.Live) ∨
        (readFailure root e).Lost ∧ P) := by
    refine fun w => (checkContext_ends ctx w).weaken fun e stop => Or.inl ⟨?_, stop.2⟩
    have stop := stop.1
    cases e <;> trivial
  refine (polled w).bind ?_
  rintro _ _ ⟨polls, rfl⟩
  cases s.nodes.lookup root with
  | none => exact ends_fail (Or.inr ⟨trivial, rfl⟩)
  | some enc =>
    refine Ends.bind (polled _) ?_
    rintro _ _ ⟨polls', rfl⟩
    exact ends_pure ⟨rfl, polls', rfl⟩

theorem fetch_ends (env : Env) (root : Root) (w : Work) :
    Ends (env.fetch root) w
      (fun enc work' => env.find root = some enc ∧ work'.resolved = w.resolved ∧
        work'.hashesLeft = w.hashesLeft ∧ w.readsLeft ≤ work'.readsLeft + 1)
      (fun e => (e.Interrupts ∧ ¬ (env.ctx.Live ∧ 0 < w.readsLeft)) ∨
        (e.Lost ∧ env.find root = none)) := by
  unfold Env.fetch Env.find
  cases lookupPending env.pending env.removed env.parent root with
  | some enc => exact ends_pure ⟨rfl, rfl, rfl, Nat.le_succ _⟩
  | none =>
    unfold Env.read
    cases env.reader with
    | none => exact ends_fail (Or.inr ⟨trivial, rfl⟩)
    | some s =>
      have spend : Ends spendRead w
          (fun _ work' => work'.resolved = w.resolved ∧ work'.hashesLeft = w.hashesLeft ∧
            w.readsLeft = work'.readsLeft + 1)
          (fun e => (e.Interrupts ∧ ¬ (env.ctx.Live ∧ 0 < w.readsLeft)) ∨
            (e.Lost ∧ s.nodes.lookup root = none)) := by
        unfold Ends spendRead
        by_cases spent : w.readsLeft = 0
        · rw [if_pos spent]
          exact Or.inl ⟨trivial, by omega⟩
        · rw [if_neg spent]
          exact ⟨rfl, rfl, by dsimp only; omega⟩
      refine spend.bind ?_
      rintro _ work' ⟨eq, hs, reads⟩
      refine ends_mapError ((getNode_stops env.ctx s root work').mono ?_ ?_)
      · rintro enc _ ⟨found, polls, rfl⟩
        exact ⟨found, eq, hs, reads.le⟩
      · exact fun e => Or.imp_left fun stop => ⟨stop.1, fun enough => stop.2 enough.1⟩

variable {named named' a b : Multiset Bytes} {work work' : Work} {touched : List Bytes}
  {depth nodesLeft : Nat} {node : Node} {tries : Nibble → Tree} {set : Option Content} {root : Root}

section

variable (keccak : Bytes → Root)

/-- Whatever the traversal finds is one of the encodings `K`, under its own hash. -/
def Env.Sound (K : Set Bytes) (env : Env) : Prop :=
  ∀ root b, env.find root = some b → root = keccak b ∧ b ∈ K

/-- How a traversal of a node that names the given encodings may fail. -/
def Env.Fails (env : Env) (named : Multiset Bytes) (e : Err) : Prop :=
  e.Interrupts ∨ (e.Lost ∧ ∃ b ∈ named, env.find (keccak b) = none)

/-- How many hashes are resolved at most on a path of `n` digits: none where none is named, else one
for every digit, one where the branch at a digit collapses, and `extra` at the start. -/
def toll (named : Multiset Bytes) (extra n : Nat) : Nat := if named = 0 then
    0 else 2 * n + 1 + extra

/-- Each hash that is resolved is checked by hashing, and may have to be read from the store. -/
def Work.Has (work : Work) (toll : Nat) : Prop := toll ≤ work.hashesLeft ∧ toll ≤ work.readsLeft

def Work.Uses (work work' : Work) (toll : Nat) : Prop :=
  work.hashesLeft ≤ work'.hashesLeft + toll ∧ work.readsLeft ≤ work'.readsLeft + toll

/-- What is enough to follow a path of `n` digits. -/
structure Env.Room (env : Env) (toll n nodesLeft depth : Nat) (work : Work) : Prop where
  live : env.ctx.Live
  shallow : depth + n ≤ env.maxDepth
  enough : n + toll < nodesLeft
  has : work.Has toll

/-- The traversal fails as it may, and stops only where it had not enough room. -/
def Env.Stops (env : Env) (named : Multiset Bytes) (room : Prop) (e : Err) : Prop :=
  (e.Interrupts ∧ ¬ room) ∨ (e.Lost ∧ ∃ b ∈ named, env.find (keccak b) = none)

/-- What is left after a path of `n` digits. -/
structure Paid (toll n nodesLeft left : Nat) (work work' : Work) : Prop where
  nodes : nodesLeft ≤ left + n + toll + 1
  uses : work.Uses work' toll

/-- The traversal resolved some of the encodings in `touched`, and the result names at
most the others. -/
def Spends (touched : List Bytes) (named named' : Multiset Bytes) (work work' : Work) : Prop :=
  ∃ spent : Multiset Bytes, spent + named' ≤ named ∧ (∀ b ∈ spent, b ∈ touched) ∧
    ∀ root ∈ work'.resolved, root ∈ work.resolved ∨ ∃ b ∈ spent, root = keccak b

variable {H : Bytes → Root} {K : Set Bytes} {env : Env} {nl n d c : Nat} {t : Tree}
  {w work'' : Work} {α : Type} {e : Err}

theorem Env.Fails.mono (fails : env.Fails H named e) (le : named ≤ named') :
    env.Fails H named' e := by
  rcases fails with stop | ⟨lost, b, mem, absent⟩
  · exact Or.inl stop
  · exact Or.inr ⟨lost, b, mem_of_le le mem, absent⟩

theorem Env.Stops.fails {room : Prop} (stops : env.Stops H named room e) : env.Fails H named e :=
  stops.imp And.left id

theorem Env.Stops.mono {room room' : Prop} (stops : env.Stops H named room e)
    (le : named ≤ named') (enough : room' → room) : env.Stops H named' room' e := by
  rcases stops with ⟨stop, lacking⟩ | ⟨lost, b, mem, absent⟩
  · exact Or.inl ⟨stop, mt enough lacking⟩
  · exact Or.inr ⟨lost, b, mem_of_le le mem, absent⟩

theorem spends_none (eq : work'.resolved = w.resolved) : Spends H touched named named w work' := by
  refine ⟨0, by simp, by simp, ?_⟩
  intro root mem
  rw [eq] at mem
  exact Or.inl mem

theorem Spends.le (spends : Spends H touched named named' w work') : named' ≤ named := by
  obtain ⟨spent, le, -⟩ := spends
  exact le_trans (le_add_left _ _) le

theorem Spends.trans {c : Multiset Bytes} (first : Spends H touched a b w work')
    (second : Spends H touched b c work' work'') : Spends H touched a c w work'' := by
  obtain ⟨spent, le, sub, noted⟩ := first
  obtain ⟨spent', le', inside', noted'⟩ := second
  refine ⟨spent + spent', ?_, ?_, ?_⟩
  · rw [add_assoc]
    exact le_trans (add_le_add le_rfl le') le
  · intro x mem
    rcases mem_add.mp mem with old | new
    · exact sub x old
    · exact inside' x new
  · intro root mem
    rcases noted' root mem with before | ⟨x, new, eq⟩
    · rcases noted root before with start | ⟨x, old, eq⟩
      · exact Or.inl start
      · exact Or.inr ⟨x, mem_add.mpr (Or.inl old), eq⟩
    · exact Or.inr ⟨x, mem_add.mpr (Or.inr new), eq⟩

theorem Spends.mono {touched' : List Bytes} (spends : Spends H touched a b w work')
    (subset : touched ⊆ touched') : Spends H touched' a b w work' := by
  obtain ⟨spent, le, sub, noted⟩ := spends
  exact ⟨spent, le, fun x mem => subset (sub x mem), noted⟩

theorem Spends.frame (spends : Spends H touched a b w work') (rest : Multiset Bytes) :
    Spends H touched (a + rest) (b + rest) w work' := by
  obtain ⟨spent, le, sub, noted⟩ := spends
  refine ⟨spent, ?_, sub, noted⟩
  rw [← add_assoc]
  exact add_le_add le le_rfl

/-! ### Resolution -/

theorem kept_hash (root : Root) (t : Tree) :
    kept H (.hash root) t = treeBytes H t ::ₘ hashedBelow H t := by
  cases t <;> rfl

theorem kept_hash_ne_zero : kept H (.hash root) t ≠ 0 := by
  exact cons_ne_zero

theorem visit_live (env : Env) (d : Nat) (w : Work) :
    Ends (env.visit d) w (fun _ work' => ∃ polls, work' = { w with polls })
      (fun e => e.Interrupts ∧ ¬ (env.ctx.Live ∧ d ≤ env.maxDepth)) := by
  refine ((checkContext_live env.ctx w).unless fun enough => enough.1).bind ?_
  rintro _ _ ⟨polls, rfl⟩
  exact ends_failIf (fun deep => ⟨trivial, by omega⟩) (fun _ => ⟨polls, rfl⟩)

theorem visitNone_ends (env : Env) (w : Work) (done : α → Work → Prop) :
    Ends env.visitNone w done Err.Interrupts :=
  ((checkContext_live env.ctx w).weaken fun _ => And.left).bind fun _ _ _ => ends_fail trivial

theorem visit_stops :
    Ends (env.visit d) w (fun _ work' => ∃ polls, work' = { w with polls })
      (env.Stops H named (env.Room c n nl d w)) := by
  refine (visit_live env d w).weaken fun e stop => Or.inl ⟨stop.1, fun room => ?_⟩
  exact stop.2 ⟨room.live, le_trans (Nat.le_add_right _ _) room.shallow⟩

theorem visitNone_stops {done : α → Work → Prop} :
    Ends env.visitNone w done (env.Stops H named (env.Room c n 0 d w)) :=
  (visitNone_ends env w done).weaken
    fun _ stop => Or.inl ⟨stop, fun room => Nat.not_lt_zero _ room.enough⟩

/-- A node as the traversal meets it: the root of a loaded snapshot is named by hash even
when it is small. -/
def RepAt (keccak : Bytes → Root) (K : Set Bytes)
    (depth : Nat) (node : Node) (trie : Tree) : Prop :=
  Rep keccak K node trie ∨
    (depth = 0 ∧ Stored keccak K trie ∧ node = .hash (keccak (treeBytes keccak trie)))

/-- The node read in place of one that may be a hash: it stands for the same trie, and the
traversal may have resolved that trie's own encoding. -/
def Resolves (keccak : Bytes → Root) (K : Set Bytes)
    (node : Node) (trie : Tree) (work : Work) (opened : Node) (work' : Work) : Prop :=
  Rep keccak K opened trie ∧ ¬ opened.IsHash ∧
    Spends keccak [treeBytes keccak trie] (kept keccak node trie)
      (kept keccak opened trie) work work'

variable {kids : Nibble → Node} {extra' extra n' c' : Nat} {β : Type} {failed : Err → Prop}
  {p : Path}

theorem RepAt.hash (rep : RepAt H K depth (.hash root) t) :
    Stored H K t ∧ root = H (treeBytes H t) ∧ (depth = 0 ∨ rootBytes ≤ (treeBytes H t).length) := by
  rcases rep with rep | ⟨top, stored, eq⟩
  · cases rep with
    | hash stored large => exact ⟨stored, rfl, Or.inr large⟩
  · cases eq
    exact ⟨stored, rfl, Or.inl top⟩

theorem RepAt.inner (rep : RepAt H K d node t) (inner : ¬ node.IsHash) : Rep H K node t := by
  rcases rep with rep | ⟨-, -, rfl⟩
  · exact rep
  · exact absurd trivial inner

/-- A hash takes one more step than the node it names. -/
def Node.link : Node → Nat
  | .hash _ => 1
  | _ => 0

theorem Node.link_le (node : Node) : node.link ≤ 1 := by
  cases node <;> simp [Node.link]

theorem Node.link_inner {node : Node} (inner : ¬ node.IsHash) : node.link = 0 := by
  cases node with
  | hash => exact absurd trivial inner
  | _ => rfl

/-- The tolls of the next digit and of a branch that collapses are within that of the path. -/
theorem toll_below (le : named' ≤ named) (shorter : n' < n) (first : extra' ≤ 1) :
    toll named' extra' n' + toll named 0 0 ≤ toll named extra n := by
  unfold toll
  by_cases whole : named = 0
  · have whole' : named' = 0 := le_zero.mp (whole ▸ le)
    simp [whole, whole']
  · rw [if_neg whole, if_neg whole]
    split <;> omega

theorem toll_le : toll named extra n ≤ 2 * n + 1 + extra := by
  unfold toll
  split <;> omega

theorem toll_mono (le : named' ≤ named) (first : extra' ≤ extra) (shorter : n' ≤ n) :
    toll named' extra' n' ≤ toll named extra n := by
  unfold toll
  by_cases whole : named = 0
  · rw [if_pos (le_zero.mp (whole ▸ le))]
    exact Nat.zero_le _
  · rw [if_neg whole]
    split <;> omega

theorem toll_one_le : toll named 0 0 ≤ toll named extra n :=
  toll_mono le_rfl (Nat.zero_le _) (Nat.zero_le _)

theorem toll_hash (root : Root) (extra : Nat) :
    toll (kept H (.hash root) t) extra n = 2 * n + 1 + extra := if_neg kept_hash_ne_zero

theorem toll_hash_pos : 1 ≤ toll (kept H (.hash root) t) extra n := by
  rw [toll_hash]
  omega

theorem Work.Has.mono {w : Work} (has : w.Has c) (le : c' ≤ c) : w.Has c' :=
  ⟨le_trans le has.1, le_trans le has.2⟩

/-- A path goes on from a node, in the room that is left behind it. -/
structure Onward (work : Work) (c n d : Nat) (work' : Work) (c' n' d' : Nat) : Prop where
  cost : ∃ used, work.Uses work' used ∧ c' + used ≤ c
  shorter : n' + c' < n + c
  deeper : d' + n' ≤ d + n

section

variable {w w' : Work} {c n d c' n' d' : Nat} (onward : Onward w c n d w' c' n' d')

include onward

theorem Onward.room (room : env.Room c n (nl + 1) d w) : env.Room c' n' nl d' w' := by
  obtain ⟨⟨used, ⟨hashes, reads⟩, cost⟩, shorter, deeper⟩ := onward
  obtain ⟨live, shallow, enough, hashesLeft, readsLeft⟩ := room
  exact ⟨live, by omega, by omega, by omega, by omega⟩

theorem Onward.paid {left : Nat} {w'' : Work}
    (paid : Paid c' n' nl left w' w'') : Paid c n (nl + 1) left w w'' := by
  obtain ⟨⟨used, ⟨hashes, reads⟩, cost⟩, shorter, deeper⟩ := onward
  obtain ⟨nodes, hashes', reads'⟩ := paid
  exact ⟨by omega, by omega, by omega⟩

theorem ends_onward {m : Program Work Err α} {done : α → Work → Prop} (le : named' ≤ named)
    (ends : Ends m w' done (env.Stops H named' (env.Room c' n' nl d' w'))) :
    Ends m w' done (env.Stops H named (env.Room c n (nl + 1) d w)) :=
  ends.weaken fun _ stops => stops.mono le onward.room

theorem ends_paid {m : Task (α × Nat)} {done : α × Nat → Work → Prop} (le : named' ≤ named)
    (ends : Ends m w' (fun r w'' => done r w'' ∧ Paid c' n' nl r.2 w' w'')
      (env.Stops H named' (env.Room c' n' nl d' w'))) :
    Ends m w' (fun r w'' => done r w'' ∧ Paid c n (nl + 1) r.2 w w'')
      (env.Stops H named (env.Room c n (nl + 1) d w)) :=
  ends.mono (fun _ _ made => ⟨made.1, onward.paid made.2⟩)
    fun _ stops => stops.mono le onward.room

end

theorem kept_child_le (kids : Nibble → Node) (tries : Nibble → Tree) (i : Nibble) :
    kept H (kids i) (tries i) ≤ ∑ j, kept H (kids j) (tries j) := by
  rw [← Finset.add_sum_erase _ _ (Finset.mem_univ i)]
  exact le_add_right _ _

/-- From a hash to the node it names. -/
theorem onward_opened {w w' : Work} {opened : Node} (inner : ¬ opened.IsHash) (uses : w.Uses w' 1) :
    Onward w (toll (kept H (.hash root) t) (Node.hash root).link n) n d w'
      (toll named opened.link n) n d := by
  have cost : toll named opened.link n ≤ 2 * n + 1 := by
    rw [Node.link_inner inner]
    exact toll_le
  rw [toll_hash]
  exact ⟨⟨1, uses, Nat.succ_le_succ cost⟩, Nat.add_lt_add_left (Nat.lt_succ_of_le cost) n, le_rfl⟩

/-- From a node to one below it. -/
theorem onward_below {w w' : Work} (le : named' ≤ named) (shorter : n' < n)
    (uses : w.Uses w' (toll named 0 0)) (child : Node) :
    Onward w (toll named extra n) n d w' (toll named' child.link n') n' (d + 1) := by
  have cost : toll named' child.link n' + toll named 0 0 ≤ toll named extra n :=
    toll_below le shorter child.link_le
  exact ⟨⟨_, uses, cost⟩, by omega, by omega⟩

theorem Work.Uses.mono {w w' : Work} (uses : w.Uses w' c) (le : c ≤ c') : w.Uses w' c' :=
  ⟨le_trans uses.1 (Nat.add_le_add_left le _), le_trans uses.2 (Nat.add_le_add_left le _)⟩

theorem Work.Uses.trans {w w' w'' : Work} (first : w.Uses w' c) (second : w'.Uses w'' c') :
    w.Uses w'' (c + c') :=
  ⟨by have := first.1; have := second.1; omega, by have := first.2; have := second.2; omega⟩

theorem Work.Has.after {w w' : Work} (has : w.Has (c + c')) (uses : w.Uses w' c) : w'.Has c' :=
  ⟨by have := has.1; have := uses.1; omega, by have := has.2; have := uses.2; omega⟩

theorem Work.Uses.refl (w : Work) (toll : Nat) : w.Uses w toll :=
  ⟨Nat.le_add_right _ _, Nat.le_add_right _ _⟩

/-- A path that ends below a node that was resolved. -/
theorem paid_opened {w w' : Work} (uses : w.Uses w' (toll named 0 0)) :
    Paid (toll named extra n) n (nl + 1) nl w w' :=
  ⟨by omega, uses.mono toll_one_le⟩

/-- From a branch to the child at the next digit. -/
theorem onward_child (kids : Nibble → Node) (tries : Nibble → Tree) (i : Nibble) (rest : Path)
    (w : Work) (polls d : Nat) :
    Onward w (toll (∑ j, kept H (kids j) (tries j)) 0 (i :: rest).length) (i :: rest).length d
      { w with polls } (toll (kept H (kids i) (tries i)) (kids i).link rest.length) rest.length
      (d + 1) :=
  onward_below (kept_child_le kids tries i) (Nat.lt_succ_self _) (by exact .refl w _) _

theorem paid_here (toll n nl : Nat) (w : Work) (polls : Nat) :
    Paid toll n (nl + 1) nl w { w with polls } :=
  ⟨by omega, Nat.le_add_right _ _, Nat.le_add_right _ _⟩

section

variable (sound : env.Sound H K) (inj : Set.InjOn H K)

include sound inj

theorem resolveEncoded_ends (stored : Stored H K t) (w : Work) :
    Ends (env.resolveEncoded H (H (treeBytes H t))) w
      (fun r work' => r = (freeze H t, treeBytes H t) ∧
        (w.hashesLeft = work'.hashesLeft + 1 ∧ w.readsLeft ≤ work'.readsLeft + 1) ∧
        Resolves H K (.hash (H (treeBytes H t))) t w r.1 work')
      (fun e => (e.Interrupts ∧ ¬ (env.ctx.Live ∧ 0 < w.hashesLeft ∧ 0 < w.readsLeft)) ∨
        (e.Lost ∧ env.find (H (treeBytes H t)) = none)) := by
  refine ((fetch_ends env _ w).weaken fun e => Or.imp_left fun stop =>
    ⟨stop.1, fun enough => stop.2 ⟨enough.1, enough.2.2⟩⟩).bind ?_
  rintro encoded work₁ ⟨found, same₁, hashes, reads⟩
  obtain ⟨collides, known⟩ := sound _ _ found
  obtain rfl := inj stored.mem known collides
  refine ((hash_spends H _ work₁).weaken
    fun e stop => Or.inl ⟨stop.1, by omega⟩).bind ?_
  rintro actual work₂ ⟨rfl, spent, kept, same₂⟩
  refine ends_guard (fun differs => absurd rfl differs) (fun _ => ?_)
  rw [stored.decode]
  obtain ⟨rep, names⟩ := rep_freeze (fun _ => stored)
  have inner : ¬ (freeze H t).IsHash := by
    cases t <;> exact id
  cases shape : freeze H t with
  | nil => exact absurd shape (freeze_ne_nil stored.proper.ne_nil)
  | hash => exact absurd (shape ▸ trivial) inner
  | leaf | extension | branch =>
    rw [shape] at rep names inner
    refine ⟨rfl, ?_, rep, inner, {treeBytes H t}, ?_, by simp, fun root mem => ?_⟩
    · have counts : w.hashesLeft = work₂.hashesLeft + 1 ∧
          w.readsLeft ≤ work₂.readsLeft + 1 := by omega
      split <;> exact counts
    · rw [kept_hash, names, singleton_add]
    have noted : root ∈ work₂.resolved ∨ root = H (treeBytes H t) := by
      split at mem
      · exact (List.mem_cons.mp mem).symm
      · exact Or.inl mem
    rw [same₂, same₁] at noted
    exact noted.imp id fun new => ⟨_, mem_singleton_self _, new⟩

theorem resolveEncoded_found (stored : Stored H K t)
    (found : (env.find (H (treeBytes H t))).isSome) (w : Work) :
    Ends (env.resolveEncoded H (H (treeBytes H t))) w
      (fun r work' => r = (freeze H t, treeBytes H t) ∧
        w.hashesLeft = work'.hashesLeft + 1 ∧ w.readsLeft ≤ work'.readsLeft + 1)
      (fun e => e.Interrupts ∧ ¬ (env.ctx.Live ∧ 0 < w.hashesLeft ∧ 0 < w.readsLeft)) := by
  refine (resolveEncoded_ends sound inj stored w).mono (fun r _ opens => ⟨opens.1, opens.2.1⟩)
    fun e stop => stop.resolve_right ?_
  rintro ⟨-, absent⟩
  rw [absent] at found
  cases found

theorem resolve_ends (stored : Stored H K t) (w : Work) :
    Ends (env.resolve H (H (treeBytes H t))) w
      (fun r work' => Resolves H K (.hash (H (treeBytes H t))) t w r work' ∧ w.Uses work' 1)
      (env.Stops H (kept H (.hash (H (treeBytes H t))) t) (env.ctx.Live ∧ w.Has 1)) := by
  refine ((resolveEncoded_ends sound inj stored w).weaken fun e => ?_).bind
    fun _ _ opens => ends_pure ⟨opens.2.2, opens.2.1.1.le, opens.2.1.2⟩
  exact Or.imp id fun lost => ⟨lost.1, _, mem_cons_self _ _, lost.2⟩

theorem resolveChild_ends (stored : Stored H K t)
    (large : rootBytes ≤ (treeBytes H t).length) (w : Work) :
    Ends (env.resolveChild H (H (treeBytes H t))) w
      (fun r work' => Resolves H K (.hash (H (treeBytes H t))) t w r work' ∧ w.Uses work' 1)
      (env.Stops H (kept H (.hash (H (treeBytes H t))) t) (env.ctx.Live ∧ w.Has 1)) := by
  refine ((resolveEncoded_ends sound inj stored w).weaken fun e => ?_).bind ?_
  · exact Or.imp id fun lost => ⟨lost.1, _, mem_cons_self _ _, lost.2⟩
  rintro _ work' ⟨rfl, uses, opens⟩
  apply ends_bind
  exact ends_failIf (fun small => absurd large (by omega))
    (fun _ => ends_pure ⟨opens, uses.1.le, uses.2⟩)

theorem resolveAt_ends (rep : RepAt H K depth (.hash root) t) (w : Work) :
    Ends (env.resolveAt H depth root) w
      (fun r work' => Resolves H K (.hash root) t w r work' ∧ w.Uses work' 1)
      (env.Stops H (kept H (.hash root) t) (env.ctx.Live ∧ w.Has 1)) := by
  obtain ⟨stored, rfl, allowed⟩ := rep.hash
  unfold Env.resolveAt
  split
  · exact resolve_ends sound inj stored w
  · rename_i deep
    exact resolveChild_ends sound inj stored (allowed.resolve_left deep) w

theorem extensionChild_ends {c : Node} (rep : Rep H K c t) (branching : t.IsBranch) (w : Work) :
    Ends (env.extensionChild H c) w
      (fun r work' => Resolves H K c t w r work' ∧ w.Uses work' (toll (kept H c t) 0 0))
      (env.Stops H (kept H c t) (env.ctx.Live ∧ w.Has (toll (kept H c t) 0 0))) := by
  cases rep with
  | nil | leaf | extension => exact absurd branching id
  | branch v below => exact ends_pure ⟨⟨.branch v below, id, spends_none rfl⟩, .refl w _⟩
  | hash stored large =>
    rw [toll_hash]
    refine (resolveChild_ends sound inj stored large w).bind ?_
    rintro resolved work' ⟨⟨rep, inner, spends⟩, uses⟩
    cases rep with
    | nil | leaf | extension => exact absurd branching id
    | branch v below => exact ends_pure ⟨⟨.branch v below, id, spends⟩, uses⟩
    | hash => exact absurd trivial inner

end

theorem length_drop_lt {p key : Path} (some : p ≠ []) (sub : p.length ≤ key.length) :
    (key.drop p.length).length < key.length := by
  have longer := List.length_pos_iff.mpr some
  rw [List.length_drop]
  omega

/-! ### Lookup -/

section

variable (sound : env.Sound H K) (inj : Set.InjOn H K)

include sound inj

theorem getNode_ends (rep : RepAt H K d node t) (canon : t.Canonical) (w : Work) :
    Ends (getNode H env nl node p d) w
      (fun r _ => r = (t.lookup p).map Subtype.val)
      (env.Stops H (kept H node t)
        (env.Room (toll (kept H node t) node.link p.length) p.length nl d w)) := by
  induction nl generalizing node t p d w with
  | zero => exact visitNone_stops
  | succ nl ih =>
    refine visit_stops.bind ?_
    rintro _ _ ⟨polls, rfl⟩
    cases node with
    | hash root =>
      refine ((resolveAt_ends sound inj rep _).weaken fun e stops => stops.mono le_rfl ?_).bind ?_
      · exact fun room => ⟨room.live, room.has.mono toll_hash_pos⟩
      rintro resolved work₂ ⟨⟨opened, inner, spends⟩, uses⟩
      exact ends_onward (onward_opened (w := w) inner uses) spends.le
        (ih (Or.inl opened) canon work₂)
    | nil =>
      cases rep.inner id
      exact ends_pure rfl
    | leaf leafPath v =>
      cases rep.inner id with
      | leaf _ content =>
        apply ends_pure
        rw [Radix.lookup_leaf]
        split <;> rfl
    | extension extensionPath c =>
      cases rep.inner id with
      | @extension _ _ below inner =>
        have proper := canon.proper (by simp)
        dsimp only
        split
        · rename_i shared
          have shorter := length_drop_lt proper.1 shared.length_le
          refine ((extensionChild_ends sound inj inner proper.2.1 _).weaken
            fun e stops => stops.mono le_rfl fun room =>
              ⟨room.live, room.has.mono toll_one_le⟩).bind ?_
          rintro resolved work₂ ⟨⟨opened, unhashed, spends⟩, uses⟩
          rw [Radix.lookup, if_pos shared]
          exact ends_onward (onward_below (w := w) spends.le shorter uses _) spends.le
            (ih (Or.inl opened) (Or.inr proper.2.2) work₂)
        · rename_i apart
          rw [Radix.lookup_ext_of_not _ apart]
          exact ends_pure rfl
    | branch kids v =>
      cases rep.inner id with
      | @branch _ tries set below =>
        have proper := canon.proper (by simp)
        cases p with
        | nil =>
          apply ends_pure
          cases set with
          | none => rfl
          | some content =>
            rw [if_pos]
            · rfl
            · exact fun none => content.property (List.eq_nil_of_length_eq_zero none)
        | cons i rest =>
          exact ends_onward (onward_child kids tries i rest w polls d) (kept_child_le kids tries i)
            (ih (Or.inl (below i)) (proper.child i) _)

end

/-! ### Insertion -/

/-- The subtries below the root that an insertion resolves when they are named by hash. -/
def insertVisits (keccak : Bytes → Root) : Tree → Path → List Bytes
  | .ext path child, key =>
    treeBytes keccak child ::
      if commonLength path key = path.length then
        insertVisits keccak child (key.drop path.length) else []
  | .branch children _, i :: rest =>
    treeBytes keccak (children i) :: insertVisits keccak (children i) rest
  | _, _ => []

theorem wellFormed_bind {r : Except NodeFault α}
    {a : α} (made : r = .ok a) {rest : α → Task β} {done : β → Work → Prop}
    (ends : Ends (rest a) w done failed) : Ends (wellFormed r >>= rest) w done failed := by
  rw [made]
  exact ends

theorem lift_bind {r : Except Err α}
    {a : α} (made : r = .ok a) {rest : α → Task β} {done : β → Work → Prop}
    (ends : Ends (rest a) w done failed) : Ends (Program.lift r >>= rest) w done failed := by
  rw [made]
  exact ends

theorem Spends.child {i : Nibble}
    (spends : Spends H touched (kept H (kids i) (tries i)) (kept H node t) work work') :
    Spends H touched (∑ j, kept H (kids j) (tries j))
      (∑ j, kept H (update kids i node j) (update tries i t j))
      work work' := by
  obtain ⟨others, split⟩ := exists_rest H kids tries i
  have before := split (kids i) (tries i)
  rw [update_eq_self, update_eq_self] at before
  rw [before, split]
  exact spends.frame others

section

variable (sound : env.Sound H K) (inj : Set.InjOn H K)

include sound inj

theorem insertNode_ends {v : Content} (rep : RepAt H K depth node t) (canon : t.Canonical)
    (short : t.Short maxCompactPathNibbles) (fits : p.length ≤ maxCompactPathNibbles) (w : Work) :
    Ends (insertNode H env v.val nodesLeft node p depth) w
      (fun r work' => (Rep H K r.1 (t.insert p v) ∧ ¬ r.1.IsHash ∧
        Spends H (treeBytes H t :: insertVisits H t p)
          (kept H node t) (kept H r.1 (t.insert p v)) w work') ∧
        Paid (toll (kept H node t) node.link p.length) p.length nodesLeft r.2 w work')
      (env.Stops H (kept H node t)
        (env.Room (toll (kept H node t) node.link p.length) p.length nodesLeft depth w)) := by
  induction nodesLeft generalizing node t p depth w with
  | zero => exact visitNone_stops
  | succ nodesLeft ih =>
    refine visit_stops.bind ?_
    rintro _ _ ⟨polls, rfl⟩
    have start : ∀ {touched : List Bytes} {named : Multiset Bytes},
        Spends H touched named named w { w with polls } := fun {_ _} => spends_none rfl
    cases node with
    | hash root =>
      refine ((resolveAt_ends sound inj rep _).weaken fun e stops => stops.mono le_rfl ?_).bind ?_
      · exact fun room => ⟨room.live, room.has.mono toll_hash_pos⟩
      rintro resolved work₂ ⟨⟨opened, unhashed, spends⟩, uses⟩
      refine (ends_paid (onward_opened (w := w) unhashed uses) spends.le
        (ih (Or.inl opened) canon short fits work₂)).mono ?_ (fun _ h => h)
      rintro r work₃ ⟨⟨rep', inner, spends'⟩, paid⟩
      exact ⟨⟨rep', inner, start.trans ((spends.mono (by simp)).trans spends')⟩, paid⟩
    | nil =>
      cases rep.inner id
      obtain ⟨leaf, made, builds⟩ := newLeaf_builds H K fits v
      refine wellFormed_bind made (ends_pure ⟨⟨builds.rep, builds.inner, ?_⟩, paid_here _ _ _ _ _⟩)
      have named : kept H leaf ((Radix.nil : Tree).insert p v) = 0 := builds.named
      rw [named, kept_nil]
      exact start
    | leaf leafPath leafValue =>
      cases rep.inner id with
      | leaf _ content =>
        obtain ⟨inserted, made, builds⟩ := insertLeaf_builds short fits
        refine lift_bind made (ends_pure ⟨⟨builds.rep, builds.inner, ?_⟩, paid_here _ _ _ _ _⟩)
        rw [builds.named, kept_leaf]
        exact start
    | extension extensionPath c =>
      cases rep.inner id with
      | @extension _ _ below inner =>
        have proper := canon.proper (by simp)
        have grown := short.insert v fits
        refine ((extensionChild_ends sound inj inner proper.2.1 _).weaken
          fun e stops => stops.mono le_rfl fun room =>
            ⟨room.live, room.has.mono toll_one_le⟩).bind ?_
        rintro opened work₂ ⟨⟨rep', unhashed, spends⟩, uses⟩
        unfold insertExtension commonPrefixLength
        rw [Radix.insert] at grown ⊢
        dsimp only at grown ⊢
        split
        · rename_i whole
          rw [if_pos whole] at grown
          rw [whole] at grown ⊢
          have shorter : (p.drop extensionPath.length).length < p.length := by
            refine length_drop_lt proper.1 ?_
            obtain ⟨front, l, r, -, rfl, length, -⟩ := commonLength_split extensionPath p
            rw [← whole, length, List.length_append]
            exact Nat.le_add_right _ _
          refine (ends_paid (onward_below (w := w) spends.le shorter uses _) spends.le
            (ih (Or.inl rep') (Or.inr proper.2.2) short.below (by omega) work₂)).bind ?_
          rintro ⟨child', left'⟩ work₃ ⟨⟨rep'', unhashed', spends'⟩, paid⟩
          have made := makeExtension_builds proper.1 rep'' unhashed'
            (Radix.insert_proper (Or.inr proper.2.2) _ _) grown
          obtain ⟨compacted, made, builds⟩ := made
          refine lift_bind (by rw [unchecked, made]; rfl)
            (ends_pure ⟨⟨builds.rep, builds.inner, ?_⟩, paid⟩)
          rw [builds.named]
          refine start.trans ((spends.mono ?_).trans (spends'.mono ?_))
          · simp [insertVisits]
          · simp [insertVisits, whole]
        · rename_i early
          rw [if_neg early] at grown
          obtain ⟨front, l, r, rfl, rfl, length, parted⟩ := commonLength_split extensionPath p
          rw [length] at early grown ⊢
          cases l with
          | nil => exact absurd (by simp) early
          | cons i l =>
            rw [List.take_left, List.drop_left, List.drop_left] at grown ⊢
            obtain ⟨split, made, builds⟩ :=
              splitExtension_builds rep' unhashed proper.2.1 proper.2.2 parted short fits grown
            refine lift_bind made (ends_pure ⟨⟨builds.rep, builds.inner, ?_⟩, paid_opened uses⟩)
            rw [builds.named]
            exact start.trans (spends.mono (by simp [insertVisits]))
    | branch kids branchValue =>
      cases rep.inner id with
      | @branch _ tries set below =>
        have proper := canon.proper (by simp)
        cases p with
        | nil =>
          have proper' : (Radix.branch tries (some v)).Proper := Radix.insert_proper canon [] v
          obtain ⟨branch, made, builds⟩ := newBranch_builds below proper'.1
          refine wellFormed_bind made (ends_pure
            ⟨⟨builds.rep, builds.inner, ?_⟩, paid_here _ _ _ _ _⟩)
          have named : kept H branch ((Radix.branch tries set).insert [] v) = _ := builds.named
          rw [named]
          exact start
        | cons i rest =>
          have fits' : rest.length ≤ maxCompactPathNibbles := le_trans (Nat.le_succ _) fits
          refine (ends_paid (onward_child kids tries i rest w polls depth)
            (kept_child_le kids tries i)
            (ih (Or.inl (below i)) (proper.child i) (short.child i) fits' _)).bind ?_
          rintro ⟨child', left'⟩ work₂ ⟨⟨rep', unhashed, spends⟩, paid⟩
          have proper' : (Radix.branch (update tries i ((tries i).insert rest v)) set).Proper :=
            Radix.insert_proper canon (i :: rest) v
          obtain ⟨branch, made, builds⟩ := newBranch_builds (update_rep below rep' i) proper'.1
          refine wellFormed_bind made (ends_pure ⟨⟨builds.rep, builds.inner, ?_⟩, paid⟩)
          have named : kept H branch ((Radix.branch tries set).insert (i :: rest) v) = _ :=
            builds.named
          rw [named]
          refine start.trans (spends.child.mono ?_)
          simp [insertVisits]

end

/-! ### Deletion -/

/-- The only child of a branch that collapses. -/
def collapseVisits (keccak : Bytes → Root)
    (tries : Nibble → Tree) (value : Option Content) : List Bytes :=
  match value, occupied Radix.isNil tries with
  | none, [i] => [treeBytes keccak (tries i)]
  | _, _ => []

/-- The subtries below the root that a deletion resolves when they are named by hash. -/
def deleteVisits (keccak : Bytes → Root) : Tree → Path → List Bytes
  | .ext path child, key =>
    if path <+: key then
      treeBytes keccak child :: deleteVisits keccak child (key.drop path.length) else []
  | .branch children _, [] => collapseVisits keccak children none
  | .branch children value, i :: rest =>
    treeBytes keccak (children i) :: deleteVisits keccak (children i) rest ++
      match (children i).delete rest with
      | none => []
      | some trie => collapseVisits keccak (update children i trie) value
  | _, _ => []

/-- A deletion that reports what the trie does, and what it spends when the key is there. -/
def Deletes (keccak : Bytes → Root) (K : Set Bytes)
    (touched : List Bytes) (named : Multiset Bytes) (work work' : Work) :
    Option Node → Option Tree → Prop
  | none, none => True
  | some node, some trie =>
    Rep keccak K node trie ∧ ¬ node.IsHash ∧
      Spends keccak touched named (kept keccak node trie) work work'
  | _, _ => False

theorem Deletes.cases {node : Option Node} {t : Option Tree}
    (deletes : Deletes H K touched named w work' node t) :
    (node = none ∧ t = none) ∨ ∃ node' trie', node = some node' ∧ t = some trie' ∧
      Rep H K node' trie' ∧ ¬ node'.IsHash ∧
        Spends H touched named (kept H node' trie') w work' := by
  match node, t, deletes with
  | none, none, _ => exact Or.inl ⟨rfl, rfl⟩
  | some node, some t, deletes => exact Or.inr ⟨node, t, rfl, rfl, deletes⟩

theorem Deletes.after {node : Option Node} {t : Option Tree}
    (deletes : Deletes H K touched named' work' work'' node t)
    (first : Spends H touched named named' w work') :
    Deletes H K touched named w work'' node t := by
  rcases deletes.cases with ⟨rfl, rfl⟩ | ⟨node', trie', rfl, rfl, rep, inner, spends⟩
  · trivial
  · exact ⟨rep, inner, first.trans spends⟩

section

variable (sound : env.Sound H K) (inj : Set.InjOn H K)

include sound inj

theorem resolveCollapsible_ends (below : ∀ i, Rep H K (kids i) (tries i)) (work : Work) :
    Ends (env.resolveCollapsibleBranchChild H kids (contentBytes set)) work
      (fun r work' => (∀ i, Rep H K (r i) (tries i)) ∧
        (set = none → ∀ i, occupied Radix.isNil tries = [i] → ¬ (r i).IsHash) ∧
        Spends H (collapseVisits H tries set) (∑ i, kept H (kids i) (tries i))
          (∑ i, kept H (r i) (tries i)) work work' ∧
        work.Uses work' (toll (∑ i, kept H (kids i) (tries i)) 0 0))
      (env.Stops H (∑ i, kept H (kids i) (tries i))
        (env.ctx.Live ∧ work.Has (toll (∑ i, kept H (kids i) (tries i)) 0 0))) := by
  unfold Env.resolveCollapsibleBranchChild
  rw [occupied_eq below]
  cases set with
  | some content =>
    rw [if_pos]
    · exact ends_pure ⟨below, by simp, spends_none rfl, .refl _ _⟩
    · exact fun none => content.property (List.eq_nil_of_length_eq_zero none)
  | none =>
    cases occupants : occupied Radix.isNil tries with
    | nil => exact ends_pure ⟨below, by simp, spends_none rfl, .refl _ _⟩
    | cons only others =>
      cases others with
      | cons next others => exact ends_pure ⟨below, by simp, spends_none rfl, .refl _ _⟩
      | nil =>
        dsimp only
        cases shape : kids only with
        | nil | leaf | extension | branch =>
          refine ends_pure ⟨below, ?_, spends_none rfl, .refl _ _⟩
          rintro - i eq
          obtain rfl := (List.cons.inj eq).1
          rw [shape]
          exact id
        | hash root =>
          have met : RepAt H K 1 (kids only) (tries only) := Or.inl (below only)
          have least : kept H (kids only) (tries only) ≤ _ := kept_child_le kids tries only
          rw [shape] at met least
          have cost : 1 ≤ toll (∑ i, kept H (kids i) (tries i)) 0 0 :=
            le_trans toll_hash_pos (toll_mono least le_rfl le_rfl)
          refine ((resolveAt_ends sound inj met work).weaken fun e stops =>
            stops.mono least fun room => ⟨room.1, room.2.mono cost⟩).bind ?_
          rintro resolved work' ⟨⟨opened, inner, spends⟩, uses⟩
          have reps := update_rep below opened only
          rw [update_eq_self] at reps
          refine ends_pure ⟨reps, ?_, ?_, uses.mono cost⟩
          · rintro - i eq
            obtain rfl := (List.cons.inj eq).1
            rw [update_self]
            exact inner
          · rw [← shape] at spends
            have whole := spends.child
            rw [update_eq_self] at whole
            exact whole.mono (by simp [collapseVisits, occupants])

theorem collapse_ends (below : ∀ i, Rep H K (kids i) (tries i)) (canon : ∀ i, (tries i).Canonical)
    (short : (Radix.branch tries set).Short maxCompactPathNibbles) (w : Work) :
    Ends (env.collapse H kids (contentBytes set)) w
      (fun r work' => Rep H K r (Radix.compact tries set) ∧ ¬ r.IsHash ∧
        Spends H (collapseVisits H tries set) (∑ i, kept H (kids i) (tries i))
          (kept H r (Radix.compact tries set)) w work' ∧
        w.Uses work' (toll (∑ i, kept H (kids i) (tries i)) 0 0))
      (env.Stops H (∑ i, kept H (kids i) (tries i))
        (env.ctx.Live ∧ w.Has (toll (∑ i, kept H (kids i) (tries i)) 0 0))) := by
  refine (resolveCollapsible_ends sound inj below w).bind ?_
  rintro children' work' ⟨below', resolved, spends, uses⟩
  obtain ⟨node, made, builds⟩ := compactBranch_builds below' canon resolved short
  rw [made]
  refine ⟨builds.rep, builds.inner, ?_, uses⟩
  rw [builds.named]
  exact spends

theorem deleteNode_ends (rep : RepAt H K depth node t)
    (canon : t.Canonical) (short : t.Short maxCompactPathNibbles) (work : Work) :
    Ends (deleteNode H env nodesLeft node p depth) work
      (fun r work' => Deletes H K (treeBytes H t :: deleteVisits H t p)
        (kept H node t) work work' r.1 (t.delete p) ∧
        Paid (toll (kept H node t) node.link p.length) p.length nodesLeft r.2 work work')
      (env.Stops H (kept H node t)
        (env.Room (toll (kept H node t) node.link p.length) p.length nodesLeft depth work)) := by
  induction nodesLeft generalizing node t p depth work with
  | zero => exact visitNone_stops
  | succ nodesLeft ih =>
    refine visit_stops.bind ?_
    rintro _ _ ⟨polls, rfl⟩
    have start : ∀ {touched : List Bytes} {named : Multiset Bytes},
        Spends H touched named named work { work with polls } := fun {_ _} => spends_none rfl
    cases node with
    | hash root =>
      refine ((resolveAt_ends sound inj rep _).weaken fun e stops => stops.mono le_rfl ?_).bind ?_
      · exact fun room => ⟨room.live, room.has.mono toll_hash_pos⟩
      rintro resolved work₂ ⟨⟨opened, unhashed, spends⟩, uses⟩
      refine (ends_paid (onward_opened (w := work) unhashed uses) spends.le
        (ih (Or.inl opened) canon short work₂)).mono ?_ (fun _ h => h)
      exact fun _ _ ⟨deletes, paid⟩ =>
        ⟨deletes.after (start.trans (spends.mono (by simp))), paid⟩
    | nil =>
      cases rep.inner id
      exact ends_pure ⟨trivial, paid_here _ _ _ _ _⟩
    | leaf leafPath leafValue =>
      cases rep.inner id with
      | leaf _ content =>
        refine ends_pure ⟨?_, paid_here _ _ _ _ _⟩
        rw [Radix.delete]
        split
        · exact ⟨.nil, id, start⟩
        · trivial
    | extension extensionPath c =>
      cases rep.inner id with
      | @extension _ _ below inner =>
        have proper := canon.proper (by simp)
        dsimp only
        split
        · rename_i shared
          have nearer := length_drop_lt proper.1 shared.length_le
          refine ((extensionChild_ends sound inj inner proper.2.1 _).weaken
            fun e stops => stops.mono le_rfl fun room =>
              ⟨room.live, room.has.mono toll_one_le⟩).bind ?_
          rintro opened work₂ ⟨⟨rep', unhashed, spends⟩, uses⟩
          refine (ends_paid (onward_below (w := work) spends.le nearer uses _) spends.le
            (ih (Or.inl rep') (Or.inr proper.2.2) short.below work₂)).bind ?_
          rintro ⟨deleted, left'⟩ work₃ ⟨deletes, paid⟩
          have shorter : ∀ t', (Radix.ext extensionPath below).delete p = some t' →
              t'.Short maxCompactPathNibbles := fun _ => short.delete
          rw [Radix.delete, if_pos shared] at shorter ⊢
          rcases deletes.cases with
            ⟨rfl, gone⟩ | ⟨child', trie', rfl, outcome, rep'', unhashed', spends'⟩
          · rw [gone]
            exact ends_pure ⟨trivial, paid⟩
          · rw [outcome] at shorter ⊢
            have left := proper.2.2.delete_ne_nil proper.2.1 outcome
            obtain ⟨compacted, made, builds⟩ := makeExtension_builds proper.1 rep'' unhashed'
              ((Radix.delete_canonical (Or.inr proper.2.2) outcome).proper left) (shorter _ rfl)
            refine lift_bind (by rw [unchecked, made]; rfl)
              (ends_pure ⟨⟨builds.rep, builds.inner, ?_⟩, paid⟩)
            rw [builds.named]
            refine start.trans ((spends.mono ?_).trans (spends'.mono ?_))
            · simp [deleteVisits, shared]
            · simp [deleteVisits, shared]
        · rename_i apart
          rw [Radix.delete, if_neg apart]
          exact ends_pure ⟨trivial, paid_here _ _ _ _ _⟩
    | branch kids branchValue =>
      cases rep.inner id with
      | @branch _ tries set below =>
        have proper := canon.proper (by simp)
        cases p with
        | nil =>
          cases set with
          | none => exact ends_pure ⟨trivial, paid_here _ _ _ _ _⟩
          | some content =>
            have some : ¬ (contentBytes (some content)).length = 0 :=
              fun none => by cases length_contentBytes.mp none
            have shorter : (Radix.branch tries none).Short maxCompactPathNibbles := by
              intro key found
              cases key with
              | nil => exact absurd rfl found
              | cons i key => exact short (i :: key) found
            dsimp only
            rw [if_neg some]
            refine ((collapse_ends sound inj below proper.child shorter _).weaken
              fun e stops => stops.mono le_rfl fun room => ⟨room.live, room.has⟩).bind ?_
            rintro compacted work₂ ⟨rep', unhashed, spends, uses⟩
            refine ends_pure ⟨⟨rep', unhashed, start.trans (spends.mono ?_)⟩, paid_opened uses⟩
            simp [deleteVisits]
        | cons i rest =>
          have onward := onward_child (H := H) kids tries i rest work polls depth
          have cost : toll (kept H (kids i) (tries i)) (kids i).link rest.length +
              toll (∑ j, kept H (kids j) (tries j)) 0 0 ≤
              toll (∑ j, kept H (kids j) (tries j)) 0 (i :: rest).length :=
            toll_below (kept_child_le kids tries i) (Nat.lt_succ_self _) (kids i).link_le
          refine (ends_onward onward (kept_child_le kids tries i)
            (ih (Or.inl (below i)) (proper.child i) (short.child i) _)).bind ?_
          rintro ⟨deleted, left'⟩ work₂ ⟨deletes, paid⟩
          have shorter : ∀ t', (Radix.branch tries set).delete (i :: rest) = some t' →
              t'.Short maxCompactPathNibbles := fun _ => short.delete
          rw [Radix.delete] at shorter ⊢
          rcases deletes.cases with
            ⟨rfl, gone⟩ | ⟨child', trie', rfl, outcome, rep', unhashed, spends⟩
          · rw [gone]
            exact ends_pure ⟨trivial, onward.paid paid⟩
          · rw [outcome] at shorter ⊢
            have canon' : ∀ j, (update tries i trie' j).Canonical := by
              intro j
              by_cases eq : j = i
              · rw [eq, update_self]
                exact Radix.delete_canonical (proper.child i) outcome
              · rw [update_of_ne eq]
                exact proper.child j
            have short' : (Radix.branch (update tries i trie') set).Short
                maxCompactPathNibbles := by
              intro key found
              rw [← Radix.lookup_compact] at found
              exact shorter _ rfl key found
            refine ((collapse_ends sound inj (update_rep below rep' i) canon' short' work₂).weaken
              fun e stops => stops.mono spends.child.le fun room => ⟨room.live, ?_⟩).bind ?_
            · exact ((room.has.mono cost).after paid.uses).mono
                (toll_mono spends.child.le le_rfl le_rfl)
            rintro compacted work₃ ⟨rep'', unhashed', spends', uses⟩
            refine ends_pure ⟨⟨rep'', unhashed', ?_⟩,
              ⟨(onward.paid paid).nodes, (paid.uses.trans
                (uses.mono (toll_mono spends.child.le le_rfl le_rfl))).mono cost⟩⟩
            refine start.trans ((spends.child.mono ?_).trans (spends'.mono ?_))
            · intro b mem
              simp only [deleteVisits, List.mem_cons, List.cons_append, List.mem_append] at mem ⊢
              tauto
            · intro b mem
              simp only [deleteVisits, outcome, List.mem_cons, List.cons_append, List.mem_append]
              tauto

end

end

end Golib.MerklePatriciaTrie
