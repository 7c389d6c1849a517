import Golib.Lib.Frontier
import Golib.MerklePatriciaTrie.Batches
import Golib.MerklePatriciaTrie.RangeWalk
import Golib.MerklePatriciaTrie.SortedBuilder

/-! The streaming builder against the trie: its frames are the frontier of the trie of the values
it was given, and the root it returns is that of the trie. -/
namespace Golib.MerklePatriciaTrie

open Program List Nat
open Radix.Frontier

/-! ### Hash operations -/

/-- A task that spends at most so many hash operations: it returns with `done`, or it is stopped
for want of a live context, of what is `enough` or of these operations. -/
def Within {α : Type} (ctx : Context) (hashes : Nat) (enough : Prop) (done : α → Prop)
    (m : Task α) : Prop :=
  ∀ work, Ends m work (fun a work' => done a ∧ work.hashesLeft ≤ work'.hashesLeft + hashes)
    (fun e => e.Interrupts ∧ ¬ (ctx.Live ∧ enough ∧ hashes ≤ work.hashesLeft))

section

variable {α β : Type} {ctx : Context} {hs : Nat} {enough : Prop} {done : α → Prop} {m : Task α}
  {done' : β → Prop}

theorem within_pure {a : α} (holds : done a) : Within ctx hs enough done (pure a) :=
  fun _ => ends_pure ⟨holds, le_add_right _ _⟩

theorem Within.bind {f : α → Task β} (first : Within ctx hs enough done m) (hashes' : Nat)
    (enough' : Prop) (rest : ∀ a, done a → Within ctx hashes' enough' done' (f a)) :
    Within ctx (hs + hashes') (enough ∧ enough') done' (m >>= f) := by
  intro w
  refine ((first w).weaken ?_).bind ?_
  · rintro e ⟨stop, lacking⟩
    exact ⟨stop, fun ⟨live, plenty, left⟩ => lacking ⟨live, plenty.1, by omega⟩⟩
  rintro a work' ⟨holds, spent⟩
  refine (rest a holds work').mono ?_ ?_
  · rintro b work'' ⟨holds', spent'⟩
    exact ⟨holds', by omega⟩
  · rintro e ⟨stop, lacking⟩
    exact ⟨stop, fun ⟨live, plenty, left⟩ => lacking ⟨live, plenty.2, by omega⟩⟩

theorem Within.map {f : α → β} (within : Within ctx hs enough done m)
    (holds : ∀ a, done a → done' (f a)) :
    Within ctx hs enough done' (m >>= fun a => pure (f a)) := by
  intro w
  refine (within w).bind ?_
  rintro a work' ⟨holds', spent⟩
  exact ends_pure ⟨holds a holds', spent⟩

theorem Within.mono {hashes' : Nat} {enough' : Prop}
    (within : Within ctx hs enough done m) (more : hs ≤ hashes')
    (stronger : enough' → enough) : Within ctx hashes' enough' done m := by
  intro w
  refine (within w).mono ?_ ?_
  · rintro a work' ⟨holds, spent⟩
    exact ⟨holds, by omega⟩
  · rintro e ⟨stop, lacking⟩
    exact ⟨stop, fun ⟨live, plenty, left⟩ => lacking ⟨live, stronger plenty, by omega⟩⟩

theorem Within.imp {done' : α → Prop} (within : Within ctx hs enough done m)
    (holds : ∀ a, done a → done' a) : Within ctx hs enough done' m :=
  fun w => (within w).mono (fun a _ h => ⟨holds a h.1, h.2⟩) (fun _ h => h)

theorem within_check : Within ctx 0 True (fun _ => True) (checkContext ctx) := by
  intro w
  refine (checkContext_live ctx w).mono ?_ ?_
  · rintro _ _ ⟨polls, rfl⟩
    exact ⟨trivial, le_refl _⟩
  · rintro e ⟨stop, dead⟩
    exact ⟨stop, fun all => dead all.1⟩

theorem Within.check (within : Within ctx hs enough done m) :
    Within ctx hs enough done (checkContext ctx >>= fun _ => m) :=
  (within_check.bind _ _ fun _ _ => within).mono (by omega) fun plenty => ⟨trivial, plenty⟩

end

section

variable {H : Bytes → Root} {ctx : Context} {F : Radix.Frame 16 Content}
  {above : List (Radix.Frame 16 Content × Nibble)} {t : Tree}

/-! ### Nodes -/

/-- The node is that of the trie, with the children of the trie already encoded. -/
inductive BuilderNode.Builds (keccak : Bytes → Root) : BuilderNode → Tree → Prop where
  | leaf (path : Path) (content : Content) :
      Builds keccak (.leaf path content.val) (.leaf path content)
  | extension (path : Path) (below : Tree) :
      Builds keccak (.extension path (MerklePatriciaTrie.reference keccak (treeValue keccak below)))
        (.ext path below)
  | branch (children : Nibble → Tree) (value : Option Content) :
      Builds keccak (.branch (treeValue keccak (.branch children value))) (.branch children value)

theorem BuilderNode.Builds.ne_nil {n : BuilderNode} (builds : n.Builds H t) : t ≠ .nil := by
  cases builds <;> simp

section

variable {n : BuilderNode} {t : Tree} (builds : n.Builds H t) (proper : t.Proper)
  (short : t.Short maxCompactPathNibbles)

include builds proper short

theorem valueRLP_builds : n.valueRLP = .ok (treeValue H t) := by
  cases builds with
  | leaf p content => simp only [BuilderNode.valueRLP, encodeCompactPath_eq short.leaf, treeValue]
  | extension p below =>
    simp only [BuilderNode.valueRLP, encodeCompactPath_eq (short.path proper.2.2), treeValue]
  | branch kids v => rfl

theorem encoded_within :
    Within ctx 0 ((treeValue H t).Fits Rlp.defaultLimits) (· = treeBytes H t)
      (Program.lift n.encoded) := by
  intro w
  unfold BuilderNode.encoded
  rw [valueRLP_builds builds proper short]
  dsimp only [bind, Except.bind]
  cases made : Rlp.encodeValue (treeValue H t) Rlp.defaultLimits with
  | ok encoded => exact ends_pure ⟨(Rlp.encodeValue_ok made).1, le_refl _⟩
  | error fault =>
    refine ends_fail ⟨trivial, fun all => ?_⟩
    rw [Rlp.encodeValue_bytes all.2.1] at made
    cases made

end

theorem budgetHash_within (v : Bytes) : Within ctx 1 True (· = H v) (budgetHash H v) := by
  intro w
  refine ends_mapError ((hash_spends H v w).mono ?_ ?_)
  · rintro r work' ⟨rfl, spent, -⟩
    exact ⟨rfl, by omega⟩
  · rintro e ⟨-, none⟩
    exact ⟨trivial, by omega⟩

theorem reference_within {n : BuilderNode} (builds : n.Builds H t)
    (proper : t.Proper) (short : t.Short maxCompactPathNibbles) :
    Within ctx 1 ((treeValue H t).Fits Rlp.defaultLimits)
      (· = reference H (treeValue H t)) (n.reference H) := by
  unfold BuilderNode.reference
  rw [valueRLP_builds builds proper short, lift_ok]
  refine ((encoded_within builds proper short).bind 1 True ?_).mono (le_refl _) fun fits =>
    ⟨fits, trivial⟩
  rintro _ rfl
  unfold reference
  rw [treeBytes]
  split
  · exact within_pure rfl
  · refine (budgetHash_within (treeValue H t).bytes).map fun r eq => ?_
    rw [eq]

/-! ### Frames -/

def HoldsChild (keccak : Bytes → Root) : Option BuilderNode → Tree → Prop
  | none, t => t = .nil
  | some node, t => node.Builds keccak t

theorem HoldsChild.isNone_eq {c : Option BuilderNode}
    (holds : HoldsChild H c t) : c.isNone = t.isNil := by
  cases c with
  | none =>
    have vacant : t = .nil := holds
    rw [vacant]
    rfl
  | some n =>
    have occupied : t.isNil = false := by simpa using holds.ne_nil
    rw [occupied]
    rfl

structure BuilderFrame.StandsFor (keccak : Bytes → Root)
    (frame : BuilderFrame) (F : Radix.Frame 16 Content) : Prop where
  children : ∀ i, HoldsChild keccak (frame.children i) (F.children i)
  value : frame.value = contentBytes F.value

theorem empty_standsFor : BuilderFrame.empty.StandsFor H .vacant := ⟨fun _ => rfl, rfl⟩

theorem BuilderFrame.StandsFor.occupied_eq {frame : BuilderFrame} (stands : frame.StandsFor H F) :
    occupied Option.isNone frame.children = occupied Radix.isNil F.children :=
  occupied_congr fun i => (stands.children i).isNone_eq

def Encodable (F : Radix.Frame 16 Content) : Prop :=
  F.Canonical ∧ ∀ i, (F.children i).Short maxCompactPathNibbles

def ChildrenFit (keccak : Bytes → Root) (F : Radix.Frame 16 Content) : Prop :=
  ∀ i, F.children i ≠ .nil → (treeValue keccak (F.children i)).Fits Rlp.defaultLimits

section

variable {frame : BuilderFrame} (stands : frame.StandsFor H F) (encodable : Encodable F)

include stands encodable

theorem builderReferences_within (digits : List Nibble) :
    Within ctx (digits.filter fun i => !(F.children i).isNil).length (ChildrenFit H F)
      (· = digits.map fun i => reference H (treeValue H (F.children i)))
      (builderReferences H ctx frame.children digits) := by
  induction digits with
  | nil => exact within_pure rfl
  | cons i digits ih =>
    have holds := stands.children i
    have first : Within ctx (if (F.children i).isNil then 0 else 1) (ChildrenFit H F)
        (· = reference H (treeValue H (F.children i)))
        (builderElement H (frame.children i)) := by
      cases shape : frame.children i with
      | none =>
        rw [shape] at holds
        have vacant : F.children i = .nil := holds
        rw [vacant]
        exact within_pure rfl
      | some c =>
        rw [shape] at holds
        have some := BuilderNode.Builds.ne_nil holds
        rw [if_neg (by simpa using some)]
        exact (reference_within holds ((encodable.1 i).proper some) (encodable.2 i)).mono
          (le_refl _) fun fits => fits i some
    refine (first.bind _ _ fun v eq => ih.map fun values same' => ?_).check.mono ?_
      fun fits => ⟨fits, fits⟩
    · rw [eq, same', map_cons]
    rw [filter_cons]
    cases (F.children i).isNil
    · simp only [Bool.not_false, if_true, length_cons, Bool.false_eq_true, if_false]
      omega
    · simp

theorem newBuilderBranch_within :
    Within ctx F.count (ChildrenFit H F) (·.Builds H F.node) (newBuilderBranch H ctx frame) := by
  refine (builderReferences_within stands encodable (finRange 16)).map fun values eq => ?_
  rw [eq, stands.value]
  exact .branch F.children F.value

omit stands in
theorem prependBuilderNibble_within {i : Nibble} {n : BuilderNode}
    (builds : n.Builds H (F.children i)) :
    Within ctx 1 (ChildrenFit H F) (·.Builds H (Radix.grow [i] (F.children i)))
      (prependBuilderNibble H ctx i n) := by
  have some := builds.ne_nil
  have fitting : ChildrenFit H F → _ := fun fits => fits i some
  have proper := (encodable.1 i).proper some
  have short := encodable.2 i
  generalize F.children i = t at builds fitting proper short
  cases builds with
  | leaf p content => exact within_pure (.leaf (i :: p) content)
  | extension p below => exact within_pure (.extension (i :: p) below)
  | branch kids v =>
    have builds : BuilderNode.Builds H _ _ := .branch kids v
    refine ((reference_within builds proper short).map fun v eq => ?_).check.mono
      (le_refl _) fitting
    rw [eq]
    exact .extension [i] _

theorem builderFrameNode_within (some : F.finish ≠ .nil) :
    Within ctx F.count (ChildrenFit H F) (·.Builds H F.finish) (builderFrameNode H ctx frame) := by
  unfold builderFrameNode
  rw [stands.occupied_eq]
  have length : frame.value.length = 0 ↔ F.value = none := by
    rw [stands.value]
    exact length_contentBytes
  have branched : Within ctx F.count (ChildrenFit H F) (·.Builds H F.node)
      (newBuilderBranch H ctx frame) := newBuilderBranch_within stands encodable
  cases v : F.value with
  | some content =>
    rw [if_pos (by rw [ne_eq, length, v]; simp)]
    split
    · rename_i none
      rw [Radix.Frame.finish_leaf v (eq_nil_of_length_eq_zero none), stands.value, v]
      exact within_pure (.leaf [] content)
    · rename_i others
      rw [Radix.Frame.finish_branch (Or.inr ⟨by simp [v], by simpa using others⟩)]
      exact branched
  | none =>
    rw [if_neg (by rw [ne_eq, length, v]; simp)]
    split
    · rename_i none
      have vacant : F.finish = .nil := by
        simp only [Radix.Frame.finish, Radix.compact, v, none]
      exact absurd vacant some
    · rename_i i only
      have c : F.children i ≠ .nil := Radix.isNil_eq_false.mp (mem_occupied.mp (by simp [only]))
      have counted : F.count = 1 := by rw [Radix.Frame.count, only]; rfl
      have holds := stands.children i
      rw [Radix.Frame.finish_lone v only, counted]
      cases shape : frame.children i with
      | none =>
        rw [shape] at holds
        exact absurd holds c
      | some n =>
        rw [shape] at holds
        exact prependBuilderNibble_within encodable holds
    · rename_i none several
      rw [Radix.Frame.finish_branch]
      · exact branched
      cases shape : occupied Radix.isNil F.children with
      | nil => exact absurd shape none
      | cons i rest =>
        cases rest with
        | nil => exact absurd shape (several i)
        | cons j rest => simp

end

theorem encodable_of_short (canon : F.Canonical)
    (short : (assembleFrom F above).Short maxCompactPathNibbles) : Encodable F := by
  refine ⟨canon, fun i key found => ?_⟩
  have bound := short (digits above ++ i :: key)
    (by rw [lookup_assembleFrom_top]; exact found)
  rw [length_append, length_cons] at bound
  omega

theorem childrenFit_of_sized (encodable : Encodable F)
    (sized : Sized (15 <<< 20) (assembleFrom F above)) : ChildrenFit H F := by
  intro i some
  refine treeValue_fits ((encodable.1 i).proper some) (encodable.2 i) fun key content found => ?_
  refine sized (digits above ++ i :: key) content ?_
  rw [lookup_assembleFrom_top]
  exact found

theorem finishBuilderFrame_within {frame : BuilderFrame} (stands : frame.StandsFor H F)
    (encodable : Encodable F) (some : F.finish ≠ .nil) (nl : Nat) :
    Within ctx F.count (ChildrenFit H F ∧ nl ≠ 0)
      (fun r => r.1.Builds H F.finish ∧ r.2 + 1 = nl)
      (finishBuilderFrame H ctx frame nl) := by
  have made : nl ≠ 0 → Within ctx F.count (ChildrenFit H F)
      (fun r => r.1.Builds H F.finish ∧ r.2 + 1 = nl)
      (do
        let n ← builderFrameNode H ctx frame
        pure (n, nl - 1)) := fun left =>
    (builderFrameNode_within stands encodable some).map fun n builds => ⟨builds, by omega⟩
  refine Within.check fun w => ends_guard ?_ fun left => ?_
  · exact fun none => ⟨trivial, fun all => all.2.1.2 none⟩
  · exact (made left w).weaken
      fun _ h => ⟨h.1, fun all => h.2 ⟨all.1, all.2.1.1, all.2.2⟩⟩

def StandFor (keccak : Bytes → Root)
    (frames : List BuilderFrame) (above : List (Radix.Frame 16 Content × Nibble)) : Prop :=
  Forall₂ (fun frame entry => frame.StandsFor keccak entry.1) frames above

open Radix (Frontier)

open Radix.Frontier (assembleFrom closeFrom closeCost openFrom digits)

variable {b closed : SortedBuilder} {f : Frontier 16 Content} {top : BuilderFrame}
  {before entries attempts : List Addition} {a : Addition} {r : Root} {lim : Limits}
  {frames : List BuilderFrame}

theorem BuilderFrame.StandsFor.put {t : Radix 16 Content} {i : Nibble} {n : BuilderNode}
    {frame : BuilderFrame} (stands : frame.StandsFor H F)
    (builds : n.Builds H t) :
    StandsFor H { frame with children := Function.update frame.children i (some n) }
      (F.put i t) := by
  refine ⟨fun j => ?_, stands.value⟩
  dsimp only
  by_cases here : j = i
  · rw [here, Function.update_self, Radix.Frame.put_children_self]
    exact builds
  · rw [Function.update_of_ne here, Radix.Frame.put_children_of_ne F here]
    exact stands.children j

theorem closeBuilderFrames_within {previous : Path} {keepDepth : Nat}
    (stands : top.StandsFor H F) (stand : StandFor H frames above)
    (along : digits above <+: previous) (canon : F.Canonical)
    (canonicals : ∀ e ∈ above, e.1.Canonical) (some : above ≠ [] → F.finish ≠ .nil)
    (short : (assembleFrom F above).Short maxCompactPathNibbles) (nl : Nat) :
    Within ctx (closeCost keepDepth F above) (Sized (15 <<< 20) (assembleFrom F above) ∧
        above.length ≤ nl + (closeFrom keepDepth F above).above.length)
      (fun r => r.1.1.StandsFor H (closeFrom keepDepth F above).top ∧
        StandFor H r.1.2 (closeFrom keepDepth F above).above ∧
        r.2 + above.length = nl + (closeFrom keepDepth F above).above.length)
      (closeBuilderFrames H ctx previous keepDepth top frames nl) := by
  induction above generalizing top frames F nl with
  | nil =>
    cases stand
    exact within_pure ⟨stands, .nil, rfl⟩
  | cons e above ih =>
    obtain ⟨parent, i⟩ := e
    cases stand with
    | @cons frame _ rest _ first others =>
      have lengths : rest.length = above.length := others.length_eq
      rw [closeFrom, closeBuilderFrames, closeCost, lengths]
      split
      · have some := some (by simp)
        rw [digits_cons] at along
        have digit : previous.getD above.length (lowNibble 0) = i := by
          obtain ⟨rest, rfl⟩ := along
          simp [getD_eq_getElem?_getD, ← Frontier.length_digits above]
        have sub := (prefix_append (digits above) [i]).trans along
        have encodable := encodable_of_short canon short
        have next : (parent.put i F.finish).finish ≠ .nil :=
          Radix.Frame.finish_ne_nil (Or.inr ⟨i, by rwa [Radix.Frame.put_children_self]⟩)
        have stands_parent : frame.StandsFor H parent := first
        have parent_canonical : (parent.put i F.finish).Canonical :=
          (canonicals _ (mem_cons_self ..)).put canon.finish
        have shorter := length_closeFrom_le keepDepth (parent.put i F.finish) above
        rw [digit, length_cons]
        refine Within.mono (Within.check ((finishBuilderFrame_within stands encodable some
          nl).bind _ (Sized (15 <<< 20) (assembleFrom F ((parent, i) :: above)) ∧ above.length +
            1 ≤ nl + (closeFrom keepDepth (parent.put i F.finish) above).above.length)
          fun r ended => ((ih (stands_parent.put ended.1) others sub parent_canonical
            (forall_mem_cons.mp canonicals).2 (fun _ => next) short r.2).mono (le_refl _)
              fun plenty => ⟨plenty.1, by omega⟩).imp fun closed h => ⟨h.1, h.2.1, by omega⟩))
          (le_refl _) fun plenty => ?_
        exact ⟨⟨childrenFit_of_sized encodable plenty.1, by omega⟩, plenty.1, plenty.2⟩
      · exact within_pure ⟨stands, .cons first others, rfl⟩

theorem appendFrames_stand (rest : Path) (stands : top.StandsFor H F)
    (stand : StandFor H frames above) :
    (appendFrames rest.length top frames).1.StandsFor H (openFrom F above rest).top ∧
      StandFor H (appendFrames rest.length top frames).2 (openFrom F above rest).above := by
  induction rest generalizing top frames F above with
  | nil => exact ⟨stands, stand⟩
  | cons i rest ih => exact ih empty_standsFor (.cons stands stand)

/-! ### Calls -/

/-- The builder holds the frontier of the values it was given. -/
structure SortedBuilder.Follows (keccak : Bytes → Root)
    (builder : SortedBuilder) (f : Frontier 16 Content) : Prop where
  top : builder.top.StandsFor keccak f.top
  above : StandFor keccak builder.above f.above
  ascending : f.Ascending
  short : f.assemble.Short maxCompactPathNibbles
  previous : builder.previous = f.path
  started : builder.hasPrevious = true →
    bytesToNibbles builder.previousKey = f.path ∧ f.top.value ≠ none
  fresh : builder.hasPrevious = false → f = .start
  active : builder.closed = false
  limits : validateTrieLimits builder.limits = .ok ()

/-- What the builder has used up of its budgets after so many digits of keys. -/
structure SortedBuilder.Spent (builder : SortedBuilder) (f : Frontier 16 Content) (digits : Nat) :
    Prop where
  nodes : builder.limits.maxEncodingNodes + f.above.length ≤ builder.nodesLeft + digits
  hashes : builder.limits.maxHashOperations + f.count + f.above.length ≤ builder.hashesLeft + digits

structure SortedBuilder.Accepts (builder : SortedBuilder) (key value : Bytes) : Prop where
  short : key.length ≤ builder.limits.maxKeyBytes
  some : value ≠ []
  small : value.length ≤ builder.limits.maxValueBytes
  later : builder.hasPrevious = true → builder.previousKey < key
  depth : 2 * key.length + 1 ≤ builder.limits.maxTraversalDepth

theorem newSortedBuilder_follows (made : newSortedBuilder lim = .ok b) :
    b.Follows H .start ∧ b.Spent .start 0 ∧ b.limits = lim ∧ b.hasPrevious = false := by
  obtain ⟨_, valid, made⟩ := except_bind_ok.mp made
  cases made
  refine ⟨⟨empty_standsFor, .nil, ⟨fun _ => rfl, by simp [start], by simp [start]⟩, ?_, rfl, ?_,
    fun _ => rfl, rfl,
    valid⟩, ⟨le_refl _, ?_⟩, rfl, rfl⟩
  · intro key found
    cases key <;> exact absurd rfl found
  · intro started
    cases started
  · exact le_of_eq (by simp [Frontier.count, start, Radix.Frame.count,
      Radix.Frame.vacant, occupied, Radix.empty, Radix.isNil])

theorem SortedBuilder.Follows.finish_ne_nil (follows : b.Follows H f)
    (started : b.hasPrevious = true) : f.top.finish ≠ .nil :=
  Radix.Frame.finish_ne_nil (Or.inl (follows.started started).2)

theorem addStep_ends {builder : SortedBuilder} {digits : Nat} (follows : builder.Follows H f)
    (spent : builder.Spent f digits) (key value : Bytes) :
    Ends (builder.addStep H ctx key value) builder.work
      (fun next _ => ∃ content : Content, content.val = value ∧ builder.Accepts key value ∧
        next.Follows H (f.add (bytesToNibbles key) content) ∧
        next.Spent (f.add (bytesToNibbles key) content) (digits + 2 * key.length) ∧
        (f.add (bytesToNibbles key) content).assemble =
          f.assemble.insert (bytesToNibbles key) content ∧
        next.limits = builder.limits ∧ next.hasPrevious = true ∧ next.previousKey = key)
      (fun _ => ¬ (ctx.Live ∧ builder.Accepts key value ∧ Sized (15 <<< 20) f.assemble ∧
        digits ≤ builder.limits.maxEncodingNodes ∧ digits ≤ builder.limits.maxHashOperations)) := by
  unfold SortedBuilder.addStep
  refine ends_guard (fun closed => ?_) fun _ => ?_
  · rw [follows.active] at closed
    cases closed
  refine ((checkContext_live ctx _).weaken fun _ stopped all => stopped.2 all.1).bind ?_
  rintro _ _ ⟨polls, rfl⟩
  refine ends_guard (fun long all => absurd all.2.1.short (by omega)) fun short => ?_
  refine ends_guard (fun wrong all => ?_) fun right => ?_
  · have small := all.2.1.small
    have some := length_pos_iff.mpr all.2.1.some
    omega
  have some : value ≠ [] := fun none => right (Or.inl (by rw [none]; rfl))
  refine ends_guard (fun again all => ?_) fun new => ?_
  · have later := all.2.1.later again.1
    rw [again.2] at later
    exact List.lt_irrefl _ later
  refine ends_guard (fun early all => ?_) fun late => ?_
  · exact List.lt_asymm early.2 (all.2.1.later early.1)
  refine ends_guard (fun deep all => ?_) fun shallow => ?_
  · have d := all.2.1.depth
    rw [length_bytesToNibbles] at deep
    omega
  rw [length_bytesToNibbles] at shallow
  have accepts : builder.Accepts key value := by
    refine ⟨by omega, some, by omega, fun started => ?_, by omega⟩
    have after : ¬ key < builder.previousKey := fun early => late ⟨started, early⟩
    have other : builder.previousKey ≠ key := fun again => new ⟨started, again.symm⟩
    exact Std.lt_of_le_of_ne (List.not_lt.mp after) other
  have later : ¬ bytesToNibbles key < f.path := by
    cases started : builder.hasPrevious with
    | false =>
      rw [follows.fresh started]
      exact not_lt_nil _
    | true =>
      rw [← (follows.started started).1, bytesToNibbles_lt]
      exact fun early => late ⟨started, early⟩
  have common : (if builder.hasPrevious = true then
      commonPrefixLength (bytesToNibbles key) builder.previous else 0) =
      commonLength (bytesToNibbles key) f.path := by
    cases started : builder.hasPrevious with
    | false =>
      rw [follows.fresh started]
      cases bytesToNibbles key <;> rfl
    | true =>
      rw [follows.previous]
      rfl
  have deepest : f.above ≠ [] → f.top.finish ≠ .nil := by
    intro some
    cases started : builder.hasPrevious with
    | false =>
      rw [follows.fresh started] at some
      exact absurd rfl some
    | true => exact follows.finish_ne_nil started
  obtain ⟨rest, remainder, whole, closed, -⟩ := follows.ascending.close_common later
  rw [common, follows.previous]
  generalize cut : commonLength (bytesToNibbles key) f.path = n at *
  have cost := closeCost_le n f.top f.above
  have closing : Within ctx (closeCost n f.top f.above) _ _ _ :=
    closeBuilderFrames_within follows.top follows.above (prefix_refl f.path)
      (fun i => Or.inl (follows.ascending.free i)) follows.ascending.canonical deepest
      follows.short builder.nodesLeft
  have before := spent.nodes
  have before' := spent.hashes
  have counted : f.count = Frontier.count ⟨f.top, f.above⟩ := rfl
  have ended : f.close n = closeFrom n f.top f.above := rfl
  refine ((closing _).weaken ?_).bind ?_
  · rintro e ⟨-, lacking⟩ ⟨live, -, sized, ns, hs⟩
    refine lacking ⟨live, ⟨sized, by omega⟩, ?_⟩
    change closeCost n f.top f.above ≤ builder.hashesLeft
    omega
  rintro ⟨⟨top, frames⟩, left⟩ work ⟨⟨stands, stand, ns⟩, hs⟩
  have hs : builder.hashesLeft ≤ work.hashesLeft + closeCost n f.top f.above := hs
  have size : (bytesToNibbles key).length - frames.length = rest.length := by
    have tot := congrArg length whole
    rw [length_append, path, Frontier.length_digits] at tot
    have same : frames.length = (closeFrom n f.top f.above).above.length := stand.length_eq
    rw [ended] at tot
    omega
  have content : f.add (bytesToNibbles key) ⟨value, some⟩ =
      (openFrom (f.close n).top (f.close n).above rest).store ⟨value, some⟩ := by
    rw [Frontier.add, cut, remainder]
  obtain ⟨stands', stand'⟩ := appendFrames_stand rest stands stand
  have asc := follows.ascending.add later ⟨value, some⟩
  have fitting : (bytesToNibbles key).length ≤ maxCompactPathNibbles := by
    have bound : (pathOf H false key).length ≤ _ := length_pathOf follows.limits accepts.short
    exact bound
  have position := follows.ascending.path_add later ⟨value, some⟩
  dsimp only at ns ⊢
  rw [size]
  have size' : (f.add (bytesToNibbles key) ⟨value, some⟩).above.length = 2 * key.length := by
    rw [← Frontier.length_digits, ← length_bytesToNibbles]
    exact congrArg length position
  refine ends_bind (ends_get (ends_pure ⟨⟨value, some⟩, rfl, accepts, ⟨?_, ?_, asc, ?_,
    position.symm, fun _ => ⟨position.symm, ?_⟩, fun fresh => ?_, follows.active, follows.limits⟩,
    ⟨?_, ?_⟩, follows.ascending.assemble_add later _, rfl, rfl, rfl⟩))
  · rw [content]
    exact ⟨stands'.children, rfl⟩
  · rw [content]
    exact stand'
  · rw [follows.ascending.assemble_add later]
    exact follows.short.insert _ fitting
  · exact Option.some_ne_none _
  · cases fresh
  · dsimp only
    omega
  · have kept : (f.add (bytesToNibbles key) ⟨value, some⟩).count = (f.close n).count := by
      rw [content]
      exact count_openFrom _ _ _ _
    rw [ended] at kept
    dsimp only
    omega

theorem finalizeStep_within (follows : b.Follows H f) :
    Within ctx (f.count + f.above.length + 1)
      (Sized (15 <<< 20) f.assemble ∧ f.above.length + 1 ≤ b.nodesLeft)
      (fun r => r.1 = rootHash H f.assemble) (b.finalizeStep H ctx) := by
  unfold SortedBuilder.finalizeStep
  have active : ¬ b.closed = true := by simp [follows.active]
  rw [failIf, if_neg active]
  refine Within.check ?_
  by_cases started : b.hasPrevious = true
  swap
  · rw [if_neg started, follows.fresh (by simpa using started)]
    refine within_pure ?_
    rfl
  · have some := follows.finish_ne_nil started
    have along : digits f.above <+: b.previous := by
      rw [follows.previous]
      exact prefix_refl _
    have closing : Within ctx (closeCost 0 f.top f.above) _ _ _ :=
      closeBuilderFrames_within follows.top follows.above along
        (fun i => Or.inl (follows.ascending.free i)) follows.ascending.canonical (fun _ => some)
        follows.short b.nodesLeft
    have nothing := closeFrom_zero f.top f.above
    have cost := closeCost_le 0 f.top f.above
    have eq : (closeFrom 0 f.top f.above).assemble = f.assemble := assemble_closeFrom _ _ _
    have kept : (closeFrom 0 f.top f.above).top.finish ≠ .nil := closeFrom_ne_nil some
    have split : digits f.above ++ [] = [] ++ f.path := append_nil _
    have canon : (closeFrom 0 f.top f.above).top.Canonical :=
      (closeFrom_closed follows.ascending.closed split rfl (zero_le _)).2.top
    generalize closeFrom 0 f.top f.above = g at closing nothing cost eq kept canon
    obtain ⟨F, above⟩ := g
    subst nothing
    have whole : F.finish = f.assemble := eq
    have short : F.finish.Short maxCompactPathNibbles := by
      rw [whole]
      exact follows.short
    have proper : F.finish.Proper := canon.finish.proper kept
    have alone : assembleFrom F [] = F.finish := rfl
    have encodable : Encodable F := encodable_of_short canon (alone ▸ short)
    have counted : F.count = Frontier.count ⟨F, []⟩ := rfl
    have total : f.count = Frontier.count ⟨f.top, f.above⟩ := rfl
    rw [if_pos started]
    refine (closing.bind (F.count + 1) (Sized (15 <<< 20) f.assemble ∧ f.above.length + 1 ≤
      b.nodesLeft) ?_).mono (by omega) fun plenty => ⟨⟨plenty.1, ?_⟩, plenty⟩
    swap
    · omega
    rintro ⟨⟨top, frames⟩, left⟩ ⟨stands, -, nodes⟩
    -- the frame that is left, then its encoding and the hash of that
    refine ((finishBuilderFrame_within stands encodable kept left).bind 1
      (Sized (15 <<< 20) F.finish)
      fun r ended => ((encoded_within ended.1 proper short).bind 1 True ?_).mono (by omega)
        fun sized => ⟨treeValue_fits proper short sized, trivial⟩).mono (le_refl _) ?_
    · rintro _ rfl w
      refine (budgetHash_within (treeBytes H F.finish) w).bind ?_
      rintro root work' ⟨rfl, spent⟩
      refine ends_bind (ends_get (ends_pure ⟨?_, spent⟩))
      rw [← whole, rootHash_proper kept]
    · rintro ⟨sized, nodes'⟩
      rw [← whole] at sized
      exact ⟨⟨childrenFit_of_sized encodable (alone ▸ sized), by omega⟩, sized⟩

/-! ### Runs -/

def putsOf (additions : List Addition) : List Mutation := additions.map fun a => .put a.key a.value

def keyDigits (additions : List Addition) : Nat := (additions.map fun a => 2 * a.key.length).sum

/-- What a run that accepted these additions made of the builder. -/
structure SortedBuilder.Ran (keccak : Bytes → Root)
    (builder next : SortedBuilder) (f f' : Frontier 16 Content)
    (digits : Nat) (accepted : List Addition) : Prop where
  follows : next.Follows keccak f'
  spent : next.Spent f' (digits + keyDigits accepted)
  limits : next.limits = builder.limits
  trie : changeAll keccak false f.assemble (putsOf accepted) = some f'.assemble
  sorted : (accepted.map Addition.key).Pairwise (· < ·)
  accepts : ∀ a ∈ accepted, builder.Accepts a.key a.value
  kept : builder.hasPrevious = true → next.hasPrevious = true ∧
    (builder.previousKey = next.previousKey ∨ builder.previousKey < next.previousKey)
  reached : ∀ a ∈ accepted, next.hasPrevious = true ∧
    (a.key = next.previousKey ∨ a.key < next.previousKey)

theorem addAll_ran {builder : SortedBuilder} {digits : Nat} (follows : builder.Follows H f)
    (spent : builder.Spent f digits) (attempts : List Addition) :
    ∃ f', builder.Ran H (builder.addAll H attempts) f f' digits (builder.accepted H attempts) := by
  induction attempts generalizing builder f digits with
  | nil =>
    exact ⟨f, follows, spent, rfl, rfl, .nil, nofun, fun started => ⟨started, Or.inl rfl⟩, nofun⟩
  | cons a rest ih =>
    rw [SortedBuilder.addAll, SortedBuilder.accepted]
    cases added : builder.add H a.ctx a.key a.value with
    | error e => exact ih follows spent
    | ok next =>
      obtain ⟨content, eq, accepts, follows', spent', inserted, lim, started, last⟩ :=
        (addStep_ends follows spent a.key a.value).run.1 next added
      obtain ⟨f', ran⟩ := ih follows' spent'
      have later : ∀ b ∈ next.accepted H rest, a.key < b.key := fun b mem => by
        rw [← last]
        exact (ran.accepts b mem).later started
      refine ⟨f', ran.follows, ?_, ran.limits.trans lim, ?_, ?_, ?_, ?_, ?_⟩
      · have tot : digits + keyDigits (a :: next.accepted H rest) =
            digits + 2 * a.key.length + keyDigits (next.accepted H rest) := by
          simp only [keyDigits, map_cons, sum_cons]
          omega
        rw [tot]
        exact ran.spent
      · have st : (Mutation.put a.key a.value).content = some content := by
          rw [Mutation.content, dif_pos accepts.some]
          exact congrArg some (Subtype.ext eq.symm)
        have rest := ran.trie
        rw [inserted] at rest
        rw [putsOf, map_cons, changeAll, st, change, Option.bind_some]
        exact rest
      · exact pairwise_cons.mpr ⟨by simpa using later, ran.sorted⟩
      · intro b mem
        rcases mem_cons.mp mem with rfl | mem
        · exact accepts
        · have held := ran.accepts b mem
          exact ⟨lim ▸ held.short, held.some, lim ▸ held.small,
            fun before => List.lt_trans (accepts.later before) (later b mem),
            lim ▸ held.depth⟩
      · intro before
        have after := accepts.later before
        obtain ⟨started', order⟩ := ran.kept started
        refine ⟨started', Or.inr ?_⟩
        rw [last] at order
        rcases order with eq | less
        · rwa [← eq]
        · exact List.lt_trans after less
      · intro b mem
        rcases mem_cons.mp mem with rfl | mem
        · rw [← last]
          exact ran.kept started
        · exact ran.reached b mem

theorem addAll_rejected {builder : SortedBuilder} {e : Err}
    (rejected : (builder.addAll H before).add H a.ctx a.key a.value = .error e)
    (after : List Addition) :
    builder.addAll H (before ++ a :: after) = builder.addAll H (before ++ after) := by
  induction before generalizing builder with
  | nil =>
    rw [SortedBuilder.addAll] at rejected
    rw [nil_append, SortedBuilder.addAll, rejected, nil_append]
  | cons b before ih =>
    rw [SortedBuilder.addAll] at rejected
    rw [cons_append, SortedBuilder.addAll, cons_append, SortedBuilder.addAll]
    cases added : builder.add H b.ctx b.key b.value with
    | error | ok =>
      rw [added] at rejected
      exact ih rejected

theorem addAll_accepted (b : SortedBuilder) (attempts : List Addition) :
    b.addAll H (b.accepted H attempts) = b.addAll H attempts := by
  induction attempts generalizing b with
  | nil => rfl
  | cons a rest ih =>
    rw [SortedBuilder.accepted]
    conv_rhs => rw [SortedBuilder.addAll]
    cases added : b.add H a.ctx a.key a.value with
    | error e => exact ih b
    | ok next =>
      rw [SortedBuilder.addAll, added]
      exact ih next

/-- Entries that stay within the limits: a node of the encoding and a hash for each digit
of the keys, and one more to finalize. -/
structure SortedRoom (limits : Limits) (entries : List Addition) : Prop where
  live : ∀ a ∈ entries, a.ctx.Live
  ascending : (entries.map Addition.key).Pairwise (· < ·)
  keys : ∀ a ∈ entries, a.key.length ≤ limits.maxKeyBytes
  depth : ∀ a ∈ entries, 2 * a.key.length + 1 ≤ limits.maxTraversalDepth
  values : ∀ a ∈ entries, a.value ≠ [] ∧ a.value.length ≤ limits.maxValueBytes ∧
    a.value.length ≤ 15 <<< 20
  nodes : keyDigits entries + 1 ≤ limits.maxEncodingNodes
  hashes : keyDigits entries + 1 ≤ limits.maxHashOperations

theorem accepted_of_room {builder : SortedBuilder} {digits : Nat} (follows : builder.Follows H f)
    (spent : builder.Spent f digits) (sized : Sized (15 <<< 20) f.assemble)
    (live : ∀ a ∈ entries, a.ctx.Live) (asc : (entries.map Addition.key).Pairwise (· < ·))
    (accepts : ∀ a ∈ entries, builder.Accepts a.key a.value)
    (values : ∀ a ∈ entries, a.value.length ≤ 15 <<< 20)
    (ns : digits + keyDigits entries ≤ builder.limits.maxEncodingNodes)
    (hs : digits + keyDigits entries ≤ builder.limits.maxHashOperations) :
    builder.accepted H entries = entries := by
  induction entries generalizing builder f digits with
  | nil => rfl
  | cons a rest ih =>
    have tot : keyDigits (a :: rest) = 2 * a.key.length + keyDigits rest := by
      rw [keyDigits, map_cons, sum_cons, keyDigits]
    have first : a ∈ a :: rest := mem_cons_self ..
    have others : ∀ b ∈ rest, b ∈ a :: rest := fun b mem => mem_cons_of_mem _ mem
    obtain ⟨later, asc⟩ := pairwise_cons.mp asc
    rw [SortedBuilder.accepted]
    cases added : builder.add H a.ctx a.key a.value with
    | error e =>
      have failed := (addStep_ends follows spent a.key a.value).run.2 e added
      exact absurd ⟨live a first, accepts a first, sized, by omega, by omega⟩ failed
    | ok next =>
      obtain ⟨content, eq, -, follows', spent', inserted, lim, started, last⟩ :=
        (addStep_ends follows spent a.key a.value).run.1 next added
      have rest' : next.accepted H rest = rest := by
        refine ih follows' spent' ?_ (fun b mem => live b (others b mem)) asc ?_
          (fun b mem => values b (others b mem)) (by rw [lim]; omega) (by rw [lim]; omega)
        · rw [inserted]
          exact sized.insert (by rw [eq]; exact values a first)
        · intro b mem
          have held := accepts b (others b mem)
          have next : a.key < b.key := later _ (mem_map_of_mem mem)
          exact ⟨lim ▸ held.short, held.some, lim ▸ held.small, fun _ => last ▸ next,
            lim ▸ held.depth⟩
      exact congrArg (a :: ·) rest'

section

variable {lim : Limits} (made : newSortedBuilder lim = .ok b)

include made

theorem newSortedBuilder_ran (attempts : List Addition) :
    ∃ f', b.Ran H (b.addAll H attempts) .start f' 0 (b.accepted H attempts) := by
  obtain ⟨follows, spent, -, -⟩ := newSortedBuilder_follows made
  exact addAll_ran follows spent attempts

theorem finalize_root {root : Root}
    (finalized : (b.addAll H attempts).finalize H ctx = .ok (root, closed)) :
    ∃ trie, changeAll H false .nil (putsOf (b.accepted H attempts)) = some trie ∧
      root = rootHash H trie := by
  obtain ⟨f', ran⟩ : ∃ f', b.Ran H _ .start f' 0 _ := newSortedBuilder_ran made attempts
  have trie := ran.trie
  have ends : Within ctx _ _ _ _ := finalizeStep_within ran.follows
  have done := (ends (b.addAll H attempts).work).mono (fun r _ done => done.1)
    fun _ failed => failed
  exact ⟨f'.assemble, trie, done.run.1 _ finalized⟩

theorem finalize_of_room (room : SortedRoom lim entries) (live : ctx.Live) :
    b.accepted H entries = entries ∧
      ∃ root closed, (b.addAll H entries).finalize H ctx = .ok (root, closed) := by
  obtain ⟨follows, spent, eq, unused⟩ : b.Follows H .start ∧ _ := newSortedBuilder_follows made
  have ns := room.nodes
  have hs := room.hashes
  have all : b.accepted H entries = entries := by
    refine accepted_of_room follows spent ?_ room.live room.ascending ?_
      (fun a mem => (room.values a mem).2.2) (by rw [eq]; omega) (by rw [eq]; omega)
    · exact sized_nil _
    · intro a mem
      obtain ⟨some, small, -⟩ := room.values a mem
      refine ⟨eq ▸ room.keys a mem, some, eq ▸ small, fun started => ?_, eq ▸ room.depth a mem⟩
      rw [unused] at started
      cases started
  refine ⟨all, ?_⟩
  obtain ⟨f', ran⟩ := addAll_ran follows spent entries
  rw [all] at ran
  have sized : Sized (15 <<< 20) f'.assemble := by
    refine changeAll_sized (sized_nil _) ?_ (assemble_start ▸ ran.trie)
    intro mutation mem content st
    obtain ⟨a, listed, rfl⟩ := mem_map.mp mem
    obtain ⟨some, -, small⟩ := room.values a listed
    rw [Mutation.content, dif_pos some] at st
    cases st
    exact small
  have left := ran.spent.nodes
  have budget := ran.spent.hashes
  rw [ran.limits, eq] at left budget
  have ends : Within ctx _ _ _ _ := finalizeStep_within ran.follows
  have returned := ((ends (b.addAll H entries).work).mono (fun r _ done => done.1)
    fun e failed => failed.2 ⟨live, ⟨sized, by omega⟩, by
      simp only [SortedBuilder.work]
      omega⟩).returns
  obtain ⟨⟨root, closed⟩, w, returned, -⟩ := returned
  refine ⟨root, closed, ?_⟩
  rw [SortedBuilder.finalize, returned]
  rfl

theorem add_rejects (wrong : (∃ p ∈ b.accepted H before, ¬ p.key < a.key) ∨
      lim.maxKeyBytes < a.key.length ∨ a.value = [] ∨ lim.maxValueBytes < a.value.length) :
    ∃ e, (b.addAll H before).add H a.ctx a.key a.value = .error e := by
  obtain ⟨-, -, eq, -⟩ : b.Follows H .start ∧ _ := newSortedBuilder_follows made
  obtain ⟨f', ran⟩ : ∃ f', b.Ran H _ .start f' 0 _ := newSortedBuilder_ran made before
  cases added : (b.addAll H before).add H a.ctx a.key a.value with
  | error e => exact ⟨e, rfl⟩
  | ok next =>
    obtain ⟨-, -, accepts, -⟩ := (addStep_ends ran.follows ran.spent a.key a.value).run.1 next added
    have short := accepts.short
    have small := accepts.small
    rw [ran.limits, eq] at short small
    rcases wrong with ⟨p, mem, after⟩ | long | empty | large
    · obtain ⟨started, order⟩ := ran.reached p mem
      have later := accepts.later started
      refine absurd ?_ after
      rcases order with equal | less
      · rwa [equal]
      · exact List.lt_trans less later
    · omega
    · exact absurd empty accepts.some
    · omega

end

theorem finalize_eq_applyBatch {builder : SortedBuilder}
    {limits' : Limits} {snap : Snapshot} {ctx' : Context} {ms : List Mutation} {h : Heap}
    (made : newSortedBuilder lim = .ok builder)
    (fresh : newTrie limits' = .ok snap)
    (finalized : (builder.addAll H attempts).finalize H ctx = .ok (r, closed))
    (perm : ms.Perm (putsOf (builder.accepted H attempts))) {next : Snapshot}
    (ran : (Call.applyBatch ctx' ms).run H h false snap = .ok next) : next.hash = r := by
  obtain ⟨trie, changed, rfl⟩ := finalize_root made finalized
  obtain ⟨trie', changed', hash⟩ := (applyBatch_new fresh).1 next ran
  obtain ⟨f', run⟩ : ∃ f', builder.Ran H _ .start f' 0 _ := newSortedBuilder_ran made attempts
  have distinct : ((putsOf (builder.accepted H attempts)).map
      fun mutation => pathOf H false mutation.key).Nodup := by
    rw [putsOf, map_map]
    refine pairwise_map.mpr ((pairwise_map.mp run.sorted).imp fun {a b} less eq => ?_)
    have eq : a.key = b.key := bytesToNibbles_injective eq
    rw [eq] at less
    exact List.lt_irrefl _ less
  rw [hash, changeAll_perm perm.symm distinct (Or.inl rfl) changed changed']

/-- The sorted builder equals the trie. The root of a run of additions is the root after one batch
that puts the accepted ones, in any order, into an empty trie; within the limits both succeed on
all entries; and a rejected addition, wherever it stands, changes nothing. -/
theorem sortedBuilder_eq_applyBatch {keccak : Bytes → Root}
    {limits limits' : Limits} {builder : SortedBuilder}
    {snapshot : Snapshot} (made : newSortedBuilder limits = .ok builder)
    (fresh : newTrie limits' = .ok snapshot) :
    (∀ attempts ctx root closed,
      (builder.addAll keccak attempts).finalize keccak ctx = .ok (root, closed) →
      ∀ mutations ctx' heap next, mutations.Perm (putsOf (builder.accepted keccak attempts)) →
        (Call.applyBatch ctx' mutations).run keccak heap false snapshot = .ok next →
        next.hash = root) ∧
    (∀ entries ctx, SortedRoom limits entries → ctx.Live →
      ∀ mutations ctx' heap n, mutations.Perm (putsOf entries) →
        BatchRoom ctx' limits' n (putsOf entries) →
        builder.accepted keccak entries = entries ∧
          ∃ root closed next,
            (builder.addAll keccak entries).finalize keccak ctx = .ok (root, closed) ∧
            (Call.applyBatch ctx' mutations).run keccak heap false snapshot = .ok next ∧
            next.hash = root) ∧
    (∀ attempts, builder.addAll keccak (builder.accepted keccak attempts) =
      builder.addAll keccak attempts) ∧
    (∀ before a after e, (builder.addAll keccak before).add keccak a.ctx a.key a.value = .error e →
      builder.addAll keccak (before ++ a :: after) = builder.addAll keccak (before ++ after)) ∧
    (∀ before (a : Addition), (∃ p ∈ builder.accepted keccak before, ¬ p.key < a.key) ∨
        limits.maxKeyBytes < a.key.length ∨ a.value = [] ∨ limits.maxValueBytes < a.value.length →
      ∃ e, (builder.addAll keccak before).add keccak a.ctx a.key a.value = .error e) := by
  refine ⟨?_, ?_, addAll_accepted builder, ?_, ?_⟩
  · intro attempts ctx root closed finalized mutations ctx' heap next perm ran
    exact finalize_eq_applyBatch made fresh finalized perm ran
  · intro entries ctx room live mutations ctx' heap n perm batchRoom
    obtain ⟨all, root, closed, finalized⟩ :
      builder.accepted keccak entries = entries ∧ _ := finalize_of_room made room live
    cases ran : (Call.applyBatch ctx' mutations).run keccak heap false snapshot with
    | error e => exact absurd (batchRoom.perm perm) ((applyBatch_new fresh).2 e ran n)
    | ok next =>
      refine ⟨all, root, closed, next, finalized, rfl, ?_⟩
      rw [← all] at perm
      exact finalize_eq_applyBatch made fresh finalized perm ran
  · intro before a after e rejected
    exact addAll_rejected rejected after
  · intro before a wrong
    exact add_rejects made wrong

def sortedPair : List Addition := [⟨.background, [0x00], [0x41]⟩, ⟨.background, [0x01], [0x42]⟩]

def pairRoot : Root :=
  .ofNat 0x0b7f3801175125271404a84d60e505032ae19465f9732051a631f8151d547faf

theorem sortedBuilder_eq_applyBatch_pair :
    ∃ builder snapshot, newSortedBuilder defaultLimits = .ok builder ∧
      newTrie defaultLimits = .ok snapshot ∧
      ∃ root closed next,
        (builder.addAll keccakPair sortedPair).finalize keccakPair .background =
          .ok (root, closed) ∧
        (Call.applyBatch .background (putsOf sortedPair).reverse).run keccakPair Heap.new false
          snapshot = .ok next ∧
        next.hash = root ∧ root = pairRoot := by
  obtain ⟨builder, made⟩ : ∃ builder, newSortedBuilder defaultLimits = .ok builder :=
    exists_of_toBool (by decide +kernel)
  obtain ⟨snapshot, fresh⟩ : ∃ snapshot, newTrie defaultLimits = .ok snapshot :=
    exists_of_toBool (by decide +kernel)
  have room : SortedRoom defaultLimits sortedPair :=
    ⟨by simp [sortedPair, live_background], by decide +kernel, by decide +kernel, by decide +kernel,
      by decide +kernel, by decide +kernel, by decide +kernel⟩
  have batch : BatchRoom .background defaultLimits 2 (putsOf sortedPair) :=
    ⟨live_background, by decide +kernel, by decide +kernel,
      by simp [putsOf, sortedPair, defaultLimits], by decide +kernel, by decide +kernel,
      by decide +kernel, by decide +kernel⟩
  obtain ⟨-, within, -⟩ : _ ∧ _ ∧ (∀ attempts, builder.addAll keccakPair _ = _) ∧ _ :=
    sortedBuilder_eq_applyBatch made fresh
  obtain ⟨-, root, closed, next, finalized, ran, same⟩ := within sortedPair .background room
    live_background (putsOf sortedPair).reverse .background Heap.new 2 (reverse_perm _) batch
  refine ⟨builder, snapshot, made, fresh, root, closed, next, finalized, ran, same, ?_⟩
  have value : ((newSortedBuilder defaultLimits).bind fun builder =>
      (builder.addAll keccakPair sortedPair).finalize keccakPair .background).map
        Prod.fst = .ok pairRoot := by decide +kernel
  rw [made, Except.bind, finalized] at value
  exact Except.ok.inj value

end

end Golib.MerklePatriciaTrie
