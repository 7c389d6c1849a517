import Golib.MerklePatriciaTrie.Calls

/-! Histories of raw tries: after any calls that succeed, the root depends on the
contents only and determines them, and lookups return the contents. -/
namespace Golib.MerklePatriciaTrie

open Program List Function Set

variable {map : Bytes → Option Content} {calls : List Call} {key : Bytes}

section

variable (keccak : Bytes → Root) {trie trie' : Tree}

def encodingsOf : Tree → List Bytes
  | .nil => []
  | .leaf path value => [treeBytes keccak (.leaf path value)]
  | .ext path child => treeBytes keccak (.ext path child) :: encodingsOf child
  | .branch children value =>
    treeBytes keccak (.branch children value) ::
      (finRange 16).flatMap fun i => encodingsOf (children i)

/-- The trie after the calls, when they remove only keys that are there. -/
def trieAfter (secure : Bool) (calls : List Call) : Option Tree :=
  changeAll keccak secure .nil (calls.flatMap Call.mutations)

/-- The node encodings that occur while the calls are made. -/
def callEncodings (secure : Bool) (trie : Tree) (calls : List Call) : List Bytes :=
  (range (calls.length + 1)).flatMap fun n =>
    ((changeAll keccak secure trie ((calls.take n).flatMap Call.mutations)).map
      (encodingsOf keccak)).getD []

def runEncodings (secure : Bool) (calls : List Call) : List Bytes :=
  (range (calls.length + 1)).flatMap fun n =>
    ((trieAfter keccak secure (calls.take n)).map (encodingsOf keccak)).getD []

def runCalls (heap : Heap) (secure : Bool) (snapshot : Snapshot) (calls : List Call) :
    Except Err Snapshot :=
  calls.foldlM (fun snapshot call => call.run keccak heap secure snapshot) snapshot

/-- A history of calls that starts from an empty trie. -/
def runTrie (heap : Heap) (secure : Bool) (limits : Limits) (calls : List Call) :
    Except Err Snapshot := do
  let snapshot ← newTrie limits
  runCalls keccak heap secure snapshot calls

/-- The finite map that a list of mutations makes of another. -/
def mutateMap (map : Bytes → Option Content) (mutations : List Mutation) : Bytes → Option Content :=
  mutations.foldl (fun map mutation => update map mutation.key mutation.content) map

def contents (calls : List Call) : Bytes → Option Content :=
  mutateMap (fun _ => none) (calls.flatMap Call.mutations)

variable {H : Bytes → Root} {K : Set Bytes} {h : Heap} {t : Tree} {sec : Bool} {lim : Limits}
  {snap : Snapshot}

theorem every_encodings (sub : ∀ b ∈ encodingsOf H t, b ∈ K) :
    t.Every (fun s => treeBytes H s ∈ K) := by
  induction t with
  | nil => trivial
  | leaf p v => exact sub _ (by simp [encodingsOf])
  | ext p c ih =>
    exact ⟨sub _ (by simp [encodingsOf]), ih fun b mem => sub b (by simp [encodingsOf, mem])⟩
  | branch kids v ih =>
    refine ⟨sub _ (by simp [encodingsOf]), fun i => ih i fun b mem => sub b ?_⟩
    simp only [encodingsOf, mem_cons, mem_flatMap]
    exact Or.inr ⟨i, mem_finRange i, mem⟩

theorem changeAll_append (sec : Bool) (t : Tree) (first second : List Mutation) :
    changeAll H sec t (first ++ second) =
      (changeAll H sec t first).bind fun trie' => changeAll H sec trie' second := by
  induction first generalizing t with
  | nil => rfl
  | cons m first ih =>
    rw [cons_append, changeAll, changeAll, Option.bind_assoc]
    congr 1
    funext trie'
    exact ih trie'

theorem newTrie_holds (made : newTrie lim = .ok snap) :
    snap.Holds H K h .nil ∧ snap.Closed H h .nil ∧
      snap.limits = lim ∧ snap.reader = none ∧ snap.materialized = true := by
  obtain ⟨_, valid, made⟩ := except_bind_ok.mp made
  cases made
  refine ⟨⟨Or.inl rfl, Radix.short_nil _, fun some =>
    absurd rfl some, Or.inl rfl, rfl, fun _ => rfl,
    ?_, ?_, rfl, valid⟩, ⟨?_, fun some => absurd rfl some⟩, rfl, rfl, rfl⟩
  · intro r b found
    cases found
  · intro s reader
    cases reader
  · intro b mem
    exact absurd mem (Multiset.notMem_zero b)

theorem every_callEncodings (sub : ∀ b ∈ callEncodings H sec t calls, b ∈ K) (n : Nat)
    (changed : changeAll H sec t ((calls.take n).flatMap Call.mutations) = some trie') :
    trie'.Every (fun s => treeBytes H s ∈ K) := by
  apply every_encodings
  intro b mem
  apply sub
  rw [callEncodings, mem_flatMap]
  refine ⟨min n calls.length, by simp, ?_⟩
  rw [← take_eq_take_min, changed]
  exact mem

theorem runCalls_holds (inj : InjOn H K) {sec : Bool} {next : Snapshot}
    (holds : snap.Holds H K h trie)
    (known : ∀ n t, changeAll H sec trie ((calls.take n).flatMap Call.mutations) = some t →
      t.Every (fun s => treeBytes H s ∈ K))
    (ran : runCalls H h sec snap calls = .ok next) :
    ∃ trie', changeAll H sec trie (calls.flatMap Call.mutations) = some trie' ∧
      next.Holds H K h trie' ∧ next.limits = snap.limits ∧
      next.reader = snap.reader ∧ next.materialized = snap.materialized := by
  induction calls generalizing snap trie with
  | nil =>
    cases ran
    exact ⟨trie, rfl, holds, rfl, rfl, rfl⟩
  | cons call calls ih =>
    obtain ⟨middle, first, later⟩ := except_bind_ok.mp ran
    obtain ⟨trie', changed, called⟩ := (Call.run_spec inj holds).1 middle first
    have called := called (known 1 trie' (by simpa using changed))
    have split : ∀ rest, changeAll H sec trie (call.mutations ++ rest) =
        changeAll H sec trie' rest := by
      intro rest
      rw [changeAll_append, changed]
      rfl
    have knownLater : ∀ n t, changeAll H sec trie' ((calls.take n).flatMap Call.mutations) =
        some t → t.Every (fun s => treeBytes H s ∈ K) := by
      intro n t changed'
      apply known (n + 1) t
      rw [take_succ_cons, flatMap_cons, split]
      exact changed'
    obtain ⟨trie'', changed', holds', lim, reader, materialized⟩ := ih called.holds knownLater later
    refine ⟨trie'', ?_, holds', lim.trans called.limits, reader.trans called.reader,
      materialized.trans called.materialized⟩
    rw [flatMap_cons, split]
    exact changed'

theorem runTrie_holds (inj : InjOn H K) {sec : Bool} (known : ∀ b ∈ runEncodings H sec calls, b ∈ K)
    (ran : runTrie H h sec lim calls = .ok snap) :
    ∃ t, trieAfter H sec calls = some t ∧ snap.Holds H K h t ∧
      snap.limits = lim ∧ snap.reader = none ∧ snap.materialized = true := by
  obtain ⟨start, made, ran⟩ := except_bind_ok.mp ran
  obtain ⟨holds, -, limits', reader, materialized⟩ := newTrie_holds made
  obtain ⟨t, changed, holds', limits'', reader', materialized'⟩ :=
    runCalls_holds inj holds (fun n _ => every_callEncodings known n) ran
  exact ⟨t, changed, holds', limits''.trans limits', reader'.trans reader,
    materialized'.trans materialized⟩

/-! ### Contents -/

/-- The trie holds the map: under the path of each key of `Q` its value, and nothing else. -/
structure Matches (keccak : Bytes → Root)
    (secure : Bool) (Q : Set Bytes) (trie : Tree) (map : Bytes → Option Content) :
    Prop where
  values : ∀ key ∈ Q, trie.lookup (pathOf keccak secure key) = map key
  keys : ∀ path, trie.lookup path ≠ none → ∃ key ∈ Q, path = pathOf keccak secure key
  others : ∀ key ∉ Q, map key = none

variable {Q : Set Bytes} {ms : List Mutation}

theorem matches_nil : Matches H sec Q .nil (fun _ => none) :=
  ⟨fun _ _ => rfl, fun _ found => absurd rfl found, fun _ _ => rfl⟩

theorem pathOf_injOn (apart : sec = true → InjOn H Q) : InjOn (pathOf H sec) Q := by
  intro key mem key' mem' eq
  cases sec with
  | false => exact bytesToNibbles_injective eq
  | true =>
    apply apart rfl mem mem'
    have bs : (H key).bytes = (H key').bytes := bytesToNibbles_injective eq
    rwa [Bytes32.mk.injEq]

theorem Matches.change {v : Option Content}
    (held : Matches H sec Q t map) (apart : InjOn (pathOf H sec) Q)
    (mem : key ∈ Q) (changed : change t (pathOf H sec key) v = some trie') :
    Matches H sec Q trie' (update map key v) := by
  refine ⟨fun key' mem' => ?_, fun p found => ?_, fun key' outside => ?_⟩
  · rw [lookup_change changed]
    by_cases eq : key' = key
    · rw [eq, if_pos rfl, update_self]
    · rw [if_neg (fun equal => eq (apart mem' mem equal)), update_of_ne eq]
      exact held.values key' mem'
  · rw [lookup_change changed] at found
    split at found
    · rename_i eq
      exact ⟨key, mem, eq⟩
    · exact held.keys p found
  · rw [update_of_ne (fun eq => outside (by rwa [eq]))]
    exact held.others key' outside

theorem Matches.changeAll (held : Matches H sec Q t map) (apart : InjOn (pathOf H sec) Q)
    (members : ∀ m ∈ ms, m.key ∈ Q) (changed : changeAll H sec t ms = some trie') :
    Matches H sec Q trie' (mutateMap map ms) := by
  induction ms generalizing t map with
  | nil =>
    cases changed
    exact held
  | cons m rest ih =>
    obtain ⟨middle, first, later⟩ := Option.bind_eq_some_iff.mp changed
    exact ih (held.change apart (members m (by simp)) first)
      (fun m mem => members m (by simp [mem])) later

theorem matches_after {cs : List Call} (after : trieAfter H false cs = some t) :
    Matches H false univ t (contents cs) :=
  matches_nil.changeAll (pathOf_injOn (by simp)) (fun _ _ => trivial) after

theorem Matches.unique (left : Matches H false univ trie map)
    (right : Matches H false univ trie' map) (canon : trie.Canonical)
    (canon' : trie'.Canonical) : trie = trie' := by
  apply canon.unique canon'
  intro p
  by_cases here : ∃ key ∈ univ, p = pathOf H false key
  · obtain ⟨key, -, rfl⟩ := here
    rw [left.values key trivial, right.values key trivial]
  · have absent : ∀ {t : Tree}, Matches H false univ t map → t.lookup p = none := by
      intro t held
      by_contra found
      exact here (held.keys p found)
    rw [absent left, absent right]

/-! ### Orders of mutations -/

theorem lookup_changeAll (changed : changeAll H sec t ms = some trie') :
    trie'.lookup = ms.foldl (fun lookup m =>
      update lookup (pathOf H sec m.key) m.content) t.lookup := by
  induction ms generalizing t with
  | nil =>
    cases changed
    rfl
  | cons m rest ih =>
    obtain ⟨middle, first, later⟩ := Option.bind_eq_some_iff.mp changed
    rw [ih later, foldl_cons]
    congr 1
    funext p
    rw [lookup_change first, update_apply]

/-- Mutations at different paths make the same trie in any order. -/
theorem changeAll_perm {start : Tree} {mutations' : List Mutation} (perm : ms.Perm mutations')
    (distinct : (ms.map fun mutation => pathOf H sec mutation.key).Nodup)
    (canon : start.Canonical) (changed : changeAll H sec start ms = some t)
    (changed' : changeAll H sec start mutations' = some trie') : t = trie' := by
  refine (changeAll_canonical canon changed).unique (changeAll_canonical canon changed')
    fun p => ?_
  rw [lookup_changeAll changed, lookup_changeAll changed', perm.foldl_eq']
  intro m mem m' mem' lookup
  by_cases eq : pathOf H sec m.key = pathOf H sec m'.key
  · rw [inj_on_of_nodup_map distinct mem mem' eq]
  · exact update_comm eq _ _ lookup

theorem changeAll_eq_none (distinct : (ms.map fun m => pathOf H sec m.key).Nodup) :
    changeAll H sec t ms = none ↔ ∃ m ∈ ms,
      m.content = none ∧ t.lookup (pathOf H sec m.key) = none := by
  induction ms generalizing t with
  | nil => simp [changeAll]
  | cons m rest ih =>
    obtain ⟨others, distinct⟩ := nodup_cons.mp distinct
    cases first : change t (pathOf H sec m.key) m.content with
    | none =>
      rw [changeAll, first]
      cases st : m.content with
      | some content =>
        rw [st] at first
        cases first
      | none =>
        rw [st] at first
        simp [st, Radix.delete_eq_none_iff.mp first]
    | some middle =>
      have present : ¬ (m.content = none ∧ t.lookup (pathOf H sec m.key) = none) := by
        rintro ⟨st, absent⟩
        rw [st, change, Radix.delete_eq_none_iff.mpr absent] at first
        cases first
      have apart : ∀ other ∈ rest, middle.lookup (pathOf H sec other.key) =
          t.lookup (pathOf H sec other.key) := by
        intro other mem
        rw [lookup_change first, if_neg]
        intro eq
        exact others (mem_map.mpr ⟨other, mem, eq⟩)
      rw [changeAll, first, Option.bind_some, ih distinct, exists_mem_cons_iff]
      simp only [present, false_or]
      exact exists_congr fun other => and_congr_right fun mem => by rw [apart other mem]

theorem rootHash_injective (inj : InjOn H K) (empty : H [0x80] = emptyRoot) (reserved : [0x80] ∈ K)
    (left : t ≠ .nil → Stored H K t) (right : trie' ≠ .nil → Stored H K trie')
    (eq : rootHash H t = rootHash H trie') : t = trie' := by
  by_cases none : t = .nil
  · by_cases none' : trie' = .nil
    · rw [none, none']
    · rw [none, rootHash_proper none'] at eq
      exact absurd eq.symm ((right none').root_ne_empty inj empty reserved)
  · by_cases none' : trie' = .nil
    · rw [none', rootHash_proper none] at eq
      exact absurd eq ((left none).root_ne_empty inj empty reserved)
    · rw [rootHash_proper none, rootHash_proper none'] at eq
      exact (left none).unique inj (right none')
        (inj (left none).mem (right none').mem eq)

/-! ### Histories -/

/-- Lookups in the snapshot return the map: its value, or that the key is absent; otherwise
they refuse the key, or stop at a limit or with the context. -/
structure Serves (keccak : Bytes → Root) (heap : Heap)
    (snapshot : Snapshot) (map : Bytes → Option Content) : Prop where
  returned : ∀ ctx key value,
    (Snapshot.get keccak heap ctx snapshot key false snapshot.limits.work).map
      Prod.fst = .ok value →
      ∃ content, map key = some content ∧ content.val = value
  refused : ∀ ctx key e,
    (Snapshot.get keccak heap ctx snapshot key false snapshot.limits.work).map Prod.fst = .error e →
      (e = .absentKey ∧ map key = none) ∨ e.Refuses
  within : ∀ ctx key, ctx.Live → key.length ≤ snapshot.limits.maxKeyBytes →
    2 * key.length ≤ snapshot.limits.maxTraversalDepth →
    2 * key.length < snapshot.limits.maxTraversalNodes →
    (Snapshot.get keccak heap ctx snapshot key false snapshot.limits.work).map Prod.fst =
      match map key with
      | some content => .ok content.val
      | none => .error .absentKey

theorem Snapshot.Holds.serves (inj : InjOn H K)
    (holds : snap.Holds H K h t) (materialized : snap.materialized = true)
    (held : Matches H false univ t map) : Serves H h snap map := by
  have values : ∀ key, t.lookup (pathOf H false key) = map key := fun key =>
    held.values key trivial
  refine ⟨fun ctx key v returned => ?_, fun ctx key e refused => ?_,
    fun ctx key live fits shallow enough => ?_⟩
  · rw [← values]
    exact (get_ends inj holds).run.1 v returned
  · rcases (get_ends inj holds).run.2 e refused with refuses | missing | absent
    · exact Or.inr refuses.1
    · exact absurd materialized missing.1
    · rw [values] at absent
      exact Or.inl absent
  · have room : GetRoom ctx snap key (pathOf H false key).length := by
      have length : (pathOf H false key).length = 2 * key.length := length_bytesToNibbles key
      exact ⟨live, fits, length ▸ shallow, length ▸ enough, Or.inl materialized⟩
    have out := (get_ends inj holds :
      Ends (Snapshot.get H h ctx snap key false) _ _ _).run
    rw [values] at out
    cases result : (Snapshot.get H h ctx snap key false snap.limits.work).map
        Prod.fst with
    | ok v =>
      obtain ⟨content, found, rfl⟩ := out.1 v result
      rw [found]
    | error e =>
      rcases out.2 e result with refuses | missing | ⟨rfl, absent⟩
      · exact absurd room refuses.2
      · exact absurd materialized missing.1
      · rw [absent]

/-- Two histories end with the same root exactly when they end with the same contents, and
lookups return those. -/
theorem roots_history_independent {keccak : Bytes → Root}
    {heap : Heap} {heap' : Heap} {limits limits' : Limits}
    {calls calls' : List Call} {snapshot snapshot' : Snapshot}
    (ran : runTrie keccak heap false limits calls = .ok snapshot)
    (ran' : runTrie keccak heap' false limits' calls' = .ok snapshot')
    (empty : keccak [0x80] = emptyRoot)
    (injective : InjOn keccak
      {b | b ∈ [0x80] :: runEncodings keccak false calls ++ runEncodings keccak false calls'}) :
    (snapshot.hash = snapshot'.hash ↔ contents calls = contents calls') ∧
      Serves keccak heap snapshot (contents calls) ∧
      Serves keccak heap' snapshot' (contents calls') := by
  obtain ⟨trie, after, holds, -, -, materialized⟩ := runTrie_holds injective
    (fun b mem => mem_append_left _ (mem_cons_of_mem _ mem)) ran
  obtain ⟨trie', after', holds', -, -, materialized'⟩ := runTrie_holds injective
    (fun b mem => mem_append_right _ mem) ran'
  have held := matches_after after
  have held' := matches_after after'
  refine ⟨⟨fun same => ?_, fun same => ?_⟩, holds.serves injective materialized held,
    holds'.serves injective materialized' held'⟩
  · rw [holds.hash, holds'.hash] at same
    have equal := rootHash_injective injective empty (by exact mem_append_left _ (by simp))
      holds.stored holds'.stored same
    funext key
    rw [← held.values key trivial, ← held'.values key trivial, equal]
  · rw [holds.hash, holds'.hash]
    rw [same] at held
    rw [held.unique held' holds.canonical holds'.canonical]

end

/-! ### Two histories -/

/-- Keccak-256 on the inputs of a table. -/
def keccakOn (known : List (Bytes × Root)) (b : Bytes) : Root := (known.lookup b).getD emptyRoot

theorem injOn_list {f : Bytes → Root} {known : List Bytes}
    (apart : ∀ b ∈ known, ∀ b' ∈ known, f b = f b' → b = b') : InjOn f {b | b ∈ known} :=
  fun b mem b' mem' eq => apart b mem b' mem' eq

theorem injOn_append {known : List Bytes}
    {f : Bytes → Root} {more : List Bytes} (inj : InjOn f {b | b ∈ known})
    (sub : ∀ b ∈ more, b ∈ known) : InjOn f {b | b ∈ known ++ more} :=
  inj.mono fun b mem => (mem_append.mp mem).elim id (sub b)

theorem exists_of_toBool {α ε : Type} {r : Except ε α} (ok : r.toBool = true) : ∃ a, r = .ok a := by
  cases r with
  | ok a => exact ⟨a, rfl⟩
  | error e => cases ok

def keccakLeaves : Bytes → Root := keccakOn
  [([0xc4, 0x82, 0x20, 0x10, 0x41],
    .ofNat 0x851950cc58a114e0df01d89ad5afb0dd8822833112e0d5fdfc4691ac7e6bdd91),
   ([0xc4, 0x82, 0x20, 0x20, 0x42],
    .ofNat 0x97a91744a030ac511724c1767e40ef47015479227dde4ecfe4566a3f308a9668)]

def putOnce : List Call := [.update .background [0x10] [0x41]]

def putAfterDelete : List Call :=
  [.update .background [0x20] [0x42], .delete .background [0x20], .update .background [0x10] [0x41]]

theorem roots_history_independent_after_delete :
    ∃ snapshot snapshot', runTrie keccakLeaves Heap.new false defaultLimits putOnce = .ok snapshot ∧
      runTrie keccakLeaves Heap.new false defaultLimits putAfterDelete = .ok snapshot' ∧
      (snapshot.hash = snapshot'.hash ↔ contents putOnce = contents putAfterDelete) ∧
      Serves keccakLeaves Heap.new snapshot (contents putOnce) ∧
      Serves keccakLeaves Heap.new snapshot' (contents putAfterDelete) := by
  obtain ⟨snapshot, ran⟩ : ∃ snapshot, runTrie keccakLeaves Heap.new false defaultLimits putOnce =
      .ok snapshot := exists_of_toBool (by decide +kernel)
  obtain ⟨snapshot', ran'⟩ : ∃ snapshot,
      runTrie keccakLeaves Heap.new false defaultLimits putAfterDelete = .ok snapshot :=
    exists_of_toBool (by decide +kernel)
  exact ⟨snapshot, snapshot', ran, ran',
    roots_history_independent ran ran' (by decide +kernel) (injOn_list (by decide +kernel))⟩

def keccakPair : Bytes → Root := keccakOn
  [([0xc4, 0x82, 0x20, 0x00, 0x41],
    .ofNat 0xb9f584b2de852e9f2aa4b378e346a1f6e7669089f3cb5c54bd9394f513507de8),
   ([0xc2, 0x20, 0x41],
    .ofNat 0x47de45c860cd202f49d602dd646619c5a05a22303c0d04014049d396ff49b75f),
   ([0xc2, 0x20, 0x42],
    .ofNat 0xec2527b171a6ae9a22859fe71875acded9c9aa3ce3bbb0ec97220abc0c165001),
   ([0xd5, 0xc2, 0x20, 0x41, 0xc2, 0x20, 0x42, 0x80, 0x80, 0x80, 0x80, 0x80, 0x80, 0x80, 0x80, 0x80,
     0x80, 0x80, 0x80, 0x80, 0x80, 0x80],
    .ofNat 0xb2168201a29a623392627c83c3bf3cf50116688d2a0b661cfee9725597e114ce),
   ([0xd7, 0x10, 0xd5, 0xc2, 0x20, 0x41, 0xc2, 0x20, 0x42, 0x80, 0x80, 0x80, 0x80, 0x80, 0x80, 0x80,
     0x80, 0x80, 0x80, 0x80, 0x80, 0x80, 0x80, 0x80],
    .ofNat 0x0b7f3801175125271404a84d60e505032ae19465f9732051a631f8151d547faf)]

def putPair : List Call := [.update .background [0x00] [0x41], .update .background [0x01] [0x42]]

/-- Under a depth limit that a key's path exceeds, a history succeeds and the lookup of a key
that it holds does not. -/
theorem get_stops_at_depth :
    ∃ snapshot,
      runTrie keccakPair Heap.new false { defaultLimits with maxTraversalDepth := 1 } putPair =
        .ok snapshot ∧
      keccakPair [0x80] = emptyRoot ∧
      InjOn keccakPair {b | b ∈ [0x80] :: runEncodings keccakPair false putPair} ∧
      (contents putPair [0x00]).map Subtype.val = some [0x41] ∧
      (Snapshot.get keccakPair Heap.new .background snapshot [0x00] false
        snapshot.limits.work).map Prod.fst = .error (.resourceLimit .traversal) := by
  obtain ⟨snapshot, ran⟩ : ∃ snapshot, runTrie keccakPair Heap.new false
      { defaultLimits with maxTraversalDepth := 1 } putPair = .ok snapshot :=
    exists_of_toBool (by decide +kernel)
  have stops : (runTrie keccakPair Heap.new false { defaultLimits with maxTraversalDepth := 1 }
      putPair >>= fun snapshot => (Snapshot.get keccakPair Heap.new .background
        snapshot [0x00] false
        snapshot.limits.work).map Prod.fst) = .error (.resourceLimit .traversal) := by
    decide +kernel
  rw [ran] at stops
  exact ⟨snapshot, ran, by decide +kernel, injOn_list (by decide +kernel), by decide +kernel, stops⟩

end Golib.MerklePatriciaTrie
