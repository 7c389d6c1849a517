import Golib.ExternalSort.Store

/-! The nonces of all stores of a process. Each store has a domain of its own, which the process
allocates when it opens the store, and counts within it. -/
namespace Golib.ExternalSort

open List

/-! ### The process -/

structure NonceDomainAllocator where
  initialized : Bool
  seed : UInt64
  next : UInt64

/-- The seed is read from `entropy` once. -/
def NonceDomainAllocator.allocate (allocator : NonceDomainAllocator) (entropy : Option UInt64) :
    NonceDomainAllocator × Option UInt64 :=
  match if allocator.initialized then some allocator.seed else entropy with
  | none => (allocator, none)
  | some seed =>
    if allocator.next = ~~~0 then ({ allocator with seed, initialized := true }, none)
    else (⟨true, seed, allocator.next + 1⟩, some (seed ^^^ (allocator.next + 1)))

/-- The stores that were opened, each with the cipher of its key. -/
structure Process where
  allocator : NonceDomainAllocator
  stores : List (Cipher × Store)

def Process.start : Process := ⟨⟨false, 0, 0⟩, []⟩

/-- A call on the process or on one of its stores. Stores share nothing but the allocator, and one
store takes one call at a time. -/
inductive Event where
  /-- `fails` says whether the directory of the store cannot be made. -/
  | openStore (cipher : Cipher) (factory : Factory) (identity : Bytes) (entropy : Option UInt64)
      (fails : Bool)
  | add (index : Nat) (faults : AddFaults) (record : Bytes)
  | forEachSorted (index : Nat) (faults : MergeFaults) (contents : Store → Nat → Bytes)

def Process.call (process : Process) (index : Nat) (f : Cipher → Store → Store) : Process :=
  match process.stores[index]? with
  | none => process
  | some (cipher, store) =>
    { process with stores := process.stores.set index (cipher, f cipher store) }

def Process.step (process : Process) : Event → Process
  | .openStore cipher factory identity entropy fails =>
    match process.allocator.allocate entropy with
    | (allocator, none) => { process with allocator }
    | (allocator, some nonceDomain) =>
      { allocator, stores := if fails then process.stores
          else process.stores ++ [(cipher, factory.openStore identity nonceDomain)] }
  | .add index faults record =>
    process.call index fun cipher store => (add cipher faults record store).1
  | .forEachSorted index faults contents =>
    process.call index fun cipher store => (forEachSorted cipher faults contents store).1

/-- What was passed to `Seal` in the process. -/
def Process.nonces (process : Process) : List Bytes :=
  process.stores.flatMap fun entry => entry.2.sealings.map Sealing.nonce

/-! ### One store -/

def nonceOf (nonceDomain : UInt64) (count : Nat) : Bytes :=
  putBigEndian 8 nonceDomain.toNat ++ putBigEndian 4 count

/-- The store has used the nonces of its domain up to its count, once each. -/
def Numbered (nonceDomain : UInt64) (store : Store) : Prop :=
  store.nonceDomain = nonceDomain ∧ store.nonceCount ≤ 2 ^ 32 ∧
    store.sealings.map Sealing.nonce = (range store.nonceCount).reverse.map (nonceOf nonceDomain)

variable {cipher : Cipher} {nonceDomain : UInt64} {s : Store}

theorem writeRecords_numbered (numbered : Numbered nonceDomain s) (faults : SpillFaults)
    (chunkIndex : Nat) (rs : List Bytes) (recordIndex : Nat) (file : Bytes) :
    Numbered nonceDomain (writeRecords cipher faults chunkIndex rs recordIndex s file).1 := by
  induction rs generalizing recordIndex s file with
  | nil => exact numbered
  | cons plaintext rs ih =>
    rw [writeRecords]
    split
    · exact numbered
    split
    · exact numbered
    rename_i room
    obtain ⟨domain, few, nonces⟩ := numbered
    have next : Numbered nonceDomain { s with
        nonceCount := s.nonceCount + 1
        sealings := sealRecord cipher s chunkIndex recordIndex plaintext :: s.sealings } := by
      refine ⟨domain, ?_, ?_⟩
      · dsimp only
        omega
      · rw [map_cons, nonces, range_succ, reverse_append, map_append, ← domain]
        rfl
    split
    · exact next
    · exact ih next _ _

theorem abandon_numbered (numbered : Numbered nonceDomain s) (faults : SpillFaults)
    (error : Error) : Numbered nonceDomain (abandon faults s error).1 := by
  unfold abandon
  split <;> exact numbered

theorem spill_numbered {store : Store}
    (numbered : Numbered nonceDomain store) (faults : SpillFaults) :
    Numbered nonceDomain (spill cipher faults store).1 := by
  unfold spill
  split
  · exact numbered
  have sorted : Numbered nonceDomain { store with buffer := Merging.ascending store.buffer } :=
    numbered
  dsimp only
  split
  · exact numbered
  split
  · exact abandon_numbered sorted _ _
  have written := @writeRecords_numbered cipher _ _ sorted faults store.chunks.length
    (Merging.ascending store.buffer) 0 []
  generalize writeRecords cipher faults _ _ _ _ _ = out at written ⊢
  obtain ⟨store, error | file⟩ := out
  · exact abandon_numbered written _ _
  · dsimp only [complete]
    split_ifs
    · exact abandon_numbered written _ _
    · exact abandon_numbered written _ _
    · exact written

theorem add_numbered (numbered : Numbered nonceDomain s) (faults : AddFaults) (r : Bytes) :
    Numbered nonceDomain (add cipher faults r s).1 := by
  unfold add
  split_ifs
  case neg =>
    dsimp only
    split_ifs
    · exact numbered
    have spilled := @spill_numbered cipher _ { s with
      buffer := s.buffer ++ [r], total := s.total + 1 } numbered faults.spill
    generalize spill cipher _ _ = out at spilled ⊢
    obtain ⟨s, _ | error⟩ := out <;> exact spilled
  all_goals exact numbered

theorem forEachSorted_numbered (numbered : Numbered nonceDomain s) (faults : MergeFaults)
    (contents : Store → Nat → Bytes) :
    Numbered nonceDomain (forEachSorted cipher faults contents s).1 := by
  have finalized : Numbered nonceDomain (finalize cipher faults s).1 := by
    unfold finalize
    have spilled : Numbered nonceDomain
        (if s.buffer.length > 0 then spill cipher faults.spill s else (s, none)).1 := by
      split
      · exact spill_numbered numbered _
      · exact numbered
    generalize (if s.buffer.length > 0 then _ else _) = out at spilled ⊢
    obtain ⟨s, _ | error⟩ := out <;> exact spilled
  unfold forEachSorted
  split_ifs
  case neg =>
    generalize finalize cipher _ _ = out at finalized ⊢
    obtain ⟨s, _ | error⟩ := out <;> exact finalized
  all_goals exact numbered

/-! ### All stores -/

theorem nonceOf_inj {count' : Nat} {domain domain' : UInt64}
    {n : Nat} (few : n < 2 ^ 32) (few' : count' < 2 ^ 32)
    (eq : nonceOf domain n = nonceOf domain' count') : domain = domain' ∧ n = count' := by
  obtain ⟨high, low⟩ := append_inj eq (by simp)
  have domains := congrArg bigEndian high
  have counts := congrArg bigEndian low
  rw [bigEndian_put 8 _ domain.toNat_lt, bigEndian_put 8 _ domain'.toNat_lt] at domains
  rw [bigEndian_put 4 _ few, bigEndian_put 4 _ few'] at counts
  exact ⟨UInt64.toNat_inj.mp domains, counts⟩

def Process.domains (process : Process) : List UInt64 :=
  process.stores.map fun entry => entry.2.nonceDomain

/-- The domains of the stores come from different counters of the allocator, up to its last. -/
structure Process.Apart (process : Process) : Prop where
  unseeded : process.allocator.initialized = false → process.stores = []
  domains : ∃ counters : List UInt64, process.domains =
    counters.map (process.allocator.seed ^^^ ·) ∧
    counters.Nodup ∧ ∀ n ∈ counters, n ≤ process.allocator.next
  numbered : ∀ entry ∈ process.stores, Numbered entry.2.nonceDomain entry.2

variable {process : Process}

theorem Process.Apart.call (apart : process.Apart) (i : Nat) {f : Cipher → Store → Store}
    (keeps : ∀ cipher domain s, Numbered domain s → Numbered domain (f cipher s)) :
    (process.call i f).Apart := by
  unfold Process.call
  split
  · exact apart
  · rename_i cipher s found
    obtain ⟨bound, at_⟩ := List.getElem?_eq_some_iff.mp found
    have kept := keeps cipher _ s (apart.numbered _ (mem_of_getElem? found))
    have eq : Process.domains
        ⟨process.allocator, process.stores.set i (cipher, f cipher s)⟩ = process.domains := by
      have bound : i < process.domains.length := by simpa [Process.domains] using bound
      have self : process.domains[i] = s.nonceDomain := by simp [Process.domains, at_]
      rw [Process.domains, map_set, kept.1, ← self]
      exact set_getElem_self bound
    refine ⟨fun new => ?_, eq ▸ apart.domains, fun e mem => ?_⟩
    · rw [apart.unseeded new]
      rfl
    · rcases mem_or_eq_of_mem_set mem with old | rfl
      · exact apart.numbered e old
      · rwa [kept.1]

theorem Process.Apart.openStore (apart : process.Apart) (cipher : Cipher) (factory : Factory)
    (identity : Bytes) (entropy : Option UInt64) (fails : Bool) :
    (process.step (.openStore cipher factory identity entropy fails)).Apart := by
  unfold Process.step NonceDomainAllocator.allocate
  dsimp only
  cases read : if process.allocator.initialized then some process.allocator.seed else entropy with
  | none => exact ⟨apart.unseeded, apart.domains, apart.numbered⟩
  | some seed =>
    obtain ⟨counters, eq, nodup, least⟩ : ∃ counters : List UInt64,
        process.domains = counters.map (seed ^^^ ·) ∧
        counters.Nodup ∧ ∀ n ∈ counters, n ≤ process.allocator.next := by
      cases set : process.allocator.initialized with
      | false => exact ⟨[], by simp [Process.domains, apart.unseeded set], nodup_nil, nofun⟩
      | true =>
        rw [set, if_pos rfl] at read
        rw [← Option.some.inj read]
        exact apart.domains
    dsimp only
    by_cases full : process.allocator.next = ~~~0
    · rw [if_pos full]
      exact ⟨nofun, ⟨counters, eq, nodup, least⟩, apart.numbered⟩
    rw [if_neg full]
    have later : process.allocator.next < process.allocator.next + 1 := by
      have most : process.allocator.next.toNat ≠ 2 ^ 64 - 1 := fun most =>
        full (UInt64.toNat_inj.mp most)
      have bound := process.allocator.next.toNat_lt
      rw [UInt64.lt_iff_toNat_lt, UInt64.toNat_add]
      change _ < (_ + 1) % 2 ^ 64
      omega
    have least' : ∀ n ∈ counters, n ≤ process.allocator.next + 1 := fun n mem =>
      UInt64.le_trans (least n mem) (UInt64.le_of_lt later)
    cases fails with
    | true => exact ⟨nofun, ⟨counters, eq, nodup, least'⟩, apart.numbered⟩
    | false =>
      have new : process.allocator.next + 1 ∉ counters := fun mem =>
        UInt64.not_le.mpr later (least _ mem)
      refine ⟨nofun, ⟨counters ++ [process.allocator.next + 1], ?_, ?_, ?_⟩, ?_⟩
      · change map _ (_ ++ [_]) = _
        rw [map_append, map_append, ← eq]
        rfl
      · exact nodup_append_comm.mp (nodup_cons.mpr ⟨new, nodup⟩)
      · exact forall_mem_append.mpr ⟨least', by simp⟩
      · exact forall_mem_append.mpr ⟨apart.numbered, by simp [Numbered, Factory.openStore]⟩

theorem Process.Apart.step (apart : process.Apart) (event : Event) :
    (process.step event).Apart := by
  cases event with
  | openStore => exact apart.openStore ..
  | add i faults r =>
    exact apart.call i fun _ _ _ numbered => add_numbered numbered faults r
  | forEachSorted i faults contents =>
    exact apart.call i fun _ _ _ numbered => forEachSorted_numbered numbered faults contents

theorem Process.Apart.nodup (apart : process.Apart) : process.nonces.Nodup := by
  unfold Process.nonces
  rw [nodup_flatMap]
  constructor
  · intro e mem
    obtain ⟨-, few, nonces⟩ := apart.numbered e mem
    rw [nonces]
    refine Nodup.map_on ?_ (nodup_reverse.mpr nodup_range)
    intro k used k' used' eq
    simp only [mem_reverse, mem_range] at used used'
    exact (nonceOf_inj (by omega) (by omega) eq).2
  · obtain ⟨counters, eq, nodup, -⟩ := apart.domains
    have distinct : process.domains.Nodup := by
      rw [eq]
      exact nodup.map fun n n' => (UInt64.xor_right_inj _).mp
    refine (pairwise_map.mp distinct).imp_of_mem fun {e entry'} mem mem' other => ?_
    obtain ⟨-, few, nonces⟩ := apart.numbered e mem
    obtain ⟨-, few', nonces'⟩ := apart.numbered entry' mem'
    dsimp only [Function.onFun]
    rw [nonces, nonces']
    intro nonce used used'
    obtain ⟨k, below, rfl⟩ := mem_map.mp used
    obtain ⟨k', below', eq⟩ := mem_map.mp used'
    simp only [mem_reverse, mem_range] at below below'
    exact other (nonceOf_inj (by omega) (by omega) eq).1.symm

/-- No nonce is used twice in a process: whatever stores it opens, under any keys, and whatever
calls are made on them in any order, with any failures, no two of the nonces passed to `Seal` are
the same. -/
theorem nonces_never_reused (events : List Event) :
    (events.foldl Process.step Process.start).nonces.Nodup ∧
      ∀ nonce ∈ (events.foldl Process.step Process.start).nonces, nonce.length = nonceSize := by
  have apart : (events.foldl Process.step Process.start).Apart := by
    suffices reached : ∀ process : Process, process.Apart →
      (events.foldl Process.step process).Apart from
      reached _ ⟨fun _ => rfl, ⟨[], rfl, nodup_nil, nofun⟩, nofun⟩
    induction events with
    | nil => exact fun _ apart => apart
    | cons event events ih => exact fun process apart => ih _ (apart.step event)
  refine ⟨apart.nodup, fun nonce used => ?_⟩
  obtain ⟨entry, mem, inside⟩ := mem_flatMap.mp used
  rw [(apart.numbered entry mem).2.2] at inside
  obtain ⟨count, -, rfl⟩ := mem_map.mp inside
  simp [nonceOf, nonceSize]

end Golib.ExternalSort
