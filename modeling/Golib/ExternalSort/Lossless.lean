import Golib.ExternalSort.Sorted

/-! What a whole use of a store yields. -/
namespace Golib.ExternalSort

open Golib.Merging List

variable {log : List Sealing}

theorem forEachSorted_yields
    {cipher : Cipher} {s : Store} {chunks : List (List Bytes)} {accepted : List Bytes}
    {faults : MergeFaults}
    {contents : Store → Nat → Bytes}
    (valid : validConfig s.config = true) (holds : Holds cipher s chunks accepted)
    (tells : ∀ chunks' store', (forEachSorted cipher faults contents s).1 = store' →
      Finalized cipher store' chunks' accepted →
      (OnlySealed s chunks → OnlySealed store' chunks') →
      ∀ (i : Nat) (chunk : List Bytes), chunks'[i]? = some chunk →
        Tells (ChunkReader.next cipher store' faults.read) chunk
          (readerOf (contents store') store' i)) :
    Yields (ascending accepted) (forEachSorted cipher faults contents s).2 := by
  have finalized := finalize_finalized valid holds faults
  unfold forEachSorted at tells ⊢
  split
  · exact yields_failed _
  rename_i notClosing
  split
  · exact yields_failed _
  rename_i notFinalized
  split
  · exact yields_failed _
  rename_i notCancelled
  rw [if_neg notClosing, if_neg notFinalized, if_neg notCancelled] at tells
  generalize finalize cipher faults s = outcome at finalized tells
  obtain ⟨store', error⟩ := outcome
  cases error with
  | some error => exact yields_failed error
  | none =>
    obtain ⟨chunks', complete, sealed⟩ := finalized rfl
    exact mergeChunks_yields complete (tells chunks' store' rfl complete sealed)

def written (store : Store) (index : Nat) : Bytes := (store.chunks[index]?).getD []

theorem sorted_lossless {cipher : Cipher} (correct : cipher.Correct) (factory : Factory)
    (identity : Bytes) (nonceDomain : UInt64) (calls : List (Bytes × AddFaults))
    (faults : MergeFaults) :
    let added := addAll cipher calls (factory.openStore identity nonceDomain)
    let sorted := forEachSorted cipher faults written added.1
    sorted.2.2 = none → sorted.2.1.Pairwise (· ≤ ·) ∧ sorted.2.1.Perm added.2 := by
  intro added sorted done
  obtain ⟨config, chunks, holds, -⟩ := addAll_keeps calls factory.valid
    (openStore_holds cipher factory identity nonceDomain)
  have valid : validConfig added.1.config = true := config ▸ factory.valid
  have yields : Yields (ascending added.2) sorted.2 := by
    refine forEachSorted_yields valid holds ?_
    intro chunks' store' _ finalized _ index chunk place
    obtain ⟨file, found, framed⟩ := finalized.framed index chunk place
    have sizes : ∀ record ∈ chunk, record.length = store'.config.recordBytes := by
      intro record mem
      refine finalized.sizes record (finalized.records.mem_iff.mp ?_)
      exact mem_flatten_of_mem (mem_of_getElem? place) mem
    have tells : Tells (ChunkReader.next cipher store' faults.read) chunk
      ⟨file, index, 0, 0 + chunk.length⟩ := tells_of_frames correct framed sizes
    rw [readerOf, written, found, finalized.expected index chunk place]
    rwa [Nat.zero_add] at tells
  have all : sorted.2.1 = ascending added.2 := yields.2 done
  rw [all]
  exact ⟨ascending_sorted _, ascending_perm _⟩

def noSpillFaults : SpillFaults :=
  { cancelledAtStart := false, createTemp := none, chmod := false, cancelled := fun _ => false,
    write := fun _ => false, sync := false, close := false, cleanup := false }

def noMergeFaults : MergeFaults :=
  { cancelledAtStart := false, spill := noSpillFaults, openFile := fun _ => false,
    read := fun _ _ => false, cancelled := fun _ => false, yield := fun _ => false,
    close := false }

/-- A cipher that hides nothing. -/
def clearCipher : Cipher :=
  { «seal» := fun _ plaintext _ => plaintext ++ replicate overhead 0
    «open» := fun _ ciphertext _ => some (ciphertext.take (ciphertext.length - overhead)) }

/-- Records of one byte, two to a chunk. -/
def smallFactory : Factory := ⟨⟨1, 2, 128⟩, by decide⟩

/-- The spill of the record 3 fails at the end, when both its records are written. -/
def interruptedCalls : List (Bytes × AddFaults) :=
  [([5], ⟨false, noSpillFaults⟩), ([3], ⟨false, { noSpillFaults with sync := true }⟩),
    ([7], ⟨false, noSpillFaults⟩), ([5], ⟨false, noSpillFaults⟩)]

theorem sorted_lossless_interrupted :
    let added := addAll clearCipher interruptedCalls (smallFactory.openStore [] 0)
    let sorted := forEachSorted clearCipher noMergeFaults written added.1
    added.2 = [[5], [7], [5]] ∧ sorted.2.1.Pairwise (· ≤ ·) ∧ sorted.2.1.Perm added.2 :=
  ⟨by decide +kernel, sorted_lossless ⟨by simp [clearCipher], by simp [clearCipher]⟩ smallFactory
    [] 0 interruptedCalls
    noMergeFaults (by decide +kernel)⟩

theorem yields_authentic {cipher : Cipher} {factory : Factory} {identity : Bytes}
    {nonceDomain : UInt64} {calls : List (Bytes × AddFaults)} {faults : MergeFaults}
    {contents : Store → Nat → Bytes}
    (ideal : cipher.Ideal (forEachSorted cipher faults contents
      (addAll cipher calls (factory.openStore identity nonceDomain)).1).1.sealings)
    (early : ∀ call ∈ calls, call.2.spill.Early) :
    (forEachSorted cipher faults contents
        (addAll cipher calls (factory.openStore identity nonceDomain)).1).2.1 <+:
      ascending (addAll cipher calls (factory.openStore identity nonceDomain)).2 := by
  obtain ⟨config, chunks, holds, sealed⟩ := addAll_keeps calls factory.valid
    (openStore_holds cipher factory identity nonceDomain)
  have before := sealed early ⟨nofun, rfl, Nat.zero_le _⟩
  have valid : validConfig (addAll cipher calls
    (factory.openStore identity nonceDomain)).1.config = true := config ▸ factory.valid
  have limit : (addAll cipher calls (factory.openStore identity nonceDomain)).2.length ≤
      2 ^ 32 := by
    have total := holds.total
    rw [nil_append] at total
    rw [← total]
    exact before.limit.trans (nonces_suffice valid)
  refine (forEachSorted_yields valid holds ?_).1
  intro chunks' store' same finalized sealed' index chunk place
  have few := finalized.few
  have all := finalized.records.length_eq
  rw [same] at ideal
  rw [nil_append] at few all
  have short : ∀ chunk ∈ chunks', chunk.length < 2 ^ 64 := by
    intro chunk mem
    have part := (sublist_flatten_of_mem mem).length_le
    omega
  have tells : Tells (ChunkReader.next cipher store' faults.read) chunk
      ⟨contents store' index, index, 0, 0 + chunk.length⟩ :=
    tells_of_onlySealed ideal (sealed' before) (by omega) short place _ drop_zero
  rw [readerOf, finalized.expected index chunk place]
  rwa [Nat.zero_add] at tells

/-- The ideal cipher of what was sealed. -/
def logCipher (log : List Sealing) : Cipher :=
  { «seal» := clearCipher.seal
    «open» := fun nonce ciphertext aad => (log.find? fun sealing => sealing.nonce = nonce ∧
      sealing.ciphertext = ciphertext ∧ sealing.additionalData = aad).map (·.plaintext) }

theorem logCipher_ideal
    (distinct : log.Pairwise fun a b => a.nonce ≠ b.nonce) : (logCipher log).Ideal log := by
  intro nonce ciphertext aad plaintext
  simp only [logCipher, Option.map_eq_some_iff]
  constructor
  · rintro ⟨sealing, found, rfl⟩
    have eq := find?_some found
    rw [decide_eq_true_eq] at eq
    obtain ⟨rfl, rfl, rfl⟩ := eq
    exact mem_of_find?_eq_some found
  · intro mem
    induction log with
    | nil => exact absurd mem not_mem_nil
    | cons first log ih =>
      obtain ⟨others, distinct'⟩ := pairwise_cons.mp distinct
      obtain rfl | later := mem_cons.mp mem
      · exact ⟨_, find?_cons_of_pos (by simp), rfl⟩
      · obtain ⟨sealing, found, eq⟩ := ih distinct' later
        refine ⟨sealing, ?_, eq⟩
        rw [find?_cons_of_neg, found]
        simp only [decide_eq_true_eq, not_and]
        exact fun equal => absurd equal (others _ later)

def sealedBy (calls : List (Bytes × AddFaults)) : List Sealing :=
  (forEachSorted clearCipher noMergeFaults written
    (addAll clearCipher calls (smallFactory.openStore [] 0)).1).1.sealings

/-- A file with two records that the store sealed, the latest first. -/
def fileOf (log : List Sealing) (first second : Nat) : Bytes :=
  ((log[first]?.toList ++ log[second]?.toList).map fun sealing =>
    sealing.nonce ++ sealing.ciphertext).flatten

theorem logCipher_ideal_of_eq {log' : List Sealing} (eq : log' = log)
    (distinct : log.Pairwise fun a b => a.nonce ≠ b.nonce) : (logCipher log).Ideal log' := by
  subst eq
  exact logCipher_ideal distinct

def chunkCalls : List (Bytes × AddFaults) :=
  [([5], ⟨false, noSpillFaults⟩), ([7], ⟨false, noSpillFaults⟩)]

theorem yields_authentic_repeated :
    (addAll (logCipher (sealedBy chunkCalls)) chunkCalls (smallFactory.openStore [] 0)).2 =
        [[5], [7]] ∧
      (forEachSorted (logCipher (sealedBy chunkCalls)) noMergeFaults
          (fun _ _ => fileOf (sealedBy chunkCalls) 1 1)
          (addAll (logCipher (sealedBy chunkCalls)) chunkCalls (smallFactory.openStore [] 0)).1).2 =
        ([[5]], some .corrupt) ∧
      (forEachSorted (logCipher (sealedBy chunkCalls)) noMergeFaults
          (fun _ _ => fileOf (sealedBy chunkCalls) 1 1)
          (addAll (logCipher (sealedBy chunkCalls)) chunkCalls
            (smallFactory.openStore [] 0)).1).2.1 <+:
        ascending (addAll (logCipher (sealedBy chunkCalls)) chunkCalls
          (smallFactory.openStore [] 0)).2 := by
  refine ⟨by decide +kernel, by decide +kernel,
    yields_authentic (logCipher_ideal_of_eq (by decide +kernel) (by decide +kernel)) ?_⟩
  have early : noSpillFaults.Early := ⟨fun _ _ => rfl, fun _ => rfl, rfl, rfl⟩
  intro call mem
  rw [chunkCalls, mem_pair] at mem
  obtain rfl | rfl := mem <;> exact early

/-- The first file is put together from the records of the failed spill. -/
def rolledBack (store : Store) (index : Nat) : Bytes :=
  if index = 0 then fileOf (sealedBy interruptedCalls) 4 3 else written store index

theorem yields_rejected_record :
    (logCipher (sealedBy interruptedCalls)).Ideal
        (forEachSorted (logCipher (sealedBy interruptedCalls)) noMergeFaults rolledBack
          (addAll (logCipher (sealedBy interruptedCalls)) interruptedCalls
            (smallFactory.openStore [] 0)).1).1.sealings ∧
      (addAll (logCipher (sealedBy interruptedCalls)) interruptedCalls
        (smallFactory.openStore [] 0)).2 = [[5], [7], [5]] ∧
      (forEachSorted (logCipher (sealedBy interruptedCalls)) noMergeFaults rolledBack
          (addAll (logCipher (sealedBy interruptedCalls)) interruptedCalls
            (smallFactory.openStore [] 0)).1).2 = ([[3], [5], [5]], none) :=
  ⟨logCipher_ideal_of_eq (by decide +kernel) (by decide +kernel), by decide +kernel,
    by decide +kernel⟩

end Golib.ExternalSort
