import Golib.ExternalSort.Chunks

/-! `ForEachSorted` after any run of `Add` calls: what it yields from the files that were written,
and what it can be made to yield from any others. -/
namespace Golib.ExternalSort

open Golib.Merging List Option Nat

variable {faults : MergeFaults} {i : Nat}

/-- The store whose input is complete: its chunks hold all that was accepted. -/
structure Finalized (cipher : Cipher) (store : Store) (chunks : List (List Bytes))
    (accepted : List Bytes) : Prop extends Stored cipher store chunks where
  expected : ∀ (index : Nat) (chunk : List Bytes), chunks[index]? = some chunk →
    (store.expectedChunkRecords index % 2 ^ 64).toNat = chunk.length
  records : chunks.flatten.Perm accepted
  few : chunks.length ≤ accepted.length
  sizes : ∀ record ∈ accepted, record.length = store.config.recordBytes

section Finalize

variable {cipher : Cipher} {s : Store} {chunks : List (List Bytes)} {accepted : List Bytes}

theorem length_flatten_of_full {size : Nat} (full : ∀ chunk ∈ chunks, chunk.length = size) :
    chunks.flatten.length = chunks.length * size := by
  have eq : chunks.map length = replicate chunks.length size := by
    rw [eq_replicate_iff, length_map]
    refine ⟨rfl, fun length mem => ?_⟩
    obtain ⟨chunk, found, rfl⟩ := mem_map.mp mem
    exact full chunk found
  rw [length_flatten, eq, sum_replicate_nat]

theorem Holds.total_eq (holds : Holds cipher s chunks accepted) :
    s.total = chunks.length * s.config.chunkRecords + s.buffer.length := by
  rw [holds.total, ← holds.records.length_eq, length_append, length_flatten_of_full holds.full]

section

variable (valid : validConfig s.config = true) (holds : Holds cipher s chunks accepted)

include valid holds

theorem Holds.expected_full (old : i < chunks.length) :
    (s.expectedChunkRecords i % 2 ^ 64).toNat = s.config.chunkRecords := by
  have size := (validConfig_bounds valid).2.1
  have before := mul_le_mul_right s.config.chunkRecords (succ_le_of_lt old)
  have total := holds.total_eq
  rw [succ_mul] at before
  unfold Store.expectedChunkRecords
  unfold maximumChunkRecords at size
  have shift : (i : Int) * s.config.chunkRecords =
    ((i * s.config.chunkRecords : Nat) : Int) := by push_cast; rfl
  omega

theorem Holds.expected_rest :
    (s.expectedChunkRecords chunks.length % 2 ^ 64).toNat = s.buffer.length := by
  have size := (validConfig_bounds valid).2.1
  have room := holds.room
  have total := holds.total_eq
  unfold Store.expectedChunkRecords
  unfold maximumChunkRecords at size
  have shift : (chunks.length : Int) * s.config.chunkRecords =
    ((chunks.length * s.config.chunkRecords : Nat) : Int) := by push_cast; rfl
  omega

theorem Holds.few : chunks.length + s.buffer.length ≤ accepted.length := by
  rw [← holds.total, holds.total_eq]
  exact Nat.add_le_add_right
    (Nat.le_mul_of_pos_right _ (validConfig_bounds valid).1) _

theorem finalize_finalized (faults : MergeFaults) (done : (finalize cipher faults s).2 = none) :
    ∃ chunks', Finalized cipher (finalize cipher faults s).1 chunks' accepted ∧
      (OnlySealed s chunks → OnlySealed (finalize cipher faults s).1 chunks') := by
  have few := holds.few valid
  unfold finalize at done ⊢
  by_cases pending : s.buffer.length > 0
  · rw [if_pos pending] at done ⊢
    have spilled := spill_spilled cipher faults.spill s
    generalize spill cipher faults.spill s = outcome at spilled done
    cases spilled with
    | failed count sealings buffer closing error => cases done
    | complete sealings file new framed =>
      have perm := ascending_perm s.buffer
      refine ⟨chunks ++ [ascending s.buffer],
        ⟨holds.toStored.snoc framed (ascending_sorted _) _ rfl rfl, ?_, ?_, ?_, holds.sizes⟩,
        fun sealed => sealed.snoc holds.files new _ rfl rfl (by rw [perm.length_eq]; rfl)
          sealed.limit⟩
      · intro i chunk place
        change (s.expectedChunkRecords i % 2 ^ 64).toNat = _
        obtain ⟨bound, -⟩ := List.getElem?_eq_some_iff.mp place
        rw [List.length_append, List.length_singleton] at bound
        by_cases old : i < chunks.length
        · rw [getElem?_append_left old] at place
          rw [holds.expected_full valid old, holds.full chunk (mem_of_getElem? place)]
        · have last : i = chunks.length := by omega
          rw [last, getElem?_concat_length, some.injEq] at place
          rw [last, holds.expected_rest valid, ← place, perm.length_eq]
      · rw [flatten_append, flatten_singleton]
        exact (perm.append_left _).trans holds.records
      · rw [length_append, length_singleton]
        omega
  · rw [if_neg pending]
    have empty : s.buffer = [] := length_eq_zero_iff.mp (by omega)
    refine ⟨chunks, ⟨⟨holds.files, holds.framed, holds.sorted⟩, ?_, ?_, by omega, holds.sizes⟩,
      fun sealed => ⟨sealed.places, sealed.count, sealed.limit⟩⟩
    · intro i chunk place
      change (s.expectedChunkRecords i % 2 ^ 64).toNat = _
      rw [holds.expected_full valid (List.getElem?_eq_some_iff.mp place).1,
        holds.full chunk (mem_of_getElem? place)]
    · have records := holds.records
      rwa [empty, append_nil] at records

end

end Finalize

def readerOf (contents : Nat → Bytes) (store : Store) (index : Nat) : ChunkReader :=
  { file := contents index
    chunkIndex := index
    recordIndex := 0
    expectedRecords := (store.expectedChunkRecords index % 2 ^ 64).toNat }

theorem openReaders_eq {s : Store} {readers : List ChunkReader} {contents : Nat → Bytes}
    (opened : openReaders faults s contents = some readers) :
    readers = (range s.chunks.length).map (readerOf contents s) := by
  unfold openReaders at opened
  generalize range s.chunks.length = indices at opened
  induction indices generalizing readers with
  | nil =>
    exact (some.inj opened).symm
  | cons i indices ih =>
    rw [mapM_cons] at opened
    split at opened
    · cases opened
    · obtain ⟨reader, first, others⟩ := bind_eq_some_iff.mp opened
      obtain ⟨rest, mapped, eq⟩ := bind_eq_some_iff.mp others
      rw [map_cons, ← ih mapped, ← some.inj eq, ← some.inj first]
      rfl

section Merge

variable {cipher : Cipher} {s : Store} {chunks : List (List Bytes)} {accepted : List Bytes}

/-- Chunks whose readers tell them are merged into the ascending list of what was accepted. -/
theorem mergeChunks_yields {contents : Nat → Bytes} (finalized : Finalized cipher s chunks accepted)
    (tells : ∀ (i : Nat) (chunk : List Bytes), chunks[i]? = some chunk →
      Tells (ChunkReader.next cipher s faults.read) chunk (readerOf contents s i)) :
    Yields (ascending accepted) (mergeChunks cipher faults contents s) := by
  rw [← ascending_eq_of_perm finalized.records]
  unfold mergeChunks
  split
  · rename_i noChunks
    rw [finalized.files, length_eq_zero_iff] at noChunks
    rw [noChunks]
    exact ⟨ nil_prefix, fun _ => rfl⟩
  split
  · exact yields_failed _
  · rename_i readers opened
    rw [openReaders_eq opened]
    have told : Forall₂ (Tells (ChunkReader.next cipher s faults.read)) chunks
        ((range s.chunks.length).map (readerOf contents s)) := by
      rw [forall₂_map_right_iff, finalized.files, forall₂_iff_get]
      refine ⟨by rw [length_range], fun i bound bound' => ?_⟩
      rw [get_eq_getElem, get_eq_getElem, getElem_range]
      exact tells i _ (getElem?_eq_getElem bound)
    have counted : ((range s.chunks.length).map (readerOf contents s)).map
        (·.expectedRecords) = chunks.map length := by
      refine ext_getElem (by simp [finalized.files]) fun i bound bound' => ?_
      simp only [getElem_map, getElem_range]
      rw [length_map] at bound'
      exact finalized.expected i _ (getElem?_eq_getElem bound')
    obtain ⟨front, whole⟩ := merge_yields faults told finalized.sorted
      (by rw [counted, length_flatten])
    refine ⟨front, fun done => whole ?_⟩
    simp only at done
    split at done
    · cases done
    · exact done

end Merge

/-- An authenticated cipher opens what it sealed. -/
structure Cipher.Correct (cipher : Cipher) : Prop where
  opens : ∀ nonce plaintext aad,
    cipher.open nonce (cipher.seal nonce plaintext aad) aad = some plaintext
  length : ∀ nonce plaintext aad,
    (cipher.seal nonce plaintext aad).length = plaintext.length + overhead

/-- It opens nothing but what was sealed. -/
def Cipher.Ideal (cipher : Cipher) (sealings : List Sealing) : Prop :=
  ∀ nonce ciphertext aad plaintext, cipher.open nonce ciphertext aad = some plaintext ↔
    ⟨nonce, ciphertext, aad, plaintext⟩ ∈ sealings

section Readers

variable {cipher : Cipher} {s : Store} {chunkIndex recordIndex : Nat} {fails : Nat → Nat → Bool}
  {records : List Bytes} {file : Bytes}

theorem tells_nil (file : Bytes) (recordIndex : Nat) :
    Tells (ChunkReader.next cipher s fails) [] ⟨file, chunkIndex, recordIndex, recordIndex⟩ := by
  intro plaintext reader'
  rw [ChunkReader.next, if_pos rfl]
  split
  · nofun
  split <;> nofun

theorem next_record {plaintext : Bytes} {reader' : ChunkReader} {reader : ChunkReader}
    (read : reader.next cipher s fails = .record plaintext reader') :
    cipher.open (reader.file.take nonceSize)
        ((reader.file.drop nonceSize).take (s.config.recordBytes + overhead))
        (s.aad reader.chunkIndex reader.recordIndex) = some plaintext ∧
      reader' = { reader with
        file := reader.file.drop (nonceSize + s.config.recordBytes + overhead)
        recordIndex := reader.recordIndex + 1 } := by
  unfold ChunkReader.next at read
  split at read
  · split at read
    · cases read
    split at read <;> cases read
  split at read
  · cases read
  split at read
  · cases read
  simp only at read
  split at read
  · cases read
  rename_i opened
  split at read
  · cases read
  injection read with eq after
  refine ⟨?_, after.symm⟩
  rw [← eq, ← opened, take_take, drop_take]
  congr 2
  omega

theorem next_ne_eof {reader : ChunkReader} (before : reader.recordIndex ≠ reader.expectedRecords) :
    reader.next cipher s fails ≠ .eof := by
  unfold ChunkReader.next
  rw [if_neg before]
  split
  · nofun
  split
  · nofun
  simp only
  split
  · nofun
  split <;> nofun

theorem tells_cons {r : Bytes} (opens : ∀ plaintext, cipher.open (file.take nonceSize)
        ((file.drop nonceSize).take (s.config.recordBytes + overhead))
        (s.aad chunkIndex recordIndex) = some plaintext → plaintext = r)
    (rest : Tells (ChunkReader.next cipher s fails) records
      ⟨file.drop (nonceSize + s.config.recordBytes + overhead), chunkIndex, recordIndex + 1,
        recordIndex + 1 + records.length⟩) :
    Tells (ChunkReader.next cipher s fails) (r :: records)
      ⟨file, chunkIndex, recordIndex, recordIndex + (r :: records).length⟩ := by
  refine ⟨next_ne_eof ?_, fun plaintext reader' read => ?_⟩
  · change recordIndex ≠ recordIndex + (records.length + 1)
    omega
  · obtain ⟨opened, rfl⟩ := next_record read
    refine ⟨opens plaintext opened, ?_⟩
    rw [length_cons, add_comm records.length, ← add_assoc]
    exact rest

theorem tells_of_frames (correct : cipher.Correct)
    (framed : Frames cipher (s.aad chunkIndex) recordIndex records file)
    (sizes : ∀ r ∈ records, r.length = s.config.recordBytes) :
    Tells (ChunkReader.next cipher s fails) records
      ⟨file, chunkIndex, recordIndex, recordIndex + records.length⟩ := by
  induction records generalizing recordIndex file with
  | nil => exact tells_nil file recordIndex
  | cons r records ih =>
    obtain ⟨nonce, rest, length, rfl, framed'⟩ := framed
    obtain ⟨size, sizes'⟩ := forall_mem_cons.mp sizes
    have width := correct.length nonce r (s.aad chunkIndex recordIndex)
    rw [size] at width
    have whole : (nonce ++ cipher.seal nonce r (s.aad chunkIndex recordIndex)).length =
        nonceSize + s.config.recordBytes + overhead := by
      rw [length_append, length, width, add_assoc]
    refine tells_cons (fun plaintext opened => ?_) ?_
    · rw [append_assoc, take_left' length, drop_left' length,
        take_left' width, correct.opens, some.injEq] at opened
      exact opened.symm
    · rw [drop_left' whole]
      exact ih framed' sizes'

theorem aad_injective {index' place place' : Nat} (indexBound : i < 2 ^ 64)
    (indexBound' : index' < 2 ^ 64) (placeBound : place < 2 ^ 64) (placeBound' : place' < 2 ^ 64)
    (eq : s.aad i place = s.aad index' place') : i = index' ∧ place = place' := by
  unfold Store.aad additionalData at eq
  have places := append_cancel_right eq
  obtain ⟨indices, last⟩ := append_inj' places (by simp)
  have first := append_cancel_left indices
  have back := congrArg bigEndian first
  have back' := congrArg bigEndian last
  rw [bigEndian_put 8 _ indexBound, bigEndian_put 8 _ indexBound'] at back
  rw [bigEndian_put 8 _ placeBound, bigEndian_put 8 _ placeBound'] at back'
  exact ⟨back, back'⟩

/-- Whatever the file holds, it tells no other records than those that were sealed for it. -/
theorem tells_of_onlySealed {chunks : List (List Bytes)} {chunk : List Bytes}
    (ideal : cipher.Ideal s.sealings) (sealed : OnlySealed s chunks)
    (few : chunks.length < 2 ^ 64) (short : ∀ chunk ∈ chunks, chunk.length < 2 ^ 64)
    (place : chunks[chunkIndex]? = some chunk) (file : Bytes)
    (rest : chunk.drop recordIndex = records) :
    Tells (ChunkReader.next cipher s fails) records
      ⟨file, chunkIndex, recordIndex, recordIndex + records.length⟩ := by
  induction records generalizing recordIndex file with
  | nil => exact tells_nil file recordIndex
  | cons r records ih =>
    have here : chunk[recordIndex]? = some r := by
      rw [← add_zero recordIndex, ← getElem?_drop, rest, getElem?_cons_zero]
    have bounded : ∀ {i place : Nat} {chunk : List Bytes} {r : Bytes},
        chunks[i]? = some chunk → chunk[place]? = some r → i < 2 ^ 64 ∧ place < 2 ^ 64 := by
      intro i place chunk r found sub
      exact ⟨(List.getElem?_eq_some_iff.mp found).1.trans few,
        (List.getElem?_eq_some_iff.mp sub).1.trans (short chunk (List.mem_of_getElem? found))⟩
    refine tells_cons (fun plaintext opened => ?_) (ih _ ?_)
    · obtain ⟨i, chunk', found, offset, sub, eq⟩ :=
        sealed.places _ ((ideal ..).mp opened)
      rw [zero_add] at eq
      obtain ⟨rfl, rfl⟩ := aad_injective (bounded place here).1 (bounded found sub).1
        (bounded place here).2 (bounded found sub).2 eq
      rw [place, some.injEq] at found
      rw [← found, here, some.injEq] at sub
      exact sub.symm
    · rw [← drop_drop, rest, drop_one, tail_cons]

end Readers

end Golib.ExternalSort
