import Golib.ExternalSort.Merge

/-! What a spill and an `Add` do to the store: every record whose `Add` succeeded is in the buffer
or in a chunk, and a failed one leaves no trace but in what was sealed. -/
namespace Golib.ExternalSort

open Golib.Merging List Nat

variable {recordIndex : Nat}

/-- A file holds these records, from a place in its chunk on. -/
def Frames (cipher : Cipher) (aad : Nat → Bytes) : Nat → List Bytes → Bytes → Prop
  | _, [], file => file = []
  | recordIndex, record :: records, file => ∃ nonce rest, nonce.length = nonceSize ∧
      file = nonce ++ cipher.seal nonce record (aad recordIndex) ++ rest ∧
      Frames cipher aad (recordIndex + 1) records rest

/-- A sealing of one of the records of a chunk, for its place there. -/
def SealedFrom (aad : Nat → Bytes) (recordIndex : Nat) (records : List Bytes)
    (sealing : Sealing) : Prop :=
  ∃ offset, records[offset]? = some sealing.plaintext ∧
    sealing.additionalData = aad (recordIndex + offset)

theorem SealedFrom.cons {records : List Bytes} {sealing : Sealing} {aad : Nat → Bytes} {r : Bytes}
    (sealed : SealedFrom aad (recordIndex + 1) records sealing) :
    SealedFrom aad recordIndex (r :: records) sealing := by
  obtain ⟨offset, place, eq⟩ := sealed
  exact ⟨offset + 1, place, by rw [eq, add_assoc, add_comm 1]⟩

def Store.used (store : Store) (nonceCount : Nat) (sealings : List Sealing) : Store :=
  { store with nonceCount, sealings := sealings ++ store.sealings }

/-- What the loop over the records of a spill leaves: records were sealed for their places, and if
it came to its end the file holds all of them. -/
def Wrote (cipher : Cipher) (store : Store) (chunkIndex recordIndex : Nat) (records : List Bytes)
    (file : Bytes) (outcome : Store × Except Error Bytes) : Prop :=
  ∃ count sealings, outcome.1 = store.used count sealings ∧
    (∀ sealing ∈ sealings, SealedFrom (store.aad chunkIndex) recordIndex records sealing) ∧
    ∀ file', outcome.2 = .ok file' → count = store.nonceCount + records.length ∧
      ∃ frames, file' = file ++ frames ∧
        Frames cipher (store.aad chunkIndex) recordIndex records frames

variable {record : Bytes} {count : Nat} {sealings : List Sealing}

section Spill

variable {cipher : Cipher} {faults : SpillFaults} {records : List Bytes} {file : Bytes}
  {store : Store} {chunkIndex : Nat}

theorem wrote_nothing (error : Error) :
    Wrote cipher store chunkIndex recordIndex records file (store, .error error) :=
  ⟨store.nonceCount, [], rfl, nofun, nofun⟩

theorem sealedFrom_sealRecord (store : Store) (recordIndex : Nat) (r : Bytes)
    (records : List Bytes) : SealedFrom (store.aad chunkIndex) recordIndex (r :: records)
      (sealRecord cipher store chunkIndex recordIndex r) :=
  ⟨0, rfl, rfl⟩

theorem wrote_cons {r : Bytes} {outcome : Store × Except Error Bytes}
    (rest : Wrote cipher
      (store.used (store.nonceCount + 1) [sealRecord cipher store chunkIndex recordIndex r])
      chunkIndex (recordIndex + 1) records
      (file ++ ((sealRecord cipher store chunkIndex recordIndex r).nonce ++
        (sealRecord cipher store chunkIndex recordIndex r).ciphertext)) outcome) :
    Wrote cipher store chunkIndex recordIndex (r :: records) file outcome := by
  obtain ⟨count, sealings, used, sealed, whole⟩ := rest
  refine ⟨count, sealings ++ [sealRecord cipher store chunkIndex recordIndex r],
    used.trans ?_, ?_, fun file' ok => ?_⟩
  · rw [Store.used, Store.used, Store.used, append_assoc]
  · intro sealing mem
    obtain later | rfl := mem_append.mp mem |>.imp_right mem_singleton.mp
    · exact (sealed sealing later).cons
    · exact sealedFrom_sealRecord ..
  · obtain ⟨counted, frames, rfl, framed⟩ := whole file' ok
    refine ⟨?_, _, append_assoc .., _, frames, ?_, rfl, framed⟩
    · rw [counted, length_cons]
      change store.nonceCount + 1 + _ = _
      omega
    · rfl

theorem writeRecords_wrote (cipher : Cipher) (faults : SpillFaults) (chunkIndex : Nat)
    (records : List Bytes) (recordIndex : Nat) (store : Store) (file : Bytes) :
    Wrote cipher store chunkIndex recordIndex records file
      (writeRecords cipher faults chunkIndex records recordIndex store file) := by
  induction records generalizing recordIndex store file with
  | nil =>
    refine ⟨store.nonceCount, [], rfl, by simp, fun file' ok => ⟨rfl, [], ?_, rfl⟩⟩
    rw [writeRecords, Except.ok.injEq] at ok
    rw [append_nil, ok]
  | cons r records ih =>
    rw [writeRecords]
    split
    · exact wrote_nothing _
    split
    · exact wrote_nothing _
    split
    · refine ⟨_, [sealRecord cipher store chunkIndex recordIndex r], rfl, ?_, nofun⟩
      intro sealing mem
      rw [mem_singleton.mp mem]
      exact sealedFrom_sealRecord ..
    · exact wrote_cons (ih (recordIndex + 1) _ _)

theorem writeRecords_ok (uncancelled : ∀ i, recordIndex ≤ i → faults.cancelled i = false)
    (written : ∀ i, faults.write i = false) (room : store.nonceCount + records.length ≤ 2 ^ 32) :
    ∃ file', (writeRecords cipher faults chunkIndex records recordIndex store file).2 =
      .ok file' := by
  induction records generalizing recordIndex store file with
  | nil => exact ⟨file, rfl⟩
  | cons r records ih =>
    rw [length_cons] at room
    have fresh : ¬ store.nonceCount > 2 ^ 32 - 1 := by omega
    rw [writeRecords, uncancelled recordIndex le_rfl, written recordIndex]
    simp only [Bool.false_eq_true, if_false, if_neg fresh]
    refine ih (fun i later => uncancelled i (by omega)) ?_
    change store.nonceCount + 1 + _ ≤ _
    omega

/-- A spill that fails does so before its first record is sealed. -/
structure SpillFaults.Early (faults : SpillFaults) : Prop where
  cancelled : ∀ index, 0 < index → faults.cancelled index = false
  write : ∀ index, faults.write index = false
  sync : faults.sync = false
  close : faults.close = false

theorem writeRecords_early {error : Error} (early : faults.Early)
    (room : store.nonceCount + records.length ≤ 2 ^ 32)
    (failed : (writeRecords cipher faults chunkIndex records 0 store file).2 = .error error) :
    (writeRecords cipher faults chunkIndex records 0 store file).1 = store := by
  by_cases cancelled : faults.cancelled 0 = true
  · cases records with
    | nil => rfl
    | cons r records => rw [writeRecords, if_pos cancelled]
  · have uncancelled : ∀ i, 0 ≤ i → faults.cancelled i = false := by
      intro i _
      cases i with
      | zero => exact Bool.eq_false_iff.mpr cancelled
      | succ i => exact early.cancelled _ (succ_pos _)
    obtain ⟨file', ok⟩ : ∃ file', (writeRecords cipher faults chunkIndex records 0 store file).2 =
      .ok file' := writeRecords_ok uncancelled early.write room
    rw [ok] at failed
    cases failed

/-- What a spill can do: it fails and keeps the buffer, if in another order, or it adds a chunk of
all the records of the buffer. -/
inductive Spilled (cipher : Cipher) (faults : SpillFaults) (store : Store) :
    Store × Option Error → Prop where
  | failed (count : Nat) (sealings : List Sealing) (buffer : List Bytes) (closing : Bool)
      (error : Error)
      (sealed : ∀ sealing ∈ sealings, SealedFrom (store.aad store.chunks.length) 0
        (ascending store.buffer) sealing)
      (early : faults.Early → store.nonceCount + store.buffer.length ≤ 2 ^ 32 →
        count = store.nonceCount ∧ sealings = [])
      (perm : buffer.Perm store.buffer) :
      Spilled cipher faults store ({ store.used count sealings with buffer, closing }, some error)
  | complete (sealings : List Sealing) (file : Bytes)
      (sealed : ∀ sealing ∈ sealings, SealedFrom (store.aad store.chunks.length) 0
        (ascending store.buffer) sealing)
      (framed : Frames cipher (store.aad store.chunks.length) 0 (ascending store.buffer) file) :
      Spilled cipher faults store
        ({ store.used (store.nonceCount + store.buffer.length) sealings with
            buffer := [], chunks := store.chunks ++ [file] }, none)

theorem spilled_abandon (error : Error)
    (sealed : ∀ sealing ∈ sealings, SealedFrom (store.aad store.chunks.length) 0
      (ascending store.buffer) sealing)
    (early : faults.Early → store.nonceCount + store.buffer.length ≤ 2 ^ 32 →
      count = store.nonceCount ∧ sealings = []) :
    Spilled cipher faults store (abandon faults
      { store.used count sealings with buffer := ascending store.buffer } error) := by
  unfold abandon
  split
  · exact .failed count sealings _ true _ sealed early (ascending_perm _)
  · exact .failed count sealings _ store.closing _ sealed early (ascending_perm _)

theorem spill_spilled (cipher : Cipher) (faults : SpillFaults) (store : Store) :
    Spilled cipher faults store (spill cipher faults store) := by
  have unsealed : ∀ sealing ∈ ([] : List Sealing), SealedFrom (store.aad store.chunks.length) 0
      (ascending store.buffer) sealing := nofun
  unfold spill
  split
  · exact .failed store.nonceCount [] _ _ _ unsealed (fun _ _ => ⟨rfl, rfl⟩) (.refl _)
  simp only
  split
  · exact .failed store.nonceCount [] _ _ _ unsealed (fun _ _ => ⟨rfl, rfl⟩) (ascending_perm _)
  split
  · exact spilled_abandon .storage unsealed fun _ _ => ⟨rfl, rfl⟩
  have length := (ascending_perm store.buffer).length_eq
  obtain ⟨count, sealings, used, sealed, whole⟩ := writeRecords_wrote cipher faults
    store.chunks.length (ascending store.buffer) 0
    { store with buffer := ascending store.buffer } []
  have unchanged : ∀ {error : Error}, (writeRecords cipher faults store.chunks.length
      (ascending store.buffer) 0 { store with buffer := ascending store.buffer } []).2 =
        .error error → faults.Early → store.nonceCount + store.buffer.length ≤ 2 ^ 32 →
      count = store.nonceCount ∧ sealings = [] := by
    intro error failed early room
    have eq := used.symm.trans (writeRecords_early early (by rwa [length]) failed)
    have nonces := congrArg Store.nonceCount eq
    have log := congrArg Store.sealings eq
    exact ⟨nonces, append_left_eq_self.mp log⟩
  cases written : writeRecords cipher faults store.chunks.length (ascending store.buffer) 0
      { store with buffer := ascending store.buffer } [] with
  | mk after result =>
    rw [written] at used whole unchanged
    subst used
    cases result with
    | error error => exact spilled_abandon error sealed (unchanged rfl)
    | ok file =>
      obtain ⟨counted, frames, rfl, framed⟩ := whole file rfl
      simp only [complete]
      split
      · rename_i failed
        refine spilled_abandon .storage sealed fun early => ?_
        rw [early.sync] at failed
        cases failed
      split
      · rename_i failed
        refine spilled_abandon .storage sealed fun early => ?_
        rw [early.close] at failed
        cases failed
      · rw [length] at counted
        subst counted
        exact .complete sealings _ sealed framed

end Spill

/-- The chunks of a store hold these records, each in its file. -/
structure Stored (cipher : Cipher) (store : Store) (chunks : List (List Bytes)) : Prop where
  files : store.chunks.length = chunks.length
  framed : ∀ (index : Nat) (chunk : List Bytes), chunks[index]? = some chunk →
    ∃ file, store.chunks[index]? = some file ∧ Frames cipher (store.aad index) 0 chunk file
  sorted : ∀ chunk ∈ chunks, chunk.Pairwise (· ≤ ·)

/-- Between two calls the chunks are full, the buffer is not, and together they hold the records
that were accepted. -/
structure Holds (cipher : Cipher) (store : Store) (chunks : List (List Bytes))
    (accepted : List Bytes) : Prop extends Stored cipher store chunks where
  full : ∀ chunk ∈ chunks, chunk.length = store.config.chunkRecords
  room : store.buffer.length < store.config.chunkRecords
  records : (chunks.flatten ++ store.buffer).Perm accepted
  total : store.total = accepted.length
  sizes : ∀ record ∈ accepted, record.length = store.config.recordBytes

/-- Nothing was sealed but the records of the chunks, for their places. -/
structure OnlySealed (store : Store) (chunks : List (List Bytes)) : Prop where
  places : ∀ sealing ∈ store.sealings, ∃ (index : Nat) (chunk : List Bytes),
    chunks[index]? = some chunk ∧ SealedFrom (store.aad index) 0 chunk sealing
  count : store.nonceCount = chunks.flatten.length
  limit : store.total ≤ store.config.maximumRecords

variable {buffer : List Bytes}

section Keeping

variable {cipher : Cipher} {store : Store} {chunks : List (List Bytes)}
  {accepted chunk : List Bytes} {early : Prop} {r file : Bytes} {config : Config}

theorem Stored.snoc (stored : Stored cipher store chunks)
    (framed : Frames cipher (store.aad store.chunks.length) 0 chunk file)
    (sorted : chunk.Pairwise (· ≤ ·)) (store' : Store) (aad : store'.aad = store.aad)
    (files : store'.chunks = store.chunks ++ [file]) :
    Stored cipher store' (chunks ++ [chunk]) := by
  refine ⟨?_, ?_, ?_⟩
  · rw [files, length_append, length_append, stored.files]
    rfl
  · intro i found place
    rw [aad, files]
    obtain ⟨bound, -⟩ := List.getElem?_eq_some_iff.mp place
    rw [List.length_append, List.length_singleton] at bound
    by_cases old : i < chunks.length
    · rw [getElem?_append_left old] at place
      obtain ⟨file', kept, framed'⟩ := stored.framed i found place
      rw [getElem?_append_left (stored.files ▸ old)]
      exact ⟨file', kept, framed'⟩
    · have last : i = chunks.length := by omega
      rw [last, getElem?_concat_length, Option.some.injEq] at place
      rw [last, ← stored.files, getElem?_concat_length, ← place]
      exact ⟨file, rfl, framed⟩
  · intro found mem
    obtain old | rfl := mem_append.mp mem |>.imp_right mem_singleton.mp
    · exact stored.sorted found old
    · exact sorted

theorem OnlySealed.snoc (sealed : OnlySealed store chunks)
    (files : store.chunks.length = chunks.length)
    (new : ∀ sealing ∈ sealings, SealedFrom (store.aad store.chunks.length) 0 chunk sealing)
    (store' : Store) (aad : store'.aad = store.aad)
    (log : store'.sealings = sealings ++ store.sealings)
    (count : store'.nonceCount = store.nonceCount + chunk.length)
    (limit : store'.total ≤ store'.config.maximumRecords) :
    OnlySealed store' (chunks ++ [chunk]) := by
  refine ⟨?_, ?_, limit⟩
  · intro sealing mem
    rw [aad]
    rw [log, mem_append] at mem
    obtain recent | old := mem
    · refine ⟨chunks.length, chunk, getElem?_concat_length, ?_⟩
      rw [← files]
      exact new sealing recent
    · obtain ⟨i, found, place, from'⟩ := sealed.places sealing old
      refine ⟨i, found, ?_, from'⟩
      rw [List.getElem?_append_left (List.getElem?_eq_some_iff.mp place).1, place]
  · rw [count, sealed.count, flatten_append, length_append, flatten_singleton]

theorem erase_perm_of_snoc {buffer' : List Bytes} (perm : buffer'.Perm (buffer ++ [r])) :
    (buffer'.erase r).Perm buffer := by
  have moved := (perm.trans perm_append_comm).erase r
  rwa [singleton_append, erase_cons_head] at moved

theorem validConfig_bounds (valid : validConfig config = true) :
    0 < config.chunkRecords ∧ config.chunkRecords ≤ maximumChunkRecords ∧
      config.maximumRecords ≤ maximumMergeFiles * config.chunkRecords := by
  unfold validConfig at valid
  split at valid
  · cases valid
  · rename_i bd
    simp only [decide_eq_true_eq] at valid
    have pos : 0 < config.chunkRecords := by omega
    have parts := div_add_mod config.maximumRecords config.chunkRecords
    have last := mod_lt config.maximumRecords pos
    generalize config.maximumRecords / config.chunkRecords = chunks at parts valid
    split at valid
    · have wide := mul_le_mul_right config.chunkRecords valid
      rw [add_mul, one_mul, mul_comm chunks] at wide
      omega
    · have wide := mul_le_mul_right config.chunkRecords valid
      rw [mul_comm chunks] at wide
      omega

theorem nonces_suffice (valid : validConfig config = true) : config.maximumRecords ≤ 2 ^ 32 := by
  obtain ⟨-, few, bound⟩ := validConfig_bounds valid
  unfold maximumMergeFiles maximumChunkRecords at *
  omega

/-- What a call keeps: the store holds the records accepted so far, and if no spill fails late it
has sealed nothing else. -/
def Keeps (cipher : Cipher) (early : Prop) (store : Store) (chunks : List (List Bytes))
    (store' : Store) (accepted : List Bytes) : Prop :=
  store'.config = store.config ∧ ∃ chunks', Holds cipher store' chunks' accepted ∧
    (early → OnlySealed store chunks → OnlySealed store' chunks')

theorem keeps_refl (holds : Holds cipher store chunks accepted) :
    Keeps cipher early store chunks store accepted :=
  ⟨rfl, chunks, holds, fun _ sealed => sealed⟩

theorem sizes_snoc {size : Nat} (sizes : ∀ r ∈ accepted, r.length = size)
    (new : record.length = size) : ∀ r ∈ accepted ++ [record], r.length = size := by
  intro r mem
  obtain old | rfl := mem_append.mp mem |>.imp_right mem_singleton.mp
  · exact sizes r old
  · exact new

section

variable (holds : Holds cipher store chunks accepted)

include holds

theorem keeps_buffered (size : r.length = store.config.recordBytes)
    (below : store.total < store.config.maximumRecords)
    (space : (store.buffer ++ [r]).length < store.config.chunkRecords) :
    Keeps cipher early store chunks
      { store with buffer := store.buffer ++ [r], total := store.total + 1 }
      (accepted ++ [r]) := by
  refine ⟨rfl, chunks, ⟨⟨holds.files, holds.framed, holds.sorted⟩, holds.full, space, ?_, ?_, ?_⟩,
    fun _ sealed => ⟨sealed.places, sealed.count, below⟩⟩
  · rw [← append_assoc]
    exact holds.records.append_right _
  · rw [length_append, length_singleton, holds.total]
  · exact sizes_snoc holds.sizes size

theorem keeps_failed {closing : Bool} (perm : buffer.Perm (store.buffer ++ [r]))
    (unsealed : early → OnlySealed store chunks → count = store.nonceCount ∧ sealings = []) :
    Keeps cipher early store chunks
      { store.used count sealings with buffer := buffer.erase r, closing } accepted := by
  have back := erase_perm_of_snoc perm
  refine ⟨rfl, chunks, ⟨⟨holds.files, holds.framed, holds.sorted⟩, holds.full,
    back.length_eq.trans_lt holds.room, (back.append_left _).trans holds.records, holds.total,
    holds.sizes⟩, fun isEarly sealed => ?_⟩
  obtain ⟨rfl, rfl⟩ := unsealed isEarly sealed
  exact ⟨sealed.places, sealed.count, sealed.limit⟩

theorem keeps_spilled (size : r.length = store.config.recordBytes)
    (below : store.total < store.config.maximumRecords)
    (filled : ¬ (store.buffer ++ [r]).length < store.config.chunkRecords)
    (new : ∀ sealing ∈ sealings, SealedFrom (store.aad store.chunks.length) 0
      (ascending (store.buffer ++ [r])) sealing)
    (framed : Frames cipher (store.aad store.chunks.length) 0
      (ascending (store.buffer ++ [r])) file) :
    Keeps cipher early store chunks
      { store.used (store.nonceCount + (store.buffer ++ [r]).length) sealings with
          buffer := [], chunks := store.chunks ++ [file], total := store.total + 1 }
      (accepted ++ [r]) := by
  have perm := ascending_perm (store.buffer ++ [r])
  have room := holds.room
  refine ⟨rfl, chunks ++ [ascending (store.buffer ++ [r])],
    ⟨holds.toStored.snoc framed (ascending_sorted _) _ rfl rfl, ?_, ?_, ?_, ?_, ?_⟩,
    fun _ sealed => sealed.snoc holds.files new _ rfl rfl ?_ below⟩
  · intro chunk mem
    obtain old | rfl := mem_append.mp mem |>.imp_right mem_singleton.mp
    · exact holds.full chunk old
    · rw [perm.length_eq]
      rw [length_append, length_singleton] at filled ⊢
      change _ = store.config.chunkRecords
      omega
  · exact zero_lt_of_lt room
  · rw [flatten_append, flatten_singleton, append_nil]
    refine (perm.append_left _).trans ?_
    rw [← append_assoc]
    exact holds.records.append_right _
  · change store.total + 1 = _
    rw [length_append, length_singleton, holds.total]
  · exact sizes_snoc holds.sizes size
  · rw [perm.length_eq]
    rfl

end

theorem add_keeps (faults : AddFaults) (r : Bytes) (valid : validConfig store.config = true)
    (holds : Holds cipher store chunks accepted) :
    Keeps cipher faults.spill.Early store chunks (add cipher faults r store).1
      (if (add cipher faults r store).2 = none then accepted ++ [r] else accepted) := by
  have refused : ∀ error, Keeps cipher faults.spill.Early store chunks
      (store, some error).1 (if (store, some error).2 = (none : Option Error) then
        accepted ++ [r] else accepted) := fun _ => keeps_refl holds
  unfold add
  split
  · exact refused _
  split
  · exact refused _
  split
  · exact refused _
  rename_i size
  split
  · exact refused _
  split
  · exact refused _
  rename_i below
  rw [not_not] at size
  rw [ge_iff_le, not_le] at below
  simp only
  split
  · rename_i space
    exact keeps_buffered holds size below space
  rename_i filled
  have spilled := spill_spilled cipher faults.spill
    { store with buffer := store.buffer ++ [r], total := store.total + 1 }
  generalize spill cipher faults.spill _ = outcome at spilled
  cases spilled with
  | failed count sealings buffer closing error _ early perm =>
    have kept : Keeps cipher faults.spill.Early store chunks
        { store.used count sealings with buffer := buffer.erase r, closing } accepted := by
      refine keeps_failed holds perm fun isEarly sealed => early isEarly ?_
      have all := holds.records.length_eq
      have bound := nonces_suffice valid
      rw [length_append, ← sealed.count, ← holds.total] at all
      change store.nonceCount + (store.buffer ++ [r]).length ≤ 2 ^ 32
      rw [length_append, length_singleton]
      omega
    exact kept
  | complete sealings file new framed =>
    exact keeps_spilled holds size below filled new framed

theorem addAll_keeps (calls : List (Bytes × AddFaults)) (valid : validConfig store.config = true)
    (holds : Holds cipher store chunks accepted) :
    Keeps cipher (∀ call ∈ calls, call.2.spill.Early) store chunks
      (addAll cipher calls store).1 (accepted ++ (addAll cipher calls store).2) := by
  induction calls generalizing store chunks accepted with
  | nil =>
    rw [addAll, append_nil]
    exact keeps_refl holds
  | cons call calls ih =>
    obtain ⟨r, faults⟩ := call
    obtain ⟨config, chunks', holds', sealed⟩ := add_keeps faults r valid holds
    obtain ⟨config', chunks'', holds'', sealed'⟩ := ih (config ▸ valid) holds'
    refine ⟨config'.trans config, chunks'', ?_, fun early before => ?_⟩
    · rw [addAll]
      split at holds''
      · rename_i success
        rw [if_pos success]
        rwa [append_assoc] at holds''
      · rename_i failure
        rwa [if_neg failure]
    · rw [forall_mem_cons] at early
      exact sealed' early.2 (sealed early.1 before)

theorem openStore_holds (cipher : Cipher) (factory : Factory) (identity : Bytes)
    (nonceDomain : UInt64) : Holds cipher (factory.openStore identity nonceDomain) [] [] :=
  ⟨⟨rfl, nofun, nofun⟩, nofun, (validConfig_bounds factory.valid).1, .nil, rfl, nofun⟩

end Keeping

end Golib.ExternalSort
