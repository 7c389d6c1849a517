import Mathlib.Algebra.Ring.Int.Defs
import Mathlib.Data.List.Lex
import Golib.Lib.Bytes
import Golib.Lib.Merging

/-! The store of the external sort: records are collected in memory and spilled, sorted and sealed,
to files of their own.

One operation is active at a time. What may fail outside the store is chosen for every call. -/
namespace Golib.ExternalSort

open Golib.Merging

abbrev Bytes := List UInt8

scoped instance byteOrder : LinearOrder UInt8 where
  le_refl := UInt8.le_refl
  le_trans _ _ _ := UInt8.le_trans
  le_antisymm _ _ := UInt8.le_antisymm
  le_total := UInt8.le_total
  lt_iff_le_not_ge a b := by
    rw [UInt8.not_le]
    exact ⟨fun less => ⟨UInt8.le_of_lt less, less⟩, And.right⟩
  toDecidableLE := inferInstance
  toDecidableLT := inferInstance
  toDecidableEq := inferInstance

inductive Error where
  | invalidRecord
  | recordLimit
  | closed
  | finalized
  | entropy
  | storage
  | corrupt
  | context
  | yield
  deriving DecidableEq

def maximumMergeFiles : Nat := 64
def maximumRecordBytes : Nat := 2 ^ 20
def maximumChunkRecords : Nat := 1000000
def maximumChunkBytes : Nat := 256 * 2 ^ 20

structure Config where
  recordBytes : Nat
  chunkRecords : Nat
  maximumRecords : Nat

/-- The bounds that are checked before a store is opened. -/
def validConfig (config : Config) : Bool :=
  if config.recordBytes = 0 ∨ config.recordBytes > maximumRecordBytes ∨
      config.chunkRecords = 0 ∨ config.chunkRecords > maximumChunkRecords ∨
      config.maximumRecords < config.chunkRecords ∨
      config.recordBytes > maximumChunkBytes / config.chunkRecords then false
  else
    let chunks := config.maximumRecords / config.chunkRecords
    let chunks := if config.maximumRecords % config.chunkRecords ≠ 0 then chunks + 1 else chunks
    chunks ≤ maximumMergeFiles

structure Factory where
  config : Config
  valid : validConfig config = true

/-- An authenticated cipher under the key of the store, with the sizes that AES-GCM has. -/
structure Cipher where
  «seal» : (nonce plaintext additionalData : Bytes) → Bytes
  «open» : (nonce ciphertext additionalData : Bytes) → Option Bytes

def nonceSize : Nat := 12
def overhead : Nat := 16

/-- A use of the cipher: no part of the store, but a record of what it has ever sealed. -/
structure Sealing where
  nonce : Bytes
  ciphertext : Bytes
  additionalData : Bytes
  plaintext : Bytes
  deriving DecidableEq

structure Store where
  config : Config
  identity : Bytes
  nonceDomain : UInt64
  nonceCount : Nat
  buffer : List Bytes
  /-- The files of the chunks, as they were written. -/
  chunks : List Bytes
  total : Nat
  finalized : Bool
  closing : Bool
  sealings : List Sealing

def Factory.openStore (factory : Factory) (identity : Bytes) (nonceDomain : UInt64) : Store :=
  { config := factory.config, identity, nonceDomain, nonceCount := 0, buffer := [], chunks := [],
    total := 0, finalized := false, closing := false, sealings := [] }

def aadVersion : Bytes := "extsort1".toUTF8.data.toList

def additionalData (identity : Bytes) (nonceDomain : UInt64)
    (chunkIndex recordIndex recordBytes : Nat) : Bytes :=
  aadVersion ++ identity ++ putBigEndian 8 nonceDomain.toNat ++ putBigEndian 8 chunkIndex ++
    putBigEndian 8 recordIndex ++ putBigEndian 8 recordBytes

def Store.aad (store : Store) (chunkIndex recordIndex : Nat) : Bytes :=
  additionalData store.identity store.nonceDomain chunkIndex recordIndex store.config.recordBytes

def sealRecord (cipher : Cipher) (store : Store) (chunkIndex recordIndex : Nat)
    (plaintext : Bytes) : Sealing :=
  let nonce := putBigEndian 8 store.nonceDomain.toNat ++ putBigEndian 4 store.nonceCount
  let aad := store.aad chunkIndex recordIndex
  ⟨nonce, cipher.seal nonce plaintext aad, aad, plaintext⟩

structure SpillFaults where
  cancelledAtStart : Bool
  createTemp : Option Error
  chmod : Bool
  /-- The context is cancelled when the record is reached. -/
  cancelled : Nat → Bool
  write : Nat → Bool
  sync : Bool
  close : Bool
  /-- The file of a failed spill cannot be closed or removed. -/
  cleanup : Bool

/-- The loop over the sorted records of the buffer, which gives what the file then holds. -/
def writeRecords (cipher : Cipher) (faults : SpillFaults) (chunkIndex : Nat) :
    List Bytes → Nat → Store → Bytes → Store × Except Error Bytes
  | [], _, store, file => (store, .ok file)
  | plaintext :: records, recordIndex, store, file =>
    if faults.cancelled recordIndex then (store, .error .context)
    else if store.nonceCount > 2 ^ 32 - 1 then (store, .error .entropy)
    else
      let sealing := sealRecord cipher store chunkIndex recordIndex plaintext
      let store := { store with
        nonceCount := store.nonceCount + 1
        sealings := sealing :: store.sealings }
      if faults.write recordIndex then (store, .error .storage)
      else writeRecords cipher faults chunkIndex records (recordIndex + 1) store
        (file ++ (sealing.nonce ++ sealing.ciphertext))

/-- The deferred cleanup of a spill that is not complete. -/
def abandon (faults : SpillFaults) (store : Store) (error : Error) : Store × Option Error :=
  if faults.cleanup then ({ store with closing := true }, some .storage) else (store, some error)

def complete (faults : SpillFaults) (store : Store) (file : Bytes) : Store × Option Error :=
  if faults.sync then abandon faults store .storage
  else if faults.close then abandon faults store .storage
  else ({ store with chunks := store.chunks ++ [file], buffer := [] }, none)

def spill (cipher : Cipher) (faults : SpillFaults) (store : Store) : Store × Option Error :=
  if faults.cancelledAtStart then (store, some .context)
  else
    let store := { store with buffer := ascending store.buffer }
    match faults.createTemp with
    | some error => (store, some (if error = .entropy then .entropy else .storage))
    | none =>
      if faults.chmod then abandon faults store .storage
      else
        match writeRecords cipher faults store.chunks.length store.buffer 0 store [] with
        | (store, .error error) => abandon faults store error
        | (store, .ok file) => complete faults store file

structure AddFaults where
  cancelled : Bool
  spill : SpillFaults

def add (cipher : Cipher) (faults : AddFaults) (record : Bytes) (store : Store) :
    Store × Option Error :=
  if store.closing then (store, some .closed)
  else if store.finalized then (store, some .finalized)
  else if record.length ≠ store.config.recordBytes then (store, some .invalidRecord)
  else if faults.cancelled then (store, some .context)
  else if store.total ≥ store.config.maximumRecords then (store, some .recordLimit)
  else
    let store := { store with buffer := store.buffer ++ [record], total := store.total + 1 }
    if store.buffer.length < store.config.chunkRecords then (store, none)
    else
      match spill cipher faults.spill store with
      | (store, some error) =>
        ({ store with buffer := store.buffer.erase record, total := store.total - 1 }, some error)
      | (store, none) => (store, none)

/-- Calls of `Add` one after the other, with the records of those that returned no error. -/
def addAll (cipher : Cipher) : List (Bytes × AddFaults) → Store → Store × List Bytes
  | [], store => (store, [])
  | (record, faults) :: calls, store =>
    let added := add cipher faults record store
    let rest := addAll cipher calls added.1
    (rest.1, if added.2 = none then record :: rest.2 else rest.2)

def Store.expectedChunkRecords (store : Store) (index : Nat) : Int :=
  min (store.config.chunkRecords : Int) (store.total - index * store.config.chunkRecords)

structure ChunkReader where
  file : Bytes
  chunkIndex : Nat
  recordIndex : Nat
  expectedRecords : Nat

inductive Read where
  | record (plaintext : Bytes) (reader : ChunkReader)
  | eof
  | failed (error : Error)

/-- `chunkReader.next`; `fails` says whether the file cannot be read at a record. -/
def ChunkReader.next (cipher : Cipher) (store : Store) (fails : Nat → Nat → Bool)
    (reader : ChunkReader) : Read :=
  if reader.recordIndex = reader.expectedRecords then
    if fails reader.chunkIndex reader.recordIndex then .failed .storage
    else if reader.file = [] then .eof
    else .failed .corrupt
  else if fails reader.chunkIndex reader.recordIndex then .failed .storage
  else if reader.file.length < nonceSize + store.config.recordBytes + overhead then
    .failed .corrupt
  else
    let record := reader.file.take (nonceSize + store.config.recordBytes + overhead)
    match cipher.open (record.take nonceSize) (record.drop nonceSize)
        (store.aad reader.chunkIndex reader.recordIndex) with
    | none => .failed .corrupt
    | some plaintext =>
      if plaintext.length ≠ store.config.recordBytes then .failed .corrupt
      else .record plaintext
        { reader with
          file := reader.file.drop (nonceSize + store.config.recordBytes + overhead)
          recordIndex := reader.recordIndex + 1 }

/-- What fails in a merge and around it, and what its callback returns. -/
structure MergeFaults where
  cancelledAtStart : Bool
  spill : SpillFaults
  openFile : Nat → Bool
  read : Nat → Nat → Bool
  /-- The context is cancelled after so many records. -/
  cancelled : Nat → Bool
  yield : Nat → Bool
  close : Bool

/-- The first record of every chunk enters the queue. A heap gives out its least entry, as the
ascending list of its entries does. -/
def fillQueue (next : ChunkReader → Read) :
    Nat → List ChunkReader → Queue Bytes → Except Error (Queue Bytes × List ChunkReader)
  | _, [], queue => .ok (queue, [])
  | index, reader :: readers, queue =>
    match next reader with
    | .failed error => .error error
    | .eof =>
      (fillQueue next (index + 1) readers queue).map fun filled => (filled.1, reader :: filled.2)
    | .record plaintext reader' =>
      (fillQueue next (index + 1) readers (push plaintext index queue)).map fun filled =>
        (filled.1, reader' :: filled.2)

/-- The loop of the merge, with the records that were yielded. There are as many `rounds` as
records. -/
def drain (faults : MergeFaults) (next : ChunkReader → Read) :
    (rounds yielded : Nat) → Queue Bytes → List ChunkReader → List Bytes × Option Error
  | 0, _, _, _ => ([], none)
  | _ + 1, _, [], _ => ([], none)
  | rounds + 1, yielded, current :: queue, readers =>
    let record := (ofLex current).1
    let index := (ofLex current).2
    if faults.cancelled yielded then ([], some .context)
    else if faults.yield yielded then ([record], some .yield)
    else
      match (readers[index]?).map next with
      | some (.record plaintext reader) =>
        let rest := drain faults next rounds (yielded + 1) (push plaintext index queue)
          (readers.set index reader)
        (record :: rest.1, rest.2)
      | some (.failed error) => ([record], some error)
      | _ =>
        let rest := drain faults next rounds (yielded + 1) queue readers
        (record :: rest.1, rest.2)

def merge (faults : MergeFaults) (next : ChunkReader → Read) (readers : List ChunkReader) :
    List Bytes × Option Error :=
  match fillQueue next 0 readers [] with
  | .error error => ([], some error)
  | .ok (queue, started) =>
    drain faults next (readers.map (·.expectedRecords)).sum 0 queue started

/-- The readers of the chunks, whose files read as `contents`. -/
def openReaders (faults : MergeFaults) (store : Store) (contents : Nat → Bytes) :
    Option (List ChunkReader) :=
  (List.range store.chunks.length).mapM fun index =>
    if faults.openFile index then none
    else some
      { file := contents index
        chunkIndex := index
        recordIndex := 0
        expectedRecords := (store.expectedChunkRecords index % 2 ^ 64).toNat }

def finalize (cipher : Cipher) (faults : MergeFaults) (store : Store) : Store × Option Error :=
  match if store.buffer.length > 0 then spill cipher faults.spill store else (store, none) with
  | (store, some error) => (store, some error)
  | (store, none) => ({ store with finalized := true }, none)

def mergeChunks (cipher : Cipher) (faults : MergeFaults) (contents : Nat → Bytes)
    (store : Store) : List Bytes × Option Error :=
  if store.chunks.length = 0 then ([], none)
  else
    match openReaders faults store contents with
    | none => ([], some .storage)
    | some readers =>
      let merged := merge faults (ChunkReader.next cipher store faults.read) readers
      (merged.1, if merged.2 = none ∧ faults.close then some .storage else merged.2)

/-- `ForEachSorted`, where `contents` gives the files of the chunks as they are found then. -/
def forEachSorted (cipher : Cipher) (faults : MergeFaults) (contents : Store → Nat → Bytes)
    (store : Store) : Store × List Bytes × Option Error :=
  if store.closing then (store, [], some .closed)
  else if store.finalized then (store, [], some .finalized)
  else if faults.cancelledAtStart then (store, [], some .context)
  else
    match finalize cipher faults store with
    | (store, some error) => (store, [], some error)
    | (store, none) => (store, mergeChunks cipher faults (contents store) store)

end Golib.ExternalSort
