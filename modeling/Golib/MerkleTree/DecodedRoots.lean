import Golib.MerkleTree.Consistency
import Golib.MerkleTree.Multi
import Golib.MerkleTree.Persistence

/-! The binary form of roots and the decoders of the three kinds of proofs. Every root that a
decoder lets out is one that the encoder of roots takes, but for the empty roots of a consistency
proof. -/
namespace Golib.MerkleTree

open Polled Except

structure EncodingLimits where
  maxBytes : UInt64
  deriving DecidableEq, Repr

def EncodingLimits.validate (limits : EncodingLimits) : Except Err Unit :=
  if limits.maxBytes = 0 then .error .invalidLimits else .ok ()

def encodingObjectRoot : UInt8 := 1
def encodingObjectInclusion : UInt8 := 2
def encodingObjectConsistency : UInt8 := 3
def encodingObjectMulti : UInt8 := 4
def encodedRootSize : Nat := encodingHeaderSize + 8 + 32
def encodedInclusionBase : Nat := encodingHeaderSize + 8 + 32 + 8 + 32 + 8
def encodedConsistencyBase : Nat := encodingHeaderSize + 8 + 32 + 8 + 32 + 8
def encodedMultiPrefix : Nat := encodingHeaderSize + 8 + 32 + 8
def encodedMultiSuffix : Nat := 8
def encodedMultiMinimum : Nat := 66

def profileForRootEncoding (H : Hasher Bytes32) (root : Root Bytes32) : Except Err Profile :=
  let profile : Profile := ⟨root.profileID, root.profileVersion, root.algorithm⟩
  if profile.validate.isOk = false ∨ root.digest.algorithm ≠ root.algorithm then
    .error .malformedEncoding
  else if root.treeSize = 0 ∧ root.digest.value ≠ H.empty then .error .malformedEncoding
  else .ok profile

def Root.marshalBinary (H : Hasher Bytes32) (root : Root Bytes32) : Except Err Bytes := do
  let profile ← profileForRootEncoding H root
  pure (encodingHeader encodingObjectRoot profile ++ putUint64 root.treeSize ++
    root.digest.value.bytes)

def parseRoot (H : Hasher Bytes32) (data : Bytes) (limits : EncodingLimits) :
    Except Err (Root Bytes32) := outcome do
  .lift limits.validate
  let dataSize := UInt64.ofNat data.length
  .failIf (dataSize > limits.maxBytes) (.resource .encodedBytes limits.maxBytes dataSize)
  .failIf (data.length ≠ encodedRootSize) .malformedEncoding
  let profile ← .lift (parseEncodingHeader data encodingObjectRoot)
  let treeSize ← readUint64 data 10
  let digest ← readDigest data 18
  .failIf (treeSize = 0 ∧ digest ≠ H.empty) .malformedEncoding
  pure (newRoot profile treeSize digest)

/-! ### Proofs -/

def validateProofDecodeInputs (data : Bytes) (encodingLimits : EncodingLimits)
    (proofLimitError : Except Err Unit) : Polled Err Unit := do
  .lift encodingLimits.validate
  .lift proofLimitError
  .poll
  let dataSize := UInt64.ofNat data.length
  .failIf (dataSize > encodingLimits.maxBytes)
    (.resource .encodedBytes encodingLimits.maxBytes dataSize)

def parseDigests (algorithm : UInt8) (data : Bytes) : Nat → Nat → Polled Err (List (Digest Bytes32))
  | 0, _ => pure []
  | count + 1, offset => do
    .poll
    let digest ← readDigest data offset
    let rest ← parseDigests algorithm data count (offset + 32)
    pure (newDigest algorithm digest :: rest)

/-- The fields of inclusion and of consistency proofs: two numbers, each with a digest, and the
digests of the path. -/
structure ProofFields where
  profile : Profile
  first : UInt64
  firstDigest : Bytes32
  second : UInt64
  secondDigest : Bytes32
  path : List (Digest Bytes32)

/-- `deep` picks the tree size of the two numbers. -/
def parseFields (object : UInt8) (base : Nat) (deep : UInt64 → UInt64 → UInt64) (data : Bytes)
    (maxElements maxTraversalDepth : UInt64) : Polled Err ProofFields := do
  .failIf (data.length < base) .malformedEncoding
  let profile ← .lift (parseEncodingHeader data object)
  let first ← readUint64 data 10
  let firstDigest ← readDigest data 18
  let second ← readUint64 data 50
  let secondDigest ← readDigest data 58
  let elementCount ← readUint64 data 90
  .failIf (elementCount > maxElements) (.resource .proofElements maxElements elementCount)
  let depth := UInt64.ofNat (len64 (deep first second))
  .failIf (depth > maxTraversalDepth) (.resource .traversalDepth maxTraversalDepth depth)
  let size ← .lift (encodedVectorSize base elementCount 32)
  .failIf (size ≠ data.length) .malformedEncoding
  let path ← parseDigests profile.algorithm data elementCount.toNat base
  pure ⟨profile, first, firstDigest, second, secondDigest, path⟩

def validateInclusionEncoding (proof : InclusionProof Bytes32) : Except Err Unit := do
  proof.validate
  if UInt64.ofNat proof.siblings.length ≠ auditPathLength proof.leafIndex proof.treeSize then
    .error .malformedProof

def parseInclusionProof (data : Bytes) (encodingLimits : EncodingLimits)
    (proofLimits : ProofLimits) :
    Polled Err (InclusionProof Bytes32) := do
  validateProofDecodeInputs data encodingLimits proofLimits.validate
  let fields ← parseFields encodingObjectInclusion encodedInclusionBase (fun treeSize _ => treeSize)
    data proofLimits.maxElements proofLimits.maxTraversalDepth
  let profile := fields.profile
  let proof : InclusionProof Bytes32 := ⟨profile.id, profile.version, profile.algorithm,
    newRoot profile fields.first fields.firstDigest, fields.first, fields.second,
    newDigest profile.algorithm fields.secondDigest, fields.path⟩
  .lift (validateInclusionEncoding proof)
  pure proof

def validateConsistencyEncoding (proof : ConsistencyProof Bytes32) : Except Err Unit := do
  proof.validate
  if UInt64.ofNat proof.nodes.length ≠
      consistencyPathLength proof.olderTreeSize proof.newerTreeSize then .error .malformedProof
  if proof.olderTreeSize = proof.newerTreeSize ∧
      proof.olderRoot.digest.value ≠ proof.newerRoot.digest.value then .error .verificationFailed

def parseConsistencyProof (data : Bytes) (encodingLimits : EncodingLimits)
    (proofLimits : ConsistencyProofLimits) : Polled Err (ConsistencyProof Bytes32) := do
  validateProofDecodeInputs data encodingLimits proofLimits.validate
  let fields ← parseFields encodingObjectConsistency encodedConsistencyBase
    (fun _ newerSize => newerSize)
    data proofLimits.maxElements proofLimits.maxTraversalDepth
  let profile := fields.profile
  let proof : ConsistencyProof Bytes32 := ⟨profile.id, profile.version, profile.algorithm,
    newRoot profile fields.first fields.firstDigest,
      newRoot profile fields.second fields.secondDigest,
    fields.first, fields.second, fields.path⟩
  .lift (validateConsistencyEncoding proof)
  pure proof

def encodedMultiSize (leafCount frontierCount : UInt64) : Except Err Nat := do
  let start ← encodedVectorSize encodedMultiPrefix leafCount (8 + 32)
  encodedVectorSize (start + encodedMultiSuffix) frontierCount 32

/-- The indexes and the digests of the selected leaves. -/
def parseSelection (algorithm : UInt8) (data : Bytes) :
    Nat → Nat → Polled Err (List (UInt64 × Digest Bytes32))
  | 0, _ => pure []
  | count + 1, offset => do
    .poll
    let leafIndex ← readUint64 data offset
    let digest ← readDigest data (offset + 8)
    let rest ← parseSelection algorithm data count (offset + 40)
    pure ((leafIndex, newDigest algorithm digest) :: rest)

def validateMultiEncoding (proof : MultiInclusionProof Bytes32) : Except Err Unit := do
  proof.validate
  if UInt64.ofNat proof.frontier.length ≠ multiFrontierCount 0 proof.treeSize proof.leafIndexes then
    .error .malformedProof

def parseMultiInclusionProof (data : Bytes) (encodingLimits : EncodingLimits)
    (proofLimits : MultiProofLimits) : Polled Err (MultiInclusionProof Bytes32) := do
  validateProofDecodeInputs data encodingLimits proofLimits.validate
  .failIf (data.length < encodedMultiMinimum) .malformedEncoding
  let profile ← .lift (parseEncodingHeader data encodingObjectMulti)
  let treeSize ← readUint64 data 10
  let rootDigest ← readDigest data 18
  let leafCount ← readUint64 data 50
  .failIf (leafCount > proofLimits.maxLeaves) (.resource .leaves proofLimits.maxLeaves leafCount)
  let depth := UInt64.ofNat (len64 treeSize)
  .failIf (depth > proofLimits.maxTraversalDepth)
    (.resource .traversalDepth proofLimits.maxTraversalDepth depth)
  let frontierOffset ← .lift (encodedVectorSize encodedMultiPrefix leafCount (8 + 32))
  .failIf (frontierOffset > data.length - encodedMultiSuffix) .malformedEncoding
  let frontierCount ← readUint64 data frontierOffset
  .failIf (frontierCount > proofLimits.maxElements)
    (.resource .proofElements proofLimits.maxElements frontierCount)
  let size ← .lift (encodedMultiSize leafCount frontierCount)
  .failIf (size ≠ data.length) .malformedEncoding
  let selection ← parseSelection profile.algorithm data leafCount.toNat encodedMultiPrefix
  let frontier ← parseDigests profile.algorithm data frontierCount.toNat
    (frontierOffset + encodedMultiSuffix)
  let proof : MultiInclusionProof Bytes32 := ⟨profile.id, profile.version, profile.algorithm,
    newRoot profile treeSize rootDigest, treeSize, selection.map Prod.fst, selection.map Prod.snd,
    frontier⟩
  .lift (validateMultiEncoding proof)
  pure proof

/-! ### Roots that were decoded -/

/-- The encoder takes the root, and the decoder gives it back. -/
def Root.Encodes (H : Hasher Bytes32) (root : Root Bytes32) : Prop :=
  ∃ data, root.marshalBinary H = .ok data ∧
    ∀ limits : EncodingLimits, encodedRootSize ≤ limits.maxBytes.toNat →
      parseRoot H data limits = .ok root

variable {H : Hasher Bytes32} {data : Bytes} {lim : EncodingLimits} {pr : Profile}
  {treeSize : UInt64} {d : Bytes32} {object : UInt8}

theorem parseEncodingHeader_known
    (parsed : parseEncodingHeader data object = .ok pr) : pr.validate = .ok () := by
  unfold parseEncodingHeader at parsed
  dsimp only at parsed
  split_ifs at parsed
  obtain ⟨_, known, eq⟩ := except_bind_ok.mp parsed
  cases ok.inj eq
  exact known

theorem encodes_newRoot (known : pr.validate = .ok ())
    (empty : treeSize = 0 → d = H.empty) : (newRoot pr treeSize d).Encodes H := by
  have honest : ¬ (treeSize = 0 ∧ d ≠ H.empty) := fun forged => forged.2 (empty forged.1)
  refine ⟨encodingHeader encodingObjectRoot pr ++ putUint64 treeSize ++ d.bytes, ?_, ?_⟩
  · simp [Root.marshalBinary, profileForRootEncoding, newRoot, known, honest, Except.isOk,
      Except.toBool]
  · intro lim room
    generalize whole : encodingHeader encodingObjectRoot pr ++ putUint64 treeSize ++ d.bytes = data
    have length : data.length = encodedRootSize := by
      simp [← whole, d.size, encodedRootSize, encodingHeaderSize]
    have fields : data.drop 0 = encodingHeader encodingObjectRoot pr ++ (putUint64 treeSize ++
        (d.bytes ++ [])) := by simp [← whole]
    rw [drop_eq_append_iff (length_encodingHeader ..), drop_eq_append_iff (length_putUint64 _),
      drop_eq_append_iff d.size, List.drop_zero] at fields
    obtain ⟨header, size, v, -⟩ := fields
    have valid : lim.validate = .ok () := by
      refine if_neg fun none => ?_
      rw [none] at room
      exact absurd room (by decide)
    simp only [parseRoot, bind_ok, outcome_lift, failIf_eq_ok, exists_const,
      readUint64_ok, readDigest_ok]
    exact ⟨(), valid, ofNat_le (length ▸ room), not_not.mpr length, pr,
      (parseEncodingHeader_ok (by rw [length]; decide)).mpr ⟨header, known⟩, _, size, _, v, honest,
      rfl⟩

theorem parseRoot_encodes {r : Root Bytes32}
    (parsed : parseRoot H data lim = .ok r) : r.Encodes H := by
  simp only [parseRoot, bind_ok, outcome_lift, failIf_eq_ok, exists_const] at parsed
  obtain ⟨-, -, -, -, pr, header, treeSize, -, d, -, honest, made⟩ := parsed
  cases ok.inj made
  exact encodes_newRoot (parseEncodingHeader_known header) fun zero => not_not.mp fun other =>
    honest ⟨zero, other⟩

theorem encodes_newRoot_iff (known : pr.validate = .ok ()) :
    (newRoot pr treeSize d).Encodes H ↔ (treeSize = 0 → d = H.empty) := by
  refine ⟨fun ⟨_, encoded, _⟩ zero => ?_, encodes_newRoot known⟩
  by_contra forged
  simp [Root.marshalBinary, profileForRootEncoding, newRoot, known, zero, forged, Except.isOk,
    Except.toBool] at encoded

theorem parseFields_ok {d es : UInt64} {base : Nat} {fields : ProofFields}
    {deep : UInt64 → UInt64 → UInt64}
    (parsed : (parseFields object base deep data es d).outcome = .ok fields) :
    fields.profile.validate = .ok () ∧ (data.drop 50).take 8 = putUint64 fields.second ∧
      (data.drop 58).take 32 = fields.secondDigest.bytes := by
  simp only [parseFields, bind_ok, outcome_lift, failIf_eq_ok, exists_const, readUint64_ok,
    readDigest_ok] at parsed
  obtain ⟨-, pr, header, _, -, _, -, _, second, _, digest, _, -, -, -, _, -, -, _, -,
    made⟩ := parsed
  cases ok.inj made
  exact ⟨parseEncodingHeader_known header, second, digest⟩

theorem parseInclusionProof_encodes {proofLimits : ProofLimits} {proof : InclusionProof Bytes32}
    (parsed : (parseInclusionProof data lim proofLimits).outcome = .ok proof) :
    proof.root.Encodes H := by
  simp only [parseInclusionProof, bind_ok, outcome_lift] at parsed
  obtain ⟨_, -, fields, found, _, checked, made⟩ := parsed
  cases Except.ok.inj made
  obtain ⟨_, valid, -⟩ := except_bind_ok.mp checked
  refine encodes_newRoot (parseFields_ok found).1 fun zero => ?_
  simp only [InclusionProof.validate, bind, Except.bind, pure, Except.pure] at valid
  repeat' split at valid
  all_goals simp_all

theorem parseMultiInclusionProof_encodes
    {proofLimits : MultiProofLimits} {proof : MultiInclusionProof Bytes32}
    (parsed : (parseMultiInclusionProof data lim proofLimits).outcome = .ok proof) :
    proof.root.Encodes H := by
  simp only [parseMultiInclusionProof, bind_ok, outcome_lift, failIf_eq_ok, exists_const] at parsed
  obtain ⟨_, -, -, pr, header, _, -, _, -, _, -, -, -, _, -, -, _, -, -, _, -, -, _, -, _, -, _,
    checked, made⟩ := parsed
  cases Except.ok.inj made
  obtain ⟨_, valid, -⟩ := except_bind_ok.mp checked
  refine encodes_newRoot (parseEncodingHeader_known header) fun zero => ?_
  simp only [MultiInclusionProof.validate, bind, Except.bind, pure, Except.pure] at valid
  repeat' split at valid
  all_goals simp_all

theorem parseConsistencyProof_encodes
    {proofLimits : ConsistencyProofLimits} {proof : ConsistencyProof Bytes32}
    (parsed : (parseConsistencyProof data lim proofLimits).outcome = .ok proof) :
    proof.olderRoot.Encodes H ∧ proof.newerRoot.Encodes H ↔
      ((data.drop 50).take 8 = putUint64 0 → (data.drop 58).take 32 = H.empty.bytes) := by
  simp only [parseConsistencyProof, bind_ok, outcome_lift] at parsed
  obtain ⟨_, -, fields, found, _, checked, made⟩ := parsed
  cases ok.inj made
  obtain ⟨known, second, digest⟩ := parseFields_ok found
  have size : putUint64 fields.second = putUint64 0 ↔ fields.second = 0 :=
    ⟨fun same => by simpa using congrArg uint64 same, congrArg putUint64⟩
  have bytes : fields.secondDigest.bytes = H.empty.bytes ↔ fields.secondDigest = H.empty := by
    rw [← Bytes32.ofList_eq_some, Bytes32.ofList_bytes, Option.some_inj, eq_comm]
  rw [second, digest, size, bytes, encodes_newRoot_iff known, encodes_newRoot_iff known,
    and_iff_right_iff_imp]
  intro honest zero
  -- The older tree is empty only when the newer one is, and then the digests were compared.
  obtain ⟨_, valid, rest⟩ := except_bind_ok.mp checked
  have none : fields.second = 0 := by
    simp only [ConsistencyProof.validate, bind, Except.bind, pure, Except.pure] at valid
    repeat' split at valid
    all_goals simp_all
  have same : fields.firstDigest = fields.secondDigest := by
    simp only [bind, Except.bind, pure, Except.pure, zero, none] at rest
    repeat' split at rest
    all_goals simp_all
  exact same.trans (honest none)

theorem parseSnapshot_encodes {lim : SnapshotPersistenceLimits} {s : Snapshot Bytes32}
    (parsed : (parseSnapshot H data lim).outcome = .ok s) : s.root.Encodes H := by
  obtain ⟨-, canon, -⟩ := parseSnapshot_ok.mp parsed
  have identity := canon.identity
  obtain ⟨known, ds, rep, small⟩ := canon
  rw [← identity]
  refine encodes_newRoot known fun zero => ?_
  rw [rep.root] at zero ⊢
  have none : ds = [] := List.eq_nil_of_length_eq_zero ((ofNat_eq_iff (by omega) _).mp zero)
  simp [none, newRoot]

/-- Every root that a decoder lets out can be encoded and decoded again; those of a consistency
proof exactly when its newer tree, if the bytes give it the size 0, has the digest of the empty
tree. -/
theorem decoded_roots_encode (H : Hasher Bytes32) (ctx : Context) (data : Bytes) :
    (∀ limits root, parseRoot H data limits = .ok root → root.Encodes H) ∧
    (∀ limits proofLimits proof,
      ctx.run (parseInclusionProof data limits proofLimits) = .ok proof → proof.root.Encodes H) ∧
    (∀ limits proofLimits proof,
      ctx.run (parseConsistencyProof data limits proofLimits) = .ok proof →
      (proof.olderRoot.Encodes H ∧ proof.newerRoot.Encodes H ↔
        ((data.drop 50).take 8 = putUint64 0 → (data.drop 58).take 32 = H.empty.bytes))) ∧
    (∀ limits proofLimits proof,
      ctx.run (parseMultiInclusionProof data limits proofLimits) = .ok proof →
      proof.root.Encodes H) ∧
    ∀ limits snapshot, ctx.run (parseSnapshot H data limits) = .ok snapshot →
      snapshot.root.Encodes H :=
  ⟨fun _ _ parsed => parseRoot_encodes parsed,
    fun _ _ _ parsed => parseInclusionProof_encodes (Context.run_ok parsed),
    fun _ _ _ parsed => parseConsistencyProof_encodes (Context.run_ok parsed),
    fun _ _ _ parsed => parseMultiInclusionProof_encodes (Context.run_ok parsed),
    fun _ _ parsed => parseSnapshot_encodes (Context.run_ok parsed)⟩

/-- A consistency proof between two empty trees with the same digest. -/
def emptyConsistency (digest : Bytes32) : Bytes :=
  encodingHeader encodingObjectConsistency canonicalProfile ++ putUint64 0 ++ digest.bytes ++
    putUint64 0 ++ digest.bytes ++ putUint64 0

theorem decoded_roots_encode_empty :
    ∃ proof, Context.background.run
        (parseConsistencyProof (emptyConsistency pairHasher.empty) ⟨1024⟩ ⟨64, 64⟩) = .ok proof ∧
      proof.olderRoot.Encodes pairHasher ∧ proof.newerRoot.Encodes pairHasher := by
  have encodes := (decoded_roots_encode pairHasher .background
    (emptyConsistency pairHasher.empty)).2.2.1 ⟨1024⟩ ⟨64, 64⟩
  have parsed : Context.background.run
      (parseConsistencyProof (emptyConsistency pairHasher.empty) ⟨1024⟩ ⟨64, 64⟩) =
        .ok ⟨1, 1, 1, newRoot canonicalProfile 0 pairHasher.empty,
          newRoot canonicalProfile 0 pairHasher.empty, 0, 0, []⟩ := by decide +kernel
  exact ⟨_, parsed, (encodes _ parsed).mpr (by decide +kernel)⟩

/-- The same proof with 32 zero bytes is accepted, and its roots cannot be encoded. -/
theorem forged_empty_root :
    ∃ proof, Context.background.run
        (parseConsistencyProof (emptyConsistency ⟨List.replicate 32 0, rfl⟩) ⟨1024⟩ ⟨64, 64⟩) =
          .ok proof ∧
      proof.olderRoot.treeSize = 0 ∧ proof.olderRoot.digest.value ≠ pairHasher.empty ∧
      proof.olderRoot.marshalBinary pairHasher = .error .malformedEncoding ∧
      proof.newerRoot.marshalBinary pairHasher = .error .malformedEncoding :=
  ⟨⟨1, 1, 1, newRoot canonicalProfile 0 ⟨List.replicate 32 0, rfl⟩,
      newRoot canonicalProfile 0 ⟨List.replicate 32 0, rfl⟩, 0, 0, []⟩,
    by decide +kernel, rfl, by decide +kernel, by decide +kernel, by decide +kernel⟩

end Golib.MerkleTree
