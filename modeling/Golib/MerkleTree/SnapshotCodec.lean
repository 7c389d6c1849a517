import Golib.Lib.Programs
import Golib.MerkleTree.SnapshotStructure

/-! The binary form of snapshots. Each reader succeeds with a value exactly when the bytes at
its offset are the encoding of that value, so the decoder accepts the encodings of the
snapshots its structural check admits, and nothing else. -/
namespace Golib.MerkleTree

open HashTree Polled List Except

section Fields

variable {data : Bytes} {o : Nat} {object : UInt8} {pr : Profile}

theorem readUint64_ok {x : UInt64} :
    (readUint64 data o).outcome = .ok x ↔ (data.drop o).take 8 = putUint64 x := by
  unfold readUint64
  constructor
  · intro h
    split at h
    · have eight : ((data.drop o).take 8).length = 8 := by
        rw [length_take, length_drop]
        omega
      rw [← ok.inj h, put_uint64 eight]
    · cases h
  · intro h
    have size := congrArg length h
    rw [length_putUint64, length_take, length_drop] at size
    rw [if_pos (by omega), h, uint64_put]
    rfl

theorem readDigest_ok {d : Bytes32}
    : (readDigest data o).outcome = .ok d ↔ (data.drop o).take 32 = d.bytes := by
  rw [← Bytes32.ofList_eq_some, readDigest]
  cases Bytes32.ofList ((data.drop o).take 32) <;> simp

@[simp] theorem length_encodeNode (n : SnapshotNode Bytes32) : (encodeNode n).length = 56 := by
  simp [encodeNode, n.digest.size]

theorem length_encodeNodes (ns : List (SnapshotNode Bytes32)) :
    (ns.flatMap encodeNode).length = 56 * ns.length := by
  induction ns with
  | nil => rfl
  | cons n rest ih =>
    rw [flatMap_cons, length_append, ih, length_encodeNode, length_cons]
    omega

theorem readUint64_inside (sub : o + 8 ≤ data.length) :
    ∃ x, (readUint64 data o).outcome = .ok x := by
  rw [readUint64, if_pos sub]
  exact ⟨_, rfl⟩

theorem readDigest_inside (sub : o + 32 ≤ data.length) :
    ∃ d, (readDigest data o).outcome = .ok d := by
  have size : ((data.drop o).take 32).length = 32 := by
    rw [length_take, length_drop]
    omega
  exact ⟨⟨_, size⟩, readDigest_ok.mpr rfl⟩

theorem parseNodes_inside {n : Nat} (sub : o + 56 * n ≤ data.length) :
    ∃ ns, (parseNodes data n o).outcome = .ok ns := by
  induction n generalizing o with
  | zero => exact ⟨[], rfl⟩
  | succ n ih =>
    obtain ⟨d, hd⟩ := readDigest_inside (show o + 32 ≤ data.length by omega)
    obtain ⟨size, hs⟩ := readUint64_inside (show o + 32 + 8 ≤ data.length by omega)
    obtain ⟨left, hl⟩ := readUint64_inside (show o + 40 + 8 ≤ data.length by omega)
    obtain ⟨right, hr⟩ := readUint64_inside (show o + 48 + 8 ≤ data.length by omega)
    obtain ⟨rest, tail⟩ := ih (show o + 56 + 56 * n ≤ data.length by omega)
    rw [parseNodes, poll_bind]
    exact ⟨_, bind_ok.mpr ⟨_, hd, bind_ok.mpr ⟨_, hs, bind_ok.mpr ⟨_, hl,
      bind_ok.mpr ⟨_, hr, bind_ok.mpr ⟨_, tail, rfl⟩⟩⟩⟩⟩⟩

theorem drop_eq_encodeNode {n : SnapshotNode Bytes32} {rest : List UInt8} :
    data.drop o = encodeNode n ++ rest ↔
      (data.drop o).take 32 = n.digest.bytes ∧
      (data.drop (o + 32)).take 8 = putUint64 n.size ∧
      (data.drop (o + 40)).take 8 = putUint64 n.left ∧
      (data.drop (o + 48)).take 8 = putUint64 n.right ∧ data.drop (o + 56) = rest := by
  simp only [encodeNode, append_assoc]
  rw [drop_eq_append_iff n.digest.size, drop_eq_append_iff (length_putUint64 _),
    drop_eq_append_iff (length_putUint64 _), drop_eq_append_iff (length_putUint64 _)]

theorem parseNodes_ok {ns : List (SnapshotNode Bytes32)} {count : Nat} :
    (parseNodes data count o).outcome = .ok ns ↔
      ns.length = count ∧ ∃ rest, data.drop o = ns.flatMap encodeNode ++ rest := by
  induction count generalizing o ns with
  | zero =>
    cases ns with
    | nil | cons => simp [parseNodes]
  | succ count ih =>
    simp only [parseNodes, poll_bind, bind_ok, readDigest_ok, readUint64_ok, ih]
    constructor
    · rintro ⟨d, hd, size, hs, left, hl, right, hr, tail, ⟨rfl, rest, after⟩, made⟩
      cases ok.inj made
      refine ⟨rfl, rest, ?_⟩
      rw [flatMap_cons, append_assoc, drop_eq_encodeNode]
      exact ⟨hd, hs, hl, hr, after⟩
    · rintro ⟨length, rest, whole⟩
      cases ns with
      | nil => cases length
      | cons n tail =>
        rw [flatMap_cons, append_assoc, drop_eq_encodeNode] at whole
        obtain ⟨hd, hs, hl, hr, after⟩ := whole
        exact ⟨_, hd, _, hs, _, hl, _, hr, tail, ⟨Nat.succ.inj length, rest, after⟩, rfl⟩

@[simp] theorem length_encodingHeader (object : UInt8) (pr : Profile) :
    (encodingHeader object pr).length = 10 := by
  simp [encodingHeader, canonicalEncodingMagic]

theorem putBigEndian_two (a b : UInt8) (version : UInt16) :
    putBigEndian 2 version.toNat = [a, b] ↔ UInt16.ofNat (bigEndian [a, b]) = version := by
  constructor
  · intro h
    rw [← h, bigEndian_put 2 _ version.toNat_lt, UInt16.ofNat_toNat]
  · rintro rfl
    have small := bigEndian_lt [a, b]
    rw [length_cons, length_singleton] at small
    rw [UInt16.toNat_ofNat', Nat.mod_eq_of_lt (by omega)]
    exact put_bigEndian [a, b]

theorem eq_encodingHeader {b0 b1 b2 b3 b4 b5 b6 b7 b8 b9 : UInt8} :
    [b0, b1, b2, b3, b4, b5, b6, b7, b8, b9] = encodingHeader object pr ↔
      [b0, b1, b2, b3] = canonicalEncodingMagic ∧ b4 = canonicalEncodingVersion ∧ b5 = object ∧
        ⟨b6, UInt16.ofNat (bigEndian [b7, b8]), b9⟩ = pr := by
  obtain ⟨id, version, alg⟩ := pr
  obtain ⟨p, q, two⟩ := length_eq_two.mp (length_putBigEndian 2 version.toNat)
  have high := putBigEndian_two b7 b8 version
  simp only [encodingHeader, canonicalEncodingMagic, two, Profile.mk.injEq, ← high,
    cons_append, nil_append, cons.injEq, and_true]
  constructor
  · rintro ⟨rfl, rfl, rfl, rfl, rfl, rfl, rfl, rfl, rfl, rfl⟩
    simp
  · rintro ⟨⟨rfl, rfl, rfl, rfl⟩, rfl, rfl, rfl, ⟨rfl, rfl⟩, rfl⟩
    simp

theorem parseEncodingHeader_ok (long : 10 ≤ data.length) :
    parseEncodingHeader data object = .ok pr ↔
      data.take 10 = encodingHeader object pr ∧ pr.validate = .ok () := by
  match data, long with
  | b0 :: b1 :: b2 :: b3 :: b4 :: b5 :: b6 :: b7 :: b8 :: b9 :: rest, _ =>
    simp only [parseEncodingHeader, take_succ_cons, take_zero, getD_cons_succ,
      getD_cons_zero, drop_succ_cons, drop_zero, eq_encodingHeader]
    constructor
    · intro h
      split_ifs at h with magic version kind sha
      rw [not_not] at magic version kind
      obtain ⟨_, known, h⟩ := except_bind_ok.mp h
      cases ok.inj h
      exact ⟨⟨magic, version, kind, rfl⟩, known⟩
    · rintro ⟨⟨magic, version, kind, rfl⟩, known⟩
      have sha := Profile.algorithm_eq known
      rw [if_neg (not_not_intro magic), if_neg (not_not_intro version), if_neg (not_not_intro kind),
        if_neg (not_not_intro sha), known]
      rfl

end Fields

def encodedSnapshot (s : Snapshot Bytes32) : Bytes :=
  encodingHeader encodingObjectSnapshot s.profile ++ putUint64 s.root.treeSize ++
    putUint64 s.totalBytes ++ s.root.digest.value.bytes ++ putUint64
      (UInt64.ofNat s.nodes.length) ++
    putUint64 s.rootNode ++ s.nodes.flatMap encodeNode

theorem length_encodedSnapshot (s : Snapshot Bytes32) :
    (encodedSnapshot s).length = 74 + 56 * s.nodes.length := by
  simp only [encodedSnapshot, length_append, length_encodingHeader, length_putUint64,
    s.root.digest.value.size, length_encodeNodes]

theorem eq_encodedSnapshot {data : Bytes} {s : Snapshot Bytes32} :
    data = encodedSnapshot s ↔
      data.take 10 = encodingHeader encodingObjectSnapshot s.profile ∧
      (data.drop 10).take 8 = putUint64 s.root.treeSize ∧
      (data.drop 18).take 8 = putUint64 s.totalBytes ∧
      (data.drop 26).take 32 = s.root.digest.value.bytes ∧
      (data.drop 58).take 8 = putUint64 (UInt64.ofNat s.nodes.length) ∧
      (data.drop 66).take 8 = putUint64 s.rootNode ∧
      data.drop 74 = s.nodes.flatMap encodeNode := by
  have start : data = encodedSnapshot s ↔ data.drop 0 = encodedSnapshot s := by rw [drop_zero]
  rw [start]
  simp only [encodedSnapshot, append_assoc]
  rw [drop_eq_append_iff (length_encodingHeader ..), drop_eq_append_iff (length_putUint64 _),
    drop_eq_append_iff (length_putUint64 _), drop_eq_append_iff s.root.digest.value.size,
    drop_eq_append_iff (length_putUint64 _), drop_eq_append_iff (length_putUint64 _), drop_zero]

/-- The persistence limits that let a snapshot through, and an encoding that an `int` measures. -/
structure SnapshotPersistenceLimits.Admits (limits : SnapshotPersistenceLimits)
    (s : Snapshot Bytes32) :
    Prop where
  valid : limits.validate = .ok ()
  encoded : 74 + 56 * s.nodes.length ≤ limits.maxEncodedBytes.toNat
  representable : 74 + 56 * s.nodes.length ≤ maxInt
  leaves : s.root.treeSize ≤ limits.maxLeaves
  total : s.totalBytes ≤ limits.maxTotalLeafBytes
  retained : s.nodes.length ≤ limits.maxRetainedNodes.toNat
  reads : s.nodes.length ≤ limits.maxNodeReads.toNat
  depth : len64 s.root.treeSize ≤ limits.maxTraversalDepth.toNat
  temporary : 56 * s.nodes.length ≤ limits.maxTemporaryBytes.toNat

/-- A snapshot of a supported profile over some leaf digests. -/
def Snapshot.Canonical (H : Hasher Bytes32) (s : Snapshot Bytes32) : Prop :=
  s.profile.validate = .ok () ∧
    ∃ digests, s.Represents H s.profile digests ∧ 2 * digests.length ≤ 2 ^ 64

section Codec

variable {H : Hasher Bytes32} {s : Snapshot Bytes32} {data : Bytes}
  {lim : SnapshotPersistenceLimits}

theorem encodedVectorSize_ok {base elementSize size : Nat} {n : UInt64} :
    encodedVectorSize base n elementSize = .ok size ↔
      base + n.toNat * elementSize ≤ maxInt ∧ size = base + n.toNat * elementSize := by
  unfold encodedVectorSize
  constructor
  · intro h
    split at h
    · cases h
    · exact ⟨by omega, (ok.inj h).symm⟩
  · rintro ⟨small, rfl⟩
    rw [if_neg (by omega)]

theorem mapError_ok {α : Type} {f : Err → Err} {m : Polled Err α} {a : α} :
    (mapError f m).outcome = .ok a ↔ m.outcome = .ok a := by
  unfold mapError
  cases m.outcome <;> simp [Except.mapError]

theorem encodedVectorSize_avoids (base : Nat) (n : UInt64) (elementSize : Nat) :
    Avoids .outOfRange (.lift (encodedVectorSize base n elementSize)) := by
  rw [Avoids, outcome_lift, encodedVectorSize]
  split_ifs <;> simp

theorem mapError_avoids {α : Type} {m : Polled Err α} (avoids : Avoids .outOfRange m) :
    Avoids .outOfRange (mapError structureError m) := by
  rw [Avoids, mapError]
  rw [Avoids] at avoids
  cases result : m.outcome with
  | ok a => simp [Except.mapError]
  | error e =>
    rw [result] at avoids
    cases e <;> simp [Except.mapError, structureError] at avoids ⊢

theorem Snapshot.Canonical.marshalBinary (canon : s.Canonical H)
    (representable : 74 + 56 * s.nodes.length ≤ maxInt) :
    s.marshalBinary H = .ok (encodedSnapshot s) := by
  obtain ⟨known, ds, rep, small⟩ := canon
  have checked : (validateSnapshotStructure H s maxUint64 maxUint64).outcome = .ok () := by
    apply validateSnapshotStructure_complete rep small
    · exact Nat.le_trans (len64_le _) (by decide)
    · rw [rep.length_nodes]
      exact Nat.le_trans (show _ ≤ 2 ^ 64 - 1 by omega) (by decide)
  have size : (UInt64.ofNat s.nodes.length).toNat = s.nodes.length :=
    toNat_ofNat_of_lt (by rw [rep.length_nodes]; omega)
  have fits : encodedVectorSize encodedSnapshotBase (UInt64.ofNat s.nodes.length)
      encodedSnapshotNodeSize = .ok (74 + s.nodes.length * 56) := by
    rw [encodedVectorSize_ok, size]
    rw [encodedSnapshotBase, encodedSnapshotNodeSize, encodingHeaderSize]
    omega
  simp only [Snapshot.marshalBinary, rep.validate known small, checked, fits, bind, bind]
  rfl

theorem marshalBinary_eq (enc : s.marshalBinary H = .ok data) : data = encodedSnapshot s := by
  obtain ⟨_, -, enc⟩ := except_bind_ok.mp enc
  split at enc
  · cases enc
  · cases enc
  · split at enc
    · cases enc
    · exact (ok.inj enc).symm

theorem Snapshot.Canonical.identity (canon : s.Canonical H) :
    newRoot s.profile s.root.treeSize s.root.digest.value = s.root := by
  obtain ⟨_, ds, rep, _⟩ := canon
  rw [rep.root]
  rfl

theorem parseSnapshot_ok : (parseSnapshot H data lim).outcome = .ok s ↔
    lim.Admits s ∧ s.Canonical H ∧ data = encodedSnapshot s := by
  simp only [parseSnapshot, bind_ok, poll_bind, outcome_lift,
    failIf_eq_ok, exists_const, readUint64_ok, readDigest_ok, parseNodes_ok, mapError_ok,
    encodedVectorSize_ok, gt_iff_lt, not_lt, not_not, Bool.not_eq_false]
  rw [show encodedSnapshotBase = 74 from rfl, show encodedSnapshotNodeSize = 56 from rfl]
  constructor
  · rintro ⟨_, valid, enc, long, pr, header, treeSize, hsize, totalBytes, htotal, digest,
      hdigest, nodeCount, hcount, rootNode, hroot, ls, tot, retained, reads, d, _,
      ⟨small, rfl⟩, temporary, _, ⟨representable, rfl⟩, length, _, ns, ⟨n, rest, hnodes⟩, _,
      checked, made⟩
    cases ok.inj made
    rw [parseEncodingHeader_ok (by omega)] at header
    obtain ⟨header, known⟩ := header
    have word : 74 + nodeCount.toNat * 56 < 2 ^ 64 := by
      unfold maxInt at representable
      omega
    have whole : UInt64.ofNat ns.length = nodeCount := by rw [n, UInt64.ofNat_toNat]
    have after := congrArg List.length hnodes
    rw [length_drop, length_append, length_encodeNodes] at after
    have nothing : rest = [] := eq_nil_of_length_eq_zero (by omega)
    rw [nothing, append_nil] at hnodes
    rw [UInt64.not_lt, UInt64.le_iff_toNat_le] at enc temporary d retained reads
    rw [← length, toNat_ofNat_of_lt word] at enc
    rw [← n, Nat.zero_add, toNat_ofNat_of_lt (by omega)] at temporary
    rw [toNat_ofNat_of_lt (Nat.lt_of_le_of_lt (len64_le _) (by omega))] at d
    rw [← n] at retained reads
    refine ⟨⟨valid, by simp only; omega, by simp only; omega, UInt64.not_lt.mp ls,
      UInt64.not_lt.mp tot, retained, reads, d, by simp only; omega⟩, ⟨known, ?_⟩, ?_⟩
    · exact (validateSnapshotStructure_gives (by simp only; omega)).2 _ checked rfl
    · rw [eq_encodedSnapshot]
      exact ⟨header, hsize, htotal, hdigest, by rw [whole]; exact hcount, hroot, hnodes⟩
  · rintro ⟨admits, canon, eq⟩
    have identity := canon.identity
    obtain ⟨known, ds, rep, small⟩ := canon
    have length : data.length = 74 + 56 * s.nodes.length := by rw [eq, length_encodedSnapshot]
    obtain ⟨header, hsize, htotal, hdigest, hcount, hroot, hnodes⟩ := eq_encodedSnapshot.mp eq
    have representable := admits.representable
    have word : 74 + 56 * s.nodes.length < 2 ^ 64 := by
      unfold maxInt at representable
      omega
    have whole : (UInt64.ofNat s.nodes.length).toNat = s.nodes.length :=
      toNat_ofNat_of_lt (by omega)
    refine ⟨(), admits.valid, ofNat_le (by rw [length]; exact admits.encoded), by omega, s.profile,
      (parseEncodingHeader_ok (by omega)).mpr ⟨header, known⟩, _, hsize, _, htotal, _, hdigest, _,
      hcount, _, hroot, UInt64.not_lt.mpr admits.leaves, UInt64.not_lt.mpr admits.total,
      ofNat_le admits.retained, ofNat_le admits.reads, ofNat_le admits.depth, _,
      ⟨by rw [whole]; omega, rfl⟩, ofNat_le (by rw [whole]; have := admits.temporary; omega), _,
      ⟨by rw [whole]; omega, rfl⟩, by rw [whole, length]; omega, rep.nodeCount_valid small,
      s.nodes, ⟨whole.symm, [], by rw [hnodes, append_nil]⟩, (), ?_, ?_⟩
    · rw [identity]
      exact validateSnapshotStructure_complete rep small admits.depth admits.reads
    · rw [identity]
      rfl

theorem profileValidate_avoids (pr : Profile) : pr.validate ≠ .error .outOfRange := by
  unfold Profile.validate rfc9162Profile
  split_ifs <;> simp
  split_ifs <;> simp

theorem encodedSnapshot_injective {s' : Snapshot Bytes32} (canon : s.Canonical H)
    (canon' : s'.Canonical H) (eq : encodedSnapshot s = encodedSnapshot s') : s = s' := by
  have long : 10 ≤ (encodedSnapshot s).length := by
    rw [length_encodedSnapshot]
    omega
  obtain ⟨header, size, tot, d, _, r, ns⟩ := eq_encodedSnapshot.mp (rfl : _ = encodedSnapshot s)
  obtain ⟨header', size', total', digest', _, root', nodes'⟩ := eq_encodedSnapshot.mp eq
  have profiles := ((parseEncodingHeader_ok long).mpr ⟨header, canon.1⟩).symm.trans
    ((parseEncodingHeader_ok long).mpr ⟨header', canon'.1⟩)
  have sizes := (readUint64_ok.mpr size).symm.trans (readUint64_ok.mpr size')
  have totals := (readUint64_ok.mpr tot).symm.trans (readUint64_ok.mpr total')
  have ds := (readDigest_ok.mpr d).symm.trans (readDigest_ok.mpr digest')
  have roots := (readUint64_ok.mpr r).symm.trans (readUint64_ok.mpr root')
  have lengths : s'.nodes.length = s.nodes.length := by
    have length := congrArg length eq
    rw [length_encodedSnapshot, length_encodedSnapshot] at length
    omega
  have arrays := (parseNodes_ok.mpr ⟨rfl, [], by rw [ns, append_nil]⟩).symm.trans
    (parseNodes_ok.mpr ⟨lengths, [], by rw [nodes', append_nil]⟩)
  have identity : s.root = s'.root := by
    rw [← canon.identity, ← canon'.identity, ok.inj profiles, ok.inj sizes, ok.inj ds]
  cases s
  cases s'
  simp only [Snapshot.mk.injEq]
  exact ⟨ok.inj profiles, identity, ok.inj arrays, ok.inj roots, ok.inj totals⟩

theorem parseEncodingHeader_avoids (object : UInt8) :
    Avoids .outOfRange (.lift (parseEncodingHeader data object)) := by
  rw [Avoids, outcome_lift, parseEncodingHeader]
  split_ifs
  · simp
  · simp
  · simp
  · simp only
    split_ifs
    · simp
    · intro h
      rcases except_bind_error.mp h with refused | ⟨_, -, done⟩
      · exact profileValidate_avoids _ refused
      · cases done

/-- No read of the decoder leaves the data, and no index of its check the array. -/
theorem parseSnapshot_safe : Avoids .outOfRange (parseSnapshot H data lim) := by
  suffices Gives .outOfRange (fun _ => True) (parseSnapshot H data lim) from this.1
  refine gives_bind ?_ (fun _ _ => ?_)
  · rw [Avoids, outcome_lift, SnapshotPersistenceLimits.validate]
    split_ifs <;> simp
  refine gives_guard (by simp) (fun _ => ?_)
  refine gives_guard (by simp) (fun long => ?_)
  rw [show encodedSnapshotBase = 74 from rfl, not_lt] at long
  refine gives_bind (parseEncodingHeader_avoids _) (fun pr _ => ?_)
  obtain ⟨treeSize, hsize⟩ := readUint64_inside (show 10 + 8 ≤ data.length by omega)
  obtain ⟨totalBytes, htotal⟩ := readUint64_inside (show 18 + 8 ≤ data.length by omega)
  obtain ⟨d, hdigest⟩ := readDigest_inside (show 26 + 32 ≤ data.length by omega)
  obtain ⟨nodeCount, hcount⟩ := readUint64_inside (show 58 + 8 ≤ data.length by omega)
  obtain ⟨rootNode, hroot⟩ := readUint64_inside (show 66 + 8 ≤ data.length by omega)
  refine gives_read hsize ?_
  refine gives_read htotal ?_
  refine gives_read hdigest ?_
  refine gives_read hcount ?_
  refine gives_read hroot ?_
  refine gives_guard (by simp) (fun _ => ?_)
  refine gives_guard (by simp) (fun _ => ?_)
  refine gives_guard (by simp) (fun _ => ?_)
  refine gives_guard (by simp) (fun _ => ?_)
  refine gives_guard (by simp) (fun _ => ?_)
  refine gives_bind (encodedVectorSize_avoids _ _ _) (fun _ _ => ?_)
  refine gives_guard (by simp) (fun _ => ?_)
  refine gives_bind (encodedVectorSize_avoids _ _ _) (fun size sized => ?_)
  refine gives_guard (by simp) (fun exact_size => ?_)
  refine gives_guard (by simp) (fun _ => ?_)
  rw [outcome_lift, encodedVectorSize_ok] at sized
  rw [not_not, sized.2] at exact_size
  rw [show encodedSnapshotBase = 74 from rfl, show encodedSnapshotNodeSize = 56 from rfl]
    at exact_size
  obtain ⟨ns, hnodes⟩ := parseNodes_inside (show 74 + 56 * nodeCount.toNat ≤ data.length by omega)
  refine gives_read hnodes ?_
  refine gives_bind ?_ (fun _ _ => ⟨avoids_pure _ _, fun _ _ => trivial⟩)
  apply mapError_avoids
  refine (validateSnapshotStructure_gives ?_).1
  rw [(parseNodes_ok.mp hnodes).1]
  exact nodeCount.toNat_lt

end Codec

end Golib.MerkleTree
