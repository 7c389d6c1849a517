import Golib.Lib.Bytes
import Mathlib.Data.List.Nodup
import Mathlib.Data.Set.Function

/-! The Merkle root that anchors an export of audit records. A level of odd length is completed by
repeating its last node, and leaves are hashed without a tag of their own. -/
namespace Golib.Audit

open List

structure Record where
  id : String
  /-- The members of the record's canonical object, as the JSON encoder writes them. -/
  members : List UInt8

/-- A struct is encoded as an object, between braces. -/
def canonicalJSON (record : Record) : List UInt8 := 0x7b :: (record.members ++ [0x7d])

def payload (left right : Bytes32) : List UInt8 := 1 :: (left.bytes ++ right.bytes)

/-- What one level hashes. -/
def payloads : List Bytes32 → List (List UInt8)
  | [] => []
  | [d] => [payload d d]
  | d :: e :: rest => payload d e :: payloads rest

theorem length_payloads (l : List Bytes32) : (payloads l).length = (l.length + 1) / 2 := by
  induction l using payloads.induct with
  | case1 => rfl
  | case2 d => simp [payloads]
  | case3 d e rest ih =>
    simp only [payloads, length_cons, ih]
    omega

variable (sha256 : List UInt8 → Bytes32) {as bs l : List Bytes32} {d : Bytes32}

def merkleLevel : List Bytes32 → Bytes32
  | [] => sha256 []
  | [d] => d
  | d :: e :: rest => merkleLevel ((payloads (d :: e :: rest)).map sha256)
termination_by nodes => nodes.length
decreasing_by
  simp only [length_map, length_payloads, length_cons]
  omega

/-- The error names the field and what it must be. -/
def merkleRoot (records : List Record) : Except (String × String) Bytes32 :=
  if records = [] then .error ("merkle_records", "must not be empty")
  else if records.any (·.id = "") then .error ("merkle_record", "must be valid")
  else .ok (merkleLevel sha256 ((records.map canonicalJSON).map sha256))

/-- What the levels above a list of nodes hash. -/
def hashed : List Bytes32 → List (List UInt8)
  | [] | [_] => []
  | d :: e :: rest => payloads (d :: e :: rest) ++ hashed ((payloads (d :: e :: rest)).map sha256)
termination_by nodes => nodes.length
decreasing_by
  simp only [length_map, length_payloads, length_cons]
  omega

theorem payload_injective {a b c : Bytes32} (eq : payload a b = payload c d) : a = c ∧ b = d := by
  obtain ⟨left, right⟩ := append_inj (cons.inj eq).2 (a.size.trans c.size.symm)
  cases a
  cases b
  cases c
  cases d
  simp_all

theorem mem_payloads {p : List UInt8} : ∀ {l}, p ∈ payloads l → ∃ a ∈ l, ∃ b, p = payload a b
  | [d], mem => ⟨d, by simp, d, by simpa [payloads] using mem⟩
  | d :: e :: rest, mem => by
    rcases mem_cons.mp mem with rfl | mem
    · exact ⟨d, by simp, e, rfl⟩
    · obtain ⟨a, here, b, rfl⟩ := mem_payloads mem
      exact ⟨a, by simp [here], b, rfl⟩

theorem nodup_payloads : ∀ {l : List Bytes32}, l.Nodup → (payloads l).Nodup
  | [], _ | [_], _ => by simp [payloads]
  | d :: e :: rest, nodup => by
    rw [nodup_cons, nodup_cons] at nodup
    refine nodup_cons.mpr ⟨fun mem => ?_, nodup_payloads nodup.2.2⟩
    obtain ⟨a, here, b, eq⟩ := mem_payloads mem
    rw [(payload_injective eq).1] at nodup
    exact nodup.1 (mem_cons_of_mem _ here)

/-- The two lists are told apart by their lengths or hold no node twice. -/
def Apart {α : Type} (as bs : List α) : Prop := as.length = bs.length ∨ as.Nodup ∧ bs.Nodup

theorem Apart.payloads (apart : Apart as bs) : Apart (payloads as) (payloads bs) := by
  rcases apart with length | ⟨nodup, nodup'⟩
  · exact .inl (by rw [length_payloads, length_payloads, length])
  · exact .inr ⟨nodup_payloads nodup, nodup_payloads nodup'⟩

theorem payloads_injective (apart : Apart as bs) (eq : payloads as = payloads bs) : as = bs := by
  have lengths : (as.length + 1) / 2 = (bs.length + 1) / 2 := by
    rw [← length_payloads, eq, length_payloads]
  induction as using payloads.induct generalizing bs with
  | case1 => exact (eq_nil_of_length_eq_zero (by rw [length_nil] at lengths; omega)).symm
  | case2 a =>
    rcases bs with _ | ⟨b, _ | ⟨c, _ | _⟩⟩
    · simp at lengths
    · rw [(payload_injective (cons.inj eq).1).1]
    · obtain ⟨rfl, rfl⟩ := payload_injective (cons.inj eq).1
      simp [Apart] at apart
    · simp at lengths
      omega
  | case3 a b as ih =>
    rcases bs with _ | ⟨c, _ | ⟨d, bs⟩⟩
    · cases eq
    · obtain ⟨rfl, rfl⟩ := payload_injective (cons.inj eq).1
      cases as with
      | nil => simp [Apart] at apart
      | cons => simp at lengths; omega
    · obtain ⟨rfl, rfl⟩ := payload_injective (cons.inj eq).1
      simp only [Apart, length_cons, Nat.add_right_cancel_iff, nodup_cons] at apart lengths
      rw [ih (apart.imp id fun h => ⟨h.1.2.2, h.2.2.2⟩) (cons.inj eq).2 (by omega)]

/-- A digest this many levels above a canonical record. -/
inductive Height (K : Set (List UInt8)) : Nat → Bytes32 → Prop where
  | leaf (record : Record) : canonicalJSON record ∈ K → Height K 0 (sha256 (canonicalJSON record))
  | branch {n : Nat} {a b : Bytes32} : payload a b ∈ K → Height K n a →
    Height K (n + 1) (sha256 (payload a b))

/-- Everything that a root of these records hashes. -/
def hashedBy (records : List Record) : List (List UInt8) :=
  records.map canonicalJSON ++ hashed sha256 ((records.map canonicalJSON).map sha256)

section Injective

variable {sha256} {K : Set (List UInt8)} (inj : Set.InjOn sha256 K) {n : Nat}

include inj

theorem map_injective : ∀ {as bs : List (List UInt8)}, (∀ b ∈ as, b ∈ K) → (∀ b ∈ bs, b ∈ K) →
    as.map sha256 = bs.map sha256 → as = bs
  | [], [], _, _, _ => rfl
  | a :: as, b :: bs, left, right, eq => by
    rw [forall_mem_cons] at left right
    rw [map_cons, map_cons, cons.injEq] at eq
    rw [inj left.1 right.1 eq.1, map_injective left.2 right.2 eq.2]

theorem Height.unique {m : Nat} (one : Height sha256 K n d)
    (other : Height sha256 K m d) : n = m := by
  induction one generalizing m with
  | leaf record mem =>
    generalize eq : sha256 _ = d at other
    cases other with
    | leaf => rfl
    | branch mem' _ => cases inj mem mem' eq
  | branch mem below ih =>
    generalize eq : sha256 _ = d at other
    cases other with
    | leaf record mem' => cases inj mem mem' eq
    | branch mem' below' =>
      rw [(payload_injective (inj mem mem' eq)).1] at ih
      rw [ih below']

omit inj in
theorem height_level (all : ∀ d ∈ l, Height sha256 K n d) (sub : ∀ b ∈ payloads l, b ∈ K) :
    ∀ d ∈ (payloads l).map sha256, Height sha256 K (n + 1) d := by
  simp only [mem_map]
  rintro _ ⟨p, mem, rfl⟩
  obtain ⟨a, here, b, rfl⟩ := mem_payloads mem
  exact .branch (sub _ mem) (all a here)

omit inj in
theorem height_root (some : l ≠ []) (all : ∀ d ∈ l, Height sha256 K n d)
    (sub : ∀ b ∈ hashed sha256 l, b ∈ K) :
    ∃ m ≥ n, Height sha256 K m (merkleLevel sha256 l) ∧ (m = n ↔ l.length = 1) := by
  induction l using merkleLevel.induct sha256 generalizing n with
  | case1 => exact absurd rfl some
  | case2 d =>
    rw [merkleLevel]
    exact ⟨n, le_refl n, all d (by simp), by simp⟩
  | case3 d e rest ih =>
    rw [hashed, forall_mem_append] at sub
    obtain ⟨m, le, height, -⟩ := ih (by simp [payloads]) (height_level all sub.1) sub.2
    rw [merkleLevel]
    exact ⟨m, by omega, height, by simp; omega⟩

theorem Apart.map {as bs : List (List UInt8)} (apart : Apart as bs) (sub : ∀ b ∈ as, b ∈ K)
    (sub' : ∀ b ∈ bs, b ∈ K) : Apart (as.map sha256) (bs.map sha256) := by
  rcases apart with length | ⟨nodup, nodup'⟩
  · exact .inl (by rw [length_map, length_map, length])
  · exact .inr ⟨Nodup.map_on (fun a ha b hb => inj (sub a ha) (sub b hb)) nodup,
      Nodup.map_on (fun a ha b hb => inj (sub' a ha) (sub' b hb)) nodup'⟩

section Levels

variable {as bs : List Bytes32} {n : Nat} (some : as ≠ []) (some' : bs ≠ [])
  (all : ∀ d ∈ as, Height sha256 K n d) (all' : ∀ d ∈ bs, Height sha256 K n d)
  (sub : ∀ b ∈ hashed sha256 as, b ∈ K) (sub' : ∀ b ∈ hashed sha256 bs, b ∈ K)
  (eq : merkleLevel sha256 as = merkleLevel sha256 bs)

include some some' all all' sub sub' eq

/-- The two roots stand equally high. -/
theorem single_iff : as.length = 1 ↔ bs.length = 1 := by
  obtain ⟨m, -, height, one⟩ := height_root some all sub
  obtain ⟨m', -, height', one'⟩ := height_root some' all' sub'
  rw [← one, ← one', height.unique inj (eq ▸ height')]

theorem merkleLevel_injective (apart : Apart as bs) : as = bs := by
  induction as using merkleLevel.induct sha256 generalizing n bs with
  | case1 => exact absurd rfl some
  | case2 a =>
    have single := single_iff inj some some' all all' sub sub' eq
    obtain ⟨b, rfl⟩ := length_eq_one_iff.mp (single.mp rfl)
    rw [merkleLevel, merkleLevel] at eq
    rw [eq]
  | case3 a b as ih =>
    rcases bs with _ | ⟨c, _ | ⟨d, bs⟩⟩
    · exact absurd rfl some'
    · simpa using single_iff inj some some' all all' sub sub' eq
    · rw [hashed, forall_mem_append] at sub sub'
      rw [merkleLevel, merkleLevel] at eq
      have level := apart.payloads.map inj sub.1 sub'.1
      refine payloads_injective apart (map_injective inj sub.1 sub'.1 ?_)
      exact ih (by simp [payloads]) (by simp [payloads]) (height_level all sub.1)
        (height_level all' sub'.1) sub.2 sub'.2 eq level

end Levels

theorem roots_bind {rs rs' : List Record} {root : Bytes32}
    (sub : ∀ b ∈ hashedBy sha256 rs, b ∈ K) (sub' : ∀ b ∈ hashedBy sha256 rs', b ∈ K)
    (apart : rs.length = rs'.length ∨ (rs.map canonicalJSON).Nodup ∧ (rs'.map canonicalJSON).Nodup)
    (one : merkleRoot sha256 rs = .ok root) (other : merkleRoot sha256 rs' = .ok root) :
    rs.map canonicalJSON = rs'.map canonicalJSON := by
  have heights (records : List Record) (sub : ∀ b ∈ hashedBy sha256 records, b ∈ K) :
      ∀ d ∈ (records.map canonicalJSON).map sha256, Height sha256 K 0 d := by
    simp only [mem_map]
    rintro _ ⟨_, ⟨record, mem, rfl⟩, rfl⟩
    exact .leaf record (sub _ (mem_append_left _ (mem_map_of_mem mem)))
  have parts (records : List Record) (ok : merkleRoot sha256 records = .ok root) :
      (records.map canonicalJSON).map sha256 ≠ [] ∧
        merkleLevel sha256 ((records.map canonicalJSON).map sha256) = root := by
    unfold merkleRoot at ok
    split_ifs at ok with none invalid
    exact ⟨by simpa using none, Except.ok.inj ok⟩
  have leaves : Apart (rs.map canonicalJSON) (rs'.map canonicalJSON) := by simpa [Apart] using apart
  have leaves := leaves.map inj (forall_mem_append.mp sub).1 (forall_mem_append.mp sub').1
  refine map_injective inj (forall_mem_append.mp sub).1 (forall_mem_append.mp sub').1 ?_
  exact merkleLevel_injective inj (parts rs one).1 (parts rs' other).1 (heights rs sub)
    (heights rs' sub') (forall_mem_append.mp sub).2 (forall_mem_append.mp sub').2
    ((parts rs one).2.trans (parts rs' other).2.symm) leaves

end Injective

/-- Without a collision among what the two roots hash, one root stands for one list of canonical
bytes. -/
theorem merkle_root_binds {rs rs' : List Record} {root : Bytes32}
    (inj : Set.InjOn sha256 {b | b ∈ hashedBy sha256 rs ∨ b ∈ hashedBy sha256 rs'})
    (apart : rs.length = rs'.length ∨ (rs.map canonicalJSON).Nodup ∧ (rs'.map canonicalJSON).Nodup)
    (one : merkleRoot sha256 rs = .ok root) (other : merkleRoot sha256 rs' = .ok root) :
    rs.map canonicalJSON = rs'.map canonicalJSON := by
  exact roots_bind inj (fun b mem => .inl mem) (fun b mem => .inr mem) apart one other

/-! ### Three records -/

def numbered (id : String) (digit : UInt8) : Record := ⟨id, [0x22, 0x6e, 0x22, 0x3a, digit]⟩

def numberedThree (a b c : String) : List Record :=
  [numbered a 0x31, numbered b 0x32, numbered c 0x33]

def firstDigest : Bytes32 :=
  .ofNat 0x2bfd14f43d17fc7cea24e0917a8879b4b2f880b8baeec1b9d90fbaad655e71bd

def secondDigest : Bytes32 :=
  .ofNat 0x363379742f80b51bdb9206579af7754911543079b9399cb3fc315fb199f476e8

def thirdDigest : Bytes32 :=
  .ofNat 0x215ddd5567ca2590efd4ea109b4e56cbe591e2676fbf54a9262692c539166da6

def leftDigest : Bytes32 :=
  .ofNat 0xe9c13b844574aaf2b35381a100f4912f10576ab1d50be53e5a7f8a39b654fd24

def rightDigest : Bytes32 :=
  .ofNat 0x2626cc30fd7a7eb2cb1f6cc437571ac312faec78e2c9c5ce9cd14a8aab180328

def topDigest : Bytes32 :=
  .ofNat 0xe0f0c7d04dc571825d557284af4064af15a910140800f816a2ef0300cc6533f2

/-- SHA-256 on what the root of the three records hashes; the third one is paired with itself. -/
def sha256Three (bytes : List UInt8) : Bytes32 :=
  ([(canonicalJSON (numbered "" 0x31), firstDigest),
    (canonicalJSON (numbered "" 0x32), secondDigest),
    (canonicalJSON (numbered "" 0x33), thirdDigest), (payload firstDigest secondDigest, leftDigest),
    (payload thirdDigest thirdDigest, rightDigest),
    (payload leftDigest rightDigest, topDigest)].lookup bytes).getD topDigest

def hashedThree : List (List UInt8) :=
  (numberedThree "" "" "").map canonicalJSON ++
    (payloads [firstDigest, secondDigest, thirdDigest] ++ [payload leftDigest rightDigest])

theorem merkle_root_binds_three :
    merkleRoot sha256Three (numberedThree "a" "b" "c") = .ok topDigest ∧
      merkleRoot sha256Three (numberedThree "x" "y" "z") = .ok topDigest ∧
      (numberedThree "a" "b" "c").map canonicalJSON =
        (numberedThree "x" "y" "z").map canonicalJSON := by
  have leaves (a b c : String) : (numberedThree a b c).map canonicalJSON =
      (numberedThree "" "" "").map canonicalJSON := rfl
  have digests : ((numberedThree "" "" "").map canonicalJSON).map sha256Three =
      [firstDigest, secondDigest, thirdDigest] := by decide +kernel
  have paired : (payloads [firstDigest, secondDigest, thirdDigest]).map sha256Three =
      [leftDigest, rightDigest] := by decide +kernel
  have root (a b c : String) (valid : (numberedThree a b c).any (·.id = "") = false) :
      merkleRoot sha256Three (numberedThree a b c) = .ok topDigest := by
    rw [merkleRoot, if_neg (by simp [numberedThree]), if_neg (by simp [valid]), leaves, digests,
      merkleLevel, paired, merkleLevel]
    simp only [payloads, map, merkleLevel]
    decide +kernel
  have hashed (a b c : String) : hashedBy sha256Three (numberedThree a b c) = hashedThree := by
    rw [hashedBy, leaves, digests, Audit.hashed, paired, Audit.hashed]
    simp only [payloads, map, Audit.hashed, append_nil, hashedThree]
  refine ⟨root _ _ _ rfl, root _ _ _ rfl, merkle_root_binds sha256Three ?_ (.inl rfl)
    (root _ _ _ rfl) (root _ _ _ rfl)⟩
  have apart : ∀ b ∈ hashedThree, ∀ b' ∈ hashedThree, sha256Three b = sha256Three b' → b = b' := by
    decide +kernel
  simp only [hashed, or_self]
  exact fun b mem b' mem' => apart b mem b' mem'

end Golib.Audit
