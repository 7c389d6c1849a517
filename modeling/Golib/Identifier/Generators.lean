import Golib.Lib.Bytes
import Mathlib.Data.List.Chain

/-! Generators of time-ordered identifiers: the timestamp, then a random field that counts up within
one unit of time. -/
namespace Golib.Identifier

open List

inductive Kind where
  | uuidV7 | ulid | ksuid

inductive Error where
  | invalid
  | clockRollback (last now : Int)
  | overflow
  | entropy

abbrev ID := List UInt8

/-- `bytes.Compare`. -/
def compareBytes : ID → ID → Ordering
  | [], [] => .eq
  | [], _ :: _ => .lt
  | _ :: _, [] => .gt
  | a :: as, b :: bs => (compare a.toNat b.toNat).then (compareBytes as bs)

/-- The last byte counts up, with a carry that `false` says has left the field. -/
def increment : ID → ID × Bool
  | [] => ([], false)
  | b :: rest =>
    match increment rest with
    | (rest, true) => (b :: rest, true)
    | (rest, false) => ((b + 1) :: rest, b + 1 ≠ 0)

/-- From the byte of the version on: the field goes around the version and the variant. -/
def incrementV7 : ID → ID × Bool
  | v :: b :: r :: low =>
    match increment low with
    | (low, true) => (v :: b :: r :: low, true)
    | (low, false) =>
      let lowVariant := (r &&& 0x3f) + 1
      let r := 0x80 ||| (lowVariant &&& 0x3f)
      if lowVariant ≠ 0x40 then (v :: b :: r :: low, true)
      else if b + 1 ≠ 0 then (v :: (b + 1) :: r :: low, true)
      else
        let lowVersion := (v &&& 0x0f) + 1
        ((0x70 ||| (lowVersion &&& 0x0f)) :: (b + 1) :: r :: low, lowVersion ≠ 0x10)
  | id => (id, false)

namespace Kind

/-- The bytes of the timestamp. -/
def width : Kind → Nat
  | uuidV7 | ulid => 6
  | ksuid => 4

def epoch : Kind → Int
  | uuidV7 | ulid => 0
  | ksuid => 1400000000

def maximum : Kind → Int
  | uuidV7 | ulid => 281474976710655
  | ksuid => 1400000000 + 4294967295

def entropy : Kind → Nat
  | uuidV7 | ulid => 10
  | ksuid => 16

def tail : Kind → ID → ID
  | uuidV7, a :: b :: c :: rest => (0x70 ||| (a &&& 0x0f)) :: b :: (0x80 ||| (c &&& 0x3f)) :: rest
  | _, random => random

def next : Kind → ID → ID × Bool
  | uuidV7 => incrementV7
  | _ => increment

/-- A generator holds the reading and the identifier of its last success. -/
def new (kind : Kind) (g : Option (Int × ID)) (now : Int)
    (random : Option { r : ID // r.length = kind.entropy }) : Option (Int × ID) × Except Error ID :=
  let fresh := match random with
    | none => (g, .error .entropy)
    | some r =>
      let id := putBigEndian kind.width (now - kind.epoch).toNat ++ kind.tail r
      (some (now, id), .ok id)
  if now < kind.epoch ∨ now > kind.maximum then (g, .error .invalid)
  else match g with
    | none => fresh
    | some (last, id) =>
      if now < last then (g, .error (.clockRollback last now))
      else if now = last then
        match kind.next (id.drop kind.width) with
        | (tail, true) =>
          (some (last, id.take kind.width ++ tail), .ok (id.take kind.width ++ tail))
        | (_, false) => (g, .error .overflow)
      else fresh

/-- The readings and identifiers of the calls that succeed. -/
def run (kind : Kind) (g : Option (Int × ID)) :
    List (Int × Option { r : ID // r.length = kind.entropy }) → List (Int × ID)
  | [] => []
  | (now, random) :: calls =>
    let (g, result) := kind.new g now random
    match result with
    | .ok id => (now, id) :: kind.run g calls
    | .error _ => kind.run g calls

/-- The generator after the calls. -/
def after (kind : Kind) (calls : List (Int × Option { r : ID // r.length = kind.entropy })) :
    Option (Int × ID) :=
  calls.foldl (fun g call => (kind.new g call.1 call.2).1) none

def timestamp (kind : Kind) (id : ID) : Int := bigEndian (id.take kind.width) + kind.epoch

def bits : Kind → Nat
  | uuidV7 => 74
  | ulid => 80
  | ksuid => 128

/-- The random field as a number. -/
def field : Kind → ID → Nat
  | uuidV7, v :: b :: r :: low =>
    ((v.toNat % 16 * 256 + b.toNat) * 64 + r.toNat % 64) * 256 ^ 7 + bigEndian low
  | _, tail => bigEndian tail

end Kind

theorem bigEndian_append_list (as bs : List UInt8) :
    bigEndian (as ++ bs) = bigEndian as * 256 ^ bs.length + bigEndian bs := by
  induction bs using reverseRecOn with
  | nil => simp [bigEndian]
  | append_singleton bs b ih =>
    rw [← append_assoc, bigEndian_append, bigEndian_append, ih, length_append, length_singleton,
      Nat.pow_succ, Nat.add_mul, Nat.mul_assoc, Nat.add_assoc]

theorem bigEndian_cons (b : UInt8) (bs : List UInt8) :
    bigEndian (b :: bs) = b.toNat * 256 ^ bs.length + bigEndian bs := by
  rw [← singleton_append, bigEndian_append_list]
  simp [bigEndian]

theorem mul_add_lt_iff {a b c d n : Nat} (small : a < n) (small' : b < n) :
    c * n + a < d * n + b ↔ c < d ∨ c = d ∧ a < b := by
  rcases lt_trichotomy c d with less | rfl | more
  · have := Nat.mul_le_mul_right n less
    rw [Nat.succ_mul] at this
    omega
  · omega
  · have := Nat.mul_le_mul_right n more
    rw [Nat.succ_mul] at this
    omega

theorem compareBytes_lt {as bs : List UInt8}
    (length : as.length = bs.length) (lt : bigEndian as < bigEndian bs) :
    compareBytes as bs = .lt := by
  induction as generalizing bs with
  | nil =>
    rw [eq_nil_of_length_eq_zero length.symm] at lt
    exact absurd lt (Nat.lt_irrefl _)
  | cons a as ih =>
    obtain _ | ⟨b, bs⟩ := bs
    · cases length
    · have length : as.length = bs.length := Nat.succ.inj length
      rw [bigEndian_cons, bigEndian_cons, ← length,
        mul_add_lt_iff (bigEndian_lt as) (length ▸ bigEndian_lt bs)] at lt
      rcases lt with less | ⟨eq, lt⟩
      · simp [compareBytes, compare_lt_iff_lt.mpr less]
      · simp [compareBytes, eq, ih length lt]

theorem toNat_succ (b : UInt8) : (b + 1).toNat + (if b + 1 ≠ 0 then 0 else 256) = b.toNat + 1 := by
  revert b
  exact forall_byte (by decide +kernel)

theorem increment_spec (bs : ID) : (increment bs).1.length = bs.length ∧
    bigEndian (increment bs).1 + (if (increment bs).2 then 0 else 256 ^ bs.length) =
      bigEndian bs + 1 := by
  induction bs with
  | nil => simp [increment, bigEndian]
  | cons b rest ih =>
    rw [increment]
    rcases carried : increment rest with ⟨rest', _ | _⟩ <;> rw [carried] at ih
    · obtain ⟨length, value⟩ := ih
      simp only [length_cons, bigEndian_cons, length, Nat.pow_succ, decide_eq_true_eq] at value ⊢
      have byte := toNat_succ b
      have carry := congrArg (· * 256 ^ rest.length) byte
      simp only [Nat.add_mul] at carry
      split_ifs at carry ⊢ <;> refine ⟨trivial, ?_⟩ <;> simp at * <;> omega
    · obtain ⟨length, value⟩ := ih
      simp only [length_cons, bigEndian_cons, length, if_true] at value ⊢
      exact ⟨trivial, by omega⟩

namespace Kind

variable {p : Int × ID} {g : Option (Int × ID)} {now : Int} {t : ID}

/-- The bytes after the timestamp, with version and variant where they belong. -/
def Good : Kind → ID → Prop
  | uuidV7, tail => ∃ v b r low, tail = v :: b :: r :: low ∧ low.length = 7 ∧ v >>> 4 =
    7 ∧ r >>> 6 = 2
  | ulid, tail => tail.length = 10
  | ksuid, tail => tail.length = 16

theorem version_byte (v : UInt8) :
    (0x70 ||| (v &&& 0x0f)) >>> 4 = 7 ∧ (v >>> 4 = 7 → v.toNat / 16 = 7) ∧
      (0x70 ||| (((v &&& 0x0f) + 1) &&& 0x0f)).toNat % 16 +
      (if (v &&& 0x0f) + 1 ≠ 0x10 then 0 else 16) =
        v.toNat % 16 + 1 := by
  revert v
  exact forall_byte (by decide +kernel)

theorem variant_byte (r : UInt8) :
    (0x80 ||| (r &&& 0x3f)) >>> 6 = 2 ∧ (r >>> 6 = 2 → r.toNat / 64 = 2) ∧
      (0x80 ||| (((r &&& 0x3f) + 1) &&& 0x3f)).toNat % 64 +
      (if (r &&& 0x3f) + 1 ≠ 0x40 then 0 else 64) =
        r.toNat % 64 + 1 := by
  revert r
  exact forall_byte (by decide +kernel)

theorem good_tail {random : ID} (kind : Kind) (length : random.length = kind.entropy) :
    kind.Good (kind.tail random) := by
  cases kind with
  | uuidV7 =>
    match random, length with
    | a :: b :: c :: rest, length =>
      exact ⟨_, b, _, rest, rfl, by simpa [entropy] using length, (version_byte a).1,
        (variant_byte c).1⟩
  | ulid => exact length
  | ksuid => exact length

theorem next_spec (kind : Kind) (good : kind.Good t) : kind.Good (kind.next t).1 ∧
    kind.field (kind.next t).1 + (if (kind.next t).2 then 0 else 2 ^ kind.bits) =
    kind.field t + 1 := by
  cases kind with
  | uuidV7 =>
    obtain ⟨v, b, r, low, rfl, length, version, variant⟩ := good
    obtain ⟨length', value⟩ := increment_spec low
    rw [length] at length' value
    simp only [next, incrementV7]
    rcases carried : increment low with ⟨low', _ | _⟩ <;> rw [carried] at length' value
    · have digit := (variant_byte r).2.2
      have variant := (variant_byte ((r &&& 0x3f) + 1)).1
      simp only [Bool.false_eq_true, if_false] at value length'
      by_cases last : (r &&& 0x3f) + 1 ≠ 0x40
      · simp only [if_pos last] at digit ⊢
        refine ⟨⟨v, b, _, low', rfl, length', version, variant⟩, ?_⟩
        simp only [field, if_true]
        omega
      · have byte := toNat_succ b
        simp only [if_neg last] at digit ⊢
        by_cases more : b + 1 ≠ 0
        · simp only [if_pos more] at byte ⊢
          refine ⟨⟨v, _, _, low', rfl, length', version, variant⟩, ?_⟩
          simp only [field, if_true]
          omega
        · have nibble := (version_byte v).2.2
          simp only [if_neg more, decide_eq_true_eq] at byte ⊢
          refine ⟨⟨_, _, _, low', rfl, length', (version_byte _).1, variant⟩, ?_⟩
          simp only [field, bits]
          split_ifs at nibble ⊢ <;> omega
    · refine ⟨⟨v, b, r, low', rfl, length', version, variant⟩, ?_⟩
      simp only [field, if_true] at value ⊢
      omega
  | ulid =>
    obtain ⟨length, value⟩ := increment_spec t
    rw [good] at length value
    exact ⟨length, value⟩
  | ksuid =>
    obtain ⟨length, value⟩ := increment_spec t
    rw [good] at length value
    exact ⟨length, value⟩

theorem Good.length {kind : Kind} (good : kind.Good t) : t.length = kind.entropy := by
  cases kind with
  | uuidV7 =>
    obtain ⟨v, b, r, low, rfl, length, -⟩ := good
    simp [length, entropy]
  | ulid => exact good
  | ksuid => exact good

theorem Good.field_lt {kind : Kind} (good : kind.Good t) : kind.field t < 2 ^ kind.bits := by
  cases kind with
  | uuidV7 =>
    obtain ⟨v, b, r, low, rfl, length, -⟩ := good
    have small := bigEndian_lt low
    have := b.toNat_lt
    rw [length] at small
    simp only [field, bits]
    omega
  | ulid => exact (bigEndian_lt t).trans_eq (by rw [good.length]; rfl)
  | ksuid => exact (bigEndian_lt t).trans_eq (by rw [good.length]; rfl)

theorem bigEndian_lt_of_field {a b : ID} (kind : Kind) (good : kind.Good a) (good' : kind.Good b)
    (lt : kind.field a < kind.field b) : bigEndian a < bigEndian b := by
  cases kind with
  | uuidV7 =>
    obtain ⟨v, b, r, low, rfl, length, version, variant⟩ := good
    obtain ⟨v', b', r', low', rfl, length', version', variant'⟩ := good'
    have := (version_byte v).2.1 version
    have := (version_byte v').2.1 version'
    have := (variant_byte r).2.1 variant
    have := (variant_byte r').2.1 variant'
    have := b.toNat_lt
    have := b'.toNat_lt
    have small := bigEndian_lt low
    have small' := bigEndian_lt low'
    rw [length] at small
    rw [length'] at small'
    rw [field, field, mul_add_lt_iff small small'] at lt
    simp only [bigEndian_cons, length_cons, length, length', Nat.pow_succ 256 8, Nat.pow_succ 256 7,
      ← Nat.mul_assoc, ← Nat.add_assoc, ← Nat.add_mul]
    omega
  | ulid => exact lt
  | ksuid => exact lt

/-! ## Calls -/

/-- The identifier of a reading in range: the reading, then a field with its fixed bits. -/
structure Stamped (kind : Kind) (p : Int × ID) : Prop where
  low : kind.epoch ≤ p.1
  high : p.1 ≤ kind.maximum
  head : p.2.take kind.width = putBigEndian kind.width (p.1 - kind.epoch).toNat
  good : kind.Good (p.2.drop kind.width)

/-- A later unit of time, or the next value of the field within one. -/
def Follows (kind : Kind) (p q : Int × ID) : Prop :=
  p.1 < q.1 ∨ p.1 = q.1 ∧ kind.field (q.2.drop kind.width) = kind.field (p.2.drop kind.width) + 1

/-- The field of this unit of time is all ones. -/
def Full (kind : Kind) (g : Option (Int × ID)) (now : Int) : Prop :=
  ∃ id, g = some (now, id) ∧ kind.field (id.drop kind.width) = 2 ^ kind.bits - 1

theorem stamped_put (kind : Kind) (low : kind.epoch ≤ now) (high : now ≤ kind.maximum)
    (good : kind.Good t) :
    kind.Stamped (now, putBigEndian kind.width (now - kind.epoch).toNat ++ t) where
  low := low
  high := high
  head := take_left' (length_putBigEndian _ _)
  good := by rwa [drop_left' (length_putBigEndian _ _)]

theorem Stamped.bigEndian_head {kind : Kind} (stamped : kind.Stamped p) :
    bigEndian (p.2.take kind.width) = (p.1 - kind.epoch).toNat := by
  have high := stamped.high
  rw [stamped.head, bigEndian_put]
  cases kind <;> simp only [maximum, epoch, width] at high ⊢ <;> omega

theorem Stamped.lt {q : Int × ID}
    {kind : Kind} (stamped : kind.Stamped p) (stamped' : kind.Stamped q)
    (follows : kind.Follows p q) : p.2.length = q.2.length ∧ bigEndian p.2 < bigEndian q.2 := by
  have length := stamped.good.length
  have length' := stamped'.good.length
  have low := stamped.low
  rw [← take_append_drop kind.width p.2, ← take_append_drop kind.width q.2]
  refine ⟨?_, ?_⟩
  · rw [length_append, length_append, length, length', stamped.head, stamped'.head,
      length_putBigEndian, length_putBigEndian]
  · rw [bigEndian_append_list, bigEndian_append_list, length, length', mul_add_lt_iff
      (length ▸ bigEndian_lt _) (length' ▸ bigEndian_lt _), stamped.bigEndian_head,
      stamped'.bigEndian_head]
    rcases follows with later | ⟨eq, succ⟩
    · exact .inl (by omega)
    · exact .inr ⟨by rw [eq], kind.bigEndian_lt_of_field stamped.good stamped'.good (by omega)⟩

theorem new_fresh (kind : Kind) (low : kind.epoch ≤ now) (high : now ≤ kind.maximum)
    (past : ∀ p ∈ g, p.1 < now) (random : Option { r : ID // r.length = kind.entropy }) :
    kind.new g now random = match random with
      | none => (g, .error .entropy)
      | some r =>
        let id := putBigEndian kind.width (now - kind.epoch).toNat ++ kind.tail r
        (some (now, id), .ok id) := by
  rw [new.eq_def, if_neg (by omega)]
  rcases g with _ | ⟨last, id⟩
  · rfl
  · have : last < now := past _ rfl
    simp only
    rw [if_neg (by omega), if_neg (by omega)]

theorem new_cases (kind : Kind) (stamped : ∀ p ∈ g, kind.Stamped p) (now : Int)
    (random : Option { r : ID // r.length = kind.entropy }) :
    (∃ id, kind.new g now random = (some (now, id), .ok id) ∧ kind.Stamped (now, id) ∧
      ∀ p ∈ g, kind.Follows p (now, id)) ∨
    ∃ e, kind.new g now random = (g, .error e) ∧ (e = .overflow ↔ kind.Full g now) := by
  by_cases range : now < kind.epoch ∨ now > kind.maximum
  · refine .inr ⟨.invalid, by rw [new.eq_def, if_pos range], by simp, ?_⟩
    rintro ⟨id, rfl, -⟩
    have low := (stamped _ rfl).low
    have high := (stamped _ rfl).high
    simp only at low high
    omega
  have low : kind.epoch ≤ now := by omega
  have high : now ≤ kind.maximum := by omega
  by_cases past : ∀ p ∈ g, p.1 < now
  · rw [kind.new_fresh low high past]
    rcases random with _ | ⟨r, length⟩
    · refine .inr ⟨_, rfl, by simp, ?_⟩
      rintro ⟨id, rfl, -⟩
      exact absurd (past _ rfl) (Int.lt_irrefl _)
    · exact .inl ⟨_, rfl, kind.stamped_put low high (kind.good_tail length),
        fun p mem => .inl (past p mem)⟩
  · rcases g with _ | ⟨last, id⟩
    · simp at past
    have stamp := stamped _ rfl
    have notPast : ¬ last < now := fun lt => past fun p mem => by rwa [← Option.some.inj mem]
    rw [new.eq_def, if_neg range]
    simp only
    by_cases back : now < last
    · refine .inr ⟨.clockRollback last now, by rw [if_pos back], by simp, ?_⟩
      rintro ⟨_, eq, -⟩
      cases eq
      exact absurd back (Int.lt_irrefl _)
    obtain rfl : now = last := by omega
    have spec := kind.next_spec stamp.good
    have old := stamp.good.field_lt
    rw [if_neg back, if_pos rfl]
    rcases counted : kind.next (id.drop kind.width) with ⟨tail, _ | _⟩ <;> rw [counted] at spec
    · refine .inr ⟨.overflow, rfl, ?_⟩
      simp only [Bool.false_eq_true, if_false] at spec old
      exact ⟨fun _ => ⟨id, rfl, by omega⟩, fun _ => rfl⟩
    · refine .inl ⟨_, rfl, ?_, ?_⟩
      · simp only [stamp.head]
        exact kind.stamped_put low high spec.1
      · rintro _ ⟨⟩
        refine .inr ⟨rfl, ?_⟩
        simp only [stamp.head, drop_left' (length_putBigEndian _ _)]
        simpa using spec.2

theorem run_spec (kind : Kind) (cs : List (Int × Option { r : ID // r.length = kind.entropy }))
    (stamped : ∀ p ∈ g, kind.Stamped p) :
    (g.toList ++ kind.run g cs).IsChain kind.Follows ∧ ∀ p ∈ kind.run g cs, kind.Stamped p := by
  induction cs generalizing g with
  | nil => cases g <;> simp [run]
  | cons call cs ih =>
    rcases kind.new_cases stamped call.1 call.2 with ⟨id, step, stamp, follows⟩ | ⟨e, step, -⟩
    · simp only [run, step]
      obtain ⟨chain, all⟩ := ih (g := some (call.1, id)) (by simpa using stamp)
      refine ⟨?_, forall_mem_cons.mpr ⟨stamp, all⟩⟩
      rcases g with _ | p
      · exact chain
      · exact isChain_cons_cons.mpr ⟨follows p rfl, chain⟩
    · simp only [run, step]
      exact ih stamped

theorem stamped_after (kind : Kind) (cs : List
      (Int × Option { r : ID // r.length = kind.entropy })) :
    ∀ p ∈ kind.after cs, kind.Stamped p := by
  induction cs using reverseRecOn with
  | nil => simp [after]
  | append_singleton cs call ih =>
    rw [after, foldl_append, foldl_cons, foldl_nil, ← after]
    rcases kind.new_cases ih call.1 call.2 with ⟨id, step, stamp, -⟩ | ⟨e, step, -⟩ <;> rw [step]
    · simpa using stamp
    · exact ih

end Kind

theorem generators_never_repeat (kind : Kind)
    (cs : List (Int × Option { r : ID // r.length = kind.entropy })) (now : Int)
    (random : Option { r : ID // r.length = kind.entropy }) :
    ((kind.run none cs).map Prod.snd).Pairwise (compareBytes · · = .lt) ∧
    (∀ p ∈ kind.run none cs, kind.timestamp p.2 = p.1 ∧ (kind = .uuidV7 →
      p.2[6]?.map (· >>> (4 : UInt8)) = some 7 ∧ p.2[8]?.map (· >>> (6 : UInt8)) = some 2)) ∧
    (kind.run none cs).IsChain (fun p q => p.1 = q.1 →
      kind.field (q.2.drop kind.width) = kind.field (p.2.drop kind.width) + 1) ∧
    ((kind.new (kind.after cs) now random).2 = .error .overflow ↔ kind.Full (kind.after cs) now) ∧
    ∀ e, (kind.new (kind.after cs) now random).2 = .error e →
      (kind.new (kind.after cs) now random).1 = kind.after cs := by
  obtain ⟨chain, stamped⟩ := kind.run_spec cs (g := none) (by simp)
  rw [Option.toList_none, nil_append] at chain
  refine ⟨?_, fun p mem => ⟨?_, ?_⟩, ?_, ?_⟩
  · have : IsTrans (Int × ID) (fun p q => p.2.length = q.2.length ∧ bigEndian p.2 <
      bigEndian q.2) :=
      ⟨fun p q r first second => ⟨first.1.trans second.1, first.2.trans second.2⟩⟩
    have order := chain.imp_of_mem_imp fun p q mem mem' => (stamped p mem).lt (stamped q mem')
    exact pairwise_map.mpr (order.pairwise.imp fun lt => compareBytes_lt lt.1 lt.2)
  · have low := (stamped p mem).low
    rw [Kind.timestamp, (stamped p mem).bigEndian_head]
    omega
  · rintro rfl
    obtain ⟨v, b, r, low, eq, -, version, variant⟩ := (stamped p mem).good
    have at6 := congrArg (·[0]?) eq
    have at8 := congrArg (·[2]?) eq
    simp only [Kind.width, getElem?_drop] at at6 at8
    simp [at6, at8, version, variant]
  · exact chain.imp fun p q follows eq => follows.elim (fun lt =>
      absurd eq (Int.ne_of_lt lt)) And.right
  · rcases kind.new_cases (kind.stamped_after cs) now random with
      ⟨id, step, stamp, follows⟩ | ⟨e, step, full⟩ <;> simp only [step]
    · refine ⟨⟨by simp, ?_⟩, by simp⟩
      rintro ⟨old, eq, ones⟩
      obtain lt | ⟨-, succ⟩ := follows _ eq
      · exact absurd lt (Int.lt_irrefl _)
      · have := stamp.good.field_lt
        simp only at succ this
        omega
    · exact ⟨by simpa using full, fun _ _ => trivial⟩

end Golib.Identifier
