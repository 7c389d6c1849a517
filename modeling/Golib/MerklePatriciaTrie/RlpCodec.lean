import Golib.Lib.Programs
import Golib.MerklePatriciaTrie.Rlp

/-! Encoding and decoding against one function from values to bytes: what `encode`
returns within its limits is that function, and `decode` inverts it. -/
namespace Golib.MerklePatriciaTrie.Rlp

open List Nat

variable {lim : Limits} {shortBase longBase : UInt8} {es : List Value} {v : Value}
  {enc : MerklePatriciaTrie.Bytes}

def frame (shortBase longBase : UInt8) (payload : Bytes) : Bytes :=
  if payload.length ≤ 55 then (shortBase + UInt8.ofNat payload.length) :: payload
  else
    (longBase + UInt8.ofNat (encodeLength payload.length).length) ::
      (encodeLength payload.length ++ payload)

mutual

def Value.bytes : Value → Bytes
  | .string bytes =>
    if bytes.length = 1 ∧ bytes.headD 0 < 0x80 then bytes else frame 0x80 0xb7 bytes
  | .list elements => frame 0xc0 0xf7 (Value.payload elements)

def Value.payload : List Value → Bytes
  | [] => []
  | child :: rest => child.bytes ++ Value.payload rest

end

mutual

def Value.items : Value → Nat
  | .string _ => 1
  | .list elements => Value.itemsIn elements + 1

def Value.itemsIn : List Value → Nat
  | [] => 0
  | child :: rest => child.items + Value.itemsIn rest

end

mutual

def Value.levels : Value → Nat
  | .string _ => 1
  | .list elements => Value.levelsIn elements + 1

def Value.levelsIn : List Value → Nat
  | [] => 0
  | child :: rest => max child.levels (Value.levelsIn rest)

end

structure Value.Fits (value : Value) (limits : Limits) : Prop where
  levels : value.levels ≤ limits.maxDepth + 1
  items : value.items ≤ limits.maxItems
  bytes : value.bytes.length ≤ limits.maxEncodedBytes

/-! ### Sizes -/

theorem length_lengthBytes (size length : Nat) : (lengthBytes size length).length ≤ size := by
  induction size generalizing length with
  | zero => rfl
  | succ size ih =>
    rw [lengthBytes]
    split
    · rw [length_append, length_singleton]
      exact succ_le_succ (ih _)
    · exact zero_le _

theorem length_frame (shortBase longBase : UInt8) (pl : Bytes) :
    pl.length + 1 ≤ (frame shortBase longBase pl).length ∧
      (frame shortBase longBase pl).length ≤ pl.length + 9 := by
  have digits : (encodeLength pl.length).length ≤ 8 := length_lengthBytes 8 _
  unfold frame
  split
  · simp
  · simp only [length_cons, length_append]
    omega

theorem element_le {element : Value} (mem : element ∈ es) :
    element.bytes.length ≤ (Value.payload es).length ∧
      element.items ≤ Value.itemsIn es ∧ element.levels ≤ Value.levelsIn es := by
  induction es with
  | nil => cases mem
  | cons first rest ih =>
    rw [Value.payload, Value.itemsIn, Value.levelsIn, length_append]
    rcases mem_cons.mp mem with rfl | later
    · omega
    · have := ih later
      omega

theorem Value.Fits.element {element : Value} (fits : (Value.list es).Fits lim)
    (mem : element ∈ es) : element.Fits lim := by
  have levels := fits.levels
  have xs := fits.items
  have bs := fits.bytes
  have framed := (length_frame 0xc0 0xf7 (Value.payload es)).1
  have sub := element_le mem
  rw [Value.levels] at levels
  rw [Value.items] at xs
  rw [Value.bytes] at bs
  exact ⟨by omega, by omega, by omega⟩

mutual

theorem items_le_bytes : ∀ v : Value, v.items ≤ v.bytes.length
  | .string bs => by
    rw [Value.items, Value.bytes]
    split
    · omega
    · exact le_trans (le_add_left 1 _) (length_frame _ _ _).1
  | .list es => by
    rw [Value.items, Value.bytes]
    exact le_trans (succ_le_succ (itemsIn_le_payload es)) (length_frame _ _ _).1

theorem itemsIn_le_payload : ∀ elements : List Value,
    Value.itemsIn elements ≤ (Value.payload elements).length
  | [] => le_refl 0
  | child :: rest => by
    rw [Value.itemsIn, Value.payload, length_append]
    exact Nat.add_le_add (items_le_bytes child) (itemsIn_le_payload rest)

end

theorem items_pos (v : Value) : 0 < v.items := by
  cases v with
  | string bs => exact Nat.one_pos
  | list es => exact succ_pos _

theorem length_bytes_pos (v : Value) : 0 < v.bytes.length :=
  lt_of_lt_of_le (items_pos v) (items_le_bytes v)

/-! ### Encoding -/

/-- The result where it is within the limits, and the error of a limit otherwise. -/
def Limited {α : Type} (within : Prop) (result : Except Err α) (a : α) : Prop :=
  (within ∧ result = .ok a) ∨ (¬ within ∧ ∃ fault, result = .error (.limit fault))

section

variable {α : Type} {P Q : Prop} {m : Except Err α} {a : α}

theorem Limited.congr (limited : Limited P m a) (eq : P ↔ Q) : Limited Q m a := by
  rwa [Limited, ← eq]

theorem Limited.bind {β : Type} {b : β} {f : α → Except Err β} (first : Limited P m a)
    (rest : P → Limited Q (f a) b) : Limited (P ∧ Q) (m >>= f) b := by
  rcases first with ⟨within, rfl⟩ | ⟨beyond, fault, rfl⟩
  · exact (rest within).congr ⟨fun within' => ⟨within, within'⟩, And.right⟩
  · exact Or.inr ⟨fun both => beyond both.1, fault, rfl⟩

theorem limited_guard {fault : Limit}
    {guard : Prop} [Decidable guard] (rest : ¬ guard → Limited Q m a) :
    Limited (¬ guard ∧ Q) (if guard then .error (.limit fault) else m) a := by
  by_cases beyond : guard
  · rw [if_pos beyond]
    exact Or.inr ⟨fun both => both.1 beyond, fault, rfl⟩
  · rw [if_neg beyond]
    exact (rest beyond).congr ⟨fun within => ⟨beyond, within⟩, And.right⟩

theorem limited_ok (a : α) : Limited True (.ok a) a := Or.inl ⟨trivial, rfl⟩

end

theorem prefixPayload_limited (shortBase longBase : UInt8) (pl : Bytes) (maximum : Nat) :
    Limited ((frame shortBase longBase pl).length ≤ maximum)
      (prefixPayload shortBase longBase pl maximum) (frame shortBase longBase pl) := by
  unfold prefixPayload frame
  split
  · refine Limited.congr (limited_guard fun _ => limited_ok _) ?_
    rw [and_true, length_cons]
    omega
  · refine Limited.congr (limited_guard fun _ => limited_ok _) ?_
    rw [and_true, length_cons, length_append]
    omega

mutual

theorem encode_limited (pos : 0 < lim.maxEncodedBytes) : ∀ (v : Value) (d xs : Nat),
    Limited (d + v.levels ≤ lim.maxDepth + 1 ∧ xs + v.items ≤ lim.maxItems ∧
      v.bytes.length ≤ lim.maxEncodedBytes)
      (encode lim v d xs) (v.bytes, xs + v.items)
  | .string bs, d, xs => by
    rw [encode, Value.bytes, Value.items, Value.levels]
    by_cases single : bs.length = 1 ∧ bs.headD 0 < 0x80
    · rw [if_pos single, if_pos single]
      refine Limited.congr (limited_guard fun _ => limited_guard fun _ => limited_ok _) ?_
      rw [and_true]
      omega
    · rw [if_neg single, if_neg single]
      refine Limited.congr (limited_guard fun _ => limited_guard fun _ =>
        (prefixPayload_limited 0x80 0xb7 bs _).bind fun _ => limited_ok _) ?_
      rw [and_true]
      omega
  | .list es, d, xs => by
    have tot : xs + (Value.itemsIn es + 1) = xs + 1 + Value.itemsIn es := by omega
    rw [encode, Value.bytes, Value.items, Value.levels, tot]
    have framed := (length_frame 0xc0 0xf7 (Value.payload es)).1
    refine Limited.congr (limited_guard fun shallow => limited_guard fun few =>
      (encodeElements_limited pos es (d + 1) (xs + 1) []
        (by simp only [length_nil]; omega)).bind fun _ =>
      (prefixPayload_limited 0xc0 0xf7 _ _).bind fun _ => limited_ok _) ?_
    rw [and_true, nil_append]
    omega

theorem encodeElements_limited (pos : 0 < lim.maxEncodedBytes) :
    ∀ (elements : List Value) (d items : Nat) (pl : Bytes),
      d ≤ lim.maxDepth + 1 ∧ items ≤ lim.maxItems ∧ pl.length < lim.maxEncodedBytes →
      Limited (d + Value.levelsIn elements ≤ lim.maxDepth + 1 ∧
        items + Value.itemsIn elements ≤ lim.maxItems ∧
        (pl ++ Value.payload elements).length < lim.maxEncodedBytes)
        (encodeElements lim elements d items pl)
        (pl ++ Value.payload elements, items + Value.itemsIn elements)
  | [], d, items, pl, within => by
    rw [Value.payload, append_nil]
    exact (limited_ok _).congr ⟨fun _ => within, fun _ => trivial⟩
  | child :: rest, d, items, pl, within => by
    rw [encodeElements, Value.payload, Value.itemsIn, Value.levelsIn, ← append_assoc, ← add_assoc]
    refine Limited.congr ((encode_limited pos child d items).bind fun first =>
      Limited.bind (limited_guard fun _ => limited_ok _) fun small =>
      encodeElements_limited pos rest d (items + child.items) (pl ++ child.bytes)
        (by rw [length_append]; omega)) ?_
    simp only [and_true, length_append]
    omega

end

theorem encodeValue_limited (v : Value) (lim : Limits) :
    Limited (v.Fits lim) (encodeValue v lim) v.bytes := by
  have size := length_bytes_pos v
  have some := items_pos v
  unfold encodeValue validateLimits
  refine Limited.congr (Limited.bind (limited_guard fun _ => limited_ok ()) fun valid =>
    (encode_limited (by omega) v 0 0).bind fun _ => limited_ok _) ?_
  rw [and_true, and_true]
  constructor
  · rintro ⟨-, levels, xs, bs⟩
    exact ⟨by omega, by omega, bs⟩
  · rintro ⟨levels, xs, bs⟩
    exact ⟨by omega, by omega, by omega, bs⟩

theorem encodeValue_ok (made : encodeValue v lim = .ok enc) : enc = v.bytes ∧ v.Fits lim := by
  rcases encodeValue_limited v lim with ⟨fits, eq⟩ | ⟨-, fault, eq⟩
  · exact ⟨Except.ok.inj (made.symm.trans eq), fits⟩
  · cases made.symm.trans eq

theorem encodeValue_bytes (fits : v.Fits lim) : encodeValue v lim = .ok v.bytes := by
  rcases encodeValue_limited v lim with ⟨-, eq⟩ | ⟨beyond, -⟩
  · exact eq
  · exact absurd fits beyond

/-! ### Lengths -/

variable {length count : Nat}

theorem lengthBytes_spec (size : Nat) (bound : length < 256 ^ size) :
    bigEndian (lengthBytes size length) = length ∧ ∀ b ∈
    (lengthBytes size length).head?, b ≠ 0 := by
  induction size generalizing length with
  | zero =>
    obtain rfl : length = 0 := by simpa using bound
    exact ⟨rfl, by simp [lengthBytes]⟩
  | succ size ih =>
    rw [lengthBytes]
    split
    · obtain ⟨v, lead⟩ := ih (show length / 256 < 256 ^ size by omega)
      refine ⟨by rw [bigEndian_append, v, UInt8.toNat_ofNat']; omega, ?_⟩
      cases shape : lengthBytes size (length / 256) with
      | cons first rest =>
        rw [shape] at lead
        exact lead
      | nil =>
        rw [shape] at v
        change 0 = length / 256 at v
        rintro b ⟨⟩ zero
        have low := congrArg UInt8.toNat zero
        rw [UInt8.toNat_ofNat', UInt8.toNat_zero] at low
        omega
    · obtain rfl : length = 0 := by omega
      exact ⟨rfl, by simp⟩

theorem lengthBytes_bigEndian {size : Nat} (bs : Bytes) (few : bs.length ≤ size)
    (leading : ∀ b ∈ bs.head?, b ≠ 0) : lengthBytes size (bigEndian bs) = bs := by
  induction bs using reverseRecOn generalizing size with
  | nil => cases size <;> rfl
  | append_singleton bs b ih =>
    rw [length_append, length_singleton] at few
    obtain ⟨size, rfl⟩ := Nat.exists_eq_add_of_le' (show 1 ≤ size by omega)
    have small := b.toNat_lt
    have high : (bigEndian bs * 256 + b.toNat) / 256 = bigEndian bs := by omega
    have low : UInt8.ofNat (bigEndian bs * 256 + b.toNat) = b := by
      apply UInt8.toNat_inj.mp
      rw [UInt8.toNat_ofNat']
      omega
    have leading' : ∀ c ∈ bs.head?, c ≠ 0 := by
      intro c mem
      apply leading
      rw [head?_append, Option.mem_def.mp mem]
      rfl
    have shorter : lengthBytes size (bigEndian bs) = bs := ih (by omega) leading'
    have pos : bigEndian bs * 256 + b.toNat > 0 := by
      cases bs with
      | nil =>
        have ne : b ≠ 0 := leading b rfl
        rw [ne_eq, ← UInt8.toNat_inj] at ne
        simp at ne
        omega
      | cons c rest =>
        have v : bigEndian (c :: rest) ≠ 0 := by
          intro zero
          rw [zero] at shorter
          cases size <;> simp [lengthBytes] at shorter
        omega
    rw [bigEndian_append, lengthBytes, if_pos pos, high, low, shorter]

theorem length_encodeLength (some : 0 < length) : 0 < (encodeLength length).length := by
  rw [encodeLength, lengthBytes, if_pos some, length_append]
  exact succ_pos _

theorem le_foldl_bytes (bs : Bytes) (n : Nat) : n ≤ bs.foldl (fun n b => n * 256 + b.toNat) n := by
  induction bs generalizing n with
  | nil => exact le_refl n
  | cons b bs ih =>
    have := ih (n * 256 + b.toNat)
    simp only [foldl_cons]
    omega

theorem accumulateLength_ok {start : Nat} {bs : MerklePatriciaTrie.Bytes}
    (small : start ≤ maximumInt) :
    accumulateLength bs start = .ok length ↔
      bs.foldl (fun n b => n * 256 + b.toNat) start = length ∧ length ≤ maximumInt := by
  induction bs generalizing start with
  | nil =>
    rw [accumulateLength, Except.ok.injEq]
    exact ⟨fun eq => ⟨eq, eq ▸ small⟩, And.left⟩
  | cons b bs ih =>
    have grows := le_foldl_bytes bs (start * 256 + b.toNat)
    have byte : b.toNat ≤ maximumInt := le_trans (le_of_lt b.toNat_lt) (by decide)
    rw [accumulateLength, foldl_cons]
    split
    · refine ⟨fun read => (by cases read), ?_⟩
      omega
    · exact ih (by omega)

variable {tail : Bytes} {first : UInt8} {pl : MerklePatriciaTrie.Bytes} {o n : Nat}

theorem longPayloadLength_ok (few : count ≤ 8) :
    longPayloadLength (first :: tail) count = .ok (length, o) ↔
      (0 < length ∧ length ≤ maximumInt) ∧ (encodeLength length).length = count ∧ o = 1 + count ∧
        ∃ rest, tail = encodeLength length ++ rest := by
  unfold longPayloadLength
  dsimp only
  constructor
  · intro read
    split at read
    · cases read
    rename_i within
    rw [length_cons] at within
    split at read
    · cases read
    rename_i ne
    obtain ⟨v, accumulated, read⟩ := except_bind_ok.mp read
    cases read
    obtain ⟨read, small⟩ := (accumulateLength_ok (zero_le _)).mp accumulated
    have size : (tail.take count).length = count := by
      rw [length_take]
      omega
    have leading : ∀ b ∈ (tail.take count).head?, b ≠ 0 := by
      intro b mem zero
      cases tail with
      | nil => simp at mem
      | cons c rest =>
        rw [head?_take, if_neg (by omega)] at mem
        cases mem
        exact ne zero
    have written : encodeLength length = tail.take count := by
      rw [← read]
      exact lengthBytes_bigEndian (tail.take count) (by omega) leading
    refine ⟨⟨Nat.pos_of_ne_zero ?_, small⟩, written ▸ size, rfl, tail.drop count, ?_⟩
    · rintro rfl
      rw [← written] at size
      exact within (Or.inl size.symm)
    · rw [written, take_append_drop]
  · rintro ⟨⟨some, small⟩, rfl, rfl, rest, rfl⟩
    have bound : length < 256 ^ 8 := by
      unfold maximumInt at small
      omega
    obtain ⟨v, lead⟩ : bigEndian (encodeLength length) = length ∧
        ∀ b ∈ (encodeLength length).head?, b ≠ 0 := lengthBytes_spec 8 bound
    have width := length_encodeLength some
    rw [if_neg, if_neg, drop_one, tail_cons, take_left,
      (accumulateLength_ok (zero_le _)).mpr ⟨v, small⟩]
    · rfl
    · cases shape : encodeLength length with
      | nil => simp [shape] at width
      | cons digit digits => exact lead digit (by rw [shape]; rfl)
    · rw [length_cons, length_append]
      omega

theorem stringPayload_ok : stringPayload enc o length = .ok pl ↔
    pl.length = length ∧ ∃ before rest, enc = before ++ (pl ++ rest) ∧ before.length = o := by
  unfold stringPayload
  constructor
  · intro read
    split at read
    · cases read
    · cases read
      refine ⟨by rw [length_take, length_drop]; omega, enc.take o,
        (enc.drop o).drop length, ?_, by rw [length_take]; omega⟩
      rw [take_append_drop, take_append_drop]
  · rintro ⟨rfl, before, rest, rfl, rfl⟩
    rw [if_neg, drop_left, take_left]
    simp only [length_append]
    omega

/-! ### Frames -/

/-- The payload of the frame at the front of the input, and the size of the frame: what the
decoder does for strings and for lists alike. -/
def readFrame (shortBase longBase : UInt8) (fault : NonCanonical) (first : UInt8)
    (encoded : Bytes) :
    Except Err (Bytes × Nat) :=
  if first ≤ longBase then do
    let payload ← stringPayload encoded 1 (first - shortBase).toNat
    .ok (payload, 1 + (first - shortBase).toNat)
  else do
    let (length, offset) ← longPayloadLength encoded (first - longBase).toNat
    if length < 56 then .error (.nonCanonical fault)
    else do
      let payload ← stringPayload encoded offset length
      .ok (payload, offset + length)

theorem toNat_base_add (base : UInt8) (small : base.toNat + n < 256) :
    (base + UInt8.ofNat n).toNat = base.toNat + n := by
  rw [UInt8.toNat_add, UInt8.toNat_ofNat']
  omega

theorem toNat_sub_base (base : UInt8) (small : n < 256) :
    (base + UInt8.ofNat n - base).toNat = n := by
  rw [UInt8.add_comm, UInt8.add_sub_cancel, UInt8.toNat_ofNat']
  omega

theorem ofNat_sub_base {base : UInt8} : base + UInt8.ofNat (first - base).toNat = first := by
  rw [UInt8.ofNat_toNat, UInt8.add_comm, UInt8.sub_add_cancel]

theorem readFrame_ok {fault : NonCanonical} {consumed : Nat}
    (bases : shortBase.toNat + 55 = longBase.toNat)
    (low : shortBase.toNat ≤ first.toNat) (high : first.toNat ≤ longBase.toNat + 8)
    (read : readFrame shortBase longBase fault first (first :: tail) = .ok (pl, consumed)) :
    (∃ rest, first :: tail = frame shortBase longBase pl ++ rest) ∧
      consumed = (frame shortBase longBase pl).length := by
  unfold readFrame at read
  unfold frame
  split at read
  · rename_i short
    rw [UInt8.le_iff_toNat_le] at short
    have few := UInt8.toNat_sub_of_le _ _ (UInt8.le_iff_toNat_le.mpr low)
    obtain ⟨_, sliced, made⟩ := except_bind_ok.mp read
    cases made
    obtain ⟨size, before, rest, whole, one⟩ := stringPayload_ok.mp sliced
    obtain ⟨b, rfl⟩ := length_eq_one_iff.mp one
    cases whole
    rw [if_pos (by omega), size, ofNat_sub_base]
    exact ⟨⟨rest, rfl⟩, by rw [length_cons]; omega⟩
  · rename_i long
    rw [UInt8.le_iff_toNat_le, not_le] at long
    have few := UInt8.toNat_sub_of_le _ _ (UInt8.le_iff_toNat_le.mpr (le_of_lt long))
    obtain ⟨⟨length, o⟩, announced, made⟩ := except_bind_ok.mp read
    dsimp only at made
    split at made
    · cases made
    obtain ⟨_, sliced, made⟩ := except_bind_ok.mp made
    cases made
    obtain ⟨-, width, rfl, digits, rfl⟩ := (longPayloadLength_ok (by omega)).mp announced
    obtain ⟨size, before, rest, whole, lead⟩ := stringPayload_ok.mp sliced
    rw [← cons_append] at whole
    obtain ⟨rfl, rfl⟩ := append_inj whole (by rw [length_cons]; omega)
    rw [if_neg (by omega), size, width, ofNat_sub_base]
    refine ⟨⟨rest, by rw [cons_append, append_assoc]⟩, ?_⟩
    rw [length_cons, length_append]
    omega

theorem readFrame_frame (fault : NonCanonical) (bases : shortBase.toNat + 55 = longBase.toNat)
    (wide : longBase.toNat + 8 < 256) (small : pl.length ≤ maximumInt) :
    ∃ first tail, frame shortBase longBase pl = first :: tail ∧
      shortBase.toNat ≤ first.toNat ∧ first.toNat ≤ longBase.toNat + 8 ∧
      ∀ rest, readFrame shortBase longBase fault first (first :: (tail ++ rest)) =
        .ok (pl, (frame shortBase longBase pl).length) := by
  unfold frame readFrame
  split
  · rename_i short
    have first := toNat_base_add shortBase (n := pl.length) (by omega)
    refine ⟨_, _, rfl, by omega, by omega, fun rest => ?_⟩
    rw [if_pos (by rw [UInt8.le_iff_toNat_le]; omega), toNat_sub_base shortBase (by omega)]
    refine except_bind_ok.mpr ⟨pl, stringPayload_ok.mpr ⟨rfl, [_], rest, rfl, rfl⟩, ?_⟩
    rw [length_cons, add_comm]
  · rename_i long
    have few := length_lengthBytes 8 pl.length
    have some := @length_encodeLength pl.length (by omega)
    rw [← encodeLength] at few
    have first := toNat_base_add longBase (n := (encodeLength pl.length).length) (by omega)
    refine ⟨_, _, rfl, by omega, by omega, fun rest => ?_⟩
    rw [if_neg (by rw [UInt8.le_iff_toNat_le]; omega), toNat_sub_base longBase (by omega),
      append_assoc]
    refine except_bind_ok.mpr
      ⟨_, (longPayloadLength_ok few).mpr ⟨⟨by omega, small⟩, rfl, rfl, _, rfl⟩, ?_⟩
    dsimp only
    rw [if_neg (by omega)]
    refine except_bind_ok.mpr ⟨pl, stringPayload_ok.mpr ⟨rfl, _ :: encodeLength pl.length,
      rest, rfl, by rw [length_cons, add_comm]⟩, ?_⟩
    simp only [length_cons, length_append, Except.ok.injEq, Prod.mk.injEq, true_and]
    omega

end Golib.MerklePatriciaTrie.Rlp
