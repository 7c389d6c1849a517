import Golib.MerklePatriciaTrie.RlpCodec

/-! Decoding accepts canonical encodings only: the bytes it consumes are the encoding
of the value it returns, so that encoding and decoding are inverse to each other. -/
namespace Golib.MerklePatriciaTrie.Rlp

open List Nat

variable {lim : Limits} {levels consumed items' xs : Nat} {v : Value}
  {enc : MerklePatriciaTrie.Bytes}

/-- The input up to its first byte: `decode` branches on that byte, and reads the frames of strings
and of lists in one way. -/
theorem decode_cons (lim : Limits) (levels : Nat) (first : UInt8) (rest : Bytes)
    (few : xs < lim.maxItems) :
    decode lim (levels + 1) (first :: rest) xs =
      if first ≤ 0x7f then .ok (.string [first], 1, xs + 1)
      else if first ≤ 0xbf then do
        let (pl, consumed) ← readFrame 0x80 0xb7 .longString first (first :: rest)
        if pl.length = 1 ∧ pl.headD 0 < 0x80 then .error (.nonCanonical .overlongByte)
        else .ok (.string pl, consumed, xs + 1)
      else (do
        let (pl, consumed) ← readFrame 0xc0 0xf7 .longList first (first :: rest)
        let (values, xs) ← decodeElements (decode lim levels) pl.length pl (xs + 1)
        .ok (.list values, consumed, xs)) := by
  rw [decode, if_neg (by omega)]
  dsimp only
  unfold readFrame
  split
  · rfl
  rename_i past7f
  by_cases short : first ≤ 0xb7
  · have length : first.toNat - 128 = (first - 0x80).toNat := by
      rw [UInt8.le_iff_toNat_le] at past7f
      rw [UInt8.toNat_sub_of_le _ _ (by rw [UInt8.le_iff_toNat_le]; simp at past7f ⊢; omega)]
      rfl
    rw [if_pos short, if_pos (UInt8.le_trans short (by decide)), if_pos short, length]
    cases read : stringPayload (first :: rest) 1 (first - 0x80).toNat with
    | error e => rfl
    | ok pl =>
      rw [← (stringPayload_ok.mp read).1]
      rfl
  rw [if_neg short, if_neg short]
  split
  · cases longPayloadLength (first :: rest) (first - 0xb7).toNat with
    | error e => rfl
    | ok header =>
      obtain ⟨length, o⟩ := header
      simp only [bind, Except.bind]
      split
      · rfl
      cases read : stringPayload (first :: rest) o length with
      | error e => rfl
      | ok pl =>
        have size := (stringPayload_ok.mp read).1
        dsimp only
        rw [if_neg (by omega)]
  unfold decodeList
  split
  · cases stringPayload (first :: rest) 1 (first - 0xc0).toNat <;> rfl
  cases longPayloadLength (first :: rest) (first - 0xf7).toNat with
  | error e => rfl
  | ok header =>
    obtain ⟨length, o⟩ := header
    simp only [bind, Except.bind]
    split
    · rfl
    cases stringPayload (first :: rest) o length <;> rfl

/-! ### What is decoded -/

/-- What a reader of one value guarantees: the value stands at the front of the input,
within the levels and the items that were left. -/
structure Read (limits : Limits) (levels : Nat) (encoded : Bytes) (items : Nat) (value : Value)
    (consumed items' : Nat) : Prop where
  front : ∃ rest, encoded = value.bytes ++ rest
  consumed : consumed = value.bytes.length
  levels : value.levels ≤ levels
  counted : items' = items + value.items
  few : items' ≤ limits.maxItems

theorem decodeElements_ok {fuel : Nat} {pl : MerklePatriciaTrie.Bytes} {values : List Value}
    {element : Bytes → Nat → Except Err (Value × Nat × Nat)}
    (reads : ∀ {enc xs v consumed items'}, element enc xs = .ok (v, consumed, items') →
      Read lim levels enc xs v consumed items')
    (few : xs ≤ lim.maxItems)
    (read : decodeElements element fuel pl xs = .ok (values, items')) :
    pl = Value.payload values ∧ Value.levelsIn values ≤ levels ∧
      items' = xs + Value.itemsIn values ∧ items' ≤ lim.maxItems := by
  induction fuel, pl, xs using decodeElements.induct generalizing values items' with
  | case1 =>
    rw [decodeElements] at read
    cases read
    exact ⟨rfl, zero_le _, rfl, few⟩
  | case2 => cases read
  | case3 fuel first pl xs ih =>
    obtain ⟨⟨v, consumed, seen⟩, head, read⟩ := except_bind_ok.mp read
    obtain ⟨⟨others, tot⟩, tail, read⟩ := except_bind_ok.mp read
    cases read
    obtain ⟨⟨rest, front⟩, rfl, nested, counted, few'⟩ := reads head
    obtain ⟨tail', nested', counted', few''⟩ := ih _ _ few' tail
    rw [front, drop_left] at tail'
    refine ⟨?_, ?_, ?_, few''⟩
    · rw [front, tail', Value.payload]
    · rw [Value.levelsIn]
      omega
    · rw [Value.itemsIn]
      omega

theorem decode_ok (read : decode lim levels enc xs = .ok (v, consumed, items')) :
    Read lim levels enc xs v consumed items' := by
  induction levels generalizing enc xs v consumed items' with
  | zero => cases read
  | succ levels ih =>
    by_cases few : xs < lim.maxItems
    swap
    · unfold decode at read
      rw [if_pos (by omega)] at read
      cases read
    cases enc with
    | nil =>
      unfold decode at read
      rw [if_neg (by omega)] at read
      cases read
    | cons first tail =>
      rw [decode_cons lim levels first tail few] at read
      have byte := first.toNat_lt
      split at read
      · rename_i low
        cases read
        have single : [first].length = 1 ∧ [first].headD 0 < 0x80 := by
          rw [UInt8.le_iff_toNat_le] at low
          rw [headD_cons, UInt8.lt_iff_toNat_lt]
          simp at low ⊢
          omega
        refine ⟨⟨tail, ?_⟩, ?_, by rw [Value.levels]; omega, by rw [Value.items], few⟩
        · rw [Value.bytes, if_pos single, singleton_append]
        · rw [Value.bytes, if_pos single, length_singleton]
      rename_i past7f
      rw [UInt8.le_iff_toNat_le] at past7f
      simp only [UInt8.reduceToNat] at past7f
      split at read
      · rename_i upto
        rw [UInt8.le_iff_toNat_le] at upto
        obtain ⟨⟨pl, size⟩, framed, read⟩ := except_bind_ok.mp read
        dsimp only at read
        split at read
        · cases read
        rename_i canon
        cases read
        obtain ⟨front, size⟩ := readFrame_ok rfl (show 128 ≤ _ by omega) upto framed
        refine ⟨?_, ?_, by rw [Value.levels]; omega, by rw [Value.items], few⟩
        · rw [Value.bytes, if_neg canon]
          exact front
        · rw [Value.bytes, if_neg canon]
          exact size
      · rename_i pastbf
        rw [UInt8.le_iff_toNat_le] at pastbf
        simp only [UInt8.reduceToNat] at pastbf
        obtain ⟨⟨pl, size⟩, framed, read⟩ := except_bind_ok.mp read
        obtain ⟨⟨values, tot⟩, inner, read⟩ := except_bind_ok.mp read
        cases read
        obtain ⟨rfl, nested, counted, bounded⟩ := decodeElements_ok ih few inner
        obtain ⟨front, size⟩ := readFrame_ok rfl (show 192 ≤ _ by omega)
          (show _ ≤ 255 by omega) framed
        refine ⟨?_, ?_, by rw [Value.levels]; omega, by rw [Value.items]; omega, bounded⟩
        · exact front
        · exact size

theorem decodeValue_ok (read : decodeValue enc lim = .ok v) : enc = v.bytes ∧ v.Fits lim := by
  obtain ⟨_, -, read⟩ := except_bind_ok.mp read
  split at read
  · cases read
  split at read
  · cases read
  rename_i small
  obtain ⟨⟨value', consumed, seen⟩, inner, read⟩ := except_bind_ok.mp read
  dsimp only at read
  split at read
  · cases read
  rename_i whole
  cases read
  obtain ⟨⟨rest, front⟩, size, nested, counted, few⟩ := decode_ok inner
  have none : rest = [] := by
    have tot := congrArg length front
    rw [length_append] at tot
    exact length_eq_zero_iff.mp (by omega)
  rw [none, append_nil] at front
  refine ⟨front, nested, by omega, ?_⟩
  omega

/-! ### What is decoded from an encoding -/

mutual

theorem decode_bytes :
    ∀ {v : Value} {levels xs : Nat} (rest : Bytes), v.levels ≤ levels →
      xs + v.items ≤ lim.maxItems → v.bytes.length ≤ maximumInt →
        decode lim levels (v.bytes ++ rest) xs = .ok (v, v.bytes.length, xs + v.items)
  | .string bs, levels, xs, rest, nested, few, small => by
    rw [Value.levels] at nested
    rw [Value.items] at few ⊢
    obtain ⟨levels, rfl⟩ := Nat.exists_eq_add_of_le' nested
    by_cases single : bs.length = 1 ∧ bs.headD 0 < 0x80
    · rw [Value.bytes, if_pos single]
      obtain ⟨b, rfl⟩ := length_eq_one_iff.mp single.1
      have low : b < 0x80 := single.2
      rw [singleton_append, decode_cons _ _ _ _ (by omega), if_pos]
      · rfl
      · rw [UInt8.le_iff_toNat_le]
        rw [UInt8.lt_iff_toNat_lt] at low
        simp at low ⊢
        omega
    · rw [Value.bytes, if_neg single] at small ⊢
      have framed := (length_frame 0x80 0xb7 bs).1
      obtain ⟨first, tail, shape, low, high, read⟩ :=
        readFrame_frame .longString (show (0x80 : UInt8).toNat + 55 = (0xb7 : UInt8).toNat from rfl)
          (by decide) (show bs.length ≤ maximumInt by omega)
      rw [shape, cons_append, decode_cons _ _ _ _ (by omega), if_neg, if_pos, read rest, shape]
      · simp only [bind, Except.bind]
        rw [if_neg single]
      all_goals
        rw [UInt8.le_iff_toNat_le]
        simp only [UInt8.reduceToNat] at low high ⊢
        omega
  | .list es, levels, xs, rest, nested, few, small => by
    rw [Value.levels] at nested
    rw [Value.items] at few ⊢
    rw [Value.bytes] at small ⊢
    obtain ⟨levels, rfl⟩ := Nat.exists_eq_add_of_le' (Nat.le_trans (Nat.le_add_left 1 _) nested)
    have framed := (length_frame 0xc0 0xf7 (Value.payload es)).1
    have inner : decodeElements (decode lim levels) (Value.payload es).length
        (Value.payload es) (xs + 1) = .ok (es, xs + 1 + Value.itemsIn es) :=
      decodeElements_bytes (by omega) (by omega) (by omega) (le_refl _)
    obtain ⟨first, tail, shape, low, high, read⟩ :=
      readFrame_frame .longList (show (0xc0 : UInt8).toNat + 55 = (0xf7 : UInt8).toNat from rfl)
        (by decide) (show (Value.payload es).length ≤ maximumInt by omega)
    rw [shape, cons_append, decode_cons _ _ _ _ (by omega), if_neg, if_neg, read rest, shape]
    · simp only [bind, Except.bind, inner, Except.ok.injEq, Prod.mk.injEq, true_and]
      omega
    all_goals
      rw [UInt8.le_iff_toNat_le]
      simp only [UInt8.reduceToNat] at low high ⊢
      omega

theorem decodeElements_bytes :
    ∀ {elements : List Value} {levels items fuel : Nat}, Value.levelsIn elements ≤ levels →
      items + Value.itemsIn elements ≤ lim.maxItems →
      (Value.payload elements).length ≤ maximumInt → (Value.payload elements).length ≤ fuel →
        decodeElements (decode lim levels) fuel (Value.payload elements) items =
          .ok (elements, items + Value.itemsIn elements)
  | [], levels, items, fuel, nested, few, small, enough => by
    cases fuel <;> rfl
  | child :: rest, levels, items, fuel, nested, few, small, enough => by
    rw [Value.levelsIn] at nested
    rw [Value.itemsIn] at few ⊢
    rw [Value.payload, length_append] at small enough
    rw [Value.payload]
    have some := length_bytes_pos child
    obtain ⟨fuel, rfl⟩ := Nat.exists_eq_add_of_le' (show 1 ≤ fuel by omega)
    have first : decode lim levels (child.bytes ++ Value.payload rest) items =
        .ok (child, child.bytes.length, items + child.items) :=
      decode_bytes (Value.payload rest) (by omega) (by omega) (by omega)
    have others : decodeElements (decode lim levels) fuel (Value.payload rest)
        (items + child.items) = .ok (rest, items + child.items + Value.itemsIn rest) :=
      decodeElements_bytes (by omega) (by omega) (by omega) (by omega)
    obtain ⟨b, bs, shape⟩ := exists_cons_of_length_pos
      (show 0 < (child.bytes ++ Value.payload rest).length by rw [length_append]; omega)
    rw [shape] at first ⊢
    rw [decodeElements, first, ← shape]
    simp only [bind, Except.bind, drop_left, others, Except.ok.injEq, Prod.mk.injEq, true_and]
    omega

end

theorem decodeValue_bytes (fits : v.Fits lim) (int : lim.maxEncodedBytes ≤ maximumInt) :
    decodeValue v.bytes lim = .ok v := by
  have size := length_bytes_pos v
  have some := items_pos v
  have few := fits.items
  have small := fits.bytes
  have whole : decode lim (lim.maxDepth + 1) (v.bytes ++ []) 0 =
      .ok (v, v.bytes.length, 0 + v.items) :=
    decode_bytes [] fits.levels (by omega) (le_trans fits.bytes int)
  rw [append_nil] at whole
  unfold decodeValue validateLimits
  rw [if_neg (by omega)]
  simp only [bind, Except.bind]
  rw [if_neg (by omega), if_neg (by omega), whole]
  simp

/-- Encoding and decoding invert each other, under the same limits. -/
theorem encode_decode_inverse {limits : Limits} (int : limits.maxEncodedBytes ≤ maximumInt) :
    (∀ value encoded, encodeValue value limits = .ok encoded →
      decodeValue encoded limits = .ok value) ∧
    (∀ encoded value, decodeValue encoded limits = .ok value →
      encodeValue value limits = .ok encoded) := by
  refine ⟨?_, ?_⟩
  · intro value encoded made
    obtain ⟨rfl, fits⟩ := encodeValue_ok made
    exact decodeValue_bytes fits int
  · intro encoded value read
    obtain ⟨rfl, fits⟩ := decodeValue_ok read
    exact encodeValue_bytes fits

/-- The string of one byte 0x80 in a list, under the default limits. -/
theorem encode_decode_inverse_nested :
    decodeValue [0xc2, 0x81, 0x80] defaultLimits = .ok (.list [.string [0x80]]) :=
  (encode_decode_inverse (by decide)).1 _ _ rfl

end Golib.MerklePatriciaTrie.Rlp
