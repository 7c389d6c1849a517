import Mathlib.Algebra.Ring.Nat
import Mathlib.Data.List.Induction

/-! Byte strings: digests of 32 bytes and big-endian words. -/
namespace Golib

open List

structure Bytes32 where
  bytes : List UInt8
  size : bytes.length = 32
  deriving DecidableEq

/-- The bytes of a digest, when there are exactly 32. -/
def Bytes32.ofList (bytes : List UInt8) : Option Bytes32 :=
  if h : bytes.length = 32 then some ⟨bytes, h⟩ else none

@[simp] theorem Bytes32.ofList_bytes (b : Bytes32) : Bytes32.ofList b.bytes = some b := by
  simp [Bytes32.ofList, b.size]

theorem Bytes32.ofList_eq_some {b : Bytes32}
    {bs : List UInt8} : Bytes32.ofList bs = some b ↔ bs = b.bytes := by
  constructor
  · intro h
    unfold Bytes32.ofList at h
    split at h
    · rw [← Option.some.inj h]
    · cases h
  · rintro rfl
    exact Bytes32.ofList_bytes b

theorem forall_byte {P : UInt8 → Prop} (all : ∀ n : Fin 256, P (UInt8.ofNat n.val)) (b : UInt8) :
    P b := by
  have one := all ⟨b.toNat, b.toNat_lt⟩
  rwa [UInt8.ofNat_toNat] at one

theorem drop_eq_append_iff {width o : Nat} {field rest : List UInt8}
    {data : List UInt8} (size : field.length = width) :
    data.drop o = field ++ rest ↔
      (data.drop o).take width = field ∧ data.drop (o + width) = rest := by
  constructor
  · intro h
    rw [← drop_drop, h, take_left' size, drop_left' size]
    exact ⟨rfl, rfl⟩
  · rintro ⟨first, rfl⟩
    rw [← first, ← drop_drop, take_append_drop]

/-- The `width` low-order bytes of a number, most significant first. -/
def putBigEndian : Nat → Nat → List UInt8
  | 0, _ => []
  | width + 1, n => putBigEndian width (n / 256) ++ [UInt8.ofNat n]

/-- The number a byte string writes, most significant byte first. -/
def bigEndian (bytes : List UInt8) : Nat := bytes.foldl (fun n b => n * 256 + b.toNat) 0

@[simp] theorem length_putBigEndian (width n : Nat) : (putBigEndian width n).length = width := by
  induction width generalizing n with
  | zero => rfl
  | succ width ih => simp [putBigEndian, ih]

/-- The bytes of a number of 256 bits, as digests are written. -/
def Bytes32.ofNat (n : Nat) : Bytes32 := ⟨putBigEndian 32 n, length_putBigEndian 32 n⟩

theorem bigEndian_append (bs : List UInt8) (b : UInt8) :
    bigEndian (bs ++ [b]) = bigEndian bs * 256 + b.toNat := by
  simp [bigEndian]

theorem bigEndian_put (width n : Nat) (bound : n < 256 ^ width) :
    bigEndian (putBigEndian width n) = n := by
  induction width generalizing n with
  | zero =>
    have zero : n = 0 := by simpa using bound
    simp [putBigEndian, bigEndian, zero]
  | succ width ih =>
    rw [putBigEndian, bigEndian_append, ih (n / 256) (by omega), UInt8.toNat_ofNat']
    omega

theorem bigEndian_lt (bs : List UInt8) : bigEndian bs < 256 ^ bs.length := by
  induction bs using reverseRecOn with
  | nil => simp [bigEndian]
  | append_singleton bs b ih =>
    rw [bigEndian_append, length_append, length_singleton, Nat.pow_succ]
    have := b.toNat_lt
    omega

theorem put_bigEndian (bs : List UInt8) : putBigEndian bs.length (bigEndian bs) = bs := by
  induction bs using reverseRecOn with
  | nil => rfl
  | append_singleton bs b ih =>
    have small := b.toNat_lt
    have high : (bigEndian bs * 256 + b.toNat) / 256 = bigEndian bs := by omega
    have low : UInt8.ofNat (bigEndian bs * 256 + b.toNat) = b := by
      apply UInt8.toNat_inj.mp
      rw [UInt8.toNat_ofNat']
      omega
    rw [length_append, length_singleton, putBigEndian, bigEndian_append, high, low, ih]

def putUint64 (x : UInt64) : List UInt8 := putBigEndian 8 x.toNat

def uint64 (bytes : List UInt8) : UInt64 := UInt64.ofNat (bigEndian bytes)

@[simp] theorem length_putUint64 (x : UInt64) : (putUint64 x).length = 8 := length_putBigEndian 8 _

@[simp] theorem uint64_put (x : UInt64) : uint64 (putUint64 x) = x := by
  rw [uint64, putUint64, bigEndian_put 8 x.toNat x.toNat_lt]
  simp

theorem put_uint64 {bs : List UInt8} (eight : bs.length = 8) : putUint64 (uint64 bs) = bs := by
  have bound : bigEndian bs < 2 ^ 64 := by
    have h := bigEndian_lt bs
    rw [eight] at h
    exact h
  have v : (uint64 bs).toNat = bigEndian bs := by
    exact Nat.mod_eq_of_lt bound
  rw [putUint64, v, ← eight]
  exact put_bigEndian bs

end Golib
