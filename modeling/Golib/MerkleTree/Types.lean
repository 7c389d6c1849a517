import Mathlib.Algebra.Ring.Nat
import Golib.Lib.Polled

/-! Values of the Merkle package: errors, profiles, digests, roots and limits.
The digest type and the hash functions are parameters; the package's own are
32 bytes and SHA-256. Every `uint64` is a `UInt64`. -/
namespace Golib.MerkleTree

variable {α : Type}

abbrev Bytes := List UInt8

inductive ResourceKind where
  | leaves | leafBytes | totalBytes | proofElements | traversalDepth
  | retainedNodes | encodedBytes | nodeReads | temporaryBytes
  deriving DecidableEq, Repr

inductive ContextError where
  | canceled | deadlineExceeded
  deriving DecidableEq, Repr

/- `outOfRange` stands for the run-time panic of an index outside a slice. It is no
error value of the package: a result that is `outOfRange` is a crash. -/
inductive Err where
  | unsupportedProfile | unsupportedAlgorithm | invalidLimits | invalidContext
  | invalidSnapshot | invalidBuilder | invalidRootBuilder | malformedEncoding
  | unsupportedEncodingVersion | snapshotAccountingMismatch | invalidTreeSize
  | incompatibleRoot | indexOutOfRange | invalidLeafIndexes | malformedProof
  | verificationFailed
  | resource (kind : ResourceKind) (limit actual : UInt64)
  | context (cause : ContextError)
  | outOfRange
  deriving DecidableEq, Repr

/-- `none` is the nil context; otherwise the answers of the successive `ctx.Err()` calls. -/
abbrev Context := Option (Nat → Option ContextError)

def Context.background : Context := some (fun _ => none)

/-- What a call returns under a context. Every entry point rejects nil first. -/
def Context.run {α : Type} (ctx : Context) (m : Polled Err α) : Except Err α :=
  match ctx with
  | none => .error .invalidContext
  | some answers => m.run (fun n => (answers n).map Err.context)

@[simp] theorem Context.run_background (m : Polled Err α) : Context.background.run m = m.outcome :=
  Polled.run_silent (fun _ => rfl) m

theorem Context.run_ok {m : Polled Err α} {a : α}
    {ctx : Context} (h : ctx.run m = .ok a) : m.outcome = .ok a := by
  cases ctx with
  | none => cases h
  | some answers => exact Polled.run_ok h

theorem Context.run_cases (ctx : Context) (m : Polled Err α) :
    ctx.run m = m.outcome ∨ ctx.run m = .error .invalidContext ∨
      ∃ cause, ctx.run m = .error (.context cause) := by
  cases ctx with
  | none => exact Or.inr (Or.inl rfl)
  | some answers =>
    rcases Polled.run_cases (fun n => (answers n).map Err.context) m with h | ⟨i, e, hi, h⟩
    · exact Or.inl h
    · obtain ⟨cause, _, rfl⟩ := Option.map_eq_some_iff.mp hi
      exact Or.inr (Or.inr ⟨cause, h⟩)

structure RawLeaf where
  value : Bytes
  deriving DecidableEq, Repr

def profileCanonicalBinary : UInt8 := 1
def profileRFC9162 : UInt8 := 2
def hashSHA256 : UInt8 := 1

structure Profile where
  id : UInt8
  version : UInt16
  algorithm : UInt8
  deriving DecidableEq, Repr

def canonicalProfile : Profile := ⟨profileCanonicalBinary, 1, hashSHA256⟩

def rfc9162Profile (algorithm : UInt8) : Except Err Profile :=
  if algorithm ≠ hashSHA256 then .error .unsupportedAlgorithm
  else .ok ⟨profileRFC9162, 1, algorithm⟩

def Profile.validate (profile : Profile) : Except Err Unit :=
  if profile.id = profileCanonicalBinary then
    if profile = canonicalProfile then .ok () else .error .unsupportedProfile
  else if profile.id = profileRFC9162 then
    match rfc9162Profile profile.algorithm with
    | .ok rfc => if profile = rfc then .ok () else .error .unsupportedProfile
    | .error _ => .error .unsupportedProfile
  else .error .unsupportedProfile

theorem Profile.algorithm_eq {pr : Profile} (known : pr.validate = .ok ()) :
    pr.algorithm = hashSHA256 := by
  unfold Profile.validate rfc9162Profile at known
  split at known
  · split at known
    · rename_i eq
      rw [eq]
      rfl
    · cases known
  · by_cases sha : pr.algorithm = hashSHA256
    · exact sha
    · simp [sha] at known

structure Digest (D : Type) where
  algorithm : UInt8
  value : D
  deriving DecidableEq, Repr

structure Root (D : Type) where
  profileID : UInt8
  profileVersion : UInt16
  algorithm : UInt8
  treeSize : UInt64
  digest : Digest D
  deriving DecidableEq, Repr

/- The hash functions of a profile: SHA-256 of nothing, of a zero byte and a leaf, and
of a one byte and two digests. -/
structure Hasher (D : Type) where
  empty : D
  hashLeaf : Bytes → D
  hashBranch : D → D → D

/-- The hash functions without collisions. -/
structure Hasher.Injective {D : Type} (H : Hasher D) : Prop where
  leaf : ∀ a b, H.hashLeaf a = H.hashLeaf b → a = b
  branch : ∀ a b c d, H.hashBranch a b = H.hashBranch c d → a = c ∧ b = d

/-- Digests as terms: a hasher that is injective and tells leaves from branches. -/
inductive Term where
  | empty
  | leaf (value : Bytes)
  | branch (left right : Term)
  deriving DecidableEq, Repr

def Hasher.free : Hasher Term := ⟨.empty, .leaf, .branch⟩

theorem Hasher.free_injective : Hasher.free.Injective :=
  ⟨fun _ _ h => Term.leaf.inj h, fun _ _ _ _ h => Term.branch.inj h⟩

structure Limits where
  maxLeaves : UInt64
  maxLeafBytes : UInt64
  maxTotalBytes : UInt64
  deriving DecidableEq, Repr

def Limits.validate (limits : Limits) : Except Err Unit :=
  if limits.maxLeaves = 0 ∨ limits.maxLeafBytes = 0 ∨ limits.maxTotalBytes = 0 then
    .error .invalidLimits
  else .ok ()

end Golib.MerkleTree
