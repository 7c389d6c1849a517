import Mathlib.Data.List.Chain
import Mathlib.Data.Prod.Lex
import Mathlib.Order.MinMax
import Golib.Lib.Search

/-! Finite sets of half-open spans of a linear order, and the loops that normalize, intersect and
subtract them. The items are of any type that has the two ends of a span; the loops stop when a list
grows longer than it may. -/
namespace Golib

open List

variable {bound : Nat}

/-- The result is good, or a list had more than `most` elements; it had at most `bound`. -/
def Fits {ε β : Type} (most : Int) (full : Nat → ε) (bound : Nat) (good : β → Prop) :
    Except ε β → Prop
  | .ok b => good b
  | .error e => ∃ n : Nat, e = full n ∧ most < n ∧ n ≤ bound

section

variable {ε β : Type} {most : Int} {full : Nat → ε} {r : Except ε β}

theorem Fits.mono {bound' : Nat} {good good' : β → Prop} (fits : Fits most full bound good r)
    (less : bound ≤ bound') (imp : ∀ b, good b → good' b) : Fits most full bound' good' r := by
  cases r with
  | ok b => exact imp b fits
  | error e =>
    obtain ⟨n, named, above, below⟩ := fits
    exact ⟨n, named, above, below.trans less⟩

theorem Fits.bind {γ : Type} {f : β → Except ε γ} {good : β → Prop} {good' : γ → Prop}
    (fits : Fits most full bound good r) (next : ∀ b, good b → Fits most full bound good' (f b)) :
    Fits most full bound good' (r >>= f) := by
  cases r with
  | ok b => exact next b fits
  | error e => exact fits

theorem fits_foldlM {α : Type} {f : β → α → Except ε β} {K : List α → β → Prop}
    (step : ∀ a rest b, K (a :: rest) b → Fits most full bound (K rest) (f b a))
    (l : List α) (b : β) (start : K l b) : Fits most full bound (K []) (l.foldlM f b) := by
  induction l generalizing b with
  | nil => exact start
  | cons a rest ih =>
    exact (step a rest b start).bind ih

end

/-- Items with the two ends of a span, and the operations on them. -/
structure SpanAlgebra (P C : Type) [LinearOrder C] where
  lo : P → C
  hi : P → C
  isEmpty : P → Bool
  mergeable : P → P → Bool
  merge : P → P → P
  intersect : P → P → Option P
  subtract : P → P → List P
  compareEnd : P → P → Ordering
  isEmpty_iff : ∀ p, isEmpty p = true ↔ hi p ≤ lo p
  mergeable_iff : ∀ p q, mergeable p q = true ↔ lo q ≤ hi p
  lo_merge : ∀ p q, lo p ≤ lo q → lo (merge p q) = lo p
  hi_merge : ∀ p q, hi (merge p q) = max (hi p) (hi q)
  intersect_eq : ∀ p q, (intersect p q).map (fun r => (lo r, hi r)) =
    if max (lo p) (lo q) < min (hi p) (hi q) then some (max (lo p) (lo q), min (hi p) (hi q))
    else none
  subtract_eq : ∀ p q, (subtract p q).map (fun r => (lo r, hi r)) =
    if max (lo p) (lo q) < min (hi p) (hi q) then
      [(lo p, max (lo p) (lo q)), (min (hi p) (hi q), hi p)].filter (fun s => s.1 < s.2)
    else [(lo p, hi p)]
  /- Ends may compare equal while one span still reaches a little further: then no span that is
  apart from the shorter one meets the longer one. -/
  compareEnd_ne_gt : ∀ p q c, compareEnd p q ≠ .gt → hi q < c → hi p ≤ c
  compareEnd_ne_lt : ∀ p q c, compareEnd p q ≠ .lt → hi p < c → hi q ≤ c

namespace SpanAlgebra

variable {P C ε : Type} [LinearOrder C] (A : SpanAlgebra P C) (most : Int) (full : Nat → ε)
  {done rest normalized : List P}

/-- One round of the merge loop over sorted items. -/
def absorb (normalized : List P) (p : P) : Except ε (List P) :=
  match normalized.getLast? with
  | some last =>
    if A.mergeable last p then .ok (normalized.dropLast ++ [A.merge last p])
    else if (normalized.length : Int) = most then .error (full (normalized.length + 1))
    else .ok (normalized ++ [p])
  | none =>
    if (normalized.length : Int) = most then .error (full (normalized.length + 1))
    else .ok (normalized ++ [p])

/-- The result with what two items have in common, if that is anything. -/
def meet (result : List P) (l r : P) : Except ε (List P) :=
  match A.intersect l r with
  | some common =>
    if (result.length : Int) = most then .error (full (result.length + 1))
    else .ok (result ++ [common])
  | none => .ok result

/-- The two-pointer loop: meet the first items, drop the one that ends first, or both. -/
def sweepLoop : Nat → List P → List P → List P → Except ε (List P)
  | fuel + 1, result, l :: left, r :: right => do
    let result ← A.meet most full result l r
    match A.compareEnd l r with
    | .lt => sweepLoop fuel result left (r :: right)
    | .gt => sweepLoop fuel result (l :: left) right
    | .eq => sweepLoop fuel result left right
  | _, result, _, _ => .ok result

/-- Every round drops an item, so the loop ends within as many rounds as there are. -/
def sweep (left right : List P) : Except ε (List P) :=
  A.sweepLoop most full (left.length + right.length) [] left right

/-- Take one item out of every item of the list. -/
def cut (result : List P) (removed : P) : Except ε (List P) :=
  result.foldlM (fun next p =>
    let next := next ++ A.subtract p removed
    if most < (next.length : Int) then .error (full next.length) else .ok next) []

def cutAll (items removed : List P) : Except ε (List P) := removed.foldlM (A.cut most full) items

/-- The first item that a monotone predicate holds of, by binary search. -/
def firstReaching (reaches : P → Bool) (items : List P) : Option P :=
  items[search items.length (fun i => items[i]?.any reaches)]?

def Covers (items : List P) (c : C) : Prop := ∃ p ∈ items, A.lo p ≤ c ∧ c < A.hi p

/-- The items are not empty and in order, and each ends before the next starts. -/
structure Separated (items : List P) : Prop where
  proper : ∀ p ∈ items, A.lo p < A.hi p
  apart : items.Pairwise (fun p q => A.hi p < A.lo q)

variable {A} {most full} {xs left right : List P} {p q : P} {c start stop : C}

@[simp] theorem covers_nil : A.Covers [] c ↔ False := by simp [Covers]

@[simp] theorem covers_cons :
    A.Covers (p :: xs) c ↔ (A.lo p ≤ c ∧ c < A.hi p) ∨ A.Covers xs c := by simp [Covers]

@[simp] theorem covers_append :
    A.Covers (left ++ right) c ↔ A.Covers left c ∨ A.Covers right c := by
  simp [Covers, or_and_right, exists_or]

/-! ## Uniqueness -/

theorem Separated.tail (separated : A.Separated (p :: xs)) : A.Separated xs :=
  ⟨fun q mem => separated.proper q (mem_cons_of_mem _ mem), (pairwise_cons.mp separated.apart).2⟩

theorem Separated.head_lt (separated : A.Separated (p :: xs)) : A.lo p < A.hi p :=
  separated.proper p mem_cons_self

theorem Separated.hi_lt (separated : A.Separated (p :: xs)) (covered : A.Covers xs c) :
    A.hi p < c := by
  obtain ⟨q, mem, after, _⟩ := covered
  exact ((pairwise_cons.mp separated.apart).1 q mem).trans_le after

theorem Separated.lo_le (separated : A.Separated (p :: xs)) (covered : A.Covers (p :: xs) c) :
    A.lo p ≤ c := by
  rcases covers_cons.mp covered with here | later
  · exact here.1
  · exact (separated.head_lt.trans (separated.hi_lt later)).le

theorem Separated.covers_tail (separated : A.Separated (p :: xs)) :
    A.Covers xs c ↔ A.Covers (p :: xs) c ∧ A.hi p ≤ c := by
  constructor
  · intro covered
    exact ⟨covers_cons.mpr (.inr covered), (separated.hi_lt covered).le⟩
  · rintro ⟨covered, after⟩
    rcases covers_cons.mp covered with here | later
    · exact absurd here.2 after.not_gt
    · exact later

theorem Separated.hi_le (first : A.Separated (p :: left))
    (eq : ∀ c, A.Covers (p :: left) c ↔ A.Covers (q :: right) c) (starts : A.lo p = A.lo q) :
    A.hi q ≤ A.hi p := by
  by_contra longer
  have sub : A.Covers (q :: right) (A.hi p) := covers_cons.mpr
    (.inl ⟨starts ▸ first.head_lt.le, not_le.mp longer⟩)
  rcases covers_cons.mp ((eq _).mpr sub) with here | later
  · exact here.2.false
  · exact (first.hi_lt later).false

/-- Separated items that are told by their spans are told by the points that they cover. -/
theorem Separated.eq (first : A.Separated left) (second : A.Separated right)
    (same : ∀ c, A.Covers left c ↔ A.Covers right c)
    (told : ∀ p q, A.lo p = A.lo q ∧ A.hi p = A.hi q → p = q) : left = right := by
  induction left generalizing right with
  | nil =>
    cases right with
    | nil => rfl
    | cons q right =>
      exact absurd ((same (A.lo q)).mpr (covers_cons.mpr (.inl ⟨le_rfl, second.head_lt⟩))) (by simp)
  | cons p left ih =>
    cases right with
    | nil =>
      exact absurd ((same (A.lo p)).mp (covers_cons.mpr (.inl ⟨le_rfl, first.head_lt⟩))) (by simp)
    | cons q right =>
      have coversP : A.Covers (p :: left) (A.lo p) := covers_cons.mpr (.inl ⟨le_rfl, first.head_lt⟩)
      have coversQ : A.Covers (q :: right) (A.lo q) :=
        covers_cons.mpr (.inl ⟨le_rfl, second.head_lt⟩)
      have starts : A.lo p = A.lo q := le_antisymm (first.lo_le ((same _).mpr coversQ))
        (second.lo_le ((same _).mp coversP))
      have ends : A.hi p = A.hi q := le_antisymm
        (second.hi_le (fun c => (same c).symm) starts.symm) (first.hi_le same starts)
      have rest := ih first.tail second.tail fun c => by
        rw [first.covers_tail, second.covers_tail, same c, ends]
      rw [rest, told p q ⟨starts, ends⟩]

theorem separated_of_isChain (proper : ∀ p ∈ xs, A.lo p < A.hi p)
    (apart : xs.IsChain (fun p q => A.hi p < A.lo q)) : A.Separated xs := by
  refine ⟨proper, ?_⟩
  have chain : xs.IsChain (fun p q => A.hi p < A.lo q ∧ A.lo q < A.hi q) := by
    exact IsChain.imp_of_mem_imp (fun p q _ mem gap => ⟨gap, proper q mem⟩) apart
  have : IsTrans P (fun p q => A.hi p < A.lo q ∧ A.lo q < A.hi q) :=
    ⟨fun p q r first second => ⟨first.1.trans (first.2.trans second.1), second.2⟩⟩
  exact chain.pairwise.imp And.left

/-! ## Normalization -/

theorem Separated.concat (separated : A.Separated xs) (proper : A.lo p < A.hi p)
    (after : ∀ q ∈ xs, A.hi q < A.lo p) : A.Separated (xs ++ [p]) where
  proper q mem := by
    rcases mem_append.mp mem with old | new
    · exact separated.proper q old
    · rwa [mem_singleton.mp new]
  apart := pairwise_append.mpr
    ⟨separated.apart, pairwise_singleton _ _, fun q mem r new => by
      rw [mem_singleton.mp new]
      exact after q mem⟩

theorem Separated.of_concat (separated : A.Separated (xs ++ [p])) :
    A.Separated xs ∧ A.lo p < A.hi p ∧ ∀ q ∈ xs, A.hi q < A.lo p := by
  obtain ⟨front, _, between⟩ := pairwise_append.mp separated.apart
  refine ⟨⟨fun q mem => separated.proper q (by simp [mem]), front⟩,
    separated.proper p (by simp), fun q mem => between q mem p (by simp)⟩

/-- What the merge loop keeps: the items so far are separated, none starts after the next one. -/
structure Absorbed (A : SpanAlgebra P C) (done rest normalized : List P) : Prop where
  separated : A.Separated normalized
  covers : ∀ c, A.Covers normalized c ↔ A.Covers done c
  before : ∀ p ∈ normalized, ∀ q ∈ rest, A.lo p ≤ A.lo q
  length : normalized.length ≤ done.length

theorem absorbed_concat (kept : A.Absorbed done (p :: rest) normalized) (proper : A.lo p < A.hi p)
    (sorted : ∀ q ∈ rest, A.lo p ≤ A.lo q) (after : ∀ q ∈ normalized, A.hi q < A.lo p) :
    A.Absorbed (done ++ [p]) rest (normalized ++ [p]) where
  separated := kept.separated.concat proper after
  covers c := by simp [kept.covers c]
  before q mem r later := by
    rcases mem_append.mp mem with old | new
    · exact kept.before q old r (mem_cons_of_mem _ later)
    · rw [mem_singleton.mp new]
      exact sorted r later
  length := by simpa using kept.length

theorem absorbed_merge {front : List P} {last : P}
    (kept : A.Absorbed done (p :: rest) (front ++ [last]))
    (touching : A.lo p ≤ A.hi last) :
    A.Absorbed (done ++ [p]) rest (front ++ [A.merge last p]) := by
  obtain ⟨separated, proper', after⟩ := kept.separated.of_concat
  have starts := A.lo_merge last p (kept.before last (by simp) p mem_cons_self)
  have ends := A.hi_merge last p
  refine ⟨separated.concat ?_ fun q mem => by rw [starts]; exact after q mem, fun c => ?_,
    fun q mem r later => ?_, by simpa using kept.length.trans (Nat.le_succ _)⟩
  · rw [starts, ends]
    exact lt_max_of_lt_left proper'
  · have old := kept.covers c
    have order := kept.before last (by simp) p mem_cons_self
    simp only [covers_append, covers_cons, covers_nil, or_false] at old ⊢
    rw [← old, starts, ends, lt_max_iff]
    -- What the merged span adds lies at or after the start of `p`.
    have cover : A.lo last ≤ c ∧ (c < A.hi last ∨ c < A.hi p) ↔
        (A.lo last ≤ c ∧ c < A.hi last) ∨ (A.lo p ≤ c ∧ c < A.hi p) := by
      constructor
      · rintro ⟨from_, sub | sub⟩
        · exact .inl ⟨from_, sub⟩
        · by_cases here : c < A.hi last
          · exact .inl ⟨from_, here⟩
          · exact .inr ⟨touching.trans (not_lt.mp here), sub⟩
      · rintro (⟨from_, sub⟩ | ⟨from_, sub⟩)
        · exact ⟨from_, .inl sub⟩
        · exact ⟨order.trans from_, .inr sub⟩
    rw [cover, or_assoc]
  · rcases mem_append.mp mem with old | new
    · exact kept.before q (by simp [old]) r (mem_cons_of_mem _ later)
    · rw [mem_singleton.mp new, starts]
      exact kept.before last (by simp) r (mem_cons_of_mem _ later)

theorem absorb_fits (kept : A.Absorbed done (p :: rest) normalized) (proper : A.lo p < A.hi p)
    (sorted : ∀ q ∈ rest, A.lo p ≤ A.lo q) (short : normalized.length + 1 ≤ bound) :
    Fits most full bound (A.Absorbed (done ++ [p]) rest) (A.absorb most full normalized p) := by
  have append : (∀ q ∈ normalized, A.hi q < A.lo p) →
      Fits most full bound (A.Absorbed (done ++ [p]) rest)
        (if (normalized.length : Int) = most then .error (full (normalized.length + 1))
          else .ok (normalized ++ [p])) := by
    intro after
    split
    · rename_i reached
      exact ⟨_, rfl, by omega, short⟩
    · exact absorbed_concat kept proper sorted after
  unfold absorb
  rcases eq_nil_or_concat' normalized with rfl | ⟨front, last, rfl⟩
  · exact append (by simp)
  · rw [getLast?_concat]
    by_cases touching : A.mergeable last p = true
    · simp only [touching, if_true, dropLast_concat]
      exact absorbed_merge kept ((A.mergeable_iff last p).mp touching)
    · simp only [touching, Bool.false_eq_true, if_false]
      have gap : A.hi last < A.lo p := not_le.mp (mt (A.mergeable_iff last p).mpr touching)
      obtain ⟨_, lastProper, before⟩ := kept.separated.of_concat
      refine append fun q mem => ?_
      rcases mem_append.mp mem with old | new
      · exact ((before q old).trans lastProper).trans gap
      · rwa [mem_singleton.mp new]

/-- Sorted items that are not empty merge into a separated list that covers the same points. -/
theorem absorbAll_fits (xs : List P) (proper : ∀ p ∈ xs, A.lo p < A.hi p)
    (sorted : xs.Pairwise (fun p q => A.lo p ≤ A.lo q)) :
    Fits most full xs.length (fun normalized => A.Separated normalized ∧
        (∀ c, A.Covers normalized c ↔ A.Covers xs c) ∧ normalized.length ≤ xs.length)
      (xs.foldlM (A.absorb most full) []) := by
  refine (fits_foldlM (K := fun rest normalized => ∃ done, xs = done ++ rest ∧
    A.Absorbed done rest normalized) ?_ xs [] ⟨[], rfl, ?_⟩).mono le_rfl ?_
  · rintro p rest normalized ⟨done, split, kept⟩
    have mem : p ∈ xs := by simp [split]
    have later := (pairwise_append.mp (split ▸ sorted)).2.1
    have short : normalized.length + 1 ≤ xs.length := by
      have := kept.length
      simp [split]
      omega
    refine (absorb_fits kept (proper p mem) (pairwise_cons.mp later).1 short).mono le_rfl ?_
    intro normalized' kept'
    exact ⟨done ++ [p], by simp [split], kept'⟩
  · exact ⟨⟨by simp, .nil⟩, fun c => Iff.rfl, by simp, le_rfl⟩
  · rintro normalized ⟨done, split, kept⟩
    rw [append_nil] at split
    subst split
    exact ⟨kept.separated, kept.covers, kept.length⟩

theorem absorbProper_fits {working : List P} (kept : ∀ p, p ∈ working ↔ p ∈ xs ∧ A.lo p < A.hi p)
    (short : working.length ≤ xs.length) (sorted : working.Pairwise (fun p q => A.lo p ≤ A.lo q)) :
    Fits most full xs.length (fun normalized => A.Separated normalized ∧
        (∀ c, A.Covers normalized c ↔ A.Covers xs c) ∧ normalized.length ≤ xs.length)
      (working.foldlM (A.absorb most full) []) := by
  refine (absorbAll_fits working (fun p mem => ((kept p).mp mem).2) sorted).mono short ?_
  rintro normalized ⟨separated, covers, length⟩
  refine ⟨separated, fun c => ?_, length.trans short⟩
  rw [covers c]
  refine exists_congr fun p => ?_
  rw [kept p]
  exact ⟨fun h => ⟨h.1.1, h.2⟩, fun h => ⟨⟨h.1, h.2.1.trans_lt h.2.2⟩, h.2⟩⟩

/-! ## Intersection -/

theorem covers_intersect (p q : P) (c : C) :
    A.Covers (A.intersect p q).toList c ↔ (A.lo p ≤ c ∧ c < A.hi p) ∧ A.lo q ≤ c ∧ c < A.hi q := by
  have spans := A.intersect_eq p q
  have both : ((A.lo p ≤ c ∧ c < A.hi p) ∧ A.lo q ≤ c ∧ c < A.hi q) ↔
      max (A.lo p) (A.lo q) ≤ c ∧ c < min (A.hi p) (A.hi q) := by
    rw [max_le_iff, lt_min_iff, and_and_and_comm]
  rw [both]
  cases found : A.intersect p q with
  | none =>
    rw [found] at spans
    split at spans
    · exact absurd spans (by simp)
    · rename_i disjoint
      simp only [Option.toList_none, covers_nil, false_iff]
      exact fun sub => disjoint (sub.1.trans_lt sub.2)
  | some r =>
    rw [found] at spans
    split at spans
    · simp only [Option.map_some, Option.some.injEq, Prod.mk.injEq] at spans
      simp [spans.1, spans.2]
    · exact absurd spans (by simp)

theorem not_covers_of_hi_le (apart : ∀ q ∈ xs, A.hi p ≤ A.lo q) :
    ¬ ((A.lo p ≤ c ∧ c < A.hi p) ∧ A.Covers xs c) := by
  rintro ⟨⟨_, sub⟩, q, mem, after, _⟩
  exact (sub.trans_le (apart q mem)).not_ge after

theorem covers_drop_left (apart : ∀ x ∈ right, A.hi p ≤ A.lo x) :
    A.Covers (p :: left) c ∧ A.Covers (q :: right) c ↔
      A.Covers (A.intersect p q).toList c ∨ A.Covers left c ∧ A.Covers (q :: right) c := by
  have none := not_covers_of_hi_le (c := c) apart
  rw [covers_intersect, covers_cons, covers_cons]
  tauto

theorem covers_drop_right (apart : ∀ x ∈ left, A.hi q ≤ A.lo x) :
    A.Covers (p :: left) c ∧ A.Covers (q :: right) c ↔
      A.Covers (A.intersect p q).toList c ∨ A.Covers (p :: left) c ∧ A.Covers right c := by
  have none := not_covers_of_hi_le (c := c) apart
  rw [covers_intersect, covers_cons, covers_cons]
  tauto

theorem covers_drop_both (apart : ∀ x ∈ right, A.hi p ≤ A.lo x)
    (apart' : ∀ x ∈ left, A.hi q ≤ A.lo x) :
    A.Covers (p :: left) c ∧ A.Covers (q :: right) c ↔
      A.Covers (A.intersect p q).toList c ∨ A.Covers left c ∧ A.Covers right c := by
  have none := not_covers_of_hi_le (c := c) apart'
  rw [covers_drop_left apart, covers_cons]
  tauto

theorem meet_fits {result : List P} (l r : P) :
    Fits most full (result.length + 1) (fun tot => tot.length ≤ result.length + 1 ∧
        ∀ c, A.Covers tot c ↔ A.Covers result c ∨ A.Covers (A.intersect l r).toList c)
      (A.meet most full result l r) := by
  unfold meet
  cases A.intersect l r with
  | none => exact ⟨by simp, by simp⟩
  | some common =>
    by_cases reached : (result.length : Int) = most
    · simp only [reached, if_true]
      exact ⟨_, rfl, by omega, le_rfl⟩
    · simp only [reached, if_false]
      exact ⟨by simp, by simp⟩

theorem sweepLoop_fits (fuel : Nat) (result left right : List P)
    (enough : left.length + right.length ≤ fuel) (first : A.Separated left)
    (second : A.Separated right) :
    Fits most full (result.length + left.length + right.length) (fun tot =>
        tot.length ≤ result.length + left.length + right.length ∧
        ∀ c, A.Covers tot c ↔ A.Covers result c ∨ A.Covers left c ∧ A.Covers right c)
      (A.sweepLoop most full fuel result left right) := by
  induction fuel generalizing result left right with
  | zero =>
    have none : left = [] := length_eq_zero_iff.mp (by omega)
    subst none
    exact ⟨by simp, by simp⟩
  | succ fuel ih =>
    match left, right with
    | [], _ => exact ⟨by simp, by simp⟩
    | _ :: _, [] => exact ⟨by simp, by simp⟩
    | l :: left, r :: right =>
      have beyond := (pairwise_cons.mp second.apart).1
      have beyond' := (pairwise_cons.mp first.apart).1
      have met : Fits most full (result.length + (l :: left).length + (r :: right).length) _
          (A.meet most full result l r) := (meet_fits l r).mono (by simp; omega)
            (fun _ good => good)
      refine met.bind ?_
      rintro tot ⟨length, found⟩
      simp only [length_cons] at enough ⊢
      cases ends : A.compareEnd l r with
      | lt =>
        have apart := fun q mem => A.compareEnd_ne_gt l r _ (by simp [ends]) (beyond q mem)
        refine (ih tot left (r :: right) (by simp; omega) first.tail second).mono
          (by simp; omega) ?_
        rintro total' ⟨length', found'⟩
        refine ⟨by simp at length'; omega, fun c => ?_⟩
        rw [found' c, found c, or_assoc, covers_drop_left apart]
      | gt =>
        have apart := fun p mem => A.compareEnd_ne_lt l r _ (by simp [ends]) (beyond' p mem)
        refine (ih tot (l :: left) right (by simp; omega) first second.tail).mono
          (by simp; omega) ?_
        rintro total' ⟨length', found'⟩
        refine ⟨by simp at length'; omega, fun c => ?_⟩
        rw [found' c, found c, or_assoc, covers_drop_right apart]
      | eq =>
        have apart := fun q mem => A.compareEnd_ne_gt l r _ (by simp [ends]) (beyond q mem)
        have apart' := fun p mem => A.compareEnd_ne_lt l r _ (by simp [ends]) (beyond' p mem)
        refine (ih tot left right (by omega) first.tail second.tail).mono (by omega) ?_
        rintro total' ⟨length', found'⟩
        refine ⟨by omega, fun c => ?_⟩
        rw [found' c, found c, or_assoc, covers_drop_both apart apart']

theorem sweep_fits (first : A.Separated left) (second : A.Separated right) :
    Fits most full (left.length + right.length) (fun tot =>
        tot.length ≤ left.length + right.length ∧
        ∀ c, A.Covers tot c ↔ A.Covers left c ∧ A.Covers right c)
      (A.sweep most full left right) := by
  have swept : Fits most full (([] : List P).length + left.length + right.length) _
    (A.sweep most full left right) := sweepLoop_fits _ [] left right le_rfl first second
  simpa using swept

/-! ## Difference -/

/-- The items are not empty and in order, but may touch. -/
structure Ordered (A : SpanAlgebra P C) (items : List P) : Prop where
  proper : ∀ p ∈ items, A.lo p < A.hi p
  apart : items.Pairwise (fun p q => A.hi p ≤ A.lo q)

theorem Separated.ordered (separated : A.Separated xs) : A.Ordered xs :=
  ⟨separated.proper, separated.apart.imp le_of_lt⟩

/-- The spans of the items follow one another from a point to a point. -/
def Tiles (A : SpanAlgebra P C) : C → List P → C → Prop
  | start, [], stop => start = stop
  | start, p :: rest, stop => A.lo p = start ∧ A.lo p < A.hi p ∧ Tiles A (A.hi p) rest stop

theorem Tiles.exact (tiles : A.Tiles start xs stop) :
    start ≤ stop ∧ A.Ordered xs ∧ ∀ c, A.Covers xs c ↔ start ≤ c ∧ c < stop := by
  induction xs generalizing start with
  | nil =>
    cases tiles
    exact ⟨le_rfl, ⟨by simp, .nil⟩, fun c => by simp⟩
  | cons p rest ih =>
    obtain ⟨rfl, proper, tiles⟩ := tiles
    obtain ⟨le, ordered, covers⟩ := ih tiles
    refine ⟨proper.le.trans le, ⟨forall_mem_cons.mpr ⟨proper, ordered.proper⟩,
      pairwise_cons.mpr ⟨fun q mem => ?_, ordered.apart⟩⟩, fun c => ?_⟩
    · exact ((covers (A.lo q)).mp ⟨q, mem, le_rfl, ordered.proper q mem⟩).1
    · rw [covers_cons, covers c]
      constructor
      · rintro (⟨after, before⟩ | ⟨after, before⟩)
        · exact ⟨after, before.trans_le le⟩
        · exact ⟨proper.le.trans after, before⟩
      · rintro ⟨after, before⟩
        exact (lt_or_ge c (A.hi p)).imp (⟨after, ·⟩) (⟨·, before⟩)

theorem Tiles.concat (tiles : A.Tiles start xs (A.lo p)) (proper : A.lo p < A.hi p)
    (ends : A.hi p = stop) : A.Tiles start (xs ++ [p]) stop := by
  induction xs generalizing start with
  | nil => exact ⟨tiles.symm, proper, ends⟩
  | cons q rest ih => exact ⟨tiles.1, tiles.2.1, ih tiles.2.2⟩

theorem covers_iff_spans :
    A.Covers xs c ↔ ∃ s ∈ xs.map (fun r => (A.lo r, A.hi r)), s.1 ≤ c ∧ c < s.2 := by
  simp [Covers]

theorem ordered_iff_spans : A.Ordered xs ↔
    (∀ s ∈ xs.map (fun r => (A.lo r, A.hi r)), s.1 < s.2) ∧
      (xs.map (fun r => (A.lo r, A.hi r))).Pairwise (fun s t => s.2 ≤ t.1) := by
  rw [pairwise_map]
  constructor
  · rintro ⟨proper, apart⟩
    exact ⟨by simpa using proper, apart⟩
  · rintro ⟨proper, apart⟩
    exact ⟨by simpa using proper, apart⟩

theorem covers_subtract (p q : P) (c : C) :
    A.Covers (A.subtract p q) c ↔ (A.lo p ≤ c ∧ c < A.hi p) ∧ ¬ (A.lo q ≤ c ∧ c < A.hi q) := by
  rw [covers_iff_spans, A.subtract_eq]
  split
  · rename_i meets
    have part : (∃ s ∈ [(A.lo p, max (A.lo p) (A.lo q)), (min (A.hi p) (A.hi q), A.hi p)].filter
        (fun s => s.1 < s.2), s.1 ≤ c ∧ c < s.2) ↔
        (A.lo p ≤ c ∧ c < max (A.lo p) (A.lo q)) ∨ (min (A.hi p) (A.hi q) ≤ c ∧ c < A.hi p) := by
      simp only [mem_filter, mem_cons, not_mem_nil, or_false, decide_eq_true_eq]
      constructor
      · rintro ⟨s, ⟨rfl | rfl, _⟩, sub⟩
        · exact .inl sub
        · exact .inr sub
      · rintro (sub | sub)
        · exact ⟨_, ⟨.inl rfl, sub.1.trans_lt sub.2⟩, sub⟩
        · exact ⟨_, ⟨.inr rfl, sub.1.trans_lt sub.2⟩, sub⟩
    rw [part]
    grind
  · rename_i disjoint
    simp only [mem_singleton, exists_eq_left]
    constructor
    · rintro ⟨from_, sub⟩
      refine ⟨⟨from_, sub⟩, fun other => disjoint ?_⟩
      exact (max_le from_ other.1).trans_lt (lt_min sub other.2)
    · exact And.left

theorem ordered_subtract (p q : P) (proper : A.lo p < A.hi p) :
    A.Ordered (A.subtract p q) ∧ ∀ r ∈ A.subtract p q, A.lo p ≤ A.lo r ∧ A.hi r ≤ A.hi p := by
  have sub : (∀ r ∈ A.subtract p q, A.lo p ≤ A.lo r ∧ A.hi r ≤ A.hi p) ↔
      ∀ s ∈ (A.subtract p q).map (fun r => (A.lo r, A.hi r)), A.lo p ≤ s.1 ∧ s.2 ≤ A.hi p := by
    simp
  rw [ordered_iff_spans, sub, A.subtract_eq]
  split
  · rename_i meets
    have starts : A.lo p ≤ min (A.hi p) (A.hi q) := (le_max_left _ _).trans meets.le
    have ends : max (A.lo p) (A.lo q) ≤ A.hi p := meets.le.trans (min_le_left _ _)
    refine ⟨⟨fun s mem => by simpa using (mem_filter.mp mem).2, ?_⟩, ?_⟩
    · refine Pairwise.filter _ ?_
      exact pairwise_pair.mpr meets.le
    · intro s mem
      have kept := (mem_filter.mp mem).1
      simp only [mem_cons, not_mem_nil, or_false] at kept
      rcases kept with rfl | rfl
      · exact ⟨le_rfl, ends⟩
      · exact ⟨starts, le_rfl⟩
  · exact ⟨⟨by simpa using proper, pairwise_singleton _ _⟩, by simp⟩

theorem length_subtract (p q : P) :
    (A.subtract p q).length ≤ 1 ∨ (A.subtract p q).length ≤ 2 ∧ A.hi q < A.hi p := by
  rw [← length_map (fun r => (A.lo r, A.hi r)), A.subtract_eq]
  split
  · by_cases right : min (A.hi p) (A.hi q) < A.hi p
    · refine .inr ⟨length_filter_le _ _, ?_⟩
      exact (min_lt_iff.mp right).resolve_left (lt_irrefl _)
    · rw [filter_cons, filter_cons_of_neg (by simpa using right)]
      split <;> simp
  · exact .inl le_rfl

theorem length_subtract_of_beyond (beyond : A.hi q ≤ A.lo p) : (A.subtract p q).length = 1 := by
  have apart : ¬ max (A.lo p) (A.lo q) < min (A.hi p) (A.hi q) := fun meets =>
    ((le_max_left _ _).trans_lt (meets.trans_le (min_le_right _ _))).not_ge beyond
  rw [← length_map (fun r => (A.lo r, A.hi r)), A.subtract_eq, if_neg apart]
  rfl

theorem Ordered.length_flatMap (ordered : A.Ordered xs) (q : P) :
    (xs.flatMap (A.subtract · q)).length ≤ xs.length + 1 := by
  obtain ⟨_, apart⟩ := ordered
  induction xs with
  | nil => simp
  | cons p xs ih =>
    obtain ⟨after, apart⟩ := pairwise_cons.mp apart
    rw [flatMap_cons, length_append, length_cons]
    rcases length_subtract (A := A) p q with one | ⟨two, beyond⟩
    · have rest := ih (fun p mem => by simp_all) apart
      omega
    · have single : ∀ r ∈ xs, (A.subtract r q).length = 1 := fun r mem =>
        length_subtract_of_beyond (beyond.le.trans (after r mem))
      rw [List.length_flatMap, List.map_congr_left single]
      simp
      omega

theorem Ordered.flatMap (ordered : A.Ordered xs) (q : P) :
    A.Ordered (xs.flatMap (A.subtract · q)) where
  proper r mem := by
    obtain ⟨p, sub, part⟩ := mem_flatMap.mp mem
    exact (ordered_subtract p q (ordered.proper p sub)).1.proper r part
  apart := by
    rw [pairwise_flatMap]
    refine ⟨fun p mem => (ordered_subtract p q (ordered.proper p mem)).1.apart, ?_⟩
    refine ordered.apart.imp_of_mem fun {p p'} mem mem' apart r part r' part' => ?_
    have left := ((ordered_subtract p q (ordered.proper p mem)).2 r part).2
    have right := ((ordered_subtract p' q (ordered.proper p' mem')).2 r' part').1
    exact left.trans (apart.trans right)

theorem covers_flatMap (q : P) :
    A.Covers (xs.flatMap (A.subtract · q)) c ↔ A.Covers xs c ∧ ¬ (A.lo q ≤ c ∧ c < A.hi q) := by
  induction xs with
  | nil => simp
  | cons p xs ih => rw [flatMap_cons, covers_append, covers_subtract, ih, covers_cons, or_and_right]

theorem cut_fits (xs : List P) (q : P) :
    Fits most full (xs.flatMap (A.subtract · q)).length
      (fun tot => tot = xs.flatMap (A.subtract · q)) (A.cut most full xs q) := by
  unfold cut
  refine (fits_foldlM (K := fun rest next => next ++ rest.flatMap (A.subtract · q) =
    xs.flatMap (A.subtract · q)) ?_ xs [] rfl).mono le_rfl (by simp)
  intro p rest next kept
  rw [flatMap_cons, ← append_assoc] at kept
  dsimp only
  split
  · rename_i many
    exact ⟨_, rfl, many, by rw [← kept]; simp⟩
  · exact kept

theorem cutAll_fits (ordered : A.Ordered xs) (removed : List P) :
    Fits most full (xs.length + removed.length) (fun tot =>
        tot.length ≤ xs.length + removed.length ∧
        ∀ c, A.Covers tot c ↔ A.Covers xs c ∧ ¬ A.Covers removed c)
      (A.cutAll most full xs removed) := by
  unfold cutAll
  refine (fits_foldlM (K := fun rest tot => ∃ done, removed = done ++ rest ∧ A.Ordered tot ∧
    tot.length ≤ xs.length + done.length ∧
    ∀ c, A.Covers tot c ↔ A.Covers xs c ∧ ¬ A.Covers done c) ?_ removed xs
      ⟨[], rfl, ordered, by simp, by simp⟩).mono le_rfl ?_
  · rintro q rest tot ⟨done, split, ordered, length, covers⟩
    have grown := ordered.length_flatMap q
    have n : removed.length = done.length + (rest.length + 1) := by simp [split]
    refine (cut_fits tot q).mono (by omega) ?_
    rintro _ rfl
    refine ⟨done ++ [q], by simp [split], ordered.flatMap q,
      by rw [length_append, length_singleton]; omega, fun c => ?_⟩
    simp [covers_flatMap, covers c, and_assoc]
  · rintro tot ⟨done, split, _, length, covers⟩
    rw [append_nil] at split
    subst split
    exact ⟨length, covers⟩

/-! ## Membership -/

/-- In a separated list the first item that reaches a point decides whether it is covered. -/
theorem Separated.firstReaching_iff (separated : A.Separated xs) {reaches : P → Bool}
    (reach : ∀ p, reaches p = true ↔ c ≤ A.hi p) :
    A.Covers xs c ↔ ∃ p, firstReaching reaches xs = some p ∧ A.lo p ≤ c ∧ c < A.hi p := by
  have ordered : ∀ i j : Nat, ∀ p q, i < j → xs[i]? = some p → xs[j]? = some q →
      A.hi p < A.lo q := by
    intro i j p q less atI atJ
    obtain ⟨_, rfl⟩ := List.getElem?_eq_some_iff.mp atI
    obtain ⟨_, rfl⟩ := List.getElem?_eq_some_iff.mp atJ
    exact pairwise_iff_getElem.mp separated.apart i j _ _ less
  have read : ∀ (i : Nat) (p : P), xs[i]? = some p →
    ((xs[i]?.any reaches) = true ↔ c ≤ A.hi p) := by
    intro i p found
    rw [found, Option.any_some, reach]
  have monotone : ∀ i j : Nat, i ≤ j → j < xs.length →
      (xs[i]?.any reaches) = true → (xs[j]?.any reaches) = true := by
    intro i j le sub hit
    rcases le.eq_or_lt with rfl | less
    · exact hit
    · have atI := getElem?_eq_getElem (less.trans sub)
      have atJ := getElem?_eq_getElem sub
      have grows := (ordered i j _ _ less atI atJ).trans (separated.proper _ (mem_of_getElem? atJ))
      exact (read j _ atJ).mpr (((read i _ atI).mp hit).trans grows.le)
  obtain ⟨_, before, after⟩ := search_spec monotone
  unfold firstReaching
  generalize search xs.length (fun i => xs[i]?.any reaches) = n at before after
  constructor
  · rintro ⟨p, mem, from_, sub⟩
    obtain ⟨k, found⟩ := mem_iff_getElem?.mp mem
    have bound := (List.getElem?_eq_some_iff.mp found).1
    rcases lt_trichotomy n k with less | rfl | more
    · -- An earlier item that reaches the point ends before this one starts.
      have atN := getElem?_eq_getElem (less.trans bound)
      have reached := (read n _ atN).mp (after n le_rfl (less.trans bound))
      exact absurd from_ (reached.trans_lt (ordered n k _ _ less atN found)).not_ge
    · exact ⟨p, found, from_, sub⟩
    · exact absurd ((read k p found).mpr sub.le) (by simp [before k more])
  · rintro ⟨p, found, sub⟩
    exact ⟨p, mem_of_getElem? found, sub⟩

end SpanAlgebra

end Golib
