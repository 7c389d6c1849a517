import Golib.Lib.HashTree

/-! The stack of complete trees behind an incremental hash tree: one complete tree
for every one bit of the number of leaves, smallest on top. Stacks are lists with
their top first. The two loops below are generic in what a stack entry is; a relation
between entries and trees says what they compute. -/
namespace Golib.HashTree

open Polled List Nat

variable {D : Type} {ts : List (DigestTree D)} {k n : Nat} {t : DigestTree D}

/-- A tree with all leaves at depth `k`. -/
def Complete : Nat → DigestTree D → Prop
  | 0, .leaf _ => True
  | k + 1, .node l r => Complete k l ∧ Complete k r
  | _, _ => False

theorem Complete.size_eq (full : Complete k t) : t.size = 2 ^ k := by
  induction k generalizing t with
  | zero =>
    cases t with
    | leaf d => rfl
    | node l r => cases full
  | succ k ih =>
    cases t with
    | leaf d => cases full
    | node l r =>
      rw [DigestTree.size, ih full.1, ih full.2, pow_succ]
      omega

theorem balanced_node {l r : DigestTree D} (full : l.size = 2 ^ k) (small : r.size ≤ 2 ^ k)
    (left : Balanced l) (right : Balanced r) : Balanced (.node l r) := by
  refine ⟨?_, left, right⟩
  rw [full, split_add r.size_pos small]

theorem Complete.balanced (full : Complete k t) : Balanced t := by
  induction k generalizing t with
  | zero =>
    cases t with
    | leaf d => trivial
    | node l r => cases full
  | succ k ih =>
    cases t with
    | leaf d => cases full
    | node l r =>
      exact balanced_node full.1.size_eq (le_of_eq full.2.size_eq) (ih full.1) (ih full.2)

/-- `Forest k n ts`: the trees `ts` hold `n * 2 ^ k` leaves, one complete tree for each
one bit of `n`, the lowest bit standing for trees of depth `k`. -/
inductive Forest : Nat → Nat → List (DigestTree D) → Prop where
  | nil (k : Nat) : Forest k 0 []
  | even {k n : Nat} {ts : List (DigestTree D)} : Forest (k + 1) n ts → Forest k (2 * n) ts
  | odd {k n : Nat} {t : DigestTree D} {ts : List (DigestTree D)} :
      Complete k t → Forest (k + 1) n ts → Forest k (2 * n + 1) (t :: ts)

def stackLeaves : List (DigestTree D) → List D
  | [] => []
  | t :: ts => stackLeaves ts ++ t.leaves

theorem Forest.length_leaves (h : Forest k n ts) : (stackLeaves ts).length = n * 2 ^ k := by
  induction h with
  | nil k => simp [stackLeaves]
  | even h ih =>
    rw [ih, pow_succ]
    ac_rfl
  | odd full h ih =>
    rw [stackLeaves, length_append, ih, DigestTree.length_leaves, full.size_eq, pow_succ, add_mul]
    ac_rfl

theorem Forest.halve (h : Forest k (2 * n) ts) : Forest (k + 1) n ts := by
  generalize tot : 2 * n = m at h
  cases h with
  | nil =>
    have none : n = 0 := by omega
    subst none
    exact .nil _
  | @even _ n' _ h =>
    have eq : n' = n := by omega
    subst eq
    exact h
  | odd full h => omega

theorem Forest.unpair (h : Forest k (2 * n + 1) ts) :
    ∃ t rest, ts = t :: rest ∧ Complete k t ∧ Forest (k + 1) n rest := by
  generalize tot : 2 * n + 1 = m at h
  cases h with
  | nil | even => omega
  | @odd _ n' t rest full h =>
    have eq : n' = n := by omega
    subst eq
    exact ⟨t, rest, rfl, full, h⟩

theorem Forest.unique {us : List (DigestTree D)} (h : Forest k n ts) (h' : Forest k n us)
    (eq : stackLeaves ts = stackLeaves us) : ts = us := by
  induction h generalizing us with
  | nil k =>
    cases us with
    | nil => rfl
    | cons u us =>
      have size := congrArg length eq
      have pos := u.size_pos
      simp only [stackLeaves, length_nil, length_append, DigestTree.length_leaves] at size
      omega
  | even h ih => exact ih h'.halve eq
  | odd full h ih =>
    obtain ⟨u, rest, rfl, full', h'⟩ := h'.unpair
    have lengths := h.length_leaves.trans h'.length_leaves.symm
    obtain ⟨below, top⟩ := append_inj eq lengths
    rw [ih h' below, balanced_unique full.balanced full'.balanced top]

theorem Forest.length_eq (h : Forest k n ts) (width : Nat) (bound : n < 2 ^ width) :
    ts.length = onesCount width n := by
  induction h generalizing width with
  | nil k =>
    induction width with
    | zero => rfl
    | succ width ih => simp [onesCount, ← ih (Nat.two_pow_pos width)]
  | @even k n ts h ih =>
    cases width with
    | zero =>
      have none : n = 0 := by omega
      subst none
      simpa using ih 0 (by decide)
    | succ width =>
      rw [ih width (by omega), onesCount]
      simp
  | @odd k n t ts full h ih =>
    cases width with
    | zero => simp at bound
    | succ width =>
      rw [length_cons, ih width (by omega), onesCount, mul_add_mod, mul_add_div (by omega)]
      simp [add_comm]

section Loops

variable {ε σ α β : Type} {ts : List (DigestTree D)} {stack : List α} {k n : Nat} {s : σ} {top : α}

/-- Merge the top of the stack with the entry below it while the number of leaves
counted in units of the top is even. -/
def carry (merge : σ → α → α → Polled ε (σ × α)) (underflow : ε) :
    UInt64 → σ → α → List α → Polled ε (σ × List α)
  | size, s, top, [] => if size &&& 1 = 0 then .fail underflow else pure (s, [top])
  | size, s, top, next :: rest =>
    if size &&& 1 = 0 then do
      let (s, merged) ← merge s next top
      carry merge underflow (size >>> 1) s merged rest
    else pure (s, top :: next :: rest)

/-- Push one entry for each item and carry after each push. -/
def pushAll (leaf : σ → β → Polled ε (σ × α)) (merge : σ → α → α → Polled ε (σ × α))
    (underflow : ε) : UInt64 → σ → List α → List β → Polled ε (σ × List α)
  | _, s, stack, [] => pure (s, stack)
  | completed, s, stack, x :: xs => do
    let (s, top) ← leaf s x
    let (s, stack) ← carry merge underflow (completed + 1) s top stack
    pushAll leaf merge underflow (completed + 1) s stack xs

/-- Merge the stack from its top downwards into one entry. -/
def foldStack (merge : σ → α → α → Polled ε (σ × α)) : σ → α → List α → Polled ε (σ × α)
  | s, top, [] => pure (s, top)
  | s, top, next :: rest => do
    let (s, merged) ← merge s next top
    foldStack merge s merged rest

variable (merge : σ → α → α → Polled ε (σ × α)) (underflow : ε)
  (rel : σ → List α → List (DigestTree D) → Prop)

/-- What a merge has to do for the loops: join the two top trees. -/
def Merges : Prop :=
  ∀ s l r as tl tr ts, rel s (r :: l :: as) (tr :: tl :: ts) →
    ∃ s' a, (merge s l r).outcome = .ok (s', a) ∧ rel s' (a :: as) (.node tl tr :: ts)

def SameLength : Prop := ∀ s as ts, rel s as ts → as.length = ts.length

variable {merge rel} (merges : Merges merge rel) (shape : SameLength rel)

include merges shape

theorem carry_forest (forest : Forest k n ts) (full : Complete k t) {size : UInt64}
    (count : size.toNat = n + 1) (h : rel s (top :: stack) (t :: ts)) :
    ∃ s' stack' ts', (carry merge underflow size s top stack).outcome = .ok (s', stack') ∧
      rel s' stack' ts' ∧ Forest k (n + 1) ts' ∧ stackLeaves ts' = stackLeaves (t :: ts) := by
  induction forest generalizing t size s top stack with
  | nil k =>
    have empty : stack = [] := by simpa using shape _ _ _ h
    subst empty
    have odd : ¬ size &&& 1 = 0 := by rw [and_one_eq_zero]; omega
    refine ⟨s, [top], [t], ?_, h, .odd full (.nil _), rfl⟩
    simp [carry, odd]
  | @even k n ts forest ih =>
    have odd : ¬ size &&& 1 = 0 := by rw [and_one_eq_zero]; omega
    refine ⟨s, top :: stack, t :: ts, ?_, h, .odd full forest, rfl⟩
    cases stack <;> simp [carry, odd]
  | @odd k n t₀ ts full₀ forest ih =>
    have even : size &&& 1 = 0 := by rw [and_one_eq_zero]; omega
    cases stack with
    | nil => simpa using shape _ _ _ h
    | cons next rest =>
      obtain ⟨s₁, a, hm, hr⟩ := merges _ _ _ _ _ _ _ h
      have half : (size >>> 1).toNat = n + 1 := by rw [toNat_halve]; omega
      obtain ⟨s', stack', ts', out, hrel, next, eq⟩ := ih (t := .node t₀ t) ⟨full₀, full⟩ half hr
      refine ⟨s', stack', ts', ?_, hrel, .even next, ?_⟩
      · simp only [carry, if_pos even]
        exact bind_ok.mpr ⟨(s₁, a), hm, out⟩
      · simpa [stackLeaves, DigestTree.leaves] using eq

theorem pushAll_forest {capacity : Nat} {completed : UInt64}
    {leaf : σ → β → Polled ε (σ × α)} (f : β → D)
    (word : capacity < 2 ^ 64)
    (pushes : ∀ s as ts x, rel s as ts → (stackLeaves ts).length < capacity → ∃ s' a,
      (leaf s x).outcome = .ok (s', a) ∧ rel s' (a :: as) (.leaf (f x) :: ts))
    (xs : List β) (forest : Forest 0 n ts)
    (count : completed.toNat = n) (bound : n + xs.length ≤ capacity) (h : rel s stack ts) :
    ∃ s' stack' ts', (pushAll leaf merge underflow completed s stack xs).outcome =
    .ok (s', stack') ∧
      rel s' stack' ts' ∧ Forest 0 (n + xs.length) ts' ∧
      stackLeaves ts' = stackLeaves ts ++ xs.map f := by
  induction xs generalizing n ts completed s stack with
  | nil => exact ⟨s, stack, ts, rfl, h, forest, by simp⟩
  | cons x xs ih =>
    rw [length_cons] at bound
    have room : (stackLeaves ts).length < capacity := by
      rw [forest.length_leaves]
      omega
    obtain ⟨s₁, a, hl, hr⟩ := pushes _ _ _ x h room
    have next : (completed + 1).toNat = n + 1 := by
      rw [UInt64.toNat_add, count]
      exact mod_eq_of_lt (by simp; omega)
    obtain ⟨s₂, stack₂, ts₂, hc, hrel, forest₂, eq⟩ :=
      carry_forest underflow merges shape forest (t := .leaf (f x)) trivial next hr
    obtain ⟨s', stack', ts', out, hout, forest', ls⟩ := ih forest₂ next (by omega) hrel
    refine ⟨s', stack', ts', ?_, hout, ?_, ?_⟩
    · exact bind_ok.mpr ⟨_, hl, bind_ok.mpr ⟨_, hc, out⟩⟩
    · rwa [length_cons, add_comm xs.length 1, ← add_assoc]
    · rw [ls, eq]
      simp [stackLeaves, DigestTree.leaves]

theorem foldStack_below (forest : Forest k n ts) (bal : Balanced t) (small : t.size ≤ 2 ^ k)
    (h : rel s (top :: stack) (t :: ts)) :
    ∃ s' a t', (foldStack merge s top stack).outcome = .ok (s', a) ∧ rel s' [a] [t'] ∧
      Balanced t' ∧ t'.leaves = stackLeaves (t :: ts) := by
  induction forest generalizing t s top stack with
  | nil k =>
    have empty : stack = [] := by simpa using shape _ _ _ h
    subst empty
    exact ⟨s, top, t, rfl, h, bal, rfl⟩
  | even forest ih =>
    exact ih bal (by rw [pow_succ]; omega) h
  | @odd k n t₀ ts full forest ih =>
    cases stack with
    | nil => simpa using shape _ _ _ h
    | cons next rest =>
      obtain ⟨s₁, a, hm, hr⟩ := merges _ _ _ _ _ _ _ h
      have joined := balanced_node full.size_eq small full.balanced bal
      have bound : (DigestTree.node t₀ t).size ≤ 2 ^ (k + 1) := by
        rw [DigestTree.size, full.size_eq, pow_succ]
        omega
      obtain ⟨s', b, t', out, hrel, hb, ls⟩ := ih joined bound hr
      refine ⟨s', b, t', ?_, hrel, hb, ?_⟩
      · exact bind_ok.mpr ⟨_, hm, out⟩
      · simpa [stackLeaves, DigestTree.leaves] using ls

theorem foldStack_forest (forest : Forest k n (t :: ts)) (h : rel s (top :: stack) (t :: ts)) :
    ∃ s' a t', (foldStack merge s top stack).outcome = .ok (s', a) ∧ rel s' [a] [t'] ∧
      Balanced t' ∧ t'.leaves = stackLeaves (t :: ts) := by
  generalize all : t :: ts = us at forest
  induction forest with
  | nil k => cases all
  | even forest ih => exact ih all
  | @odd k n t₀ ts₀ full forest ih =>
    cases all
    refine foldStack_below merges shape forest full.balanced ?_ h
    rw [full.size_eq, pow_succ]
    omega

end Loops

end Golib.HashTree
