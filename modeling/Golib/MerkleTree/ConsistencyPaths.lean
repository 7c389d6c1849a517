import Golib.MerkleTree.Consistency
import Golib.MerkleTree.InclusionProofs

/-! The consistency proof of a tree: the subtree that ends with the older leaves, and the
siblings from it up to the root. Generation reads it off the retained array; the length
loop counts it; the verifier's two shifted counters follow it level by level. -/
namespace Golib.MerkleTree

open HashTree Polled Nat List

theorem shiftRight64_add (x : UInt64) (s t : Nat) :
    shiftRight64 (shiftRight64 x s) t = shiftRight64 x (s + t) := by
  apply UInt64.toNat_inj.mp
  rw [toNat_shiftRight64, toNat_shiftRight64, toNat_shiftRight64,
    Nat.div_div_eq_div_mul, Nat.pow_add]

theorem shiftRight64_one (x : UInt64) : x >>> 1 = shiftRight64 x 1 := by
  apply UInt64.toNat_inj.mp
  rw [toNat_halve, toNat_shiftRight64, pow_one]

theorem shiftRight64_succ (x : UInt64) (s : Nat) :
    shiftRight64 x s >>> 1 = shiftRight64 x (s + 1) := by
  rw [shiftRight64_one, shiftRight64_add]

theorem initialShift_spec {size : UInt64} (pos : 0 < size.toNat) :
    ∃ odd, odd % 2 = 1 ∧ size.toNat = odd * 2 ^ trailingZeros64 (~~~(size - 1)) := by
  have word := size.toNat_lt
  have prev : (size - 1).toNat = size.toNat - 1 := toNat_sub_of_le (by simp; omega)
  have complement : (~~~(size - 1)).toNat = 2 ^ 64 - size.toNat := by
    simp
    omega
  obtain ⟨whole, odd, small⟩ := trailingZeros_spec 64 (2 ^ 64 - size.toNat) (by omega) (by omega)
  rw [trailingZeros64, complement]
  generalize trailingZeros 64 (2 ^ 64 - size.toNat) = s at whole odd small ⊢
  generalize (2 ^ 64 - size.toNat) / 2 ^ s = q at whole odd
  have power : 2 ^ 64 = 2 ^ (63 - s) * 2 * 2 ^ s := by
    rw [← pow_succ, ← pow_add]
    congr 1
    omega
  refine ⟨2 ^ (63 - s) * 2 - q, ?_, ?_⟩
  · have below : q < 2 ^ (63 - s) * 2 := by
      apply Nat.lt_of_mul_lt_mul_right (a := 2 ^ s)
      omega
    omega
  · rw [Nat.sub_mul, ← power, ← whole]
    omega

variable {D : Type} (H : Hasher D) {l r t : DigestTree D} {m s n : Nat} {older : UInt64}

/-- The digest of the complete subtree whose last leaf is number `m`. -/
def stopDigest : DigestTree D → Nat → D
  | .leaf d, _ => d
  | .node l r, m =>
    if m = l.size + r.size then (DigestTree.node l r).digest H.hashBranch
    else if m ≤ l.size then stopDigest l m
    else stopDigest r (m - l.size)

/-- The siblings from that subtree up to the root. -/
def climb : DigestTree D → Nat → List D
  | .leaf _, _ => []
  | .node l r, m =>
    if m = l.size + r.size then []
    else if m ≤ l.size then climb l m ++ [r.digest H.hashBranch]
    else climb r (m - l.size) ++ [l.digest H.hashBranch]

/-- That subtree stands at the left edge, so it is the whole older tree. -/
def onSpine : DigestTree D → Nat → Bool
  | .leaf _, _ => true
  | .node l r, m => m == l.size + r.size || (decide (m ≤ l.size) && onSpine l m)

/-- The proof nodes; `complete` says that the tree itself stands at the left edge. -/
def subproof (t : DigestTree D) (m : Nat) (complete : Bool) : List D :=
  (if complete && onSpine t m then [] else [stopDigest H t m]) ++ climb H t m

@[simp] theorem stopDigest_size (t : DigestTree D) :
    stopDigest H t t.size = t.digest H.hashBranch := by
  cases t <;> simp [stopDigest, DigestTree.size, DigestTree.digest]

@[simp] theorem climb_size (t : DigestTree D) : climb H t t.size = [] := by
  cases t <;> simp [climb, DigestTree.size]

omit H in
@[simp] theorem onSpine_size (t : DigestTree D) : onSpine t t.size = true := by
  cases t <;> simp [onSpine, DigestTree.size]

theorem subproof_left (small : m ≤ l.size) (complete : Bool) :
    subproof H (.node l r) m complete = subproof H l m complete ++ [r.digest H.hashBranch] := by
  have ne : ¬ m = l.size + r.size := by
    have := r.size_pos
    omega
  simp [subproof, onSpine, stopDigest, climb, ne, small]

theorem subproof_right (large : l.size < m) (sub : m < l.size + r.size) (complete : Bool) :
    subproof H (.node l r) m complete =
      subproof H r (m - l.size) false ++ [l.digest H.hashBranch] := by
  have ne : ¬ m = l.size + r.size := by omega
  have above : ¬ m ≤ l.size := by omega
  simp [subproof, onSpine, stopDigest, climb, ne, above]

theorem treeHash_take_left (small : m ≤ l.size) :
    treeHash H.hashBranch H.empty ((DigestTree.node l r).leaves.take m) =
      treeHash H.hashBranch H.empty (l.leaves.take m) := by
  rw [DigestTree.leaves, take_append_of_le_length (by simpa using small)]

theorem treeHash_take_right (bal : Balanced (.node l r)) (large : l.size < m)
    (sub : m ≤ l.size + r.size) :
    treeHash H.hashBranch H.empty ((DigestTree.node l r).leaves.take m) =
      H.hashBranch (l.digest H.hashBranch)
        (treeHash H.hashBranch H.empty (r.leaves.take (m - l.size))) := by
  have lpos := l.size_pos
  obtain ⟨k, cut, above, below⟩ := split_bounds (n := l.size + r.size) (by omega)
  have left : l.size = 2 ^ k := bal.1.trans cut
  have length : ((DigestTree.node l r).leaves.take m).length = m := by
    rw [length_take, DigestTree.length_leaves, DigestTree.size]
    omega
  rw [treeHash_two_pow H.hashBranch H.empty (k := k) (by omega) (by omega), ← left, take_take,
    min_eq_left (by omega), drop_take, DigestTree.leaves, take_left' (by simp),
    drop_left' (by simp), treeHash_leaves _ _ bal.2.1]

section Generation

variable {H} (alg : UInt8) {t : DigestTree D} {array : List (SnapshotNode D)} {base : Nat}

theorem Holds.size_toNat (fits : array.length < 2 ^ 64) (held : Holds H array base t) :
    (UInt64.ofNat t.size).toNat = t.size := by
  have bound := held.bound
  unfold nodeCount at bound
  exact toNat_ofNat_of_lt (by omega)

theorem appendConsistencySubproof_stop (fits : array.length < 2 ^ 64) (bal : Balanced t)
    (held : Holds H array base t) (fuel : Nat) (stop : older.toNat = t.size) (complete : Bool)
    (ns : List (Digest D)) :
    (appendConsistencySubproof H alg array (fuel + 1) (UInt64.ofNat (base + nodeCount t - 1))
      older complete ns).outcome = .ok (treeHash H.hashBranch H.empty (t.leaves.take older.toNat),
        ns ++ (subproof H t older.toNat complete).map (newDigest alg)) := by
  have equal : older = (rootEntry H base t).size := by
    rw [rootEntry_size, ← UInt64.toNat_inj, Holds.size_toNat fits held, stop]
  have all : t.leaves.take older.toNat = t.leaves := by
    rw [stop, ← DigestTree.length_leaves, take_length]
  rw [appendConsistencySubproof, poll_bind]
  refine bind_ok.mpr ⟨_, held.read (by omega), ?_⟩
  rw [if_pos equal, all, treeHash_leaves _ _ bal, rootEntry_digest, stop]
  cases complete <;> simp [subproof]

theorem appendConsistencySubproof_eq {fuel : Nat} (fits : array.length < 2 ^ 64) (bal : Balanced t)
    (held : Holds H array base t) (enough : t.size ≤ fuel) (pos : 0 < older.toNat)
    (sub : older.toNat ≤ t.size) (complete : Bool) (ns : List (Digest D)) :
    (appendConsistencySubproof H alg array fuel (UInt64.ofNat (base + nodeCount t - 1)) older
      complete ns).outcome = .ok (treeHash H.hashBranch H.empty (t.leaves.take older.toNat),
        ns ++ (subproof H t older.toNat complete).map (newDigest alg)) := by
  induction t generalizing base fuel older complete ns with
  | leaf d =>
    obtain ⟨fuel, rfl⟩ := exists_eq_add_one.mpr ((DigestTree.size_pos _).trans_le enough)
    exact appendConsistencySubproof_stop alg fits bal held fuel
      (by simp only [DigestTree.size] at sub ⊢; omega) complete ns
  | node l r hl hr =>
    have lpos := l.size_pos
    have rpos := r.size_pos
    obtain ⟨fuel, rfl⟩ := exists_eq_add_one.mpr ((DigestTree.size_pos _).trans_le enough)
    by_cases stop : older.toNat = (DigestTree.node l r).size
    · exact appendConsistencySubproof_stop alg fits bal held fuel stop complete ns
    · have whole := Holds.size_toNat fits held
      have lsize := Holds.size_toNat fits held.left
      have left := held.left.read (by omega)
      have right := held.right.read (by omega)
      have ne : ¬ older = (rootEntry H base (.node l r)).size := by
        rw [rootEntry_size, ← UInt64.toNat_inj, whole]
        exact stop
      simp only [DigestTree.size] at enough sub stop
      rw [appendConsistencySubproof, poll_bind]
      refine bind_ok.mpr ⟨_, held.read (by omega), ?_⟩
      rw [if_neg ne]
      refine bind_ok.mpr ⟨_, left, ?_⟩
      simp only [rootEntry_size, UInt64.le_iff_toNat_le, lsize]
      by_cases side : older.toNat ≤ l.size
      · rw [if_pos side]
        refine bind_ok.mpr
          ⟨_, hl bal.2.1 held.left (by omega) pos side complete ns, ?_⟩
        refine bind_ok.mpr ⟨_, right, ?_⟩
        rw [treeHash_take_left H side, subproof_left H side]
        simp
      · have shifted : (older - UInt64.ofNat l.size).toNat = older.toNat - l.size := by
          rw [toNat_sub_of_le (by omega), lsize]
        rw [if_neg side]
        refine bind_ok.mpr
          ⟨_, hr bal.2.2 held.right (by omega) (by omega) (by omega) false ns, ?_⟩
        rw [treeHash_take_right H bal (by omega) sub, subproof_right H (by omega) (by omega),
          shifted]
        simp

end Generation

theorem stop_length (t : DigestTree D) (complete : Bool) (length : UInt64) :
    (if complete then length else length + 1) =
      length + UInt64.ofNat (subproof H t t.size complete).length := by
  cases complete <;> simp [subproof]

theorem consistencyPathLoop_eq {rounds : Nat} {newer : UInt64}
    (bal : Balanced t) (small : t.size ≤ 2 ^ rounds)
    (whole : newer.toNat = t.size) (pos : 0 < older.toNat) (sub : older.toNat ≤ t.size)
    (complete : Bool) (length : UInt64) :
    consistencyPathLoop rounds older newer complete length =
      length + UInt64.ofNat (subproof H t older.toNat complete).length := by
  induction t generalizing rounds older newer complete length with
  | leaf d =>
    have stop : older.toNat = (DigestTree.leaf d).size := by
      simp only [DigestTree.size] at sub ⊢
      omega
    have last : ¬ older < newer := by
      rw [UInt64.lt_iff_toNat_lt, whole, stop]
      exact lt_irrefl _
    rw [stop, ← stop_length]
    cases rounds with
    | zero => rfl
    | succ rounds => rw [consistencyPathLoop, if_neg last]
  | node l r hl hr =>
    have lpos := l.size_pos
    have rpos := r.size_pos
    cases rounds with
    | zero =>
      simp only [DigestTree.size] at small
      omega
    | succ rounds =>
      rw [consistencyPathLoop]
      by_cases stop : older.toNat = (DigestTree.node l r).size
      · rw [if_neg (by rw [UInt64.lt_iff_toNat_lt]; omega), stop, ← stop_length]
      · simp only [DigestTree.size] at small whole sub stop
        obtain ⟨left, right⟩ := bal.halves small
        obtain ⟨lsize, rsize⟩ := Balanced.split_sizes bal whole
        rw [if_pos (by rw [UInt64.lt_iff_toNat_lt]; omega)]
        simp only [UInt64.le_iff_toNat_le, lsize]
        by_cases side : older.toNat ≤ l.size
        · rw [if_pos side, subproof_left H side, hl bal.2.1 left lsize pos side]
          simp [UInt64.ofNat_add, UInt64.add_assoc, UInt64.add_comm 1]
        · have shifted : (older - largestPowerOfTwoBelow newer).toNat = older.toNat - l.size := by
            rw [toNat_sub_of_le (by omega), lsize]
          rw [if_neg side, subproof_right H (by omega) (by omega), ← shifted,
            hr bal.2.2 right rsize (by omega) (by omega)]
          simp [UInt64.ofNat_add, UInt64.add_assoc, UInt64.add_comm 1]

theorem length_climb_le (bal : Balanced t) (small : t.size ≤ 2 ^ n) (m : Nat) :
    (climb H t m).length ≤ n := by
  induction t generalizing n m with
  | leaf d => simp [climb]
  | node l r hl hr =>
    have lpos := l.size_pos
    have rpos := r.size_pos
    cases n with
    | zero =>
      simp only [DigestTree.size] at small
      omega
    | succ n =>
      obtain ⟨left, right⟩ := bal.halves small
      have := hl bal.2.1 left m
      have := hr bal.2.2 right (m - l.size)
      rw [climb]
      split
      · simp
      · split <;> simp only [length_append, length_singleton] <;> omega

theorem length_subproof_le (bal : Balanced t) (small : t.size ≤ 2 ^ n) (m : Nat)
    (complete : Bool) : (subproof H t m complete).length ≤ n + 1 := by
  have climbs := length_climb_le H bal small m
  rw [subproof, length_append]
  split <;> simp only [length_nil, length_singleton] <;> omega

theorem exists_level (pos : 0 < n) : ∃ k, 2 ^ k < 2 * n ∧ n ≤ 2 ^ k := by
  by_cases one : n = 1
  · exact ⟨0, by omega, by omega⟩
  · obtain ⟨k, _, above, below⟩ := split_bounds (n := n) (by omega)
    exact ⟨k + 1, by rw [pow_succ]; omega, below⟩

theorem odd_part_unique {a b : Nat} {t : Nat} (left : a % 2 = 1) (right : b % 2 = 1)
    (eq : a * 2 ^ s = b * 2 ^ t) : s = t := by
  have hs := trailingZeros_eq (s + t + 1) a s (by omega) left
  have ht := trailingZeros_eq (s + t + 1) b t (by omega) right
  rw [eq] at hs
  exact hs.symm.trans ht

section Walk

variable {H} (alg : UInt8) {f g : UInt64} {t : DigestTree D} {L odd q K : Nat}

/-- One level up on the left: the older node stays, the newer one gets its right sibling. -/
theorem loop_left (older : f.toNat = m - 1) (newer : g.toNat = n - 1)
    (start : q * 2 ^ (K + 1) < m) (stop : m ≤ q * 2 ^ (K + 1) + 2 ^ K)
    (beyond : q * 2 ^ (K + 1) + 2 ^ K < n) (first second c : D) (rest : List (Digest D)) :
    (verifyConsistencyLoop H (shiftRight64 f K) (shiftRight64 g K) first second
      (newDigest alg c :: rest)).outcome =
    (verifyConsistencyLoop H (shiftRight64 f (K + 1)) (shiftRight64 g (K + 1)) first
      (H.hashBranch second c) rest).outcome := by
  have power : 0 < 2 ^ K := Nat.two_pow_pos K
  have double : q * 2 ^ (K + 1) = 2 * q * 2 ^ K := by
    rw [pow_succ]
    ac_rfl
  have fplace : (shiftRight64 f K).toNat = 2 * q := by
    rw [toNat_shiftRight64, older]
    apply Nat.div_eq_of_lt_le
    · omega
    · rw [Nat.succ_mul]
      omega
  have gplace : 2 * q + 1 ≤ (shiftRight64 g K).toNat := by
    rw [toNat_shiftRight64, newer, le_div_iff_mul_le power, add_mul, one_mul]
    omega
  have more : ¬ shiftRight64 g K = 0 := by
    rw [← UInt64.toNat_inj]
    simp only [UInt64.toNat_zero]
    omega
  have single : ¬ (shiftRight64 f K &&& 1 = 1 ∨ shiftRight64 f K = shiftRight64 g K) := by
    rw [and_one_eq_one, ← UInt64.toNat_inj]
    omega
  rw [verifyConsistencyLoop, poll_bind, failIf_bind, if_neg more, if_neg single,
    shiftRight64_succ, shiftRight64_succ, newDigest_value]

/-- Joining to the left from level `L` to level `K + 1`: both nodes get the left sibling. -/
theorem loop_right (older : f.toNat = m - 1) (newer : g.toNat = n - 1)
    (order : m ≤ n) (level : L ≤ K) (start : (2 * q + 1) * 2 ^ K < m)
    (stop : m ≤ (2 * q + 1) * 2 ^ K + 2 ^ L) (edge : L = K ∨ n ≤ (2 * q + 1) * 2 ^ K + 2 ^ L)
    (bound : K < 64) (first second c : D) (rest : List (Digest D)) :
    (verifyConsistencyLoop H (shiftRight64 f L) (shiftRight64 g L) first second
      (newDigest alg c :: rest)).outcome =
    (verifyConsistencyLoop H (shiftRight64 f (K + 1)) (shiftRight64 g (K + 1))
      (H.hashBranch c first)
      (H.hashBranch c second) rest).outcome := by
  obtain ⟨d, rfl⟩ : ∃ d, K = L + d := ⟨K - L, by omega⟩
  have base : (2 * q + 1) * 2 ^ (L + d) = (2 * q + 1) * 2 ^ d * 2 ^ L := by
    rw [pow_add]
    ac_rfl
  have fplace : (shiftRight64 f L).toNat = (2 * q + 1) * 2 ^ d := by
    rw [toNat_shiftRight64, older]
    apply Nat.div_eq_of_lt_le
    · omega
    · rw [Nat.succ_mul]
      omega
  have gplace : (shiftRight64 f L).toNat ≤ (shiftRight64 g L).toNat := by
    rw [toNat_shiftRight64, toNat_shiftRight64, older, newer]
    exact Nat.div_le_div_right (by omega)
  have zeros : trailingZeros64 (shiftRight64 f L) = d := by
    rw [trailingZeros64, fplace]
    exact trailingZeros_eq 64 _ d (by omega) (by omega)
  have pos : 0 < (2 * q + 1) * 2 ^ d := Nat.mul_pos (by omega) (Nat.two_pow_pos d)
  have more : ¬ shiftRight64 g L = 0 := by
    rw [← UInt64.toNat_inj]
    simp only [UInt64.toNat_zero]
    omega
  have joins : shiftRight64 f L &&& 1 = 1 ∨ shiftRight64 f L = shiftRight64 g L := by
    rcases edge with eq | last
    · have none : d = 0 := by omega
      subst none
      rw [and_one_eq_one, fplace]
      simp
    · right
      rw [← UInt64.toNat_inj, fplace, toNat_shiftRight64, newer]
      symm
      apply Nat.div_eq_of_lt_le
      · omega
      · rw [Nat.succ_mul]
        omega
  rw [verifyConsistencyLoop, poll_bind, failIf_bind, if_neg more, if_pos joins]
  simp only [zeros, shiftRight64_succ, shiftRight64_add, newDigest_value, add_assoc]

variable (H f g t) in
/-- The walk from level `s` over the siblings of a subtree ends on level `L`, at the hash of its
first `m` leaves and at its digest. -/
def Climbs (s L m : Nat) : Prop := ∀ rest,
  (verifyConsistencyLoop H (shiftRight64 f s) (shiftRight64 g s) (stopDigest H t m)
    (stopDigest H t m)
    ((climb H t m).map (newDigest alg) ++ rest)).outcome =
  (verifyConsistencyLoop H (shiftRight64 f L) (shiftRight64 g L)
    (treeHash H.hashBranch H.empty (t.leaves.take m)) (t.digest H.hashBranch) rest).outcome

theorem climb_walk_stop (isOdd : odd % 2 = 1) (size : m = odd * 2 ^ s)
    (bal : Balanced t) (full : t.size = 2 ^ L) (even : q % 2 = 0)
    (stop : m = q * 2 ^ L + t.size) : Climbs H alg f g t s L (m - q * 2 ^ L) := by
  intro rest
  have level : s = L := by
    apply odd_part_unique isOdd (b := q + 1) (by omega)
    rw [← size, stop, full, add_mul, one_mul]
  have all : m - q * 2 ^ L = t.size := by omega
  have whole : t.leaves.take t.size = t.leaves := by rw [← DigestTree.length_leaves, take_length]
  rw [all, whole, level, stopDigest_size, climb_size, treeHash_leaves _ _ bal]
  rfl

/-- The walk over the siblings of a subtree ends on the level of that subtree. The subtree
starts at place `q` of its level; it is complete or holds the last leaf of the newer tree. -/
theorem climb_walk (older : f.toNat = m - 1) (newer : g.toNat = n - 1)
    (proper : m < n) (word : n ≤ 2 ^ 64) (isOdd : odd % 2 = 1) (size : m = odd * 2 ^ s)
    (bal : Balanced t) (lower : 2 ^ L < 2 * t.size) (upper : t.size ≤ 2 ^ L)
    (edge : t.size = 2 ^ L ∨ q * 2 ^ L + t.size = n) (start : q * 2 ^ L < m)
    (sub : m ≤ q * 2 ^ L + t.size) (within : q * 2 ^ L + t.size ≤ n)
    (stop : m = q * 2 ^ L + t.size → q % 2 = 0) : Climbs H alg f g t s L (m - q * 2 ^ L) := by
  induction t generalizing L q with
  | leaf d =>
    have last : m = q * 2 ^ L + (DigestTree.leaf d).size := by
      simp only [DigestTree.size] at sub ⊢
      omega
    exact climb_walk_stop alg isOdd size bal (edge.resolve_right (by omega)) (stop last)
      last
  | node l r hl hr =>
    by_cases last : m = q * 2 ^ L + (DigestTree.node l r).size
    · exact climb_walk_stop alg isOdd size bal (edge.resolve_right (by omega)) (stop last)
        last
    · intro rest
      have rpos := r.size_pos
      simp only [DigestTree.size] at lower upper edge sub within last
      obtain ⟨K, cut, above, below⟩ := split_bounds (n := l.size + r.size) (by omega)
      have left : l.size = 2 ^ K := bal.1.trans cut
      have level : L = K + 1 := by
        have low : K < L := (Nat.pow_lt_pow_iff_right (by omega)).mp (by omega : 2 ^ K < 2 ^ L)
        have high : L < K + 2 := (Nat.pow_lt_pow_iff_right (by omega)).mp
          (by rw [pow_succ]; omega : 2 ^ L < 2 ^ (K + 2))
        omega
      subst level
      have double : q * 2 ^ (K + 1) = 2 * q * 2 ^ K := by
        rw [pow_succ]
        ac_rfl
      have notAll : ¬ m - q * 2 ^ (K + 1) = l.size + r.size := by omega
      by_cases side : m - q * 2 ^ (K + 1) ≤ l.size
      · have walk := hl bal.2.1 (L := K) (q := 2 * q) (by omega) (by omega) (Or.inl left)
          (by omega) (by omega) (by omega) (fun _ => by omega)
          (newDigest alg (r.digest H.hashBranch) :: rest)
        rw [← double] at walk
        rw [treeHash_take_left H side, stopDigest, climb, if_neg notAll, if_pos side, if_neg notAll,
          if_pos side, map_append, append_assoc]
        refine walk.trans ?_
        exact loop_left alg older newer start (by omega) (by omega) _ _ _ rest
      · obtain ⟨M, lowM, highM⟩ := exists_level rpos
        have order : M < K + 1 := (Nat.pow_lt_pow_iff_right (by omega)).mp
          (by omega : 2 ^ M < 2 ^ (K + 1))
        have small : K < 64 := (Nat.pow_lt_pow_iff_right (by omega)).mp (by omega : 2 ^ K < 2 ^ 64)
        have base : (2 * q + 1) * 2 ^ (K - M) * 2 ^ M = q * 2 ^ (K + 1) + 2 ^ K := by
          rw [Nat.mul_assoc, ← Nat.pow_add, Nat.sub_add_cancel (by omega), Nat.add_mul, Nat.one_mul,
            double]
        have base' : (2 * q + 1) * 2 ^ K = q * 2 ^ (K + 1) + 2 ^ K := by
          rw [add_mul, one_mul, double]
        have complete (full : l.size + r.size = 2 ^ (K + 1)) : M = K := by
          have : ¬ M < K := by
            intro less
            have := Nat.pow_lt_pow_right (a := 2) (by omega) less
            omega
          omega
        have walk := hr bal.2.2 (L := M) (q := (2 * q + 1) * 2 ^ (K - M)) lowM highM
          (by
            rcases edge with full | ends
            · rw [complete full]
              omega
            · omega)
          (by omega) (by omega) (by omega) (fun done => by omega)
          (newDigest alg (l.digest H.hashBranch) :: rest)
        have o : m - (2 * q + 1) * 2 ^ (K - M) * 2 ^ M = m - q * 2 ^ (K + 1) - l.size := by omega
        rw [o] at walk
        rw [treeHash_take_right H bal (by omega) (by omega), stopDigest, climb, if_neg notAll,
          if_neg side, if_neg notAll, if_neg side, map_append, append_assoc]
        refine walk.trans ?_
        exact loop_right alg (q := q) older newer (by omega) (by omega) (by omega) (by omega)
          (edge.imp complete (fun ends => by omega)) small _ _ _ rest

theorem honestWalk (bal : Balanced t) (word : t.size < 2 ^ 64) (pos : 0 < m) (proper : m < t.size) :
    (verifyConsistencyLoop H
      (shiftRight64 (UInt64.ofNat m - 1) (trailingZeros64 (~~~(UInt64.ofNat m - 1))))
      (shiftRight64 (UInt64.ofNat t.size - 1) (trailingZeros64 (~~~(UInt64.ofNat m - 1))))
      (stopDigest H t m) (stopDigest H t m) ((climb H t m).map (newDigest alg))).outcome =
    .ok (0, treeHash H.hashBranch H.empty (t.leaves.take m), t.digest H.hashBranch) := by
  have mword : (UInt64.ofNat m).toNat = m := toNat_ofNat_of_lt (by omega)
  have tword : (UInt64.ofNat t.size).toNat = t.size := toNat_ofNat_of_lt word
  obtain ⟨odd, isOdd, v⟩ := initialShift_spec (show 0 < (UInt64.ofNat m).toNat by omega)
  rw [mword] at v
  have f : (UInt64.ofNat m - 1).toNat = m - 1 := by
    rw [toNat_sub_of_le (by simp; omega), mword]
    rfl
  have g : (UInt64.ofNat t.size - 1).toNat = t.size - 1 := by
    rw [toNat_sub_of_le (by simp; omega), tword]
    rfl
  obtain ⟨L, lower, upper⟩ := exists_level t.size_pos
  have walk := climb_walk (H := H) alg f g proper (by omega) isOdd v bal lower upper
    (q := 0) (Or.inr (by omega)) (by omega) (by omega) (by omega) (fun _ => rfl) []
  simp only [Nat.zero_mul, Nat.sub_zero, append_nil] at walk
  have done : shiftRight64 (UInt64.ofNat t.size - 1) L = 0 := by
    rw [← UInt64.toNat_inj, toNat_shiftRight64, g]
    exact Nat.div_eq_of_lt (by omega)
  rw [walk, done]
  rfl

end Walk

/-- A smaller older tree stands at the left edge exactly when its size is a power of two. -/
theorem onSpine_iff (bal : Balanced t) (pos : 0 < m) (proper : m < t.size) :
    onSpine t m = true ↔ ∃ k, m = 2 ^ k := by
  induction t with
  | leaf d =>
    simp only [DigestTree.size] at proper
    omega
  | node l r hl hr =>
    simp only [DigestTree.size] at proper
    obtain ⟨K, cut, above, below⟩ := split_bounds (n := l.size + r.size) (by omega)
    have left : l.size = 2 ^ K := bal.1.trans cut
    have ne : (m == l.size + r.size) = false := by simpa using Nat.ne_of_lt proper
    rw [onSpine, ne, Bool.false_or, Bool.and_eq_true, decide_eq_true_eq]
    rcases lt_trichotomy m l.size with less | equal | more
    · rw [hl bal.2.1 less]
      exact ⟨And.right, fun power => ⟨by omega, power⟩⟩
    · rw [equal]
      exact ⟨fun _ => ⟨K, left⟩, fun _ => ⟨le_refl _, onSpine_size l⟩⟩
    · constructor
      · omega
      · rintro ⟨k, rfl⟩
        have low : K < k := (Nat.pow_lt_pow_iff_right (by omega)).mp (by omega : 2 ^ K < 2 ^ k)
        have high : k < K + 1 := (Nat.pow_lt_pow_iff_right (by omega)).mp
          (by omega : 2 ^ k < 2 ^ (K + 1))
        omega

theorem onSpine_stop (bal : Balanced t) (pos : 0 < m) (sub : m ≤ t.size)
    (spine : onSpine t m = true) :
    stopDigest H t m = treeHash H.hashBranch H.empty (t.leaves.take m) := by
  induction t with
  | leaf d =>
    have one : m = (DigestTree.leaf d).size := by
      simp only [DigestTree.size] at sub ⊢
      omega
    simp [one, DigestTree.size, DigestTree.leaves, stopDigest]
  | node l r hl hr =>
    by_cases all : m = l.size + r.size
    · have whole : (DigestTree.node l r).leaves.take m = (DigestTree.node l r).leaves := by
        rw [all, ← DigestTree.size, ← DigestTree.length_leaves, take_length]
      rw [whole, treeHash_leaves _ _ bal, stopDigest, if_pos all]
    · simp only [onSpine, Bool.or_eq_true, beq_iff_eq, all, false_or, Bool.and_eq_true,
        decide_eq_true_eq] at spine
      rw [stopDigest, if_neg all, if_pos spine.1, treeHash_take_left H spine.1]
      exact hl bal.2.1 spine.1 spine.2

end Golib.MerkleTree
