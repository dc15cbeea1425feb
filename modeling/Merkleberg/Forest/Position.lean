import Mathlib.Data.Nat.Find
import Mathlib.Order.Monotone.Basic
import Merkleberg.Machine.Bits

open machine

namespace forest

/-- Nodes of the forest of perfect trees over `n` leaves, one tree for each
    binary digit of `n`. -/
def nodeCount (n : Nat) : Nat := 2 * n - popcount n

@[simp] theorem nodeCount_zero : nodeCount 0 = 0 := rfl

theorem le_nodeCount (n : Nat) : n ≤ nodeCount n := by
  have h := popcount_le_self n
  unfold nodeCount
  omega

theorem nodeCount_pos {n : Nat} (hn : 0 < n) : 0 < nodeCount n := hn.trans_le (le_nodeCount n)

/-- The next leaf brings itself and one parent for each tree it completes. -/
theorem nodeCount_succ (n : Nat) :
    nodeCount (n + 1) = nodeCount n + 1 + trailingZeros (n + 1) := by
  have hstep := popcount_succ n
  have hle := popcount_le_self n
  have hle' := popcount_le_self (n + 1)
  unfold nodeCount
  omega

theorem nodeCount_strictMono : StrictMono nodeCount := by
  apply strictMono_nat_of_lt_succ
  intro n
  rw [nodeCount_succ]
  omega

theorem nodeCount_le_nodeCount_iff {m n : Nat} : nodeCount m ≤ nodeCount n ↔ m ≤ n :=
  nodeCount_strictMono.le_iff_le

theorem nodeCount_lt_nodeCount_iff {m n : Nat} : nodeCount m < nodeCount n ↔ m < n :=
  nodeCount_strictMono.lt_iff_lt

/-- Low leaves sit after the trees of the high digits and do not affect them. -/
theorem nodeCount_block {k r : Nat} (a : Nat) (hr : r < 2 ^ k) :
    nodeCount (2 ^ k * a + r) = nodeCount (2 ^ k * a) + nodeCount r := by
  have hsum := popcount_block a hr
  have hhigh := popcount_two_pow_mul k a
  have hle := popcount_le_self (2 ^ k * a)
  have hle' := popcount_le_self r
  unfold nodeCount
  omega

theorem nodeCount_two_pow (k : Nat) : nodeCount (2 ^ k) = 2 ^ (k + 1) - 1 := by
  rw [nodeCount, popcount_two_pow, pow_succ]
  omega

/-- Adding a leading digit adds one perfect tree. -/
theorem nodeCount_two_pow_add {k r : Nat} (hr : r < 2 ^ k) :
    nodeCount (2 ^ k + r) = 2 ^ (k + 1) - 1 + nodeCount r := by
  have h := nodeCount_block 1 hr
  rwa [Nat.mul_one, nodeCount_two_pow] at h

theorem nodeCount_two_pow_sub_one_add (k : Nat) :
    nodeCount (2 ^ k - 1) + k + 1 = 2 ^ (k + 1) - 1 := by
  induction k with
  | zero => rfl
  | succ k ih =>
    have hpos := Nat.two_pow_pos k
    have hsplit : 2 ^ (k + 1) - 1 = 2 ^ k + (2 ^ k - 1) := by rw [pow_succ]; omega
    rw [hsplit, nodeCount_two_pow_add (by omega), pow_succ _ (k + 1), ← ih]
    omega

/-- The forest a position falls into: some count of leaves is reached at or
    before the position and the next one only after it. -/
theorem exists_nodeCount_le_lt (p : Nat) : ∃ m, nodeCount m ≤ p ∧ p < nodeCount (m + 1) := by
  induction p with
  | zero => exact ⟨0, by decide, by decide⟩
  | succ p ih =>
    obtain ⟨m, hle, hlt⟩ := ih
    by_cases h : p + 1 < nodeCount (m + 1)
    · exact ⟨m, by omega, h⟩
    · refine ⟨m + 1, by omega, ?_⟩
      have hstep := nodeCount_succ (m + 1)
      omega

theorem eq_of_nodeCount_le_lt {m m' p : Nat} (hle : nodeCount m ≤ p) (hlt : p < nodeCount (m + 1))
    (hle' : nodeCount m' ≤ p) (hlt' : p < nodeCount (m' + 1)) : m = m' := by
  have h : m < m' + 1 := nodeCount_lt_nodeCount_iff.mp (hle.trans_lt hlt')
  have h' : m' < m + 1 := nodeCount_lt_nodeCount_iff.mp (hle'.trans_lt hlt)
  omega

/-- Position, in order of insertion, of the node of height `h` over the leaves
    from `2 ^ h * k` up to `2 ^ h * (k + 1)`. It is the last node of the subtree
    that starts where the trees before its first leaf end. -/
def nodePos (h k : Nat) : Nat := nodeCount (2 ^ h * k) + (2 ^ (h + 1) - 2)

@[simp] theorem nodePos_zero (k : Nat) : nodePos 0 k = nodeCount k := by
  simp [nodePos]

/-- A node is inserted together with the last leaf under it, once for each
    height that leaf completes. -/
theorem nodePos_eq_last (h k : Nat) :
    nodePos h k = nodeCount (2 ^ h * k + (2 ^ h - 1)) + h := by
  have hpos := Nat.two_pow_pos h
  have hfull := nodeCount_two_pow_sub_one_add h
  rw [nodePos, nodeCount_block k (by omega)]
  omega

theorem nodePos_left (h k : Nat) : nodePos h (2 * k) + 2 ^ (h + 1) = nodePos (h + 1) k := by
  have hpos := Nat.two_pow_pos h
  have hstart : 2 ^ h * (2 * k) = 2 ^ (h + 1) * k := by ring
  rw [nodePos, nodePos, hstart, pow_succ _ (h + 1), pow_succ]
  omega

theorem nodePos_right (h k : Nat) : nodePos h (2 * k + 1) + 1 = nodePos (h + 1) k := by
  have hpos := Nat.two_pow_pos h
  have hstart : 2 ^ h * (2 * k + 1) = 2 ^ (h + 1) * k + 2 ^ h := by ring
  have hblock := nodeCount_block (k := h + 1) k (r := 2 ^ h) (by rw [pow_succ]; omega)
  rw [nodePos, nodePos, hstart, hblock, nodeCount_two_pow, pow_succ _ (h + 1), pow_succ]
  omega

/-- The height of a node divides the index of the leaf after its last one. -/
theorem nodePos_bounds (h k : Nat) :
    nodeCount (2 ^ h * k + (2 ^ h - 1)) ≤ nodePos h k ∧
      nodePos h k < nodeCount (2 ^ h * (k + 1)) := by
  have hpos := Nat.two_pow_pos h
  have hlast : 2 ^ h * (k + 1) = 2 ^ h * k + (2 ^ h - 1) + 1 := by
    rw [Nat.mul_succ]
    omega
  have hheight : h ≤ trailingZeros (2 ^ h * (k + 1)) :=
    (two_pow_dvd_iff (Nat.mul_pos hpos (by omega)) h).mp (Nat.dvd_mul_right _ _)
  have hstep := nodeCount_succ (2 ^ h * k + (2 ^ h - 1))
  rw [← hlast] at hstep
  rw [nodePos_eq_last]
  omega

/-- After a left child comes the first leaf to the right of it. -/
theorem nodePos_succ_of_even (h k : Nat) :
    nodePos h (2 * k) + 1 = nodePos 0 (2 ^ h * (2 * k + 1)) := by
  have hpos := Nat.two_pow_pos h
  have hstart : 2 ^ h * (2 * k + 1) = 2 ^ (h + 1) * k + 2 ^ h := by ring
  have hleft : 2 ^ h * (2 * k) = 2 ^ (h + 1) * k := by ring
  have hblock := nodeCount_block (k := h + 1) k (r := 2 ^ h) (by rw [pow_succ]; omega)
  rw [nodePos_zero, nodePos, hstart, hleft, hblock, nodeCount_two_pow, pow_succ]
  omega

/-- A node is in the forest of `n` leaves when all the leaves under it are. -/
theorem nodePos_lt_nodeCount_iff {h k n : Nat} :
    nodePos h k < nodeCount n ↔ 2 ^ h * (k + 1) ≤ n := by
  have hpos := Nat.two_pow_pos h
  have hlast : 2 ^ h * (k + 1) = 2 ^ h * k + (2 ^ h - 1) + 1 := by
    rw [Nat.mul_succ]
    omega
  obtain ⟨hle, hlt⟩ := nodePos_bounds h k
  constructor
  · intro hinside
    have := nodeCount_lt_nodeCount_iff.mp (hle.trans_lt hinside)
    omega
  · intro hcover
    exact hlt.trans_le (nodeCount_le_nodeCount_iff.mpr hcover)

theorem nodePos_inj {h h' k k' : Nat} (heq : nodePos h k = nodePos h' k') : h = h' ∧ k = k' := by
  have hpos := Nat.two_pow_pos h
  have hlast (h k : Nat) : 2 ^ h * (k + 1) = 2 ^ h * k + (2 ^ h - 1) + 1 := by
    have := Nat.two_pow_pos h
    rw [Nat.mul_succ]
    omega
  obtain ⟨hle, hlt⟩ := nodePos_bounds h k
  obtain ⟨hle', hlt'⟩ := nodePos_bounds h' k'
  rw [hlast] at hlt hlt'
  have hleaf := eq_of_nodeCount_le_lt hle hlt (heq ▸ hle') (heq ▸ hlt')
  have hheight : h = h' := by
    rw [nodePos_eq_last, nodePos_eq_last, hleaf] at heq
    omega
  subst hheight
  exact ⟨rfl, Nat.eq_of_mul_eq_mul_left hpos (by omega)⟩

/-- Every position is that of some node. -/
theorem exists_nodePos (p : Nat) : ∃ h k, nodePos h k = p := by
  obtain ⟨m, hle, hlt⟩ := exists_nodeCount_le_lt p
  rw [nodeCount_succ] at hlt
  obtain ⟨c, hc⟩ := (two_pow_dvd_iff (n := m + 1) (by omega) (p - nodeCount m)).mpr (by omega)
  have hpos := Nat.two_pow_pos (p - nodeCount m)
  cases c with
  | zero => omega
  | succ k =>
    refine ⟨p - nodeCount m, k, ?_⟩
    have hleaf : 2 ^ (p - nodeCount m) * k + (2 ^ (p - nodeCount m) - 1) = m := by
      rw [Nat.mul_succ] at hc
      omega
    rw [nodePos_eq_last, hleaf]
    omega

/-- Nodes right of a leading full tree are those of the rest, moved by its size. -/
theorem nodePos_jump {h k w : Nat} (hh : h ≤ w) (hstart : 2 ^ w ≤ 2 ^ h * k)
    (hstop : 2 ^ h * (k + 1) ≤ 2 ^ (w + 1)) :
    nodePos h k = 2 ^ (w + 1) - 1 + nodePos h (k - 2 ^ (w - h)) := by
  have hpos := Nat.two_pow_pos h
  have hsplit : 2 ^ w = 2 ^ h * 2 ^ (w - h) := by
    rw [← pow_add]
    congr 1
    omega
  have hrest : 2 ^ h * (k - 2 ^ (w - h)) = 2 ^ h * k - 2 ^ w := by
    rw [Nat.mul_sub, hsplit]
  have hblock := nodeCount_two_pow_add (k := w) (r := 2 ^ h * k - 2 ^ w) (by
    rw [Nat.mul_succ, pow_succ 2 w] at hstop
    omega)
  rw [Nat.add_sub_cancel' hstart] at hblock
  rw [nodePos, nodePos, hrest, hblock]
  omega

/-- A parent comes after its children. -/
theorem nodePos_lt_parent (h k : Nat) : nodePos h k < nodePos (h + 1) (k / 2) := by
  rcases even_or_odd_half k with hk | hk
  · have hleft := nodePos_left h (k / 2)
    have := Nat.two_pow_pos (h + 1)
    rw [← hk] at hleft
    omega
  · have hright := nodePos_right h (k / 2)
    rw [← hk] at hright
    omega

/-- Height of the node at a position. -/
def nodeHeight (p : Nat) : Nat := p - nodeCount (Nat.findGreatest (nodeCount · ≤ p) p)

/-- Index of the node at a position among the nodes of its height. -/
def nodeIndex (p : Nat) : Nat := Nat.findGreatest (nodeCount · ≤ p) p / 2 ^ nodeHeight p

/-- The last leaf under a node is the last one inserted by its position. -/
theorem findGreatest_nodePos (h k : Nat) :
    Nat.findGreatest (nodeCount · ≤ nodePos h k) (nodePos h k) = 2 ^ h * k + (2 ^ h - 1) := by
  have hpos := Nat.two_pow_pos h
  obtain ⟨hle, hlt⟩ := nodePos_bounds h k
  have hlast : 2 ^ h * (k + 1) = 2 ^ h * k + (2 ^ h - 1) + 1 := by
    rw [Nat.mul_succ]
    omega
  rw [Nat.findGreatest_eq_iff]
  refine ⟨(le_nodeCount _).trans hle, fun _ => hle, ?_⟩
  intro m hm _ hcount
  have := nodeCount_le_nodeCount_iff.mpr (show 2 ^ h * (k + 1) ≤ m by omega)
  omega

@[simp] theorem nodeHeight_nodePos (h k : Nat) : nodeHeight (nodePos h k) = h := by
  rw [nodeHeight, findGreatest_nodePos, nodePos_eq_last]
  omega

@[simp] theorem nodeIndex_nodePos (h k : Nat) : nodeIndex (nodePos h k) = k := by
  have hpos := Nat.two_pow_pos h
  rw [nodeIndex, findGreatest_nodePos, nodeHeight_nodePos, Nat.add_comm,
    Nat.add_mul_div_left _ _ hpos, Nat.div_eq_of_lt (by omega), Nat.zero_add]

@[simp] theorem nodePos_nodeHeight_nodeIndex (p : Nat) :
    nodePos (nodeHeight p) (nodeIndex p) = p := by
  obtain ⟨h, k, rfl⟩ := exists_nodePos p
  simp

/-- Height is what a position exceeds the forest it falls into by. -/
theorem nodeHeight_eq {m p : Nat} (hle : nodeCount m ≤ p) (hlt : p < nodeCount (m + 1)) :
    p - nodeCount m = nodeHeight p := by
  obtain ⟨h, k, rfl⟩ := exists_nodePos p
  have hpos := Nat.two_pow_pos h
  obtain ⟨hle', hlt'⟩ := nodePos_bounds h k
  have hlast : 2 ^ h * (k + 1) = 2 ^ h * k + (2 ^ h - 1) + 1 := by
    rw [Nat.mul_succ]
    omega
  rw [hlast] at hlt'
  rw [eq_of_nodeCount_le_lt hle hlt hle' hlt', nodeHeight_nodePos, nodePos_eq_last]
  omega

/-- The nodes a leaf brings have the heights that it completes. -/
theorem nodeHeight_nodeCount_add {n j : Nat} (hj : j ≤ trailingZeros (n + 1)) :
    nodeHeight (nodeCount n + j) = j := by
  have hstep := nodeCount_succ n
  have hheight := nodeHeight_eq (m := n) (p := nodeCount n + j) (by omega) (by omega)
  omega

@[simp] theorem nodeHeight_nodeCount (n : Nat) : nodeHeight (nodeCount n) = 0 :=
  nodeHeight_nodeCount_add (j := 0) (Nat.zero_le _)

/-- The digits of a count below those its next leaf leaves alone are all set. -/
theorem testBit_iff_lt_trailingZeros {n j : Nat} (hj : j ≤ trailingZeros (n + 1)) :
    n.testBit j = true ↔ j < trailingZeros (n + 1) := by
  have hpos := Nat.two_pow_pos j
  obtain ⟨c, hc⟩ := (two_pow_dvd_iff (n := n + 1) (by omega) j).mpr hj
  have hquotient : n / 2 ^ j = c - 1 := by
    have hc' : c ≠ 0 := by
      rintro rfl
      omega
    obtain ⟨c, rfl⟩ : ∃ d, c = d + 1 := ⟨c - 1, by omega⟩
    rw [Nat.mul_succ] at hc
    rw [show n = 2 ^ j * c + (2 ^ j - 1) by omega, Nat.mul_add_div hpos,
      Nat.div_eq_of_lt (by omega)]
    omega
  have hnext : j < trailingZeros (n + 1) ↔ 2 ∣ c := by
    rw [← Nat.succ_le_iff, ← two_pow_dvd_iff (by omega), hc, pow_succ]
    exact Nat.mul_dvd_mul_iff_left hpos
  have hc' : c ≠ 0 := by
    rintro rfl
    omega
  rw [Nat.testBit_eq_decide_div_mod_eq, decide_eq_true_eq, hquotient, hnext]
  omega

/-- The lowest node of a height has that height's full tree below it. -/
theorem two_pow_le_nodePos (h k : Nat) : 2 ^ (h + 1) ≤ nodePos h k + 2 := by
  unfold nodePos
  omega

/-- The left child of a parent that the next leaf completes was there before. -/
theorem left_child_old {n j : Nat} (hj : j < trailingZeros (n + 1)) :
    2 ^ (j + 1) ≤ nodeCount n + (j + 1) ∧
      nodeCount n + (j + 1) - 2 ^ (j + 1) < nodeCount n := by
  have hself : j + 1 < 2 ^ (j + 1) := Nat.lt_two_pow_self
  have hheight := nodeHeight_nodeCount_add (n := n) (j := j + 1) hj
  have hnode := nodePos_nodeHeight_nodeIndex (nodeCount n + (j + 1))
  rw [hheight] at hnode
  have hwidth := two_pow_le_nodePos (j + 1) (nodeIndex (nodeCount n + (j + 1)))
  rw [hnode, pow_succ 2 (j + 1)] at hwidth
  omega

theorem nodeHeight_lt {p w : Nat} (hw : 0 < w) (hlt : p < 2 ^ w) : nodeHeight p < w := by
  obtain ⟨h, k, rfl⟩ := exists_nodePos p
  rw [nodeHeight_nodePos]
  by_contra hnot
  have hle := two_pow_le_nodePos h k
  have hpow := Nat.pow_le_pow_right (n := 2) (by omega) (show w + 1 ≤ h + 1 by omega)
  have htwo := Nat.pow_le_pow_right (n := 2) (by omega) (show 1 ≤ w by omega)
  rw [pow_succ 2 w] at hpow
  omega

end forest
