import Merkleberg.Helper
import Merkleberg.Forest.Peaks

open machine machine.Outcome
open forest

namespace merkleberg.helper

variable {ε : Type} {b : Profile}

/-- The smallest all-ones number that is not below a positive word. -/
theorem initial_peak_size {x : Nat} (hx : 0 < x) (hlt : x < 2 ^ 64) :
    (U64.shr b U64.max (U64.leadingZeros x) : Outcome ε Nat) = ok (2 ^ (x.log2 + 1) - 1) := by
  have hlog : x.log2 < 64 := (Nat.log2_lt hx.ne').mpr hlt
  have hzeros : U64.leadingZeros x = 63 - x.log2 := by simp [U64.leadingZeros, hx.ne']
  have hsplit : (2 : Nat) ^ 64 = 2 ^ (63 - x.log2) * 2 ^ (x.log2 + 1) := by
    rw [← pow_add]
    congr 1
    omega
  have hpos := Nat.two_pow_pos (63 - x.log2)
  have hmax : U64.max = (2 ^ (63 - x.log2) - 1) + 2 ^ (63 - x.log2) * (2 ^ (x.log2 + 1) - 1) := by
    have hle := Nat.le_mul_of_pos_right (2 ^ (63 - x.log2)) (Nat.two_pow_pos (x.log2 + 1))
    rw [← hsplit] at hle
    rw [U64.max, Nat.mul_sub, Nat.mul_one, ← hsplit]
    omega
  rw [U64.shr, Word.shr_ok (by omega), hzeros, hmax, Nat.add_mul_div_left _ _ hpos,
    Nat.div_eq_of_lt (by omega), Nat.zero_add]

theorem two_pow_succ_sub_one_pos (k : Nat) : 0 < 2 ^ (k + 1) - 1 := by
  have := Nat.two_pow_pos k
  rw [pow_succ]
  omega

/-- Halving an all-ones number drops one digit. -/
theorem shr_all_ones (b : Profile) (k : Nat) :
    (U64.shr b (2 ^ (k + 1) - 1) 1 : Outcome ε Nat) = ok (2 ^ k - 1) := by
  have hhalf : (2 ^ (k + 1) - 1) / 2 ^ 1 = 2 ^ k - 1 := by
    rw [pow_succ]
    omega
  rw [U64.shr, Word.shr_ok (by omega), hhalf]

/-- The state of the three greedy loops with `k` digits to go: `n` leaves are
    still to be split off from `p` nodes. Past the all-ones count the remainder
    does not matter, because every later digit is taken. -/
structure Greedy (k n p : Nat) : Prop where
  digits : n < 2 ^ k
  reached : nodeCount n ≤ p
  next : p < nodeCount (n + 1) ∨ n + 1 = 2 ^ k

theorem Greedy.initial {n p : Nat} (hle : nodeCount n ≤ p)
    (hlt : p < nodeCount (n + 1)) : Greedy (p.log2 + 1) n p := by
  refine ⟨?_, hle, Or.inl hlt⟩
  exact (le_nodeCount n).trans_lt (hle.trans_lt Nat.lt_log2_self)

/-- The loops compare node counts, which decides the next digit. -/
theorem Greedy.takes_iff {k n p : Nat} (h : Greedy (k + 1) n p) :
    2 ^ (k + 1) - 1 ≤ p ↔ 2 ^ k ≤ n := by
  have hcount := nodeCount_two_pow k
  constructor
  · intro hle
    by_contra hnot
    rcases h.next with hlt | hfull
    · have := nodeCount_le_nodeCount_iff.mpr (show n + 1 ≤ 2 ^ k by omega)
      omega
    · rw [pow_succ] at hfull
      omega
  · intro hle
    have := nodeCount_le_nodeCount_iff.mpr hle
    have := h.reached
    omega

theorem Greedy.skip {k n p : Nat} (h : Greedy (k + 1) n p) (hlow : n < 2 ^ k) : Greedy k n p := by
  refine ⟨hlow, h.reached, ?_⟩
  rcases h.next with hlt | hfull
  · exact Or.inl hlt
  · rw [pow_succ] at hfull
    omega

theorem Greedy.take {k n p : Nat} (h : Greedy (k + 1) n p) (hhigh : 2 ^ k ≤ n) :
    Greedy k (n - 2 ^ k) (p - (2 ^ (k + 1) - 1)) ∧
      nodeCount n = 2 ^ (k + 1) - 1 + nodeCount (n - 2 ^ k) := by
  have hdigits : n - 2 ^ k < 2 ^ k := by
    have := h.digits
    rw [pow_succ] at this
    omega
  have hcount := nodeCount_two_pow_add hdigits
  rw [Nat.add_sub_cancel' hhigh] at hcount
  have hreached := h.reached
  refine ⟨⟨hdigits, by omega, ?_⟩, hcount⟩
  by_cases hfull : n + 1 = 2 ^ (k + 1)
  · right
    rw [pow_succ] at hfull
    omega
  · left
    have hnext := nodeCount_two_pow_add (show n - 2 ^ k + 1 < 2 ^ k by rw [pow_succ] at hfull; omega)
    rw [← Nat.add_assoc, Nat.add_sub_cancel' hhigh] at hnext
    have := h.next.resolve_right hfull
    omega

theorem pos_height_in_tree_loop {k n p fuel : Nat} (h : Greedy k n p) (hfuel : k < fuel) :
    (loop (pos_height_in_tree.body b) fuel (p, 2 ^ k - 1) : Outcome ε Nat) =
      ok (p - nodeCount n) := by
  obtain ⟨fuel, rfl⟩ : ∃ rest, fuel = rest + 1 := ⟨fuel - 1, by omega⟩
  induction k generalizing n p fuel with
  | zero =>
    have hzero : n = 0 := by
      have := h.digits
      omega
    have hbody : (pos_height_in_tree.body b (p, 2 ^ 0 - 1) : Outcome ε _) = ok (.done p) := by
      simp [pos_height_in_tree.body]
    rw [loop_done hbody, hzero, nodeCount_zero, Nat.sub_zero]
  | succ k ih =>
    obtain ⟨fuel, rfl⟩ : ∃ rest, fuel = rest + 1 := ⟨fuel - 1, by omega⟩
    have hsize := two_pow_succ_sub_one_pos k
    have hhalf : (U64.shr b (2 ^ (k + 1) - 1) 1 : Outcome ε Nat) = _ := shr_all_ones b k
    by_cases hhigh : 2 ^ k ≤ n
    · have hle := h.takes_iff.mpr hhigh
      obtain ⟨hnext, hcount⟩ := h.take hhigh
      have hbody : (pos_height_in_tree.body b (p, 2 ^ (k + 1) - 1) : Outcome ε _) =
          ok (.next (p - (2 ^ (k + 1) - 1), 2 ^ k - 1)) := by
        simp [pos_height_in_tree.body, hsize, hle, Word.sub_ok hle, hhalf]
      rw [loop_next hbody, ih hnext _ (by omega)]
      congr 1
      omega
    · have hnot : ¬ 2 ^ (k + 1) - 1 ≤ p := fun hle => hhigh (h.takes_iff.mp hle)
      have hbody : (pos_height_in_tree.body b (p, 2 ^ (k + 1) - 1) : Outcome ε _) =
          ok (.next (p, 2 ^ k - 1)) := by
        simp [pos_height_in_tree.body, hsize, hnot, hhalf]
      rw [loop_next hbody, ih (h.skip (by omega)) _ (by omega)]

/-- The greedy height is the height of the node at that position. -/
theorem pos_height_in_tree_eq {p : Nat} (hlt : p < 2 ^ 64) :
    (pos_height_in_tree b p : Outcome ε Nat) = ok (nodeHeight p) := by
  rcases Nat.eq_zero_or_pos p with rfl | hpos
  · have hheight : nodeHeight 0 = 0 := nodeHeight_nodePos 0 0
    rw [hheight]
    rfl
  · obtain ⟨n, hle, hnext⟩ := exists_nodeCount_le_lt p
    have hlog : p.log2 < 64 := (Nat.log2_lt hpos.ne').mpr hlt
    have hloop : (loop (pos_height_in_tree.body b) 65 (p, 2 ^ (p.log2 + 1) - 1) : Outcome ε Nat) = _ :=
      pos_height_in_tree_loop (.initial hle hnext) (by omega)
    have hheight : p - nodeCount n = nodeHeight p := nodeHeight_eq hle hnext
    have hsmall : nodeHeight p < 2 ^ 8 := (nodeHeight_lt (by decide) hlt).trans (by decide)
    simp only [pos_height_in_tree, hpos.ne', if_false, initial_peak_size hpos hlt, ok_bind, hloop,
      hheight, Nat.mod_eq_of_lt hsmall]

/-- Only a node of even index is not followed by its parent. -/
theorem nodeHeight_nodePos_succ (h k : Nat) :
    nodeHeight (nodePos h k + 1) = if k % 2 = 1 then h + 1 else 0 := by
  split
  · rename_i hodd
    have hright := nodePos_right h (k / 2)
    rw [show 2 * (k / 2) + 1 = k by omega] at hright
    rw [hright, nodeHeight_nodePos]
  · rename_i hodd
    have heven := nodePos_succ_of_even h (k / 2)
    rw [show 2 * (k / 2) = k by omega] at heven
    rw [heven, nodeHeight_nodePos]

/-- Words on which `all_ones` is exact: a checked build panics above, because
    the mask of a full word does not fit, and a release build wraps it to zero. -/
def allOnesLimit : Profile → Nat
  | .debug => 2 ^ 63
  | .release => 2 ^ 64 - 1

theorem allOnesLimit_le (b : Profile) : allOnesLimit b ≤ 2 ^ 64 - 1 := by
  cases b <;> decide

theorem le_allOnesLimit (b : Profile) : 2 ^ 63 ≤ allOnesLimit b := by
  cases b <;> decide

/-- `u64::BITS - pos.leading_zeros() - 1` is the index of the top bit. -/
theorem leadingZeros_eq {pos : Nat} (hpos : 0 < pos) : U64.leadingZeros pos = 63 - pos.log2 := by
  simp [U64.leadingZeros, hpos.ne']

theorem all_ones_eq {pos : Nat} (hpos : 0 < pos) (hlt : pos < allOnesLimit b) :
    (all_ones b pos : Outcome ε Bool) = ok (decide (pos = 2 ^ (pos.log2 + 1) - 1)) := by
  have hlimit := allOnesLimit_le b
  have hlog : pos.log2 < 64 := (Nat.log2_lt hpos.ne').mpr (by omega)
  have hbits : (U64.sub b 64 (63 - pos.log2) : Outcome ε Nat) = ok (pos.log2 + 1) := by
    rw [U64.sub, Word.sub_ok (by omega)]
    congr 1
    omega
  have himsb : (U64.sub b (pos.log2 + 1) 1 : Outcome ε Nat) = ok pos.log2 := Word.sub_ok (by omega)
  have hamount : (U64.add b pos.log2 1 : Outcome ε Nat) = ok (pos.log2 + 1) :=
    Word.add_ok (by omega)
  simp only [all_ones, hpos.ne', if_false, leadingZeros_eq hpos, hbits, himsb, hamount, ok_bind]
  by_cases htop : pos.log2 = 63
  · -- The mask of a full word wraps to zero, which no positive word equals.
    have hge : 2 ^ 63 ≤ pos := htop ▸ Nat.log2_self_le hpos.ne'
    cases b with
    | debug => exact absurd hlt (by simp only [allOnesLimit]; omega)
    | release =>
      have hpower : (U64.shl .release 1 (63 + 1) : Outcome ε Nat) = ok 1 := rfl
      have hmask : (U64.sub .release 1 1 : Outcome ε Nat) = ok 0 := rfl
      have hne : pos ≠ 2 ^ (63 + 1) - 1 := by
        simp only [allOnesLimit] at hlt
        omega
      simp only [htop, hpower, hmask, ok_bind, hpos.ne', hne]
  · have hpow : 2 ^ (pos.log2 + 1) < 2 ^ 64 := Nat.pow_lt_pow_right (by omega) (by omega)
    have hpower : (U64.shl b 1 (pos.log2 + 1) : Outcome ε Nat) = ok (2 ^ (pos.log2 + 1)) := by
      rw [U64.shl, Word.shl_ok (by omega) (by omega), Nat.one_mul]
    have hmask : (U64.sub b (2 ^ (pos.log2 + 1)) 1 : Outcome ε Nat) =
        ok (2 ^ (pos.log2 + 1) - 1) := Word.sub_ok (Nat.one_le_two_pow)
    simp only [hpower, hmask, ok_bind]

theorem most_sig_bit_eq {pos : Nat} (hpos : 0 < pos) (hlt : pos < 2 ^ 64) :
    (most_sig_bit b pos : Outcome ε Nat) = ok (2 ^ pos.log2) := by
  have hlog : pos.log2 < 64 := (Nat.log2_lt hpos.ne').mpr hlt
  have hbits : (U64.sub b 64 (63 - pos.log2) : Outcome ε Nat) = ok (pos.log2 + 1) := by
    rw [U64.sub, Word.sub_ok (by omega)]
    congr 1
    omega
  have himsb : (U64.sub b (pos.log2 + 1) 1 : Outcome ε Nat) = ok pos.log2 := Word.sub_ok (by omega)
  have hpow : 2 ^ pos.log2 < 2 ^ 64 := Nat.pow_lt_pow_right (by omega) hlog
  simp only [most_sig_bit, hpos.ne', if_false, leadingZeros_eq hpos, hbits, himsb, ok_bind]
  rw [U64.shl, Word.shl_ok hlog (by omega), Nat.one_mul]

/-- A node that is not a leftmost root lies right of the largest full tree
    that starts at the first position, and jumping over it keeps the height. -/
theorem nodePos_log2_jump {h k : Nat}
    (hnot : nodePos h k + 1 ≠ 2 ^ ((nodePos h k + 1).log2 + 1) - 1) :
    ∃ k', nodePos h k + 1 = nodePos h k' + 1 + (2 ^ (nodePos h k + 1).log2 - 1) := by
  have hne : nodePos h k + 1 ≠ 0 := by omega
  have hle := Nat.log2_self_le hne
  have hlt : nodePos h k + 1 < 2 ^ ((nodePos h k + 1).log2 + 1) := Nat.lt_log2_self
  generalize (nodePos h k + 1).log2 = top at *
  cases top with
  | zero => omega
  | succ w =>
    have hstop : 2 ^ h * (k + 1) ≤ 2 ^ (w + 1) := by
      rw [← nodePos_lt_nodeCount_iff, nodeCount_two_pow]
      omega
    have hbefore : ¬ 2 ^ h * (k + 1) ≤ 2 ^ w := by
      rw [← nodePos_lt_nodeCount_iff, nodeCount_two_pow]
      omega
    have hheight : h ≤ w := by
      by_contra htall
      have hpow := Nat.pow_le_pow_right (n := 2) (by omega) (show w + 1 ≤ h by omega)
      have hzero : k = 0 := by
        by_contra hk
        have := Nat.mul_le_mul_left (2 ^ h) (show 2 ≤ k + 1 by omega)
        have := Nat.two_pow_pos h
        omega
      subst hzero
      have heq : h = w + 1 := by
        have := (Nat.pow_le_pow_iff_right (by omega : 1 < 2)).mp (by simpa using hstop)
        omega
      subst heq
      apply hnot
      simp only [nodePos, Nat.mul_zero, nodeCount_zero]
      omega
    have hstart : 2 ^ w ≤ 2 ^ h * k := by
      have hsplit : 2 ^ w = 2 ^ h * 2 ^ (w - h) := by
        rw [← pow_add]
        congr 1
        omega
      rw [hsplit] at hbefore ⊢
      exact Nat.mul_le_mul_left _ (by
        have := mt (Nat.mul_le_mul_left (2 ^ h)) hbefore
        omega)
    exact ⟨k - 2 ^ (w - h), by rw [nodePos_jump hheight hstart hstop]; omega⟩

theorem index_height_mmriver_loop {h k fuel : Nat} (hlt : nodePos h k + 1 < allOnesLimit b)
    (hfuel : (nodePos h k + 1).log2 < fuel) :
    (loop (index_height_mmriver.body b) fuel (nodePos h k + 1) : Outcome ε Nat) =
      ok (2 ^ (h + 1) - 1) := by
  have hlimit := allOnesLimit_le b
  induction fuel generalizing k with
  | zero => omega
  | succ fuel ih =>
    have hpos : 0 < nodePos h k + 1 := by omega
    have htop := Nat.lt_log2_self (n := nodePos h k + 1)
    by_cases hall : nodePos h k + 1 = 2 ^ ((nodePos h k + 1).log2 + 1) - 1
    · have hroot : nodePos h k = nodePos (nodePos h k + 1).log2 0 := by
        simp only [nodePos, Nat.mul_zero, nodeCount_zero] at hall ⊢
        omega
      have hheight := (nodePos_inj hroot).1
      have hbody : (index_height_mmriver.body b (nodePos h k + 1) : Outcome ε _) =
          ok (.done (nodePos h k + 1)) := by
        simp [index_height_mmriver.body, all_ones_eq hpos hlt, ← hall]
      rw [loop_done hbody]
      congr 1
      rwa [← hheight] at hall
    · obtain ⟨k', hjump⟩ := nodePos_log2_jump hall
      have hone := Nat.one_le_two_pow (n := (nodePos h k + 1).log2)
      have hmsb : (U64.sub b (2 ^ (nodePos h k + 1).log2) 1 : Outcome ε Nat) =
          ok (2 ^ (nodePos h k + 1).log2 - 1) := Word.sub_ok hone
      have hnext : (U64.sub b (nodePos h k + 1) (2 ^ (nodePos h k + 1).log2 - 1) : Outcome ε Nat) =
          ok (nodePos h k' + 1) := by
        rw [U64.sub, Word.sub_ok (by omega)]
        congr 1
        omega
      have hbody : (index_height_mmriver.body b (nodePos h k + 1) : Outcome ε _) =
          ok (.next (nodePos h k' + 1)) := by
        simp only [index_height_mmriver.body, all_ones_eq hpos hlt, ok_bind, decide_eq_true_eq,
          if_neg hall, most_sig_bit_eq hpos (by omega), hmsb, hnext]
      rw [loop_next hbody]
      apply ih (by omega)
      have hsmall : (nodePos h k' + 1).log2 < (nodePos h k + 1).log2 := by
        rw [Nat.log2_lt (by omega)]
        rw [pow_succ] at htop hall
        omega
      omega

/-- The left jumps end at the height of the node. -/
theorem index_height_mmriver_eq {p : Nat} (hlt : p + 1 < allOnesLimit b) :
    (index_height_mmriver b p : Outcome ε Nat) = ok (nodeHeight p) := by
  have hlimit := allOnesLimit_le b
  obtain ⟨h, k, rfl⟩ := exists_nodePos p
  have hheight : h < 64 := by
    have := nodeHeight_lt (w := 64) (by decide) (show nodePos h k < 2 ^ 64 by omega)
    rwa [nodeHeight_nodePos] at this
  have hadd : (U64.add b (nodePos h k) 1 : Outcome ε Nat) = ok (nodePos h k + 1) :=
    Word.add_ok (by omega)
  have hlog : (nodePos h k + 1).log2 < 64 := (Nat.log2_lt (by omega)).mpr (by omega)
  have hloop : (loop (index_height_mmriver.body b) 66 (nodePos h k + 1) : Outcome ε Nat) = _ :=
    index_height_mmriver_loop hlt (by omega)
  have hpos := two_pow_succ_sub_one_pos h
  have hfull : (2 ^ (h + 1) - 1).log2 = h := by
    have := Nat.two_pow_pos h
    rw [Nat.log2_eq_iff hpos.ne', pow_succ]
    omega
  have hbits : (U64.sub b 64 (63 - h) : Outcome ε Nat) = ok (h + 1) := by
    rw [U64.sub, Word.sub_ok (by omega)]
    congr 1
    omega
  have hone : (U64.sub b (h + 1) 1 : Outcome ε Nat) = ok h := Word.sub_ok (by omega)
  simp only [index_height_mmriver, hadd, ok_bind, hloop, leadingZeros_eq hpos, hfull, hbits, hone,
    nodeHeight_nodePos]

theorem all_ones_debug_panic {pos : Nat} (hge : 2 ^ 63 ≤ pos) (hlt : pos < 2 ^ 64) :
    (all_ones .debug pos : Outcome ε Bool) = panic := by
  have hpos : 0 < pos := by omega
  have hlog : pos.log2 = 63 := by
    rw [Nat.log2_eq_iff hpos.ne']
    omega
  have hbits : (U64.sub .debug 64 (63 - 63) : Outcome ε Nat) = ok 64 := rfl
  have himsb : (U64.sub .debug 64 1 : Outcome ε Nat) = ok 63 := rfl
  have hamount : (U64.add .debug 63 1 : Outcome ε Nat) = ok 64 := rfl
  have hpower : (U64.shl .debug 1 64 : Outcome ε Nat) = panic := rfl
  simp only [all_ones, hpos.ne', if_false, leadingZeros_eq hpos, hlog, hbits, himsb, hamount, hpower,
    ok_bind, panic_bind]

/-- A checked height panics from the limit on. -/
theorem index_height_mmriver_debug_panic {p : Nat} (hge : allOnesLimit .debug ≤ p + 1) :
    (index_height_mmriver .debug p : Outcome ε Nat) = panic := by
  simp only [allOnesLimit] at hge
  by_cases hfit : p + 1 < 2 ^ 64
  · have hadd : (U64.add .debug p 1 : Outcome ε Nat) = ok (p + 1) := Word.add_ok hfit
    rw [index_height_mmriver, hadd, ok_bind, loop, index_height_mmriver.body,
      all_ones_debug_panic hge hfit]
    rfl
  · have hadd : (U64.add .debug p 1 : Outcome ε Nat) = panic := if_neg hfit
    rw [index_height_mmriver, hadd]
    rfl

theorem lt_allOnesLimit_of_debug {p height : Nat}
    (h : (index_height_mmriver .debug p : Outcome ε Nat) = ok height) :
    p + 1 < allOnesLimit .debug := by
  by_contra hnot
  rw [index_height_mmriver_debug_panic (Nat.le_of_not_lt hnot)] at h
  cases h

/-- Computing a height panics, or it returns one that is below 64. An unchecked
    build always returns, also where the mask of a full word or the index itself
    wraps. -/
theorem index_height_mmriver_returns {p : Nat} (hp : p < 2 ^ 64) :
    (index_height_mmriver b p : Outcome ε Nat) = panic ∨
      ∃ height < 64, (index_height_mmriver b p : Outcome ε Nat) = ok height := by
  by_cases hlt : p + 1 < allOnesLimit b
  · have hlimit := allOnesLimit_le b
    exact .inr ⟨nodeHeight p, nodeHeight_lt (by omega) (by omega), index_height_mmriver_eq hlt⟩
  · cases b with
    | debug => exact .inl (index_height_mmriver_debug_panic (Nat.le_of_not_lt hlt))
    | release =>
      simp only [allOnesLimit] at hlt
      obtain rfl | rfl : p = 2 ^ 64 - 2 ∨ p = 2 ^ 64 - 1 := by omega
      · exact .inr ⟨0, by decide, rfl⟩
      · exact .inr ⟨0, by decide, rfl⟩

end merkleberg.helper
