import Merkleberg.Helper.Peaks

open machine machine.Outcome
open forest

namespace merkleberg.helper

variable {ε : Type}

/-- The checked leaf formula answers exactly below the bound of its exact
    value, and an unchecked build has the same answer there. -/
theorem leaf_index_to_pos_debug {i start : Nat}
    (h : (leaf_index_to_pos .debug i : Outcome ε Nat) = ok start) :
    i + 1 < 2 ^ 63 ∧ start = nodeCount i := by
  have hfit : i + 1 < 2 ^ 63 := by
    by_contra hbig
    have hsize : (leaf_index_to_mmr_size .debug i : Outcome ε Nat) = panic := by
      by_cases hnext : i + 1 < 2 ^ 64
      · have hdouble : (U64.mul .debug 2 (i + 1) : Outcome ε Nat) = panic := if_neg (by omega)
        simp only [leaf_index_to_mmr_size, U64.add, Word.add_ok hnext, ok_bind, hdouble, panic_bind]
      · have hadd : (U64.add .debug i 1 : Outcome ε Nat) = panic := if_neg hnext
        simp only [leaf_index_to_mmr_size, hadd, panic_bind]
    simp only [leaf_index_to_pos, hsize, panic_bind] at h
    cases h
  refine ⟨hfit, ?_⟩
  rw [leaf_index_to_pos_eq hfit] at h
  cases h
  rfl

/-- A position belongs to the leaf whose push made it, at its own height. -/
theorem exists_leaf_of_position (p : Nat) :
    ∃ i j, j ≤ trailingZeros (i + 1) ∧ nodeCount i + j = p := by
  obtain ⟨i, hle, hlt⟩ := exists_nodeCount_le_lt p
  rw [nodeCount_succ] at hlt
  exact ⟨i, p - nodeCount i, by omega, by omega⟩

theorem leaf_of_position_unique {i i' j j' : Nat} (hj : j ≤ trailingZeros (i + 1))
    (hj' : j' ≤ trailingZeros (i' + 1)) (heq : nodeCount i + j = nodeCount i' + j') :
    i = i' ∧ j = j' := by
  have hstep := nodeCount_succ i
  have hstep' := nodeCount_succ i'
  have hleaf : i = i' :=
    eq_of_nodeCount_le_lt (p := nodeCount i + j) (by omega) (by omega) (by omega) (by omega)
  subst hleaf
  exact ⟨rfl, by omega⟩

/-- Both height functions answer with the offset of a position from the leaf
    whose push made it, and every position has exactly one such leaf and offset. -/
theorem heights_agree :
    (∀ i j start, (leaf_index_to_pos .debug i : Outcome ε Nat) = ok start →
      j ≤ U64.trailingZeros (i + 1) → start + j + 1 < 2 ^ 63 →
      ∀ b, (leaf_index_to_pos b i : Outcome ε Nat) = ok start ∧
        (pos_height_in_tree b (start + j) : Outcome ε Nat) = ok j ∧
        (index_height_mmriver b (start + j) : Outcome ε Nat) = ok j) ∧
      ∀ p, p + 1 < 2 ^ 63 → ∃! leaf : Nat × Nat, leaf.2 ≤ U64.trailingZeros (leaf.1 + 1) ∧
        ∃ start, (leaf_index_to_pos .debug leaf.1 : Outcome ε Nat) = ok start ∧ start + leaf.2 = p := by
  constructor
  · intro i j start hstart hj hlt b
    obtain ⟨hfit, rfl⟩ := leaf_index_to_pos_debug hstart
    have hlimit := le_allOnesLimit b
    have hheight : nodeHeight (nodeCount i + j) = j := nodeHeight_nodeCount_add hj
    refine ⟨leaf_index_to_pos_eq hfit, ?_, ?_⟩
    · rw [pos_height_in_tree_eq (by omega), hheight]
    · rw [index_height_mmriver_eq (by omega), hheight]
  · intro p hp
    obtain ⟨i, j, hj, rfl⟩ := exists_leaf_of_position p
    have hle := le_nodeCount i
    have hfit : i + 1 < 2 ^ 63 := by omega
    refine ⟨(i, j), ⟨hj, _, leaf_index_to_pos_eq hfit, rfl⟩, ?_⟩
    rintro ⟨i', j'⟩ ⟨hj', start, hstart, heq⟩
    obtain ⟨hfit', rfl⟩ := leaf_index_to_pos_debug hstart
    obtain ⟨rfl, rfl⟩ := leaf_of_position_unique hj' hj heq
    rfl

/-- The peak of height `h` is the last node over the leaves that remain when the
    digits of `n` below `h` are cleared. -/
theorem mem_peakPositions_iff {n p : Nat} :
    p ∈ peakPositions n ↔ ∃ h, n.testBit h = true ∧ p + 1 = nodeCount (2 ^ h * (n / 2 ^ h)) := by
  simp only [peakPositions, List.mem_map]
  constructor
  · rintro ⟨⟨h, k⟩, hpeak, rfl⟩
    obtain ⟨_, hbit, hindex⟩ := mem_peaksBelow.mp hpeak
    simp only at hbit hindex ⊢
    rw [hindex]
    exact ⟨h, hbit, (nodePos_of_testBit hbit).2.1.symm⟩
  · rintro ⟨h, hbit, hp⟩
    have hlow := Nat.ge_two_pow_of_testBit hbit
    have hpos := Nat.two_pow_pos h
    have hwidth : h < n.log2 + 1 := Nat.lt_succ_of_le ((Nat.le_log2 (by omega)).mpr hlow)
    refine ⟨(h, n / 2 ^ h - 1), mem_peaksBelow.mpr ⟨hwidth, hbit, rfl⟩, ?_⟩
    have hsum := (nodePos_of_testBit hbit).2.1
    simp only
    omega

/-- Clearing a set digit as well leaves fewer leaves. -/
theorem cleared_lt_cleared {n h h' : Nat} (hbit : n.testBit h' = true) (hlt : h' < h) :
    2 ^ h * (n / 2 ^ h) < 2 ^ h' * (n / 2 ^ h') := by
  obtain ⟨_, _, hmod⟩ := nodePos_of_testBit hbit
  have hpos := Nat.two_pow_pos h'
  have hdvd : 2 ^ (h' + 1) ∣ 2 ^ h := Nat.pow_dvd_pow 2 hlt
  have hle : n % 2 ^ (h' + 1) ≤ n % 2 ^ h := by
    rw [← Nat.mod_mod_of_dvd n hdvd]
    exact Nat.mod_le _ _
  have hsplit := Nat.div_add_mod n (2 ^ h)
  have hsplit' := Nat.div_add_mod n (2 ^ h')
  omega

theorem peakPositions_sorted (n : Nat) : (peakPositions n).Pairwise (· < ·) := by
  rw [peakPositions, List.pairwise_map]
  refine (peaks_heights n).imp_of_mem ?_
  rintro ⟨h, k⟩ ⟨h', k'⟩ hfirst hsecond hlt
  obtain ⟨_, hbit, hindex⟩ := mem_peaksBelow.mp hfirst
  obtain ⟨_, hbit', hindex'⟩ := mem_peaksBelow.mp hsecond
  simp only at hbit hbit' hindex hindex' hlt ⊢
  have hcount := nodeCount_lt_nodeCount_iff.mpr (cleared_lt_cleared hbit' hlt)
  rw [(nodePos_of_testBit hbit).2.1, (nodePos_of_testBit hbit').2.1] at hcount
  rw [hindex, hindex']
  omega

/-- Every size is read as the largest forest that fits, and all the ways to its
    peaks agree. -/
theorem peaks_agree :
    (∀ b size, size < 2 ^ 64 → ∃ n, nodeCount n ≤ size ∧ (∀ m, nodeCount m ≤ size → m ≤ n) ∧
      (get_peak_map b size : Outcome ε Nat) = ok n ∧
      (do let iter ← PeaksIter.new b size; collect (PeaksIter.next b) iter : Outcome ε _) =
        ok (peakPositions n)) ∧
      (∀ n p, p ∈ peakPositions n ↔
        ∃ h, n.testBit h = true ∧ p + 1 = nodeCount (2 ^ h * (n / 2 ^ h))) ∧
      (∀ n, (peakPositions n).Pairwise (· < ·) ∧ (peakPositions n).length = popcount n) ∧
      (∀ b n, 1 ≤ n → nodeCount n < 2 ^ 63 →
        (do let iter ← PeaksMMRIVERIter.new b (nodeCount n - 1)
            collect (PeaksMMRIVERIter.next b) iter : Outcome ε _) = ok (peakPositions n)) ∧
      ∀ b i, i + 1 < 2 ^ 63 →
        (do let size ← leaf_index_to_mmr_size b i; get_peak_map b size : Outcome ε _) = ok (i + 1) := by
  refine ⟨?_, fun n p => mem_peakPositions_iff, ?_, ?_, ?_⟩
  · intro b size hlt
    obtain ⟨n, hle, hnext⟩ := exists_nodeCount_le_lt size
    refine ⟨n, hle, ?_, get_peak_map_eq hle hnext hlt, PeaksIter.collect_eq hle hnext hlt⟩
    intro m hm
    have := nodeCount_lt_nodeCount_iff.mp (hm.trans_lt hnext)
    omega
  · intro n
    refine ⟨peakPositions_sorted n, ?_⟩
    rw [peakPositions, List.length_map, peaks_length]
  · intro b n hn hsize
    exact PeaksMMRIVERIter.collect_eq hn (by omega)
  · intro b i hi
    have hlt : nodeCount (i + 1) < nodeCount (i + 1 + 1) :=
      nodeCount_lt_nodeCount_iff.mpr (Nat.lt_succ_self _)
    have hfit : nodeCount (i + 1) < 2 ^ 64 := by
      rw [nodeCount]
      omega
    rw [leaf_index_to_mmr_size_eq hi, ok_bind, get_peak_map_eq (Nat.le_refl _) hlt hfit]

end merkleberg.helper
