import Merkleberg.Helper.Height

open machine machine.Outcome
open forest

namespace merkleberg.helper

variable {ε : Type} {b : Profile}

/-- The size of a forest of fewer than `2 ^ 63` leaves, in closed form. -/
theorem leaf_index_to_mmr_size_eq {i : Nat} (hlt : i + 1 < 2 ^ 63) :
    (leaf_index_to_mmr_size b i : Outcome ε Nat) = ok (nodeCount (i + 1)) := by
  have hle := popcount_le_self (i + 1)
  have hnext : (U64.add b i 1 : Outcome ε Nat) = ok (i + 1) := Word.add_ok (by omega)
  have hdouble : (U64.mul b 2 (i + 1) : Outcome ε Nat) = ok (2 * (i + 1)) :=
    Word.mul_ok (by omega)
  have hsize : (U64.sub b (2 * (i + 1)) (popcount (i + 1)) : Outcome ε Nat) =
      ok (2 * (i + 1) - popcount (i + 1)) := Word.sub_ok (by omega)
  simp only [leaf_index_to_mmr_size, hnext, ok_bind, U64.countOnes, hdouble, hsize, nodeCount]

theorem leaf_index_to_pos_eq {i : Nat} (hlt : i + 1 < 2 ^ 63) :
    (leaf_index_to_pos b i : Outcome ε Nat) = ok (nodeCount i) := by
  have hstep := nodeCount_succ i
  have hnext : (U64.add b i 1 : Outcome ε Nat) = ok (i + 1) := Word.add_ok (by omega)
  have hzeros : U64.trailingZeros (i + 1) = trailingZeros (i + 1) := rfl
  have hbefore : (U64.sub b (nodeCount (i + 1)) (trailingZeros (i + 1)) : Outcome ε Nat) =
      ok (nodeCount i + 1) := by
    rw [U64.sub, Word.sub_ok (by omega)]
    congr 1
    omega
  have hpos : (U64.sub b (nodeCount i + 1) 1 : Outcome ε Nat) = ok (nodeCount i) :=
    Word.sub_ok (by omega)
  simp only [leaf_index_to_pos, leaf_index_to_mmr_size_eq hlt, hnext, hzeros, hbefore, hpos, ok_bind]

theorem or_one_of_even (m : Nat) : m * 2 ||| 1 = m * 2 + 1 := by
  have h := Nat.two_pow_add_eq_or_of_lt (show 1 < 2 ^ 1 by decide) m
  rw [pow_one, Nat.mul_comm] at h
  exact h.symm

/-- The loop of `get_peak_map` appends the digits of the leaves still to be
    split off to the bitmap it has. -/
theorem get_peak_map_loop {k n p map fuel : Nat} (h : Greedy k n p) (hfuel : k < fuel)
    (hfit : map * 2 ^ k + n < 2 ^ 64) :
    (loop (get_peak_map.body b) fuel (p, 2 ^ k - 1, map) : Outcome ε Nat) =
      ok (map * 2 ^ k + n) := by
  obtain ⟨fuel, rfl⟩ : ∃ rest, fuel = rest + 1 := ⟨fuel - 1, by omega⟩
  induction k generalizing n p map fuel with
  | zero =>
    have hzero : n = 0 := by
      have := h.digits
      omega
    have hbody : (get_peak_map.body b (p, 2 ^ 0 - 1, map) : Outcome ε _) = ok (.done map) := by
      simp [get_peak_map.body]
    rw [loop_done hbody, hzero, pow_zero, Nat.mul_one, Nat.add_zero]
  | succ k ih =>
    obtain ⟨fuel, rfl⟩ : ∃ rest, fuel = rest + 1 := ⟨fuel - 1, by omega⟩
    have hsize := two_pow_succ_sub_one_pos k
    have hhalf : (U64.shr b (2 ^ (k + 1) - 1) 1 : Outcome ε Nat) = _ := shr_all_ones b k
    have hgrow : map * 2 ^ (k + 1) = map * 2 * 2 ^ k := by ring
    have hdouble : map * 2 ^ 1 ≤ map * 2 ^ (k + 1) :=
      Nat.mul_le_mul_left _ (Nat.pow_le_pow_right (by omega) (by omega))
    have hshift : (U64.shl b map 1 : Outcome ε Nat) = ok (map * 2) := by
      rw [U64.shl, Word.shl_ok (by omega) (by omega), pow_one]
    by_cases hhigh : 2 ^ k ≤ n
    · have hle := h.takes_iff.mpr hhigh
      obtain ⟨hnext, _⟩ := h.take hhigh
      have hvalue : (map * 2 + 1) * 2 ^ k + (n - 2 ^ k) = map * 2 ^ (k + 1) + n := by
        rw [hgrow, Nat.add_mul, Nat.one_mul]
        omega
      have hbody : (get_peak_map.body b (p, 2 ^ (k + 1) - 1, map) : Outcome ε _) =
          ok (.next (p - (2 ^ (k + 1) - 1), 2 ^ k - 1, map * 2 + 1)) := by
        simp [get_peak_map.body, hsize, hle, Word.sub_ok hle, hhalf, hshift, or_one_of_even]
      rw [loop_next hbody, ih hnext (by omega) _ (by omega), hvalue]
    · have hnot : ¬ 2 ^ (k + 1) - 1 ≤ p := fun hle => hhigh (h.takes_iff.mp hle)
      have hbody : (get_peak_map.body b (p, 2 ^ (k + 1) - 1, map) : Outcome ε _) =
          ok (.next (p, 2 ^ k - 1, map * 2)) := by
        simp [get_peak_map.body, hsize, hnot, hhalf, hshift]
      rw [loop_next hbody, ih (h.skip (by omega)) (by omega) _ (by omega), hgrow]

/-- The bitmap is the number of leaves of the largest forest that fits. -/
theorem get_peak_map_eq {n size : Nat} (hle : nodeCount n ≤ size) (hnext : size < nodeCount (n + 1))
    (hlt : size < 2 ^ 64) : (get_peak_map b size : Outcome ε Nat) = ok n := by
  rcases Nat.eq_zero_or_pos size with rfl | hpos
  · have hzero : n = 0 := by
      have := le_nodeCount n
      omega
    rw [hzero]
    rfl
  · have hlog : size.log2 < 64 := (Nat.log2_lt hpos.ne').mpr hlt
    have hloop : (loop (get_peak_map.body b) 65 (size, 2 ^ (size.log2 + 1) - 1, 0) : Outcome ε Nat) = _ :=
      get_peak_map_loop (.initial hle hnext) (by omega) (by have := le_nodeCount n; omega)
    rw [Nat.zero_mul, Nat.zero_add] at hloop
    simp only [get_peak_map, hpos.ne', if_false, initial_peak_size hpos hlt, ok_bind, hloop]

/-- The values that successive calls of `next` return, up to the first `None`. -/
inductive Yields {I : Type} (next : I → Outcome ε (Option Nat × I)) : I → List Nat → Prop where
  | nil {state rest : I} (hnext : next state = ok (none, rest)) : Yields next state []
  | cons {state rest : I} {item : Nat} {items : List Nat}
      (hnext : next state = ok (some item, rest)) (tail : Yields next rest items) :
      Yields next state (item :: items)

theorem Yields.collect_loop {I : Type} {next : I → Outcome ε (Option Nat × I)} {state : I}
    {items : List Nat} (done : List Nat) {fuel : Nat} (h : Yields next state items)
    (hfuel : items.length < fuel) :
    loop (collect.body next) fuel (state, done) = ok (done ++ items) := by
  obtain ⟨fuel, rfl⟩ : ∃ rest, fuel = rest + 1 := ⟨fuel - 1, by omega⟩
  induction h generalizing done fuel with
  | @nil state rest hnext =>
    have hbody : collect.body next (state, done) = ok (.done done) := by simp [collect.body, hnext]
    rw [loop_done hbody, List.append_nil]
  | @cons state rest item items hnext tail ih =>
    rw [List.length_cons] at hfuel
    obtain ⟨fuel, rfl⟩ : ∃ rest, fuel = rest + 1 := ⟨fuel - 1, by omega⟩
    have hbody : collect.body next (state, done) = ok (.next (rest, done ++ [item])) := by
      simp [collect.body, hnext]
    rw [loop_next hbody, ih _ _ (by omega), List.append_assoc, List.singleton_append]

/-- `collect` gathers what the iterator yields. -/
theorem Yields.collect_eq {I : Type} {next : I → Outcome ε (Option Nat × I)} {state : I}
    {items : List Nat} (h : Yields next state items) (hlength : items.length ≤ 128) :
    collect next state = ok items := by
  have hloop := h.collect_loop [] (show items.length < 129 by omega)
  exact hloop

/-- Positions of the peaks of the forest over `n` leaves, in ascending order. -/
def peakPositions (n : Nat) : List Nat := (peaks n).map fun node => nodePos node.1 node.2

/-- Where a digit of `n` is set, the tree for it ends after the digits above. -/
theorem nodePos_of_testBit {n w : Nat} (hbit : n.testBit w = true) :
    nodePos w (n / 2 ^ w - 1) + 1 = nodeCount (2 ^ (w + 1) * (n / 2 ^ (w + 1))) + (2 ^ (w + 1) - 1) ∧
      nodeCount (2 ^ w * (n / 2 ^ w)) = nodePos w (n / 2 ^ w - 1) + 1 ∧
      n % 2 ^ (w + 1) = 2 ^ w + n % 2 ^ w := by
  rw [testBit_iff_div_odd] at hbit
  have hpos := Nat.two_pow_pos w
  have hhalf : n / 2 ^ (w + 1) = n / 2 ^ w / 2 := by rw [pow_succ, Nat.div_div_eq_div_mul]
  have hstart : 2 ^ (w + 1) * (n / 2 ^ w / 2) = 2 ^ w * (n / 2 ^ w - 1) := by
    rw [pow_succ, Nat.mul_assoc]
    congr 1
    omega
  have hodd : 0 < n / 2 ^ w := Nat.pos_of_ne_zero fun hzero => by simp [hzero] at hbit
  have hstop : 2 ^ w * (n / 2 ^ w) = 2 ^ (w + 1) * (n / 2 ^ w / 2) + 2 ^ w := by
    rw [hstart, ← Nat.mul_succ, Nat.succ_eq_add_one, Nat.sub_add_cancel hodd]
  have hblock := nodeCount_block (k := w + 1) (n / 2 ^ w / 2) (r := 2 ^ w) (by rw [pow_succ]; omega)
  have hmod : n % 2 ^ (w + 1) = n % 2 ^ w + 2 ^ w * (n / 2 ^ w % 2) := by rw [pow_succ, Nat.mod_mul]
  have hsize : 2 ^ (w + 1) = 2 * 2 ^ w := by rw [pow_succ, Nat.mul_comm]
  refine ⟨?_, ?_, ?_⟩
  · rw [nodePos, hhalf, hstart]
    omega
  · rw [nodePos, hstop, hblock, nodeCount_two_pow, hstart]
    omega
  · rw [hmod, hbit]
    omega

/-- A digit that is not set moves nothing. -/
theorem block_of_not_testBit {n w : Nat} (hbit : ¬ n.testBit w = true) :
    2 ^ (w + 1) * (n / 2 ^ (w + 1)) = 2 ^ w * (n / 2 ^ w) ∧ n % 2 ^ (w + 1) = n % 2 ^ w := by
  rw [testBit_iff_div_odd] at hbit
  have hhalf : n / 2 ^ (w + 1) = n / 2 ^ w / 2 := by rw [pow_succ, Nat.div_div_eq_div_mul]
  have hmod : n % 2 ^ (w + 1) = n % 2 ^ w + 2 ^ w * (n / 2 ^ w % 2) := by rw [pow_succ, Nat.mod_mul]
  have heven : n / 2 ^ w % 2 = 0 := by omega
  refine ⟨?_, by rw [hmod, heven, Nat.mul_zero, Nat.add_zero]⟩
  rw [hhalf, pow_succ, Nat.mul_assoc]
  congr 1
  omega

theorem testBit_iff_le_mod {n w : Nat} : n.testBit w = true ↔ 2 ^ w ≤ n % 2 ^ (w + 1) := by
  have hpos := Nat.two_pow_pos w
  have hlt : n % 2 ^ w < 2 ^ w := Nat.mod_lt _ hpos
  by_cases hbit : n.testBit w = true
  · obtain ⟨_, _, hmod⟩ := nodePos_of_testBit hbit
    simp only [hbit, true_iff]
    omega
  · obtain ⟨_, hmod⟩ := block_of_not_testBit hbit
    rw [hmod]
    exact ⟨fun h => absurd h hbit, fun h => absurd h (by omega)⟩

/-- The state of the bagged tree's peak iterator before it looks at the digits
    under `2 ^ width`. -/
def PeaksIter.at (n width pos : Nat) : PeaksIter :=
  { pos, peak_size := 2 ^ width - 1, peaks_sum := nodeCount (2 ^ width * (n / 2 ^ width)) }

/-- One call of `next` passes over the digits that are not set and stops behind
    the first one that is. -/
theorem PeaksIter.next_loop {n width pos fuel : Nat} (h : Greedy width (n % 2 ^ width) pos)
    (hsize : nodeCount n < 2 ^ 64) (hfuel : width < fuel) :
    (peaksBelow n width = [] ∧
        ∃ rest, (loop (PeaksIter.next.body b) fuel (.at n width pos, none) : Outcome ε _) =
          ok (none, rest)) ∨
      ∃ w pos', w < width ∧ pos' < pos ∧
        peaksBelow n width = (w, n / 2 ^ w - 1) :: peaksBelow n w ∧ Greedy w (n % 2 ^ w) pos' ∧
        (loop (PeaksIter.next.body b) fuel (.at n width pos, none) : Outcome ε _) =
          ok (some (nodePos w (n / 2 ^ w - 1)), .at n w pos') := by
  obtain ⟨fuel, rfl⟩ : ∃ rest, fuel = rest + 1 := ⟨fuel - 1, by omega⟩
  induction width generalizing fuel with
  | zero =>
    left
    have hbody : (PeaksIter.next.body b (.at n 0 pos, none) : Outcome ε _) =
        ok (.done (none, .at n 0 pos)) := by
      simp [PeaksIter.next.body, PeaksIter.at]
    exact ⟨rfl, _, loop_done hbody⟩
  | succ w ih =>
    obtain ⟨fuel, rfl⟩ : ∃ rest, fuel = rest + 1 := ⟨fuel - 1, by omega⟩
    have hpositive := two_pow_succ_sub_one_pos w
    have hhalf : (U64.shr b (2 ^ (w + 1) - 1) 1 : Outcome ε Nat) = _ := shr_all_ones b w
    by_cases hbit : n.testBit w = true
    · right
      have hhigh := testBit_iff_le_mod.mp hbit
      have hle := h.takes_iff.mpr hhigh
      obtain ⟨hnext, _⟩ := h.take hhigh
      obtain ⟨hpeak, hsum, hmod⟩ := nodePos_of_testBit hbit
      have hbefore : nodeCount (2 ^ w * (n / 2 ^ w)) ≤ nodeCount n :=
        nodeCount_le_nodeCount_iff.mpr (Nat.mul_div_le n _)
      rw [show n % 2 ^ (w + 1) - 2 ^ w = n % 2 ^ w by omega] at hnext
      refine ⟨w, _, by omega, Nat.sub_lt (by omega) hpositive, by rw [peaksBelow, if_pos hbit],
        hnext, ?_⟩
      have hadd : (U64.add b (nodeCount (2 ^ (w + 1) * (n / 2 ^ (w + 1)))) (2 ^ (w + 1) - 1) :
          Outcome ε Nat) = ok (nodeCount (2 ^ w * (n / 2 ^ w))) := by
        rw [U64.add, Word.add_ok (by omega), ← hpeak, hsum]
      have hitem : (U64.sub b (nodeCount (2 ^ w * (n / 2 ^ w))) 1 : Outcome ε Nat) =
          ok (nodePos w (n / 2 ^ w - 1)) := by
        rw [hsum, U64.sub, Word.sub_ok (by omega), Nat.add_sub_cancel]
      have hbody : (PeaksIter.next.body b (.at n (w + 1) pos, none) : Outcome ε _) =
          ok (.next (.at n w (pos - (2 ^ (w + 1) - 1)), some (nodePos w (n / 2 ^ w - 1)))) := by
        simp [PeaksIter.next.body, PeaksIter.at, hpositive, hle, Word.sub_ok hle, hhalf, hadd, hitem]
      have hstop : (PeaksIter.next.body b (.at n w (pos - (2 ^ (w + 1) - 1)),
          some (nodePos w (n / 2 ^ w - 1))) : Outcome ε _) =
          ok (.done (some (nodePos w (n / 2 ^ w - 1)), .at n w (pos - (2 ^ (w + 1) - 1)))) := by
        simp [PeaksIter.next.body]
      rw [loop_next hbody, loop_done hstop]
    · obtain ⟨hblock, hmod⟩ := block_of_not_testBit hbit
      have hlow : n % 2 ^ (w + 1) < 2 ^ w := by
        have := mt testBit_iff_le_mod.mpr hbit
        omega
      have hnot : ¬ 2 ^ (w + 1) - 1 ≤ pos := fun hle => absurd (h.takes_iff.mp hle) (by omega)
      have hbody : (PeaksIter.next.body b (.at n (w + 1) pos, none) : Outcome ε _) =
          ok (.next (.at n w pos, none)) := by
        simp [PeaksIter.next.body, PeaksIter.at, hpositive, hnot, hhalf, hblock]
      have hskip := h.skip hlow
      rw [hmod] at hskip
      rw [loop_next hbody, peaksBelow, if_neg hbit]
      obtain hnone | ⟨w', pos', hlt, hrest⟩ := ih hskip fuel (by omega)
      · exact Or.inl hnone
      · exact Or.inr ⟨w', pos', by omega, hrest⟩

theorem PeaksIter.yields {n width pos : Nat} (h : Greedy width (n % 2 ^ width) pos)
    (hsize : nodeCount n < 2 ^ 64) (hwidth : width ≤ 64) :
    Yields (PeaksIter.next b : _ → Outcome ε _) (.at n width pos)
      ((peaksBelow n width).map fun node => nodePos node.1 node.2) := by
  induction width using Nat.strong_induction_on generalizing pos with
  | _ width ih =>
    obtain ⟨hnil, rest, hnext⟩ | ⟨w, pos', hlt, _, hcons, hgreedy, hnext⟩ :=
      next_loop (b := b) (ε := ε) h hsize (show width < 65 by omega)
    · rw [hnil]
      exact .nil hnext
    · rw [hcons]
      exact .cons hnext (ih w hlt hgreedy (by omega))

theorem peaksBelow_length_le (n width : Nat) : (peaksBelow n width).length ≤ width := by
  induction width with
  | zero => exact Nat.le_refl 0
  | succ width ih =>
    rw [peaksBelow]
    split
    · rw [List.length_cons]
      omega
    · omega

theorem lt_of_mem_peakPositions {n : Nat} : ∀ p ∈ peakPositions n, p < nodeCount n :=
  List.forall_mem_map.mpr fun _ => nodePos_lt_of_peak

theorem peakPositions_length_le {n : Nat} (hn : n < 2 ^ 64) : (peakPositions n).length ≤ 128 := by
  have hle := peaksBelow_length_le n 64
  rw [peaksBelow_eq_peaks hn] at hle
  rw [peakPositions, List.length_map]
  omega

/-- The iterator starts above the digits of the largest forest that fits. -/
theorem PeaksIter.new_eq {n size : Nat} (hpos : 0 < size) (hdigits : n < 2 ^ (size.log2 + 1))
    (hlt : size < 2 ^ 64) :
    (PeaksIter.new b size : Outcome ε PeaksIter) = ok (.at n (size.log2 + 1) size) := by
  simp only [PeaksIter.new, hpos.ne', if_false, initial_peak_size hpos hlt, ok_bind, PeaksIter.at,
    Nat.div_eq_of_lt hdigits, Nat.mul_zero, nodeCount_zero]

/-- Whatever the size, the iterator walks the peaks of the largest forest that
    fits. -/
theorem PeaksIter.collect_eq {n size : Nat} (hle : nodeCount n ≤ size)
    (hnext : size < nodeCount (n + 1)) (hlt : size < 2 ^ 64) :
    (do let iter ← PeaksIter.new b size; collect (PeaksIter.next b) iter : Outcome ε _) =
      ok (peakPositions n) := by
  have hn : n < 2 ^ 64 := (le_nodeCount n).trans_lt (hle.trans_lt hlt)
  rcases Nat.eq_zero_or_pos size with rfl | hpos
  · have hzero : n = 0 := by
      have := le_nodeCount n
      omega
    rw [hzero, peakPositions, peaks_zero]
    rfl
  · have hlog : size.log2 < 64 := (Nat.log2_lt hpos.ne').mpr hlt
    have hgreedy := Greedy.initial hle hnext
    have hmod : n % 2 ^ (size.log2 + 1) = n := Nat.mod_eq_of_lt hgreedy.digits
    have hyields := PeaksIter.yields (ε := ε) (b := b) (hmod.symm ▸ hgreedy) (hle.trans_lt hlt) (by omega)
    rw [peaksBelow_eq_peaks hgreedy.digits] at hyields
    rw [PeaksIter.new_eq hpos hgreedy.digits hlt, ok_bind]
    exact hyields.collect_eq (peakPositions_length_le hn)

theorem popcount_le_one_of_le_two {x : Nat} (hpos : 0 < x) (hle : x ≤ 2) : popcount x = 1 := by
  obtain rfl | rfl : x = 1 ∨ x = 2 := by omega
  · exact popcount_two_mul_add_one 0
  · rw [show 2 = 2 * 1 from rfl, popcount_two_mul]
    exact popcount_two_mul_add_one 0

/-- The length announced at the start is at most one, and never a panic. -/
theorem PeaksIter.len_new {size : Nat} (hlt : size < 2 ^ 64) :
    ∃ iter len, (PeaksIter.new b size : Outcome ε PeaksIter) = ok iter ∧
      (iter.len b : Outcome ε Nat) = ok len ∧ len ≤ 1 := by
  rcases Nat.eq_zero_or_pos size with rfl | hpos
  · exact ⟨_, 0, rfl, rfl, by omega⟩
  · have hpeak := two_pow_succ_sub_one_pos size.log2
    have htop : size < 2 ^ (size.log2 + 1) := Nat.lt_log2_self
    have hquotient : size / (2 ^ (size.log2 + 1) - 1) < 2 := by
      rw [Nat.div_lt_iff_lt_mul hpeak]
      omega
    have hadd : (U64.add b (size / (2 ^ (size.log2 + 1) - 1)) 1 : Outcome ε Nat) =
        ok (size / (2 ^ (size.log2 + 1) - 1) + 1) := Word.add_ok (by omega)
    refine ⟨{ pos := size, peak_size := 2 ^ (size.log2 + 1) - 1, peaks_sum := 0 }, _, ?_, ?_,
      (popcount_le_one_of_le_two (Nat.succ_pos _) (Nat.succ_le_of_lt hquotient)).le⟩
    · simp only [PeaksIter.new, hpos.ne', if_false, initial_peak_size hpos hlt, ok_bind]
    · simp only [PeaksIter.len, hpeak.ne', if_false, hadd, ok_bind, U64.countOnes]

/-- The largest tree under the nodes still to be split off. -/
theorem log2_nodeCount_add_one {m w : Nat} (hle : 2 ^ w ≤ m) (hlt : m < 2 ^ (w + 1)) :
    (nodeCount m + 1).log2 = w + 1 := by
  have hlow := nodeCount_le_nodeCount_iff.mpr hle
  have hhigh := nodeCount_lt_nodeCount_iff.mpr hlt
  have hpos := Nat.two_pow_pos w
  rw [nodeCount_two_pow] at hlow hhigh
  rw [pow_succ] at hlow
  rw [Nat.log2_eq_iff (by omega), pow_succ 2 w]
  omega

/-- The state of the accumulator tree's peak iterator before it looks at the
    digits under `2 ^ width`. -/
def PeaksMMRIVERIter.at (n width : Nat) : PeaksMMRIVERIter :=
  { peak := nodeCount (2 ^ width * (n / 2 ^ width)), remaining := nodeCount (n % 2 ^ width) }

/-- A digit that is not set is not seen. -/
theorem PeaksMMRIVERIter.at_of_not_testBit {n w : Nat} (hbit : ¬ n.testBit w = true) :
    PeaksMMRIVERIter.at n (w + 1) = .at n w := by
  obtain ⟨hblock, hmod⟩ := block_of_not_testBit hbit
  rw [PeaksMMRIVERIter.at, hblock, hmod, PeaksMMRIVERIter.at]

theorem PeaksMMRIVERIter.next_none (n : Nat) :
    (PeaksMMRIVERIter.next b (.at n 0) : Outcome ε _) = ok (none, .at n 0) := by
  simp [PeaksMMRIVERIter.next, PeaksMMRIVERIter.at, Nat.mod_one]

/-- One call splits off the tree of the highest digit. -/
theorem PeaksMMRIVERIter.next_some {n w : Nat} (hsize : nodeCount n + 1 < 2 ^ 64) (hwidth : w < 63)
    (hbit : n.testBit w = true) :
    (PeaksMMRIVERIter.next b (.at n (w + 1)) : Outcome ε _) =
      ok (some (nodePos w (n / 2 ^ w - 1)), .at n w) := by
  obtain ⟨hpeak, hsum, hmod⟩ := nodePos_of_testBit hbit
  have hrest : n % 2 ^ w < 2 ^ w := Nat.mod_lt _ (Nat.two_pow_pos w)
  have hremaining := nodeCount_two_pow_add hrest
  have hpositive := two_pow_succ_sub_one_pos w
  have hbefore : nodeCount (2 ^ w * (n / 2 ^ w)) ≤ nodeCount n :=
    nodeCount_le_nodeCount_iff.mpr (Nat.mul_div_le n _)
  have hinside : nodeCount (2 ^ w + n % 2 ^ w) ≤ nodeCount n :=
    nodeCount_le_nodeCount_iff.mpr (hmod ▸ Nat.mod_le n _)
  have hlog : (nodeCount (2 ^ w + n % 2 ^ w) + 1).log2 = w + 1 :=
    log2_nodeCount_add_one (by omega) (by rw [pow_succ]; omega)
  have hnext : (U64.add b (nodeCount (2 ^ w + n % 2 ^ w)) 1 : Outcome ε Nat) =
      ok (nodeCount (2 ^ w + n % 2 ^ w) + 1) := Word.add_ok (by omega)
  have hbits : (U64.ilog2 (nodeCount (2 ^ w + n % 2 ^ w) + 1) : Outcome ε Nat) = ok (w + 1) := by
    simp only [U64.ilog2, Nat.succ_ne_zero, if_false, hlog]
  have hpower : (U64.shl b 1 (w + 1) : Outcome ε Nat) = ok (2 ^ (w + 1)) := by
    have hpow : 2 ^ (w + 1) < 2 ^ 64 := Nat.pow_lt_pow_right (by omega) (by omega)
    rw [U64.shl, Word.shl_ok (by omega) (by omega), Nat.one_mul]
  have hhighest : (U64.sub b (2 ^ (w + 1)) 1 : Outcome ε Nat) = ok (2 ^ (w + 1) - 1) :=
    Word.sub_ok (by omega)
  have hstop : (U64.add b (nodeCount (2 ^ (w + 1) * (n / 2 ^ (w + 1)))) (2 ^ (w + 1) - 1) :
      Outcome ε Nat) = ok (nodeCount (2 ^ w * (n / 2 ^ w))) := by
    rw [U64.add, Word.add_ok (by omega), ← hpeak, hsum]
  have htail : (U64.sub b (nodeCount (2 ^ w + n % 2 ^ w)) (2 ^ (w + 1) - 1) : Outcome ε Nat) =
      ok (nodeCount (n % 2 ^ w)) := by
    rw [hremaining, U64.sub, Word.sub_ok (by omega), Nat.add_sub_cancel_left]
  have hitem : (U64.sub b (nodeCount (2 ^ w * (n / 2 ^ w))) 1 : Outcome ε Nat) =
      ok (nodePos w (n / 2 ^ w - 1)) := by
    rw [hsum, U64.sub, Word.sub_ok (by omega), Nat.add_sub_cancel]
  have hne : nodeCount (2 ^ w + n % 2 ^ w) ≠ 0 := by omega
  simp only [PeaksMMRIVERIter.next, PeaksMMRIVERIter.at, hmod, hne, if_false, hnext, hbits, hpower,
    hhighest, hstop, htail, hitem, ok_bind]

theorem PeaksMMRIVERIter.yields {n width : Nat} (hsize : nodeCount n + 1 < 2 ^ 64)
    (hwidth : width ≤ 63) :
    Yields (PeaksMMRIVERIter.next b : _ → Outcome ε _) (.at n width)
      ((peaksBelow n width).map fun node => nodePos node.1 node.2) := by
  induction width with
  | zero => exact .nil (next_none n)
  | succ w ih =>
    rw [peaksBelow]
    split
    · rename_i hbit
      exact .cons (next_some hsize hwidth hbit) (ih (by omega))
    · rename_i hbit
      rw [at_of_not_testBit hbit]
      exact ih (by omega)

/-- A size below the last word has its digits below the last one. -/
theorem lt_of_nodeCount_lt {n w : Nat} (hsize : nodeCount n + 1 < 2 ^ (w + 1)) : n < 2 ^ w := by
  by_contra hbig
  have hle := nodeCount_le_nodeCount_iff.mpr (Nat.le_of_not_lt hbig)
  rw [nodeCount_two_pow] at hle
  omega

/-- The iterator starts above all digits. -/
theorem PeaksMMRIVERIter.at_start {n : Nat} (hn : n < 2 ^ 63) :
    PeaksMMRIVERIter.at n 63 = { peak := 0, remaining := nodeCount n } := by
  rw [PeaksMMRIVERIter.at, Nat.div_eq_of_lt hn, Nat.mod_eq_of_lt hn, Nat.mul_zero, nodeCount_zero]

/-- On the last index of a forest the iterator walks the peaks of the forest. -/
theorem PeaksMMRIVERIter.collect_eq {n : Nat} (hn : 0 < n) (hsize : nodeCount n + 1 < 2 ^ 64) :
    (do let iter ← PeaksMMRIVERIter.new b (nodeCount n - 1)
        collect (PeaksMMRIVERIter.next b) iter : Outcome ε _) = ok (peakPositions n) := by
  have hle := le_nodeCount n
  have hwidth : n < 2 ^ 63 := lt_of_nodeCount_lt hsize
  have hadd : (U64.add b (nodeCount n - 1) 1 : Outcome ε Nat) = ok (nodeCount n) := by
    rw [U64.add, Word.add_ok (by omega), Nat.sub_add_cancel (by omega)]
  have hyields := PeaksMMRIVERIter.yields (ε := ε) (b := b) hsize (Nat.le_refl 63)
  rw [PeaksMMRIVERIter.at_start hwidth, peaksBelow_eq_peaks hwidth] at hyields
  simp only [PeaksMMRIVERIter.new, hadd, ok_bind]
  exact hyields.collect_eq (peakPositions_length_le (by omega))

/-- Nodes of the largest perfect tree that a number of nodes has room for. -/
def highestSize (remaining : Nat) : Nat := 2 ^ (remaining + 1).log2 - 1

/-- The tree is not empty, and what is left has no room for a larger one. -/
theorem highestSize_bounds {remaining : Nat} (hpos : 0 < remaining) :
    0 < highestSize remaining ∧ highestSize remaining ≤ remaining ∧
      remaining - highestSize remaining ≤ highestSize remaining := by
  obtain ⟨hle, hlt⟩ := (Nat.log2_eq_iff (show remaining + 1 ≠ 0 by omega)).mp rfl
  have hlog : 1 ≤ (remaining + 1).log2 := (Nat.le_log2 (by omega)).mpr (by omega)
  have htwo : 2 ^ 1 ≤ 2 ^ (remaining + 1).log2 := Nat.pow_le_pow_right (by omega) hlog
  rw [pow_succ] at hlt
  unfold highestSize
  omega

/-- What the accumulator tree's iterator makes of any number of nodes: the last
    nodes of perfect trees, each time the largest that there is room for. -/
def greedyPeaks (peak remaining : Nat) : List Nat :=
  if remaining = 0 then []
  else
    (peak + highestSize remaining - 1) ::
      greedyPeaks (peak + highestSize remaining) (remaining - highestSize remaining)
termination_by remaining
decreasing_by
  have := highestSize_bounds (Nat.pos_of_ne_zero ‹_›)
  omega

theorem greedyPeaks_zero (peak : Nat) : greedyPeaks peak 0 = [] := by
  rw [greedyPeaks, if_pos rfl]

theorem greedyPeaks_length_le {k peak remaining : Nat} (hroom : remaining + 1 ≤ 2 ^ k) :
    (greedyPeaks peak remaining).length ≤ k := by
  induction k generalizing peak remaining with
  | zero =>
    obtain rfl : remaining = 0 := by omega
    rw [greedyPeaks_zero, List.length_nil]
  | succ k ih =>
    rw [greedyPeaks]
    split
    · exact Nat.zero_le _
    · rename_i hne
      have hbounds := highestSize_bounds (Nat.pos_of_ne_zero hne)
      rw [List.length_cons, Nat.succ_le_succ_iff]
      apply ih
      -- A tree of the full size leaves nothing, and behind a smaller one there is half the room.
      obtain ⟨hle, hlt⟩ := (Nat.log2_eq_iff (show remaining + 1 ≠ 0 by omega)).mp rfl
      have hlog : (remaining + 1).log2 ≤ k + 1 := by
        have hwide := Nat.pow_lt_pow_right (show 1 < 2 by omega) (Nat.lt_succ_self (k + 1))
        exact Nat.le_of_lt_succ ((Nat.log2_lt (by omega)).mpr (hroom.trans_lt hwide))
      rcases Nat.eq_or_lt_of_le hlog with hfull | hless
      · rw [hfull] at hle
        have hpos := Nat.two_pow_pos k
        rw [highestSize, hfull]
        omega
      · have hpow : 2 ^ (remaining + 1).log2 ≤ 2 ^ k := Nat.pow_le_pow_right (by omega) (by omega)
        unfold highestSize at hbounds ⊢
        omega

/-- Below the last word the iterator stays in range. -/
theorem PeaksMMRIVERIter.yields_greedy {peak remaining : Nat} (hsize : peak + remaining + 1 < 2 ^ 64) :
    Yields (PeaksMMRIVERIter.next b : _ → Outcome ε _) { peak, remaining }
      (greedyPeaks peak remaining) := by
  induction remaining using Nat.strong_induction_on generalizing peak with
  | _ remaining ih =>
    rw [greedyPeaks]
    split
    · rename_i hzero
      exact .nil (if_pos hzero)
    · rename_i hne
      obtain ⟨hpos, hinside, -⟩ := highestSize_bounds (Nat.pos_of_ne_zero hne)
      have hlog : (remaining + 1).log2 < 64 := (Nat.log2_lt (by omega)).mpr (by omega)
      have hpow : 2 ^ (remaining + 1).log2 < 2 ^ 64 := Nat.pow_lt_pow_right (by omega) hlog
      have hnext : (U64.add b remaining 1 : Outcome ε Nat) = ok (remaining + 1) := Word.add_ok (by omega)
      have hbits : (U64.ilog2 (remaining + 1) : Outcome ε Nat) = ok (remaining + 1).log2 := by
        rw [U64.ilog2, if_neg (Nat.succ_ne_zero _)]
      have hpower : (U64.shl b 1 (remaining + 1).log2 : Outcome ε Nat) =
          ok (2 ^ (remaining + 1).log2) := by
        rw [U64.shl, Word.shl_ok hlog (by omega), Nat.one_mul]
      have hhighest : (U64.sub b (2 ^ (remaining + 1).log2) 1 : Outcome ε Nat) =
          ok (highestSize remaining) := Word.sub_ok (Nat.two_pow_pos _)
      have hpeak : (U64.add b peak (highestSize remaining) : Outcome ε Nat) =
          ok (peak + highestSize remaining) := Word.add_ok (by omega)
      have htail : (U64.sub b remaining (highestSize remaining) : Outcome ε Nat) =
          ok (remaining - highestSize remaining) := Word.sub_ok hinside
      have hitem : (U64.sub b (peak + highestSize remaining) 1 : Outcome ε Nat) =
          ok (peak + highestSize remaining - 1) := Word.sub_ok (by omega)
      refine .cons ?_ (ih (remaining - highestSize remaining) (by omega) (by omega))
      simp only [PeaksMMRIVERIter.next, hne, if_false, hnext, hbits, hpower, hhighest, hpeak, htail, hitem,
        ok_bind]

end merkleberg.helper
