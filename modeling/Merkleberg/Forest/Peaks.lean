import Mathlib.Data.Nat.Bitwise
import Merkleberg.Forest.Position

open machine

namespace forest

/-- Roots, as height and index, of the trees for the binary digits of `n` under
    `2 ^ width`, largest first. -/
def peaksBelow (n : Nat) : Nat → List (Nat × Nat)
  | 0 => []
  | width + 1 =>
    if n.testBit width then (width, n / 2 ^ width - 1) :: peaksBelow n width
    else peaksBelow n width

theorem peaksBelow_succ (n width : Nat) :
    peaksBelow n (width + 1) =
      if n.testBit width then (width, n / 2 ^ width - 1) :: peaksBelow n width
      else peaksBelow n width := rfl

/-- Roots of the trees of the forest over `n` leaves. -/
def peaks (n : Nat) : List (Nat × Nat) := peaksBelow n (n.log2 + 1)

theorem testBit_iff_div_odd (n width : Nat) : n.testBit width = true ↔ n / 2 ^ width % 2 = 1 := by
  simp [Nat.testBit_eq_decide_div_mod_eq]

/-- Digits past the leading one contribute no tree. -/
theorem peaksBelow_eq_peaks {n width : Nat} (h : n < 2 ^ width) : peaksBelow n width = peaks n := by
  have hmore (extra : Nat) : peaksBelow n (n.log2 + 1 + extra) = peaks n := by
    induction extra with
    | zero => rfl
    | succ extra ih =>
      have hlog : n < 2 ^ (n.log2 + 1) := Nat.lt_log2_self
      have hle := Nat.pow_le_pow_right (n := 2) (by omega) (Nat.le_add_right (n.log2 + 1) extra)
      rw [← Nat.add_assoc, peaksBelow, Nat.testBit_lt_two_pow (hlog.trans_le hle)]
      exact ih
  rcases Nat.eq_zero_or_pos n with rfl | hn
  · induction width with
    | zero => rfl
    | succ width ih =>
      rw [peaksBelow, Nat.zero_testBit]
      exact ih (Nat.two_pow_pos width)
  · have hlog : n.log2 < width := (Nat.log2_lt (by omega)).mpr h
    have hwidth : width = n.log2 + 1 + (width - (n.log2 + 1)) := by omega
    rw [hwidth]
    exact hmore _

theorem mem_peaksBelow {n width : Nat} {node : Nat × Nat} :
    node ∈ peaksBelow n width ↔
      node.1 < width ∧ n.testBit node.1 = true ∧ node.2 = n / 2 ^ node.1 - 1 := by
  induction width with
  | zero => simp [peaksBelow]
  | succ width ih =>
    have hsplit : node.1 < width + 1 ↔ node.1 = width ∨ node.1 < width := by omega
    rw [peaksBelow, hsplit]
    split
    · rename_i hbit
      rw [List.mem_cons, ih]
      constructor
      · rintro (rfl | h)
        · exact ⟨Or.inl rfl, hbit, rfl⟩
        · exact ⟨Or.inr h.1, h.2⟩
      · rintro ⟨heq | hlt, hrest⟩
        · left
          ext
          · exact heq
          · rw [hrest.2, heq]
        · exact Or.inr ⟨hlt, hrest⟩
    · rename_i hbit
      rw [ih]
      constructor
      · exact fun h => ⟨Or.inr h.1, h.2⟩
      · rintro ⟨heq | hlt, hrest⟩
        · rw [heq] at hrest
          exact absurd hrest.1 hbit
        · exact ⟨hlt, hrest⟩

/-- A peak is a node of the forest whose parent is not in it. -/
theorem mem_peaks_iff {n h k : Nat} :
    (h, k) ∈ peaks n ↔ 2 ^ h * (k + 1) ≤ n ∧ n < 2 ^ (h + 1) * (k / 2 + 1) := by
  have hpos := Nat.two_pow_pos h
  have hpos' := Nat.two_pow_pos (h + 1)
  have hinside : 2 ^ h * (k + 1) ≤ n ↔ k + 1 ≤ n / 2 ^ h := by
    rw [Nat.le_div_iff_mul_le hpos, Nat.mul_comm]
  have houtside : n < 2 ^ (h + 1) * (k / 2 + 1) ↔ n / 2 ^ h / 2 < k / 2 + 1 := by
    rw [Nat.div_div_eq_div_mul, ← pow_succ, Nat.div_lt_iff_lt_mul hpos', Nat.mul_comm]
  have hwidth : n < 2 ^ max (h + 1) (n.log2 + 1) :=
    Nat.lt_log2_self.trans_le (Nat.pow_le_pow_right (by omega) (Nat.le_max_right _ _))
  rw [← peaksBelow_eq_peaks hwidth, mem_peaksBelow, testBit_iff_div_odd, hinside, houtside]
  generalize n / 2 ^ h = q
  constructor
  · rintro ⟨_, hodd, hk⟩
    dsimp only at hodd hk
    omega
  · rintro ⟨hle, hlt⟩
    dsimp only
    omega

/-- A list of nodes whose leaves follow each other from `start` up to `stop`. -/
inductive Tiles : Nat → List (Nat × Nat) → Nat → Prop where
  | nil (start : Nat) : Tiles start [] start
  | cons {h k stop : Nat} {rest : List (Nat × Nat)} (tail : Tiles (2 ^ h * (k + 1)) rest stop) :
      Tiles (2 ^ h * k) ((h, k) :: rest) stop

theorem peaksBelow_tiles (n width : Nat) :
    Tiles (2 ^ width * (n / 2 ^ width)) (peaksBelow n width) n := by
  induction width with
  | zero =>
    rw [pow_zero, Nat.one_mul, Nat.div_one]
    exact .nil n
  | succ width ih =>
    have hhalf : n / 2 ^ (width + 1) = n / 2 ^ width / 2 := by
      rw [pow_succ, Nat.div_div_eq_div_mul]
    have hdouble : 2 ^ (width + 1) * (n / 2 ^ width / 2) = 2 ^ width * (2 * (n / 2 ^ width / 2)) := by
      rw [pow_succ, Nat.mul_assoc]
    rw [peaksBelow, hhalf, hdouble]
    split
    · rename_i hbit
      rw [testBit_iff_div_odd] at hbit
      have hstart : 2 * (n / 2 ^ width / 2) = n / 2 ^ width - 1 := by omega
      have hstop : n / 2 ^ width - 1 + 1 = n / 2 ^ width := by omega
      rw [hstart]
      exact .cons (by rwa [hstop])
    · rename_i hbit
      rw [testBit_iff_div_odd] at hbit
      have hstart : 2 * (n / 2 ^ width / 2) = n / 2 ^ width := by omega
      rwa [hstart]

/-- The trees cover the leaves from the first one to the last. -/
theorem peaks_tile (n : Nat) : Tiles 0 (peaks n) n := by
  have h := peaksBelow_tiles n (n.log2 + 1)
  rwa [Nat.div_eq_of_lt Nat.lt_log2_self, Nat.mul_zero] at h

theorem Tiles.start_le_stop {start stop : Nat} {nodes : List (Nat × Nat)}
    (h : Tiles start nodes stop) : start ≤ stop := by
  induction h with
  | nil => exact Nat.le_refl _
  | cons tail ih => exact (Nat.mul_le_mul_left _ (Nat.le_succ _)).trans ih

theorem Tiles.stop_le {start stop : Nat} {nodes : List (Nat × Nat)} (h : Tiles start nodes stop) :
    ∀ node ∈ nodes, 2 ^ node.1 * (node.2 + 1) ≤ stop := by
  induction h with
  | nil => simp
  | cons tail ih =>
    intro node hnode
    rcases List.mem_cons.mp hnode with rfl | hlater
    · exact tail.start_le_stop
    · exact ih node hlater

theorem Tiles.le_start {start stop : Nat} {nodes : List (Nat × Nat)} (h : Tiles start nodes stop) :
    ∀ node ∈ nodes, start ≤ 2 ^ node.1 * node.2 := by
  induction h with
  | nil => simp
  | @cons h k stop rest tail ih =>
    intro node hnode
    rcases List.mem_cons.mp hnode with rfl | hlater
    · exact Nat.le_refl _
    · exact (Nat.mul_le_mul_left _ (Nat.le_succ k)).trans (ih node hlater)

theorem Tiles.of_append {start stop : Nat} {first second : List (Nat × Nat)}
    (h : Tiles start (first ++ second) stop) :
    ∃ middle, Tiles start first middle ∧ Tiles middle second stop := by
  induction first generalizing start with
  | nil => exact ⟨start, .nil start, h⟩
  | cons node first ih =>
    cases h with
    | cons tail =>
      obtain ⟨middle, hfirst, hsecond⟩ := ih tail
      exact ⟨middle, .cons hfirst, hsecond⟩

theorem peaksBelow_heights (n width : Nat) :
    (peaksBelow n width).Pairwise (fun first second => second.1 < first.1) := by
  induction width with
  | zero => exact .nil
  | succ width ih =>
    rw [peaksBelow]
    split
    · refine .cons (fun node hnode => ?_) ih
      exact (mem_peaksBelow.mp hnode).1
    · exact ih

/-- Heights fall strictly from left to right. -/
theorem peaks_heights (n : Nat) :
    (peaks n).Pairwise (fun first second => second.1 < first.1) :=
  peaksBelow_heights n _

theorem peaksBelow_length (n width : Nat) :
    (peaksBelow n width).length = popcount (n % 2 ^ width) := by
  induction width with
  | zero => simp [peaksBelow, Nat.mod_one]
  | succ width ih =>
    have hlt : n % 2 ^ width < 2 ^ width := Nat.mod_lt _ (Nat.two_pow_pos width)
    have hmod : n % 2 ^ (width + 1) = 2 ^ width * (n / 2 ^ width % 2) + n % 2 ^ width := by
      rw [pow_succ, Nat.mod_mul, Nat.add_comm]
    rw [peaksBelow, hmod, popcount_block _ hlt]
    split
    · rename_i hbit
      rw [testBit_iff_div_odd] at hbit
      have hone : popcount 1 = 1 := popcount_two_mul_add_one 0
      rw [List.length_cons, ih, hbit, hone, Nat.add_comm]
    · rename_i hbit
      rw [testBit_iff_div_odd] at hbit
      have hzero : n / 2 ^ width % 2 = 0 := by omega
      rw [ih, hzero, popcount_zero, Nat.zero_add]

theorem peaks_length (n : Nat) : (peaks n).length = popcount n := by
  rw [peaks, peaksBelow_length, Nat.mod_eq_of_lt Nat.lt_log2_self]

@[simp] theorem peaks_zero : peaks 0 = [] := by
  have h : (0 : Nat) < 2 ^ 0 := by decide
  rw [← peaksBelow_eq_peaks h, peaksBelow]

theorem peaks_ne_nil {n : Nat} (hn : 0 < n) : peaks n ≠ [] := by
  intro hnil
  have h := popcount_pos hn
  rw [← peaks_length, hnil] at h
  exact absurd h (by simp)

/-- The peaks are in the forest. -/
theorem nodePos_lt_of_peak {n : Nat} {node : Nat × Nat} (hpeak : node ∈ peaks n) :
    nodePos node.1 node.2 < nodeCount n :=
  nodePos_lt_nodeCount_iff.mpr (mem_peaks_iff.mp hpeak).1

theorem peaks_nodup (n : Nat) : (peaks n).Nodup :=
  (peaks_heights n).imp fun hlt heq => absurd (congrArg Prod.fst heq) hlt.ne'

/-- The leaf at which an odd log ends is a tree of its own. -/
theorem peaks_odd (m : Nat) : peaks (2 * m + 1) = peaks (2 * m) ++ [(0, 2 * m)] := by
  have hbelow : ∀ width, peaksBelow (2 * m + 1) (width + 1) =
      peaksBelow (2 * m) (width + 1) ++ [(0, 2 * m)] := by
    intro width
    induction width with
    | zero => simp [peaksBelow]
    | succ width ih =>
      have hbit : (2 * m + 1).testBit (width + 1) = (2 * m).testBit (width + 1) := by
        rw [Nat.testBit_succ, Nat.testBit_succ, show (2 * m + 1) / 2 = 2 * m / 2 by omega]
      have hindex : (2 * m + 1) / 2 ^ (width + 1) = 2 * m / 2 ^ (width + 1) := by
        rw [pow_succ', ← Nat.div_div_eq_div_mul, ← Nat.div_div_eq_div_mul,
          show (2 * m + 1) / 2 = 2 * m / 2 by omega]
      rw [peaksBelow_succ _ (width + 1), peaksBelow_succ _ (width + 1), hbit, hindex, ih]
      split
      · rfl
      · rfl
  have hlog : 2 * m + 1 < 2 ^ ((2 * m + 1).log2 + 1) := Nat.lt_log2_self
  rw [peaks, hbelow, peaksBelow_eq_peaks (by omega)]

/-- The only peak of height zero is the leaf at which an odd log ends. -/
theorem peak_of_height_zero {n k : Nat} (hpeak : (0, k) ∈ peaks n) : k + 1 = n ∧ n % 2 = 1 := by
  have hbounds := mem_peaks_iff.mp hpeak
  omega

/-- Evenly many leaves leave no peak that is a leaf. -/
theorem peak_inner {n : Nat} (heven : n % 2 = 0) {node : Nat × Nat} (hpeak : node ∈ peaks n) :
    0 < node.1 := by
  obtain ⟨h, k⟩ := node
  rcases Nat.eq_zero_or_pos h with rfl | hinner
  · have := peak_of_height_zero hpeak
    omega
  · exact hinner

/-- Node `(g, m)` is the node `(h, k)` or lies below it. -/
def Under (g m h k : Nat) : Prop := g ≤ h ∧ m / 2 ^ (h - g) = k

theorem under_refl (h k : Nat) : Under h k h k := by
  simp [Under]

/-- A node that lies under one that is no higher is that node. -/
theorem Under.eq_of_le {g m h k : Nat} (h' : Under g m h k) (hle : h ≤ g) : g = h ∧ m = k := by
  obtain ⟨hge, heq⟩ := h'
  obtain rfl := Nat.le_antisymm hge hle
  rw [Nat.sub_self, pow_zero, Nat.div_one] at heq
  exact ⟨rfl, heq⟩

theorem Under.parent {g m h k : Nat} (h' : Under (g + 1) (m / 2) h k) : Under g m h k := by
  obtain ⟨hle, heq⟩ := h'
  refine ⟨by omega, ?_⟩
  rw [Nat.div_div_eq_div_mul, ← pow_succ'] at heq
  rwa [show h - g = h - (g + 1) + 1 by omega]

theorem Under.to_parent {g m h k : Nat} (h' : Under g m h k) (hlt : g < h) :
    Under (g + 1) (m / 2) h k := by
  obtain ⟨hle, heq⟩ := h'
  refine ⟨hlt, ?_⟩
  rw [Nat.div_div_eq_div_mul, ← pow_succ', show h - (g + 1) + 1 = h - g by omega]
  exact heq

theorem Under.trans {g m h k h' k' : Nat} (hlow : Under g m h k) (hhigh : Under h k h' k') :
    Under g m h' k' := by
  obtain ⟨hle, rfl⟩ := hlow
  obtain ⟨hle', rfl⟩ := hhigh
  refine ⟨hle.trans hle', ?_⟩
  rw [Nat.div_div_eq_div_mul, ← pow_add]
  congr 2
  omega

/-- Of two nodes above the same one, the lower is under the higher. -/
theorem Under.above {g m h k h' k' : Nat} (hhigh : Under g m h k) (hlow : Under g m h' k')
    (hle : h' ≤ h) : Under h' k' h k := by
  obtain ⟨hg, rfl⟩ := hhigh
  obtain ⟨hg', rfl⟩ := hlow
  refine ⟨hle, ?_⟩
  rw [Nat.div_div_eq_div_mul, ← pow_add]
  congr 2
  omega

/-- The leaves of a node are among the leaves of every node above it. -/
theorem Under.leaves {g m h k : Nat} (h' : Under g m h k) :
    2 ^ h * k ≤ 2 ^ g * m ∧ 2 ^ g * (m + 1) ≤ 2 ^ h * (k + 1) := by
  obtain ⟨hle, rfl⟩ := h'
  have hsplit : 2 ^ h = 2 ^ g * 2 ^ (h - g) := by
    rw [← pow_add]
    congr 1
    omega
  have hpos := Nat.two_pow_pos (h - g)
  rw [hsplit, Nat.mul_assoc, Nat.mul_assoc]
  refine ⟨Nat.mul_le_mul_left _ (Nat.mul_div_le m _), Nat.mul_le_mul_left _ ?_⟩
  have hlt := Nat.lt_mul_div_succ m hpos
  omega

/-- A node comes no later than the nodes above it. -/
theorem Under.nodePos_le {g m h k : Nat} (h' : Under g m h k) : nodePos g m ≤ nodePos h k := by
  induction hheight : h - g generalizing g m with
  | zero =>
    obtain ⟨rfl, rfl⟩ := h'.eq_of_le (by omega)
    exact Nat.le_refl _
  | succ height ih =>
    have hup := ih (h'.to_parent (by omega)) (by omega)
    have := nodePos_lt_parent g m
    omega

/-- Nothing in the forest is above a peak. -/
theorem height_le_of_peak {n g m h k : Nat} (hpeak : (h, k) ∈ peaks n) (hunder : Under g m h k)
    {h' k' : Nat} (habove : Under g m h' k') (hinside : 2 ^ h' * (k' + 1) ≤ n) : h' ≤ h := by
  by_contra hhigher
  have hparent := (habove.above hunder (by omega)).to_parent (by omega)
  have := hparent.leaves.2
  have := (mem_peaks_iff.mp hpeak).2
  omega

/-- Every node of the forest lies under one of its peaks. -/
theorem exists_peak_above {n g m : Nat} (hinside : 2 ^ g * (m + 1) ≤ n) :
    ∃ node ∈ peaks n, Under g m node.1 node.2 := by
  by_cases hparent : 2 ^ (g + 1) * (m / 2 + 1) ≤ n
  · obtain ⟨node, hmem, hunder⟩ := exists_peak_above hparent
    exact ⟨node, hmem, hunder.parent⟩
  · exact ⟨(g, m), mem_peaks_iff.mpr ⟨hinside, by omega⟩, under_refl g m⟩
termination_by n - g
decreasing_by
  have hpow : g + 1 < 2 ^ (g + 1) := Nat.lt_two_pow_self
  have hle := Nat.le_mul_of_pos_right (2 ^ (g + 1)) (show 0 < m / 2 + 1 by omega)
  omega

end forest
