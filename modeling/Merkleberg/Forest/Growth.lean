import Merkleberg.Forest.Suffix

open machine

namespace forest

variable {m n : Nat}

/-- Of two numbers with the same upper digits, the larger has a one where they
    first differ. -/
theorem exists_first_difference {width : Nat} (hlt : m < n) (hsame : m / 2 ^ width = n / 2 ^ width) :
    ∃ common h, peaksBelow m width = common ++ peaksBelow m h ∧
      peaksBelow n width = common ++ (h, m / 2 ^ h) :: peaksBelow n h ∧
      n / 2 ^ h = m / 2 ^ h + 1 := by
  induction width with
  | zero =>
    rw [Nat.pow_zero, Nat.div_one, Nat.div_one] at hsame
    omega
  | succ width ih =>
    have hhalf (x : Nat) : x / 2 ^ (width + 1) = x / 2 ^ width / 2 := by
      rw [Nat.div_div_eq_div_mul, pow_succ]
    rw [hhalf, hhalf] at hsame
    have hle : m / 2 ^ width ≤ n / 2 ^ width := Nat.div_le_div_right hlt.le
    rcases Nat.eq_or_lt_of_le hle with heq | hless
    · obtain ⟨common, h, hold, hnew, hnext⟩ := ih heq
      have hbits : m.testBit width = n.testBit width := by
        rw [Bool.eq_iff_iff, testBit_iff_div_odd, testBit_iff_div_odd, heq]
      rw [peaksBelow_succ, peaksBelow_succ, hbits, hold, hnew, heq]
      split
      · exact ⟨(width, n / 2 ^ width - 1) :: common, h, rfl, rfl, hnext⟩
      · exact ⟨common, h, rfl, rfl, hnext⟩
    · -- The upper digits agree, so this one is where they differ.
      have hzero : ¬ m.testBit width = true := by
        rw [testBit_iff_div_odd]
        omega
      have hone : n.testBit width = true := by
        rw [testBit_iff_div_odd]
        omega
      have hnext : n / 2 ^ width = m / 2 ^ width + 1 := by omega
      refine ⟨[], width, ?_, ?_, hnext⟩
      · rw [peaksBelow_succ, if_neg hzero, List.nil_append]
      · rw [peaksBelow_succ, if_pos hone, List.nil_append, hnext, Nat.add_sub_cancel]

/-- A tree of `m` below the first difference lies in the tree of `n` there. -/
theorem nodePos_lt_of_peaksBelow {h : Nat} {node : Nat × Nat}
    (hnode : node ∈ peaksBelow m h) : nodePos node.1 node.2 < nodePos h (m / 2 ^ h) := by
  obtain ⟨hlt, hbit, hindex⟩ := mem_peaksBelow.mp hnode
  rw [testBit_iff_div_odd] at hbit
  have hparent : node.2 / 2 = m / 2 ^ (node.1 + 1) := by
    rw [hindex, pow_succ, ← Nat.div_div_eq_div_mul]
    generalize m / 2 ^ node.1 = digits at hbit
    omega
  have hunder : Under (node.1 + 1) (node.2 / 2) h (m / 2 ^ h) := by
    refine ⟨hlt, ?_⟩
    rw [hparent, Nat.div_div_eq_div_mul, ← pow_add]
    congr 2
    omega
  exact (nodePos_lt_parent node.1 node.2).trans_le hunder.nodePos_le

/-- What becomes of a forest over `m` leaves when it grows to `n`. The peaks in
    `common` stay as they are. The leaves that are added are short of these and of
    the other old peaks, smallest first, and of nothing else. -/
structure Growth (m n : Nat) (common olds news : List (Nat × Nat)) (parts : List Share) : Prop where
  old : peaks m = common ++ olds
  new : peaks n = common ++ news
  before : ∀ old ∈ olds.head?, ∃ new ∈ news.head?, nodePos old.1 old.2 < nodePos new.1 new.2
  sections : Sections (peaks n) (List.range' m (n - m)) parts []
  items : parts.flatMap (partItems Prod.mk) = common ++ olds.reverse
  last : m < n → ∃ front part, parts = front ++ [part] ∧ part.2 ≠ none

theorem Growth.refl (n : Nat) :
    Growth n n (peaks n) [] [] ((peaks n).map fun node => (node, none)) where
  old := (List.append_nil _).symm
  new := (List.append_nil _).symm
  before old hold := by simp at hold
  sections := by
    rw [Nat.sub_self]
    exact sections_no_leaves (peaks n)
  items := by simp [List.flatMap_map, partItems]
  last hlt := absurd hlt (Nat.lt_irrefl n)

theorem Growth.length_items {common olds news : List (Nat × Nat)} {parts : List Share}
    (hgrowth : Growth m n common olds news parts) :
    (common ++ olds.reverse).length = (peaks m).length := by
  rw [hgrowth.old, List.length_append, List.length_append, List.length_reverse]

/-- The leaves from `m` on under the node that fills up, and under the peaks
    behind it. All of these are there but the old peaks under the first node. -/
theorem sections_from {h : Nat}
    (htail : Tiles (2 ^ h * (m / 2 ^ h + 1)) (peaksBelow n h) n) :
    Sections ((h, m / 2 ^ h) :: peaksBelow n h) (List.range' m (n - m))
      (((h, m / 2 ^ h), some (peaksBelow m h).reverse) ::
        (peaksBelow n h).map fun node => (node, some [])) [] := by
  have hsplit := Nat.div_add_mod m (2 ^ h)
  have hmod := Nat.mod_lt m (Nat.two_pow_pos h)
  have hstart : 2 ^ h * (m / 2 ^ h) ≤ m := Nat.mul_div_le m (2 ^ h)
  have hstop : m < 2 ^ h * (m / 2 ^ h + 1) := by
    rw [Nat.mul_succ]
    omega
  have hend := htail.start_le_stop
  obtain ⟨passes, hclimbs, hpasses⟩ := climbs_suffix hstart hstop
  have hleaves : List.range' m (n - m) = List.range' m (2 ^ h * (m / 2 ^ h + 1) - m) ++
      List.range' (2 ^ h * (m / 2 ^ h + 1)) (n - 2 ^ h * (m / 2 ^ h + 1)) := by
    have hfirst : 2 ^ h * (m / 2 ^ h + 1) = m + (2 ^ h * (m / 2 ^ h + 1) - m) := by omega
    rw [hfirst, Nat.add_sub_cancel_left, List.range'_append_1]
    congr 1
    omega
  rw [hleaves]
  refine .take (by simp; omega) (fun i hi => ?_) hclimbs hpasses (fun i hi => ?_) htail.full_sections
  · have hrange := List.mem_range'_1.mp hi
    exact under_zero_iff.mpr ⟨hstart.trans hrange.1, by omega⟩
  · exact (List.mem_range'_1.mp hi).1

/-- The node that the first added leaf fills up is the first of the new peaks. -/
theorem exists_growth_of_lt (hlt : m < n) :
    ∃ common olds parts h, Growth m n common olds ((h, m / 2 ^ h) :: peaksBelow n h) parts ∧
      n / 2 ^ h = m / 2 ^ h + 1 := by
  have hwidth : n < 2 ^ (n.log2 + 1) := Nat.lt_log2_self
  have hsame : m / 2 ^ (n.log2 + 1) = n / 2 ^ (n.log2 + 1) := by
    rw [Nat.div_eq_of_lt hwidth, Nat.div_eq_of_lt (hlt.trans hwidth)]
  obtain ⟨common, h, hold, hnew, hnext⟩ := exists_first_difference hlt hsame
  rw [peaksBelow_eq_peaks hwidth] at hnew
  rw [peaksBelow_eq_peaks (hlt.trans hwidth)] at hold
  have htail := peaksBelow_tiles n h
  rw [hnext] at htail
  have hcommon : ∀ node ∈ common, ∀ i ∈ List.range' m (n - m), 2 ^ node.1 * (node.2 + 1) ≤ i := by
    intro node hnode i hi
    have hpeak : node ∈ peaks m := hold ▸ List.mem_append_left _ hnode
    exact (mem_peaks_iff.mp hpeak).1.trans (List.mem_range'_1.mp hi).1
  refine ⟨common, peaksBelow m h, _, h, ⟨hold, hnew, fun old hhead => ?_,
    hnew ▸ (sections_from htail).skips hcommon, ?_, fun _ => ?_⟩, hnext⟩
  · exact ⟨_, rfl, nodePos_lt_of_peaksBelow (List.mem_of_mem_head? hhead)⟩
  · simp [List.flatMap_append, List.flatMap_map, partItems]
  · rcases List.eq_nil_or_concat (peaksBelow n h) with hnil | ⟨later, node, hlater⟩
    · rw [hnil]
      exact ⟨_, _, rfl, by simp⟩
    · rw [hlater, List.concat_eq_append, List.map_append, ← List.cons_append, ← List.append_assoc]
      exact ⟨_, _, rfl, by simp⟩

/-- Every forest grows so. -/
theorem exists_growth (hle : m ≤ n) : ∃ common olds news parts, Growth m n common olds news parts := by
  rcases Nat.eq_or_lt_of_le hle with rfl | hlt
  · exact ⟨_, _, _, _, .refl m⟩
  · obtain ⟨common, olds, parts, h, hgrowth, _⟩ := exists_growth_of_lt hlt
    exact ⟨common, olds, _, parts, hgrowth⟩

/-- One leaf more merges some of the last peaks into one. -/
theorem exists_growth_succ (n : Nat) :
    ∃ common olds parts h, Growth n (n + 1) common olds [(h, n / 2 ^ h)] parts ∧
      olds.length = trailingZeros (n + 1) := by
  obtain ⟨common, olds, parts, h, hgrowth, hnext⟩ := exists_growth_of_lt (Nat.lt_succ_self n)
  have hmod := Nat.mod_lt n (Nat.two_pow_pos h)
  have hsplit := Nat.div_add_mod n (2 ^ h)
  have hsplit' := Nat.div_add_mod (n + 1) (2 ^ h)
  rw [Nat.succ_eq_add_one] at hnext
  rw [hnext, Nat.mul_succ] at hsplit'
  have hbelow : peaksBelow (n + 1) h = [] := by
    rw [← List.length_eq_zero_iff, peaksBelow_length, show (n + 1) % 2 ^ h = 0 by omega, popcount_zero]
  rw [Nat.succ_eq_add_one, hbelow] at hgrowth
  refine ⟨common, olds, parts, h, hgrowth, ?_⟩
  have hold := peaks_length n
  have hnew := peaks_length (n + 1)
  have hcount := popcount_succ n
  rw [hgrowth.old, List.length_append] at hold
  rw [hgrowth.new, List.length_append, List.length_singleton] at hnew
  omega

end forest
