import Merkleberg.Forest.Sections

namespace forest

/-- The root of the tree for the digit of `n` at `h`, if that is a one. -/
def digitPeak (n h : Nat) : List (Nat × Nat) :=
  if n / 2 ^ h % 2 = 1 then [(h, n / 2 ^ h - 1)] else []

theorem peaksBelow_reverse (n width : Nat) :
    (peaksBelow n width).reverse = (List.range' 0 width).flatMap (digitPeak n) := by
  induction width with
  | zero => rfl
  | succ width ih =>
    rw [peaksBelow_succ, List.range'_1_concat, List.flatMap_append, ← ih, List.flatMap_singleton,
      Nat.zero_add, digitPeak]
    by_cases hbit : n.testBit width = true
    · rw [if_pos hbit, if_pos ((testBit_iff_div_odd n width).mp hbit), List.reverse_cons]
    · rw [if_neg hbit, if_neg fun hodd => hbit ((testBit_iff_div_odd n width).mpr hodd), List.append_nil]

/-- Among whole trees of `2 ^ width` leaves there is no smaller one. -/
theorem peaksBelow_mul (width k : Nat) : peaksBelow (2 ^ width * k) width = [] := by
  rw [List.eq_nil_iff_forall_not_mem]
  intro node hnode
  obtain ⟨hlt, hbit, _⟩ := mem_peaksBelow.mp hnode
  rw [Nat.testBit_two_pow_mul] at hbit
  simp at hbit
  omega

section Climb

variable {H K g s c passes : Nat} {rest requests : List (Nat × Nat)}

/-- Nodes that are there with their siblings are replaced by their parents. -/
theorem Climbs.of_pairs (hlt : g < H) (hunder : ∀ k, s ≤ k → k < s + c → Under (g + 1) k H K)
    (hnext : Climbs H K passes (rest ++ (List.range' s c).map (g + 1, ·)) requests) :
    Climbs H K (passes + c) ((List.range' (2 * s) (2 * c)).map (g, ·) ++ rest) requests := by
  induction c generalizing s rest with
  | zero => simpa using hnext
  | succ c ih =>
    have hunder' : Under g (2 * s) H K := by
      apply Under.parent
      rw [show 2 * s / 2 = s by omega]
      exact hunder s (Nat.le_refl _) (by omega)
    rw [List.range'_succ, List.map_cons, List.append_cons] at hnext
    have hrest := ih (fun k hle hk => hunder k (by omega) (by omega)) hnext
    rw [← List.append_assoc] at hrest
    have hpair : Climbs H K (passes + c + 1) ((g, 2 * s) :: (g, sibling (2 * s)) ::
        ((List.range' (2 * (s + 1)) (2 * c)).map (g, ·) ++ rest)) requests :=
      .pair hlt hunder' (by rwa [show 2 * s / 2 = s by omega])
    rw [sibling, if_pos (by omega)] at hpair
    rw [Nat.mul_succ, List.range'_succ, List.range'_succ]
    exact hpair

/-- The nodes of one level under a root, from some node on. An odd first node is a
    right child whose sibling is not among them. -/
theorem Climbs.of_level {a stop : Nat} (hlt : g < H) (hstop : a / 2 < stop)
    (hunder : ∀ k, a / 2 ≤ k → k < stop → Under (g + 1) k H K)
    (hnext : Climbs H K passes ((List.range' (a / 2) (stop - a / 2)).map (g + 1, ·)) requests) :
    ∃ passes', Climbs H K passes' ((List.range' a (2 * stop - a)).map (g, ·))
        ((if a % 2 = 1 then [(g, a - 1)] else []) ++ requests) ∧
      passes' ≤ passes + (stop - a / 2) := by
  have hsplit := Nat.div_add_mod a 2
  rcases Nat.mod_two_eq_zero_or_one a with heven | hodd
  · have hcount : 2 * stop - a = 2 * (stop - a / 2) := by omega
    have hstart : a = 2 * (a / 2) := by omega
    refine ⟨_, ?_, Nat.le_refl _⟩
    rw [← List.nil_append (List.map _ _)] at hnext
    have hpairs := Climbs.of_pairs (c := stop - a / 2) hlt (fun k hle hk => hunder k hle (by omega)) hnext
    rw [List.append_nil, ← hstart] at hpairs
    rw [if_neg (by omega), List.nil_append, hcount]
    exact hpairs
  · have hcount : 2 * stop - a = 2 * (stop - a / 2 - 1) + 1 := by omega
    have hnode : a + 1 = 2 * (a / 2 + 1) := by omega
    have hsibling : sibling a = a - 1 := by rw [sibling, if_neg (by omega)]
    have hunder' : Under g a H K := (hunder (a / 2) (Nat.le_refl _) hstop).parent
    rw [show stop - a / 2 = stop - a / 2 - 1 + 1 by omega, List.range'_succ, List.map_cons,
      ← List.singleton_append] at hnext
    have hpairs := Climbs.of_pairs hlt (fun k hle hk => hunder k (by omega) (by omega)) hnext
    rw [← hnode] at hpairs
    refine ⟨_, ?_, show passes + (stop - a / 2 - 1) + 1 ≤ _ by omega⟩
    rw [if_pos hodd, hcount, List.range'_succ, List.map_cons, ← hsibling, List.singleton_append]
    refine .request hlt hunder' ?_ hpairs
    cases hrest : stop - a / 2 - 1 with
    | zero => simp
    | succ rest =>
      rw [Nat.mul_succ, List.range'_succ, hsibling]
      simp
      omega

end Climb

section Suffix

variable {m n h q : Nat}

/-- Level by level: what the nodes above the leaves from `m` on are short of are
    the trees of `m`, from this level up. -/
theorem climbs_suffix_level (hstart : 2 ^ h * q ≤ m) (hstop : m < 2 ^ h * (q + 1)) {g levels : Nat}
    (hlevels : g + levels = h) :
    ∃ passes, Climbs h q passes
        ((List.range' (m / 2 ^ g) (2 ^ levels * (q + 1) - m / 2 ^ g)).map (g, ·))
        ((List.range' g levels).flatMap (digitPeak m)) ∧
      passes ≤ levels * (2 ^ levels * (q + 1) - m / 2 ^ g) := by
  induction levels generalizing g with
  | zero =>
    obtain rfl : g = h := hlevels
    have htop : m / 2 ^ g = q := by
      rw [Nat.mul_comm] at hstart hstop
      exact Nat.div_eq_of_lt_le hstart hstop
    rw [htop, Nat.pow_zero, Nat.one_mul, Nat.add_sub_cancel_left]
    exact ⟨0, .done, Nat.zero_le _⟩
  | succ levels ih =>
    obtain ⟨passes, hclimbs, hpasses⟩ := ih (g := g + 1) (by omega)
    have hhalf : m / 2 ^ g / 2 = m / 2 ^ (g + 1) := by rw [Nat.div_div_eq_div_mul, pow_succ]
    have hpow : 2 ^ h = 2 ^ (g + 1) * 2 ^ levels := by
      rw [← pow_add]
      congr 1
      omega
    have hbelow : 2 ^ levels * q ≤ m / 2 ^ (g + 1) := by
      rw [Nat.le_div_iff_mul_le (Nat.two_pow_pos _), Nat.mul_comm, ← Nat.mul_assoc, ← hpow]
      exact hstart
    have habove : m / 2 ^ (g + 1) < 2 ^ levels * (q + 1) := by
      rw [Nat.div_lt_iff_lt_mul (Nat.two_pow_pos _), Nat.mul_comm, ← Nat.mul_assoc, ← hpow]
      exact hstop
    have hunder : ∀ k, m / 2 ^ g / 2 ≤ k → k < 2 ^ levels * (q + 1) → Under (g + 1) k h q := by
      intro k hle hlt
      rw [hhalf] at hle
      refine ⟨by omega, ?_⟩
      rw [show h - (g + 1) = levels by omega]
      rw [Nat.mul_comm] at hlt hbelow
      exact Nat.div_eq_of_lt_le (hbelow.trans hle) hlt
    rw [← hhalf] at hclimbs hpasses
    obtain ⟨passes', hlevel, hmore⟩ := hclimbs.of_level (by omega) (by rwa [hhalf]) hunder
    have hdouble : 2 ^ (levels + 1) * (q + 1) = 2 * (2 ^ levels * (q + 1)) := by
      rw [pow_succ]
      ring
    rw [hdouble, List.range'_succ, List.flatMap_cons]
    refine ⟨passes', ?_, ?_⟩
    · rw [digitPeak]
      exact hlevel
    · have hfewer : 2 ^ levels * (q + 1) - m / 2 ^ g / 2 ≤ 2 * (2 ^ levels * (q + 1)) - m / 2 ^ g := by
        omega
      calc passes' ≤ passes + (2 ^ levels * (q + 1) - m / 2 ^ g / 2) := hmore
        _ ≤ levels * (2 ^ levels * (q + 1) - m / 2 ^ g / 2) +
            (2 ^ levels * (q + 1) - m / 2 ^ g / 2) := Nat.add_le_add_right hpasses _
        _ = (levels + 1) * (2 ^ levels * (q + 1) - m / 2 ^ g / 2) := (Nat.succ_mul _ _).symm
        _ ≤ (levels + 1) * (2 * (2 ^ levels * (q + 1)) - m / 2 ^ g) := Nat.mul_le_mul_left _ hfewer

/-- The last leaves of a tree, from `m` on, are short of the trees of `m` in it,
    smallest first. -/
theorem climbs_suffix (hstart : 2 ^ h * q ≤ m) (hstop : m < 2 ^ h * (q + 1)) :
    ∃ passes, Climbs h q passes ((List.range' m (2 ^ h * (q + 1) - m)).map (0, ·))
        (peaksBelow m h).reverse ∧
      passes ≤ h * (List.range' m (2 ^ h * (q + 1) - m)).length := by
  have hlevel := climbs_suffix_level hstart hstop (g := 0) (Nat.zero_add h)
  rw [Nat.pow_zero, Nat.div_one, ← peaksBelow_reverse] at hlevel
  rwa [List.length_range']

/-- Trees that have all their leaves are short of nothing. -/
theorem Tiles.full_sections {start stop : Nat} {nodes : List (Nat × Nat)} (htiles : Tiles start nodes stop) :
    Sections nodes (List.range' start (stop - start)) (nodes.map fun node => (node, some [])) [] := by
  induction htiles with
  | nil start =>
    rw [Nat.sub_self]
    exact .nil []
  | @cons h k stop nodes tail ih =>
    have hpos := Nat.two_pow_pos h
    have hle := tail.start_le_stop
    rw [Nat.mul_succ] at hle
    obtain ⟨passes, hclimbs, hpasses⟩ :=
      climbs_suffix (Nat.le_refl (2 ^ h * k)) (show _ < 2 ^ h * (k + 1) by rw [Nat.mul_succ]; omega)
    have hblock : 2 ^ h * (k + 1) - 2 ^ h * k = 2 ^ h := by rw [Nat.mul_succ, Nat.add_sub_cancel_left]
    rw [peaksBelow_mul, List.reverse_nil, hblock] at hclimbs
    rw [hblock] at hpasses
    have hsplit : List.range' (2 ^ h * k) (stop - 2 ^ h * k) =
        List.range' (2 ^ h * k) (2 ^ h) ++ List.range' (2 ^ h * (k + 1)) (stop - 2 ^ h * (k + 1)) := by
      rw [Nat.mul_succ, List.range'_append_1]
      congr 1
      omega
    rw [hsplit, List.map_cons]
    refine .take (by simp) (fun i hi => ?_) hclimbs hpasses (fun i hi => ?_) ih
    · rw [List.mem_range'_1] at hi
      exact under_zero_iff.mpr ⟨hi.1, by rw [Nat.mul_succ]; exact hi.2⟩
    · exact (List.mem_range'_1.mp hi).1

end Suffix

end forest
