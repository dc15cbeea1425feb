import Merkleberg.Forest.Climb
import Merkleberg.Mmriver.Run

open machine machine.Outcome
open forest
open merkleberg.helper

namespace merkleberg.mmriver

variable {Item σ μ : Type} {b : Profile} {H : Hasher Item} {data : List Bytes}

/-- What the height of an index and the width of its subtree need of a word. -/
structure IndexFits (b : Profile) (h k : Nat) : Prop where
  height_fits : nodePos h k + 2 < allOnesLimit b
  parent_fits : nodePos h k + 2 ^ (h + 1) + 1 < 2 ^ 64

theorem IndexFits.of_lt {h k : Nat} (hlt : nodePos h k + 2 < 2 ^ 63) : IndexFits b h k := by
  have hlimit := le_allOnesLimit b
  have hwidth := two_pow_le_nodePos h k
  exact ⟨by omega, by omega⟩

/-- Every node of a tree whose heights stay in range fits: the tree has fewer than
    2^63 leaves, and the next subtree of this height is not the last of as many. -/
theorem IndexFits.of_inside {n h k : Nat} (hfits : nodeCount n + 1 < allOnesLimit b)
    (hinside : 2 ^ h * (k + 1) ≤ n) : IndexFits b h k := by
  have hlimit := allOnesLimit_le b
  have hbelow := nodePos_lt_nodeCount_iff.mpr hinside
  have hfull := nodeCount_two_pow 63
  have hleaves : n < 2 ^ 63 := nodeCount_lt_nodeCount_iff.mp (by omega)
  have hheight : h < 63 := by
    have hwidth : 2 ^ h * 1 ≤ 2 ^ h * (k + 1) := Nat.mul_le_mul_left _ (by omega)
    exact (Nat.pow_lt_pow_iff_right (show 1 < 2 by omega)).mp (by omega)
  obtain ⟨room, hroom⟩ : ∃ room, 2 ^ 63 = 2 ^ (h + 1) * room :=
    ⟨2 ^ (63 - (h + 1)), by rw [← Nat.pow_add, Nat.add_sub_cancel' (by omega)]⟩
  have hindex : k + 1 < 2 * room := by
    apply Nat.lt_of_mul_lt_mul_left (a := 2 ^ h)
    rw [← Nat.mul_assoc, ← pow_succ, ← hroom]
    omega
  have hparent : 2 ^ (h + 1) * ((k + 1) / 2 + 1) ≤ 2 ^ 63 := by
    rw [hroom]
    exact Nat.mul_le_mul_left _ (by omega)
  have hparent_below := nodePos_lt_nodeCount_iff.mpr hparent
  have hnext := nodePos_lt_parent h (k + 1)
  have hwidth : nodePos h k + 2 ^ (h + 1) ≤ nodePos h (k + 1) + 1 := by
    have hbounds := nodePos_bounds h k
    rw [nodePos.eq_def h (k + 1)]
    omega
  exact ⟨by omega, by omega⟩

section Step

variable {ε : Type} {h k : Nat}

theorem IndexFits.height_lt (hfits : IndexFits b h k) : h + 1 < 64 := by
  have hlimit := hfits.parent_fits
  exact (Nat.pow_lt_pow_iff_right (show 1 < 2 by omega)).mp (by omega)

theorem IndexFits.shl_eq (hfits : IndexFits b h k) :
    (U64.shl b 2 h : Outcome ε Nat) = ok (2 ^ (h + 1)) := by
  have hlimit := hfits.parent_fits
  have hpos := Nat.two_pow_pos h
  have hheight := hfits.height_lt
  have hdouble : 2 * 2 ^ h = 2 ^ (h + 1) := (pow_succ' 2 h).symm
  rw [U64.shl, Word.shl_ok (by omega) (by omega), hdouble]

theorem IndexFits.add_one_eq (hfits : IndexFits b h k) :
    (U64.add b (nodePos h k) 1 : Outcome ε Nat) = ok (nodePos h k + 1) := by
  have hlimit := hfits.parent_fits
  have hpos := Nat.two_pow_pos (h + 1)
  exact Word.add_ok (by omega)

theorem IndexFits.next_height_eq (hfits : IndexFits b h k) :
    (index_height_mmriver b (nodePos h k + 1) : Outcome ε Nat) =
      ok (if k % 2 = 1 then h + 1 else 0) := by
  rw [index_height_mmriver_eq hfits.height_fits, nodeHeight_nodePos_succ]

end Step

/-- One pass of the prover: unless the sibling lies behind the tree, it is added
    and the parent comes next. Only at index 1 does the subtraction wrap. -/
theorem inclusion_proof_path_step {ε : Type} {h k c : Nat} (hfits : IndexFits b h k)
    (hwraps : b = .release ∨ (h, k) ≠ (0, 1)) (path : List Nat) :
    (inclusion_proof_path.body b c (nodePos h k, h, path) : Outcome ε _) =
      if nodePos h (sibling k) > c then ok (.done path)
      else ok (.next (nodePos (h + 1) (k / 2), h + 1, path ++ [nodePos h (sibling k)])) := by
  have hlimit := hfits.parent_fits
  have hheight := hfits.height_lt
  have hpos := Nat.two_pow_pos (h + 1)
  have hg : (U8.add b h 1 : Outcome ε Nat) = ok (h + 1) := Word.add_ok (by omega)
  simp only [inclusion_proof_path.body, hfits.shl_eq, hfits.add_one_eq, hfits.next_height_eq, ok_bind]
  obtain ⟨heven, hup, hnear⟩ | ⟨hodd, hup, hnear⟩ := nodePos_relatives h k
  · have hparent : (U64.add b (nodePos h k) (2 ^ (h + 1)) : Outcome ε Nat) =
        ok (nodePos (h + 1) (k / 2)) := by
      rw [U64.add, Word.add_ok (by omega), hup]
    have hsibling : (U64.sub b (nodePos (h + 1) (k / 2)) 1 : Outcome ε Nat) =
        ok (nodePos h (sibling k)) := by
      rw [U64.sub, Word.sub_ok (by omega), ← hnear, Nat.add_sub_cancel]
    rw [if_neg (by rw [if_neg (by omega)]; omega)]
    simp only [hparent, hsibling, hg, ok_bind]
  · have hsibling : (do
          let lower ← U64.sub b (nodePos h k) (2 ^ (h + 1))
          U64.add b lower 1 : Outcome ε Nat) = ok (nodePos h (sibling k)) := by
      by_cases hfirst : nodePos h (sibling k) = 0
      · -- The sibling is index 0, so this is index 1.
        have hleaf : h = 0 ∧ sibling k = 0 := nodePos_inj (hfirst.trans (nodePos_zero 0).symm)
        obtain ⟨rfl, hk⟩ := hleaf
        have hone : k = 1 := by
          have := sibling_cases k
          omega
        subst hone
        rcases hwraps with rfl | hne
        · rfl
        · exact absurd rfl hne
      · have hlower : (U64.sub b (nodePos h k) (2 ^ (h + 1)) : Outcome ε Nat) =
            ok (nodePos h (sibling k) - 1) := by
          rw [U64.sub, Word.sub_ok (by omega)]
          congr 1
          omega
        rw [hlower, ok_bind, U64.add, Word.add_ok (by omega), Nat.sub_add_cancel (by omega)]
    rw [bind_eq_ok_iff] at hsibling
    obtain ⟨lower, hlower, hsibling⟩ := hsibling
    rw [if_pos (by rw [if_pos hodd]; omega)]
    simp only [hlower, hsibling, hg, hup, ok_bind]

/-- The sibling lies behind the tree when the parent is not in it. -/
theorem sibling_behind_iff {n h k : Nat} (hinside : 2 ^ h * (k + 1) ≤ n) :
    nodePos h (sibling k) > nodeCount n - 1 ↔ n < 2 ^ (h + 1) * (k / 2 + 1) := by
  have hbelow := nodePos_lt_nodeCount_iff.mpr hinside
  have hsibling := nodePos_lt_nodeCount_iff.trans (sibling_inside_iff hinside)
  rw [← Nat.not_le (a := 2 ^ (h + 1) * (k / 2 + 1)), ← hsibling]
  omega

/-- Below a peak the prover collects the siblings on the way up to it. -/
theorem inclusion_proof_path_loop {ε : Type} {n h k top index fuel : Nat}
    (hpeak : (top, index) ∈ peaks n) (hfits : nodeCount n + 1 < allOnesLimit b)
    (hunder : Under h k top index) (hwraps : b = .release ∨ (h, k) ≠ (0, 1)) (path : List Nat)
    (hfuel : top - h < fuel) :
    (loop (inclusion_proof_path.body b (nodeCount n - 1)) fuel (nodePos h k, h, path) :
      Outcome ε _) =
      ok (path ++ (siblings (top - h) h k).map fun node => nodePos node.1 node.2) := by
  induction hlevels : top - h generalizing h k path fuel with
  | zero =>
    obtain ⟨rfl, rfl⟩ := hunder.eq_of_le (by omega)
    obtain ⟨fuel, rfl⟩ : ∃ rest, fuel = rest + 1 := ⟨fuel - 1, by omega⟩
    obtain ⟨hinside, houtside⟩ := mem_peaks_iff.mp hpeak
    have hstep := inclusion_proof_path_step (ε := ε) (c := nodeCount n - 1)
      (IndexFits.of_inside hfits hinside) hwraps path
    rw [if_pos ((sibling_behind_iff hinside).mpr houtside)] at hstep
    rw [loop_done hstep, siblings, List.map_nil, List.append_nil]
  | succ levels ih =>
    obtain ⟨fuel, rfl⟩ : ∃ rest, fuel = rest + 1 := ⟨fuel - 1, by omega⟩
    have hparent := hunder.to_parent (by omega)
    have hparent_inside := hparent.leaves.2.trans (mem_peaks_iff.mp hpeak).1
    have hinside := hunder.leaves.2.trans (mem_peaks_iff.mp hpeak).1
    have hstep := inclusion_proof_path_step (ε := ε) (c := nodeCount n - 1)
      (IndexFits.of_inside hfits hinside) hwraps path
    rw [if_neg (mt (sibling_behind_iff hinside).mp (Nat.not_lt.mpr hparent_inside))] at hstep
    rw [loop_next hstep, ih hparent (Or.inr (by simp)) _ (by omega) (by omega), siblings,
      List.map_cons, List.append_assoc, List.singleton_append]

/-- Both walks along a path start at the height of its index. -/
theorem IndexFits.start_height_eq {ε : Type} {h k : Nat} (hfits : IndexFits b h k) :
    (index_height_mmriver b (nodePos h k) : Outcome ε Nat) = ok h := by
  have hlimit := hfits.height_fits
  rw [index_height_mmriver_eq (by omega), nodeHeight_nodePos]

/-- The path of a node of the tree is that of its siblings up to the peak. -/
theorem inclusion_proof_path_eq {ε : Type} {n h k top index : Nat} (hpeak : (top, index) ∈ peaks n)
    (hfits : nodeCount n + 1 < allOnesLimit b) (hunder : Under h k top index)
    (hwraps : b = .release ∨ (h, k) ≠ (0, 1)) :
    (inclusion_proof_path b (nodePos h k) (nodeCount n - 1) : Outcome ε _) =
      ok ((siblings (top - h) h k).map fun node => nodePos node.1 node.2) := by
  have hinside := (mem_peaks_iff.mp hpeak).1
  have htop := (IndexFits.of_inside hfits hinside).height_lt
  have hindex := IndexFits.of_inside hfits (hunder.leaves.2.trans hinside)
  have hloop := inclusion_proof_path_loop (ε := ε) hpeak hfits hunder hwraps [] (show top - h < 2 ^ 72 by
    omega)
  rw [inclusion_proof_path, hindex.start_height_eq, ok_bind, hloop, List.nil_append]

/-- One pass of the verifier: it goes to the parent, and hashes the two values on
    the sides the height of the next index tells. -/
theorem included_root_step_eq {M : Merge Item μ} {h k : Nat} (hfits : IndexFits b h k) (root sibling : Item)
    (proof : List Item) :
    included_root.climb b M h (nodePos h k) root (sibling :: proof) =
      (if k % 2 = 1 then M.merge_pos (nodePos (h + 1) (k / 2) + 1) sibling root
        else M.merge_pos (nodePos (h + 1) (k / 2) + 1) root sibling) >>= fun parent =>
        included_root.climb b M (h + 1) (nodePos (h + 1) (k / 2)) parent proof := by
  have hlimit := hfits.parent_fits
  have hheight := hfits.height_lt
  have hpos := Nat.two_pow_pos (h + 1)
  have hg : (U8.add b h 1 : Outcome μ Nat) = ok (h + 1) := Word.add_ok (by omega)
  have hnumber : (U64.add b (nodePos (h + 1) (k / 2)) 1 : Outcome μ Nat) =
      ok (nodePos (h + 1) (k / 2) + 1) := by
    have := nodePos_relatives h k
    exact Word.add_ok (by omega)
  simp only [included_root.climb, hg, hfits.add_one_eq, hfits.next_height_eq, hfits.shl_eq, ok_bind]
  obtain ⟨heven, hup, hnear⟩ | ⟨hodd, hup, hnear⟩ := nodePos_relatives h k
  · have hparent : (U64.add b (nodePos h k) (2 ^ (h + 1)) : Outcome μ Nat) =
        ok (nodePos (h + 1) (k / 2)) := by
      rw [U64.add, Word.add_ok (by omega), hup]
    have hleft : ¬ k % 2 = 1 := by omega
    rw [if_neg (by rw [if_neg hleft]; omega), if_neg hleft]
    simp only [hparent, hnumber, ok_bind]
  · rw [if_pos (by rw [if_pos hodd]; omega), if_pos hodd]
    simp only [hup, hnumber, ok_bind]

/-- The same pass where hashing does not fail. -/
theorem included_root_step {h k : Nat} (hfits : IndexFits b h k) (root sibling : Item)
    (proof : List Item) :
    (included_root.climb b (H.toMerge : Merge Item μ) h (nodePos h k) root (sibling :: proof)) =
      included_root.climb b (H.toMerge : Merge Item μ) (h + 1) (nodePos (h + 1) (k / 2))
        (mergeAt (H.merge_pos (nodePos (h + 1) (k / 2) + 1)) k root sibling) proof := by
  rw [included_root_step_eq hfits, mergeAt]
  split
  · rw [Hasher.toMerge_merge_pos, ok_bind]
  · rw [Hasher.toMerge_merge_pos, ok_bind]

theorem mergeAt_nodeItem (H : Hasher Item) (data : List Bytes) (h k : Nat) :
    mergeAt (H.merge_pos (nodePos (h + 1) (k / 2) + 1)) k (nodeItem H data h k)
        (nodeItem H data h (sibling k)) = nodeItem H data (h + 1) (k / 2) :=
  mergeAt_value _ (nodeItem_succ H data h (k / 2))

/-- With the values of the siblings the verifier arrives at the value above. -/
theorem included_root_climb_eq {n h k top index : Nat} (hfits : nodeCount n + 1 < allOnesLimit b)
    (hinside : 2 ^ top * (index + 1) ≤ n) (hunder : Under h k top index) :
    (included_root.climb b (H.toMerge : Merge Item μ) h (nodePos h k) (nodeItem H data h k)
      ((siblings (top - h) h k).map fun node => nodeItem H data node.1 node.2)) =
      ok (nodeItem H data top index) := by
  induction hlevels : top - h generalizing h k with
  | zero =>
    obtain ⟨rfl, rfl⟩ := hunder.eq_of_le (by omega)
    have hheight := (IndexFits.of_inside hfits hinside).height_lt
    have hg : (U8.add b h 1 : Outcome μ Nat) = ok (h + 1) := Word.add_ok (by omega)
    rw [siblings, List.map_nil, included_root.climb, hg, ok_bind]
  | succ levels ih =>
    have hindex := IndexFits.of_inside hfits (hunder.leaves.2.trans hinside)
    rw [siblings, List.map_cons, included_root_step hindex, mergeAt_nodeItem]
    exact ih (hunder.to_parent (by omega)) (by omega)

/-- `included_root` climbs from the height of its index. -/
theorem included_root_eq_climb {M : Merge Item μ} {h k : Nat} (hindex : IndexFits b h k) (x : Item)
    (proof : List Item) :
    included_root b M (nodePos h k) x proof = included_root.climb b M h (nodePos h k) x proof := by
  rw [included_root, hindex.start_height_eq, ok_bind]

/-- The path of a node leads from its element to that of the node above. -/
theorem included_root_eq (H : Hasher Item) (data : List Bytes) {n h k top index : Nat}
    (hfits : nodeCount n + 1 < allOnesLimit b)
    (hinside : 2 ^ top * (index + 1) ≤ n) (hunder : Under h k top index) :
    (included_root b (H.toMerge : Merge Item μ) (nodePos h k) (nodeItem H data h k)
      ((siblings (top - h) h k).map fun node => nodeItem H data node.1 node.2)) =
      ok (nodeItem H data top index) := by
  rw [included_root_eq_climb (IndexFits.of_inside hfits (hunder.leaves.2.trans hinside)),
    included_root_climb_eq hfits hinside hunder]

end merkleberg.mmriver
