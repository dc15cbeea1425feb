import Merkleberg.Mmriver.Path

open machine machine.Outcome
open forest
open merkleberg.helper

namespace merkleberg.mmriver

variable {Item μ : Type} {b : Profile} {M : Merge Item μ}

/-- The verifier goes on from the node that the first part of a path has led to,
    with the counter at its height. -/
theorem included_root_climb_append {h k top index : Nat} (hfits : nodePos top index + 2 < 2 ^ 63)
    (hunder : Under h k top index) (x : Item) {path : List Item} (hlength : path.length = top - h)
    (rest : List Item) :
    included_root.climb b M h (nodePos h k) x (path ++ rest) = (do
      let root ← included_root.climb b M h (nodePos h k) x path
      included_root.climb b M top (nodePos top index) root rest) := by
  have hindex : IndexFits b h k := .of_lt ((Nat.add_le_add_right hunder.nodePos_le 2).trans_lt hfits)
  induction path generalizing h k x with
  | nil =>
    rw [List.length_nil] at hlength
    obtain ⟨rfl, rfl⟩ := hunder.eq_of_le (by omega)
    have hheight := hindex.height_lt
    have hg : (U8.add b h 1 : Outcome μ Nat) = ok (h + 1) := Word.add_ok (by omega)
    rw [List.nil_append, included_root.climb, hg, ok_bind, ok_bind]
  | cons sibling path ih =>
    rw [List.length_cons] at hlength
    have hparent := hunder.to_parent (by omega)
    have hfits' : IndexFits b (h + 1) (k / 2) :=
      .of_lt ((Nat.add_le_add_right hparent.nodePos_le 2).trans_lt hfits)
    rw [List.cons_append, included_root_step_eq hindex, included_root_step_eq hindex, bind_assoc]
    congr 1
    funext parent
    exact ih hparent parent (by omega) hfits'

section Release

variable {ε : Type} {n n' h k top index : Nat}

/-- A path into a larger tree is the path to the old peak and then that of the peak. -/
theorem inclusion_proof_path_append (hle : n ≤ n') (hfits : nodeCount n' + 1 < allOnesLimit .release)
    (hpeak : (top, index) ∈ peaks n) (hunder : Under h k top index) :
    ∃ lower upper,
      (inclusion_proof_path .release (nodePos h k) (nodeCount n - 1) : Outcome ε _) = ok lower ∧
      (inclusion_proof_path .release (nodePos top index) (nodeCount n' - 1) : Outcome ε _) = ok upper ∧
      (inclusion_proof_path .release (nodePos h k) (nodeCount n' - 1) : Outcome ε _) =
        ok (lower ++ upper) := by
  have hcount := nodeCount_le_nodeCount_iff.mpr hle
  obtain ⟨⟨top', index'⟩, hpeak', habove⟩ := exists_peak_above ((mem_peaks_iff.mp hpeak).1.trans hle)
  refine ⟨_, _, inclusion_proof_path_eq hpeak (by omega) hunder (.inl rfl),
    inclusion_proof_path_eq hpeak' hfits habove (.inl rfl), ?_⟩
  have hlower := hunder.1
  have hupper := habove.1
  rw [inclusion_proof_path_eq hpeak' hfits (hunder.trans habove) (.inl rfl), ← List.map_append,
    show top' - h = top - h + (top' - top) by omega, siblings_append, hunder.2,
    Nat.add_sub_cancel' hlower]

/-- Paths compose. A path from a node of a tree into a larger one first leads to the
    peak of its mountain, and goes on from there. A verifier that walks a path
    of that length and a longer one walks the first and then the rest, and fails
    where either does. -/
theorem paths_compose (hle : n ≤ n') (hsmall : nodeCount n' < 2 ^ 62) :
    ∀ i < nodeCount n,
      (∃ q ∈ peakPositions n, i ≤ q ∧ q + 2 ≤ i + 2 ^ (nodeHeight q + 1)) ∧
      ∀ q ∈ peakPositions n, i ≤ q → q + 2 ≤ i + 2 ^ (nodeHeight q + 1) →
        (∃ lower upper, (inclusion_proof_path .release i (nodeCount n - 1) : Outcome ε _) = ok lower ∧
          (inclusion_proof_path .release q (nodeCount n' - 1) : Outcome ε _) = ok upper ∧
          (inclusion_proof_path .release i (nodeCount n' - 1) : Outcome ε _) = ok (lower ++ upper)) ∧
        ∀ {Item μ : Type} (M : Merge Item μ) (nodehash : Item) (p1 p2 : List Item),
          p1.length = nodeHeight q - nodeHeight i →
          included_root .release M i nodehash (p1 ++ p2) = (do
            let root ← included_root .release M i nodehash p1
            included_root .release M q root p2) := by
  have hlimit : nodeCount n' + 1 < allOnesLimit .release := by
    rw [allOnesLimit]
    omega
  have hcount := nodeCount_le_nodeCount_iff.mpr hle
  intro i hi
  constructor
  · obtain ⟨h, k, rfl⟩ := exists_nodePos i
    obtain ⟨node, hnode, hunder⟩ := exists_peak_above (nodePos_lt_nodeCount_iff.mp hi)
    have hspan := hunder.peak_le
    have hwidth := Nat.two_pow_pos h
    refine ⟨_, List.mem_map_of_mem hnode, hunder.nodePos_le, ?_⟩
    rw [nodeHeight_nodePos]
    omega
  · intro q hq hbelow hspan
    obtain ⟨⟨top, index⟩, hpeak, rfl⟩ := List.mem_map.mp hq
    rw [nodeHeight_nodePos] at hspan
    obtain ⟨h, k, rfl, hunder⟩ := exists_under hbelow hspan
    refine ⟨inclusion_proof_path_append hle hlimit hpeak hunder, ?_⟩
    intro Item μ M nodehash p1 p2 hlength
    have hplace : nodePos top index < nodeCount n := nodePos_lt_of_peak hpeak
    have hfits : nodePos top index + 2 < 2 ^ 63 := by omega
    have hstart : IndexFits .release h k :=
      .of_lt ((Nat.add_le_add_right hunder.nodePos_le 2).trans_lt hfits)
    rw [nodeHeight_nodePos, nodeHeight_nodePos] at hlength
    rw [included_root_eq_climb hstart, included_root_eq_climb hstart,
      included_root_climb_append hfits hunder nodehash hlength]
    congr 1
    funext root
    rw [included_root_eq_climb (.of_lt hfits)]

end Release

/-- The second of two leaves, in a tree of four. -/
theorem paths_compose_four : (2 ≤ 4 ∧ nodeCount 4 < 2 ^ 62) ∧
    (∃ lower upper, (inclusion_proof_path .release 1 2 : Outcome Empty _) = ok lower ∧
      (inclusion_proof_path .release 2 6 : Outcome Empty _) = ok upper ∧
      (inclusion_proof_path .release 1 6 : Outcome Empty _) = ok (lower ++ upper)) ∧
    included_root .release (Term.hasher.toMerge : Merge (Term Empty) Empty) 1 (.leaf [2])
        ([.leaf [1]] ++ [.leaf [3]]) = (do
      let root ← included_root .release (Term.hasher.toMerge : Merge (Term Empty) Empty) 1 (.leaf [2])
        [.leaf [1]]
      included_root .release Term.hasher.toMerge 2 root [.leaf [3]]) := by
  have hsmall : nodeCount 4 < 2 ^ 62 := by decide
  have hle : 2 ≤ 4 := by decide
  have hcompose := (paths_compose (ε := Empty) hle hsmall 1 (by decide)).2 2 (by decide) (by decide)
    (by decide)
  exact ⟨⟨hle, hsmall⟩, hcompose.1, hcompose.2 _ _ _ _ (by decide)⟩

end merkleberg.mmriver
