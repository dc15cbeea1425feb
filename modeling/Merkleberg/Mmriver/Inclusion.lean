import Merkleberg.Mmriver.Path

open machine machine.Outcome
open forest
open merkleberg.helper

namespace merkleberg.mmriver

variable {Item Store σ μ : Type} {b : Profile}
  {R : MMRStoreReadOps Store Item σ} {W : MMRStoreWriteOps Store Item σ}

section Holds

variable {S : MapStore R W} {under : Nat → Option Item} {H : Hasher Item} {data : List Bytes}
  {self : MMRIVER Item Store}

theorem MMRIVER.Holds.get_elem_eq (h : self.Holds b S under H data) {height k : Nat}
    (hinside : 2 ^ height * (k + 1) ≤ data.length) :
    self.batch.get_elem b R (nodePos height k) = ok (some (nodeItem H data height k)) := by
  rw [h.forest.get_elem_eq (nodePos_lt_nodeCount_iff.mpr hinside), elemAt_nodePos]

/-- Nodes of the tree are read as their values. -/
theorem MMRIVER.Holds.get_elems_nodes (h : self.Holds b S under H data) {nodes : List (Nat × Nat)}
    (hinside : ∀ node ∈ nodes, 2 ^ node.1 * (node.2 + 1) ≤ data.length) :
    self.batch.get_elems b R (nodes.map fun node => nodePos node.1 node.2) =
      ok (nodes.map fun node => some (nodeItem H data node.1 node.2)) := by
  have hpositions : ∀ p ∈ nodes.map (fun node => nodePos node.1 node.2), p < nodeCount data.length := by
    intro p hp
    obtain ⟨node, hnode, rfl⟩ := List.mem_map.mp hp
    exact nodePos_lt_nodeCount_iff.mpr (hinside node hnode)
  rw [h.forest.get_elems_eq hpositions, List.map_map]
  congr 1
  exact List.map_congr_left fun node _ => congrArg some (elemAt_nodePos H data node.1 node.2)

/-- The siblings below a peak are in the tree. -/
theorem siblings_inside {n height k top index : Nat} (hpeak : (top, index) ∈ peaks n)
    (hunder : Under height k top index) :
    ∀ node ∈ siblings (top - height) height k, 2 ^ node.1 * (node.2 + 1) ≤ n := by
  intro node hnode
  have hle := hunder.1
  have hbelow := siblings_under hunder (show height + (top - height) ≤ top by omega) node hnode
  exact hbelow.leaves.2.trans (mem_peaks_iff.mp hpeak).1

/-- The prover answers with the values of the siblings up to the peak. -/
theorem MMRIVER.Holds.gen_inclusion_proof_eq (h : self.Holds b S under H data) {height k top index : Nat}
    (hpeak : (top, index) ∈ peaks data.length) (hunder : Under height k top index)
    (hwraps : b = .release ∨ (height, k) ≠ (0, 1)) :
    (self.gen_inclusion_proof b R (nodePos height k) : Outcome (Error σ μ) _) =
      ok (.new (nodePos height k) ((siblings (top - height) height k).map fun node =>
        nodeItem H data node.1 node.2)) := by
  have hinside := hunder.leaves.2.trans (mem_peaks_iff.mp hpeak).1
  have hbelow := nodePos_lt_nodeCount_iff.mpr hinside
  have hlast : (U64.sub b (nodeCount data.length) 1 : Outcome (Error σ μ) Nat) =
      ok (nodeCount data.length - 1) := Word.sub_ok (by omega)
  rw [MMRIVER.gen_inclusion_proof, h.forest.size, if_neg (by omega)]
  simp only [hlast, inclusion_proof_path_eq hpeak h.height_fits hunder hwraps,
    h.get_elems_nodes (siblings_inside hpeak hunder), orStoreError_ok, ok_bind, mapM_okOr_some]

/-- The verifier that returns looks for the root among the peaks. -/
theorem InclusionProof.verify_eq_mem [DecidableEq Item] {proof : InclusionProof Item}
    {nodehash root : Item} (accumulator : List Item) (hindex : proof.index + 1 < 2 ^ 64)
    (hroot : proof.included_root b (H.toMerge : Merge Item μ) nodehash = ok root) :
    (proof.verify b (H.toMerge : Merge Item μ) nodehash accumulator : Outcome (Error σ μ) Bool) =
      ok (decide (root ∈ accumulator)) := by
  have hnext : (U64.add b proof.index 1 : Outcome (Error σ μ) Nat) = ok (proof.index + 1) :=
    Word.add_ok hindex
  have hlen : popcount (proof.index + 1) ≠ 0 := (popcount_pos (Nat.succ_pos _)).ne'
  have hany : (accumulator.any fun peak => peak = root) = decide (root ∈ accumulator) := by
    rw [Bool.eq_iff_iff]
    simp
  simp only [InclusionProof.verify, hroot, orMergeError_ok, PeaksMMRIVERIter.new, hnext, ok_bind,
    PeaksMMRIVERIter.len, U64.countOnes, if_neg hlen, hany]

/-- The path from a node to its peak is accepted. -/
theorem InclusionProof.verify_node [DecidableEq Item] {g m h k : Nat}
    (hfits : nodeCount data.length + 1 < allOnesLimit b) (hpeak : (h, k) ∈ peaks data.length)
    (hunder : Under g m h k) :
    ((InclusionProof.new (nodePos g m) ((siblings (h - g) g m).map fun node =>
      nodeItem H data node.1 node.2)).verify b (H.toMerge : Merge Item μ) (nodeItem H data g m)
      (peakItems H data) : Outcome (Error σ μ) Bool) = ok true := by
  have hroot : (InclusionProof.new (nodePos g m) ((siblings (h - g) g m).map fun node =>
      nodeItem H data node.1 node.2)).included_root b (H.toMerge : Merge Item μ) (nodeItem H data g m) =
      ok (nodeItem H data h k) :=
    included_root_eq H data hfits (mem_peaks_iff.mp hpeak).1 hunder
  have hmem : nodeItem H data h k ∈ peakItems H data := List.mem_map_of_mem hpeak
  have hlimit := allOnesLimit_le b
  have hbelow : nodePos h k < nodeCount data.length := nodePos_lt_of_peak hpeak
  have habove := hunder.nodePos_le
  rw [InclusionProof.verify_eq_mem (peakItems H data) (show nodePos g m + 1 < 2 ^ 64 by omega) hroot,
    decide_eq_true hmem]

end Holds

section Complete

variable [DecidableEq Item]

/-- An unchecked build proves every node of every tree under 2^61 leaves. The
    proof leads from the stored element to the stored peak of its mountain, whose
    indices are the last `2 ^ (h + 1) - 1` up to the peak. -/
theorem MMRIVER.Run.node_proofs_complete (S : MapStore R W) {H : Hasher Item} {store : Store}
    {data : List Bytes} {positions : List Nat} {final : MMRIVER Item Store}
    (run : MMRIVER.Run .release (H.toMerge : Merge Item μ) R W (MMRIVER.new 0 store) data positions final)
    (hne : data ≠ []) (hsmall : data.length < 2 ^ 61) :
    (∀ i < final.mmr_size, ∃ elem root accumulator proof, ∃ node ∈ peaks data.length,
      i ≤ nodePos node.1 node.2 ∧ nodePos node.1 node.2 + 2 ≤ i + 2 ^ (node.1 + 1) ∧
      final.batch.get_elem .release R i = ok (some elem) ∧
      final.batch.get_elem .release R (nodePos node.1 node.2) = ok (some root) ∧
      (final.get_accumulator .release R : Outcome (Error σ μ) _) = ok accumulator ∧
      (final.gen_inclusion_proof .release R i : Outcome (Error σ μ) _) = ok proof ∧
      proof.included_root .release (H.toMerge : Merge Item μ) elem = ok root ∧
      (proof.verify .release (H.toMerge : Merge Item μ) elem accumulator :
        Outcome (Error σ μ) Bool) = ok true) ∧
    ∀ i ≥ final.mmr_size, (final.gen_inclusion_proof .release R i : Outcome (Error σ μ) _) =
      err .GenProofForInvalidLeaves := by
  obtain ⟨hfinal, _⟩ := run.holds S (fun _ => by omega)
  have hpos : 0 < data.length := List.length_pos_iff.mpr hne
  have hlimit := hfinal.height_fits
  simp only [allOnesLimit] at hlimit
  constructor
  · intro i hi
    rw [hfinal.forest.size] at hi
    obtain ⟨height, k, rfl⟩ := exists_nodePos i
    have hinside := nodePos_lt_nodeCount_iff.mp hi
    obtain ⟨⟨top, index⟩, hpeak, hunder⟩ := exists_peak_above hinside
    change Under height k top index at hunder
    have hspan : nodePos top index + 2 ≤ nodePos height k + 2 ^ (top + 1) := by
      have hwidth := hunder.peak_le
      have hpos := Nat.two_pow_pos height
      omega
    have hroot_inside := (mem_peaks_iff.mp hpeak).1
    have hroot := included_root_eq (μ := μ) H data hfinal.height_fits hroot_inside hunder
    refine ⟨_, _, _, _, _, hpeak, hunder.nodePos_le, hspan, hfinal.get_elem_eq hinside,
      hfinal.get_elem_eq hroot_inside, hfinal.get_accumulator hpos,
      hfinal.gen_inclusion_proof_eq hpeak hunder (Or.inl rfl), hroot, ?_⟩
    have hmem : decide (nodeItem H data top index ∈ peakItems H data) = true :=
      decide_eq_true (List.mem_map_of_mem hpeak)
    rw [← hmem]
    exact InclusionProof.verify_eq_mem _ (show nodePos height k + 1 < 2 ^ 64 by omega) hroot
  · intro i hi
    rw [MMRIVER.gen_inclusion_proof, if_pos hi]

end Complete

/-- Three leaves in memory, with a proof for the second of them. -/
theorem MMRIVER.Run.node_proofs_complete_three :
    ∃ final elem accumulator proof,
      MMRIVER.SymbolicRun .release [[1], [2], [3]] [0, 1, 3] final ∧ 1 < final.mmr_size ∧
      (final.gen_inclusion_proof .release MemStore.readOps 1 : Outcome (Error Empty Empty) _) = ok proof ∧
      (proof.verify .release (Term.hasher.toMerge : Merge (Term Empty) Empty) elem accumulator :
        Outcome (Error Empty Empty) Bool) = ok true := by
  have start : MMRIVER.SymbolicRun .release [] [] (MMRIVER.new 0 MemStore.new) := .refl
  have run := ((start.push (d := [1]) rfl).push (d := [2]) rfl).push (d := [3]) rfl
  obtain ⟨elem, _, accumulator, proof, _, _, _, _, _, _, _, hgen, _, hverify⟩ :=
    (MMRIVER.Run.node_proofs_complete (MemStore.mapStore .release) run (by decide) (by decide)).1
      1 (by decide)
  exact ⟨_, elem, accumulator, proof, run, by decide, hgen, hverify⟩

end merkleberg.mmriver
