import Merkleberg.Mmriver.Binding
import Merkleberg.Mmriver.Roots

open machine machine.Outcome
open forest
open merkleberg.helper

namespace merkleberg.mmriver

variable {Item σ μ : Type} {H : Hasher Item}

/-- An index and a path whose nodes, up to the last parent, lie in the tree over
    `2 ^ 62` leaves. A checked build has no heights beyond it. -/
def PathFits (index length : Nat) : Prop := index + 1 < 2 ^ 63 ∧ nodeHeight index + length ≤ 62

instance (index length : Nat) : Decidable (PathFits index length) := inferInstanceAs (Decidable (_ ∧ _))

theorem pathFits_nodePos_iff {h k length : Nat} :
    PathFits (nodePos h k) length ↔ nodePos h k + 1 < 2 ^ 63 ∧ h + length ≤ 62 := by
  rw [PathFits, nodeHeight_nodePos]

/-- In the tree over `2 ^ 62` leaves every node but the root has its parent. -/
theorem parent_below {h k : Nat} (hfits : nodePos h k + 1 < 2 ^ 63) (hlt : h < 62) :
    nodePos (h + 1) (k / 2) + 1 < 2 ^ 63 := by
  have hfull : nodeCount (2 ^ 62) = 2 ^ 63 - 1 := nodeCount_two_pow 62
  have hinside : 2 ^ h * (k + 1) ≤ 2 ^ 62 := nodePos_lt_nodeCount_iff.mp (by omega)
  obtain ⟨room, hroom⟩ : ∃ room, 2 ^ 62 = 2 ^ (h + 1) * room :=
    ⟨2 ^ (62 - (h + 1)), by rw [← Nat.pow_add, Nat.add_sub_cancel' (by omega)]⟩
  have hindex : k + 1 ≤ 2 * room := by
    apply Nat.le_of_mul_le_mul_left _ (Nat.two_pow_pos h)
    rwa [← Nat.mul_assoc, ← pow_succ, ← hroom]
  have hparent : 2 ^ (h + 1) * (k / 2 + 1) ≤ 2 ^ 62 := by
    rw [hroom]
    exact Nat.mul_le_mul_left _ (by omega)
  have := nodePos_lt_nodeCount_iff.mpr hparent
  omega

/-- A checked climb leads to some root as long as it stays below the top of that
    tree, and panics above it. -/
theorem included_root_climb_cases {h k : Nat} (hfits : nodePos h k + 1 < 2 ^ 63) (x : Item)
    (path : List Item) :
    if h + path.length ≤ 62 then
      ∃ root, included_root.climb .debug (H.toMerge : Merge Item μ) h (nodePos h k) x path = ok root
    else included_root.climb .debug (H.toMerge : Merge Item μ) h (nodePos h k) x path = panic := by
  have hwidth := two_pow_le_nodePos h k
  have hheight : h ≤ 62 := Nat.le_of_succ_le_succ
    ((Nat.pow_le_pow_iff_right (show 1 < 2 by omega)).mp (show 2 ^ (h + 1) ≤ 2 ^ 63 by omega))
  have hg : (U8.add .debug h 1 : Outcome μ Nat) = ok (h + 1) := Word.add_ok (by omega)
  induction path generalizing h k x with
  | nil =>
    rw [List.length_nil, Nat.add_zero, if_pos hheight]
    exact ⟨x, by rw [included_root.climb, hg, ok_bind]⟩
  | cons sibling path ih =>
    rw [List.length_cons, ← Nat.add_assoc, Nat.add_right_comm]
    rcases Nat.eq_or_lt_of_le hheight with rfl | hlt
    · -- The root of the tree is the last index with a height.
      have hadd : (U64.add .debug (nodePos 62 k) 1 : Outcome μ Nat) = ok (nodePos 62 k + 1) :=
        Word.add_ok (by omega)
      have hpanic : (index_height_mmriver .debug (nodePos 62 k + 1) : Outcome μ Nat) = panic :=
        index_height_mmriver_debug_panic (by rw [allOnesLimit]; omega)
      rw [if_neg (by omega), included_root.climb, hg, ok_bind, hadd, ok_bind, hpanic, panic_bind]
    · have hparent := parent_below hfits hlt
      have hbelow := nodePos_lt_parent h k
      rw [included_root_step (.of_lt (by omega))]
      exact ih hparent _ (two_pow_le_nodePos _ _) (by omega) (Word.add_ok (by omega))

/-- A checked verifier leads to some root from an index and along a path that fit,
    and panics for others. -/
theorem included_root_cases (index : Nat) (x : Item) (path : List Item) :
    if PathFits index path.length then
      ∃ root, included_root .debug (H.toMerge : Merge Item μ) index x path = ok root
    else included_root .debug (H.toMerge : Merge Item μ) index x path = panic := by
  obtain ⟨h, k, rfl⟩ := exists_nodePos index
  rw [included_root]
  by_cases hfits : nodePos h k + 1 < 2 ^ 63
  · rw [index_height_mmriver_eq (by rwa [allOnesLimit]), nodeHeight_nodePos, ok_bind]
    have hclimb := included_root_climb_cases (μ := μ) (H := H) hfits x path
    simpa only [pathFits_nodePos_iff, hfits, true_and] using hclimb
  · rw [index_height_mmriver_debug_panic (by rw [allOnesLimit]; omega), panic_bind,
      if_neg fun hboth => hfits hboth.1]

/-- A checked build lists the peaks of a size, but panics for no nodes, whose last
    index it would need, and for sizes from the last word on. -/
theorem peaksOfSize_debug {ε : Type} (size : Nat) :
    (peaksOfSize .debug size : Outcome ε _) =
      if 0 < size ∧ size + 1 < 2 ^ 64 then ok (greedyPeaks 0 size) else panic := by
  by_cases hzero : size = 0
  · rw [hzero]
    rfl
  have hlast : (U64.sub .debug size 1 : Outcome ε Nat) = ok (size - 1) := Word.sub_ok (by omega)
  rw [peaksOfSize, hlast, ok_bind, PeaksMMRIVERIter.new]
  by_cases hword : size < 2 ^ 64
  · have hadd : (U64.add .debug (size - 1) 1 : Outcome ε Nat) = ok size := by
      rw [U64.add, Word.add_ok (by omega), Nat.sub_add_cancel (by omega)]
    rw [hadd, ok_bind, ok_bind]
    by_cases hfits : size + 1 < 2 ^ 64
    · have hyields := PeaksMMRIVERIter.yields_greedy (ε := ε) (b := .debug)
        (show 0 + size + 1 < 2 ^ 64 by omega)
      have hlength : (greedyPeaks 0 size).length ≤ 64 := greedyPeaks_length_le (by omega)
      rw [if_pos ⟨by omega, hfits⟩]
      exact hyields.collect_eq (by omega)
    · obtain rfl : size = 2 ^ 64 - 1 := by omega
      rfl
  · have hadd : (U64.add .debug (size - 1) 1 : Outcome ε Nat) = panic := if_neg (by omega)
    rw [hadd, if_neg (by omega)]
    rfl

/-- Entries of as many old peaks as paths have the paths of the peaks. -/
theorem forall_entries_iff {from_peaks : List Nat} {old_accumulator : List Item}
    {paths : List (List Item)} (hold : from_peaks.length = old_accumulator.length)
    (hpaths : from_peaks.length = paths.length) {P : Nat → List Item → Prop} :
    (∀ entry ∈ entries from_peaks old_accumulator paths, P entry.1 entry.2.2) ↔
      List.Forall₂ P from_peaks paths := by
  induction from_peaks generalizing old_accumulator paths with
  | nil =>
    obtain rfl := List.length_eq_zero_iff.mp hpaths.symm
    exact iff_of_true (by simp [entries]) .nil
  | cons from_peak from_peaks ih =>
    obtain ⟨old_peak, old_accumulator, rfl⟩ := List.exists_cons_of_length_eq_add_one hold.symm
    obtain ⟨path, paths, rfl⟩ := List.exists_cons_of_length_eq_add_one hpaths.symm
    rw [entries, List.zip_cons_cons, List.zip_cons_cons, List.forall_mem_cons, List.forall₂_cons]
    exact and_congr_right fun _ => ih (Nat.succ_injective hold) (Nat.succ_injective hpaths)

section Verify

variable [DecidableEq Item]

/-- A verifier of an inclusion proof does not overflow when its path fits. -/
theorem InclusionProof.returns_iff (proof : InclusionProof Item) (nodehash : Item)
    (accumulator : List Item) :
    Returns (proof.verify .debug (H.toMerge : Merge Item μ) nodehash accumulator :
      Outcome (Error σ μ) Bool) ↔ PathFits proof.index proof.proof.length := by
  have hcases := included_root_cases (μ := μ) (H := H) proof.index nodehash proof.proof
  rw [InclusionProof.verify, InclusionProof.included_root]
  split at hcases
  · rename_i hfits
    obtain ⟨root, hroot⟩ := hcases
    have hindex : (U64.add .debug proof.index 1 : Outcome (Error σ μ) Nat) = ok (proof.index + 1) :=
      Word.add_ok (by have := hfits.1; omega)
    rw [hroot, orMergeError_ok, ok_bind, PeaksMMRIVERIter.new, hindex, ok_bind, ok_bind]
    refine iff_of_true ?_ hfits
    split
    · exact .ok _
    · exact .ok _
  · rename_i hpast
    rw [hcases]
    exact iff_of_false not_returns_panic hpast

/-- The roots of old peaks are found when the path of every one of them fits. -/
theorem ConsistencyProof.consistent_roots.collect_returns_iff
    (entries : List (Nat × Item × List Item)) (roots : List Item) :
    Returns (consistent_roots.collect .debug (H.toMerge : Merge Item μ) entries roots :
      Outcome (Error σ μ) _) ↔ ∀ entry ∈ entries, PathFits entry.1 entry.2.2.length := by
  induction entries generalizing roots with
  | nil => exact iff_of_true (.ok _) (by simp)
  | cons entry entries ih =>
    obtain ⟨from_peak, old_peak, path⟩ := entry
    have hcases := included_root_cases (μ := μ) (H := H) from_peak old_peak path
    rw [collect, List.forall_mem_cons]
    split at hcases
    · rename_i hfits
      obtain ⟨root, hroot⟩ := hcases
      rw [hroot, orMergeError_ok, ok_bind, and_iff_right hfits]
      split
      · exact ih roots
      · exact ih (roots ++ [root])
    · rename_i hpast
      rw [hcases]
      exact iff_of_false not_returns_panic fun hall => hpast hall.1

/-- A verifier of a consistency proof does not overflow when there are some nodes to
    start from, short of the last word, and every path fits, unless the proof has
    the wrong number of peaks or paths. -/
theorem ConsistencyProof.returns_iff (proof : ConsistencyProof Item)
    (old_accumulator new_accumulator : List Item) :
    Returns (proof.verify .debug (H.toMerge : Merge Item μ) old_accumulator new_accumulator :
      Outcome (Error σ μ) Bool) ↔
      (0 < proof.mmr_size_from ∧ proof.mmr_size_from + 1 < 2 ^ 64) ∧
        ((greedyPeaks 0 proof.mmr_size_from).length = old_accumulator.length →
          (greedyPeaks 0 proof.mmr_size_from).length = proof.proof_paths.length →
          List.Forall₂ (fun peak path => PathFits peak path.length)
            (greedyPeaks 0 proof.mmr_size_from) proof.proof_paths) := by
  rw [verify, returns_bind_ok_iff, consistent_roots_eq, peaksOfSize_debug]
  by_cases hsize : 0 < proof.mmr_size_from ∧ proof.mmr_size_from + 1 < 2 ^ 64
  · rw [if_pos hsize, ok_bind, and_iff_right hsize]
    split
    · -- The wrong number of peaks or paths is answered before any path is walked.
      rename_i hlengths
      exact iff_of_true (.err _) fun hold hpaths => hlengths.elim (absurd hold) (absurd hpaths)
    · rename_i hlengths
      push Not at hlengths
      rw [consistent_roots.collect_returns_iff,
        forall_entries_iff hlengths.1 hlengths.2 (P := fun peak path => PathFits peak path.length)]
      exact ⟨fun hall _ _ => hall, fun hall => hall hlengths.1 hlengths.2⟩
  · rw [if_neg hsize]
    exact iff_of_false not_returns_panic fun hboth => hsize hboth.1

/-- Where the accumulator tree's verifiers return in a checked build. -/
theorem verify_returns_iff (H : Hasher Item) :
    (∀ (proof : InclusionProof Item) (nodehash : Item) (accumulator : List Item),
      Returns (proof.verify .debug (H.toMerge : Merge Item μ) nodehash accumulator :
        Outcome (Error σ μ) Bool) ↔ PathFits proof.index proof.proof.length) ∧
      ∀ (proof : ConsistencyProof Item) (old_accumulator new_accumulator : List Item),
        Returns (proof.verify .debug (H.toMerge : Merge Item μ) old_accumulator new_accumulator :
          Outcome (Error σ μ) Bool) ↔
          (0 < proof.mmr_size_from ∧ proof.mmr_size_from + 1 < 2 ^ 64) ∧
            ((greedyPeaks 0 proof.mmr_size_from).length = old_accumulator.length →
              (greedyPeaks 0 proof.mmr_size_from).length = proof.proof_paths.length →
              List.Forall₂ (fun peak path => PathFits peak path.length)
                (greedyPeaks 0 proof.mmr_size_from) proof.proof_paths) :=
  ⟨InclusionProof.returns_iff, ConsistencyProof.returns_iff⟩

end Verify

/-- The last index below 2^63 has no height in a checked build, and no nodes have no
    last index. -/
theorem verify_panics :
    ((InclusionProof.new (2 ^ 63 - 1) []).verify .debug (Term.hasher.toMerge : Merge (Term Empty) Empty)
        (.leaf [1]) [] : Outcome (Error Empty Empty) Bool) = panic ∧
      ((ConsistencyProof.new 0 0 []).verify .debug (Term.hasher.toMerge : Merge (Term Empty) Empty) [] [] :
        Outcome (Error Empty Empty) Bool) = panic :=
  ⟨rfl, rfl⟩

end merkleberg.mmriver
