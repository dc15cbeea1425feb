import Merkleberg.Mmriver.Compose
import Merkleberg.Mmriver.Consistency
import Merkleberg.Mmriver.Session

open machine machine.Outcome
open forest
open merkleberg.helper

namespace merkleberg.mmriver

variable {Item Store σ μ : Type} {b : Profile}
  {R : MMRStoreReadOps Store Item σ} {W : MMRStoreWriteOps Store Item σ}

/-- The second leaf is never a peak. -/
theorem ne_second_leaf_of_peak {n : Nat} {node : Nat × Nat} (hpeak : node ∈ peaks n) :
    node ≠ (0, 1) := by
  rintro rfl
  have := peak_of_height_zero hpeak
  omega

section Prover

variable {S : MapStore R W} {under : Nat → Option Item} {H : Hasher Item} {data : List Bytes}
  {self : MMRIVER Item Store}

/-- The paths of a consistency proof are the inclusion proofs of the old peaks. -/
theorem MMRIVER.Holds.proof_paths_eq (h : self.Holds b S under H data)
    {olds tops : List (Nat × Nat)} (hbelow : Below data.length olds tops)
    (hwraps : ∀ old ∈ olds, old ≠ (0, 1)) :
    List.Forall₂ (fun (old : Nat × Nat) path =>
        (self.gen_inclusion_proof b R (nodePos old.1 old.2) : Outcome (Error σ μ) _) =
          ok (.new (nodePos old.1 old.2) path))
      olds (pathItems H data olds tops) := by
  induction hbelow with
  | nil => exact .nil
  | @cons old top olds tops hnode _ ih =>
    refine .cons ?_ (ih fun old hold => hwraps old (List.mem_cons_of_mem _ hold))
    exact h.gen_inclusion_proof_eq hnode.1 hnode.2 (Or.inr (hwraps old List.mem_cons_self))

/-- An inclusion proof of a longer log goes on from that of a shorter one at the
    peak that was over the node. -/
theorem MMRIVER.Holds.gen_inclusion_proof_append {Store' : Type} {R' : MMRStoreReadOps Store' Item σ}
    {W' : MMRStoreWriteOps Store' Item σ} {S' : MapStore R' W'} {under' : Nat → Option Item}
    {self' : MMRIVER Item Store'} {more : List Bytes} (h : self.Holds b S under H data)
    (h' : self'.Holds b S' under' H (data ++ more)) {height k top index : Nat}
    (hpeak : (top, index) ∈ peaks data.length) (hunder : Under height k top index)
    (hwraps : b = .release ∨ (height, k) ≠ (0, 1)) {path : List Item}
    (hpath : (self'.gen_inclusion_proof b R' (nodePos top index) : Outcome (Error σ μ) _) =
      ok (.new (nodePos top index) path)) :
    ∃ proof, (self.gen_inclusion_proof b R (nodePos height k) : Outcome (Error σ μ) _) =
        ok (.new (nodePos height k) proof) ∧
      (self'.gen_inclusion_proof b R' (nodePos height k) : Outcome (Error σ μ) _) =
        ok (.new (nodePos height k) (proof ++ path)) := by
  have hle : data.length ≤ (data ++ more).length := (List.prefix_append data more).length_le
  have hinside := (mem_peaks_iff.mp hpeak).1
  obtain ⟨⟨top', index'⟩, hpeak', habove⟩ := exists_peak_above (hinside.trans hle)
  rw [h'.gen_inclusion_proof_eq hpeak' habove (Or.inr (ne_second_leaf_of_peak hpeak)), ok.injEq,
    InclusionProof.new, InclusionProof.new, InclusionProof.mk.injEq] at hpath
  have hlower := hunder.1
  have hupper := habove.1
  refine ⟨_, h.gen_inclusion_proof_eq hpeak hunder hwraps, ?_⟩
  rw [h'.gen_inclusion_proof_eq hpeak' (hunder.trans habove) hwraps, ← hpath.2,
    show top' - height = top - height + (top' - top) by omega, siblings_append, hunder.2,
    Nat.add_sub_cancel' hlower, List.map_append]
  congr 3
  refine List.map_congr_left fun node hnode => nodeItem_append H more ?_
  exact siblings_inside hpeak hunder node hnode

end Prover

/-- A proof keeps up with the log. When a tree has grown, the consistency proof
    between its two sizes has for every old peak that peak's inclusion proof; and
    the new inclusion proof of any old node is its old one, followed by the path of
    the consistency proof for the peak that was over it. -/
theorem MMRIVER.Session.proofs_carry (S : MapStore R W) {M : Merge Item μ} {H : Hasher Item}
    (hM : M.Within H.toMerge) {store : Store} {data more : List Bytes} {positions later : List Nat}
    {old new : MMRIVER Item Store}
    (session : MMRIVER.Session b M R W (.new 0 store) data positions old)
    (rest : MMRIVER.Session b M R W old more later new) (hne : data ≠ [])
    (hfit : b = .release → data.length + more.length < 2 ^ 63) :
    ∃ consistency : ConsistencyProof Item,
      (new.gen_consistency_proof b R old.mmr_size : Outcome (Error σ μ) _) = ok consistency ∧
      List.Forall₂ (fun q path =>
          (new.gen_inclusion_proof b R q : Outcome (Error σ μ) _) = ok (.new q path))
        (peakPositions data.length) consistency.proof_paths ∧
      ∀ i < old.mmr_size, b = .release ∨ i ≠ 1 →
        ∃ (proof : List Item) (j q : Nat) (path : List Item), (peakPositions data.length)[j]? = some q ∧
          i ≤ q ∧ q + 2 ≤ i + 2 ^ (nodeHeight q + 1) ∧ consistency.proof_paths[j]? = some path ∧
          (old.gen_inclusion_proof b R i : Outcome (Error σ μ) _) = ok (.new i proof) ∧
          (new.gen_inclusion_proof b R i : Outcome (Error σ μ) _) = ok (.new i (proof ++ path)) := by
  obtain ⟨hold, _⟩ := session.holds S hM fun hb => by have := hfit hb; omega
  obtain ⟨hnew, _⟩ := rest.holds_from hM hold hfit
  have hpos : 0 < data.length := List.length_pos_iff.mpr hne
  have hle : data.length ≤ (data ++ more).length := (List.prefix_append data more).length_le
  obtain ⟨top, tops, _, _, _, hbelow⟩ := exists_tops hpos hle
  have hpaths := hnew.proof_paths_eq (μ := μ) hbelow fun _ => ne_second_leaf_of_peak
  refine ⟨_, by rw [hold.forest.size]; exact hnew.gen_consistency_proof_eq hpos hle hbelow, ?_, ?_⟩
  · rw [peakPositions, List.forall₂_map_left_iff]
    exact hpaths
  · intro i hi hwraps
    rw [hold.forest.size] at hi
    obtain ⟨height, k, rfl⟩ := exists_nodePos i
    obtain ⟨⟨top, index⟩, hpeak, hunder⟩ := exists_peak_above (nodePos_lt_nodeCount_iff.mp hi)
    change Under height k top index at hunder
    obtain ⟨j, hj, hjpeak⟩ := List.mem_iff_getElem.mp hpeak
    have hpath := List.Forall₂.get hpaths hj (hpaths.length_eq ▸ hj)
    rw [List.get_eq_getElem, hjpeak] at hpath
    obtain ⟨proof, hproof, hproof'⟩ := hold.gen_inclusion_proof_append hnew hpeak hunder
      (hwraps.imp_right fun hi heq => hi (by rw [Prod.mk.injEq] at heq; rw [heq.1, heq.2]; rfl)) hpath
    have hspan := hunder.peak_le
    have hwidth := Nat.two_pow_pos height
    refine ⟨proof, j, nodePos top index, _, ?_, hunder.nodePos_le, ?_, ?_, hproof, hproof'⟩
    · rw [peakPositions, List.getElem?_map, List.getElem?_eq_getElem hj, hjpeak]
      rfl
    · rw [nodeHeight_nodePos]
      omega
    · exact List.getElem?_eq_getElem _

/-- The first of three leaves, when a fourth one has joined them. -/
theorem MMRIVER.Session.proofs_carry_four :
    ∃ old new, MMRIVER.SymbolicRun .debug [[1], [2], [3]] [0, 1, 3] old ∧
      MMRIVER.SymbolicRun .debug [[1], [2], [3], [4]] [0, 1, 3, 4] new ∧
      ∃ proof path : List (Term Empty), proof.length = 1 ∧ path.length = 1 ∧
        (old.gen_inclusion_proof .debug MemStore.readOps 0 : Outcome (Error Empty Empty) _) =
          ok (.new 0 proof) ∧
        (new.gen_inclusion_proof .debug MemStore.readOps 0 : Outcome (Error Empty Empty) _) =
          ok (.new 0 (proof ++ path)) := by
  have start : MMRIVER.SymbolicRun .debug [] [] (MMRIVER.new 0 MemStore.new) := .refl
  have run := ((start.push (d := [1]) rfl).push (d := [2]) rfl).push (d := [3]) rfl
  obtain ⟨_, hconsistency, _, hcarry⟩ := MMRIVER.Session.proofs_carry (b := .debug)
    (MemStore.mapStore .debug) (.refl Term.hasher.toMerge) run.session
    (MMRIVER.Run.session (MMRIVER.Run.refl.push (d := [4]) rfl)) (by decide) (fun hb => by cases hb)
  cases hconsistency
  obtain ⟨proof, _, _, path, _, _, _, _, hold, hnew⟩ := hcarry 0 (by decide) (Or.inr (by decide))
  cases hold
  refine ⟨_, _, run, run.push rfl, _, path, rfl, ?_, rfl, hnew⟩
  cases hnew
  rfl

section Verifier

variable [DecidableEq Item] {M : Merge Item μ}

/-- A proof that leads into the accumulator is accepted. -/
theorem InclusionProof.verify_of_mem {proof : InclusionProof Item} {nodehash root : Item}
    {accumulator : List Item} (hindex : proof.index + 1 < 2 ^ 64)
    (hroot : proof.included_root b M nodehash = ok root) (hmem : root ∈ accumulator) :
    (proof.verify b M nodehash accumulator : Outcome (Error σ μ) Bool) = ok true := by
  have hnext : (U64.add b proof.index 1 : Outcome (Error σ μ) Nat) = ok (proof.index + 1) :=
    Word.add_ok hindex
  have hlen : popcount (proof.index + 1) ≠ 0 := (popcount_pos (Nat.succ_pos _)).ne'
  have hany : (accumulator.any fun peak => peak = root) = true :=
    List.any_eq_true.mpr ⟨root, hmem, decide_eq_true rfl⟩
  simp only [InclusionProof.verify, hroot, orMergeError_ok, PeaksMMRIVERIter.new, hnext, ok_bind,
    PeaksMMRIVERIter.len, U64.countOnes, if_neg hlen, hany]

/-- Verified proofs carry forward. Once a verifier has accepted a consistency proof
    from a size it knows, any inclusion path from an index under an old peak, of the
    length that the heights tell and leading to what the old accumulator has for the
    peak, is accepted against the new accumulator when the path that the proof has for
    that peak follows. Nothing is asked of the hashes, nor of who sent the accumulators
    and the proofs. -/
theorem ConsistencyProof.extends_inclusion_path {proof : ConsistencyProof Item}
    {old_accumulator new_accumulator : List Item}
    (hverify : (proof.verify b M old_accumulator new_accumulator : Outcome (Error σ μ) _) = ok true)
    {n : Nat} (hn : 0 < n) (hsmall : n < 2 ^ 62) (hsize : proof.mmr_size_from = nodeCount n)
    {i j q : Nat} {nodehash root : Item} {path : List Item} (hq : (peakPositions n)[j]? = some q)
    (hbelow : i ≤ q) (hspan : q + 2 ≤ i + 2 ^ (nodeHeight q + 1))
    (hlength : path.length = nodeHeight q - nodeHeight i) (hold : old_accumulator[j]? = some root)
    (hroot : (InclusionProof.new i path).included_root b M nodehash = ok root) :
    ∃ more, proof.proof_paths[j]? = some more ∧
      ((InclusionProof.new i (path ++ more)).verify b M nodehash new_accumulator :
        Outcome (Error σ μ) Bool) = ok true := by
  have hcount := nodeCount_le_nodeCount_iff.mpr (show n ≤ 2 ^ 62 - 1 by omega)
  have hfull := nodeCount_two_pow_sub_one_add 62
  obtain ⟨from_peaks, found, hpeaks, holds, hpaths, hleads, hfollows⟩ := verify_iff.mp hverify
  rw [hsize, peaksOfSize_eq hn (by omega), ok.injEq] at hpeaks
  subst hpeaks
  obtain ⟨⟨top, index⟩, hpeak, rfl⟩ := List.mem_map.mp (List.mem_of_getElem? hq)
  have hinside : nodePos top index < nodeCount n := nodePos_lt_of_peak hpeak
  have hfits : nodePos top index + 2 < 2 ^ 63 := by omega
  rw [nodeHeight_nodePos] at hspan hlength
  obtain ⟨h, k, rfl, hunder⟩ := exists_under hbelow hspan
  rw [nodeHeight_nodePos] at hlength
  have hindex : IndexFits b h k := .of_lt ((Nat.add_le_add_right hunder.nodePos_le 2).trans_lt hfits)
  -- Entry `j` of the proof is the path from this peak.
  obtain ⟨hj, hjq⟩ := List.getElem?_eq_some_iff.mp hq
  obtain ⟨hjold, hjroot⟩ := List.getElem?_eq_some_iff.mp hold
  have hjpath : j < proof.proof_paths.length := hpaths ▸ hj
  have hentry : j < (entries (peakPositions n) old_accumulator proof.proof_paths).length := by
    simp only [entries, List.length_zip]
    omega
  have hjfound : j < found.length := hleads.length_eq ▸ hentry
  have hlead := hleads.get hentry hjfound
  simp only [List.get_eq_getElem, entries, List.getElem_zip, hjq, hjroot, LeadsTo] at hlead
  refine ⟨proof.proof_paths[j], List.getElem?_eq_getElem hjpath,
    InclusionProof.verify_of_mem ?_ ?_ (hfollows.subset (List.getElem_mem hjfound))⟩
  · have hle : nodePos h k ≤ nodePos top index := hunder.nodePos_le
    change nodePos h k + 1 < 2 ^ 64
    omega
  · simp only [InclusionProof.included_root, InclusionProof.new] at hroot ⊢
    rw [included_root_eq_climb hindex] at hroot ⊢
    rw [included_root_eq_climb (.of_lt hfits)] at hlead
    rw [included_root_climb_append hfits hunder nodehash hlength, hroot, ok_bind, hlead]

end Verifier

/-- The verifier of two leaves learns of two more. -/
theorem ConsistencyProof.extends_inclusion_path_four :
    ∃ more : List (Term Empty), [[Term.node 6 (.leaf [3]) (.leaf [4])]][0]? = some more ∧
      ((InclusionProof.new 0 ([.leaf [2]] ++ more)).verify .debug
        (Term.hasher.toMerge : Merge (Term Empty) Empty) (.leaf [1])
        [.node 7 (.node 3 (.leaf [1]) (.leaf [2])) (.node 6 (.leaf [3]) (.leaf [4]))] :
          Outcome (Error Empty Empty) Bool) = ok true := by
  have hverify : ((ConsistencyProof.new 3 7 [[.node 6 (.leaf [3]) (.leaf [4])]]).verify .debug
      (Term.hasher.toMerge : Merge (Term Empty) Empty) [.node 3 (.leaf [1]) (.leaf [2])]
      [.node 7 (.node 3 (.leaf [1]) (.leaf [2])) (.node 6 (.leaf [3]) (.leaf [4]))] :
      Outcome (Error Empty Empty) Bool) = ok true := rfl
  have hq : (peakPositions 2)[0]? = some 2 := by decide
  have hroot : (InclusionProof.new 0 [.leaf [2]]).included_root .debug
      (Term.hasher.toMerge : Merge (Term Empty) Empty) (.leaf [1]) =
        ok (.node 3 (.leaf [1]) (.leaf [2])) := rfl
  exact ConsistencyProof.extends_inclusion_path hverify (n := 2) (by decide) (by decide) rfl hq (by decide)
    (by decide) (by decide) rfl hroot

end merkleberg.mmriver
