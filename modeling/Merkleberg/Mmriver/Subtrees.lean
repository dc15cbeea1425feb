import Merkleberg.Mmriver.Consistency

open machine machine.Outcome
open forest
open merkleberg.helper

namespace merkleberg.mmriver

variable {Item Store σ μ : Type} {b : Profile}
  {R : MMRStoreReadOps Store Item σ} {W : MMRStoreWriteOps Store Item σ} {H : Hasher Item}
  {A B : List Bytes}

/-- Subtrees of two logs with equal roots are equal node by node. -/
theorem nodeItem_eq_under (hinj : H.PosInjective) {h k : Nat} (hfits : nodePos h k + 1 < 2 ^ 64)
    (heq : nodeItem H A h k = nodeItem H B h k) {g m : Nat} (hunder : Under g m h k) :
    nodeItem H A g m = nodeItem H B g m := by
  induction hlevels : h - g generalizing g m with
  | zero =>
    obtain ⟨rfl, rfl⟩ := hunder.eq_of_le (by omega)
    exact heq
  | succ levels ih =>
    have hparent := hunder.to_parent (by omega)
    have hle := hparent.nodePos_le
    have hup := ih hparent (by omega)
    rw [nodeItem_succ, nodeItem_succ] at hup
    obtain ⟨_, hleft, hright⟩ := hinj.merge_pos_inj (by omega) (by omega) hup
    rcases machine.even_or_odd_half m with heven | hodd
    · rwa [← heven] at hleft
    · rwa [← hodd] at hright

/-- Without a path an old peak is its own root. -/
theorem LeadsTo.eq_of_nil {M : Merge Item μ} {p : Nat} {x root : Item}
    (hleads : LeadsTo b M (p, x, []) root) : root = x := by
  simp only [LeadsTo, included_root, included_root.climb, bind_eq_ok_iff, ok.injEq] at hleads
  obtain ⟨_, _, _, _, heq⟩ := hleads
  exact heq.symm

/-- When an old peak with children leads to a node of another log, in a checked
    build and from any claimed position, that log has the same subtree in the
    same place. -/
theorem LeadsTo.binds_debug (hinj : H.PosInjective) {p h k h' k' : Nat} {path : List Item}
    (hinner : 0 < h) (hfits : nodePos h k + 1 < 2 ^ 64) (hfits' : nodePos h' k' + 1 < 2 ^ 64)
    (hleads : LeadsTo .debug (H.toMerge : Merge Item μ) (p, nodeItem H A h k, path)
      (nodeItem H B h' k')) :
    nodeItem H A h k = nodeItem H B h k ∧ Under h k h' k' := by
  cases path with
  | nil =>
    have heq := hleads.eq_of_nil.symm
    obtain ⟨rfl, rfl⟩ := nodeItem_same_node hinj hinner hfits hfits' heq
    exact ⟨heq, under_refl h k⟩
  | cons sibling path =>
    obtain ⟨g, m, _, heq, hunder, _⟩ := included_root_binds hinj hfits' hleads
    have hle := hunder.nodePos_le
    obtain ⟨rfl, rfl⟩ := nodeItem_same_node hinj hinner hfits (by omega) heq
    exact ⟨heq, hunder⟩

/-- Each old peak has a path of its own and leads to one of the roots found. -/
theorem leads_of_entries {α β : Type} {P : Nat × α × List α → α → Prop} {T : β → Nat → Prop}
    {item : β → α} {olds : List β} {from_peaks : List Nat} (hstarts : List.Forall₂ T olds from_peaks)
    {paths : List (List α)} (hpaths : from_peaks.length = paths.length) {found : List α}
    (hfound : List.Forall₂ P (from_peaks.zip ((olds.map item).zip paths)) found) :
    List.Forall₂ (fun old root => ∃ p path, T old p ∧ P (p, item old, path) root) olds found := by
  induction hstarts generalizing paths found with
  | nil =>
    cases hfound
    exact .nil
  | cons hstart _ ih =>
    cases paths with
    | nil => simp at hpaths
    | cons path paths =>
      cases hfound with
      | cons hroot hrest => exact .cons ⟨_, path, hstart, hroot⟩ (ih (by simpa using hpaths) hrest)

theorem exists_of_forall₂ {α β : Type} {P : α → β → Prop} {xs : List α} {ys : List β}
    (hall : List.Forall₂ P xs ys) : ∀ x ∈ xs, ∃ y ∈ ys, P x y := by
  induction hall with
  | nil => simp
  | @cons x y _ _ hhere _ ih =>
    intro z hz
    rcases List.mem_cons.mp hz with rfl | hlater
    · exact ⟨y, List.mem_cons_self, hhere⟩
    · obtain ⟨y', hy', hP⟩ := ih z hlater
      exact ⟨y', List.mem_cons_of_mem _ hy', hP⟩

section Verify

variable [DecidableEq Item]

/-- In a checked build an accepted consistency proof, with whatever sizes and paths,
    shows that the new log has every old peak above the leaves in its place. -/
theorem ConsistencyProof.peaks_in_place (hinj : H.PosInjective)
    (hfitsA : nodeCount A.length + 1 < 2 ^ 64) (hfitsB : nodeCount B.length + 1 < 2 ^ 64)
    {proof : ConsistencyProof Item}
    (hverify : (proof.verify .debug (H.toMerge : Merge Item μ) (peakItems H A) (peakItems H B) :
      Outcome (Error σ μ) _) = ok true) {h k : Nat} (hpeak : (h, k) ∈ peaks A.length) (hinner : 0 < h) :
    nodeItem H A h k = nodeItem H B h k ∧ 2 ^ h * (k + 1) ≤ B.length := by
  obtain ⟨from_peaks, found, _, hold, hpaths, hfound, hfollows⟩ := ConsistencyProof.verify_iff.mp hverify
  have hlength : (peaks A.length).length = from_peaks.length := by
    rw [hold, peakItems, List.length_map]
  have hleads := leads_of_entries (T := fun _ _ => True)
    (List.forall₂_iff_zip.mpr ⟨hlength, fun _ => trivial⟩) hpaths hfound
  obtain ⟨root, hroot, p, path, _, hpath⟩ := exists_of_forall₂ hleads (h, k) hpeak
  obtain ⟨⟨h', k'⟩, htop, rfl⟩ := List.mem_map.mp (hfollows.subset hroot)
  have hplaceA : nodePos h k + 1 < 2 ^ 64 := (Nat.succ_lt_succ (nodePos_lt_of_peak hpeak)).trans hfitsA
  have hplaceB : nodePos h' k' + 1 < 2 ^ 64 := (Nat.succ_lt_succ (nodePos_lt_of_peak htop)).trans hfitsB
  obtain ⟨heq, hunder⟩ := LeadsTo.binds_debug hinj hinner hplaceA hplaceB hpath
  exact ⟨heq, hunder.leaves.2.trans (mem_peaks_iff.mp htop).1⟩

/-- In a checked build an accepted consistency proof, with whatever sizes and
    paths, shows that the new tree has every old peak above the leaves in its
    place, with everything below it. The subtree under a peak of height `h` has
    the last `2 ^ (h + 1) - 1` indices up to the peak. -/
theorem MMRIVER.Run.consistency_binds_subtrees (S : MapStore R W) (hinj : H.PosInjective)
    {storeA storeB : Store} {positionsA positionsB : List Nat} {treeA treeB : MMRIVER Item Store}
    (runA : MMRIVER.Run .debug (H.toMerge : Merge Item μ) R W (MMRIVER.new 0 storeA) A positionsA treeA)
    (runB : MMRIVER.Run .debug (H.toMerge : Merge Item μ) R W (MMRIVER.new 0 storeB) B positionsB treeB)
    (hA : A ≠ []) (hB : B ≠ []) :
    ∃ accumulatorA accumulatorB,
      (treeA.get_accumulator .debug R : Outcome (Error σ μ) _) = ok accumulatorA ∧
      (treeB.get_accumulator .debug R : Outcome (Error σ μ) _) = ok accumulatorB ∧
      ∀ (mmr_size_from mmr_size_to : Nat) (proof_paths : List (List Item)),
        ((ConsistencyProof.new mmr_size_from mmr_size_to proof_paths).verify .debug
          (H.toMerge : Merge Item μ) accumulatorA accumulatorB : Outcome (Error σ μ) _) = ok true →
        ∀ h k, (h, k) ∈ peaks A.length → 1 ≤ h →
          nodePos h k < treeB.mmr_size ∧
          ∀ p ≤ nodePos h k, nodePos h k + 2 ≤ p + 2 ^ (h + 1) →
            ∃ elem, treeA.batch.get_elem .debug R p = ok (some elem) ∧
              treeB.batch.get_elem .debug R p = ok (some elem) := by
  obtain ⟨holdsA, _⟩ := runA.holds S (fun hb => by cases hb)
  obtain ⟨holdsB, _⟩ := runB.holds S (fun hb => by cases hb)
  refine ⟨peakItems H A, peakItems H B, holdsA.get_accumulator (List.length_pos_iff.mpr hA),
    holdsB.get_accumulator (List.length_pos_iff.mpr hB), ?_⟩
  intro mmr_size_from mmr_size_to proof_paths hverify h k hpeak hinner
  have hlimit := allOnesLimit_le .debug
  have hfitsA := holdsA.height_fits
  have hfitsB := holdsB.height_fits
  obtain ⟨heq, hsubtree⟩ :=
    ConsistencyProof.peaks_in_place hinj (by omega) (by omega) hverify hpeak hinner
  have hinsideA := (mem_peaks_iff.mp hpeak).1
  have hplaceA : nodePos h k < nodeCount A.length := nodePos_lt_of_peak hpeak
  rw [holdsB.forest.size]
  refine ⟨nodePos_lt_nodeCount_iff.mpr hsubtree, fun p hle hspan => ?_⟩
  obtain ⟨g, m, rfl, hbelow⟩ := exists_under hle hspan
  refine ⟨nodeItem H A g m, holdsA.get_elem_eq (hbelow.leaves.2.trans hinsideA), ?_⟩
  rw [nodeItem_eq_under hinj (by omega) heq hbelow]
  exact holdsB.get_elem_eq (hbelow.leaves.2.trans hsubtree)

end Verify

/-- Two leaves in one memory and three in another, with a proof of the wrong size. -/
theorem MMRIVER.Run.consistency_binds_subtrees_two :
    ∃ treeA treeB elem, MMRIVER.SymbolicRun .debug [[1], [2]] [0, 1] treeA ∧
      MMRIVER.SymbolicRun .debug [[1], [2], [3]] [0, 1, 3] treeB ∧
      ((ConsistencyProof.new 1 9 [[]]).verify .debug (Term.hasher.toMerge : Merge (Term Empty) Empty)
        [.node 3 (.leaf [1]) (.leaf [2])] [.node 3 (.leaf [1]) (.leaf [2]), .leaf [3]] :
        Outcome (Error Empty Empty) Bool) = ok true ∧
      (treeA.batch.get_elem .debug MemStore.readOps 1 : Outcome Empty _) = ok (some elem) ∧
      (treeB.batch.get_elem .debug MemStore.readOps 1 : Outcome Empty _) = ok (some elem) := by
  have start : MMRIVER.SymbolicRun .debug [] [] (MMRIVER.new 0 MemStore.new) := .refl
  have runA := (start.push (d := [1]) rfl).push (d := [2]) rfl
  have runB := ((start.push (d := [1]) rfl).push (d := [2]) rfl).push (d := [3]) rfl
  obtain ⟨_, _, hA, hB, hbinds⟩ := MMRIVER.Run.consistency_binds_subtrees (MemStore.mapStore .debug)
    (Term.hasher_posInjective Empty) runA runB (by decide) (by decide)
  cases hA
  cases hB
  obtain ⟨elem, helemA, helemB⟩ :=
    (hbinds 1 9 [[]] rfl 1 0 (by decide) (by decide)).2 1 (by decide) (by decide)
  exact ⟨_, _, elem, runA, runB, rfl, helemA, helemB⟩

end merkleberg.mmriver
