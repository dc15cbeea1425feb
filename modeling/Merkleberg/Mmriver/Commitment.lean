import Merkleberg.Mmr.Run
import Merkleberg.Mmriver.Append

open machine machine.Outcome
open forest
open merkleberg.helper

namespace forest

variable {α : Type} {merge : α → α → α}

/-- Bagging can be undone when merging can, and when no peak is itself a merge. -/
theorem bagPeaks_inj_of_apart (hinj : ∀ {x y x' y'}, merge x y = merge x' y' → x = x' ∧ y = y')
    {xs ys : List α} (hxs : ∀ x ∈ xs, ∀ l r, merge l r ≠ x) (hys : ∀ y ∈ ys, ∀ l r, merge l r ≠ y)
    {bagged : α} (hbag : bagPeaks merge xs = some bagged) (hbag' : bagPeaks merge ys = some bagged) :
    xs = ys := by
  induction xs generalizing ys bagged with
  | nil => cases hbag
  | cons x xs ih =>
    cases ys with
    | nil => cases hbag'
    | cons y ys =>
      rw [List.forall_mem_cons] at hxs hys
      rcases eq_or_ne xs [] with rfl | hne
      · rcases eq_or_ne ys [] with rfl | hne'
        · rw [bagPeaks_singleton] at hbag hbag'
          exact congrArg (fun z => [z]) (Option.some.inj (hbag.trans hbag'.symm))
        · obtain ⟨inner, hinner⟩ := exists_bagPeaks merge hne'
          rw [bagPeaks_singleton, Option.some.injEq] at hbag
          rw [bagPeaks_cons hinner, Option.some.injEq, ← hbag] at hbag'
          exact absurd hbag' (hxs.1 _ _)
      · obtain ⟨inner, hinner⟩ := exists_bagPeaks merge hne
        rw [bagPeaks_cons hinner, Option.some.injEq] at hbag
        rcases eq_or_ne ys [] with rfl | hne'
        · rw [bagPeaks_singleton, Option.some.injEq, ← hbag] at hbag'
          exact absurd hbag'.symm (hys.1 _ _)
        · obtain ⟨inner', hinner'⟩ := exists_bagPeaks merge hne'
          rw [bagPeaks_cons hinner', Option.some.injEq, ← hbag] at hbag'
          obtain ⟨rfl, rfl⟩ := hinj hbag'
          rw [ih hxs.2 hys.2 hinner hinner']

end forest

namespace merkleberg.mmriver

variable {Item Store Store' σ μ : Type} {b b' : Profile}
  {R : MMRStoreReadOps Store Item σ} {W : MMRStoreWriteOps Store Item σ}
  {R' : MMRStoreReadOps Store' Item σ} {W' : MMRStoreWriteOps Store' Item σ} {H : Hasher Item}
  {A B : List Bytes}

section Peaks

variable (hinj : H.PosInjective) (hleaf : Function.Injective H.leaf_hash)
  (hfitsA : nodeCount A.length + 1 < 2 ^ 64) (hfitsB : nodeCount B.length + 1 < 2 ^ 64)

include hinj hleaf hfitsA hfitsB

/-- A log without a leaf peak begins every log that has its peaks. -/
theorem prefix_of_peakItems (heven : A.length % 2 = 0) (hsub : peakItems H A ⊆ peakItems H B) :
    A <+: B := by
  refine prefix_of_peaks hinj hleaf hfitsA fun node hnode => ?_
  obtain ⟨top, htop, heq⟩ := List.mem_map.mp (hsub (List.mem_map.mpr ⟨node, hnode, rfl⟩))
  have hbelow := nodePos_lt_of_peak hnode
  have hbelow' := nodePos_lt_of_peak htop
  obtain ⟨hheight, hindex⟩ := nodeItem_same_node hinj (peak_inner heven hnode) (by omega) (by omega)
    heq.symm
  rw [← hheight, ← hindex] at heq
  rw [hheight, hindex]
  exact ⟨hheight ▸ hindex ▸ heq.symm, (mem_peaks_iff.mp htop).1⟩

/-- Without a leaf peak the peaks are those of one log. -/
theorem eq_of_peakItems_even (heven : A.length % 2 = 0) (heven' : B.length % 2 = 0)
    (heq : peakItems H A = peakItems H B) : A = B := by
  have hbegins := prefix_of_peakItems hinj hleaf hfitsA hfitsB heven (heq ▸ List.Subset.refl _)
  have hbegins' := prefix_of_peakItems hinj hleaf hfitsB hfitsA heven' (heq ▸ List.Subset.refl _)
  exact hbegins.eq_of_length_le hbegins'.length_le

/-- A leaf peak shows that the other log has the same one. -/
theorem eq_of_peakItems_concat {front : List Bytes} {last : Bytes} (hA : A = front ++ [last])
    (heven : front.length % 2 = 0) (heq : peakItems H A = peakItems H B) : A = B := by
  subst hA
  have hmem : H.leaf_hash last ∈ peakItems H B := by
    rw [← heq, peakItems_concat H heven]
    simp
  obtain ⟨init, rfl, heven'⟩ := exists_concat_of_leaf_mem hinj hleaf hfitsB hmem
  rw [peakItems_concat H heven, peakItems_concat H heven'] at heq
  have hshorter := nodeCount_le_nodeCount_iff.mpr (List.prefix_append front [last]).length_le
  have hshorter' := nodeCount_le_nodeCount_iff.mpr (List.prefix_append init [last]).length_le
  rw [eq_of_peakItems_even hinj hleaf (by omega) (by omega) heven heven' (List.append_cancel_right heq)]

/-- The peaks in their order are those of one log. -/
theorem eq_of_peakItems (heq : peakItems H A = peakItems H B) : A = B := by
  have hsplit : ∀ log : List Bytes, log.length % 2 = 0 ∨
      ∃ front last, log = front ++ [last] ∧ front.length % 2 = 0 := by
    intro log
    rcases List.eq_nil_or_concat log with rfl | ⟨front, last, rfl⟩
    · exact .inl rfl
    · rw [List.concat_eq_append, List.length_append, List.length_singleton]
      rcases Nat.mod_two_eq_zero_or_one front.length with heven | hodd
      · exact .inr ⟨front, last, rfl, heven⟩
      · exact .inl (by omega)
  rcases hsplit A with hevenA | ⟨front, last, hA, heven⟩
  · rcases hsplit B with hevenB | ⟨front, last, hB, heven⟩
    · exact eq_of_peakItems_even hinj hleaf hfitsA hfitsB hevenA hevenB heq
    · exact (eq_of_peakItems_concat hinj hleaf hfitsB hfitsA hB heven heq.symm).symm
  · exact eq_of_peakItems_concat hinj hleaf hfitsA hfitsB hA heven heq

end Peaks

/-- Bagging hashes at position 0, where no node is. -/
theorem peakItems_apart (hinj : H.PosInjective) (hfits : nodeCount A.length + 1 < 2 ^ 64) :
    ∀ x ∈ peakItems H A, ∀ left right, H.merge_pos 0 left right ≠ x := by
  intro x hx left right heq
  obtain ⟨⟨h, k⟩, hpeak, rfl⟩ := List.mem_map.mp hx
  have hbelow := nodePos_lt_of_peak hpeak
  obtain ⟨_, _, hpos, _⟩ := nodeItem_eq_merge_pos hinj (by decide) (by omega) heq
  omega

/-- What is published of a tree commits to everything that was pushed into it, and to
    how much that was: two trees with the same accumulator, or with the same root when
    `merge` and `merge_peaks` have their defaults, were built from the same data. -/
theorem MMRIVER.Run.data_of_accumulator (S : MapStore R W) (S' : MapStore R' W') (hinj : H.PosInjective)
    (hleaf : Function.Injective H.leaf_hash) {store : Store} {store' : Store'}
    {positions positions' : List Nat} {final : MMRIVER Item Store} {final' : MMRIVER Item Store'}
    (run : MMRIVER.Run b (H.toMerge : Merge Item μ) R W (MMRIVER.new 0 store) A positions final)
    (run' : MMRIVER.Run b' (H.toMerge : Merge Item μ) R' W' (MMRIVER.new 0 store') B positions' final')
    (hA : A ≠ []) (hB : B ≠ []) (hfit : b = .release → A.length < 2 ^ 63)
    (hfit' : b' = .release → B.length < 2 ^ 63) :
    ((final.get_accumulator b R : Outcome (Error σ μ) _) = final'.get_accumulator b' R' ↔ A = B) ∧
    ((∀ left right, H.merge_peaks left right = H.merge_pos 0 left right) →
      ((final.get_root b (H.toMerge : Merge Item μ) R : Outcome (Error σ μ) Item) =
        final'.get_root b' (H.toMerge : Merge Item μ) R' ↔ A = B)) := by
  obtain ⟨h, _⟩ := run.holds S hfit
  obtain ⟨h', _⟩ := run'.holds S' hfit'
  have hfits := h.height_fits
  have hfits' := h'.height_fits
  have hlimit := allOnesLimit_le b
  have hlimit' := allOnesLimit_le b'
  have haccumulator := h.get_accumulator (μ := μ) (List.length_pos_iff.mpr hA)
  have haccumulator' := h'.get_accumulator (μ := μ) (List.length_pos_iff.mpr hB)
  have hne : ∀ log : List Bytes, log ≠ [] → peakItems H log ≠ [] := fun log hlog =>
    List.map_eq_nil_iff.not.mpr (peaks_ne_nil (List.length_pos_iff.mpr hlog))
  obtain ⟨root, hroot⟩ := exists_bagPeaks H.merge_peaks (hne A hA)
  obtain ⟨root', hroot'⟩ := exists_bagPeaks H.merge_peaks (hne B hB)
  rw [MMRIVER.get_root, MMRIVER.get_root, haccumulator, haccumulator', ok_bind, ok_bind, bag_rhs_peaks,
    bag_rhs_peaks, mmr.bag_rhs_peaks_eq, mmr.bag_rhs_peaks_eq, hroot, hroot', ok.injEq]
  refine ⟨⟨eq_of_peakItems hinj hleaf (by omega) (by omega), fun heq => by rw [heq]⟩, fun hdefault => ?_⟩
  have hmerge : H.merge_peaks = H.merge_pos 0 := funext fun left => funext (hdefault left)
  simp only [orMergeError_ok, ok_bind, okOr_some, ok.injEq]
  constructor
  · rintro rfl
    rw [hmerge] at hroot hroot'
    refine eq_of_peakItems hinj hleaf (by omega) (by omega) (bagPeaks_inj_of_apart ?_
      (peakItems_apart hinj (by omega)) (peakItems_apart hinj (by omega)) hroot hroot')
    intro x y x' y' heq
    exact (hinj.merge_pos_inj (by decide) (by decide) heq).2
  · rintro rfl
    exact Option.some.inj (hroot.symm.trans hroot')

/-- The same three leaves, with a commit before the last one and without. -/
theorem MMRIVER.Run.data_of_accumulator_three :
    ∃ data data' final final', MMRIVER.SymbolicRun .debug data [0, 1, 3] final ∧ data.length = 3 ∧
      MMRIVER.SymbolicRun .debug data' [0, 1, 3] final' ∧
      (final.get_accumulator .debug MemStore.readOps : Outcome (Error Empty Empty) _) =
        final'.get_accumulator .debug MemStore.readOps ∧
      (final.get_root .debug (Term.hasher.toMerge : Merge (Term Empty) Empty) MemStore.readOps :
        Outcome (Error Empty Empty) (Term Empty)) =
        final'.get_root .debug (Term.hasher.toMerge : Merge (Term Empty) Empty) MemStore.readOps ∧
      data = data' := by
  have start : MMRIVER.SymbolicRun .debug [] [] (MMRIVER.new 0 MemStore.new) := .refl
  have two := (start.push (d := [1]) rfl).push (d := [2]) rfl
  have run := two.push (d := [3]) rfl
  have committed := (two.commit rfl).push (d := [3]) rfl
  obtain ⟨haccumulator, hroot⟩ := MMRIVER.Run.data_of_accumulator (MemStore.mapStore .debug)
    (MemStore.mapStore .debug) (Term.hasher_posInjective Empty) (Term.leaf_hash_injective Empty) run
    committed (by decide) (by decide) (fun hb => by cases hb) (fun hb => by cases hb)
  exact ⟨_, _, _, _, run, rfl, committed, haccumulator.mpr rfl, (hroot fun _ _ => rfl).mpr rfl,
    haccumulator.mp rfl⟩

end merkleberg.mmriver
