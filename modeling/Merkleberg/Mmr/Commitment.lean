import Merkleberg.Forest.Shape
import Merkleberg.Mmr.Binding

open machine machine.Outcome
open forest
open merkleberg.helper

namespace merkleberg.mmr

variable {Item Store Store' σ μ : Type} {b b' : Profile}
  {R : MMRStoreReadOps Store Item σ} {W : MMRStoreWriteOps Store Item σ}
  {R' : MMRStoreReadOps Store' Item σ} {W' : MMRStoreWriteOps Store' Item σ} {H : Hasher Item}
  {data data' : List Bytes}

/-- The bagged peaks are those of the same data only. -/
theorem data_of_bagged (hinjective : H.MergeInjective) (hleaf : Function.Injective H.leaf_hash)
    {root : Item} (hroot : bagPeaks H.merge_peaks (peakItems H data) = some root)
    (hroot' : bagPeaks H.merge_peaks (peakItems H data') = some root) : data = data' := by
  rw [hinjective.merge_peaks_eq, peakItems_eq_perfect] at hroot hroot'
  have hne : ∀ l r x, (∃ d, x = H.leaf_hash d) → H.merge l r ≠ x := by
    rintro l r x ⟨d, rfl⟩
    exact hinjective.merge_ne_leaf l r d
  obtain ⟨hlength, hleaves⟩ := bagged_root_inj hinjective.merge_inj hne (fun _ => ⟨_, rfl⟩)
    (fun _ => ⟨_, rfl⟩) hroot hroot'
  apply List.ext_getElem hlength
  intro i hi hi'
  have hitem := hleaf (hleaves i hi)
  rwa [List.getD_eq_getElem data [] hi, List.getD_eq_getElem data' [] hi'] at hitem

/-- The root of an MMR commits to everything that was pushed into it, and to how
    much that was. -/
theorem MMR.Run.data_of_root (S : MapStore R W) (S' : MapStore R' W') (hinjective : H.MergeInjective)
    (hleaf : Function.Injective H.leaf_hash) {store : Store} {store' : Store'}
    {positions positions' : List Nat} {final : MMR Item Store} {final' : MMR Item Store'}
    (run : MMR.Run b (H.toMerge : Merge Item μ) R W (MMR.new 0 store) data positions final)
    (run' : MMR.Run b' (H.toMerge : Merge Item μ) R' W' (MMR.new 0 store') data' positions' final')
    (hne : data ≠ []) (hne' : data' ≠ []) (hlength : data.length < 2 ^ 62)
    (hlength' : data'.length < 2 ^ 62)
    (hroot : (final.get_root b (H.toMerge : Merge Item μ) R : Outcome (Error σ μ) Item) =
      final'.get_root b' (H.toMerge : Merge Item μ) R') : data = data' := by
  obtain ⟨hfinal, _⟩ := run.holds S fun _ => by omega
  obtain ⟨hfinal', _⟩ := run'.holds S' fun _ => by omega
  obtain ⟨root, hget, hbag⟩ := hfinal.get_root (b := b) (μ := μ) (List.length_pos_iff.mpr hne)
  obtain ⟨root', hget', hbag'⟩ := hfinal'.get_root (b := b') (μ := μ) (List.length_pos_iff.mpr hne')
  rw [hget, hget', ok.injEq] at hroot
  subst hroot
  exact data_of_bagged hinjective hleaf hbag hbag'

/-- The same three leaves, with a commit before the last one and without. -/
theorem MMR.Run.data_of_root_three :
    ∃ data data' final final', MMR.SymbolicRun .debug data [0, 1, 3] final ∧ data.length = 3 ∧
      MMR.SymbolicRun .debug data' [0, 1, 3] final' ∧
      (final.get_root .debug (Term.hasher.toMerge : Merge (Term Empty) Empty) MemStore.readOps :
        Outcome (Error Empty Empty) (Term Empty)) =
        final'.get_root .debug (Term.hasher.toMerge : Merge (Term Empty) Empty) MemStore.readOps ∧
      data = data' := by
  have start : MMR.SymbolicRun .debug [] [] (MMR.new 0 MemStore.new) := .refl
  have two := (start.push (d := [1]) rfl).push (d := [2]) rfl
  have run := two.push (d := [3]) rfl
  have committed := (two.commit rfl).push (d := [3]) rfl
  refine ⟨_, _, _, _, run, rfl, committed, rfl, ?_⟩
  exact MMR.Run.data_of_root (MemStore.mapStore .debug) (MemStore.mapStore .debug)
    Term.hasher_mergeInjective (fun _ _ heq => Term.leaf.inj heq) run committed (by decide) (by decide)
    (by decide) (by decide) rfl

end merkleberg.mmr
