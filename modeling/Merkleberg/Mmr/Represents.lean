import Merkleberg.Mmr.Run

open machine machine.Outcome
open forest
open merkleberg.helper

namespace merkleberg.mmr

variable {Item Store σ μ : Type} {b : Profile}
  {R : MMRStoreReadOps Store Item σ} {W : MMRStoreWriteOps Store Item σ}

/-- The positions of height zero are those of the leaves. -/
theorem exists_leaf_of_height_zero {p n : Nat} (hheight : nodeHeight p = 0) (hp : p < nodeCount n) :
    ∃ i < n, nodeCount i = p := by
  obtain ⟨h, k, rfl⟩ := exists_nodePos p
  rw [nodeHeight_nodePos] at hheight
  subst hheight
  rw [nodePos_zero] at hp ⊢
  exact ⟨k, nodeCount_lt_nodeCount_iff.mp hp, rfl⟩

/-- An MMR over an empty store is the log it was built from: its size and the
    positions it returned have their closed forms, every position below the
    size has the leaf or the merge of its two children, nothing lies above, and
    the root bags the perfect trees over the blocks of the binary expansion. No
    further push within the bound fails. -/
theorem MMR.Run.represents_log (S : MapStore R W) {H : Hasher Item} {store : Store}
    (hempty : ∀ p, S.contents store p = none) {data : List Bytes} {positions : List Nat}
    {final : MMR Item Store}
    (run : MMR.Run b (H.toMerge : Merge Item μ) R W (MMR.new 0 store) data positions final)
    (hbound : data.length < 2 ^ 62) :
    final.mmr_size = 2 * data.length - popcount data.length ∧
    (0 < data.length →
      (leaf_index_to_mmr_size b (data.length - 1) : Outcome Empty Nat) = ok final.mmr_size) ∧
    positions.length = data.length ∧
    (∀ i < data.length, ∃ pos, (leaf_index_to_pos b i : Outcome Empty Nat) = ok pos ∧
      positions[i]? = some pos) ∧
    (∀ p < final.mmr_size, ∃ height elem, (pos_height_in_tree b p : Outcome Empty Nat) = ok height ∧
      final.batch.get_elem b R p = ok (some elem) ∧
      (height = 0 → ∃ i d, (leaf_index_to_pos b i : Outcome Empty Nat) = ok p ∧
        data[i]? = some d ∧ elem = H.leaf_hash d) ∧
      (0 < height → ∃ left right, 2 ^ height ≤ p ∧
        final.batch.get_elem b R (p - 2 ^ height) = ok (some left) ∧
        final.batch.get_elem b R (p - 1) = ok (some right) ∧ elem = H.merge left right)) ∧
    (∀ p, final.mmr_size ≤ p → final.batch.get_elem b R p = ok none) ∧
    (0 < data.length → Tiles 0 (peaks data.length) data.length ∧ ∃ root,
      (final.get_root b (H.toMerge : Merge Item μ) R : Outcome (Error σ μ) Item) = ok root ∧
      bagPeaks H.merge_peaks ((peaks data.length).map fun node =>
        treeRoot (leafItem H data) (fun _ left right => H.merge left right) node.1 node.2) =
          some root) ∧
    (data.length + 1 < 2 ^ 62 → ∀ d, ∃ pos next,
      final.push b (H.toMerge : Merge Item μ) R d = ok (.ok pos, next)) := by
  obtain ⟨hfinal, hpositions⟩ := run.holds S fun _ => by omega
  have hsize := hfinal.size
  have hfits := hfinal.fits
  refine ⟨hsize, ?_, ?_, ?_, ?_, ?_, ?_, ?_⟩
  · intro hn
    rw [leaf_index_to_mmr_size_eq (by omega), Nat.sub_add_cancel hn, hsize]
  · rw [hpositions, List.length_map, List.length_range]
  · intro i hi
    refine ⟨nodeCount i, leaf_index_to_pos_eq (by omega), ?_⟩
    rw [hpositions, List.getElem?_map, List.getElem?_range hi, Option.map_some]
  · intro p hp
    rw [hsize] at hp
    refine ⟨nodeHeight p, elemAt H data p, pos_height_in_tree_eq (by omega),
      hfinal.get_elem_eq hp, ?_, ?_⟩
    · intro hzero
      obtain ⟨i, hi, rfl⟩ := exists_leaf_of_height_zero hzero hp
      refine ⟨i, data[i], leaf_index_to_pos_eq (by omega), List.getElem?_eq_getElem hi, ?_⟩
      rw [elemAt_nodeCount, leafItem, List.getD_eq_getElem _ _ hi]
    · intro hinner
      obtain ⟨h, hheight⟩ : ∃ h, nodeHeight p = h + 1 := ⟨nodeHeight p - 1, by omega⟩
      obtain ⟨hpow, hvalue⟩ := elemAt_of_height H data hheight
      have hpos := Nat.two_pow_pos (h + 1)
      rw [hheight]
      exact ⟨_, _, hpow, hfinal.get_elem_eq (by omega), hfinal.get_elem_eq (by omega), hvalue⟩
  · intro p hp
    rw [MMRBatch.get_elem_eq S hfinal.tail hfits, hfinal.shown, if_neg (by omega), hempty]
  · intro hn
    obtain ⟨root, hroot, hbag⟩ := hfinal.get_root (b := b) (μ := μ) hn
    rw [peakItems_eq] at hbag
    exact ⟨peaks_tile _, root, hroot, hbag⟩
  · intro _ d
    obtain ⟨next, hpush, _⟩ := hfinal.push (b := b) (μ := μ) (by omega) d
    exact ⟨_, next, hpush⟩

/-- Two leaves in memory, with a commit between them. -/
theorem MMR.Run.represents_log_two :
    ∃ final : MMR (Term Empty) (MemStore (Term Empty)), final.mmr_size = 3 ∧ ∃ root,
      (final.get_root .debug (Term.hasher.toMerge : Merge (Term Empty) Empty) MemStore.readOps :
        Outcome (Error Empty Empty) (Term Empty)) = ok root := by
  have start : MMR.SymbolicRun .debug [] [] (MMR.new 0 MemStore.new) := .refl
  have run := ((start.push (d := [1]) rfl).commit rfl).push (d := [2]) rfl
  obtain ⟨hsize, _, _, _, _, _, hroot, _⟩ :=
    MMR.Run.represents_log (MemStore.mapStore .debug) (fun _ => rfl) run (by decide)
  obtain ⟨_, root, hget, _⟩ := hroot (by decide)
  exact ⟨_, hsize, root, hget⟩

end merkleberg.mmr
