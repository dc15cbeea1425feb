import Merkleberg.Mmr.Leaves
import Merkleberg.Mmr.Run

open machine machine.Outcome
open forest

namespace merkleberg

/-- A map of items that commutes with the hash operations. -/
structure Hasher.Hom {α β : Type} (H : Hasher α) (H' : Hasher β) (f : α → β) : Prop where
  leaf_hash : ∀ data, f (H.leaf_hash data) = H'.leaf_hash data
  merge : ∀ left right, f (H.merge left right) = H'.merge (f left) (f right)
  merge_peaks : ∀ left right, f (H.merge_peaks left right) = H'.merge_peaks (f left) (f right)

/-- Terms evaluate to digests as the digests are computed. -/
theorem Term.digest_hom (H : Digest) :
    Hasher.Hom Term.hasher (DigestMerge H) (Term.digest H) where
  leaf_hash _ := rfl
  merge _ _ := rfl
  merge_peaks _ _ := rfl

end merkleberg

namespace merkleberg.mmr

variable {α β σ μ : Type} {b : Profile} {H : Hasher α} {H' : Hasher β} {f : α → β}

/-- Translate the item of an entry that starts with its position. -/
abbrev onItem (f : α → β) (leaf : Nat × α) : Nat × β := (leaf.1, f leaf.2)

/-- Translate the item of a queue entry. -/
abbrev onEntry (f : α → β) (entry : Nat × α × Nat) : Nat × β × Nat :=
  (entry.1, f entry.2.1, entry.2.2)

theorem takeSibling_map (sib_pos : Nat) (queue : List (Nat × α × Nat)) (proof_iter : List α) :
    (takeSibling sib_pos (queue.map (onEntry f)) (proof_iter.map f) : Outcome (Error σ μ) _) =
      (fun (item, queue, proof_iter) => (f item, queue.map (onEntry f), proof_iter.map f)) <$>
        takeSibling sib_pos queue proof_iter := by
  have hitem (queue : List (Nat × α × Nat)) :
      (do
        let item ← okOr .CorruptedProof (proof_iter.map f).head?
        ok (item, queue.map (onEntry f), (proof_iter.map f).tail) : Outcome (Error σ μ) _) =
      (fun (item, queue, proof_iter) => (f item, queue.map (onEntry f), proof_iter.map f)) <$>
        (do
          let item ← okOr .CorruptedProof proof_iter.head?
          ok (item, queue, proof_iter.tail)) := by
    cases proof_iter <;> rfl
  cases queue with
  | nil => exact hitem []
  | cons entry queue =>
    obtain ⟨pos, item, height⟩ := entry
    rw [List.map_cons, takeSibling, takeSibling]
    split
    · rfl
    · exact hitem ((pos, item, height) :: queue)

theorem calculate_peak_root_body_map (hom : H.Hom H' f) (peak_pos : Nat)
    (state : List (Nat × α × Nat) × List α) :
    (calculate_peak_root.body b (H'.toMerge : Merge β μ) peak_pos
        (state.1.map (onEntry f), state.2.map f) : Outcome (Error σ μ) _) =
      Pass.map (fun state => (state.1.map (onEntry f), state.2.map f))
          (fun result => (f result.1, result.2.map f)) <$>
        calculate_peak_root.body b (H.toMerge : Merge α μ) peak_pos state := by
  obtain ⟨queue, proof_iter⟩ := state
  cases queue with
  | nil => rfl
  | cons entry queue =>
    obtain ⟨pos, item, height⟩ := entry
    simp only [List.map_cons, calculate_peak_root.body]
    split
    · cases queue <;> rfl
    · refine bind_map_congr fun relative => ?_
      obtain ⟨right, sib_pos, parent_pos⟩ := relative
      dsimp only
      rw [takeSibling_map]
      refine map_bind_map_congr fun taken => ?_
      obtain ⟨sibling, queue, proof_iter⟩ := taken
      have hparent : (if right then H'.merge (f sibling) (f item) else H'.merge (f item) (f sibling)) =
          f (if right then H.merge sibling item else H.merge item sibling) := by
        split <;> exact (hom.merge _ _).symm
      simp only [ok_bind, Hasher.toMerge_merge, ← apply_ite ok, orMergeError_ok, hparent]
      split
      · exact bind_map_congr fun height => by simp [Pass.map]
      · rfl

theorem calculate_peak_root_map (hom : H.Hom H' f) (leaves : List (Nat × α)) (peak_pos : Nat)
    (proof_iter : List α) :
    (calculate_peak_root b (H'.toMerge : Merge β μ) (leaves.map (onItem f)) peak_pos
        (proof_iter.map f) : Outcome (Error σ μ) _) =
      (fun result => (f result.1, result.2.map f)) <$>
        calculate_peak_root b (H.toMerge : Merge α μ) leaves peak_pos proof_iter := by
  have hloop := loop_map (calculate_peak_root_body_map (b := b) (σ := σ) (μ := μ) hom peak_pos)
    (64 * leaves.length + 1) (leaves.map fun leaf => (leaf.1, leaf.2, 0), proof_iter)
  simp only [List.map_map] at hloop
  simp only [calculate_peak_root, List.isEmpty_map, List.length_map, List.map_map]
  exact bind_map_congr fun _ => hloop

/-- The peak loop on translated items. -/
theorem calculate_peaks_hashes_peaks_map (hom : H.Hom H' f) (peaks : List Nat)
    (leaves : List (Nat × α)) (proof_iter peaks_hashes : List α) :
    (calculate_peaks_hashes.peaks b (H'.toMerge : Merge β μ) peaks (leaves.map (onItem f))
        (proof_iter.map f) (peaks_hashes.map f) : Outcome (Error σ μ) _) =
      (fun (leaves, proof_iter, peaks_hashes) =>
          (leaves.map (onItem f), proof_iter.map f, peaks_hashes.map f)) <$>
        calculate_peaks_hashes.peaks b (H.toMerge : Merge α μ) peaks leaves proof_iter
          peaks_hashes := by
  induction peaks generalizing leaves proof_iter peaks_hashes with
  | nil => rfl
  | cons peak_pos peaks ih =>
    have hpush (hash : α) : (peaks_hashes ++ [hash]).map f = peaks_hashes.map f ++ [f hash] := by simp
    have hsplit : take_while_vec (leaves.map (onItem f)) (fun leaf => decide (leaf.1 ≤ peak_pos)) =
        ((take_while_vec leaves fun leaf => decide (leaf.1 ≤ peak_pos)).1.map (onItem f),
          (take_while_vec leaves fun leaf => decide (leaf.1 ≤ peak_pos)).2.map (onItem f)) := by
      simp only [take_while_vec, List.takeWhile_map, List.dropWhile_map]
      rfl
    rw [calculate_peaks_hashes.peaks, calculate_peaks_hashes.peaks, hsplit]
    obtain ⟨taken, leaves⟩ := take_while_vec leaves fun leaf => decide (leaf.1 ≤ peak_pos)
    cases taken with
    | nil =>
      cases proof_iter with
      | nil => rfl
      | cons peak_root proof_iter =>
        have hih := ih leaves proof_iter (peaks_hashes ++ [peak_root])
        rw [hpush] at hih
        exact hih
    | cons leaf taken =>
      obtain ⟨pos, item⟩ := leaf
      simp only [List.map_cons, List.map_eq_nil_iff]
      split
      · rw [← hpush, ih]
      · have hroot := calculate_peak_root_map (b := b) (σ := σ) (μ := μ) hom ((pos, item) :: taken)
          peak_pos proof_iter
        rw [List.map_cons] at hroot
        rw [hroot]
        refine map_bind_map_congr fun result => ?_
        dsimp only
        rw [← hpush, ih]

theorem calculate_peaks_hashes_map (hom : H.Hom H' f) (leaves : List (Nat × α)) (mmr_size : Nat)
    (proof_iter : List α) :
    (calculate_peaks_hashes b (H'.toMerge : Merge β μ) (leaves.map (onItem f)) mmr_size
        (proof_iter.map f) : Outcome (Error σ μ) _) =
      List.map f <$> calculate_peaks_hashes b (H.toMerge : Merge α μ) leaves mmr_size proof_iter := by
  have hsort : dedupByKey (·.1) ((leaves.map (onItem f)).insertionSort (·.1 ≤ ·.1)) =
      (dedupByKey (·.1) (leaves.insertionSort (·.1 ≤ ·.1))).map (onItem f) :=
    sortDedup_map (fun _ => rfl) leaves
  have hpositions : (leaves.map (onItem f)).map (·.1) = leaves.map (·.1) := by
    rw [List.map_map]
    rfl
  have hhead : (leaves.map (onItem f)).head?.map (·.1) = leaves.head?.map (·.1) := by
    cases leaves <;> rfl
  have hitems : (leaves.map (onItem f)).map (·.2) = (leaves.map (·.2)).map f := by
    rw [List.map_map, List.map_map]
    rfl
  simp only [calculate_peaks_hashes, anyM_map, List.length_map, hhead, hitems, hsort]
  refine bind_map_congr fun unsupported => ?_
  cases unsupported with
  | true => rfl
  | false =>
    simp only [Bool.false_eq_true, if_false]
    split
    · rfl
    · refine bind_map_congr fun iter => bind_map_congr fun len => bind_map_congr fun _ =>
        bind_map_congr fun peaks => ?_
      have hpeaks := calculate_peaks_hashes_peaks_map (b := b) (σ := σ) (μ := μ) hom peaks
        (dedupByKey (·.1) (leaves.insertionSort (·.1 ≤ ·.1))) proof_iter []
      rw [List.map_nil] at hpeaks
      rw [hpeaks]
      refine map_bind_map_congr fun result => ?_
      obtain ⟨leaves, rest, hashes⟩ := result
      simp only [ne_eq, List.map_eq_nil_iff]
      split
      · rfl
      · rcases rest with _ | ⟨extra, _ | ⟨_, _⟩⟩
        · rfl
        · simp
        · rfl

/-- Evaluating what is computed on terms gives what is computed on items. -/
theorem calculate_root_map (hom : H.Hom H' f) (leaves : List (Nat × α)) (mmr_size : Nat)
    (proof_iter : List α) :
    (calculate_root b (H'.toMerge : Merge β μ) (leaves.map (onItem f)) mmr_size (proof_iter.map f) :
        Outcome (Error σ μ) β) =
      f <$> calculate_root b (H.toMerge : Merge α μ) leaves mmr_size proof_iter := by
  rw [calculate_root, calculate_root, calculate_peaks_hashes_map hom]
  refine map_bind_map_congr fun hashes => ?_
  simp only [ok_bind, bagging_peaks_hashes, bag_rhs_peaks_eq, orMergeError_ok,
    bagPeaks_map hom.merge_peaks]
  cases bagPeaks H.merge_peaks hashes <;> rfl

end merkleberg.mmr
