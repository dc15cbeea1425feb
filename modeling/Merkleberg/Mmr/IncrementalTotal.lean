import Merkleberg.Mmr.Incremental

open machine machine.Outcome
open forest
open merkleberg.helper

namespace merkleberg.mmr

variable {Item σ μ : Type} {b : Profile} {H : Hasher Item}

/-- One hash or more are bagged into a root. -/
theorem bagging_peaks_hashes_ok {hashes : List Item} (hne : hashes ≠ []) :
    ∃ root, (bagging_peaks_hashes (H.toMerge : Merge Item μ) hashes : Outcome (Error σ μ) Item) =
      ok root := by
  obtain ⟨root, hroot⟩ := exists_bagPeaks H.merge_peaks hne
  exact ⟨root, by rw [bagging_peaks_hashes, bag_rhs_peaks_eq, hroot]; rfl⟩

/-- The new leaves of a forest are never the pair that the shortcut for the smallest
    tree takes, because there was a leaf before them. -/
theorem newLeaves_not_special {m mmr_size : Nat} (hm : 0 < m) (incremental : List Item) :
    ¬ (mmr_size = 1 ∧ ((newLeaves m incremental).map leafEntry).length = 1 ∧
      ((newLeaves m incremental).map leafEntry).head?.map (·.1) = some 0) := by
  rintro ⟨-, -, hhead⟩
  rw [List.head?_map, Option.map_map] at hhead
  obtain ⟨leaf, hleaf, hzero⟩ := Option.map_eq_some_iff.mp hhead
  have hbound := (mem_newLeaves_bounds (List.mem_of_mem_head? hleaf)).1
  have hpos := nodeCount_pos (n := leaf.1) (by omega)
  have hsame : nodeCount leaf.1 = 0 := hzero
  omega

/-- With as many items as there were peaks, the new leaves lead to some root. -/
theorem calculate_root_growth {m n mmr_size : Nat} (hle : nodeCount n ≤ mmr_size)
    (hnext : mmr_size < nodeCount (n + 1)) (hfits : mmr_size < 2 ^ 64)
    {common olds news : List (Nat × Nat)} {parts : List Share}
    (hgrowth : Growth m n common olds news parts) (hm : 0 < m) {items incremental : List Item}
    (hcount : m + incremental.length = n) (hitems : items.length = (peaks m).length) :
    ∃ root, (calculate_root b (H.toMerge : Merge Item μ) ((newLeaves m incremental).map leafEntry)
      mmr_size items : Outcome (Error σ μ) Item) = ok root := by
  have hsections := hgrowth.sections
  rw [show n - m = incremental.length by omega] at hsections
  have hfit : ∀ node ∈ peaks n, nodePos node.1 node.2 < 2 ^ 64 := fun node hnode =>
    ((nodePos_lt_of_peak hnode).trans_le hle).trans hfits
  have hused : items.length = (parts.flatMap (partItems Prod.mk)).length := by
    rw [hitems, hgrowth.items, hgrowth.length_items]
  obtain ⟨new, hloop, hlength⟩ := peaks_counts (b := b) (σ := σ) (μ := μ) (H := H) hsections
    (newLeaves_indices m incremental) rfl hfit (List.append_nil parts).symm (by simp) hused [] []
  rw [List.append_nil, List.drop_nil, List.take_nil, List.append_nil, List.nil_append] at hloop
  have hne : new ≠ [] := by
    rw [← List.length_pos_iff, hlength, hsections.length_eq]
    exact List.length_pos_iff.mpr (peaks_ne_nil (by omega))
  obtain ⟨root, hroot⟩ := bagging_peaks_hashes_ok (σ := σ) (μ := μ) (H := H) hne
  refine ⟨root, ?_⟩
  rw [calculate_root, calculate_peaks_hashes_loop hle hnext hfits
    (newLeaves_words (hcount ▸ hle.trans_lt hfits)) newLeaves_heights
    (newLeaves_not_special hm incremental) (newLeaves_sorted m incremental), hloop, ok_bind]
  simpa using hroot

/-- Incremental verification fails exactly on a proof that does not have one item
    for each peak of the tree before the new leaves, and on more new leaves than
    the tree has after them. It never gets to the verifier with such a proof. -/
theorem InclusionProof.verify_incremental_returns [DecidableEq Item] (b : Profile) (H : Hasher Item)
    (proof : InclusionProof Item) (hsize : proof.mmr_size ≤ 2 ^ 63) (root prev_root : Item)
    (incremental : List Item) :
    ∃ n, (get_peak_map b proof.mmr_size : Outcome (Error σ μ) Nat) = ok n ∧
      ((n ≤ incremental.length ∨ proof.proof.length ≠ popcount (n - incremental.length)) →
        (proof.verify_incremental b (H.toMerge : Merge Item μ) root prev_root incremental :
          Outcome (Error σ μ) Bool) = err .CorruptedProof) ∧
      (¬ (n ≤ incremental.length ∨ proof.proof.length ≠ popcount (n - incremental.length)) →
        ∃ valid, (proof.verify_incremental b (H.toMerge : Merge Item μ) root prev_root incremental :
          Outcome (Error σ μ) Bool) = ok valid) := by
  obtain ⟨mmr_size, items⟩ := proof
  simp only at hsize ⊢
  obtain ⟨n, hle, hnext⟩ := exists_nodeCount_le_lt mmr_size
  have hfits : mmr_size < 2 ^ 64 := by omega
  have hmap : (get_peak_map b mmr_size : Outcome (Error σ μ) Nat) = ok n :=
    get_peak_map_eq hle hnext hfits
  refine ⟨n, hmap, ?_⟩
  by_cases hmany : n ≤ incremental.length
  · refine ⟨fun _ => ?_, fun hnot => absurd (Or.inl hmany) hnot⟩
    rw [verify_incremental, hmap, ok_bind, if_pos hmany]
  · obtain ⟨common, olds, news, parts, hgrowth⟩ :=
      exists_growth (show n - incremental.length ≤ n from Nat.sub_le _ _)
    have hm : 0 < n - incremental.length := by omega
    have hcount : n - incremental.length + incremental.length = n := by omega
    have hn : n < 2 ^ 63 := by
      have hself := le_nodeCount n
      have hne : n ≠ 2 ^ 63 := by
        rintro rfl
        rw [nodeCount_two_pow] at hle
        omega
      omega
    have hnew : ({ mmr_size, proof := items } : InclusionProof Item) = .new mmr_size items := rfl
    rw [hnew, verify_incremental_eq hle hnext hfits hgrowth hm hn hcount, ← peaks_length]
    by_cases hlength : items.length = (peaks (n - incremental.length)).length
    · refine ⟨fun hbad => absurd hbad (by simp [hmany, hlength]), fun _ => ?_⟩
      have hold : items.take common.length ++ (items.drop common.length).reverse ≠ [] := by
        rw [← List.length_pos_iff, List.length_append, List.length_reverse, List.length_take,
          List.length_drop]
        have := List.length_pos_iff.mpr (peaks_ne_nil hm)
        omega
      obtain ⟨calculated, hcalculated⟩ := bagging_peaks_hashes_ok (σ := σ) (μ := μ) (H := H) hold
      obtain ⟨found, hfound⟩ := calculate_root_growth (b := b) (σ := σ) (μ := μ) (H := H) hle hnext hfits
        hgrowth hm hcount hlength
      rw [if_neg (not_not_intro hlength.symm), hcalculated, mapErr_ok, ok_bind]
      split
      · exact ⟨false, rfl⟩
      · refine ⟨found = root, ?_⟩
        simp only [verify, InclusionProof.calculate_root, InclusionProof.new, hfound, ok_bind, mapErr_ok]
    · exact ⟨fun _ => if_pos (Ne.symm hlength), fun hnot => absurd (Or.inr hlength) hnot⟩

/-- A size that no tree has, and a proof of the wrong length for two new leaves. -/
theorem InclusionProof.verify_incremental_returns_five :
    (5 ≤ 2 ^ 63) ∧
      ((InclusionProof.new 5 [.leaf [1], .leaf [2]]).verify_incremental .debug
        (Term.hasher.toMerge : Merge (Term Empty) Empty) (.leaf [1]) (.leaf [1]) [.leaf [3], .leaf [4]] :
          Outcome (Error Empty Empty) Bool) = err .CorruptedProof := by
  obtain ⟨n, hmap, hfail, -⟩ := InclusionProof.verify_incremental_returns (σ := Empty) (μ := Empty) .debug
    Term.hasher (InclusionProof.new 5 [.leaf [1], .leaf [2]]) (by decide) (.leaf [1]) (.leaf [1])
    [.leaf [3], (.leaf [4] : Term Empty)]
  obtain rfl : 3 = n := ok.inj hmap
  exact ⟨by decide, hfail (.inr (by decide))⟩

end merkleberg.mmr
