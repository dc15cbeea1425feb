import Merkleberg.Mmr.Soundness

open machine machine.Outcome
open forest
open merkleberg.helper

namespace merkleberg.mmr

variable {Item σ μ : Type} {b : Profile} {H : Hasher Item}

/-- The peak loop returns, however many items there are and whichever leaves. -/
theorem peaks_returns {nodes : List (Nat × Nat)} {indices left : List Nat} {parts : List Share}
    (hsections : Sections nodes indices parts left) {leaves : List (Nat × Item)}
    (hleaves : leaves.map (·.1) = indices)
    (hfit : ∀ node ∈ nodes, nodePos node.1 node.2 < 2 ^ 64) (items roots : List Item) :
    Returns (calculate_peaks_hashes.peaks b (H.toMerge : Merge Item μ)
      (nodes.map fun node => nodePos node.1 node.2) (leaves.map leafEntry) items roots :
        Outcome (Error σ μ) _) := by
  induction hsections generalizing leaves items roots with
  | nil left => exact .ok _
  | @skip h m nodes indices left parts hafter tail ih =>
    obtain ⟨_, hfit'⟩ := List.forall_mem_cons.mp hfit
    rw [List.map_cons, peaks_skip (hleaves ▸ hafter)]
    cases items with
    | nil => exact .ok _
    | cons root items => exact ih hleaves hfit' _ _
  | @take h m passes nodes requests group indices left parts hne hunder hclimbs hpasses hafter tail ih =>
    obtain ⟨hpeak, hfit'⟩ := List.forall_mem_cons.mp hfit
    obtain ⟨taken, leaves, rfl, rfl, rfl⟩ := List.map_eq_append_iff.mp hleaves
    rw [List.map_cons]
    obtain ⟨_, hstop⟩ | ⟨_, root, _, hnext⟩ := peaks_group (b := b) (σ := σ) (μ := μ) (H := H)
      hne hunder hclimbs hpasses hafter hpeak items
    · rw [hstop]
      exact .err _
    · rw [hnext]
      exact ih rfl hfit' _ _

theorem calculate_peaks_hashes_returns {mmr_size : Nat} (hlt : mmr_size < 2 ^ 64)
    {pairs : List (Nat × Item)} (hwords : ∀ pair ∈ pairs, pair.1 < 2 ^ 64) (items : List Item) :
    Returns (calculate_peaks_hashes b (H.toMerge : Merge Item μ) pairs mmr_size items :
      Outcome (Error σ μ) _) := by
  obtain ⟨n, hle, hnext⟩ := exists_nodeCount_le_lt mmr_size
  by_cases hheights : ∀ pair ∈ pairs, nodeHeight pair.1 = 0
  · by_cases hspecial : mmr_size = 1 ∧ pairs.length = 1 ∧ pairs.head?.map (·.1) = some 0
    · obtain ⟨rfl, item, rfl⟩ := single_of_special hspecial
      rw [calculate_peaks_hashes_single]
      exact .ok _
    · obtain ⟨leaves, hindices, hsorted⟩ := exists_leaves hheights
      obtain ⟨parts, left, hsections, _, _⟩ :=
        exists_sections (peaks_tile n) hindices fun _ _ => Nat.zero_le _
      have hfit : ∀ node ∈ peaks n, nodePos node.1 node.2 < 2 ^ 64 := fun node hnode =>
        ((nodePos_lt_of_peak hnode).trans_le hle).trans hlt
      rw [calculate_peaks_hashes_loop hle hnext hlt hwords hheights hspecial hsorted]
      refine (peaks_returns hsections rfl hfit items []).bind fun result _ => ?_
      split
      split
      · exact .err _
      · split
        · exact .ok _
        · exact .err _
  · rw [calculate_peaks_hashes_inner hwords hheights]
    exact .err _

theorem calculate_root_returns {mmr_size : Nat} (hlt : mmr_size < 2 ^ 64) {pairs : List (Nat × Item)}
    (hwords : ∀ pair ∈ pairs, pair.1 < 2 ^ 64) (items : List Item) :
    Returns (calculate_root b (H.toMerge : Merge Item μ) pairs mmr_size items :
      Outcome (Error σ μ) Item) := by
  refine (calculate_peaks_hashes_returns hlt hwords items).bind fun hashes _ => ?_
  rw [bagging_peaks_hashes, bag_rhs_peaks_eq, orMergeError_ok, ok_bind]
  exact returns_okOr _ _

/-- Whatever size, items and pairs it is given, the verifier returns in both
    builds: its arithmetic stays in range, and no loop runs on. -/
theorem InclusionProof.verify_returns [DecidableEq Item] (b : Profile) (H : Hasher Item)
    (proof : InclusionProof Item) (hsize : proof.mmr_size < 2 ^ 64) {pairs : List (Nat × Item)}
    (hwords : ∀ pair ∈ pairs, pair.1 < 2 ^ 64) (root : Item) :
    Returns (proof.calculate_root b (H.toMerge : Merge Item μ) pairs : Outcome (Error σ μ) Item) ∧
      Returns (proof.verify b (H.toMerge : Merge Item μ) root pairs : Outcome (Error σ μ) Bool) := by
  have hroot : Returns (proof.calculate_root b (H.toMerge : Merge Item μ) pairs :
      Outcome (Error σ μ) Item) := calculate_root_returns hsize hwords proof.proof
  exact ⟨hroot, hroot.bind fun calculated_root _ => .ok _⟩

/-- A size and a position that no tree reaches. -/
theorem InclusionProof.verify_returns_max :
    Returns ((InclusionProof.new (2 ^ 64 - 1) []).calculate_root .debug
        (Term.hasher.toMerge : Merge (Term Empty) Empty) [(2 ^ 64 - 1, .leaf [1])] :
          Outcome (Error Empty Empty) _) ∧
      Returns ((InclusionProof.new (2 ^ 64 - 1) []).verify .debug
        (Term.hasher.toMerge : Merge (Term Empty) Empty) (.leaf [1]) [(2 ^ 64 - 1, .leaf [1])] :
          Outcome (Error Empty Empty) _) :=
  InclusionProof.verify_returns .debug Term.hasher _ (by decide) (by simp) _

end merkleberg.mmr
