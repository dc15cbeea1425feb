import Merkleberg.Forest.Bagged
import Merkleberg.Mmr.Completeness

open machine machine.Outcome
open forest
open merkleberg.helper

namespace merkleberg.mmr

variable {Item Store σ μ : Type} {b : Profile} {H : Hasher Item}

/-- What the verifier has computed when it does not fail: a root for each of the
    front parts, and at most one more item, which is only there when no peak is
    left without a root. -/
structure Verified (H : Hasher Item) (n : Nat) (pairs : List (Nat × Item)) (hashes : List Item)
    (leaves : List (Nat × Item)) (front back : List Share) (used roots extra : List Item) : Prop where
  sorted : sortDedup (·.1) pairs = leaves.map leafEntry
  sections : Sections (peaks n) (leaves.map (·.1)) (front ++ back) []
  no_leaf : ∀ part ∈ back, part.2 = none
  folds : Roots H.merge front leaves used roots
  hashes_eq : hashes = roots ++ extra
  extra_le : extra.length ≤ 1
  extra_nil : back ≠ [] → extra = []

theorem calculate_peaks_hashes_sound {n mmr_size : Nat} (hle : nodeCount n ≤ mmr_size)
    (hnext : mmr_size < nodeCount (n + 1)) (hlt : mmr_size < 2 ^ 64) {pairs : List (Nat × Item)}
    (hwords : ∀ pair ∈ pairs, pair.1 < 2 ^ 64) {items hashes : List Item}
    (hok : (calculate_peaks_hashes b (H.toMerge : Merge Item μ) pairs mmr_size items :
      Outcome (Error σ μ) _) = ok hashes) :
    (∀ pair ∈ pairs, nodeHeight pair.1 = 0) ∧
      ∃ leaves front back used roots extra,
        Verified H n pairs hashes leaves front back used roots extra := by
  by_cases hheights : ∀ pair ∈ pairs, nodeHeight pair.1 = 0
  · refine ⟨hheights, ?_⟩
    by_cases hspecial : mmr_size = 1 ∧ pairs.length = 1 ∧ pairs.head?.map (·.1) = some 0
    · -- The shortcut for the smallest tree is one part with nothing requested.
      obtain ⟨rfl, item, rfl⟩ := single_of_special hspecial
      obtain rfl : n = 1 := eq_of_nodeCount_le_lt hle hnext (by decide) (by decide)
      have hpeaks : peaks 1 = [(0, 0)] := by decide
      rw [calculate_peaks_hashes_single, ok.injEq] at hok
      subst hok
      have hsections : Sections [(0, 0)] ([0] ++ []) [((0, 0), some [])] [] :=
        .take (by simp) (by simp [Under]) .done (Nat.zero_le _) (by simp) (.nil [])
      have hroots : Roots H.merge [((0, 0), some [])] ([(0, item)] ++ []) ([] ++ []) [item] :=
        .take (by simp) (.done item) rfl .nil
      rw [← hpeaks] at hsections
      exact ⟨[(0, item)], [((0, 0), some [])], [], [], [item], [],
        ⟨rfl, hsections, by simp, hroots, rfl, by simp, by simp⟩⟩
    · obtain ⟨leaves, hindices, hsorted⟩ := exists_leaves hheights
      obtain ⟨parts, left, hsections, _, _⟩ :=
        exists_sections (peaks_tile n) hindices fun _ _ => Nat.zero_le _
      rw [calculate_peaks_hashes_loop hle hnext hlt hwords hheights hspecial hsorted, bind_eq_ok_iff] at hok
      obtain ⟨⟨leaves', rest, roots'⟩, hloop, hend⟩ := hok
      dsimp only at hend
      split at hend
      · cases hend
      · rename_i hleaves
        rw [not_ne_iff] at hleaves
        subst hleaves
        have hfit : ∀ node ∈ peaks n, nodePos node.1 node.2 < 2 ^ 64 := fun node hnode =>
          ((nodePos_lt_of_peak hnode).trans_le hle).trans hlt
        obtain ⟨front, back, used, new, rfl, hback, hstop, hitems, hnew, hroots, rfl⟩ :=
          peaks_sound hsections rfl hfit hloop
        rw [List.nil_append] at hnew
        subst hnew
        split at hend
        · rename_i hextra
          exact ⟨leaves, front, back, used, roots', rest, ⟨hsorted, hsections, hback, hroots,
            (ok.inj hend).symm, hextra, fun hne => hstop.resolve_left hne⟩⟩
        · cases hend
  · rw [calculate_peaks_hashes_inner hwords hheights] at hok
    cases hok

/-- With distinct positions the sorted leaves are all the pairs. -/
theorem Verified.exists_leaf {n : Nat} {pairs : List (Nat × Item)} {hashes : List Item}
    {leaves : List (Nat × Item)} {front back : List Share} {used roots extra : List Item}
    (h : Verified H n pairs hashes leaves front back used roots extra)
    (hdistinct : (pairs.map (·.1)).Nodup) {pair : Nat × Item} (hpair : pair ∈ pairs) :
    ∃ leaf ∈ leaves, leafEntry leaf = pair := by
  obtain ⟨kept, hkept, heq⟩ := sortDedup_covers (fun pair : Nat × Item => pair.1) hpair
  have hsame : kept = pair :=
    List.inj_on_of_nodup_map hdistinct (mem_of_mem_sortDedup hkept) hpair heq
  rw [h.sorted] at hkept
  obtain ⟨leaf, hleaf, rfl⟩ := List.mem_map.mp hkept
  exact ⟨leaf, hleaf, hsame⟩

/-- Every leaf the verifier was given is among the leaves of the claimed forest. -/
theorem Verified.lt_of_mem {n : Nat} {pairs : List (Nat × Item)} {hashes : List Item}
    {leaves : List (Nat × Item)} {front back : List Share} {used roots extra : List Item}
    (h : Verified H n pairs hashes leaves front back used roots extra) {leaf : Nat × Item}
    (hleaf : leaf ∈ leaves) : leaf.1 < n := by
  rcases h.sections.lt_of_mem (List.mem_map_of_mem hleaf) with hleft | hlt
  · simp at hleft
  · exact hlt

end merkleberg.mmr
