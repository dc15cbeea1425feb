import Merkleberg.Mmr.Extend
import Merkleberg.Mmr.Lockstep

open machine machine.Outcome
open forest
open merkleberg.helper

namespace forest

/-- Roots are made from one item for each request. -/
theorem Roots.length_used {α : Type} {merge : α → α → α} {parts : List Share} {leaves : List (Nat × α)}
    {used roots : List α} (hroots : Roots merge parts leaves used roots) :
    used.length = (parts.flatMap (partItems Prod.mk)).length := by
  induction hroots with
  | nil => rfl
  | skip _ _ ih => simp [partItems, ih, Nat.add_comm]
  | take _ _ hused _ ih => simp [partItems, ih, hused]

/-- In an even forest the next leaf is a peak of its own. -/
theorem Sections.added {n : Nat} (heven : n % 2 = 0) {indices : List Nat} {parts : List Share}
    (hsections : Sections (peaks n) indices parts []) :
    Sections (peaks (n + 1)) (indices ++ [n]) (parts ++ [((0, n), some [])]) [] := by
  obtain ⟨m, rfl⟩ : ∃ m, n = 2 * m := ⟨n / 2, by omega⟩
  have hlast : Sections [(0, 2 * m)] ([2 * m] ++ []) [((0, 2 * m), some [])] [] :=
    .take (by simp) (by simpa using under_refl 0 (2 * m)) .done (Nat.zero_le _) (by simp) (.nil [])
  rw [peaks_odd]
  refine hsections.append rfl (fun node hnode k hk => ?_) hlast
  obtain rfl := List.mem_singleton.mp hk
  exact (mem_peaks_iff.mp hnode).1

end forest

namespace merkleberg.mmr

variable {Item Store σ μ : Type} {b : Profile} {R : MMRStoreReadOps Store Item σ}
  {W : MMRStoreWriteOps Store Item σ} {H : Hasher Item}

/-- With too few items, and leaves under the last peak, there is no root. -/
theorem calculate_root_too_few {n : Nat} (hfits : nodeCount n < 2 ^ 64) (hlarge : 1 < n)
    {indices : List Nat} {front : List Share} {last : Share} (hlast : last.2 ≠ none)
    (hsections : Sections (peaks n) indices (front ++ [last]) []) (hsorted : indices.Pairwise (· < ·))
    {pairs : List (Nat × Item)} (hcover : ∀ p, p ∈ pairs.map (·.1) ↔ p ∈ indices.map nodeCount)
    {items : List Item}
    (hfew : items.length < ((front ++ [last]).flatMap (partItems Prod.mk)).length) (root : Item) :
    (calculate_root b (H.toMerge : Merge Item μ) pairs (nodeCount n) items : Outcome (Error σ μ) Item) ≠
      ok root := by
  intro hroot
  obtain ⟨hashes, hhashes, _⟩ := bind_eq_ok_iff.mp hroot
  have hspecial : ¬ (nodeCount n = 1 ∧ pairs.length = 1 ∧ pairs.head?.map (·.1) = some 0) := by
    rintro ⟨hone, _⟩
    have := eq_one_of_nodeCount hone
    omega
  obtain ⟨peaks_pos, rest, roots, hpeaks, hloop, _, _⟩ := calculate_peaks_hashes_cases hspecial hhashes
  obtain ⟨iter, hiter, hcollect⟩ := collect_peaks (b := b) (σ := σ) (μ := μ) (Nat.le_refl _)
    (nodeCount_lt_succ n) hfits
  rw [hiter, ok_bind, hcollect, ok.injEq] at hpeaks
  subst hpeaks
  obtain ⟨leaves, hindices, hleaves⟩ := exists_leaves_of_cover hsorted hcover
  rw [hleaves] at hloop
  obtain ⟨taken, back, used, new, hparts, hback, _, rfl, _, hroots, _⟩ := peaks_sound hsections hindices
    (fun node hnode => (nodePos_lt_of_peak hnode).trans hfits) hloop
  -- The peak with the last leaves is not among those that are only skipped.
  rcases List.eq_nil_or_concat back with rfl | ⟨back, part, rfl⟩
  · rw [List.append_nil] at hparts
    rw [hparts, ← hroots.length_used, List.length_append] at hfew
    omega
  · rw [List.concat_eq_append, ← List.append_assoc, List.append_singleton_inj] at hparts
    exact hlast (hparts.2 ▸ hback part (by simp))

section Extend

variable {S : MapStore R W} {under : Nat → Option Item} {data : List Bytes} {d : Bytes}
  {self next : MMR Item Store}

/-- A proof that bags peaks does not lead to any root after the next push. -/
theorem MMR.Holds.extend_bagged (hself : self.Holds S under H data)
    (hnext : next.Holds S under H (data ++ [d])) {pos_list : List Nat} (hne : pos_list ≠ [])
    (hleaves : ∀ p ∈ pos_list, ∃ i < data.length, nodeCount i = p)
    (hmany : 1 < mountainsAfter data.length pos_list) :
    ∃ proof, (self.gen_proof b (H.toMerge : Merge Item μ) R pos_list : Outcome (Error σ μ) _) = ok proof ∧
      ∀ (pairs : List (Nat × Item)) (new_elem root : Item), (∀ p, p ∈ pairs.map (·.1) ↔ p ∈ pos_list) →
        (proof.calculate_root_with_new_leaf b (H.toMerge : Merge Item μ) pairs (nodeCount data.length)
          new_elem next.mmr_size : Outcome (Error σ μ) Item) ≠ ok root := by
  obtain ⟨indices, front, back, hsorted, hcover, hsections, hback, hcount, hgen⟩ :=
    hself.gen_proof_leaves (b := b) (μ := μ) hne hleaves
  rw [trailingPeaks_eq_mountainsAfter hne hcover hsections] at hcount
  have hsize : next.mmr_size = nodeCount (data.length + 1) := by
    rw [hnext.size, List.length_append, List.length_singleton]
  have hfits : nodeCount (data.length + 1) < 2 ^ 64 := hsize ▸ hnext.size ▸ hnext.fits
  obtain ⟨common, olds, parts, h, hgrowth, holds⟩ := exists_growth_succ data.length
  obtain ⟨rest, hitems, hdrop, htake⟩ := proofItems_length H data front back
  have hpos : 0 < data.length := by
    obtain ⟨p, hp⟩ := List.exists_mem_of_ne_nil _ hne
    obtain ⟨i, hi, _⟩ := hleaves p hp
    omega
  have hrest : rest.length = 1 := by
    have hshort := List.length_eq_zero_iff.mpr hdrop
    rw [List.length_drop] at hshort
    rw [List.length_take] at htake
    omega
  have hused : (front.flatMap (partItems (nodeItem H data))).length =
      (front.flatMap (partItems Prod.mk)).length := by rw [flatMap_partItems, List.length_map]
  refine ⟨_, hgen, fun pairs new_elem root hsame => ?_⟩
  have hcover' := fun p => (hsame p).trans (hcover p)
  rw [hsize, InclusionProof.calculate_root_with_new_leaf_eq hfits hgrowth]
  split
  · obtain ⟨hashes, hok, hlength⟩ := InclusionProof.calculate_peaks_hashes_counts (b := b) (σ := σ) (μ := μ)
      (H := H) hself.fits hsections hback hsorted hcover' hused hdrop
    obtain ⟨init, last, rfl, hlast⟩ := hgrowth.last (Nat.lt_succ_self _)
    rw [hitems, hself.size, hok, ok_bind, InclusionProof.reverseFrom]
    split
    · intro hpanic
      cases hpanic
    · -- One item for all the bagged peaks is too few for the leaf that merges with some of them.
      refine calculate_root_too_few hfits (by omega) hlast hgrowth.sections List.pairwise_lt_range'
        (by simp) ?_ root
      rw [hgrowth.items, hgrowth.length_items, ← hsections.length_eq, List.length_append,
        List.length_append, List.length_reverse, ← List.length_append, List.take_append_drop, hlength, htake]
      omega
  · have hadded := hsections.added (by omega)
    refine calculate_root_too_few hfits (by omega) (by simp) hadded ?_ (fun p => ?_) ?_ root
    · refine List.pairwise_append.mpr ⟨hsorted, List.pairwise_singleton _ _, fun k hk k' hk' => ?_⟩
      rw [List.mem_singleton.mp hk']
      exact (hsections.lt_of_mem hk).resolve_left List.not_mem_nil
    · rw [List.map_append, List.map_append, List.mem_append, List.mem_append, hcover' p]
      rfl
    · have hbagged : (back.flatMap (partItems Prod.mk)).length = back.length := by
        rw [flatMap_partItems_of_none Prod.mk hback, List.length_map]
      rw [hitems, List.length_append, hused, hrest, List.flatMap_append, List.flatMap_append,
        List.length_append, List.length_append, hbagged]
      omega

/-- Extending a proof never gives a wrong root. A proof that is generated before a push
    and is given the leaves that it is for leads to the root after the push when at most
    one peak lies behind these leaves, and to no root at all when there are more. -/
theorem MMR.Session.extended_root_iff (S : MapStore R W) {store : Store} {positions : List Nat}
    {final : MMR Item Store}
    (session : MMR.Session b (H.toMerge : Merge Item μ) R W (MMR.new 0 store) data positions final)
    (hfit : b = .release → data.length < 2 ^ 63) {pos_list : List Nat} (hne : pos_list ≠ [])
    (hleaves : ∀ p ∈ pos_list, p ∈ positions) {new_pos : Nat}
    (hpush : final.push b (H.toMerge : Merge Item μ) R d = ok (.ok new_pos, next)) :
    ∃ proof, (final.gen_proof b (H.toMerge : Merge Item μ) R pos_list : Outcome (Error σ μ) _) = ok proof ∧
      ∀ pairs : List (Nat × Item),
        (∀ pair ∈ pairs, final.batch.get_elem b R pair.1 = ok (some pair.2)) →
        (∀ p, p ∈ pairs.map (·.1) ↔ p ∈ pos_list) → ∀ root,
        ((proof.calculate_root_with_new_leaf b (H.toMerge : Merge Item μ) pairs new_pos (H.leaf_hash d)
            next.mmr_size : Outcome (Error σ μ) Item) = ok root ↔
          mountainsAfter data.length pos_list ≤ 1 ∧
            (next.get_root b (H.toMerge : Merge Item μ) R : Outcome (Error σ μ) Item) = ok root) := by
  obtain ⟨hfinal, hpositions⟩ := session.holds S (.refl _) fun hb => (hfit hb).le
  obtain ⟨rfl, hnext⟩ := hfinal.of_push hfit hpush
  have hinside := exists_leaf_of_positions hpositions hleaves
  by_cases hfew : mountainsAfter data.length pos_list ≤ 1
  · obtain ⟨proof, new_root, hgen, hget, hextend⟩ := hfinal.extend (b := b) (μ := μ) hnext hne hinside hfew
    refine ⟨proof, hgen, fun pairs hitems hsame root => ?_⟩
    rw [hextend pairs (hfinal.items_of_read hinside hsame hitems) hsame, hget]
    exact (and_iff_right hfew).symm
  · obtain ⟨proof, hgen, hextend⟩ :=
      hfinal.extend_bagged (b := b) (μ := μ) hnext hne hinside (Nat.not_le.mp hfew)
    refine ⟨proof, hgen, fun pairs _ hsame root => ?_⟩
    exact iff_of_false (hextend pairs (H.leaf_hash d) root hsame) fun h => hfew h.1

end Extend

/-- Of seven leaves, a proof of the first bags the other two peaks and does not extend. -/
theorem MMR.Session.extended_root_seven : ∃ data positions final next proof,
    MMR.SymbolicRun .debug data positions final ∧ data.length = 7 ∧
      (final.push .debug (Term.hasher.toMerge : Merge (Term Empty) Empty) MemStore.readOps [7] :
        Outcome Empty (Except (Error Empty Empty) _ × _)) = ok (.ok 11, next) ∧
      (final.gen_proof .debug (Term.hasher.toMerge : Merge (Term Empty) Empty) MemStore.readOps [0] :
        Outcome (Error Empty Empty) _) = ok proof ∧ ∀ root,
      (proof.calculate_root_with_new_leaf .debug (Term.hasher.toMerge : Merge (Term Empty) Empty)
        [(0, .leaf [0])] 11 (.leaf [7]) next.mmr_size : Outcome (Error Empty Empty) _) ≠ ok root := by
  have hfit : (List.replicate 7 ([0] : Bytes)).length ≤ 2 ^ 63 := by simp
  obtain ⟨positions, final, run⟩ := MMR.exists_run (b := .debug) (σ := Empty) (μ := Empty)
    (MemStore.mapStore .debug) (Term.hasher : Hasher (Term Empty)) MemStore.new hfit
  obtain ⟨hfinal, hpositions⟩ := run.holds (MemStore.mapStore .debug) fun hb => by cases hb
  obtain ⟨next, hpush, hnext⟩ := hfinal.push (b := .debug) (μ := Empty) (by simp) [7]
  obtain ⟨proof, hgen, hextend⟩ := MMR.Session.extended_root_iff (MemStore.mapStore .debug) run.session
    (fun hb => by cases hb) (List.cons_ne_nil 0 []) (by rw [hpositions]; decide) hpush
  refine ⟨_, positions, final, next, proof, run, by simp, hpush, hgen, fun root hroot => ?_⟩
  have hread : ∀ pair ∈ [((0 : Nat), (Term.leaf [0] : Term Empty))],
      (final.batch.get_elem .debug MemStore.readOps pair.1 : Outcome Empty _) =
        ok (some pair.2) := by
    intro pair hpair
    obtain rfl := List.mem_singleton.mp hpair
    exact hfinal.get_elem_eq (p := 0) (by decide)
  have hfew := ((hextend _ hread (fun p => Iff.rfl) root).mp hroot).1
  exact absurd hfew (by decide)

end merkleberg.mmr
