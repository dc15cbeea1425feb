import Merkleberg.Mmr.Incremental

open machine machine.Outcome
open forest
open merkleberg.helper

namespace merkleberg.mmr

variable {Item Store σ μ : Type} {b : Profile} {R : MMRStoreReadOps Store Item σ}
  {W : MMRStoreWriteOps Store Item σ} {S : MapStore R W} {under : Nat → Option Item}
  {H : Hasher Item} {data more : List Bytes} {self : MMR Item Store}

/-- New leaves that are the values of the leaves of a tree are its last elements. -/
theorem eq_of_newLeaves {incremental : List Item} (hlength : incremental.length = more.length)
    (hvalues : ∀ leaf ∈ newLeaves data.length incremental, leaf.2 = leafItem H (data ++ more) leaf.1) :
    incremental = more.map H.leaf_hash := by
  rw [← leafItem_append H data more, ← hlength, ← newLeaves_indices, List.map_map]
  exact (newLeaves_items data.length incremental).symm.trans (List.map_congr_left hvalues)

section Sound

variable [DecidableEq Item] {common olds news : List (Nat × Nat)} {parts : List Share} {root : Item}
  {items incremental : List Item}

/-- Of as many items as there are old peaks, the verifier of the new root needs
    all, so that this root pins them and the new leaves. -/
theorem MMR.Holds.of_verify_growth (hself : self.Holds S under H (data ++ more))
    (hne : data ≠ []) (hmerge : Function.Injective2 H.merge) (hpeaks : Function.Injective2 H.merge_peaks)
    (hgrowth : Growth data.length (data ++ more).length common olds news parts)
    (hroot : bagPeaks H.merge_peaks (peakItems H (data ++ more)) = some root)
    (hlength : incremental.length = more.length) (hitems : (peaks data.length).length = items.length)
    (hverify : ((InclusionProof.new (nodeCount (data ++ more).length) items).verify b
      (H.toMerge : Merge Item μ) root ((newLeaves data.length incremental).map leafEntry) :
        Outcome (Error σ μ) Bool) = ok true) :
    incremental = more.map H.leaf_hash ∧
      items = (common ++ olds.reverse).map fun node => nodeItem H (data ++ more) node.1 node.2 := by
  have hpos := List.length_pos_iff.mpr hne
  have hcount : data.length + incremental.length = (data ++ more).length := by
    rw [hlength, List.length_append]
  have hindices : (newLeaves data.length incremental).map (·.1) =
      List.range' data.length ((data ++ more).length - data.length) := by
    rw [newLeaves_indices, ← hcount, Nat.add_sub_cancel_left]
  have hrequested : items.length = (parts.flatMap (partItems Prod.mk)).length := by
    rw [← hitems, hgrowth.items, hgrowth.length_items]
  have hfit : ∀ node ∈ peaks (data ++ more).length, nodePos node.1 node.2 < 2 ^ 64 := fun node hnode =>
    (nodePos_lt_of_peak hnode).trans hself.fits
  have hfits : nodeCount (data.length + incremental.length) < 2 ^ 64 := hcount ▸ hself.fits
  -- The smallest tree has no leaf that was added to another.
  have hlarge : ¬ (nodeCount (data ++ more).length = 1 ∧
      ((newLeaves data.length incremental).map leafEntry).length = 1 ∧
      ((newLeaves data.length incremental).map leafEntry).head?.map (·.1) = some 0) := by
    rintro ⟨hone, hsingle, _⟩
    have hleaves := congrArg List.length hindices
    rw [List.length_map] at hsingle hleaves
    rw [List.length_range', hsingle, eq_one_of_nodeCount hone] at hleaves
    omega
  obtain ⟨hashes, hhashes, hbag⟩ := calculate_root_eq_ok_iff.mp (verify_eq_true_iff.mp hverify)
  obtain ⟨new, hloop, hnew, hpins⟩ := peaks_exact (b := b) (σ := σ) (μ := μ) hmerge
    (nodeItem_succ H (data ++ more)) hgrowth.sections hindices rfl hfit hrequested []
  rw [InclusionProof.new, calculate_peaks_hashes_loop (Nat.le_refl _) (nodeCount_lt_succ _) hself.fits
    (newLeaves_words hfits) newLeaves_heights hlarge (newLeaves_sorted data.length incremental),
    hloop, ok_bind] at hhashes
  obtain rfl : new = hashes := by simpa using hhashes
  rw [peakItems_eq_nodes] at hroot
  have htrue := bagPeaks_inj hpeaks (by rw [hnew, List.length_map]) hbag hroot
  obtain ⟨hvalues, hleaves⟩ := hpins htrue
  rw [flatMap_partItems, hgrowth.items] at hvalues
  have helements : ∀ leaf ∈ newLeaves data.length incremental,
      leaf.2 = leafItem H (data ++ more) leaf.1 := by
    intro leaf hleaf
    rw [hleaves leaf hleaf, nodeItem_zero]
  exact ⟨eq_of_newLeaves hlength helements, hvalues⟩

/-- What is accepted against the root of a tree, as a proof that some last leaves
    were added to it, has these leaves and the root that the tree had before. -/
theorem MMR.Holds.of_verify_incremental (hself : self.Holds S under H (data ++ more)) (hne : data ≠ [])
    (hsmall : (data ++ more).length < 2 ^ 63) (hmerge : Function.Injective2 H.merge)
    (hpeaks : Function.Injective2 H.merge_peaks)
    (hroot : bagPeaks H.merge_peaks (peakItems H (data ++ more)) = some root) {prev_root : Item}
    (hlength : incremental.length = more.length)
    (hverify : ((InclusionProof.new (nodeCount (data ++ more).length) items).verify_incremental b
      (H.toMerge : Merge Item μ) root prev_root incremental : Outcome (Error σ μ) Bool) = ok true) :
    incremental = more.map H.leaf_hash ∧ bagPeaks H.merge_peaks (peakItems H data) = some prev_root := by
  have hcount : data.length + incremental.length = (data ++ more).length := by
    rw [hlength, List.length_append]
  obtain ⟨common, olds, news, parts, hgrowth⟩ :=
    exists_growth (show data.length ≤ (data ++ more).length by omega)
  rw [InclusionProof.verify_incremental_eq (Nat.le_refl _) (nodeCount_lt_succ _) hself.fits hgrowth
    (List.length_pos_iff.mpr hne) hsmall hcount] at hverify
  split at hverify
  · cases hverify
  · rename_i hitems
    rw [not_ne_iff] at hitems
    obtain ⟨calculated, hold, hrest⟩ := bind_eq_ok_iff.mp hverify
    split at hrest
    · cases hrest
    · rename_i hsame
      rw [not_ne_iff] at hsame
      subst hsame
      rw [mapErr_eq_ok_iff] at hold hrest
      obtain ⟨hleaves, rfl⟩ :=
        hself.of_verify_growth hne hmerge hpeaks hgrowth hroot hlength hitems hrest
      rw [reverse_items_eq hgrowth, peakItems_append, bagging_peaks_hashes, bag_rhs_peaks_eq,
        orMergeError_ok, ok_bind, okOr_eq_ok_iff] at hold
      exact ⟨hleaves, hold⟩

end Sound

/-- Incremental verification is sound where merges can be taken apart: whatever
    items and leaves are accepted against the root of a tree, these are the last
    leaves pushed and the other root is that of the tree before them. -/
theorem MMR.Session.incremental_sound [DecidableEq Item] (S : MapStore R W)
    (hmerge : Function.Injective2 H.merge) (hpeaks : Function.Injective2 H.merge_peaks) {store : Store}
    {positions : List Nat} {final : MMR Item Store}
    (session : MMR.Session b (H.toMerge : Merge Item μ) R W (MMR.new 0 store) data positions final)
    (hbound : data.length < 2 ^ 62) {root : Item}
    (hroot : (final.get_root b (H.toMerge : Merge Item μ) R : Outcome (Error σ μ) Item) = ok root)
    {items incremental : List Item} {prev_root : Item} (hcount : incremental.length < data.length)
    (hverify : ((InclusionProof.new final.mmr_size items).verify_incremental b (H.toMerge : Merge Item μ)
      root prev_root incremental : Outcome (Error σ μ) Bool) = ok true) :
    incremental = (data.drop (data.length - incremental.length)).map H.leaf_hash ∧
      ∃ mid before after,
        MMR.Session b (H.toMerge : Merge Item μ) R W (MMR.new 0 store)
          (data.take (data.length - incremental.length)) before mid ∧
        MMR.Session b (H.toMerge : Merge Item μ) R W mid
          (data.drop (data.length - incremental.length)) after final ∧
        (mid.get_root b (H.toMerge : Merge Item μ) R : Outcome (Error σ μ) Item) = ok prev_root := by
  have hlast : incremental.length = (data.drop (data.length - incremental.length)).length := by
    rw [List.length_drop]
    omega
  have hfirst : 0 < (data.take (data.length - incremental.length)).length := by
    rw [List.length_take]
    omega
  have hwhole := List.take_append_drop (data.length - incremental.length) data
  obtain ⟨before, after, mid, hbefore, hafter⟩ :=
    Session.exists_prefix session (Nat.sub_le data.length incremental.length)
  obtain ⟨hmid, _⟩ := MMR.Session.holds S (.refl _) hbefore fun _ => by rw [List.length_take]; omega
  obtain ⟨hfinal, _⟩ := MMR.Session.holds S (.refl _) session fun _ => by omega
  obtain ⟨root', hget, hbag⟩ := hfinal.get_root (b := b) (μ := μ) (by omega)
  obtain rfl : root' = root := ok.inj (hget.symm.trans hroot)
  obtain ⟨old_root, hget', hold⟩ := hmid.get_root (b := b) (μ := μ) hfirst
  rw [hfinal.size] at hverify
  rw [← hwhole] at hfinal hbag hverify
  obtain ⟨hleaves, hprev⟩ := hfinal.of_verify_incremental (List.length_pos_iff.mp hfirst)
    (by rw [hwhole]; omega) hmerge hpeaks hbag hlast hverify
  rw [hold, Option.some.injEq] at hprev
  exact ⟨hleaves, mid, before, after, hbefore, hafter, hprev ▸ hget'⟩

/-- The second of two leaves, taken off again. -/
theorem MMR.Session.incremental_sound_two :
    ∃ mid final before after root,
      MMR.SymbolicRun .debug [[1], [2]] [0, 1] final ∧
      (final.get_root .debug (Term.hasher.toMerge : Merge (Term Empty) Empty) MemStore.readOps :
        Outcome (Error Empty Empty) _) = ok root ∧
      ((InclusionProof.new final.mmr_size [Term.leaf [1]]).verify_incremental .debug
        (Term.hasher.toMerge : Merge (Term Empty) Empty) root (.leaf [1]) [.leaf [2]] :
        Outcome (Error Empty Empty) Bool) = ok true ∧
      MMR.Session (σ := Empty) .debug (Term.hasher.toMerge : Merge (Term Empty) Empty) MemStore.readOps
        (MemStore.writeOps .debug) (MMR.new 0 MemStore.new) [[1]] before mid ∧
      MMR.Session (σ := Empty) .debug (Term.hasher.toMerge : Merge (Term Empty) Empty) MemStore.readOps
        (MemStore.writeOps .debug) mid [[2]] after final ∧
      (mid.get_root .debug (Term.hasher.toMerge : Merge (Term Empty) Empty) MemStore.readOps :
        Outcome (Error Empty Empty) _) = ok (.leaf [1]) := by
  have start : MMR.SymbolicRun .debug [] [] (MMR.new 0 MemStore.new) := .refl
  have run := (start.push (d := [1]) rfl).push (d := [2]) rfl
  have hinjective : Function.Injective2 (Term.node 0 : Term Empty → Term Empty → Term Empty) := by
    intro left right left' right' heq
    cases heq
    exact ⟨rfl, rfl⟩
  obtain ⟨_, mid, before, after, hbefore, hafter, hroot⟩ := MMR.Session.incremental_sound
    (MemStore.mapStore .debug) hinjective hinjective run.session (by decide) rfl (by decide)
    (show ((InclusionProof.new _ [Term.leaf [1]]).verify_incremental .debug
      (Term.hasher.toMerge : Merge (Term Empty) Empty) _ (.leaf [1]) [.leaf [2]] :
      Outcome (Error Empty Empty) Bool) = ok true from rfl)
  exact ⟨mid, _, before, after, _, run, rfl, rfl, hbefore, hafter, hroot⟩
end merkleberg.mmr
