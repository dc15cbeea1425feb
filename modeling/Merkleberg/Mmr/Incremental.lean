import Merkleberg.Forest.Growth
import Merkleberg.Mmr.Binding
import Merkleberg.Mmr.Session

open machine machine.Outcome
open forest
open merkleberg.helper

namespace merkleberg.mmr

variable {Item Store σ μ : Type} {b : Profile}
  {R : MMRStoreReadOps Store Item σ} {W : MMRStoreWriteOps Store Item σ}

/-- New leaves by their indices, from `m` on. -/
def newLeaves (m : Nat) (incremental : List Item) : List (Nat × Item) :=
  (incremental.zipIdx m).map Prod.swap

theorem newLeaves_indices (m : Nat) (incremental : List Item) :
    (newLeaves m incremental).map (·.1) = List.range' m incremental.length := by
  rw [newLeaves, List.map_map]
  exact List.zipIdx_map_snd m incremental

theorem newLeaves_items (m : Nat) (incremental : List Item) :
    (newLeaves m incremental).map (·.2) = incremental := by
  rw [newLeaves, List.map_map]
  exact List.zipIdx_map_fst m incremental

section NewLeaves

variable {m : Nat} {incremental : List Item}

theorem mem_newLeaves_bounds {leaf : Nat × Item} (hleaf : leaf ∈ newLeaves m incremental) :
    m ≤ leaf.1 ∧ leaf.1 < m + incremental.length := by
  have hindex := List.mem_map_of_mem (f := (·.1)) hleaf
  rw [newLeaves_indices] at hindex
  exact List.mem_range'_1.mp hindex

theorem newLeaves_words (hfits : nodeCount (m + incremental.length) < 2 ^ 64) :
    ∀ pair ∈ (newLeaves m incremental).map leafEntry, pair.1 < 2 ^ 64 := by
  intro pair hpair
  obtain ⟨leaf, hleaf, rfl⟩ := List.mem_map.mp hpair
  exact (nodeCount_lt_nodeCount_iff.mpr (mem_newLeaves_bounds hleaf).2).trans hfits

theorem newLeaves_heights : ∀ pair ∈ (newLeaves m incremental).map leafEntry, nodeHeight pair.1 = 0 := by
  intro pair hpair
  obtain ⟨leaf, _, rfl⟩ := List.mem_map.mp hpair
  exact nodeHeight_nodeCount leaf.1

theorem newLeaves_sorted (m : Nat) (incremental : List Item) :
    sortDedup (·.1) ((newLeaves m incremental).map leafEntry) = (newLeaves m incremental).map leafEntry := by
  have hascending : ((newLeaves m incremental).map (·.1)).Pairwise (· < ·) := by
    rw [newLeaves_indices]
    exact List.pairwise_lt_range'
  apply sortDedup_of_pairwise
  exact List.pairwise_map.mpr ((List.pairwise_map.mp hascending).imp nodeCount_lt_nodeCount_iff.mpr)

theorem newLeaves_map (value : Nat → Item) (m count : Nat) :
    newLeaves m ((List.range' m count).map value) = (List.range' m count).map fun i => (i, value i) := by
  have hzip := List.zip_map' (f := value) (g := id) (l := List.range' m count)
  rw [List.map_id] at hzip
  rw [newLeaves, List.zipIdx_eq_zip_range', List.length_map, List.length_range', hzip, List.map_map]
  rfl

end NewLeaves

namespace InclusionProof

/-- The search stops behind the peaks that stayed, where an old peak lies before
    the new one. When all stayed it finds nothing. -/
theorem verify_incremental.find_eq {current common olds news : List Nat} {last i : Nat}
    (hcurrent : current.drop i = common ++ news)
    (hbefore : ∀ old ∈ olds.head?, ∃ new ∈ news.head?, old < new) :
    (verify_incremental.find current last i (common ++ olds) : Outcome (Error σ μ) Nat) =
      ok (if olds = [] then last else i + common.length) := by
  have hget : current[i]? = (common ++ news).head? := by rw [← hcurrent, List.head?_drop]
  induction common generalizing i with
  | nil =>
    cases olds with
    | nil => rfl
    | cons old olds =>
      obtain ⟨new, hnew, hlt⟩ := hbefore old rfl
      rw [List.nil_append, Option.mem_def.mp hnew] at hget
      rw [List.nil_append, verify_incremental.find, hget]
      simp [expect, hlt]
  | cons position common ih =>
    have hnext : current.drop (i + 1) = common ++ news := by
      rw [← List.tail_drop, hcurrent]
      rfl
    rw [List.cons_append, verify_incremental.find, hget]
    simp only [List.cons_append, List.head?_cons, expect, ok_bind, Nat.lt_irrefl, if_false]
    rw [ih hnext (by rw [← hnext, List.head?_drop]), List.length_cons, Nat.add_assoc, Nat.add_comm 1]

/-- Reversing just the last item, when there is nothing to reverse, changes
    nothing. -/
theorem reverse_from_eq {T : Type} {common olds : List T} {items : List Item}
    (hlength : items.length = common.length + olds.length) :
    items.take (if olds = [] then items.length - 1 else common.length) ++
        (items.drop (if olds = [] then items.length - 1 else common.length)).reverse =
      items.take common.length ++ (items.drop common.length).reverse := by
  split
  · rename_i hnil
    rw [hnil, List.length_nil, Nat.add_zero] at hlength
    rw [← hlength, List.take_length, List.drop_length, List.reverse_nil, List.append_nil]
    rcases List.eq_nil_or_concat items with rfl | ⟨front, item, rfl⟩
    · rfl
    · simp
  · rfl

theorem newLeaves_positions {m : Nat} (incremental : List Item) (hlt : m + incremental.length < 2 ^ 63) :
    (incremental.zipIdx.mapM fun (leaf, index) => do
      let leaf_index ← U64.add b m index
      let pos ← leaf_index_to_pos b leaf_index
      ok (pos, leaf) : Outcome (Error σ μ) _) = ok ((newLeaves m incremental).map leafEntry) := by
  rw [newLeaves, List.zipIdx_eq_map_add (i := m), List.map_map, List.map_map]
  refine mapM_eq_ok fun pair hpair => ?_
  obtain ⟨leaf, index⟩ := pair
  have hindex := List.snd_lt_of_mem_zipIdx hpair
  have hadd : (U64.add b m index : Outcome (Error σ μ) Nat) = ok (m + index) :=
    Word.add_ok (by omega)
  have hpos : (leaf_index_to_pos b (m + index) : Outcome (Error σ μ) Nat) = ok (nodeCount (m + index)) :=
    leaf_index_to_pos_eq (by omega)
  simp only [hadd, hpos, ok_bind]
  rfl

/-- The search over the peaks of a forest and of what it has grown to. -/
theorem find_peaks_eq {m n : Nat} {common olds news : List (Nat × Nat)} {parts : List Share}
    (hgrowth : Growth m n common olds news parts) (last : Nat) :
    (verify_incremental.find ((peaks n).map fun node => nodePos node.1 node.2) last 0
      ((peaks m).map fun node => nodePos node.1 node.2) : Outcome (Error σ μ) Nat) =
      ok (if olds = [] then last else common.length) := by
  have hcurrent : ((peaks n).map fun node => nodePos node.1 node.2).drop 0 =
      (common.map fun node => nodePos node.1 node.2) ++ news.map fun node => nodePos node.1 node.2 := by
    rw [List.drop_zero, hgrowth.new, List.map_append]
  have hbefore : ∀ old ∈ (olds.map fun node => nodePos node.1 node.2).head?,
      ∃ new ∈ (news.map fun node => nodePos node.1 node.2).head?, old < new := by
    intro old hold
    rw [List.head?_map] at hold ⊢
    obtain ⟨node, hnode, rfl⟩ := Option.mem_map.mp hold
    obtain ⟨new, hnew, hlt⟩ := hgrowth.before node hnode
    exact ⟨_, Option.mem_map_of_mem _ hnew, hlt⟩
  rw [hgrowth.old, List.map_append, verify_incremental.find_eq hcurrent hbefore]
  simp only [List.map_eq_nil_iff, List.length_map, Nat.zero_add]

section Incremental

variable [DecidableEq Item] {M : Merge Item μ} {m n : Nat} {common olds news : List (Nat × Nat)}
  {parts : List Share}

/-- What the verifier does on a size, which belongs to the largest forest that fits:
    it checks the old root against the items, with those behind the peaks that
    stayed reversed, and the new root against the new leaves. -/
theorem verify_incremental_eq {mmr_size : Nat} (hle : nodeCount n ≤ mmr_size)
    (hnext : mmr_size < nodeCount (n + 1)) (hfits : mmr_size < 2 ^ 64)
    (hgrowth : Growth m n common olds news parts) (hm : 0 < m) (hn : n < 2 ^ 63)
    {items incremental : List Item} (hcount : m + incremental.length = n) (root prev_root : Item) :
    ((InclusionProof.new mmr_size items).verify_incremental b M root prev_root incremental :
      Outcome (Error σ μ) Bool) =
      if (peaks m).length ≠ items.length then err .CorruptedProof
      else (do
        let calculated_prev_root ← (bagging_peaks_hashes M
          (items.take common.length ++ (items.drop common.length).reverse)).mapErr fun error =>
            .MergeError (.crate error)
        if calculated_prev_root ≠ prev_root then ok false
        else ((InclusionProof.new mmr_size items).verify b M root
          ((newLeaves m incremental).map leafEntry)).mapErr fun error =>
            .MergeError (.crate error)) := by
  have hsmaller : nodeCount m ≤ nodeCount n := nodeCount_le_nodeCount_iff.mpr (by omega)
  have hmap : (get_peak_map b mmr_size : Outcome (Error σ μ) Nat) = ok n :=
    get_peak_map_eq hle hnext hfits
  have hprev : (U64.sub b n incremental.length : Outcome (Error σ μ) Nat) = ok m := by
    rw [U64.sub, Word.sub_ok (by omega)]
    congr 1
    omega
  have hindex : (U64.sub b m 1 : Outcome (Error σ μ) Nat) = ok (m - 1) := Word.sub_ok hm
  have hsize : (leaf_index_to_mmr_size b (m - 1) : Outcome (Error σ μ) Nat) = ok (nodeCount m) := by
    rw [leaf_index_to_mmr_size_eq (by omega), Nat.sub_add_cancel hm]
  obtain ⟨iter, hiter, hpeaks⟩ := collect_peaks (b := b) (σ := σ) (μ := μ) (Nat.le_refl _)
    (nodeCount_lt_succ m) (hsmaller.trans_lt (hle.trans_lt hfits))
  obtain ⟨iter', hiter', hpeaks'⟩ := collect_peaks (b := b) (σ := σ) (μ := μ) hle hnext hfits
  simp only [verify_incremental, InclusionProof.new, hmap, ok_bind,
    if_neg (show ¬ n ≤ incremental.length by omega), hprev, hindex, hsize, hiter, hpeaks, hiter', hpeaks',
    List.length_map]
  have hleaves := newLeaves_positions (b := b) (σ := σ) (μ := μ) (m := m) incremental (by omega)
  by_cases hlength : (peaks m).length = items.length
  · have hsum : items.length = common.length + olds.length := by
      rw [← hlength, hgrowth.old, List.length_append]
    have hlast : (U64.sub b items.length 1 : Outcome (Error σ μ) Nat) = ok (items.length - 1) := by
      rw [← hlength]
      exact Word.sub_ok (List.length_pos_iff.mpr (peaks_ne_nil hm))
    have hfind := find_peaks_eq (σ := σ) (μ := μ) hgrowth (items.length - 1)
    have hsplit : (split_off items (if olds = [] then items.length - 1 else common.length) :
        Outcome (Error σ μ) _) =
        ok (items.take (if olds = [] then items.length - 1 else common.length),
          items.drop (if olds = [] then items.length - 1 else common.length)) := by
      rw [split_off, if_neg]
      split <;> omega
    simp only [hlength, ne_eq, not_true_eq_false, if_false, hlast, hfind, hsplit, ok_bind,
      reverse_from_eq hsum, hleaves]
  · simp only [hlength, ne_eq, not_false_eq_true, if_true]

end Incremental

end InclusionProof

section Complete

variable {S : MapStore R W} {under : Nat → Option Item} {H : Hasher Item} {data more : List Bytes}
  {self : MMR Item Store}

/-- The items behind the peaks that stayed, reversed, are old peaks again. -/
theorem reverse_items_eq {m n : Nat} {common olds news : List (Nat × Nat)} {parts : List Share}
    (hgrowth : Growth m n common olds news parts) (value : Nat × Nat → Item) :
    (((common ++ olds.reverse).map value).take common.length ++
      (((common ++ olds.reverse).map value).drop common.length).reverse) = (peaks m).map value := by
  rw [List.map_append, List.take_left' (List.length_map _), List.drop_left' (List.length_map _),
    ← List.map_reverse, List.reverse_reverse, ← List.map_append, hgrowth.old]

/-- Old peaks have the values they had. -/
theorem peakItems_append (H : Hasher Item) (data more : List Bytes) :
    (peaks data.length).map (fun node => nodeItem H (data ++ more) node.1 node.2) = peakItems H data := by
  rw [peakItems_eq_nodes]
  exact List.map_congr_left fun node hnode => elemAt_append more (nodePos_lt_of_peak hnode)

/-- What is generated for the new leaves of a tree that has grown: the peaks that
    stayed and then the other old peaks, smallest first. -/
theorem MMR.Holds.gen_proof_growth (hself : self.Holds S under H (data ++ more)) (hne : data ≠ [])
    (hmore : more ≠ []) {common olds news : List (Nat × Nat)} {parts : List Share}
    (hgrowth : Growth data.length (data ++ more).length common olds news parts) {pos_list : List Nat}
    (hcover : ∀ p, p ∈ pos_list ↔ p ∈ (List.range' data.length more.length).map nodeCount) :
    (self.gen_proof b (H.toMerge : Merge Item μ) R pos_list : Outcome (Error σ μ) _) =
      ok (.new (nodeCount (data ++ more).length)
        ((common ++ olds.reverse).map fun node => nodeItem H (data ++ more) node.1 node.2)) := by
  have hpos := List.length_pos_iff.mpr hne
  have hpos' := List.length_pos_iff.mpr hmore
  have hlength : (data ++ more).length = data.length + more.length := List.length_append
  have hmem : ∀ p ∈ pos_list, ∃ i < (data ++ more).length, nodeCount i = p := by
    intro p hp
    obtain ⟨i, hi, rfl⟩ := List.mem_map.mp ((hcover p).mp hp)
    exact ⟨i, by rw [hlength]; exact (List.mem_range'_1.mp hi).2, rfl⟩
  have hwords : ∀ p ∈ pos_list, p < 2 ^ 64 := by
    intro p hp
    obtain ⟨i, hi, rfl⟩ := hmem p hp
    exact (nodeCount_lt_nodeCount_iff.mpr hi).trans hself.fits
  have hheights : ∀ p ∈ pos_list, nodeHeight p = 0 := by
    intro p hp
    obtain ⟨i, _, rfl⟩ := hmem p hp
    exact nodeHeight_nodeCount i
  have hsome : pos_list ≠ [] := by
    have hfirst := (hcover (nodeCount data.length)).mpr
      (List.mem_map_of_mem (List.mem_range'_1.mpr ⟨Nat.le_refl _, by omega⟩))
    exact List.ne_nil_of_mem hfirst
  have hlarge : ¬ (self.mmr_size = 1 ∧ pos_list = [0]) := by
    rintro ⟨hone, _⟩
    have hsingle := eq_one_of_nodeCount (hself.size.symm.trans hone)
    omega
  have hindices : sortDedup id pos_list = (List.range' data.length more.length).map nodeCount := by
    have hpositions := sortDedup_positions id List.pairwise_lt_range' (List.map_id pos_list ▸ hcover)
    rwa [List.map_id] at hpositions
  have hsections := hgrowth.sections
  rw [hlength, Nat.add_sub_cancel_left, ← hlength] at hsections
  obtain ⟨front, part, hparts, hlast⟩ := hgrowth.last (by omega)
  have htrailing : trailingPeaks 0 parts = 0 := by
    rw [hparts, trailingPeaks, List.foldl_append]
    simp [hlast]
  rw [hself.gen_proof_sections hsome hwords hheights hlarge hindices hsections, htrailing]
  simp only [List.map_nil, ne_eq, not_true_eq_false, if_false, gt_iff_lt, Nat.not_lt_zero]
  rw [InclusionProof.new, flatMap_partItems, hgrowth.items]

/-- The peaks that stayed, the other old peaks, smallest first, and the new leaves
    lead to the new root. -/
theorem calculate_root_grown (hfits : nodeCount (data ++ more).length < 2 ^ 64)
    {common olds news : List (Nat × Nat)} {parts : List Share}
    (hgrowth : Growth data.length (data ++ more).length common olds news parts) {root : Item}
    (hroot : bagPeaks H.merge_peaks (peakItems H (data ++ more)) = some root) :
    (calculate_root b (H.toMerge : Merge Item μ)
      ((newLeaves data.length (more.map H.leaf_hash)).map leafEntry) (nodeCount (data ++ more).length)
      ((common ++ olds.reverse).map fun node => nodeItem H (data ++ more) node.1 node.2) :
      Outcome (Error σ μ) Item) = ok root := by
  have hlength : (data ++ more).length = data.length + more.length := List.length_append
  have hcount : data.length + (more.map H.leaf_hash).length = (data ++ more).length := by
    rw [hlength, List.length_map]
  have hpairs : newLeaves data.length (more.map H.leaf_hash) =
      (List.range' data.length more.length).map fun k => (k, nodeItem H (data ++ more) 0 k) := by
    rw [← leafItem_append H data more, newLeaves_map]
    exact List.map_congr_left fun k _ => by rw [nodeItem_zero]
  have hsections := hgrowth.sections
  rw [hlength, Nat.add_sub_cancel_left, ← hlength] at hsections
  have hsorted := newLeaves_sorted data.length (more.map H.leaf_hash)
  rw [hpairs] at hsorted
  have hpeaks : bagPeaks H.merge_peaks ((parts.map fun part =>
      nodeItem H (data ++ more) part.1.1 part.1.2) ++ ([] : List Item).take 0) = some root := by
    rw [List.take_nil, List.append_nil, ← hroot, peakItems_eq_parts H hsections]
  have hcalculate := calculate_root_values (b := b) (σ := σ) (μ := μ) hfits hsections
    (fun h k _ _ => nodeItem_succ H (data ++ more) h k) (List.append_nil parts).symm (by simp)
    (hpairs ▸ newLeaves_words (hcount ▸ hfits)) (hpairs ▸ newLeaves_heights) hsorted
    List.drop_nil hpeaks
  rw [List.append_nil, flatMap_partItems, hgrowth.items] at hcalculate
  rw [hpairs]
  exact hcalculate

/-- A proof for just the leaves that a tree has grown by leads from the old root to
    the new one. -/
theorem MMR.Holds.verify_growth [DecidableEq Item] (hself : self.Holds S under H (data ++ more))
    (hne : data ≠ []) (hsmall : (data ++ more).length < 2 ^ 63) {common olds news : List (Nat × Nat)}
    {parts : List Share} (hgrowth : Growth data.length (data ++ more).length common olds news parts)
    {prev_root root : Item} (hprev : bagPeaks H.merge_peaks (peakItems H data) = some prev_root)
    (hroot : bagPeaks H.merge_peaks (peakItems H (data ++ more)) = some root) :
    ((InclusionProof.new (nodeCount (data ++ more).length)
        ((common ++ olds.reverse).map fun node => nodeItem H (data ++ more) node.1 node.2)).verify_incremental
      b (H.toMerge : Merge Item μ) root prev_root (more.map H.leaf_hash) : Outcome (Error σ μ) Bool) =
      ok true := by
  have hpos := List.length_pos_iff.mpr hne
  have hlength : (data ++ more).length = data.length + more.length := List.length_append
  have hcount : data.length + (more.map H.leaf_hash).length = (data ++ more).length := by
    rw [hlength, List.length_map]
  have hitems : (peaks data.length).length = ((common ++ olds.reverse).map fun node =>
      nodeItem H (data ++ more) node.1 node.2).length := by
    rw [List.length_map, hgrowth.length_items]
  have hold : (bagging_peaks_hashes (H.toMerge : Merge Item μ) (peakItems H data) :
      Outcome (Error σ μ) Item) = ok prev_root := by
    rw [bagging_peaks_hashes, bag_rhs_peaks_eq, hprev]
    rfl
  have hverify : ((InclusionProof.new (nodeCount (data ++ more).length)
      ((common ++ olds.reverse).map fun node => nodeItem H (data ++ more) node.1 node.2)).verify b
        (H.toMerge : Merge Item μ) root ((newLeaves data.length (more.map H.leaf_hash)).map leafEntry) :
      Outcome (Error σ μ) Bool) = ok true :=
    verify_eq_true_iff.mpr (calculate_root_grown hself.fits hgrowth hroot)
  rw [InclusionProof.verify_incremental_eq (Nat.le_refl _) (nodeCount_lt_succ _) hself.fits hgrowth hpos
    hsmall hcount, if_neg (not_not_intro hitems), reverse_items_eq hgrowth, peakItems_append, hold, hverify]
  simp

end Complete

section Session

variable [DecidableEq Item] {H : Hasher Item} {store : Store}

/-- Incremental verification is complete: the proof for all the positions that
    pushes into a tree have returned, in whatever order, leads from the root
    before them to the root after them, given the leaves they pushed. -/
theorem MMR.Session.incremental_complete (S : MapStore R W) {data more : List Bytes}
    {positions positions' : List Nat} {mid final : MMR Item Store}
    (before : MMR.Session b (H.toMerge : Merge Item μ) R W (MMR.new 0 store) data positions mid)
    (after : MMR.Session b (H.toMerge : Merge Item μ) R W mid more positions' final)
    (hne : data ≠ []) (hmore : more ≠ []) (hbound : data.length + more.length < 2 ^ 62)
    {pos_list : List Nat} (hcover : ∀ p, p ∈ pos_list ↔ p ∈ positions') :
    ∃ prev_root root proof,
      (mid.get_root b (H.toMerge : Merge Item μ) R : Outcome (Error σ μ) Item) = ok prev_root ∧
      (final.get_root b (H.toMerge : Merge Item μ) R : Outcome (Error σ μ) Item) = ok root ∧
      (final.gen_proof b (H.toMerge : Merge Item μ) R pos_list : Outcome (Error σ μ) _) = ok proof ∧
      (proof.verify_incremental b (H.toMerge : Merge Item μ) root prev_root (more.map H.leaf_hash) :
        Outcome (Error σ μ) Bool) = ok true := by
  obtain ⟨hmid, _⟩ := MMR.Session.holds S (.refl _) before fun _ => by omega
  obtain ⟨hfinal, rfl⟩ := MMR.Session.holds_from (.refl _) hmid after fun _ => by omega
  have hlength : (data ++ more).length = data.length + more.length := List.length_append
  obtain ⟨prev_root, hget, hprev⟩ := hmid.get_root (b := b) (μ := μ) (List.length_pos_iff.mpr hne)
  obtain ⟨root, hget', hroot⟩ := hfinal.get_root (b := b) (μ := μ)
    (List.length_pos_iff.mpr (List.append_ne_nil_of_left_ne_nil hne more))
  obtain ⟨common, olds, news, parts, hgrowth⟩ :=
    exists_growth (show data.length ≤ (data ++ more).length by omega)
  exact ⟨prev_root, root, _, hget, hget', hfinal.gen_proof_growth hne hmore hgrowth hcover,
    hfinal.verify_growth hne (by omega) hgrowth hprev hroot⟩

end Session

/-- A second leaf, proved against the tree of the first. -/
theorem MMR.Session.incremental_complete_two :
    ∃ mid final prev_root root, ∃ proof : InclusionProof (Term Empty),
      MMR.SymbolicRun .debug [[1]] [0] mid ∧ MMR.SymbolicRun .debug [[1], [2]] [0, 1] final ∧
      (mid.get_root .debug (Term.hasher.toMerge : Merge (Term Empty) Empty) MemStore.readOps :
        Outcome (Error Empty Empty) _) = ok prev_root ∧
      (final.get_root .debug (Term.hasher.toMerge : Merge (Term Empty) Empty) MemStore.readOps :
        Outcome (Error Empty Empty) _) = ok root ∧
      (final.gen_proof .debug (Term.hasher.toMerge : Merge (Term Empty) Empty) MemStore.readOps [1] :
        Outcome (Error Empty Empty) _) = ok proof ∧
      (proof.verify_incremental .debug (Term.hasher.toMerge : Merge (Term Empty) Empty) root prev_root
        [.leaf [2]] : Outcome (Error Empty Empty) Bool) = ok true := by
  have start : MMR.SymbolicRun .debug [] [] (MMR.new 0 MemStore.new) := .refl
  have before := start.push (d := [1]) rfl
  obtain ⟨prev_root, root, proof, hcomplete⟩ := MMR.Session.incremental_complete
    (MemStore.mapStore .debug) before.session (Session.push (d := [2]) .refl ⟨_, _, .refl _, .refl _, rfl⟩)
    (by decide) (by decide) (by decide) (fun _ => Iff.rfl)
  exact ⟨_, _, prev_root, root, proof, before, before.push (d := [2]) rfl, hcomplete⟩

end merkleberg.mmr
