import Merkleberg.Mmr.Leaves
import Merkleberg.Symbolic

open machine machine.Outcome
open forest
open merkleberg.helper

namespace merkleberg.mmr

variable {Item Store σ μ : Type} {b : Profile}
  {R : MMRStoreReadOps Store Item σ} {W : MMRStoreWriteOps Store Item σ}

/-- The one leaf of the smallest forest is its own peak. -/
theorem Sections.of_single {parts : List Share} (hsections : Sections (peaks 1) [0] parts []) :
    parts = [((0, 0), some [])] := by
  have hpeaks : peaks 1 = [(0, 0)] := by decide
  rw [hpeaks] at hsections
  generalize hindices : [0] = indices at hsections
  cases hsections with
  | skip hafter tail =>
    have := hafter 0 (hindices ▸ List.mem_singleton_self 0)
    omega
  | take hne hunder hclimbs hpasses hafter tail =>
    cases tail
    rw [hclimbs.of_height_zero.2]

theorem eq_one_of_nodeCount {n : Nat} (hone : nodeCount n = 1) : n = 1 := by
  have hcount : nodeCount 1 = 1 := by decide
  exact nodeCount_strictMono.injective (hone.trans hcount.symm)

/-- Peak positions as the iterator collects them. -/
theorem collect_peaks {n mmr_size : Nat} (hle : nodeCount n ≤ mmr_size)
    (hnext : mmr_size < nodeCount (n + 1)) (hlt : mmr_size < 2 ^ 64) :
    ∃ iter, (PeaksIter.new b mmr_size : Outcome (Error σ μ) _) = ok iter ∧
      (collect (PeaksIter.next b) iter : Outcome (Error σ μ) _) =
        ok ((peaks n).map fun node => nodePos node.1 node.2) :=
  bind_eq_ok_iff.mp (PeaksIter.collect_eq hle hnext hlt)

theorem nodeCount_lt_succ (n : Nat) : nodeCount n < nodeCount (n + 1) :=
  nodeCount_strictMono (Nat.lt_succ_self n)

section Prover

variable {S : MapStore R W} {under : Nat → Option Item} {H : Hasher Item} {data : List Bytes}
  {self : MMR Item Store}

/-- Items of a proof: those of the front parts, and the peaks behind them bagged
    into one. -/
def proofItems (H : Hasher Item) (data : List Bytes) (front back : List Share) : List Item :=
  front.flatMap (partItems (nodeItem H data)) ++
    (bagPeaks H.merge_peaks (back.map fun part => nodeItem H data part.1.1 part.1.2)).toList

/-- Sorted and without repetition, leaf positions are those of ascending leaves. -/
theorem exists_leaf_indices {pos_list : List Nat} (hheights : ∀ p ∈ pos_list, nodeHeight p = 0) :
    ∃ indices : List Nat, indices.Pairwise (· < ·) ∧
      sortDedup id pos_list = indices.map nodeCount ∧
      ∀ p, p ∈ pos_list ↔ p ∈ indices.map nodeCount := by
  have hsorted := sortDedup_pairwise id pos_list
  have hmem : ∀ p ∈ sortDedup id pos_list, nodeHeight p = 0 := fun p hp =>
    hheights p (mem_of_mem_sortDedup hp)
  have hpositions : ((sortDedup id pos_list).map nodeIndex).map nodeCount = sortDedup id pos_list := by
    rw [List.map_map]
    refine (List.map_congr_left fun p hp => ?_).trans (List.map_id _)
    exact nodeCount_nodeIndex (hmem p hp)
  refine ⟨(sortDedup id pos_list).map nodeIndex, ?_, hpositions.symm, fun p => ?_⟩
  · have hmapped := List.pairwise_map.mp (hpositions ▸ hsorted)
    exact hmapped.imp nodeCount_lt_nodeCount_iff.mp
  · rw [hpositions]
    refine ⟨fun hp => ?_, mem_of_mem_sortDedup⟩
    obtain ⟨kept, hkept, heq⟩ := sortDedup_covers id hp
    rw [id_eq, id_eq] at heq
    exact heq ▸ hkept

/-- Except for the smallest tree, what the prover answers on leaf positions is
    made of the parts of their sections. -/
theorem MMR.Holds.gen_proof_sections {M : Merge Item μ} (hself : self.Holds S under H data)
    {pos_list : List Nat} (hne : pos_list ≠ []) (hwords : ∀ p ∈ pos_list, p < 2 ^ 64)
    (hheights : ∀ p ∈ pos_list, nodeHeight p = 0) (hlarge : ¬ (self.mmr_size = 1 ∧ pos_list = [0]))
    {indices left : List Nat} {parts : List Share}
    (hindices : sortDedup id pos_list = indices.map nodeCount)
    (hsections : Sections (peaks data.length) indices parts left) :
    (self.gen_proof b M R pos_list : Outcome (Error σ μ) _) =
      if left.map nodeCount ≠ [] then err .GenProofForInvalidLeaves
      else if trailingPeaks 0 parts > 1 then do
        let proof := parts.flatMap (partItems (nodeItem H data))
        let bagged ← orMergeError (bag_rhs_peaks M
          (proof.drop (proof.length - trailingPeaks 0 parts)))
        let bagged ← expect bagged
        ok { mmr_size := nodeCount data.length
             proof := proof.take (proof.length - trailingPeaks 0 parts) ++ [bagged] }
      else ok { mmr_size := nodeCount data.length
                proof := parts.flatMap (partItems (nodeItem H data)) } := by
  have hany : (pos_list.anyM (fun pos => do let height ← pos_height_in_tree b pos; ok (height > 0)) :
      Outcome (Error σ μ) Bool) = ok false := anyM_height_leaves id hwords hheights
  obtain ⟨iter, hiter, hcollect⟩ := collect_peaks (b := b) (σ := σ) (μ := μ)
    (Nat.le_refl _) (nodeCount_lt_succ _) hself.fits
  have hfold := hself.gen_proof_peaks (b := b) (μ := μ) (fun _ => nodePos_lt_of_peak) hsections [] 0
  rw [← hindices, List.nil_append] at hfold
  rw [MMR.gen_proof, if_neg hne, if_neg hlarge, hany, ok_bind, if_neg Bool.false_ne_true, hself.size,
    hiter, ok_bind, hcollect, ok_bind,
    show dedupByKey id (pos_list.insertionSort (· ≤ ·)) = sortDedup id pos_list from rfl, hfold]
  rfl

/-- Several peaks at the end of a proof are bagged into one item, and one or none
    is its own bag. -/
theorem bag_trailing (mmr_size : Nat) (items peaks : List Item) :
    (if peaks.length > 1 then do
        let proof := items ++ peaks
        let bagged ← orMergeError (bag_rhs_peaks (H.toMerge : Merge Item μ)
          (proof.drop (proof.length - peaks.length)))
        let bagged ← expect bagged
        ok { mmr_size, proof := proof.take (proof.length - peaks.length) ++ [bagged] }
      else ok { mmr_size, proof := items ++ peaks } : Outcome (Error σ μ) (InclusionProof Item)) =
      ok { mmr_size, proof := items ++ (bagPeaks H.merge_peaks peaks).toList } := by
  split
  · rename_i hmany
    have hne : peaks ≠ [] := by
      rintro rfl
      simp at hmany
    obtain ⟨bagged, hbagged⟩ := exists_bagPeaks H.merge_peaks hne
    simp [bag_rhs_peaks_eq, hbagged]
  · rename_i hfew
    cases peaks with
    | nil => rfl
    | cons peak peaks =>
      obtain rfl : peaks = [] := by
        rw [List.length_cons] at hfew
        exact List.length_eq_zero_iff.mp (by omega)
      rfl

/-- For leaf positions, the proof is the items of their sections unless some
    position is past the last leaf. -/
theorem MMR.Holds.gen_proof_eq (hself : self.Holds S under H data) {pos_list : List Nat}
    (hne : pos_list ≠ []) (hwords : ∀ p ∈ pos_list, p < 2 ^ 64)
    (hheights : ∀ p ∈ pos_list, nodeHeight p = 0) :
    ∃ indices parts left, indices.Pairwise (· < ·) ∧
      (∀ p, p ∈ pos_list ↔ p ∈ indices.map nodeCount) ∧
      Sections (peaks data.length) indices parts left ∧ (∀ k ∈ left, data.length ≤ k) ∧
      (left ≠ [] → (self.gen_proof b (H.toMerge : Merge Item μ) R pos_list :
        Outcome (Error σ μ) _) = err .GenProofForInvalidLeaves) ∧
      (left = [] → ∃ front back, parts = front ++ back ∧ (∀ part ∈ back, part.2 = none) ∧
        trailingPeaks 0 parts = back.length ∧
        (self.gen_proof b (H.toMerge : Merge Item μ) R pos_list : Outcome (Error σ μ) _) =
          ok { mmr_size := self.mmr_size, proof := proofItems H data front back }) := by
  have hsize := hself.size
  obtain ⟨indices, hsorted, hindices, hcover⟩ := exists_leaf_indices hheights
  obtain ⟨parts, left, hsections, _, hleft⟩ :=
    exists_sections (peaks_tile data.length) hsorted fun _ _ => Nat.zero_le _
  refine ⟨indices, parts, left, hsorted, hcover, hsections, hleft, ?_⟩
  by_cases hspecial : self.mmr_size = 1 ∧ pos_list = [0]
  · -- The single leaf of the smallest tree needs no items.
    have hone := eq_one_of_nodeCount (hsize.symm.trans hspecial.1)
    have hsingle : indices = [0] := by
      have hmap : indices.map nodeCount = [nodeCount 0] := by
        rw [← hindices, hspecial.2]
        rfl
      exact List.map_injective_iff.mpr nodeCount_strictMono.injective hmap
    have hdone : (self.gen_proof b (H.toMerge : Merge Item μ) R pos_list :
        Outcome (Error σ μ) _) = ok { mmr_size := self.mmr_size, proof := [] } := by
      rw [MMR.gen_proof, if_neg hne, if_pos hspecial]
    rw [hsingle, hone] at hsections
    have hnil : left = [] := by
      rw [List.eq_nil_iff_forall_not_mem]
      intro k hk
      have := hleft k hk
      have := hsections.mem_of_mem_left hk
      simp at this
      omega
    rw [hnil] at hsections
    obtain rfl := Sections.of_single hsections
    exact ⟨fun hleft => absurd hnil hleft, fun _ => ⟨_, [], (List.append_nil _).symm, by simp, rfl, hdone⟩⟩
  · have hgen := hself.gen_proof_sections (M := (H.toMerge : Merge Item μ)) (b := b) hne hwords hheights
      hspecial hindices hsections
    rw [← hsize] at hgen
    refine ⟨fun hne => ?_, fun hnil => ?_⟩
    · rw [hgen, if_pos (by simpa using hne)]
    · obtain ⟨front, back, rfl, hback, hcount⟩ := exists_front_back parts
      refine ⟨front, back, rfl, hback, hcount, ?_⟩
      have hbag := bag_trailing (σ := σ) (μ := μ) (H := H) self.mmr_size
        (front.flatMap (partItems (nodeItem H data)))
        (back.map fun part => nodeItem H data part.1.1 part.1.2)
      rw [List.length_map] at hbag
      rw [hgen, if_neg (by simpa using hnil), hcount, List.flatMap_append,
        flatMap_partItems_of_none (nodeItem H data) hback, proofItems]
      exact hbag

/-- A list of leaf positions of the log has the proof that its sections give. -/
theorem MMR.Holds.gen_proof_leaves (hself : self.Holds S under H data) {pos_list : List Nat}
    (hne : pos_list ≠ []) (hleaves : ∀ p ∈ pos_list, ∃ i < data.length, nodeCount i = p) :
    ∃ indices front back, indices.Pairwise (· < ·) ∧
      (∀ p, p ∈ pos_list ↔ p ∈ indices.map nodeCount) ∧
      Sections (peaks data.length) indices (front ++ back) [] ∧ (∀ part ∈ back, part.2 = none) ∧
      trailingPeaks 0 (front ++ back) = back.length ∧
      (self.gen_proof b (H.toMerge : Merge Item μ) R pos_list : Outcome (Error σ μ) _) =
        ok { mmr_size := self.mmr_size, proof := proofItems H data front back } := by
  have hinside : ∀ p ∈ pos_list, nodeHeight p = 0 ∧ p < nodeCount data.length := by
    intro p hp
    obtain ⟨i, hi, rfl⟩ := hleaves p hp
    exact ⟨nodeHeight_nodeCount i, nodeCount_lt_nodeCount_iff.mpr hi⟩
  obtain ⟨indices, parts, left, hsorted, hcover, hsections, hleft, _, hproof⟩ :=
    hself.gen_proof_eq (b := b) (μ := μ) hne (fun p hp => (hinside p hp).2.trans hself.fits)
      fun p hp => (hinside p hp).1
  have hnil : left = [] := by
    rw [List.eq_nil_iff_forall_not_mem]
    intro k hk
    have hpast := hleft k hk
    have hmem := (hcover (nodeCount k)).mpr (List.mem_map_of_mem (hsections.mem_of_mem_left hk))
    have := nodeCount_lt_nodeCount_iff.mp (hinside _ hmem).2
    omega
  obtain ⟨front, back, hparts, hback, hcount, hgen⟩ := hproof hnil
  rw [hnil, hparts] at hsections
  exact ⟨indices, front, back, hsorted, hcover, hsections, hback, hparts ▸ hcount, hgen⟩

end Prover

section Verifier

variable {H : Hasher Item}

/-- The verifier does not take nodes over leaves. -/
theorem calculate_peaks_hashes_inner {M : Merge Item μ} {mmr_size : Nat} {pairs : List (Nat × Item)}
    (hwords : ∀ pair ∈ pairs, pair.1 < 2 ^ 64) (hinner : ¬ ∀ pair ∈ pairs, nodeHeight pair.1 = 0)
    (items : List Item) :
    (calculate_peaks_hashes b M pairs mmr_size items : Outcome (Error σ μ) _) =
      err .NodeProofsNotSupported := by
  rw [calculate_peaks_hashes, anyM_height_inner _ hwords hinner, ok_bind, if_pos rfl]

/-- The pair that the shortcut for the smallest tree takes. -/
theorem single_of_special {mmr_size : Nat} {pairs : List (Nat × Item)}
    (hspecial : mmr_size = 1 ∧ pairs.length = 1 ∧ pairs.head?.map (·.1) = some 0) :
    mmr_size = 1 ∧ ∃ item, pairs = [(0, item)] := by
  obtain ⟨hone, hlength, hhead⟩ := hspecial
  obtain ⟨⟨pos, item⟩, rfl⟩ := List.length_eq_one_iff.mp hlength
  obtain rfl : pos = 0 := by simpa using hhead
  exact ⟨hone, item, rfl⟩

/-- One pair for the smallest tree is taken as it is. -/
theorem calculate_peaks_hashes_single {M : Merge Item μ} (item : Item) (items : List Item) :
    (calculate_peaks_hashes b M [(0, item)] 1 items : Outcome (Error σ μ) _) = ok [item] := by
  have hheight : (pos_height_in_tree b 0 : Outcome (Error σ μ) Nat) = ok 0 := rfl
  simp [calculate_peaks_hashes, List.anyM, hheight]

/-- In any other case the verifier loops over the peaks of the forest that the
    size belongs to, with the leaves sorted. -/
theorem calculate_peaks_hashes_loop {M : Merge Item μ} {n mmr_size : Nat} (hle : nodeCount n ≤ mmr_size)
    (hnext : mmr_size < nodeCount (n + 1)) (hlt : mmr_size < 2 ^ 64) {pairs : List (Nat × Item)}
    (hwords : ∀ pair ∈ pairs, pair.1 < 2 ^ 64) (hheights : ∀ pair ∈ pairs, nodeHeight pair.1 = 0)
    (hspecial : ¬ (mmr_size = 1 ∧ pairs.length = 1 ∧ pairs.head?.map (·.1) = some 0))
    {leaves : List (Nat × Item)} (hsorted : sortDedup (·.1) pairs = leaves.map leafEntry)
    (items : List Item) :
    (calculate_peaks_hashes b M pairs mmr_size items : Outcome (Error σ μ) _) = (do
      let (leaves, proof_iter, peaks_hashes) ← calculate_peaks_hashes.peaks b M
        ((peaks n).map fun node => nodePos node.1 node.2) (leaves.map leafEntry) items []
      if leaves ≠ [] then err .CorruptedProof
      else if proof_iter.length ≤ 1 then ok (peaks_hashes ++ proof_iter)
      else err .CorruptedProof) := by
  obtain ⟨iter, len, hiter, hlen, hsmall⟩ := PeaksIter.len_new (ε := Error σ μ) (b := b) hlt
  obtain ⟨iter', hiter', hcollect⟩ := collect_peaks (b := b) (σ := σ) (μ := μ) hle hnext hlt
  rw [hiter, ok.injEq] at hiter'
  subst hiter'
  have hcapacity : (U64.add b len 1 : Outcome (Error σ μ) Nat) = ok (len + 1) :=
    Word.add_ok (by omega)
  rw [calculate_peaks_hashes, anyM_height_leaves _ hwords hheights, ok_bind, if_neg Bool.false_ne_true,
    if_neg hspecial, hiter,
    ok_bind, hlen, ok_bind, hcapacity, ok_bind, hcollect, ok_bind,
    show dedupByKey (·.1) (pairs.insertionSort (·.1 ≤ ·.1)) = sortDedup (·.1) pairs from rfl, hsorted]
  apply bind_congr_of_ok
  rintro ⟨left, rest, roots⟩ _
  rcases rest with _ | ⟨extra, _ | ⟨next, rest⟩⟩ <;> simp

/-- For the smallest tree the sections are its one leaf. -/
theorem sections_of_special {n : Nat} {pairs leaves : List (Nat × Item)} {indices : List Nat}
    {front back : List Share}
    (hspecial : nodeCount n = 1 ∧ pairs.length = 1 ∧ pairs.head?.map (·.1) = some 0)
    (hsorted : sortDedup (·.1) pairs = leaves.map leafEntry) (hindices : leaves.map (·.1) = indices)
    (hsections : Sections (peaks n) indices (front ++ back) []) (hback : ∀ part ∈ back, part.2 = none) :
    nodeCount n = 1 ∧ ∃ item, pairs = [(0, item)] ∧ leaves = [(0, item)] ∧
      front = [((0, 0), some [])] ∧ back = [] := by
  obtain ⟨hone, item, rfl⟩ := single_of_special hspecial
  have hsort : sortDedup (·.1) [(0, item)] = [(0, item)] := rfl
  rw [hsort] at hsorted
  obtain ⟨⟨k, item'⟩, rfl, hleaf⟩ := List.map_eq_singleton_iff.mp hsorted.symm
  rw [leafEntry, Prod.mk.injEq] at hleaf
  obtain ⟨hzero, rfl⟩ := hleaf
  obtain rfl : k = 0 := by
    have := le_nodeCount k
    simp only at hzero
    omega
  rw [eq_one_of_nodeCount hone, ← hindices] at hsections
  have hparts := Sections.of_single hsections
  refine ⟨hone, item', rfl, rfl, ?_⟩
  -- The part with the leaf is not behind the front.
  cases front with
  | nil =>
    rw [List.nil_append] at hparts
    have := hback _ (hparts ▸ List.mem_singleton_self _)
    simp at this
  | cons part front => simpa [and_assoc] using hparts

/-- The verifier's hashes on the values of a tree: the peaks of the front parts and
    the items behind theirs. -/
theorem calculate_peaks_hashes_values {n : Nat} (hfits : nodeCount n < 2 ^ 64)
    {value : Nat → Nat → Item} {indices : List Nat} {parts front back : List Share}
    (hsections : Sections (peaks n) indices parts [])
    (hvalue : ParentsMerged H.merge value (peaks n) indices)
    (hparts : parts = front ++ back) (hback : ∀ part ∈ back, part.2 = none)
    {pairs : List (Nat × Item)} (hwords : ∀ pair ∈ pairs, pair.1 < 2 ^ 64)
    (hheights : ∀ pair ∈ pairs, nodeHeight pair.1 = 0)
    (hpairs : sortDedup (·.1) pairs = (indices.map fun k => (k, value 0 k)).map leafEntry)
    {rest : List Item} (hrest : rest.drop back.length = []) :
    (calculate_peaks_hashes b (H.toMerge : Merge Item μ) pairs (nodeCount n)
      (front.flatMap (partItems value) ++ rest) : Outcome (Error σ μ) _) =
      ok ((front.map fun part => value part.1.1 part.1.2) ++ rest.take back.length) := by
  have hindices : (indices.map fun k => (k, value 0 k)).map (·.1) = indices := by
    rw [List.map_map]
    exact List.map_id indices
  by_cases hspecial : nodeCount n = 1 ∧ pairs.length = 1 ∧ pairs.head?.map (·.1) = some 0
  · subst hparts
    obtain ⟨hone, item, rfl, hleaf, rfl, rfl⟩ := sections_of_special hspecial hpairs hindices hsections hback
    obtain ⟨k, rfl, hk⟩ := List.map_eq_singleton_iff.mp hleaf
    rw [hone, calculate_peaks_hashes_single, ← (Prod.mk.inj hk).2, (Prod.mk.inj hk).1]
    simp
  · have hfit : ∀ node ∈ peaks n, nodePos node.1 node.2 < 2 ^ 64 := fun node hnode =>
      (nodePos_lt_of_peak hnode).trans hfits
    have hpeaks := peaks_values (b := b) (σ := σ) (μ := μ) hsections hvalue hfit hparts hback rest []
    rw [calculate_peaks_hashes_loop (Nat.le_refl _) (nodeCount_lt_succ _) hfits hwords
      hheights hspecial hpairs, hpeaks, ok_bind, hrest]
    simp

/-- The verifier's root on the values of a tree is what these hashes bag to. -/
theorem calculate_root_values {n : Nat} (hfits : nodeCount n < 2 ^ 64)
    {value : Nat → Nat → Item} {indices : List Nat} {parts front back : List Share}
    (hsections : Sections (peaks n) indices parts [])
    (hvalue : ParentsMerged H.merge value (peaks n) indices)
    (hparts : parts = front ++ back) (hback : ∀ part ∈ back, part.2 = none)
    {pairs : List (Nat × Item)} (hwords : ∀ pair ∈ pairs, pair.1 < 2 ^ 64)
    (hheights : ∀ pair ∈ pairs, nodeHeight pair.1 = 0)
    (hpairs : sortDedup (·.1) pairs = (indices.map fun k => (k, value 0 k)).map leafEntry)
    {rest : List Item} (hrest : rest.drop back.length = []) {root : Item}
    (hroot : bagPeaks H.merge_peaks
      ((front.map fun part => value part.1.1 part.1.2) ++ rest.take back.length) = some root) :
    (calculate_root b (H.toMerge : Merge Item μ) pairs (nodeCount n)
      (front.flatMap (partItems value) ++ rest) : Outcome (Error σ μ) Item) = ok root := by
  rw [calculate_root, calculate_peaks_hashes_values hfits hsections hvalue hparts hback hwords hheights
    hpairs hrest, ok_bind, bagging_peaks_hashes, bag_rhs_peaks_eq, hroot]
  rfl

end Verifier

section Complete

variable {S : MapStore R W} {under : Nat → Option Item} {H : Hasher Item} {data : List Bytes}
  {self : MMR Item Store}

theorem nodeItem_succ (H : Hasher Item) (data : List Bytes) (h k : Nat) :
    nodeItem H data (h + 1) k =
      H.merge (nodeItem H data h (2 * k)) (nodeItem H data h (2 * k + 1)) := by
  simp only [nodeItem, elemAt, valueAt_nodePos, treeRoot_succ]

/-- A list without entries, or with an entry that is not the position of a leaf of
    the log, has no proof. -/
theorem MMR.Holds.gen_proof_err (hself : self.Holds S under H data) {pos_list : List Nat}
    (hwords : ∀ p ∈ pos_list, p < 2 ^ 64)
    (hinvalid : ¬ (pos_list ≠ [] ∧ ∀ p ∈ pos_list, ∃ i < data.length, nodeCount i = p)) :
    ∃ error, (self.gen_proof b (H.toMerge : Merge Item μ) R pos_list : Outcome (Error σ μ) _) =
      err error := by
  by_cases hne : pos_list = []
  · exact ⟨_, by rw [MMR.gen_proof, if_pos hne]⟩
  · by_cases hheights : ∀ p ∈ pos_list, nodeHeight p = 0
    · obtain ⟨indices, parts, left, _, hcover, hsections, hleft, herr, _⟩ :=
        hself.gen_proof_eq (b := b) (μ := μ) hne hwords hheights
      refine ⟨_, herr fun hnil => hinvalid ⟨hne, fun p hp => ?_⟩⟩
      obtain ⟨k, hk, rfl⟩ := List.mem_map.mp ((hcover p).mp hp)
      rcases hsections.lt_of_mem hk with hmem | hlt
      · rw [hnil] at hmem
        simp at hmem
      · exact ⟨k, hlt, rfl⟩
    · have hspecial : ¬ (self.mmr_size = 1 ∧ pos_list = [0]) := by
        rintro ⟨_, rfl⟩
        apply hheights
        simpa using nodeHeight_nodePos 0 0
      have hheight := anyM_height_inner (σ := σ) (μ := μ) (b := b) id hwords hheights
      simp only [id_eq] at hheight
      exact ⟨.NodeProofsNotSupported, by
        rw [MMR.gen_proof, if_neg hne, if_neg hspecial, hheight, ok_bind, if_pos rfl]⟩

/-- For leaf positions of the log there is a proof, and it verifies. -/
theorem MMR.Holds.gen_proof_verifies [DecidableEq Item] (hself : self.Holds S under H data)
    {pos_list : List Nat} (hne : pos_list ≠ [])
    (hleaves : ∀ p ∈ pos_list, ∃ i < data.length, nodeCount i = p) :
    ∃ proof root, (self.gen_proof b (H.toMerge : Merge Item μ) R pos_list :
        Outcome (Error σ μ) _) = ok proof ∧
      (self.get_root b (H.toMerge : Merge Item μ) R : Outcome (Error σ μ) Item) = ok root ∧
      ∀ pairs : List (Nat × Item), (∀ pair ∈ pairs, pair.2 = elemAt H data pair.1) →
        (∀ p, p ∈ pairs.map (·.1) ↔ p ∈ pos_list) →
        (proof.verify b (H.toMerge : Merge Item μ) root pairs : Outcome (Error σ μ) Bool) =
          ok true := by
  have hinside : ∀ p ∈ pos_list, nodeHeight p = 0 ∧ p < nodeCount data.length := by
    intro p hp
    obtain ⟨i, hi, rfl⟩ := hleaves p hp
    exact ⟨nodeHeight_nodeCount i, nodeCount_lt_nodeCount_iff.mpr hi⟩
  have hn : 0 < data.length := by
    obtain ⟨p, hp⟩ := List.exists_mem_of_ne_nil _ hne
    obtain ⟨i, hi, _⟩ := hleaves p hp
    omega
  obtain ⟨indices, front, back, hsorted, hcover, hsections, hback, _, hgen⟩ :=
    hself.gen_proof_leaves (b := b) (μ := μ) hne hleaves
  obtain ⟨root, hget, hroot⟩ := hself.get_root (b := b) (μ := μ) hn
  refine ⟨_, root, hgen, hget, fun pairs hitems hsame => ?_⟩
  have hmem : ∀ pair ∈ pairs, pair.1 ∈ pos_list := fun pair hpair =>
    (hsame pair.1).mp (List.mem_map_of_mem hpair)
  have hpairs := sortDedup_pairs_eq hitems hsorted fun p => (hsame p).trans (hcover p)
  -- The peaks behind the front are one item, and bagging it is bagging them.
  have hvalues : peakItems H data = (front.map fun part => nodeItem H data part.1.1 part.1.2) ++
      back.map fun part => nodeItem H data part.1.1 part.1.2 := by
    rw [← List.map_append, peakItems_eq_parts H hsections]
  rw [hvalues] at hroot
  have hrest : ((bagPeaks H.merge_peaks
      (back.map fun part => nodeItem H data part.1.1 part.1.2)).toList.drop back.length = []) ∧
      bagPeaks H.merge_peaks ((front.map fun part => nodeItem H data part.1.1 part.1.2) ++
        (bagPeaks H.merge_peaks (back.map fun part => nodeItem H data part.1.1 part.1.2)).toList.take
          back.length) = some root := by
    cases back with
    | nil => simpa using hroot
    | cons part back =>
      have hne : (part :: back).map (fun part => nodeItem H data part.1.1 part.1.2) ≠ [] := by simp
      obtain ⟨bagged, hbagged⟩ := exists_bagPeaks H.merge_peaks hne
      rw [bagPeaks_append hbagged] at hroot
      rw [hbagged]
      simpa using hroot
  have hcalculate := calculate_root_values (b := b) (σ := σ) (μ := μ) hself.fits hsections
    (fun h k _ _ => nodeItem_succ H data h k) rfl hback
    (fun pair hpair => (hinside _ (hmem pair hpair)).2.trans hself.fits)
    (fun pair hpair => (hinside _ (hmem pair hpair)).1)
    (hpairs.trans (by simp [nodeItem])) hrest.1 hrest.2
  simp only [InclusionProof.verify, InclusionProof.calculate_root, proofItems, hself.size, hcalculate,
    ok_bind, decide_true]

/-- Pairs that are read at leaf positions of a tree have the elements of its log. -/
theorem MMR.Holds.items_of_read (hself : self.Holds S under H data) {pos_list : List Nat}
    (hleaves : ∀ p ∈ pos_list, ∃ i < data.length, nodeCount i = p) {pairs : List (Nat × Item)}
    (hsame : ∀ p, p ∈ pairs.map (·.1) ↔ p ∈ pos_list)
    (hitems : ∀ pair ∈ pairs, self.batch.get_elem b R pair.1 = ok (some pair.2)) :
    ∀ pair ∈ pairs, pair.2 = elemAt H data pair.1 := by
  intro pair hpair
  obtain ⟨i, hi, hp⟩ := hleaves pair.1 ((hsame pair.1).mp (List.mem_map_of_mem hpair))
  have hread := hitems pair hpair
  rw [hself.get_elem_eq (hp ▸ nodeCount_lt_nodeCount_iff.mpr hi), ok.injEq, Option.some.injEq] at hread
  exact hread.symm

/-- Inclusion proofs are complete: a proof is made exactly for the non-empty lists
    of leaf positions, and it verifies for the stored elements at these
    positions, in whatever order and however often they are given. -/
theorem MMR.Run.inclusion_proofs_complete [DecidableEq Item] (S : MapStore R W) {store : Store}
    {positions : List Nat} {final : MMR Item Store}
    (run : MMR.Run b (H.toMerge : Merge Item μ) R W (MMR.new 0 store) data positions final)
    (hbound : data.length < 2 ^ 62) {pos_list : List Nat} (hwords : ∀ p ∈ pos_list, p < 2 ^ 64) :
    ((pos_list ≠ [] ∧ ∀ p ∈ pos_list, ∃ i < data.length,
        (leaf_index_to_pos b i : Outcome Empty Nat) = ok p) →
      ∃ proof root, (final.gen_proof b (H.toMerge : Merge Item μ) R pos_list :
          Outcome (Error σ μ) _) = ok proof ∧
        (final.get_root b (H.toMerge : Merge Item μ) R : Outcome (Error σ μ) Item) = ok root ∧
        ∀ pairs : List (Nat × Item),
          (∀ pair ∈ pairs, final.batch.get_elem b R pair.1 = ok (some pair.2)) →
          (∀ p, p ∈ pairs.map (·.1) ↔ p ∈ pos_list) →
          (proof.verify b (H.toMerge : Merge Item μ) root pairs : Outcome (Error σ μ) Bool) =
            ok true) ∧
    (¬ (pos_list ≠ [] ∧ ∀ p ∈ pos_list, ∃ i < data.length,
        (leaf_index_to_pos b i : Outcome Empty Nat) = ok p) →
      ∃ error, (final.gen_proof b (H.toMerge : Merge Item μ) R pos_list :
        Outcome (Error σ μ) _) = err error) := by
  obtain ⟨hfinal, _⟩ := run.holds S fun _ => by omega
  have hleaf (p : Nat) : (∃ i < data.length, (leaf_index_to_pos b i : Outcome Empty Nat) = ok p) ↔
      ∃ i < data.length, nodeCount i = p := by
    refine exists_congr fun i => and_congr_right fun hi => ?_
    rw [leaf_index_to_pos_eq (by omega), ok.injEq]
  simp only [hleaf]
  refine ⟨?_, hfinal.gen_proof_err hwords⟩
  rintro ⟨hne, hleaves⟩
  obtain ⟨proof, root, hgen, hget, hverify⟩ := hfinal.gen_proof_verifies (b := b) (μ := μ) hne hleaves
  refine ⟨proof, root, hgen, hget, fun pairs hitems hsame => ?_⟩
  exact hverify pairs (hfinal.items_of_read hleaves hsame hitems) hsame

end Complete

/-- Three leaves in memory, with a proof for the first and the last of them. -/
theorem MMR.Run.inclusion_proofs_complete_three :
    ∃ final proof root,
      MMR.SymbolicRun .debug [[1], [2], [3]] [0, 1, 3] final ∧
      (final.gen_proof .debug (Term.hasher.toMerge : Merge (Term Empty) Empty) MemStore.readOps [3, 0, 3] :
        Outcome (Error Empty Empty) _) = ok proof ∧
      (proof.verify .debug (Term.hasher.toMerge : Merge (Term Empty) Empty) root
        [(0, .leaf [1]), (3, .leaf [3])] : Outcome (Error Empty Empty) Bool) = ok true := by
  have start : MMR.SymbolicRun .debug [] [] (MMR.new 0 MemStore.new) := .refl
  have run := ((start.push (d := [1]) rfl).push (d := [2]) rfl).push (d := [3]) rfl
  have hwords : ∀ p ∈ [3, 0, 3], p < 2 ^ 64 := by decide
  obtain ⟨proof, root, hgen, _, hverify⟩ := (MMR.Run.inclusion_proofs_complete
    (MemStore.mapStore .debug) run (by decide) hwords).1 ⟨by decide, by
      intro p hp
      obtain rfl | rfl | rfl : p = 3 ∨ p = 0 ∨ p = 3 := by simpa using hp
      · exact ⟨2, by decide, rfl⟩
      · exact ⟨0, by decide, rfl⟩
      · exact ⟨2, by decide, rfl⟩⟩
  refine ⟨_, proof, root, run, hgen, hverify _ ?_ ?_⟩
  · intro pair hpair
    obtain rfl | rfl : pair = (0, .leaf [1]) ∨ pair = (3, .leaf [3]) := by simpa using hpair
    · rfl
    · rfl
  · intro p
    simp only [List.map_cons, List.map_nil, List.mem_cons, List.not_mem_nil, or_false]
    omega

end merkleberg.mmr
