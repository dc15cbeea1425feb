import Merkleberg.Mmr.Incremental
import Merkleberg.Mmr.Total

open machine machine.Outcome
open forest
open merkleberg.helper

namespace merkleberg.mmr

variable {Item Store σ μ : Type} {b : Profile}
  {R : MMRStoreReadOps Store Item σ} {W : MMRStoreWriteOps Store Item σ}

/-- How many mountains of a forest over `n` leaves begin behind the last of some
    leaf positions. -/
def mountainsAfter (n : Nat) (pos_list : List Nat) : Nat :=
  (peaks n).countP fun node => pos_list.all (· < nodeCount (2 ^ node.1 * node.2))

/-- A mountain that begins at or before some leaf is not counted. -/
theorem countP_after_cons {h m k : Nat} {leaves : List Nat} (hk : k ∈ leaves) (hle : 2 ^ h * m ≤ k)
    (nodes : List (Nat × Nat)) :
    (((h, m) :: nodes).countP fun node => leaves.all (· < 2 ^ node.1 * node.2)) =
      nodes.countP fun node => leaves.all (· < 2 ^ node.1 * node.2) := by
  apply List.countP_cons_of_neg
  rw [List.all_eq_true]
  intro hall
  exact absurd (of_decide_eq_true (hall k hk)) (Nat.not_lt.mpr hle)

/-- Peaks at the end that no leaf asks for are those whose mountains begin behind
    the last leaf. -/
theorem trailingPeaks_eq {start stop count : Nat} {nodes : List (Nat × Nat)} {leaves left : List Nat}
    {parts : List Share} (htiles : Tiles start nodes stop) (hsections : Sections nodes leaves parts left)
    (hleft : left = []) :
    trailingPeaks count parts =
      if leaves = [] then count + nodes.length
      else nodes.countP fun node => leaves.all (· < 2 ^ node.1 * node.2) := by
  induction hsections generalizing start count with
  | nil left => simp [trailingPeaks, hleft]
  | @skip h m nodes leaves left parts hafter tail ih =>
    cases htiles with
    | cons htiles =>
      have hstep : trailingPeaks count (((h, m), none) :: parts) = trailingPeaks (count + 1) parts := rfl
      rw [hstep, ih htiles hleft, List.length_cons]
      split
      · omega
      · -- Some leaf lies behind this mountain.
        rename_i hne
        obtain ⟨k, hk⟩ := List.exists_mem_of_ne_nil _ hne
        have hpast := (Nat.mul_le_mul_left (2 ^ h) (Nat.le_succ m)).trans (hafter k hk)
        rw [countP_after_cons hk hpast]
  | @take h m passes nodes requests group leaves left parts hne hunder hclimbs hpasses hafter tail ih =>
    cases htiles with
    | cons htiles =>
      have hstep : trailingPeaks count (((h, m), some requests) :: parts) = trailingPeaks 0 parts := rfl
      obtain ⟨k, hk⟩ := List.exists_mem_of_ne_nil _ hne
      have hown := (under_zero_iff.mp (hunder k hk)).1
      -- The leaves taken lie before the later mountains.
      have hlater : (nodes.countP fun node => (group ++ leaves).all (· < 2 ^ node.1 * node.2)) =
          nodes.countP fun node => leaves.all (· < 2 ^ node.1 * node.2) := by
        refine List.countP_congr fun node hnode => ?_
        have hgroup : (group.all fun k => decide (k < 2 ^ node.1 * node.2)) = true := by
          rw [List.all_eq_true]
          intro k hk
          have hlt := (under_zero_iff.mp (hunder k hk)).2
          exact decide_eq_true (hlt.trans_le (htiles.le_start node hnode))
        rw [List.all_append, hgroup, Bool.true_and]
      rw [hstep, ih htiles hleft, if_neg fun hnil => hne (List.append_eq_nil_iff.mp hnil).1,
        countP_after_cons (List.mem_append_left _ hk) hown, hlater]
      split
      · rename_i hnil
        rw [hnil]
        simp
      · rfl

/-- The peaks that a proof for some leaves bags are those whose mountains begin
    behind them. -/
theorem trailingPeaks_eq_mountainsAfter {n : Nat} {pos_list indices : List Nat} {parts : List Share}
    (hne : pos_list ≠ []) (hcover : ∀ p, p ∈ pos_list ↔ p ∈ indices.map nodeCount)
    (hsections : Sections (peaks n) indices parts []) :
    trailingPeaks 0 parts = mountainsAfter n pos_list := by
  have hsome : indices ≠ [] := by
    rintro rfl
    obtain ⟨p, hp⟩ := List.exists_mem_of_ne_nil _ hne
    simpa using (hcover p).mp hp
  rw [trailingPeaks_eq (peaks_tile n) hsections rfl, if_neg hsome, mountainsAfter]
  refine List.countP_congr fun node _ => ?_
  simp only [List.all_eq_true, decide_eq_true_eq]
  constructor
  · intro hall p hp
    obtain ⟨k, hk, rfl⟩ := List.mem_map.mp ((hcover p).mp hp)
    exact nodeCount_lt_nodeCount_iff.mpr (hall k hk)
  · intro hall k hk
    exact nodeCount_lt_nodeCount_iff.mp (hall _ ((hcover _).mpr (List.mem_map_of_mem hk)))

/-- Where at most one peak is bagged, a proof is the items of all parts. -/
theorem proofItems_of_few (H : Hasher Item) (data : List Bytes) (front : List Share) {back : List Share}
    (hback : ∀ part ∈ back, part.2 = none) (hfew : back.length ≤ 1) :
    proofItems H data front back = (front ++ back).flatMap (partItems (nodeItem H data)) := by
  rw [proofItems, List.flatMap_append, flatMap_partItems_of_none _ hback]
  rcases back with _ | ⟨part, _ | ⟨next, back⟩⟩
  · rfl
  · rfl
  · simp at hfew

/-- What a proof is made of stays as it is when the tree grows. -/
theorem items_append (H : Hasher Item) {data : List Bytes} (more : List Bytes) {indices left : List Nat}
    {parts : List Share} (hsections : Sections (peaks data.length) indices parts left) :
    parts.flatMap (partItems (nodeItem H (data ++ more))) =
      parts.flatMap (partItems (nodeItem H data)) := by
  rw [flatMap_partItems (nodeItem H (data ++ more)), flatMap_partItems (nodeItem H data)]
  refine List.map_congr_left fun item hitem => ?_
  obtain ⟨node, hnode, hunder⟩ := hsections.items_under item hitem
  exact elemAt_append more (hunder.nodePos_le.trans_lt (nodePos_lt_of_peak hnode))

/-- Pairs that cover leaves of a forest are at leaf positions in it. -/
theorem pairs_inside {n : Nat} {indices : List Nat} {parts : List Share}
    (hsections : Sections (peaks n) indices parts []) {pairs : List (Nat × Item)}
    (hcover : ∀ p, p ∈ pairs.map (·.1) ↔ p ∈ indices.map nodeCount) :
    ∀ pair ∈ pairs, nodeHeight pair.1 = 0 ∧ pair.1 < nodeCount n := by
  intro pair hpair
  obtain ⟨k, hk, hpos⟩ := List.mem_map.mp ((hcover pair.1).mp (List.mem_map_of_mem hpair))
  rw [← hpos]
  refine ⟨nodeHeight_nodeCount k, nodeCount_lt_nodeCount_iff.mpr ?_⟩
  exact (hsections.lt_of_mem hk).resolve_left (List.not_mem_nil)

namespace InclusionProof

/-- The search stops at the first peak that does not lie before the new leaf. -/
theorem calculate_root_with_new_leaf.find_eq {new_pos i peak_pos : Nat} {before after : List Nat}
    (hbefore : ∀ p ∈ before, p < new_pos) (hle : new_pos ≤ peak_pos) :
    (calculate_root_with_new_leaf.find new_pos i (before ++ peak_pos :: after) :
      Outcome (Error σ μ) Nat) = ok (i + before.length) := by
  induction before generalizing i with
  | nil => rw [List.nil_append, find, if_neg (Nat.not_lt.mpr hle), List.length_nil, Nat.add_zero]
  | cons p before ih =>
    obtain ⟨hp, hrest⟩ := List.forall_mem_cons.mp hbefore
    rw [List.cons_append, find, if_pos hp, ih hrest, List.length_cons]
    congr 1
    omega

/-- For the leaf that is pushed next, the verifier chooses by whether it merges
    with the last peak. If so, the peak hashes behind those that stay are siblings
    of the leaf, smallest first. -/
theorem calculate_root_with_new_leaf_eq {M : Merge Item μ} {n h : Nat} (hfits : nodeCount (n + 1) < 2 ^ 64)
    {common olds : List (Nat × Nat)} {parts : List Share}
    (hgrowth : Growth n (n + 1) common olds [(h, n / 2 ^ h)] parts) (proof : InclusionProof Item)
    (pairs : List (Nat × Item)) (new_elem : Item) :
    (proof.calculate_root_with_new_leaf b M pairs (nodeCount n) new_elem (nodeCount (n + 1)) :
      Outcome (Error σ μ) Item) =
      if n % 2 = 1 then (do
        let peaks_hashes ← calculate_peaks_hashes b M pairs proof.mmr_size proof.proof
        let peaks_hashes ← reverseFrom peaks_hashes common.length
        mmr.calculate_root b M [(nodeCount n, new_elem)] (nodeCount (n + 1)) peaks_hashes)
      else mmr.calculate_root b M (pairs ++ [(nodeCount n, new_elem)]) (nodeCount (n + 1)) proof.proof := by
  have hnext := nodeCount_lt_succ n
  have hheight : (pos_height_in_tree b (nodeCount n) : Outcome (Error σ μ) Nat) = ok 0 := by
    rw [pos_height_in_tree_eq (by omega), nodeHeight_nodeCount]
  have hafter : (U64.add b (nodeCount n) 1 : Outcome (Error σ μ) Nat) = ok (nodeCount n + 1) :=
    Word.add_ok (by omega)
  have hnext_height : (pos_height_in_tree b (nodeCount n + 1) : Outcome (Error σ μ) Nat) =
      ok (if n % 2 = 1 then 1 else 0) := by
    rw [pos_height_in_tree_eq (by omega), ← nodePos_zero, nodeHeight_nodePos_succ]
  obtain ⟨iter, hiter, hcollect⟩ := collect_peaks (b := b) (σ := σ) (μ := μ) (Nat.le_refl _)
    (nodeCount_lt_succ (n + 1)) hfits
  have hbefore : ∀ p ∈ common.map fun node => nodePos node.1 node.2, p < nodeCount n := by
    intro p hp
    obtain ⟨node, hnode, rfl⟩ := List.mem_map.mp hp
    exact nodePos_lt_of_peak (hgrowth.old ▸ List.mem_append_left _ hnode)
  have hle : nodeCount n ≤ nodePos h (n / 2 ^ h) :=
    nodeCount_le_nodePos_iff.mpr (Nat.lt_mul_div_succ n (Nat.two_pow_pos h))
  have hfind : (calculate_root_with_new_leaf.find (nodeCount n) 0
      ((common.map fun node => nodePos node.1 node.2) ++ [nodePos h (n / 2 ^ h)]) :
        Outcome (Error σ μ) Nat) = ok common.length := by
    rw [calculate_root_with_new_leaf.find_eq hbefore hle, List.length_map, Nat.zero_add]
  rw [hgrowth.new, List.map_append, List.map_singleton] at hcollect
  simp only [calculate_root_with_new_leaf, hheight, hafter, hnext_height, ok_bind]
  split
  · simp only [Nat.lt_one_iff, if_true, hiter, hcollect, hfind, ok_bind]
  · simp only [Nat.lt_irrefl, if_false]

section Extend

variable {H : Hasher Item} {data : List Bytes} {d : Bytes} {indices : List Nat} {front back : List Share}
  {pairs : List (Nat × Item)} {root : Item}

/-- When the new leaf merges with the last peaks, the items of the proof lead to the
    old peaks, and these and the leaf to the new root. -/
theorem calculate_root_merged (hfits : nodeCount (data.length + 1) < 2 ^ 64)
    (hsections : Sections (peaks data.length) indices front [])
    (hsorted : sortDedup (·.1) pairs = (indices.map fun k => (k, nodeItem H data 0 k)).map leafEntry)
    (hcover : ∀ p, p ∈ pairs.map (·.1) ↔ p ∈ indices.map nodeCount)
    (hroot : bagPeaks H.merge_peaks (peakItems H (data ++ [d])) = some root)
    {common olds news : List (Nat × Nat)} {parts : List Share}
    (hgrowth : Growth data.length (data.length + 1) common olds news parts) :
    (do let peaks_hashes ← calculate_peaks_hashes b (H.toMerge : Merge Item μ) pairs
          (nodeCount data.length) (front.flatMap (partItems (nodeItem H data)))
        let peaks_hashes ← reverseFrom peaks_hashes common.length
        mmr.calculate_root b H.toMerge [(nodeCount data.length, H.leaf_hash d)]
          (nodeCount (data.length + 1)) peaks_hashes : Outcome (Error σ μ) Item) = ok root := by
  have hlength : (data ++ [d]).length = data.length + 1 := by simp
  have hinside := pairs_inside hsections hcover
  have hfits' := (nodeCount_lt_succ data.length).trans hfits
  have hhashes := calculate_peaks_hashes_values (b := b) (σ := σ) (μ := μ) hfits' hsections
    (fun h k _ _ => nodeItem_succ H data h k) (List.append_nil front).symm (by simp)
    (fun pair hpair => (hinside pair hpair).2.trans hfits') (fun pair hpair => (hinside pair hpair).1)
    hsorted List.drop_nil
  rw [List.take_nil, List.append_nil, List.append_nil, ← peakItems_eq_parts H hsections] at hhashes
  have hreverse : (reverseFrom (peakItems H data) common.length : Outcome (Error σ μ) _) =
      ok ((common ++ olds.reverse).map fun node => nodeItem H (data ++ [d]) node.1 node.2) := by
    rw [← peakItems_append H data [d], hgrowth.old, reverseFrom, if_neg (by simp), List.map_append,
      List.take_left' (List.length_map _), List.drop_left' (List.length_map _), List.map_append,
      List.map_reverse]
  rw [← hlength] at hgrowth hfits
  have hcalculate := calculate_root_grown (b := b) (σ := σ) (μ := μ) hfits hgrowth hroot
  rw [hlength] at hcalculate
  rw [hhashes, ok_bind, hreverse, ok_bind]
  exact hcalculate

/-- When the new leaf is a peak of its own, it is one more leaf for the proof. -/
theorem calculate_root_added (hfits : nodeCount (data.length + 1) < 2 ^ 64)
    (heven : data.length % 2 = 0) (hsections : Sections (peaks data.length) indices front [])
    (hitems : ∀ pair ∈ pairs, pair.2 = elemAt H data pair.1) (hsorted : indices.Pairwise (· < ·))
    (hcover : ∀ p, p ∈ pairs.map (·.1) ↔ p ∈ indices.map nodeCount)
    (hroot : bagPeaks H.merge_peaks (peakItems H (data ++ [d])) = some root) :
    (mmr.calculate_root b (H.toMerge : Merge Item μ)
      (pairs ++ [(nodeCount data.length, H.leaf_hash d)]) (nodeCount (data.length + 1))
      (front.flatMap (partItems (nodeItem H data))) : Outcome (Error σ μ) Item) = ok root := by
  have hlength : (data ++ [d]).length = data.length + 1 := by simp
  have hinside := pairs_inside hsections hcover
  have hnext := nodeCount_lt_succ data.length
  have hpeaks : peaks (data.length + 1) = peaks data.length ++ [(0, data.length)] := by
    obtain ⟨m, hm⟩ : ∃ m, data.length = 2 * m := ⟨data.length / 2, by omega⟩
    rw [hm, peaks_odd]
  have hlast : Sections [(0, data.length)] ([data.length] ++ []) [((0, data.length), some [])] [] :=
    .take (by simp) (by simpa using under_refl 0 data.length) .done (Nat.zero_le _) (by simp) (.nil [])
  have hadded : Sections (peaks (data.length + 1)) (indices ++ [data.length])
      (front ++ [((0, data.length), some [])]) [] := by
    rw [hpeaks]
    refine hsections.append rfl (fun node hnode k hk => ?_) hlast
    obtain rfl := List.mem_singleton.mp hk
    exact (mem_peaks_iff.mp hnode).1
  have hsorted' : (indices ++ [data.length]).Pairwise (· < ·) := by
    refine List.pairwise_append.mpr ⟨hsorted, List.pairwise_singleton _ _, fun k hk k' hk' => ?_⟩
    rw [List.mem_singleton.mp hk']
    exact (hsections.lt_of_mem hk).resolve_left List.not_mem_nil
  have hitems' : ∀ pair ∈ pairs ++ [(nodeCount data.length, H.leaf_hash d)],
      pair.2 = elemAt H (data ++ [d]) pair.1 := by
    refine List.forall_mem_append.mpr ⟨fun pair hpair => ?_, fun pair hpair => ?_⟩
    · rw [hitems pair hpair, elemAt_append [d] (hinside pair hpair).2]
    · rw [List.mem_singleton.mp hpair, elemAt_nodeCount, leafItem_append_self]
  have hcover' : ∀ p, p ∈ (pairs ++ [(nodeCount data.length, H.leaf_hash d)]).map (·.1) ↔
      p ∈ (indices ++ [data.length]).map nodeCount := by
    intro p
    rw [List.map_append, List.map_append, List.mem_append, List.mem_append, hcover p]
    rfl
  have hinside' := pairs_inside hadded hcover'
  have hpairs := sortDedup_pairs_eq hitems' hsorted' hcover'
  have hbagged : bagPeaks H.merge_peaks (((front ++ [((0, data.length), some [])]).map fun part : Share =>
      nodeItem H (data ++ [d]) part.1.1 part.1.2) ++ ([] : List Item).take 0) = some root := by
    rw [← hlength] at hadded
    rw [List.take_nil, List.append_nil, ← hroot, peakItems_eq_parts H hadded]
  have hcalculate := calculate_root_values (b := b) (σ := σ) (μ := μ) hfits hadded
    (fun h k _ _ => nodeItem_succ H (data ++ [d]) h k) (List.append_nil _).symm (by simp)
    (fun pair hpair => (hinside' pair hpair).2.trans hfits) (fun pair hpair => (hinside' pair hpair).1)
    (hpairs.trans (by simp [nodeItem])) List.drop_nil hbagged
  rw [List.append_nil, List.flatMap_append, items_append H [d] hsections] at hcalculate
  simpa [partItems] using hcalculate

/-- As many hashes as there are parts with items of their own, and one for each item
    behind them. -/
theorem calculate_peaks_hashes_counts {n : Nat} (hfits : nodeCount n < 2 ^ 64)
    (hsections : Sections (peaks n) indices (front ++ back) []) (hback : ∀ part ∈ back, part.2 = none)
    (hsorted : indices.Pairwise (· < ·)) (hcover : ∀ p, p ∈ pairs.map (·.1) ↔ p ∈ indices.map nodeCount)
    {used rest : List Item} (hused : used.length = (front.flatMap (partItems Prod.mk)).length)
    (hrest : rest.drop back.length = []) :
    ∃ hashes, (calculate_peaks_hashes b (H.toMerge : Merge Item μ) pairs (nodeCount n) (used ++ rest) :
        Outcome (Error σ μ) _) = ok hashes ∧
      hashes.length = front.length + (rest.take back.length).length := by
  obtain ⟨leaves, hindices, hleaves⟩ := exists_leaves_of_cover hsorted hcover
  have hinside := pairs_inside hsections hcover
  by_cases hspecial : nodeCount n = 1 ∧ pairs.length = 1 ∧ pairs.head?.map (·.1) = some 0
  · obtain ⟨hone, item, rfl, -, rfl, rfl⟩ := sections_of_special hspecial hleaves hindices hsections hback
    exact ⟨[item], by rw [hone, calculate_peaks_hashes_single], rfl⟩
  · have hfit : ∀ node ∈ peaks n, nodePos node.1 node.2 < 2 ^ 64 := fun node hnode =>
      (nodePos_lt_of_peak hnode).trans hfits
    obtain ⟨new, hloop, hnew⟩ := peaks_counts (b := b) (σ := σ) (μ := μ) (H := H) hsections hindices rfl
      hfit rfl hback hused rest []
    refine ⟨new ++ rest.take back.length, ?_, by rw [List.length_append, hnew]⟩
    rw [calculate_peaks_hashes_loop (Nat.le_refl _) (nodeCount_lt_succ _) hfits
      (fun pair hpair => (hinside pair hpair).2.trans hfits) (fun pair hpair => (hinside pair hpair).1)
      hspecial hleaves, hloop, ok_bind, hrest, List.nil_append]
    simp

end Extend

end InclusionProof

section Session

variable {S : MapStore R W} {under : Nat → Option Item} {H : Hasher Item} {data : List Bytes} {d : Bytes}
  {self next : MMR Item Store}

/-- A proof that bags nothing leads to the root after the next push. -/
theorem MMR.Holds.extend (hself : self.Holds S under H data) (hnext : next.Holds S under H (data ++ [d]))
    {pos_list : List Nat} (hne : pos_list ≠ [])
    (hleaves : ∀ p ∈ pos_list, ∃ i < data.length, nodeCount i = p)
    (hfew : mountainsAfter data.length pos_list ≤ 1) :
    ∃ proof root, (self.gen_proof b (H.toMerge : Merge Item μ) R pos_list :
        Outcome (Error σ μ) _) = ok proof ∧
      (next.get_root b (H.toMerge : Merge Item μ) R : Outcome (Error σ μ) Item) = ok root ∧
      ∀ pairs : List (Nat × Item), (∀ pair ∈ pairs, pair.2 = elemAt H data pair.1) →
        (∀ p, p ∈ pairs.map (·.1) ↔ p ∈ pos_list) →
        (proof.calculate_root_with_new_leaf b (H.toMerge : Merge Item μ) pairs (nodeCount data.length)
          (H.leaf_hash d) next.mmr_size : Outcome (Error σ μ) Item) = ok root := by
  obtain ⟨indices, front, back, hsorted, hcover, hsections, hback, hcount, hgen⟩ :=
    hself.gen_proof_leaves (b := b) (μ := μ) hne hleaves
  obtain ⟨root, hget, hroot⟩ := hnext.get_root (b := b) (μ := μ) (by simp)
  rw [trailingPeaks_eq_mountainsAfter hne hcover hsections] at hcount
  have hsize : next.mmr_size = nodeCount (data.length + 1) := by
    rw [hnext.size, List.length_append, List.length_singleton]
  have hfits : nodeCount (data.length + 1) < 2 ^ 64 := hsize ▸ hnext.size ▸ hnext.fits
  obtain ⟨common, olds, parts, h, hgrowth, _⟩ := exists_growth_succ data.length
  refine ⟨_, root, hgen, hget, fun pairs hitems hsame => ?_⟩
  have hcover' := fun p => (hsame p).trans (hcover p)
  have hpairs := sortDedup_pairs_eq hitems hsorted hcover'
  rw [hsize, InclusionProof.calculate_root_with_new_leaf_eq hfits hgrowth,
    proofItems_of_few H data front hback (hcount ▸ hfew), hself.size]
  split
  · exact InclusionProof.calculate_root_merged hfits hsections
      (hpairs.trans (by simp [nodeItem])) hcover' hroot hgrowth
  · exact InclusionProof.calculate_root_added hfits (by omega) hsections hitems hsorted hcover' hroot

/-- The items of a proof: one for each request of the front parts and one bag, if
    there is a peak behind them. -/
theorem proofItems_length (H : Hasher Item) (data : List Bytes) (front back : List Share) :
    ∃ rest, proofItems H data front back = front.flatMap (partItems (nodeItem H data)) ++ rest ∧
      rest.drop back.length = [] ∧ (rest.take back.length).length = min 1 back.length := by
  refine ⟨_, rfl, ?_⟩
  cases back with
  | nil => exact ⟨rfl, rfl⟩
  | cons part back =>
    have hne : (part :: back).map (fun part => nodeItem H data part.1.1 part.1.2) ≠ [] := by simp
    obtain ⟨bagged, hbagged⟩ := exists_bagPeaks H.merge_peaks hne
    rw [hbagged]
    simp

/-- Extending a proof stays in bounds when the new leaf is a peak of its own or merges
    with all but at most one of the peaks that were bagged, and panics otherwise. -/
theorem MMR.Holds.extend_returns (hself : self.Holds S under H data)
    (hnext : next.Holds S under H (data ++ [d])) {pos_list : List Nat} (hne : pos_list ≠ [])
    (hleaves : ∀ p ∈ pos_list, ∃ i < data.length, nodeCount i = p) :
    ∃ proof, (self.gen_proof b (H.toMerge : Merge Item μ) R pos_list : Outcome (Error σ μ) _) = ok proof ∧
      ∀ (pairs : List (Nat × Item)) (new_elem : Item), (∀ p, p ∈ pairs.map (·.1) ↔ p ∈ pos_list) →
        if data.length % 2 = 0 ∨
            mountainsAfter data.length pos_list ≤ trailingZeros (data.length + 1) + 1 then
          Returns (proof.calculate_root_with_new_leaf b (H.toMerge : Merge Item μ) pairs
            (nodeCount data.length) new_elem next.mmr_size : Outcome (Error σ μ) Item)
        else (proof.calculate_root_with_new_leaf b (H.toMerge : Merge Item μ) pairs
          (nodeCount data.length) new_elem next.mmr_size : Outcome (Error σ μ) Item) = panic := by
  obtain ⟨indices, front, back, hsorted, hcover, hsections, hback, hcount, hgen⟩ :=
    hself.gen_proof_leaves (b := b) (μ := μ) hne hleaves
  rw [trailingPeaks_eq_mountainsAfter hne hcover hsections] at hcount
  have hsize : next.mmr_size = nodeCount (data.length + 1) := by
    rw [hnext.size, List.length_append, List.length_singleton]
  have hfits : nodeCount (data.length + 1) < 2 ^ 64 := hsize ▸ hnext.size ▸ hnext.fits
  obtain ⟨common, olds, parts, h, hgrowth, holds⟩ := exists_growth_succ data.length
  obtain ⟨rest, hitems, hdrop, htake⟩ := proofItems_length H data front back
  refine ⟨_, hgen, fun pairs new_elem hsame => ?_⟩
  have hcover' := fun p => (hsame p).trans (hcover p)
  rw [hsize, InclusionProof.calculate_root_with_new_leaf_eq hfits hgrowth]
  by_cases hodd : data.length % 2 = 1
  · have hused : (front.flatMap (partItems (nodeItem H data))).length =
        (front.flatMap (partItems Prod.mk)).length := by rw [flatMap_partItems, List.length_map]
    obtain ⟨hashes, hok, hlength⟩ := InclusionProof.calculate_peaks_hashes_counts (b := b) (σ := σ) (μ := μ)
      (H := H) hself.fits hsections hback hsorted hcover' hused hdrop
    -- The old peaks are those that stay and those that merge, and also the front and the bagged ones.
    have hpeaks : common.length + trailingZeros (data.length + 1) = front.length + back.length := by
      rw [← holds, ← List.length_append, ← List.length_append, ← hgrowth.old, hsections.length_eq]
    rw [if_pos hodd, hitems, hself.size, hok, ok_bind, InclusionProof.reverseFrom]
    by_cases hpast : common.length > hashes.length
    · rw [if_pos hpast, if_neg (by omega)]
      rfl
    · rw [if_neg hpast, if_pos (by omega), ok_bind]
      exact calculate_root_returns hfits (by simpa using hself.fits) _
  · rw [if_neg hodd, if_pos (Or.inl (by omega))]
    refine calculate_root_returns hfits (List.forall_mem_append.mpr ⟨fun pair hpair => ?_, ?_⟩) _
    · exact (pairs_inside hsections hcover' pair hpair).2.trans hself.fits
    · simpa using hself.fits

/-- Positions that pushes returned are those of the leaves of the log. -/
theorem exists_leaf_of_positions {n : Nat} {positions pos_list : List Nat}
    (hpositions : positions = (List.range n).map nodeCount) (hleaves : ∀ p ∈ pos_list, p ∈ positions) :
    ∀ p ∈ pos_list, ∃ i < n, nodeCount i = p := by
  intro p hp
  obtain ⟨i, hi, rfl⟩ := List.mem_map.mp (hpositions ▸ hleaves p hp)
  exact ⟨i, List.mem_range.mp hi, rfl⟩

/-- Extending a proof by one leaf gives the new root: a proof for some of the leaves
    that has at most one peak behind them leads to the root after the next push,
    given these leaves and the new one. -/
theorem MMR.Session.extended_root (S : MapStore R W) {store : Store} {positions : List Nat}
    {final : MMR Item Store}
    (session : MMR.Session b (H.toMerge : Merge Item μ) R W (MMR.new 0 store) data positions final)
    (hbound : data.length < 2 ^ 61) {pos_list : List Nat} (hne : pos_list ≠ [])
    (hleaves : ∀ p ∈ pos_list, p ∈ positions) (hfew : mountainsAfter data.length pos_list ≤ 1)
    (d : Bytes) :
    ∃ new_pos next proof root,
      final.push b (H.toMerge : Merge Item μ) R d = ok (.ok new_pos, next) ∧
      (final.gen_proof b (H.toMerge : Merge Item μ) R pos_list : Outcome (Error σ μ) _) = ok proof ∧
      (next.get_root b (H.toMerge : Merge Item μ) R : Outcome (Error σ μ) Item) = ok root ∧
      ∀ pairs : List (Nat × Item),
        (∀ pair ∈ pairs, final.batch.get_elem b R pair.1 = ok (some pair.2)) →
        (∀ p, p ∈ pairs.map (·.1) ↔ p ∈ pos_list) →
        (proof.calculate_root_with_new_leaf b (H.toMerge : Merge Item μ) pairs new_pos (H.leaf_hash d)
          next.mmr_size : Outcome (Error σ μ) Item) = ok root := by
  obtain ⟨hfinal, hpositions⟩ := session.holds S (.refl _) fun _ => by omega
  obtain ⟨next, hpush, hnext⟩ := hfinal.push (b := b) (μ := μ) (by omega) d
  have hinside := exists_leaf_of_positions hpositions hleaves
  obtain ⟨proof, root, hgen, hget, hextend⟩ := hfinal.extend (b := b) (μ := μ) hnext hne hinside hfew
  refine ⟨_, next, proof, root, hpush, hgen, hget, fun pairs hitems hsame => ?_⟩
  exact hextend pairs (hfinal.items_of_read hinside hsame hitems) hsame

/-- Extending a proof by the next leaf panics exactly when that leaf merges with
    peaks, and more than one of the peaks behind the leaves of the proof stays. -/
theorem MMR.Session.extended_returns_iff (S : MapStore R W) {store : Store} {positions : List Nat}
    {final : MMR Item Store}
    (session : MMR.Session b (H.toMerge : Merge Item μ) R W (MMR.new 0 store) data positions final)
    (hfit : b = .release → data.length < 2 ^ 63) {pos_list : List Nat} (hne : pos_list ≠ [])
    (hleaves : ∀ p ∈ pos_list, p ∈ positions) {new_pos : Nat}
    (hpush : final.push b (H.toMerge : Merge Item μ) R d = ok (.ok new_pos, next)) :
    ∃ proof, (final.gen_proof b (H.toMerge : Merge Item μ) R pos_list : Outcome (Error σ μ) _) = ok proof ∧
      ∀ (pairs : List (Nat × Item)) (new_elem : Item), (∀ p, p ∈ pairs.map (·.1) ↔ p ∈ pos_list) →
        (Returns (proof.calculate_root_with_new_leaf b (H.toMerge : Merge Item μ) pairs new_pos new_elem
            next.mmr_size : Outcome (Error σ μ) Item) ↔
          data.length % 2 = 0 ∨
            mountainsAfter data.length pos_list ≤ trailingZeros (data.length + 1) + 1) := by
  obtain ⟨hfinal, hpositions⟩ := session.holds S (.refl _) fun hb => (hfit hb).le
  obtain ⟨rfl, hnext⟩ := hfinal.of_push hfit hpush
  have hinside := exists_leaf_of_positions hpositions hleaves
  obtain ⟨proof, hgen, hextend⟩ := hfinal.extend_returns (b := b) (μ := μ) hnext hne hinside
  refine ⟨proof, hgen, fun pairs new_elem hsame => ?_⟩
  have hcase := hextend pairs new_elem hsame
  split at hcase
  · rename_i hstays
    exact iff_of_true hcase hstays
  · rename_i hpast
    rw [hcase]
    exact iff_of_false not_returns_panic hpast

end Session

/-- The last of three leaves, and a fourth that merges with all of them. -/
theorem MMR.Session.extended_root_three :
    ∃ final new_pos next proof root,
      MMR.SymbolicRun .debug [[1], [2], [3]] [0, 1, 3] final ∧
      (final.push .debug (Term.hasher.toMerge : Merge (Term Empty) Empty) MemStore.readOps [4] :
        Outcome Empty (Except (Error Empty Empty) _ × _)) = ok (.ok new_pos, next) ∧
      (final.gen_proof .debug (Term.hasher.toMerge : Merge (Term Empty) Empty) MemStore.readOps [3] :
        Outcome (Error Empty Empty) _) = ok proof ∧
      (next.get_root .debug (Term.hasher.toMerge : Merge (Term Empty) Empty) MemStore.readOps :
        Outcome (Error Empty Empty) _) = ok root ∧
      (proof.calculate_root_with_new_leaf .debug (Term.hasher.toMerge : Merge (Term Empty) Empty)
        [(3, .leaf [3])] new_pos (.leaf [4]) next.mmr_size : Outcome (Error Empty Empty) _) = ok root := by
  have start : MMR.SymbolicRun .debug [] [] (MMR.new 0 MemStore.new) := .refl
  have run := ((start.push (d := [1]) rfl).push (d := [2]) rfl).push (d := [3]) rfl
  obtain ⟨new_pos, next, proof, root, hpush, hgen, hget, hextend⟩ :=
    MMR.Session.extended_root (MemStore.mapStore .debug) run.session (by decide) (List.cons_ne_nil 3 [])
      (by decide) (by decide) [4]
  refine ⟨_, new_pos, next, proof, root, run, hpush, hgen, hget, hextend _ ?_ fun p => Iff.rfl⟩
  rintro pair hpair
  obtain rfl := List.mem_singleton.mp hpair
  rfl

/-- A proof for the first of three leaves extends to the fourth. -/
theorem MMR.Session.extended_returns_first :
    ∃ final new_pos next proof,
      MMR.SymbolicRun .debug [[1], [2], [3]] [0, 1, 3] final ∧
      (final.push .debug (Term.hasher.toMerge : Merge (Term Empty) Empty) MemStore.readOps [4] :
        Outcome Empty (Except (Error Empty Empty) _ × _)) = ok (.ok new_pos, next) ∧
      (final.gen_proof .debug (Term.hasher.toMerge : Merge (Term Empty) Empty) MemStore.readOps [0] :
        Outcome (Error Empty Empty) _) = ok proof ∧
      Returns (proof.calculate_root_with_new_leaf .debug (Term.hasher.toMerge : Merge (Term Empty) Empty)
        [(0, .leaf [1])] new_pos (.leaf [4]) next.mmr_size : Outcome (Error Empty Empty) _) := by
  have start : MMR.SymbolicRun .debug [] [] (MMR.new 0 MemStore.new) := .refl
  have run := ((start.push (d := [1]) rfl).push (d := [2]) rfl).push (d := [3]) rfl
  obtain ⟨hfinal, -⟩ := run.holds (MemStore.mapStore .debug) fun hb => by cases hb
  obtain ⟨next, hpush, -⟩ := hfinal.push (b := .debug) (μ := Empty) (by decide) [4]
  obtain ⟨proof, hgen, hextend⟩ := MMR.Session.extended_returns_iff (MemStore.mapStore .debug)
    run.session (fun hb => by cases hb) (List.cons_ne_nil 0 []) (by decide) hpush
  exact ⟨_, _, next, proof, run, hpush, hgen, (hextend _ _ fun p => Iff.rfl).mpr (.inr (by decide))⟩

/-- Of 29 leaves in mountains of 16, 8, 4 and 1, the next leaf merges with the last.
    A proof for a leaf of the first has the other three in one item. -/
theorem MMR.Session.extend_panics : ∃ data positions final next proof,
    MMR.SymbolicRun .debug data positions final ∧ data.length = 29 ∧
      (final.push .debug (Term.hasher.toMerge : Merge (Term Empty) Empty) MemStore.readOps [1] :
        Outcome Empty (Except (Error Empty Empty) _ × _)) = ok (.ok 54, next) ∧
      (final.gen_proof .debug (Term.hasher.toMerge : Merge (Term Empty) Empty) MemStore.readOps [0] :
        Outcome (Error Empty Empty) _) = ok proof ∧
      (final.batch.get_elem .debug MemStore.readOps 0 : Outcome Empty _) = ok (some (.leaf [0])) ∧
      (proof.calculate_root_with_new_leaf .debug (Term.hasher.toMerge : Merge (Term Empty) Empty)
        [(0, .leaf [0])] 54 (.leaf [1]) next.mmr_size : Outcome (Error Empty Empty) _) = panic := by
  have hfit : (List.replicate 29 ([0] : Bytes)).length ≤ 2 ^ 63 := by simp
  obtain ⟨positions, final, run⟩ := MMR.exists_run (b := .debug) (σ := Empty) (μ := Empty)
    (MemStore.mapStore .debug) (Term.hasher : Hasher (Term Empty)) MemStore.new hfit
  obtain ⟨hfinal, -⟩ := run.holds (MemStore.mapStore .debug) fun hb => by cases hb
  obtain ⟨next, hpush, hnext⟩ := hfinal.push (b := .debug) (μ := Empty) (by simp) [1]
  obtain ⟨proof, hgen, hextend⟩ := hfinal.extend_returns (b := .debug) (μ := Empty) hnext
    (List.cons_ne_nil 0 []) fun p hp => ⟨0, by simp, (List.mem_singleton.mp hp).symm⟩
  have hpanic := hextend [(0, .leaf [0])] (.leaf [1]) fun p => Iff.rfl
  rw [if_neg (by decide)] at hpanic
  refine ⟨_, positions, final, next, proof, run, by simp, hpush, hgen, ?_, hpanic⟩
  exact hfinal.get_elem_eq (p := 0) (by decide)

end merkleberg.mmr
