import Merkleberg.Forest.Sections
import Merkleberg.Mmr.Queue

open machine machine.Outcome
open forest
open merkleberg.helper

namespace merkleberg.mmr

variable {Item Store σ μ : Type} {b : Profile}
  {R : MMRStoreReadOps Store Item σ} {W : MMRStoreWriteOps Store Item σ}

/-- The leaves at or before a peak are those left of where its tree ends. -/
theorem nodeCount_le_nodePos_iff {k h m : Nat} :
    nodeCount k ≤ nodePos h m ↔ k < 2 ^ h * (m + 1) := by
  have hpos := Nat.two_pow_pos h
  obtain ⟨hle, hlt⟩ := nodePos_bounds h m
  have hlast : 2 ^ h * (m + 1) = 2 ^ h * m + (2 ^ h - 1) + 1 := by
    rw [Nat.mul_succ]
    omega
  constructor
  · intro hbefore
    exact nodeCount_lt_nodeCount_iff.mp (hbefore.trans_lt hlt)
  · intro hbefore
    exact (nodeCount_le_nodeCount_iff.mpr (by omega)).trans hle

/-- `take_while_vec` takes exactly a front that satisfies the test. -/
theorem take_while_vec_append {T : Type} {p : T → Bool} {front back : List T}
    (hfront : ∀ x ∈ front, p x = true) (hback : ∀ x ∈ back, p x = false) :
    take_while_vec (front ++ back) p = (front, back) := by
  have hnil : back.takeWhile p = [] ∧ back.dropWhile p = back := by
    cases back with
    | nil => exact ⟨rfl, rfl⟩
    | cons x back => simp [hback x List.mem_cons_self]
  rw [take_while_vec, List.takeWhile_append_of_pos hfront, List.dropWhile_append_of_pos hfront,
    hnil.1, hnil.2, List.append_nil]

section Prover

variable {S : MapStore R W} {under : Nat → Option Item} {H : Hasher Item} {data : List Bytes}
  {self : MMR Item Store}

/-- Element of a node, by height and index. -/
def nodeItem (H : Hasher Item) (data : List Bytes) (h k : Nat) : Item := elemAt H data (nodePos h k)

theorem nodeItem_zero (H : Hasher Item) (data : List Bytes) (k : Nat) :
    nodeItem H data 0 k = leafItem H data k := by
  rw [nodeItem, nodePos_zero, elemAt_nodeCount]

theorem peakItems_eq_nodes (H : Hasher Item) (data : List Bytes) :
    peakItems H data = (peaks data.length).map fun node => nodeItem H data node.1 node.2 := by
  rw [peakItems, peakPositions, List.map_map]
  rfl

theorem peakItems_eq_parts (H : Hasher Item) {data : List Bytes} {indices left : List Nat}
    {parts : List Share} (hsections : Sections (peaks data.length) indices parts left) :
    peakItems H data = parts.map fun part => nodeItem H data part.1.1 part.1.2 := by
  rw [peakItems_eq_nodes, ← hsections.nodes_eq, List.map_map]
  rfl

/-- Peaks at the end of a row of parts that no leaf asks for, counted on. -/
def trailingPeaks (count : Nat) (parts : List Share) : Nat :=
  parts.foldl (fun count part => if part.2 = none then count + 1 else 0) count

theorem MMR.Holds.gen_proof_for_peak_eq (hself : self.Holds S under H data) {h m passes : Nat}
    (hpeak : nodePos h m < nodeCount data.length) {group : List Nat} {requests : List (Nat × Nat)}
    (hne : group ≠ []) (hclimbs : Climbs h m passes (group.map (0, ·)) requests)
    (hpasses : passes ≤ h * group.length) (proof : List Item) :
    (self.gen_proof_for_peak b R proof (group.map nodeCount) (nodePos h m) :
      Outcome (Error σ μ) _) =
      ok (proof ++ requests.map fun node => nodeItem H data node.1 node.2) := by
  have hheight := height_lt_of_nodePos_lt (hpeak.trans hself.fits)
  rw [MMR.gen_proof_for_peak]
  rcases Nat.eq_zero_or_pos h with rfl | hpositive
  · obtain ⟨hgroup, rfl⟩ := hclimbs.of_height_zero
    obtain ⟨k, rfl, hk⟩ := List.map_eq_singleton_iff.mp hgroup
    obtain rfl : k = m := by simpa using hk
    rw [if_pos (by simp), List.map_nil, List.append_nil]
  · have hnot (k : Nat) : (0, k) ≠ (h, m) := by
      rw [Ne, Prod.mk.injEq]
      omega
    have hsingle : ¬ ((group.map nodeCount).length = 1 ∧ group.map nodeCount = [nodePos h m]) := by
      rintro ⟨_, hsingle⟩
      obtain ⟨k, rfl, hk⟩ := List.map_eq_singleton_iff.mp hsingle
      rw [← nodePos_zero] at hk
      exact hnot k (nodePos_eq_iff.mp hk)
    have hqueue : proverQueue h m (group.map (0, ·)) = (group.map nodeCount).map fun pos => (pos, 0) := by
      have hfilter : (group.map ((0, ·) : Nat → Nat × Nat)).filter (· ≠ (h, m)) = group.map (0, ·) := by
        rw [List.filter_eq_self]
        intro node hnode
        obtain ⟨k, _, rfl⟩ := List.mem_map.mp hnode
        exact decide_eq_true (hnot k)
      rw [proverQueue, hfilter, List.map_map, List.map_map]
      exact List.map_congr_left fun k _ => by simp
    have hlength : 0 < group.length := List.length_pos_iff.mpr hne
    have hbudget : h * group.length ≤ 64 * group.length := Nat.mul_le_mul_right _ (by omega)
    rw [if_neg hsingle, if_neg (by simpa using hne), ← hqueue, List.length_map]
    exact hself.gen_proof_for_peak_loop hpeak hclimbs proof (by omega)

/-- The peak loop emits the items of every part, and counts the peaks at the end
    that no leaf is under. -/
theorem MMR.Holds.gen_proof_peaks (hself : self.Holds S under H data) {nodes : List (Nat × Nat)}
    (hnodes : ∀ node ∈ nodes, nodePos node.1 node.2 < nodeCount data.length)
    {leaves left : List Nat} {parts : List Share} (hsections : Sections nodes leaves parts left)
    (proof : List Item) (count : Nat) :
    ((nodes.map fun node => nodePos node.1 node.2).foldlM (MMR.gen_proof.step b R self)
        (leaves.map nodeCount, proof, count) : Outcome (Error σ μ) _) =
      ok (left.map nodeCount, proof ++ parts.flatMap (partItems (nodeItem H data)),
        trailingPeaks count parts) := by
  induction hsections generalizing proof count with
  | nil left => simp [trailingPeaks]
  | @skip h m nodes leaves left parts hafter tail ih =>
    have htake : take_while_vec (leaves.map nodeCount) (fun pos => decide (pos ≤ nodePos h m)) =
        ([], leaves.map nodeCount) := by
      refine @take_while_vec_append _ _ [] _ (by simp) fun pos hpos => ?_
      obtain ⟨k, hk, rfl⟩ := List.mem_map.mp hpos
      have := hafter k hk
      rw [decide_eq_false_iff_not, nodeCount_le_nodePos_iff]
      omega
    have hstep : (MMR.gen_proof.step b R self (leaves.map nodeCount, proof, count) (nodePos h m) :
        Outcome (Error σ μ) _) =
        ok (leaves.map nodeCount, proof ++ [nodeItem H data h m], count + 1) := by
      simp [MMR.gen_proof.step, htake, MMR.gen_proof_for_peak,
        hself.read_eq (hnodes (h, m) List.mem_cons_self), nodeItem]
    rw [List.map_cons, List.foldlM_cons, hstep, ok_bind,
      ih (fun node hnode => hnodes node (List.mem_cons_of_mem _ hnode))]
    simp [partItems, trailingPeaks]
  | @take h m passes nodes requests group leaves left parts hne hunder hclimbs hpasses hafter tail ih =>
    have htake : take_while_vec (group.map nodeCount ++ leaves.map nodeCount)
        (fun pos => decide (pos ≤ nodePos h m)) = (group.map nodeCount, leaves.map nodeCount) := by
      refine take_while_vec_append (fun pos hpos => ?_) fun pos hpos => ?_
      · obtain ⟨k, hk, rfl⟩ := List.mem_map.mp hpos
        rw [decide_eq_true_eq, nodeCount_le_nodePos_iff]
        exact (under_zero_iff.mp (hunder k hk)).2
      · obtain ⟨k, hk, rfl⟩ := List.mem_map.mp hpos
        have := hafter k hk
        rw [decide_eq_false_iff_not, nodeCount_le_nodePos_iff]
        omega
    have hpart := hself.gen_proof_for_peak_eq (b := b) (μ := μ)
      (hnodes (h, m) List.mem_cons_self) hne hclimbs hpasses proof
    have hstep : (MMR.gen_proof.step b R self ((group ++ leaves).map nodeCount, proof, count)
        (nodePos h m) : Outcome (Error σ μ) _) =
        ok (leaves.map nodeCount,
          proof ++ requests.map fun node => nodeItem H data node.1 node.2, 0) := by
      simp [MMR.gen_proof.step, htake, hpart, hne]
    rw [List.map_cons, List.foldlM_cons, hstep, ok_bind,
      ih (fun node hnode => hnodes node (List.mem_cons_of_mem _ hnode))]
    simp [partItems, trailingPeaks]

end Prover

/-- A row of parts ends in the peaks that are counted at its end. -/
theorem exists_front_back (parts : List Share) :
    ∃ front back, parts = front ++ back ∧ (∀ part ∈ back, part.2 = none) ∧
      trailingPeaks 0 parts = back.length := by
  induction parts using List.reverseRecOn with
  | nil => exact ⟨[], [], rfl, by simp, rfl⟩
  | append_singleton parts part ih =>
    obtain ⟨front, back, hparts, hback, hcount⟩ := ih
    have hstep : trailingPeaks 0 (parts ++ [part]) =
        if part.2 = none then trailingPeaks 0 parts + 1 else 0 := by
      simp [trailingPeaks, List.foldl_append]
    by_cases hnone : part.2 = none
    · refine ⟨front, back ++ [part], by rw [hparts, List.append_assoc], ?_, ?_⟩
      · intro p hp
        rcases List.mem_append.mp hp with hold | hnew
        · exact hback p hold
        · rw [List.mem_singleton.mp hnew, hnone]
      · rw [hstep, if_pos hnone, hcount, List.length_append, List.length_singleton]
    · exact ⟨parts ++ [part], [], by simp, by simp, by rw [hstep, if_neg hnone, List.length_nil]⟩

/-- Parts without leaves have their peaks as items. -/
theorem flatMap_partItems_of_none (value : Nat → Nat → Item) {back : List Share}
    (hback : ∀ part ∈ back, part.2 = none) :
    back.flatMap (partItems value) = back.map fun part => value part.1.1 part.1.2 := by
  induction back with
  | nil => rfl
  | cons part back ih =>
    have hnone := hback part List.mem_cons_self
    rw [List.flatMap_cons, List.map_cons, ih fun p hp => hback p (List.mem_cons_of_mem _ hp),
      partItems, hnone, List.singleton_append]

section Verifier

variable {H : Hasher Item} {h m passes : Nat}

/-- A leaf handed to the verifier, by its index. -/
def leafEntry (leaf : Nat × Item) : Nat × Item := (nodeCount leaf.1, leaf.2)

theorem map_leafEntry (group : List (Nat × Item)) :
    (group.map leafEntry).map (fun leaf => (leaf.1, leaf.2, 0)) =
      (group.map fun leaf => ((0, leaf.1), leaf.2)).map queueEntry := by
  rw [List.map_map, List.map_map]
  exact List.map_congr_left fun leaf _ => by simp [leafEntry, queueEntry]

/-- One peak with leaves under it: its root is the fold of those leaves with the
    items in front. -/
theorem calculate_peak_root_eq {group : List (Nat × Item)} {used : List Item} {root : Item}
    (hne : group ≠ [])
    (hfolds : Folds H.merge h m passes (group.map fun leaf => ((0, leaf.1), leaf.2)) used root)
    (hpasses : passes ≤ h * group.length) (hfit : nodePos h m < 2 ^ 64) (rest : List Item) :
    (calculate_peak_root b (H.toMerge : Merge Item μ) (group.map leafEntry) (nodePos h m)
      (used ++ rest) : Outcome (Error σ μ) _) = ok (root, rest) := by
  have hheight := height_lt_of_nodePos_lt hfit
  have hbudget : h * group.length ≤ 64 * group.length := Nat.mul_le_mul_right _ (by omega)
  have hempty : (group.map leafEntry).isEmpty = false := by simpa using hne
  rw [calculate_peak_root, hempty, Bool.not_false, Profile.debugAssert_true, ok_bind, List.length_map,
    map_leafEntry]
  exact calculate_peak_root_loop hfolds hfit (by omega)

theorem take_while_vec_leaves {group leaves : List (Nat × Item)}
    (hunder : ∀ leaf ∈ group, Under 0 leaf.1 h m)
    (hafter : ∀ leaf ∈ leaves, 2 ^ h * (m + 1) ≤ leaf.1) :
    take_while_vec ((group ++ leaves).map leafEntry) (fun leaf => decide (leaf.1 ≤ nodePos h m)) =
      (group.map leafEntry, leaves.map leafEntry) := by
  rw [List.map_append]
  refine take_while_vec_append (fun entry hentry => ?_) fun entry hentry => ?_
  · obtain ⟨leaf, hleaf, rfl⟩ := List.mem_map.mp hentry
    exact decide_eq_true (nodeCount_le_nodePos_iff.mpr (under_zero_iff.mp (hunder leaf hleaf)).2)
  · obtain ⟨leaf, hleaf, rfl⟩ := List.mem_map.mp hentry
    have hleft := hafter leaf hleaf
    exact decide_eq_false fun hbefore =>
      absurd (nodeCount_le_nodePos_iff.mp hbefore) (Nat.not_lt.mpr hleft)

/-- The peak loop passes over a peak that has leaves with the root of that peak,
    also when the peak is itself the only leaf. -/
theorem peaks_take {group leaves : List (Nat × Item)} {used : List Item} {root : Item}
    (hne : group ≠ []) (hunder : ∀ leaf ∈ group, Under 0 leaf.1 h m)
    (hafter : ∀ leaf ∈ leaves, 2 ^ h * (m + 1) ≤ leaf.1)
    (hfolds : Folds H.merge h m passes (group.map fun leaf => ((0, leaf.1), leaf.2)) used root)
    (hpasses : passes ≤ h * group.length) (hfit : nodePos h m < 2 ^ 64) (peaks : List Nat)
    (rest roots : List Item) :
    (calculate_peaks_hashes.peaks b (H.toMerge : Merge Item μ) (nodePos h m :: peaks)
      ((group ++ leaves).map leafEntry) (used ++ rest) roots : Outcome (Error σ μ) _) =
      calculate_peaks_hashes.peaks b H.toMerge peaks (leaves.map leafEntry) rest (roots ++ [root]) := by
  obtain ⟨⟨k, x⟩, group, rfl⟩ := List.exists_cons_of_ne_nil hne
  have hroot := calculate_peak_root_eq (b := b) (σ := σ) (μ := μ) hne hfolds hpasses hfit rest
  rw [calculate_peaks_hashes.peaks, take_while_vec_leaves hunder hafter]
  rw [List.map_cons, show leafEntry (k, x) = (nodeCount k, x) from rfl] at hroot ⊢
  dsimp only
  by_cases hsingle : group.map leafEntry = [] ∧ nodeCount k = nodePos h m
  · rw [if_pos hsingle]
    obtain ⟨hnil, hk⟩ := hsingle
    rw [← nodePos_zero] at hk
    obtain ⟨rfl, rfl⟩ := nodePos_inj hk
    rw [List.map_eq_nil_iff] at hnil
    subst hnil
    cases hfolds with
    | done => rfl
    | request hlt => omega
  · rw [if_neg hsingle, hroot, ok_bind]

theorem peaks_skip {leaves : List (Nat × Item)}
    (hafter : ∀ k ∈ leaves.map (·.1), 2 ^ h * (m + 1) ≤ k) (peaks : List Nat)
    (items roots : List Item) :
    (calculate_peaks_hashes.peaks b (H.toMerge : Merge Item μ) (nodePos h m :: peaks)
      (leaves.map leafEntry) items roots : Outcome (Error σ μ) _) =
      match items with
      | [] => ok (leaves.map leafEntry, [], roots)
      | root :: items =>
        calculate_peaks_hashes.peaks b H.toMerge peaks (leaves.map leafEntry) items (roots ++ [root]) := by
  have hnone : ∀ leaf ∈ ([] : List (Nat × Item)), Under 0 leaf.1 h m := by simp
  have htake := take_while_vec_leaves hnone (List.forall_mem_map.mp hafter)
  rw [List.nil_append, List.map_nil] at htake
  rw [calculate_peaks_hashes.peaks, htake]
  cases items <;> rfl

/-- A peak that requests more siblings than there are items ends the loop. -/
theorem peaks_take_err {group leaves : List (Nat × Item)} {requests : List (Nat × Nat)}
    {items : List Item} (hne : group ≠ []) (hunder : ∀ leaf ∈ group, Under 0 leaf.1 h m)
    (hafter : ∀ leaf ∈ leaves, 2 ^ h * (m + 1) ≤ leaf.1)
    (hclimbs : Climbs h m passes (group.map fun leaf => (0, leaf.1)) requests)
    (hpasses : passes ≤ h * group.length) (hfit : nodePos h m < 2 ^ 64)
    (hitems : items.length < requests.length) (peaks : List Nat) (roots : List Item) :
    (calculate_peaks_hashes.peaks b (H.toMerge : Merge Item μ) (nodePos h m :: peaks)
      ((group ++ leaves).map leafEntry) items roots : Outcome (Error σ μ) _) =
      err .CorruptedProof := by
  have hheight := height_lt_of_nodePos_lt hfit
  have hbudget : h * group.length ≤ 64 * group.length := Nat.mul_le_mul_right _ (by omega)
  have hempty : (group.map leafEntry).isEmpty = false := by simpa using hne
  have hroot : (calculate_peak_root b (H.toMerge : Merge Item μ) (group.map leafEntry)
      (nodePos h m) items : Outcome (Error σ μ) _) = err .CorruptedProof := by
    rw [calculate_peak_root, hempty, Bool.not_false, Profile.debugAssert_true, ok_bind,
      List.length_map, map_leafEntry]
    exact calculate_peak_root_loop_err hclimbs hfit (by rw [List.map_map]; rfl) hitems (by omega)
  obtain ⟨⟨k, x⟩, group, rfl⟩ := List.exists_cons_of_ne_nil hne
  rw [calculate_peaks_hashes.peaks, take_while_vec_leaves hunder hafter]
  rw [List.map_cons, show leafEntry (k, x) = (nodeCount k, x) from rfl] at hroot ⊢
  dsimp only
  rw [if_neg, hroot, err_bind]
  rintro ⟨_, hk⟩
  rw [← nodePos_zero] at hk
  obtain ⟨rfl, rfl⟩ := nodePos_inj hk
  rw [hclimbs.of_height_zero.2] at hitems
  simp at hitems

/-- What the peak loop does at a peak with leaves under it, given by the parts of
    its section: it fails when there are fewer items than requests, and folds as
    many items as there are requests otherwise. -/
theorem peaks_group {taken leaves : List (Nat × Item)} {requests : List (Nat × Nat)}
    (hne : taken.map (·.1) ≠ []) (hunder : ∀ k ∈ taken.map (·.1), Under 0 k h m)
    (hclimbs : Climbs h m passes ((taken.map (·.1)).map (0, ·)) requests)
    (hpasses : passes ≤ h * (taken.map (·.1)).length)
    (hafter : ∀ k ∈ leaves.map (·.1), 2 ^ h * (m + 1) ≤ k) (hfit : nodePos h m < 2 ^ 64)
    (items : List Item) :
    (items.length < requests.length ∧ ∀ peaks roots,
      (calculate_peaks_hashes.peaks b (H.toMerge : Merge Item μ) (nodePos h m :: peaks)
        ((taken ++ leaves).map leafEntry) items roots : Outcome (Error σ μ) _) = err .CorruptedProof) ∨
    requests.length ≤ items.length ∧ ∃ root,
      Folds H.merge h m passes (taken.map fun leaf => ((0, leaf.1), leaf.2))
        (items.take requests.length) root ∧
      ∀ peaks roots,
        (calculate_peaks_hashes.peaks b (H.toMerge : Merge Item μ) (nodePos h m :: peaks)
          ((taken ++ leaves).map leafEntry) items roots : Outcome (Error σ μ) _) =
          calculate_peaks_hashes.peaks b H.toMerge peaks (leaves.map leafEntry)
            (items.drop requests.length) (roots ++ [root]) := by
  have hne' : taken ≠ [] := by simpa using hne
  have hunder' : ∀ leaf ∈ taken, Under 0 leaf.1 h m := fun leaf hleaf =>
    hunder leaf.1 (List.mem_map_of_mem hleaf)
  have hafter' : ∀ leaf ∈ leaves, 2 ^ h * (m + 1) ≤ leaf.1 := fun leaf hleaf =>
    hafter leaf.1 (List.mem_map_of_mem hleaf)
  rw [List.length_map] at hpasses
  rw [List.map_map] at hclimbs
  rcases Nat.lt_or_ge items.length requests.length with hshort | hlong
  · exact .inl ⟨hshort, peaks_take_err hne' hunder' hafter' hclimbs hpasses hfit hshort⟩
  · have hentries : (taken.map fun leaf => ((0, leaf.1), leaf.2)).map (·.1) =
        taken.map ((0, ·) ∘ (·.1)) := by
      rw [List.map_map]
      rfl
    have hlength : (items.take requests.length).length = requests.length := by
      rw [List.length_take]
      omega
    obtain ⟨root, hfolds⟩ := hclimbs.exists_folds H.merge hentries hlength
    refine .inr ⟨hlong, root, hfolds, fun peaks roots => ?_⟩
    have htake := peaks_take (b := b) (σ := σ) (μ := μ) hne' hunder' hafter' hfolds hpasses hfit peaks
      (items.drop requests.length) roots
    rwa [List.take_append_drop] at htake

/-- Without leaves the peak loop takes one item for each peak while there are
    items. -/
theorem peaks_no_leaves (nodes : List (Nat × Nat)) (items roots : List Item) :
    (calculate_peaks_hashes.peaks b (H.toMerge : Merge Item μ)
      (nodes.map fun node => nodePos node.1 node.2) [] items roots : Outcome (Error σ μ) _) =
      ok ([], items.drop nodes.length, roots ++ items.take nodes.length) := by
  induction nodes generalizing items roots with
  | nil => simp [calculate_peaks_hashes.peaks]
  | cons node nodes ih =>
    have hafter : ∀ k ∈ ([] : List (Nat × Item)).map (·.1), 2 ^ node.1 * (node.2 + 1) ≤ k := by simp
    have hskip := peaks_skip (b := b) (σ := σ) (μ := μ) (H := H) hafter
      (nodes.map fun node => nodePos node.1 node.2) items roots
    rw [List.map_nil] at hskip
    rw [List.map_cons, hskip]
    cases items with
    | nil => simp
    | cons item items => simp [ih]

/-- On the values of a tree the peak loop goes through the front parts with their
    items and roots, when no leaf is under the peaks behind them. The values
    only need to form a tree above the leaves. -/
theorem peaks_values {value : Nat → Nat → Item} {nodes : List (Nat × Nat)} {leaves : List Nat}
    {parts front back : List Share} (hsections : Sections nodes leaves parts [])
    (hvalue : ParentsMerged H.merge value nodes leaves)
    (hfit : ∀ node ∈ nodes, nodePos node.1 node.2 < 2 ^ 64) (hparts : parts = front ++ back)
    (hback : ∀ part ∈ back, part.2 = none) (rest roots : List Item) :
    (calculate_peaks_hashes.peaks b (H.toMerge : Merge Item μ)
      (nodes.map fun node => nodePos node.1 node.2)
      ((leaves.map fun k => (k, value 0 k)).map leafEntry)
      (front.flatMap (partItems value) ++ rest) roots : Outcome (Error σ μ) _) =
      ok ([], rest.drop back.length,
        roots ++ (front.map fun part => value part.1.1 part.1.2) ++ rest.take back.length) := by
  generalize hleft : ([] : List Nat) = left at hsections
  induction hsections generalizing front roots with
  | nil left =>
    obtain ⟨rfl, rfl⟩ := List.append_eq_nil_iff.mp hparts.symm
    simp [calculate_peaks_hashes.peaks, ← hleft]
  | @skip h m nodes leaves left parts hafter tail ih =>
    cases front with
    | nil =>
      rw [List.nil_append] at hparts
      have hsections := Sections.skip hafter tail
      have hleaves := hsections.no_leaves (by rwa [hparts]) hleft.symm
      rw [hleaves, ← hparts, hsections.length_eq]
      simpa using peaks_no_leaves ((h, m) :: nodes) rest roots
    | cons part front =>
      obtain ⟨rfl, htail⟩ := List.cons.inj hparts
      obtain ⟨hpeak, hfit'⟩ := List.forall_mem_cons.mp hfit
      have hafter' : ∀ k ∈ (leaves.map fun k => (k, value 0 k)).map (·.1), 2 ^ h * (m + 1) ≤ k := by
        simpa using hafter
      have hvalue' := hvalue.mono (List.subset_cons_self (h, m) nodes) (List.Subset.refl leaves)
      have hih := ih hvalue' hfit' htail (roots ++ [value h m]) hleft
      rw [List.map_cons, peaks_skip hafter']
      simpa [partItems] using hih
  | @take h m passes nodes requests group leaves left parts hne hunder hclimbs hpasses hafter tail ih =>
    cases front with
    | nil =>
      rw [List.nil_append] at hparts
      have := hback _ (hparts ▸ List.mem_cons_self)
      simp at this
    | cons part front =>
      obtain ⟨rfl, htail⟩ := List.cons.inj hparts
      obtain ⟨hpeak, hfit'⟩ := List.forall_mem_cons.mp hfit
      have hfolds := hvalue.folds List.mem_cons_self (List.subset_append_left group leaves) hunder hclimbs
      have hafter' : ∀ leaf ∈ leaves.map fun k => (k, value 0 k), 2 ^ h * (m + 1) ≤ leaf.1 := by
        simpa using hafter
      have htake := peaks_take (b := b) (σ := σ) (μ := μ) (H := H)
        (by simpa using hne) (by simpa using hunder) hafter' hfolds (by simpa using hpasses)
        hpeak (nodes.map fun node => nodePos node.1 node.2)
        (front.flatMap (partItems value) ++ rest) roots
      have hvalue' := hvalue.mono (List.subset_cons_self (h, m) nodes)
        (List.subset_append_right group leaves)
      have hih := ih hvalue' hfit' htail (roots ++ [value h m]) hleft
      rw [List.map_cons, List.map_append, List.flatMap_cons, List.append_assoc]
      simp only [partItems]
      rw [htake, hih]
      simp

/-- With enough items for the front parts the peak loop gets a root for each of
    these, and takes the items after them for the peaks behind. -/
theorem peaks_counts {nodes : List (Nat × Nat)} {indices left : List Nat} {parts front back : List Share}
    (hsections : Sections nodes indices parts left) {leaves : List (Nat × Item)}
    (hleaves : leaves.map (·.1) = indices) (hleft : left = [])
    (hfit : ∀ node ∈ nodes, nodePos node.1 node.2 < 2 ^ 64) (hparts : parts = front ++ back)
    (hback : ∀ part ∈ back, part.2 = none) {used : List Item}
    (hused : used.length = (front.flatMap (partItems Prod.mk)).length) (rest roots : List Item) :
    ∃ new, (calculate_peaks_hashes.peaks b (H.toMerge : Merge Item μ)
        (nodes.map fun node => nodePos node.1 node.2) (leaves.map leafEntry) (used ++ rest) roots :
          Outcome (Error σ μ) _) =
        ok ([], rest.drop back.length, roots ++ new ++ rest.take back.length) ∧
      new.length = front.length := by
  induction hsections generalizing leaves front used roots with
  | nil left =>
    obtain ⟨rfl, rfl⟩ := List.append_eq_nil_iff.mp hparts.symm
    obtain rfl : leaves = [] := List.map_eq_nil_iff.mp (hleaves.trans hleft)
    obtain rfl : used = [] := List.length_eq_zero_iff.mp hused
    exact ⟨[], by simp [calculate_peaks_hashes.peaks]⟩
  | @skip h m nodes indices left parts hafter tail ih =>
    cases front with
    | nil =>
      rw [List.nil_append] at hparts
      have hsections := Sections.skip hafter tail
      have hnone := hsections.no_leaves (by rwa [hparts]) hleft
      have hlength : ((h, m) :: nodes).length = back.length := by
        rw [← hsections.length_eq, hparts]
      obtain rfl : leaves = [] := List.map_eq_nil_iff.mp (hleaves.trans hnone)
      obtain rfl : used = [] := List.length_eq_zero_iff.mp hused
      exact ⟨[], by rw [List.map_nil, peaks_no_leaves, hlength]; simp, rfl⟩
    | cons part front =>
      obtain ⟨rfl, htail⟩ := List.cons.inj hparts
      obtain ⟨_, hfit'⟩ := List.forall_mem_cons.mp hfit
      rw [List.flatMap_cons, List.length_append] at hused
      obtain ⟨root, used, rfl⟩ := List.exists_cons_of_length_eq_add_one (hused.trans (Nat.add_comm 1 _))
      rw [List.length_cons, Nat.add_comm] at hused
      obtain ⟨new, hloop, hlength⟩ := ih hleaves hleft hfit' htail (Nat.add_left_cancel hused)
        (roots ++ [root])
      rw [List.map_cons, peaks_skip (hleaves ▸ hafter)]
      exact ⟨root :: new, by simpa using hloop, by simpa using hlength⟩
  | @take h m passes nodes requests group indices left parts hne hunder hclimbs hpasses hafter tail ih =>
    cases front with
    | nil =>
      have := hback _ (hparts ▸ List.mem_cons_self)
      simp at this
    | cons part front =>
      obtain ⟨rfl, htail⟩ := List.cons.inj hparts
      obtain ⟨hpeak, hfit'⟩ := List.forall_mem_cons.mp hfit
      obtain ⟨taken, leaves, rfl, rfl, rfl⟩ := List.map_eq_append_iff.mp hleaves
      have hcount : used.length = requests.length + (front.flatMap (partItems Prod.mk)).length := by
        rw [hused, List.flatMap_cons, List.length_append]
        simp [partItems]
      obtain ⟨hshort, _⟩ | ⟨hlong, root, hfolds, hnext⟩ := peaks_group (b := b) (σ := σ) (μ := μ)
        (H := H) hne hunder hclimbs hpasses hafter hpeak (used ++ rest)
      · rw [List.length_append] at hshort
        omega
      · have hcount' : (used.drop requests.length).length =
            (front.flatMap (partItems Prod.mk)).length := by
          rw [List.length_drop]
          omega
        obtain ⟨new, hloop, hlength⟩ := ih rfl hleft hfit' htail hcount' (roots ++ [root])
        rw [List.map_cons, hnext, List.drop_append_of_le_length (by omega)]
        exact ⟨root :: new, by simpa using hloop, by simpa using hlength⟩

/-- When the peak loop ends with no leaf left, a front of the parts was gone
    through, with one root for each, and no leaf is under the peaks behind it. -/
theorem peaks_sound {nodes : List (Nat × Nat)} {indices left : List Nat} {parts : List Share}
    (hsections : Sections nodes indices parts left) {leaves : List (Nat × Item)}
    (hleaves : leaves.map (·.1) = indices)
    (hfit : ∀ node ∈ nodes, nodePos node.1 node.2 < 2 ^ 64) {items rest roots roots' : List Item}
    (hpeaks : (calculate_peaks_hashes.peaks b (H.toMerge : Merge Item μ)
      (nodes.map fun node => nodePos node.1 node.2) (leaves.map leafEntry) items roots :
        Outcome (Error σ μ) _) = ok ([], rest, roots')) :
    ∃ front back used new, parts = front ++ back ∧ (∀ part ∈ back, part.2 = none) ∧
      (back = [] ∨ rest = []) ∧ items = used ++ rest ∧ roots' = roots ++ new ∧
      Roots H.merge front leaves used new ∧ left = [] := by
  induction hsections generalizing leaves items roots with
  | nil left =>
    simp only [List.map_nil, calculate_peaks_hashes.peaks, ok.injEq, Prod.mk.injEq,
      List.map_eq_nil_iff] at hpeaks
    obtain ⟨rfl, rfl, rfl⟩ := hpeaks
    exact ⟨[], [], [], [], rfl, by simp, Or.inl rfl, rfl, by simp, .nil, hleaves.symm⟩
  | @skip h m nodes indices left parts hafter tail ih =>
    obtain ⟨_, hfit'⟩ := List.forall_mem_cons.mp hfit
    rw [List.map_cons, peaks_skip (hleaves ▸ hafter)] at hpeaks
    cases items with
    | nil =>
      simp only [ok.injEq, Prod.mk.injEq, List.map_eq_nil_iff] at hpeaks
      obtain ⟨rfl, rfl, rfl⟩ := hpeaks
      obtain ⟨hparts, hleft⟩ := tail.of_no_leaves hleaves.symm
      exact ⟨[], _, [], [], rfl, by simpa using hparts, Or.inr rfl, rfl, by simp, .nil, hleft⟩
    | cons root items =>
      obtain ⟨front, back, used, new, rfl, hback, hend, rfl, rfl, hroots, hleft⟩ :=
        ih hleaves hfit' hpeaks
      exact ⟨_ :: front, back, root :: used, root :: new, rfl, hback, hend, rfl, by simp,
        .skip root hroots, hleft⟩
  | @take h m passes nodes requests group indices left parts hne hunder hclimbs hpasses hafter tail ih =>
    obtain ⟨hpeak, hfit'⟩ := List.forall_mem_cons.mp hfit
    obtain ⟨taken, leaves, rfl, rfl, rfl⟩ := List.map_eq_append_iff.mp hleaves
    rw [List.map_cons] at hpeaks
    obtain ⟨_, hstop⟩ | ⟨hlong, root, hfolds, hnext⟩ := peaks_group hne hunder hclimbs hpasses hafter
      hpeak items
    · rw [hstop] at hpeaks
      cases hpeaks
    · rw [hnext] at hpeaks
      obtain ⟨front, back, used, new, rfl, hback, hend, hitems, rfl, hroots, hleft⟩ :=
        ih rfl hfit' hpeaks
      refine ⟨_ :: front, back, items.take requests.length ++ used, root :: new, rfl, hback, hend, ?_,
        by simp, .take (by simpa using hne) hfolds (List.length_take_of_le hlong) hroots, hleft⟩
      rw [List.append_assoc, ← hitems, List.take_append_drop]

/-- With exactly the items that the parts request the peak loop gets a root for
    each peak. When these are the roots of a tree, the items and the leaves are
    the values of their nodes in it. -/
theorem peaks_exact (hinj : Function.Injective2 H.merge) {value : Nat → Nat → Item}
    (hvalue : ∀ h k, value (h + 1) k = H.merge (value h (2 * k)) (value h (2 * k + 1)))
    {nodes : List (Nat × Nat)} {indices left : List Nat} {parts : List Share}
    (hsections : Sections nodes indices parts left) {leaves : List (Nat × Item)}
    (hleaves : leaves.map (·.1) = indices) (hleft : left = [])
    (hfit : ∀ node ∈ nodes, nodePos node.1 node.2 < 2 ^ 64) {items : List Item}
    (hitems : items.length = (parts.flatMap (partItems Prod.mk)).length) (roots : List Item) :
    ∃ new, (calculate_peaks_hashes.peaks b (H.toMerge : Merge Item μ)
        (nodes.map fun node => nodePos node.1 node.2) (leaves.map leafEntry) items roots :
          Outcome (Error σ μ) _) = ok ([], [], roots ++ new) ∧ new.length = nodes.length ∧
      (new = (nodes.map fun node => value node.1 node.2) →
        items = parts.flatMap (partItems value) ∧ ∀ leaf ∈ leaves, leaf.2 = value 0 leaf.1) := by
  induction hsections generalizing leaves items roots with
  | nil left =>
    obtain rfl : leaves = [] := List.map_eq_nil_iff.mp (hleaves.trans hleft)
    obtain rfl : items = [] := List.length_eq_zero_iff.mp hitems
    exact ⟨[], by simp [calculate_peaks_hashes.peaks]⟩
  | @skip h m nodes indices left parts hafter tail ih =>
    obtain ⟨_, hfit'⟩ := List.forall_mem_cons.mp hfit
    rw [List.flatMap_cons, List.length_append] at hitems
    obtain ⟨root, items, rfl⟩ := List.exists_cons_of_length_eq_add_one (hitems.trans (Nat.add_comm 1 _))
    rw [List.length_cons, Nat.add_comm] at hitems
    obtain ⟨new, hloop, hlength, hnew⟩ := ih hleaves hleft hfit' (Nat.add_left_cancel hitems)
      (roots ++ [root])
    rw [List.map_cons, peaks_skip (hleaves ▸ hafter)]
    refine ⟨root :: new, by simpa using hloop, by simpa using hlength, fun hall => ?_⟩
    obtain ⟨rfl, htail⟩ := List.cons.inj hall
    obtain ⟨rfl, hleaf⟩ := hnew htail
    exact ⟨rfl, hleaf⟩
  | @take h m passes nodes requests group indices left parts hne hunder hclimbs hpasses hafter tail ih =>
    obtain ⟨hpeak, hfit'⟩ := List.forall_mem_cons.mp hfit
    obtain ⟨taken, leaves, rfl, rfl, rfl⟩ := List.map_eq_append_iff.mp hleaves
    have hcount : items.length = requests.length + (parts.flatMap (partItems Prod.mk)).length := by
      rw [hitems, List.flatMap_cons, List.length_append]
      simp [partItems]
    obtain ⟨hshort, _⟩ | ⟨hlong, root, hfolds, hnext⟩ := peaks_group (b := b) (σ := σ) (μ := μ)
      hne hunder hclimbs hpasses hafter hpeak items
    · omega
    · have hcount' : (items.drop requests.length).length =
          (parts.flatMap (partItems Prod.mk)).length := by
        rw [List.length_drop]
        omega
      obtain ⟨new, hloop, hlength, hnew⟩ := ih rfl hleft hfit' hcount' (roots ++ [root])
      rw [List.map_cons, hnext]
      refine ⟨root :: new, by simpa using hloop, by simpa using hlength, fun hall => ?_⟩
      obtain ⟨rfl, htail⟩ := List.cons.inj hall
      obtain ⟨hrest, hleaf⟩ := hnew htail
      have hentries : (taken.map fun leaf => ((0, leaf.1), leaf.2)).map (·.1) =
          (taken.map (·.1)).map (0, ·) := by
        rw [List.map_map, List.map_map]
        rfl
      obtain ⟨htaken, hused⟩ := hclimbs.folds_of_value hinj hvalue hentries hfolds
      refine ⟨?_, fun leaf hmem => ?_⟩
      · rw [← List.take_append_drop requests.length items, hused, hrest]
        rfl
      · rcases List.mem_append.mp hmem with hfirst | hlast
        · exact htaken _ (List.mem_map_of_mem hfirst)
        · exact hleaf leaf hlast

end Verifier

end merkleberg.mmr
