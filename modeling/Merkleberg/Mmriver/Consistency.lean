import Merkleberg.Mmriver.Binding
import Merkleberg.Mmriver.Roots

open machine machine.Outcome
open forest
open merkleberg.helper

namespace merkleberg.mmriver

variable {Item Store σ μ : Type} {b : Profile}
  {R : MMRStoreReadOps Store Item σ} {W : MMRStoreWriteOps Store Item σ} {H : Hasher Item}
  {data : List Bytes}

section Nodes

/-- Equal nodes of two logs, one of them with children, are at the same place. -/
theorem nodeItem_same_node (hinj : H.PosInjective) {A B : List Bytes} {h k h' k' : Nat} (hinner : 0 < h)
    (hfits : nodePos h k + 1 < 2 ^ 64) (hfits' : nodePos h' k' + 1 < 2 ^ 64)
    (heq : nodeItem H A h k = nodeItem H B h' k') : h = h' ∧ k = k' := by
  obtain ⟨g, rfl⟩ : ∃ g, h = g + 1 := ⟨h - 1, by omega⟩
  rw [nodeItem_succ] at heq
  obtain ⟨_, _, hposition, _⟩ := nodeItem_eq_merge_pos hinj hfits hfits' heq
  exact nodePos_inj (Nat.succ.inj hposition)

/-- Later leaves do not change the nodes that are there. -/
theorem nodeItem_append (H : Hasher Item) {data : List Bytes} (more : List Bytes) {h k : Nat}
    (hinside : 2 ^ h * (k + 1) ≤ data.length) :
    nodeItem H (data ++ more) h k = nodeItem H data h k :=
  treeRoot_congr fun _ _ hi => leafItem_append_left H (Nat.lt_of_lt_of_le hi hinside)

/-- A log has the elements of its peaks in each longer log. -/
theorem peakItems_append (H : Hasher Item) (data more : List Bytes) :
    peakItems H data = (peaks data.length).map fun node => nodeItem H (data ++ more) node.1 node.2 :=
  List.map_congr_left fun _ hnode => (nodeItem_append H more (mem_peaks_iff.mp hnode).1).symm

/-- The peaks of a log have different elements. -/
theorem nodeItem_inj_on_peaks (hinj : H.PosInjective) (hfits : nodeCount data.length + 1 < 2 ^ 64) :
    ∀ x ∈ peaks data.length, ∀ y ∈ peaks data.length,
      nodeItem H data x.1 x.2 = nodeItem H data y.1 y.2 → x = y := by
  have hplace : ∀ node ∈ peaks data.length, nodePos node.1 node.2 + 1 < 2 ^ 64 := by
    intro node hnode
    have hbelow := nodePos_lt_of_peak hnode
    omega
  rintro ⟨h, k⟩ hx ⟨h', k'⟩ hy heq
  rcases Nat.eq_zero_or_pos h with rfl | hinner
  · rcases Nat.eq_zero_or_pos h' with rfl | hinner'
    · have hk := peak_of_height_zero hx
      have hk' := peak_of_height_zero hy
      rw [show k = k' by omega]
    · have hsame := nodeItem_same_node hinj hinner' (hplace _ hy) (hplace _ hx) heq.symm
      exact absurd hsame.1 hinner'.ne'
  · obtain ⟨rfl, rfl⟩ := nodeItem_same_node hinj hinner (hplace _ hx) (hplace _ hy) heq
    rfl

/-- Siblings on the way from each old node to the peak beside it. -/
def pathNodes (olds tops : List (Nat × Nat)) : List (List (Nat × Nat)) :=
  List.zipWith (fun old top => siblings (top.1 - old.1) old.1 old.2) olds tops

/-- The proof paths that have the elements of a log at these siblings. -/
def pathItems (H : Hasher Item) (data : List Bytes) (olds tops : List (Nat × Nat)) : List (List Item) :=
  (pathNodes olds tops).map fun nodes => nodes.map fun node => nodeItem H data node.1 node.2

/-- With the elements of a log, old nodes lead to the peaks above them. -/
theorem leadsTo_of_below (hfits : nodeCount data.length + 1 < allOnesLimit b)
    {olds tops : List (Nat × Nat)} (hbelow : Below data.length olds tops) :
    List.Forall₂ (LeadsTo b (H.toMerge : Merge Item μ))
      (entries (olds.map fun node => nodePos node.1 node.2)
        (olds.map fun node => nodeItem H data node.1 node.2) (pathItems H data olds tops))
      (tops.map fun node => nodeItem H data node.1 node.2) := by
  induction hbelow with
  | nil => exact .nil
  | cons hnode _ ih => exact .cons (included_root_eq H data hfits (mem_peaks_iff.mp hnode.1).1 hnode.2) ih

theorem pathNodes_inside {n : Nat} {olds tops : List (Nat × Nat)} (hbelow : Below n olds tops) :
    ∀ node ∈ (pathNodes olds tops).flatten, 2 ^ node.1 * (node.2 + 1) ≤ n := by
  induction hbelow with
  | nil => simp [pathNodes]
  | cons hnode _ ih =>
    intro node hmem
    rcases List.mem_append.mp hmem with hhere | hlater
    · exact siblings_inside hnode.1 hnode.2 node hhere
    · exact ih node hlater

theorem length_pathItems {n : Nat} {olds tops : List (Nat × Nat)} (hbelow : Below n olds tops) :
    (pathItems H data olds tops).length = olds.length := by
  simp [pathItems, pathNodes, hbelow.length_eq]

/-- The prover finds these paths. Only from index 1 would a checked build not. -/
theorem inclusion_proof_paths_eq {ε : Type} {n : Nat} (hfits : nodeCount n + 1 < allOnesLimit b)
    {olds tops : List (Nat × Nat)} (hbelow : Below n olds tops) (hwraps : (0, 1) ∉ olds) :
    ((olds.map fun node => nodePos node.1 node.2).mapM fun ipeak =>
        inclusion_proof_path b ipeak (nodeCount n - 1) : Outcome ε _) =
      ok ((pathNodes olds tops).map fun nodes => nodes.map fun node => nodePos node.1 node.2) := by
  induction hbelow with
  | nil => rfl
  | @cons old top olds tops hnode _ ih =>
    have hpath := inclusion_proof_path_eq (ε := ε) hnode.1 hfits hnode.2
      (Or.inr fun heq => hwraps (heq ▸ List.mem_cons_self))
    rw [List.map_cons, List.mapM_cons, hpath, ih fun hmem => hwraps (List.mem_cons_of_mem _ hmem)]
    rfl

end Nodes

/-- The flat list of fetched elements is cut back where it was joined. -/
theorem MMRIVER.gen_consistency_proof.cut_eq {α : Type} (position : α → Nat) (item : α → Item)
    (paths : List (List α)) :
    (MMRIVER.gen_consistency_proof.cut (paths.map fun nodes => nodes.map position)
        (paths.flatten.map fun node => some (item node)) : Outcome (Error σ μ) _) =
      ok (paths.map fun nodes => nodes.map item) := by
  induction paths with
  | nil => rfl
  | cons nodes paths ih =>
    have htake : ((nodes ++ paths.flatten).map fun node => some (item node)).take
        (nodes.map position).length =
        nodes.map fun node => some (item node) := by
      rw [List.map_append, List.length_map, List.take_left' (List.length_map _)]
    have hdrop : ((nodes ++ paths.flatten).map fun node => some (item node)).drop
        (nodes.map position).length =
        paths.flatten.map fun node => some (item node) := by
      rw [List.map_append, List.length_map, List.drop_left' (List.length_map _)]
    rw [List.map_cons, List.flatten_cons, MMRIVER.gen_consistency_proof.cut, if_neg (by simp), htake,
      hdrop, mapM_okOr_some, ih]
    rfl

section Holds

variable {S : MapStore R W} {under : Nat → Option Item} {self : MMRIVER Item Store}

/-- The prover answers with the elements on the paths from the old peaks to the
    peaks above them. -/
theorem MMRIVER.Holds.gen_consistency_proof_eq (h : self.Holds b S under H data) {m : Nat} (hm : 0 < m)
    (hle : m ≤ data.length) {tops : List (Nat × Nat)} (hbelow : Below data.length (peaks m) tops) :
    (self.gen_consistency_proof b R (nodeCount m) : Outcome (Error σ μ) _) =
      ok (.new (nodeCount m) (nodeCount data.length) (pathItems H data (peaks m) tops)) := by
  have hlimit := allOnesLimit_le b
  have hfits := h.height_fits
  have hcount := nodeCount_le_nodeCount_iff.mpr hle
  have hpos := nodeCount_pos hm
  have hfrom : (U64.sub b (nodeCount m) 1 : Outcome (Error σ μ) Nat) = ok (nodeCount m - 1) :=
    Word.sub_ok (by omega)
  have hto : (U64.sub b (nodeCount data.length) 1 : Outcome (Error σ μ) Nat) =
      ok (nodeCount data.length - 1) := Word.sub_ok (by omega)
  have hcollect := PeaksMMRIVERIter.collect_eq (ε := Error σ μ) (b := b) hm (by omega)
  rw [bind_eq_ok_iff] at hcollect
  obtain ⟨iter, hiter, hpeaks⟩ := hcollect
  have hwraps : (0, 1) ∉ peaks m := by
    intro hpeak
    have := peak_of_height_zero hpeak
    omega
  have hpaths := inclusion_proof_paths_eq (ε := Error σ μ) hfits hbelow hwraps
  rw [MMRIVER.gen_consistency_proof, h.forest.size, if_neg (by omega)]
  simp only [hfrom, hto, hiter, hpeaks, ok_bind, peakPositions, hpaths, ← List.map_flatten,
    h.get_elems_nodes (pathNodes_inside hbelow), orStoreError_ok,
    MMRIVER.gen_consistency_proof.cut_eq (fun node : Nat × Nat => nodePos node.1 node.2)
      (fun node => nodeItem H data node.1 node.2)]
  rfl

end Holds

/-- A run goes on where another one ended. -/
theorem MMRIVER.Run.trans {M : Merge Item μ} {start middle final : MMRIVER Item Store}
    {more : List Bytes} {positions later : List Nat}
    (run : MMRIVER.Run b M R W start data positions middle)
    (rest : MMRIVER.Run b M R W middle more later final) :
    MMRIVER.Run b M R W start (data ++ more) (positions ++ later) final := by
  induction rest with
  | refl => rwa [List.append_nil, List.append_nil]
  | push _ hpush ih =>
    rw [← List.append_assoc, ← List.append_assoc]
    exact ih.push hpush
  | commit _ hcommit ih => exact ih.commit hcommit

section Complete

variable [DecidableEq Item]

/-- Under 2^61 leaves the proof from any earlier state of a run is produced and
    accepted, and its roots are the first peaks of the new accumulator. -/
theorem MMRIVER.Run.consistency_proofs_complete (S : MapStore R W) (hinj : H.PosInjective)
    {store : Store} {more : List Bytes} {positions later : List Nat} {old new : MMRIVER Item Store}
    (run : MMRIVER.Run b (H.toMerge : Merge Item μ) R W (MMRIVER.new 0 store) data positions old)
    (rest : MMRIVER.Run b (H.toMerge : Merge Item μ) R W old more later new)
    (hne : data ≠ []) (hsmall : (data ++ more).length < 2 ^ 61) :
    ∃ old_accumulator new_accumulator proof roots,
      (old.get_accumulator b R : Outcome (Error σ μ) _) = ok old_accumulator ∧
      (new.get_accumulator b R : Outcome (Error σ μ) _) = ok new_accumulator ∧
      (new.gen_consistency_proof b R old.mmr_size : Outcome (Error σ μ) _) = ok proof ∧
      (proof.verify b (H.toMerge : Merge Item μ) old_accumulator new_accumulator :
        Outcome (Error σ μ) _) = ok true ∧
      (proof.consistent_roots b (H.toMerge : Merge Item μ) old_accumulator :
        Outcome (Error σ μ) _) = ok roots ∧
      roots ≠ [] ∧ roots <+: new_accumulator := by
  have hold_small : data.length < 2 ^ 61 := (List.prefix_append data more).length_le.trans_lt hsmall
  obtain ⟨hold, _⟩ := run.holds S (fun _ => by omega)
  obtain ⟨hnew, _⟩ := (run.trans rest).holds S (fun _ => by omega)
  have hpos : 0 < data.length := List.length_pos_iff.mpr hne
  have hle : data.length ≤ (data ++ more).length := (List.prefix_append data more).length_le
  have hlimit := allOnesLimit_le b
  have hold_fits := hold.height_fits
  have hnew_fits := hnew.height_fits
  obtain ⟨top, tops, news, hnews, hfollows, hbelow⟩ := exists_tops hpos hle
  let item := fun node : Nat × Nat => nodeItem H (data ++ more) node.1 node.2
  let proof := ConsistencyProof.new (nodeCount data.length) (nodeCount (data ++ more).length)
    (pathItems H (data ++ more) (peaks data.length) (top :: tops))
  have hpeaks := peaksOfSize_eq (ε := Error σ μ) (b := b) hpos (by omega)
  have hleads : List.Forall₂ (LeadsTo b (H.toMerge : Merge Item μ))
      (entries (peakPositions data.length) (peakItems H data) proof.proof_paths)
      (item top :: tops.map item) := by
    rw [peakItems_append H data more]
    exact leadsTo_of_below hnew_fits hbelow
  have hpeakItems : peakItems H (data ++ more) = item top :: news.map item := by
    rw [peakItems, hnews, List.map_cons]
  have hfound : Follows (tops.map item) (item top :: news.map item) := by
    refine hfollows.map ?_
    rw [← hnews]
    exact nodeItem_inj_on_peaks hinj (by omega)
  have hlengths : (peakPositions data.length).length = (peakItems H data).length ∧
      (peakPositions data.length).length = proof.proof_paths.length := by
    simp [peakPositions, peakItems, proof, ConsistencyProof.new, length_pathItems hbelow]
  refine ⟨peakItems H data, peakItems H (data ++ more), proof, (tops.map item).destutter' (· ≠ ·) (item top),
    hold.get_accumulator hpos, hnew.get_accumulator (hpos.trans_le hle), ?_, ?_, ?_,
    List.destutter'_ne_nil _ _, ?_⟩
  · rw [hold.forest.size]
    exact hnew.gen_consistency_proof_eq hpos hle hbelow
  · rw [hpeakItems]
    exact ConsistencyProof.verify_iff.mpr ⟨_, _, hpeaks, hlengths.1, hlengths.2, hleads, .stay hfound⟩
  · exact ConsistencyProof.consistent_roots_iff.mpr ⟨_, _, hpeaks, hlengths.1, hlengths.2, hleads, rfl⟩
  · rw [hpeakItems]
    exact hfound.destutter_prefix

end Complete

/-- One leaf and then a second, with the proof that the first is still there. -/
theorem MMRIVER.Run.consistency_proofs_complete_two :
    ∃ old new old_accumulator new_accumulator proof,
      MMRIVER.SymbolicRun .debug [[1]] [0] old ∧ MMRIVER.SymbolicRun .debug [[1], [2]] [0, 1] new ∧
      (old.get_accumulator .debug MemStore.readOps : Outcome (Error Empty Empty) _) =
        ok old_accumulator ∧
      (new.get_accumulator .debug MemStore.readOps : Outcome (Error Empty Empty) _) =
        ok new_accumulator ∧
      (new.gen_consistency_proof .debug MemStore.readOps old.mmr_size : Outcome (Error Empty Empty) _) =
        ok proof ∧
      (proof.verify .debug (Term.hasher.toMerge : Merge (Term Empty) Empty) old_accumulator
        new_accumulator : Outcome (Error Empty Empty) Bool) = ok true := by
  have start : MMRIVER.SymbolicRun .debug [] [] (MMRIVER.new 0 MemStore.new) := .refl
  have run := start.push (d := [1]) rfl
  obtain ⟨old_accumulator, new_accumulator, proof, _, hold, hnew, hgen, hverify, _⟩ :=
    MMRIVER.Run.consistency_proofs_complete (MemStore.mapStore .debug) (Term.hasher_posInjective Empty)
      run (MMRIVER.Run.refl.push (d := [2]) rfl) (by decide) (by decide)
  exact ⟨_, _, old_accumulator, new_accumulator, proof, run, run.push rfl, hold, hnew, hgen, hverify⟩

end merkleberg.mmriver
