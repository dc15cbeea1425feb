import Mathlib.Data.List.Perm.Subperm
import Merkleberg.Mmr.Session
import Merkleberg.Mmriver.Checked
import Merkleberg.Mmriver.Consistency
import Merkleberg.Mmriver.Session

open machine machine.Outcome
open forest
open merkleberg.helper

namespace forest

/-- Every pass requests one sibling at most. -/
theorem Climbs.requests_le {H K passes : Nat} {queue requests : List (Nat × Nat)}
    (hclimbs : Climbs H K passes queue requests) : requests.length ≤ passes := by
  induction hclimbs with
  | done => exact Nat.zero_le _
  | pair _ _ _ ih => exact Nat.le_succ_of_le ih
  | request _ _ _ _ ih => exact Nat.succ_le_succ ih

/-- The parts up to the last one with a leaf have no more items than the leaves have levels
    above them. Every peak without leaves before it is a level less for the rest: the
    induction is on the peaks, whose heights go down. -/
theorem Sections.length_le {α : Type} (value : Nat → Nat → α) {nodes : List (Nat × Nat)}
    {leaves left : List Nat} {parts front back : List Share} (hsections : Sections nodes leaves parts left)
    (hleft : left = []) (hparts : parts = front ++ back) (hlast : ∀ part ∈ front.getLast?, part.2 ≠ none)
    (hback : ∀ part ∈ back, part.2 = none)
    (hheights : nodes.Pairwise fun first second => second.1 < first.1) {top : Nat}
    (htop : ∀ node ∈ nodes, node.1 ≤ top) (hne : leaves ≠ []) :
    (front.flatMap (partItems value)).length ≤ leaves.length * top := by
  induction hsections generalizing front top with
  | nil left => exact absurd hleft hne
  | @skip h m nodes leaves left parts hafter tail ih =>
    obtain ⟨hsmaller, hlower⟩ := List.pairwise_cons.mp hheights
    have hh := htop _ List.mem_cons_self
    cases front with
    | nil =>
      subst hparts
      exact absurd ((Sections.skip hafter tail).no_leaves hback hleft) hne
    | cons part front =>
      obtain ⟨rfl, rfl⟩ := List.cons.inj hparts
      cases front with
      | nil => exact absurd rfl (hlast _ rfl)
      | cons next front =>
        obtain ⟨node, hnode⟩ : ∃ node, node ∈ nodes :=
          List.exists_mem_of_length_pos (by rw [← tail.length_eq]; simp)
        have hbelow := hsmaller node hnode
        obtain ⟨level, rfl⟩ := Nat.exists_eq_add_one_of_ne_zero (show h ≠ 0 by omega)
        have hrest := ih hleft rfl (by simpa using hlast) hlower
          (fun node hnode => Nat.le_of_lt_succ (hsmaller node hnode)) hne
        have hsome := List.length_pos_iff.mpr hne
        calc ((((level + 1, m), none) :: next :: front).flatMap (partItems value)).length
          _ = 1 + ((next :: front).flatMap (partItems value)).length := by
            rw [List.flatMap_cons, List.length_append]
            rfl
          _ ≤ leaves.length + leaves.length * level := Nat.add_le_add hsome hrest
          _ = leaves.length * (level + 1) := by ring
          _ ≤ leaves.length * top := Nat.mul_le_mul_left _ hh
  | @take h m passes nodes requests group leaves left parts hgroup hunder hclimbs hpasses hafter tail ih =>
    obtain ⟨hsmaller, hlower⟩ := List.pairwise_cons.mp hheights
    have hh := htop _ List.mem_cons_self
    have hhere : requests.length ≤ group.length * top := by
      calc requests.length
        _ ≤ passes := hclimbs.requests_le
        _ ≤ group.length * h := hpasses.trans_eq (Nat.mul_comm _ _)
        _ ≤ group.length * top := Nat.mul_le_mul_left _ hh
    cases front with
    | nil =>
      subst hparts
      exact absurd (hback _ List.mem_cons_self) (Option.some_ne_none _)
    | cons part front =>
      obtain ⟨rfl, rfl⟩ := List.cons.inj hparts
      have hrest : (front.flatMap (partItems value)).length ≤ leaves.length * top := by
        cases front with
        | nil => exact Nat.zero_le _
        | cons next front =>
          refine ih hleft rfl (by simpa using hlast) hlower
            (fun node hnode => htop node (List.mem_cons_of_mem _ hnode)) ?_
          rintro rfl
          have hnone := (tail.of_no_leaves rfl).1
          have hend := List.getLast?_eq_some_getLast (List.cons_ne_nil next front)
          refine hlast _ (by simpa using hend) (hnone _ ?_)
          exact List.mem_append_left _ (List.getLast_mem _)
      rw [List.flatMap_cons, List.length_append, List.length_append, Nat.add_mul]
      refine Nat.add_le_add ?_ hrest
      simpa [partItems] using hhere

end forest

namespace merkleberg

variable {Item Store σ μ : Type} {b : Profile} {R : MMRStoreReadOps Store Item σ}
  {W : MMRStoreWriteOps Store Item σ} {H : Hasher Item} {data : List Bytes} {positions : List Nat}

theorem le_log2_of_peak {n : Nat} {node : Nat × Nat} (hpeak : node ∈ peaks n) : node.1 ≤ n.log2 := by
  have hinside : 2 ^ node.1 * (node.2 + 1) ≤ n := (mem_peaks_iff.mp hpeak).1
  have hpos := Nat.two_pow_pos node.1
  have hwidth : 2 ^ node.1 * 1 ≤ 2 ^ node.1 * (node.2 + 1) := Nat.mul_le_mul_left _ (Nat.le_add_left 1 _)
  exact (Nat.le_log2 (by omega)).mpr (by omega)

/-- There is one peak for a height at most. -/
theorem length_peaks_le (n : Nat) : (peaks n).length ≤ n.log2 + 1 := by
  have hnodup : ((peaks n).map (·.1)).Nodup :=
    List.pairwise_map.mpr ((peaks_heights n).imp fun hlower => hlower.ne')
  have hsub : (peaks n).map (·.1) ⊆ List.range (n.log2 + 1) := by
    intro height hheight
    obtain ⟨node, hpeak, rfl⟩ := List.mem_map.mp hheight
    exact List.mem_range.mpr (Nat.lt_succ_of_le (le_log2_of_peak hpeak))
  simpa using (List.Nodup.subperm hnodup hsub).length_le

namespace mmr

theorem trailingPeaks_of_none {count : Nat} {parts : List Share} (hnone : ∀ part ∈ parts, part.2 = none) :
    trailingPeaks count parts = count + parts.length := by
  induction parts generalizing count with
  | nil => rfl
  | cons part parts ih =>
    obtain ⟨hpart, hparts⟩ := List.forall_mem_cons.mp hnone
    have hstep : trailingPeaks count (part :: parts) = trailingPeaks (count + 1) parts := by
      rw [trailingPeaks, List.foldl_cons, if_pos hpart]
      rfl
    rw [hstep, ih hparts, List.length_cons]
    omega

/-- Behind the last part with a leaf all peaks are counted. -/
theorem ne_none_of_trailing {front back : List Share} (hback : ∀ part ∈ back, part.2 = none)
    (hcount : trailingPeaks 0 (front ++ back) = back.length) :
    ∀ part ∈ front.getLast?, part.2 ≠ none := by
  intro part hpart hnone
  obtain ⟨before, rfl⟩ := List.getLast?_eq_some_iff.mp hpart
  have hfold : trailingPeaks 0 (before ++ [part] ++ back) =
      trailingPeaks (trailingPeaks 0 before) (part :: back) := by
    simp [trailingPeaks, List.foldl_append]
  rw [hfold, trailingPeaks_of_none (List.forall_mem_cons.mpr ⟨hnone, hback⟩), List.length_cons] at hcount
  omega

theorem MMR.Holds.gen_proof_length {S : MapStore R W} {under : Nat → Option Item} {self : MMR Item Store}
    (hself : self.Holds S under H data) {pos_list : List Nat} (hwords : ∀ p ∈ pos_list, p < 2 ^ 64)
    {proof : InclusionProof Item}
    (hgen : (self.gen_proof b (H.toMerge : Merge Item μ) R pos_list : Outcome (Error σ μ) _) = ok proof) :
    proof.proof.length ≤ pos_list.length * data.length.log2 + 1 := by
  by_cases hvalid : pos_list ≠ [] ∧ ∀ p ∈ pos_list, ∃ i < data.length, nodeCount i = p
  · obtain ⟨indices, front, back, hsorted, hcover, hsections, hback, hcount, hproof⟩ :=
      hself.gen_proof_leaves (b := b) (μ := μ) hvalid.1 hvalid.2
    obtain rfl := ok.inj (hproof.symm.trans hgen)
    have hne : indices ≠ [] := by
      rintro rfl
      obtain ⟨p, hp⟩ := List.exists_mem_of_ne_nil _ hvalid.1
      simpa using (hcover p).mp hp
    have hfront := hsections.length_le (nodeItem H data) rfl rfl (ne_none_of_trailing hback hcount) hback
      (peaks_heights data.length) (fun node => le_log2_of_peak) hne
    have hfewer : indices.length ≤ pos_list.length := by
      have hnodup : (indices.map nodeCount).Nodup :=
        List.Nodup.map nodeCount_strictMono.injective (hsorted.imp Nat.ne_of_lt)
      simpa using (List.Nodup.subperm hnodup fun p hp => (hcover p).mpr hp).length_le
    have hone : (bagPeaks H.merge_peaks
        (back.map fun part => nodeItem H data part.1.1 part.1.2)).toList.length ≤ 1 := by
      cases bagPeaks H.merge_peaks (back.map fun part => nodeItem H data part.1.1 part.1.2) <;> simp
    rw [proofItems, List.length_append]
    exact Nat.add_le_add (hfront.trans (Nat.mul_le_mul_right _ hfewer)) hone
  · obtain ⟨error, herr⟩ := hself.gen_proof_err (b := b) (μ := μ) hwords hvalid
    rw [herr] at hgen
    cases hgen

end mmr

namespace mmriver

theorem length_siblings (levels h k : Nat) : (siblings levels h k).length = levels := by
  induction levels generalizing h k with
  | zero => rfl
  | succ levels ih => rw [siblings, List.length_cons, ih]

theorem length_le_of_mem_pathNodes {n : Nat} {olds tops : List (Nat × Nat)} (hbelow : Below n olds tops) :
    ∀ nodes ∈ pathNodes olds tops, nodes.length ≤ n.log2 := by
  induction hbelow with
  | nil => simp [pathNodes]
  | cons hnode _ ih =>
    intro nodes hnodes
    rcases List.mem_cons.mp hnodes with rfl | hlater
    · rw [length_siblings]
      exact (Nat.sub_le _ _).trans (le_log2_of_peak hnode.1)
    · exact ih nodes hlater

theorem MMRIVER.Holds.gen_inclusion_proof_length {S : MapStore R W} {under : Nat → Option Item}
    {self : MMRIVER Item Store} (hself : self.Holds b S under H data) {index : Nat}
    {proof : InclusionProof Item}
    (hgen : (self.gen_inclusion_proof b R index : Outcome (Error σ μ) _) = ok proof) :
    proof.proof.length ≤ data.length.log2 := by
  by_cases hindex : index < self.mmr_size
  · rw [hself.forest.size] at hindex
    obtain ⟨height, k, rfl⟩ := exists_nodePos index
    obtain ⟨⟨top, place⟩, hpeak, hunder⟩ := exists_peak_above (nodePos_lt_nodeCount_iff.mp hindex)
    by_cases hwraps : b = .release ∨ (height, k) ≠ (0, 1)
    · obtain rfl := ok.inj ((hself.gen_inclusion_proof_eq hpeak hunder hwraps).symm.trans hgen)
      have htop := le_log2_of_peak hpeak
      rw [InclusionProof.new, List.length_map, length_siblings]
      exact (Nat.sub_le _ _).trans htop
    · -- A checked build does not get to the path of the second leaf.
      obtain ⟨hdebug, hsecond⟩ := not_or.mp hwraps
      obtain ⟨rfl, rfl⟩ := Prod.mk.inj (not_not.mp hsecond)
      cases b with
      | release => exact absurd rfl hdebug
      | debug =>
        rw [MMRIVER.gen_inclusion_proof, if_neg (by rw [hself.forest.size]; omega)] at hgen
        obtain ⟨c, _, hgen⟩ := bind_eq_ok_iff.mp hgen
        obtain ⟨path, hpath, _⟩ := bind_eq_ok_iff.mp hgen
        rw [show nodePos 0 1 = 1 from rfl, inclusion_proof_path_one] at hpath
        cases hpath
  · rw [MMRIVER.gen_inclusion_proof, if_pos (Nat.not_lt.mp hindex)] at hgen
    cases hgen

theorem MMRIVER.Holds.gen_consistency_proof_length {S : MapStore R W} {under : Nat → Option Item}
    {self : MMRIVER Item Store} (hself : self.Holds b S under H data) {m : Nat} (hm : 0 < m)
    (hle : m ≤ data.length) {proof : ConsistencyProof Item}
    (hgen : (self.gen_consistency_proof b R (nodeCount m) : Outcome (Error σ μ) _) = ok proof) :
    proof.proof_paths.length ≤ m.log2 + 1 ∧
      ∀ path ∈ proof.proof_paths, path.length ≤ data.length.log2 := by
  obtain ⟨top, tops, _, _, _, hbelow⟩ := exists_tops hm hle
  obtain rfl := ok.inj ((hself.gen_consistency_proof_eq hm hle hbelow).symm.trans hgen)
  constructor
  · rw [ConsistencyProof.new, length_pathItems hbelow]
    exact length_peaks_le m
  · intro path hpath
    obtain ⟨nodes, hnodes, rfl⟩ := List.mem_map.mp hpath
    rw [List.length_map]
    exact length_le_of_mem_pathNodes hbelow nodes hnodes

end mmriver

/-- Proofs are short. Over `n` leaves, an MMR proof has no more than `log2 n` items for each
    position that is asked for, and one more for the peaks behind. An inclusion proof of an
    MMRIVER has no more than `log2 n` items, and a consistency proof from `m` leaves no more
    than `log2 m + 1` paths of this length. -/
theorem proofs_short (S : MapStore R W) {store : Store} (hfit : b = .release → data.length < 2 ^ 63) :
    (∀ final, mmr.MMR.Session b (H.toMerge : Merge Item μ) R W (.new 0 store) data positions final →
      ∀ pos_list proof, (∀ p ∈ pos_list, p < 2 ^ 64) →
        (final.gen_proof b (H.toMerge : Merge Item μ) R pos_list : Outcome (Error σ μ) _) = ok proof →
        proof.proof.length ≤ pos_list.length * data.length.log2 + 1) ∧
    ∀ final, mmriver.MMRIVER.Session b (H.toMerge : Merge Item μ) R W (.new 0 store) data positions final →
      (∀ index proof, (final.gen_inclusion_proof b R index : Outcome (Error σ μ) _) = ok proof →
        proof.proof.length ≤ data.length.log2) ∧
      ∀ m proof, 0 < m → m ≤ data.length →
        (final.gen_consistency_proof b R (nodeCount m) : Outcome (Error σ μ) _) = ok proof →
        proof.proof_paths.length ≤ m.log2 + 1 ∧
          ∀ path ∈ proof.proof_paths, path.length ≤ data.length.log2 := by
  refine ⟨fun final session pos_list proof hwords hgen => ?_, fun final session => ?_⟩
  · obtain ⟨hfinal, _⟩ := session.holds S (.refl _) fun hb => (hfit hb).le
    exact hfinal.gen_proof_length hwords hgen
  · obtain ⟨hfinal, _⟩ := session.holds S (.refl _) hfit
    exact ⟨fun index proof hgen => hfinal.gen_inclusion_proof_length hgen,
      fun m proof hm hle hgen => hfinal.gen_consistency_proof_length hm hle hgen⟩

/-- Three leaves in memory, and two items for the first of them. -/
theorem proofs_short_three :
    ∃ (final : mmr.MMR (Term Empty) (MemStore (Term Empty))) (proof : mmr.InclusionProof (Term Empty)),
      mmr.MMR.SymbolicRun .debug [[1], [2], [3]] [0, 1, 3] final ∧
      (final.gen_proof .debug (Term.hasher.toMerge : Merge (Term Empty) Empty) MemStore.readOps [0] :
        Outcome (Error Empty Empty) _) = ok proof ∧
      proof.proof.length ≤ 2 := by
  have start : mmr.MMR.SymbolicRun .debug [] [] (mmr.MMR.new 0 MemStore.new) := .refl
  have run := ((start.push (d := [1]) rfl).push (d := [2]) rfl).push (d := [3]) rfl
  exact ⟨_, .new 4 [.leaf [2], .leaf [3]], run, rfl,
    (proofs_short (MemStore.mapStore .debug) fun hb => by cases hb).1 _ run.session [0] _ (by decide) rfl⟩

end merkleberg
