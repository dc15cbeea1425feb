import Merkleberg.Mmriver.Inclusion

open machine machine.Outcome
open forest
open merkleberg.helper

namespace merkleberg

/-- Position hashing that can be read back: its results determine the position
    and both children, and no leaf has one. Positions are words. -/
structure Hasher.PosInjective {Item : Type} (H : Hasher Item) : Prop where
  merge_pos_inj : ∀ {pos pos' : Nat} {left right left' right' : Item}, pos < 2 ^ 64 → pos' < 2 ^ 64 →
    H.merge_pos pos left right = H.merge_pos pos' left' right' →
      pos = pos' ∧ left = left' ∧ right = right'
  merge_pos_ne_leaf : ∀ {pos : Nat} {left right : Item} {data : Bytes}, pos < 2 ^ 64 →
    H.merge_pos pos left right ≠ H.leaf_hash data

theorem Term.hasher_posInjective (Item : Type) : (Term.hasher : Hasher (Term Item)).PosInjective where
  merge_pos_inj _ _ hnode := Term.node.inj hnode
  merge_pos_ne_leaf _ hnode := by cases hnode

namespace mmriver

variable {Item Store σ μ : Type} {b : Profile}
  {R : MMRStoreReadOps Store Item σ} {W : MMRStoreWriteOps Store Item σ} {H : Hasher Item}
  {data : List Bytes}

/-- A node that is a hash of two values is not a leaf, has the position that was
    hashed, and has the two values as its children. -/
theorem nodeItem_eq_merge_pos (hinj : H.PosInjective) {h k pos : Nat} {left right : Item}
    (hpos : pos < 2 ^ 64) (hfits : nodePos h k + 1 < 2 ^ 64)
    (heq : H.merge_pos pos left right = nodeItem H data h k) :
    ∃ g, h = g + 1 ∧ pos = nodePos h k + 1 ∧ left = nodeItem H data g (2 * k) ∧
      right = nodeItem H data g (2 * k + 1) := by
  cases h with
  | zero => exact absurd heq (hinj.merge_pos_ne_leaf hpos)
  | succ g =>
    rw [nodeItem_succ] at heq
    obtain ⟨hpos', hleft, hright⟩ := hinj.merge_pos_inj hpos hfits heq
    exact ⟨g, rfl, hpos', hleft, hright⟩

/-- A node that is the hash of a value and its sibling is their parent. -/
theorem nodeItem_eq_mergeAt (hinj : H.PosInjective) {h k g m : Nat} {x y : Item}
    (hpos : nodePos (g + 1) (m / 2) + 1 < 2 ^ 64) (hfits : nodePos h k + 1 < 2 ^ 64)
    (heq : mergeAt (H.merge_pos (nodePos (g + 1) (m / 2) + 1)) m x y = nodeItem H data h k) :
    h = g + 1 ∧ k = m / 2 ∧ x = nodeItem H data g m := by
  rw [mergeAt] at heq
  split at heq
  · rename_i hodd
    obtain ⟨level, rfl, hposition, _, hright⟩ := nodeItem_eq_merge_pos hinj hpos hfits heq
    obtain ⟨hheight, rfl⟩ := nodePos_inj (Nat.succ.inj hposition)
    obtain rfl := Nat.succ.inj hheight
    rw [show 2 * (m / 2) + 1 = m by omega] at hright
    exact ⟨rfl, rfl, hright⟩
  · rename_i heven
    obtain ⟨level, rfl, hposition, hleft, _⟩ := nodeItem_eq_merge_pos hinj hpos hfits heq
    obtain ⟨hheight, rfl⟩ := nodePos_inj (Nat.succ.inj hposition)
    obtain rfl := Nat.succ.inj hheight
    rw [show 2 * (m / 2) = m by omega] at hleft
    exact ⟨rfl, rfl, hleft⟩

/-- Whatever the index says, a pass of the verifier hashes its value with the
    next item of the path at some position of a word. -/
theorem included_root_climb_cons {g i : Nat} {x sibling root : Item} {proof : List Item}
    (hclimb : included_root.climb b (H.toMerge : Merge Item μ) g i x (sibling :: proof) = ok root) :
    ∃ next above pos left right, pos < 2 ^ 64 ∧ (x = left ∨ x = right) ∧
      included_root.climb b (H.toMerge : Merge Item μ) next above (H.merge_pos pos left right) proof =
        ok root := by
  have hword : ∀ {y pos : Nat}, (U64.add b y 1 : Outcome μ Nat) = ok pos → pos < 2 ^ 64 := by
    intro y pos hadd
    rw [(Word.eq_of_add_ok hadd).1]
    exact Nat.mod_lt _ (Nat.two_pow_pos 64)
  simp only [included_root.climb, bind_eq_ok_iff] at hclimb
  obtain ⟨next, _, above, _, height, _, hclimb⟩ := hclimb
  split at hclimb
  · simp only [bind_eq_ok_iff, Hasher.toMerge_merge_pos, ok.injEq] at hclimb
    obtain ⟨current, _, pos, hpos, _, rfl, hrest⟩ := hclimb
    exact ⟨next, current, pos, sibling, x, hword hpos, Or.inr rfl, hrest⟩
  · simp only [bind_eq_ok_iff, Hasher.toMerge_merge_pos, ok.injEq] at hclimb
    obtain ⟨_, _, current, _, pos, hpos, _, rfl, hrest⟩ := hclimb
    exact ⟨next, current, pos, x, sibling, hword hpos, Or.inl rfl, hrest⟩

/-- A path that leads to a node started from a node below it, one level down for
    each item. -/
theorem included_root_climb_descends (hinj : H.PosInjective) {h k : Nat}
    (hfits : nodePos h k + 1 < 2 ^ 64) {g i : Nat} {x : Item} {proof : List Item}
    (hclimb : included_root.climb b (H.toMerge : Merge Item μ) g i x proof =
      ok (nodeItem H data h k)) :
    proof.length ≤ h ∧ ∃ m, Under (h - proof.length) m h k ∧
      x = nodeItem H data (h - proof.length) m := by
  induction proof generalizing g i x with
  | nil =>
    rw [included_root.climb, bind_eq_ok_iff] at hclimb
    obtain ⟨_, _, hroot⟩ := hclimb
    exact ⟨Nat.zero_le h, k, under_refl h k, ok.inj hroot⟩
  | cons sibling proof ih =>
    obtain ⟨_, _, pos, left, right, hpos, hchild, hrest⟩ := included_root_climb_cons hclimb
    obtain ⟨hlength, m, hunder, hnode⟩ := ih hrest
    have hle := hunder.nodePos_le
    obtain ⟨level, hlevel, _, hleft, hright⟩ := nodeItem_eq_merge_pos hinj hpos (by omega) hnode
    rw [hlevel] at hunder
    have hshort : h - (sibling :: proof).length = level := by
      rw [List.length_cons]
      omega
    refine ⟨by rw [List.length_cons]; omega, ?_⟩
    rw [hshort]
    rcases hchild with rfl | rfl
    · refine ⟨2 * m, Under.parent ?_, hleft⟩
      rwa [show 2 * m / 2 = m by omega]
    · refine ⟨2 * m + 1, Under.parent ?_, hright⟩
      rwa [show (2 * m + 1) / 2 = m by omega]

/-- A path with an item that leads to a node of a log binds its start: the value
    is that of the log at the index, and the index lies below the node. -/
theorem included_root_climb_binds (hinj : H.PosInjective) {h k : Nat}
    (hfits : nodePos h k + 1 < 2 ^ 64) {g m : Nat} (hindex : IndexFits b g m) {x sibling : Item}
    {proof : List Item}
    (hclimb : included_root.climb b (H.toMerge : Merge Item μ) g (nodePos g m) x (sibling :: proof) =
      ok (nodeItem H data h k)) :
    x = nodeItem H data g m ∧ Under g m h k ∧ g < h := by
  rw [included_root_step hindex] at hclimb
  obtain ⟨hlength, m', hunder, hnode⟩ := included_root_climb_descends hinj hfits hclimb
  have hparent_fits : nodePos (g + 1) (m / 2) + 1 < 2 ^ 64 := by
    have hbound := hindex.parent_fits
    have hup := nodePos_relatives g m
    have hpos := Nat.two_pow_pos (g + 1)
    omega
  have hle := hunder.nodePos_le
  obtain ⟨hheight, rfl, rfl⟩ := nodeItem_eq_mergeAt hinj hparent_fits (by omega) hnode
  rw [hheight] at hunder
  exact ⟨rfl, hunder.parent, hunder.1⟩

/-- With an item on the path a checked verifier that returns had an index under
    2^63 - 2. -/
theorem IndexFits.of_included_root_debug {g m : Nat} {x sibling root : Item} {proof : List Item}
    (hroot : included_root .debug (H.toMerge : Merge Item μ) (nodePos g m) x (sibling :: proof) =
      ok root) : IndexFits .debug g m := by
  simp only [included_root, included_root.climb, bind_eq_ok_iff] at hroot
  obtain ⟨_, _, _, _, above, habove, _, hheight, _⟩ := hroot
  obtain ⟨_, rfl⟩ := Word.add_debug_eq_ok_iff.mp habove
  have hlimit := lt_allOnesLimit_of_debug hheight
  simp only [allOnesLimit] at hlimit
  exact IndexFits.of_lt (by omega)

/-- A checked verifier that gets to a node of a log along a path with an item
    started from the element of the log at its index. -/
theorem included_root_binds (hinj : H.PosInjective) {h k index : Nat}
    (hfits : nodePos h k + 1 < 2 ^ 64) {x sibling : Item} {proof : List Item}
    (hroot : included_root .debug (H.toMerge : Merge Item μ) index x (sibling :: proof) =
      ok (nodeItem H data h k)) :
    ∃ g m, index = nodePos g m ∧ x = nodeItem H data g m ∧ Under g m h k ∧ g < h := by
  obtain ⟨g, m, rfl⟩ := exists_nodePos index
  have hindex := IndexFits.of_included_root_debug hroot
  rw [included_root_eq_climb hindex] at hroot
  exact ⟨g, m, rfl, included_root_climb_binds hinj hfits hindex hroot⟩

/-- Without a path the index is not looked at. -/
theorem included_root_nil {M : Merge Item μ} {index : Nat} (hindex : index < 2 ^ 64) (nodehash : Item) :
    included_root b M index nodehash [] = panic ∨ included_root b M index nodehash [] = ok nodehash := by
  obtain hpanic | ⟨height, hsmall, hheight⟩ := index_height_mmriver_returns (b := b) (ε := μ) hindex
  · exact .inl (by rw [included_root, hpanic, panic_bind])
  · have hnext : (U8.add b height 1 : Outcome μ Nat) = ok (height + 1) := Word.add_ok (by omega)
    exact .inr (by rw [included_root, hheight, ok_bind, included_root.climb, hnext, ok_bind])

section Verify

variable [DecidableEq Item]

/-- The verifier accepts only a root that is among the peaks. -/
theorem InclusionProof.mem_of_verify {proof : InclusionProof Item} {nodehash : Item}
    {accumulator : List Item}
    (hverify : (proof.verify b (H.toMerge : Merge Item μ) nodehash accumulator :
      Outcome (Error σ μ) Bool) = ok true) :
    ∃ root ∈ accumulator, proof.included_root b (H.toMerge : Merge Item μ) nodehash = ok root := by
  simp only [InclusionProof.verify, bind_eq_ok_iff] at hverify
  obtain ⟨root, hroot, iter, _, hanswer⟩ := hverify
  split at hanswer
  · cases hanswer
  · obtain ⟨peak, hpeak, heq⟩ := List.any_eq_true.mp (ok.inj hanswer)
    rw [← of_decide_eq_true heq] at hroot
    exact ⟨peak, hpeak, mapErr_eq_ok_iff.mp hroot⟩

/-- In a checked build a path with at least one item binds: whatever index it
    claims and however long it is, an accepted value is the element that the tree
    stores at that index. -/
theorem MMRIVER.Run.path_binds (S : MapStore R W) (hinj : H.PosInjective) {store : Store}
    {positions : List Nat} {final : MMRIVER Item Store}
    (run : MMRIVER.Run .debug (H.toMerge : Merge Item μ) R W (MMRIVER.new 0 store) data positions final)
    (hne : data ≠ []) :
    ∃ accumulator, (final.get_accumulator .debug R : Outcome (Error σ μ) _) = ok accumulator ∧
      ∀ (index : Nat) (path : List Item) (nodehash : Item), path ≠ [] →
        ((InclusionProof.new index path).verify .debug (H.toMerge : Merge Item μ) nodehash accumulator :
          Outcome (Error σ μ) Bool) = ok true →
        index < final.mmr_size ∧ final.batch.get_elem .debug R index = ok (some nodehash) := by
  obtain ⟨hfinal, _⟩ := run.holds S (fun hb => by cases hb)
  refine ⟨_, hfinal.get_accumulator (List.length_pos_iff.mpr hne), ?_⟩
  intro index path nodehash hpath hverify
  obtain ⟨sibling, rest, rfl⟩ := List.exists_cons_of_ne_nil hpath
  obtain ⟨_, hmem, hroot⟩ := InclusionProof.mem_of_verify hverify
  obtain ⟨⟨h, k⟩, hpeak, rfl⟩ := List.mem_map.mp hmem
  have htop := (mem_peaks_iff.mp hpeak).1
  have hfits : nodePos h k + 1 < 2 ^ 64 := by
    have hbelow := nodePos_lt_nodeCount_iff.mpr htop
    have hlimit := allOnesLimit_le .debug
    have hheight := hfinal.height_fits
    omega
  obtain ⟨g, m, rfl, rfl, hunder, _⟩ := included_root_binds hinj hfits hroot
  have hinside := hunder.leaves.2.trans htop
  rw [hfinal.forest.size]
  exact ⟨nodePos_lt_nodeCount_iff.mpr hinside, hfinal.get_elem_eq hinside⟩

/-- An index after which no other fits claims no peaks. -/
theorem InclusionProof.verify_last_index {proof : InclusionProof Item} {nodehash root : Item}
    (accumulator : List Item) (hindex : proof.index = 2 ^ 64 - 1)
    (hroot : proof.included_root .release (H.toMerge : Merge Item μ) nodehash = ok root) :
    (proof.verify .release (H.toMerge : Merge Item μ) nodehash accumulator : Outcome (Error σ μ) Bool) =
      ok false := by
  have hnext : (U64.add .release (2 ^ 64 - 1) 1 : Outcome (Error σ μ) Nat) = ok 0 := rfl
  have hlen : ({ peak := 0, remaining := 0 } : PeaksMMRIVERIter).len = 0 := by
    rw [PeaksMMRIVERIter.len, U64.countOnes, popcount_zero]
  simp only [InclusionProof.verify, hroot, orMergeError_ok, PeaksMMRIVERIter.new, hindex, hnext, ok_bind,
    hlen, if_true]

/-- An empty path does not bind its index: whatever index it claims, the verifier
    that returns accepts just the elements that the tree stores at its peaks. The
    one exception is the last index of all, which an unchecked build rejects. -/
theorem MMRIVER.Run.empty_path_binds (S : MapStore R W) {store : Store} {positions : List Nat}
    {final : MMRIVER Item Store}
    (run : MMRIVER.Run b (H.toMerge : Merge Item μ) R W (MMRIVER.new 0 store) data positions final)
    (hne : data ≠ []) (hfit : b = .release → data.length < 2 ^ 63) :
    ∃ accumulator peak_positions,
      (final.get_accumulator b R : Outcome (Error σ μ) _) = ok accumulator ∧
      (do let iter ← PeaksMMRIVERIter.new b (final.mmr_size - 1)
          collect (PeaksMMRIVERIter.next b) iter : Outcome (Error σ μ) _) = ok peak_positions ∧
      ∀ (index : Nat) (nodehash : Item), index < 2 ^ 64 →
        ((InclusionProof.new index []).verify b (H.toMerge : Merge Item μ) nodehash accumulator :
          Outcome (Error σ μ) Bool) ≠ panic →
        ∃ answer, ((InclusionProof.new index []).verify b (H.toMerge : Merge Item μ) nodehash
            accumulator : Outcome (Error σ μ) Bool) = ok answer ∧
          (answer = true ↔ index ≠ 2 ^ 64 - 1 ∧
            ∃ p ∈ peak_positions, final.batch.get_elem b R p = ok (some nodehash)) := by
  obtain ⟨hfinal, _⟩ := run.holds S hfit
  have hpos := List.length_pos_iff.mpr hne
  have hpeaks := PeaksMMRIVERIter.collect_eq (ε := Error σ μ) (b := b) hpos
    (hfinal.height_fits.trans_le ((allOnesLimit_le b).trans (Nat.sub_le _ _)))
  rw [← hfinal.forest.size] at hpeaks
  refine ⟨_, _, hfinal.get_accumulator hpos, hpeaks, fun index nodehash hindex hreturns => ?_⟩
  obtain hpanic | hroot := included_root_nil (b := b) (M := (H.toMerge : Merge Item μ)) hindex nodehash
  · rw [InclusionProof.verify, InclusionProof.included_root, InclusionProof.new, hpanic] at hreturns
    exact absurd rfl hreturns
  · by_cases hlast : index = 2 ^ 64 - 1
    · cases b with
      | debug =>
        -- A checked build has panicked here.
        have hheight := index_height_mmriver_debug_panic (ε := μ) (p := index)
          (by rw [hlast]; decide)
        rw [included_root, hheight] at hroot
        cases hroot
      | release =>
        refine ⟨false, InclusionProof.verify_last_index (peakItems H data) hlast hroot, ?_⟩
        simp [hlast]
    · refine ⟨_, InclusionProof.verify_eq_mem (peakItems H data) (show index + 1 < 2 ^ 64 by omega)
        hroot, ?_⟩
      rw [decide_eq_true_iff, and_iff_right hlast, peakItems_eq, List.mem_map]
      refine exists_congr fun p => and_congr_right fun hp => ?_
      rw [hfinal.forest.get_elem_eq (lt_of_mem_peakPositions p hp), ok.injEq, Option.some.injEq]

end Verify

/-- Two leaves in memory, and the proof of the second by the first. -/
theorem MMRIVER.Run.path_binds_two :
    ∃ final accumulator, MMRIVER.SymbolicRun .debug [[1], [2]] [0, 1] final ∧
      ((InclusionProof.new 1 [.leaf [1]]).verify .debug (Term.hasher.toMerge : Merge (Term Empty) Empty)
        (.leaf [2]) accumulator : Outcome (Error Empty Empty) Bool) = ok true ∧
      (final.batch.get_elem .debug MemStore.readOps 1 : Outcome Empty _) = ok (some (.leaf [2])) := by
  have start : MMRIVER.SymbolicRun .debug [] [] (MMRIVER.new 0 MemStore.new) := .refl
  have run := (start.push (d := [1]) rfl).push (d := [2]) rfl
  obtain ⟨accumulator, haccumulator, hbinds⟩ := MMRIVER.Run.path_binds (MemStore.mapStore .debug)
    (Term.hasher_posInjective Empty) run (by decide)
  cases haccumulator
  have hverify : ((InclusionProof.new 1 [.leaf [1]]).verify .debug
      (Term.hasher.toMerge : Merge (Term Empty) Empty) (.leaf [2]) [.node 3 (.leaf [1]) (.leaf [2])] :
      Outcome (Error Empty Empty) Bool) = ok true := rfl
  exact ⟨_, _, run, hverify, (hbinds 1 [.leaf [1]] (.leaf [2]) (by decide) hverify).2⟩

/-- Three leaves in memory, and an empty path from an index outside the tree with
    the hash of the first peak. -/
theorem MMRIVER.Run.empty_path_binds_three :
    ∃ final accumulator, ∃ peak_positions : List Nat,
      MMRIVER.SymbolicRun .debug [[1], [2], [3]] [0, 1, 3] final ∧ final.mmr_size < 5 ∧
      ((InclusionProof.new 5 []).verify .debug (Term.hasher.toMerge : Merge (Term Empty) Empty)
        (.node 3 (.leaf [1]) (.leaf [2])) accumulator : Outcome (Error Empty Empty) Bool) = ok true ∧
      ∃ p ∈ peak_positions, (final.batch.get_elem .debug MemStore.readOps p : Outcome Empty _) =
        ok (some (.node 3 (.leaf [1]) (.leaf [2]))) := by
  have start : MMRIVER.SymbolicRun .debug [] [] (MMRIVER.new 0 MemStore.new) := .refl
  have run := ((start.push (d := [1]) rfl).push (d := [2]) rfl).push (d := [3]) rfl
  obtain ⟨accumulator, peak_positions, haccumulator, hpeaks, hanswer⟩ :=
    MMRIVER.Run.empty_path_binds (MemStore.mapStore .debug) run (by decide) (by decide)
  cases haccumulator
  have hverify : ((InclusionProof.new 5 []).verify .debug
      (Term.hasher.toMerge : Merge (Term Empty) Empty) (.node 3 (.leaf [1]) (.leaf [2]))
      [.node 3 (.leaf [1]) (.leaf [2]), .leaf [3]] : Outcome (Error Empty Empty) Bool) = ok true := rfl
  obtain ⟨answer, hsame, hmem⟩ := hanswer 5 (.node 3 (.leaf [1]) (.leaf [2])) (by decide)
    (fun hpanic => by cases hpanic)
  obtain rfl : true = answer := ok.inj hsame
  exact ⟨_, _, _, run, by decide, hverify, (hmem.mp rfl).2⟩

/-- In a tree of three leaves an empty path from the first leaf carries the first
    peak. -/
theorem MMRIVER.empty_path_forged :
    ∃ final accumulator peak_positions, MMRIVER.SymbolicRun .debug [[1], [2], [3]] [0, 1, 3] final ∧
      (Term.hasher : Hasher (Term Empty)).PosInjective ∧
      Function.Injective (Term.hasher : Hasher (Term Empty)).leaf_hash ∧
      (final.get_accumulator .debug MemStore.readOps : Outcome (Error Empty Empty) _) = ok accumulator ∧
      ((InclusionProof.new 0 []).verify .debug (Term.hasher.toMerge : Merge (Term Empty) Empty)
        (.node 3 (.leaf [1]) (.leaf [2])) accumulator : Outcome (Error Empty Empty) Bool) = ok true ∧
      (do let iter ← PeaksMMRIVERIter.new .debug (final.mmr_size - 1)
          collect (PeaksMMRIVERIter.next .debug) iter : Outcome (Error Empty Empty) _) =
        ok peak_positions ∧ 0 ∉ peak_positions ∧
      (final.batch.get_elem .debug MemStore.readOps 0 : Outcome Empty _) = ok (some (.leaf [1])) := by
  have start : MMRIVER.SymbolicRun .debug [] [] (MMRIVER.new 0 MemStore.new) := .refl
  have run := ((start.push (d := [1]) rfl).push (d := [2]) rfl).push (d := [3]) rfl
  exact ⟨_, _, [2, 3], run, Term.hasher_posInjective Empty, fun _ _ heq => Term.leaf.inj heq, rfl, rfl,
    rfl, by decide, rfl⟩

end mmriver

end merkleberg
