import Merkleberg.Mmr.Soundness

open machine machine.Outcome
open forest
open merkleberg.helper

namespace merkleberg

/-- A hasher whose merges can be taken apart and are told from leaf hashes, and
    that bags peaks as it merges nodes. -/
structure Hasher.MergeInjective {Item : Type} (H : Hasher Item) : Prop where
  merge_inj : ∀ left right left' right',
    H.merge left right = H.merge left' right' → left = left' ∧ right = right'
  merge_peaks_eq : H.merge_peaks = H.merge
  merge_ne_leaf : ∀ left right data, H.merge left right ≠ H.leaf_hash data

end merkleberg

namespace merkleberg.mmr

variable {Item Store σ μ : Type} {b : Profile} {R : MMRStoreReadOps Store Item σ}
  {W : MMRStoreWriteOps Store Item σ} {S : MapStore R W} {under : Nat → Option Item}
  {H : Hasher Item} {data : List Bytes} {self : MMR Item Store}

theorem nodeItem_eq (H : Hasher Item) (data : List Bytes) (h k : Nat) :
    nodeItem H data h k = (MerkleTree.perfect (leafItem H data) h k).value H.merge := by
  rw [nodeItem, elemAt, valueAt_nodePos, MerkleTree.perfect_value]

theorem peakItems_eq_perfect (H : Hasher Item) (data : List Bytes) :
    peakItems H data =
      (peaks data.length).map fun node =>
        (MerkleTree.perfect (leafItem H data) node.1 node.2).value H.merge := by
  rw [peakItems_eq]
  exact List.map_congr_left fun node _ => (MerkleTree.perfect_value _ _).symm

/-- What verification is to bind: whatever items a proof of the right size has,
    leaf hashes it accepts at distinct positions are the elements of leaves at
    these positions. -/
def MMR.BindsLeaves [DecidableEq Item] (σ μ : Type) (b : Profile) (H : Hasher Item)
    (R : MMRStoreReadOps Store Item σ) (self : MMR Item Store) (root : Item) : Prop :=
  ∀ (items : List Item) (pairs : List (Nat × Item)), pairs ≠ [] →
    (∀ pair ∈ pairs, pair.1 < 2 ^ 64) → (pairs.map (·.1)).Nodup →
    (∀ pair ∈ pairs, ∃ d, pair.2 = H.leaf_hash d) →
    ((InclusionProof.new self.mmr_size items).verify b (H.toMerge : Merge Item μ) root pairs :
      Outcome (Error σ μ) Bool) = ok true →
    ∀ pair ∈ pairs, (pos_height_in_tree b pair.1 : Outcome Empty Nat) = ok 0 ∧
      pair.1 < self.mmr_size ∧ self.batch.get_elem b R pair.1 = ok (some pair.2)

theorem verify_eq_true_iff [DecidableEq Item] {proof : InclusionProof Item} {root : Item}
    {pairs : List (Nat × Item)} :
    (proof.verify b (H.toMerge : Merge Item μ) root pairs : Outcome (Error σ μ) Bool) = ok true ↔
      (calculate_root b (H.toMerge : Merge Item μ) pairs proof.mmr_size proof.proof :
        Outcome (Error σ μ) Item) = ok root := by
  rw [InclusionProof.verify, InclusionProof.calculate_root, bind_eq_ok_iff]
  simp

theorem calculate_root_eq_ok_iff {pairs : List (Nat × Item)} {mmr_size : Nat} {items : List Item}
    {root : Item} :
    (calculate_root b (H.toMerge : Merge Item μ) pairs mmr_size items :
      Outcome (Error σ μ) Item) = ok root ↔
      ∃ hashes, (calculate_peaks_hashes b (H.toMerge : Merge Item μ) pairs mmr_size items :
        Outcome (Error σ μ) _) = ok hashes ∧ bagPeaks H.merge_peaks hashes = some root := by
  rw [calculate_root, bind_eq_ok_iff]
  refine exists_congr fun hashes => and_congr_right fun _ => ?_
  rw [bagging_peaks_hashes, bag_rhs_peaks_eq, orMergeError_ok, ok_bind, okOr_eq_ok_iff]

/-- Where aliased leaves have equal elements, verification binds. -/
theorem MMR.Holds.binds_leaves [DecidableEq Item] (hself : self.Holds S under H data)
    (hinjective : H.MergeInjective)
    (haliased : ∀ k k', Aliased (peaks data.length) k k' → leafItem H data k' = leafItem H data k)
    {root : Item} (hroot : bagPeaks H.merge_peaks (peakItems H data) = some root) :
    self.BindsLeaves σ μ b H R root := by
  intro items pairs _ hwords hdistinct hitems hverify pair hpair
  rw [verify_eq_true_iff, calculate_root_eq_ok_iff] at hverify
  obtain ⟨hashes, hhashes, hbag⟩ := hverify
  obtain ⟨hheights, leaves, front, back, used, roots, extra, hverified⟩ :=
    calculate_peaks_hashes_sound hself.size.ge (hself.size.trans_lt (nodeCount_lt_succ _))
      (hself.size.trans_lt hself.fits) hwords hhashes
  obtain ⟨leaf, hleaf, rfl⟩ := hverified.exists_leaf hdistinct hpair
  have hinside : nodeCount leaf.1 < nodeCount data.length :=
    nodeCount_lt_nodeCount_iff.mpr (hverified.lt_of_mem hleaf)
  have hleaves : ∀ leaf ∈ leaves, ∃ d, leaf.2 = H.leaf_hash d := by
    intro leaf hmem
    have hentry : leafEntry leaf ∈ sortDedup (·.1) pairs := by
      rw [hverified.sorted]
      exact List.mem_map_of_mem hmem
    exact hitems (leafEntry leaf) (mem_of_mem_sortDedup hentry)
  have hnodes : peaks data.length = front.map (·.1) ++ back.map (·.1) := by
    rw [← hverified.sections.nodes_eq, List.map_append]
  rw [hinjective.merge_peaks_eq, hverified.hashes_eq] at hbag
  rw [hinjective.merge_peaks_eq, peakItems_eq_perfect] at hroot
  have hleafHash (k : Nat) : ∃ d, leafItem H data k = H.leaf_hash d := ⟨_, rfl⟩
  have hmerge : ∀ l r x, (∃ d, x = H.leaf_hash d) → H.merge l r ≠ x := by
    rintro l r x ⟨d, rfl⟩
    exact hinjective.merge_ne_leaf l r d
  have hbinds := hverified.folds.binds (P := fun x => ∃ d, x = H.leaf_hash d) hinjective.merge_inj
    hmerge hleafHash hleaves hnodes (fun hne => hverified.extra_nil (by simpa using hne)) hbag hroot
    leaf hleaf
  have hitem : leaf.2 = leafItem H data leaf.1 := by
    rcases hbinds with hown | ⟨k, halias, hother⟩
    · exact hown
    · rw [hother, haliased _ _ halias]
  refine ⟨?_, ?_, ?_⟩
  · rw [pos_height_in_tree_eq (hwords _ hpair), leafEntry, nodeHeight_nodeCount]
  · rw [hself.size]
    exact hinside
  · rw [leafEntry, hself.get_elem_eq hinside, elemAt_nodeCount, hitem]

/-- Values that make the bag `t` of a peak of height `h` and all the later ones
    look like the tree of that peak. -/
def forgedItem (H : Hasher Item) (data : List Bytes) (h : Nat) (t : MerkleTree Item) (g j : Nat) : Item :=
  if g ≤ h then ((t.descend (h - g) j).map (MerkleTree.value H.merge)).getD (nodeItem H data g j)
  else nodeItem H data g j

theorem forgedItem_of_descend {h g j : Nat} {t s : MerkleTree Item} (hle : g ≤ h)
    (hs : t.descend (h - g) j = some s) : forgedItem H data h t g j = s.value H.merge := by
  rw [forgedItem, if_pos hle, hs, Option.map_some, Option.getD_some]

/-- The forged values form a tree above the end of a path. -/
theorem forgedItem_succ {h k : Nat} {t s : MerkleTree Item} (hs : t.descend h k = some s) {g j : Nat}
    (hlt : g < h) (hunder : Under 0 k (g + 1) j) :
    forgedItem H data h t (g + 1) j =
      H.merge (forgedItem H data h t g (2 * j)) (forgedItem H data h t g (2 * j + 1)) := by
  have hdepth : h - g = h - (g + 1) + 1 := by omega
  obtain ⟨_, hj⟩ := hunder
  rw [Nat.sub_zero] at hj
  obtain ⟨l, r, hnode⟩ : ∃ l r, t.descend (h - (g + 1)) j = some (.node l r) := by
    rw [← hj]
    refine MerkleTree.descend_prefix (s := s) (e := g) ?_
    rwa [show h - (g + 1) + g + 1 = h by omega]
  have hleft : t.descend (h - g) (2 * j) = some l := by
    rw [hdepth, MerkleTree.descend_succ, show 2 * j / 2 = j by omega, hnode, Option.bind_some,
      MerkleTree.child, if_neg (by omega)]
  have hright : t.descend (h - g) (2 * j + 1) = some r := by
    rw [hdepth, MerkleTree.descend_succ, show (2 * j + 1) / 2 = j by omega, hnode, Option.bind_some,
      MerkleTree.child, if_pos (by omega)]
  rw [forgedItem_of_descend hlt hnode, forgedItem_of_descend hlt.le hleft,
    forgedItem_of_descend hlt.le hright]
  rfl

/-- Bagged with the peaks before, the forged value of the peak gives the root. -/
theorem forgedItem_bag {merge : Item → Item → Item} (hmerge : merge = H.merge) {n h m : Nat}
    {earlier later : List (Nat × Nat)} (hpeaks : peaks n = earlier ++ (h, m) :: later)
    {t : MerkleTree Item}
    (ht : MerkleTree.bag (MerkleTree.perfect (leafItem H data) h m)
      (later.map fun node => MerkleTree.perfect (leafItem H data) node.1 node.2) = t) :
    bagPeaks merge ((peaks n).map fun node =>
        (MerkleTree.perfect (leafItem H data) node.1 node.2).value H.merge) =
      bagPeaks merge ((earlier.map fun node => forgedItem H data h t node.1 node.2) ++
        [forgedItem H data h t h m]) := by
  have hheights := peaks_heights n
  rw [hpeaks] at hheights
  have htop : forgedItem H data h t h m = t.value H.merge :=
    forgedItem_of_descend (Nat.le_refl h) (by rw [Nat.sub_self, MerkleTree.descend_zero])
  have hbag : bagPeaks H.merge (((h, m) :: later).map fun node =>
      (MerkleTree.perfect (leafItem H data) node.1 node.2).value H.merge) = some (t.value H.merge) := by
    rw [← ht, ← MerkleTree.bag_value, List.map_cons, List.map_cons, List.map_map]
    rfl
  have hfront : (earlier.map fun node => forgedItem H data h t node.1 node.2) =
      earlier.map fun node => (MerkleTree.perfect (leafItem H data) node.1 node.2).value H.merge := by
    refine List.map_congr_left fun node hnode => ?_
    have htall := (List.pairwise_append.mp hheights).2.2 node hnode (h, m) List.mem_cons_self
    rw [forgedItem, if_neg (Nat.not_le.mpr htall), nodeItem_eq]
  rw [hmerge, hpeaks, List.map_append, bagPeaks_append hbag, hfront, htop]

/-- A leaf that another one is aliased to can be passed off as it. -/
theorem MMR.Holds.exists_forgery [DecidableEq Item] (hself : self.Holds S under H data)
    (hinjective : H.MergeInjective) {k k' : Nat} (haliased : Aliased (peaks data.length) k k')
    {root : Item} (hroot : bagPeaks H.merge_peaks (peakItems H data) = some root) :
    ∃ items, ((InclusionProof.new self.mmr_size items).verify b (H.toMerge : Merge Item μ) root
      [(nodeCount k, leafItem H data k')] : Outcome (Error σ μ) Bool) = ok true := by
  obtain ⟨earlier, h, m, later, hpeaks, hlater, hunder, hplace⟩ := haliased
  have hpeak : (h, m) ∈ peaks data.length := by
    rw [hpeaks]
    exact List.mem_append_right _ List.mem_cons_self
  have hbelow := (under_zero_iff.mp hunder).2.trans_le (mem_peaks_iff.mp hpeak).1
  have htiles := peaks_tile data.length
  rw [hpeaks] at htiles
  -- The bag from this peak on, with the other leaf at the end of the path of this one.
  have hleaf := (bag_descend_leaf_iff (leafItem H data) (h, m)
    (Nat.mod_lt _ (Nat.two_pow_pos h))).mpr ⟨k', hplace, rfl⟩
  rw [MerkleTree.descend_mod] at hleaf
  generalize ht : MerkleTree.bag (MerkleTree.perfect (leafItem H data) (h, m).1 (h, m).2)
    (later.map fun node => MerkleTree.perfect (leafItem H data) node.1 node.2) = t at hleaf
  obtain ⟨requests, hsections⟩ := exists_sections_single htiles hunder
  rw [← hpeaks] at hsections
  have hvalue : ParentsMerged H.merge (forgedItem H data h t) (peaks data.length) [k] := by
    rintro g j ⟨node, hnode, hin⟩ ⟨leaf, hmem, habove⟩
    rw [List.mem_singleton.mp hmem] at habove
    have hle := height_le_of_peak hpeak hunder habove (hin.leaves.2.trans (mem_peaks_iff.mp hnode).1)
    exact forgedItem_succ hleaf hle habove
  have hself' : forgedItem H data h t 0 k = leafItem H data k' := by
    rw [forgedItem_of_descend (Nat.zero_le h) (by rwa [Nat.sub_zero])]
    rfl
  have hroots : bagPeaks H.merge_peaks
      ((earlier.map (fun node => ((node, none) : Share)) ++ [((h, m), some requests)]).map
        fun part => forgedItem H data h t part.1.1 part.1.2) = some root := by
    rw [peakItems_eq_perfect, forgedItem_bag hinjective.merge_peaks_eq hpeaks ht] at hroot
    rwa [List.map_append, List.map_map, List.map_singleton]
  have hfits := (nodeCount_lt_nodeCount_iff.mpr hbelow).trans hself.fits
  have hparts : earlier.map (fun node => ((node, none) : Share)) ++
      ((h, m), some requests) :: later.map (fun node => (node, none)) =
        (earlier.map (fun node => (node, none)) ++ [((h, m), some requests)]) ++
          later.map fun node => (node, none) := by simp
  have hback : ∀ part ∈ later.map fun node => ((node, none) : Share), part.2 = none := by
    intro part hpart
    obtain ⟨node, _, rfl⟩ := List.mem_map.mp hpart
    rfl
  have hwords : ∀ pair ∈ [(nodeCount k, leafItem H data k')], pair.1 < 2 ^ 64 := by simpa using hfits
  have hpairs : sortDedup (·.1) [(nodeCount k, leafItem H data k')] =
      ([k].map fun k => (k, forgedItem H data h t 0 k)).map leafEntry := by
    rw [List.map_singleton, List.map_singleton, hself']
    rfl
  have hcalculate := calculate_root_values (b := b) (σ := σ) (μ := μ) (H := H)
    hself.fits hsections hvalue hparts hback hwords (by simp) hpairs
    List.drop_nil (by rw [List.take_nil, List.append_nil]; exact hroots)
  rw [← hself.size] at hcalculate
  exact ⟨_, verify_eq_true_iff.mpr hcalculate⟩

/-- Verification against the root binds positions to elements exactly when no
    leaf is aliased to one with another element. -/
theorem MMR.Run.verify_binds_iff [DecidableEq Item] (S : MapStore R W) {store : Store}
    {positions : List Nat} {final : MMR Item Store}
    (run : MMR.Run b (H.toMerge : Merge Item μ) R W (MMR.new 0 store) data positions final)
    (hfit : b = .release → data.length ≤ 2 ^ 63) (hinjective : H.MergeInjective)
    (hn : 0 < data.length) :
    ∃ root, (final.get_root b (H.toMerge : Merge Item μ) R : Outcome (Error σ μ) Item) = ok root ∧
      (final.BindsLeaves σ μ b H R root ↔
        ∀ k k', Aliased (peaks data.length) k k' → leafItem H data k' = leafItem H data k) := by
  obtain ⟨hfinal, _⟩ := run.holds S hfit
  obtain ⟨root, hget, hroot⟩ := hfinal.get_root (b := b) (μ := μ) hn
  refine ⟨root, hget, fun hbinds k k' haliased => ?_, fun haliased =>
    hfinal.binds_leaves hinjective haliased hroot⟩
  have hbelow : nodeCount k < nodeCount data.length :=
    nodeCount_lt_nodeCount_iff.mpr (haliased.lt fun node hnode => (mem_peaks_iff.mp hnode).1)
  obtain ⟨items, hverify⟩ := hfinal.exists_forgery (b := b) (σ := σ) (μ := μ) hinjective haliased hroot
  obtain ⟨_, _, hstored⟩ := hbinds items [(nodeCount k, leafItem H data k')] (List.cons_ne_nil _ _)
    (by simpa using hbelow.trans hfinal.fits) (List.nodup_singleton _)
    (by simpa using ⟨_, rfl⟩) hverify _ List.mem_cons_self
  rw [hfinal.get_elem_eq hbelow, elemAt_nodeCount, ok.injEq, Option.some.injEq] at hstored
  exact hstored.symm

end merkleberg.mmr

namespace merkleberg

theorem Term.hasher_mergeInjective {Item : Type} : (Term.hasher : Hasher (Term Item)).MergeInjective where
  merge_inj left right left' right' heq := by
    have hnode : Term.node 0 left right = .node 0 left' right' := heq
    cases hnode
    exact ⟨rfl, rfl⟩
  merge_peaks_eq := rfl
  merge_ne_leaf _ _ _ heq := by cases heq

end merkleberg

namespace merkleberg.mmr

/-- Two leaves are one mountain, where no leaf is aliased. -/
theorem MMR.Run.verify_binds_two :
    ∃ final root, MMR.SymbolicRun .debug [[1], [2]] [0, 1] final ∧
      (final.get_root .debug (Term.hasher.toMerge : Merge (Term Empty) Empty) MemStore.readOps :
        Outcome (Error Empty Empty) (Term Empty)) = ok root ∧
      final.BindsLeaves Empty Empty .debug Term.hasher MemStore.readOps root := by
  have start : MMR.SymbolicRun .debug [] [] (MMR.new 0 MemStore.new) := .refl
  have run := (start.push (d := [1]) rfl).push (d := [2]) rfl
  obtain ⟨root, hget, hbinds⟩ := MMR.Run.verify_binds_iff (MemStore.mapStore .debug) run
    (by decide) Term.hasher_mergeInjective (by decide)
  refine ⟨_, root, run, hget, hbinds.mpr ?_⟩
  rintro k k' ⟨earlier, h, m, later, hpeaks, hlater, _⟩
  have hlength : (peaks 2).length = (earlier ++ (h, m) :: later).length := congrArg List.length hpeaks
  have hone : (peaks 2).length = 1 := by decide
  rw [hone, List.length_append, List.length_cons] at hlength
  exact absurd (List.length_eq_zero_iff.mp (by omega)) hlater

/-- With three leaves the third can be passed off as the first: the proof runs out
    of items at the second peak, and its one item is the first peak. -/
theorem MMR.verify_binds_forged :
    ∃ final root, MMR.SymbolicRun .debug [[1], [2], [3]] [0, 1, 3] final ∧
      (final.get_root .debug (Term.hasher.toMerge : Merge (Term Empty) Empty) MemStore.readOps :
        Outcome (Error Empty Empty) (Term Empty)) = ok root ∧
      (Term.hasher : Hasher (Term Empty)).MergeInjective ∧
      ((InclusionProof.new final.mmr_size [.node 0 (.leaf [1]) (.leaf [2])]).verify .debug
        (Term.hasher.toMerge : Merge (Term Empty) Empty) root [(0, .leaf [3])] :
          Outcome (Error Empty Empty) Bool) = ok true ∧
      (final.batch.get_elem .debug MemStore.readOps 0 : Outcome Empty _) = ok (some (.leaf [1])) ∧
      ¬ final.BindsLeaves Empty Empty .debug Term.hasher MemStore.readOps root := by
  have start : MMR.SymbolicRun .debug [] [] (MMR.new 0 MemStore.new) := .refl
  have run := ((start.push (d := [1]) rfl).push (d := [2]) rfl).push (d := [3]) rfl
  refine ⟨_, .node 0 (.leaf [3]) (.node 0 (.leaf [1]) (.leaf [2])), run, rfl,
    Term.hasher_mergeInjective, rfl, rfl, fun hbinds => ?_⟩
  obtain ⟨_, _, hstored⟩ := hbinds [.node 0 (.leaf [1]) (.leaf [2])] [(0, .leaf [3])]
    (List.cons_ne_nil _ _) (by simp) (List.nodup_singleton _) (by simpa using ⟨_, rfl⟩) rfl _
    List.mem_cons_self
  cases hstored

end merkleberg.mmr
