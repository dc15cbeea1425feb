import Merkleberg.Mmr.Commitment
import Merkleberg.Mmr.Session
import Merkleberg.Mmriver.Forgery
import Merkleberg.Mmriver.Inclusion

open machine machine.Outcome
open forest
open merkleberg.helper

namespace merkleberg

variable {Store σ μ : Type} {b : Profile} {H : Digest} {data : List Bytes} {positions : List Nat}
  {R : MMRStoreReadOps Store (Vector UInt8 H.output_size) σ}
  {W : MMRStoreWriteOps Store (Vector UInt8 H.output_size) σ} {store : Store}

namespace mmr

/-- The root over two leaves or more is a merge of two hashes. -/
theorem exists_merge_of_bagged {Item : Type} {H : Hasher Item} (hpeaks : H.merge_peaks = H.merge)
    (hmany : 2 ≤ data.length) {root : Item}
    (hroot : bagPeaks H.merge_peaks (peakItems H data) = some root) :
    ∃ left right, root = H.merge left right := by
  rw [hpeaks, peakItems_eq_perfect, baggedTree_value] at hroot
  obtain ⟨t, ht, rfl⟩ := Option.map_eq_some_iff.mp hroot
  cases t with
  | leaf x =>
    have hlength := baggedTree_leaves_length ht
    rw [MerkleTree.leaves, List.length_singleton] at hlength
    omega
  | node left right => exact ⟨_, _, rfl⟩

/-- An accepted proof ends with the root, and so does the same verification made on
    terms. -/
theorem exists_term_of_verify {root : Vector UInt8 H.output_size}
    {proof : InclusionProof (Vector UInt8 H.output_size)} {claimed : List (Nat × Bytes)}
    (hverify : (proof.verify b ((DigestMerge H).toMerge : Merge _ μ) root
      (claimed.map fun claim => (claim.1, (DigestMerge H).leaf_hash claim.2)) :
        Outcome (Error σ μ) Bool) = ok true) :
    ∃ term, verifiedInputs σ μ b H proof claimed = term.inputs H ∧ term.digest H = root ∧
      (calculate_root b Term.hasher.toMerge (claimed.map fun claim => (claim.1, Term.leaf claim.2))
        proof.mmr_size (proof.proof.map .given) : Outcome (Error σ μ) _) = ok term := by
  have hmap := calculate_root_map (b := b) (σ := σ) (μ := μ) (Term.digest_hom H)
    (claimed.map fun claim => (claim.1, Term.leaf claim.2)) proof.mmr_size (proof.proof.map .given)
  rw [Term.map_digest_given, List.map_map] at hmap
  rw [verify_eq_true_iff] at hverify
  obtain ⟨term, hterm, hdigest⟩ := map_eq_ok_iff.mp (hmap.symm.trans hverify)
  refine ⟨term, ?_, hdigest, hterm⟩
  rw [verifiedInputs, hterm]
  rfl

/-- Without domain prefixes the input of a node can be passed off as a leaf, and nothing
    but that. The input that the root was hashed from is accepted as the only datum of
    an MMR of one leaf; and whatever a proof claims, what it is accepted for was pushed
    or is the input of a node, and was hashed as such for the tree, as long as no pushed
    datum has the length of one. -/
theorem MMR.Session.second_preimages (S : MapStore R W) {final : MMR (Vector UInt8 H.output_size) Store}
    (session : MMR.Session b ((DigestMergeUnsafe H).toMerge : Merge _ μ) R W (MMR.new 0 store) data
      positions final) (hfit : b = .release → data.length ≤ 2 ^ 63) (hmany : 2 ≤ data.length) :
    ∃ root left right, (final.get_root b ((DigestMergeUnsafe H).toMerge : Merge _ μ) R :
        Outcome (Error σ μ) _) = ok root ∧
      root = (DigestMergeUnsafe H).merge left right ∧
      ((InclusionProof.new 1 []).verify b ((DigestMergeUnsafe H).toMerge : Merge _ μ) root
        [(0, (DigestMergeUnsafe H).leaf_hash (DigestMergeUnsafe.node_input 0 left right))] :
          Outcome (Error σ μ) Bool) = ok true ∧
      ((∀ d ∈ data, d.length ≠ 8 + 2 * H.output_size) →
        ∀ (proof : InclusionProof (Vector UInt8 H.output_size)) (claimed : List (Nat × Bytes)),
        proof.mmr_size < 2 ^ 64 → (∀ claim ∈ claimed, claim.1 < 2 ^ 64) → (claimed.map (·.1)).Nodup →
        H.NoCollision (DigestMergeUnsafe.inputs
          (builtInputs b H.unprefixed data ++ verifiedInputs σ μ b H.unprefixed proof claimed)) →
        (proof.verify b ((DigestMergeUnsafe H).toMerge : Merge _ μ) root
          (claimed.map fun claim => (claim.1, (DigestMergeUnsafe H).leaf_hash claim.2)) :
            Outcome (Error σ μ) Bool) = ok true →
        ∀ claim ∈ claimed, claim.2 ∈ data ∨
          claim.2 ∈ DigestMergeUnsafe.inputs (builtInputs b H.unprefixed data) ∧
            ∃ pos, ∃ left right : Vector UInt8 H.output_size,
              claim.2 = DigestMergeUnsafe.node_input pos left right) := by
  obtain ⟨hfinal, _⟩ := session.holds S (.refl _) hfit
  obtain ⟨root, hget, hroot⟩ := hfinal.get_root (b := b) (μ := μ) (by omega)
  obtain ⟨left, right, rfl⟩ := exists_merge_of_bagged rfl hmany hroot
  refine ⟨_, left, right, hget, rfl, ?_, ?_⟩
  · rw [verify_eq_true_iff, calculate_root_eq_ok_iff]
    exact ⟨_, calculate_peaks_hashes_single _ _, rfl⟩
  intro hdata proof claimed hsize hwords hdistinct hcollision hverify claim hclaim
  rw [DigestMergeUnsafe.eq_digestMerge] at hroot hverify
  obtain ⟨built, hbuilt, hdigest, hfrom⟩ :=
    exists_built_root (b := b) (H := H.unprefixed) (by omega) hfinal.leaves_lt hroot
  obtain ⟨term, hinputs, hroot', hterm⟩ := exists_term_of_verify hverify
  rw [hbuilt, hinputs] at hcollision
  have hmatches := Term.matches_without_domains hdata hfrom (hroot'.trans hdigest.symm) hcollision
  obtain ⟨part, hpart, rfl | ⟨pos, left', right', rfl, heq⟩, hsub⟩ := hmatches.exists_of_leaf hfrom _
    (leaves_of_calculate_root hsize hwords hdistinct hterm claim hclaim)
  · exact .inl hpart
  · refine .inr ⟨?_, pos, left'.digest H.unprefixed, right'.digest H.unprefixed, heq⟩
    rw [heq, hbuilt]
    exact List.mem_map_of_mem (f := List.tail) (hsub List.mem_cons_self)

/-- Two leaves under a digest of one byte, with a proof for the first and one for ten
    bytes that were never pushed. -/
theorem MMR.Session.second_preimages_two :
    ∃ (final : MMR (Vector UInt8 1) (MemStore (Vector UInt8 1))) (root left right : Vector UInt8 1),
      (final.get_root .debug ((DigestMergeUnsafe weightedSum).toMerge : Merge _ Empty) MemStore.readOps :
        Outcome (Error Empty Empty) _) = ok root ∧
      ((InclusionProof.new 1 []).verify .debug ((DigestMergeUnsafe weightedSum).toMerge : Merge _ Empty) root
        [(0, (DigestMergeUnsafe weightedSum).leaf_hash (DigestMergeUnsafe.node_input 0 left right))] :
          Outcome (Error Empty Empty) Bool) = ok true ∧
      (([1] : Bytes) ∈ ([[1], [2]] : List Bytes) ∨
        [1] ∈ DigestMergeUnsafe.inputs (builtInputs .debug weightedSum.unprefixed [[1], [2]])) := by
  have start : MMR.Session .debug ((DigestMergeUnsafe weightedSum).toMerge : Merge _ Empty)
      (MemStore.readOps : MMRStoreReadOps _ _ Empty) (MemStore.writeOps .debug)
      (MMR.new 0 MemStore.new) [] [] _ := .refl
  have session := (start.push (d := [1]) ⟨_, _, .refl _, .refl _, rfl⟩).push (d := [2])
    ⟨_, _, .refl _, .refl _, rfl⟩
  obtain ⟨root, left, right, hget, _, hforged, hpushed⟩ :=
    MMR.Session.second_preimages (MemStore.mapStore .debug) session (by decide) (by decide)
  have hroot : weightedSum.digest (DigestMergeUnsafe.node_input 0
      ((DigestMergeUnsafe weightedSum).leaf_hash [1]) ((DigestMergeUnsafe weightedSum).leaf_hash [2])) =
      root := ok.inj hget
  have hverify : ((InclusionProof.new 3 [(DigestMergeUnsafe weightedSum).leaf_hash [2]]).verify .debug
      ((DigestMergeUnsafe weightedSum).toMerge : Merge _ Empty)
      (weightedSum.digest (DigestMergeUnsafe.node_input 0 ((DigestMergeUnsafe weightedSum).leaf_hash [1])
        ((DigestMergeUnsafe weightedSum).leaf_hash [2])))
      [(0, (DigestMergeUnsafe weightedSum).leaf_hash [1])] : Outcome (Error Empty Empty) Bool) =
        ok true := rfl
  rw [hroot] at hverify
  exact ⟨_, root, left, right, hget, hforged, (hpushed (by decide)
    (.new 3 [(DigestMergeUnsafe weightedSum).leaf_hash [2]]) [(0, [1])] (by decide) (by decide)
    (by decide) (by unfold Digest.NoCollision; decide +kernel) hverify (0, [1])
      List.mem_cons_self).imp_right And.left⟩

end mmr

namespace mmriver

/-- The bytes that the inner node at a position was hashed from: the position that goes
    into its hash, and what the tree has for its two children. -/
def MMRIVER.NodeInput {size : Nat} (b : Profile) (R : MMRStoreReadOps Store (Vector UInt8 size) σ)
    (self : MMRIVER (Vector UInt8 size) Store) (pos : Nat) (input : Bytes) : Prop :=
  ∃ left right, self.batch.get_elem b R (pos - 2 ^ nodeHeight pos) = ok (some left) ∧
    self.batch.get_elem b R (pos - 1) = ok (some right) ∧
    input = DigestMergeUnsafe.node_input (pos + 1) left right

theorem MMRIVER.Holds.nodeInput {S : MapStore R W} {under : Nat → Option (Vector UInt8 H.output_size)}
    {self : MMRIVER (Vector UInt8 H.output_size) Store}
    (hself : self.Holds b S under (DigestMergeUnsafe H) data) {h k : Nat}
    (hinside : 2 ^ (h + 1) * (k + 1) ≤ data.length) :
    self.NodeInput b R (nodePos (h + 1) k) (DigestMergeUnsafe.node_input (nodePos (h + 1) k + 1)
      (nodeItem (DigestMergeUnsafe H) data h (2 * k))
      (nodeItem (DigestMergeUnsafe H) data h (2 * k + 1))) := by
  have hright : 2 ^ h * (2 * k + 1 + 1) = 2 ^ (h + 1) * (k + 1) := by ring
  have hleft : 2 ^ h * (2 * k + 1) ≤ 2 ^ h * (2 * k + 1 + 1) := Nat.mul_le_mul_left _ (Nat.le_succ _)
  refine ⟨_, _, ?_, ?_, rfl⟩
  · rw [nodeHeight_nodePos, ← nodePos_left, Nat.add_sub_cancel]
    exact hself.get_elem_eq (by omega)
  · rw [← nodePos_right, Nat.add_sub_cancel]
    exact hself.get_elem_eq (by omega)

/-- The node inputs in what is hashed for a node are those of the inner nodes under it. -/
theorem exists_node_of_input {h k pos : Nat} {left right : Vector UInt8 H.output_size}
    (hmem : DigestMerge.node_input pos left right ∈ (nodeItem Term.hasher data h k).inputs H) :
    ∃ g m, Under (g + 1) m h k ∧ DigestMerge.node_input pos left right =
      DigestMerge.node_input (nodePos (g + 1) m + 1) (nodeItem (DigestMerge H) data g (2 * m))
        (nodeItem (DigestMerge H) data g (2 * m + 1)) := by
  induction h generalizing k with
  | zero =>
    obtain heq := List.mem_singleton.mp hmem
    exact absurd heq.symm (DigestMerge.leaf_input_ne_node_input _ _ _ _)
  | succ h ih =>
    rw [nodeItem_succ] at hmem
    rcases List.mem_cons.mp hmem with heq | hbelow
    · rw [nodeItem_digest, nodeItem_digest] at heq
      exact ⟨h, k, under_refl _ _, heq⟩
    rcases List.mem_append.mp hbelow with hleft | hright
    · obtain ⟨g, m, hunder, heq⟩ := ih hleft
      refine ⟨g, m, hunder.trans (Under.parent ?_), heq⟩
      rw [show 2 * k / 2 = k by omega]
      exact under_refl _ _
    · obtain ⟨g, m, hunder, heq⟩ := ih hright
      refine ⟨g, m, hunder.trans (Under.parent ?_), heq⟩
      rw [show (2 * k + 1) / 2 = k by omega]
      exact under_refl _ _

/-- In an MMRIVER every inner node can be passed off as a leaf, under the very proof
    that is generated for it. As long as no pushed datum has the length of a node's
    input, what is accepted is the input of such a node or was pushed, in a checked build
    at the index of the proof if the path has an item. -/
theorem MMRIVER.Session.node_preimages (S : MapStore R W)
    {final : MMRIVER (Vector UInt8 H.output_size) Store}
    (session : MMRIVER.Session b ((DigestMergeUnsafe H).toMerge : Merge _ μ) R W (MMRIVER.new 0 store) data
      positions final) (hfit : b = .release → data.length < 2 ^ 63) (hne : data ≠ []) :
    ∃ accumulator, (final.get_accumulator b R : Outcome (Error σ μ) _) = ok accumulator ∧
      (∀ index < final.mmr_size, index ∉ positions → ∃ proof, ∃ forged : Bytes,
        (final.gen_inclusion_proof b R index : Outcome (Error σ μ) _) = ok proof ∧
        final.NodeInput b R index forged ∧
        (proof.verify b ((DigestMergeUnsafe H).toMerge : Merge _ μ)
          ((DigestMergeUnsafe H).leaf_hash forged) accumulator : Outcome (Error σ μ) Bool) = ok true) ∧
      ((∀ d ∈ data, d.length ≠ 8 + 2 * H.output_size) →
        ∀ b' (proof : InclusionProof (Vector UInt8 H.output_size)) d,
        H.NoCollision (DigestMergeUnsafe.inputs
          (builtInputs b H.unprefixed data ++ verifiedInputs μ b' H.unprefixed proof d)) →
        (proof.verify b' ((DigestMergeUnsafe H).toMerge : Merge _ μ)
          ((DigestMergeUnsafe H).leaf_hash d) accumulator : Outcome (Error σ μ) Bool) = ok true →
        (∃ p < final.mmr_size, p ∉ positions ∧ final.NodeInput b R p d ∧
          (b' = .debug → proof.proof ≠ [] → proof.index = p)) ∨
        d ∈ data ∧ (b' = .debug → proof.proof ≠ [] →
          ∃ i : Nat, positions[i]? = some proof.index ∧ data[i]? = some d)) := by
  obtain ⟨hfinal, hpositions⟩ := session.holds S (.refl _) hfit
  have hpos := List.length_pos_iff.mpr hne
  have hlimit := allOnesLimit_le b
  have hfits := hfinal.height_fits
  have hinner : ∀ g m, nodePos (g + 1) m ∉ positions := by
    intro g m hmem
    rw [hpositions] at hmem
    obtain ⟨i, _, hi⟩ := List.mem_map.mp hmem
    rw [← nodePos_zero] at hi
    exact absurd (nodePos_inj hi).1 (Nat.succ_ne_zero g).symm
  rw [hfinal.forest.size]
  refine ⟨_, hfinal.get_accumulator hpos, ?_, fun hdata b' proof d hcollision hverify => ?_⟩
  · intro index hindex houtside
    obtain ⟨height, k, rfl⟩ := exists_nodePos index
    have hinside := nodePos_lt_nodeCount_iff.mp hindex
    cases height with
    | zero =>
      refine absurd ?_ houtside
      rw [hpositions, nodePos_zero]
      exact List.mem_map_of_mem (List.mem_range.mpr (by omega))
    | succ height =>
      obtain ⟨⟨top, place⟩, hpeak, hunder⟩ := exists_peak_above hinside
      have hverify := InclusionProof.verify_node (σ := σ) (μ := μ) (H := DigestMergeUnsafe H) hfits hpeak
        hunder
      rw [nodeItem_succ] at hverify
      exact ⟨_, _, hfinal.gen_inclusion_proof_eq hpeak hunder (.inr (by simp)), hfinal.nodeInput hinside,
        hverify⟩
  · rw [DigestMergeUnsafe.eq_digestMerge] at hverify
    obtain ⟨node, hpeak, term, hinputs, hdigest, hterm⟩ := exists_term_of_verify hverify
    rw [hinputs] at hcollision
    have hmatches := Term.matches_without_domains hdata
      (nodeItem_builtFrom (mem_peaks_iff.mp hpeak).1) hdigest
      (hcollision.mono (List.map_subset _ (List.append_subset.mpr
        ⟨List.subset_append_of_subset_left _ (inputs_subset_builtInputs hpos hfits hpeak),
          List.subset_append_right _ _⟩)))
    obtain ⟨part, hfrom, hreads, hsub, hindex⟩ := exists_part_of_matches hpeak (by omega) hterm hmatches
    rcases hreads with rfl | ⟨pos, left, right, rfl, rfl⟩
    · exact .inr ⟨hfrom, fun hb hpath => exists_leaf_of_part hpositions (hindex hb hpath)⟩
    left
    by_cases hchecked : b' = .debug ∧ proof.proof ≠ []
    · -- The index is that of the node.
      obtain ⟨g, m, hinside, hplace, hpart⟩ := hindex hchecked.1 hchecked.2
      cases g with
      | zero => cases hpart
      | succ g =>
        rw [nodeItem_succ] at hpart
        cases hpart
        rw [nodeItem_digest, nodeItem_digest]
        exact ⟨_, nodePos_lt_nodeCount_iff.mpr hinside, hinner g m, hfinal.nodeInput hinside,
          fun _ _ => hplace⟩
    · obtain ⟨g, m, hunder, heq⟩ := exists_node_of_input (hsub List.mem_cons_self)
      have hinside := hunder.leaves.2.trans (mem_peaks_iff.mp hpeak).1
      have hbytes : DigestMergeUnsafe.node_input _ _ _ = DigestMergeUnsafe.node_input _ _ _ :=
        (List.cons.inj heq).2
      rw [hbytes]
      exact ⟨_, nodePos_lt_nodeCount_iff.mpr hinside, hinner g m, hfinal.nodeInput hinside,
        fun hb hpath => absurd ⟨hb, hpath⟩ hchecked⟩

/-- Two leaves under a digest of one byte, with a proof for the first, and their parent
    passed off as a leaf. -/
theorem MMRIVER.Session.node_preimages_two :
    ∃ (final : MMRIVER (Vector UInt8 1) (MemStore (Vector UInt8 1))) (accumulator : List (Vector UInt8 1))
      (proof : InclusionProof (Vector UInt8 1)) (forged : Bytes),
      (final.get_accumulator .debug MemStore.readOps : Outcome (Error Empty Empty) _) = ok accumulator ∧
      (final.gen_inclusion_proof .debug MemStore.readOps 2 : Outcome (Error Empty Empty) _) = ok proof ∧
      final.NodeInput (σ := Empty) .debug MemStore.readOps 2 forged ∧
      (proof.verify .debug ((DigestMergeUnsafe mmr.weightedSum).toMerge : Merge _ Empty)
        ((DigestMergeUnsafe mmr.weightedSum).leaf_hash forged) accumulator :
          Outcome (Error Empty Empty) Bool) = ok true ∧
      ((∃ p < final.mmr_size, final.NodeInput (σ := Empty) .debug MemStore.readOps p [1]) ∨
        ([1] : Bytes) ∈ ([[1], [2]] : List Bytes)) := by
  have start : MMRIVER.Session .debug ((DigestMergeUnsafe mmr.weightedSum).toMerge : Merge _ Empty)
      (MemStore.readOps : MMRStoreReadOps _ _ Empty) (MemStore.writeOps .debug)
      (MMRIVER.new 0 MemStore.new) [] [] _ := .refl
  have session := (start.push (d := [1]) ⟨_, _, .refl _, .refl _, rfl⟩).push (d := [2])
    ⟨_, _, .refl _, .refl _, rfl⟩
  obtain ⟨accumulator, hget, hnodes, haccepted⟩ :=
    MMRIVER.Session.node_preimages (MemStore.mapStore .debug) session (by decide) (by decide)
  obtain ⟨proof, forged, hproof, hinput, hforged⟩ := hnodes 2 (by decide) (by decide)
  have hpeak : [mmr.weightedSum.digest (DigestMergeUnsafe.node_input 3
      ((DigestMergeUnsafe mmr.weightedSum).leaf_hash [1])
      ((DigestMergeUnsafe mmr.weightedSum).leaf_hash [2]))] = accumulator := ok.inj hget
  have hverify : ((InclusionProof.new 0 [(DigestMergeUnsafe mmr.weightedSum).leaf_hash [2]]).verify .debug
      ((DigestMergeUnsafe mmr.weightedSum).toMerge : Merge _ Empty)
      ((DigestMergeUnsafe mmr.weightedSum).leaf_hash [1])
      [mmr.weightedSum.digest (DigestMergeUnsafe.node_input 3
        ((DigestMergeUnsafe mmr.weightedSum).leaf_hash [1])
        ((DigestMergeUnsafe mmr.weightedSum).leaf_hash [2]))] : Outcome (Error Empty Empty) Bool) =
      ok true := rfl
  rw [hpeak] at hverify
  refine ⟨_, accumulator, proof, forged, hget, hproof, hinput, hforged, ?_⟩
  rcases haccepted (by decide) .debug (.new 0 [(DigestMergeUnsafe mmr.weightedSum).leaf_hash [2]]) [1]
    (by unfold Digest.NoCollision; decide +kernel) hverify with ⟨p, hp, _, hnode, _⟩ | ⟨hpushed, _⟩
  · exact .inl ⟨p, hp, hnode⟩
  · exact .inr hpushed

end mmriver

end merkleberg
