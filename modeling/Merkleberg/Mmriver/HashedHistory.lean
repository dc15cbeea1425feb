import Merkleberg.Mmriver.Forgery
import Merkleberg.Mmriver.History

open machine machine.Outcome
open forest
open merkleberg.helper

namespace merkleberg

/-- Two built terms that match are one. -/
theorem Term.eq_of_matches {H : Digest} {data : List Bytes}
    {term built : Term (Vector UInt8 H.output_size)} (hterm : term.BuiltFrom data) (hwords : term.InWords)
    (hwords' : built.InWords) (hmatches : term.Matches H (fun d part => part = leaf d) built) :
    term = built := by
  induction term generalizing built with
  | given item => exact hterm.elim
  | leaf d => exact hmatches.symm
  | node pos left right ihleft ihright =>
    cases built with
    | given item => exact hmatches.elim
    | leaf d => exact hmatches.elim
    | node pos' left' right' =>
      rw [to_be_bytes_inj hwords.1 hwords'.1 hmatches.1,
        ihleft hterm.1 hwords.2.1 hwords'.2.1 hmatches.2.1,
        ihright hterm.2 hwords.2.2 hwords'.2.2 hmatches.2.2]

namespace mmriver

variable {Store σ μ : Type} {b : Profile} {H : Digest} {A B : List Bytes}

/-- The byte strings hashed while a consistency proof is verified: those along the path
    of each old peak. -/
def consistencyInputs (μ : Type) (b : Profile) (H : Digest)
    (proof : ConsistencyProof (Vector UInt8 H.output_size))
    (old_accumulator : List (Vector UInt8 H.output_size)) : List Bytes :=
  match (peaksOfSize b proof.mmr_size_from : Outcome Empty (List Nat)) with
  | ok from_peaks => (entries from_peaks old_accumulator proof.proof_paths).flatMap fun entry =>
      mmr.hashedInputs (ε := μ) H
        (included_root b Term.hasher.toMerge entry.1 (.given entry.2.1) (entry.2.2.map .given))
  | _ => []

/-- A path from an old peak that leads to the digest of a new one leads, on terms, from
    the one to the other. -/
theorem provesTo_of_digest {node top : Nat × Nat} {path : List (Vector UInt8 H.output_size)}
    {all : List Bytes} (hcollision : H.NoCollision all)
    (hnode : 2 ^ node.1 * (node.2 + 1) ≤ A.length) (htop : 2 ^ top.1 * (top.2 + 1) ≤ B.length)
    (hfitsA : nodeCount A.length + 1 < 2 ^ 64) (hfitsB : nodeCount B.length + 1 < 2 ^ 64)
    (hA : (nodeItem Term.hasher A node.1 node.2).inputs H ⊆ all)
    (hB : (nodeItem Term.hasher B top.1 top.2).inputs H ⊆ all)
    (hpath : mmr.hashedInputs (ε := μ) H (included_root b Term.hasher.toMerge (nodePos node.1 node.2)
      (.given (nodeItem (DigestMerge H) A node.1 node.2)) (path.map .given)) ⊆ all)
    (hleads : LeadsTo b ((DigestMerge H).toMerge : Merge _ μ)
      (nodePos node.1 node.2, nodeItem (DigestMerge H) A node.1 node.2, path)
      ((nodeItem Term.hasher B top.1 top.2).digest H)) :
    ProvesTo b (Term.hasher.toMerge : Merge (Term (Vector UInt8 H.output_size)) μ) Term.hasher A node
      (nodeItem Term.hasher B top.1 top.2) := by
  have hplaceA : nodePos node.1 node.2 + 1 < 2 ^ 64 := by
    have hbelow := nodePos_lt_nodeCount_iff.mpr hnode
    omega
  have hplaceB : nodePos top.1 top.2 + 1 < 2 ^ 64 := by
    have hbelow := nodePos_lt_nodeCount_iff.mpr htop
    omega
  -- The verification on terms, with nothing known of the old peak but its digest.
  have hmap := included_root_map (b := b) (μ := μ) (H := Term.hasher) (K := DigestMerge H)
    (f := Term.digest H) (fun _ _ _ => rfl) (nodePos node.1 node.2)
    (.given (nodeItem (DigestMerge H) A node.1 node.2)) (path.map .given)
  rw [Term.map_digest_given] at hmap
  obtain ⟨term, hterm, hdigest⟩ := map_eq_ok_iff.mp (hmap.symm.trans hleads)
  rw [hterm] at hpath
  have hmatches := Term.matches_of_noCollision (nodeItem_builtFrom htop) hdigest
    (hcollision.mono (List.append_subset.mpr ⟨hB, hpath⟩))
  obtain ⟨g, hheight, hclimb⟩ := bind_eq_ok_iff.mp hterm
  obtain ⟨part, path', _, hpart, hfrom, hwords, hsub, hclimb⟩ := included_root_climb_matches hclimb hmatches
    (nodeItem_builtFrom htop) (nodeItem_inWords hplaceB)
  -- The part of the new tree that has the old peak's digest is the old peak.
  have hsame := Term.matches_of_noCollision hfrom ((nodeItem_digest H A node.1 node.2).trans hpart.symm)
    (hcollision.mono (List.append_subset.mpr ⟨List.Subset.trans hsub hB, hA⟩))
  refine ⟨path', ?_⟩
  rw [LeadsTo, included_root, hheight, ok_bind,
    Term.eq_of_matches (nodeItem_builtFrom hnode) (nodeItem_inWords hplaceA) hwords hsame]
  exact hclimb

/-- All the old peaks at once: what is accepted for digests could be accepted for terms. -/
theorem exists_proves_of_verify {proof : ConsistencyProof (Vector UInt8 H.output_size)} (hA : A ≠ [])
    (hfitsA : nodeCount A.length + 1 < allOnesLimit b) (hfitsB : nodeCount B.length + 1 < allOnesLimit b)
    (hpos : 0 < B.length) (hsize : proof.mmr_size_from = nodeCount A.length)
    (hcollision : H.NoCollision (builtInputs b H A ++ builtInputs b H B ++
      consistencyInputs μ b H proof (peakItems (DigestMerge H) A)))
    (hverify : (proof.verify b ((DigestMerge H).toMerge : Merge _ μ) (peakItems (DigestMerge H) A)
      (peakItems (DigestMerge H) B) : Outcome (Error σ μ) Bool) = ok true) :
    ∃ found, List.Forall₂
      (ProvesTo b (Term.hasher.toMerge : Merge (Term (Vector UInt8 H.output_size)) μ) Term.hasher A)
        (peaks A.length) found ∧ Follows found (peakItems Term.hasher B) := by
  have hlimit := allOnesLimit_le b
  have hposA := List.length_pos_iff.mpr hA
  obtain ⟨from_peaks, found, hpeaks, _, hpaths, hfound, hfollows⟩ := ConsistencyProof.verify_iff.mp hverify
  rw [hsize, peaksOfSize_eq hposA (by omega), ok.injEq] at hpeaks
  subst hpeaks
  have hinputs : consistencyInputs μ b H proof (peakItems (DigestMerge H) A) =
      (entries (peakPositions A.length) (peakItems (DigestMerge H) A) proof.proof_paths).flatMap
        fun entry => mmr.hashedInputs (ε := μ) H
          (included_root b Term.hasher.toMerge entry.1 (.given entry.2.1) (entry.2.2.map .given)) := by
    rw [consistencyInputs, hsize, peaksOfSize_eq hposA (by omega)]
  have htrack : peakItems (DigestMerge H) B = (peakItems Term.hasher B).map (Term.digest H) := by
    rw [peakItems, peakItems, List.map_map]
    exact List.map_congr_left fun node _ => (nodeItem_digest H B node.1 node.2).symm
  rw [htrack] at hfollows
  obtain ⟨tops, rfl, hwalk⟩ := hfollows.exists_of_map
  refine ⟨tops, ?_, hwalk⟩
  -- Each old peak goes with its own path and its own root.
  have hentries := (List.forall₂_and_left _ _).mpr ⟨fun entry hentry => hentry, hfound⟩
  have hstarts : List.Forall₂ (fun node p => p = nodePos node.1 node.2) (peaks A.length)
      (peakPositions A.length) :=
    List.forall₂_map_right_iff.mpr (List.forall₂_same.mpr fun _ _ => rfl)
  have hleads := List.forall₂_map_right_iff.mp (leads_of_entries hstarts hpaths hentries)
  obtain ⟨hlength, hpairs⟩ := List.forall₂_iff_zip.mp hleads
  refine List.forall₂_iff_zip.mpr ⟨hlength, fun {node root} hpair => ?_⟩
  obtain ⟨hnode, hroot⟩ := List.of_mem_zip hpair
  obtain ⟨_, path, rfl, hentry, hlead⟩ := hpairs hpair
  obtain ⟨top, htop, rfl⟩ := List.mem_map.mp (hwalk.subset hroot)
  refine provesTo_of_digest hcollision (mem_peaks_iff.mp hnode).1 (mem_peaks_iff.mp htop).1 (by omega)
    (by omega) ?_ ?_ ?_ hlead
  · have hsub := inputs_subset_builtInputs (H := H) hposA hfitsA hnode
    exact fun input hinput => List.mem_append_left _ (List.mem_append_left _ (hsub hinput))
  · have hsub := inputs_subset_builtInputs (H := H) hpos hfitsB htop
    exact fun input hinput => List.mem_append_left _ (List.mem_append_right _ (hsub hinput))
  · rw [hinputs]
    exact fun input hinput => List.mem_append_right _ (List.mem_flatMap.mpr ⟨_, hentry, hinput⟩)

/-- No forged history in an MMRIVER. Whatever paths a consistency proof has, it is
    accepted between the accumulators of two trees only if no leaf of the first is lost,
    their order is kept, and all but an unpaired last one are where they were, when the
    hash function has no collision among the byte strings hashed for the two trees and for
    the verification. -/
theorem MMRIVER.Session.accepted_history {R : MMRStoreReadOps Store (Vector UInt8 H.output_size) σ}
    {W : MMRStoreWriteOps Store (Vector UInt8 H.output_size) σ} (S : MapStore R W)
    {storeA storeB : Store} {positionsA positionsB : List Nat}
    {treeA treeB : MMRIVER (Vector UInt8 H.output_size) Store}
    (sessionA : MMRIVER.Session b ((DigestMerge H).toMerge : Merge _ μ) R W (MMRIVER.new 0 storeA) A
      positionsA treeA)
    (sessionB : MMRIVER.Session b ((DigestMerge H).toMerge : Merge _ μ) R W (MMRIVER.new 0 storeB) B
      positionsB treeB)
    (hA : A ≠ []) (hB : B ≠ []) (hfit : b = .release → A.length < 2 ^ 63 ∧ B.length < 2 ^ 63) :
    ∃ accumulatorA accumulatorB,
      (treeA.get_accumulator b R : Outcome (Error σ μ) _) = ok accumulatorA ∧
      (treeB.get_accumulator b R : Outcome (Error σ μ) _) = ok accumulatorB ∧
      ∀ proof : ConsistencyProof (Vector UInt8 H.output_size), proof.mmr_size_from = treeA.mmr_size →
        H.NoCollision (builtInputs b H A ++ builtInputs b H B ++
          consistencyInputs μ b H proof accumulatorA) →
        (proof.verify b ((DigestMerge H).toMerge : Merge _ μ) accumulatorA accumulatorB :
          Outcome (Error σ μ) Bool) = ok true →
        A.Sublist B ∧ A.take (A.length / 2 * 2) <+: B := by
  obtain ⟨holdsA, _⟩ := sessionA.holds S (.refl _) fun hb => (hfit hb).1
  obtain ⟨holdsB, _⟩ := sessionB.holds S (.refl _) fun hb => (hfit hb).2
  refine ⟨_, _, holdsA.get_accumulator (List.length_pos_iff.mpr hA),
    holdsB.get_accumulator (List.length_pos_iff.mpr hB), fun proof hsize hcollision hverify => ?_⟩
  rw [holdsA.forest.size] at hsize
  obtain ⟨found, hproves, hfollows⟩ := exists_proves_of_verify hA holdsA.height_fits holdsB.height_fits
    (List.length_pos_iff.mpr hB) hsize hcollision hverify
  have hkeeps : Keeps A B := by
    rcases prefix_or_spliced (Term.hasher_posInjective _) (Term.leaf_hash_injective _) holdsA.height_fits
      holdsB.height_fits hproves hfollows with hbegins | hspliced
    · exact .of_begins hbegins
    · exact .of_spliced hspliced
  exact ⟨hkeeps.sublist, hkeeps.paired⟩

/-- Two leaves under a digest of one byte, and three. -/
theorem MMRIVER.Session.accepted_history_three :
    ∃ (treeA treeB : MMRIVER (Vector UInt8 1) (MemStore (Vector UInt8 1)))
      (accumulatorA accumulatorB : List (Vector UInt8 1)),
      (treeA.get_accumulator .debug MemStore.readOps : Outcome (Error Empty Empty) _) = ok accumulatorA ∧
      (treeB.get_accumulator .debug MemStore.readOps : Outcome (Error Empty Empty) _) = ok accumulatorB ∧
      ((ConsistencyProof.new 3 4 [[]]).verify .debug ((DigestMerge mmr.weightedSum).toMerge : Merge _ Empty)
        accumulatorA accumulatorB : Outcome (Error Empty Empty) Bool) = ok true ∧
      ([[1], [2]] : List Bytes).Sublist [[1], [2], [3]] := by
  have start : MMRIVER.Session .debug ((DigestMerge mmr.weightedSum).toMerge : Merge _ Empty)
      (MemStore.readOps : MMRStoreReadOps _ _ Empty) (MemStore.writeOps .debug)
      (MMRIVER.new 0 MemStore.new) [] [] _ := .refl
  have sessionA := (start.push (d := [1]) ⟨_, _, .refl _, .refl _, rfl⟩).push (d := [2])
    ⟨_, _, .refl _, .refl _, rfl⟩
  have sessionB := sessionA.push (d := [3]) ⟨_, _, .refl _, .refl _, rfl⟩
  obtain ⟨accumulatorA, accumulatorB, hgetA, hgetB, hkept⟩ := MMRIVER.Session.accepted_history
    (MemStore.mapStore .debug) sessionA sessionB (by decide) (by decide) (fun hb => by cases hb)
  have hpeak : [mmr.weightedSum.digest (DigestMerge.node_input 3
      ((DigestMerge mmr.weightedSum).leaf_hash [1]) ((DigestMerge mmr.weightedSum).leaf_hash [2]))] =
      accumulatorA := ok.inj hgetA
  have hpeaks : [mmr.weightedSum.digest (DigestMerge.node_input 3
      ((DigestMerge mmr.weightedSum).leaf_hash [1]) ((DigestMerge mmr.weightedSum).leaf_hash [2])),
      (DigestMerge mmr.weightedSum).leaf_hash [3]] = accumulatorB := ok.inj hgetB
  subst hpeak hpeaks
  exact ⟨_, _, _, _, hgetA, hgetB, rfl, (hkept (.new 3 4 [[]]) rfl
    (by unfold Digest.NoCollision; decide +kernel) rfl).1⟩

end mmriver

end merkleberg
