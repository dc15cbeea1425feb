import Merkleberg.Mmr.Binding
import Merkleberg.Mmr.Evaluate
import Merkleberg.Mmr.Session

open machine machine.Outcome
open forest

namespace merkleberg.mmr

variable {Item Store σ μ : Type} {b : Profile} {R : MMRStoreReadOps Store Item σ}
  {W : MMRStoreWriteOps Store Item σ}

/-- The byte strings hashed for what is computed on terms. -/
def hashedInputs {ε : Type} (H : Digest) :
    Outcome ε (Term (Vector UInt8 H.output_size)) → List Bytes
  | ok term => term.inputs H
  | _ => []

/-- The byte strings hashed while the data are pushed and the root is computed. -/
def builtInputs (b : Profile) (H : Digest) (data : List Bytes) : List Bytes :=
  match (pushAll (MMR.push b Term.hasher.toMerge MemStore.readOps) (MMR.new 0 MemStore.new) data :
    Outcome Empty (Except (Error Empty Empty) _ × _)) with
  | ok (_, final) =>
    hashedInputs (ε := Error Empty Empty) H (final.get_root b Term.hasher.toMerge MemStore.readOps)
  | _ => []

/-- The byte strings hashed while the data claimed at some positions are hashed as
    leaves and the proof is verified for them. -/
def verifiedInputs (σ μ : Type) (b : Profile) (H : Digest)
    (proof : InclusionProof (Vector UInt8 H.output_size)) (claimed : List (Nat × Bytes)) :
    List Bytes :=
  hashedInputs (ε := Error σ μ) H
    (calculate_root b Term.hasher.toMerge (claimed.map fun claim => (claim.1, Term.leaf claim.2))
      proof.mmr_size (proof.proof.map .given))

section Symbolic

variable {H : Digest} {data : List Bytes}

/-- The peaks computed on terms describe the peaks. -/
theorem peakItems_digest (H : Digest) (data : List Bytes) :
    peakItems (DigestMerge H) data = (peakItems Term.hasher data).map (Term.digest H) := by
  rw [peakItems_eq, peakItems_eq, List.map_map]
  refine List.map_congr_left fun node _ => ?_
  rw [Function.comp_apply]
  have hnode (_ : Nat) := (Term.digest_hom H).merge
  exact (treeRoot_map (fun _ => (Term.digest_hom H).leaf_hash _) hnode node.1 node.2).symm

theorem peakItems_builtFrom {Item : Type} (data : List Bytes) :
    ∀ peak ∈ peakItems (Term.hasher : Hasher (Term Item)) data, peak.BuiltFrom data := by
  intro peak hpeak
  rw [peakItems_eq] at hpeak
  obtain ⟨node, hnode, rfl⟩ := List.mem_map.mp hpeak
  refine treeRoot_of_closed (fun _ _ _ hleft hright => ⟨hleft, hright⟩) fun i _ hi => ?_
  have hinside := hi.trans_le (mem_peaks_iff.mp hnode).1
  rw [leafItem, List.getD_eq_getElem _ _ hinside]
  exact List.getElem_mem hinside

/-- The root computed on terms describes the root. -/
theorem exists_built_root (hpos : 0 < data.length) (hlength : data.length ≤ 2 ^ 63)
    {root : Vector UInt8 H.output_size}
    (hroot : bagPeaks (DigestMerge H).merge_peaks (peakItems (DigestMerge H) data) = some root) :
    ∃ built : Term (Vector UInt8 H.output_size), builtInputs b H data = built.inputs H ∧
      built.digest H = root ∧ built.BuiltFrom data := by
  have hempty := MMR.Holds.new (σ := Empty) (MemStore.mapStore b)
    (Term.hasher : Hasher (Term (Vector UInt8 H.output_size))) MemStore.new
  obtain ⟨positions, final, hpush, hfinal⟩ :=
    hempty.pushAll (b := b) (μ := Empty) data (by simpa using hlength)
  rw [List.nil_append] at hfinal
  obtain ⟨built, hget, hbuilt⟩ := hfinal.get_root (b := b) (μ := Empty) hpos
  refine ⟨built, ?_, ?_, ?_⟩
  · simp only [builtInputs, hpush, hget, hashedInputs]
  · rw [peakItems_digest, bagPeaks_map (Term.digest_hom H).merge_peaks, hbuilt, Option.map_some,
      Option.some.injEq] at hroot
    exact hroot
  · exact bagPeaks_of_closed (fun _ _ hleft hright => ⟨hleft, hright⟩) hbuilt
      (peakItems_builtFrom data)

/-- The leaves given to a successful verification all go into the root. -/
theorem leaves_of_calculate_root {Item : Type} {claimed : List (Nat × Bytes)} {mmr_size : Nat}
    {items : List (Term Item)} {root : Term Item} (hsize : mmr_size < 2 ^ 64)
    (hwords : ∀ claim ∈ claimed, claim.1 < 2 ^ 64) (hdistinct : (claimed.map (·.1)).Nodup)
    (hroot : (calculate_root b Term.hasher.toMerge
      (claimed.map fun claim => (claim.1, Term.leaf claim.2)) mmr_size items :
        Outcome (Error σ μ) _) = ok root) :
    ∀ claim ∈ claimed, claim.2 ∈ root.leaves := by
  intro claim hclaim
  obtain ⟨hashes, hhashes, hbag⟩ := calculate_root_eq_ok_iff.mp hroot
  obtain ⟨n, hle, hlt⟩ := exists_nodeCount_le_lt mmr_size
  have hwords' : ∀ pair ∈ claimed.map fun claim => (claim.1, (Term.leaf claim.2 : Term Item)),
      pair.1 < 2 ^ 64 := List.forall_mem_map.mpr hwords
  obtain ⟨_, leaves, front, back, used, roots, extra, hverified⟩ :=
    calculate_peaks_hashes_sound hle hlt hsize hwords' hhashes
  obtain ⟨leaf, hleaf, heq⟩ := hverified.exists_leaf (by simpa [Function.comp_def] using hdistinct)
    (List.mem_map_of_mem hclaim)
  have hdown (x y : Term Item) (hnode : (Term.hasher.merge x y).leaves ⊆ root.leaves) :
      x.leaves ⊆ root.leaves ∧ y.leaves ⊆ root.leaves := List.append_subset.mp hnode
  have hpeaks := bagPeaks_descend (P := fun term => term.leaves ⊆ root.leaves) hdown hbag
    (List.Subset.refl _)
  have hroots := hverified.folds.descend (P := fun term => term.leaves ⊆ root.leaves) hdown
    fun peak hpeak => hpeaks peak (hverified.hashes_eq ▸ List.mem_append_left _ hpeak)
  have hitem : leaf.2 = .leaf claim.2 := congrArg Prod.snd heq
  have hsub := hroots leaf hleaf
  rw [hitem] at hsub
  exact hsub List.mem_cons_self

end Symbolic

/-- Whatever size and items a proof claims, it verifies against the root only for
    data that were pushed, when the hash function has no collision among the
    byte strings hashed for the tree and for the verification. -/
theorem MMR.Run.no_forged_membership {H : Digest}
    {R : MMRStoreReadOps Store (Vector UInt8 H.output_size) σ}
    {W : MMRStoreWriteOps Store (Vector UInt8 H.output_size) σ} (S : MapStore R W) {store : Store}
    {data : List Bytes} {positions : List Nat} {final : MMR (Vector UInt8 H.output_size) Store}
    (run : MMR.Run b ((DigestMerge H).toMerge : Merge _ μ) R W (MMR.new 0 store) data positions final)
    (hfit : b = .release → data.length ≤ 2 ^ 63) (hn : 0 < data.length) :
    ∃ root, (final.get_root b (DigestMerge H).toMerge R : Outcome (Error σ μ) _) = ok root ∧
      ∀ (proof : InclusionProof (Vector UInt8 H.output_size)) (claimed : List (Nat × Bytes)),
        proof.mmr_size < 2 ^ 64 → (∀ claim ∈ claimed, claim.1 < 2 ^ 64) → claimed ≠ [] →
        (claimed.map (·.1)).Nodup →
        H.NoCollision (builtInputs b H data ++ verifiedInputs σ μ b H proof claimed) →
        (proof.verify b (DigestMerge H).toMerge root
          (claimed.map fun claim => (claim.1, (DigestMerge H).leaf_hash claim.2)) :
            Outcome (Error σ μ) Bool) = ok true →
        ∀ claim ∈ claimed, claim.2 ∈ data := by
  obtain ⟨hfinal, _⟩ := run.holds S hfit
  obtain ⟨root, hget, hroot⟩ := hfinal.get_root (b := b) (μ := μ) hn
  refine ⟨root, hget, ?_⟩
  intro proof claimed hsize hwords _ hdistinct hcollision hverify claim hclaim
  obtain ⟨built, hbuilt, hdigest, hfrom⟩ := exists_built_root (b := b) hn hfinal.leaves_lt hroot
  -- The same verification on terms ends with a term that has the root as its digest.
  have hmap := calculate_root_map (b := b) (σ := σ) (μ := μ) (Term.digest_hom H)
    (claimed.map fun claim => (claim.1, Term.leaf claim.2)) proof.mmr_size (proof.proof.map .given)
  have hitems : (proof.proof.map Term.given).map (Term.digest H) = proof.proof := by
    rw [List.map_map]
    exact List.map_id _
  rw [hitems, List.map_map] at hmap
  rw [verify_eq_true_iff] at hverify
  have hboth := hmap.symm.trans hverify
  rw [map_eq_ok_iff] at hboth
  obtain ⟨term, hterm, hroot'⟩ := hboth
  have hinputs : verifiedInputs σ μ b H proof claimed = term.inputs H := by
    rw [verifiedInputs, hterm]
    rfl
  rw [hbuilt, hinputs] at hcollision
  exact Term.mem_of_digest_eq hfrom (hroot'.trans hdigest.symm) hcollision _
    (leaves_of_calculate_root hsize hwords hdistinct hterm claim hclaim)

/-- A digest of one byte, to evaluate small trees with. -/
def weightedSum : Digest where
  output_size := 1
  digest input := #v[input.foldr (fun byte sum => 3 * sum + byte + 1) 0]

/-- Two leaves under a digest of one byte, with a proof for the first. -/
theorem MMR.Run.no_forged_membership_two :
    ∃ (final : MMR (Vector UInt8 1) (MemStore (Vector UInt8 1))) (root : Vector UInt8 1)
      (proof : InclusionProof (Vector UInt8 1)),
      (final.get_root .debug (DigestMerge weightedSum).toMerge MemStore.readOps :
        Outcome (Error Empty Empty) _) = ok root ∧
      (proof.verify .debug (DigestMerge weightedSum).toMerge root
        [(0, (DigestMerge weightedSum).leaf_hash [1])] : Outcome (Error Empty Empty) Bool) = ok true ∧
      ([1] : Bytes) ∈ ([[1], [2]] : List Bytes) := by
  have start : MMR.Run (σ := Empty) (μ := Empty) .debug (DigestMerge weightedSum).toMerge
    MemStore.readOps (MemStore.writeOps .debug) (MMR.new 0 MemStore.new) [] [] _ := .refl
  have run := (start.push (d := [1]) rfl).push (d := [2]) rfl
  obtain ⟨root, hget, hforged⟩ :=
    MMR.Run.no_forged_membership (MemStore.mapStore .debug) run (by decide) (by decide)
  have hroot : weightedSum.digest (DigestMerge.node_input 0 ((DigestMerge weightedSum).leaf_hash [1])
      ((DigestMerge weightedSum).leaf_hash [2])) = root := ok.inj hget
  subst hroot
  have hverify : ((InclusionProof.new 3 [(DigestMerge weightedSum).leaf_hash [2]]).verify .debug
      (DigestMerge weightedSum).toMerge (weightedSum.digest (DigestMerge.node_input 0
        ((DigestMerge weightedSum).leaf_hash [1]) ((DigestMerge weightedSum).leaf_hash [2])))
      [(0, (DigestMerge weightedSum).leaf_hash [1])] : Outcome (Error Empty Empty) Bool) = ok true := rfl
  exact ⟨_, _, _, hget, hverify, hforged (.new 3 [(DigestMerge weightedSum).leaf_hash [2]]) [(0, [1])]
    (by decide) (by decide) (by decide) (by decide) (by unfold Digest.NoCollision; decide +kernel)
    hverify (0, [1]) List.mem_cons_self⟩

end merkleberg.mmr
