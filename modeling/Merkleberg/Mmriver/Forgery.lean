import Merkleberg.Matching
import Merkleberg.Mmr.Forgery
import Merkleberg.Mmriver.Binding
import Merkleberg.Mmriver.Session

open machine machine.Outcome
open forest
open merkleberg.helper

namespace merkleberg

/-- Every position that is hashed in a term is one of a machine word. -/
def Term.InWords {Item : Type} : Term Item → Prop
  | given _ => True
  | leaf _ => True
  | node pos left right => pos < 2 ^ 64 ∧ left.InWords ∧ right.InWords

namespace mmriver

variable {Item Store σ μ : Type} {b b' : Profile} {R : MMRStoreReadOps Store Item σ}
  {W : MMRStoreWriteOps Store Item σ}

section Climb

variable {α β : Type} {H : Hasher α} {K : Hasher β} {f : α → β}

/-- A pass of the verifier goes where the index leads it, whatever the items are. -/
theorem included_root_climb_pass {g i : Nat} {x sibling root : α} {path : List α}
    (hclimb : included_root.climb b (H.toMerge : Merge α μ) g i x (sibling :: path) = ok root) :
    ∃ next parent pos, pos < 2 ^ 64 ∧ ∃ right : Bool, ∀ (x sibling : α) (path : List α),
      included_root.climb b (H.toMerge : Merge α μ) g i x (sibling :: path) =
        included_root.climb b (H.toMerge : Merge α μ) next parent
          (if right then H.merge_pos pos sibling x else H.merge_pos pos x sibling) path := by
  simp only [included_root.climb, bind_eq_ok_iff] at hclimb
  obtain ⟨next, hnext, above, habove, height, hheight, hclimb⟩ := hclimb
  split at hclimb
  · rename_i hright
    obtain ⟨parent, hparent, hclimb⟩ := bind_eq_ok_iff.mp hclimb
    obtain ⟨pos, hpos, _⟩ := bind_eq_ok_iff.mp hclimb
    obtain rfl := ok.inj (habove.symm.trans hparent)
    refine ⟨next, above, pos, ?_, true, fun x sibling path => ?_⟩
    · rw [(Word.eq_of_add_ok hpos).1]
      exact Nat.mod_lt _ (by decide)
    · simp only [included_root.climb, hnext, habove, hheight, ok_bind, if_pos hright, hpos,
        Hasher.toMerge_merge_pos, if_true]
  · rename_i hright
    obtain ⟨offset, hoffset, hclimb⟩ := bind_eq_ok_iff.mp hclimb
    obtain ⟨parent, hparent, hclimb⟩ := bind_eq_ok_iff.mp hclimb
    obtain ⟨pos, hpos, _⟩ := bind_eq_ok_iff.mp hclimb
    refine ⟨next, parent, pos, ?_, false, fun x sibling path => ?_⟩
    · rw [(Word.eq_of_add_ok hpos).1]
      exact Nat.mod_lt _ (by decide)
    · simp only [included_root.climb, hnext, habove, hheight, ok_bind, if_neg hright, hoffset, hparent, hpos,
        Hasher.toMerge_merge_pos, Bool.false_eq_true, if_false]

theorem included_root_climb_map (hom : ∀ pos left right, f (H.merge_pos pos left right) =
    K.merge_pos pos (f left) (f right)) (g i : Nat) (x : α) (path : List α) :
    included_root.climb b (K.toMerge : Merge β μ) g i (f x) (path.map f) =
      f <$> included_root.climb b (H.toMerge : Merge α μ) g i x path := by
  induction path generalizing g i x with
  | nil => exact bind_map_congr fun _ => rfl
  | cons sibling path ih =>
    rw [List.map_cons, included_root.climb, included_root.climb]
    refine bind_map_congr fun next => bind_map_congr fun above => bind_map_congr fun height => ?_
    split
    · refine bind_map_congr fun parent => bind_map_congr fun pos => ?_
      rw [Hasher.toMerge_merge_pos, Hasher.toMerge_merge_pos, ok_bind, ok_bind, ← hom, ih]
    · refine bind_map_congr fun offset => bind_map_congr fun parent => bind_map_congr fun pos => ?_
      rw [Hasher.toMerge_merge_pos, Hasher.toMerge_merge_pos, ok_bind, ok_bind, ← hom, ih]

/-- Evaluating what is verified on terms gives what is verified on items. -/
theorem included_root_map (hom : ∀ pos left right, f (H.merge_pos pos left right) =
    K.merge_pos pos (f left) (f right)) (i : Nat) (x : α) (path : List α) :
    included_root b (K.toMerge : Merge β μ) i (f x) (path.map f) =
      f <$> included_root b (H.toMerge : Merge α μ) i x path :=
  bind_map_congr fun g => included_root_climb_map hom g i x path

end Climb

section Symbolic

variable {H : Digest} {data : List Bytes} {reads : Bytes → Term (Vector UInt8 H.output_size) → Prop}
  {x term built : Term (Vector UInt8 H.output_size)}

/-- A verification that ends with a term that is true of a built one could have been
    made on parts of the built one all the way. The induction is on the path, and goes
    down from its end. -/
theorem included_root_climb_matches {g i : Nat} {path : List (Term (Vector UInt8 H.output_size))}
    (hclimb : included_root.climb b (Term.hasher.toMerge : Merge _ μ) g i x path = ok term)
    (hmatches : term.Matches H reads built) (hbuilt : built.BuiltFrom data) (hwords : built.InWords) :
    ∃ x' path', path'.length = path.length ∧ x.Matches H reads x' ∧ x'.BuiltFrom data ∧ x'.InWords ∧
      x'.inputs H ⊆ built.inputs H ∧
      included_root.climb b (Term.hasher.toMerge : Merge _ μ) g i x' path' = ok built := by
  induction path generalizing g i x with
  | nil =>
    obtain ⟨next, hnext, hterm⟩ := bind_eq_ok_iff.mp hclimb
    obtain rfl := ok.inj hterm
    refine ⟨built, [], rfl, hmatches, hbuilt, hwords, List.Subset.refl _, ?_⟩
    rw [included_root.climb, hnext, ok_bind]
  | cons sibling path ih =>
    obtain ⟨next, parent, pos, hpos, right, hpass⟩ := included_root_climb_pass hclimb
    rw [hpass] at hclimb
    obtain ⟨node, path', hlength, hnode, hfrom, hin, hsub, hrest⟩ := ih hclimb
    -- The parent is a node, so what it is true of is a node with the same two sides.
    cases right with
    | true =>
      cases node with
      | given item => exact hfrom.elim
      | leaf d => exact hnode.elim
      | node pos' left' right' =>
        obtain rfl := to_be_bytes_inj hpos hin.1 hnode.1
        refine ⟨right', left' :: path', by simp [hlength], hnode.2.2, hfrom.2, hin.2.2,
          (List.append_subset.mp (List.cons_subset.mp hsub).2).2, ?_⟩
        rw [hpass]
        exact hrest
    | false =>
      cases node with
      | given item => exact hfrom.elim
      | leaf d => exact hnode.elim
      | node pos' left' right' =>
        obtain rfl := to_be_bytes_inj hpos hin.1 hnode.1
        refine ⟨left', right' :: path', by simp [hlength], hnode.2.1, hfrom.1, hin.2.1,
          (List.append_subset.mp (List.cons_subset.mp hsub).2).1, ?_⟩
        rw [hpass]
        exact hrest

/-- The peaks computed on terms describe the peaks. -/
theorem nodeItem_digest (H : Digest) (data : List Bytes) (h k : Nat) :
    (nodeItem Term.hasher data h k).digest H = nodeItem (DigestMerge H) data h k := by
  rw [nodeItem, nodeItem]
  exact treeRoot_map (fun _ => rfl) (fun _ _ _ => rfl) h k

theorem nodeItem_builtFrom {h k : Nat} (hinside : 2 ^ h * (k + 1) ≤ data.length) :
    (nodeItem (Term.hasher : Hasher (Term Item)) data h k).BuiltFrom data := by
  refine treeRoot_of_closed (fun _ _ _ hleft hright => ⟨hleft, hright⟩) fun i _ hi => ?_
  rw [leafItem, List.getD_eq_getElem _ _ (hi.trans_le hinside)]
  exact List.getElem_mem (hi.trans_le hinside)

theorem nodeItem_inWords {h k : Nat} (hfits : nodePos h k + 1 < 2 ^ 64) :
    (nodeItem (Term.hasher : Hasher (Term Item)) data h k).InWords := by
  induction h generalizing k with
  | zero => exact trivial
  | succ h ih =>
    have hleft := nodePos_lt_parent h (2 * k)
    have hright := nodePos_lt_parent h (2 * k + 1)
    rw [show 2 * k / 2 = k by omega] at hleft
    rw [show (2 * k + 1) / 2 = k by omega] at hright
    exact ⟨hfits, ih (by omega), ih (by omega)⟩

end Symbolic

/-- The byte strings hashed while the data are pushed, for what ends up under the
    accumulator. -/
def builtInputs (b : Profile) (H : Digest) (data : List Bytes) : List Bytes :=
  match (pushAll (MMRIVER.push b Term.hasher.toMerge MemStore.readOps) (MMRIVER.new 0 MemStore.new) data :
    Outcome Empty (Except (Error Empty Empty) _ × _)) with
  | ok (_, final) =>
    match (final.get_accumulator b MemStore.readOps : Outcome (Error Empty Empty) _) with
    | ok accumulator => accumulator.flatMap (Term.inputs H)
    | _ => []
  | _ => []

/-- The byte strings hashed while some data are hashed as a leaf and the proof is
    verified for them. -/
def verifiedInputs (μ : Type) (b : Profile) (H : Digest)
    (proof : InclusionProof (Vector UInt8 H.output_size)) (d : Bytes) : List Bytes :=
  mmr.hashedInputs (ε := μ) H
    (included_root b Term.hasher.toMerge proof.index (.leaf d) (proof.proof.map .given))

section Verify

variable {H : Digest} {data : List Bytes} {proof : InclusionProof (Vector UInt8 H.output_size)} {d : Bytes}

theorem inputs_subset_builtInputs (hpos : 0 < data.length)
    (hfits : nodeCount data.length + 1 < allOnesLimit b) {node : Nat × Nat}
    (hpeak : node ∈ peaks data.length) :
    (nodeItem Term.hasher data node.1 node.2).inputs H ⊆ builtInputs b H data := by
  have hempty := MMRIVER.Holds.new (b := b) (σ := Empty) (MemStore.mapStore b)
    (Term.hasher : Hasher (Term (Vector UInt8 H.output_size))) MemStore.new
  obtain ⟨positions, final, hpush, hfinal⟩ := hempty.pushAll (μ := Empty) data (by simpa using hfits)
  have haccumulator := hfinal.get_accumulator (σ := Empty) (μ := Empty) hpos
  rw [List.nil_append] at haccumulator
  simp only [builtInputs, hpush, haccumulator]
  exact fun input hinput => List.mem_flatMap.mpr ⟨_, List.mem_map_of_mem hpeak, hinput⟩

/-- An accepted proof ends with the digest of a peak, and so does the same verification
    made on terms. -/
theorem exists_term_of_verify
    (hverify : (proof.verify b ((DigestMerge H).toMerge : Merge _ μ) ((DigestMerge H).leaf_hash d)
      (peakItems (DigestMerge H) data) : Outcome (Error σ μ) Bool) = ok true) :
    ∃ node ∈ peaks data.length, ∃ term, verifiedInputs μ b H proof d = term.inputs H ∧
      term.digest H = (nodeItem Term.hasher data node.1 node.2).digest H ∧
      included_root b (Term.hasher.toMerge : Merge _ μ) proof.index (.leaf d) (proof.proof.map .given) =
        ok term := by
  obtain ⟨root, hmem, hroot⟩ := InclusionProof.mem_of_verify hverify
  obtain ⟨node, hpeak, rfl⟩ := List.mem_map.mp hmem
  have hmap := included_root_map (b := b) (μ := μ) (H := Term.hasher) (K := DigestMerge H)
    (f := Term.digest H) (fun _ _ _ => rfl) proof.index (.leaf d) (proof.proof.map .given)
  rw [Term.map_digest_given] at hmap
  obtain ⟨term, hterm, hdigest⟩ := map_eq_ok_iff.mp (hmap.symm.trans hroot)
  refine ⟨node, hpeak, term, ?_, hdigest.trans (nodeItem_digest H data _ _).symm, hterm⟩
  rw [verifiedInputs, hterm]
  rfl

/-- A claimed leaf stands for a part of the tree, in a checked build the one at the
    index if the path has an item. -/
theorem exists_part_of_matches {reads : Bytes → Term (Vector UInt8 H.output_size) → Prop}
    {term : Term (Vector UInt8 H.output_size)} {node : Nat × Nat} (hpeak : node ∈ peaks data.length)
    (hfits : nodeCount data.length + 1 < 2 ^ 64)
    (hterm : included_root b (Term.hasher.toMerge : Merge _ μ) proof.index (.leaf d)
      (proof.proof.map .given) = ok term)
    (hmatches : term.Matches H reads (nodeItem Term.hasher data node.1 node.2)) :
    ∃ part, part.BuiltFrom data ∧ reads d part ∧
      part.inputs H ⊆ (nodeItem Term.hasher data node.1 node.2).inputs H ∧
      (b = .debug → proof.proof ≠ [] → ∃ g m, 2 ^ g * (m + 1) ≤ data.length ∧
        proof.index = nodePos g m ∧ part = nodeItem Term.hasher data g m) := by
  have hinside : 2 ^ node.1 * (node.2 + 1) ≤ data.length := (mem_peaks_iff.mp hpeak).1
  have hbelow := nodePos_lt_nodeCount_iff.mpr hinside
  have hplace : nodePos node.1 node.2 + 1 < 2 ^ 64 := by omega
  obtain ⟨g, hheight, hclimb⟩ := bind_eq_ok_iff.mp hterm
  obtain ⟨part, path, hlength, hpart, hfrom, _, hsub, hclimb⟩ := included_root_climb_matches hclimb
    hmatches (nodeItem_builtFrom hinside) (nodeItem_inWords hplace)
  refine ⟨part, hfrom, hpart, hsub, ?_⟩
  rintro rfl hpath
  rw [List.length_map] at hlength
  have hne : path ≠ [] := by
    rw [← List.length_pos_iff, hlength]
    exact List.length_pos_iff.mpr hpath
  obtain ⟨sibling, rest, rfl⟩ := List.exists_cons_of_ne_nil hne
  have hroot : included_root .debug (Term.hasher.toMerge : Merge _ μ) proof.index part (sibling :: rest) =
      ok (nodeItem Term.hasher data node.1 node.2) := by
    rw [included_root, hheight, ok_bind, hclimb]
  obtain ⟨g, m, hindex, hvalue, hunder, _⟩ := included_root_binds (Term.hasher_posInjective _) hplace hroot
  exact ⟨g, m, hunder.leaves.2.trans hinside, hindex, hvalue⟩

/-- The part that a leaf stands for is the leaf of the log at the index. -/
theorem exists_leaf_of_part {positions : List Nat} {index : Nat}
    (hpositions : positions = (List.range data.length).map nodeCount)
    (hpart : ∃ g m, 2 ^ g * (m + 1) ≤ data.length ∧ index = nodePos g m ∧
      Term.leaf d = nodeItem (Term.hasher : Hasher (Term Item)) data g m) :
    ∃ i : Nat, positions[i]? = some index ∧ data[i]? = some d := by
  obtain ⟨g, m, hinside, rfl, hleaf⟩ := hpart
  cases g with
  | succ g => cases hleaf
  | zero =>
    rw [Nat.pow_zero, Nat.one_mul] at hinside
    have hd : d = data.getD m [] := Term.leaf.inj hleaf
    refine ⟨m, ?_, ?_⟩
    · rw [hpositions, List.getElem?_map, List.getElem?_range hinside, Option.map_some, nodePos_zero]
    · rw [hd, List.getD_eq_getElem _ _ hinside, List.getElem?_eq_getElem hinside]

/-- No forged membership in an MMRIVER either. Whatever path a proof has, it is accepted
    for a leaf only if the data were pushed, when the hash function has no collision
    among the byte strings hashed for the tree and for the verification. In a checked
    build they were even pushed at the index, if the path has an item. -/
theorem MMRIVER.Session.accepted_pushed {R : MMRStoreReadOps Store (Vector UInt8 H.output_size) σ}
    {W : MMRStoreWriteOps Store (Vector UInt8 H.output_size) σ} (S : MapStore R W) {store : Store}
    {positions : List Nat} {final : MMRIVER (Vector UInt8 H.output_size) Store}
    (session : MMRIVER.Session b ((DigestMerge H).toMerge : Merge _ μ) R W (MMRIVER.new 0 store) data
      positions final) (hfit : b = .release → data.length < 2 ^ 63) (hne : data ≠ []) :
    ∃ accumulator, (final.get_accumulator b R : Outcome (Error σ μ) _) = ok accumulator ∧
      ∀ b' (proof : InclusionProof (Vector UInt8 H.output_size)) d,
        H.NoCollision (builtInputs b H data ++ verifiedInputs μ b' H proof d) →
        (proof.verify b' ((DigestMerge H).toMerge : Merge _ μ) ((DigestMerge H).leaf_hash d) accumulator :
          Outcome (Error σ μ) Bool) = ok true →
        d ∈ data ∧ (b' = .debug → proof.proof ≠ [] →
          ∃ i : Nat, positions[i]? = some proof.index ∧ data[i]? = some d) := by
  obtain ⟨hfinal, hpositions⟩ := session.holds S (.refl _) hfit
  have hpos := List.length_pos_iff.mpr hne
  have hlimit := allOnesLimit_le b
  have hfits := hfinal.height_fits
  refine ⟨_, hfinal.get_accumulator hpos, fun b' proof d hcollision hverify => ?_⟩
  obtain ⟨node, hpeak, term, hinputs, hdigest, hterm⟩ := exists_term_of_verify hverify
  rw [hinputs] at hcollision
  have hmatches := Term.matches_of_noCollision (nodeItem_builtFrom (mem_peaks_iff.mp hpeak).1) hdigest
    (hcollision.mono (List.append_subset.mpr
      ⟨List.subset_append_of_subset_left _ (inputs_subset_builtInputs hpos hfits hpeak),
        List.subset_append_right _ _⟩))
  obtain ⟨part, hfrom, rfl, _, hindex⟩ := exists_part_of_matches hpeak (by omega) hterm hmatches
  exact ⟨hfrom, fun hb hpath => exists_leaf_of_part hpositions (hindex hb hpath)⟩

end Verify

/-- Two leaves under a digest of one byte, with a proof for the first. -/
theorem MMRIVER.Session.accepted_pushed_two :
    ∃ (final : MMRIVER (Vector UInt8 1) (MemStore (Vector UInt8 1))) (accumulator : List (Vector UInt8 1))
      (proof : InclusionProof (Vector UInt8 1)),
      (final.get_accumulator .debug MemStore.readOps : Outcome (Error Empty Empty) _) = ok accumulator ∧
      (proof.verify .debug ((DigestMerge mmr.weightedSum).toMerge : Merge _ Empty)
        ((DigestMerge mmr.weightedSum).leaf_hash [1]) accumulator :
          Outcome (Error Empty Empty) Bool) = ok true ∧ ([1] : Bytes) ∈ ([[1], [2]] : List Bytes) := by
  have start : MMRIVER.Session .debug ((DigestMerge mmr.weightedSum).toMerge : Merge _ Empty)
      (MemStore.readOps : MMRStoreReadOps _ _ Empty) (MemStore.writeOps .debug)
      (MMRIVER.new 0 MemStore.new) [] [] _ := .refl
  have session := (start.push (d := [1]) ⟨_, _, .refl _, .refl _, rfl⟩).push (d := [2])
    ⟨_, _, .refl _, .refl _, rfl⟩
  obtain ⟨accumulator, hget, haccepted⟩ :=
    MMRIVER.Session.accepted_pushed (MemStore.mapStore .debug) session (by decide) (by decide)
  have hpeak : [mmr.weightedSum.digest (DigestMerge.node_input 3
      ((DigestMerge mmr.weightedSum).leaf_hash [1]) ((DigestMerge mmr.weightedSum).leaf_hash [2]))] =
      accumulator := ok.inj hget
  subst hpeak
  have hverify : ((InclusionProof.new 0 [(DigestMerge mmr.weightedSum).leaf_hash [2]]).verify .debug
      ((DigestMerge mmr.weightedSum).toMerge : Merge _ Empty) ((DigestMerge mmr.weightedSum).leaf_hash [1])
      [mmr.weightedSum.digest (DigestMerge.node_input 3 ((DigestMerge mmr.weightedSum).leaf_hash [1])
        ((DigestMerge mmr.weightedSum).leaf_hash [2]))] : Outcome (Error Empty Empty) Bool) = ok true := rfl
  exact ⟨_, _, _, hget, hverify, (haccepted .debug
    (.new 0 [(DigestMerge mmr.weightedSum).leaf_hash [2]]) [1]
    (by unfold Digest.NoCollision; decide +kernel) hverify).1⟩

end mmriver

end merkleberg
