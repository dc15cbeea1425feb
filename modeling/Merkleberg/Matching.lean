import Merkleberg.Symbolic

namespace merkleberg

namespace Term

variable {H : Digest} {data : List Bytes} {reads : Bytes → Term (Vector UInt8 H.output_size) → Prop}
  {built term : Term (Vector UInt8 H.output_size)}

/-- What a term says of a built one is true: nodes stand for nodes at the same position,
    given items for whatever has them as digest, and leaves as `reads` allows. -/
def Matches (H : Digest) (reads : Bytes → Term (Vector UInt8 H.output_size) → Prop) :
    Term (Vector UInt8 H.output_size) → Term (Vector UInt8 H.output_size) → Prop
  | given item, built => built.digest H = item
  | leaf d, built => reads d built
  | node pos left right, node pos' left' right' =>
    to_be_bytes pos = to_be_bytes pos' ∧ left.Matches H reads left' ∧ right.Matches H reads right'
  | node _ _ _, _ => False

/-- What a leaf of such a term stands for is a part of the built one. -/
theorem Matches.exists_of_leaf (hmatches : term.Matches H reads built) (hbuilt : built.BuiltFrom data) :
    ∀ d ∈ term.leaves, ∃ part : Term (Vector UInt8 H.output_size), part.BuiltFrom data ∧ reads d part ∧
      part.inputs H ⊆ built.inputs H := by
  induction term generalizing built with
  | given item => simp [leaves]
  | leaf d => exact List.forall_mem_singleton.mpr ⟨built, hbuilt, hmatches, List.Subset.refl _⟩
  | node pos left right ihleft ihright =>
    cases built with
    | given item => exact hbuilt.elim
    | leaf d => exact hmatches.elim
    | node pos' left' right' =>
      intro d hd
      rcases List.mem_append.mp hd with hd | hd
      · obtain ⟨part, hfrom, hreads, hsub⟩ := ihleft hmatches.2.1 hbuilt.1 d hd
        exact ⟨part, hfrom, hreads, List.subset_cons_of_subset _ (List.subset_append_of_subset_left _ hsub)⟩
      · obtain ⟨part, hfrom, hreads, hsub⟩ := ihright hmatches.2.2 hbuilt.2 d hd
        exact ⟨part, hfrom, hreads, List.subset_cons_of_subset _ (List.subset_append_of_subset_right _ hsub)⟩

/-- Equal digests are of terms that match, when the hash function tells the inputs of
    the two apart as far as `reads` needs it. -/
theorem matches_of_digest_eq {all : List Bytes}
    (hleaf : ∀ d (built : Term (Vector UInt8 H.output_size)), built.BuiltFrom data →
      (leaf d).inputs H ⊆ all → built.inputs H ⊆ all → (leaf d).digest H = built.digest H → reads d built)
    (hnode : ∀ pos (left right built : Term (Vector UInt8 H.output_size)), built.BuiltFrom data →
      (node pos left right).inputs H ⊆ all → built.inputs H ⊆ all →
      (node pos left right).digest H = built.digest H → ∃ pos' left' right',
        built = node pos' left' right' ∧ to_be_bytes pos = to_be_bytes pos' ∧
          left.digest H = left'.digest H ∧ right.digest H = right'.digest H)
    (hbuilt : built.BuiltFrom data) (hterm : term.inputs H ⊆ all) (hinputs : built.inputs H ⊆ all)
    (hdigest : term.digest H = built.digest H) : term.Matches H reads built := by
  induction term generalizing built with
  | given item => exact hdigest.symm
  | leaf d => exact hleaf d built hbuilt hterm hinputs hdigest
  | node pos left right ihleft ihright =>
    obtain ⟨pos', left', right', rfl, hpos, hleft, hright⟩ :=
      hnode pos left right built hbuilt hterm hinputs hdigest
    simp only [inputs, List.cons_subset, List.append_subset] at hterm hinputs
    exact ⟨hpos, ihleft hbuilt.1 hterm.2.1 hinputs.2.1 hleft, ihright hbuilt.2 hterm.2.2 hinputs.2.2 hright⟩

end Term

/-- `DigestMerge` reads a leaf only where that leaf was hashed. -/
theorem Term.matches_of_noCollision {H : Digest} {data : List Bytes}
    {built term : Term (Vector UInt8 H.output_size)} (hbuilt : built.BuiltFrom data)
    (hdigest : term.digest H = built.digest H)
    (hcollision : H.NoCollision (built.inputs H ++ term.inputs H)) :
    term.Matches H (fun d part => part = leaf d) built := by
  refine matches_of_digest_eq ?_ ?_ hbuilt (List.subset_append_right _ _) (List.subset_append_left _ _)
    hdigest
  · intro d built hbuilt hleaf hinputs heq
    cases built with
    | given item => exact hbuilt.elim
    | leaf d' =>
      have hinput := hcollision _ (hleaf (by simp [inputs])) _ (hinputs (by simp [inputs])) heq
      rw [DigestMerge.leaf_input_inj hinput]
    | node pos left right =>
      have hinput := hcollision _ (hleaf (by simp [inputs])) _ (hinputs (by simp [inputs])) heq
      exact absurd hinput (DigestMerge.leaf_input_ne_node_input _ _ _ _)
  · intro pos left right built hbuilt hnode hinputs heq
    cases built with
    | given item => exact hbuilt.elim
    | leaf d' =>
      have hinput := hcollision _ (hnode (by simp [inputs])) _ (hinputs (by simp [inputs])) heq
      exact absurd hinput.symm (DigestMerge.leaf_input_ne_node_input _ _ _ _)
    | node pos' left' right' =>
      have hinput := hcollision _ (hnode (by simp [inputs])) _ (hinputs (by simp [inputs])) heq
      exact ⟨pos', left', right', rfl, DigestMergeUnsafe.node_input_inj (List.cons.inj hinput).2⟩

/-- The byte strings that `DigestMergeUnsafe` hashes where `DigestMerge` hashes the
    given ones: the same without the domain prefixes. -/
def DigestMergeUnsafe.inputs (prefixed : List Bytes) : List Bytes := prefixed.map List.tail

/-- What `DigestMergeUnsafe` reads as a leaf: that leaf, or a node that was hashed from
    the very bytes. -/
def DigestMergeUnsafe.Reads (H : Digest) (d : Bytes) (part : Term (Vector UInt8 H.unprefixed.output_size)) :
    Prop :=
  part = .leaf d ∨ ∃ pos left right, part = .node pos left right ∧
    d = node_input pos (left.digest H.unprefixed) (right.digest H.unprefixed)

/-- `DigestMergeUnsafe` may also read a leaf where a node was hashed. Pushed data of the
    length of a node's input are to be ruled out, as they could be read as a node. -/
theorem Term.matches_without_domains {H : Digest} {data : List Bytes}
    {built term : Term (Vector UInt8 H.unprefixed.output_size)}
    (hdata : ∀ d ∈ data, d.length ≠ 8 + 2 * H.output_size) (hbuilt : built.BuiltFrom data)
    (hdigest : term.digest H.unprefixed = built.digest H.unprefixed)
    (hcollision : H.NoCollision
      (DigestMergeUnsafe.inputs (built.inputs H.unprefixed ++ term.inputs H.unprefixed))) :
    term.Matches H.unprefixed (DigestMergeUnsafe.Reads H) built := by
  have happart : ∀ x ∈ built.inputs H.unprefixed ++ term.inputs H.unprefixed,
      ∀ y ∈ built.inputs H.unprefixed ++ term.inputs H.unprefixed,
      H.digest x.tail = H.digest y.tail → x.tail = y.tail :=
    fun x hx y hy => hcollision _ (List.mem_map_of_mem hx) _ (List.mem_map_of_mem hy)
  refine matches_of_digest_eq ?_ ?_ hbuilt (List.subset_append_right _ _) (List.subset_append_left _ _)
    hdigest
  · intro d built hbuilt hleaf hinputs heq
    cases built with
    | given item => exact hbuilt.elim
    | leaf d' =>
      have hinput : d = d' := happart _ (hleaf (by simp [inputs])) _ (hinputs (by simp [inputs])) heq
      exact .inl (congrArg leaf hinput.symm)
    | node pos left right =>
      have hinput : d = DigestMergeUnsafe.node_input _ _ _ :=
        happart _ (hleaf (by simp [inputs])) _ (hinputs (by simp [inputs])) heq
      exact .inr ⟨pos, left, right, rfl, hinput⟩
  · intro pos left right built hbuilt hnode hinputs heq
    cases built with
    | given item => exact hbuilt.elim
    | leaf d' =>
      have hinput : DigestMergeUnsafe.node_input _ _ _ = d' :=
        happart _ (hnode (by simp [inputs])) _ (hinputs (by simp [inputs])) heq
      exact absurd (hinput ▸ DigestMergeUnsafe.length_node_input _ _ _) (hdata d' hbuilt)
    | node pos' left' right' =>
      have hinput : DigestMergeUnsafe.node_input _ _ _ = DigestMergeUnsafe.node_input _ _ _ :=
        happart _ (hnode (by simp [inputs])) _ (hinputs (by simp [inputs])) heq
      exact ⟨pos', left', right', rfl, DigestMergeUnsafe.node_input_inj hinput⟩

end merkleberg
