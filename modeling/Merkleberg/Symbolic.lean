import Merkleberg.Merge

namespace merkleberg

/-- Hashes as the terms that describe them: equal only when built alike. A term
    may contain items it says nothing about. -/
inductive Term (Item : Type) where
  | given (item : Item)
  | leaf (data : Bytes)
  | node (pos : Nat) (left right : Term Item)
deriving DecidableEq

namespace Term

variable {Item : Type}

/-- The hasher that computes terms, with the default `merge` and `merge_peaks`. -/
def hasher : Hasher (Term Item) where
  leaf_hash := leaf
  merge_pos := node

/-- The data hashed as leaves in a term. -/
def leaves : Term Item → List Bytes
  | given _ => []
  | leaf data => [data]
  | node _ left right => left.leaves ++ right.leaves

/-- Only the given data were hashed in a term, and nothing in it is unknown. -/
def BuiltFrom (data : List Bytes) : Term Item → Prop
  | given _ => False
  | leaf d => d ∈ data
  | node _ left right => left.BuiltFrom data ∧ right.BuiltFrom data

variable {H : Digest}

/-- The digest that a term describes. -/
def digest (H : Digest) : Term (Vector UInt8 H.output_size) → Vector UInt8 H.output_size
  | given item => item
  | leaf data => (DigestMerge H).leaf_hash data
  | node pos left right => (DigestMerge H).merge_pos pos (left.digest H) (right.digest H)

theorem map_digest_given (H : Digest) (items : List (Vector UInt8 H.output_size)) :
    (items.map given).map (digest H) = items := by
  rw [List.map_map]
  exact List.map_id _

/-- The byte strings that are hashed to compute the digest of a term. -/
def inputs (H : Digest) : Term (Vector UInt8 H.output_size) → List Bytes
  | given _ => []
  | leaf data => [DigestMerge.leaf_input data]
  | node pos left right =>
    DigestMerge.node_input pos (left.digest H) (right.digest H) :: (left.inputs H ++ right.inputs H)

/-- A term that has the digest of a term built from some data hashes no other
    data as leaves, when the hash function has no collision among the inputs of
    the two. -/
theorem mem_of_digest_eq {data : List Bytes} {built term : Term (Vector UInt8 H.output_size)}
    (hbuilt : built.BuiltFrom data) (hdigest : term.digest H = built.digest H)
    (hcollision : H.NoCollision (built.inputs H ++ term.inputs H)) : ∀ d ∈ term.leaves, d ∈ data := by
  induction term generalizing built with
  | given item => simp [leaves]
  | leaf d =>
    cases built with
    | given item => exact hbuilt.elim
    | leaf d' =>
      have hinput := hcollision _ (by simp [inputs]) _ (by simp [inputs]) hdigest
      rw [DigestMerge.leaf_input_inj hinput]
      exact List.forall_mem_singleton.mpr hbuilt
    | node pos left right =>
      have hinput := hcollision _ (by simp [inputs]) _ (by simp [inputs]) hdigest
      exact absurd hinput (DigestMerge.leaf_input_ne_node_input _ _ _ _)
  | node pos' left' right' ihleft ihright =>
    cases built with
    | given item => exact hbuilt.elim
    | leaf d' =>
      have hinput := hcollision _ (by simp [inputs]) _ (by simp [inputs]) hdigest
      exact absurd hinput.symm (DigestMerge.leaf_input_ne_node_input _ _ _ _)
    | node pos left right =>
      have hinput := hcollision _ (by simp [inputs]) _ (by simp [inputs]) hdigest
      obtain ⟨hleft, hright⟩ := DigestMerge.node_input_inj hinput
      have hsub : left.inputs H ++ left'.inputs H ⊆
          (node pos left right).inputs H ++ (node pos' left' right').inputs H := by
        intro x
        simp only [inputs, List.mem_cons, List.mem_append]
        tauto
      have hsub' : right.inputs H ++ right'.inputs H ⊆
          (node pos left right).inputs H ++ (node pos' left' right').inputs H := by
        intro x
        simp only [inputs, List.mem_cons, List.mem_append]
        tauto
      intro d hd
      rcases List.mem_append.mp hd with hd | hd
      · exact ihleft hbuilt.1 hleft (hcollision.mono hsub) d hd
      · exact ihright hbuilt.2 hright (hcollision.mono hsub') d hd

end Term

end merkleberg
