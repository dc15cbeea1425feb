import Merkleberg.Machine.Word

open machine machine.Outcome

namespace merkleberg

abbrev Bytes := List UInt8

/-- The `Merge` trait. The source's default methods are the default fields. -/
structure Merge (Item Err : Type) where
  leaf_hash : Bytes → Outcome Err Item
  merge_pos : Nat → Item → Item → Outcome Err Item
  merge : Item → Item → Outcome Err Item := fun left right => merge_pos 0 left right
  merge_peaks : Item → Item → Outcome Err Item := merge

/-- The four hash operations of a `Merge` whose error type has no values. -/
structure Hasher (Item : Type) where
  leaf_hash : Bytes → Item
  merge_pos : Nat → Item → Item → Item
  merge : Item → Item → Item := fun left right => merge_pos 0 left right
  merge_peaks : Item → Item → Item := merge

/-- An infallible `Merge`. -/
def Hasher.toMerge {Item Err : Type} (H : Hasher Item) : Merge Item Err where
  leaf_hash data := ok (H.leaf_hash data)
  merge_pos pos left right := ok (H.merge_pos pos left right)
  merge left right := ok (H.merge left right)
  merge_peaks left right := ok (H.merge_peaks left right)

section ToMerge

variable {Item Err : Type} (H : Hasher Item)

@[simp] theorem Hasher.toMerge_leaf_hash (data : Bytes) :
    (H.toMerge : Merge Item Err).leaf_hash data = ok (H.leaf_hash data) := rfl
@[simp] theorem Hasher.toMerge_merge_pos (pos : Nat) (left right : Item) :
    (H.toMerge : Merge Item Err).merge_pos pos left right = ok (H.merge_pos pos left right) := rfl
@[simp] theorem Hasher.toMerge_merge (left right : Item) :
    (H.toMerge : Merge Item Err).merge left right = ok (H.merge left right) := rfl
@[simp] theorem Hasher.toMerge_merge_peaks (left right : Item) :
    (H.toMerge : Merge Item Err).merge_peaks left right = ok (H.merge_peaks left right) := rfl

end ToMerge

mutual

/-- The boxed error of a store, of a merge, or of this crate. -/
inductive UserError (StoreErr MergeErr : Type) where
  | store (error : StoreErr)
  | merge (error : MergeErr)
  | crate (error : Error StoreErr MergeErr)

inductive Error (StoreErr MergeErr : Type) where
  | GetRootOnEmpty
  | InconsistentStore
  | CorruptedProof
  | NodeProofsNotSupported
  | GenProofForInvalidLeaves
  | StoreError (error : UserError StoreErr MergeErr)
  | MergeError (error : UserError StoreErr MergeErr)

end

/-- `map_err(|e| Error::MergeError(e.into()))` on a merge result. -/
def orMergeError {StoreErr MergeErr α : Type} (x : Outcome MergeErr α) :
    Outcome (Error StoreErr MergeErr) α :=
  x.mapErr fun error => .MergeError (.merge error)

/-- `map_err(|e| Error::StoreError(e.into()))` on a store result. -/
def orStoreError {StoreErr MergeErr α : Type} (x : Outcome StoreErr α) :
    Outcome (Error StoreErr MergeErr) α :=
  x.mapErr fun error => .StoreError (.store error)

@[simp] theorem orMergeError_ok {StoreErr MergeErr α : Type} (value : α) :
    (orMergeError (ok value) : Outcome (Error StoreErr MergeErr) α) = ok value := rfl
@[simp] theorem orStoreError_ok {StoreErr MergeErr α : Type} (value : α) :
    (orStoreError (ok value) : Outcome (Error StoreErr MergeErr) α) = ok value := rfl

/-- A fixed-output-length hash function, as `H::new`, `update` and `finalize`
    together compute it: the digest of all the bytes fed to it. -/
structure Digest where
  output_size : Nat
  digest : Bytes → Vector UInt8 output_size

/-- The digest tells the given byte strings apart. -/
def Digest.NoCollision (H : Digest) (inputs : List Bytes) : Prop :=
  ∀ x ∈ inputs, ∀ y ∈ inputs, H.digest x = H.digest y → x = y

theorem Digest.NoCollision.mono {H : Digest} {inputs fewer : List Bytes} (h : H.NoCollision inputs)
    (hsub : fewer ⊆ inputs) : H.NoCollision fewer :=
  fun x hx y hy => h x (hsub hx) y (hsub hy)

def LEAF_DOMAIN_PREFIX : UInt8 := 0x00
def NODE_DOMAIN_PREFIX : UInt8 := 0x01

/-- `u64::to_be_bytes`. -/
def to_be_bytes (pos : Nat) : Bytes :=
  [56, 48, 40, 32, 24, 16, 8, 0].map fun shift => UInt8.ofNat (pos / 2 ^ shift)

/-- The bytes of a machine word determine it. -/
theorem to_be_bytes_inj {pos pos' : Nat} (hpos : pos < 2 ^ 64) (hpos' : pos' < 2 ^ 64)
    (hbytes : to_be_bytes pos = to_be_bytes pos') : pos = pos' := by
  simp only [to_be_bytes, List.map_cons, List.map_nil, List.cons.injEq, and_true,
    ← UInt8.toNat_inj, UInt8.toNat_ofNat'] at hbytes
  omega

/-- The bytes `DigestMerge::leaf_hash` feeds to the hash function. -/
def DigestMerge.leaf_input (data : Bytes) : Bytes := LEAF_DOMAIN_PREFIX :: data

/-- The bytes `DigestMerge::merge_pos` feeds to the hash function. -/
def DigestMerge.node_input {size : Nat} (pos : Nat) (left right : Vector UInt8 size) : Bytes :=
  NODE_DOMAIN_PREFIX :: (to_be_bytes pos ++ left.toList ++ right.toList)

/-- `DigestMerge<H>`, with the default `merge` and `merge_peaks`. -/
def DigestMerge (H : Digest) : Hasher (Vector UInt8 H.output_size) where
  leaf_hash data := H.digest (DigestMerge.leaf_input data)
  merge_pos pos left right := H.digest (DigestMerge.node_input pos left right)

namespace DigestMerge

variable {size : Nat} {pos pos' : Nat} {left right left' right' : Vector UInt8 size}

theorem leaf_input_inj {data data' : Bytes} (hinput : leaf_input data = leaf_input data') :
    data = data' :=
  (List.cons.inj hinput).2

/-- The two domain prefixes differ. -/
theorem leaf_input_ne_node_input (data : Bytes) (pos : Nat) (left right : Vector UInt8 size) :
    leaf_input data ≠ node_input pos left right := by
  intro hinput
  exact absurd (List.cons.inj hinput).1 (by decide)

/-- Positions and digests have fixed lengths, so an input has one reading. -/
theorem node_input_inj (hinput : node_input pos left right = node_input pos' left' right') :
    left = left' ∧ right = right' := by
  have hbytes := (List.cons.inj hinput).2
  obtain ⟨hpair, hright⟩ := List.append_inj' hbytes (by simp)
  obtain ⟨_, hleft⟩ := List.append_inj' hpair (by simp)
  exact ⟨Vector.toList_inj.mp hleft, Vector.toList_inj.mp hright⟩

end DigestMerge

/-- The bytes `DigestMergeUnsafe::merge_pos` feeds to the hash function. -/
def DigestMergeUnsafe.node_input {size : Nat} (pos : Nat) (left right : Vector UInt8 size) : Bytes :=
  to_be_bytes pos ++ left.toList ++ right.toList

/-- `DigestMergeUnsafe<H>`, with the default `merge` and `merge_peaks`. It hashes the
    data of a leaf as they are. -/
def DigestMergeUnsafe (H : Digest) : Hasher (Vector UInt8 H.output_size) where
  leaf_hash data := H.digest data
  merge_pos pos left right := H.digest (DigestMergeUnsafe.node_input pos left right)

theorem DigestMergeUnsafe.length_node_input {size : Nat} (pos : Nat) (left right : Vector UInt8 size) :
    (node_input pos left right).length = 8 + 2 * size := by
  simp only [node_input, to_be_bytes, List.length_append, List.length_map, Vector.length_toList,
    List.length_cons, List.length_nil]
  omega

theorem DigestMergeUnsafe.node_input_inj {size pos pos' : Nat} {left right left' right' : Vector UInt8 size}
    (hinput : node_input pos left right = node_input pos' left' right') :
    to_be_bytes pos = to_be_bytes pos' ∧ left = left' ∧ right = right' := by
  obtain ⟨hpair, hright⟩ := List.append_inj' hinput (by simp)
  obtain ⟨hpos, hleft⟩ := List.append_inj' hpair (by simp)
  exact ⟨hpos, Vector.toList_inj.mp hleft, Vector.toList_inj.mp hright⟩

/-- The hash function that leaves out the first byte of its input. -/
def Digest.unprefixed (H : Digest) : Digest where
  output_size := H.output_size
  digest input := H.digest input.tail

/-- Without the domain prefixes there is no other difference. -/
theorem DigestMergeUnsafe.eq_digestMerge (H : Digest) :
    DigestMergeUnsafe H = DigestMerge H.unprefixed := rfl

end merkleberg
