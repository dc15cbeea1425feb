import Merkleberg.Mmr

open machine machine.Outcome
open merkleberg.helper

namespace merkleberg.mmriver

variable {Item Store σ μ : Type} (b : Profile) (M : Merge Item μ)
  (R : MMRStoreReadOps Store Item σ) (W : MMRStoreWriteOps Store Item σ)

structure MMRIVER (Item Store : Type) where
  mmr_size : Nat
  batch : MMRBatch Item Store

def MMRIVER.new (mmr_size : Nat) (store : Store) : MMRIVER Item Store :=
  { mmr_size, batch := .new store }

def MMRIVER.find_elem (self : MMRIVER Item Store) (pos : Nat) (hashes : List Item) :
    Outcome (Error σ μ) Item :=
  let pos_offset := U64.checkedSub pos self.mmr_size
  match pos_offset.bind (hashes[·]?) with
  | some elem => ok elem
  | none => do
    let found ← orStoreError (self.batch.get_elem b R pos)
    okOr .InconsistentStore found

/-- The merge loop of `push`, over `i`, `g`, `elems`. Both children are fetched
    before either fetch is examined. -/
def MMRIVER.push.body (self : MMRIVER Item Store) :
    Nat × Nat × List Item → Outcome (Error σ μ) (Pass (Nat × Nat × List Item) (Nat × List Item))
  | (i, g, elems) => do
    let height ← index_height_mmriver b i
    if height > g then do
      let offset ← U64.shl b 2 g
      let left_pos ← U64.sub b i offset
      let right_pos ← U64.sub b i 1
      let (left_elem, right_elem) ←
        join (self.find_elem b R left_pos elems : Outcome (Error σ μ) Item)
          (self.find_elem b R right_pos elems : Outcome (Error σ μ) Item)
      let left_elem ← left_elem
      let right_elem ← right_elem
      let parent_pos ← U64.add b i 1
      let parent_elem ← orMergeError (M.merge_pos parent_pos left_elem right_elem)
      let i ← U64.add b i 1
      let g ← U8.add b g 1
      ok (.next (i, g, elems ++ [parent_elem]))
    else ok (.done (i, elems))

/-- What `push` reads and merges before it writes: the size after it, and the new
    elements. Heights stay under 64, which ends the loop. -/
def MMRIVER.push.merged (self : MMRIVER Item Store) (data : Bytes) :
    Outcome (Error σ μ) (Nat × List Item) := do
  let elem ← orMergeError (M.leaf_hash data)
  let i ← U64.add b self.mmr_size 1
  loop (MMRIVER.push.body b M R self) 65 (i, 0, [elem])

/-- `push` takes `&mut self`, so the tree is there after an error as well. -/
def MMRIVER.push (self : MMRIVER Item Store) (data : Bytes) :
    Outcome Empty (Except (Error σ μ) Nat × MMRIVER Item Store) :=
  (MMRIVER.push.merged b M R self data).orReturn self fun (i, elems) =>
    let elem_pos := self.mmr_size
    ok (.ok elem_pos, { mmr_size := i, batch := self.batch.append elem_pos elems })

def MMRIVER.get_accumulator (self : MMRIVER Item Store) : Outcome (Error σ μ) (List Item) :=
  if self.mmr_size = 0 then err .GetRootOnEmpty else do
    let last ← U64.sub b self.mmr_size 1
    let iter ← PeaksMMRIVERIter.new b last
    let peaks ← collect (PeaksMMRIVERIter.next b) iter
    let elems ← orStoreError (self.batch.get_elems b R peaks)
    elems.mapM (okOr .InconsistentStore)

/-- The loop is the one that bags the peaks of an MMR. -/
def bag_rhs_peaks (rhs_peaks : List Item) : Outcome μ (Option Item) := mmr.bag_rhs_peaks M rhs_peaks

def MMRIVER.get_root (self : MMRIVER Item Store) : Outcome (Error σ μ) Item := do
  let peaks ← self.get_accumulator b R
  let root ← orMergeError (bag_rhs_peaks M peaks)
  okOr .InconsistentStore root

/-- `commit` takes `&mut self`, and a failed one has changed it too. -/
def MMRIVER.commit (self : MMRIVER Item Store) :
    Outcome Empty (Except (Error σ μ) Unit × MMRIVER Item Store) := do
  let (result, batch) ← self.batch.commit W
  ok (result.mapError fun error => .StoreError (.store error), { self with batch })

structure InclusionProof (Item : Type) where
  index : Nat
  proof : List Item

structure ConsistencyProof (Item : Type) where
  mmr_size_from : Nat
  mmr_size_to : Nat
  proof_paths : List (List Item)

def ConsistencyProof.new (mmr_size_from mmr_size_to : Nat) (proof_paths : List (List Item)) :
    ConsistencyProof Item :=
  { mmr_size_from, mmr_size_to, proof_paths }

def InclusionProof.new (index : Nat) (proof : List Item) : InclusionProof Item := { index, proof }

/-- Cut the flat list of fetched elements back into one path for each peak. -/
def MMRIVER.gen_consistency_proof.cut : List (List Nat) → List (Option Item) →
    Outcome (Error σ μ) (List (List Item))
  | [], _ => ok []
  | path_indices :: rest, elems => do
    -- The slice `all_elems[offset..offset + path_indices.len()]` must be in range.
    if elems.length < path_indices.length then panic
    else do
      let path_values ← (elems.take path_indices.length).mapM (okOr .InconsistentStore)
      let proof_paths ← MMRIVER.gen_consistency_proof.cut rest (elems.drop path_indices.length)
      ok (path_values :: proof_paths)

def MMRIVER.gen_consistency_proof (self : MMRIVER Item Store) (mmr_size_from : Nat) :
    Outcome (Error σ μ) (ConsistencyProof Item) :=
  if mmr_size_from = 0 ∨ mmr_size_from > self.mmr_size then err .GenProofForInvalidLeaves else do
    let ifrom ← U64.sub b mmr_size_from 1
    let ito ← U64.sub b self.mmr_size 1
    let iter ← PeaksMMRIVERIter.new b ifrom
    let peaks ← collect (PeaksMMRIVERIter.next b) iter
    let proof_indices ← peaks.mapM fun ipeak => inclusion_proof_path b ipeak ito
    let all_elems ← orStoreError (self.batch.get_elems b R proof_indices.flatten)
    let proof_paths ← MMRIVER.gen_consistency_proof.cut proof_indices all_elems
    ok (.new mmr_size_from self.mmr_size proof_paths)

def MMRIVER.gen_inclusion_proof (self : MMRIVER Item Store) (i : Nat) :
    Outcome (Error σ μ) (InclusionProof Item) :=
  if i ≥ self.mmr_size then err .GenProofForInvalidLeaves else do
    let c ← U64.sub b self.mmr_size 1
    let path_indices ← inclusion_proof_path b i c
    let elems ← orStoreError (self.batch.get_elems b R path_indices)
    let path_values ← elems.mapM (okOr .InconsistentStore)
    ok (.new i path_values)

/-- The loop of `included_root`. The zipped counter steps before the path is
    looked at, so it steps once more when the path is used up. -/
def included_root.climb : Nat → Nat → Item → List Item → Outcome μ Item
  | g, _, root, [] => do
    let _next ← U8.add b g 1
    ok root
  | g, current_i, root, sibling :: proof => do
    let next ← U8.add b g 1
    let above ← U64.add b current_i 1
    let height ← index_height_mmriver b above
    if height > g then do
      let current_i ← U64.add b current_i 1
      let pos ← U64.add b current_i 1
      let root ← M.merge_pos pos sibling root
      included_root.climb next current_i root proof
    else do
      let offset ← U64.shl b 2 g
      let current_i ← U64.add b current_i offset
      let pos ← U64.add b current_i 1
      let root ← M.merge_pos pos root sibling
      included_root.climb next current_i root proof

def included_root (i : Nat) (nodehash : Item) (proof : List Item) : Outcome μ Item := do
  let g ← index_height_mmriver b i
  included_root.climb b M g i nodehash proof

namespace InclusionProof

def included_root (self : InclusionProof Item) (nodehash : Item) : Outcome μ Item :=
  mmriver.included_root b M self.index nodehash self.proof

def verify [DecidableEq Item] (self : InclusionProof Item) (nodehash : Item)
    (accumulator : List Item) : Outcome (Error σ μ) Bool := do
  let root ← orMergeError (self.included_root b M nodehash)
  let peak_positions ← PeaksMMRIVERIter.new b self.index
  if peak_positions.len = 0 then ok false
  else ok (accumulator.any (· = root))

end InclusionProof

namespace ConsistencyProof

/-- The loop of `consistent_roots` over peak index, old peak and path, with the
    roots found so far. A root equal to the last one is not recorded again. -/
def consistent_roots.collect [DecidableEq Item] :
    List (Nat × Item × List Item) → List Item → Outcome (Error σ μ) (List Item)
  | [], roots => ok roots
  | (from_peak, old_peak, proof_path) :: rest, roots => do
    let root ← orMergeError (included_root b M from_peak old_peak proof_path)
    if roots.getLast? = some root then consistent_roots.collect rest roots
    else consistent_roots.collect rest (roots ++ [root])

def consistent_roots [DecidableEq Item] (self : ConsistencyProof Item)
    (old_accumulator : List Item) : Outcome (Error σ μ) (List Item) := do
  let last ← U64.sub b self.mmr_size_from 1
  let iter ← PeaksMMRIVERIter.new b last
  let from_peaks ← collect (PeaksMMRIVERIter.next b) iter
  if from_peaks.length ≠ old_accumulator.length ∨ from_peaks.length ≠ self.proof_paths.length then
    err .CorruptedProof
  else
    consistent_roots.collect b M (from_peaks.zip (old_accumulator.zip self.proof_paths)) []

/-- The walk of `verify` over the new accumulator, from index `idx`. -/
def verify.walk [DecidableEq Item] (new_accumulator : List Item) : Nat → List Item → Bool
  | _, [] => true
  | idx, root :: proven =>
    if idx ≥ new_accumulator.length then false
    else if new_accumulator[idx]? = some root then verify.walk new_accumulator idx proven
    else if new_accumulator[idx + 1]? = some root then verify.walk new_accumulator (idx + 1) proven
    else false

def verify [DecidableEq Item] (self : ConsistencyProof Item)
    (old_accumulator new_accumulator : List Item) : Outcome (Error σ μ) Bool := do
  let proven ← self.consistent_roots b M old_accumulator
  ok (verify.walk new_accumulator 0 proven)

end ConsistencyProof

end merkleberg.mmriver
