import Mathlib.Data.List.Sort
import Merkleberg.Helper
import Merkleberg.Store

open machine machine.Outcome
open merkleberg.helper

namespace merkleberg.mmr

variable {Item Store σ μ : Type} (b : Profile) (M : Merge Item μ)
  (R : MMRStoreReadOps Store Item σ) (W : MMRStoreWriteOps Store Item σ)

structure MMR (Item Store : Type) where
  mmr_size : Nat
  batch : MMRBatch Item Store

def MMR.new (mmr_size : Nat) (store : Store) : MMR Item Store :=
  { mmr_size, batch := .new store }

/-- Read one position through the batch; a position that is missing there is
    an inconsistency. -/
def MMR.read (self : MMR Item Store) (pos : Nat) : Outcome (Error σ μ) Item := do
  let found ← orStoreError (self.batch.get_elem b R pos)
  okOr .InconsistentStore found

def MMR.find_elem (self : MMR Item Store) (pos : Nat) (hashes : List Item) :
    Outcome (Error σ μ) Item :=
  let pos_offset := U64.checkedSub pos self.mmr_size
  match pos_offset.bind (hashes[·]?) with
  | some elem => ok elem
  | none => self.read b R pos

/-- The merge loop of `push`, over `peak`, `pos`, `elems`. -/
def MMR.push.body (peak_map : Nat) (self : MMR Item Store) :
    Nat × Nat × List Item → Outcome (Error σ μ) (Pass (Nat × Nat × List Item) (Nat × List Item))
  | (peak, pos, elems) =>
    if peak_map &&& peak ≠ 0 then do
      let peak ← U64.shl b peak 1
      let pos ← U64.add b pos 1
      let left_pos ← U64.sub b pos peak
      let left_elem ← self.find_elem b R left_pos elems
      let right_elem ← expect elems.getLast?
      let parent_elem ← orMergeError (M.merge left_elem right_elem)
      ok (.next (peak, pos, elems ++ [parent_elem]))
    else ok (.done (pos, elems))

/-- What `push` reads and merges before it writes: the position of the last new
    element, and the new elements. The probing bit leaves the word after 64
    passes, which ends the loop. -/
def MMR.push.merged (self : MMR Item Store) (data : Bytes) :
    Outcome (Error σ μ) (Nat × List Item) := do
  let elem ← orMergeError (M.leaf_hash data)
  let peak_map ← get_peak_map b self.mmr_size
  loop (MMR.push.body b M R peak_map self) 65 (1, self.mmr_size, [elem])

/-- `push` takes `&mut self`, so the tree is there after an error as well. -/
def MMR.push (self : MMR Item Store) (data : Bytes) :
    Outcome Empty (Except (Error σ μ) Nat × MMR Item Store) :=
  (MMR.push.merged b M R self data).orReturn self fun (pos, elems) =>
    let elem_pos := self.mmr_size
    let self := { self with batch := self.batch.append elem_pos elems }
    (U64.add b pos 1).orReturn self fun mmr_size => ok (.ok elem_pos, { self with mmr_size })

/-- The loop of `bag_rhs_peaks`, over the last peak and the ones left of it,
    rightmost first. -/
def bag_rhs_peaks.bag (right_peak : Item) : List Item → Outcome μ Item
  | [] => ok right_peak
  | left_peak :: rest => do
    let right_peak ← M.merge_peaks right_peak left_peak
    bag_rhs_peaks.bag right_peak rest

def bag_rhs_peaks (rhs_peaks : List Item) : Outcome μ (Option Item) :=
  match rhs_peaks.reverse with
  | [] => ok none
  | right_peak :: rest => some <$> bag_rhs_peaks.bag M right_peak rest

def MMR.get_root (self : MMR Item Store) : Outcome (Error σ μ) Item :=
  if self.mmr_size = 0 then err .GetRootOnEmpty
  else if self.mmr_size = 1 then self.read b R 0
  else do
    let iter ← PeaksIter.new b self.mmr_size
    let peaks ← collect (PeaksIter.next b) iter
    let elems ← orStoreError (self.batch.get_elems b R peaks)
    let peaks ← elems.mapM (okOr .InconsistentStore)
    let root ← orMergeError (bag_rhs_peaks M peaks)
    okOr .InconsistentStore root

/-- Where the two queue loops go from a node: whether it is a right child, its
    sibling and its parent, from the height of the position after it. -/
def relatives (pos : Nat) (height : Nat) : Outcome (Error σ μ) (Bool × Nat × Nat) := do
  let after ← U64.add b pos 1
  let next_height ← pos_height_in_tree b after
  let offset ← sibling_offset b height
  if next_height > height then do
    let sib_pos ← U64.sub b pos offset
    let parent_pos ← U64.add b pos 1
    ok (true, sib_pos, parent_pos)
  else do
    let sib_pos ← U64.add b pos offset
    let up ← parent_offset b height
    let parent_pos ← U64.add b pos up
    ok (false, sib_pos, parent_pos)

/-- One pass of the queue loop of `gen_proof_for_peak`. -/
def MMR.gen_proof_for_peak.body (self : MMR Item Store) (peak_pos : Nat) :
    List (Nat × Nat) × List Item →
      Outcome (Error σ μ) (Pass (List (Nat × Nat) × List Item) (List Item))
  | ([], proof) => ok (.done proof)
  | ((pos, height) :: queue, proof) => do
    b.debugAssert (pos ≤ peak_pos)
    if pos = peak_pos then
      if queue = [] then ok (.done proof) else err .NodeProofsNotSupported
    else do
      let (_, sib_pos, parent_pos) ← relatives b pos height
      let (queue, proof) ←
        if queue.head?.map (·.1) = some sib_pos then ok (queue.tail, proof)
        else do
          let sibling ← self.read b R sib_pos
          ok (queue, proof ++ [sibling])
      if parent_pos < peak_pos then do
        let height ← U8.add b height 1
        ok (.next (queue ++ [(parent_pos, height)], proof))
      else ok (.next (queue, proof))

/-- Every leaf climbs at most 64 levels, which bounds the passes. -/
def MMR.gen_proof_for_peak (self : MMR Item Store) (proof : List Item) (pos_list : List Nat)
    (peak_pos : Nat) : Outcome (Error σ μ) (List Item) :=
  if pos_list.length = 1 ∧ pos_list = [peak_pos] then ok proof
  else if pos_list = [] then do
    let peak ← self.read b R peak_pos
    ok (proof ++ [peak])
  else
    loop (MMR.gen_proof_for_peak.body b R self peak_pos) (64 * pos_list.length + 1)
      (pos_list.map fun pos => (pos, 0), proof)

/-- `take_while_vec`: split off the longest prefix that satisfies `p`. -/
def take_while_vec {T : Type} (v : List T) (p : T → Bool) : List T × List T :=
  (v.takeWhile p, v.dropWhile p)

/-- `Vec::split_off`: the front, and what is split off. -/
def split_off {ε T : Type} (v : List T) (start : Nat) : Outcome ε (List T × List T) :=
  if start > v.length then panic else ok (v.take start, v.drop start)

/-- The rest of a `dedup_by` pass, after the element kept last. -/
def dedupByKey.after {T K : Type} [DecidableEq K] (key : T → K) (kept : T) : List T → List T
  | [] => [kept]
  | x :: rest =>
    if key x = key kept then dedupByKey.after key kept rest
    else kept :: dedupByKey.after key x rest

/-- `Vec::dedup_by` on the key: of neighbours with equal keys, the first stays. -/
def dedupByKey {T K : Type} [DecidableEq K] (key : T → K) : List T → List T
  | [] => []
  | x :: rest => dedupByKey.after key x rest

/-- An inclusion proof for leaves of the bagged tree. -/
structure InclusionProof (Item : Type) where
  mmr_size : Nat
  proof : List Item

/-- One pass of the peak loop of `gen_proof`, over the positions left, the
    items so far and the number of trailing peaks without a position. -/
def MMR.gen_proof.step (self : MMR Item Store) :
    List Nat × List Item × Nat → Nat → Outcome (Error σ μ) (List Nat × List Item × Nat)
  | (pos_list, proof, bagging_track), peak_pos => do
    let (taken, pos_list) := take_while_vec pos_list fun pos => pos ≤ peak_pos
    let bagging_track := if taken = [] then bagging_track + 1 else 0
    let proof ← self.gen_proof_for_peak b R proof taken peak_pos
    ok (pos_list, proof, bagging_track)

/-- `gen_proof` takes `&mut self` but writes nothing. -/
def MMR.gen_proof (self : MMR Item Store) (pos_list : List Nat) :
    Outcome (Error σ μ) (InclusionProof Item) :=
  if pos_list = [] then err .GenProofForInvalidLeaves
  else if self.mmr_size = 1 ∧ pos_list = [0] then ok { mmr_size := self.mmr_size, proof := [] }
  else do
    if ← pos_list.anyM (fun pos => do let height ← pos_height_in_tree b pos; ok (height > 0)) then
      err .NodeProofsNotSupported
    else do
      let pos_list := dedupByKey id (pos_list.insertionSort (· ≤ ·))
      let iter ← PeaksIter.new b self.mmr_size
      let peaks ← collect (PeaksIter.next b) iter
      let (pos_list, proof, bagging_track) ←
        peaks.foldlM (MMR.gen_proof.step b R self) (pos_list, [], 0)
      if pos_list ≠ [] then err .GenProofForInvalidLeaves
      else if bagging_track > 1 then do
        let rhs_peaks := proof.drop (proof.length - bagging_track)
        let bagged ← orMergeError (bag_rhs_peaks M rhs_peaks)
        let bagged ← expect bagged
        ok { mmr_size := self.mmr_size
             proof := proof.take (proof.length - bagging_track) ++ [bagged] }
      else ok { mmr_size := self.mmr_size, proof }

/-- `commit` takes `&mut self`, and a failed one has changed it too. -/
def MMR.commit (self : MMR Item Store) :
    Outcome Empty (Except (Error σ μ) Unit × MMR Item Store) := do
  let (result, batch) ← self.batch.commit W
  ok (result.mapError fun error => .StoreError (.store error), { self with batch })

/-- The sibling of a queue entry: the next entry when it sits there, and the
    next proof item otherwise. -/
def takeSibling (sib_pos : Nat) (queue : List (Nat × Item × Nat)) (proof_iter : List Item) :
    Outcome (Error σ μ) (Item × List (Nat × Item × Nat) × List Item) :=
  match queue with
  | (pos, item, _) :: rest =>
    if pos = sib_pos then ok (item, rest, proof_iter)
    else do
      let item ← okOr .CorruptedProof proof_iter.head?
      ok (item, queue, proof_iter.tail)
  | [] => do
    let item ← okOr .CorruptedProof proof_iter.head?
    ok (item, queue, proof_iter.tail)

/-- One pass of the queue loop of `calculate_peak_root`. -/
def calculate_peak_root.body (peak_pos : Nat) :
    List (Nat × Item × Nat) × List Item →
      Outcome (Error σ μ) (Pass (List (Nat × Item × Nat) × List Item) (Item × List Item))
  | ([], _) => err .CorruptedProof
  | ((pos, item, height) :: queue, proof_iter) =>
    if pos = peak_pos then
      if queue = [] then ok (.done (item, proof_iter)) else err .CorruptedProof
    else do
      let (right, sib_pos, parent_pos) ← relatives b pos height
      let (sibling_item, queue, proof_iter) ← takeSibling sib_pos queue proof_iter
      let parent_item ← orMergeError
        (if right then M.merge sibling_item item else M.merge item sibling_item)
      if parent_pos ≤ peak_pos then do
        let height ← U8.add b height 1
        ok (.next (queue ++ [(parent_pos, parent_item, height)], proof_iter))
      else err .CorruptedProof

/-- The root of one mountain, with what is left of the proof items. -/
def calculate_peak_root (leaves : List (Nat × Item)) (peak_pos : Nat) (proof_iter : List Item) :
    Outcome (Error σ μ) (Item × List Item) := do
  b.debugAssert (!leaves.isEmpty)
  loop (calculate_peak_root.body b M peak_pos) (64 * leaves.length + 1)
    (leaves.map fun (pos, item) => (pos, item, 0), proof_iter)

/-- The peak loop of `calculate_peaks_hashes`. It stops early at the first
    peak that has no leaf and no proof item left. -/
def calculate_peaks_hashes.peaks : List Nat → List (Nat × Item) → List Item → List Item →
    Outcome (Error σ μ) (List (Nat × Item) × List Item × List Item)
  | [], leaves, proof_iter, peaks_hashes => ok (leaves, proof_iter, peaks_hashes)
  | peak_pos :: peaks, leaves, proof_iter, peaks_hashes =>
    match take_while_vec leaves fun leaf => leaf.1 ≤ peak_pos with
    | ([], leaves) =>
      match proof_iter with
      | peak_root :: proof_iter =>
        calculate_peaks_hashes.peaks peaks leaves proof_iter (peaks_hashes ++ [peak_root])
      | [] => ok (leaves, [], peaks_hashes)
    | ((pos, item) :: taken, leaves) =>
      if taken = [] ∧ pos = peak_pos then
        calculate_peaks_hashes.peaks peaks leaves proof_iter (peaks_hashes ++ [item])
      else do
        let (peak_root, proof_iter) ←
          calculate_peak_root b M ((pos, item) :: taken) peak_pos proof_iter
        calculate_peaks_hashes.peaks peaks leaves proof_iter (peaks_hashes ++ [peak_root])

def calculate_peaks_hashes (leaves : List (Nat × Item)) (mmr_size : Nat) (proof_iter : List Item) :
    Outcome (Error σ μ) (List Item) := do
  if ← leaves.anyM (fun leaf => do let height ← pos_height_in_tree b leaf.1; ok (height > 0)) then
    err .NodeProofsNotSupported
  else if mmr_size = 1 ∧ leaves.length = 1 ∧ leaves.head?.map (·.1) = some 0 then
    ok (leaves.map (·.2))
  else do
    let leaves := dedupByKey (·.1) (leaves.insertionSort (·.1 ≤ ·.1))
    let iter ← PeaksIter.new b mmr_size
    let len ← iter.len b
    let _capacity ← U64.add b len 1
    let peaks ← collect (PeaksIter.next b) iter
    let (leaves, proof_iter, peaks_hashes) ←
      calculate_peaks_hashes.peaks b M peaks leaves proof_iter []
    if leaves ≠ [] then err .CorruptedProof
    else
      match proof_iter with
      | [] => ok peaks_hashes
      | [rhs_peaks_hashes] => ok (peaks_hashes ++ [rhs_peaks_hashes])
      | _ => err .CorruptedProof

/-- Its loop is that of `bag_rhs_peaks`. -/
def bagging_peaks_hashes (peaks_hashes : List Item) : Outcome (Error σ μ) Item := do
  let bagged ← orMergeError (bag_rhs_peaks M peaks_hashes)
  okOr .CorruptedProof bagged

def calculate_root (leaves : List (Nat × Item)) (mmr_size : Nat) (proof_iter : List Item) :
    Outcome (Error σ μ) Item := do
  let peaks_hashes ← calculate_peaks_hashes b M leaves mmr_size proof_iter
  bagging_peaks_hashes M peaks_hashes

namespace InclusionProof

def new (mmr_size : Nat) (proof : List Item) : InclusionProof Item := { mmr_size, proof }

def calculate_root (self : InclusionProof Item) (leaves : List (Nat × Item)) :
    Outcome (Error σ μ) Item :=
  mmr.calculate_root b M leaves self.mmr_size self.proof

/-- The search of `calculate_root_with_new_leaf`, from number `i` on: the first
    peak that does not lie before the new leaf. Running past the last peak is an
    index out of bounds. -/
def calculate_root_with_new_leaf.find (new_pos : Nat) : Nat → List Nat → Outcome (Error σ μ) Nat
  | _, [] => panic
  | i, peak_pos :: peaks_pos =>
    if peak_pos < new_pos then calculate_root_with_new_leaf.find new_pos (i + 1) peaks_pos else ok i

/-- `v[start..].reverse()`. -/
def reverseFrom {ε T : Type} (v : List T) (start : Nat) : Outcome ε (List T) :=
  if start > v.length then panic else ok (v.take start ++ (v.drop start).reverse)

def calculate_root_with_new_leaf (self : InclusionProof Item) (leaves : List (Nat × Item))
    (new_pos : Nat) (new_elem : Item) (new_mmr_size : Nat) : Outcome (Error σ μ) Item := do
  let pos_height ← pos_height_in_tree b new_pos
  let after ← U64.add b new_pos 1
  let next_height ← pos_height_in_tree b after
  if next_height > pos_height then do
    let peaks_hashes ← calculate_peaks_hashes b M leaves self.mmr_size self.proof
    let iter ← PeaksIter.new b new_mmr_size
    let peaks_pos ← collect (PeaksIter.next b) iter
    let i ← calculate_root_with_new_leaf.find new_pos 0 peaks_pos
    let peaks_hashes ← reverseFrom peaks_hashes i
    mmr.calculate_root b M [(new_pos, new_elem)] new_mmr_size peaks_hashes
  else mmr.calculate_root b M (leaves ++ [(new_pos, new_elem)]) new_mmr_size self.proof

def verify [DecidableEq Item] (self : InclusionProof Item) (root : Item)
    (leaves : List (Nat × Item)) : Outcome (Error σ μ) Bool := do
  let calculated_root ← self.calculate_root b M leaves
  ok (calculated_root = root)

/-- The loop of `verify_incremental` over the old peaks, from number `i` on: the
    first that lies before the new peak with its number. -/
def verify_incremental.find (current_peaks_positions : List Nat) (reverse_index : Nat) :
    Nat → List Nat → Outcome (Error σ μ) Nat
  | _, [] => ok reverse_index
  | i, position :: prev_peaks_positions => do
    let current ← expect current_peaks_positions[i]?
    if position < current then ok i
    else verify_incremental.find current_peaks_positions reverse_index (i + 1) prev_peaks_positions

def verify_incremental [DecidableEq Item] (self : InclusionProof Item) (root prev_root : Item)
    (incremental : List Item) : Outcome (Error σ μ) Bool := do
  let current_leaves_count ← get_peak_map b self.mmr_size
  if current_leaves_count ≤ incremental.length then err .CorruptedProof
  else do
    let prev_leaves_count ← U64.sub b current_leaves_count incremental.length
    let prev_index ← U64.sub b prev_leaves_count 1
    let prev_mmr_size ← leaf_index_to_mmr_size b prev_index
    let iter ← PeaksIter.new b prev_mmr_size
    let prev_peaks_positions ← collect (PeaksIter.next b) iter
    if prev_peaks_positions.length ≠ self.proof.length then err .CorruptedProof
    else do
      let iter ← PeaksIter.new b self.mmr_size
      let current_peaks_positions ← collect (PeaksIter.next b) iter
      let last ← U64.sub b prev_peaks_positions.length 1
      let reverse_index ←
        verify_incremental.find current_peaks_positions last 0 prev_peaks_positions
      let (prev_peaks, reverse_peaks) ← split_off self.proof reverse_index
      let calculated_prev_root ←
        (bagging_peaks_hashes M (prev_peaks ++ reverse_peaks.reverse)).mapErr fun error =>
          .MergeError (.crate error)
      if calculated_prev_root ≠ prev_root then ok false
      else do
        let leaves ← incremental.zipIdx.mapM fun (leaf, index) => do
          let leaf_index ← U64.add b prev_leaves_count index
          let pos ← leaf_index_to_pos b leaf_index
          ok (pos, leaf)
        (self.verify b M root leaves).mapErr fun error => .MergeError (.crate error)

end InclusionProof

end merkleberg.mmr
