import Mathlib.Algebra.BigOperators.Group.List.Basic
import Merkleberg.Mmr.IncrementalTotal
import Merkleberg.Mmr.Lockstep

open machine machine.Outcome
open forest
open merkleberg.helper

namespace merkleberg

/-- A measure of the items that merging multiplies, with the left child first. Bags
    are given the peak on the right first. -/
structure Merge.Measured {Item μ G : Type} [Mul G] (M : Merge Item μ) (measure : Item → G) : Prop where
  merge_pos : ∀ {pos left right parent}, M.merge_pos pos left right = ok parent →
    measure parent = measure left * measure right
  merge : ∀ {left right parent}, M.merge left right = ok parent →
    measure parent = measure left * measure right
  merge_peaks : ∀ {right left parent}, M.merge_peaks right left = ok parent →
    measure parent = measure left * measure right

/-- Items that say how long the data under them are. -/
def lengthHasher : Hasher Nat where
  leaf_hash data := data.length
  merge_pos _ left right := left + right

theorem lengthHasher_measured {μ : Type} :
    (lengthHasher.toMerge : Merge Nat μ).Measured Multiplicative.ofAdd where
  merge_pos h := by cases h; exact ofAdd_add _ _
  merge h := by cases h; exact ofAdd_add _ _
  merge_peaks h := by cases h; exact (ofAdd_add _ _).trans (mul_comm _ _)

namespace mmr

variable {Item σ μ G : Type} {b : Profile} {M : Merge Item μ} {measure : Item → G}

section Bag

variable [Monoid G]

/-- The measure of all items. -/
def itemsMeasure (measure : Item → G) (items : List Item) : G := (items.map measure).prod

@[simp] theorem itemsMeasure_nil : itemsMeasure measure [] = 1 := rfl

@[simp] theorem itemsMeasure_cons (item : Item) (items : List Item) :
    itemsMeasure measure (item :: items) = measure item * itemsMeasure measure items :=
  List.prod_cons

@[simp] theorem itemsMeasure_append (items more : List Item) :
    itemsMeasure measure (items ++ more) = itemsMeasure measure items * itemsMeasure measure more := by
  rw [itemsMeasure, List.map_append, List.prod_append]
  rfl

/-- The measure of the items of all pairs. -/
def pairsMeasure (measure : Item → G) (pairs : List (Nat × Item)) : G :=
  itemsMeasure measure (pairs.map (·.2))

@[simp] theorem pairsMeasure_nil : pairsMeasure measure [] = 1 := rfl

@[simp] theorem pairsMeasure_singleton (pair : Nat × Item) :
    pairsMeasure measure [pair] = measure pair.2 :=
  List.prod_singleton

@[simp] theorem pairsMeasure_append (pairs more : List (Nat × Item)) :
    pairsMeasure measure (pairs ++ more) = pairsMeasure measure pairs * pairsMeasure measure more := by
  rw [pairsMeasure, List.map_append, itemsMeasure_append]
  rfl

variable (hM : M.Measured measure)

include hM

theorem bag_rhs_peaks.bag_measure {right_peak root : Item} {rest : List Item}
    (hbag : bag_rhs_peaks.bag M right_peak rest = ok root) :
    measure root = itemsMeasure measure rest.reverse * measure right_peak := by
  induction rest generalizing right_peak with
  | nil =>
    cases hbag
    rw [List.reverse_nil, itemsMeasure_nil, one_mul]
  | cons left_peak rest ih =>
    obtain ⟨parent, hparent, hbag⟩ := bind_eq_ok_iff.mp hbag
    rw [ih hbag, hM.merge_peaks hparent, List.reverse_cons, itemsMeasure_append, itemsMeasure_cons,
      itemsMeasure_nil, mul_one, mul_assoc]

/-- A bag of peaks measures what they do. -/
theorem bag_rhs_peaks_measure {peaks : List Item} {root : Item}
    (hbag : bag_rhs_peaks M peaks = ok (some root)) : measure root = itemsMeasure measure peaks := by
  rw [bag_rhs_peaks] at hbag
  cases hreverse : peaks.reverse with
  | nil => simp [hreverse] at hbag
  | cons right_peak rest =>
    rw [hreverse] at hbag
    obtain ⟨bagged, hbagged, hsome⟩ := map_eq_ok_iff.mp hbag
    cases hsome
    have hpeaks : peaks = rest.reverse ++ [right_peak] := by
      rw [← List.reverse_reverse peaks, hreverse, List.reverse_cons]
    rw [bag_rhs_peaks.bag_measure hM hbagged, hpeaks, itemsMeasure_append, itemsMeasure_cons,
      itemsMeasure_nil, mul_one]

theorem bagging_peaks_hashes_measure {hashes : List Item} {root : Item}
    (hbag : (bagging_peaks_hashes M hashes : Outcome (Error σ μ) Item) = ok root) :
    measure root = itemsMeasure measure hashes := by
  obtain ⟨bagged, hbagged, hroot⟩ := bind_eq_ok_iff.mp hbag
  rw [okOr_eq_ok_iff] at hroot
  subst hroot
  exact bag_rhs_peaks_measure hM (orMergeError_eq_ok_iff.mp hbagged)

end Bag

section Verify

variable [CommMonoid G] (hM : M.Measured measure)

theorem takeSibling_measure {sib_pos : Nat} {queue rest : List (Nat × Item × Nat)}
    {proof proof_rest : List Item} {item : Item}
    (h : (takeSibling sib_pos queue proof : Outcome (Error σ μ) _) = ok (item, rest, proof_rest)) :
    measure item * itemsMeasure measure (rest.map (·.2.1)) * itemsMeasure measure proof_rest =
      itemsMeasure measure (queue.map (·.2.1)) * itemsMeasure measure proof := by
  rcases takeSibling_cases h with ⟨height, rfl, rfl⟩ | ⟨_, rfl, rfl⟩
  · rw [List.map_cons, itemsMeasure_cons]
  · rw [itemsMeasure_cons]
    ac_rfl

include hM

/-- A pass of the queue loop loses nothing and counts nothing twice. -/
theorem calculate_peak_root_measure {leaves : List (Nat × Item)} {peak_pos : Nat}
    {proof rest : List Item} {root : Item}
    (h : (calculate_peak_root b M leaves peak_pos proof : Outcome (Error σ μ) _) = ok (root, rest)) :
    measure root * itemsMeasure measure rest =
      pairsMeasure measure leaves * itemsMeasure measure proof := by
  obtain ⟨_, _, hloop⟩ := bind_eq_ok_iff.mp h
  let total := pairsMeasure measure leaves * itemsMeasure measure proof
  let Inv (state : List (Nat × Item × Nat) × List Item) : Prop :=
    itemsMeasure measure (state.1.map (·.2.1)) * itemsMeasure measure state.2 = total
  have hnext : ∀ state next, Inv state →
      (calculate_peak_root.body b M peak_pos state : Outcome (Error σ μ) _) = ok (.next next) →
      Inv next := by
    rintro ⟨queue, proof⟩ ⟨queue', proof'⟩ hstate hbody
    obtain ⟨_, _, _, hpass⟩ | ⟨pos, item, height, later, right, sib_pos, parent_pos, sibling, rest,
      proof_rest, parent, above, rfl, _, _, htake, hparent, _, hpass⟩ :=
      calculate_peak_root.body_cases hbody
    · cases hpass
    rw [Pass.next.injEq, Prod.mk.injEq] at hpass
    obtain ⟨rfl, rfl⟩ := hpass
    have hmerged : measure parent = measure item * measure sibling := by
      cases right with
      | true => rw [hM.merge hparent, mul_comm]
      | false => exact hM.merge hparent
    change itemsMeasure measure ((rest ++ [(parent_pos, parent, above)]).map (·.2.1)) *
      itemsMeasure measure proof' = total
    rw [← hstate]
    have hsame : measure sibling * itemsMeasure measure (rest.map (·.2.1)) *
        itemsMeasure measure proof' = _ := takeSibling_measure htake
    rw [List.map_cons, itemsMeasure_cons, mul_assoc, ← hsame, List.map_append, itemsMeasure_append,
      List.map_singleton, itemsMeasure_cons, itemsMeasure_nil, hmerged]
    dsimp only
    ac_rfl
  have hdone : ∀ state result, Inv state →
      (calculate_peak_root.body b M peak_pos state : Outcome (Error σ μ) _) = ok (.done result) →
      measure result.1 * itemsMeasure measure result.2 = total := by
    rintro ⟨queue, proof⟩ ⟨item, proof'⟩ hstate hbody
    obtain ⟨_, height, rfl, hpass⟩ | ⟨_, _, _, _, _, _, _, _, _, _, _, _, _, _, _, _, _, _, hpass⟩ :=
      calculate_peak_root.body_cases hbody
    · cases hpass
      rw [← hstate, List.map_singleton, itemsMeasure_cons, itemsMeasure_nil, mul_one]
    · cases hpass
  refine loop_invariant hnext hdone ?_ hloop
  simp only [Inv, total, pairsMeasure, List.map_map]
  rfl

/-- Neither does the loop over the peaks. -/
theorem peaks_measure {peaks : List Nat} {leaves left : List (Nat × Item)}
    {proof rest hashes roots : List Item}
    (h : (calculate_peaks_hashes.peaks b M peaks leaves proof hashes : Outcome (Error σ μ) _) =
      ok (left, rest, roots)) :
    itemsMeasure measure roots * itemsMeasure measure rest * pairsMeasure measure left =
      itemsMeasure measure hashes * itemsMeasure measure proof * pairsMeasure measure leaves := by
  induction peaks generalizing leaves proof hashes with
  | nil =>
    cases h
    rfl
  | cons peak_pos peaks ih =>
    obtain ⟨taken, later, htaken, ⟨rfl, rfl, hfound⟩ | ⟨root, rest', hroot, hloop⟩⟩ := peaks_cons_cases h
    · cases hfound
      obtain ⟨rfl, _⟩ := take_while_vec_shape rfl htaken htaken
      rfl
    · obtain ⟨rfl, _⟩ := take_while_vec_shape rfl htaken htaken
      have hpeak : measure root * itemsMeasure measure rest' =
          pairsMeasure measure taken * itemsMeasure measure proof := by
        cases hroot with
        | item => simp
        | leaf => simp
        | group _ _ hgroup => exact calculate_peak_root_measure hM hgroup
      rw [ih hloop, itemsMeasure_append, itemsMeasure_cons, itemsMeasure_nil, mul_one,
        mul_assoc (itemsMeasure measure hashes), hpeak, pairsMeasure_append]
      ac_rfl

/-- Verifying adds up. Whatever the merge does to the rest of the items, a root that
    is computed measures what the supplied items and the proof items measure
    together, each of them counted once: of pairs with the same position the first,
    and none of the proof where the one pair for the tree of one node is taken. -/
theorem InclusionProof.measure_of_root {proof : InclusionProof Item} {leaves : List (Nat × Item)}
    {root : Item} (hroot : (proof.calculate_root b M leaves : Outcome (Error σ μ) Item) = ok root) :
    (proof.mmr_size = 1 ∧ leaves = [(0, root)]) ∨
      measure root = pairsMeasure measure (sortDedup (·.1) leaves) * itemsMeasure measure proof.proof := by
  obtain ⟨mmr_size, items⟩ := proof
  obtain ⟨hashes, hhashes, hbag⟩ := bind_eq_ok_iff.mp hroot
  by_cases hspecial : mmr_size = 1 ∧ leaves.length = 1 ∧ leaves.head?.map (·.1) = some 0
  · obtain ⟨rfl, item, rfl⟩ := single_of_special hspecial
    rw [calculate_peaks_hashes_single] at hhashes
    cases hhashes
    cases hbag
    exact .inl ⟨rfl, rfl⟩
  · obtain ⟨peaks, rest, roots, _, hloop, _, rfl⟩ := calculate_peaks_hashes_cases hspecial hhashes
    have htotal := peaks_measure hM hloop
    rw [pairsMeasure_nil, itemsMeasure_nil, mul_one, one_mul] at htotal
    refine .inr ?_
    rw [bagging_peaks_hashes_measure hM hbag, itemsMeasure_append, htotal, mul_comm]

end Verify

/-- Three bytes at the first place, and an item for five more. -/
theorem InclusionProof.measure_of_root_two :
    ((InclusionProof.new 3 [5]).calculate_root .debug (lengthHasher.toMerge : Merge Nat Empty) [(0, 3)] :
        Outcome (Error Empty Empty) Nat) = ok 8 ∧
      Multiplicative.ofAdd 8 = pairsMeasure Multiplicative.ofAdd [(0, 3)] *
        itemsMeasure Multiplicative.ofAdd [5] := by
  have hroot : ((InclusionProof.new 3 [5]).calculate_root .debug
      (lengthHasher.toMerge : Merge Nat Empty) [(0, 3)] : Outcome (Error Empty Empty) Nat) = ok 8 := rfl
  exact ⟨hroot, (InclusionProof.measure_of_root lengthHasher_measured hroot).resolve_left (by decide)⟩

/-- Incremental verification adds up: an accepted new root measures what the old one
    and the new leaves do, whoever made the proof. -/
theorem InclusionProof.measure_of_incremental [CommMonoid G] [DecidableEq Item]
    (hM : M.Measured measure) {proof : InclusionProof Item}
    (hsize : proof.mmr_size < 2 ^ 64 - 1) {root prev_root : Item} {incremental : List Item}
    (hverify : (proof.verify_incremental b M root prev_root incremental :
      Outcome (Error σ μ) Bool) = ok true) :
    measure root = measure prev_root * itemsMeasure measure incremental := by
  obtain ⟨mmr_size, items⟩ := proof
  simp only at hsize
  obtain ⟨n, hle, hnext⟩ := exists_nodeCount_le_lt mmr_size
  have hfits : mmr_size < 2 ^ 64 := by omega
  have hmap : (get_peak_map b mmr_size : Outcome (Error σ μ) Nat) = ok n :=
    get_peak_map_eq hle hnext hfits
  have hmore : incremental.length < n := by
    by_contra hfew
    rw [verify_incremental, hmap, ok_bind, if_pos (Nat.not_lt.mp hfew)] at hverify
    cases hverify
  have hn : n < 2 ^ 63 := by
    by_contra hfull
    have hcount := nodeCount_le_nodeCount_iff.mpr (Nat.not_lt.mp hfull)
    rw [nodeCount_two_pow] at hcount
    omega
  obtain ⟨common, olds, news, parts, hgrowth⟩ :=
    exists_growth (show n - incremental.length ≤ n from Nat.sub_le _ _)
  have hm : 0 < n - incremental.length := by omega
  have hcount : n - incremental.length + incremental.length = n := by omega
  have hnew : ({ mmr_size, proof := items } : InclusionProof Item) = .new mmr_size items := rfl
  rw [hnew, verify_incremental_eq hle hnext hfits hgrowth hm hn hcount] at hverify
  split at hverify
  · cases hverify
  obtain ⟨calculated, hprev, hrest⟩ := bind_eq_ok_iff.mp hverify
  split at hrest
  · cases hrest
  · rename_i hsame
    rw [not_ne_iff] at hsame
    have hold := bagging_peaks_hashes_measure hM (mapErr_eq_ok_iff.mp hprev)
    obtain ⟨found, hroot, hequal⟩ := bind_eq_ok_iff.mp (mapErr_eq_ok_iff.mp hrest)
    obtain rfl : found = root := by simpa using hequal
    rcases InclusionProof.measure_of_root hM hroot with ⟨hone, hsingle⟩ | htotal
    · exact absurd ⟨hone, by rw [hsingle]; rfl, by rw [hsingle]; rfl⟩
        (newLeaves_not_special hm incremental)
    · rw [newLeaves_sorted, pairsMeasure, List.map_map] at htotal
      have hitems : (items.take common.length ++ (items.drop common.length).reverse).Perm items := by
        have happend := (List.reverse_perm (items.drop common.length)).append_left
          (items.take common.length)
        rwa [List.take_append_drop] at happend
      have hleaves : (newLeaves (n - incremental.length) incremental).map ((·.2) ∘ leafEntry) =
          incremental := newLeaves_items _ incremental
      have hperm : itemsMeasure measure _ = itemsMeasure measure items := (hitems.map measure).prod_eq
      rw [htotal, hleaves, ← hsame, hold, hperm, mul_comm]
      rfl

/-- A leaf of five bytes after one of three. -/
theorem InclusionProof.measure_of_incremental_two :
    ((InclusionProof.new 3 [3]).verify_incremental .debug (lengthHasher.toMerge : Merge Nat Empty) 8 3 [5] :
        Outcome (Error Empty Empty) Bool) = ok true ∧
      Multiplicative.ofAdd 8 = Multiplicative.ofAdd 3 * itemsMeasure Multiplicative.ofAdd [5] := by
  have hverify : ((InclusionProof.new 3 [3]).verify_incremental .debug
      (lengthHasher.toMerge : Merge Nat Empty) 8 3 [5] : Outcome (Error Empty Empty) Bool) = ok true := rfl
  exact ⟨hverify, InclusionProof.measure_of_incremental lengthHasher_measured (by decide) hverify⟩

end mmr

end merkleberg
