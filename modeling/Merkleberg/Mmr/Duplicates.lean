import Merkleberg.Mmr.Leaves
import Merkleberg.Symbolic

open machine machine.Outcome
open forest
open merkleberg.helper

namespace merkleberg.mmr

section Dedup

variable {T : Type} {key : T → Nat}

/-- The sort is stable: among equal keys the order stays. -/
theorem find?_orderedInsert (k : Nat) (x : T) (xs : List T) :
    (xs.orderedInsert (key · ≤ key ·) x).find? (key · = k) = (x :: xs).find? (key · = k) := by
  induction xs with
  | nil => rfl
  | cons y xs ih =>
    by_cases hle : key x ≤ key y
    · rw [List.orderedInsert_cons, if_pos hle]
    · rw [List.orderedInsert_cons, if_neg hle, List.find?_cons, ih]
      -- `y` has moved before `x`, which matters only if both have the key
      by_cases hx : key x = k <;> by_cases hy : key y = k <;> simp [hx, hy]
      omega

theorem find?_insertionSort (k : Nat) (xs : List T) :
    (xs.insertionSort (key · ≤ key ·)).find? (key · = k) = xs.find? (key · = k) := by
  induction xs with
  | nil => rfl
  | cons x xs ih =>
    rw [List.insertionSort_cons, find?_orderedInsert, List.find?_cons, List.find?_cons, ih]

/-- What a pass over sorted elements keeps is the first with its key. -/
theorem dedupByKey.find?_after {kept x : T} {rest : List T}
    (hsorted : (kept :: rest).Pairwise (key · ≤ key ·)) (hx : x ∈ dedupByKey.after key kept rest) :
    (kept :: rest).find? (key · = key x) = some x := by
  induction rest generalizing kept with
  | nil =>
    obtain rfl := List.mem_singleton.mp hx
    simp
  | cons next rest ih =>
    obtain ⟨hkept, hrest⟩ := List.pairwise_cons.mp hsorted
    rw [dedupByKey.after] at hx
    split at hx
    · rename_i heq
      have hfind := ih (hsorted.sublist ((List.sublist_cons_self next rest).cons_cons kept)) hx
      by_cases hkey : key kept = key x
      · simpa [hkey] using hfind
      · simpa [hkey, heq] using hfind
    · rename_i hne
      rcases List.mem_cons.mp hx with rfl | hlater
      · simp
      · have hmem := (dedupByKey.after_sublist next rest).subset hlater
        have hle : key next ≤ key x := by
          rcases List.mem_cons.mp hmem with rfl | hafter
          · exact Nat.le_refl _
          · exact (List.pairwise_cons.mp hrest).1 x hafter
        have hnext := hkept next List.mem_cons_self
        have hkey : key kept ≠ key x := by omega
        rw [List.find?_cons_of_neg (by simpa using hkey)]
        exact ih hrest hlater

theorem find?_of_mem_sortDedup {xs : List T} {x : T} (hx : x ∈ sortDedup key xs) :
    xs.find? (key · = key x) = some x := by
  have htotal : Std.Total (fun x y : T => key x ≤ key y) := ⟨fun x y => Nat.le_total _ _⟩
  have htrans : IsTrans T (fun x y => key x ≤ key y) := ⟨fun _ _ _ => Nat.le_trans⟩
  have hsorted := List.pairwise_insertionSort (fun x y => key x ≤ key y) xs
  rw [← find?_insertionSort]
  unfold sortDedup at hx
  cases hsort : xs.insertionSort (key · ≤ key ·) with
  | nil => simp [hsort, dedupByKey] at hx
  | cons first rest =>
    rw [hsort] at hx hsorted
    exact dedupByKey.find?_after hsorted hx

/-- The elements of a list, each replaced by the first one with its key. -/
def firstsByKey (key : T → Nat) (xs : List T) : List T :=
  xs.map fun x => (xs.find? (key · = key x)).getD x

theorem key_find? (key : T → Nat) (xs : List T) (x : T) :
    key ((xs.find? (key · = key x)).getD x) = key x := by
  cases hfind : xs.find? (key · = key x) with
  | none => rfl
  | some first => simpa using List.find?_some hfind

/-- Only the first element with each key counts. -/
theorem sortDedup_firstsByKey (key : T → Nat) (xs : List T) :
    sortDedup key (firstsByKey key xs) = sortDedup key xs := by
  rw [firstsByKey, sortDedup_map (key_find? key xs)]
  refine (List.map_congr_left fun x hx => ?_).trans (List.map_id _)
  rw [find?_of_mem_sortDedup hx]
  rfl

end Dedup

section Verify

variable {Item σ μ : Type} {M : Merge Item μ}

theorem calculate_root_firsts (b : Profile) (M : Merge Item μ) (leaves : List (Nat × Item))
    (mmr_size : Nat) (items : List Item) :
    (calculate_root b M (firstsByKey (·.1) leaves) mmr_size items : Outcome (Error σ μ) Item) =
      calculate_root b M leaves mmr_size items := by
  have hsort := sortDedup_firstsByKey (·.1) leaves
  have hheights : ((firstsByKey (·.1) leaves).anyM (fun leaf => do
      let height ← pos_height_in_tree b leaf.1; ok (height > 0)) : Outcome (Error σ μ) Bool) =
      leaves.anyM (fun leaf => do let height ← pos_height_in_tree b leaf.1; ok (height > 0)) := by
    simp only [firstsByKey, anyM_map, key_find? fun pair : Nat × Item => pair.1]
  have hsingle (h : leaves.length = 1) : firstsByKey (·.1) leaves = leaves := by
    obtain ⟨leaf, rfl⟩ := List.length_eq_one_iff.mp h
    simp [firstsByKey]
  have hlength : (firstsByKey (·.1) leaves).length = leaves.length := List.length_map _
  unfold sortDedup at hsort
  simp only [calculate_root, calculate_peaks_hashes, hheights, hsort, hlength]
  by_cases hone : leaves.length = 1
  · rw [hsingle hone]
  · simp only [hone, false_and, and_false, if_false]

variable [DecidableEq Item]

/-- Of the pairs with one position only the first is tested. `verify` does not
    look at the items of the others: it answers as if they had the first one's. -/
theorem verify_firsts (b : Profile) (M : Merge Item μ) (proof : InclusionProof Item) (root : Item)
    (pairs : List (Nat × Item)) :
    (proof.verify b M root pairs : Outcome (Error σ μ) Bool) =
      proof.verify b M root (firstsByKey (·.1) pairs) := by
  simp only [InclusionProof.verify, InclusionProof.calculate_root, calculate_root_firsts]

end Verify

/-- Two items for one position verify, as the first of them does. -/
theorem verify_conflicting :
    ∃ (proof : InclusionProof (Term Empty)) (root : Term Empty) (pairs : List (Nat × Term Empty)),
      (0, .leaf [1]) ∈ pairs ∧ (0, .leaf [2]) ∈ pairs ∧ (Term.leaf [1] : Term Empty) ≠ .leaf [2] ∧
      (proof.verify .debug (Term.hasher.toMerge : Merge (Term Empty) Empty) root pairs :
        Outcome (Error Empty Empty) Bool) = ok true :=
  ⟨.new 1 [], .leaf [1], [(0, .leaf [1]), (0, .leaf [2])], by simp, by simp, by simp, rfl⟩

end merkleberg.mmr
