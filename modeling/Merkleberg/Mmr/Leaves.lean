import Merkleberg.Mmr.Parts

open machine machine.Outcome
open forest
open merkleberg.helper

namespace merkleberg.mmr

section Dedup

variable {T : Type} {key : T → Nat}

theorem dedupByKey.after_sublist (kept : T) (rest : List T) :
    (dedupByKey.after key kept rest).Sublist (kept :: rest) := by
  induction rest generalizing kept with
  | nil => exact List.Sublist.refl _
  | cons x rest ih =>
    rw [dedupByKey.after]
    split
    · exact (ih kept).trans ((List.sublist_cons_self x rest).cons_cons kept)
    · exact (ih x).cons_cons kept

theorem dedupByKey.after_pairwise {kept : T} {rest : List T}
    (hsorted : (kept :: rest).Pairwise (key · ≤ key ·)) :
    (dedupByKey.after key kept rest).Pairwise (key · < key ·) := by
  induction rest generalizing kept with
  | nil => exact List.pairwise_singleton _ _
  | cons x rest ih =>
    rw [dedupByKey.after]
    split
    · exact ih (hsorted.sublist ((List.sublist_cons_self x rest).cons_cons kept))
    · rename_i hne
      obtain ⟨hkept, hrest⟩ := List.pairwise_cons.mp hsorted
      refine List.pairwise_cons.mpr ⟨fun y hy => ?_, ih hrest⟩
      have hx := hkept x List.mem_cons_self
      have hxy : key x ≤ key y := by
        rcases List.mem_cons.mp ((after_sublist x rest).subset hy) with rfl | hlater
        · exact Nat.le_refl _
        · exact (List.pairwise_cons.mp hrest).1 y hlater
      omega

theorem dedupByKey.after_covers (kept : T) (rest : List T) :
    ∀ x ∈ kept :: rest, ∃ y ∈ dedupByKey.after key kept rest, key y = key x := by
  induction rest generalizing kept with
  | nil => exact fun x hx => ⟨x, hx, rfl⟩
  | cons next rest ih =>
    intro x hx
    rw [dedupByKey.after]
    split
    · rename_i heq
      rcases List.mem_cons.mp hx with rfl | hx
      · exact ih x x List.mem_cons_self
      · rcases List.mem_cons.mp hx with rfl | hx
        · rw [heq]
          exact ih kept kept List.mem_cons_self
        · exact ih kept x (List.mem_cons_of_mem _ hx)
    · rcases List.mem_cons.mp hx with rfl | hx
      · exact ⟨x, List.mem_cons_self, rfl⟩
      · obtain ⟨y, hy, heq⟩ := ih next x hx
        exact ⟨y, List.mem_cons_of_mem _ hy, heq⟩

/-- `sort_by_key` and then `dedup_by_key`. -/
def sortDedup (key : T → Nat) (xs : List T) : List T :=
  dedupByKey key (xs.insertionSort (key · ≤ key ·))

theorem sortDedup_pairwise (key : T → Nat) (xs : List T) : (sortDedup key xs).Pairwise (key · < key ·) := by
  have htotal : Std.Total (fun x y : T => key x ≤ key y) := ⟨fun x y => Nat.le_total _ _⟩
  have htrans : IsTrans T (fun x y => key x ≤ key y) := ⟨fun _ _ _ => Nat.le_trans⟩
  have hsorted := List.pairwise_insertionSort (fun x y => key x ≤ key y) xs
  unfold sortDedup
  cases hsort : xs.insertionSort (key · ≤ key ·) with
  | nil => exact .nil
  | cons x rest => exact dedupByKey.after_pairwise (hsort ▸ hsorted)

theorem dedupByKey.after_of_pairwise {kept : T} {rest : List T}
    (hsorted : (kept :: rest).Pairwise (key · < key ·)) : dedupByKey.after key kept rest = kept :: rest := by
  induction rest generalizing kept with
  | nil => rfl
  | cons x rest ih =>
    obtain ⟨hkept, hrest⟩ := List.pairwise_cons.mp hsorted
    have hlt := hkept x List.mem_cons_self
    rw [dedupByKey.after, if_neg (by omega), ih hrest]

/-- Ascending keys are sorted and without repeats already. -/
theorem sortDedup_of_pairwise {xs : List T} (hsorted : xs.Pairwise (key · < key ·)) :
    sortDedup key xs = xs := by
  have hle : xs.Pairwise (key · ≤ key ·) := hsorted.imp fun hlt => hlt.le
  rw [sortDedup, hle.insertionSort_eq]
  cases xs with
  | nil => rfl
  | cons x xs => exact dedupByKey.after_of_pairwise hsorted

theorem mem_of_mem_sortDedup {xs : List T} {x : T} (hx : x ∈ sortDedup key xs) : x ∈ xs := by
  unfold sortDedup at hx
  rw [← List.mem_insertionSort (key · ≤ key ·)]
  cases hsort : xs.insertionSort (key · ≤ key ·) with
  | nil => simp [hsort, dedupByKey] at hx
  | cons first rest =>
    rw [hsort] at hx
    exact (dedupByKey.after_sublist first rest).subset hx

theorem sortDedup_covers (key : T → Nat) {xs : List T} {x : T} (hx : x ∈ xs) :
    ∃ y ∈ sortDedup key xs, key y = key x := by
  unfold sortDedup
  rw [← List.mem_insertionSort (key · ≤ key ·)] at hx
  cases hsort : xs.insertionSort (key · ≤ key ·) with
  | nil => simp [hsort] at hx
  | cons first rest =>
    rw [hsort] at hx
    exact dedupByKey.after_covers first rest x hx

theorem dedupByKey.after_map {U : Type} {key' : U → Nat} {g : T → U}
    (hkey : ∀ x, key' (g x) = key x) (kept : T) (xs : List T) :
    dedupByKey.after key' (g kept) (xs.map g) = (dedupByKey.after key kept xs).map g := by
  induction xs generalizing kept with
  | nil => rfl
  | cons x xs ih =>
    rw [List.map_cons, dedupByKey.after, dedupByKey.after, hkey, hkey]
    split
    · exact ih kept
    · rw [ih, List.map_cons]

/-- Sorting and removing repeats looks at the keys alone. -/
theorem sortDedup_map {U : Type} {key' : U → Nat} {g : T → U} (hkey : ∀ x, key' (g x) = key x)
    (xs : List T) : sortDedup key' (xs.map g) = (sortDedup key xs).map g := by
  have hsort : (xs.map g).insertionSort (key' · ≤ key' ·) = (xs.insertionSort (key · ≤ key ·)).map g :=
    (List.map_insertionSort _ _ g xs fun x _ y _ => by rw [hkey, hkey]).symm
  rw [sortDedup, sortDedup, hsort]
  cases xs.insertionSort (key · ≤ key ·) with
  | nil => rfl
  | cons x xs => exact dedupByKey.after_map hkey x xs

/-- An ascending list of numbers is determined by its members. -/
theorem eq_of_pairwise_lt {xs ys : List Nat} (hxs : xs.Pairwise (· < ·)) (hys : ys.Pairwise (· < ·))
    (hmem : ∀ x, x ∈ xs ↔ x ∈ ys) : xs = ys := by
  have hnodup {zs : List Nat} (hzs : zs.Pairwise (· < ·)) : zs.Nodup := hzs.imp Nat.ne_of_lt
  have hperm := (List.perm_ext_iff_of_nodup (hnodup hxs) (hnodup hys)).mpr hmem
  exact hperm.eq_of_pairwise (fun x y _ _ hxy hyx => absurd (hxy.trans hyx) (Nat.lt_irrefl x)) hxs hys

end Dedup

variable {Item Store σ μ : Type} {b : Profile}

theorem anyM_eq {ε α : Type} {f : α → Outcome ε Bool} {p : α → Bool} {xs : List α}
    (hf : ∀ x ∈ xs, f x = ok (p x)) : xs.anyM f = ok (xs.any p) := by
  induction xs with
  | nil => rfl
  | cons x xs ih =>
    rw [List.anyM, hf x List.mem_cons_self, ok_bind, List.any_cons]
    cases p x with
    | true => rfl
    | false => exact ih fun y hy => hf y (List.mem_cons_of_mem _ hy)

theorem anyM_map {ε α β : Type} (g : α → β) (p : β → Outcome ε Bool) (xs : List α) :
    (xs.map g).anyM p = xs.anyM fun x => p (g x) := by
  induction xs with
  | nil => rfl
  | cons x xs ih =>
    rw [List.map_cons, List.anyM, List.anyM, ih]

/-- The check for positions that are not those of leaves. -/
theorem anyM_height_eq {T : Type} (key : T → Nat) {xs : List T} (hwords : ∀ x ∈ xs, key x < 2 ^ 64) :
    (xs.anyM (fun x => do let height ← pos_height_in_tree b (key x); ok (height > 0)) :
      Outcome (Error σ μ) Bool) = ok (xs.any fun x => decide (0 < nodeHeight (key x))) := by
  apply anyM_eq
  intro x hx
  rw [pos_height_in_tree_eq (hwords x hx), ok_bind]

/-- The test for positions over leaves, when there are only leaves. -/
theorem anyM_height_leaves {T : Type} (key : T → Nat) {xs : List T} (hwords : ∀ x ∈ xs, key x < 2 ^ 64)
    (hheights : ∀ x ∈ xs, nodeHeight (key x) = 0) :
    (xs.anyM (fun x => do let height ← pos_height_in_tree b (key x); ok (height > 0)) :
      Outcome (Error σ μ) Bool) = ok false := by
  have hnone : (xs.any fun x => decide (0 < nodeHeight (key x))) = false := by simpa using hheights
  rw [anyM_height_eq key hwords, hnone]

/-- The same test, when there is another position. -/
theorem anyM_height_inner {T : Type} (key : T → Nat) {xs : List T} (hwords : ∀ x ∈ xs, key x < 2 ^ 64)
    (hinner : ¬ ∀ x ∈ xs, nodeHeight (key x) = 0) :
    (xs.anyM (fun x => do let height ← pos_height_in_tree b (key x); ok (height > 0)) :
      Outcome (Error σ μ) Bool) = ok true := by
  have hsome : (xs.any fun x => decide (0 < nodeHeight (key x))) = true := by
    rw [List.any_eq_true]
    push Not at hinner
    obtain ⟨x, hx, hne⟩ := hinner
    exact ⟨x, hx, decide_eq_true (Nat.pos_of_ne_zero hne)⟩
  rw [anyM_height_eq key hwords, hsome]

theorem nodeCount_nodeIndex {p : Nat} (hheight : nodeHeight p = 0) : nodeCount (nodeIndex p) = p := by
  rw [← nodePos_zero, ← hheight, nodePos_nodeHeight_nodeIndex]

/-- Sorted leaf positions are those of ascending leaf indices. -/
theorem exists_leaves {pairs : List (Nat × Item)} (hheights : ∀ pair ∈ pairs, nodeHeight pair.1 = 0) :
    ∃ leaves : List (Nat × Item), (leaves.map (·.1)).Pairwise (· < ·) ∧
      sortDedup (·.1) pairs = leaves.map leafEntry := by
  have hsorted := sortDedup_pairwise (·.1) pairs
  have hmem : ∀ pair ∈ sortDedup (·.1) pairs, nodeHeight pair.1 = 0 := fun pair hpair =>
    hheights pair (mem_of_mem_sortDedup hpair)
  refine ⟨(sortDedup (·.1) pairs).map fun pair => (nodeIndex pair.1, pair.2), ?_, ?_⟩
  · rw [List.map_map, List.pairwise_map]
    refine hsorted.imp_of_mem fun {x y} hx hy hlt => ?_
    rw [← nodeCount_nodeIndex (hmem x hx), ← nodeCount_nodeIndex (hmem y hy)] at hlt
    exact nodeCount_lt_nodeCount_iff.mp hlt
  · rw [List.map_map]
    refine (List.map_id _).symm.trans (List.map_congr_left fun pair hpair => ?_)
    simp [leafEntry, nodeCount_nodeIndex (hmem pair hpair)]

/-- Sorted and without repetition, positions are those of the ascending leaves that
    they cover. -/
theorem sortDedup_positions {T : Type} (key : T → Nat) {xs : List T} {indices : List Nat}
    (hsorted : indices.Pairwise (· < ·)) (hcover : ∀ p, p ∈ xs.map key ↔ p ∈ indices.map nodeCount) :
    (sortDedup key xs).map key = indices.map nodeCount := by
  refine eq_of_pairwise_lt (List.pairwise_map.mpr (sortDedup_pairwise key xs))
    (List.pairwise_map.mpr (hsorted.imp nodeCount_lt_nodeCount_iff.mpr)) fun p => ?_
  rw [← hcover]
  constructor
  · intro hp
    obtain ⟨x, hx, rfl⟩ := List.mem_map.mp hp
    exact List.mem_map_of_mem (mem_of_mem_sortDedup hx)
  · intro hp
    obtain ⟨x, hx, rfl⟩ := List.mem_map.mp hp
    obtain ⟨kept, hkept, heq⟩ := sortDedup_covers key hx
    exact List.mem_map.mpr ⟨kept, hkept, heq⟩

/-- Sorted pairs whose items are given by their positions are determined by the
    set of those positions. -/
theorem sortDedup_pairs_eq {pairs : List (Nat × Item)} {indices : List Nat} {item : Nat → Item}
    (hitems : ∀ pair ∈ pairs, pair.2 = item pair.1) (hsorted : indices.Pairwise (· < ·))
    (hcover : ∀ p, p ∈ pairs.map (·.1) ↔ p ∈ indices.map nodeCount) :
    sortDedup (·.1) pairs = (indices.map fun k => (k, item (nodeCount k))).map leafEntry := by
  have hpositions : (sortDedup (·.1) pairs).map (·.1) = indices.map nodeCount :=
    sortDedup_positions _ hsorted hcover
  have hself : sortDedup (·.1) pairs =
      ((sortDedup (·.1) pairs).map (·.1)).map fun p => (p, item p) := by
    rw [List.map_map]
    refine (List.map_id _).symm.trans (List.map_congr_left fun pair hpair => ?_)
    exact Prod.ext rfl (hitems pair (mem_of_mem_sortDedup hpair))
  rw [hself, hpositions, List.map_map, List.map_map]
  rfl

/-- Sorted pairs for a set of leaf positions are leaves with these indices. -/
theorem exists_leaves_of_cover {pairs : List (Nat × Item)} {indices : List Nat}
    (hsorted : indices.Pairwise (· < ·))
    (hcover : ∀ p, p ∈ pairs.map (·.1) ↔ p ∈ indices.map nodeCount) :
    ∃ leaves : List (Nat × Item), leaves.map (·.1) = indices ∧
      sortDedup (·.1) pairs = leaves.map leafEntry := by
  have hheights : ∀ pair ∈ pairs, nodeHeight pair.1 = 0 := by
    intro pair hpair
    obtain ⟨k, _, hk⟩ := List.mem_map.mp ((hcover pair.1).mp (List.mem_map_of_mem hpair))
    exact hk ▸ nodeHeight_nodeCount k
  obtain ⟨leaves, _, hleaves⟩ := exists_leaves hheights
  have hpositions : (sortDedup (·.1) pairs).map (·.1) = indices.map nodeCount :=
    sortDedup_positions _ hsorted hcover
  refine ⟨leaves, List.map_injective_iff.mpr nodeCount_strictMono.injective ?_, hleaves⟩
  rw [← hpositions, hleaves, List.map_map, List.map_map]
  rfl

end merkleberg.mmr
