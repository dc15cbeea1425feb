import Merkleberg.Forest.Position

namespace forest

section Values

variable {α : Type} (leaf : Nat → α) (node : Nat → α → α → α)

/-- Value of the node of height `h` and index `k`, from the values of the leaves
    under it. The operation on two children is told the position of the parent. -/
def treeRoot : Nat → Nat → α
  | 0, k => leaf k
  | h + 1, k => node (nodePos (h + 1) k) (treeRoot h (2 * k)) (treeRoot h (2 * k + 1))

/-- Value at a position. -/
def valueAt (p : Nat) : α := treeRoot leaf node (nodeHeight p) (nodeIndex p)

@[simp] theorem treeRoot_zero (k : Nat) : treeRoot leaf node 0 k = leaf k := rfl

theorem treeRoot_succ (h k : Nat) :
    treeRoot leaf node (h + 1) k =
      node (nodePos (h + 1) k) (treeRoot leaf node h (2 * k)) (treeRoot leaf node h (2 * k + 1)) := rfl

@[simp] theorem valueAt_nodePos (h k : Nat) :
    valueAt leaf node (nodePos h k) = treeRoot leaf node h k := by
  rw [valueAt, nodeHeight_nodePos, nodeIndex_nodePos]

variable {leaf node}

/-- The leaves under a node are those under its left child and then those under
    its right child. -/
theorem block_halves (h k : Nat) :
    2 ^ (h + 1) * k = 2 ^ h * (2 * k) ∧ 2 ^ h * (2 * k) ≤ 2 ^ h * (2 * k + 1) ∧
      2 ^ h * (2 * k + 1) ≤ 2 ^ h * (2 * k + 1 + 1) ∧
      2 ^ h * (2 * k + 1 + 1) = 2 ^ (h + 1) * (k + 1) := by
  refine ⟨?_, Nat.mul_le_mul_left _ (Nat.le_succ _), Nat.mul_le_mul_left _ (Nat.le_succ _), ?_⟩
  · rw [pow_succ, Nat.mul_assoc]
  · rw [pow_succ, Nat.mul_assoc]
    rfl

/-- A node depends on no leaf but those under it. -/
theorem treeRoot_congr {leaf' : Nat → α} {h k : Nat}
    (hleaf : ∀ i, 2 ^ h * k ≤ i → i < 2 ^ h * (k + 1) → leaf i = leaf' i) :
    treeRoot leaf node h k = treeRoot leaf' node h k := by
  induction h generalizing k with
  | zero => exact hleaf k (by omega) (by omega)
  | succ h ih =>
    obtain ⟨hstart, hleftmost, hrightmost, hstop⟩ := block_halves h k
    have hleft := ih (k := 2 * k) fun i hlow hhigh => hleaf i (by omega) (by omega)
    have hright := ih (k := 2 * k + 1) fun i hlow hhigh => hleaf i (by omega) (by omega)
    rw [treeRoot_succ, treeRoot_succ, hleft, hright]

/-- What nodes keep and every leaf under a node has, the node has. -/
theorem treeRoot_of_closed {P : α → Prop} (hup : ∀ p x y, P x → P y → P (node p x y)) {h k : Nat}
    (hleaf : ∀ i, 2 ^ h * k ≤ i → i < 2 ^ h * (k + 1) → P (leaf i)) : P (treeRoot leaf node h k) := by
  induction h generalizing k with
  | zero => exact hleaf k (by omega) (by omega)
  | succ h ih =>
    obtain ⟨hstart, hleftmost, hrightmost, hstop⟩ := block_halves h k
    exact hup _ _ _ (ih fun i hlow hhigh => hleaf i (by omega) (by omega))
      (ih fun i hlow hhigh => hleaf i (by omega) (by omega))

/-- Values commute with a map that commutes with the operation at nodes. -/
theorem treeRoot_map {β : Type} {leaf' : Nat → β} {node' : Nat → β → β → β} {f : α → β}
    (hleaf : ∀ i, f (leaf i) = leaf' i) (hnode : ∀ p x y, f (node p x y) = node' p (f x) (f y))
    (h k : Nat) : f (treeRoot leaf node h k) = treeRoot leaf' node' h k := by
  induction h generalizing k with
  | zero => exact hleaf k
  | succ h ih => rw [treeRoot_succ, treeRoot_succ, hnode, ih, ih]

/-- Positions of a forest do not see the leaves that come after it. -/
theorem valueAt_congr {leaf' : Nat → α} {n p : Nat} (hp : p < nodeCount n)
    (hleaf : ∀ i < n, leaf i = leaf' i) : valueAt leaf node p = valueAt leaf' node p := by
  obtain ⟨h, k, rfl⟩ := exists_nodePos p
  have hinside := nodePos_lt_nodeCount_iff.mp hp
  rw [valueAt_nodePos, valueAt_nodePos]
  exact treeRoot_congr fun i _ hhigh => hleaf i (hhigh.trans_le hinside)

/-- An inner position is the node over the two positions below it. -/
theorem valueAt_of_height {p h : Nat} (hheight : nodeHeight p = h + 1) :
    2 ^ (h + 1) ≤ p ∧
      valueAt leaf node p =
        node p (valueAt leaf node (p - 2 ^ (h + 1))) (valueAt leaf node (p - 1)) := by
  obtain ⟨h', k, rfl⟩ := exists_nodePos p
  rw [nodeHeight_nodePos] at hheight
  subst hheight
  have hleft := nodePos_left h k
  have hright := nodePos_right h k
  rw [show nodePos (h + 1) k - 2 ^ (h + 1) = nodePos h (2 * k) by omega,
    show nodePos (h + 1) k - 1 = nodePos h (2 * k + 1) by omega]
  exact ⟨by omega, by simp only [valueAt_nodePos, treeRoot_succ]⟩

end Values

/-- Fold the peaks of a forest into one value, from the right: the fold so far
    is the first operand and the next peak to the left the second. -/
def bagPeaks {α : Type} (merge : α → α → α) (peaks : List α) : Option α :=
  match peaks.reverse with
  | [] => none
  | last :: rest => some (rest.foldl merge last)

section Bag

variable {α : Type} {merge : α → α → α}

@[simp] theorem bagPeaks_nil : bagPeaks merge [] = none := rfl

@[simp] theorem bagPeaks_singleton (x : α) : bagPeaks merge [x] = some x := rfl

theorem bagPeaks_cons {x bagged : α} {xs : List α} (hbag : bagPeaks merge xs = some bagged) :
    bagPeaks merge (x :: xs) = some (merge bagged x) := by
  unfold bagPeaks at *
  rw [List.reverse_cons]
  cases hrev : xs.reverse with
  | nil => simp [hrev] at hbag
  | cons last rest =>
    rw [hrev] at hbag
    simp only [Option.some.injEq] at hbag
    simp only [List.cons_append, List.foldl_append, List.foldl_cons, List.foldl_nil, hbag]

theorem exists_bagPeaks (merge : α → α → α) {xs : List α} (hne : xs ≠ []) :
    ∃ bagged, bagPeaks merge xs = some bagged := by
  unfold bagPeaks
  cases hrev : xs.reverse with
  | nil => exact absurd (List.reverse_eq_nil_iff.mp hrev) hne
  | cons last rest => exact ⟨_, rfl⟩

/-- Bagging the peaks on the right ahead of time does not change the result. -/
theorem bagPeaks_append {xs ys : List α} {bagged : α} (hbag : bagPeaks merge ys = some bagged) :
    bagPeaks merge (xs ++ ys) = bagPeaks merge (xs ++ [bagged]) := by
  induction xs with
  | nil => rw [List.nil_append, List.nil_append, hbag, bagPeaks_singleton]
  | cons x xs ih =>
    have hne : xs ++ [bagged] ≠ [] := by simp
    obtain ⟨inner, hinner⟩ := exists_bagPeaks merge hne
    rw [List.cons_append, List.cons_append, bagPeaks_cons hinner, bagPeaks_cons (ih.trans hinner)]

/-- What passes from a merge to both its operands passes from a bag to every
    peak. -/
theorem bagPeaks_descend {P : α → Prop} (hdown : ∀ x y, P (merge x y) → P x ∧ P y) {xs : List α}
    {bagged : α} (hbag : bagPeaks merge xs = some bagged) (hbagged : P bagged) : ∀ x ∈ xs, P x := by
  induction xs generalizing bagged with
  | nil => simp
  | cons x xs ih =>
    rcases eq_or_ne xs [] with rfl | hne
    · obtain rfl := Option.some.inj hbag
      exact List.forall_mem_singleton.mpr hbagged
    · obtain ⟨inner, hinner⟩ := exists_bagPeaks merge hne
      rw [bagPeaks_cons hinner, Option.some.injEq] at hbag
      subst hbag
      obtain ⟨hrest, hx⟩ := hdown _ _ hbagged
      exact List.forall_mem_cons.mpr ⟨hx, ih hinner hrest⟩

/-- What merges keep and every peak has, the bag of the peaks has. -/
theorem bagPeaks_of_closed {P : α → Prop} (hup : ∀ x y, P x → P y → P (merge x y)) {xs : List α}
    {bagged : α} (hbag : bagPeaks merge xs = some bagged) (hpeaks : ∀ x ∈ xs, P x) : P bagged := by
  induction xs generalizing bagged with
  | nil => cases hbag
  | cons x xs ih =>
    obtain ⟨hx, hxs⟩ := List.forall_mem_cons.mp hpeaks
    rcases eq_or_ne xs [] with rfl | hne
    · obtain rfl := Option.some.inj hbag
      exact hx
    · obtain ⟨inner, hinner⟩ := exists_bagPeaks merge hne
      rw [bagPeaks_cons hinner, Option.some.injEq] at hbag
      subst hbag
      exact hup _ _ (ih hinner hxs) hx

/-- Bagging commutes with a map that commutes with merging. -/
theorem bagPeaks_map {β : Type} {merge' : β → β → β} {f : α → β}
    (hmerge : ∀ x y, f (merge x y) = merge' (f x) (f y)) (xs : List α) :
    bagPeaks merge' (xs.map f) = (bagPeaks merge xs).map f := by
  induction xs with
  | nil => rfl
  | cons x xs ih =>
    cases xs with
    | nil => rfl
    | cons y xs =>
      obtain ⟨bagged, hbag⟩ := exists_bagPeaks merge (List.cons_ne_nil y xs)
      rw [hbag, Option.map_some] at ih
      rw [List.map_cons, bagPeaks_cons ih, bagPeaks_cons hbag, Option.map_some, hmerge]

end Bag

end forest
