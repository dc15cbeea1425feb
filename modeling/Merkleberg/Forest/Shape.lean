import Merkleberg.Forest.Bagged

namespace forest

namespace MerkleTree

variable {α : Type} {merge : α → α → α} {P : α → Prop} {leafValue leafValue' : Nat → α}

/-- The values at the leaves of a tree, from left to right. -/
def leaves : MerkleTree α → List α
  | leaf x => [x]
  | node left right => left.leaves ++ right.leaves

/-- Nothing but the tree itself has its value, when merging is injective and never
    gives the value of a leaf. -/
theorem eq_of_value (hinj : ∀ l r l' r', merge l r = merge l' r' → l = l' ∧ r = r')
    (hne : ∀ l r x, P x → merge l r ≠ x) {t t' : MerkleTree α} (ht : t.All P) (ht' : t'.All P)
    (hvalue : t.value merge = t'.value merge) : t = t' := by
  induction t generalizing t' with
  | leaf x => exact (eq_leaf_of_value hne ht hvalue.symm).symm
  | node left right ihleft ihright =>
    cases t' with
    | leaf x => exact absurd hvalue (hne _ _ _ ht')
    | node left' right' =>
      obtain ⟨hleft, hright⟩ := hinj _ _ _ _ hvalue
      rw [ihleft ht.1 ht'.1 hleft, ihright ht.2 ht'.2 hright]

theorem perfect_leaves (h k : Nat) :
    (perfect leafValue h k).leaves = (List.range' (2 ^ h * k) (2 ^ h)).map leafValue := by
  induction h generalizing k with
  | zero => simp [perfect, leaves]
  | succ h ih =>
    have hright : 2 ^ h * (2 * k + 1) = 2 ^ h * (2 * k) + 2 ^ h := by ring
    rw [perfect, leaves, ih, ih, ← List.map_append, hright, List.range'_append_1]
    congr 2 <;> ring

/-- Trees over the same leaves have the same values at them. -/
theorem leafValue_eq {h k i : Nat} (heq : perfect leafValue h k = perfect leafValue' h k)
    (hstart : 2 ^ h * k ≤ i) (hstop : i < 2 ^ h * (k + 1)) : leafValue i = leafValue' i := by
  have hleaves := congrArg leaves heq
  rw [perfect_leaves, perfect_leaves, List.map_inj_left] at hleaves
  rw [Nat.mul_succ] at hstop
  exact hleaves i (List.mem_range'_1.mpr ⟨hstart, hstop⟩)

/-- A bagged tree has the leaves of all its peaks. -/
theorem bag_leaves_length (t : MerkleTree α) (rest : List (MerkleTree α)) :
    (bag t rest).leaves.length = ((t :: rest).map fun t => t.leaves.length).sum := by
  induction rest generalizing t with
  | nil => simp [bag]
  | cons t' rest ih =>
    rw [bag, leaves, List.length_append, ih, Nat.add_comm, List.map_cons (l := t' :: rest), List.sum_cons]

/-- Bagging as many trees gives the same tree only for the same trees. -/
theorem bag_inj {t t' : MerkleTree α} {rest rest' : List (MerkleTree α)}
    (hlength : rest.length = rest'.length) (heq : bag t rest = bag t' rest') :
    t :: rest = t' :: rest' := by
  induction rest generalizing t t' rest' with
  | nil =>
    obtain rfl := List.length_eq_zero_iff.mp hlength.symm
    rw [bag, bag] at heq
    rw [heq]
  | cons s rest ih =>
    cases rest' with
    | nil => simp at hlength
    | cons s' rest' =>
      obtain ⟨hinner, rfl⟩ := node.inj heq
      rw [ih (Nat.succ_injective hlength) hinner]

end MerkleTree

/-- The blocks of a tiling add up to its length. -/
theorem Tiles.sum_blocks {start stop : Nat} {nodes : List (Nat × Nat)} (htiles : Tiles start nodes stop) :
    start + (nodes.map fun node => 2 ^ node.1).sum = stop := by
  induction htiles with
  | nil start => rfl
  | cons tail ih =>
    rw [List.map_cons, List.sum_cons, ← Nat.add_assoc, ← Nat.mul_succ]
    exact ih

/-- The one tree that bagging makes of the forest over `n` leaves. -/
def baggedTree {α : Type} (leafValue : Nat → α) (n : Nat) : Option (MerkleTree α) :=
  match (peaks n).map fun node => MerkleTree.perfect leafValue node.1 node.2 with
  | [] => none
  | t :: rest => some (MerkleTree.bag t rest)

section BaggedTree

variable {α : Type} {merge : α → α → α} {P : α → Prop} {leafValue leafValue' : Nat → α} {n n' : Nat}
  {t t' : MerkleTree α}

theorem baggedTree_eq_some_iff : baggedTree leafValue n = some t ↔
    ∃ first rest, (peaks n).map (fun node => MerkleTree.perfect leafValue node.1 node.2) = first :: rest ∧
      t = MerkleTree.bag first rest := by
  rw [baggedTree]
  split
  · rename_i hnil
    simp [hnil]
  · rename_i first rest hpeaks
    rw [hpeaks]
    constructor
    · intro hsome
      exact ⟨first, rest, rfl, (Option.some.inj hsome).symm⟩
    · rintro ⟨first', rest', hcons, rfl⟩
      obtain ⟨rfl, rfl⟩ := List.cons.inj hcons
      rfl

theorem baggedTree_value (merge : α → α → α) (leafValue : Nat → α) (n : Nat) :
    bagPeaks merge ((peaks n).map fun node => (MerkleTree.perfect leafValue node.1 node.2).value merge) =
      (baggedTree leafValue n).map (MerkleTree.value merge) := by
  have hvalues : ((peaks n).map fun node => (MerkleTree.perfect leafValue node.1 node.2).value merge) =
      ((peaks n).map fun node => MerkleTree.perfect leafValue node.1 node.2).map (MerkleTree.value merge) :=
    List.map_map.symm
  rw [hvalues, baggedTree]
  split
  · rename_i hnil
    rw [hnil]
    rfl
  · rename_i first rest hpeaks
    rw [hpeaks, MerkleTree.bag_value]
    rfl

theorem baggedTree_all (hleaf : ∀ k, P (leafValue k)) (ht : baggedTree leafValue n = some t) :
    t.All P := by
  obtain ⟨first, rest, hpeaks, rfl⟩ := baggedTree_eq_some_iff.mp ht
  have hall : ∀ t ∈ first :: rest, t.All P := by
    intro t htree
    rw [← hpeaks] at htree
    obtain ⟨node, _, rfl⟩ := List.mem_map.mp htree
    exact MerkleTree.perfect_all hleaf _ _
  exact MerkleTree.bag_all (hall _ List.mem_cons_self) fun t htree => hall t (List.mem_cons_of_mem _ htree)

theorem baggedTree_leaves_length (ht : baggedTree leafValue n = some t) : t.leaves.length = n := by
  obtain ⟨first, rest, hpeaks, rfl⟩ := baggedTree_eq_some_iff.mp ht
  have hsum := (peaks_tile n).sum_blocks
  rw [Nat.zero_add] at hsum
  have hblocks : (peaks n).map ((fun t => t.leaves.length) ∘ fun node =>
      MerkleTree.perfect leafValue node.1 node.2) = (peaks n).map fun node => 2 ^ node.1 :=
    List.map_congr_left fun node _ => by simp [MerkleTree.perfect_leaves]
  rw [MerkleTree.bag_leaves_length, ← hpeaks, List.map_map, hblocks, hsum]

/-- The tree of a forest tells how many leaves there are, and which. -/
theorem baggedTree_inj (ht : baggedTree leafValue n = some t) (ht' : baggedTree leafValue' n' = some t) :
    n = n' ∧ ∀ i < n, leafValue i = leafValue' i := by
  obtain rfl : n = n' := (baggedTree_leaves_length ht).symm.trans (baggedTree_leaves_length ht')
  refine ⟨rfl, fun i hi => ?_⟩
  obtain ⟨first, rest, hpeaks, rfl⟩ := baggedTree_eq_some_iff.mp ht
  obtain ⟨first', rest', hpeaks', hbag⟩ := baggedTree_eq_some_iff.mp ht'
  have hlength := (congrArg List.length hpeaks).symm.trans
    ((List.length_map _).trans ((List.length_map _).symm.trans (congrArg List.length hpeaks')))
  have htrees := MerkleTree.bag_inj (Nat.succ_injective hlength) hbag
  rw [← hpeaks, ← hpeaks', List.map_inj_left] at htrees
  obtain ⟨node, hnode, hunder⟩ := exists_peak_above (n := n) (g := 0) (m := i) (by omega)
  obtain ⟨hstart, hstop⟩ := under_zero_iff.mp hunder
  exact MerkleTree.leafValue_eq (htrees node hnode) hstart hstop

/-- Bagged forests have the same root only over the same leaves. -/
theorem bagged_root_inj (hinj : ∀ l r l' r', merge l r = merge l' r' → l = l' ∧ r = r')
    (hne : ∀ l r x, P x → merge l r ≠ x) (hleaf : ∀ k, P (leafValue k))
    (hleaf' : ∀ k, P (leafValue' k)) {root : α}
    (hroot : bagPeaks merge ((peaks n).map fun node =>
      (MerkleTree.perfect leafValue node.1 node.2).value merge) = some root)
    (hroot' : bagPeaks merge ((peaks n').map fun node =>
      (MerkleTree.perfect leafValue' node.1 node.2).value merge) = some root) :
    n = n' ∧ ∀ i < n, leafValue i = leafValue' i := by
  rw [baggedTree_value] at hroot hroot'
  obtain ⟨t, ht, hvalue⟩ := Option.map_eq_some_iff.mp hroot
  obtain ⟨t', ht', hvalue'⟩ := Option.map_eq_some_iff.mp hroot'
  obtain rfl := MerkleTree.eq_of_value hinj hne (baggedTree_all hleaf ht) (baggedTree_all hleaf' ht')
    (hvalue.trans hvalue'.symm)
  exact baggedTree_inj ht ht'

end BaggedTree

end forest
