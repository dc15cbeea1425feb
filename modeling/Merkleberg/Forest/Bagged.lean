import Merkleberg.Forest.Sections

namespace forest

/-- A binary tree with values at its leaves. -/
inductive MerkleTree (α : Type) where
  | leaf (value : α)
  | node (left right : MerkleTree α)

namespace MerkleTree

variable {α : Type}

/-- Merge the leaves into one value. -/
def value (merge : α → α → α) : MerkleTree α → α
  | leaf x => x
  | node left right => merge (left.value merge) (right.value merge)

/-- Every leaf satisfies a predicate. -/
def All (P : α → Prop) : MerkleTree α → Prop
  | leaf x => P x
  | node left right => left.All P ∧ right.All P

def child (t : MerkleTree α) (right : Prop) [Decidable right] : Option (MerkleTree α) :=
  match t with
  | leaf _ => none
  | node l r => some (if right then r else l)

/-- The subtree that a path of `d` binary digits leads to, first digit first. -/
def descend : MerkleTree α → Nat → Nat → Option (MerkleTree α)
  | t, 0, _ => some t
  | leaf _, _ + 1, _ => none
  | node l r, d + 1, k => if k / 2 ^ d % 2 = 1 then r.descend d k else l.descend d k

@[simp] theorem descend_zero (t : MerkleTree α) (k : Nat) : t.descend 0 k = some t := by
  cases t <;> rfl

/-- The last digit of a path picks a child of where the rest of it leads. -/
theorem descend_succ (t : MerkleTree α) (d k : Nat) :
    t.descend (d + 1) k = (t.descend d (k / 2)).bind fun s => s.child (k % 2 = 1) := by
  induction d generalizing t with
  | zero =>
    cases t with
    | leaf x => rfl
    | node l r =>
      rw [descend_zero, Option.bind_some, descend, child, pow_zero, Nat.div_one, descend_zero, descend_zero]
      split <;> rfl
  | succ d ih =>
    cases t with
    | leaf x => rfl
    | node l r =>
      rw [descend, descend, Nat.div_div_eq_div_mul, ← pow_succ', ih, ih]
      split <;> rfl

/-- Digits above the path do not matter. -/
theorem descend_mod (t : MerkleTree α) (d k : Nat) : t.descend d (k % 2 ^ d) = t.descend d k := by
  induction d generalizing t k with
  | zero => simp
  | succ d ih =>
    cases t with
    | leaf x => rfl
    | node l r =>
      have hdigit : k % 2 ^ (d + 1) / 2 ^ d % 2 = k / 2 ^ d % 2 := by
        rw [pow_succ, Nat.mod_mul_right_div_self, Nat.mod_mod]
      have hrest : k % 2 ^ (d + 1) % 2 ^ d = k % 2 ^ d :=
        Nat.mod_mod_of_dvd k (pow_dvd_pow 2 (Nat.le_succ d))
      rw [descend, descend, hdigit, ← ih r, ← ih l, hrest, ih, ih]

/-- A path that leads on from a place leads through a node there. -/
theorem descend_prefix {t s : MerkleTree α} {d e k : Nat} (hs : t.descend (d + e + 1) k = some s) :
    ∃ l r, t.descend d (k / 2 ^ (e + 1)) = some (node l r) := by
  induction e generalizing k s with
  | zero =>
    rw [Nat.add_zero, descend_succ, Option.bind_eq_some_iff] at hs
    obtain ⟨parent, hparent, hchild⟩ := hs
    rw [Nat.zero_add, pow_one, hparent]
    cases parent with
    | leaf x => cases hchild
    | node l r => exact ⟨l, r, rfl⟩
  | succ e ih =>
    rw [← Nat.add_assoc, descend_succ, Option.bind_eq_some_iff] at hs
    obtain ⟨parent, hparent, _⟩ := hs
    rw [pow_succ', ← Nat.div_div_eq_div_mul]
    exact ih hparent

/-- The perfect tree under a node of a forest. -/
def perfect (leafValue : Nat → α) : Nat → Nat → MerkleTree α
  | 0, k => leaf (leafValue k)
  | h + 1, k => node (perfect leafValue h (2 * k)) (perfect leafValue h (2 * k + 1))

variable {leafValue : Nat → α} {merge : α → α → α}

theorem perfect_value (h k : Nat) :
    (perfect leafValue h k).value merge = treeRoot leafValue (fun _ => merge) h k := by
  induction h generalizing k with
  | zero => rfl
  | succ h ih => rw [perfect, value, ih, ih, treeRoot_succ]

theorem perfect_all {P : α → Prop} (hleaf : ∀ k, P (leafValue k)) (h k : Nat) :
    (perfect leafValue h k).All P := by
  induction h generalizing k with
  | zero => exact hleaf k
  | succ h ih => exact ⟨ih _, ih _⟩

/-- Paths into a perfect tree lead to the perfect trees in it. -/
theorem perfect_descend {d h : Nat} (hle : d ≤ h) (k path : Nat) :
    (perfect leafValue h k).descend d path =
      some (perfect leafValue (h - d) (2 ^ d * k + path % 2 ^ d)) := by
  induction d generalizing path with
  | zero => simp [Nat.mod_one]
  | succ d ih =>
    have hstep : h - d = h - (d + 1) + 1 := by omega
    have hmod : path % 2 ^ (d + 1) = 2 * (path / 2 % 2 ^ d) + path % 2 := by
      rw [pow_succ', Nat.mod_mul, Nat.add_comm]
    have hstart : 2 ^ (d + 1) * k = 2 * (2 ^ d * k) := by rw [pow_succ', Nat.mul_assoc]
    rw [descend_succ, ih (by omega), Option.bind_some, hstep, perfect, child, hmod, hstart]
    split
    · rename_i hodd
      rw [hodd, Nat.mul_add, Nat.add_assoc]
    · rename_i heven
      congr 2
      omega

/-- Longer paths lead nowhere. -/
theorem perfect_descend_none {d h : Nat} (hlt : h < d) (k path : Nat) :
    (perfect leafValue h k).descend d path = none := by
  induction h generalizing d k with
  | zero =>
    obtain ⟨d, rfl⟩ : ∃ e, d = e + 1 := ⟨d - 1, by omega⟩
    rfl
  | succ h ih =>
    obtain ⟨d, rfl⟩ : ∃ e, d = e + 1 := ⟨d - 1, by omega⟩
    rw [perfect, descend, ih (by omega), ih (by omega), ite_self]

/-- Bag trees from the right, as `bagPeaks` does with their values. -/
def bag : MerkleTree α → List (MerkleTree α) → MerkleTree α
  | t, [] => t
  | t, t' :: rest => node (bag t' rest) t

theorem bag_value (merge : α → α → α) (t : MerkleTree α) (rest : List (MerkleTree α)) :
    bagPeaks merge ((t :: rest).map (value merge)) = some ((bag t rest).value merge) := by
  induction rest generalizing t with
  | nil => rfl
  | cons t' rest ih =>
    rw [List.map_cons, bagPeaks_cons (ih t')]
    rfl

theorem bag_all {P : α → Prop} {t : MerkleTree α} {rest : List (MerkleTree α)} (ht : t.All P)
    (hrest : ∀ t' ∈ rest, t'.All P) : (bag t rest).All P := by
  induction rest generalizing t with
  | nil => exact ht
  | cons t' rest ih =>
    exact ⟨ih (hrest t' List.mem_cons_self) fun s hs => hrest s (List.mem_cons_of_mem _ hs), ht⟩

end MerkleTree

/-- Where the leaves of a row of trees are in the tree that bags them: leaf
    `leafIndex` is reached by the path of `d` digits that spells `path`. The last
    tree is one step less deep than its place in the row, and the other trees
    are right children. -/
def BaggedLeaf (nodes : List (Nat × Nat)) (d path leafIndex : Nat) : Prop :=
  ∃ i h m offset, nodes[i]? = some (h, m) ∧ offset < 2 ^ h ∧
    d = h + i + (if i + 1 = nodes.length then 0 else 1) ∧
    path = (if i + 1 = nodes.length then 0 else 2 ^ h) + offset ∧ leafIndex = 2 ^ h * m + offset

/-- A leaf value that is no merge is the value of a leaf only. -/
theorem MerkleTree.eq_leaf_of_value {α : Type} {merge : α → α → α} {P : α → Prop} {x : α}
    (hne : ∀ l r x, P x → merge l r ≠ x) (hx : P x) {t : MerkleTree α} (ht : t.value merge = x) :
    t = .leaf x := by
  cases t with
  | leaf y => exact congrArg MerkleTree.leaf ht
  | node l r => exact absurd ht (hne _ _ x hx)

section Folds

variable {α : Type} {merge : α → α → α} {H K passes : Nat} {entries : List ((Nat × Nat) × α)}
  {items : List α}

theorem Folds.under {root : α} (hfolds : Folds merge H K passes entries items root) :
    ∀ entry ∈ entries, Under entry.1.1 entry.1.2 H K := by
  refine hfolds.descend (P := fun h k _ => Under h k H K) (fun h k _ _ _ hparent => ?_)
    (under_refl H K)
  have hsibling : Under (h + 1) (sibling k / 2) H K := by rwa [sibling_div_two]
  exact ⟨hparent.parent, hsibling.parent⟩

/-- A fold to the value of a tree follows that tree down: where merges can be
    taken apart and are never leaf values, every entry has the value of the
    subtree at its place. -/
theorem Folds.descend_tree {P : α → Prop} {t : MerkleTree α} (ht : t.All P)
    (hinj : ∀ l r l' r', merge l r = merge l' r' → l = l' ∧ r = r')
    (hne : ∀ l r x, P x → merge l r ≠ x)
    (hfolds : Folds merge H K passes entries items (t.value merge)) :
    ∀ entry ∈ entries, ∃ s, t.descend (H - entry.1.1) entry.1.2 = some s ∧ s.All P ∧
      s.value merge = entry.2 := by
  refine hfolds.descend
    (P := fun h k x => ∃ s, t.descend (H - h) k = some s ∧ s.All P ∧ s.value merge = x) ?_ ?_
  · rintro h k x y hlt ⟨s, hs, hall, hvalue⟩
    have hdepth : H - h = H - (h + 1) + 1 := by omega
    rw [hdepth, MerkleTree.descend_succ, MerkleTree.descend_succ, sibling_div_two, hs, Option.bind_some,
      Option.bind_some]
    cases s with
    | leaf z => exact absurd hvalue.symm (by unfold mergeAt; split <;> exact hne _ _ z hall)
    | node l r =>
      obtain ⟨hl, hr⟩ := hall
      unfold mergeAt at hvalue
      obtain ⟨heven, hk⟩ | ⟨hodd, hk⟩ := sibling_cases k
      · rw [if_neg (by omega)] at hvalue
        obtain ⟨hx, hy⟩ := hinj _ _ _ _ hvalue
        exact ⟨⟨l, by simp [MerkleTree.child, heven], hl, hx⟩,
          ⟨r, by simp [MerkleTree.child, show sibling k % 2 = 1 by omega], hr, hy⟩⟩
      · rw [if_pos hodd] at hvalue
        obtain ⟨hy, hx⟩ := hinj _ _ _ _ hvalue
        exact ⟨⟨r, by simp [MerkleTree.child, hodd], hr, hx⟩,
          ⟨l, by simp [MerkleTree.child, show sibling k % 2 = 0 by omega], hl, hy⟩⟩
  · exact ⟨t, by rw [Nat.sub_self, MerkleTree.descend_zero], ht, rfl⟩

end Folds

theorem perfect_descend_leaf_iff {α : Type} {leafValue : Nat → α} {h m d path : Nat} {x : α} :
    (MerkleTree.perfect leafValue h m).descend d path = some (.leaf x) ↔
      d = h ∧ x = leafValue (2 ^ h * m + path % 2 ^ h) := by
  rcases Nat.lt_trichotomy d h with hlt | rfl | hgt
  · rw [MerkleTree.perfect_descend hlt.le, show h - d = h - (d + 1) + 1 by omega, MerkleTree.perfect]
    simp [hlt.ne]
  · rw [MerkleTree.perfect_descend (Nat.le_refl d), Nat.sub_self, MerkleTree.perfect]
    simp [eq_comm]
  · simp [MerkleTree.perfect_descend_none hgt, hgt.ne']

/-- Where the first tree of a longer row is in its bag. -/
theorem BaggedLeaf.head_iff {node next : Nat × Nat} {rest : List (Nat × Nat)} {d path k : Nat} :
    BaggedLeaf (node :: next :: rest) (d + 1) path k ↔
      (d = node.1 ∧ ∃ offset < 2 ^ node.1, path = 2 ^ node.1 + offset ∧
        k = 2 ^ node.1 * node.2 + offset) ∨ BaggedLeaf (next :: rest) d path k := by
  constructor
  · rintro ⟨i, h, m, offset, hnode, hoffset, hd, hpath, hk⟩
    cases i with
    | zero =>
      obtain rfl : node = (h, m) := by simpa using hnode
      rw [if_neg (by simp)] at hd hpath
      exact Or.inl ⟨by omega, offset, hoffset, hpath, hk⟩
    | succ i =>
      have hlast : i + 1 + 1 = (node :: next :: rest).length ↔ i + 1 = (next :: rest).length := by
        simp
      simp only [hlast] at hd hpath
      exact Or.inr ⟨i, h, m, offset, by simpa using hnode, hoffset, by omega, hpath, hk⟩
  · rintro (⟨rfl, offset, hoffset, hpath, hk⟩ | ⟨i, h, m, offset, hnode, hoffset, hd, hpath, hk⟩)
    · exact ⟨0, node.1, node.2, offset, rfl, hoffset, by simp, by simpa using hpath, hk⟩
    · have hlast : i + 1 + 1 = (node :: next :: rest).length ↔ i + 1 = (next :: rest).length := by
        simp
      refine ⟨i + 1, h, m, offset, by simpa using hnode, hoffset, ?_, ?_, hk⟩
      · simp only [hlast]
        omega
      · simpa only [hlast] using hpath

theorem BaggedLeaf.path_lt {nodes : List (Nat × Nat)} {d path k : Nat}
    (hleaf : BaggedLeaf nodes d path k) : path < 2 ^ d := by
  obtain ⟨i, h, m, offset, hnode, hoffset, hd, hpath, _⟩ := hleaf
  have hgrow : 2 ^ (h + (if i + 1 = nodes.length then 0 else 1)) ≤ 2 ^ d :=
    Nat.pow_le_pow_right (by omega) (by omega)
  split at hgrow
  · rename_i hlast
    rw [if_pos hlast] at hpath
    rw [Nat.add_zero] at hgrow
    omega
  · rename_i hlast
    rw [if_neg hlast] at hpath
    rw [pow_succ] at hgrow
    omega

/-- The subtree that is a leaf at the end of a path is a leaf of one of the
    bagged trees. -/
theorem bag_descend_leaf_iff {α : Type} (leafValue : Nat → α) (node : Nat × Nat)
    {nodes : List (Nat × Nat)} {d path : Nat} (hpath : path < 2 ^ d) {x : α} :
    (MerkleTree.bag (MerkleTree.perfect leafValue node.1 node.2)
        (nodes.map fun node => MerkleTree.perfect leafValue node.1 node.2)).descend d path =
          some (.leaf x) ↔
      ∃ k, BaggedLeaf (node :: nodes) d path k ∧ x = leafValue k := by
  induction nodes generalizing node d with
  | nil =>
    rw [List.map_nil, MerkleTree.bag, perfect_descend_leaf_iff]
    constructor
    · rintro ⟨rfl, rfl⟩
      rw [Nat.mod_eq_of_lt hpath]
      exact ⟨_, ⟨0, node.1, node.2, path, rfl, hpath, by simp, by simp, rfl⟩, rfl⟩
    · rintro ⟨k, ⟨i, h, m, offset, hnode, hoffset, hd, hpath', rfl⟩, rfl⟩
      cases i with
      | zero =>
        obtain rfl : node = (h, m) := by simpa using hnode
        have hpath'' : path = offset := by simpa using hpath'
        rw [hpath'', Nat.mod_eq_of_lt hoffset]
        exact ⟨by simpa using hd, rfl⟩
      | succ i => simp at hnode
  | cons next rest ih =>
    rw [List.map_cons, MerkleTree.bag]
    cases d with
    | zero =>
      rw [MerkleTree.descend_zero]
      constructor
      · intro hleaf
        cases hleaf
      · rintro ⟨k, ⟨i, h, m, offset, _, _, hd, _⟩, _⟩
        have hlast : i + 1 = (node :: next :: rest).length := by
          by_contra hnot
          rw [if_neg hnot] at hd
          omega
        simp only [List.length_cons] at hlast
        omega
    | succ d =>
      rw [MerkleTree.descend]
      simp only [BaggedLeaf.head_iff]
      have hhalf : path / 2 ^ d % 2 = 1 ↔ 2 ^ d ≤ path := by
        have hpos := Nat.two_pow_pos d
        rw [pow_succ] at hpath
        have hdigit := (Nat.div_lt_iff_lt_mul hpos).mpr (show path < 2 * 2 ^ d by omega)
        rw [← Nat.one_le_div_iff hpos]
        generalize path / 2 ^ d = digit at *
        omega
      by_cases hright : 2 ^ d ≤ path
      · rw [if_pos (hhalf.mpr hright), perfect_descend_leaf_iff]
        rw [pow_succ] at hpath
        constructor
        · rintro ⟨rfl, rfl⟩
          refine ⟨_, Or.inl ⟨rfl, path - 2 ^ node.1, by omega, by omega, rfl⟩, ?_⟩
          rw [Nat.mod_eq_sub_mod hright, Nat.mod_eq_of_lt (by omega)]
        · rintro ⟨k, ⟨rfl, offset, hoffset, rfl, rfl⟩ | hleaf, rfl⟩
          · rw [Nat.add_mod_left, Nat.mod_eq_of_lt hoffset]
            exact ⟨rfl, rfl⟩
          · exact absurd hleaf.path_lt (by omega)
      · rw [if_neg (mt hhalf.mp hright), ih next (by omega)]
        constructor
        · rintro ⟨k, hleaf, rfl⟩
          exact ⟨k, Or.inr hleaf, rfl⟩
        · rintro ⟨k, ⟨rfl, offset, hoffset, rfl, rfl⟩ | hleaf, rfl⟩
          · exact absurd (Nat.le_add_right _ _) hright
          · exact ⟨k, hleaf, rfl⟩

/-- Leaf `k'` is where leaf `k` would be if the bag of the tree of `k` and all the
    later trees were taken for the tree of `k`. -/
def Aliased (nodes : List (Nat × Nat)) (k k' : Nat) : Prop :=
  ∃ earlier h m later, nodes = earlier ++ (h, m) :: later ∧ later ≠ [] ∧ Under 0 k h m ∧
    BaggedLeaf ((h, m) :: later) h (k % 2 ^ h) k'

theorem Aliased.cons {nodes : List (Nat × Nat)} {k k' : Nat} (haliased : Aliased nodes k k')
    (node : Nat × Nat) : Aliased (node :: nodes) k k' := by
  obtain ⟨earlier, h, m, later, rfl, hrest⟩ := haliased
  exact ⟨node :: earlier, h, m, later, rfl, hrest⟩

theorem Aliased.lt {nodes : List (Nat × Nat)} {k k' stop : Nat} (haliased : Aliased nodes k k')
    (hnodes : ∀ node ∈ nodes, 2 ^ node.1 * (node.2 + 1) ≤ stop) : k < stop := by
  obtain ⟨earlier, h, m, later, rfl, _, hunder, _⟩ := haliased
  exact (under_zero_iff.mp hunder).2.trans_le
    (hnodes (h, m) (List.mem_append_right _ List.mem_cons_self))

section Bag

variable {α : Type} {merge : α → α → α}

theorem bagPeaks_cons_inv {x root : α} {xs : List α} (hbag : bagPeaks merge (x :: xs) = some root) :
    xs = [] ∧ root = x ∨ xs ≠ [] ∧ ∃ inner, bagPeaks merge xs = some inner ∧ root = merge inner x := by
  rcases eq_or_ne xs [] with rfl | hne
  · rw [bagPeaks_singleton, Option.some.injEq] at hbag
    exact Or.inl ⟨rfl, hbag.symm⟩
  · obtain ⟨inner, hinner⟩ := exists_bagPeaks merge hne
    rw [bagPeaks_cons hinner, Option.some.injEq] at hbag
    exact Or.inr ⟨hne, inner, hinner, hbag.symm⟩

/-- As many peaks with the same bagged root are the same peaks. -/
theorem bagPeaks_inj (hinj : Function.Injective2 merge) {xs ys : List α} {root : α}
    (hlength : xs.length = ys.length) (hx : bagPeaks merge xs = some root)
    (hy : bagPeaks merge ys = some root) : xs = ys := by
  induction xs generalizing ys root with
  | nil => cases hx
  | cons x xs ih =>
    cases ys with
    | nil => cases hy
    | cons y ys =>
      have hlength' : xs.length = ys.length := Nat.succ_injective hlength
      obtain ⟨rfl, rfl⟩ | ⟨hne, inner, hinner, rfl⟩ := bagPeaks_cons_inv hx
      · obtain rfl := List.length_eq_zero_iff.mp hlength'.symm
        rw [bagPeaks_singleton, Option.some.injEq] at hy
        rw [hy]
      · obtain ⟨rfl, _⟩ | ⟨_, inner', hinner', hroot⟩ := bagPeaks_cons_inv hy
        · exact absurd (List.length_eq_zero_iff.mp hlength') hne
        · obtain ⟨rfl, rfl⟩ := hinj hroot
          rw [ih hlength' hinner hinner']

theorem Roots.of_no_parts {leaves : List (Nat × α)} {used roots : List α}
    (hroots : Roots merge [] leaves used roots) : leaves = [] := by
  cases hroots
  rfl

theorem Roots.of_no_roots {parts : List Share} {leaves : List (Nat × α)} {used : List α}
    (hroots : Roots merge parts leaves used []) : leaves = [] := by
  cases hroots
  rfl

/-- A group of leaves that folds to the value of a perfect tree has the leaves
    of that tree. -/
theorem Folds.leaves_of_perfect {P : α → Prop} {leafValue : Nat → α} {h m passes : Nat}
    (hinj : ∀ l r l' r', merge l r = merge l' r' → l = l' ∧ r = r')
    (hne : ∀ l r x, P x → merge l r ≠ x) (hleaf : ∀ k, P (leafValue k))
    {group : List (Nat × α)} (hgroup : ∀ leaf ∈ group, P leaf.2) {used : List α}
    (hfolds : Folds merge h m passes (group.map fun leaf => ((0, leaf.1), leaf.2)) used
      ((MerkleTree.perfect leafValue h m).value merge)) :
    ∀ leaf ∈ group, leaf.2 = leafValue leaf.1 := by
  intro leaf hmem
  have hentry := List.mem_map_of_mem (f := fun leaf : Nat × α => ((0, leaf.1), leaf.2)) hmem
  obtain ⟨s, hs, _, hvalue⟩ := hfolds.descend_tree (MerkleTree.perfect_all hleaf h m) hinj hne _ hentry
  have hunder := hfolds.under _ hentry
  rw [MerkleTree.eq_leaf_of_value hne (hgroup leaf hmem) hvalue, Nat.sub_zero, perfect_descend_leaf_iff] at hs
  have hplace : 2 ^ h * m + leaf.1 % 2 ^ h = leaf.1 := by
    obtain ⟨_, hm⟩ := hunder
    rw [Nat.sub_zero] at hm
    rw [← hm]
    exact Nat.div_add_mod _ _
  rw [hs.2, hplace]

/-- A group of leaves that folds to the bag of its peak and the later ones has
    leaves that these are aliased to. -/
theorem Folds.leaves_of_bag {P : α → Prop} {leafValue : Nat → α} {h m passes : Nat}
    (hinj : ∀ l r l' r', merge l r = merge l' r' → l = l' ∧ r = r')
    (hne : ∀ l r x, P x → merge l r ≠ x) (hleaf : ∀ k, P (leafValue k))
    {group : List (Nat × α)} (hgroup : ∀ leaf ∈ group, P leaf.2) {used : List α}
    {later : List (Nat × Nat)} (hlater : later ≠ [])
    (hfolds : Folds merge h m passes (group.map fun leaf => ((0, leaf.1), leaf.2)) used
      ((MerkleTree.bag (MerkleTree.perfect leafValue h m)
        (later.map fun node => MerkleTree.perfect leafValue node.1 node.2)).value merge)) :
    ∀ leaf ∈ group, ∃ k, Aliased ((h, m) :: later) leaf.1 k ∧ leaf.2 = leafValue k := by
  have hall : (MerkleTree.bag (MerkleTree.perfect leafValue h m)
      (later.map fun node => MerkleTree.perfect leafValue node.1 node.2)).All P := by
    refine MerkleTree.bag_all (MerkleTree.perfect_all hleaf h m) fun t ht => ?_
    obtain ⟨node, _, rfl⟩ := List.mem_map.mp ht
    exact MerkleTree.perfect_all hleaf _ _
  intro leaf hmem
  have hentry := List.mem_map_of_mem (f := fun leaf : Nat × α => ((0, leaf.1), leaf.2)) hmem
  obtain ⟨s, hs, _, hvalue⟩ := hfolds.descend_tree hall hinj hne _ hentry
  rw [MerkleTree.eq_leaf_of_value hne (hgroup leaf hmem) hvalue, Nat.sub_zero,
    ← MerkleTree.descend_mod] at hs
  obtain ⟨k, hk, hitem⟩ := (bag_descend_leaf_iff leafValue (h, m)
    (Nat.mod_lt _ (Nat.two_pow_pos h))).mp hs
  exact ⟨k, ⟨[], h, m, later, rfl, hlater, hfolds.under _ hentry, hk⟩, hitem⟩

/-- One item too many would have to be inside the last tree, and the leaves of
    that peak deeper than the tree is. -/
theorem Folds.merge_ne_perfect {P : α → Prop} {leafValue : Nat → α} {h m passes : Nat}
    (hinj : ∀ l r l' r', merge l r = merge l' r' → l = l' ∧ r = r')
    (hne : ∀ l r x, P x → merge l r ≠ x) (hleaf : ∀ k, P (leafValue k))
    {group : List (Nat × α)} (hgroup : group ≠ []) {used : List α} {inner x : α}
    (hfolds : Folds merge h m passes (group.map fun leaf => ((0, leaf.1), leaf.2)) used x) :
    merge inner x ≠ (MerkleTree.perfect leafValue h m).value merge := by
  intro hroot
  obtain ⟨⟨leaf, item⟩, hmem⟩ := List.exists_mem_of_ne_nil _ hgroup
  have hentry := List.mem_map_of_mem (f := fun leaf : Nat × α => ((0, leaf.1), leaf.2)) hmem
  cases h with
  | zero => exact hne _ _ _ (hleaf m) hroot
  | succ h =>
    rw [MerkleTree.perfect, MerkleTree.value] at hroot
    obtain ⟨_, rfl⟩ := hinj _ _ _ _ hroot
    obtain ⟨s, hs, _⟩ := hfolds.descend_tree (MerkleTree.perfect_all hleaf h _) hinj hne _ hentry
    rw [Nat.sub_zero, MerkleTree.perfect_descend_none (Nat.lt_succ_self h)] at hs
    cases hs

/-- Roots that bag to the bag of a forest. A leaf that went into them is the leaf
    of the forest at its index, unless its peak was the last with a root and the
    leaf stands for one that the bag has in its place. -/
theorem Roots.binds {P : α → Prop} {leafValue : Nat → α}
    (hinj : ∀ l r l' r', merge l r = merge l' r' → l = l' ∧ r = r')
    (hne : ∀ l r x, P x → merge l r ≠ x) (hleaf : ∀ k, P (leafValue k)) {front : List Share}
    {leaves : List (Nat × α)} {used roots : List α} (hroots : Roots merge front leaves used roots)
    (hleaves : ∀ leaf ∈ leaves, P leaf.2) {nodes later : List (Nat × Nat)}
    (hnodes : nodes = front.map (·.1) ++ later) {extra : List α} (hextra : later ≠ [] → extra = [])
    {root : α} (hbag : bagPeaks merge (roots ++ extra) = some root)
    (htrue : bagPeaks merge (nodes.map fun node =>
      (MerkleTree.perfect leafValue node.1 node.2).value merge) = some root) :
    ∀ leaf ∈ leaves, leaf.2 = leafValue leaf.1 ∨
      ∃ k, Aliased nodes leaf.1 k ∧ leaf.2 = leafValue k := by
  induction hroots generalizing nodes root with
  | nil => simp
  | @skip node parts leaves items roots x tail ih =>
    rw [List.map_cons, List.cons_append] at hnodes
    subst hnodes
    rw [List.cons_append] at hbag
    rw [List.map_cons] at htrue
    rcases bagPeaks_cons_inv hbag with ⟨hnil, _⟩ | ⟨_, inner, hinner, hroot⟩
    · -- The last root of all is not folded from leaves.
      obtain ⟨rfl, _⟩ := List.append_eq_nil_iff.mp hnil
      rw [tail.of_no_roots]
      simp
    · rcases bagPeaks_cons_inv htrue with ⟨hnil, _⟩ | ⟨_, inner', hinner', hroot'⟩
      · obtain ⟨hparts, _⟩ := List.append_eq_nil_iff.mp (List.map_eq_nil_iff.mp hnil)
        rw [List.map_eq_nil_iff] at hparts
        subst hparts
        rw [tail.of_no_parts]
        simp
      · obtain ⟨rfl, _⟩ := hinj _ _ _ _ (hroot.symm.trans hroot')
        intro leaf hmem
        refine (ih hleaves rfl hinner hinner' leaf hmem).imp_right ?_
        rintro ⟨k, haliased, hk⟩
        exact ⟨k, haliased.cons _, hk⟩
  | @take h m passes requests parts group leaves used items roots x hgroup hfolds hused tail ih =>
    have hfirst : ∀ leaf ∈ group, P leaf.2 := fun leaf hmem =>
      hleaves leaf (List.mem_append_left _ hmem)
    have hrest : ∀ leaf ∈ leaves, P leaf.2 := fun leaf hmem =>
      hleaves leaf (List.mem_append_right _ hmem)
    rw [List.map_cons, List.cons_append] at hnodes
    subst hnodes
    rw [List.cons_append] at hbag
    rw [List.map_cons] at htrue
    rcases bagPeaks_cons_inv hbag with ⟨hnil, rfl⟩ | ⟨hmore, inner, hinner, hroot⟩
    · obtain ⟨rfl, rfl⟩ := List.append_eq_nil_iff.mp hnil
      rw [tail.of_no_roots, List.append_nil]
      generalize parts.map (·.1) ++ later = rest at htrue ⊢
      cases rest with
      | nil =>
        rw [List.map_nil, bagPeaks_singleton, Option.some.injEq] at htrue
        rw [← htrue] at hfolds
        exact fun leaf hmem => Or.inl (hfolds.leaves_of_perfect hinj hne hleaf hfirst leaf hmem)
      | cons next rest =>
        -- The root of this peak is the bag of its tree and all the later ones.
        have hbagged := MerkleTree.bag_value merge (MerkleTree.perfect leafValue h m)
          ((next :: rest).map fun node => MerkleTree.perfect leafValue node.1 node.2)
        rw [List.map_cons, List.map_map] at hbagged
        have hx := Option.some.inj (htrue.symm.trans hbagged)
        rw [hx] at hfolds
        exact fun leaf hmem =>
          Or.inr (hfolds.leaves_of_bag hinj hne hleaf hfirst (List.cons_ne_nil _ _) leaf hmem)
    · rcases bagPeaks_cons_inv htrue with ⟨hnil, rfl⟩ | ⟨_, inner', hinner', hroot'⟩
      · exact absurd hroot.symm (hfolds.merge_ne_perfect hinj hne hleaf hgroup)
      · obtain ⟨rfl, rfl⟩ := hinj _ _ _ _ (hroot.symm.trans hroot')
        intro leaf hmem
        rcases List.mem_append.mp hmem with hmem | hmem
        · exact Or.inl (hfolds.leaves_of_perfect hinj hne hleaf hfirst leaf hmem)
        · refine (ih hrest rfl hinner hinner' leaf hmem).imp_right ?_
          rintro ⟨k, haliased, hk⟩
          exact ⟨k, haliased.cons _, hk⟩

end Bag

end forest
