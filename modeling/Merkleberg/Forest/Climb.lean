import Mathlib.Data.List.Forall2
import Merkleberg.Forest.Peaks

namespace forest

/-- Index of the other child of the same parent. -/
def sibling (k : Nat) : Nat := if k % 2 = 0 then k + 1 else k - 1

theorem sibling_cases (k : Nat) :
    k % 2 = 0 ∧ sibling k = k + 1 ∨ k % 2 = 1 ∧ sibling k + 1 = k := by
  unfold sibling
  split <;> omega

@[simp] theorem sibling_div_two (k : Nat) : sibling k / 2 = k / 2 := by
  have := sibling_cases k
  omega

/-- Where the sibling and the parent of a node are. A right child comes right
    before its parent, and of a left child the sibling does. -/
theorem nodePos_relatives (h k : Nat) :
    k % 2 = 0 ∧ nodePos h k + 2 ^ (h + 1) = nodePos (h + 1) (k / 2) ∧
        nodePos h (sibling k) + 1 = nodePos (h + 1) (k / 2) ∨
      k % 2 = 1 ∧ nodePos h k + 1 = nodePos (h + 1) (k / 2) ∧
        nodePos h (sibling k) + 2 ^ (h + 1) = nodePos (h + 1) (k / 2) := by
  have hleft := nodePos_left h (k / 2)
  have hright := nodePos_right h (k / 2)
  obtain ⟨heven, hk⟩ | ⟨hodd, hk⟩ := sibling_cases k
  · rw [show 2 * (k / 2) = k by omega] at hleft hright
    exact Or.inl ⟨heven, hleft, hk ▸ hright⟩
  · rw [show 2 * (k / 2) + 1 = k by omega] at hright
    rw [show 2 * (k / 2) = sibling k by omega] at hleft
    exact Or.inr ⟨hodd, hright, hleft⟩

/-- A subtree of height `h` ends within `2 ^ (h + 1) - 2` positions of its first leaf. -/
theorem Under.peak_le {g m h k : Nat} (h' : Under g m h k) :
    nodePos h k + 2 ^ (g + 1) ≤ nodePos g m + 2 ^ (h + 1) := by
  induction hlevels : h - g generalizing g m with
  | zero =>
    obtain ⟨rfl, rfl⟩ := h'.eq_of_le (by omega)
    exact Nat.le_refl _
  | succ levels ih =>
    have hparent := ih (h'.to_parent (by omega)) (by omega)
    have hup := nodePos_relatives g m
    have hdouble : 2 ^ (g + 1 + 1) = 2 * 2 ^ (g + 1) := pow_succ' 2 (g + 1)
    have hpos := Nat.two_pow_pos (g + 1)
    omega

/-- The positions from the first leaf of a node up to the node are those of the
    nodes under it. -/
theorem exists_under {p h k : Nat} (hle : p ≤ nodePos h k) (hspan : nodePos h k + 2 ≤ p + 2 ^ (h + 1)) :
    ∃ g m, nodePos g m = p ∧ Under g m h k := by
  obtain ⟨g, m, rfl⟩ := exists_nodePos p
  have hbounds := nodePos_bounds h k
  have hstop : 2 ^ g * (m + 1) ≤ 2 ^ h * (k + 1) := nodePos_lt_nodeCount_iff.mp (by omega)
  have hstart : 2 ^ h * k < 2 ^ g * (m + 1) := by
    rw [← Nat.not_le, ← nodePos_lt_nodeCount_iff]
    rw [nodePos.eq_def h k] at hspan
    omega
  refine ⟨g, m, rfl, ?_⟩
  rcases Nat.le_total g h with hlow | hhigh
  · have hsplit : 2 ^ h = 2 ^ g * 2 ^ (h - g) := by rw [← Nat.pow_add, Nat.add_sub_cancel' hlow]
    rw [hsplit, Nat.mul_assoc] at hstop hstart
    have hfirst := Nat.lt_of_mul_lt_mul_left hstart
    have hlast := Nat.le_of_mul_le_mul_left hstop (Nat.two_pow_pos g)
    refine ⟨hlow, Nat.div_eq_of_lt_le ?_ ?_⟩
    · rw [Nat.mul_comm]
      exact Nat.lt_succ_iff.mp hfirst
    · rw [Nat.mul_comm]
      exact hlast
  · -- A higher node that ends with the last leaf comes after this one.
    have hsplit : 2 ^ g = 2 ^ h * 2 ^ (g - h) := by rw [← Nat.pow_add, Nat.add_sub_cancel' hhigh]
    rw [hsplit, Nat.mul_assoc] at hstop hstart
    have hfirst := Nat.lt_of_mul_lt_mul_left hstart
    have hlast := Nat.le_of_mul_le_mul_left hstop (Nat.two_pow_pos h)
    have hpos := Nat.two_pow_pos (g - h)
    have hwidth : 2 ^ (g - h) * (m + 1) = 2 ^ (g - h) * m + 2 ^ (g - h) := Nat.mul_succ _ _
    have hbelow : Under h k g m := by
      refine ⟨hhigh, Nat.div_eq_of_lt_le ?_ ?_⟩
      · rw [Nat.mul_comm]
        omega
      · rw [Nat.mul_comm]
        omega
    obtain ⟨rfl, rfl⟩ := nodePos_inj (Nat.le_antisymm hle hbelow.nodePos_le)
    exact under_refl g m

/-- The sibling of a node of the forest is in the forest when the parent is. -/
theorem sibling_inside_iff {n h k : Nat} (hinside : 2 ^ h * (k + 1) ≤ n) :
    2 ^ h * (sibling k + 1) ≤ n ↔ 2 ^ (h + 1) * (k / 2 + 1) ≤ n := by
  rw [pow_succ, Nat.mul_assoc]
  obtain ⟨heven, hk⟩ | ⟨hodd, hk⟩ := sibling_cases k
  · rw [show 2 * (k / 2 + 1) = sibling k + 1 by omega]
  · rw [show 2 * (k / 2 + 1) = k + 1 by omega]
    have hle := Nat.mul_le_mul_left (2 ^ h) (show sibling k + 1 ≤ k + 1 by omega)
    omega

/-- Siblings of a node and of its ancestors, over a number of levels. -/
def siblings : Nat → Nat → Nat → List (Nat × Nat)
  | 0, _, _ => []
  | levels + 1, h, k => (h, sibling k) :: siblings levels (h + 1) (k / 2)

/-- The siblings on the way up to a node lie under it. -/
theorem siblings_under {levels h k H K : Nat} (hunder : Under h k H K) (hlevels : h + levels ≤ H) :
    ∀ node ∈ siblings levels h k, Under node.1 node.2 H K := by
  induction levels generalizing h k with
  | zero => simp [siblings]
  | succ levels ih =>
    have hparent := hunder.to_parent (by omega)
    have hsibling : Under h (sibling k) H K := by
      refine Under.parent ?_
      rwa [sibling_div_two]
    exact List.forall_mem_cons.mpr ⟨hsibling, ih hparent (by omega)⟩

/-- The way up goes on from the ancestor it has reached. -/
theorem siblings_append (levels more h k : Nat) :
    siblings (levels + more) h k =
      siblings levels h k ++ siblings more (h + levels) (k / 2 ^ levels) := by
  induction levels generalizing h k with
  | zero => rw [Nat.zero_add, siblings, List.nil_append, Nat.add_zero, Nat.pow_zero, Nat.div_one]
  | succ levels ih =>
    rw [Nat.succ_add, siblings, siblings, ih, List.cons_append, Nat.div_div_eq_div_mul, ← pow_succ',
      Nat.add_right_comm, Nat.add_assoc]

/-- Working off a queue of nodes under `(H, K)` in the given number of passes.
    Each pass takes the first node, and its sibling when that comes next, and
    puts their parent at the end. The siblings that were not in the queue are
    listed in the order in which they are requested. -/
inductive Climbs (H K : Nat) : Nat → List (Nat × Nat) → List (Nat × Nat) → Prop where
  | done : Climbs H K 0 [(H, K)] []
  | pair {h k passes : Nat} {rest requests : List (Nat × Nat)} (hlt : h < H)
      (hunder : Under h k H K)
      (next : Climbs H K passes (rest ++ [(h + 1, k / 2)]) requests) :
      Climbs H K (passes + 1) ((h, k) :: (h, sibling k) :: rest) requests
  | request {h k passes : Nat} {rest requests : List (Nat × Nat)} (hlt : h < H)
      (hunder : Under h k H K) (habsent : rest.head? ≠ some (h, sibling k))
      (next : Climbs H K passes (rest ++ [(h + 1, k / 2)]) requests) :
      Climbs H K (passes + 1) ((h, k) :: rest) ((h, sibling k) :: requests)

/-- A queue that begins with the root has come to its end. -/
theorem Climbs.eq_nil_of_root {H K passes : Nat} {rest requests : List (Nat × Nat)}
    (hclimbs : Climbs H K passes ((H, K) :: rest) requests) : rest = [] := by
  cases hclimbs with
  | done => rfl
  | pair hlt => omega
  | request hlt => omega

/-- What is requested lies under the root. -/
theorem Climbs.requests_under {H K passes : Nat} {queue requests : List (Nat × Nat)}
    (hclimbs : Climbs H K passes queue requests) : ∀ node ∈ requests, Under node.1 node.2 H K := by
  induction hclimbs with
  | done => simp
  | pair hlt hunder next ih => exact ih
  | request hlt hunder habsent next ih =>
    refine List.forall_mem_cons.mpr ⟨Under.parent ?_, ih⟩
    rw [sibling_div_two]
    exact hunder.to_parent hlt

/-- A root of height zero is its only leaf, and nothing is requested. -/
theorem Climbs.of_height_zero {K passes : Nat} {queue requests : List (Nat × Nat)}
    (hclimbs : Climbs 0 K passes queue requests) : queue = [(0, K)] ∧ requests = [] := by
  cases hclimbs with
  | done => exact ⟨rfl, rfl⟩
  | pair hlt => omega
  | request hlt => omega

/-- The queue while one level is worked off: its nodes that are left, and then
    the parents found so far. -/
structure LevelQueue (H K h : Nat) (nodes parents : List Nat) : Prop where
  sorted : nodes.Pairwise (· < ·)
  sorted_parents : parents.Pairwise (· < ·)
  before : ∀ parent ∈ parents, ∀ k ∈ nodes, parent < k / 2
  under : ∀ k ∈ nodes, Under h k H K
  under_parents : ∀ k ∈ parents, Under (h + 1) k H K

namespace LevelQueue

variable {H K h k : Nat} {nodes parents : List Nat}

/-- The parents are the next level. -/
theorem up (q : LevelQueue H K h [] parents) : LevelQueue H K (h + 1) parents [] where
  sorted := q.sorted_parents
  sorted_parents := .nil
  before := by simp
  under := q.under_parents
  under_parents := by simp

/-- Taking the first node, and perhaps more, up to those right of its parent. -/
theorem step (q : LevelQueue H K h (k :: nodes) parents) (hlt : h < H) {rest : List Nat}
    (hsub : rest.Sublist nodes) (hright : ∀ k' ∈ rest, k / 2 < k' / 2) :
    LevelQueue H K h rest (parents ++ [k / 2]) where
  sorted := (List.pairwise_cons.mp q.sorted).2.sublist hsub
  sorted_parents := by
    rw [List.pairwise_append]
    refine ⟨q.sorted_parents, List.pairwise_singleton _ _, ?_⟩
    intro parent hparent k' hk'
    rw [List.mem_singleton.mp hk']
    exact q.before parent hparent k List.mem_cons_self
  before := by
    intro parent hparent k' hk'
    rcases List.mem_append.mp hparent with hold | hnew
    · exact q.before parent hold k' (List.mem_cons_of_mem _ (hsub.subset hk'))
    · rw [List.mem_singleton.mp hnew]
      exact hright k' hk'
  under k' hk' := q.under k' (List.mem_cons_of_mem _ (hsub.subset hk'))
  under_parents := by
    intro k' hk'
    rcases List.mem_append.mp hk' with hold | hnew
    · exact q.under_parents k' hold
    · rw [List.mem_singleton.mp hnew]
      exact (q.under k List.mem_cons_self).to_parent hlt

theorem lt_of_mem (q : LevelQueue H K h (k :: nodes) parents) : ∀ k' ∈ nodes, k < k' :=
  (List.pairwise_cons.mp q.sorted).1

/-- At the top there is one node left. -/
theorem top (q : LevelQueue H K H (k :: nodes) parents) : k = K ∧ nodes = [] ∧ parents = [] := by
  have htop (k' : Nat) (hk' : k' ∈ k :: nodes) : k' = K := by
    have := (q.under k' hk').2
    simpa using this
  refine ⟨htop k List.mem_cons_self, ?_, ?_⟩
  · refine List.eq_nil_iff_forall_not_mem.mpr fun k' hk' => ?_
    have := q.lt_of_mem k' hk'
    have := htop k' (List.mem_cons_of_mem _ hk')
    have := htop k List.mem_cons_self
    omega
  · refine List.eq_nil_iff_forall_not_mem.mpr fun k' hk' => ?_
    have := (q.under_parents k' hk').1
    omega

/-- Behind two siblings the nodes are right of their parent. -/
theorem right_of_pair (q : LevelQueue H K h (k :: sibling k :: nodes) parents) :
    ∀ k' ∈ nodes, k / 2 < k' / 2 := by
  intro k' hk'
  have hnext := q.lt_of_mem (sibling k) List.mem_cons_self
  have hlater := (List.pairwise_cons.mp (List.pairwise_cons.mp q.sorted).2).1 k' hk'
  have hk := sibling_cases k
  omega

/-- Behind a node alone they are, too: only its right sibling is under the same
    parent, and it would come next. -/
theorem right_of_absent (q : LevelQueue H K h (k :: nodes) parents)
    (habsent : nodes.head? ≠ some (sibling k)) : ∀ k' ∈ nodes, k / 2 < k' / 2 := by
  intro k' hk'
  have hlarger := q.lt_of_mem k' hk'
  have hk := sibling_cases k
  by_contra hsame
  have heq : k' = sibling k := by omega
  apply habsent
  cases nodes with
  | nil => simp at hk'
  | cons first rest =>
    have hfirst := q.lt_of_mem first List.mem_cons_self
    rcases List.mem_cons.mp hk' with rfl | hlater
    · rw [heq, List.head?_cons]
    · have := (List.pairwise_cons.mp (List.pairwise_cons.mp q.sorted).2).1 k' hlater
      omega

end LevelQueue

/-- Every queue of one level and the parents above it is worked off, in at most
    one pass for each level that each of its nodes is below the root. -/
theorem LevelQueue.exists_climbs {H K h : Nat} {nodes parents : List Nat}
    (q : LevelQueue H K h nodes parents) (hne : nodes ++ parents ≠ []) :
    ∃ passes requests,
      Climbs H K passes (nodes.map (h, ·) ++ parents.map (h + 1, ·)) requests ∧
        passes ≤ (H - h) * nodes.length + (H - (h + 1)) * parents.length := by
  cases hnodes : nodes with
  | nil =>
    subst hnodes
    rw [List.nil_append] at hne
    have hlt : h < H := by
      obtain ⟨parent, hparent⟩ := List.exists_mem_of_ne_nil _ hne
      exact (q.under_parents parent hparent).1
    obtain ⟨passes, requests, hclimbs, hle⟩ := q.up.exists_climbs (by simpa using hne)
    refine ⟨passes, requests, by simpa using hclimbs, ?_⟩
    rw [List.length_nil, Nat.mul_zero] at *
    omega
  | cons k rest =>
    subst hnodes
    have hle := (q.under k List.mem_cons_self).1
    rcases Nat.lt_or_eq_of_le hle with hlt | rfl
    · have hbudget (count : Nat) : (H - h) * count + (H - (h + 1)) * (parents.length + 1) + 1 ≤
          (H - h) * (count + 1) + (H - (h + 1)) * parents.length := by
        rw [Nat.mul_succ, Nat.mul_succ]
        omega
      by_cases hpair : rest.head? = some (sibling k)
      · -- The sibling comes next, so it is the right one.
        obtain ⟨rest', rfl⟩ : ∃ rest', rest = sibling k :: rest' := by
          cases rest with
          | nil => simp at hpair
          | cons k' rest' => exact ⟨rest', by simpa using hpair⟩
        obtain ⟨passes, requests, hclimbs, hpasses⟩ :=
          (q.step hlt (List.sublist_cons_self _ _) q.right_of_pair).exists_climbs (by simp)
        refine ⟨passes + 1, requests, ?_, ?_⟩
        · refine .pair hlt (q.under k List.mem_cons_self) ?_
          simpa using hclimbs
        · have := hbudget rest'.length
          have := Nat.le_mul_of_pos_right (H - h) (Nat.succ_pos rest'.length)
          simp only [List.length_cons, List.length_append, List.length_nil, Nat.zero_add] at *
          rw [Nat.mul_succ (H - h) (rest'.length + 1)]
          omega
      · obtain ⟨passes, requests, hclimbs, hpasses⟩ :=
          (q.step hlt (List.Sublist.refl _) (q.right_of_absent hpair)).exists_climbs (by simp)
        refine ⟨passes + 1, (h, sibling k) :: requests, ?_, ?_⟩
        · refine .request hlt (q.under k List.mem_cons_self) ?_ (by simpa using hclimbs)
          cases rest with
          | nil => cases parents <;> simp
          | cons first rest' => simpa using hpair
        · have := hbudget rest.length
          simp only [List.length_cons, List.length_append, List.length_nil, Nat.zero_add] at *
          omega
    · obtain ⟨rfl, rfl, rfl⟩ := q.top
      exact ⟨0, [], .done, Nat.zero_le _⟩
termination_by (H - h, nodes.length)

/-- Leaves under a node, in ascending order, are worked off. -/
theorem exists_climbs {H K : Nat} {leaves : List Nat} (hsorted : leaves.Pairwise (· < ·))
    (hunder : ∀ k ∈ leaves, Under 0 k H K) (hne : leaves ≠ []) :
    ∃ passes requests, Climbs H K passes (leaves.map (0, ·)) requests ∧
      passes ≤ H * leaves.length := by
  have q : LevelQueue H K 0 leaves [] :=
    ⟨hsorted, .nil, by simp, hunder, by simp⟩
  obtain ⟨passes, requests, hclimbs, hle⟩ := q.exists_climbs (by simpa using hne)
  exact ⟨passes, requests, by simpa using hclimbs, by simpa using hle⟩

section Folds

variable {α : Type}

/-- Value of a parent, from the values of a child of index `k` and its sibling. -/
def mergeAt (merge : α → α → α) (k : Nat) (x y : α) : α := if k % 2 = 1 then merge y x else merge x y

/-- Working off a queue of nodes with their values. The items are the values of
    the requested siblings, in the order of the requests. -/
inductive Folds (merge : α → α → α) (H K : Nat) :
    Nat → List ((Nat × Nat) × α) → List α → α → Prop where
  | done (x : α) : Folds merge H K 0 [((H, K), x)] [] x
  | pair {h k passes : Nat} {x y root : α} {rest : List ((Nat × Nat) × α)} {items : List α}
      (hlt : h < H) (hunder : Under h k H K)
      (next : Folds merge H K passes (rest ++ [((h + 1, k / 2), mergeAt merge k x y)]) items root) :
      Folds merge H K (passes + 1) (((h, k), x) :: ((h, sibling k), y) :: rest) items root
  | request {h k passes : Nat} {x y root : α} {rest : List ((Nat × Nat) × α)} {items : List α}
      (hlt : h < H) (hunder : Under h k H K)
      (habsent : rest.head?.map (·.1) ≠ some (h, sibling k))
      (next : Folds merge H K passes (rest ++ [((h + 1, k / 2), mergeAt merge k x y)]) items root) :
      Folds merge H K (passes + 1) (((h, k), x) :: rest) (y :: items) root

variable (merge : α → α → α) {H K passes : Nat}

/-- As many items as there are requests fold any values into a root. -/
theorem Climbs.exists_folds {queue requests : List (Nat × Nat)} (hclimbs : Climbs H K passes queue requests)
    {entries : List ((Nat × Nat) × α)} (hentries : entries.map (·.1) = queue) {items : List α}
    (hitems : items.length = requests.length) : ∃ root, Folds merge H K passes entries items root := by
  induction hclimbs generalizing entries items with
  | done =>
    obtain ⟨⟨node, x⟩, rfl, rfl⟩ := List.map_eq_singleton_iff.mp hentries
    rw [List.length_eq_zero_iff.mp hitems]
    exact ⟨x, .done x⟩
  | @pair h k passes rest requests hlt hunder next ih =>
    obtain ⟨⟨node, x⟩, tail, rfl, rfl, htail⟩ := List.map_eq_cons_iff.mp hentries
    obtain ⟨⟨node, y⟩, entries, rfl, rfl, rfl⟩ := List.map_eq_cons_iff.mp htail
    have hentries : (entries ++ [((h + 1, k / 2), mergeAt merge k x y)]).map (·.1) =
        entries.map (·.1) ++ [(h + 1, k / 2)] := by simp
    obtain ⟨root, hfolds⟩ := ih hentries hitems
    exact ⟨root, .pair hlt hunder hfolds⟩
  | @request h k passes rest requests hlt hunder habsent next ih =>
    obtain ⟨⟨node, x⟩, entries, rfl, rfl, rfl⟩ := List.map_eq_cons_iff.mp hentries
    cases items with
    | nil => simp at hitems
    | cons y items =>
      have hentries : (entries ++ [((h + 1, k / 2), mergeAt merge k x y)]).map (·.1) =
          entries.map (·.1) ++ [(h + 1, k / 2)] := by simp
      obtain ⟨root, hfolds⟩ := ih hentries (by simpa using hitems)
      exact ⟨root, .request hlt hunder (by simpa using habsent) hfolds⟩

/-- The value of a parent is merged from those of its children, whichever of them
    one starts from. -/
theorem mergeAt_value {value : Nat → Nat → α} {h k : Nat}
    (hvalue : value (h + 1) (k / 2) = merge (value h (2 * (k / 2))) (value h (2 * (k / 2) + 1))) :
    mergeAt merge k (value h k) (value h (sibling k)) = value (h + 1) (k / 2) := by
  rw [hvalue, mergeAt]
  obtain ⟨heven, hk⟩ | ⟨hodd, hk⟩ := sibling_cases k
  · rw [if_neg (by omega), hk, show 2 * (k / 2) = k by omega]
  · rw [if_pos hodd, show 2 * (k / 2) = sibling k by omega, hk]

theorem mergeAt_inj {merge : α → α → α} (hinj : Function.Injective2 merge) {k : Nat} {x y x' y' : α}
    (heq : mergeAt merge k x y = mergeAt merge k x' y') : x = x' ∧ y = y' := by
  unfold mergeAt at heq
  split at heq
  · exact (hinj heq).symm
  · exact hinj heq

/-- With the values of a tree, the items are those of the requested nodes and
    the root is that of the tree. The values only need to form a tree above the
    nodes of the queue. -/
theorem Climbs.folds_values {queue requests : List (Nat × Nat)} (hclimbs : Climbs H K passes queue requests)
    (value : Nat → Nat → α)
    (hvalue : ∀ h k, h < H → (∃ node ∈ queue, Under node.1 node.2 (h + 1) k) →
      value (h + 1) k = merge (value h (2 * k)) (value h (2 * k + 1))) :
    Folds merge H K passes (queue.map fun node => (node, value node.1 node.2))
      (requests.map fun node => value node.1 node.2) (value H K) := by
  have hparent {h k : Nat} {queue : List (Nat × Nat)} (hlt : h < H) (hmem : (h, k) ∈ queue)
      (hqueue : ∀ h k, h < H → (∃ node ∈ queue, Under node.1 node.2 (h + 1) k) →
        value (h + 1) k = merge (value h (2 * k)) (value h (2 * k + 1))) :
      mergeAt merge k (value h k) (value h (sibling k)) = value (h + 1) (k / 2) :=
    mergeAt_value merge (hqueue h (k / 2) hlt ⟨(h, k), hmem, (under_refl (h + 1) (k / 2)).parent⟩)
  have hnext {h k : Nat} {rest queue : List (Nat × Nat)} (hmem : (h, k) ∈ queue)
      (hrest : ∀ node ∈ rest, node ∈ queue)
      (hqueue : ∀ h k, h < H → (∃ node ∈ queue, Under node.1 node.2 (h + 1) k) →
        value (h + 1) k = merge (value h (2 * k)) (value h (2 * k + 1))) :
      ∀ h' k', h' < H → (∃ node ∈ rest ++ [(h + 1, k / 2)], Under node.1 node.2 (h' + 1) k') →
        value (h' + 1) k' = merge (value h' (2 * k')) (value h' (2 * k' + 1)) := by
    rintro h' k' hlt ⟨node, hnode, hunder⟩
    rcases List.mem_append.mp hnode with hold | hnew
    · exact hqueue h' k' hlt ⟨node, hrest node hold, hunder⟩
    · rw [List.mem_singleton.mp hnew] at hunder
      exact hqueue h' k' hlt ⟨(h, k), hmem, hunder.parent⟩
  induction hclimbs with
  | done => exact .done _
  | @pair h k passes rest requests hlt hunder next ih =>
    refine .pair hlt hunder ?_
    rw [hparent hlt List.mem_cons_self hvalue]
    have hfolds := ih (hnext List.mem_cons_self (fun node hnode =>
      List.mem_cons_of_mem _ (List.mem_cons_of_mem _ hnode)) hvalue)
    simpa using hfolds
  | @request h k passes rest requests hlt hunder habsent next ih =>
    refine .request hlt hunder (by simpa using habsent) ?_
    rw [hparent hlt List.mem_cons_self hvalue]
    have hfolds := ih (hnext List.mem_cons_self (fun node hnode =>
      List.mem_cons_of_mem _ hnode) hvalue)
    simpa using hfolds

variable {merge}

/-- What holds of a root and passes from each parent to its two children holds
    of every entry of the queue. -/
theorem Folds.descend {P : Nat → Nat → α → Prop}
    (hdown : ∀ h k x y, h < H → P (h + 1) (k / 2) (mergeAt merge k x y) → P h k x ∧ P h (sibling k) y)
    {entries : List ((Nat × Nat) × α)} {items : List α} {root : α}
    (hfolds : Folds merge H K passes entries items root) (hroot : P H K root) :
    ∀ entry ∈ entries, P entry.1.1 entry.1.2 entry.2 := by
  induction hfolds with
  | done x => simpa using hroot
  | @pair h k passes x y root rest items hlt hunder next ih =>
    have hentries := ih hroot
    obtain ⟨hx, hy⟩ := hdown h k x y hlt (hentries _ (List.mem_append_right _ (List.mem_singleton_self _)))
    intro entry hentry
    rcases List.mem_cons.mp hentry with rfl | hentry
    · exact hx
    · rcases List.mem_cons.mp hentry with rfl | hentry
      · exact hy
      · exact hentries entry (List.mem_append_left _ hentry)
  | @request h k passes x y root rest items hlt hunder habsent next ih =>
    have hentries := ih hroot
    obtain ⟨hx, _⟩ := hdown h k x y hlt (hentries _ (List.mem_append_right _ (List.mem_singleton_self _)))
    intro entry hentry
    rcases List.mem_cons.mp hentry with rfl | hentry
    · exact hx
    · exact hentries entry (List.mem_append_left _ hentry)

/-- The items of a fold are, one by one, for the nodes that its climb requests,
    and what passes from each parent to its children holds of them too. -/
theorem Climbs.folds_items {P : Nat → Nat → α → Prop}
    (hdown : ∀ h k x y, h < H → P (h + 1) (k / 2) (mergeAt merge k x y) → P h k x ∧ P h (sibling k) y)
    {queue requests : List (Nat × Nat)} (hclimbs : Climbs H K passes queue requests)
    {entries : List ((Nat × Nat) × α)} (hentries : entries.map (·.1) = queue) {items : List α} {root : α}
    (hfolds : Folds merge H K passes entries items root) (hroot : P H K root) :
    List.Forall₂ (fun node item => P node.1 node.2 item) requests items := by
  induction hclimbs generalizing entries items with
  | done =>
    obtain ⟨⟨node, x⟩, rfl, rfl⟩ := List.map_eq_singleton_iff.mp hentries
    cases hfolds
    exact .nil
  | @pair h k passes rest requests hlt hunder next ih =>
    obtain ⟨⟨node, x⟩, tail, rfl, rfl, htail⟩ := List.map_eq_cons_iff.mp hentries
    obtain ⟨⟨node, y⟩, entries, rfl, rfl, rfl⟩ := List.map_eq_cons_iff.mp htail
    cases hfolds with
    | pair _ _ hnext => exact ih (by simp) hnext
    | request _ _ habsent hnext => exact absurd rfl habsent
  | @request h k passes rest requests hlt hunder habsent next ih =>
    obtain ⟨⟨node, x⟩, entries, rfl, rfl, rfl⟩ := List.map_eq_cons_iff.mp hentries
    cases hfolds with
    | pair _ _ hnext => exact absurd rfl habsent
    | request _ _ _ hnext =>
      have hparent := hnext.descend hdown hroot _ (List.mem_append_right _ (List.mem_singleton_self _))
      exact .cons (hdown _ _ _ _ hlt hparent).2 (ih (by simp) hnext)

/-- When a fold arrives at the root of a tree, the entries and the items are the
    values of their nodes in it. -/
theorem Climbs.folds_of_value (hinj : Function.Injective2 merge) {value : Nat → Nat → α}
    (hvalue : ∀ h k, value (h + 1) k = merge (value h (2 * k)) (value h (2 * k + 1)))
    {queue requests : List (Nat × Nat)} (hclimbs : Climbs H K passes queue requests)
    {entries : List ((Nat × Nat) × α)} (hentries : entries.map (·.1) = queue) {items : List α}
    (hfolds : Folds merge H K passes entries items (value H K)) :
    (∀ entry ∈ entries, entry.2 = value entry.1.1 entry.1.2) ∧
      items = requests.map fun node => value node.1 node.2 := by
  have hdown : ∀ h k x y, h < H → mergeAt merge k x y = value (h + 1) (k / 2) →
      x = value h k ∧ y = value h (sibling k) := by
    intro h k x y _ hparent
    rw [← mergeAt_value merge (hvalue h (k / 2))] at hparent
    exact mergeAt_inj hinj hparent
  have hitems := hclimbs.folds_items (P := fun h k x => x = value h k) hdown hentries hfolds rfl
  refine ⟨hfolds.descend (P := fun h k x => x = value h k) hdown rfl, ?_⟩
  rw [← List.forall₂_eq_eq_eq]
  exact List.forall₂_map_right_iff.mpr (List.Forall₂.flip hitems)

end Folds

end forest
