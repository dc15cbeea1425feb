import Mathlib.Data.List.TakeWhile
import Merkleberg.Forest.Climb
import Merkleberg.Forest.Tree

namespace forest

theorem under_zero_iff {k h m : Nat} : Under 0 k h m ↔ 2 ^ h * m ≤ k ∧ k < 2 ^ h * (m + 1) := by
  have hpos := Nat.two_pow_pos h
  rw [Under, Nat.sub_zero, Nat.div_eq_iff hpos, Nat.mul_comm m, Nat.mul_succ]
  omega

/-- A peak, with the siblings that are requested below it, or none when no leaf
    under it is asked for. -/
abbrev Share := (Nat × Nat) × Option (List (Nat × Nat))

/-- Leaves in ascending order split along the peaks, with what each peak
    requests and the leaves that are left over. -/
inductive Sections : List (Nat × Nat) → List Nat → List Share → List Nat → Prop where
  | nil (left : List Nat) : Sections [] left [] left
  | skip {h m : Nat} {nodes : List (Nat × Nat)} {leaves left : List Nat} {parts : List Share}
      (hafter : ∀ k ∈ leaves, 2 ^ h * (m + 1) ≤ k) (tail : Sections nodes leaves parts left) :
      Sections ((h, m) :: nodes) leaves (((h, m), none) :: parts) left
  | take {h m passes : Nat} {nodes requests : List (Nat × Nat)} {group leaves left : List Nat}
      {parts : List Share} (hne : group ≠ []) (hunder : ∀ k ∈ group, Under 0 k h m)
      (hclimbs : Climbs h m passes (group.map (0, ·)) requests)
      (hpasses : passes ≤ h * group.length) (hafter : ∀ k ∈ leaves, 2 ^ h * (m + 1) ≤ k)
      (tail : Sections nodes leaves parts left) :
      Sections ((h, m) :: nodes) (group ++ leaves) (((h, m), some requests) :: parts) left

theorem le_of_mem_dropWhile (stop : Nat) {leaves : List Nat} (hsorted : leaves.Pairwise (· < ·)) :
    ∀ k ∈ leaves.dropWhile (· < stop), stop ≤ k := by
  intro k hk
  induction leaves with
  | nil => simp at hk
  | cons first rest ih =>
    rw [List.dropWhile_cons] at hk
    split at hk
    · exact ih (List.pairwise_cons.mp hsorted).2 hk
    · rename_i hfirst
      rw [decide_eq_true_eq] at hfirst
      rcases List.mem_cons.mp hk with rfl | hlater
      · omega
      · have := (List.pairwise_cons.mp hsorted).1 k hlater
        omega

/-- Ascending leaves split along every row of trees, and only the ones past the
    last tree are left over. -/
theorem exists_sections {start stop : Nat} {nodes : List (Nat × Nat)} (htiles : Tiles start nodes stop)
    {leaves : List Nat} (hsorted : leaves.Pairwise (· < ·)) (hstart : ∀ k ∈ leaves, start ≤ k) :
    ∃ parts left, Sections nodes leaves parts left ∧ left <:+ leaves ∧ ∀ k ∈ left, stop ≤ k := by
  induction htiles generalizing leaves with
  | nil start => exact ⟨[], leaves, .nil leaves, List.suffix_refl _, hstart⟩
  | @cons h m stop nodes tail ih =>
    have hsplit := List.takeWhile_append_dropWhile (p := fun k => decide (k < 2 ^ h * (m + 1)))
      (l := leaves)
    have hafter := le_of_mem_dropWhile (2 ^ h * (m + 1)) hsorted
    obtain ⟨parts, left, hsections, hsuffix, hleft⟩ :=
      ih (hsorted.sublist (List.dropWhile_sublist _)) hafter
    by_cases hnil : leaves.takeWhile (fun k => decide (k < 2 ^ h * (m + 1))) = []
    · rw [hnil, List.nil_append] at hsplit
      rw [hsplit] at hsections hafter hsuffix
      exact ⟨_, left, .skip hafter hsections, hsuffix, hleft⟩
    · have hunder : ∀ k ∈ leaves.takeWhile (fun k => decide (k < 2 ^ h * (m + 1))),
          Under 0 k h m := by
        intro k hk
        have hbelow := List.mem_takeWhile_imp hk
        rw [decide_eq_true_eq] at hbelow
        exact under_zero_iff.mpr ⟨hstart k ((List.takeWhile_sublist _).subset hk), hbelow⟩
      obtain ⟨passes, requests, hclimbs, hpasses⟩ :=
        exists_climbs (hsorted.sublist (List.takeWhile_sublist _)) hunder hnil
      have htake := Sections.take hnil hunder hclimbs hpasses hafter hsections
      rw [hsplit] at htake
      exact ⟨_, left, htake, hsuffix.trans (List.dropWhile_suffix _), hleft⟩

theorem Sections.nodes_eq {nodes : List (Nat × Nat)} {leaves left : List Nat} {parts : List Share}
    (hsections : Sections nodes leaves parts left) : parts.map (·.1) = nodes := by
  induction hsections with
  | nil => rfl
  | skip hafter tail ih => simp [ih]
  | take hne hunder hclimbs hpasses hafter tail ih => simp [ih]

theorem Sections.length_eq {nodes : List (Nat × Nat)} {leaves left : List Nat} {parts : List Share}
    (hsections : Sections nodes leaves parts left) : parts.length = nodes.length := by
  rw [← hsections.nodes_eq, List.length_map]

/-- Without leaves nothing is requested and nothing is left over. -/
theorem Sections.of_no_leaves {nodes : List (Nat × Nat)} {leaves left : List Nat}
    {parts : List Share} (hsections : Sections nodes leaves parts left) (hnil : leaves = []) :
    (∀ part ∈ parts, part.2 = none) ∧ left = [] := by
  induction hsections with
  | nil left => exact ⟨by simp, hnil⟩
  | skip hafter tail ih =>
    obtain ⟨hparts, hleft⟩ := ih hnil
    exact ⟨by simpa using hparts, hleft⟩
  | take hne hunder hclimbs hpasses hafter tail ih =>
    exact absurd (List.append_eq_nil_iff.mp hnil).1 hne

/-- Where nothing is requested there are no leaves but those left over. -/
theorem Sections.no_leaves {nodes : List (Nat × Nat)} {leaves left : List Nat} {parts : List Share}
    (hsections : Sections nodes leaves parts left) (hnone : ∀ part ∈ parts, part.2 = none)
    (hleft : left = []) : leaves = [] := by
  induction hsections with
  | nil left => exact hleft
  | skip hafter tail ih => exact ih (fun part hpart => hnone part (List.mem_cons_of_mem _ hpart)) hleft
  | take => simp at hnone

theorem Sections.mem_of_mem_left {nodes : List (Nat × Nat)} {leaves left : List Nat}
    {parts : List Share} (hsections : Sections nodes leaves parts left) {k : Nat} (hk : k ∈ left) :
    k ∈ leaves := by
  induction hsections with
  | nil left => exact hk
  | skip hafter tail ih => exact ih hk
  | take hne hunder hclimbs hpasses hafter tail ih => exact List.mem_append_right _ (ih hk)

/-- A leaf that is not left over is under one of the peaks. -/
theorem Sections.under_of_mem {nodes : List (Nat × Nat)} {leaves left : List Nat} {parts : List Share}
    (hsections : Sections nodes leaves parts left) {k : Nat} (hk : k ∈ leaves) :
    k ∈ left ∨ ∃ node ∈ nodes, Under 0 k node.1 node.2 := by
  induction hsections with
  | nil left => exact Or.inl hk
  | skip hafter tail ih =>
    rcases ih hk with hleft | ⟨node, hnode, hunder⟩
    · exact Or.inl hleft
    · exact Or.inr ⟨node, List.mem_cons_of_mem _ hnode, hunder⟩
  | take hne hunder hclimbs hpasses hafter tail ih =>
    rcases List.mem_append.mp hk with hgroup | hlater
    · exact Or.inr ⟨_, List.mem_cons_self, hunder k hgroup⟩
    · rcases ih hlater with hleft | ⟨node, hnode, hunder⟩
      · exact Or.inl hleft
      · exact Or.inr ⟨node, List.mem_cons_of_mem _ hnode, hunder⟩

theorem Sections.lt_of_mem {n k : Nat} {leaves left : List Nat} {parts : List Share}
    (hsections : Sections (peaks n) leaves parts left) (hk : k ∈ leaves) : k ∈ left ∨ k < n := by
  refine (hsections.under_of_mem hk).imp_right ?_
  rintro ⟨node, hnode, hunder⟩
  exact (under_zero_iff.mp hunder).2.trans_le (mem_peaks_iff.mp hnode).1

theorem sections_no_leaves (nodes : List (Nat × Nat)) :
    Sections nodes [] (nodes.map fun node => (node, none)) [] := by
  induction nodes with
  | nil => exact .nil []
  | cons node nodes ih => exact .skip (by simp) ih

theorem Sections.skips {earlier nodes : List (Nat × Nat)} {leaves left : List Nat}
    {parts : List Share} (hearlier : ∀ node ∈ earlier, ∀ k ∈ leaves, 2 ^ node.1 * (node.2 + 1) ≤ k)
    (hsections : Sections nodes leaves parts left) :
    Sections (earlier ++ nodes) leaves (earlier.map (fun node => (node, none)) ++ parts) left := by
  induction earlier with
  | nil => exact hsections
  | cons node earlier ih =>
    exact .skip (hearlier node List.mem_cons_self)
      (ih fun node' hnode' => hearlier node' (List.mem_cons_of_mem _ hnode'))

/-- Sections one behind the other are sections of both rows of trees. -/
theorem Sections.append {nodes nodes' : List (Nat × Nat)} {leaves leaves' left left' : List Nat}
    {parts parts' : List Share} (hsections : Sections nodes leaves parts left') (hnone : left' = [])
    (hlater : ∀ node ∈ nodes, ∀ k ∈ leaves', 2 ^ node.1 * (node.2 + 1) ≤ k)
    (hsections' : Sections nodes' leaves' parts' left) :
    Sections (nodes ++ nodes') (leaves ++ leaves') (parts ++ parts') left := by
  induction hsections with
  | nil left =>
    rw [hnone]
    exact hsections'
  | skip hafter tail ih =>
    obtain ⟨hnode, hrest⟩ := List.forall_mem_cons.mp hlater
    exact .skip (List.forall_mem_append.mpr ⟨hafter, hnode⟩) (ih hnone hrest)
  | take hne hunder hclimbs hpasses hafter tail ih =>
    obtain ⟨hnode, hrest⟩ := List.forall_mem_cons.mp hlater
    rw [List.append_assoc]
    exact .take hne hunder hclimbs hpasses (List.forall_mem_append.mpr ⟨hafter, hnode⟩) (ih hnone hrest)

/-- The sections of a single leaf: only the node above it is taken. -/
theorem exists_sections_single {start stop h m k : Nat} {earlier later : List (Nat × Nat)}
    (htiles : Tiles start (earlier ++ (h, m) :: later) stop) (hunder : Under 0 k h m) :
    ∃ requests, Sections (earlier ++ (h, m) :: later) [k]
      (earlier.map (fun node => (node, none)) ++
        ((h, m), some requests) :: later.map fun node => (node, none)) [] := by
  obtain ⟨middle, hearlier, hrest⟩ := htiles.of_append
  have hown : ∀ leaf ∈ [k], Under 0 leaf h m := by simpa using hunder
  have hnone : ∀ leaf ∈ ([] : List Nat), 2 ^ h * (m + 1) ≤ leaf := by simp
  obtain ⟨passes, requests, hclimbs, hpasses⟩ :=
    exists_climbs (List.pairwise_singleton _ k) hown (List.cons_ne_nil _ _)
  have htaken : Sections ((h, m) :: later) ([k] ++ [])
      (((h, m), some requests) :: later.map fun node => (node, none)) [] :=
    .take (List.cons_ne_nil _ _) hown hclimbs hpasses hnone (sections_no_leaves later)
  refine ⟨requests, htaken.skips fun node hnode leaf hmem => ?_⟩
  obtain rfl := List.mem_singleton.mp hmem
  have hstop := hearlier.stop_le node hnode
  cases hrest with
  | cons tail => exact hstop.trans (under_zero_iff.mp hunder).1

section Roots

variable {α : Type}

/-- The roots of some parts, from the values of the leaves and one item for each
    request, or the root itself where no leaf is given. -/
inductive Roots (merge : α → α → α) :
    List Share → List (Nat × α) → List α → List α → Prop where
  | nil : Roots merge [] [] [] []
  | skip {node : Nat × Nat} {parts : List Share} {leaves : List (Nat × α)} {items roots : List α}
      (root : α) (tail : Roots merge parts leaves items roots) :
      Roots merge ((node, none) :: parts) leaves (root :: items) (root :: roots)
  | take {h m passes : Nat} {requests : List (Nat × Nat)} {parts : List Share}
      {group leaves : List (Nat × α)} {used items roots : List α} {root : α}
      (hne : group ≠ [])
      (hfolds : Folds merge h m passes (group.map fun leaf => ((0, leaf.1), leaf.2)) used root)
      (hused : used.length = requests.length)
      (tail : Roots merge parts leaves items roots) :
      Roots merge (((h, m), some requests) :: parts) (group ++ leaves) (used ++ items) (root :: roots)

/-- What passes from a merge to both its operands passes from the roots to every
    leaf that went into them. -/
theorem Roots.descend {merge : α → α → α} {P : α → Prop} (hdown : ∀ x y, P (merge x y) → P x ∧ P y)
    {parts : List Share} {leaves : List (Nat × α)} {items roots : List α}
    (hroots : Roots merge parts leaves items roots) (hall : ∀ root ∈ roots, P root) :
    ∀ leaf ∈ leaves, P leaf.2 := by
  induction hroots with
  | nil => simp
  | skip root tail ih => exact ih (List.forall_mem_cons.mp hall).2
  | take hne hfolds hused tail ih =>
    obtain ⟨hroot, hrest⟩ := List.forall_mem_cons.mp hall
    have hentries := hfolds.descend (P := fun _ _ x => P x) (fun h k x y _ hparent => by
      unfold mergeAt at hparent
      split at hparent
      · exact (hdown _ _ hparent).symm
      · exact hdown _ _ hparent) hroot
    intro leaf hleaf
    rcases List.mem_append.mp hleaf with hleaf | hleaf
    · exact hentries _ (List.mem_map_of_mem hleaf)
    · exact ih hrest leaf hleaf

/-- Values under some nodes that are merged from those of the two children
    wherever one of the leaves is below. -/
def ParentsMerged (merge : α → α → α) (value : Nat → Nat → α) (nodes : List (Nat × Nat))
    (leaves : List Nat) : Prop :=
  ∀ h k, (∃ node ∈ nodes, Under (h + 1) k node.1 node.2) → (∃ leaf ∈ leaves, Under 0 leaf (h + 1) k) →
    value (h + 1) k = merge (value h (2 * k)) (value h (2 * k + 1))

theorem ParentsMerged.mono {merge : α → α → α} {value : Nat → Nat → α} {nodes nodes' : List (Nat × Nat)}
    {leaves leaves' : List Nat} (hmerged : ParentsMerged merge value nodes leaves)
    (hnodes : nodes' ⊆ nodes) (hleaves : leaves' ⊆ leaves) : ParentsMerged merge value nodes' leaves' :=
  fun h k ⟨node, hnode, hbelow⟩ ⟨leaf, hleaf, habove⟩ =>
    hmerged h k ⟨node, hnodes hnode, hbelow⟩ ⟨leaf, hleaves hleaf, habove⟩

/-- The leaves under one of the nodes fold to the value of that node, with the
    values of the requested nodes as items. -/
theorem ParentsMerged.folds {merge : α → α → α} {value : Nat → Nat → α} {nodes requests : List (Nat × Nat)}
    {leaves group : List Nat} {h m passes : Nat} (hmerged : ParentsMerged merge value nodes leaves)
    (hnode : (h, m) ∈ nodes) (hgroup : group ⊆ leaves) (hunder : ∀ k ∈ group, Under 0 k h m)
    (hclimbs : Climbs h m passes (group.map (0, ·)) requests) :
    Folds merge h m passes ((group.map fun k => (k, value 0 k)).map fun leaf => ((0, leaf.1), leaf.2))
      (requests.map fun node => value node.1 node.2) (value h m) := by
  have hfolds := hclimbs.folds_values merge value fun h' k hlt habove => by
    obtain ⟨node, hqueued, habove⟩ := habove
    obtain ⟨leaf, hleaf, rfl⟩ := List.mem_map.mp hqueued
    exact hmerged h' k ⟨(h, m), hnode, (hunder leaf hleaf).above habove hlt⟩ ⟨leaf, hgroup hleaf, habove⟩
  rw [List.map_map] at hfolds ⊢
  exact hfolds

/-- The items of a part in a tree of known values. -/
def partItems (value : Nat → Nat → α) (part : Share) : List α :=
  match part.2 with
  | none => [value part.1.1 part.1.2]
  | some requests => requests.map fun node => value node.1 node.2

/-- Items are the values of the nodes they are for. -/
theorem flatMap_partItems (value : Nat → Nat → α) (parts : List Share) :
    parts.flatMap (partItems value) =
      (parts.flatMap (partItems Prod.mk)).map fun node => value node.1 node.2 := by
  rw [List.map_flatMap]
  congr 1
  funext part
  rw [partItems, partItems]
  split <;> simp

/-- Items are for nodes under the trees. -/
theorem Sections.items_under {nodes : List (Nat × Nat)} {leaves left : List Nat} {parts : List Share}
    (hsections : Sections nodes leaves parts left) :
    ∀ item ∈ parts.flatMap (partItems Prod.mk), ∃ node ∈ nodes, Under item.1 item.2 node.1 node.2 := by
  induction hsections with
  | nil left => simp
  | @skip h m nodes leaves left parts hafter tail ih =>
    rw [List.flatMap_cons, List.forall_mem_append]
    refine ⟨fun item hown => ⟨_, List.mem_cons_self, ?_⟩, fun item hlater => ?_⟩
    · obtain rfl : item = (h, m) := by simpa [partItems] using hown
      exact under_refl h m
    · exact (ih item hlater).imp fun node hnode => ⟨List.mem_cons_of_mem _ hnode.1, hnode.2⟩
  | @take h m passes nodes requests group leaves left parts hne hunder hclimbs hpasses hafter tail ih =>
    rw [List.flatMap_cons, List.forall_mem_append]
    refine ⟨fun item hown => ⟨_, List.mem_cons_self, ?_⟩, fun item hlater => ?_⟩
    · exact hclimbs.requests_under item (by simpa [partItems] using hown)
    · exact (ih item hlater).imp fun node hnode => ⟨List.mem_cons_of_mem _ hnode.1, hnode.2⟩

end Roots

end forest
