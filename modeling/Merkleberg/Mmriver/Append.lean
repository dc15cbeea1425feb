import Merkleberg.Mmriver.Splice

open machine machine.Outcome
open forest
open merkleberg.helper

namespace merkleberg.mmriver

variable {Item Store σ μ : Type} {b : Profile}
  {R : MMRStoreReadOps Store Item σ} {W : MMRStoreWriteOps Store Item σ} {H : Hasher Item}
  {A B : List Bytes}

/-- When a node leads to a node of another log, in any build, that log has it in
    the same place, unless it is a leaf and its path is empty. -/
theorem LeadsTo.binds (hinj : H.PosInjective) {h k h' k' : Nat} (hindex : IndexFits b h k)
    (hfits' : nodePos h' k' + 1 < 2 ^ 64) {path : List Item} (hitem : 0 < h ∨ path ≠ [])
    (hleads : LeadsTo b (H.toMerge : Merge Item μ) (nodePos h k, nodeItem H A h k, path)
      (nodeItem H B h' k')) :
    nodeItem H A h k = nodeItem H B h k ∧ Under h k h' k' := by
  cases path with
  | nil =>
    have heq := hleads.eq_of_nil.symm
    have hfits := hindex.height_fits
    have hlimit := allOnesLimit_le b
    obtain ⟨rfl, rfl⟩ := nodeItem_same_node hinj (hitem.resolve_right fun hne => hne rfl) (by omega)
      hfits' heq
    exact ⟨heq, under_refl h k⟩
  | cons sibling path =>
    rw [LeadsTo, included_root_eq_climb hindex] at hleads
    obtain ⟨heq, hunder, _⟩ := included_root_climb_binds hinj hfits' hindex hleads
    exact ⟨heq, hunder⟩

/-- A log whose peaks another log has in place is a prefix of it. -/
theorem prefix_of_peaks (hinj : H.PosInjective) (hleaf : Function.Injective H.leaf_hash)
    (hfits : nodeCount A.length + 1 < 2 ^ 64)
    (hpeaks : ∀ node ∈ peaks A.length, nodeItem H A node.1 node.2 = nodeItem H B node.1 node.2 ∧
      2 ^ node.1 * (node.2 + 1) ≤ B.length) : A <+: B := by
  rw [List.prefix_iff_getElem?]
  intro i hi
  obtain ⟨node, hpeak, hunder⟩ := exists_peak_above (g := 0) (m := i) (n := A.length) (by omega)
  obtain ⟨heq, hinside⟩ := hpeaks node hpeak
  have hbelow := nodePos_lt_nodeCount_iff.mpr (mem_peaks_iff.mp hpeak).1
  have hsame := nodeItem_eq_under hinj (by omega) heq hunder
  have hlt : i < B.length := by
    have hleaves := hunder.leaves.2.trans hinside
    omega
  have hdata := hleaf (show H.leaf_hash (A.getD i []) = H.leaf_hash (B.getD i []) from hsame)
  rw [List.getD_eq_getElem _ _ hi, List.getD_eq_getElem _ _ hlt] at hdata
  rw [List.getElem?_eq_getElem hlt, hdata]

theorem forall₂_append_left {α β : Type} {P : α → β → Prop} {xs ys : List α} {zs : List β}
    (hall : List.Forall₂ P (xs ++ ys) zs) :
    ∃ us vs, zs = us ++ vs ∧ List.Forall₂ P xs us ∧ List.Forall₂ P ys vs := by
  induction xs generalizing zs with
  | nil => exact ⟨[], zs, rfl, .nil, hall⟩
  | cons x xs ih =>
    cases hall with
    | cons hhere hrest =>
      obtain ⟨us, vs, rfl, hus, hvs⟩ := ih hrest
      exact ⟨_ :: us, vs, rfl, .cons hhere hus, hvs⟩

section Sound

variable (hinj : H.PosInjective) (hfitsA : nodeCount A.length + 1 < allOnesLimit b)
  (hfitsB : nodeCount B.length + 1 < allOnesLimit b)

include hinj hfitsA hfitsB

/-- A peak that leads to one of the new peaks is in place under it, unless it is a
    leaf and its path is empty. -/
theorem LeadsTo.in_place {node : Nat × Nat} (hpeak : node ∈ peaks A.length) {path : List Item}
    {root : Item} (hroot : root ∈ peakItems H B) (hitem : 0 < node.1 ∨ path ≠ [])
    (hleads : LeadsTo b (H.toMerge : Merge Item μ)
      (nodePos node.1 node.2, nodeItem H A node.1 node.2, path) root) :
    nodeItem H A node.1 node.2 = nodeItem H B node.1 node.2 ∧ 2 ^ node.1 * (node.2 + 1) ≤ B.length ∧
      ∃ top ∈ peaks B.length, root = nodeItem H B top.1 top.2 ∧ Under node.1 node.2 top.1 top.2 := by
  obtain ⟨top, htop, rfl⟩ := List.mem_map.mp hroot
  have hinside := (mem_peaks_iff.mp htop).1
  have hbelow := nodePos_lt_nodeCount_iff.mpr hinside
  have hlimit := allOnesLimit_le b
  obtain ⟨heq, hunder⟩ := LeadsTo.binds hinj
    (IndexFits.of_inside hfitsA (mem_peaks_iff.mp hpeak).1) (by omega) hitem hleads
  exact ⟨heq, hunder.leaves.2.trans hinside, top, htop, rfl, hunder⟩

/-- A log whose peaks all lead to new peaks is a prefix, when none of the peaks is
    a leaf without a path. -/
theorem prefix_of_proves (hleaf : Function.Injective H.leaf_hash) {found : List Item}
    (hfound : found ⊆ peakItems H B)
    (hproves : ∀ node ∈ peaks A.length, ∃ root ∈ found, ∃ path, (0 < node.1 ∨ path ≠ []) ∧
      LeadsTo b (H.toMerge : Merge Item μ) (nodePos node.1 node.2, nodeItem H A node.1 node.2, path)
        root) : A <+: B := by
  have hlimit := allOnesLimit_le b
  refine prefix_of_peaks hinj hleaf (by omega) fun node hnode => ?_
  obtain ⟨root, hroot, path, hitem, hleads⟩ := hproves node hnode
  obtain ⟨heq, hinside, _⟩ := hleads.in_place hinj hfitsA hfitsB hnode (hfound hroot) hitem
  exact ⟨heq, hinside⟩

end Sound

section Mountain

variable {front middle : List Bytes} {last : Bytes}

/-- When nothing comes before the splice, the last leaf is accepted right behind
    one mountain. -/
theorem exists_only_mountain (hinj : H.PosInjective) (heven : middle.length % 2 = 0) (hne : middle ≠ [])
    (hfits : nodeCount middle.length + 1 < 2 ^ 64)
    (hfollows : Follows [H.leaf_hash last] (peakItems H (middle ++ [last]))) :
    ∃ h k, peaks middle.length = [(h, k)] := by
  have hother := leaf_hash_not_mem hinj heven hfits last
  obtain ⟨⟨h, k⟩, rest, hpeaks⟩ := List.exists_cons_of_ne_nil (peaks_ne_nil (List.length_pos_iff.mpr hne))
  rw [peakItems_concat H heven] at hfollows
  simp only [peakItems, hpeaks, List.map_cons, List.cons_append, follows_cons_iff] at hfollows hother
  rcases hfollows with ⟨heq, _⟩ | ⟨_, hhead, _⟩
  · exact absurd (heq ▸ List.mem_cons_self) hother
  · cases rest with
    | nil => exact ⟨h, k, hpeaks⟩
    | cons next rest =>
      rw [List.map_cons, List.cons_append, List.head?_cons, Option.some.injEq] at hhead
      exact absurd (hhead ▸ by simp) hother

/-- The new peak accepted right before the last leaf is the last but one. -/
theorem peaks_of_follows_last (hinj : H.PosInjective) (heven : A.length % 2 = 0)
    (hfits : nodeCount (A ++ [last]).length + 1 < 2 ^ 64) {found : List Item} {top : Nat × Nat}
    (htop : top ∈ peaks (A ++ [last]).length) (hinner : 0 < top.1)
    (hfollows : Follows (found ++ [nodeItem H (A ++ [last]) top.1 top.2, H.leaf_hash last])
      (peakItems H (A ++ [last]))) :
    ∃ before, peaks A.length = before ++ [top] := by
  have hbelow := nodePos_lt_of_peak htop
  have hshorter := nodeCount_le_nodeCount_iff.mpr (List.prefix_append A [last]).length_le
  have hother := leaf_hash_not_mem hinj heven (by omega) last
  have hdiffer : nodeItem H (A ++ [last]) top.1 top.2 ≠ H.leaf_hash last :=
    fun heq => absurd (height_eq_zero_of_leaf hinj (by omega) heq) hinner.ne'
  obtain ⟨first, after, hsplit⟩ := hfollows.adjacent hdiffer
  rw [peakItems_concat H heven, List.append_cons first] at hsplit
  obtain ⟨hfirst, _, _⟩ := (List.append_cons_inj_of_notMem hother (by simp)).mp hsplit
  rw [peakItems_append H A [last], List.map_eq_append_iff] at hfirst
  obtain ⟨before, others, hpeaks, _, hothers⟩ := hfirst
  obtain ⟨place, rfl, hplace⟩ := List.map_eq_singleton_iff.mp hothers
  have hmem : place ∈ peaks (A ++ [last]).length := mem_peaks_concat heven (by simp [hpeaks])
  exact ⟨before, by rw [hpeaks, nodeItem_inj_on_peaks hinj (by omega) place hmem top htop hplace]⟩

/-- When the last leaf of `A` is accepted as the last leaf of `B`, the mountain
    before it starts in front of the splice or is the only one. -/
theorem exists_last_mountain (hinj : H.PosInjective)
    (hfitsA : nodeCount (front ++ [last]).length + 1 < allOnesLimit b)
    (hfitsB : nodeCount (front ++ middle ++ [last]).length + 1 < allOnesLimit b)
    (hfront : front.length % 2 = 0) (hmiddle : middle.length % 2 = 0) (hne : middle ≠ [])
    {found : List Item}
    (hproves : List.Forall₂ (ProvesTo b (H.toMerge : Merge Item μ) H (front ++ [last]))
      (peaks front.length) found)
    (hfollows : Follows (found ++ [H.leaf_hash last]) (peakItems H (front ++ middle ++ [last]))) :
    ∃ before h k, peaks (front ++ middle).length = before ++ [(h, k)] ∧
      (2 ^ h * k < front.length ∨ front = [] ∧ before = []) := by
  have hlimit := allOnesLimit_le b
  have heven : (front ++ middle).length % 2 = 0 := by
    rw [List.length_append]
    omega
  have hshorter := nodeCount_le_nodeCount_iff.mpr (List.prefix_append (front ++ middle) [last]).length_le
  rcases List.eq_nil_or_concat (peaks front.length) with hnil | ⟨earlier, node, hconcat⟩
  · have hempty : front = [] := by
      by_contra hfilled
      exact peaks_ne_nil (List.length_pos_iff.mpr hfilled) hnil
    subst hempty
    have hmiddle_fits : nodeCount middle.length + 1 < 2 ^ 64 := by
      rw [List.nil_append] at hshorter hfitsB
      omega
    rw [hnil, List.forall₂_nil_left_iff] at hproves
    subst hproves
    obtain ⟨h, k, hpeaks⟩ := exists_only_mountain hinj hmiddle hne hmiddle_fits hfollows
    exact ⟨[], h, k, hpeaks, Or.inr ⟨rfl, rfl⟩⟩
  · -- The last mountain of `front` is accepted right before the last leaf of `B`.
    rw [List.concat_eq_append] at hconcat
    have hnode : node ∈ peaks front.length := by simp [hconcat]
    rw [hconcat] at hproves
    obtain ⟨others, roots, rfl, _, hlast⟩ := forall₂_append_left hproves
    cases hlast with
    | cons hroot hrest =>
      cases hrest
      rw [List.append_assoc, List.singleton_append] at hfollows
      obtain ⟨path, hpath⟩ := hroot
      have hinner := peak_inner hfront hnode
      obtain ⟨_, _, top, htop, rfl, hunder⟩ := hpath.in_place hinj hfitsA hfitsB
        (mem_peaks_concat hfront hnode) (hfollows.subset (by simp)) (Or.inl hinner)
      obtain ⟨before, hpeaks⟩ := peaks_of_follows_last hinj heven (by omega) htop
        (hinner.trans_le hunder.1) hfollows
      refine ⟨before, top.1, top.2, hpeaks, Or.inl (hunder.leaves.1.trans_lt ?_)⟩
      calc 2 ^ node.1 * node.2 < 2 ^ node.1 * (node.2 + 1) :=
            Nat.mul_lt_mul_of_pos_left (Nat.lt_succ_self _) (Nat.two_pow_pos _)
        _ ≤ front.length := (mem_peaks_iff.mp hnode).1

/-- The log in front of a last leaf begins the new log, whatever that leaf does. -/
theorem front_prefix (hinj : H.PosInjective) (hleaf : Function.Injective H.leaf_hash)
    (hfitsA : nodeCount (front ++ [last]).length + 1 < allOnesLimit b)
    (hfitsB : nodeCount B.length + 1 < allOnesLimit b) (hfront : front.length % 2 = 0)
    {found : List Item}
    (hproves : List.Forall₂ (ProvesTo b (H.toMerge : Merge Item μ) H (front ++ [last]))
      (peaks front.length) found) (hfound : found ⊆ peakItems H B) : front <+: B := by
  have hlimit := allOnesLimit_le b
  have hshorter := nodeCount_le_nodeCount_iff.mpr (List.prefix_append front [last]).length_le
  refine prefix_of_peaks hinj hleaf (by omega) fun node hnode => ?_
  obtain ⟨root, hroot, path, hpath⟩ := exists_of_forall₂ hproves node hnode
  obtain ⟨heq, hinside, _⟩ := hpath.in_place hinj hfitsA hfitsB (mem_peaks_concat hfront hnode)
    (hfound hroot) (Or.inl (peak_inner hfront hnode))
  rw [nodeItem_append H [last] (mem_peaks_iff.mp hnode).1] at heq
  exact ⟨heq, hinside⟩

/-- A last leaf accepted without a path is the last leaf of `B`, and what comes
    before it in `A` begins `B`. -/
theorem prefix_or_spliced_of_bare_leaf (hinj : H.PosInjective) (hleaf : Function.Injective H.leaf_hash)
    (hfitsA : nodeCount (front ++ [last]).length + 1 < allOnesLimit b)
    (hfitsB : nodeCount B.length + 1 < allOnesLimit b) (hfront : front.length % 2 = 0)
    {found : List Item}
    (hproves : List.Forall₂ (ProvesTo b (H.toMerge : Merge Item μ) H (front ++ [last]))
      (peaks front.length) found)
    (hfollows : Follows (found ++ [H.leaf_hash last]) (peakItems H B)) :
    front ++ [last] <+: B ∨ Spliced (front ++ [last]) B := by
  have hlimit := allOnesLimit_le b
  obtain ⟨hfound, hlast⟩ := List.append_subset.mp hfollows.subset
  have hbegins := front_prefix hinj hleaf hfitsA hfitsB hfront hproves hfound
  obtain ⟨init, rfl, hinit⟩ := exists_concat_of_leaf_mem hinj hleaf (by omega)
    (hlast List.mem_cons_self)
  obtain ⟨middle, rfl⟩ : front <+: init := by
    refine List.prefix_of_prefix_length_le hbegins (List.prefix_append init [last]) ?_
    have hlength := hbegins.length_le
    rw [List.length_append, List.length_singleton] at hlength
    omega
  rw [List.length_append] at hinit
  rcases eq_or_ne middle [] with rfl | hne
  · exact Or.inl ⟨[], by simp⟩
  by_cases hhead : middle.head? = some last
  · obtain ⟨rest, rfl⟩ := List.head?_eq_some_iff.mp hhead
    exact Or.inl ⟨rest ++ [last], by simp⟩
  · refine Or.inr ⟨front, middle, last, rfl, rfl, hfront, by omega, hne, hhead, ?_⟩
    exact exists_last_mountain hinj hfitsA hfitsB hfront (by omega) hne hproves hfollows

end Mountain

/-- An accepted proof with the size of the old log shows a prefix or a splice. -/
theorem prefix_or_spliced (hinj : H.PosInjective) (hleaf : Function.Injective H.leaf_hash)
    (hfitsA : nodeCount A.length + 1 < allOnesLimit b)
    (hfitsB : nodeCount B.length + 1 < allOnesLimit b) {found : List Item}
    (hproves : List.Forall₂ (ProvesTo b (H.toMerge : Merge Item μ) H A) (peaks A.length) found)
    (hfollows : Follows found (peakItems H B)) : A <+: B ∨ Spliced A B := by
  have hbegins := prefix_of_proves (μ := μ) hinj hfitsA hfitsB hleaf hfollows.subset
  rcases Nat.mod_two_eq_zero_or_one A.length with heven | hodd
  · -- No peak is a leaf.
    refine Or.inl (hbegins fun node hnode => ?_)
    obtain ⟨root, hroot, path, hpath⟩ := exists_of_forall₂ hproves node hnode
    exact ⟨root, hroot, path, Or.inl (peak_inner heven hnode), hpath⟩
  rcases List.eq_nil_or_concat A with rfl | ⟨front, last, rfl⟩
  · simp at hodd
  rw [List.concat_eq_append] at hodd hproves hfitsA hbegins ⊢
  have hfront : front.length % 2 = 0 := by
    rw [List.length_append, List.length_singleton] at hodd
    omega
  rw [peaks_concat hfront] at hproves
  obtain ⟨found, roots, rfl, hfound, hlast⟩ := forall₂_append_left hproves
  cases hlast with
  | @cons _ root _ _ hroot hrest =>
    cases hrest
    obtain ⟨path, hpath⟩ := hroot
    by_cases hitem : path = []
    · subst hitem
      obtain rfl : root = H.leaf_hash last := hpath.eq_of_nil.trans (nodeItem_last H front last)
      exact prefix_or_spliced_of_bare_leaf hinj hleaf hfitsA hfitsB hfront hfound hfollows
    · -- The last leaf is bound by its path.
      refine Or.inl (hbegins fun node hnode => ?_)
      rw [peaks_concat hfront] at hnode
      rcases List.mem_append.mp hnode with hearlier | hlast
      · obtain ⟨root', hroot', path', hpath'⟩ := exists_of_forall₂ hfound node hearlier
        exact ⟨root', List.mem_append_left _ hroot', path', Or.inl (peak_inner hfront hearlier), hpath'⟩
      · obtain rfl := List.mem_singleton.mp hlast
        exact ⟨root, by simp, path, Or.inr hitem, hpath⟩

section Verify

variable [DecidableEq Item]

/-- Over two logs, accepted consistency proofs of their sizes show that the first
    is a prefix of the second exactly when the second is no splice of the first.
    Only an unchecked build needs to be told that the sizes stayed in range. -/
theorem MMRIVER.Run.append_only_iff (S : MapStore R W) (hinj : H.PosInjective)
    (hleaf : Function.Injective H.leaf_hash) {storeA storeB : Store} {positionsA positionsB : List Nat}
    {treeA treeB : MMRIVER Item Store}
    (runA : MMRIVER.Run b (H.toMerge : Merge Item μ) R W (MMRIVER.new 0 storeA) A positionsA treeA)
    (runB : MMRIVER.Run b (H.toMerge : Merge Item μ) R W (MMRIVER.new 0 storeB) B positionsB treeB)
    (hA : A ≠ []) (hB : B ≠ []) (hfit : b = .release → A.length < 2 ^ 63 ∧ B.length < 2 ^ 63) :
    ∃ accumulatorA accumulatorB,
      (treeA.get_accumulator b R : Outcome (Error σ μ) _) = ok accumulatorA ∧
      (treeB.get_accumulator b R : Outcome (Error σ μ) _) = ok accumulatorB ∧
      ((∀ proof_paths, ((ConsistencyProof.new treeA.mmr_size treeB.mmr_size proof_paths).verify b
          (H.toMerge : Merge Item μ) accumulatorA accumulatorB : Outcome (Error σ μ) _) = ok true →
        A <+: B) ↔ ¬ Spliced A B) := by
  obtain ⟨holdsA, _⟩ := runA.holds S (fun hb => (hfit hb).1)
  obtain ⟨holdsB, _⟩ := runB.holds S (fun hb => (hfit hb).2)
  have hfitsA := holdsA.height_fits
  have hfitsB := holdsB.height_fits
  have hlimit := allOnesLimit_le b
  have haccepted := exists_verify_iff (σ := σ) (M := (H.toMerge : Merge Item μ)) (b := b) (H := H) hA
    (by omega) treeB.mmr_size (peakItems H B)
  refine ⟨peakItems H A, peakItems H B, holdsA.get_accumulator (List.length_pos_iff.mpr hA),
    holdsB.get_accumulator (List.length_pos_iff.mpr hB), ?_⟩
  rw [holdsA.forest.size]
  constructor
  · intro hbegins hspliced
    obtain ⟨paths, hverify⟩ := haccepted.mpr (hspliced.accepted hinj hfitsA hfitsB)
    exact hspliced.not_prefix (hbegins paths hverify)
  · intro hspliced paths hverify
    obtain ⟨found, hproves, hfollows⟩ := haccepted.mp ⟨paths, hverify⟩
    exact (prefix_or_spliced hinj hleaf hfitsA hfitsB hproves hfollows).resolve_right hspliced

end Verify

theorem Term.leaf_hash_injective (T : Type) : Function.Injective (Term.hasher : Hasher (Term T)).leaf_hash :=
  fun _ _ hleaf => Term.leaf.inj hleaf

/-- Two leaves in memory, of which the first alone was there before. -/
theorem MMRIVER.Run.append_only_two :
    ∃ treeA treeB accumulatorA accumulatorB, MMRIVER.SymbolicRun .debug [[1]] [0] treeA ∧
      MMRIVER.SymbolicRun .debug [[1], [2]] [0, 1] treeB ∧
      ∀ proof_paths, ((ConsistencyProof.new treeA.mmr_size treeB.mmr_size proof_paths).verify .debug
          (Term.hasher.toMerge : Merge (Term Empty) Empty) accumulatorA accumulatorB :
          Outcome (Error Empty Empty) _) = ok true →
        [[1]] <+: ([[1], [2]] : List Bytes) := by
  have start : MMRIVER.SymbolicRun .debug [] [] (MMRIVER.new 0 MemStore.new) := .refl
  have runA := start.push (d := [1]) rfl
  have runB := (start.push (d := [1]) rfl).push (d := [2]) rfl
  obtain ⟨accumulatorA, accumulatorB, _, _, hiff⟩ := MMRIVER.Run.append_only_iff (MemStore.mapStore .debug)
    (Term.hasher_posInjective Empty) (Term.leaf_hash_injective Empty) runA runB (by decide) (by decide)
    (fun hb => by cases hb)
  refine ⟨_, _, accumulatorA, accumulatorB, runA, runB, hiff.mpr fun hspliced => ?_⟩
  exact hspliced.not_prefix ⟨[[2]], rfl⟩

/-- One leaf is accepted as the start of three leaves that only end with it. -/
theorem ConsistencyProof.accepts_splice :
    (Term.hasher : Hasher (Term Empty)).PosInjective ∧
      Function.Injective (Term.hasher : Hasher (Term Empty)).leaf_hash ∧
    ∃ treeA treeB accumulatorA accumulatorB, MMRIVER.SymbolicRun .debug [[1]] [0] treeA ∧
      MMRIVER.SymbolicRun .debug [[2], [3], [1]] [0, 1, 3] treeB ∧
      (treeA.get_accumulator .debug MemStore.readOps : Outcome (Error Empty Empty) _) = ok accumulatorA ∧
      (treeB.get_accumulator .debug MemStore.readOps : Outcome (Error Empty Empty) _) = ok accumulatorB ∧
      ((ConsistencyProof.new treeA.mmr_size treeB.mmr_size [[]]).verify .debug
        (Term.hasher.toMerge : Merge (Term Empty) Empty) accumulatorA accumulatorB :
        Outcome (Error Empty Empty) _) = ok true ∧
      ¬ [[1]] <+: ([[2], [3], [1]] : List Bytes) := by
  have start : MMRIVER.SymbolicRun .debug [] [] (MMRIVER.new 0 MemStore.new) := .refl
  have runA := start.push (d := [1]) rfl
  have runB := ((start.push (d := [2]) rfl).push (d := [3]) rfl).push (d := [1]) rfl
  refine ⟨Term.hasher_posInjective Empty, Term.leaf_hash_injective Empty, _, _, _, _, runA, runB, rfl, rfl,
    rfl, ?_⟩
  rintro ⟨rest, hrest⟩
  cases hrest

end merkleberg.mmriver
