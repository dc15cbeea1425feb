import Merkleberg.Machine.Lockstep
import Merkleberg.Mmr.Completeness

open machine machine.Outcome
open merkleberg.helper

namespace merkleberg.mmr

variable {Item σ μ : Type} {b : Profile} {M : Merge Item μ}

/-- A merge function that succeeds with one value from one pair at most. -/
def MergesApart (merge : Item → Item → Outcome μ Item) : Prop :=
  ∀ {left right left' right' parent}, merge left right = ok parent →
    merge left' right' = ok parent → left = left' ∧ right = right'

theorem orMergeError_eq_ok_iff {α : Type} {x : Outcome μ α} {value : α} :
    (orMergeError x : Outcome (Error σ μ) α) = ok value ↔ x = ok value :=
  mapErr_eq_ok_iff

/-- Queue entries at the same positions and heights, and as many proof items. -/
def SameQueue (state state' : List (Nat × Item × Nat) × List Item) : Prop :=
  state.1.map (fun entry => (entry.1, entry.2.2)) = state'.1.map (fun entry => (entry.1, entry.2.2)) ∧
    state.2.length = state'.2.length

/-- A sibling comes from the front of the queue or from the front of the proof. -/
theorem takeSibling_cases {sib_pos : Nat} {queue rest : List (Nat × Item × Nat)}
    {proof proof_rest : List Item} {item : Item}
    (h : (takeSibling sib_pos queue proof : Outcome (Error σ μ) _) = ok (item, rest, proof_rest)) :
    (∃ height, queue = (sib_pos, item, height) :: rest ∧ proof = proof_rest) ∨
      queue.head?.map (·.1) ≠ some sib_pos ∧ queue = rest ∧ proof = item :: proof_rest := by
  have htake (h : (do let item ← okOr .CorruptedProof proof.head?; ok (item, queue, proof.tail) :
      Outcome (Error σ μ) _) = ok (item, rest, proof_rest)) :
      queue = rest ∧ proof = item :: proof_rest := by
    cases proof with
    | nil => simp at h
    | cons first proof => simpa [and_left_comm] using h
  cases queue with
  | nil => exact .inr ⟨by simp, htake h⟩
  | cons entry queue =>
    obtain ⟨pos, found, height⟩ := entry
    rw [takeSibling] at h
    split at h
    · rename_i hpos
      simp only [ok.injEq, Prod.mk.injEq] at h
      obtain ⟨rfl, rfl, rfl⟩ := h
      exact .inl ⟨height, by rw [hpos], rfl⟩
    · rename_i hpos
      exact .inr ⟨by simpa using hpos, htake h⟩

theorem takeSibling_injects (sib_pos : Nat) :
    Injects SameQueue (fun found found' => SameQueue found.2 found'.2)
      fun state => (takeSibling sib_pos state.1 state.2 :
        Outcome (Error σ μ) (Item × List (Nat × Item × Nat) × List Item)) := by
  rintro ⟨queue, proof⟩ ⟨queue', proof'⟩ ⟨item, rest, proof_rest⟩ ⟨item', rest', proof_rest'⟩
    ⟨hqueue, hproof⟩ h h'
  simp only at hqueue hproof
  have hheads : queue.head?.map (·.1) = queue'.head?.map (·.1) := by
    have := congrArg (fun shapes => shapes.head?.map (·.1)) hqueue
    simpa [Option.map_map, Function.comp_def] using this
  rcases takeSibling_cases h with ⟨height, rfl, rfl⟩ | ⟨hhead, rfl, rfl⟩
  · rcases takeSibling_cases h' with ⟨height', rfl, rfl⟩ | ⟨hhead', rfl, rfl⟩
    · simp only [List.map_cons, List.cons.injEq, Prod.mk.injEq, true_and] at hqueue
      obtain ⟨rfl, hrest⟩ := hqueue
      refine ⟨⟨hrest, hproof⟩, fun heq => ?_⟩
      cases heq
      rfl
    · exact absurd (hheads ▸ rfl) hhead'
  · rcases takeSibling_cases h' with ⟨height', rfl, rfl⟩ | ⟨hhead', rfl, rfl⟩
    · exact absurd (hheads.trans rfl) hhead
    · refine ⟨⟨hqueue, Nat.succ_injective hproof⟩, fun heq => ?_⟩
      cases heq
      rfl

/-- A pass of the queue loop ends at the peak with nothing else in the queue, or
    puts the parent of the node in front and its sibling at the end. -/
theorem calculate_peak_root.body_cases {peak_pos : Nat}
    {queue : List (Nat × Item × Nat)} {proof : List Item}
    {pass : Pass (List (Nat × Item × Nat) × List Item) (Item × List Item)}
    (h : (calculate_peak_root.body b M peak_pos (queue, proof) : Outcome (Error σ μ) _) = ok pass) :
    (∃ item height, queue = [(peak_pos, item, height)] ∧ pass = .done (item, proof)) ∨
      ∃ pos item height later right sib_pos parent_pos sibling rest proof_rest parent above,
        queue = (pos, item, height) :: later ∧ pos ≠ peak_pos ∧
        (relatives b pos height : Outcome (Error σ μ) _) = ok (right, sib_pos, parent_pos) ∧
        (takeSibling sib_pos later proof : Outcome (Error σ μ) _) = ok (sibling, rest, proof_rest) ∧
        (if right then M.merge sibling item else M.merge item sibling) = ok parent ∧
        (U8.add b height 1 : Outcome (Error σ μ) Nat) = ok above ∧
        pass = .next (rest ++ [(parent_pos, parent, above)], proof_rest) := by
  cases queue with
  | nil => simp [calculate_peak_root.body] at h
  | cons entry queue =>
    obtain ⟨pos, item, height⟩ := entry
    rw [calculate_peak_root.body] at h
    split at h
    · rename_i hpeak
      subst hpeak
      split at h
      · rename_i hnil
        subst hnil
        exact .inl ⟨item, height, rfl, (ok.inj h).symm⟩
      · cases h
    · rename_i hpeak
      obtain ⟨⟨right, sib_pos, parent_pos⟩, hrelatives, h⟩ := bind_eq_ok_iff.mp h
      obtain ⟨⟨sibling, rest, proof_rest⟩, htake, h⟩ := bind_eq_ok_iff.mp h
      obtain ⟨parent, hparent, h⟩ := bind_eq_ok_iff.mp h
      split at h
      · obtain ⟨above, habove, h⟩ := bind_eq_ok_iff.mp h
        exact .inr ⟨pos, item, height, queue, right, sib_pos, parent_pos, sibling, rest, proof_rest,
          parent, above, rfl, hpeak, hrelatives, htake, orMergeError_eq_ok_iff.mp hparent, habove,
          (ok.inj h).symm⟩
      · cases h

/-- One pass of the queue loop merges a node with a sibling that it can give back. -/
theorem calculate_peak_root.body_injects (hmerge : MergesApart M.merge) (peak_pos : Nat) :
    Injects SameQueue (Pass.Alike SameQueue fun found found' => found.2.length = found'.2.length)
      (calculate_peak_root.body b M peak_pos : _ → Outcome (Error σ μ) _) := by
  rintro ⟨queue, proof⟩ ⟨queue', proof'⟩ pass pass' ⟨hqueue, hproof⟩ h h'
  simp only at hqueue hproof
  rcases calculate_peak_root.body_cases h with ⟨item, height, rfl, rfl⟩ |
    ⟨pos, item, height, later, right, sib_pos, parent_pos, sibling, rest, proof_rest, parent, above,
      rfl, hpeak, hrelatives, htake, hparent, habove, rfl⟩ <;>
  rcases calculate_peak_root.body_cases h' with ⟨item', height', rfl, rfl⟩ |
    ⟨pos', item', height', later', right', sib_pos', parent_pos', sibling', rest', proof_rest', parent',
      above', rfl, hpeak', hrelatives', htake', hparent', habove', rfl⟩ <;>
  simp only [List.map_cons, List.map_nil, List.cons.injEq, Prod.mk.injEq] at hqueue
  · obtain ⟨⟨-, rfl⟩, -⟩ := hqueue
    refine ⟨.done hproof, fun heq => ?_⟩
    cases heq
    rfl
  · exact absurd hqueue.1.1.symm hpeak'
  · exact absurd hqueue.1.1 hpeak
  · obtain ⟨⟨rfl, rfl⟩, hlater⟩ := hqueue
    -- The positions decide the relatives and the height of the parent.
    obtain ⟨rfl, rfl, rfl⟩ : right = right' ∧ sib_pos = sib_pos' ∧ parent_pos = parent_pos' := by
      simpa using ok.inj (hrelatives.symm.trans hrelatives')
    obtain rfl : above = above' := ok.inj (habove.symm.trans habove')
    have hsame : SameQueue (later, proof) (later', proof') := ⟨hlater, hproof⟩
    obtain ⟨hrest, hback⟩ := takeSibling_injects sib_pos hsame htake htake'
    refine ⟨.next ⟨?_, hrest.2⟩, fun heq => ?_⟩
    · rw [List.map_append, List.map_append, hrest.1]
      rfl
    · simp only [Pass.next.injEq, Prod.mk.injEq, List.append_singleton_inj, and_true, true_and] at heq
      obtain ⟨⟨rfl, rfl⟩, rfl⟩ := heq
      have hpair : sibling = sibling' ∧ item = item' := by
        cases right
        · exact (hmerge hparent hparent').symm
        · exact hmerge hparent hparent'
      obtain ⟨rfl, rfl⟩ := hpair
      obtain ⟨rfl, rfl⟩ := Prod.mk.inj (hback rfl)
      rfl

/-- Leaves at the same positions and as many proof items. -/
def SameShape (state state' : List (Nat × Item) × List Item) : Prop :=
  state.1.map (·.1) = state'.1.map (·.1) ∧ state.2.length = state'.2.length

theorem calculate_peak_root_injects (hmerge : MergesApart M.merge) (peak_pos : Nat) :
    Injects SameShape (fun found found' => found.2.length = found'.2.length)
      fun state => (calculate_peak_root b M state.1 peak_pos state.2 : Outcome (Error σ μ) _) := by
  rintro ⟨leaves, proof⟩ ⟨leaves', proof'⟩ found found' ⟨hleaves, hproof⟩ h h'
  simp only at hleaves hproof h h'
  have hcount : leaves.length = leaves'.length := by simpa using congrArg List.length hleaves
  obtain ⟨⟨⟩, -, h⟩ := bind_eq_ok_iff.mp h
  obtain ⟨⟨⟩, -, h'⟩ := bind_eq_ok_iff.mp h'
  rw [← hcount] at h'
  have hsame : SameQueue (leaves.map fun leaf => (leaf.1, leaf.2, 0), proof)
      (leaves'.map fun leaf => (leaf.1, leaf.2, 0), proof') := by
    refine ⟨?_, hproof⟩
    have := congrArg (List.map fun pos => (pos, 0)) hleaves
    simpa [Function.comp_def] using this
  obtain ⟨hrest, hback⟩ := loop_injects (calculate_peak_root.body_injects hmerge peak_pos) _ hsame h h'
  refine ⟨hrest, fun heq => ?_⟩
  obtain ⟨hqueue, rfl⟩ := Prod.mk.inj (hback heq)
  have hinj : Function.Injective fun leaf : Nat × Item => (leaf.1, leaf.2, 0) := by
    rintro ⟨pos, item⟩ ⟨pos', item'⟩ hleaf
    cases hleaf
    rfl
  rw [hinj.list_map hqueue]

/-- How the peak loop comes to the root of one peak from the leaves under it and
    the proof: by an item of the proof, by a leaf alone, or by a computed root. -/
inductive PeakRoot (σ : Type) (b : Profile) (M : Merge Item μ) (peak_pos : Nat) :
    List (Nat × Item) × List Item → Item × List Item → Prop where
  | item (root : Item) (proof : List Item) : PeakRoot σ b M peak_pos ([], root :: proof) (root, proof)
  | leaf (root : Item) (proof : List Item) :
      PeakRoot σ b M peak_pos ([(peak_pos, root)], proof) (root, proof)
  | group {taken : List (Nat × Item)} {proof : List Item} {found : Item × List Item} (hne : taken ≠ [])
      (hmany : taken.map (·.1) ≠ [peak_pos])
      (hroot : (calculate_peak_root b M taken peak_pos proof : Outcome (Error σ μ) _) = ok found) :
      PeakRoot σ b M peak_pos (taken, proof) found

theorem PeakRoot.injects (hmerge : MergesApart M.merge) {peak_pos : Nat}
    {state state' : List (Nat × Item) × List Item} {found found' : Item × List Item}
    (hsame : SameShape state state') (h : PeakRoot σ b M peak_pos state found)
    (h' : PeakRoot σ b M peak_pos state' found') :
    found.2.length = found'.2.length ∧ (found = found' → state = state') := by
  obtain ⟨hleaves, hproof⟩ := hsame
  cases h with
  | item root proof =>
    cases h' with
    | item root' proof' =>
      refine ⟨Nat.succ_injective hproof, fun heq => ?_⟩
      cases heq
      rfl
    | leaf => simp at hleaves
    | group hne => exact absurd (List.map_eq_nil_iff.mp hleaves.symm) hne
  | leaf root proof =>
    cases h' with
    | item => simp at hleaves
    | leaf root' proof' =>
      refine ⟨hproof, fun heq => ?_⟩
      cases heq
      rfl
    | group _ hmany => exact absurd hleaves.symm hmany
  | group hne hmany hroot =>
    cases h' with
    | item => exact absurd (List.map_eq_nil_iff.mp hleaves) hne
    | leaf => exact absurd hleaves hmany
    | group _ _ hroot' => exact calculate_peak_root_injects hmerge peak_pos ⟨hleaves, hproof⟩ hroot hroot'

/-- The peak loop ends at a peak for which nothing is left, and goes on from the
    root of any other one. -/
theorem peaks_cons_cases {peak_pos : Nat} {peaks : List Nat} {leaves : List (Nat × Item)}
    {proof hashes : List Item} {found : List (Nat × Item) × List Item × List Item}
    (h : (calculate_peaks_hashes.peaks b M (peak_pos :: peaks) leaves proof hashes :
      Outcome (Error σ μ) _) = ok found) :
    ∃ taken later, take_while_vec leaves (fun leaf => leaf.1 ≤ peak_pos) = (taken, later) ∧
      ((taken = [] ∧ proof = [] ∧ found = (later, [], hashes)) ∨
        ∃ root rest, PeakRoot σ b M peak_pos (taken, proof) (root, rest) ∧
          (calculate_peaks_hashes.peaks b M peaks later rest (hashes ++ [root]) :
            Outcome (Error σ μ) _) = ok found) := by
  rcases hsplit : take_while_vec leaves fun leaf => leaf.1 ≤ peak_pos with ⟨taken, later⟩
  refine ⟨taken, later, rfl, ?_⟩
  rw [calculate_peaks_hashes.peaks, hsplit] at h
  cases taken with
  | nil =>
    cases proof with
    | nil =>
      cases h
      exact .inl ⟨rfl, rfl, rfl⟩
    | cons root proof => exact .inr ⟨root, proof, .item root proof, h⟩
  | cons leaf taken =>
    obtain ⟨pos, item⟩ := leaf
    simp only at h
    split at h
    · rename_i hsingle
      obtain ⟨rfl, rfl⟩ := hsingle
      exact .inr ⟨item, proof, .leaf item proof, h⟩
    · rename_i hmany
      obtain ⟨⟨root, rest⟩, hroot, h⟩ := bind_eq_ok_iff.mp h
      refine .inr ⟨root, rest, .group (by simp) (fun heq => hmany ?_) hroot, h⟩
      simpa [and_comm] using heq

/-- Leaves at the same positions, as many proof items and as many roots. -/
def SameTrace (state state' : List (Nat × Item) × List Item × List Item) : Prop :=
  state.1.map (·.1) = state'.1.map (·.1) ∧ state.2.1.length = state'.2.1.length ∧
    state.2.2.length = state'.2.2.length

theorem take_while_vec_shape {leaves leaves' taken taken' later later' : List (Nat × Item)}
    {peak_pos : Nat} (hleaves : leaves.map (·.1) = leaves'.map (·.1))
    (h : take_while_vec leaves (fun leaf => leaf.1 ≤ peak_pos) = (taken, later))
    (h' : take_while_vec leaves' (fun leaf => leaf.1 ≤ peak_pos) = (taken', later')) :
    leaves = taken ++ later ∧ leaves' = taken' ++ later' ∧
      taken.map (·.1) = taken'.map (·.1) ∧ later.map (·.1) = later'.map (·.1) := by
  obtain ⟨rfl, rfl⟩ := Prod.mk.inj h
  obtain ⟨rfl, rfl⟩ := Prod.mk.inj h'
  have htaken (xs : List (Nat × Item)) :
      (xs.takeWhile fun leaf => decide (leaf.1 ≤ peak_pos)).map (·.1) =
        (xs.map (·.1)).takeWhile fun pos => decide (pos ≤ peak_pos) := by
    rw [List.takeWhile_map]
    rfl
  have hlater (xs : List (Nat × Item)) :
      (xs.dropWhile fun leaf => decide (leaf.1 ≤ peak_pos)).map (·.1) =
        (xs.map (·.1)).dropWhile fun pos => decide (pos ≤ peak_pos) := by
    rw [List.dropWhile_map]
    rfl
  refine ⟨List.takeWhile_append_dropWhile.symm, List.takeWhile_append_dropWhile.symm, ?_, ?_⟩
  · rw [htaken, htaken, hleaves]
  · rw [hlater, hlater, hleaves]

theorem peaks_injects (hmerge : MergesApart M.merge) (peaks : List Nat) :
    Injects SameTrace SameTrace fun state =>
      (calculate_peaks_hashes.peaks b M peaks state.1 state.2.1 state.2.2 : Outcome (Error σ μ) _) := by
  induction peaks with
  | nil =>
    rintro ⟨leaves, proof, hashes⟩ ⟨leaves', proof', hashes'⟩ found found' hsame h h'
    cases h
    cases h'
    exact ⟨hsame, id⟩
  | cons peak_pos peaks ih =>
    rintro ⟨leaves, proof, hashes⟩ ⟨leaves', proof', hashes'⟩ found found' ⟨hleaves, hproof, hhashes⟩ h h'
    simp only at hleaves hproof hhashes h h'
    obtain ⟨taken, later, hsplit, hfound⟩ := peaks_cons_cases h
    obtain ⟨taken', later', hsplit', hfound'⟩ := peaks_cons_cases h'
    obtain ⟨rfl, rfl, htaken, hlater⟩ := take_while_vec_shape hleaves hsplit hsplit'
    rcases hfound with ⟨rfl, rfl, rfl⟩ | ⟨root, rest, hroot, hrest⟩
    · obtain rfl : taken' = [] := List.map_eq_nil_iff.mp htaken.symm
      obtain rfl : proof' = [] := List.length_eq_zero_iff.mp hproof.symm
      rcases hfound' with ⟨-, -, rfl⟩ | ⟨root', rest', hroot', -⟩
      · refine ⟨⟨hlater, rfl, hhashes⟩, fun heq => ?_⟩
        cases heq
        rfl
      · cases hroot' with
        | group hne => exact absurd rfl hne
    · rcases hfound' with ⟨rfl, rfl, -⟩ | ⟨root', rest', hroot', hrest'⟩
      · obtain rfl : taken = [] := List.map_eq_nil_iff.mp htaken
        obtain rfl : proof = [] := List.length_eq_zero_iff.mp hproof
        cases hroot with
        | group hne => exact absurd rfl hne
      · obtain ⟨hlength, hback⟩ := hroot.injects hmerge ⟨htaken, hproof⟩ hroot'
        have hsame : SameTrace (later, rest, hashes ++ [root]) (later', rest', hashes' ++ [root']) :=
          ⟨hlater, hlength, by simpa using hhashes⟩
        obtain ⟨hshape, hstart⟩ := ih hsame hrest hrest'
        refine ⟨hshape, fun heq => ?_⟩
        have hstate := hstart heq
        simp only [Prod.mk.injEq, List.append_singleton_inj] at hstate
        obtain ⟨rfl, rfl, rfl, rfl⟩ := hstate
        obtain ⟨rfl, rfl⟩ := Prod.mk.inj (hback rfl)
        rfl

/-- Sorting and removing repeats loses nothing of pairs with distinct positions. -/
theorem eq_of_sortDedup {leaves leaves' : List (Nat × Item)} (hnodup : (leaves.map (·.1)).Nodup)
    (hleaves : leaves.map (·.1) = leaves'.map (·.1))
    (hsort : sortDedup (·.1) leaves = sortDedup (·.1) leaves') : leaves = leaves' := by
  have hsub : ∀ leaf ∈ leaves, leaf ∈ leaves' := by
    intro leaf hleaf
    obtain ⟨found, hfound, hkey⟩ := sortDedup_covers (·.1) hleaf
    have heq : found = leaf :=
      List.inj_on_of_nodup_map hnodup (mem_of_mem_sortDedup hfound) hleaf hkey
    rw [heq, hsort] at hfound
    exact mem_of_mem_sortDedup hfound
  clear hsort
  induction leaves generalizing leaves' with
  | nil => exact (List.map_eq_nil_iff.mp hleaves.symm).symm
  | cons leaf rest ih =>
    cases leaves' with
    | nil => simp at hleaves
    | cons leaf' rest' =>
      rw [List.map_cons, List.map_cons, List.cons.injEq] at hleaves
      rw [List.map_cons, List.nodup_cons] at hnodup
      have hfirst : leaf = leaf' := by
        rcases List.mem_cons.mp (hsub leaf List.mem_cons_self) with heq | hlater
        · exact heq
        · exact absurd (hleaves.2 ▸ List.mem_map_of_mem hlater) hnodup.1
      have hrest : ∀ other ∈ rest, other ∈ rest' := by
        intro other hother
        rcases List.mem_cons.mp (hsub other (List.mem_cons_of_mem _ hother)) with rfl | hlater
        · exact absurd (hfirst ▸ List.mem_map_of_mem hother) hnodup.1
        · exact hlater
      rw [hfirst, ih hnodup.2 hleaves.2 hrest]

/-- The loop of the bagging gives back the peaks it started from. -/
theorem bag_rhs_peaks.bag_injects (hpeaks : MergesApart M.merge_peaks) {right_peak right_peak' root : Item}
    {rest rest' : List Item} (hlength : rest.length = rest'.length)
    (h : bag_rhs_peaks.bag M right_peak rest = ok root)
    (h' : bag_rhs_peaks.bag M right_peak' rest' = ok root) : right_peak = right_peak' ∧ rest = rest' := by
  induction rest generalizing right_peak right_peak' rest' with
  | nil =>
    obtain rfl : rest' = [] := List.length_eq_zero_iff.mp hlength.symm
    rw [bag_rhs_peaks.bag] at h h'
    exact ⟨ok.inj (h.trans h'.symm), rfl⟩
  | cons left_peak rest ih =>
    cases rest' with
    | nil => simp at hlength
    | cons left_peak' rest' =>
      obtain ⟨parent, hparent, h⟩ := bind_eq_ok_iff.mp h
      obtain ⟨parent', hparent', h'⟩ := bind_eq_ok_iff.mp h'
      obtain ⟨rfl, rfl⟩ := ih (Nat.succ_injective hlength) h h'
      obtain ⟨rfl, rfl⟩ := hpeaks hparent hparent'
      exact ⟨rfl, rfl⟩

theorem bagging_peaks_hashes_injects (hpeaks : MergesApart M.merge_peaks) {hashes hashes' : List Item}
    {root : Item} (hlength : hashes.length = hashes'.length)
    (h : (bagging_peaks_hashes M hashes : Outcome (Error σ μ) Item) = ok root)
    (h' : (bagging_peaks_hashes M hashes' : Outcome (Error σ μ) Item) = ok root) : hashes = hashes' := by
  have hbag {hashes : List Item} (h : (bagging_peaks_hashes M hashes : Outcome (Error σ μ) Item) = ok root) :
      ∃ right_peak rest, hashes.reverse = right_peak :: rest ∧
        bag_rhs_peaks.bag M right_peak rest = ok root := by
    obtain ⟨bagged, hbagged, hroot⟩ := bind_eq_ok_iff.mp h
    rw [okOr_eq_ok_iff] at hroot
    rw [orMergeError_eq_ok_iff, bag_rhs_peaks, hroot] at hbagged
    cases hreverse : hashes.reverse with
    | nil => simp [hreverse] at hbagged
    | cons right_peak rest =>
      rw [hreverse] at hbagged
      obtain ⟨value, hvalue, hsome⟩ := map_eq_ok_iff.mp hbagged
      cases hsome
      exact ⟨right_peak, rest, rfl, hvalue⟩
  obtain ⟨right_peak, rest, hreverse, hroot⟩ := hbag h
  obtain ⟨right_peak', rest', hreverse', hroot'⟩ := hbag h'
  have hcount : (right_peak :: rest).length = (right_peak' :: rest').length := by
    rw [← hreverse, ← hreverse', List.length_reverse, List.length_reverse, hlength]
  obtain ⟨rfl, rfl⟩ := bag_rhs_peaks.bag_injects hpeaks (Nat.succ_injective hcount) hroot hroot'
  exact List.reverse_injective (hreverse.trans hreverse'.symm)

/-- Past the shortcut for a tree of one node, the hashes are the roots of the
    peak loop and at most one item more. -/
theorem calculate_peaks_hashes_cases {leaves : List (Nat × Item)} {mmr_size : Nat}
    {proof hashes : List Item}
    (hspecial : ¬ (mmr_size = 1 ∧ leaves.length = 1 ∧ leaves.head?.map (·.1) = some 0))
    (h : (calculate_peaks_hashes b M leaves mmr_size proof : Outcome (Error σ μ) _) = ok hashes) :
    ∃ peaks rest roots,
      (do let iter ← PeaksIter.new b mmr_size; collect (PeaksIter.next b) iter :
        Outcome (Error σ μ) _) = ok peaks ∧
      (calculate_peaks_hashes.peaks b M peaks (sortDedup (·.1) leaves) proof [] :
        Outcome (Error σ μ) _) = ok ([], rest, roots) ∧
      rest.length ≤ 1 ∧ hashes = roots ++ rest := by
  obtain ⟨inner, -, h⟩ := bind_eq_ok_iff.mp h
  cases inner with
  | true => simp at h
  | false =>
    simp only [Bool.false_eq_true, if_false, hspecial] at h
    obtain ⟨iter, hiter, h⟩ := bind_eq_ok_iff.mp h
    obtain ⟨len, -, h⟩ := bind_eq_ok_iff.mp h
    obtain ⟨capacity, -, h⟩ := bind_eq_ok_iff.mp h
    obtain ⟨peaks, hpeaks, h⟩ := bind_eq_ok_iff.mp h
    obtain ⟨⟨left, rest, roots⟩, hloop, h⟩ := bind_eq_ok_iff.mp h
    refine ⟨peaks, rest, roots, by rw [hiter, ok_bind, hpeaks], ?_⟩
    simp only at h
    split at h
    · cases h
    · rename_i hleft
      rw [not_ne_iff] at hleft
      subst hleft
      refine ⟨hloop, ?_⟩
      split at h
      · cases h
        simp
      · cases h
        simp
      · cases h

theorem calculate_peaks_hashes_injects (hmerge : MergesApart M.merge) {leaves leaves' : List (Nat × Item)}
    {mmr_size : Nat} {proof proof' hashes hashes' : List Item}
    (hspecial : ¬ (mmr_size = 1 ∧ leaves.map (·.1) = [0] ∧ 0 < proof.length))
    (hnodup : (leaves.map (·.1)).Nodup) (hsame : SameShape (leaves, proof) (leaves', proof'))
    (h : (calculate_peaks_hashes b M leaves mmr_size proof : Outcome (Error σ μ) _) = ok hashes)
    (h' : (calculate_peaks_hashes b M leaves' mmr_size proof' : Outcome (Error σ μ) _) = ok hashes') :
    hashes.length = hashes'.length ∧ (hashes = hashes' → leaves = leaves' ∧ proof = proof') := by
  obtain ⟨hleaves, hproof⟩ := hsame
  simp only at hleaves hproof
  have hcount : leaves.length = leaves'.length := by simpa using congrArg List.length hleaves
  have hheads : leaves.head?.map (·.1) = leaves'.head?.map (·.1) := by
    rw [← List.head?_map, ← List.head?_map, hleaves]
  by_cases hsingle : mmr_size = 1 ∧ leaves.length = 1 ∧ leaves.head?.map (·.1) = some 0
  · obtain ⟨rfl, item, rfl⟩ := single_of_special hsingle
    rw [hcount, hheads] at hsingle
    obtain ⟨-, item', rfl⟩ := single_of_special hsingle
    obtain rfl : proof = [] := by
      by_contra hne
      exact hspecial ⟨rfl, rfl, List.length_pos_iff.mpr hne⟩
    obtain rfl : proof' = [] := List.length_eq_zero_iff.mp hproof.symm
    rw [calculate_peaks_hashes_single] at h h'
    cases h
    cases h'
    refine ⟨rfl, fun heq => ?_⟩
    cases heq
    exact ⟨rfl, rfl⟩
  · obtain ⟨peaks, rest, roots, hpeaks, hloop, hshort, rfl⟩ := calculate_peaks_hashes_cases hsingle h
    rw [hcount, hheads] at hsingle
    obtain ⟨peaks', rest', roots', hpeaks', hloop', hshort', rfl⟩ :=
      calculate_peaks_hashes_cases hsingle h'
    rw [hpeaks, ok.injEq] at hpeaks'
    subst hpeaks'
    have hkeys (xs : List (Nat × Item)) :
        (sortDedup (·.1) xs).map (·.1) = sortDedup id (xs.map (·.1)) :=
      (sortDedup_map (fun leaf : Nat × Item => (rfl : id leaf.1 = leaf.1)) xs).symm
    have hsorted : (sortDedup (·.1) leaves).map (·.1) = (sortDedup (·.1) leaves').map (·.1) := by
      rw [hkeys, hkeys, hleaves]
    have hstart : SameTrace (sortDedup (·.1) leaves, proof, []) (sortDedup (·.1) leaves', proof', []) :=
      ⟨hsorted, hproof, rfl⟩
    obtain ⟨⟨-, hrest, hroots⟩, hback⟩ := peaks_injects hmerge peaks hstart hloop hloop'
    simp only at hrest hroots
    refine ⟨by simp [hrest, hroots], fun heq => ?_⟩
    obtain ⟨rfl, rfl⟩ := List.append_inj heq hroots
    have hstate := hback rfl
    simp only [Prod.mk.injEq, and_true] at hstate
    exact ⟨eq_of_sortDedup hnodup hleaves hstate.1, hstate.2⟩

/-- A root pins the item at every position and every item of the proof, but for
    the tree of one node, where the proof is not looked at. -/
theorem InclusionProof.root_binds_iff (b : Profile) (hmerge : MergesApart M.merge)
    (hpeaks : MergesApart M.merge_peaks) (mmr_size : Nat) {positions : List Nat}
    (hnodup : positions.Nodup) (count : Nat) :
    (∀ leaves leaves' proof proof' root, leaves.map (·.1) = positions → leaves'.map (·.1) = positions →
      proof.length = count → proof'.length = count →
      ((InclusionProof.new mmr_size proof).calculate_root b M leaves : Outcome (Error σ μ) _) = ok root →
      ((InclusionProof.new mmr_size proof').calculate_root b M leaves' : Outcome (Error σ μ) _) = ok root →
      leaves = leaves' ∧ proof = proof') ↔
      ¬ (mmr_size = 1 ∧ positions = [0] ∧ 0 < count ∧ ∃ x y : Item, x ≠ y) := by
  constructor
  · rintro hbinds ⟨rfl, rfl, hcount, x, y, hne⟩
    have hroot (z : Item) : ((InclusionProof.new 1 (List.replicate count z)).calculate_root b M [(0, x)] :
        Outcome (Error σ μ) _) = ok x := by
      rw [InclusionProof.calculate_root, mmr.calculate_root, InclusionProof.new,
        calculate_peaks_hashes_single, ok_bind]
      rfl
    have hproofs := (hbinds _ _ _ _ x rfl rfl (List.length_replicate) (List.length_replicate)
      (hroot x) (hroot y)).2
    rw [List.replicate_right_inj hcount.ne'] at hproofs
    exact hne hproofs
  · rintro hordinary leaves leaves' proof proof' root rfl hleaves rfl hproof h h'
    by_cases hitems : ∃ x y : Item, x ≠ y
    · obtain ⟨hashes, hhashes, hroot⟩ := bind_eq_ok_iff.mp h
      obtain ⟨hashes', hhashes', hroot'⟩ := bind_eq_ok_iff.mp h'
      have hspecial : ¬ (mmr_size = 1 ∧ leaves.map (·.1) = [0] ∧ 0 < proof.length) :=
        fun hsingle => hordinary ⟨hsingle.1, hsingle.2.1, hsingle.2.2, hitems⟩
      obtain ⟨hlength, hback⟩ := calculate_peaks_hashes_injects hmerge hspecial hnodup
        ⟨hleaves.symm, hproof.symm⟩ hhashes hhashes'
      exact hback (bagging_peaks_hashes_injects hpeaks hlength hroot hroot')
    · push Not at hitems
      have hinj : Function.Injective fun leaf : Nat × Item => leaf.1 :=
        fun leaf leaf' hpos => Prod.ext hpos (hitems _ _)
      exact ⟨hinj.list_map hleaves.symm, List.ext_getElem hproof.symm fun _ _ _ => hitems _ _⟩

/-- Two leaves of four, in the wrong order and with the two siblings in the proof. -/
theorem InclusionProof.root_binds_four :
    ((InclusionProof.new 7 [.leaf [2], .leaf [4]]).calculate_root .debug
        (Term.hasher.toMerge : Merge (Term Empty) Empty) [(3, .leaf [3]), (0, .leaf [1])] :
        Outcome (Error Empty Empty) _) =
      ok (.node 0 (.node 0 (.leaf [1]) (.leaf [2])) (.node 0 (.leaf [3]) (.leaf [4]))) ∧
    [3, 0].Nodup ∧ ∀ leaves leaves' proof proof' root, leaves.map (·.1) = [3, 0] →
      leaves'.map (·.1) = [3, 0] → proof.length = 2 → proof'.length = 2 →
      ((InclusionProof.new 7 proof).calculate_root .debug (Term.hasher.toMerge : Merge (Term Empty) Empty)
        leaves : Outcome (Error Empty Empty) _) = ok root →
      ((InclusionProof.new 7 proof').calculate_root .debug (Term.hasher.toMerge : Merge (Term Empty) Empty)
        leaves' : Outcome (Error Empty Empty) _) = ok root → leaves = leaves' ∧ proof = proof' := by
  have hmerge : MergesApart (Term.hasher.toMerge : Merge (Term Empty) Empty).merge := by
    intro left right left' right' parent h h'
    cases h
    cases h'
    exact ⟨rfl, rfl⟩
  exact ⟨rfl, by decide,
    (InclusionProof.root_binds_iff .debug hmerge hmerge 7 (by decide) 2).mpr (by simp)⟩

/-- A proof for the tree of one node may hold any items. -/
theorem InclusionProof.surplus_ignored :
    ((InclusionProof.new 1 [.leaf [7]]).calculate_root .debug (Term.hasher.toMerge : Merge (Term Empty) Empty)
        [(0, .leaf [1])] : Outcome (Error Empty Empty) _) = ok (.leaf [1]) ∧
      ((InclusionProof.new 1 [.leaf [8]]).calculate_root .debug
        (Term.hasher.toMerge : Merge (Term Empty) Empty) [(0, .leaf [1])] :
          Outcome (Error Empty Empty) _) = ok (.leaf [1]) ∧
      [Term.leaf [7]] ≠ [(Term.leaf [8] : Term Empty)] :=
  ⟨rfl, rfl, by decide⟩

end merkleberg.mmr
