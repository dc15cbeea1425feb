import Merkleberg.Mmriver.Subtrees

open machine machine.Outcome
open forest
open merkleberg.helper

namespace merkleberg.mmriver

variable {Item σ μ : Type} {b : Profile} {H : Hasher Item} {A B : List Bytes}

/-- Some path leads from a node of a log, at its own position, to a root. -/
def ProvesTo (b : Profile) (M : Merge Item μ) (H : Hasher Item) (A : List Bytes) (node : Nat × Nat)
    (root : Item) : Prop :=
  ∃ path, LeadsTo b M (nodePos node.1 node.2, nodeItem H A node.1 node.2, path) root

theorem leadsTo_nil {M : Merge Item μ} {h k : Nat} (hindex : IndexFits b h k) (x : Item) :
    LeadsTo b M (nodePos h k, x, []) x := by
  have hheight := hindex.height_lt
  have hg : (U8.add b h 1 : Outcome μ Nat) = ok (h + 1) := Word.add_ok (by omega)
  simp only [LeadsTo, included_root, hindex.start_height_eq, included_root.climb, hg, ok_bind]

/-- Paths for old nodes one by one are the paths of one proof. -/
theorem exists_paths {α β : Type} {P : Nat × α × List α → α → Prop} {position : β → Nat} {item : β → α}
    {olds : List β} {found : List α}
    (hleads : List.Forall₂ (fun old root => ∃ path, P (position old, item old, path) root) olds found) :
    ∃ paths : List (List α), olds.length = paths.length ∧
      List.Forall₂ P ((olds.map position).zip ((olds.map item).zip paths)) found := by
  induction hleads with
  | nil => exact ⟨[], rfl, .nil⟩
  | cons hhere _ ih =>
    obtain ⟨path, hpath⟩ := hhere
    obtain ⟨paths, hlength, hpaths⟩ := ih
    exact ⟨path :: paths, congrArg (· + 1) hlength, .cons hpath hpaths⟩

/-- With the size of the old log, a proof is accepted for some paths exactly when
    the old peaks prove to roots that follow the new accumulator. -/
theorem exists_verify_iff [DecidableEq Item] {M : Merge Item μ} (hA : A ≠ [])
    (hfits : nodeCount A.length + 1 < 2 ^ 64) (mmr_size_to : Nat) (accumulator : List Item) :
    (∃ paths, ((ConsistencyProof.new (nodeCount A.length) mmr_size_to paths).verify b M (peakItems H A)
        accumulator : Outcome (Error σ μ) _) = ok true) ↔
      ∃ found, List.Forall₂ (ProvesTo b M H A) (peaks A.length) found ∧ Follows found accumulator := by
  have hpeaks := peaksOfSize_eq (ε := Error σ μ) (b := b) (List.length_pos_iff.mpr hA) hfits
  simp only [ConsistencyProof.verify_iff, ConsistencyProof.new, hpeaks, ok.injEq]
  constructor
  · rintro ⟨paths, _, found, rfl, _, hlength, hfound, hfollows⟩
    have hstarts : List.Forall₂ (fun node p => p = nodePos node.1 node.2) (peaks A.length)
        (peakPositions A.length) :=
      List.forall₂_map_right_iff.mpr (List.forall₂_same.mpr fun _ _ => rfl)
    refine ⟨found, (leads_of_entries hstarts hlength hfound).imp ?_, hfollows⟩
    rintro node root ⟨_, path, rfl, hpath⟩
    exact ⟨path, hpath⟩
  · rintro ⟨found, hproves, hfollows⟩
    obtain ⟨paths, hlength, hpaths⟩ := exists_paths hproves
    refine ⟨paths, _, found, rfl, ?_, ?_, hpaths, hfollows⟩
    · rw [peakPositions, peakItems, List.length_map, List.length_map]
    · rw [peakPositions, List.length_map, hlength]

section Last

variable {front : List Bytes} {last : Bytes}

/-- Behind evenly many leaves a last one is a peak of its own. -/
theorem peaks_concat (heven : front.length % 2 = 0) :
    peaks (front ++ [last]).length = peaks front.length ++ [(0, front.length)] := by
  have hhalf : front.length = 2 * (front.length / 2) := by omega
  rw [List.length_append, List.length_singleton, hhalf]
  exact peaks_odd _

theorem mem_peaks_concat (heven : front.length % 2 = 0) {node : Nat × Nat}
    (hnode : node ∈ peaks front.length) : node ∈ peaks (front ++ [last]).length := by
  rw [peaks_concat heven]
  exact List.mem_append_left _ hnode

theorem nodeItem_last (H : Hasher Item) (front : List Bytes) (last : Bytes) :
    nodeItem H (front ++ [last]) 0 front.length = H.leaf_hash last := by
  rw [nodeItem_zero, leafItem_append_self]

/-- The accumulator ends with the element of such a leaf. -/
theorem peakItems_concat (H : Hasher Item) (heven : front.length % 2 = 0) :
    peakItems H (front ++ [last]) = peakItems H front ++ [H.leaf_hash last] := by
  rw [peakItems_append H front [last], peakItems, peaks_concat heven, List.map_append,
    List.map_singleton, nodeItem_last]

end Last

/-- A node with the value of a leaf is a leaf. -/
theorem height_eq_zero_of_leaf (hinj : H.PosInjective) {h k : Nat} (hfits : nodePos h k + 1 < 2 ^ 64)
    {d : Bytes} (heq : nodeItem H B h k = H.leaf_hash d) : h = 0 := by
  cases h with
  | zero => rfl
  | succ g => exact absurd heq (hinj.merge_pos_ne_leaf hfits)

/-- The accumulator of evenly many leaves has no element of a leaf. -/
theorem leaf_hash_not_mem (hinj : H.PosInjective) (heven : A.length % 2 = 0)
    (hfits : nodeCount A.length + 1 < 2 ^ 64) (d : Bytes) : H.leaf_hash d ∉ peakItems H A := by
  intro hmem
  obtain ⟨node, hnode, heq⟩ := List.mem_map.mp hmem
  have hbelow := nodePos_lt_of_peak hnode
  have hzero := height_eq_zero_of_leaf hinj (by omega) heq
  exact absurd hzero (peak_inner heven hnode).ne'

/-- A log with the element of a leaf in its accumulator ends with that leaf, behind
    evenly many others. -/
theorem exists_concat_of_leaf_mem (hinj : H.PosInjective) (hleaf : Function.Injective H.leaf_hash)
    (hfits : nodeCount B.length + 1 < 2 ^ 64) {d : Bytes} (hmem : H.leaf_hash d ∈ peakItems H B) :
    ∃ init, B = init ++ [d] ∧ init.length % 2 = 0 := by
  obtain ⟨⟨h, k⟩, hpeak, heq⟩ := List.mem_map.mp hmem
  change nodeItem H B h k = H.leaf_hash d at heq
  have hbelow : nodePos h k < nodeCount B.length := nodePos_lt_of_peak hpeak
  obtain rfl : h = 0 := height_eq_zero_of_leaf hinj (by omega) heq
  obtain ⟨hk, hodd⟩ := peak_of_height_zero hpeak
  rcases List.eq_nil_or_concat B with rfl | ⟨init, y, rfl⟩
  · simp at hodd
  rw [List.concat_eq_append] at heq hk hodd ⊢
  rw [List.length_append, List.length_singleton] at hk hodd
  obtain rfl : k = init.length := by omega
  have hlast := hleaf ((nodeItem_last H init y).symm.trans heq)
  exact ⟨init, by rw [hlast], by omega⟩

/-- Log `B` has leaves spliced in before the last leaf of `A`: an even number of
    them, behind an even number, and starting with another datum than that of the
    last leaf. The mountain right before the last leaf of `B` starts in front of
    the splice, or the splice is all there is and has one mountain. -/
def Spliced (A B : List Bytes) : Prop :=
  ∃ front middle last, A = front ++ [last] ∧ B = front ++ middle ++ [last] ∧
    front.length % 2 = 0 ∧ middle.length % 2 = 0 ∧ middle ≠ [] ∧ middle.head? ≠ some last ∧
    ∃ before h k, peaks (front ++ middle).length = before ++ [(h, k)] ∧
      (2 ^ h * k < front.length ∨ front = [] ∧ before = [])

theorem Spliced.not_prefix (hspliced : Spliced A B) : ¬ A <+: B := by
  obtain ⟨front, middle, last, rfl, rfl, _, _, hne, hhead, _⟩ := hspliced
  rw [List.append_assoc, List.prefix_append_right_inj]
  rintro ⟨rest, hrest⟩
  obtain ⟨x, middle, rfl⟩ := List.exists_cons_of_ne_nil hne
  obtain ⟨rfl, _⟩ := List.cons.inj hrest
  exact hhead rfl

section Accepted

variable {front middle : List Bytes} {last : Bytes}

/-- The elements of `B` prove the peaks in front of the splice to peaks of `B`. -/
theorem provesTo_of_below (hfits : nodeCount (front ++ middle ++ [last]).length + 1 < allOnesLimit b)
    {tops : List (Nat × Nat)} (hbelow : Below (front ++ middle).length (peaks front.length) tops) :
    List.Forall₂ (ProvesTo b (H.toMerge : Merge Item μ) H (front ++ [last])) (peaks front.length)
      (tops.map fun node => nodeItem H (front ++ middle ++ [last]) node.1 node.2) := by
  have hinside : ∀ old ∈ peaks front.length, 2 ^ old.1 * (old.2 + 1) ≤ front.length :=
    fun old hold => (mem_peaks_iff.mp hold).1
  refine List.forall₂_map_right_iff.mpr (((List.forall₂_and_left _ _).mpr ⟨hinside, hbelow⟩).imp ?_)
  rintro old top ⟨hold, htop, hunder⟩
  have hlonger := (List.prefix_append (front ++ middle) [last]).length_le
  have hroot := included_root_eq (μ := μ) H (front ++ middle ++ [last]) hfits
    ((mem_peaks_iff.mp htop).1.trans hlonger) hunder
  rw [List.append_assoc, nodeItem_append H (middle ++ [last]) hold, ← nodeItem_append H [last] hold,
    ← List.append_assoc] at hroot
  exact ⟨_, hroot⟩

/-- Without a path the last leaf of `A` proves to the last leaf of `B`. -/
theorem last_provesTo (hfits : nodeCount (front ++ [last]).length + 1 < allOnesLimit b) :
    ProvesTo b (H.toMerge : Merge Item μ) H (front ++ [last]) (0, front.length)
      (nodeItem H (front ++ middle ++ [last]) 0 (front ++ middle).length) := by
  have hinside : 2 ^ 0 * (front.length + 1) ≤ (front ++ [last]).length := by simp
  rw [nodeItem_last H (front ++ middle) last, ← nodeItem_last H front last]
  exact ⟨[], leadsTo_nil (IndexFits.of_inside hfits hinside) _⟩

/-- A splice is accepted. -/
theorem Spliced.accepted (hinj : H.PosInjective) (hfitsA : nodeCount A.length + 1 < allOnesLimit b)
    (hfitsB : nodeCount B.length + 1 < allOnesLimit b) (hspliced : Spliced A B) :
    ∃ found, List.Forall₂ (ProvesTo b (H.toMerge : Merge Item μ) H A) (peaks A.length) found ∧
      Follows found (peakItems H B) := by
  obtain ⟨front, middle, last, rfl, rfl, hfront, hmiddle, _, _, before, h, k, hpeaks, hmountain⟩ :=
    hspliced
  have hlimit := allOnesLimit_le b
  have heven : (front ++ middle).length % 2 = 0 := by
    rw [List.length_append]
    omega
  have hother : (0, (front ++ middle).length) ∉ peaks (front ++ middle).length :=
    fun hmem => absurd (peak_inner heven hmem) (Nat.lt_irrefl 0)
  obtain ⟨tops, hbelow, hfollows⟩ : ∃ tops, Below (front ++ middle).length (peaks front.length) tops ∧
      Follows (tops ++ [(0, (front ++ middle).length)])
        (peaks (front ++ middle).length ++ [(0, (front ++ middle).length)]) := by
    rcases hmountain with hinside | ⟨rfl, rfl⟩
    · exact exists_tops_snoc (List.prefix_append front middle).length_le hpeaks hinside hother
    · refine ⟨[], ?_, ?_⟩
      · rw [List.length_nil, peaks_zero]
        exact .nil
      · rw [hpeaks] at hother ⊢
        exact .move (fun heq => hother (by simp [heq])) (.nil _)
  rw [← peaks_concat heven] at hfollows
  refine ⟨_, ?_, hfollows.map (nodeItem_inj_on_peaks hinj (by omega))⟩
  rw [peaks_concat hfront, List.map_append, List.map_singleton]
  exact List.rel_append (provesTo_of_below hfitsB hbelow) (.cons (last_provesTo hfitsA) .nil)

end Accepted

end merkleberg.mmriver
