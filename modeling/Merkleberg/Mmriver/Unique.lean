import Merkleberg.Mmriver.Inclusion
import Merkleberg.Mmriver.Subtrees

open machine machine.Outcome
open forest
open merkleberg.helper

namespace merkleberg.mmriver

variable {Item Store σ μ : Type} {b : Profile}
  {R : MMRStoreReadOps Store Item σ} {W : MMRStoreWriteOps Store Item σ} {H : Hasher Item}
  {data : List Bytes}

/-- A node that is the hash of a value and its sibling has both as children. -/
theorem nodeItem_eq_mergeAt_sibling (hinj : H.PosInjective) {g m : Nat} {x y : Item}
    (hfits : nodePos (g + 1) (m / 2) + 1 < 2 ^ 64)
    (heq : mergeAt (H.merge_pos (nodePos (g + 1) (m / 2) + 1)) m x y =
      nodeItem H data (g + 1) (m / 2)) :
    x = nodeItem H data g m ∧ y = nodeItem H data g (sibling m) := by
  obtain ⟨_, _, hx⟩ := nodeItem_eq_mergeAt hinj hfits hfits heq
  rw [← mergeAt_nodeItem H data g m, mergeAt, mergeAt] at heq
  refine ⟨hx, ?_⟩
  split at heq
  · exact (hinj.merge_pos_inj hfits hfits heq).2.1
  · exact (hinj.merge_pos_inj hfits hfits heq).2.2

/-- A path with an item that leads to a node of a log consists of the siblings on
    the way from the node it starts at. -/
theorem included_root_climb_path (hinj : H.PosInjective) {n h k : Nat}
    (hfits : nodeCount n + 1 < allOnesLimit b) (hinside : 2 ^ h * (k + 1) ≤ n) {proof : List Item}
    {g m : Nat} (hindex : IndexFits b g m) {x : Item} (hne : proof ≠ [])
    (hclimb : included_root.climb b (H.toMerge : Merge Item μ) g (nodePos g m) x proof =
      ok (nodeItem H data h k)) :
    proof = (siblings (h - g) g m).map fun node => nodeItem H data node.1 node.2 := by
  have hlimit := allOnesLimit_le b
  have hbelow := nodePos_lt_nodeCount_iff.mpr hinside
  have hplace : nodePos h k + 1 < 2 ^ 64 := by omega
  induction proof generalizing g m x with
  | nil => exact absurd rfl hne
  | cons item proof ih =>
    obtain ⟨_, hunder, hlower⟩ := included_root_climb_binds hinj hplace hindex hclimb
    have hparent := hunder.to_parent hlower
    have hparent_index := IndexFits.of_inside hfits (hparent.leaves.2.trans hinside)
    have hparent_fits : nodePos (g + 1) (m / 2) + 1 < 2 ^ 64 := by
      have hle := hparent.nodePos_le
      omega
    rw [included_root_step hindex] at hclimb
    rw [show h - g = h - (g + 1) + 1 by omega, siblings, List.map_cons]
    cases proof with
    | nil =>
      obtain ⟨_, top, htop, hvalue⟩ := included_root_climb_descends hinj hplace hclimb
      obtain ⟨_, rfl⟩ := htop.eq_of_le (Nat.le_refl h)
      obtain ⟨rfl, rfl, _⟩ := nodeItem_eq_mergeAt hinj hparent_fits hplace hvalue
      obtain ⟨_, hsibling⟩ := nodeItem_eq_mergeAt_sibling hinj hparent_fits hvalue
      rw [hsibling, Nat.sub_self]
      rfl
    | cons next rest =>
      obtain ⟨hvalue, _, _⟩ := included_root_climb_binds hinj hplace hparent_index hclimb
      obtain ⟨_, hsibling⟩ := nodeItem_eq_mergeAt_sibling hinj hparent_fits hvalue
      rw [hsibling, ih hparent_index (List.cons_ne_nil _ _) hclimb]

/-- A tree that a checked build could build could have been built unchecked. -/
theorem MMRIVER.Holds.release {S : MapStore R W} {under : Nat → Option Item} {self : MMRIVER Item Store}
    (h : self.Holds .debug S under H data) : self.Holds .release S under H data := by
  refine ⟨h.forest, h.height_fits.trans_le ?_⟩
  decide

/-- The proof that is generated for a node of a checked run: a checked build does not
    make the one of the second leaf, and an unchecked build does. -/
theorem MMRIVER.Holds.gen_inclusion_proof_unless {S : MapStore R W} {under : Nat → Option Item}
    {self : MMRIVER Item Store} (hself : self.Holds .debug S under H data) {g m h k : Nat}
    (hpeak : (h, k) ∈ peaks data.length) (hunder : Under g m h k) :
    (self.gen_inclusion_proof (if nodePos g m = 1 then .release else .debug) R (nodePos g m) :
        Outcome (Error σ μ) _) =
      ok (.new (nodePos g m) ((siblings (h - g) g m).map fun node => nodeItem H data node.1 node.2)) := by
  split
  · exact hself.release.gen_inclusion_proof_eq hpeak hunder (.inl rfl)
  · rename_i hindex
    refine hself.gen_inclusion_proof_eq hpeak hunder (.inr fun heq => hindex ?_)
    rw [Prod.mk.injEq] at heq
    rw [heq.1, heq.2]
    decide

section Verify

variable [DecidableEq Item]

/-- Every node has one proof. In a checked build a path with an item is accepted
    exactly when the value is stored at the index and the path is the one that is
    generated for it. So a proof of a node can be neither stretched, cut nor changed,
    and no second one exists. Only index 1 is generated unchecked, because a checked
    build panics on it. -/
theorem MMRIVER.Run.accepted_iff_generated (S : MapStore R W) (hinj : H.PosInjective) {store : Store}
    {positions : List Nat} {final : MMRIVER Item Store}
    (run : MMRIVER.Run .debug (H.toMerge : Merge Item μ) R W (MMRIVER.new 0 store) data positions final)
    (hne : data ≠ []) :
    ∃ accumulator, (final.get_accumulator .debug R : Outcome (Error σ μ) _) = ok accumulator ∧
      ∀ (index : Nat) (path : List Item) (nodehash : Item), path ≠ [] →
        (((InclusionProof.new index path).verify .debug (H.toMerge : Merge Item μ) nodehash accumulator :
            Outcome (Error σ μ) Bool) = ok true ↔
          index < final.mmr_size ∧ final.batch.get_elem .debug R index = ok (some nodehash) ∧
          (final.gen_inclusion_proof (if index = 1 then .release else .debug) R index :
            Outcome (Error σ μ) _) = ok (.new index path)) := by
  obtain ⟨hfinal, _⟩ := run.holds S (fun hb => by cases hb)
  have hfits := hfinal.height_fits
  have hlimit := allOnesLimit_le .debug
  refine ⟨_, hfinal.get_accumulator (List.length_pos_iff.mpr hne), fun index path nodehash hpath => ?_⟩
  rw [hfinal.forest.size]
  constructor
  · intro hverify
    obtain ⟨_, hmem, hroot⟩ := InclusionProof.mem_of_verify hverify
    obtain ⟨⟨h, k⟩, hpeak, rfl⟩ := List.mem_map.mp hmem
    have htop : 2 ^ h * (k + 1) ≤ data.length := (mem_peaks_iff.mp hpeak).1
    have hplace : nodePos h k + 1 < 2 ^ 64 := by
      have hbelow := nodePos_lt_nodeCount_iff.mpr htop
      omega
    obtain ⟨sibling, rest, rfl⟩ := List.exists_cons_of_ne_nil hpath
    obtain ⟨g, m, hindex, rfl, hunder, _⟩ := included_root_binds hinj hplace hroot
    obtain rfl : index = nodePos g m := hindex
    have hinside := hunder.leaves.2.trans htop
    have hstart : IndexFits .debug g m := .of_inside hfits hinside
    refine ⟨nodePos_lt_nodeCount_iff.mpr hinside, hfinal.get_elem_eq hinside, ?_⟩
    rw [InclusionProof.included_root, InclusionProof.new, included_root_eq_climb hstart] at hroot
    rw [hfinal.gen_inclusion_proof_unless hpeak hunder,
      ← included_root_climb_path hinj hfits htop hstart hpath hroot]
  · rintro ⟨hindex, hread, hproof⟩
    obtain ⟨g, m, rfl⟩ := exists_nodePos index
    have hinside := nodePos_lt_nodeCount_iff.mp hindex
    obtain ⟨⟨h, k⟩, hpeak, hunder⟩ := exists_peak_above hinside
    change Under g m h k at hunder
    rw [hfinal.get_elem_eq hinside, ok.injEq, Option.some.injEq] at hread
    rw [hfinal.gen_inclusion_proof_unless hpeak hunder, ok.injEq] at hproof
    rw [← hread, ← hproof]
    exact InclusionProof.verify_node hfits hpeak hunder

end Verify

/-- Four leaves in memory, and the one proof of the third. -/
theorem MMRIVER.Run.accepted_iff_generated_four :
    ∃ final accumulator, MMRIVER.SymbolicRun .debug [[1], [2], [3], [4]] [0, 1, 3, 4] final ∧
      ((InclusionProof.new 3 [.leaf [4], .node 3 (.leaf [1]) (.leaf [2])]).verify .debug
        (Term.hasher.toMerge : Merge (Term Empty) Empty) (.leaf [3]) accumulator :
          Outcome (Error Empty Empty) Bool) = ok true ∧
      (final.gen_inclusion_proof .debug MemStore.readOps 3 : Outcome (Error Empty Empty) _) =
        ok (.new 3 [.leaf [4], .node 3 (.leaf [1]) (.leaf [2])]) := by
  have start : MMRIVER.SymbolicRun .debug [] [] (MMRIVER.new 0 MemStore.new) := .refl
  have run := (((start.push (d := [1]) rfl).push (d := [2]) rfl).push (d := [3]) rfl).push (d := [4]) rfl
  obtain ⟨accumulator, haccumulator, hiff⟩ := MMRIVER.Run.accepted_iff_generated
    (MemStore.mapStore .debug) (Term.hasher_posInjective Empty) run (by decide)
  cases haccumulator
  have hunique := hiff 3 [.leaf [4], .node 3 (.leaf [1]) (.leaf [2])] (.leaf [3]) (List.cons_ne_nil _ _)
  exact ⟨_, [.node 7 (.node 3 (.leaf [1]) (.leaf [2])) (.node 6 (.leaf [3]) (.leaf [4]))], run, rfl,
    (hunique.mp rfl).2.2⟩

end merkleberg.mmriver
