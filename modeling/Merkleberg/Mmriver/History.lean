import Mathlib.Logic.Relation
import Merkleberg.Mmriver.Append

open machine machine.Outcome
open forest
open merkleberg.helper
open Relation

namespace merkleberg.mmriver

variable {A B C : List Bytes}

/-- All leaves of a log but an unpaired last one are at the same places in another. -/
def KeepsPairs (A B : List Bytes) : Prop := A.take (A.length / 2 * 2) <+: B

namespace KeepsPairs

theorem of_begins (hbegins : A <+: B) : KeepsPairs A B :=
  (List.take_prefix _ A).trans hbegins

theorem pairs_le (hkeeps : KeepsPairs A B) : A.length / 2 * 2 ≤ B.length := by
  have hlength := List.IsPrefix.length_le hkeeps
  rw [List.length_take] at hlength
  omega

theorem trans (hAB : KeepsPairs A B) (hBC : KeepsPairs B C) : KeepsPairs A C := by
  have hlength := hAB.pairs_le
  refine List.IsPrefix.trans (List.prefix_take_iff.mpr ⟨hAB, ?_⟩) hBC
  rw [List.length_take]
  omega

/-- A node over at least two leaves is in every later log. -/
theorem nodeItem_eq {Item : Type} (hkeeps : KeepsPairs A B) (H : Hasher Item) {h k : Nat}
    (hinner : 0 < h) (hinside : 2 ^ h * (k + 1) ≤ A.length) :
    2 ^ h * (k + 1) ≤ B.length ∧ nodeItem H A h k = nodeItem H B h k := by
  obtain ⟨level, rfl⟩ := Nat.exists_eq_add_one_of_ne_zero hinner.ne'
  have heven : 2 ^ (level + 1) * (k + 1) = 2 * (2 ^ level * (k + 1)) := by ring
  have hlength := hkeeps.pairs_le
  obtain ⟨more, hmore⟩ := hkeeps
  have hpaired : 2 ^ (level + 1) * (k + 1) ≤ (A.take (A.length / 2 * 2)).length := by
    rw [List.length_take]
    omega
  refine ⟨by omega, ?_⟩
  calc nodeItem H A (level + 1) k
      = nodeItem H (A.take (A.length / 2 * 2) ++ A.drop (A.length / 2 * 2)) (level + 1) k := by
        rw [List.take_append_drop]
    _ = nodeItem H (A.take (A.length / 2 * 2)) (level + 1) k := nodeItem_append H _ hpaired
    _ = nodeItem H B (level + 1) k := by rw [← hmore, nodeItem_append H more hpaired]

/-- A log that has all the peaks of another above its leaves in place keeps its pairs. -/
theorem of_peaks {Item : Type} {H : Hasher Item} (hinj : H.PosInjective)
    (hleaf : Function.Injective H.leaf_hash) (hfits : nodeCount A.length + 1 < 2 ^ 64)
    (hpeaks : ∀ h k, (h, k) ∈ peaks A.length → 0 < h →
      nodeItem H A h k = nodeItem H B h k ∧ 2 ^ h * (k + 1) ≤ B.length) : KeepsPairs A B := by
  rcases Nat.even_or_odd' A.length with ⟨half, heven | hodd⟩
  · exact .of_begins (prefix_of_peaks hinj hleaf hfits fun node hnode =>
      hpeaks node.1 node.2 hnode (peak_inner (by omega) hnode))
  · -- Without the unpaired leaf the peaks are those above the leaves.
    rcases List.eq_nil_or_concat A with rfl | ⟨front, last, rfl⟩
    · simp at hodd
    rw [List.concat_eq_append] at hfits hpeaks hodd ⊢
    have hfront : front.length % 2 = 0 := by
      rw [List.length_append, List.length_singleton] at hodd
      omega
    have hpairs : (front ++ [last]).length / 2 * 2 = front.length := by
      rw [List.length_append, List.length_singleton]
      omega
    have hshorter := nodeCount_le_nodeCount_iff.mpr (List.prefix_append front [last]).length_le
    rw [KeepsPairs, hpairs, List.take_left]
    refine prefix_of_peaks hinj hleaf (by omega) fun node hnode => ?_
    rw [← nodeItem_append H [last] (mem_peaks_iff.mp hnode).1]
    exact hpeaks node.1 node.2 (mem_peaks_concat hfront hnode) (peak_inner hfront hnode)

end KeepsPairs

/-- What stays of a log when the verifier knows its size: no leaf is lost, their order
    is kept, and all but an unpaired last one keep their places. -/
structure Keeps (A B : List Bytes) : Prop where
  sublist : A.Sublist B
  paired : KeepsPairs A B

namespace Keeps

theorem refl (A : List Bytes) : Keeps A A :=
  ⟨.refl A, List.take_prefix _ A⟩

theorem trans (hAB : Keeps A B) (hBC : Keeps B C) : Keeps A C :=
  ⟨hAB.sublist.trans hBC.sublist, hAB.paired.trans hBC.paired⟩

theorem of_begins (hbegins : A <+: B) : Keeps A B :=
  ⟨hbegins.sublist, .of_begins hbegins⟩

theorem of_spliced (hspliced : Spliced A B) : Keeps A B := by
  obtain ⟨front, middle, last, rfl, rfl, hfront, _⟩ := hspliced
  refine ⟨(List.sublist_append_left front middle).append (.refl [last]), ?_⟩
  have hpairs : (front ++ [last]).length / 2 * 2 = front.length := by
    rw [List.length_append, List.length_singleton]
    omega
  rw [KeepsPairs, hpairs, List.take_left, List.append_assoc]
  exact List.prefix_append front _

end Keeps

variable {Item Store σ μ : Type} {b : Profile}
  {R : MMRStoreReadOps Store Item σ} {W : MMRStoreWriteOps Store Item σ} {H : Hasher Item}

/-- A log together with what is published of it: the size of the tree that its
    leaves were pushed into and the accumulator of that tree. -/
structure Published (b : Profile) (M : Merge Item μ) (R : MMRStoreReadOps Store Item σ)
    (W : MMRStoreWriteOps Store Item σ) where
  log : List Bytes
  mmr_size : Nat
  accumulator : List Item
  log_ne_nil : log ≠ []
  log_fits : b = .release → log.length < 2 ^ 63
  built : ∃ (store : Store) (positions : List Nat) (tree : MMRIVER Item Store),
    MMRIVER.Run b M R W (MMRIVER.new 0 store) log positions tree ∧ tree.mmr_size = mmr_size ∧
      (tree.get_accumulator b R : Outcome (Error σ μ) _) = ok accumulator

namespace Published

theorem holds (S : MapStore R W) (p : Published b (H.toMerge : Merge Item μ) R W) :
    p.mmr_size = nodeCount p.log.length ∧ p.accumulator = peakItems H p.log ∧
      nodeCount p.log.length + 1 < allOnesLimit b := by
  obtain ⟨store, positions, tree, run, hsize, haccumulator⟩ := p.built
  obtain ⟨holds, _⟩ := run.holds S p.log_fits
  have hroots : (tree.get_accumulator b R : Outcome (Error σ μ) _) = ok (peakItems H p.log) :=
    holds.get_accumulator (List.length_pos_iff.mpr p.log_ne_nil)
  refine ⟨hsize.symm.trans holds.forest.size, ?_, holds.height_fits⟩
  exact (ok.inj (hroots.symm.trans haccumulator)).symm

variable [DecidableEq Item] {M : Merge Item μ}

/-- A verifier who knows one published accumulator accepts some proof of another one. -/
def Accepts (old new : Published b M R W) : Prop :=
  ∃ proof : ConsistencyProof Item,
    (proof.verify b M old.accumulator new.accumulator : Outcome (Error σ μ) _) = ok true

/-- A verifier who also knows the size accepts a proof from that size. -/
def Advances (old new : Published b M R W) : Prop :=
  ∃ proof : ConsistencyProof Item, proof.mmr_size_from = old.mmr_size ∧
    (proof.verify b M old.accumulator new.accumulator : Outcome (Error σ μ) _) = ok true

section Binding

variable (S : MapStore R W) (hinj : H.PosInjective) (hleaf : Function.Injective H.leaf_hash)

include S hinj hleaf

/-- In a checked build an accepted proof keeps the pairs, even one from another size. -/
theorem Accepts.keepsPairs {first last : Published .debug (H.toMerge : Merge Item μ) R W}
    (hstep : first.Accepts last) : KeepsPairs first.log last.log := by
  obtain ⟨_, holds, hfits⟩ := first.holds S
  obtain ⟨_, hnew, hfits'⟩ := last.holds S
  obtain ⟨proof, hverify⟩ := hstep
  have hlimit := allOnesLimit_le .debug
  rw [holds, hnew] at hverify
  exact .of_peaks hinj hleaf (by omega) fun _ _ hpeak hinner =>
    ConsistencyProof.peaks_in_place hinj (by omega) (by omega) hverify hpeak hinner

theorem keepsPairs_of_chain {first last : Published .debug (H.toMerge : Merge Item μ) R W}
    (chain : ReflTransGen Accepts first last) : KeepsPairs first.log last.log := by
  induction chain with
  | refl => exact .of_begins List.prefix_rfl
  | tail _ hstep ih => exact ih.trans (hstep.keepsPairs S hinj hleaf)

variable {first last : Published b (H.toMerge : Merge Item μ) R W}

theorem Advances.keeps (hstep : first.Advances last) : Keeps first.log last.log := by
  obtain ⟨hsize, holds, hfits⟩ := first.holds S
  obtain ⟨_, hnew, hfits'⟩ := last.holds S
  obtain ⟨⟨_, mmr_size_to, paths⟩, hfrom, hverify⟩ := hstep
  obtain rfl := hfrom.trans hsize
  rw [holds, hnew] at hverify
  have hlimit := allOnesLimit_le b
  obtain ⟨found, hproves, hfollows⟩ :=
    (exists_verify_iff (σ := σ) first.log_ne_nil (by omega) mmr_size_to _).mp ⟨paths, hverify⟩
  rcases prefix_or_spliced hinj hleaf hfits hfits' hproves hfollows with hbegins | hspliced
  · exact .of_begins hbegins
  · exact .of_spliced hspliced

theorem keeps_of_chain (chain : ReflTransGen Advances first last) : Keeps first.log last.log := by
  induction chain with
  | refl => exact .refl _
  | tail _ hstep ih => exact ih.trans (hstep.keeps S hinj hleaf)

/-- A verifier who goes from published log to published log, by proofs from the size
    that it knows, never loses a leaf. Whatever else is in the proofs that it accepted
    on the way, the leaves of the first log are leaves of the last in the same order,
    and all of them but an unpaired last one are at the places where they were. -/
theorem history_kept (chain : ReflTransGen Advances first last) :
    first.log.Sublist last.log ∧ first.log.take (first.log.length / 2 * 2) <+: last.log := by
  have hkeeps := keeps_of_chain S hinj hleaf chain
  exact ⟨hkeeps.sublist, hkeeps.paired⟩

end Binding

/-- In a checked build a path with an item is accepted for a node of the log that
    is not a peak, and with the value that the log has there. -/
theorem binds (S : MapStore R W) (hinj : H.PosInjective)
    (p : Published .debug (H.toMerge : Merge Item μ) R W) {index : Nat} {path : List Item}
    {nodehash : Item} (hpath : path ≠ [])
    (hverify : ((InclusionProof.new index path).verify .debug (H.toMerge : Merge Item μ) nodehash
      p.accumulator : Outcome (Error σ μ) Bool) = ok true) :
    ∃ g m h k, index = nodePos g m ∧ nodehash = nodeItem H p.log g m ∧ Under g m h k ∧ g < h ∧
      2 ^ h * (k + 1) ≤ p.log.length ∧ nodePos h k + 1 < 2 ^ 64 := by
  obtain ⟨_, haccumulator, hfits⟩ := p.holds S
  obtain ⟨sibling, rest, rfl⟩ := List.exists_cons_of_ne_nil hpath
  obtain ⟨_, hmem, hroot⟩ := InclusionProof.mem_of_verify hverify
  rw [haccumulator] at hmem
  obtain ⟨⟨h, k⟩, hpeak, rfl⟩ := List.mem_map.mp hmem
  have hplace : nodePos h k + 1 < 2 ^ 64 := by
    have hbelow : nodePos h k < nodeCount p.log.length := nodePos_lt_of_peak hpeak
    have hlimit := allOnesLimit_le .debug
    omega
  obtain ⟨g, m, hindex, hnode, hunder, hlower⟩ := included_root_binds hinj hplace hroot
  exact ⟨g, m, h, k, hindex, hnode, hunder, hlower, (mem_peaks_iff.mp hpeak).1, hplace⟩

/-- What a path with an item shows a verifier at the start of a chain is what the log
    at its end has at the index. -/
theorem value_kept (S : MapStore R W) (hinj : H.PosInjective) (hleaf : Function.Injective H.leaf_hash)
    {first last : Published .debug (H.toMerge : Merge Item μ) R W}
    (chain : ReflTransGen Accepts first last) {index : Nat} {path : List Item} {nodehash : Item}
    (hpath : path ≠ [])
    (hverify : ((InclusionProof.new index path).verify .debug (H.toMerge : Merge Item μ) nodehash
      first.accumulator : Outcome (Error σ μ) Bool) = ok true) :
    ∃ g m, index = nodePos g m ∧ nodehash = nodeItem H last.log g m := by
  obtain ⟨g, m, h, k, hindex, rfl, hunder, hlower, hinside, hfits⟩ := first.binds S hinj hpath hverify
  obtain ⟨_, hpeak⟩ := (keepsPairs_of_chain S hinj hleaf chain).nodeItem_eq H (by omega) hinside
  exact ⟨g, m, hindex, nodeItem_eq_under hinj hfits hpeak hunder⟩

/-- Split views never meet. Two verifiers who come to one published accumulator in a
    checked build, each by proofs from anyone and from whatever size, have known the
    same log all along: one of the logs that they started from begins with the other,
    but for unpaired last leaves, and all paths with an item that either of them
    accepted show one value for each index. -/
theorem views_agree (S : MapStore R W) (hinj : H.PosInjective)
    (hleaf : Function.Injective H.leaf_hash)
    {first second last : Published .debug (H.toMerge : Merge Item μ) R W}
    (chain : ReflTransGen Accepts first last) (chain' : ReflTransGen Accepts second last) :
    (first.log.take (first.log.length / 2 * 2) <+: second.log.take (second.log.length / 2 * 2) ∨
      second.log.take (second.log.length / 2 * 2) <+: first.log.take (first.log.length / 2 * 2)) ∧
    ∀ (index : Nat) (path path' : List Item) (nodehash nodehash' : Item), path ≠ [] → path' ≠ [] →
      ((InclusionProof.new index path).verify .debug (H.toMerge : Merge Item μ) nodehash
        first.accumulator : Outcome (Error σ μ) Bool) = ok true →
      ((InclusionProof.new index path').verify .debug (H.toMerge : Merge Item μ) nodehash'
        second.accumulator : Outcome (Error σ μ) Bool) = ok true →
      nodehash = nodehash' := by
  constructor
  · exact List.prefix_or_prefix_of_prefix (keepsPairs_of_chain S hinj hleaf chain)
      (keepsPairs_of_chain S hinj hleaf chain')
  · intro index path path' nodehash nodehash' hpath hpath' hverify hverify'
    obtain ⟨g, m, hindex, rfl⟩ := value_kept S hinj hleaf chain hpath hverify
    obtain ⟨g', m', hindex', rfl⟩ := value_kept S hinj hleaf chain' hpath' hverify'
    obtain ⟨rfl, rfl⟩ := nodePos_inj (hindex.symm.trans hindex')
    rfl

end Published

/-- A published log whose tree is in memory. -/
abbrev SymbolicPublished :=
  Published .debug (Term.hasher.toMerge : Merge (Term Empty) Empty)
    (MemStore.readOps : MMRStoreReadOps (MemStore (Term Empty)) (Term Empty) Empty)
    (MemStore.writeOps .debug)

/-- What a tree in memory publishes of its leaves. -/
def MMRIVER.SymbolicRun.published {data : List Bytes} {positions : List Nat}
    {tree : MMRIVER (Term Empty) (MemStore (Term Empty))}
    (run : MMRIVER.SymbolicRun .debug data positions tree) (hne : data ≠ [])
    {accumulator : List (Term Empty)}
    (haccumulator : (tree.get_accumulator .debug MemStore.readOps : Outcome (Error Empty Empty) _) =
      ok accumulator) : SymbolicPublished where
  log := data
  mmr_size := tree.mmr_size
  accumulator := accumulator
  log_ne_nil := hne
  log_fits hb := by cases hb
  built := ⟨MemStore.new, positions, tree, run, rfl, haccumulator⟩

/-- A verifier of two leaves in memory goes on to three. -/
theorem Published.history_kept_three :
    ∃ first last : SymbolicPublished, first.log = [[1], [2]] ∧ last.log = [[1], [2], [3]] ∧
      ReflTransGen Published.Advances first last ∧
      first.log.take (first.log.length / 2 * 2) <+: last.log := by
  have start : MMRIVER.SymbolicRun .debug [] [] (MMRIVER.new 0 MemStore.new) := .refl
  have run := (start.push (d := [1]) rfl).push (d := [2]) rfl
  have rest := run.push (d := [3]) rfl
  have hstep : (MMRIVER.SymbolicRun.published run (by decide) rfl).Advances
      (MMRIVER.SymbolicRun.published rest (by decide) rfl) :=
    ⟨.new 3 4 [[]], rfl, rfl⟩
  have hkept := Published.history_kept (MemStore.mapStore .debug) (Term.hasher_posInjective Empty)
    (Term.leaf_hash_injective Empty) (.single hstep)
  exact ⟨_, _, rfl, rfl, .single hstep, hkept.2⟩

/-- One verifier is shown the first of two leaves, and another the first of three. A
    proof from a wrong size leads the one to the accumulator of the other. -/
theorem Published.views_agree_three :
    ∃ (first second : SymbolicPublished) (nodehash nodehash' : Term Empty),
      first.log = [[1], [2]] ∧ second.log = [[1], [2], [3]] ∧ first.Accepts second ∧
      ((InclusionProof.new 0 [.leaf [2]]).verify .debug (Term.hasher.toMerge : Merge (Term Empty) Empty)
        nodehash first.accumulator : Outcome (Error Empty Empty) Bool) = ok true ∧
      ((InclusionProof.new 0 [.leaf [2]]).verify .debug (Term.hasher.toMerge : Merge (Term Empty) Empty)
        nodehash' second.accumulator : Outcome (Error Empty Empty) Bool) = ok true ∧
      nodehash = nodehash' := by
  have start : MMRIVER.SymbolicRun .debug [] [] (MMRIVER.new 0 MemStore.new) := .refl
  have run := (start.push (d := [1]) rfl).push (d := [2]) rfl
  have rest := run.push (d := [3]) rfl
  have hstep : (MMRIVER.SymbolicRun.published run (by decide) rfl).Accepts
      (MMRIVER.SymbolicRun.published rest (by decide) rfl) :=
    ⟨.new 1 9 [[]], rfl⟩
  have hverify : ((InclusionProof.new 0 [.leaf [2]]).verify .debug
      (Term.hasher.toMerge : Merge (Term Empty) Empty) (.leaf [1])
      (MMRIVER.SymbolicRun.published run (by decide) rfl).accumulator :
      Outcome (Error Empty Empty) Bool) = ok true := rfl
  have hverify' : ((InclusionProof.new 0 [.leaf [2]]).verify .debug
      (Term.hasher.toMerge : Merge (Term Empty) Empty) (.leaf [1])
      (MMRIVER.SymbolicRun.published rest (by decide) rfl).accumulator :
      Outcome (Error Empty Empty) Bool) = ok true := rfl
  have hviews := Published.views_agree (MemStore.mapStore .debug) (Term.hasher_posInjective Empty)
    (Term.leaf_hash_injective Empty) (.single hstep) (.refl (a := _))
  exact ⟨MMRIVER.SymbolicRun.published run (by decide) rfl,
    MMRIVER.SymbolicRun.published rest (by decide) rfl, _, _, rfl, rfl, hstep, hverify, hverify',
    hviews.2 _ _ _ _ _ (List.cons_ne_nil _ _) (List.cons_ne_nil _ _) hverify hverify'⟩

end merkleberg.mmriver
