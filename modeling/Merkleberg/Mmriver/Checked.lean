import Merkleberg.Mmriver.Inclusion
import Merkleberg.Mmriver.Session

open machine machine.Outcome
open forest
open merkleberg.helper

namespace merkleberg.mmriver

variable {Item Store σ μ : Type} {M : Merge Item μ}
  {R : MMRStoreReadOps Store Item σ} {W : MMRStoreWriteOps Store Item σ}

/-- From the second leaf the sibling is one step back, but the code first goes
    two steps back from index 1. -/
theorem inclusion_proof_path_one {ε : Type} (c : Nat) :
    (inclusion_proof_path .debug 1 c : Outcome ε _) = panic := rfl

section Holds

variable {S : MapStore R W} {under : Nat → Option Item} {H : Hasher Item} {data : List Bytes}
  {self : MMRIVER Item Store}

/-- From any other node of the tree the path is computed without an overflow. -/
theorem MMRIVER.Holds.path_ok {b : Profile} (h : self.Holds b S under H data) {i : Nat}
    (hi : i < nodeCount data.length) (hne : i ≠ 1) :
    ∃ path proof, (inclusion_proof_path b i (nodeCount data.length - 1) : Outcome (Error σ μ) _) =
        ok path ∧
      (self.gen_inclusion_proof b R i : Outcome (Error σ μ) _) = ok proof := by
  obtain ⟨height, k, rfl⟩ := exists_nodePos i
  have hwraps : b = .release ∨ (height, k) ≠ (0, 1) := by
    right
    rintro heq
    cases heq
    exact hne (by decide)
  obtain ⟨⟨top, index⟩, hpeak, hunder⟩ := exists_peak_above (nodePos_lt_nodeCount_iff.mp hi)
  exact ⟨_, _, inclusion_proof_path_eq hpeak h.height_fits hunder hwraps,
    h.gen_inclusion_proof_eq hpeak hunder hwraps⟩

end Holds

/-- In a checked build the path loop ends, without an overflow and without making
    the prover panic, from every node of every tree but the second leaf. -/
theorem MMRIVER.Session.path_ok_iff (S : MapStore R W) {store : Store} {data : List Bytes}
    {positions : List Nat} {final : MMRIVER Item Store}
    (session : MMRIVER.Session .debug M R W (MMRIVER.new 0 store) data positions final) {i : Nat}
    (hi : i < final.mmr_size) :
    (∃ path, (inclusion_proof_path .debug i (final.mmr_size - 1) : Outcome (Error σ μ) _) = ok path) ∧
        (final.gen_inclusion_proof .debug R i : Outcome (Error σ μ) _) ≠ panic ↔
      i ≠ 1 := by
  constructor
  · rintro ⟨⟨path, hpath⟩, _⟩ rfl
    rw [inclusion_proof_path_one] at hpath
    cases hpath
  · intro hne
    have hdata : data ≠ [] := by
      intro hnil
      obtain ⟨_, rfl⟩ := session.of_no_data MMRIVER.Attempt.unchanged
        (fun _ hsettle => hsettle.of_unchanged rfl rfl) hnil
      exact absurd hi (Nat.not_lt_zero i)
    obtain ⟨missing⟩ := session.nonempty MMRIVER.Attempt.nonempty hdata
    obtain ⟨hfinal, _⟩ := MMRIVER.Session.holds S (M.within_total missing) session fun hb => by cases hb
    rw [hfinal.forest.size] at hi ⊢
    obtain ⟨path, proof, hpath, hproof⟩ := hfinal.path_ok (σ := σ) (μ := μ) hi hne
    refine ⟨⟨path, hpath⟩, ?_⟩
    rw [hproof]
    intro hpanic
    cases hpanic

/-- The first leaf of two has a path. -/
theorem MMRIVER.Session.path_ok_iff_two :
    ∃ final, MMRIVER.SymbolicRun .debug [[1], [2]] [0, 1] final ∧ 0 < final.mmr_size ∧
      ∃ path, (inclusion_proof_path .debug 0 (final.mmr_size - 1) : Outcome (Error Empty Empty) _) =
        ok path := by
  have start : MMRIVER.SymbolicRun .debug [] [] (MMRIVER.new 0 MemStore.new) := .refl
  have run := (start.push (d := [1]) rfl).push (d := [2]) rfl
  exact ⟨_, run, by decide, ((MMRIVER.Session.path_ok_iff (MemStore.mapStore .debug) run.session
    (i := 0) (by decide)).mpr (by decide)).1⟩

/-- The second leaf of two makes the prover panic. -/
theorem MMRIVER.second_leaf_panics :
    ∃ final, MMRIVER.SymbolicRun .debug [[1], [2]] [0, 1] final ∧ final.mmr_size = 3 ∧
      (inclusion_proof_path .debug 1 2 : Outcome (Error Empty Empty) _) = panic ∧
      (final.gen_inclusion_proof .debug MemStore.readOps 1 : Outcome (Error Empty Empty) _) = panic := by
  have start : MMRIVER.SymbolicRun .debug [] [] (MMRIVER.new 0 MemStore.new) := .refl
  have run := (start.push (d := [1]) rfl).push (d := [2]) rfl
  exact ⟨_, run, rfl, rfl, rfl⟩

end merkleberg.mmriver
