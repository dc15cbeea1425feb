import Mathlib.Data.Finset.Prod
import Merkleberg.Helper.Height
import Merkleberg.Machine.Fuel

open machine machine.Outcome

namespace merkleberg.helper

variable {ε : Type} {b : Profile} {c i g : Nat} {path : List Nat}

/-- A pass of the prover finds a parent and a sibling from the index and the height
    alone, and ends when the sibling is behind the tree. -/
theorem inclusion_proof_path_body_eq (b : Profile) (c i g : Nat) :
    ∃ step : Outcome ε (Nat × Nat), (∀ parent isibling, step = ok (parent, isibling) → parent < 2 ^ 64) ∧
      ∀ path, (inclusion_proof_path.body b c (i, g, path) : Outcome ε _) = (do
        let (parent, isibling) ← step
        if isibling > c then ok (.done path)
        else do
          let g ← U8.add b g 1
          ok (.next (parent, g, path ++ [isibling]))) := by
  let step : Outcome ε (Nat × Nat) := do
    let sibling_offset ← U64.shl b 2 g
    let above ← U64.add b i 1
    let next_height ← index_height_mmriver b above
    if next_height > g then do
      let lower ← U64.sub b i sibling_offset
      let isibling ← U64.add b lower 1
      let parent ← U64.add b i 1
      ok (parent, isibling)
    else do
      let upper ← U64.add b i sibling_offset
      let isibling ← U64.sub b upper 1
      let parent ← U64.add b i sibling_offset
      ok (parent, isibling)
  refine ⟨step, fun parent isibling hstep => ?_, fun path => ?_⟩
  · simp only [step, bind_eq_ok_iff] at hstep
    obtain ⟨_, _, _, _, _, _, hstep⟩ := hstep
    split at hstep
    · obtain ⟨_, _, hstep⟩ := bind_eq_ok_iff.mp hstep
      obtain ⟨_, _, hstep⟩ := bind_eq_ok_iff.mp hstep
      obtain ⟨_, hparent, hstep⟩ := bind_eq_ok_iff.mp hstep
      cases hstep
      exact Word.lt_of_add_ok hparent
    · obtain ⟨_, _, hstep⟩ := bind_eq_ok_iff.mp hstep
      obtain ⟨_, _, hstep⟩ := bind_eq_ok_iff.mp hstep
      obtain ⟨_, hparent, hstep⟩ := bind_eq_ok_iff.mp hstep
      cases hstep
      exact Word.lt_of_add_ok hparent
  · simp only [inclusion_proof_path.body, step, bind_assoc]
    refine bind_congr fun sibling_offset => bind_congr fun above => bind_congr fun next_height => ?_
    split <;> simp only [bind_assoc, ok_bind]

/-- What a pass does is decided by the index and the height. -/
theorem inclusion_proof_path_body_alike (state state' : Nat × Nat × List Nat)
    (hkey : (state.1, state.2.1) = (state'.1, state'.2.1)) :
    Alike (Pass.Alike (fun state state' => (state.1, state.2.1) = (state'.1, state'.2.1))
      fun _ _ => True) (inclusion_proof_path.body b c state : Outcome ε _)
      (inclusion_proof_path.body b c state') := by
  obtain ⟨i, g, path⟩ := state
  obtain ⟨i', g', path'⟩ := state'
  cases hkey
  obtain ⟨step, _, hbody⟩ := inclusion_proof_path_body_eq (ε := ε) b c i g
  rw [hbody path, hbody path']
  refine (Alike.refl step).bind ?_
  rintro ⟨parent, isibling⟩ _ rfl
  dsimp only
  split
  · exact .ok (.done trivial)
  · refine (Alike.refl _).bind ?_
    rintro height _ rfl
    exact .ok (.next rfl)

/-- A pass goes to the parent, unless the sibling that it looks at is behind the tree. -/
theorem inclusion_proof_path_body_cases {pass : Pass (Nat × Nat × List Nat) (List Nat)}
    (hbody : (inclusion_proof_path.body b c (i, g, path) : Outcome ε _) = ok pass) :
    pass = .done path ∨ ∃ isibling ≤ c, ∃ parent < 2 ^ 64, ∃ height < 2 ^ 8,
      pass = .next (parent, height, path ++ [isibling]) := by
  obtain ⟨step, hword, heq⟩ := inclusion_proof_path_body_eq (ε := ε) b c i g
  rw [heq, bind_eq_ok_iff] at hbody
  obtain ⟨⟨parent, isibling⟩, hstep, hbody⟩ := hbody
  dsimp only at hbody
  split at hbody
  · cases hbody
    exact .inl rfl
  · obtain ⟨height, hheight, hnext⟩ := bind_eq_ok_iff.mp hbody
    cases hnext
    exact .inr ⟨isibling, Nat.le_of_not_lt ‹_›, parent, hword parent isibling hstep, height,
      Word.lt_of_add_ok hheight, rfl⟩

/-- Whatever the index, its path does not leave the tree. -/
theorem inclusion_proof_path_le (hpath : (inclusion_proof_path b i c : Outcome ε _) = ok path) :
    ∀ p ∈ path, p ≤ c := by
  obtain ⟨g, _, hloop⟩ := bind_eq_ok_iff.mp hpath
  have hnext : ∀ state next : Nat × Nat × List Nat, (∀ p ∈ state.2.2, p ≤ c) →
      (inclusion_proof_path.body b c state : Outcome ε _) = ok (.next next) →
      ∀ p ∈ next.2.2, p ≤ c := by
    rintro ⟨i, g, path⟩ next hinside hbody
    obtain hnext | ⟨_, hle, _, _, _, _, hnext⟩ := inclusion_proof_path_body_cases hbody
    · cases hnext
    · cases hnext
      intro p hp
      rcases List.mem_append.mp hp with hp | hp
      · exact hinside p hp
      · rwa [List.mem_singleton.mp hp]
  have hdone : ∀ (state : Nat × Nat × List Nat) result, (∀ p ∈ state.2.2, p ≤ c) →
      (inclusion_proof_path.body b c state : Outcome ε _) = ok (.done result) →
      ∀ p ∈ result, p ≤ c := by
    rintro ⟨i, g, path⟩ result hinside hbody
    obtain hdone | ⟨_, _, _, _, _, _, hdone⟩ := inclusion_proof_path_body_cases hbody
    · cases hdone
      exact hinside
    · cases hdone
  exact loop_invariant hnext hdone (fun p hp => by cases hp) hloop

/-- The pairs of two words of `m` and `n` bits. -/
theorem exists_words (m n : Nat) : ∃ words : Finset (Nat × Nat), words.card = 2 ^ (m + n) ∧
    ∀ x y, (x, y) ∈ words ↔ x < 2 ^ m ∧ y < 2 ^ n := by
  refine ⟨Finset.range (2 ^ m) ×ˢ Finset.range (2 ^ n), ?_, fun x y => ?_⟩
  · rw [Finset.card_product, Finset.card_range, Finset.card_range, pow_add]
  · rw [Finset.mem_product, Finset.mem_range, Finset.mem_range]

/-- The bound on the passes never cuts a path off, in no build: with any more of them
    the prover comes to the same. -/
theorem inclusion_proof_path_fuel_eq (hi : i < 2 ^ 64) {fuel : Nat} (hfuel : 2 ^ 72 ≤ fuel) :
    (inclusion_proof_path b i c : Outcome ε _) = (do
      let g ← index_height_mmriver b i
      loop (inclusion_proof_path.body b c) fuel (i, g, [])) := by
  obtain hpanic | ⟨height, hsmall, hheight⟩ := index_height_mmriver_returns (b := b) (ε := ε) hi
  · rw [inclusion_proof_path, hpanic]
    rfl
  · obtain ⟨seen, hcard, hseen⟩ := exists_words 64 8
    have hkeep : ∀ state next : Nat × Nat × List Nat, (state.1, state.2.1) ∈ seen →
        (inclusion_proof_path.body b c state : Outcome ε _) = ok (.next next) →
        (next.1, next.2.1) ∈ seen := by
      rintro ⟨i, g, path⟩ next _ hbody
      obtain hnext | ⟨_, _, _, hparent, _, hheight, hnext⟩ := inclusion_proof_path_body_cases hbody
      · cases hnext
      · cases hnext
        exact (hseen _ _).mpr ⟨hparent, hheight⟩
    have hstart : ((i, height, ([] : List Nat)).1, (i, height, ([] : List Nat)).2.1) ∈ seen :=
      (hseen _ _).mpr ⟨hi, hsmall.trans (by decide)⟩
    rw [inclusion_proof_path, hheight, ok_bind, ok_bind,
      loop_fuel_eq inclusion_proof_path_body_alike hkeep hstart (hcard.trans_le hfuel), hcard]

end merkleberg.helper
