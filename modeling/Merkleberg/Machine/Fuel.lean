import Mathlib.Data.Finset.Card
import Merkleberg.Machine.Outcome

open machine.Outcome

namespace machine

variable {ε σ β γ : Type} {body : σ → Outcome ε (Pass σ β)} {n m : Nat} {s t u : σ}

/-- `n` passes in a row that go on, from `s` to `t`. -/
inductive Passes (body : σ → Outcome ε (Pass σ β)) : Nat → σ → σ → Prop where
  | refl (s : σ) : Passes body 0 s s
  | next {n : Nat} {s t u : σ} (hbody : body s = ok (.next t)) (rest : Passes body n t u) :
      Passes body (n + 1) s u

theorem Passes.append (h : Passes body n s t) (rest : Passes body m t u) : Passes body (n + m) s u := by
  induction h with
  | refl s => rwa [Nat.zero_add]
  | next hbody _ ih =>
    rw [Nat.add_right_comm]
    exact .next hbody (ih rest)

/-- A loop runs out of fuel when it goes on for as long. -/
theorem Passes.loop_eq_div (h : Passes body n s t) {fuel : Nat} (hfuel : fuel ≤ n) :
    loop body fuel s = div := by
  induction h generalizing fuel with
  | refl s =>
    rw [Nat.le_zero.mp hfuel]
    rfl
  | next hbody _ ih =>
    cases fuel with
    | zero => rfl
    | succ fuel => rw [loop_next hbody, ih (Nat.le_of_succ_le_succ hfuel)]

/-- All states on the way, by the number of passes before them. -/
theorem Passes.exists_walk (h : Passes body n s t) :
    ∃ walk : Nat → σ, walk 0 = s ∧ ∀ k < n, body (walk k) = ok (.next (walk (k + 1))) := by
  induction h with
  | refl s => exact ⟨fun _ => s, rfl, fun k hk => absurd hk (Nat.not_lt_zero k)⟩
  | @next n s t u hbody _ ih =>
    obtain ⟨walk, rfl, hwalk⟩ := ih
    refine ⟨Nat.rec s fun k _ => walk k, rfl, fun k hk => ?_⟩
    cases k with
    | zero => exact hbody
    | succ k => exact hwalk k (Nat.lt_of_succ_lt_succ hk)

theorem passes_of_walk {walk : Nat → σ} {a : Nat}
    (hwalk : ∀ k < n, body (walk (a + k)) = ok (.next (walk (a + k + 1)))) :
    Passes body n (walk a) (walk (a + n)) := by
  induction n generalizing a with
  | zero => exact .refl _
  | succ n ih =>
    rw [Nat.add_comm n 1, ← Nat.add_assoc]
    refine Nat.add_comm 1 n ▸ .next (hwalk 0 (Nat.succ_pos n)) (ih fun k hk => ?_)
    rw [Nat.add_right_comm a 1 k]
    exact hwalk (k + 1) (Nat.succ_lt_succ hk)

/-- A loop goes on for some number of passes, or it ends before and does not need
    more fuel than that. -/
theorem passes_or_ends (body : σ → Outcome ε (Pass σ β)) (n : Nat) (s : σ) :
    (∃ t, Passes body n s t) ∨ ∀ fuel, n ≤ fuel → loop body fuel s = loop body n s := by
  induction n generalizing s with
  | zero => exact .inl ⟨s, .refl s⟩
  | succ n ih =>
    by_cases hnext : ∃ t, body s = ok (.next t)
    · obtain ⟨t, hbody⟩ := hnext
      obtain ⟨u, rest⟩ | hends := ih t
      · exact .inl ⟨u, .next hbody rest⟩
      · refine .inr fun fuel hfuel => ?_
        obtain ⟨fuel, rfl⟩ := Nat.exists_eq_succ_of_ne_zero (Nat.ne_zero_of_lt hfuel)
        rw [loop_next hbody, loop_next hbody, hends fuel (Nat.le_of_succ_le_succ hfuel)]
    · refine .inr fun fuel hfuel => ?_
      obtain ⟨fuel, rfl⟩ := Nat.exists_eq_succ_of_ne_zero (Nat.ne_zero_of_lt hfuel)
      rw [loop, loop]
      cases hbody : body s with
      | ok pass =>
        cases pass with
        | next t => exact absurd ⟨t, hbody⟩ hnext
        | done result => rfl
      | err error => rfl
      | panic => rfl
      | div => rfl

section Key

variable {key : σ → γ}
  (hbody : ∀ s t, key s = key t →
    Alike (Pass.Alike (key · = key ·) fun _ _ => True) (body s) (body t))

include hbody

theorem Passes.congr (h : Passes body n s u) (hkey : key s = key t) : ∃ v, Passes body n t v := by
  induction h generalizing t with
  | refl s => exact ⟨t, .refl t⟩
  | next hnext _ ih =>
    have halike := hbody _ _ hkey
    rw [hnext] at halike
    obtain ⟨pass, hpass, hrel⟩ := halike.of_ok
    cases hrel with
    | next hrel =>
      obtain ⟨v, rest⟩ := ih hrel
      exact ⟨v, .next hpass rest⟩

/-- A loop that comes back to where it was goes on forever. -/
theorem Passes.endless (h : Passes body (n + 1) s t) (hkey : key s = key t) (fuel : Nat) :
    ∃ m u, fuel ≤ m ∧ Passes body m s u := by
  induction fuel with
  | zero => exact ⟨0, s, le_rfl, .refl s⟩
  | succ fuel ih =>
    obtain ⟨m, _, hm, hgoes⟩ := ih
    obtain ⟨v, hagain⟩ := hgoes.congr hbody hkey
    exact ⟨_, v, by omega, h.append hagain⟩

/-- What a loop does depends on a key that takes at most `seen.card` values. If it has
    not ended after as many passes, it never ends, so more fuel comes to the same. -/
theorem loop_fuel_eq {seen : Finset γ}
    (hseen : ∀ s t, key s ∈ seen → body s = ok (.next t) → key t ∈ seen) (hs : key s ∈ seen)
    {fuel : Nat} (hfuel : seen.card ≤ fuel) : loop body fuel s = loop body seen.card s := by
  obtain ⟨t, hgoes⟩ | hends := passes_or_ends body seen.card s
  · obtain ⟨walk, rfl, hwalk⟩ := hgoes.exists_walk
    have hinside : ∀ k ≤ seen.card, key (walk k) ∈ seen := by
      intro k
      induction k with
      | zero => exact fun _ => hs
      | succ k ih => exact fun hk => hseen _ _ (ih (Nat.le_of_lt hk)) (hwalk k hk)
    -- There is one state more than there are keys, so that two have the same.
    obtain ⟨i, d, hle, hkey⟩ : ∃ i d, i + (d + 1) ≤ seen.card ∧
        key (walk i) = key (walk (i + (d + 1))) := by
      obtain ⟨i, hi, j, hj, hne, hkey⟩ := Finset.exists_ne_map_eq_of_card_lt_of_maps_to
        (s := Finset.range (seen.card + 1)) (t := seen)
        (by rw [Finset.card_range]; exact Nat.lt_succ_self _) (f := fun k => key (walk k))
        fun k hk => hinside k (Nat.le_of_lt_succ (Finset.mem_range.mp hk))
      rw [Finset.mem_range] at hi hj
      rcases lt_or_gt_of_ne hne with hlt | hlt
      · obtain ⟨d, rfl⟩ := Nat.exists_eq_add_of_lt hlt
        exact ⟨i, d, by omega, hkey⟩
      · obtain ⟨d, rfl⟩ := Nat.exists_eq_add_of_lt hlt
        exact ⟨j, d, by omega, hkey.symm⟩
    have hstart : Passes body i (walk 0) (walk (0 + i)) := passes_of_walk fun k hk => hwalk _ (by omega)
    have hcycle : Passes body (d + 1) (walk i) (walk (i + (d + 1))) :=
      passes_of_walk fun k hk => hwalk _ (by omega)
    rw [Nat.zero_add] at hstart
    obtain ⟨m, u, hm, hagain⟩ := hcycle.endless hbody hkey fuel
    rw [hgoes.loop_eq_div le_rfl, (hstart.append hagain).loop_eq_div (by omega)]
  · exact hends fuel hfuel

end Key

end machine
