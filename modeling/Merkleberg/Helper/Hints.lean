import Mathlib.Data.Nat.Factorization.Basic
import Merkleberg.Helper.Peaks

open machine machine.Outcome
open forest

namespace merkleberg.helper

section Contract

variable {ε I : Type} {next : I → Outcome ε (Option Nat × I)}

theorem Yields.unique {state : I} {items items' : List Nat} (h : Yields next state items)
    (h' : Yields next state items') : items = items' := by
  induction h generalizing items' with
  | nil hnext =>
    cases h' with
    | nil => rfl
    | cons hnext' =>
      rw [hnext] at hnext'
      cases hnext'
  | cons hnext _ ih =>
    cases h' with
    | nil hnext' =>
      rw [hnext] at hnext'
      cases hnext'
    | cons hnext' tail' =>
      rw [hnext] at hnext'
      cases hnext'
      rw [ih tail']

/-- The states that calls of `next` lead to, also calls after the last item. -/
inductive Advances (next : I → Outcome ε (Option Nat × I)) : I → I → Prop where
  | refl (state : I) : Advances next state state
  | step {start rest state : I} {item : Option Nat} (hnext : next start = ok (item, rest))
      (tail : Advances next rest state) : Advances next start state

/-- The contract of `ExactSizeIterator`: in every state that calls of `next`
    lead to, the length is the number of items to come. -/
def KeepsLength (next : I → Outcome ε (Option Nat × I)) (len : I → Outcome ε Nat) (start : I) : Prop :=
  ∀ state, Advances next start state → ∃ items, Yields next state items ∧ len state = ok items.length

variable {len : I → Outcome ε Nat}

theorem KeepsLength.yields {start : I} {items : List Nat} (h : KeepsLength next len start)
    (hitems : Yields next start items) : len start = ok items.length := by
  obtain ⟨items', hitems', hlen⟩ := h start (.refl start)
  rwa [hitems.unique hitems']

theorem KeepsLength.advance {start state : I} (h : KeepsLength next len start)
    (hadvance : Advances next start state) : KeepsLength next len state := by
  induction hadvance with
  | refl => exact h
  | step hnext _ ih => exact ih fun state tail => h state (.step hnext tail)

theorem KeepsLength.nil {start : I} (hnext : next start = ok (none, start)) (hlen : len start = ok 0) :
    KeepsLength next len start := by
  intro state hadvance
  have hstay : state = start := by
    induction hadvance with
    | refl => rfl
    | step hstep _ ih =>
      rw [hnext] at hstep
      cases hstep
      exact ih hnext hlen
  subst hstay
  exact ⟨[], .nil hnext, hlen⟩

theorem KeepsLength.cons {start rest : I} {item : Nat} {items : List Nat}
    (hnext : next start = ok (some item, rest)) (hitems : Yields next rest items)
    (hlen : len start = ok (items.length + 1)) (h : KeepsLength next len rest) :
    KeepsLength next len start := by
  intro state hadvance
  cases hadvance with
  | refl => exact ⟨_, .cons hnext hitems, hlen⟩
  | step hstep tail =>
    rw [hnext] at hstep
    cases hstep
    exact h state tail

end Contract

variable {ε : Type} {b : Profile}

/-- Up to size two there is at most one leaf, and the hint is right. -/
theorem PeaksIter.keepsLength_of_le_two {size : Nat} (hle : size ≤ 2) :
    ∃ iter, (PeaksIter.new b size : Outcome ε PeaksIter) = ok iter ∧
      KeepsLength (PeaksIter.next b : _ → Outcome ε _) (PeaksIter.len b) iter := by
  have hend : ∀ pos, KeepsLength (PeaksIter.next b : _ → Outcome ε _) (PeaksIter.len b)
      { pos, peak_size := 0, peaks_sum := 1 } := fun pos => .nil rfl rfl
  obtain rfl | rfl | rfl : size = 0 ∨ size = 1 ∨ size = 2 := by omega
  · exact ⟨_, rfl, .nil rfl rfl⟩
  · have hnext : (PeaksIter.next b { pos := 1, peak_size := 1, peaks_sum := 0 } : Outcome ε _) =
        ok (some 0, { pos := 0, peak_size := 0, peaks_sum := 1 }) := by cases b <;> rfl
    refine ⟨{ pos := 1, peak_size := 1, peaks_sum := 0 }, by cases b <;> rfl, ?_⟩
    exact .cons hnext (.nil rfl) (by cases b <;> rfl) (hend 0)
  · have hnext : (PeaksIter.next b { pos := 2, peak_size := 3, peaks_sum := 0 } : Outcome ε _) =
        ok (some 0, { pos := 1, peak_size := 0, peaks_sum := 1 }) := by cases b <;> rfl
    refine ⟨{ pos := 2, peak_size := 3, peaks_sum := 0 }, by cases b <;> rfl, ?_⟩
    exact .cons hnext (.nil rfl) (by cases b <;> rfl) (hend 1)

/-- Before the last all-ones size is tried, the hint is never zero. -/
theorem PeaksIter.len_pos {n w pos : Nat} (hw : 0 < w) (hpos : pos + 1 < 2 ^ 64) :
    ∃ count, ((PeaksIter.at n w pos).len b : Outcome ε Nat) = ok (count + 1) := by
  obtain ⟨w, rfl⟩ : ∃ less, w = less + 1 := ⟨w - 1, by omega⟩
  have hsize := two_pow_succ_sub_one_pos w
  have hquotient : pos / (2 ^ (w + 1) - 1) ≤ pos := Nat.div_le_self _ _
  have hadd : (U64.add b (pos / (2 ^ (w + 1) - 1)) 1 : Outcome ε Nat) =
      ok (pos / (2 ^ (w + 1) - 1) + 1) := Word.add_ok (by omega)
  have hcount := popcount_pos (Nat.succ_pos (pos / (2 ^ (w + 1) - 1)))
  refine ⟨popcount (pos / (2 ^ (w + 1) - 1) + 1) - 1, ?_⟩
  simp only [PeaksIter.len, PeaksIter.at, hsize.ne', if_false, hadd, ok_bind, U64.countOnes]
  exact congrArg ok (Nat.sub_add_cancel hcount).symm

/-- With two leaves or more, the hint is wrong before the first peak or after it. -/
theorem PeaksIter.not_keepsLength {size : Nat} (hlt : size < 2 ^ 64) (hsize : 2 < size)
    {iter : PeaksIter} (hnew : (PeaksIter.new b size : Outcome ε PeaksIter) = ok iter) :
    ¬ KeepsLength (PeaksIter.next b : _ → Outcome ε _) (PeaksIter.len b) iter := by
  intro hkeeps
  obtain ⟨n, hle, hnext⟩ := exists_nodeCount_le_lt size
  have htwo : 2 ≤ n := by
    by_contra hsmall
    have := nodeCount_le_nodeCount_iff.mpr (show n + 1 ≤ 2 ^ 1 by omega)
    rw [nodeCount_two_pow] at this
    omega
  have hgreedy := Greedy.initial hle hnext
  have hmod : n % 2 ^ (size.log2 + 1) = n := Nat.mod_eq_of_lt hgreedy.digits
  have hlog : size.log2 < 64 := (Nat.log2_lt (by omega)).mpr hlt
  obtain ⟨start, len, hstart, hlen, hone⟩ := PeaksIter.len_new (b := b) (ε := ε) hlt
  rw [hnew] at hstart
  cases hstart
  rw [PeaksIter.new_eq (by omega) hgreedy.digits hlt] at hnew
  cases hnew
  have hstep := PeaksIter.next_loop (b := b) (ε := ε) (hmod.symm ▸ hgreedy) (hle.trans_lt hlt)
    (show size.log2 + 1 < 65 by omega)
  rw [peaksBelow_eq_peaks hgreedy.digits] at hstep
  obtain ⟨hnil, -⟩ | ⟨w, pos, hw, hpos, hcons, hrest, hfirst⟩ := hstep
  · exact peaks_ne_nil (by omega) hnil
  have hitems := PeaksIter.yields (b := b) (ε := ε) hrest (hle.trans_lt hlt) (by omega)
  have hcount := hkeeps.yields (.cons hfirst hitems)
  have hafter := (hkeeps.advance (.step hfirst (.refl _))).yields hitems
  -- One announced peak leaves none for the digits under the first one, where
  -- the hint says that there is one more.
  rw [hlen, List.length_cons] at hcount
  injection hcount with hcount
  have hnone : (peaksBelow n w).length = 0 := by
    rw [List.length_map] at hcount
    omega
  rw [List.length_map, hnone] at hafter
  have hzero : 0 < w := by
    by_contra hnot
    obtain rfl : w = 0 := by omega
    have hodd := (peak_of_height_zero (hcons ▸ List.mem_cons_self)).2
    have hcount := peaks_length n
    rw [hcons, List.length_cons, hnone, show n = 2 * (n / 2) + 1 by omega,
      popcount_two_mul_add_one] at hcount
    have := popcount_pos (n := n / 2) (by omega)
    omega
  have hfit : pos + 1 < 2 ^ 64 := by omega
  obtain ⟨count, hpositive⟩ := PeaksIter.len_pos (b := b) (ε := ε) (n := n) hzero hfit
  rw [hafter] at hpositive
  injection hpositive with hpositive
  omega

/-- The accumulator's iterator passes every digit. -/
theorem PeaksMMRIVERIter.advances {n width w : Nat} (hsize : nodeCount n + 1 < 2 ^ 64)
    (hwidth : width ≤ 63) (hle : w ≤ width) :
    Advances (PeaksMMRIVERIter.next b : _ → Outcome ε _) (.at n width) (.at n w) := by
  induction width with
  | zero =>
    obtain rfl : w = 0 := by omega
    exact .refl _
  | succ width ih =>
    obtain rfl | hlt : w = width + 1 ∨ w ≤ width := by omega
    · exact .refl _
    by_cases hbit : n.testBit width = true
    · exact .step (next_some hsize hwidth hbit) (ih (by omega) hlt)
    · rw [at_of_not_testBit hbit]
      exact ih (by omega) hlt

/-- The low digits of a number from two on are a power of two, or one above it. -/
theorem exists_mod_two_pow {n : Nat} (hn : 2 ≤ n) :
    ∃ w, 0 < w ∧ 2 ^ w ≤ n ∧ (n % 2 ^ (w + 1) = 2 ^ w ∨ n % 2 ^ (w + 1) = 2 ^ w + 1) := by
  obtain ⟨v, m, ⟨c, rfl⟩, hhalf⟩ := Nat.exists_eq_two_pow_mul_odd (n := n / 2) (by omega)
  have hpos := Nat.two_pow_pos v
  have hsplit : n = 2 ^ (v + 1 + 1) * c + (2 ^ (v + 1) + n % 2) := by
    have hdouble : 2 * (2 ^ v * (2 * c + 1)) = 2 ^ (v + 1 + 1) * c + 2 ^ (v + 1) := by ring
    omega
  have hmod : n % 2 ^ (v + 1 + 1) = 2 ^ (v + 1) + n % 2 := by
    have hsize : 2 ^ (v + 1 + 1) = 4 * 2 ^ v ∧ 2 ^ (v + 1) = 2 * 2 ^ v := by constructor <;> ring
    rw [hsplit, Nat.mul_add_mod, ← hsplit]
    exact Nat.mod_eq_of_lt (by omega)
  exact ⟨v + 1, by omega, by omega, by omega⟩

/-- A mountain above the first level has more nodes in its count than digits,
    and with one leaf behind it fewer, so that one of the states is wrong. -/
theorem PeaksMMRIVERIter.not_keepsLength {n width : Nat} (hn : 2 ≤ n)
    (hsize : nodeCount n + 1 < 2 ^ 64) (hdigits : n < 2 ^ width) (hwidth : width ≤ 63) :
    ¬ KeepsLength (PeaksMMRIVERIter.next b : _ → Outcome ε _)
        (fun state => ok state.len) (.at n width) := by
  intro hkeeps
  obtain ⟨w, hpos, hlow, hmod⟩ := exists_mod_two_pow hn
  have hlt : w + 1 ≤ width := (Nat.pow_lt_pow_iff_right (by omega)).mp (hlow.trans_lt hdigits)
  have hafter := (hkeeps.advance (advances hsize hwidth hlt)).yields (yields hsize (by omega))
  simp only [PeaksMMRIVERIter.len, PeaksMMRIVERIter.at, U64.countOnes, List.length_map,
    peaksBelow_length] at hafter
  injection hafter with hafter
  have hsize : 2 ^ (w + 1) = 2 * 2 ^ w := by ring
  have htwo : 2 ^ 1 ≤ 2 ^ w := Nat.pow_le_pow_right (by omega) hpos
  have hone : popcount 1 = 1 := popcount_two_mul_add_one 0
  rcases hmod with hmod | hmod
  · rw [hmod, nodeCount_two_pow, show 2 ^ (w + 1) - 1 = 2 * (2 ^ w - 1) + 1 by omega,
      popcount_two_mul_add_one, popcount_two_pow] at hafter
    have := popcount_pos (n := 2 ^ w - 1) (by omega)
    omega
  · have hcount : nodeCount (2 ^ w + 1) = 2 ^ (w + 1) := by
      rw [nodeCount_two_pow_add (by omega), nodeCount, hone]
      omega
    have hpopcount : popcount (2 ^ w + 1) = 2 := by
      have hblock := popcount_block (k := w) (r := 1) 1 (by omega)
      rwa [Nat.mul_one, hone] at hblock
    rw [hmod, hcount, popcount_two_pow, hpopcount] at hafter
    omega

/-- The size of `2 ^ 63` leaves is the last word, and the first call of `next`
    panics on it. -/
theorem PeaksMMRIVERIter.not_yields (items : List Nat) :
    ¬ Yields (PeaksMMRIVERIter.next b : _ → Outcome ε _) { peak := 0, remaining := 2 ^ 64 - 1 } items := by
  have hpanic : (PeaksMMRIVERIter.next b { peak := 0, remaining := 2 ^ 64 - 1 } : Outcome ε _) =
      panic := by cases b <;> rfl
  intro hitems
  cases hitems with
  | nil hnext =>
    rw [hpanic] at hnext
    cases hnext
  | cons hnext =>
    rw [hpanic] at hnext
    cases hnext

theorem PeaksMMRIVERIter.keepsLength_zero :
    KeepsLength (PeaksMMRIVERIter.next b : _ → Outcome ε _) (fun state => ok state.len)
      { peak := 0, remaining := 1 } := by
  have hnext : (PeaksMMRIVERIter.next b { peak := 0, remaining := 1 } : Outcome ε _) =
      ok (some 0, { peak := 1, remaining := 0 }) := by cases b <;> rfl
  exact .cons hnext (.nil rfl) rfl (.nil rfl rfl)

/-- The hints are right up to one leaf and in no larger forest. -/
theorem exact_size_iff :
    (∀ b size, size < 2 ^ 64 → ∃ iter, (PeaksIter.new b size : Outcome ε PeaksIter) = ok iter ∧
      (KeepsLength (PeaksIter.next b : _ → Outcome ε _) (PeaksIter.len b) iter ↔ size ≤ 2)) ∧
      ∀ b i n, i + 1 < 2 ^ 64 → i + 1 = nodeCount n →
        ∃ iter, (PeaksMMRIVERIter.new b i : Outcome ε PeaksMMRIVERIter) = ok iter ∧
          (KeepsLength (PeaksMMRIVERIter.next b : _ → Outcome ε _) (fun state => ok state.len) iter ↔
            i = 0) := by
  constructor
  · intro b size hlt
    by_cases hle : size ≤ 2
    · obtain ⟨iter, hnew, hkeeps⟩ := PeaksIter.keepsLength_of_le_two (b := b) (ε := ε) hle
      exact ⟨iter, hnew, iff_of_true hkeeps hle⟩
    · obtain ⟨iter, _, hnew, -⟩ := PeaksIter.len_new (b := b) (ε := ε) hlt
      exact ⟨iter, hnew, iff_of_false (PeaksIter.not_keepsLength hlt (by omega) hnew) hle⟩
  · intro b i n hfit hcount
    have hle := le_nodeCount n
    have hn : 0 < n := Nat.pos_of_ne_zero (by rintro rfl; simp at hcount)
    have hadd : (U64.add b i 1 : Outcome ε Nat) = ok (i + 1) := Word.add_ok hfit
    refine ⟨{ peak := 0, remaining := i + 1 }, by rw [PeaksMMRIVERIter.new, hadd]; rfl, ?_⟩
    obtain rfl | htwo : n = 1 ∨ 2 ≤ n := by omega
    · obtain rfl : i = 0 := Nat.succ_injective hcount
      exact iff_of_true PeaksMMRIVERIter.keepsLength_zero rfl
    have hbig := nodeCount_le_nodeCount_iff.mpr htwo
    have hthree : nodeCount 2 = 3 := rfl
    refine iff_of_false ?_ (by omega)
    by_cases hlast : i + 2 = 2 ^ 64
    · intro hkeeps
      obtain ⟨items, hitems, -⟩ := hkeeps _ (.refl _)
      rw [show i + 1 = 2 ^ 64 - 1 by omega] at hitems
      exact PeaksMMRIVERIter.not_yields items hitems
    · have hsize : nodeCount n + 1 < 2 ^ 64 := by omega
      have hdigits : n < 2 ^ 63 := lt_of_nodeCount_lt hsize
      rw [hcount, ← PeaksMMRIVERIter.at_start hdigits]
      exact PeaksMMRIVERIter.not_keepsLength htwo hsize hdigits (Nat.le_refl 63)

/-- Size four holds three leaves, and the hint is one for two peaks; size three
    holds two, and the hint is two for one peak. -/
theorem hints_wrong :
    (∃ iter, (PeaksIter.new .debug 4 : Outcome Empty PeaksIter) = ok iter ∧
      Yields (PeaksIter.next .debug : _ → Outcome Empty _) iter [2, 3] ∧
      (iter.len .debug : Outcome Empty Nat) = ok 1 ∧
      ¬ KeepsLength (PeaksIter.next .debug : _ → Outcome Empty _) (PeaksIter.len .debug) iter) ∧
      ∃ iter, (PeaksMMRIVERIter.new .debug 2 : Outcome Empty PeaksMMRIVERIter) = ok iter ∧
        Yields (PeaksMMRIVERIter.next .debug : _ → Outcome Empty _) iter [2] ∧ iter.len = 2 ∧
        ¬ KeepsLength (PeaksMMRIVERIter.next .debug : _ → Outcome Empty _)
          (fun state => ok state.len) iter := by
  have hpeaks : Yields (PeaksIter.next .debug : _ → Outcome Empty _)
      { pos := 4, peak_size := 7, peaks_sum := 0 } [2, 3] := .cons rfl (.cons rfl (.nil rfl))
  have hpeak : Yields (PeaksMMRIVERIter.next .debug : _ → Outcome Empty _)
      { peak := 0, remaining := 3 } [2] := .cons rfl (.nil rfl)
  refine ⟨⟨_, rfl, hpeaks, rfl, ?_⟩, ⟨_, rfl, hpeak, by decide, ?_⟩⟩
  · intro hkeeps
    cases hkeeps.yields hpeaks
  · intro hkeeps
    have hlen := hkeeps.yields hpeak
    injection hlen with hlen
    exact absurd hlen (by decide)

end merkleberg.helper
