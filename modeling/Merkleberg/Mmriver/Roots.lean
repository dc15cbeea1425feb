import Merkleberg.Forest.Follow
import Merkleberg.Helper.Peaks
import Merkleberg.Mmriver

open machine machine.Outcome
open forest
open merkleberg.helper

namespace merkleberg.mmriver

variable {Item σ μ : Type} {b : Profile} [DecidableEq Item] {M : Merge Item μ}

/-- The walk of the verifier accepts the lists that follow the accumulator. -/
theorem ConsistencyProof.verify.walk_iff (front : List Item) {rest roots : List Item} :
    ConsistencyProof.verify.walk (front ++ rest) front.length roots = true ↔ Follows roots rest := by
  induction roots generalizing front rest with
  | nil => exact ⟨fun _ => .nil rest, fun _ => rfl⟩
  | cons root roots ih =>
    cases rest with
    | nil =>
      rw [verify.walk, if_pos (by simp)]
      simp only [not_follows_nil, Bool.false_eq_true]
    | cons x rest =>
      have hhere : (front ++ x :: rest)[front.length]? = some x := by simp
      have hnext : (front ++ x :: rest)[front.length + 1]? = rest.head? := by
        rw [List.getElem?_append_right (Nat.le_add_right _ 1), Nat.add_sub_cancel_left,
          List.getElem?_cons_succ, List.head?_eq_getElem?]
      have hmove := @ih (front ++ [x]) rest
      rw [List.append_assoc, List.singleton_append, List.length_append, List.length_singleton] at hmove
      rw [verify.walk, if_neg (by simp), hhere, hnext, follows_cons_iff]
      by_cases hsame : x = root
      · rw [if_pos (by rw [hsame]), ih]
        simp [hsame]
      · rw [if_neg (by simpa using hsame)]
        by_cases hhead : rest.head? = some root
        · rw [if_pos hhead, hmove]
          simp [hsame, hhead]
        · rw [if_neg hhead]
          simp [hsame, hhead]

/-- An old peak and its path lead to a root. -/
def LeadsTo (b : Profile) (M : Merge Item μ) (entry : Nat × Item × List Item) (root : Item) : Prop :=
  included_root b M entry.1 entry.2.1 entry.2.2 = ok root

/-- Behind a root on record the loop records the other ones, without repetitions. -/
theorem ConsistencyProof.consistent_roots.collect_from_iff {entries : List (Nat × Item × List Item)}
    (front : List Item) {roots : List Item} {x : Item} :
    (consistent_roots.collect b M entries (front ++ [x]) : Outcome (Error σ μ) _) = ok roots ↔
      ∃ found, List.Forall₂ (LeadsTo b M) entries found ∧
        roots = front ++ found.destutter' (· ≠ ·) x := by
  induction entries generalizing front x with
  | nil =>
    simp only [consistent_roots.collect, ok.injEq, List.forall₂_nil_left_iff, exists_eq_left,
      List.destutter'_nil, eq_comm]
  | cons entry entries ih =>
    obtain ⟨from_peak, old_peak, path⟩ := entry
    have hlast : (front ++ [x]).getLast? = some x := by simp
    simp only [consistent_roots.collect, hlast, bind_eq_ok_iff, orMergeError, mapErr_eq_ok_iff,
      List.forall₂_cons_left_iff]
    constructor
    · rintro ⟨root, hroot, hrest⟩
      by_cases hsame : x = root
      · rw [if_pos (by rw [hsame]), ih] at hrest
        obtain ⟨found, hfound, rfl⟩ := hrest
        refine ⟨root :: found, ⟨root, found, hroot, hfound, rfl⟩, ?_⟩
        rw [List.destutter'_cons_neg _ (by simpa using hsame)]
      · rw [if_neg (by simpa using hsame), ih] at hrest
        obtain ⟨found, hfound, rfl⟩ := hrest
        refine ⟨root :: found, ⟨root, found, hroot, hfound, rfl⟩, ?_⟩
        rw [List.destutter'_cons_pos _ hsame, List.append_assoc, List.singleton_append]
    · rintro ⟨_, ⟨root, found, hroot, hfound, rfl⟩, hroots⟩
      refine ⟨root, hroot, ?_⟩
      by_cases hsame : x = root
      · rw [if_pos (by rw [hsame]), ih]
        rw [List.destutter'_cons_neg _ (by simpa using hsame)] at hroots
        exact ⟨found, hfound, hroots⟩
      · rw [if_neg (by simpa using hsame), ih]
        rw [List.destutter'_cons_pos _ hsame] at hroots
        exact ⟨found, hfound, by rw [hroots, List.append_assoc, List.singleton_append]⟩

theorem ConsistencyProof.consistent_roots.collect_iff {entries : List (Nat × Item × List Item)}
    {roots : List Item} :
    (consistent_roots.collect b M entries [] : Outcome (Error σ μ) _) = ok roots ↔
      ∃ found, List.Forall₂ (LeadsTo b M) entries found ∧ roots = found.destutter (· ≠ ·) := by
  cases entries with
  | nil =>
    simp only [consistent_roots.collect, ok.injEq, List.forall₂_nil_left_iff, exists_eq_left,
      List.destutter_nil, eq_comm]
  | cons entry entries =>
    obtain ⟨from_peak, old_peak, path⟩ := entry
    have hfrom : ∀ root, (consistent_roots.collect b M entries [root] : Outcome (Error σ μ) _) =
        ok roots ↔ ∃ found, List.Forall₂ (LeadsTo b M) entries found ∧
          roots = found.destutter' (· ≠ ·) root :=
      fun root => collect_from_iff []
    simp only [consistent_roots.collect, List.getLast?_nil, reduceCtorEq, if_false, List.nil_append,
      bind_eq_ok_iff, orMergeError, mapErr_eq_ok_iff, hfrom, List.forall₂_cons_left_iff]
    constructor
    · rintro ⟨root, hroot, found, hfound, rfl⟩
      exact ⟨root :: found, ⟨root, found, hroot, hfound, rfl⟩, rfl⟩
    · rintro ⟨_, ⟨root, found, hroot, hfound, rfl⟩, rfl⟩
      exact ⟨root, hroot, found, hfound, rfl⟩

/-- The peaks of the tree of a claimed size. -/
def peaksOfSize {ε : Type} (b : Profile) (size : Nat) : Outcome ε (List Nat) := do
  let last ← U64.sub b size 1
  let iter ← PeaksMMRIVERIter.new b last
  helper.collect (PeaksMMRIVERIter.next b) iter

/-- The size of a log has the peaks of the log. -/
theorem peaksOfSize_eq {ε : Type} {n : Nat} (hn : 0 < n) (hsize : nodeCount n + 1 < 2 ^ 64) :
    (peaksOfSize b (nodeCount n) : Outcome ε _) = ok (peakPositions n) := by
  have hpos := nodeCount_pos hn
  have hlast : (U64.sub b (nodeCount n) 1 : Outcome ε Nat) = ok (nodeCount n - 1) :=
    Word.sub_ok (by omega)
  rw [peaksOfSize, hlast, ok_bind]
  exact PeaksMMRIVERIter.collect_eq hn hsize

/-- Old peaks by their claimed positions, with their paths. -/
def entries (from_peaks : List Nat) (old_accumulator : List Item) (paths : List (List Item)) :
    List (Nat × Item × List Item) :=
  from_peaks.zip (old_accumulator.zip paths)

theorem ConsistencyProof.consistent_roots_eq {proof : ConsistencyProof Item} {old_accumulator : List Item} :
    (proof.consistent_roots b M old_accumulator : Outcome (Error σ μ) _) =
      peaksOfSize b proof.mmr_size_from >>= fun from_peaks =>
        if from_peaks.length ≠ old_accumulator.length ∨ from_peaks.length ≠ proof.proof_paths.length then
          err .CorruptedProof
        else consistent_roots.collect b M (entries from_peaks old_accumulator proof.proof_paths) [] := by
  simp only [consistent_roots, peaksOfSize, bind_assoc]
  rfl

/-- The roots of a proof: each old peak must lead to one. -/
theorem ConsistencyProof.consistent_roots_iff {proof : ConsistencyProof Item}
    {old_accumulator roots : List Item} :
    (proof.consistent_roots b M old_accumulator : Outcome (Error σ μ) _) = ok roots ↔
      ∃ from_peaks found, (peaksOfSize b proof.mmr_size_from : Outcome (Error σ μ) _) = ok from_peaks ∧
        from_peaks.length = old_accumulator.length ∧ from_peaks.length = proof.proof_paths.length ∧
        List.Forall₂ (LeadsTo b M) (entries from_peaks old_accumulator proof.proof_paths) found ∧
        roots = found.destutter (· ≠ ·) := by
  rw [consistent_roots_eq, bind_eq_ok_iff]
  constructor
  · rintro ⟨from_peaks, hpeaks, hroots⟩
    split at hroots
    · cases hroots
    · rename_i hlengths
      obtain ⟨found, hfound, rfl⟩ := consistent_roots.collect_iff.mp hroots
      exact ⟨from_peaks, found, hpeaks, by omega, by omega, hfound, rfl⟩
  · rintro ⟨from_peaks, found, hpeaks, hold, hpaths, hfound, hroots⟩
    refine ⟨from_peaks, hpeaks, ?_⟩
    rw [if_neg (by omega)]
    exact consistent_roots.collect_iff.mpr ⟨found, hfound, hroots⟩

/-- The verifier accepts when the roots of the old peaks follow the accumulator. -/
theorem ConsistencyProof.verify_iff {proof : ConsistencyProof Item}
    {old_accumulator new_accumulator : List Item} :
    (proof.verify b M old_accumulator new_accumulator : Outcome (Error σ μ) _) = ok true ↔
      ∃ from_peaks found, (peaksOfSize b proof.mmr_size_from : Outcome (Error σ μ) _) = ok from_peaks ∧
        from_peaks.length = old_accumulator.length ∧ from_peaks.length = proof.proof_paths.length ∧
        List.Forall₂ (LeadsTo b M) (entries from_peaks old_accumulator proof.proof_paths) found ∧
        Follows found new_accumulator := by
  have hwalk : ∀ found : List Item,
      verify.walk new_accumulator 0 (found.destutter (· ≠ ·)) = true ↔ Follows found new_accumulator := by
    intro found
    rw [← follows_destutter]
    exact verify.walk_iff []
  simp only [verify, bind_eq_ok_iff, consistent_roots_iff, ok.injEq]
  constructor
  · rintro ⟨_, ⟨from_peaks, found, hpeaks, hold, hpaths, hfound, rfl⟩, hanswer⟩
    exact ⟨from_peaks, found, hpeaks, hold, hpaths, hfound, (hwalk found).mp hanswer⟩
  · rintro ⟨from_peaks, found, hpeaks, hold, hpaths, hfound, hfollows⟩
    exact ⟨_, ⟨from_peaks, found, hpeaks, hold, hpaths, hfound, rfl⟩, (hwalk found).mpr hfollows⟩

end merkleberg.mmriver
