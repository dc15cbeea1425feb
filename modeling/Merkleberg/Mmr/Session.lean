import Merkleberg.Mmr.Completeness
import Merkleberg.Session

open machine machine.Outcome
open forest
open merkleberg.helper

namespace merkleberg.mmr

variable {Item Store Store' σ μ : Type} {b : Profile} {M : Merge Item μ}
  {R : MMRStoreReadOps Store Item σ} {W : MMRStoreWriteOps Store Item σ}
  {R' : MMRStoreReadOps Store' Item σ} {W' : MMRStoreWriteOps Store' Item σ}

section Holds

variable {S : MapStore R W} {S' : MapStore R' W'} {under under' : Nat → Option Item} {H : Hasher Item}
  {data : List Bytes} {self : MMR Item Store} {self' : MMR Item Store'}

/-- Opening a committed tree again gives the same tree. -/
theorem MMR.Holds.settle (h : self.Holds S under H data) {next : MMR Item Store}
    (hsettle : MMR.Settle σ μ W self next) : next.Holds S under H data := by
  refine hsettle.elim fun committed hcommit => ⟨h.commit hcommit, ?_⟩
  have hempty := (MMRBatch.commit_eq_ok_iff.mp (MMR.commit_ok hcommit).1).2
  rw [MMR.new, MMRBatch.new, ← hempty]

/-- A tree takes as many pushes as its size has room for. -/
theorem MMR.Holds.pushAll (h : self.Holds S under H data) (more : List Bytes)
    (hbound : data.length + more.length ≤ 2 ^ 63) :
    ∃ positions final, pushAll (MMR.push b (H.toMerge : Merge Item μ) R) self more =
      ok (.ok positions, final) ∧ final.Holds S under H (data ++ more) := by
  refine pushAll_ok (fun n => n ≤ 2 ^ 63) (fun m n hle => hle.trans) (fun hself hroom d => ?_) h more hbound
  obtain ⟨next, hpush, hnext⟩ := MMR.Holds.push (b := b) (μ := μ) hself hroom d
  exact ⟨_, next, hpush, hnext⟩

/-- Two trees over one log have the same root, whatever their stores hold beyond it. -/
theorem MMR.Holds.same_root (h : self.Holds S under H data) (h' : self'.Holds S' under' H data)
    (M : Merge Item μ) :
    (self.get_root b M R : Outcome (Error σ μ) Item) = self'.get_root b M R' := by
  have hsize := h.size
  rw [MMR.get_root, MMR.get_root, hsize, h'.size]
  by_cases hzero : nodeCount data.length = 0
  · rw [if_pos hzero, if_pos hzero]
  · rw [if_neg hzero, if_neg hzero]
    by_cases hone : nodeCount data.length = 1
    · rw [if_pos hone, if_pos hone, h.read_eq (by omega), h'.read_eq (by omega)]
    · obtain ⟨iter, hiter, hpeaks⟩ := collect_peaks (b := b) (σ := σ) (μ := μ)
        (Nat.le_refl (nodeCount data.length)) (nodeCount_lt_succ _) h.fits
      have hread := h.get_elems_eq (b := b) lt_of_mem_peakPositions
      have hread' := h'.get_elems_eq (b := b) lt_of_mem_peakPositions
      rw [peakPositions] at hread hread'
      simp only [if_neg hone, hiter, hpeaks, ok_bind, hread, hread']

/-- Two trees over one log answer every request for a proof alike. -/
theorem MMR.Holds.same_proof (h : self.Holds S under H data) (h' : self'.Holds S' under' H data)
    (M : Merge Item μ) {pos_list : List Nat} (hwords : ∀ p ∈ pos_list, p < 2 ^ 64) :
    (self.gen_proof b M R pos_list : Outcome (Error σ μ) _) = self'.gen_proof b M R' pos_list := by
  have hsize : self.mmr_size = self'.mmr_size := h.size.trans h'.size.symm
  by_cases hne : pos_list = []
  · rw [MMR.gen_proof, MMR.gen_proof, if_pos hne, if_pos hne]
  · by_cases hsmall : self.mmr_size = 1 ∧ pos_list = [0]
    · have hsmall' := hsmall
      rw [hsize] at hsmall'
      rw [MMR.gen_proof, MMR.gen_proof, if_neg hne, if_neg hne, if_pos hsmall, if_pos hsmall', hsize]
    · have hlarge := hsmall
      rw [hsize] at hlarge
      by_cases hheights : ∀ p ∈ pos_list, nodeHeight p = 0
      · obtain ⟨indices, hsorted, hindices, _⟩ := exists_leaf_indices hheights
        obtain ⟨parts, left, hsections, _, _⟩ :=
          exists_sections (peaks_tile data.length) hsorted fun _ _ => Nat.zero_le _
        rw [h.gen_proof_sections hne hwords hheights hsmall hindices hsections,
          h'.gen_proof_sections hne hwords hheights hlarge hindices hsections]
      · have hany := anyM_height_inner (σ := σ) (μ := μ) (b := b) id hwords hheights
        simp only [id_eq] at hany
        simp only [MMR.gen_proof, if_neg hne, if_neg hsmall, if_neg hlarge, hany, ok_bind, if_true]

end Holds

/-- A session from a tree that holds a log extends that log by the data pushed. -/
theorem MMR.Session.holds_from {S : MapStore R W} {under : Nat → Option Item} {H : Hasher Item}
    (hM : M.Within H.toMerge) {before data : List Bytes} {positions : List Nat}
    {start final : MMR Item Store} (hstart : start.Holds S under H before)
    (session : MMR.Session b M R W start data positions final)
    (hfit : b = .release → before.length + data.length ≤ 2 ^ 63) :
    final.Holds S under H (before ++ data) ∧
      positions = (List.range' before.length data.length).map nodeCount := by
  have hpush : ∀ {data self d pos next}, MMR.Holds S under H data self →
      (b = .release → data.length + 1 ≤ 2 ^ 63) →
      MMR.Attempt b M R self d (.ok pos) next →
      pos = nodeCount data.length ∧ MMR.Holds S under H (data ++ [d]) next := by
    rintro data self d pos next hself hfit ⟨M', R', hM', hR', hpush⟩
    exact hself.of_push hfit (push_within (hM'.trans hM) hR' hpush)
  exact Session.extends (fun n => b = .release → n ≤ 2 ^ 63)
    (fun n hfit hb => (Nat.le_succ n).trans (hfit hb)) hpush
    MMR.Attempt.unchanged (fun hself hsettle => hself.settle hsettle) hstart session hfit

/-- A session from size zero holds the log it pushed. -/
theorem MMR.Session.holds (S : MapStore R W) {H : Hasher Item} (hM : M.Within H.toMerge)
    {store : Store} {data : List Bytes} {positions : List Nat} {final : MMR Item Store}
    (session : MMR.Session b M R W (MMR.new 0 store) data positions final)
    (hfit : b = .release → data.length ≤ 2 ^ 63) :
    final.Holds S (S.contents store) H data ∧
      positions = (List.range data.length).map nodeCount := by
  have hsession := MMR.Session.holds_from hM (MMR.Holds.new S H store) session
    (by simpa using hfit)
  rwa [List.nil_append, List.length_nil, ← List.range_eq_range'] at hsession

/-- A run is a session in which nothing failed and nothing was opened again. -/
theorem MMR.Run.session {start final : MMR Item Store} {data : List Bytes} {positions : List Nat}
    (run : MMR.Run b M R W start data positions final) :
    MMR.Session b M R W start data positions final := by
  induction run with
  | refl => exact .refl
  | push run hpush ih => exact ih.push ⟨M, R, .refl M, .refl R, hpush⟩
  | commit run hcommit ih => exact ih.settle ⟨_, hcommit, Or.inl rfl⟩

end merkleberg.mmr
