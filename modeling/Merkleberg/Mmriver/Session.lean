import Merkleberg.Helper.InclusionPath
import Merkleberg.Mmriver.Run
import Merkleberg.Session

open machine machine.Outcome
open forest
open merkleberg.helper

namespace merkleberg.mmriver

variable {Item Store Store' σ μ : Type} {b : Profile} {M : Merge Item μ}
  {R : MMRStoreReadOps Store Item σ} {W : MMRStoreWriteOps Store Item σ}
  {R' : MMRStoreReadOps Store' Item σ} {W' : MMRStoreWriteOps Store' Item σ}

section Holds

variable {S : MapStore R W} {S' : MapStore R' W'} {under under' : Nat → Option Item} {H : Hasher Item}
  {data : List Bytes} {self : MMRIVER Item Store} {self' : MMRIVER Item Store'}

/-- Opening a committed tree again gives the same tree. -/
theorem MMRIVER.Holds.settle (h : self.Holds b S under H data) {next : MMRIVER Item Store}
    (hsettle : MMRIVER.Settle σ μ W self next) : next.Holds b S under H data := by
  refine hsettle.elim fun committed hcommit => ⟨h.commit hcommit, ?_⟩
  have hempty := (MMRBatch.commit_eq_ok_iff.mp (MMRIVER.commit_ok hcommit).1).2
  rw [MMRIVER.new, MMRBatch.new, ← hempty]

/-- A tree takes as many pushes as there are heights for. -/
theorem MMRIVER.Holds.pushAll (h : self.Holds b S under H data) (more : List Bytes)
    (hbound : nodeCount (data.length + more.length) + 1 < allOnesLimit b) :
    ∃ positions final, pushAll (MMRIVER.push b (H.toMerge : Merge Item μ) R) self more =
      ok (.ok positions, final) ∧ final.Holds b S under H (data ++ more) := by
  have hsmaller (m n : Nat) (hle : m ≤ n) (hfit : nodeCount n + 1 < allOnesLimit b) :
      nodeCount m + 1 < allOnesLimit b :=
    (Nat.succ_le_succ (nodeCount_le_nodeCount_iff.mpr hle)).trans_lt hfit
  refine pushAll_ok (fun n => nodeCount n + 1 < allOnesLimit b) hsmaller (fun hself hroom d => ?_) h more
    hbound
  obtain ⟨next, hpush, hnext⟩ := MMRIVER.Holds.push (b := b) (μ := μ) hself hroom d
  exact ⟨_, next, hpush, hnext⟩

/-- Two trees over one log have the same accumulator. -/
theorem MMRIVER.Holds.same_accumulator (h : self.Holds b S under H data)
    (h' : self'.Holds b S' under' H data) :
    (self.get_accumulator b R : Outcome (Error σ μ) _) = self'.get_accumulator b R' := by
  rcases Nat.eq_zero_or_pos data.length with hzero | hpos
  · have hsize : nodeCount data.length = 0 := by rw [hzero, nodeCount_zero]
    rw [MMRIVER.get_accumulator, MMRIVER.get_accumulator, h.forest.size, h'.forest.size, if_pos hsize,
      if_pos hsize]
  · rw [h.get_accumulator hpos, h'.get_accumulator hpos]

theorem MMRIVER.Holds.same_root (h : self.Holds b S under H data) (h' : self'.Holds b S' under' H data)
    (M : Merge Item μ) :
    (self.get_root b M R : Outcome (Error σ μ) Item) = self'.get_root b M R' := by
  rw [MMRIVER.get_root, MMRIVER.get_root, h.same_accumulator h']

/-- Two trees over one log answer reads inside the tree alike. -/
theorem MMRIVER.Holds.same_reads (h : self.Holds b S under H data)
    (h' : self'.Holds b S' under' H data) {positions : List Nat}
    (hinside : ∀ p ∈ positions, p < nodeCount data.length) :
    self.batch.get_elems b R positions = self'.batch.get_elems b R' positions := by
  rw [h.forest.get_elems_eq hinside, h'.forest.get_elems_eq hinside]

/-- Two trees over one log answer every request for an inclusion proof alike. -/
theorem MMRIVER.Holds.same_inclusion_proof (h : self.Holds b S under H data)
    (h' : self'.Holds b S' under' H data) (i : Nat) :
    (self.gen_inclusion_proof b R i : Outcome (Error σ μ) _) = self'.gen_inclusion_proof b R' i := by
  rw [MMRIVER.gen_inclusion_proof, MMRIVER.gen_inclusion_proof, h.forest.size, h'.forest.size]
  by_cases hi : i ≥ nodeCount data.length
  · rw [if_pos hi, if_pos hi]
  · have hlast : (U64.sub b (nodeCount data.length) 1 : Outcome (Error σ μ) Nat) =
        ok (nodeCount data.length - 1) := Word.sub_ok (by omega)
    rw [if_neg hi, if_neg hi, hlast, ok_bind, ok_bind]
    apply bind_congr_of_ok
    intro path hpath
    have hle := inclusion_proof_path_le hpath
    rw [h.same_reads h' fun p hp => by have := hle p hp; omega]

/-- Two trees over one log answer every request for a consistency proof alike,
    also for sizes they never had. -/
theorem MMRIVER.Holds.same_consistency_proof (h : self.Holds b S under H data)
    (h' : self'.Holds b S' under' H data) (mmr_size_from : Nat) :
    (self.gen_consistency_proof b R mmr_size_from : Outcome (Error σ μ) _) =
      self'.gen_consistency_proof b R' mmr_size_from := by
  rw [MMRIVER.gen_consistency_proof, MMRIVER.gen_consistency_proof, h.forest.size, h'.forest.size]
  by_cases hinvalid : mmr_size_from = 0 ∨ mmr_size_from > nodeCount data.length
  · rw [if_pos hinvalid, if_pos hinvalid]
  · have hlast : (U64.sub b (nodeCount data.length) 1 : Outcome (Error σ μ) Nat) =
        ok (nodeCount data.length - 1) := Word.sub_ok (by omega)
    rw [if_neg hinvalid, if_neg hinvalid, hlast]
    apply bind_congr_of_ok
    intro ifrom _
    rw [ok_bind, ok_bind]
    apply bind_congr_of_ok
    intro iter _
    apply bind_congr_of_ok
    intro peaks _
    apply bind_congr_of_ok
    intro proof_indices hindices
    have hinside : ∀ p ∈ proof_indices.flatten, p < nodeCount data.length := by
      intro p hp
      obtain ⟨path, hpath, hmem⟩ := List.mem_flatten.mp hp
      obtain ⟨ipeak, _, hpath'⟩ := exists_of_mapM hindices path hpath
      have := inclusion_proof_path_le hpath' p hmem
      omega
    rw [h.same_reads h' hinside]

end Holds

/-- A session from a tree that holds a log extends that log by the data pushed. -/
theorem MMRIVER.Session.holds_from {S : MapStore R W} {under : Nat → Option Item} {H : Hasher Item}
    (hM : M.Within H.toMerge) {before data : List Bytes} {positions : List Nat}
    {start final : MMRIVER Item Store} (hstart : start.Holds b S under H before)
    (session : MMRIVER.Session b M R W start data positions final)
    (hfit : b = .release → before.length + data.length < 2 ^ 63) :
    final.Holds b S under H (before ++ data) ∧
      positions = (List.range' before.length data.length).map nodeCount := by
  have hpush : ∀ {data self d pos next}, MMRIVER.Holds b S under H data self →
      (b = .release → data.length + 1 < 2 ^ 63) →
      MMRIVER.Attempt b M R self d (.ok pos) next →
      pos = nodeCount data.length ∧ MMRIVER.Holds b S under H (data ++ [d]) next := by
    rintro data self d pos next hself hfit ⟨M', R', hM', hR', hpush⟩
    exact hself.of_push hfit (push_within (hM'.trans hM) hR' hpush)
  exact Session.extends (fun n => b = .release → n < 2 ^ 63)
    (fun n hfit hb => (Nat.le_succ n).trans_lt (hfit hb)) hpush
    MMRIVER.Attempt.unchanged (fun hself hsettle => hself.settle hsettle) hstart session hfit

/-- A session from size zero holds the log it pushed. -/
theorem MMRIVER.Session.holds (S : MapStore R W) {H : Hasher Item} (hM : M.Within H.toMerge)
    {store : Store} {data : List Bytes} {positions : List Nat} {final : MMRIVER Item Store}
    (session : MMRIVER.Session b M R W (MMRIVER.new 0 store) data positions final)
    (hfit : b = .release → data.length < 2 ^ 63) :
    final.Holds b S (S.contents store) H data ∧
      positions = (List.range data.length).map nodeCount := by
  have hsession := MMRIVER.Session.holds_from hM (MMRIVER.Holds.new S H store) session
    (by simpa using hfit)
  rwa [List.nil_append, List.length_nil, ← List.range_eq_range'] at hsession

/-- A run is a session in which nothing failed and nothing was opened again. -/
theorem MMRIVER.Run.session {start final : MMRIVER Item Store} {data : List Bytes}
    {positions : List Nat} (run : MMRIVER.Run b M R W start data positions final) :
    MMRIVER.Session b M R W start data positions final := by
  induction run with
  | refl => exact .refl
  | push run hpush ih => exact ih.push ⟨M, R, .refl M, .refl R, hpush⟩
  | commit run hcommit ih => exact ih.settle ⟨_, hcommit, Or.inl rfl⟩

end merkleberg.mmriver
