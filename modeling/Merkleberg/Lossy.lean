import Mathlib.Data.List.Forall2
import Merkleberg.Persistence

open machine machine.Outcome
open forest
open merkleberg.helper

namespace machine.Outcome

variable {ε α β : Type}

/-- A fold returns what it returns with steps that fail more often. -/
theorem Within.foldlM {f g : α → β → Outcome ε α} (hstep : ∀ acc x, Within (f acc x) (g acc x))
    (xs : List β) (acc : α) : Within (xs.foldlM f acc) (xs.foldlM g acc) := by
  induction xs generalizing acc with
  | nil => exact .refl _
  | cons x xs ih => exact .bind (hstep acc x) ih

/-- A value that was found is there; one that was not may be there as well. -/
def Remains (found all : Option α) : Prop := ∀ elem, found = some elem → all = some elem

theorem Remains.refl (found : Option α) : Remains found found := fun _ h => h

theorem Remains.okOr {found all : Option α} (h : Remains found all) (error : ε) :
    Within (okOr error found) (okOr error all) := by
  intro elem hfound
  exact okOr_eq_ok_iff.mpr (h elem (okOr_eq_ok_iff.mp hfound))

theorem within_mapM_okOr (error : ε) {found all : List (Option α)}
    (h : List.Forall₂ Remains found all) :
    Within (found.mapM (Outcome.okOr error)) (all.mapM (Outcome.okOr error)) := by
  induction h with
  | nil => exact .refl _
  | cons hhere _ ih =>
    rw [List.mapM_cons, List.mapM_cons]
    exact .bind (hhere.okOr error) fun _ => .bind ih fun _ => .refl _

end machine.Outcome

namespace merkleberg

variable {Item Store σ μ : Type} {b : Profile}

/-- Reads that may fail, and that may have lost any elements that `R` has: what
    they do find is what `R` finds. -/
structure MMRStoreReadOps.Lossy (L R : MMRStoreReadOps Store Item σ) : Prop where
  get_elem : ∀ {store pos found}, L.get_elem store pos = ok found → found ≠ none →
    R.get_elem store pos = ok found
  get_elems : ∀ {store positions found}, L.get_elems store positions = ok found →
    ∃ all, R.get_elems store positions = ok all ∧ List.Forall₂ Remains found all

section Reads

variable {L R : MMRStoreReadOps Store Item σ} (hL : L.Lossy R)

include hL

theorem MMRBatch.get_elem_lossy {self : MMRBatch Item Store} {pos : Nat} {elem : Item}
    (hread : self.get_elem b L pos = ok (some elem)) : self.get_elem b R pos = ok (some elem) := by
  rw [get_elem] at hread ⊢
  generalize self.memory_batch.reverse = entries at hread ⊢
  induction entries with
  | nil => exact hL.get_elem hread (Option.some_ne_none elem)
  | cons entry rest ih =>
    obtain ⟨start_pos, elems⟩ := entry
    rw [get_elem.scan] at hread ⊢
    split at hread
    · rename_i hbelow
      rw [if_pos hbelow]
      exact ih hread
    · rename_i hfrom
      rw [if_neg hfrom]
      obtain ⟨stop, hstop, hrest⟩ := bind_eq_ok_iff.mp hread
      rw [hstop, ok_bind]
      split at hrest
      · rename_i hinside
        rw [if_pos hinside]
        exact hrest
      · rename_i hbeyond
        rw [if_neg hbeyond]
        exact hL.get_elem hrest (Option.some_ne_none elem)

omit hL in
theorem MMRBatch.get_elems.fill_remains {found all : List (Option Item)}
    (h : List.Forall₂ Remains found all) (results : List (Option Item)) :
    List.Forall₂ Remains (fill results found) (fill results all) := by
  induction results generalizing found all with
  | nil => exact .nil
  | cons result results ih =>
    cases result with
    | some elem => exact .cons (.refl _) (ih h)
    | none =>
      cases h with
      | nil => exact .cons (.refl _) (ih .nil)
      | cons hhere hrest => exact .cons hhere (ih hrest)

/-- What is computed from the elements found is right, when missing ones can only
    make it fail. -/
theorem MMRBatch.get_elems_lossy (self : MMRBatch Item Store) (positions : List Nat) {β : Type}
    {f : List (Option Item) → Outcome (Error σ μ) β}
    (hf : ∀ found all, List.Forall₂ Remains found all → Within (f found) (f all)) :
    Within (orStoreError (self.get_elems b L positions) >>= f)
      (orStoreError (self.get_elems b R positions) >>= f) := by
  intro result hresult
  obtain ⟨found, hfound, hrest⟩ := bind_eq_ok_iff.mp hresult
  rw [orStoreError, mapErr_eq_ok_iff, get_elems, bind_eq_ok_iff] at hfound
  obtain ⟨results, hresults, hread⟩ := hfound
  suffices hall : ∃ all, self.get_elems b R positions = ok all ∧ List.Forall₂ Remains found all by
    obtain ⟨all, hread, hremains⟩ := hall
    rw [hread, orStoreError_ok, ok_bind]
    exact hf found all hremains result hrest
  simp only [get_elems, hresults, ok_bind]
  simp only at hread
  split at hread
  · rename_i hmissing
    obtain ⟨fetched, hfetched, hfill⟩ := bind_eq_ok_iff.mp hread
    obtain ⟨all, hall, hremains⟩ := hL.get_elems hfetched
    refine ⟨get_elems.fill results all, ?_, ?_⟩
    · rw [if_pos hmissing, hall, ok_bind]
    · rw [← ok.inj hfill]
      exact get_elems.fill_remains hremains results
  · rename_i hcomplete
    refine ⟨found, ?_, List.forall₂_same.mpr fun x _ => .refl x⟩
    rw [if_neg hcomplete, hread]

/-- A read for which a missing element is an error. -/
theorem MMRBatch.read_lossy (self : MMRBatch Item Store) (pos : Nat) :
    Within (do let found ← orStoreError (self.get_elem b L pos); okOr .InconsistentStore found)
      (do let found ← orStoreError (self.get_elem b R pos);
          (okOr .InconsistentStore found : Outcome (Error σ μ) Item)) := by
  intro elem hread
  obtain ⟨found, hfound, helem⟩ := bind_eq_ok_iff.mp hread
  rw [okOr_eq_ok_iff.mp helem, orStoreError, mapErr_eq_ok_iff] at hfound
  rw [get_elem_lossy hL hfound, orStoreError_ok, ok_bind, okOr_some]

end Reads

namespace mmr

variable {M M' : Merge Item μ} {L R : MMRStoreReadOps Store Item σ}

theorem MMR.read_lossy (hL : L.Lossy R) (self : MMR Item Store) (pos : Nat) :
    Within (self.read b L pos : Outcome (Error σ μ) Item) (self.read b R pos) :=
  MMRBatch.read_lossy hL self.batch pos

theorem MMR.find_elem_lossy (hL : L.Lossy R) (self : MMR Item Store) (pos : Nat)
    (hashes : List Item) :
    Within (self.find_elem b L pos hashes : Outcome (Error σ μ) Item) (self.find_elem b R pos hashes) := by
  simp only [find_elem]
  cases (U64.checkedSub pos self.mmr_size).bind (hashes[·]?) with
  | some elem => exact .refl _
  | none => exact self.read_lossy hL pos

theorem MMR.push_merged_lossy (hM : M.Within M') (hL : L.Lossy R) (self : MMR Item Store)
    (data : Bytes) :
    Within (push.merged b M L self data : Outcome (Error σ μ) _) (push.merged b M' R self data) := by
  refine .bind ((hM.leaf_hash data).mapErr _) fun elem => .bind (.refl _) fun peak_map => ?_
  refine loop_within ?_ _ _
  rintro ⟨peak, pos, elems⟩
  simp only [push.body]
  split
  · refine .bind (.refl _) fun peak => .bind (.refl _) fun pos => .bind (.refl _) fun left_pos => ?_
    refine .bind (self.find_elem_lossy hL _ elems) fun left_elem => .bind (.refl _) fun right_elem => ?_
    exact .bind ((hM.merge left_elem right_elem).mapErr _) fun _ => .refl _
  · exact .refl _

theorem MMR.get_root_lossy (hL : L.Lossy R) (self : MMR Item Store) :
    Within (self.get_root b M L : Outcome (Error σ μ) Item) (self.get_root b M R) := by
  rw [get_root, get_root]
  split
  · exact .refl _
  split
  · exact self.read_lossy hL 0
  refine .bind (.refl _) fun iter => .bind (.refl _) fun peaks => ?_
  refine self.batch.get_elems_lossy hL peaks fun found all hremains => ?_
  exact .bind (within_mapM_okOr _ hremains) fun _ => .refl _

theorem MMR.gen_proof_for_peak_lossy (hL : L.Lossy R) (self : MMR Item Store) (proof : List Item)
    (pos_list : List Nat) (peak_pos : Nat) :
    Within (self.gen_proof_for_peak b L proof pos_list peak_pos : Outcome (Error σ μ) _)
      (self.gen_proof_for_peak b R proof pos_list peak_pos) := by
  rw [gen_proof_for_peak, gen_proof_for_peak]
  split
  · exact .refl _
  split
  · exact .bind (self.read_lossy hL peak_pos) fun _ => .refl _
  refine loop_within ?_ _ _
  rintro ⟨queue, proof⟩
  cases queue with
  | nil => exact .refl _
  | cons entry queue =>
    obtain ⟨pos, height⟩ := entry
    simp only [gen_proof_for_peak.body]
    refine .bind (.refl _) fun _ => ?_
    split
    · exact .refl _
    refine .bind (.refl _) fun relatives => ?_
    obtain ⟨_, sib_pos, parent_pos⟩ := relatives
    split
    · exact .refl _
    · exact .bind (self.read_lossy hL sib_pos) fun _ => .refl _

theorem MMR.gen_proof_lossy (hL : L.Lossy R) (self : MMR Item Store) (pos_list : List Nat) :
    Within (self.gen_proof b M L pos_list : Outcome (Error σ μ) _) (self.gen_proof b M R pos_list) := by
  rw [gen_proof, gen_proof]
  split
  · exact .refl _
  split
  · exact .refl _
  refine .bind (.refl _) fun inner => ?_
  split
  · exact .refl _
  refine .bind (.refl _) fun iter => .bind (.refl _) fun peaks => ?_
  refine .bind (.foldlM ?_ _ _) fun _ => .refl _
  rintro ⟨pos_list, proof, bagging_track⟩ peak_pos
  exact .bind (self.gen_proof_for_peak_lossy hL _ _ _) fun _ => .refl _

end mmr

namespace mmriver

variable {M M' : Merge Item μ} {L R : MMRStoreReadOps Store Item σ}

theorem MMRIVER.find_elem_lossy (hL : L.Lossy R) (self : MMRIVER Item Store) (pos : Nat)
    (hashes : List Item) :
    Within (self.find_elem b L pos hashes : Outcome (Error σ μ) Item) (self.find_elem b R pos hashes) := by
  simp only [find_elem]
  cases (U64.checkedSub pos self.mmr_size).bind (hashes[·]?) with
  | some elem => exact .refl _
  | none => exact MMRBatch.read_lossy hL self.batch pos

theorem MMRIVER.push_merged_lossy (hM : M.Within M') (hL : L.Lossy R) (self : MMRIVER Item Store)
    (data : Bytes) :
    Within (push.merged b M L self data : Outcome (Error σ μ) _) (push.merged b M' R self data) := by
  refine .bind ((hM.leaf_hash data).mapErr _) fun elem => .bind (.refl _) fun i => ?_
  refine loop_within ?_ _ _
  rintro ⟨i, g, elems⟩
  refine .bind (.refl _) fun height => ?_
  split
  · refine .bind (.refl _) fun offset => .bind (.refl _) fun left_pos => .bind (.refl _) fun right_pos => ?_
    refine .join (self.find_elem_lossy hL left_pos elems) (self.find_elem_lossy hL right_pos elems) ?_
    intro left_elem right_elem
    refine .bind (.refl _) fun parent_pos => ?_
    exact .bind ((hM.merge_pos parent_pos left_elem right_elem).mapErr _) fun _ => .refl _
  · exact .refl _

theorem MMRIVER.get_accumulator_lossy (hL : L.Lossy R) (self : MMRIVER Item Store) :
    Within (self.get_accumulator b L : Outcome (Error σ μ) _) (self.get_accumulator b R) := by
  rw [get_accumulator, get_accumulator]
  split
  · exact .refl _
  refine .bind (.refl _) fun last => .bind (.refl _) fun iter => .bind (.refl _) fun peaks => ?_
  exact self.batch.get_elems_lossy hL peaks fun _ _ => within_mapM_okOr _

theorem MMRIVER.get_root_lossy (hL : L.Lossy R) (self : MMRIVER Item Store) :
    Within (self.get_root b M L : Outcome (Error σ μ) Item) (self.get_root b M R) :=
  .bind (self.get_accumulator_lossy hL) fun _ => .refl _

theorem MMRIVER.gen_inclusion_proof_lossy (hL : L.Lossy R) (self : MMRIVER Item Store) (i : Nat) :
    Within (self.gen_inclusion_proof b L i : Outcome (Error σ μ) _) (self.gen_inclusion_proof b R i) := by
  rw [gen_inclusion_proof, gen_inclusion_proof]
  split
  · exact .refl _
  refine .bind (.refl _) fun c => .bind (.refl _) fun path_indices => ?_
  refine self.batch.get_elems_lossy hL path_indices fun found all hremains => ?_
  exact .bind (within_mapM_okOr _ hremains) fun _ => .refl _

theorem MMRIVER.gen_consistency_proof.cut_lossy (paths : List (List Nat)) {found all : List (Option Item)}
    (h : List.Forall₂ Remains found all) :
    Within (cut paths found : Outcome (Error σ μ) _) (cut paths all) := by
  induction paths generalizing found all with
  | nil => exact .refl _
  | cons path_indices rest ih =>
    rw [cut, cut, h.length_eq]
    split
    · exact .refl _
    · refine .bind (within_mapM_okOr _ (List.forall₂_take _ h)) fun _ => ?_
      exact .bind (ih (List.forall₂_drop _ h)) fun _ => .refl _

theorem MMRIVER.gen_consistency_proof_lossy (hL : L.Lossy R) (self : MMRIVER Item Store)
    (mmr_size_from : Nat) :
    Within (self.gen_consistency_proof b L mmr_size_from : Outcome (Error σ μ) _)
      (self.gen_consistency_proof b R mmr_size_from) := by
  rw [gen_consistency_proof, gen_consistency_proof]
  split
  · exact .refl _
  refine .bind (.refl _) fun ifrom => .bind (.refl _) fun ito => .bind (.refl _) fun iter => ?_
  refine .bind (.refl _) fun peaks => .bind (.refl _) fun proof_indices => ?_
  refine self.batch.get_elems_lossy hL _ fun found all hremains => ?_
  exact .bind (gen_consistency_proof.cut_lossy proof_indices hremains) fun _ => .refl _

end mmriver

/-- A session goes through over any steps that return at least what its own do. -/
theorem Session.mono {State ε : Type} {attempt attempt' : State → Bytes → Except ε Nat → State → Prop}
    {settle : State → State → Prop} {start final : State} {data : List Bytes} {positions : List Nat}
    (hattempt : ∀ {self d pos next}, attempt self d (.ok pos) next → attempt' self d (.ok pos) next)
    (hfailed : ∀ {self d error next}, attempt self d (.error error) next → next = self)
    (session : Session attempt settle start data positions final) :
    Session attempt' settle start data positions final := by
  induction session with
  | refl => exact .refl
  | push _ hpush ih => exact ih.push (hattempt hpush)
  | failed _ hpush ih => exact hfailed hpush ▸ ih
  | settle _ hsettle ih => exact ih.settle hsettle

/-- A push attempt over a store that may have lost elements by then. -/
def mmr.MMR.LossyAttempt (b : Profile) (M : Merge Item μ) (R : MMRStoreReadOps Store Item σ)
    (self : mmr.MMR Item Store) (d : Bytes) (result : Except (Error σ μ) Nat)
    (next : mmr.MMR Item Store) : Prop :=
  ∃ M' L, M'.Within M ∧ L.Lossy R ∧ self.push b M' L d = ok (result, next)

def mmriver.MMRIVER.LossyAttempt (b : Profile) (M : Merge Item μ) (R : MMRStoreReadOps Store Item σ)
    (self : mmriver.MMRIVER Item Store) (d : Bytes) (result : Except (Error σ μ) Nat)
    (next : mmriver.MMRIVER Item Store) : Prop :=
  ∃ M' L, M'.Within M ∧ L.Lossy R ∧ self.push b M' L d = ok (result, next)

abbrev mmr.MMR.LossySession (b : Profile) (M : Merge Item μ) (R : MMRStoreReadOps Store Item σ)
    (W : MMRStoreWriteOps Store Item σ) (start : mmr.MMR Item Store) :
    List Bytes → List Nat → mmr.MMR Item Store → Prop :=
  merkleberg.Session (mmr.MMR.LossyAttempt b M R) (mmr.MMR.Settle σ μ W) start

abbrev mmriver.MMRIVER.LossySession (b : Profile) (M : Merge Item μ) (R : MMRStoreReadOps Store Item σ)
    (W : MMRStoreWriteOps Store Item σ) (start : mmriver.MMRIVER Item Store) :
    List Bytes → List Nat → mmriver.MMRIVER Item Store → Prop :=
  merkleberg.Session (mmriver.MMRIVER.LossyAttempt b M R) (mmriver.MMRIVER.Settle σ μ W) start

section Session

variable {M : Merge Item μ} {R : MMRStoreReadOps Store Item σ} {W : MMRStoreWriteOps Store Item σ}

theorem mmr.MMR.LossySession.session {start final : mmr.MMR Item Store} {data : List Bytes}
    {positions : List Nat} (session : mmr.MMR.LossySession b M R W start data positions final) :
    mmr.MMR.Session b M R W start data positions final := by
  refine merkleberg.Session.mono ?_ ?_ session
  · rintro self d pos next ⟨M', L, hM', hL, hpush⟩
    exact ⟨M, R, .refl M, .refl R, (mmr.MMR.push_merged_lossy hM' hL self d).orReturn hpush⟩
  · rintro self d error next ⟨M', L, _, _, hpush⟩
    exact (mmr.MMR.push_eq_error_iff.mp hpush).2

theorem mmriver.MMRIVER.LossySession.session {start final : mmriver.MMRIVER Item Store}
    {data : List Bytes} {positions : List Nat}
    (session : mmriver.MMRIVER.LossySession b M R W start data positions final) :
    mmriver.MMRIVER.Session b M R W start data positions final := by
  refine merkleberg.Session.mono ?_ ?_ session
  · rintro self d pos next ⟨M', L, hM', hL, hpush⟩
    exact ⟨M, R, .refl M, .refl R, (mmriver.MMRIVER.push_merged_lossy hM' hL self d).orReturn hpush⟩
  · rintro self d error next ⟨M', L, _, _, hpush⟩
    exact (mmriver.MMRIVER.push_eq_error_iff.mp hpush).2

variable {Store' : Type} {R' : MMRStoreReadOps Store' Item σ} {W' : MMRStoreWriteOps Store' Item σ}

/-- A store that loses elements is found out and never makes a tree of either kind
    answer wrongly. When any elements may be missing at any push and at the end, the
    pushes that succeeded returned the positions that they return over a store that
    keeps everything, and every root, accumulator or proof that is still returned is
    the one returned there. -/
theorem lossy_answers_agree (S : MapStore R W) (S' : MapStore R' W') {H : Hasher Item}
    (hM : M.Within H.toMerge) {store : Store} {store' : Store'} {data : List Bytes}
    {positions positions' : List Nat} (hfit : b = .release → data.length < 2 ^ 63)
    {L : MMRStoreReadOps Store Item σ} (hL : L.Lossy R) :
    (∀ final final',
      mmr.MMR.LossySession b M R W (.new 0 store) data positions final →
      mmr.MMR.Session b M R' W' (.new 0 store') data positions' final' →
      positions = positions' ∧
      Within (final.get_root b M L : Outcome (Error σ μ) Item) (final'.get_root b M R') ∧
      ∀ pos_list, (∀ p ∈ pos_list, p < 2 ^ 64) →
        Within (final.gen_proof b M L pos_list : Outcome (Error σ μ) _)
          (final'.gen_proof b M R' pos_list)) ∧
    ∀ final final',
      mmriver.MMRIVER.LossySession b M R W (.new 0 store) data positions final →
      mmriver.MMRIVER.Session b M R' W' (.new 0 store') data positions' final' →
      positions = positions' ∧
      Within (final.get_accumulator b L : Outcome (Error σ μ) _) (final'.get_accumulator b R') ∧
      Within (final.get_root b M L : Outcome (Error σ μ) Item) (final'.get_root b M R') ∧
      (∀ i, Within (final.gen_inclusion_proof b L i : Outcome (Error σ μ) _)
        (final'.gen_inclusion_proof b R' i)) ∧
      ∀ mmr_size_from, Within (final.gen_consistency_proof b L mmr_size_from : Outcome (Error σ μ) _)
        (final'.gen_consistency_proof b R' mmr_size_from) := by
  refine ⟨fun final final' session session' => ?_, fun final final' session session' => ?_⟩
  · obtain ⟨h, hpositions⟩ :=
      (mmr.MMR.LossySession.session session).holds S hM fun hb => (hfit hb).le
    obtain ⟨h', hpositions'⟩ := session'.holds S' hM fun hb => (hfit hb).le
    refine ⟨hpositions.trans hpositions'.symm, ?_, fun pos_list hwords => ?_⟩
    · rw [← h.same_root h' M]
      exact final.get_root_lossy hL
    · rw [← h.same_proof h' M hwords]
      exact final.gen_proof_lossy hL pos_list
  · obtain ⟨h, hpositions⟩ := (mmriver.MMRIVER.LossySession.session session).holds S hM hfit
    obtain ⟨h', hpositions'⟩ := session'.holds S' hM hfit
    refine ⟨hpositions.trans hpositions'.symm, ?_, ?_, fun i => ?_, fun mmr_size_from => ?_⟩
    · rw [← h.same_accumulator h']
      exact final.get_accumulator_lossy hL
    · rw [← h.same_root h' M]
      exact final.get_root_lossy hL
    · rw [← h.same_inclusion_proof h' i]
      exact final.gen_inclusion_proof_lossy hL i
    · rw [← h.same_consistency_proof h' mmr_size_from]
      exact final.gen_consistency_proof_lossy hL mmr_size_from

end Session

/-- Reads of a map in memory that has lost the positions `lost`. -/
def MemStore.lossyOps {T Err : Type} (lost : Nat → Bool) : MMRStoreReadOps (MemStore T) T Err where
  get_elem self pos := ok (if lost pos then none else self.entries pos)
  get_elems self positions := ok (positions.map fun pos => if lost pos then none else self.entries pos)

theorem MemStore.lossyOps_lossy {T Err : Type} (lost : Nat → Bool) :
    (lossyOps lost : MMRStoreReadOps (MemStore T) T Err).Lossy readOps where
  get_elem := by
    intro store pos found hread hfound
    simp only [lossyOps, ok.injEq] at hread
    subst hread
    split at hfound
    · exact absurd rfl hfound
    · rename_i hkept
      rw [if_neg hkept]
      rfl
  get_elems := by
    intro store positions found hread
    refine ⟨_, rfl, ?_⟩
    rw [← ok.inj hread, List.forall₂_map_left_iff, List.forall₂_map_right_iff, List.forall₂_same]
    intro pos _ elem helem
    split at helem
    · cases helem
    · exact helem

/-- Two leaves in memory, of which the store has lost the first by the end. -/
theorem lossy_answers_agree_two :
    ∃ final root, mmr.MMR.SymbolicSession (.new 0 MemStore.new) [[1], [2]] [0, 1] final ∧
      (final.get_root .debug (Term.hasher.toMerge : Merge (Term Empty) Unit)
        (MemStore.lossyOps (· = 0)) : Outcome (Error Empty Unit) _) = ok root ∧
      (final.get_root .debug (Term.hasher.toMerge : Merge (Term Empty) Unit)
        MemStore.readOps : Outcome (Error Empty Unit) _) = ok root := by
  have lossy : mmr.MMR.LossySession .debug (Term.hasher.toMerge : Merge (Term Empty) Unit)
      (MemStore.readOps : MMRStoreReadOps _ _ Empty) (MemStore.writeOps .debug)
      (.new 0 MemStore.new) [] [] _ := .refl
  have lossy := ((lossy.push (d := [1]) ⟨_, _, .refl _, MemStore.lossyOps_lossy (· = 7), rfl⟩).push
    (d := [2]) ⟨_, _, .refl _, MemStore.lossyOps_lossy (· = 7), rfl⟩).settle ⟨_, rfl, Or.inl rfl⟩
  have start : mmr.MMR.SymbolicSession (.new 0 MemStore.new) [] [] _ := .refl
  have session := ((start.push (d := [1]) ⟨_, _, .refl _, .refl _, rfl⟩).push (d := [2])
    ⟨_, _, .refl _, .refl _, rfl⟩).settle ⟨_, rfl, Or.inl rfl⟩
  obtain ⟨_, hroot, _⟩ := (lossy_answers_agree (b := .debug) (MemStore.mapStore .debug)
    (MemStore.mapStore .debug) (.refl (Term.hasher.toMerge : Merge (Term Empty) Unit))
    (fun hb => by cases hb) (MemStore.lossyOps_lossy (· = 0))).1 _ _ lossy session
  exact ⟨_, _, session, rfl, hroot _ rfl⟩

end merkleberg
