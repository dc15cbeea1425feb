import Merkleberg.Mmr.Session
import Merkleberg.Mmriver.Session
import Merkleberg.Symbolic

open machine machine.Outcome
open forest
open merkleberg.helper

namespace merkleberg

variable {Item Store Store' σ μ : Type} {b : Profile}
  {R : MMRStoreReadOps Store Item σ} {W : MMRStoreWriteOps Store Item σ}
  {R' : MMRStoreReadOps Store' Item σ} {W' : MMRStoreWriteOps Store' Item σ}

section HoldsForest

variable {S : MapStore R W} {S' : MapStore R' W'} {under : Nat → Option Item} {value : Nat → Item}
  {n mmr_size mmr_size' : Nat} {batch : MMRBatch Item Store} {batch' : MMRBatch Item Store'}

/-- Over the same elements below, two batches that hold one forest show the same. -/
theorem HoldsForest.same_view (h : HoldsForest S under value n mmr_size batch)
    (h' : HoldsForest S' under value n mmr_size' batch') : batch.view S = batch'.view S' := by
  funext p
  rw [h.shown, h'.shown]

theorem HoldsForest.same_get_elem (h : HoldsForest S under value n mmr_size batch)
    (h' : HoldsForest S' under value n mmr_size' batch') (p : Nat) :
    batch.get_elem b R p = batch'.get_elem b R' p := by
  rw [MMRBatch.get_elem_eq S h.tail h.fits, MMRBatch.get_elem_eq S' h'.tail h'.fits, h.same_view h']

theorem HoldsForest.same_get_elems (h : HoldsForest S under value n mmr_size batch)
    (h' : HoldsForest S' under value n mmr_size' batch') (positions : List Nat) :
    batch.get_elems b R positions = batch'.get_elems b R' positions := by
  rw [MMRBatch.get_elems_eq S h.tail h.fits, MMRBatch.get_elems_eq S' h'.tail h'.fits, h.same_view h']

/-- A store that was filled by a commit still holds every earlier forest. -/
theorem HoldsForest.reopen {value' : Nat → Item} {m : Nat}
    (h : HoldsForest S under value n mmr_size batch) (hcommitted : batch.memory_batch = [])
    (hle : m ≤ n) (hvalue : ∀ p < nodeCount m, value p = value' p) :
    HoldsForest S (S.contents batch.store) value' m (nodeCount m) (.new batch.store) where
  size := rfl
  fits := (nodeCount_le_nodeCount_iff.mpr hle).trans_lt h.fits
  tail := MMRBatch.endsAt_new _ _
  shown p := by
    have hbatch : batch = .new batch.store := by rw [MMRBatch.new, ← hcommitted]
    have hshown := h.shown p
    rw [hbatch, MMRBatch.view_new] at hshown
    rw [MMRBatch.view_new]
    split
    · rename_i hp
      have hinside := nodeCount_le_nodeCount_iff.mpr hle
      rw [hshown, if_pos (by omega), hvalue p hp]
    · rfl

end HoldsForest

/-- Two trees that cannot be told apart by what they return. -/
structure mmr.MMR.SameAnswers (b : Profile) (M : Merge Item μ) (R : MMRStoreReadOps Store Item σ)
    (R' : MMRStoreReadOps Store' Item σ) (self : mmr.MMR Item Store) (self' : mmr.MMR Item Store') :
    Prop where
  mmr_size : self.mmr_size = self'.mmr_size
  get_elem : ∀ p, self.batch.get_elem b R p = self'.batch.get_elem b R' p
  get_elems : ∀ positions, self.batch.get_elems b R positions = self'.batch.get_elems b R' positions
  get_root : (self.get_root b M R : Outcome (Error σ μ) Item) = self'.get_root b M R'
  gen_proof : ∀ pos_list, (∀ p ∈ pos_list, p < 2 ^ 64) →
    (self.gen_proof b M R pos_list : Outcome (Error σ μ) _) = self'.gen_proof b M R' pos_list

/-- Two trees that cannot be told apart by what they return. -/
structure mmriver.MMRIVER.SameAnswers (b : Profile) (M : Merge Item μ)
    (R : MMRStoreReadOps Store Item σ) (R' : MMRStoreReadOps Store' Item σ)
    (self : mmriver.MMRIVER Item Store) (self' : mmriver.MMRIVER Item Store') : Prop where
  mmr_size : self.mmr_size = self'.mmr_size
  get_elem : ∀ p, self.batch.get_elem b R p = self'.batch.get_elem b R' p
  get_elems : ∀ positions, self.batch.get_elems b R positions = self'.batch.get_elems b R' positions
  get_accumulator :
    (self.get_accumulator b R : Outcome (Error σ μ) _) = self'.get_accumulator b R'
  get_root : (self.get_root b M R : Outcome (Error σ μ) Item) = self'.get_root b M R'
  gen_inclusion_proof : ∀ i,
    (self.gen_inclusion_proof b R i : Outcome (Error σ μ) _) = self'.gen_inclusion_proof b R' i
  gen_consistency_proof : ∀ mmr_size_from,
    (self.gen_consistency_proof b R mmr_size_from : Outcome (Error σ μ) _) =
      self'.gen_consistency_proof b R' mmr_size_from

section New

variable {S : MapStore R W} {S' : MapStore R' W'} {store : Store} {store' : Store'}

theorem MapStore.same_get_elem (h : S.contents store = S'.contents store') (p : Nat) :
    (MMRBatch.new store).get_elem b R p = (MMRBatch.new store').get_elem b R' p := by
  rw [MMRBatch.get_elem_eq S (MMRBatch.endsAt_new store 0) (by omega),
    MMRBatch.get_elem_eq S' (MMRBatch.endsAt_new store' 0) (by omega), MMRBatch.view_new,
    MMRBatch.view_new, h]

theorem MapStore.same_get_elems (h : S.contents store = S'.contents store') (positions : List Nat) :
    (MMRBatch.new store).get_elems b R positions = (MMRBatch.new store').get_elems b R' positions := by
  rw [MMRBatch.get_elems_eq S (MMRBatch.endsAt_new store 0) (by omega),
    MMRBatch.get_elems_eq S' (MMRBatch.endsAt_new store' 0) (by omega), MMRBatch.view_new,
    MMRBatch.view_new, h]

theorem mmr.MMR.SameAnswers.new (b : Profile) (M : Merge Item μ)
    (h : S.contents store = S'.contents store') :
    mmr.MMR.SameAnswers b M R R' (.new 0 store) (.new 0 store') where
  mmr_size := rfl
  get_elem := MapStore.same_get_elem h
  get_elems := MapStore.same_get_elems h
  get_root := rfl
  gen_proof pos_list _ := by
    obtain ⟨iter, hiter, hcollect⟩ := mmr.collect_peaks (b := b) (σ := σ) (μ := μ) (n := 0)
      (Nat.le_refl _) (by decide) (by decide)
    rw [peaks_zero, List.map_nil] at hcollect
    simp only [mmr.MMR.gen_proof, mmr.MMR.new, nodeCount_zero] at hiter ⊢
    simp only [hiter, hcollect, ok_bind, List.foldlM_nil]

theorem mmriver.MMRIVER.SameAnswers.new (b : Profile) (M : Merge Item μ)
    (h : S.contents store = S'.contents store') :
    mmriver.MMRIVER.SameAnswers b M R R' (.new 0 store) (.new 0 store') where
  mmr_size := rfl
  get_elem := MapStore.same_get_elem h
  get_elems := MapStore.same_get_elems h
  get_accumulator := rfl
  get_root := rfl
  gen_inclusion_proof i := by
    have hinvalid : i ≥ 0 := Nat.zero_le i
    simp only [mmriver.MMRIVER.gen_inclusion_proof, mmriver.MMRIVER.new, hinvalid, if_true]
  gen_consistency_proof mmr_size_from := by
    have hinvalid : mmr_size_from = 0 ∨ mmr_size_from > 0 := Nat.eq_zero_or_pos mmr_size_from
    simp only [mmriver.MMRIVER.gen_consistency_proof, mmriver.MMRIVER.new, hinvalid, if_true]

end New

/-- For both kinds of tree: two sessions over empty stores that push the same
    data return the same positions and end in trees that answer alike, wherever
    each of them committed, opened the tree again or failed to push. -/
theorem sessions_agree (b : Profile) (S : MapStore R W) (S' : MapStore R' W')
    (M : Merge Item μ) {store : Store} {store' : Store'} (hempty : ∀ p, S.contents store p = none)
    (hempty' : ∀ p, S'.contents store' p = none) {data : List Bytes} (hsmall : data.length < 2 ^ 61)
    {positions positions' : List Nat} :
    (∀ final final', mmr.MMR.Session b M R W (.new 0 store) data positions final →
      mmr.MMR.Session b M R' W' (.new 0 store') data positions' final' →
      positions = positions' ∧ mmr.MMR.SameAnswers b M R R' final final') ∧
    ∀ final final', mmriver.MMRIVER.Session b M R W (.new 0 store) data positions final →
      mmriver.MMRIVER.Session b M R' W' (.new 0 store') data positions' final' →
      positions = positions' ∧ mmriver.MMRIVER.SameAnswers b M R R' final final' := by
  have hcontents : S.contents store = S'.contents store' := by
    funext p
    rw [hempty, hempty']
  constructor
  · intro final final' session session'
    by_cases hne : data = []
    · obtain ⟨rfl, rfl⟩ := session.of_no_data mmr.MMR.Attempt.unchanged
        (fun _ hsettle => hsettle.of_unchanged rfl rfl) hne
      obtain ⟨rfl, rfl⟩ := session'.of_no_data mmr.MMR.Attempt.unchanged
        (fun _ hsettle => hsettle.of_unchanged rfl rfl) hne
      exact ⟨rfl, .new b M hcontents⟩
    · obtain ⟨missing⟩ := session.nonempty mmr.MMR.Attempt.nonempty hne
      have hM := M.within_total missing
      obtain ⟨hfinal, hpositions⟩ := mmr.MMR.Session.holds S hM session fun _ => by omega
      obtain ⟨hfinal', hpositions'⟩ := mmr.MMR.Session.holds S' hM session' fun _ => by omega
      rw [hcontents] at hfinal
      exact ⟨hpositions.trans hpositions'.symm,
        { mmr_size := hfinal.size.trans hfinal'.size.symm
          get_elem := hfinal.same_get_elem hfinal'
          get_elems := hfinal.same_get_elems hfinal'
          get_root := hfinal.same_root hfinal' M
          gen_proof := fun _ hwords => hfinal.same_proof hfinal' M hwords }⟩
  · intro final final' session session'
    by_cases hne : data = []
    · obtain ⟨rfl, rfl⟩ := session.of_no_data mmriver.MMRIVER.Attempt.unchanged
        (fun _ hsettle => hsettle.of_unchanged rfl rfl) hne
      obtain ⟨rfl, rfl⟩ := session'.of_no_data mmriver.MMRIVER.Attempt.unchanged
        (fun _ hsettle => hsettle.of_unchanged rfl rfl) hne
      exact ⟨rfl, .new b M hcontents⟩
    · obtain ⟨missing⟩ := session.nonempty mmriver.MMRIVER.Attempt.nonempty hne
      have hM := M.within_total missing
      obtain ⟨hfinal, hpositions⟩ := mmriver.MMRIVER.Session.holds S hM session fun _ => by omega
      obtain ⟨hfinal', hpositions'⟩ := mmriver.MMRIVER.Session.holds S' hM session' fun _ => by omega
      rw [hcontents] at hfinal
      exact ⟨hpositions.trans hpositions'.symm,
        { mmr_size := hfinal.forest.size.trans hfinal'.forest.size.symm
          get_elem := hfinal.forest.same_get_elem hfinal'.forest
          get_elems := hfinal.forest.same_get_elems hfinal'.forest
          get_accumulator := hfinal.same_accumulator hfinal'
          get_root := hfinal.same_root hfinal' M
          gen_inclusion_proof := hfinal.same_inclusion_proof hfinal'
          gen_consistency_proof := hfinal.same_consistency_proof hfinal' }⟩

/-- Trees in memory on symbolic hashes, with merges that may fail. -/
abbrev mmr.MMR.SymbolicSession (start : mmr.MMR (Term Empty) (MemStore (Term Empty)))
    (data : List Bytes) (positions : List Nat) (final : mmr.MMR (Term Empty) (MemStore (Term Empty))) :
    Prop :=
  mmr.MMR.Session (σ := Empty) (μ := Unit) .debug Term.hasher.toMerge MemStore.readOps
    (MemStore.writeOps .debug) start data positions final

abbrev mmriver.MMRIVER.SymbolicSession (start : mmriver.MMRIVER (Term Empty) (MemStore (Term Empty)))
    (data : List Bytes) (positions : List Nat)
    (final : mmriver.MMRIVER (Term Empty) (MemStore (Term Empty))) : Prop :=
  mmriver.MMRIVER.Session (σ := Empty) (μ := Unit) .debug Term.hasher.toMerge MemStore.readOps
    (MemStore.writeOps .debug) start data positions final

/-- Two leaves, once without more ado, and once with a push that failed, a commit
    and a fresh start from the store in between. -/
theorem sessions_agree_two :
    ∃ final final', mmr.MMR.SymbolicSession (.new 0 MemStore.new) [[1], [2]] [0, 1] final ∧
      mmr.MMR.SymbolicSession (.new 0 MemStore.new) [[1], [2]] [0, 1] final' ∧
      mmr.MMR.SameAnswers (σ := Empty) (μ := Unit) .debug Term.hasher.toMerge MemStore.readOps
        MemStore.readOps final final' := by
  let broken : Merge (Term Empty) Unit :=
    { leaf_hash := fun _ => err (), merge_pos := fun _ _ _ => err () }
  have hbroken : broken.Within Term.hasher.toMerge :=
    { leaf_hash := fun _ _ hfail => by cases hfail
      merge_pos := fun _ _ _ _ hfail => by cases hfail
      merge := fun _ _ _ hfail => by cases hfail }
  have start : mmr.MMR.SymbolicSession (.new 0 MemStore.new) [] [] _ := .refl
  have plain := (start.push (d := [1]) ⟨_, _, .refl _, .refl _, rfl⟩).push (d := [2])
    ⟨_, _, .refl _, .refl _, rfl⟩
  have failed := (start.push (d := [1]) ⟨_, _, .refl _, .refl _, rfl⟩).failed (d := [2])
    ⟨broken, _, hbroken, .refl _, rfl⟩
  have reopened := (failed.settle ⟨_, rfl, Or.inr rfl⟩).push (d := [2]) ⟨_, _, .refl _, .refl _, rfl⟩
  exact ⟨_, _, plain, reopened, ((sessions_agree .debug (MemStore.mapStore .debug)
    (MemStore.mapStore .debug) Term.hasher.toMerge (fun _ => rfl) (fun _ => rfl) (by decide)).1 _ _
      plain reopened).2⟩

/-- For both kinds of tree: once any number of later pushes has been committed, a
    tree opened at the size it had after some earlier push answers as it did then. -/
theorem old_states_readable (b : Profile) (S : MapStore R W) (M : Merge Item μ) {store : Store}
    {data more : List Bytes} {size : Nat} {positions positions' : List Nat} (hne : data ≠ [])
    (hsize : (leaf_index_to_mmr_size b (data.length - 1) : Outcome Empty Nat) = ok size)
    (hsmall : data.length + more.length < 2 ^ 61) :
    (∀ mid final committed, mmr.MMR.Session b M R W (.new 0 store) data positions mid →
      mmr.MMR.Session b M R W mid more positions' final →
      (final.commit W : Outcome Empty (Except (Error σ μ) Unit × _)) = ok (.ok (), committed) →
      ((mmr.MMR.new size committed.batch.store).get_root b M R : Outcome (Error σ μ) Item) =
        mid.get_root b M R ∧
      ∀ pos_list, (∀ p ∈ pos_list, p < 2 ^ 64) →
        ((mmr.MMR.new size committed.batch.store).gen_proof b M R pos_list : Outcome (Error σ μ) _) =
          mid.gen_proof b M R pos_list) ∧
    ∀ mid final committed, mmriver.MMRIVER.Session b M R W (.new 0 store) data positions mid →
      mmriver.MMRIVER.Session b M R W mid more positions' final →
      (final.commit W : Outcome Empty (Except (Error σ μ) Unit × _)) = ok (.ok (), committed) →
      ((mmriver.MMRIVER.new size committed.batch.store).get_accumulator b R : Outcome (Error σ μ) _) =
        mid.get_accumulator b R ∧
      ∀ i, ((mmriver.MMRIVER.new size committed.batch.store).gen_inclusion_proof b R i :
        Outcome (Error σ μ) _) = mid.gen_inclusion_proof b R i := by
  have hpos : 0 < data.length := List.length_pos_iff.mpr hne
  rw [leaf_index_to_mmr_size_eq (by omega), Nat.sub_add_cancel hpos, ok.injEq] at hsize
  subst hsize
  constructor
  · intro mid final committed session session' hcommit
    obtain ⟨missing⟩ := session.nonempty mmr.MMR.Attempt.nonempty hne
    have hM := M.within_total missing
    obtain ⟨hmid, _⟩ := mmr.MMR.Session.holds S hM session fun _ => by omega
    obtain ⟨hfinal, _⟩ := mmr.MMR.Session.holds_from hM hmid session' fun _ => by omega
    have hempty := (MMRBatch.commit_eq_ok_iff.mp (mmr.MMR.commit_ok hcommit).1).2
    have hreopened : (mmr.MMR.new (nodeCount data.length) committed.batch.store).Holds S
        (S.contents committed.batch.store) (M.total missing) data :=
      HoldsForest.reopen (hfinal.commit hcommit) hempty (by simp) fun _ hp => mmr.elemAt_append more hp
    exact ⟨hreopened.same_root hmid M, fun _ hwords => hreopened.same_proof hmid M hwords⟩
  · intro mid final committed session session' hcommit
    obtain ⟨missing⟩ := session.nonempty mmriver.MMRIVER.Attempt.nonempty hne
    have hM := M.within_total missing
    obtain ⟨hmid, _⟩ := mmriver.MMRIVER.Session.holds S hM session fun _ => by omega
    obtain ⟨hfinal, _⟩ := mmriver.MMRIVER.Session.holds_from hM hmid session' fun _ => by omega
    have hempty := (MMRBatch.commit_eq_ok_iff.mp (mmriver.MMRIVER.commit_ok hcommit).1).2
    have hreopened : (mmriver.MMRIVER.new (nodeCount data.length) committed.batch.store).Holds b S
        (S.contents committed.batch.store) (M.total missing) data :=
      ⟨HoldsForest.reopen (hfinal.commit hcommit).forest hempty (by simp) fun _ hp =>
        mmriver.elemAt_append more hp, hmid.height_fits⟩
    exact ⟨hreopened.same_accumulator hmid, hreopened.same_inclusion_proof hmid⟩

/-- The store of five leaves, opened at the size of three by a tree of either kind. -/
theorem old_states_readable_three :
    (∃ mid final committed, mmr.MMR.SymbolicSession (.new 0 MemStore.new) [[1], [2], [3]] [0, 1, 3] mid ∧
      mmr.MMR.SymbolicSession mid [[4], [5]] [4, 7] final ∧
      (final.commit (MemStore.writeOps .debug) : Outcome Empty (Except (Error Empty Unit) Unit × _)) =
        ok (.ok (), committed) ∧
      ((mmr.MMR.new 4 committed.batch.store).get_root .debug
        (Term.hasher.toMerge : Merge (Term Empty) Unit) MemStore.readOps : Outcome (Error Empty Unit) _) =
        mid.get_root .debug Term.hasher.toMerge MemStore.readOps ∧
      ((mmr.MMR.new 4 committed.batch.store).gen_proof .debug
        (Term.hasher.toMerge : Merge (Term Empty) Unit) MemStore.readOps [0, 3] :
          Outcome (Error Empty Unit) _) =
        mid.gen_proof .debug Term.hasher.toMerge MemStore.readOps [0, 3]) ∧
    ∃ mid final committed,
      mmriver.MMRIVER.SymbolicSession (.new 0 MemStore.new) [[1], [2], [3]] [0, 1, 3] mid ∧
      mmriver.MMRIVER.SymbolicSession mid [[4], [5]] [4, 7] final ∧
      (final.commit (MemStore.writeOps .debug) : Outcome Empty (Except (Error Empty Unit) Unit × _)) =
        ok (.ok (), committed) ∧
      ((mmriver.MMRIVER.new 4 committed.batch.store).get_accumulator .debug MemStore.readOps :
        Outcome (Error Empty Unit) _) = mid.get_accumulator .debug MemStore.readOps ∧
      ((mmriver.MMRIVER.new 4 committed.batch.store).gen_inclusion_proof .debug MemStore.readOps 0 :
        Outcome (Error Empty Unit) _) = mid.gen_inclusion_proof .debug MemStore.readOps 0 := by
  constructor
  · have start : mmr.MMR.SymbolicSession (.new 0 MemStore.new) [] [] _ := .refl
    have one := start.push (d := [1]) ⟨_, _, .refl _, .refl _, rfl⟩
    have two := one.push (d := [2]) ⟨_, _, .refl _, .refl _, rfl⟩
    have session := two.push (d := [3]) ⟨_, _, .refl _, .refl _, rfl⟩
    have again {data positions mid} (_ : mmr.MMR.SymbolicSession (.new 0 MemStore.new) data positions mid) :
        mmr.MMR.SymbolicSession mid [] [] mid := .refl
    have four := (again session).push (d := [4]) ⟨_, _, .refl _, .refl _, rfl⟩
    have session' := four.push (d := [5]) ⟨_, _, .refl _, .refl _, rfl⟩
    obtain ⟨hroot, hproof⟩ := (old_states_readable .debug (MemStore.mapStore .debug)
      (Term.hasher.toMerge : Merge (Term Empty) Unit) (by decide) rfl (by decide)).1 _ _ _ session
        session' rfl
    exact ⟨_, _, _, session, session', rfl, hroot, hproof [0, 3] (by decide)⟩
  · have start : mmriver.MMRIVER.SymbolicSession (.new 0 MemStore.new) [] [] _ := .refl
    have one := start.push (d := [1]) ⟨_, _, .refl _, .refl _, rfl⟩
    have two := one.push (d := [2]) ⟨_, _, .refl _, .refl _, rfl⟩
    have session := two.push (d := [3]) ⟨_, _, .refl _, .refl _, rfl⟩
    have again {data positions mid}
        (_ : mmriver.MMRIVER.SymbolicSession (.new 0 MemStore.new) data positions mid) :
        mmriver.MMRIVER.SymbolicSession mid [] [] mid := .refl
    have four := (again session).push (d := [4]) ⟨_, _, .refl _, .refl _, rfl⟩
    have session' := four.push (d := [5]) ⟨_, _, .refl _, .refl _, rfl⟩
    obtain ⟨haccumulator, hproof⟩ := (old_states_readable .debug (MemStore.mapStore .debug)
      (Term.hasher.toMerge : Merge (Term Empty) Unit) (by decide) rfl (by decide)).2 _ _ _ session
        session' rfl
    exact ⟨_, _, _, session, session', rfl, haccumulator, hproof 0⟩

end merkleberg
