import Merkleberg.Mmr
import Merkleberg.Mmriver

open machine machine.Outcome
open merkleberg.helper

namespace merkleberg

variable {Item Store σ μ : Type} {b : Profile}

/-- Whatever an operation of `M` returns, that of `M'` returns as well. -/
structure Merge.Within (M M' : Merge Item μ) : Prop where
  leaf_hash : ∀ data, Outcome.Within (M.leaf_hash data) (M'.leaf_hash data)
  merge_pos : ∀ pos left right, Outcome.Within (M.merge_pos pos left right) (M'.merge_pos pos left right)
  merge : ∀ left right, Outcome.Within (M.merge left right) (M'.merge left right)

/-- Whatever a single read of `R` returns, that of `R'` returns as well. -/
def MMRStoreReadOps.Within (R R' : MMRStoreReadOps Store Item σ) : Prop :=
  ∀ store pos, Outcome.Within (R.get_elem store pos) (R'.get_elem store pos)

theorem Merge.Within.refl (M : Merge Item μ) : M.Within M :=
  ⟨fun _ => .refl _, fun _ _ _ => .refl _, fun _ _ => .refl _⟩

theorem Merge.Within.trans {M M' M'' : Merge Item μ} (h : M.Within M') (h' : M'.Within M'') :
    M.Within M'' :=
  ⟨fun data => (h.leaf_hash data).trans (h'.leaf_hash data),
    fun pos left right => (h.merge_pos pos left right).trans (h'.merge_pos pos left right),
    fun left right => (h.merge left right).trans (h'.merge left right)⟩

theorem MMRStoreReadOps.Within.refl (R : MMRStoreReadOps Store Item σ) : R.Within R :=
  fun _ _ => .refl _

/-- A value in place of every failure. -/
def Merge.total (M : Merge Item μ) (missing : Item) : Hasher Item where
  leaf_hash data := (M.leaf_hash data).getD missing
  merge_pos pos left right := (M.merge_pos pos left right).getD missing
  merge left right := (M.merge left right).getD missing
  merge_peaks left right := (M.merge_peaks left right).getD missing

theorem Merge.within_total (M : Merge Item μ) (missing : Item) :
    M.Within (M.total missing).toMerge where
  leaf_hash _ := within_getD _ missing
  merge_pos _ _ _ := within_getD _ missing
  merge _ _ := within_getD _ missing

section Push

variable {M M' : Merge Item μ} {R R' : MMRStoreReadOps Store Item σ}

theorem MMRBatch.get_elem_within (hR : R.Within R') (self : MMRBatch Item Store) (pos : Nat) :
    Outcome.Within (self.get_elem b R pos) (self.get_elem b R' pos) := by
  unfold MMRBatch.get_elem
  induction self.memory_batch.reverse with
  | nil => exact hR self.store pos
  | cons entry rest ih =>
    obtain ⟨start_pos, elems⟩ := entry
    unfold MMRBatch.get_elem.scan
    split
    · exact ih
    · refine .bind (.refl _) fun stop => ?_
      split
      · exact .refl _
      · exact hR self.store pos

theorem mmr.MMR.find_elem_within (hR : R.Within R') (self : mmr.MMR Item Store) (pos : Nat)
    (hashes : List Item) :
    Outcome.Within (self.find_elem b R pos hashes : Outcome (Error σ μ) Item)
      (self.find_elem b R' pos hashes) := by
  simp only [mmr.MMR.find_elem]
  cases (U64.checkedSub pos self.mmr_size).bind (hashes[·]?) with
  | some elem => exact .refl _
  | none => exact .bind ((MMRBatch.get_elem_within hR self.batch pos).mapErr _) fun _ => .refl _

/-- A push that succeeds appends the new elements at the size it had. -/
theorem mmr.MMR.push_eq_ok_iff {self next : mmr.MMR Item Store} {data : Bytes} {pos : Nat} :
    self.push b M R data = ok (.ok pos, next) ↔
      ∃ last elems mmr_size,
        mmr.MMR.push.merged b M R self data = (ok (last, elems) : Outcome (Error σ μ) _) ∧
        (U64.add b last 1 : Outcome (Error σ μ) Nat) = ok mmr_size ∧ pos = self.mmr_size ∧
        next = { mmr_size, batch := self.batch.append self.mmr_size elems } := by
  rw [mmr.MMR.push, orReturn_eq_ok_iff]
  constructor
  · rintro ⟨⟨last, elems⟩, hmerged, hrest⟩
    obtain ⟨mmr_size, hsize, hnext⟩ := orReturn_eq_ok_iff.mp hrest
    cases hnext
    exact ⟨last, elems, mmr_size, hmerged, hsize, rfl, rfl⟩
  · rintro ⟨last, elems, mmr_size, hmerged, hsize, rfl, rfl⟩
    exact ⟨(last, elems), hmerged, orReturn_eq_ok_iff.mpr ⟨mmr_size, hsize, rfl⟩⟩

/-- A push that fails does so before it has written anything. -/
theorem mmr.MMR.push_eq_error_iff {self next : mmr.MMR Item Store} {data : Bytes} {error : Error σ μ} :
    self.push b M R data = ok (.error error, next) ↔
      mmr.MMR.push.merged b M R self data = err error ∧ next = self := by
  rw [mmr.MMR.push, orReturn_eq_error_iff, or_iff_left]
  rintro ⟨⟨last, elems⟩, _, hrest⟩
  rcases orReturn_eq_error_iff.mp hrest with ⟨hsize, _⟩ | ⟨mmr_size, _, hnext⟩
  · exact Word.add_ne_err hsize
  · cases hnext

theorem mmr.MMR.push_merged_within (hM : M.Within M') (hR : R.Within R') (self : mmr.MMR Item Store)
    (data : Bytes) :
    Outcome.Within (mmr.MMR.push.merged b M R self data : Outcome (Error σ μ) _)
      (mmr.MMR.push.merged b M' R' self data) := by
  refine .bind ((hM.leaf_hash data).mapErr _) fun elem => .bind (.refl _) fun peak_map => ?_
  refine loop_within ?_ _ _
  rintro ⟨peak, pos, elems⟩
  simp only [mmr.MMR.push.body]
  split
  · refine .bind (.refl _) fun peak => .bind (.refl _) fun pos => .bind (.refl _) fun left_pos => ?_
    refine .bind (mmr.MMR.find_elem_within hR self _ elems) fun left_elem => ?_
    refine .bind (.refl _) fun right_elem => ?_
    exact .bind ((hM.merge left_elem right_elem).mapErr _) fun _ => .refl _
  · exact .refl _

/-- A push that succeeds does so over merges and reads that fail less often. -/
theorem mmr.MMR.push_within (hM : M.Within M') (hR : R.Within R') {self next : mmr.MMR Item Store}
    {data : Bytes} {pos : Nat}
    (hpush : self.push b M R data = ok (.ok pos, next)) :
    self.push b M' R' data = ok (.ok pos, next) :=
  (push_merged_within hM hR self data).orReturn hpush

theorem mmriver.MMRIVER.find_elem_within (hR : R.Within R') (self : mmriver.MMRIVER Item Store)
    (pos : Nat) (hashes : List Item) :
    Outcome.Within (self.find_elem b R pos hashes : Outcome (Error σ μ) Item)
      (self.find_elem b R' pos hashes) := by
  simp only [mmriver.MMRIVER.find_elem]
  cases (U64.checkedSub pos self.mmr_size).bind (hashes[·]?) with
  | some elem => exact .refl _
  | none => exact .bind ((MMRBatch.get_elem_within hR self.batch pos).mapErr _) fun _ => .refl _

/-- A push that succeeds appends the new elements at the size it had. -/
theorem mmriver.MMRIVER.push_eq_ok_iff {self next : mmriver.MMRIVER Item Store} {data : Bytes}
    {pos : Nat} :
    self.push b M R data = ok (.ok pos, next) ↔
      ∃ i elems,
        mmriver.MMRIVER.push.merged b M R self data = (ok (i, elems) : Outcome (Error σ μ) _) ∧
        pos = self.mmr_size ∧
        next = { mmr_size := i, batch := self.batch.append self.mmr_size elems } := by
  rw [mmriver.MMRIVER.push, orReturn_eq_ok_iff]
  constructor
  · rintro ⟨⟨i, elems⟩, hmerged, hnext⟩
    cases hnext
    exact ⟨i, elems, hmerged, rfl, rfl⟩
  · rintro ⟨i, elems, hmerged, rfl, rfl⟩
    exact ⟨(i, elems), hmerged, rfl⟩

/-- A push that fails does so before it has written anything. -/
theorem mmriver.MMRIVER.push_eq_error_iff {self next : mmriver.MMRIVER Item Store} {data : Bytes}
    {error : Error σ μ} :
    self.push b M R data = ok (.error error, next) ↔
      mmriver.MMRIVER.push.merged b M R self data = err error ∧ next = self := by
  rw [mmriver.MMRIVER.push, orReturn_eq_error_iff, or_iff_left]
  rintro ⟨⟨i, elems⟩, _, hnext⟩
  cases hnext

theorem mmriver.MMRIVER.push_merged_within (hM : M.Within M') (hR : R.Within R')
    (self : mmriver.MMRIVER Item Store) (data : Bytes) :
    Outcome.Within (mmriver.MMRIVER.push.merged b M R self data : Outcome (Error σ μ) _)
      (mmriver.MMRIVER.push.merged b M' R' self data) := by
  refine .bind ((hM.leaf_hash data).mapErr _) fun elem => .bind (.refl _) fun i => ?_
  refine loop_within ?_ _ _
  rintro ⟨i, g, elems⟩
  refine .bind (.refl _) fun height => ?_
  split
  · refine .bind (.refl _) fun offset => .bind (.refl _) fun left_pos => .bind (.refl _) fun right_pos => ?_
    refine .join (find_elem_within hR self left_pos elems) (find_elem_within hR self right_pos elems) ?_
    intro left_elem right_elem
    refine .bind (.refl _) fun parent_pos => ?_
    exact .bind ((hM.merge_pos parent_pos left_elem right_elem).mapErr _) fun _ => .refl _
  · exact .refl _

/-- A push that succeeds does so over merges and reads that fail less often. -/
theorem mmriver.MMRIVER.push_within (hM : M.Within M') (hR : R.Within R')
    {self next : mmriver.MMRIVER Item Store} {data : Bytes} {pos : Nat}
    (hpush : self.push b M R data = ok (.ok pos, next)) :
    self.push b M' R' data = ok (.ok pos, next) :=
  (push_merged_within hM hR self data).orReturn hpush

end Push

end merkleberg
