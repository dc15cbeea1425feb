import Merkleberg.Store.Batch

open machine machine.Outcome

namespace merkleberg

variable {State Item Store σ μ : Type} {b : Profile} {R : MMRStoreReadOps Store Item σ}
  {W : MMRStoreWriteOps Store Item σ}

/-- What the two kinds of tree have in common towards their stores. -/
structure Accumulator (State Item Store σ μ : Type) where
  mmr_size : State → Nat
  batch : State → MMRBatch Item Store
  push : State → Bytes → Outcome Empty (Except (Error σ μ) Nat × State)
  commit : State → Outcome Empty (Except (Error σ μ) Unit × State)

namespace Accumulator

/-- A push that succeeds adds one run of elements behind the others, one that fails
    changes nothing, and a commit is that of the batch. -/
structure Lawful (A : Accumulator State Item Store σ μ) (b : Profile)
    (W : MMRStoreWriteOps Store Item σ) : Prop where
  push : ∀ {self d pos next}, A.push self d = ok (.ok pos, next) →
    ∃ elems, elems ≠ [] ∧ A.batch next = (A.batch self).append (A.mmr_size self) elems ∧
      A.mmr_size next = (A.mmr_size self + elems.length) % 2 ^ 64 ∧
      (b = .debug → A.mmr_size self + elems.length < 2 ^ 64)
  push_fails : ∀ {self d error next}, A.push self d = ok (.error error, next) → next = self
  commit : ∀ self, ∃ put : MMRBatch Item Store → State,
    (∀ batch, A.batch (put batch) = batch ∧ A.mmr_size (put batch) = A.mmr_size self) ∧
    A.commit self = do
      let (result, batch) ← (A.batch self).commit W
      ok (result.mapError fun error => .StoreError (.store error), put batch)

/-- Pushes, some of which fail, and successful commits from a state on, with the elements that were
    pushed so far at each position. Only an unchecked build has to be told that
    positions stay in a word. -/
inductive History (A : Accumulator State Item Store σ μ) (b : Profile) (start : State)
    (before : Nat → Option Item) : (Nat → Option Item) → State → Prop where
  | refl : History A b start before before start
  | push {pushed : Nat → Option Item} {self next : State} {d : Bytes} {pos : Nat} {elems : List Item}
      (history : History A b start before pushed self) (hpush : A.push self d = ok (.ok pos, next))
      (hentry : A.batch next = (A.batch self).append (A.mmr_size self) elems)
      (hfits : b = .release → A.mmr_size self + elems.length < 2 ^ 64) :
      History A b start before (overlay (A.mmr_size self) elems pushed) next
  | failed {pushed : Nat → Option Item} {self next : State} {d : Bytes} {error : Error σ μ}
      (history : History A b start before pushed self) (hpush : A.push self d = ok (.error error, next)) :
      History A b start before pushed next
  | commit {pushed : Nat → Option Item} {self next : State}
      (history : History A b start before pushed self) (hcommit : A.commit self = ok (.ok (), next)) :
      History A b start before pushed next

/-- Nothing is lost from one state to the next: what could be read still can, and
    once a later commit has succeeded the store has every element pushed. -/
def Keeps (A : Accumulator State Item Store σ μ) (b : Profile) (S : MapStore R W)
    (pushed : Nat → Option Item) (self next : State) : Prop :=
  (∀ p elem, p < A.mmr_size self → (A.batch self).get_elem b R p = ok (some elem) →
    (A.batch next).get_elem b R p = ok (some elem)) ∧
  ∀ pushed' later final, A.History b next pushed pushed' later →
    A.commit later = ok (.ok (), final) →
    ∀ p elem, pushed' p = some elem → S.contents (A.batch final).store p = some elem

/-- Every element pushed is below the size and can be read. -/
structure Intact (S : MapStore R W) (pushed : Nat → Option Item) (mmr_size : Nat)
    (batch : MMRBatch Item Store) : Prop where
  fits : mmr_size < 2 ^ 64
  tail : batch.EndsAt mmr_size
  shown : ∀ p elem, pushed p = some elem → p < mmr_size ∧ batch.view S p = some elem

section Intact

variable {A : Accumulator State Item Store σ μ} {S : MapStore R W} {pushed : Nat → Option Item}

theorem Intact.push {mmr_size : Nat} {batch : MMRBatch Item Store} {elems : List Item}
    (h : Intact S pushed mmr_size batch) (hne : elems ≠ [])
    (hfits : mmr_size + elems.length < 2 ^ 64) :
    Intact S (overlay mmr_size elems pushed) (mmr_size + elems.length)
      (batch.append mmr_size elems) where
  fits := hfits
  tail := h.tail.append hne
  shown p elem hp := by
    rw [MMRBatch.view_append h.tail hne]
    by_cases hnew : mmr_size ≤ p ∧ p < mmr_size + elems.length
    · rw [overlay_of_mem hnew.1 hnew.2] at hp ⊢
      exact ⟨hnew.2, hp⟩
    · rcases Nat.lt_or_ge p mmr_size with hold | habove
      · rw [overlay_of_lt hold] at hp ⊢
        exact ⟨by omega, (h.shown p elem hp).2⟩
      · rw [overlay_of_ge (by omega)] at hp
        exact absurd (h.shown p elem hp).1 (by omega)

theorem Intact.commit {mmr_size : Nat} {batch batch' : MMRBatch Item Store}
    (h : Intact S pushed mmr_size batch) (hcommit : batch.commit W = ok (.ok (), batch')) :
    Intact S pushed mmr_size batch' where
  fits := h.fits
  tail := MMRBatch.endsAt_commit _ hcommit
  shown := by
    rw [MMRBatch.view_commit h.tail h.fits.le hcommit]
    exact h.shown

/-- A commit that succeeds is one of the batch, and leaves the size alone. -/
theorem Lawful.commit_ok (hA : A.Lawful b W) {self next : State}
    (hcommit : A.commit self = ok (.ok (), next)) :
    (A.batch self).commit W = ok (.ok (), A.batch next) ∧ A.mmr_size next = A.mmr_size self := by
  obtain ⟨put, hput, heq⟩ := hA.commit self
  rw [heq, bind_eq_ok_iff] at hcommit
  obtain ⟨⟨result, batch⟩, hbatch, hnext⟩ := hcommit
  cases result with
  | error error => simp [Except.mapError] at hnext
  | ok =>
    simp only [ok.injEq, Prod.mk.injEq] at hnext
    obtain ⟨_, rfl⟩ := hnext
    rw [(hput batch).1, (hput batch).2]
    exact ⟨hbatch, rfl⟩

/-- Pushes and successful commits keep what was pushed. -/
theorem History.intact (hA : A.Lawful b W) {start self : State} {before : Nat → Option Item}
    (hstart : Intact S before (A.mmr_size start) (A.batch start))
    (history : A.History b start before pushed self) :
    Intact S pushed (A.mmr_size self) (A.batch self) := by
  induction history with
  | refl => exact hstart
  | @push pushed self next d pos elems history hpush hentry hfits ih =>
    obtain ⟨elems', hne, hentry', hsize, hchecked⟩ := hA.push hpush
    obtain rfl : elems' = elems := by
      have hbatch := congrArg MMRBatch.memory_batch (hentry'.symm.trans hentry)
      simpa [MMRBatch.append] using hbatch
    have hfits' : A.mmr_size self + elems'.length < 2 ^ 64 := by
      cases b with
      | debug => exact hchecked rfl
      | release => exact hfits rfl
    rw [hsize, Nat.mod_eq_of_lt hfits', hentry]
    exact ih.push hne hfits'
  | failed history hpush ih => exact hA.push_fails hpush ▸ ih
  | commit history hcommit ih =>
    obtain ⟨hbatch, hsize⟩ := hA.commit_ok hcommit
    rw [hsize]
    exact ih.commit hbatch

end Intact

end Accumulator

section FailedCommit

variable {S : MapStore R W} {self : MMRBatch Item Store} {written rest : List (Nat × List Item)}
  {pos : Nat} {elems : List Item} {middle failed : Store}

/-- What the store has after a commit that failed at some entry. -/
theorem MMRBatch.contents_failed {mmr_size : Nat} (htail : self.EndsAt mmr_size)
    (hfits : mmr_size < 2 ^ 64) (hbatch : self.memory_batch = written ++ (pos, elems) :: rest)
    (hwritten : commit.drain W self.store written = ok (.ok (), middle))
    (hunchanged : S.contents failed = S.contents middle) :
    pos + (elems ++ pendingElems rest).length = mmr_size ∧
      self.view S = overlay pos (elems ++ pendingElems rest) (S.contents failed) ∧
      ∀ p, pos ≤ p → S.contents failed p = S.contents self.store p := by
  obtain ⟨bottom, hentries⟩ := htail
  have hview := view_eq (S := S) hentries
  rw [hbatch] at hentries hview
  obtain ⟨middle', hfront, hback⟩ := contiguous_append_iff.mp hentries
  have hstop := hback.length
  have hstart := hfront.length
  obtain rfl : pos = middle' := hback.1
  have hcontents := drain_ok S hfront (by omega) hwritten
  rw [← hunchanged] at hcontents
  rw [pendingElems_append, overlay_append, hstart, ← hcontents] at hview
  refine ⟨hstop, hview, fun p hp => ?_⟩
  rw [hcontents, overlay_of_ge (by omega)]

/-- A commit that fails keeps everything in view exactly when the store had it. -/
theorem MMRBatch.overlay_contents_iff {mmr_size : Nat} (htail : self.EndsAt mmr_size)
    (hfits : mmr_size < 2 ^ 64) (hbatch : self.memory_batch = written ++ (pos, elems) :: rest)
    (hwritten : commit.drain W self.store written = ok (.ok (), middle))
    (hunchanged : S.contents failed = S.contents middle) :
    (∀ p elem, p < mmr_size → self.view S p = some elem → S.contents failed p = some elem) ↔
      overlay pos (elems ++ pendingElems rest) (S.contents self.store) = S.contents self.store := by
  obtain ⟨hstop, hview, hsame⟩ := contents_failed htail hfits hbatch hwritten hunchanged
  generalize elems ++ pendingElems rest = lost at hstop hview ⊢
  constructor
  · intro hkeeps
    funext p
    by_cases hlost : pos ≤ p ∧ p < pos + lost.length
    · have helem : lost[p - pos]? = some lost[p - pos] := List.getElem?_eq_getElem (by omega)
      rw [overlay_of_mem hlost.1 hlost.2, ← hsame p hlost.1, helem]
      refine (hkeeps p _ (by omega) ?_).symm
      rw [hview, overlay_of_mem hlost.1 hlost.2, helem]
    · rcases Nat.lt_or_ge p pos with hbefore | hafter
      · rw [overlay_of_lt hbefore]
      · rw [overlay_of_ge (by omega)]
  · intro hstored p elem _ hp
    rw [hview] at hp
    by_cases hlost : pos ≤ p ∧ p < pos + lost.length
    · have hpoint := congrFun hstored p
      rw [overlay_of_mem hlost.1 hlost.2] at hpoint hp
      rw [hsame p hlost.1, ← hpoint, hp]
    · rcases Nat.lt_or_ge p pos with hbefore | hafter
      · rwa [overlay_of_lt hbefore] at hp
      · rwa [overlay_of_ge (by omega)] at hp

end FailedCommit

/-- A commit that fails after some entries loses nothing exactly when the store
    already had the elements of the entry that failed and of all later ones. -/
theorem Accumulator.Lawful.failed_commit {A : Accumulator State Item Store σ μ} (hA : A.Lawful b W)
    {S : MapStore R W} {pushed : Nat → Option Item} {self : State}
    (hself : Intact S pushed (A.mmr_size self) (A.batch self))
    {written rest : List (Nat × List Item)} {pos : Nat} {elems : List Item} {middle failed : Store}
    {error : σ} (hbatch : (A.batch self).memory_batch = written ++ (pos, elems) :: rest)
    (hwritten : MMRBatch.commit.drain W (A.batch self).store written = ok (.ok (), middle))
    (hfail : W.append middle pos elems = ok (.error error, failed))
    (hunchanged : S.contents failed = S.contents middle) :
    ∃ next, A.commit self = ok (.error (.StoreError (.store error)), next) ∧
      (A.Keeps b S pushed self next ↔
        overlay pos (elems ++ pendingElems rest) (S.contents (A.batch self).store) =
          S.contents (A.batch self).store) := by
  obtain ⟨put, hput, hcommit⟩ := hA.commit self
  have hdrain := MMRBatch.drain_stops rest hwritten hfail
  rw [← hbatch] at hdrain
  have hfailed : (A.batch self).commit W = ok (.error error, { memory_batch := [], store := failed }) :=
    MMRBatch.commit_eq_ok_iff.mpr ⟨hdrain, rfl⟩
  rw [hfailed, ok_bind] at hcommit
  refine ⟨_, hcommit, ?_⟩
  obtain ⟨hnext, hsize⟩ := hput { memory_batch := [], store := failed }
  generalize put { memory_batch := [], store := failed } = next at hnext hsize ⊢
  have htail : (A.batch next).EndsAt (A.mmr_size next) :=
    hnext ▸ MMRBatch.endsAt_new failed _
  have hview : (A.batch next).view S = S.contents failed := hnext ▸ MMRBatch.view_new S failed
  rw [← MMRBatch.overlay_contents_iff hself.tail hself.fits hbatch hwritten hunchanged]
  have hread (p : Nat) : (A.batch self).get_elem b R p = ok ((A.batch self).view S p) :=
    MMRBatch.get_elem_eq S hself.tail hself.fits p
  have hread' (p : Nat) : (A.batch next).get_elem b R p = ok (S.contents failed p) := by
    rw [MMRBatch.get_elem_eq S htail (hsize ▸ hself.fits), hview]
  simp only [Keeps, hread, hread', ok.injEq]
  refine ⟨fun hkeeps => hkeeps.1, fun hkeeps => ⟨hkeeps, ?_⟩⟩
  intro pushed' later final history hlater p elem hp
  have hnext' : Intact S pushed (A.mmr_size next) (A.batch next) := by
    refine ⟨hsize ▸ hself.fits, htail, fun p elem hp => ?_⟩
    obtain ⟨hlt, hshown⟩ := hself.shown p elem hp
    exact ⟨hsize ▸ hlt, by rw [hview, hkeeps p elem hlt hshown]⟩
  have hfinal := (history.intact hA hnext').commit (hA.commit_ok hlater).1
  have hnil := (MMRBatch.commit_eq_ok_iff.mp (hA.commit_ok hlater).1).2
  obtain ⟨_, hshown⟩ := hfinal.shown p elem hp
  rwa [MMRBatch.view, hnil, pendingElems_nil, overlay_nil] at hshown

end merkleberg
