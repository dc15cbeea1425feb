import Merkleberg.Fallible
import Merkleberg.Store.Commit
import Merkleberg.Symbolic

open machine machine.Outcome
open merkleberg.helper

namespace merkleberg

variable {Item Store σ μ : Type} {b : Profile} {M : Merge Item μ}
  {R : MMRStoreReadOps Store Item σ} {W : MMRStoreWriteOps Store Item σ}

/-- The elements of a push in progress, with the position behind them. -/
def Counted (b : Profile) (mmr_size next : Nat) (elems : List Item) : Prop :=
  elems ≠ [] ∧ next % 2 ^ 64 = (mmr_size + elems.length) % 2 ^ 64 ∧
    (b = .debug → next = mmr_size + elems.length)

theorem counted_singleton (b : Profile) (mmr_size : Nat) (elem : Item) :
    Counted b mmr_size (mmr_size + 1) [elem] :=
  ⟨List.cons_ne_nil _ _, rfl, fun _ => rfl⟩

/-- One more element moves the position by one. -/
theorem Counted.snoc {mmr_size next : Nat} {elems : List Item} (h : Counted b mmr_size next elems)
    (elem : Item) : Counted b mmr_size (next + 1) (elems ++ [elem]) := by
  obtain ⟨_, hnext, hchecked⟩ := h
  rw [Counted, List.length_append, List.length_singleton]
  refine ⟨by simp, by omega, fun hb => ?_⟩
  have := hchecked hb
  omega

theorem Counted.of_add {ε : Type} {mmr_size x y next : Nat} {elems : List Item}
    (h : Counted b mmr_size (x + y) elems) (hadd : (U64.add b x y : Outcome ε Nat) = ok next) :
    Counted b mmr_size next elems ∧ next < 2 ^ 64 := by
  obtain ⟨hne, hnext, hchecked⟩ := h
  obtain ⟨rfl, hlt⟩ := Word.eq_of_add_ok hadd
  refine ⟨⟨hne, by omega, fun hb => ?_⟩, Nat.mod_lt _ (by omega)⟩
  rw [Nat.mod_eq_of_lt (hlt hb)]
  exact hchecked hb

/-- The size behind a finished push. -/
theorem Counted.size_eq {mmr_size next : Nat} {elems : List Item} (h : Counted b mmr_size next elems)
    (hlt : next < 2 ^ 64) :
    next = (mmr_size + elems.length) % 2 ^ 64 ∧ (b = .debug → mmr_size + elems.length < 2 ^ 64) := by
  obtain ⟨_, hnext, hchecked⟩ := h
  exact ⟨by omega, fun hb => by rw [← hchecked hb]; exact hlt⟩

namespace mmr

def MMR.accumulator (b : Profile) (M : Merge Item μ) (R : MMRStoreReadOps Store Item σ)
    (W : MMRStoreWriteOps Store Item σ) : Accumulator (MMR Item Store) Item Store σ μ where
  mmr_size := MMR.mmr_size
  batch := MMR.batch
  push self := self.push b M R
  commit self := self.commit W

theorem MMR.push_body_counted {peak_map : Nat} {self : MMR Item Store}
    {state next : Nat × Nat × List Item} (h : Counted b self.mmr_size (state.2.1 + 1) state.2.2)
    (hbody : (MMR.push.body b M R peak_map self state : Outcome (Error σ μ) _) = ok (.next next)) :
    Counted b self.mmr_size (next.2.1 + 1) next.2.2 := by
  obtain ⟨peak, pos, elems⟩ := state
  rw [MMR.push.body] at hbody
  split at hbody
  · simp only [bind_eq_ok_iff] at hbody
    obtain ⟨_, _, pos', hpos, _, _, _, _, _, _, parent_elem, _, hnext⟩ := hbody
    simp only [ok.injEq, Pass.next.injEq] at hnext
    subst hnext
    exact (h.of_add hpos).1.snoc parent_elem
  · cases hbody

theorem MMR.push_body_done {peak_map : Nat} {self : MMR Item Store} {state : Nat × Nat × List Item}
    {result : Nat × List Item} (h : Counted b self.mmr_size (state.2.1 + 1) state.2.2)
    (hbody : (MMR.push.body b M R peak_map self state : Outcome (Error σ μ) _) = ok (.done result)) :
    Counted b self.mmr_size (result.1 + 1) result.2 := by
  obtain ⟨peak, pos, elems⟩ := state
  rw [MMR.push.body] at hbody
  split at hbody
  · simp [bind_eq_ok_iff] at hbody
  · cases hbody
    exact h

/-- A push adds one run of elements, and the size grows by its length. -/
theorem MMR.accumulator_lawful : (MMR.accumulator b M R W).Lawful b W where
  push := by
    intro self d pos next hpush
    obtain ⟨last, elems, mmr_size, hmerged, hsize, _, rfl⟩ := push_eq_ok_iff.mp hpush
    simp only [MMR.push.merged, bind_eq_ok_iff] at hmerged
    obtain ⟨elem, _, peak_map, _, hloop⟩ := hmerged
    have hcounted := loop_invariant (fun _ _ => MMR.push_body_counted) (fun _ _ => MMR.push_body_done)
      (counted_singleton b self.mmr_size elem) hloop
    obtain ⟨hcounted', hlt⟩ := hcounted.of_add hsize
    obtain ⟨hmmr_size, hchecked⟩ := hcounted'.size_eq hlt
    exact ⟨elems, hcounted.1, rfl, hmmr_size, hchecked⟩
  push_fails hpush := (push_eq_error_iff.mp hpush).2
  commit self := ⟨fun batch => { self with batch }, fun _ => ⟨rfl, rfl⟩, rfl⟩

end mmr

namespace mmriver

def MMRIVER.accumulator (b : Profile) (M : Merge Item μ) (R : MMRStoreReadOps Store Item σ)
    (W : MMRStoreWriteOps Store Item σ) : Accumulator (MMRIVER Item Store) Item Store σ μ where
  mmr_size := MMRIVER.mmr_size
  batch := MMRIVER.batch
  push self := self.push b M R
  commit self := self.commit W

theorem MMRIVER.push_body_counted {self : MMRIVER Item Store} {state next : Nat × Nat × List Item}
    (h : Counted b self.mmr_size state.1 state.2.2 ∧ state.1 < 2 ^ 64)
    (hbody : (MMRIVER.push.body b M R self state : Outcome (Error σ μ) _) = ok (.next next)) :
    Counted b self.mmr_size next.1 next.2.2 ∧ next.1 < 2 ^ 64 := by
  obtain ⟨i, g, elems⟩ := state
  simp only [MMRIVER.push.body, bind_eq_ok_iff] at hbody
  obtain ⟨height, _, hbody⟩ := hbody
  split at hbody
  · simp only [bind_eq_ok_iff] at hbody
    obtain ⟨_, _, _, _, _, _, _, _, _, _, _, _, _, _, parent_elem, _, i', hi, _, _, hnext⟩ := hbody
    simp only [ok.injEq, Pass.next.injEq] at hnext
    subst hnext
    exact (h.1.snoc parent_elem).of_add hi
  · cases hbody

theorem MMRIVER.push_body_done {self : MMRIVER Item Store} {state : Nat × Nat × List Item}
    {result : Nat × List Item} (h : Counted b self.mmr_size state.1 state.2.2 ∧ state.1 < 2 ^ 64)
    (hbody : (MMRIVER.push.body b M R self state : Outcome (Error σ μ) _) = ok (.done result)) :
    Counted b self.mmr_size result.1 result.2 ∧ result.1 < 2 ^ 64 := by
  obtain ⟨i, g, elems⟩ := state
  simp only [MMRIVER.push.body, bind_eq_ok_iff] at hbody
  obtain ⟨height, _, hbody⟩ := hbody
  split at hbody
  · simp [bind_eq_ok_iff] at hbody
  · cases hbody
    exact h

/-- A push adds one run of elements, and the size grows by its length. -/
theorem MMRIVER.accumulator_lawful : (MMRIVER.accumulator b M R W).Lawful b W where
  push := by
    intro self d pos next hpush
    obtain ⟨last, elems, hmerged, _, rfl⟩ := push_eq_ok_iff.mp hpush
    simp only [MMRIVER.push.merged, bind_eq_ok_iff] at hmerged
    obtain ⟨elem, _, i, hi, hloop⟩ := hmerged
    obtain ⟨hcounted, hlt⟩ := loop_invariant (fun _ _ => MMRIVER.push_body_counted)
      (fun _ _ => MMRIVER.push_body_done) ((counted_singleton b self.mmr_size elem).of_add hi) hloop
    obtain ⟨hmmr_size, hchecked⟩ := hcounted.size_eq hlt
    exact ⟨elems, hcounted.1, rfl, hmmr_size, hchecked⟩
  push_fails hpush := (push_eq_error_iff.mp hpush).2
  commit self := ⟨fun batch => { self with batch }, fun _ => ⟨rfl, rfl⟩, rfl⟩

end mmriver

/-- When a commit fails at an entry after some others were written, the tree says
    so and nothing is lost exactly when the store already had the elements of
    that entry and of all later ones. -/
def Accumulator.FailedCommitKeepsIff {State : Type} (A : Accumulator State Item Store σ μ)
    (b : Profile) (S : MapStore R W) (start : State) : Prop :=
  ∀ pushed self, A.History b start (fun _ => none) pushed self →
  ∀ written pos elems rest middle failed error,
    (A.batch self).memory_batch = written ++ (pos, elems) :: rest →
    MMRBatch.commit.drain W (A.batch self).store written = ok (.ok (), middle) →
    W.append middle pos elems = ok (.error error, failed) →
    S.contents failed = S.contents middle →
    ∃ next, A.commit self = ok (.error (.StoreError (.store error)), next) ∧
      (A.Keeps b S pushed self next ↔
        overlay pos (elems ++ pendingElems rest) (S.contents (A.batch self).store) =
          S.contents (A.batch self).store)

/-- For both kinds of tree, from any size and store: a commit that fails drops the
    entry that failed and all later ones. -/
theorem failed_commit_keeps_iff (S : MapStore R W) (b : Profile) (M : Merge Item μ) (store : Store)
    {mmr_size : Nat} (hfits : mmr_size < 2 ^ 64) :
    (mmr.MMR.accumulator b M R W).FailedCommitKeepsIff b S (.new mmr_size store) ∧
      (mmriver.MMRIVER.accumulator b M R W).FailedCommitKeepsIff b S (.new mmr_size store) := by
  have hstart : Accumulator.Intact S (fun _ => none) mmr_size (.new store) :=
    ⟨hfits, MMRBatch.endsAt_new store _, by simp⟩
  constructor
  · intro pushed self history written pos elems rest middle failed error
    exact mmr.MMR.accumulator_lawful.failed_commit (history.intact mmr.MMR.accumulator_lawful hstart)
  · intro pushed self history written pos elems rest middle failed error
    exact mmriver.MMRIVER.accumulator_lawful.failed_commit
      (history.intact mmriver.MMRIVER.accumulator_lawful hstart)

/-- A store in memory whose appends fail, without a trace, as a schedule says. -/
structure FlakyStore (T : Type) where
  store : MemStore T
  failures : List Bool

namespace FlakyStore

variable {T : Type}

def readOps : MMRStoreReadOps (FlakyStore T) T Unit where
  get_elem self pos := ok (self.store.entries pos)
  get_elems self positions := ok (positions.map self.store.entries)

def writeOps (b : Profile) : MMRStoreWriteOps (FlakyStore T) T Unit where
  append self pos elems :=
    if self.failures.head? = some true then
      ok (.error (), { self with failures := self.failures.tail })
    else do
      let store ← MemStore.append.insertAll b pos self.store 0 elems
      ok (.ok (), { store, failures := self.failures.tail })

def mapStore (b : Profile) : MapStore (readOps (T := T)) (writeOps b) where
  contents self := self.store.entries
  get_elem _ _ := rfl
  get_elems _ _ := rfl
  append := by
    intro self pos elems self' happend hfit
    simp only [writeOps] at happend
    split at happend
    · cases happend
    · simp only [MemStore.insertAll_eq (show pos + 0 + elems.length ≤ 2 ^ 64 by omega), ok_bind,
        ok.injEq, Prod.mk.injEq, true_and] at happend
      rw [← happend, Nat.add_zero]

end FlakyStore

/-- The tree over symbolic hashes and a store whose appends fail. -/
abbrev flakyMmr : Accumulator (mmr.MMR (Term Empty) (FlakyStore (Term Empty))) (Term Empty)
    (FlakyStore (Term Empty)) Unit Empty :=
  mmr.MMR.accumulator .debug Term.hasher.toMerge FlakyStore.readOps (FlakyStore.writeOps .debug)

/-- A tree on a store that has the last three elements of a log of three leaves, and
    fails at the second append. -/
def halfStored (mmr_size : Nat) (memory_batch : List (Nat × List (Term Empty))) :
    mmr.MMR (Term Empty) (FlakyStore (Term Empty)) :=
  let node := .node 0 (.leaf [1]) (.leaf [2])
  let store := ((MemStore.new.insert 1 (.leaf [2])).insert 2 node).insert 3 (.leaf [3])
  { mmr_size, batch := { memory_batch, store := { store, failures := [false, true] } } }

/-- Three leaves are pushed, and their commit fails at the second entry, with the
    first one written and the third one pending. The store had the elements of both
    all along. -/
theorem failed_commit_keeps_stored :
    ∃ pushed self next elems,
      flakyMmr.History .debug (halfStored 0 []) (fun _ => none) pushed self ∧
      self = halfStored 4 [(0, [.leaf [1]]), (1, elems), (3, [.leaf [3]])] ∧
      flakyMmr.commit self = ok (.error (.StoreError (.store ())), next) ∧
      flakyMmr.Keeps .debug (FlakyStore.mapStore .debug) pushed self next := by
  have start : flakyMmr.History .debug (halfStored 0 []) (fun _ => none) _ _ := .refl
  have one := start.push (d := [1]) rfl rfl (fun hb => by cases hb)
  have two := one.push (d := [2]) rfl rfl (fun hb => by cases hb)
  have history := two.push (d := [3]) rfl rfl (fun hb => by cases hb)
  obtain ⟨next, hcommit, hkeeps⟩ :=
    (failed_commit_keeps_iff (FlakyStore.mapStore .debug) .debug (Term.hasher.toMerge : Merge _ Empty)
      _ (show 0 < 2 ^ 64 by decide)).1 _ _ history [(0, [.leaf [1]])] 1
        [.leaf [2], .node 0 (.leaf [1]) (.leaf [2])] [(3, [.leaf [3]])] _ _ _ rfl rfl rfl rfl
  refine ⟨_, _, next, _, history, rfl, hcommit, hkeeps.mpr ?_⟩
  funext p
  match p with
  | 0 | 1 | 2 | 3 => rfl
  | p + 4 => exact overlay_of_ge (Nat.le_add_left 4 p)

/-- One leaf is pushed and its commit fails: it can no longer be read, and the
    next commit succeeds with nothing written. -/
theorem failed_commit_loses_leaf :
    ∃ self next final pushed,
      flakyMmr.History .debug (.new 0 { store := MemStore.new, failures := [true] }) (fun _ => none)
        pushed self ∧
      pushed 0 = some (.leaf [1]) ∧ self.mmr_size = 1 ∧
      self.batch.get_elem .debug FlakyStore.readOps 0 = ok (some (.leaf [1])) ∧
      flakyMmr.commit self = ok (.error (.StoreError (.store ())), next) ∧
      next.batch.get_elem .debug FlakyStore.readOps 0 = ok none ∧
      flakyMmr.commit next = ok (.ok (), final) ∧ final.batch.store.store.entries 0 = none ∧
      ¬ flakyMmr.Keeps .debug (FlakyStore.mapStore .debug) pushed self next := by
  have history := (Accumulator.History.refl : flakyMmr.History .debug
    (.new 0 { store := MemStore.new, failures := [true] }) (fun _ => none) _ _).push
    (d := [1]) rfl rfl (fun hb => by cases hb)
  refine ⟨_, _, _, _, history, rfl, rfl, rfl, rfl, rfl, rfl, rfl, fun hkeeps => ?_⟩
  have hread := hkeeps.1 0 (.leaf [1]) Nat.one_pos rfl
  cases hread

end merkleberg
