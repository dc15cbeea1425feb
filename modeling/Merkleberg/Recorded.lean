import Merkleberg.Pending

open machine machine.Outcome
open forest

namespace merkleberg

/-- A store beside the calls of `append` that it was given, oldest first. -/
structure Recorded (Store Elem : Type) where
  store : Store
  calls : List (Nat × List Elem)

variable {Item Store σ μ : Type} {b : Profile}
  {R : MMRStoreReadOps Store Item σ} {W : MMRStoreWriteOps Store Item σ}

def MMRStoreReadOps.recorded (R : MMRStoreReadOps Store Item σ) :
    MMRStoreReadOps (Recorded Store Item) Item σ where
  get_elem self pos := R.get_elem self.store pos
  get_elems self positions := R.get_elems self.store positions

def MMRStoreWriteOps.recorded (W : MMRStoreWriteOps Store Item σ) :
    MMRStoreWriteOps (Recorded Store Item) Item σ where
  append self pos elems := do
    let (result, store) ← W.append self.store pos elems
    ok (result, { store, calls := self.calls ++ [(pos, elems)] })

/-- What a recorded call has done to the store, and to the calls beside it. -/
theorem MMRStoreWriteOps.recorded_append_iff {self next : Recorded Store Item} {pos : Nat}
    {elems : List Item} {result : Except σ Unit} :
    W.recorded.append self pos elems = ok (result, next) ↔
      W.append self.store pos elems = ok (result, next.store) ∧
        next.calls = self.calls ++ [(pos, elems)] := by
  simp only [recorded, bind_eq_ok_iff, ok.injEq]
  obtain ⟨store, calls⟩ := next
  constructor
  · rintro ⟨⟨_, _⟩, happend, heq⟩
    cases heq
    exact ⟨happend, rfl⟩
  · rintro ⟨happend, rfl⟩
    exact ⟨_, happend, rfl⟩

/-- Recording does not touch what the store does. -/
def MapStore.recorded (S : MapStore R W) : MapStore R.recorded W.recorded where
  contents self := S.contents self.store
  get_elem self := S.get_elem self.store
  get_elems self := S.get_elems self.store
  append happend hfit := S.append (MMRStoreWriteOps.recorded_append_iff.mp happend).1 hfit

/-- A commit that succeeds has made one call for each entry of the batch. -/
theorem MMRBatch.drain_recorded {entries : List (Nat × List Item)} {self next : Recorded Store Item}
    (hdrain : commit.drain W.recorded self entries = ok (.ok (), next)) :
    next.calls = self.calls ++ entries := by
  induction entries generalizing self with
  | nil =>
    cases hdrain
    exact (List.append_nil _).symm
  | cons entry rest ih =>
    obtain ⟨pos, elems⟩ := entry
    obtain ⟨⟨result, middle⟩, happend, hrest⟩ := bind_eq_ok_iff.mp hdrain
    cases result with
    | error error => cases hrest
    | ok _ =>
      rw [ih hrest, (MMRStoreWriteOps.recorded_append_iff.mp happend).2, List.append_assoc,
        List.singleton_append]

/-- The calls that the store was given and those that the batch still holds back. -/
def MMRBatch.allCalls (self : MMRBatch Item (Recorded Store Item)) : List (Nat × List Item) :=
  self.store.calls ++ self.into_iter

theorem MMRBatch.allCalls_append (self : MMRBatch Item (Recorded Store Item)) (pos : Nat)
    (elems : List Item) : (self.append pos elems).allCalls = self.allCalls ++ [(pos, elems)] :=
  (List.append_assoc ..).symm

/-- A commit hands the calls on, whether its store is opened again or not. -/
theorem MMRBatch.allCalls_commit {self next : MMRBatch Item (Recorded Store Item)}
    (hcommit : self.commit W.recorded = ok (.ok (), next)) :
    next.allCalls = self.allCalls ∧ (MMRBatch.new next.store).allCalls = self.allCalls := by
  obtain ⟨hdrain, hempty⟩ := MMRBatch.commit_eq_ok_iff.mp hcommit
  have hcalls : next.store.calls = self.allCalls := drain_recorded hdrain
  constructor
  · rw [allCalls, into_iter, hempty, List.append_nil, hcalls]
  · exact (List.append_nil _).trans hcalls

/-- In a session whose pushes add the entries of their leaves, and whose settling
    steps keep the calls, all the calls are the leaves' entries in order. -/
theorem Session.allCalls {State ε : Type} {attempt : State → Bytes → Except ε Nat → State → Prop}
    {settle : State → State → Prop} {batch : State → MMRBatch Item (Recorded Store Item)}
    {value : List Bytes → Nat → Item} {Inv : List Bytes → State → Prop} (Fits : Nat → Prop)
    (hfits : ∀ n, Fits (n + 1) → Fits n)
    (hvalue : ∀ {data d p}, p < nodeCount data.length → value (data ++ [d]) p = value data p)
    (hpush : ∀ {data self d pos next}, Inv data self → Fits (data.length + 1) →
      attempt self d (.ok pos) next → pos = nodeCount data.length ∧ Inv (data ++ [d]) next ∧
        batch next = (batch self).append (nodeCount data.length)
          (spine (value (data ++ [d])) data.length (trailingZeros (data.length + 1))))
    (hfailed : ∀ {self d error next}, attempt self d (.error error) next → next = self)
    (hsettle : ∀ {data self next}, Inv data self → settle self next →
      Inv data next ∧ (batch next).allCalls = (batch self).allCalls)
    {start final : State} (hstart : Inv [] start) (hnone : (batch start).allCalls = [])
    {data : List Bytes} {positions : List Nat}
    (session : Session attempt settle start data positions final) (hfit : Fits data.length) :
    (batch final).allCalls = leafRuns (value data) 0 data.length := by
  let Kept (data : List Bytes) (self : State) : Prop :=
    Inv data self ∧ (batch self).allCalls = leafRuns (value data) 0 data.length
  have hpush' : ∀ {data self d pos next}, Kept data self → Fits (data.length + 1) →
      attempt self d (.ok pos) next → pos = nodeCount data.length ∧ Kept (data ++ [d]) next := by
    rintro data self d pos next ⟨hself, hcalls⟩ hfit hattempt
    obtain ⟨hpos, hnext, hbatch⟩ := hpush hself hfit hattempt
    refine ⟨hpos, hnext, ?_⟩
    rw [hbatch, MMRBatch.allCalls_append, hcalls, List.length_append, List.length_singleton,
      leafRuns_succ (Nat.zero_le _), leafRuns_congr fun p hp => hvalue hp]
  have hsettle' : ∀ {data self next}, Kept data self → settle self next → Kept data next := by
    rintro data self next ⟨hself, hcalls⟩ hstep
    obtain ⟨hnext, hkept⟩ := hsettle hself hstep
    exact ⟨hnext, hkept.trans hcalls⟩
  have hfit' : Fits (([] : List Bytes).length + data.length) := by
    rwa [List.length_nil, Nat.zero_add]
  exact (Session.extends Fits hfits @hpush' hfailed @hsettle' ⟨hstart, hnone⟩ session hfit').1.2

/-- The calls of `append` that the store was given, followed by those that the batch
    still holds back, are one for each leaf in order: to the leaf's position, with the
    leaf and the parents that it completed. -/
def Accumulator.AppendsInOrder {State : Type} (A : Accumulator State Item (Recorded Store Item) σ μ)
    (value : Nat → Item) (n : Nat) (self : State) : Prop :=
  (A.batch self).store.calls ++ (A.batch self).into_iter = leafRuns value 0 n

/-- A store is written to strictly in order, and each leaf once. This is so for trees
    of both kinds, whatever commits that succeeded, reopenings and failed pushes there
    were. -/
theorem appends_in_order {M : Merge Item μ} (S : MapStore R W) {H : Hasher Item}
    (hM : M.Within H.toMerge) (store : Store) {data : List Bytes} {positions : List Nat}
    (hfit : b = .release → data.length < 2 ^ 63) :
    (∀ final, mmr.MMR.Session b M R.recorded W.recorded (.new 0 ⟨store, []⟩) data positions final →
      (mmr.MMR.accumulator b M R.recorded W.recorded).AppendsInOrder (mmr.elemAt H data) data.length
        final) ∧
    ∀ final,
      mmriver.MMRIVER.Session b M R.recorded W.recorded (.new 0 ⟨store, []⟩) data positions final →
      (mmriver.MMRIVER.accumulator b M R.recorded W.recorded).AppendsInOrder (mmriver.elemAt H data)
        data.length final := by
  refine ⟨fun final session => ?_, fun final session => ?_⟩
  · let Inv (data : List Bytes) (self : mmr.MMR Item (Recorded Store Item)) : Prop :=
      self.Holds S.recorded (S.contents store) H data
    have hstart : Inv [] (.new 0 ⟨store, []⟩) := mmr.MMR.Holds.new S.recorded H ⟨store, []⟩
    have hsettle : ∀ {data self next}, Inv data self → mmr.MMR.Settle σ μ W.recorded self next →
        Inv data next ∧ next.batch.allCalls = self.batch.allCalls := by
      intro data self next hself hsettle
      refine ⟨hself.settle hsettle, ?_⟩
      obtain ⟨committed, hcommit, rfl | rfl⟩ := hsettle
      · exact (MMRBatch.allCalls_commit (mmr.MMR.commit_ok hcommit).1).1
      · exact (MMRBatch.allCalls_commit (mmr.MMR.commit_ok hcommit).1).2
    have hpush : ∀ {data self d pos next}, Inv data self →
        (b = .release → data.length + 1 < 2 ^ 63) →
        mmr.MMR.Attempt b M R.recorded self d (.ok pos) next →
        pos = nodeCount data.length ∧ Inv (data ++ [d]) next ∧
          next.batch = self.batch.append (nodeCount data.length)
            (spine (mmr.elemAt H (data ++ [d])) data.length (trailingZeros (data.length + 1))) :=
      fun hself hn hattempt =>
        hself.of_attempt hM (fun hb => (Nat.lt_succ_self _).trans (hn hb)) hattempt
    exact Session.allCalls (fun n => b = .release → n < 2 ^ 63)
      (fun n hn hb => (Nat.lt_succ_self n).trans (hn hb)) (fun hp => mmr.elemAt_append _ hp) @hpush
      mmr.MMR.Attempt.unchanged @hsettle hstart rfl session hfit
  · let Inv (data : List Bytes) (self : mmriver.MMRIVER Item (Recorded Store Item)) : Prop :=
      self.Holds b S.recorded (S.contents store) H data
    have hstart : Inv [] (.new 0 ⟨store, []⟩) := mmriver.MMRIVER.Holds.new S.recorded H ⟨store, []⟩
    have hsettle : ∀ {data self next}, Inv data self →
        mmriver.MMRIVER.Settle σ μ W.recorded self next →
        Inv data next ∧ next.batch.allCalls = self.batch.allCalls := by
      intro data self next hself hsettle
      refine ⟨hself.settle hsettle, ?_⟩
      obtain ⟨committed, hcommit, rfl | rfl⟩ := hsettle
      · exact (MMRBatch.allCalls_commit (mmriver.MMRIVER.commit_ok hcommit).1).1
      · exact (MMRBatch.allCalls_commit (mmriver.MMRIVER.commit_ok hcommit).1).2
    have hpush : ∀ {data self d pos next}, Inv data self →
        (b = .release → data.length + 1 < 2 ^ 63) →
        mmriver.MMRIVER.Attempt b M R.recorded self d (.ok pos) next →
        pos = nodeCount data.length ∧ Inv (data ++ [d]) next ∧
          next.batch = self.batch.append (nodeCount data.length)
            (spine (mmriver.elemAt H (data ++ [d])) data.length (trailingZeros (data.length + 1))) :=
      fun hself hn hattempt => hself.of_attempt hM hn hattempt
    exact Session.allCalls (fun n => b = .release → n < 2 ^ 63)
      (fun n hn hb => (Nat.lt_succ_self n).trans (hn hb)) (fun hp => mmriver.elemAt_append _ hp) @hpush
      mmriver.MMRIVER.Attempt.unchanged @hsettle hstart rfl session hfit

/-- A tree in memory that committed its first leaf and then pushed another one. -/
theorem appends_in_order_two :
    ∃ final, mmr.MMR.Session .debug (Term.hasher.toMerge : Merge (Term Empty) Unit)
        (MemStore.readOps : MMRStoreReadOps _ _ Empty).recorded
        (MemStore.writeOps .debug).recorded (.new 0 ⟨MemStore.new, []⟩) [[1], [2]] [0, 1] final ∧
      final.batch.store.calls = [(0, [.leaf [1]])] ∧
      final.batch.store.calls ++ final.batch.into_iter =
        leafRuns (mmr.elemAt Term.hasher [[1], [2]]) 0 2 := by
  have start : mmr.MMR.Session .debug (Term.hasher.toMerge : Merge (Term Empty) Unit)
      (MemStore.readOps : MMRStoreReadOps _ _ Empty).recorded (MemStore.writeOps .debug).recorded
      (.new 0 ⟨MemStore.new, []⟩) [] [] _ := .refl
  have session : mmr.MMR.Session .debug (Term.hasher.toMerge : Merge (Term Empty) Unit)
      (MemStore.readOps : MMRStoreReadOps _ _ Empty).recorded (MemStore.writeOps .debug).recorded
      (.new 0 ⟨MemStore.new, []⟩) [[1], [2]] [0, 1] _ :=
    ((start.push (d := [1]) ⟨_, _, .refl _, .refl _, rfl⟩).settle ⟨_, rfl, Or.inl rfl⟩).push
      (d := [2]) ⟨_, _, .refl _, .refl _, rfl⟩
  have happended := (appends_in_order (b := .debug) (MemStore.mapStore .debug)
    (.refl (Term.hasher.toMerge : Merge (Term Empty) Unit)) MemStore.new (fun hb => by cases hb)).1
      _ session
  exact ⟨_, session, rfl, happended⟩

end merkleberg
