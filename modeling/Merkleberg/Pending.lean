import Merkleberg.Commit
import Merkleberg.Persistence

open machine machine.Outcome
open forest

namespace merkleberg

variable {Item Store σ μ : Type} {b : Profile}
  {R : MMRStoreReadOps Store Item σ} {W : MMRStoreWriteOps Store Item σ}

/-- Consume the batch and go over its entries, oldest first. -/
def MMRBatch.into_iter (self : MMRBatch Item Store) : List (Nat × List Item) := self.memory_batch

/-- What is stored when the first `n` leaves are: their forest and nothing else. -/
def forestContents (value : Nat → Item) (n : Nat) : Nat → Option Item :=
  fun p => if p < nodeCount n then some (value p) else none

/-- One entry for each leaf from `first` up to `last`: its position, and the leaf
    with the parents it completes. -/
def leafRuns (value : Nat → Item) (first last : Nat) : List (Nat × List Item) :=
  (List.range' first (last - first)).map fun i => (nodeCount i, spine value i (trailingZeros (i + 1)))

section LeafRuns

variable {value : Nat → Item} {first last : Nat}

@[simp] theorem leafRuns_self (value : Nat → Item) (n : Nat) : leafRuns value n n = [] := by
  simp [leafRuns]

theorem leafRuns_succ (hle : first ≤ last) :
    leafRuns value first (last + 1) =
      leafRuns value first last ++ [(nodeCount last, spine value last (trailingZeros (last + 1)))] := by
  rw [leafRuns, Nat.sub_add_comm hle, List.range'_concat, List.map_append, Nat.one_mul,
    Nat.add_sub_cancel' hle]
  rfl

theorem leafRuns_of_lt (hlt : first < last) :
    leafRuns value first last =
      (nodeCount first, spine value first (trailingZeros (first + 1))) ::
        leafRuns value (first + 1) last := by
  rw [leafRuns, show last - first = last - (first + 1) + 1 by omega, List.range'_succ]
  rfl

theorem leafRuns_eq_nil_iff (hle : first ≤ last) : leafRuns value first last = [] ↔ first = last := by
  simp only [leafRuns, List.map_eq_nil_iff, List.range'_eq_nil_iff]
  omega

theorem leafRuns_congr {value' : Nat → Item} (hvalue : ∀ p < nodeCount last, value' p = value p) :
    leafRuns value' first last = leafRuns value first last := by
  refine List.map_congr_left fun i hi => ?_
  have hlt := List.mem_range'_1.mp hi
  have hstep := nodeCount_succ i
  have hinside := nodeCount_le_nodeCount_iff.mpr (show i + 1 ≤ last by omega)
  refine Prod.ext rfl (List.map_congr_left fun j hj => hvalue _ ?_)
  rw [List.mem_range] at hj
  omega

end LeafRuns

/-- Storing a leaf's entry over a forest that reaches it gives the longer of the two forests. -/
theorem overlay_forestContents (value : Nat → Item) {i n : Nat} (hle : i ≤ n) :
    overlay (nodeCount i) (spine value i (trailingZeros (i + 1))) (forestContents value n) =
      forestContents value (max n (i + 1)) := by
  have hstep := nodeCount_succ i
  have hold := nodeCount_le_nodeCount_iff.mpr hle
  have hmax : nodeCount (max n (i + 1)) = max (nodeCount n) (nodeCount (i + 1)) :=
    nodeCount_strictMono.monotone.map_max
  funext p
  by_cases hbefore : p < nodeCount i
  · rw [overlay_of_lt hbefore, forestContents, forestContents, if_pos (by omega), if_pos (by omega)]
  · by_cases hinside : p < nodeCount (i + 1)
    · rw [overlay_of_mem (by omega) (by rw [spine_length]; omega), spine_getElem? value (by omega),
        Nat.add_sub_cancel' (by omega), forestContents, if_pos (by omega)]
    · rw [overlay_of_ge (by rw [spine_length]; omega), forestContents, forestContents]
      congr 1
      exact propext ⟨fun h => by omega, fun h => by omega⟩

namespace HoldsForest

variable {S : MapStore R W} {under : Nat → Option Item} {value : Nat → Item} {n mmr_size : Nat}
  {batch : MMRBatch Item Store}

/-- Entries for the leaves behind a stored forest hold the longer forest. -/
theorem of_leafRuns {store : Store} {m : Nat} (hle : m ≤ n) (hfits : nodeCount n < 2 ^ 64)
    (hstored : ∀ p < nodeCount m, S.contents store p = some (value p)) :
    HoldsForest S (S.contents store) value n (nodeCount n)
      { memory_batch := leafRuns value m n, store } := by
  induction n, hle using Nat.le_induction with
  | base =>
    rw [leafRuns_self]
    refine ⟨rfl, hfits, MMRBatch.endsAt_new store _, fun p => ?_⟩
    rw [show ({ memory_batch := [], store } : MMRBatch Item Store) = .new store from rfl,
      MMRBatch.view_new]
    split
    · rename_i hp
      exact hstored p hp
    · rfl
  | succ n hle ih =>
    have hstep := nodeCount_succ n
    have hbefore := ih (by omega)
    rw [leafRuns_succ hle]
    exact hbefore.push hfits

/-- An entry that holds one more leaf is the spine of that leaf. -/
theorem append_eq_spine {elems : List Item} {mmr_size' : Nat}
    (h : HoldsForest S under value n mmr_size batch) (hne : elems ≠ [])
    (hnext : HoldsForest S under value (n + 1) mmr_size' (batch.append (nodeCount n) elems)) :
    elems = spine value n (trailingZeros (n + 1)) := by
  have hstep := nodeCount_succ n
  obtain ⟨bottom, hcontiguous⟩ := hnext.tail
  obtain ⟨_, _, hlength⟩ := contiguous_snoc_iff.mp hcontiguous
  have hcount : elems.length = trailingZeros (n + 1) + 1 := by omega
  refine List.ext_getElem? fun i => ?_
  by_cases hi : i ≤ trailingZeros (n + 1)
  · have hshown := hnext.shown (nodeCount n + i)
    rw [MMRBatch.view_append h.tail hne, overlay_of_mem (by omega) (by omega),
      Nat.add_sub_cancel_left, if_pos (by omega)] at hshown
    rw [hshown, spine_getElem? value hi]
  · rw [List.getElem?_eq_none (by omega), List.getElem?_eq_none (by rw [spine_length]; omega)]

end HoldsForest

section Attempt

variable {M : Merge Item μ} {S : MapStore R W} {under : Nat → Option Item} {H : Hasher Item}
  {data : List Bytes} {d : Bytes} {pos : Nat}

/-- A push that succeeds adds the entry of the new leaf to the batch. -/
theorem mmr.MMR.Holds.of_attempt {self next : mmr.MMR Item Store} (hM : M.Within H.toMerge)
    (h : self.Holds S under H data) (hfit : b = .release → data.length < 2 ^ 63)
    (hattempt : mmr.MMR.Attempt b M R self d (.ok pos) next) :
    pos = nodeCount data.length ∧ next.Holds S under H (data ++ [d]) ∧
      next.batch = self.batch.append (nodeCount data.length)
        (spine (mmr.elemAt H (data ++ [d])) data.length (trailingZeros (data.length + 1))) := by
  obtain ⟨M', R', hM', hR', hpush⟩ := hattempt
  obtain ⟨hpos, hnext⟩ := h.of_push hfit (mmr.MMR.push_within (hM'.trans hM) hR' hpush)
  obtain ⟨elems, hne, hbatch, _, _⟩ :=
    (mmr.MMR.accumulator_lawful (W := W) (R := R') (M := M') (b := b)).push hpush
  have hlonger := hnext
  simp only [mmr.MMR.accumulator] at hbatch
  rw [mmr.MMR.Holds, List.length_append, List.length_singleton, hbatch, h.size] at hlonger
  refine ⟨hpos, hnext, ?_⟩
  rw [hbatch, h.size, HoldsForest.append_eq_spine (h.congr fun p hp => mmr.elemAt_append [d] hp) hne hlonger]

/-- A push that succeeds adds the entry of the new leaf to the batch. -/
theorem mmriver.MMRIVER.Holds.of_attempt {self next : mmriver.MMRIVER Item Store}
    (hM : M.Within H.toMerge) (h : self.Holds b S under H data)
    (hfit : b = .release → data.length + 1 < 2 ^ 63)
    (hattempt : mmriver.MMRIVER.Attempt b M R self d (.ok pos) next) :
    pos = nodeCount data.length ∧ next.Holds b S under H (data ++ [d]) ∧
      next.batch = self.batch.append (nodeCount data.length)
        (spine (mmriver.elemAt H (data ++ [d])) data.length (trailingZeros (data.length + 1))) := by
  obtain ⟨M', R', hM', hR', hpush⟩ := hattempt
  obtain ⟨hpos, hnext⟩ := h.of_push hfit (mmriver.MMRIVER.push_within (hM'.trans hM) hR' hpush)
  obtain ⟨elems, hne, hbatch, _, _⟩ :=
    (mmriver.MMRIVER.accumulator_lawful (W := W) (R := R') (M := M') (b := b)).push hpush
  have hlonger := hnext.forest
  simp only [mmriver.MMRIVER.accumulator] at hbatch
  rw [List.length_append, List.length_singleton, hbatch, h.forest.size] at hlonger
  refine ⟨hpos, hnext, ?_⟩
  rw [hbatch, h.forest.size,
    HoldsForest.append_eq_spine (h.forest.congr fun p hp => mmriver.elemAt_append [d] hp) hne hlonger]

end Attempt

/-- A batch over `n` leaves whose store ends with the last commit: the store has
    the leaves before `m`, and the batch lists the others in order. -/
def Pending (S : MapStore R W) (value : Nat → Item) (n : Nat) (batch : MMRBatch Item Store) : Prop :=
  ∃ m ≤ n, batch.into_iter = leafRuns value m n ∧ S.contents batch.store = forestContents value m

section Pending

variable {S : MapStore R W} {value : Nat → Item} {n mmr_size : Nat} {batch : MMRBatch Item Store}

theorem Pending.new {store : Store} (hempty : ∀ p, S.contents store p = none) (value : Nat → Item) :
    Pending S value 0 (.new store) := by
  refine ⟨0, Nat.le_refl 0, (leafRuns_self value 0).symm, funext fun p => ?_⟩
  rw [forestContents, nodeCount_zero, if_neg (Nat.not_lt_zero p)]
  exact hempty p

theorem Pending.congr {value' : Nat → Item} (h : Pending S value n batch)
    (hvalue : ∀ p < nodeCount n, value' p = value p) : Pending S value' n batch := by
  obtain ⟨m, hle, hbatch, hstore⟩ := h
  refine ⟨m, hle, by rw [hbatch, leafRuns_congr hvalue], hstore.trans (funext fun p => ?_)⟩
  have hinside := nodeCount_le_nodeCount_iff.mpr hle
  rw [forestContents, forestContents]
  split
  · rw [hvalue p (by omega)]
  · rfl

theorem Pending.append (h : Pending S value n batch) :
    Pending S value (n + 1)
      (batch.append (nodeCount n) (spine value n (trailingZeros (n + 1)))) := by
  obtain ⟨m, hle, hbatch, hstore⟩ := h
  refine ⟨m, hle.trans (Nat.le_succ n), ?_, hstore⟩
  rw [leafRuns_succ hle, ← hbatch]
  rfl

/-- After a commit the store has every leaf. -/
theorem HoldsForest.pending_of_committed
    (h : HoldsForest S (fun _ => none) value n mmr_size batch) (hcommitted : batch.memory_batch = []) :
    Pending S value n batch := by
  refine ⟨n, Nat.le_refl n, by rw [leafRuns_self]; exact hcommitted, funext fun p => ?_⟩
  have hshown := h.shown p
  rwa [MMRBatch.view, hcommitted, pendingElems_nil, overlay_nil] at hshown

end Pending

/-- A session keeps the batch up to date when each push adds the entry of its
    leaf and each settling step stores them all. -/
theorem Session.pending {State ε : Type} {attempt : State → Bytes → Except ε Nat → State → Prop}
    {settle : State → State → Prop} {batch : State → MMRBatch Item Store} {mmr_size : State → Nat}
    {S : MapStore R W} {value : List Bytes → Nat → Item} {Inv : List Bytes → State → Prop}
    (Fits : Nat → Prop) (hfits : ∀ n, Fits (n + 1) → Fits n)
    (hforest : ∀ {data self}, Inv data self →
      HoldsForest S (fun _ => none) (value data) data.length (mmr_size self) (batch self))
    (hvalue : ∀ {data d p}, p < nodeCount data.length → value (data ++ [d]) p = value data p)
    (hpush : ∀ {data self d pos next}, Inv data self → Fits (data.length + 1) →
      attempt self d (.ok pos) next → pos = nodeCount data.length ∧ Inv (data ++ [d]) next ∧
        batch next = (batch self).append (nodeCount data.length)
          (spine (value (data ++ [d])) data.length (trailingZeros (data.length + 1))))
    (hfailed : ∀ {self d error next}, attempt self d (.error error) next → next = self)
    (hsettle : ∀ {data self next}, Inv data self → settle self next →
      Inv data next ∧ (batch next).memory_batch = [])
    {start final : State} (hstart : Inv [] start) (hpending : Pending S (value []) 0 (batch start))
    {data : List Bytes} {positions : List Nat}
    (session : Session attempt settle start data positions final) (hfit : Fits data.length) :
    Pending S (value data) data.length (batch final) := by
  let Kept (data : List Bytes) (self : State) : Prop :=
    Inv data self ∧ Pending S (value data) data.length (batch self)
  have hkept : Kept [] start := ⟨hstart, hpending⟩
  have hpush' : ∀ {data self d pos next}, Kept data self → Fits (data.length + 1) →
      attempt self d (.ok pos) next → pos = nodeCount data.length ∧ Kept (data ++ [d]) next := by
    rintro data self d pos next ⟨hself, hpending⟩ hfit hattempt
    obtain ⟨hpos, hnext, hbatch⟩ := hpush hself hfit hattempt
    refine ⟨hpos, hnext, ?_⟩
    rw [hbatch, List.length_append, List.length_singleton]
    exact (hpending.congr fun p hp => hvalue hp).append
  have hsettle' : ∀ {data self next}, Kept data self → settle self next → Kept data next := by
    rintro data self next ⟨hself, _⟩ hstep
    obtain ⟨hnext, hcommitted⟩ := hsettle hself hstep
    exact ⟨hnext, (hforest hnext).pending_of_committed hcommitted⟩
  have hfit' : Fits (([] : List Bytes).length + data.length) := by
    rwa [List.length_nil, Nat.zero_add]
  exact (Session.extends Fits hfits @hpush' hfailed @hsettle' hkept session hfit').1.2

/-- The batch lists the leaves that are not committed, one entry for each of them in
    order, and the store has exactly the other leaves. -/
def Accumulator.ListsUncommitted {State : Type} (A : Accumulator State Item Store σ μ) (S : MapStore R W)
    (value : Nat → Item) (n : Nat) (self : State) : Prop :=
  ∃ m ≤ n, (A.batch self).into_iter = leafRuns value m n ∧
    S.contents (A.batch self).store = forestContents value m

/-- Between any two calls the batch of a tree of either kind lists the leaves that
    are not committed, one entry for each of them in order, and the store has
    exactly the other leaves. -/
theorem batch_lists_uncommitted {M : Merge Item μ} (S : MapStore R W) {H : Hasher Item}
    (hM : M.Within H.toMerge) {store : Store} (hempty : ∀ p, S.contents store p = none)
    {data : List Bytes} {positions : List Nat} (hfit : b = .release → data.length < 2 ^ 63) :
    (∀ final, mmr.MMR.Session b M R W (.new 0 store) data positions final →
      (mmr.MMR.accumulator b M R W).ListsUncommitted S (mmr.elemAt H data) data.length final) ∧
    ∀ final, mmriver.MMRIVER.Session b M R W (.new 0 store) data positions final →
      (mmriver.MMRIVER.accumulator b M R W).ListsUncommitted S (mmriver.elemAt H data) data.length
        final := by
  have hunder : S.contents store = fun _ => none := funext hempty
  refine ⟨fun final session => ?_, fun final session => ?_⟩
  · let Inv (data : List Bytes) (self : mmr.MMR Item Store) : Prop := self.Holds S (fun _ => none) H data
    have hstart : Inv [] (.new 0 store) := by
      have hnew := mmr.MMR.Holds.new S H store
      rwa [hunder] at hnew
    have hsettle : ∀ {data self next}, Inv data self → mmr.MMR.Settle σ μ W self next →
        Inv data next ∧ next.batch.memory_batch = [] := by
      intro data self next hself hsettle
      refine ⟨hself.settle hsettle, ?_⟩
      obtain ⟨committed, hcommit, rfl | rfl⟩ := hsettle
      · exact (MMRBatch.commit_eq_ok_iff.mp (mmr.MMR.commit_ok hcommit).1).2
      · rfl
    have hpush : ∀ {data self d pos next}, Inv data self →
        (b = .release → data.length + 1 < 2 ^ 63) → mmr.MMR.Attempt b M R self d (.ok pos) next →
        pos = nodeCount data.length ∧ Inv (data ++ [d]) next ∧
          next.batch = self.batch.append (nodeCount data.length)
            (spine (mmr.elemAt H (data ++ [d])) data.length (trailingZeros (data.length + 1))) :=
      fun hself hn hattempt =>
        hself.of_attempt hM (fun hb => (Nat.lt_succ_self _).trans (hn hb)) hattempt
    exact Session.pending (fun n => b = .release → n < 2 ^ 63)
      (fun n hn hb => (Nat.lt_succ_self n).trans (hn hb)) (fun hself => hself)
      (fun hp => mmr.elemAt_append _ hp) @hpush mmr.MMR.Attempt.unchanged @hsettle hstart
      (.new hempty _) session hfit
  · let Inv (data : List Bytes) (self : mmriver.MMRIVER Item Store) : Prop :=
      self.Holds b S (fun _ => none) H data
    have hstart : Inv [] (.new 0 store) := by
      have hnew := mmriver.MMRIVER.Holds.new (b := b) S H store
      rwa [hunder] at hnew
    have hforest : ∀ {data self}, Inv data self → HoldsForest S (fun _ => none) (mmriver.elemAt H data)
        data.length self.mmr_size self.batch := fun hself => hself.forest
    have hsettle : ∀ {data self next}, Inv data self → mmriver.MMRIVER.Settle σ μ W self next →
        Inv data next ∧ next.batch.memory_batch = [] := by
      intro data self next hself hsettle
      refine ⟨hself.settle hsettle, ?_⟩
      obtain ⟨committed, hcommit, rfl | rfl⟩ := hsettle
      · exact (MMRBatch.commit_eq_ok_iff.mp (mmriver.MMRIVER.commit_ok hcommit).1).2
      · rfl
    have hpush : ∀ {data self d pos next}, Inv data self →
        (b = .release → data.length + 1 < 2 ^ 63) →
        mmriver.MMRIVER.Attempt b M R self d (.ok pos) next →
        pos = nodeCount data.length ∧ Inv (data ++ [d]) next ∧
          next.batch = self.batch.append (nodeCount data.length)
            (spine (mmriver.elemAt H (data ++ [d])) data.length (trailingZeros (data.length + 1))) :=
      fun hself hn hattempt => hself.of_attempt hM hn hattempt
    exact Session.pending (fun n => b = .release → n < 2 ^ 63)
      (fun n hn hb => (Nat.lt_succ_self n).trans (hn hb)) @hforest
      (fun hp => mmriver.elemAt_append _ hp) @hpush mmriver.MMRIVER.Attempt.unchanged @hsettle hstart
      (.new hempty _) session hfit

/-- A tree that committed its first leaf and then pushed another one. -/
theorem batch_lists_uncommitted_two :
    ∃ final, mmr.MMR.SymbolicSession (.new 0 MemStore.new) [[1], [2]] [0, 1] final ∧
      ∃ m ≤ 2, final.batch.into_iter = leafRuns (mmr.elemAt Term.hasher [[1], [2]]) m 2 ∧
        final.batch.store.entries = forestContents (mmr.elemAt Term.hasher [[1], [2]]) m := by
  have start : mmr.MMR.SymbolicSession (.new 0 MemStore.new) [] [] _ := .refl
  have session := ((start.push (d := [1]) ⟨_, _, .refl _, .refl _, rfl⟩).settle
    ⟨_, rfl, Or.inl rfl⟩).push (d := [2]) ⟨_, _, .refl _, .refl _, rfl⟩
  exact ⟨_, session, (batch_lists_uncommitted (b := .debug) (MemStore.mapStore .debug)
    (.refl (Term.hasher.toMerge : Merge (Term Empty) Unit)) (fun _ => rfl) (fun hb => by cases hb)).1 _
      session⟩

end merkleberg
