import Merkleberg.Clones

open machine machine.Outcome
open forest
open merkleberg.helper

namespace merkleberg

variable {Item Store Store' σ μ : Type} {b : Profile}
  {R : MMRStoreReadOps Store Item σ} {W : MMRStoreWriteOps Store Item σ}
  {R' : MMRStoreReadOps Store' Item σ} {W' : MMRStoreWriteOps Store' Item σ}

/-- Writes that may fail, and that may leave anything from their position on: a run
    torn in the middle, garbage, nothing at all. What lies before is not touched. -/
def MapStore.Tearing (S : MapStore R W) (F : MMRStoreWriteOps Store Item σ) : Prop :=
  ∀ {store pos elems result store'}, F.append store pos elems = ok (result, store') →
    ∀ p < pos, S.contents store' p = S.contents store p

/-- A commit that was interrupted leaves what lies before its entries. -/
theorem MapStore.Tearing.drain {S : MapStore R W} {F : MMRStoreWriteOps Store Item σ}
    (htearing : S.Tearing F) {bottom : Nat} {entries : List (Nat × List Item)}
    (habove : ∀ entry ∈ entries, bottom ≤ entry.1) {store store' : Store} {result : Except σ Unit}
    (hdrain : MMRBatch.commit.drain F store entries = ok (result, store')) :
    ∀ p < bottom, S.contents store' p = S.contents store p := by
  induction entries generalizing store with
  | nil =>
    cases hdrain
    exact fun _ _ => rfl
  | cons entry rest ih =>
    obtain ⟨pos, elems⟩ := entry
    obtain ⟨hpos, hrest⟩ := List.forall_mem_cons.mp habove
    rw [MMRBatch.commit.drain, bind_eq_ok_iff] at hdrain
    obtain ⟨⟨written, middle⟩, happend, hdrain⟩ := hdrain
    intro p hp
    have hmiddle := htearing happend p (hp.trans_le hpos)
    cases written with
    | error error =>
      cases hdrain
      exact hmiddle
    | ok => rw [ih hrest hdrain p hp, hmiddle]

/-- What the store may have when the process stops, with a commit under way or not. -/
def MMRBatch.Leaves (S : MapStore R W) (self : MMRBatch Item Store) (left : Store) : Prop :=
  left = self.store ∨ ∃ F result stopped, S.Tearing F ∧ self.commit F = ok (result, stopped) ∧
    left = stopped.store

/-- The life of a store under trees of one kind: the log of the tree that is open,
    how many of its leaves the last commit had stored, and that tree. The process may
    stop at any time, with a commit under way or not, and a new one opens a tree at
    any size up to what that commit had stored. So the log may lose its end, and go on
    with other data over what is left of it in the store. -/
inductive Lifetime {State ε : Type} (Fits : Nat → Prop)
    (attempt : State → Bytes → Except ε Nat → State → Prop) (commits : State → State → Prop)
    (leaves : State → Store → Prop) (new : Nat → Store → State) (store : Store) :
    List Bytes → Nat → State → Prop where
  | new : Lifetime Fits attempt commits leaves new store [] 0 (new 0 store)
  | push {log : List Bytes} {kept : Nat} {self next : State} {d : Bytes} {pos : Nat}
      (life : Lifetime Fits attempt commits leaves new store log kept self) (hfit : Fits (log.length + 1))
      (hpush : attempt self d (.ok pos) next) :
      Lifetime Fits attempt commits leaves new store (log ++ [d]) kept next
  | failed {log : List Bytes} {kept : Nat} {self next : State} {d : Bytes} {error : ε}
      (life : Lifetime Fits attempt commits leaves new store log kept self)
      (hpush : attempt self d (.error error) next) :
      Lifetime Fits attempt commits leaves new store log kept next
  | commit {log : List Bytes} {kept : Nat} {self next : State}
      (life : Lifetime Fits attempt commits leaves new store log kept self) (hcommit : commits self next) :
      Lifetime Fits attempt commits leaves new store log log.length next
  | recover {log : List Bytes} {kept m : Nat} {self : State} {left : Store}
      (life : Lifetime Fits attempt commits leaves new store log kept self) (hleft : leaves self left)
      (hm : m ≤ kept) :
      Lifetime Fits attempt commits leaves new store (log.take m) m (new (nodeCount m) left)

/-- A tree over `n` leaves of which the first `kept` are stored, whatever else the
    store has, and the others are the entries of the batch. -/
structure Durable (S : MapStore R W) (value : Nat → Item) (kept n mmr_size : Nat)
    (batch : MMRBatch Item Store) : Prop where
  le : kept ≤ n
  size : mmr_size = nodeCount n
  fits : nodeCount n < 2 ^ 64
  listed : batch.into_iter = leafRuns value kept n
  stored : ∀ p < nodeCount kept, S.contents batch.store p = some (value p)

namespace Durable

variable {S : MapStore R W} {value value' : Nat → Item} {kept n mmr_size : Nat}
  {batch : MMRBatch Item Store}

theorem new (S : MapStore R W) (store : Store) (value : Nat → Item) :
    Durable S value 0 0 0 (.new store) where
  le := Nat.le_refl 0
  size := rfl
  fits := by decide
  listed := (leafRuns_self value 0).symm
  stored p hp := absurd hp (Nat.not_lt_zero p)

/-- What such a tree shows is its forest. -/
theorem holds (h : Durable S value kept n mmr_size batch) :
    HoldsForest S (S.contents batch.store) value n mmr_size batch := by
  have hforest := HoldsForest.of_leafRuns h.le h.fits h.stored
  rw [← h.listed] at hforest
  rw [h.size]
  exact hforest

theorem congr (h : Durable S value kept n mmr_size batch)
    (hvalue : ∀ p < nodeCount n, value' p = value p) : Durable S value' kept n mmr_size batch where
  le := h.le
  size := h.size
  fits := h.fits
  listed := by rw [h.listed, leafRuns_congr hvalue]
  stored p hp := by
    have hinside := nodeCount_le_nodeCount_iff.mpr h.le
    rw [h.stored p hp, hvalue p (by omega)]

theorem append (h : Durable S value kept n mmr_size batch) (hfits : nodeCount (n + 1) < 2 ^ 64) :
    Durable S value kept (n + 1) (nodeCount (n + 1))
      (batch.append (nodeCount n) (spine value n (trailingZeros (n + 1)))) where
  le := h.le.trans (Nat.le_succ n)
  size := rfl
  fits := hfits
  listed := by
    rw [leafRuns_succ h.le, ← h.listed]
    rfl
  stored := h.stored

/-- After a commit every leaf is stored. -/
theorem commit (h : Durable S value kept n mmr_size batch) {batch' : MMRBatch Item Store}
    (hcommit : batch.commit W = ok (.ok (), batch')) : Durable S value n n mmr_size batch' := by
  have hempty := (MMRBatch.commit_eq_ok_iff.mp hcommit).2
  refine ⟨Nat.le_refl n, h.size, h.fits, by rw [leafRuns_self]; exact hempty, fun p hp => ?_⟩
  have hshown := (h.holds.commit hcommit).shown p
  rwa [MMRBatch.view, hempty, pendingElems_nil, overlay_nil, if_pos hp] at hshown

/-- Wherever the process stops, the leaves stored before still are. -/
theorem stored_of_leaves (h : Durable S value kept n mmr_size batch) {left : Store}
    (hleft : batch.Leaves S left) : ∀ p < nodeCount kept, S.contents left p = some (value p) := by
  rcases hleft with rfl | ⟨F, result, stopped, htearing, hcommit, rfl⟩
  · exact h.stored
  · have habove : ∀ entry ∈ batch.memory_batch, nodeCount kept ≤ entry.1 := by
      intro entry hentry
      rw [show batch.memory_batch = leafRuns value kept n from h.listed] at hentry
      obtain ⟨i, hi, rfl⟩ := List.mem_map.mp hentry
      exact nodeCount_le_nodeCount_iff.mpr (List.mem_range'_1.mp hi).1
    intro p hp
    rw [htearing.drain habove (MMRBatch.commit_eq_ok_iff.mp hcommit).1 p hp, h.stored p hp]

/-- A tree opened again over the leaves that are stored, or the first of them. -/
theorem reopen (h : Durable S value kept n mmr_size batch) {left : Store} (hleft : batch.Leaves S left)
    {m : Nat} (hm : m ≤ kept) :
    Durable S value m m (nodeCount m) (.new left) where
  le := Nat.le_refl m
  size := rfl
  fits := (nodeCount_le_nodeCount_iff.mpr (hm.trans h.le)).trans_lt h.fits
  listed := (leafRuns_self value m).symm
  stored p hp := h.stored_of_leaves hleft p (hp.trans_le (nodeCount_le_nodeCount_iff.mpr hm))

end Durable

namespace mmr

variable {S : MapStore R W} {H : Hasher Item} {store : Store} {log : List Bytes} {kept : Nat}

abbrev MMR.Lifetime (b : Profile) (μ : Type) {R : MMRStoreReadOps Store Item σ}
    {W : MMRStoreWriteOps Store Item σ} (S : MapStore R W) (H : Hasher Item) (store : Store) :
    List Bytes → Nat → MMR Item Store → Prop :=
  merkleberg.Lifetime (fun n => b = .release → n < 2 ^ 63) (MMR.Attempt b (H.toMerge : Merge Item μ) R)
    (fun self next => (self.commit W : Outcome Empty (Except (Error σ μ) Unit × _)) = ok (.ok (), next))
    (fun self left => self.batch.Leaves S left) MMR.new store

/-- A tree over a log of which the first leaves are stored. -/
abbrev MMR.Durable (S : MapStore R W) (H : Hasher Item) (log : List Bytes) (kept : Nat)
    (self : MMR Item Store) : Prop :=
  merkleberg.Durable S (elemAt H log) kept log.length self.mmr_size self.batch

theorem MMR.Durable.push {self next : MMR Item Store} {d : Bytes} {pos : Nat}
    (h : self.Durable S H log kept) (hfit : b = .release → log.length + 1 < 2 ^ 63)
    (hpush : MMR.Attempt b (H.toMerge : Merge Item μ) R self d (.ok pos) next) :
    next.Durable S H (log ++ [d]) kept := by
  obtain ⟨_, hnext, hbatch⟩ := MMR.Holds.of_attempt (.refl _) h.holds
    (fun hb => (Nat.lt_succ_self _).trans (hfit hb)) hpush
  have hlength : (log ++ [d]).length = log.length + 1 := by rw [List.length_append, List.length_singleton]
  have hsize := hnext.size
  have hfits := hnext.fits
  rw [hlength] at hsize hfits
  rw [MMR.Durable, hlength, hsize, hbatch]
  exact (h.congr fun p hp => elemAt_append [d] hp).append hfits

theorem MMR.Durable.recover {self : MMR Item Store} (h : self.Durable S H log kept) {left : Store}
    (hleft : self.batch.Leaves S left) {m : Nat} (hm : m ≤ kept) :
    (MMR.new (nodeCount m) left).Durable S H (log.take m) m := by
  have hinside : m ≤ log.length := hm.trans h.le
  rw [MMR.Durable, List.length_take_of_le hinside]
  exact (h.reopen hleft hm).congr fun p hp => elemAt_take H hinside hp

/-- At every point of its life a store has the leaves that were committed. -/
theorem MMR.Lifetime.durable {self : MMR Item Store} (life : MMR.Lifetime b μ S H store log kept self) :
    self.Durable S H log kept := by
  induction life with
  | new => exact .new S store _
  | push life hfit hpush ih => exact ih.push hfit hpush
  | failed life hpush ih => exact hpush.unchanged ▸ ih
  | commit life hcommit ih =>
    obtain ⟨hbatch, hsize⟩ := MMR.commit_ok hcommit
    rw [MMR.Durable, hsize]
    exact Durable.commit ih hbatch
  | recover life hleft hm ih => exact ih.recover hleft hm

end mmr

namespace mmriver

variable {S : MapStore R W} {H : Hasher Item} {store : Store} {log : List Bytes} {kept : Nat}

abbrev MMRIVER.Lifetime (b : Profile) (μ : Type) {R : MMRStoreReadOps Store Item σ}
    {W : MMRStoreWriteOps Store Item σ} (S : MapStore R W) (H : Hasher Item) (store : Store) :
    List Bytes → Nat → MMRIVER Item Store → Prop :=
  merkleberg.Lifetime (fun n => b = .release → n < 2 ^ 63) (MMRIVER.Attempt b (H.toMerge : Merge Item μ) R)
    (fun self next => (self.commit W : Outcome Empty (Except (Error σ μ) Unit × _)) = ok (.ok (), next))
    (fun self left => self.batch.Leaves S left) MMRIVER.new store

/-- A tree over a log of which the first leaves are stored. -/
structure MMRIVER.Durable (b : Profile) (S : MapStore R W) (H : Hasher Item) (log : List Bytes) (kept : Nat)
    (tree : MMRIVER Item Store) : Prop where
  leaves : merkleberg.Durable S (elemAt H log) kept log.length tree.mmr_size tree.batch
  height_fits : nodeCount log.length + 1 < allOnesLimit b

theorem MMRIVER.Durable.holds {self : MMRIVER Item Store} (h : self.Durable b S H log kept) :
    self.Holds b S (S.contents self.batch.store) H log :=
  ⟨h.leaves.holds, h.height_fits⟩

theorem MMRIVER.Durable.push {self next : MMRIVER Item Store} {d : Bytes} {pos : Nat}
    (h : self.Durable b S H log kept) (hfit : b = .release → log.length + 1 < 2 ^ 63)
    (hpush : MMRIVER.Attempt b (H.toMerge : Merge Item μ) R self d (.ok pos) next) :
    next.Durable b S H (log ++ [d]) kept := by
  obtain ⟨_, hnext, hbatch⟩ := MMRIVER.Holds.of_attempt (.refl _) h.holds hfit hpush
  have hlength : (log ++ [d]).length = log.length + 1 := by rw [List.length_append, List.length_singleton]
  have hsize := hnext.forest.size
  have hfits := hnext.forest.fits
  refine ⟨?_, hnext.height_fits⟩
  rw [hlength] at hsize hfits
  rw [hlength, hsize, hbatch]
  exact (h.leaves.congr fun p hp => elemAt_append [d] hp).append hfits

theorem MMRIVER.Durable.recover {self : MMRIVER Item Store} (h : self.Durable b S H log kept)
    {left : Store} (hleft : self.batch.Leaves S left) {m : Nat} (hm : m ≤ kept) :
    (MMRIVER.new (nodeCount m) left).Durable b S H (log.take m) m := by
  have hinside : m ≤ log.length := hm.trans h.leaves.le
  have hcount := nodeCount_le_nodeCount_iff.mpr hinside
  have hheight := h.height_fits
  constructor
  · rw [List.length_take_of_le hinside]
    exact (h.leaves.reopen hleft hm).congr fun p hp => elemAt_take H hinside hp
  · rw [List.length_take_of_le hinside]
    omega

/-- At every point of its life a store has the leaves that were committed. -/
theorem MMRIVER.Lifetime.durable {self : MMRIVER Item Store}
    (life : MMRIVER.Lifetime b μ S H store log kept self) : self.Durable b S H log kept := by
  induction life with
  | new => exact ⟨.new S store _, by cases b <;> decide⟩
  | push life hfit hpush ih => exact ih.push hfit hpush
  | failed life hpush ih => exact hpush.unchanged ▸ ih
  | commit life hcommit ih =>
    obtain ⟨hbatch, hsize⟩ := MMRIVER.commit_ok hcommit
    refine ⟨?_, ih.height_fits⟩
    rw [hsize]
    exact ih.leaves.commit hbatch
  | recover life hleft hm ih => exact ih.recover hleft hm

end mmriver

/-- At every point of such a life the leaves that were committed are in the store, the
    tree that is open is as one that was given the same log without interruption, as
    far as `same` goes, and it can be pushed to. -/
def Accumulator.LogSurvives {State Tree : Type} (A : Accumulator State Item Store σ μ) (S : MapStore R W)
    (value : List Bytes → Nat → Item) (lifetime : List Bytes → Nat → State → Prop)
    (alone : List Bytes → Tree → Prop) (same : State → Tree → Prop) : Prop :=
  ∀ log kept final, lifetime log kept final →
    (kept ≤ log.length ∧ ∀ p < nodeCount kept, S.contents (A.batch final).store p = some (value log p)) ∧
    (∀ tree, alone log tree → same final tree) ∧
    (log.length + 1 < 2 ^ 62 → ∀ d, ∃ next, A.push final d = ok (.ok (A.mmr_size final), next))

/-- The log survives crashes. Whatever a store has been through, the leaves that were
    committed are there, a tree over it answers as one that was given the same log
    without any interruption, and it can be pushed to. For both kinds of tree. -/
theorem log_survives_crashes (b : Profile) (S : MapStore R W) (S' : MapStore R' W') (H : Hasher Item)
    (store : Store) :
    (mmr.MMR.accumulator b (H.toMerge : Merge Item μ) R W).LogSurvives S (mmr.elemAt H)
      (mmr.MMR.Lifetime b μ S H store)
      (fun log alone => ∃ store' positions,
        mmr.MMR.Session b (H.toMerge : Merge Item μ) R' W' (.new 0 store') log positions alone)
      (mmr.MMR.SameLog b (H.toMerge : Merge Item μ) R R') ∧
    (mmriver.MMRIVER.accumulator b (H.toMerge : Merge Item μ) R W).LogSurvives S (mmriver.elemAt H)
      (mmriver.MMRIVER.Lifetime b μ S H store)
      (fun log alone => ∃ store' positions,
        mmriver.MMRIVER.Session b (H.toMerge : Merge Item μ) R' W' (.new 0 store') log positions alone)
      (mmriver.MMRIVER.SameLog b (H.toMerge : Merge Item μ) R R') := by
  refine ⟨fun log kept final life => ?_, fun log kept final life => ?_⟩
  · have hdurable := mmr.MMR.Lifetime.durable life
    have hfinal : final.Holds S _ H log := hdurable.holds
    refine ⟨⟨hdurable.le, hdurable.stored⟩, ?_, fun hsmall d => ?_⟩
    · rintro alone ⟨store', positions, session⟩
      obtain ⟨halone, _⟩ := session.holds S' (.refl _) fun _ => hfinal.leaves_lt
      exact hfinal.same_log halone b _
    · obtain ⟨next, hpush, _⟩ := hfinal.push (b := b) (μ := μ) (by omega) d
      rw [← hfinal.size] at hpush
      exact ⟨next, hpush⟩
  · have hdurable := mmriver.MMRIVER.Lifetime.durable life
    have hfinal := hdurable.holds
    refine ⟨⟨hdurable.leaves.le, hdurable.leaves.stored⟩, ?_, fun hsmall d => ?_⟩
    · have hword : log.length < 2 ^ 63 := by
        have hlimit := allOnesLimit_le b
        have hheight := hfinal.height_fits
        have hfull := nodeCount_two_pow 63
        refine nodeCount_lt_nodeCount_iff.mp ?_
        omega
      rintro alone ⟨store', positions, session⟩
      obtain ⟨halone, _⟩ := session.holds S' (.refl _) fun _ => hword
      exact hfinal.same_log halone _
    · have hcount := nodeCount_le_nodeCount_iff.mpr (show log.length + 1 ≤ 2 ^ 62 - 1 by omega)
      have hfull := nodeCount_two_pow_sub_one_add 62
      have hlimit := le_allOnesLimit b
      obtain ⟨next, hpush, _⟩ := hfinal.push (μ := μ) (by omega) d
      rw [← hfinal.forest.size] at hpush
      exact ⟨next, hpush⟩

/-- Writes that fail and leave garbage at the position they were given. -/
def MemStore.tornOps : MMRStoreWriteOps (MemStore (Term Empty)) (Term Empty) Unit where
  append self pos _ := ok (.error (), self.insert pos (.leaf []))

theorem MemStore.tornOps_tearing : (MemStore.mapStore .debug : MapStore
    (MemStore.readOps : MMRStoreReadOps (MemStore (Term Empty)) (Term Empty) Unit) _).Tearing
      MemStore.tornOps := by
  intro store pos elems result store' happend p hp
  cases happend
  exact if_neg hp.ne

/-- A commit of the second leaf that failed, and another leaf in its place over the
    garbage that the failure has left. -/
theorem log_survives_crashes_two :
    ∃ final alone, mmr.MMR.Lifetime .debug Empty (MemStore.mapStore .debug : MapStore
        (MemStore.readOps : MMRStoreReadOps (MemStore (Term Empty)) (Term Empty) Unit) _)
        Term.hasher MemStore.new [[1], [3]] 1 final ∧
      final.batch.store.entries 1 = some (.leaf []) ∧
      mmr.MMR.SameLog (σ := Unit) (μ := Empty) .debug Term.hasher.toMerge MemStore.readOps
        MemStore.readOps final alone := by
  have start : mmr.MMR.Lifetime .debug Empty (MemStore.mapStore .debug : MapStore
      (MemStore.readOps : MMRStoreReadOps (MemStore (Term Empty)) (Term Empty) Unit) _)
      Term.hasher MemStore.new [] 0 _ := .new
  have committed := (start.push (d := [1]) (fun hb => by cases hb) ⟨_, _, .refl _, .refl _, rfl⟩).commit rfl
  have crashed := (committed.push (d := [2]) (fun hb => by cases hb)
    ⟨_, _, .refl _, .refl _, rfl⟩).recover
      (.inr ⟨MemStore.tornOps, _, _, MemStore.tornOps_tearing, rfl, rfl⟩) (Nat.le_refl 1)
  have life := crashed.push (d := [3]) (fun hb => by cases hb) ⟨_, _, .refl _, .refl _, rfl⟩
  have alone : mmr.MMR.Session .debug (Term.hasher.toMerge : Merge (Term Empty) Empty)
      (MemStore.readOps : MMRStoreReadOps _ _ Unit) (MemStore.writeOps .debug)
      (.new 0 MemStore.new) [[1], [3]] [0, 1] _ :=
    ((Session.refl.push (d := [1]) ⟨_, _, .refl _, .refl _, rfl⟩).push (d := [3])
      ⟨_, _, .refl _, .refl _, rfl⟩)
  obtain ⟨_, hsame, _⟩ := (log_survives_crashes (μ := Empty) .debug (MemStore.mapStore .debug)
    (MemStore.mapStore .debug) Term.hasher MemStore.new).1 _ _ _ life
  exact ⟨_, _, life, rfl, hsame _ ⟨_, _, alone⟩⟩

end merkleberg
