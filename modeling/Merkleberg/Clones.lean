import Merkleberg.Pruned
import Merkleberg.Sharing

open machine machine.Outcome
open forest
open Relation
open merkleberg.helper

namespace merkleberg

variable {ι Item Store Store' σ μ : Type} {b : Profile} {M : Merge Item μ}
  {R : MMRStoreReadOps Store Item σ} {W : MMRStoreWriteOps Store Item σ}
  {R' : MMRStoreReadOps Store' Item σ} {W' : MMRStoreWriteOps Store' Item σ}

theorem spine_congr {value value' : Nat → Item} {n : Nat}
    (hvalue : ∀ p < nodeCount (n + 1), value' p = value p) :
    spine value' n (trailingZeros (n + 1)) = spine value n (trailingZeros (n + 1)) := by
  have hstep := nodeCount_succ n
  refine List.map_congr_left fun i hi => hvalue _ ?_
  rw [List.mem_range] at hi
  omega

/-- Entry `n` of a log goes behind its first `n` entries. -/
theorem take_append_of_getElem? {T : Type} {log : List T} {n : Nat} {d : T} (hlog : log[n]? = some d) :
    (log.take n).length = n ∧ log.take n ++ [d] = log.take (n + 1) := by
  obtain ⟨hn, rfl⟩ := List.getElem?_eq_some_iff.mp hlog
  exact ⟨by rw [List.length_take]; omega, List.take_append_getElem hn⟩

namespace mmr

/-- What a tree owns besides its store. -/
def MMR.handle (self : MMR Item Store) : Handle Item :=
  { mmr_size := self.mmr_size, memory_batch := self.batch.memory_batch }

/-- A push of a tree over clones of a store, with the handle that it leaves. -/
def MMR.AttemptShared (b : Profile) (M : Merge Item μ) (R : MMRStoreReadOps Store Item σ)
    (views : Nat → Store) (handle : Handle Item) (d : Bytes) (result : Except (Error σ μ) Nat)
    (next : Handle Item) : Prop :=
  ∃ tree, MMR.Attempt b M (Sharing.readOps R) (handle.mmr views) d result tree ∧ next = tree.handle

theorem MMR.holds_take {S : MapStore R W} {under : Nat → Option Item} {H : Hasher Item}
    {log : List Bytes} {n : Nat} (hn : n ≤ log.length) {handle : Handle Item} {views : Nat → Store}
    (h : HoldsForest (Sharing.mapStore S) under (elemAt H log) n handle.mmr_size
      { memory_batch := handle.memory_batch, store := views }) :
    (handle.mmr views).Holds (Sharing.mapStore S) under H (log.take n) := by
  rw [MMR.Holds, List.length_take, Nat.min_eq_left hn]
  exact h.congr fun p hp => elemAt_take H hn hp

/-- The sizes that a tree over a log can reach. -/
def MMR.Fits (log : List Bytes) (n : Nat) : Prop := n ≤ log.length ∧ nodeCount n < 2 ^ 64

theorem MMR.builds (S : MapStore R W) {H : Hasher Item} (hM : M.Within H.toMerge) {log : List Bytes}
    (hfit : b = .release → log.length < 2 ^ 63) :
    Sharing.Builds (MMR.AttemptShared b M R) S (elemAt H log) (MMR.Fits log) log where
  fits_zero := ⟨Nat.zero_le _, by decide⟩
  fits_of_le hle hfits :=
    ⟨hle.trans hfits.1, (nodeCount_le_nodeCount_iff.mpr hle).trans_lt hfits.2⟩
  lt_of_fits hfits := hfits.2
  push := by
    rintro views under handle _ n pos d hholds hfits hlog ⟨next, hattempt, rfl⟩
    obtain ⟨hlength, hlonger⟩ := take_append_of_getElem? hlog
    have hn : n < log.length := (List.getElem?_eq_some_iff.mp hlog).1
    obtain ⟨_, hholds', hbatch⟩ := (MMR.holds_take hfits.1 hholds).of_attempt hM
      (fun hb => by have := hfit hb; omega) hattempt
    rw [hlonger, hlength, spine_congr fun p hp => elemAt_take H hn hp] at hbatch
    have hsize := hholds'.size
    have hword := hholds'.fits
    rw [hlonger, List.length_take, Nat.min_eq_left hn] at hsize hword
    refine ⟨⟨hn, hword⟩, ?_⟩
    rw [MMR.handle, hsize, hbatch]
    rfl
  push_fails := by
    rintro views handle _ d error ⟨next, hattempt, rfl⟩
    rw [hattempt.unchanged]
    rfl

/-- Two trees with the log of one another, as far as calls on them can tell. -/
structure MMR.SameLog (b : Profile) (M : Merge Item μ) (R : MMRStoreReadOps Store Item σ)
    (R' : MMRStoreReadOps Store' Item σ) (self : MMR Item Store) (self' : MMR Item Store') : Prop where
  mmr_size : self.mmr_size = self'.mmr_size
  get_elem : ∀ p < self.mmr_size, self.batch.get_elem b R p = self'.batch.get_elem b R' p
  get_root : (self.get_root b M R : Outcome (Error σ μ) Item) = self'.get_root b M R'
  gen_proof : ∀ pos_list, (∀ p ∈ pos_list, p < 2 ^ 64) →
    (self.gen_proof b M R pos_list : Outcome (Error σ μ) _) = self'.gen_proof b M R' pos_list
  push : ∀ d, Outcome.Alike (fun result result' => result.1 = result'.1) (self.push b M R d)
    (self'.push b M R' d)

theorem MMR.Holds.same_log {S : MapStore R W} {S' : MapStore R' W'} {under under' : Nat → Option Item}
    {H : Hasher Item} {data : List Bytes} {self : MMR Item Store} {self' : MMR Item Store'}
    (h : self.Holds S under H data) (h' : self'.Holds S' under' H data) (b : Profile) (M : Merge Item μ) :
    MMR.SameLog b M R R' self self' where
  mmr_size := h.size.trans h'.size.symm
  get_elem p hp := by
    have hinside : p < nodeCount data.length := h.size ▸ hp
    rw [h.get_elem_eq hinside, h'.get_elem_eq hinside]
  get_root := h.same_root h' M
  gen_proof _ hwords := h.same_proof h' M hwords
  push := h.same_push h' M

end mmr

namespace mmriver

/-- What a tree owns besides its store. -/
def MMRIVER.handle (self : MMRIVER Item Store) : Handle Item :=
  { mmr_size := self.mmr_size, memory_batch := self.batch.memory_batch }

/-- A push of a tree over clones of a store, with the handle that it leaves. -/
def MMRIVER.AttemptShared (b : Profile) (M : Merge Item μ) (R : MMRStoreReadOps Store Item σ)
    (views : Nat → Store) (handle : Handle Item) (d : Bytes) (result : Except (Error σ μ) Nat)
    (next : Handle Item) : Prop :=
  ∃ tree, MMRIVER.Attempt b M (Sharing.readOps R) (handle.mmriver views) d result tree ∧
    next = tree.handle

theorem MMRIVER.holds_take {S : MapStore R W} {under : Nat → Option Item} {H : Hasher Item}
    {log : List Bytes} {n : Nat} (hn : n ≤ log.length) (hheight : nodeCount n + 1 < allOnesLimit b)
    {handle : Handle Item} {views : Nat → Store}
    (h : HoldsForest (Sharing.mapStore S) under (elemAt H log) n handle.mmr_size
      { memory_batch := handle.memory_batch, store := views }) :
    (handle.mmriver views).Holds b (Sharing.mapStore S) under H (log.take n) := by
  refine ⟨?_, by rwa [List.length_take, Nat.min_eq_left hn]⟩
  rw [List.length_take, Nat.min_eq_left hn]
  exact h.congr fun p hp => elemAt_take H hn hp

/-- The sizes that a tree over a log can reach. -/
def MMRIVER.Fits (b : Profile) (log : List Bytes) (n : Nat) : Prop :=
  n ≤ log.length ∧ nodeCount n + 1 < allOnesLimit b

theorem MMRIVER.builds (S : MapStore R W) {H : Hasher Item} (hM : M.Within H.toMerge)
    {log : List Bytes} (hfit : b = .release → log.length < 2 ^ 63) :
    Sharing.Builds (MMRIVER.AttemptShared b M R) S (elemAt H log) (MMRIVER.Fits b log) log where
  fits_zero := ⟨Nat.zero_le _, by cases b <;> decide⟩
  fits_of_le hle hfits := by
    have hcount := nodeCount_le_nodeCount_iff.mpr hle
    exact ⟨hle.trans hfits.1, lt_of_le_of_lt (by omega) hfits.2⟩
  lt_of_fits hfits := by
    have hlimit := allOnesLimit_le b
    have hlt := hfits.2
    omega
  push := by
    rintro views under handle _ n pos d hholds hfits hlog ⟨next, hattempt, rfl⟩
    obtain ⟨hlength, hlonger⟩ := take_append_of_getElem? hlog
    have hn : n < log.length := (List.getElem?_eq_some_iff.mp hlog).1
    obtain ⟨_, hholds', hbatch⟩ := (MMRIVER.holds_take hfits.1 hfits.2 hholds).of_attempt hM
      (fun hb => by have := hfit hb; omega) hattempt
    rw [hlonger, hlength, spine_congr fun p hp => elemAt_take H hn hp] at hbatch
    have hsize := hholds'.forest.size
    have hheight := hholds'.height_fits
    rw [hlonger, List.length_take, Nat.min_eq_left hn] at hsize hheight
    refine ⟨⟨hn, hheight⟩, ?_⟩
    rw [MMRIVER.handle, hsize, hbatch]
    rfl
  push_fails := by
    rintro views handle _ d error ⟨next, hattempt, rfl⟩
    rw [hattempt.unchanged]
    rfl

/-- Two trees with the log of one another, as far as calls on them can tell. What a
    push comes to is compared where the heights it asks for are in range. -/
structure MMRIVER.SameLog (b : Profile) (M : Merge Item μ) (R : MMRStoreReadOps Store Item σ)
    (R' : MMRStoreReadOps Store' Item σ) (self : MMRIVER Item Store) (self' : MMRIVER Item Store') :
    Prop where
  mmr_size : self.mmr_size = self'.mmr_size
  get_elem : ∀ p < self.mmr_size, self.batch.get_elem b R p = self'.batch.get_elem b R' p
  get_accumulator :
    (self.get_accumulator b R : Outcome (Error σ μ) _) = self'.get_accumulator b R'
  get_root : (self.get_root b M R : Outcome (Error σ μ) Item) = self'.get_root b M R'
  gen_inclusion_proof : ∀ i,
    (self.gen_inclusion_proof b R i : Outcome (Error σ μ) _) = self'.gen_inclusion_proof b R' i
  gen_consistency_proof : ∀ mmr_size_from,
    (self.gen_consistency_proof b R mmr_size_from : Outcome (Error σ μ) _) =
      self'.gen_consistency_proof b R' mmr_size_from
  push : (b = .release → self.mmr_size < nodeCount (2 ^ 63 - 1)) → ∀ d,
    Outcome.Alike (fun result result' => result.1 = result'.1) (self.push b M R d) (self'.push b M R' d)

theorem MMRIVER.Holds.same_log {S : MapStore R W} {S' : MapStore R' W'}
    {under under' : Nat → Option Item} {H : Hasher Item} {data : List Bytes}
    {self : MMRIVER Item Store} {self' : MMRIVER Item Store'} (h : self.Holds b S under H data)
    (h' : self'.Holds b S' under' H data) (M : Merge Item μ) : MMRIVER.SameLog b M R R' self self' where
  mmr_size := h.forest.size.trans h'.forest.size.symm
  get_elem p hp := by
    have hinside : p < nodeCount data.length := h.forest.size ▸ hp
    rw [h.forest.get_elem_eq hinside, h'.forest.get_elem_eq hinside]
  get_accumulator := h.same_accumulator h'
  get_root := h.same_root h' M
  gen_inclusion_proof := h.same_inclusion_proof h'
  gen_consistency_proof := h.same_consistency_proof h'
  push hroom := by
    refine h.same_push h' (fun hb => ?_) M
    have hlt := hroom hb
    rw [h.forest.size, nodeCount_lt_nodeCount_iff] at hlt
    omega

end mmriver

section Sharing

variable [DecidableEq ι] {ε : Type} {S : MapStore R W} {H : Hasher Item} {store : Store}
  {log : List Bytes} {attempt : (Nat → Store) → Handle Item → Bytes → Except ε Nat → Handle Item → Prop}
  {value : Nat → Item} {Fits : Nat → Prop} {final : Sharing ι Item Store}

namespace Sharing

/-- Any calls of any users in any order are a run of one shared log. -/
theorem refines (hbuilds : Builds attempt S value Fits log) (hempty : ∀ p, S.contents store p = none)
    (run : Run attempt S log (.start store) final) :
    ∃ shared, ReflTransGen SharedLog.Step SharedLog.empty shared ∧ Refines S value Fits final shared := by
  refine exists_run_of_steps (fun h hstep => ?_) (Refines.start hbuilds.fits_zero hempty) run
  obtain ⟨i, hstep⟩ := hstep
  exact h.step hbuilds hstep

/-- The storage has exactly the tree over some of the log's first leaves, and every
    tree between two calls is as one that alone pushed some of the log's first
    leaves, as far as `same` goes. -/
def Undisturbed {Tree : Type} (S : MapStore R W) (value : Nat → Item) (log : List Bytes)
    (alone : List Bytes → Tree → Prop) (same : Handle Item → (Nat → Store) → Tree → Prop)
    (final : Sharing ι Item Store) : Prop :=
  (∃ n ≤ log.length, S.contents final.store = forestContents value n) ∧
  ∀ i handle, (final.users i).phase = .ready handle →
    ∃ n ≤ log.length, handle.mmr_size = nodeCount n ∧
      ∀ views, (∀ p, views p ∈ (final.users i).seen) → ∀ tree, alone (log.take n) tree →
        same handle views tree

theorem undisturbed {Tree : Type} {alone : List Bytes → Tree → Prop}
    {same : Handle Item → (Nat → Store) → Tree → Prop} (hbuilds : Builds attempt S value Fits log)
    (hlog : ∀ {n}, Fits n → n ≤ log.length) (hempty : ∀ p, S.contents store p = none)
    (hsame : ∀ {handle views n}, Fits n → HoldsForest (mapStore S) ((mapStore S).contents views) value n
      handle.mmr_size { memory_batch := handle.memory_batch, store := views } →
      ∀ tree, alone (log.take n) tree → same handle views tree)
    (run : Run attempt S log (.start store) final) :
    final.Undisturbed S value log alone same := by
  obtain ⟨shared, _, hrefines⟩ := refines hbuilds hempty run
  refine ⟨⟨shared.stored, hlog hrefines.fits, hrefines.store⟩, fun i handle hready => ?_⟩
  obtain ⟨user, huser, hfits, rfl⟩ := hrefines.ready hready
  refine ⟨user.length, hlog hfits, rfl, fun views hviews tree halone => ?_⟩
  obtain ⟨user', huser', _, _, hholds⟩ := hrefines.holds hbuilds.lt_of_fits hready hviews
  obtain rfl : user = user' := Option.some.inj (huser.symm.trans huser')
  exact hsame hfits hholds tree halone

end Sharing

/-- A store that accepts every run of elements within the positions of a word. -/
def Accepts (W : MMRStoreWriteOps Store Item σ) : Prop :=
  ∀ store pos elems, pos + elems.length ≤ 2 ^ 64 →
    ∃ store', W.append store pos elems = ok (.ok (), store')

theorem leafRuns_fits {value : Nat → Item} {m n : Nat} {entry : Nat × List Item}
    (hentry : entry ∈ leafRuns value m n) : entry.1 + entry.2.length ≤ nodeCount n := by
  obtain ⟨i, hi, rfl⟩ := List.mem_map.mp hentry
  have hlast := List.mem_range'_1.mp hi
  have hstep := nodeCount_succ i
  have hcount := nodeCount_le_nodeCount_iff.mpr (show i + 1 ≤ n by omega)
  rw [spine_length]
  omega

theorem Accepts.drain (haccepts : Accepts W) {entries : List (Nat × List Item)}
    (hfits : ∀ entry ∈ entries, entry.1 + entry.2.length ≤ 2 ^ 64) (store : Store) :
    ∃ store', MMRBatch.commit.drain W store entries = ok (.ok (), store') := by
  induction entries generalizing store with
  | nil => exact ⟨store, rfl⟩
  | cons entry entries ih =>
    obtain ⟨middle, happend⟩ := haccepts store entry.1 entry.2 (hfits entry List.mem_cons_self)
    obtain ⟨store', hdrain⟩ := ih (fun later hlater => hfits later (List.mem_cons_of_mem _ hlater)) middle
    refine ⟨store', ?_⟩
    rw [MMRBatch.commit.drain, happend]
    exact hdrain

namespace Sharing

/-- By calls of its own, user `i` gets the entries in `rest` into the storage, as the
    commit of a batch would, and the commit of a tree of that size returns. -/
def CanCommit {ε : Type} (attempt : (Nat → Store) → Handle Item → Bytes → Except ε Nat → Handle Item → Prop)
    (S : MapStore R W) (log : List Bytes) (self : Sharing ι Item Store) (i : ι) (mmr_size : Nat)
    (rest : List (Nat × List Item)) : Prop :=
  ∃ later, RunAlone attempt S log i self later ∧
    MMRBatch.commit.drain W self.store rest = ok (.ok (), later.store) ∧
    (later.users i).phase = .ready { mmr_size, memory_batch := [] } ∧ mmr_size ∈ later.sizes

/-- Where nobody comes in between, the steps of a commit are the commit of the batch. -/
theorem drain_run {rest : List (Nat × List Item)} {mmr_size : Nat} {self : Sharing ι Item Store}
    {store' : Store} (hdrain : MMRBatch.commit.drain W self.store rest = ok (.ok (), store')) {i : ι}
    (hcommitting : (self.users i).phase = .committing mmr_size rest) :
    ∃ next, RunAlone attempt S log i self next ∧
      (next.users i).phase = .committing mmr_size [] ∧ next.store = store' := by
  induction rest generalizing self with
  | nil =>
    cases hdrain
    exact ⟨self, .refl, hcommitting, rfl⟩
  | cons entry rest ih =>
    rw [MMRBatch.commit.drain, bind_eq_ok_iff] at hdrain
    obtain ⟨⟨result, store⟩, happend, hdrain⟩ := hdrain
    cases result with
    | error error => cases hdrain
    | ok =>
      obtain ⟨next, run, hdone, hstore⟩ := ih hdrain (setUser_phase (self.setStore store) i _)
      exact ⟨next, .head (.append hcommitting happend) run, hdone, hstore⟩

section Refines

variable {shared : SharedLog ι} {i : ι}

/-- A commit can be gone on with wherever the others stopped. -/
theorem Refines.commit_completes (h : Refines S value Fits final shared) (haccepts : Accepts W)
    (hlt : ∀ {n}, Fits n → nodeCount n < 2 ^ 64) {mmr_size : Nat} {rest : List (Nat × List Item)}
    (hcommitting : (final.users i).phase = .committing mmr_size rest) :
    final.CanCommit attempt S log i mmr_size rest := by
  obtain ⟨user, _, hfits, rfl, rfl⟩ := h.committing hcommitting
  have hword := hlt hfits
  obtain ⟨store', hdrain⟩ := haccepts.drain
    (fun entry hentry => (leafRuns_fits hentry).trans hword.le) final.store
  obtain ⟨drained, hsteps, hdone, rfl⟩ : ∃ drained, RunAlone attempt S log i final drained ∧ _ :=
    drain_run hdrain hcommitting
  exact ⟨_, hsteps.tail (.committed hdone), hdrain, setUser_phase .., List.mem_cons_self⟩

/-- A commit can be begun and finished wherever the others stopped. -/
theorem Refines.commit_begins (h : Refines S value Fits final shared) (haccepts : Accepts W)
    (hlt : ∀ {n}, Fits n → nodeCount n < 2 ^ 64) {handle : Handle Item}
    (hready : (final.users i).phase = .ready handle) :
    final.CanCommit attempt S log i handle.mmr_size handle.memory_batch := by
  obtain ⟨user, huser, hfits, hhandle⟩ := h.ready hready
  have hphase : PhaseRefines value Fits (.committing handle.mmr_size handle.memory_batch) (some user) := by
    rw [hhandle]
    exact .committing user hfits
  obtain ⟨later, run, hdrain, hdone, hsize⟩ : CanCommit attempt S log _ i _ _ :=
    (h.stay huser hphase).commit_completes haccepts hlt (setUser_phase ..)
  exact ⟨later, .head (.commit hready) run, hdrain, hdone, hsize⟩

end Refines

/-- What commits that returned have written is in the storage, and the users can go
    on: one whose tree is between two calls `pushes` the datum that is next for it,
    whatever it meets of the storage, and can commit, and one in the middle of a
    commit can finish it. -/
def Lasting {ε : Type} (attempt : (Nat → Store) → Handle Item → Bytes → Except ε Nat → Handle Item → Prop)
    (S : MapStore R W) (value : Nat → Item) (log : List Bytes)
    (pushes : Handle Item → (Nat → Store) → Bytes → Prop) (final : Sharing ι Item Store) : Prop :=
  (∀ mmr_size ∈ final.sizes, ∀ p < mmr_size, S.contents final.store p = some (value p)) ∧
  (∀ i handle, (final.users i).phase = .ready handle →
    (∀ views n d, (∀ p, views p ∈ (final.users i).seen) → handle.mmr_size = nodeCount n →
      log[n]? = some d → pushes handle views d) ∧
    final.CanCommit attempt S log i handle.mmr_size handle.memory_batch) ∧
  ∀ i mmr_size rest, (final.users i).phase = .committing mmr_size rest →
    final.CanCommit attempt S log i mmr_size rest

theorem lasting {pushes : Handle Item → (Nat → Store) → Bytes → Prop}
    (hbuilds : Builds attempt S value Fits log) (haccepts : Accepts W)
    (hempty : ∀ p, S.contents store p = none)
    (hpush : ∀ {handle views n d}, Fits n → HoldsForest (mapStore S) ((mapStore S).contents views) value n
      handle.mmr_size { memory_batch := handle.memory_batch, store := views } → log[n]? = some d →
      pushes handle views d)
    (run : Run attempt S log (.start store) final) : final.Lasting attempt S value log pushes := by
  obtain ⟨shared, _, hrefines⟩ := refines hbuilds hempty run
  refine ⟨fun mmr_size hsize p hp => ?_, fun i handle hready => ⟨fun views n d hviews hsize hd => ?_, ?_⟩,
    fun i mmr_size rest => hrefines.commit_completes haccepts hbuilds.lt_of_fits⟩
  · rw [hrefines.sizes] at hsize
    obtain ⟨n, hn, rfl⟩ := List.mem_map.mp hsize
    have hcount := nodeCount_le_nodeCount_iff.mpr (shared.announced_le n hn)
    rw [hrefines.store, forestContents, if_pos (by omega)]
  · obtain ⟨user, _, hfits, hhandle, hholds⟩ := hrefines.holds hbuilds.lt_of_fits hready hviews
    obtain rfl : user.length = n := nodeCount_strictMono.injective (by rw [← hsize, hhandle])
    exact hpush hfits hholds hd
  · exact hrefines.commit_begins haccepts hbuilds.lt_of_fits hready

end Sharing

/-- Users of clones of one store, who push the data of one log, cannot disturb each
    other. However their calls and the single writes of their commits fall, with
    failures and users that go away in between, the storage always has exactly the
    tree over some of the log's first leaves, and the tree of every user answers as a
    tree alone on its own store that pushed as many. -/
theorem clones_agree (b : Profile) (S : MapStore R W) (S' : MapStore R' W') {H : Hasher Item}
    (hM : M.Within H.toMerge) {store : Store} (hempty : ∀ p, S.contents store p = none)
    (store' : Store') {log : List Bytes} (hfit : b = .release → log.length < 2 ^ 63) :
    (∀ final : Sharing ι Item Store, Sharing.Run (mmr.MMR.AttemptShared b M R) S log (.start store) final →
      final.Undisturbed S (mmr.elemAt H log) log
        (fun data alone => ∃ positions, mmr.MMR.Session b M R' W' (.new 0 store') data positions alone)
        fun handle views alone => mmr.MMR.SameLog b M (Sharing.readOps R) R' (handle.mmr views) alone) ∧
    ∀ final : Sharing ι Item Store,
      Sharing.Run (mmriver.MMRIVER.AttemptShared b M R) S log (.start store) final →
      final.Undisturbed S (mmriver.elemAt H log) log
        (fun data alone =>
          ∃ positions, mmriver.MMRIVER.Session b M R' W' (.new 0 store') data positions alone)
        fun handle views alone =>
          mmriver.MMRIVER.SameLog b M (Sharing.readOps R) R' (handle.mmriver views) alone := by
  refine ⟨fun final run => ?_, fun final run => ?_⟩
  · refine Sharing.undisturbed (mmr.MMR.builds S hM hfit) (fun hfits => hfits.1) hempty ?_ run
    rintro handle views n hfits hholds alone ⟨positions, session⟩
    obtain ⟨halone, _⟩ := session.holds S' hM fun hb =>
      (List.length_take_le' n log).trans (hfit hb).le
    exact (mmr.MMR.holds_take hfits.1 hholds).same_log halone b M
  · refine Sharing.undisturbed (mmriver.MMRIVER.builds S hM hfit) (fun hfits => hfits.1) hempty ?_ run
    rintro handle views n hfits hholds alone ⟨positions, session⟩
    obtain ⟨halone, _⟩ := session.holds S' hM fun hb =>
      (List.length_take_le' n log).trans_lt (hfit hb)
    exact (mmriver.MMRIVER.holds_take hfits.1 hfits.2 hholds).same_log halone M

/-- Users of clones of one store cannot block each other, and commits last. What a
    commit that returned has written stays in the storage whatever happens later;
    and at any moment, wherever the others stopped, the push of its next datum
    succeeds for each user with a tree, and it can finish a commit by its own steps,
    one that it is in the middle of as well. -/
theorem clones_durable (b : Profile) (S : MapStore R W) (H : Hasher Item) (haccepts : Accepts W)
    {store : Store} (hempty : ∀ p, S.contents store p = none) {log : List Bytes}
    (hsmall : log.length < 2 ^ 62) :
    (∀ final : Sharing ι Item Store,
      Sharing.Run (mmr.MMR.AttemptShared b (H.toMerge : Merge Item μ) R) S log (.start store) final →
      final.Lasting (mmr.MMR.AttemptShared b (H.toMerge : Merge Item μ) R) S (mmr.elemAt H log) log
        fun handle views d => ∃ next, (handle.mmr views).push b (H.toMerge : Merge Item μ)
          (Sharing.readOps R) d = ok (.ok handle.mmr_size, next)) ∧
    ∀ final : Sharing ι Item Store,
      Sharing.Run (mmriver.MMRIVER.AttemptShared b (H.toMerge : Merge Item μ) R) S log (.start store)
        final →
      final.Lasting (mmriver.MMRIVER.AttemptShared b (H.toMerge : Merge Item μ) R) S
        (mmriver.elemAt H log) log
        fun handle views d => ∃ next, (handle.mmriver views).push b (H.toMerge : Merge Item μ)
          (Sharing.readOps R) d = ok (.ok handle.mmr_size, next) := by
  have hfit : b = .release → log.length < 2 ^ 63 := fun _ => by omega
  refine ⟨fun final run => ?_, fun final run => ?_⟩
  · refine Sharing.lasting (mmr.MMR.builds S (.refl _) hfit) haccepts hempty ?_ run
    intro handle views n d hfits hholds hd
    have hself := mmr.MMR.holds_take hfits.1 hholds
    obtain ⟨hlength, _⟩ := take_append_of_getElem? hd
    obtain ⟨next, hpush, _⟩ := hself.push (b := b) (μ := μ)
      (by rw [hlength]; have := hfits.1; omega) d
    rw [hlength, ← hholds.size] at hpush
    exact ⟨next, hpush⟩
  · refine Sharing.lasting (mmriver.MMRIVER.builds S (.refl _) hfit) haccepts hempty ?_ run
    intro handle views n d hfits hholds hd
    have hself := mmriver.MMRIVER.holds_take hfits.1 hfits.2 hholds
    obtain ⟨hlength, _⟩ := take_append_of_getElem? hd
    have hn : n + 1 ≤ log.length := (List.getElem?_eq_some_iff.mp hd).1
    have hheight : nodeCount (n + 1) + 1 < allOnesLimit b := by
      have hcount := nodeCount_le_nodeCount_iff.mpr (show n + 1 ≤ 2 ^ 62 - 1 by omega)
      have hfull := nodeCount_two_pow_sub_one_add 62
      have hlimit := le_allOnesLimit b
      omega
    obtain ⟨next, hpush, _⟩ := hself.push (μ := μ) (by rw [hlength]; exact hheight) d
    rw [hlength, ← hholds.size] at hpush
    exact ⟨next, hpush⟩

abbrev Sharing.SymbolicAttempt : (Nat → MemStore (Term Empty)) → Handle (Term Empty) → Bytes →
    Except (Error Empty Unit) Nat → Handle (Term Empty) → Prop :=
  mmr.MMR.AttemptShared .debug Term.hasher.toMerge MemStore.readOps

abbrev MemStore.symbolicStore : MapStore
    (MemStore.readOps : MMRStoreReadOps (MemStore (Term Empty)) (Term Empty) Empty) (writeOps .debug) :=
  MemStore.mapStore .debug

/-- One user has committed two leaves and is in the middle of the commit of two more,
    of which one is stored. Another user has opened a tree over the first two leaves
    meanwhile, and has pushed the third without seeing that it is there. -/
theorem Sharing.exists_interleaved_run :
    ∃ (final : Sharing Bool (Term Empty) (MemStore (Term Empty))) (handle : Handle (Term Empty))
      (rest : List (Nat × List (Term Empty))),
      Sharing.Run Sharing.SymbolicAttempt MemStore.symbolicStore [[1], [2], [3], [4]]
        (.start MemStore.new) final ∧
      (final.users true).phase = .ready handle ∧ handle.mmr_size = 4 ∧ handle.memory_batch.length = 1 ∧
      (final.users true).seen = [final.store] ∧ final.store.entries 3 = some (.leaf [3]) ∧
      (final.users false).phase = .committing 7 rest ∧ rest.length = 1 ∧ final.sizes = [3] := by
  have start : Sharing.Run Sharing.SymbolicAttempt MemStore.symbolicStore [[1], [2], [3], [4]]
    (.start MemStore.new) (.start MemStore.new : Sharing Bool (Term Empty) (MemStore (Term Empty))) :=
    ReflTransGen.refl
  have pushed := ((start.step (.new (i := false) rfl (.inl rfl))).step
    (.push (i := false) (n := 0) rfl (fun _ => List.mem_cons_self) rfl rfl
      ⟨_, ⟨_, _, .refl _, .refl _, rfl⟩, rfl⟩)).step
    (.push (i := false) (n := 1) rfl (fun _ => List.mem_cons_self) rfl rfl
      ⟨_, ⟨_, _, .refl _, .refl _, rfl⟩, rfl⟩)
  have committed := (((pushed.step (.commit (i := false) rfl)).step
    (.append (i := false) rfl rfl)).step (.append (i := false) rfl rfl)).step (.committed (i := false) rfl)
  have opened := committed.step (.new (i := true) rfl (.inr List.mem_cons_self))
  have more := (opened.step
    (.push (i := false) (n := 2) rfl (fun _ => List.mem_cons_self) rfl rfl
      ⟨_, ⟨_, _, .refl _, .refl _, rfl⟩, rfl⟩)).step
    (.push (i := false) (n := 3) rfl (fun _ => List.mem_cons_self) rfl rfl
      ⟨_, ⟨_, _, .refl _, .refl _, rfl⟩, rfl⟩)
  have middle := (more.step (.commit (i := false) rfl)).step (.append (i := false) rfl rfl)
  have run := middle.step (.push (i := true) (n := 2) rfl
    (fun _ => List.mem_cons_of_mem _ List.mem_cons_self) rfl rfl ⟨_, ⟨_, _, .refl _, .refl _, rfl⟩, rfl⟩)
  exact ⟨_, _, _, run, rfl, rfl, rfl, rfl, rfl, rfl, rfl, rfl⟩

/-- The user that pushed the third leaf without seeing it answers as a tree of three
    leaves does. -/
theorem clones_agree_three :
    ∃ (final : Sharing Bool (Term Empty) (MemStore (Term Empty))) (handle : Handle (Term Empty)),
      Sharing.Run Sharing.SymbolicAttempt MemStore.symbolicStore [[1], [2], [3], [4]]
        (.start MemStore.new) final ∧ final.store.entries 3 = some (.leaf [3]) ∧
      (final.users true).phase = .ready handle ∧ handle.memory_batch.length = 1 ∧
      ∃ alone, mmr.MMR.SymbolicSession (.new 0 MemStore.new) [[1], [2], [3]] [0, 1, 3] alone ∧
        mmr.MMR.SameLog (σ := Empty) (μ := Unit) .debug Term.hasher.toMerge
          (Sharing.readOps MemStore.readOps) MemStore.readOps (handle.mmr fun _ => final.store) alone := by
  obtain ⟨final, handle, _, run, hphase, hsize, hbatch, hseen, hstored, _⟩ :=
    Sharing.exists_interleaved_run
  have alone : mmr.MMR.SymbolicSession (.new 0 MemStore.new) [[1], [2], [3]] [0, 1, 3] _ :=
    ((Session.refl.push (d := [1]) ⟨_, _, .refl _, .refl _, rfl⟩).push (d := [2])
      ⟨_, _, .refl _, .refl _, rfl⟩).push (d := [3]) ⟨_, _, .refl _, .refl _, rfl⟩
  obtain ⟨_, hready⟩ := (clones_agree .debug MemStore.symbolicStore (MemStore.mapStore .debug)
    (.refl (Term.hasher.toMerge : Merge (Term Empty) Unit)) (fun _ => rfl) MemStore.new
    (fun hb => by cases hb)).1 final run
  obtain ⟨n, _, hcount, hsame⟩ := hready true handle hphase
  obtain rfl : 3 = n := nodeCount_strictMono.injective (hsize.symm.trans hcount)
  have hviews : ∀ _ : Nat, final.store ∈ (final.users true).seen := fun _ => by
    rw [hseen]
    exact List.mem_cons_self
  exact ⟨final, handle, run, hstored, hphase, hbatch, _, alone,
    hsame (fun _ => final.store) hviews _ ⟨_, alone⟩⟩

theorem MemStore.accepts (b : Profile) :
    Accepts (MemStore.writeOps b : MMRStoreWriteOps (MemStore Item) Item σ) := by
  intro store pos elems hfit
  refine ⟨{ entries := overlay pos elems store.entries }, ?_⟩
  have hrange : pos + 0 + elems.length ≤ 2 ^ 64 := by omega
  simp only [MemStore.writeOps, MemStore.insertAll_eq hrange, ok_bind, Nat.add_zero]

/-- The one user commits the leaf that it has pushed, and the other one finishes the
    commit that it is in the middle of. -/
theorem clones_durable_four :
    ∃ final later later' : Sharing Bool (Term Empty) (MemStore (Term Empty)),
      Sharing.Run Sharing.SymbolicAttempt MemStore.symbolicStore [[1], [2], [3], [4]]
        (.start MemStore.new) final ∧ final.sizes = [3] ∧
      Sharing.RunAlone Sharing.SymbolicAttempt MemStore.symbolicStore [[1], [2], [3], [4]] true
        final later ∧ 4 ∈ later.sizes ∧
      Sharing.RunAlone Sharing.SymbolicAttempt MemStore.symbolicStore [[1], [2], [3], [4]] false
        final later' ∧ 7 ∈ later'.sizes := by
  obtain ⟨final, handle, rest, run, hphase, hsize, _, _, _, hcommitting, _, hsizes⟩ :=
    Sharing.exists_interleaved_run
  obtain ⟨_, hready, hcommits⟩ := (clones_durable .debug MemStore.symbolicStore Term.hasher
    (MemStore.accepts .debug) (fun _ => rfl) (by decide)).1 final run
  obtain ⟨later, hrun, _, _, hdone⟩ := (hready true handle hphase).2
  obtain ⟨later', hrun', _, _, hdone'⟩ := hcommits false 7 rest hcommitting
  rw [hsize] at hdone
  exact ⟨final, later, later', run, hsizes, hrun, hdone, hrun', hdone'⟩

end Sharing

end merkleberg
