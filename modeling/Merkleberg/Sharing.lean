import Merkleberg.Machine.SharedLog
import Merkleberg.Pending
import Merkleberg.Store.Default

open machine machine.Outcome
open forest
open Relation

namespace merkleberg

variable {ι Item Store σ μ : Type} {b : Profile}
  {R : MMRStoreReadOps Store Item σ} {W : MMRStoreWriteOps Store Item σ}

/-- What a tree owns itself when its store is a clone of a shared one. -/
structure Handle (Item : Type) where
  mmr_size : Nat
  memory_batch : List (Nat × List Item)

namespace Handle

/-- The tree of a handle over what it sees of the shared storage. -/
def mmr (self : Handle Item) (store : Store) : mmr.MMR Item Store :=
  { mmr_size := self.mmr_size, batch := { memory_batch := self.memory_batch, store } }

def mmriver (self : Handle Item) (store : Store) : mmriver.MMRIVER Item Store :=
  { mmr_size := self.mmr_size, batch := { memory_batch := self.memory_batch, store } }

end Handle

/-- Where a user of the shared storage stands: it has no tree, its tree is between
    two calls, or its commit still has entries to append. -/
inductive Phase (Item : Type) where
  | closed
  | ready (handle : Handle Item)
  | committing (mmr_size : Nat) (rest : List (Nat × List Item))

/-- A user, with the states the storage went through since the user's last step.
    Each read of its next call sees one of them. -/
structure User (Item Store : Type) where
  phase : Phase Item
  seen : List Store

/-- Users over clones of one store, and the sizes of the commits that returned. -/
structure Sharing (ι Item Store : Type) where
  store : Store
  users : ι → User Item Store
  sizes : List Nat

namespace Sharing

/-- Nobody has a tree, and no commit has returned. -/
def start (store : Store) : Sharing ι Item Store where
  store
  users _ := { phase := .closed, seen := [store] }
  sizes := []

/-- A user takes a step. -/
def setUser [DecidableEq ι] (self : Sharing ι Item Store) (i : ι) (phase : Phase Item) :
    Sharing ι Item Store :=
  { self with users := Function.update self.users i { phase, seen := [self.store] } }

@[simp] theorem setUser_phase [DecidableEq ι] (self : Sharing ι Item Store) (i : ι) (phase : Phase Item) :
    ((self.setUser i phase).users i).phase = phase := by
  simp only [setUser, Function.update_self]

/-- The storage changes, and every user may see that. -/
def setStore (self : Sharing ι Item Store) (store : Store) : Sharing ι Item Store :=
  { self with
    store
    users := fun i => { self.users i with seen := store :: (self.users i).seen } }

/-- Reads of a tree whose store is shared: each position is read from the state of
    the storage that it meets. -/
def readOps (R : MMRStoreReadOps Store Item σ) : MMRStoreReadOps (Nat → Store) Item σ :=
  .ofGetElem fun views pos => R.get_elem (views pos) pos

/-- A call of user `i`. Every call on the storage is a step of its own, so a commit
    can be interrupted after each entry it appends. All the users push the data of
    one log: the datum at the leaf index their tree has reached. -/
inductive Step [DecidableEq ι] {ε : Type}
    (attempt : (Nat → Store) → Handle Item → Bytes → Except ε Nat → Handle Item → Prop)
    (S : MapStore R W) (log : List Bytes) (i : ι) : Sharing ι Item Store → Sharing ι Item Store → Prop where
  /-- Open a tree, at the size of some commit that returned or from nothing. -/
  | new {self : Sharing ι Item Store} {mmr_size : Nat}
      (hclosed : (self.users i).phase = .closed) (hsize : mmr_size = 0 ∨ mmr_size ∈ self.sizes) :
      Step attempt S log i self (self.setUser i (.ready { mmr_size, memory_batch := [] }))
  | push {self : Sharing ι Item Store} {handle next : Handle Item} {views : Nat → Store}
      {n pos : Nat} {d : Bytes} (hready : (self.users i).phase = .ready handle)
      (hviews : ∀ p, views p ∈ (self.users i).seen) (hsize : handle.mmr_size = nodeCount n)
      (hlog : log[n]? = some d) (hpush : attempt views handle d (.ok pos) next) :
      Step attempt S log i self (self.setUser i (.ready next))
  | push_fails {self : Sharing ι Item Store} {handle next : Handle Item} {views : Nat → Store}
      {d : Bytes} {error : ε} (hready : (self.users i).phase = .ready handle)
      (hviews : ∀ p, views p ∈ (self.users i).seen) (hpush : attempt views handle d (.error error) next) :
      Step attempt S log i self (self.setUser i (.ready next))
  | commit {self : Sharing ι Item Store} {handle : Handle Item}
      (hready : (self.users i).phase = .ready handle) :
      Step attempt S log i self (self.setUser i (.committing handle.mmr_size handle.memory_batch))
  | append {self : Sharing ι Item Store} {mmr_size pos : Nat} {elems : List Item}
      {rest : List (Nat × List Item)} {store : Store}
      (hcommitting : (self.users i).phase = .committing mmr_size ((pos, elems) :: rest))
      (happend : W.append self.store pos elems = ok (.ok (), store)) :
      Step attempt S log i self ((self.setStore store).setUser i (.committing mmr_size rest))
  /-- The commit returns, and its size may be handed on. -/
  | committed {self : Sharing ι Item Store} {mmr_size : Nat}
      (hcommitting : (self.users i).phase = .committing mmr_size []) :
      Step attempt S log i self
        { self.setUser i (.ready { mmr_size, memory_batch := [] }) with sizes := mmr_size :: self.sizes }
  /-- An entry is refused. The commit gives up what it still had, so its user gives up the tree. -/
  | append_fails {self : Sharing ι Item Store} {mmr_size pos : Nat} {elems : List Item}
      {rest : List (Nat × List Item)} {error : σ} {store : Store}
      (hcommitting : (self.users i).phase = .committing mmr_size ((pos, elems) :: rest))
      (happend : W.append self.store pos elems = ok (.error error, store))
      (hunchanged : S.contents store = S.contents self.store) :
      Step attempt S log i self ((self.setStore store).setUser i .closed)
  /-- A user goes away at any time, in the middle of a commit as well. -/
  | close {self : Sharing ι Item Store} : Step attempt S log i self (self.setUser i .closed)

/-- Calls of one user, while the others do nothing. -/
def RunAlone [DecidableEq ι] {ε : Type}
    (attempt : (Nat → Store) → Handle Item → Bytes → Except ε Nat → Handle Item → Prop)
    (S : MapStore R W) (log : List Bytes) (i : ι) :
    Sharing ι Item Store → Sharing ι Item Store → Prop :=
  ReflTransGen (Step attempt S log i)

/-- Calls of any users in any order. -/
def Run [DecidableEq ι] {ε : Type}
    (attempt : (Nat → Store) → Handle Item → Bytes → Except ε Nat → Handle Item → Prop)
    (S : MapStore R W) (log : List Bytes) : Sharing ι Item Store → Sharing ι Item Store → Prop :=
  ReflTransGen fun self next => ∃ i, Step attempt S log i self next

theorem Run.step [DecidableEq ι] {ε : Type}
    {attempt : (Nat → Store) → Handle Item → Bytes → Except ε Nat → Handle Item → Prop}
    {S : MapStore R W} {log : List Bytes} {self middle final : Sharing ι Item Store} {i : ι}
    (run : Run attempt S log self middle) (hstep : Step attempt S log i middle final) :
    Run attempt S log self final :=
  ReflTransGen.tail run ⟨i, hstep⟩

/-- Nobody writes through a view of the storage. -/
def writeOps (Store Item σ : Type) : MMRStoreWriteOps (Nat → Store) Item σ where
  append _ _ _ := panic

/-- What a user reads at each position is what the state it meets has there. -/
def mapStore (S : MapStore R W) : MapStore (readOps R) (writeOps Store Item σ) where
  contents views pos := S.contents (views pos) pos
  get_elem views pos := S.get_elem (views pos) pos
  get_elems := MMRStoreReadOps.ofGetElem_get_elems fun views pos => S.get_elem (views pos) pos
  append := by
    intro _ _ _ _ happend _
    cases happend

/-- What sharing asks of the calls of a tree: a push that succeeds on the forest
    over `n` leaves adds the entry of the next one, up to the sizes that fit, and one
    that fails changes nothing. -/
structure Builds {ε : Type}
    (attempt : (Nat → Store) → Handle Item → Bytes → Except ε Nat → Handle Item → Prop)
    (S : MapStore R W) (value : Nat → Item) (Fits : Nat → Prop) (log : List Bytes) : Prop where
  fits_zero : Fits 0
  fits_of_le : ∀ {m n}, m ≤ n → Fits n → Fits m
  lt_of_fits : ∀ {n}, Fits n → nodeCount n < 2 ^ 64
  push : ∀ {views under} {handle next : Handle Item} {n pos d},
    HoldsForest (mapStore S) under value n handle.mmr_size
      { memory_batch := handle.memory_batch, store := views } → Fits n → log[n]? = some d →
    attempt views handle d (.ok pos) next → Fits (n + 1) ∧
      next = { mmr_size := nodeCount (n + 1)
               memory_batch := handle.memory_batch ++
                 [(nodeCount n, spine value n (trailingZeros (n + 1)))] }
  push_fails : ∀ {views} {handle next : Handle Item} {d error},
    attempt views handle d (.error error) next → next = handle

/-- A tree of a user against the user's place in the shared log. -/
inductive PhaseRefines (value : Nat → Item) (Fits : Nat → Prop) : Phase Item → Option Cursor → Prop where
  | closed : PhaseRefines value Fits .closed none
  | ready (user : Cursor) (hfits : Fits user.length) :
      PhaseRefines value Fits
        (.ready { mmr_size := nodeCount user.length
                  memory_batch := leafRuns value user.stored user.length }) (some user)
  | committing (user : Cursor) (hfits : Fits user.length) :
      PhaseRefines value Fits
        (.committing (nodeCount user.length) (leafRuns value user.stored user.length)) (some user)

/-- The users and their storage behave as a shared log: the storage has exactly the
    forest over the stored entries, never a part of a leaf's entry, and what each
    user sees has the entries that it counts on. -/
structure Refines (S : MapStore R W) (value : Nat → Item) (Fits : Nat → Prop)
    (sharing : Sharing ι Item Store) (log : SharedLog ι) : Prop where
  store : S.contents sharing.store = forestContents value log.stored
  sizes : sharing.sizes = log.announced.map nodeCount
  phase : ∀ i, PhaseRefines value Fits (sharing.users i).phase (log.cursor i)
  seen : ∀ i user, log.cursor i = some user → ∀ store ∈ (sharing.users i).seen,
    ∃ n, user.stored ≤ n ∧ S.contents store = forestContents value n
  fits : Fits log.stored
  announced_fits : ∀ n ∈ log.announced, Fits n

section Refines

variable {S : MapStore R W} {value : Nat → Item} {Fits : Nat → Prop} {self : Sharing ι Item Store}
  {log : SharedLog ι}

theorem Refines.start {store : Store} (hzero : Fits 0) (hempty : ∀ p, S.contents store p = none) :
    Refines S value Fits (Sharing.start store : Sharing ι Item Store) SharedLog.empty where
  store := by
    funext p
    rw [forestContents, SharedLog.empty, nodeCount_zero, if_neg (Nat.not_lt_zero p)]
    exact hempty p
  sizes := rfl
  phase _ := .closed
  seen _ _ huser := by cases huser
  fits := hzero
  announced_fits _ hn := by cases hn

theorem Refines.ready (h : Refines S value Fits self log) {i : ι} {handle : Handle Item}
    (hready : (self.users i).phase = .ready handle) :
    ∃ user, log.cursor i = some user ∧ Fits user.length ∧
      handle = { mmr_size := nodeCount user.length
                 memory_batch := leafRuns value user.stored user.length } := by
  have hphase := h.phase i
  rw [hready] at hphase
  cases hcursor : log.cursor i with
  | none => rw [hcursor] at hphase; cases hphase
  | some user =>
    rw [hcursor] at hphase
    cases hphase with
    | ready _ hfits => exact ⟨user, rfl, hfits, rfl⟩

theorem Refines.committing (h : Refines S value Fits self log) {i : ι} {mmr_size : Nat}
    {rest : List (Nat × List Item)} (hcommitting : (self.users i).phase = .committing mmr_size rest) :
    ∃ user, log.cursor i = some user ∧ Fits user.length ∧ mmr_size = nodeCount user.length ∧
      rest = leafRuns value user.stored user.length := by
  have hphase := h.phase i
  rw [hcommitting] at hphase
  cases hcursor : log.cursor i with
  | none => rw [hcursor] at hphase; cases hphase
  | some user =>
    rw [hcursor] at hphase
    cases hphase with
    | committing _ hfits => exact ⟨user, rfl, hfits, rfl, rfl⟩

/-- The tree of a user holds the forest of its log, in whatever it sees. -/
theorem Refines.holds (hlt : ∀ {n}, Fits n → nodeCount n < 2 ^ 64) (h : Refines S value Fits self log)
    {i : ι} {handle : Handle Item} (hready : (self.users i).phase = .ready handle)
    {views : Nat → Store} (hviews : ∀ p, views p ∈ (self.users i).seen) :
    ∃ user, log.cursor i = some user ∧ Fits user.length ∧
      handle = { mmr_size := nodeCount user.length
                 memory_batch := leafRuns value user.stored user.length } ∧
      HoldsForest (mapStore S) ((mapStore S).contents views) value user.length handle.mmr_size
        { memory_batch := handle.memory_batch, store := views } := by
  obtain ⟨user, huser, hfits, rfl⟩ := h.ready hready
  refine ⟨user, huser, hfits, rfl, HoldsForest.of_leafRuns user.stored_le (hlt hfits) fun p hp => ?_⟩
  obtain ⟨n, hle, hcontents⟩ := h.seen i user huser (views p) (hviews p)
  have hcount := nodeCount_le_nodeCount_iff.mpr hle
  simp only [mapStore, hcontents, forestContents]
  rw [if_pos (by omega)]

/-- A call on the storage that changes nothing there. -/
theorem Refines.setStore (h : Refines S value Fits self log) {store : Store}
    (hunchanged : S.contents store = S.contents self.store) :
    Refines S value Fits (self.setStore store) log where
  store := hunchanged.trans h.store
  sizes := h.sizes
  phase := h.phase
  seen i user huser seen hseen := by
    rcases List.mem_cons.mp hseen with rfl | hseen
    · exact ⟨log.stored, log.cursor_le i user huser, hunchanged.trans h.store⟩
    · exact h.seen i user huser seen hseen
  fits := h.fits
  announced_fits := h.announced_fits

theorem Refines.announce (h : Refines S value Fits self log) {i : ι} {user : Cursor}
    (huser : log.cursor i = some user) (hall : user.stored = user.length) (hfits : Fits user.length) :
    Refines S value Fits { self with sizes := nodeCount user.length :: self.sizes }
      (log.announce huser hall) where
  store := h.store
  sizes := by rw [h.sizes]; rfl
  phase := h.phase
  seen := h.seen
  fits := h.fits
  announced_fits n hn := by
    rcases List.mem_cons.mp hn with rfl | hn
    · exact hfits
    · exact h.announced_fits n hn

variable [DecidableEq ι]

/-- A step of one user that leaves the storage alone. -/
theorem Refines.setUser (h : Refines S value Fits self log) (i : ι) {phase : Phase Item}
    {user : Option Cursor} (hphase : PhaseRefines value Fits phase user)
    (hle : ∀ known, user = some known → known.stored ≤ log.stored) :
    Refines S value Fits (self.setUser i phase) (log.setCursor i user hle) where
  store := h.store
  sizes := h.sizes
  phase j := by
    by_cases hj : j = i
    · subst hj
      simpa only [Sharing.setUser, SharedLog.setCursor, Function.update_self] using hphase
    · simpa only [Sharing.setUser, SharedLog.setCursor, Function.update_of_ne hj] using h.phase j
  seen j known hknown store hstore := by
    by_cases hj : j = i
    · subst hj
      simp only [Sharing.setUser, SharedLog.setCursor, Function.update_self] at hknown hstore
      rw [List.mem_singleton.mp hstore]
      exact ⟨log.stored, hle known hknown, h.store⟩
    · simp only [Sharing.setUser, SharedLog.setCursor, Function.update_of_ne hj] at hknown hstore
      exact h.seen j known hknown store hstore
  fits := h.fits
  announced_fits := h.announced_fits

/-- A user appends its next entry. What the others count on stays there. -/
theorem Refines.write (h : Refines S value Fits self log) {i : ι} {user : Cursor}
    (huser : log.cursor i = some user) (hlt : user.stored < user.length) {store : Store}
    (hcontents : S.contents store = forestContents value (max log.stored (user.stored + 1)))
    (hfits : Fits user.length) (hstored : Fits (max log.stored (user.stored + 1))) :
    Refines S value Fits
      ((self.setStore store).setUser i (.committing (nodeCount user.length)
        (leafRuns value (user.stored + 1) user.length))) (log.write i user hlt) where
  store := hcontents
  sizes := h.sizes
  phase j := by
    by_cases hj : j = i
    · subst hj
      simp only [Sharing.setUser, SharedLog.write, Function.update_self]
      exact .committing (user.write hlt) hfits
    · simp only [Sharing.setUser, SharedLog.write, Function.update_of_ne hj]
      exact h.phase j
  seen j known hknown seen hseen := by
    by_cases hj : j = i
    · subst hj
      simp only [Sharing.setUser, SharedLog.write, Function.update_self, Option.some.injEq] at hknown hseen
      rw [List.mem_singleton.mp hseen, ← hknown]
      exact ⟨_, le_max_right _ _, hcontents⟩
    · simp only [Sharing.setUser, SharedLog.write, Function.update_of_ne hj] at hknown hseen
      rcases List.mem_cons.mp hseen with rfl | hseen
      · exact ⟨_, (log.cursor_le j known hknown).trans (le_max_left _ _), hcontents⟩
      · exact h.seen j known hknown seen hseen
  fits := hstored
  announced_fits := h.announced_fits

/-- A user whose place in the log is still the same. -/
theorem Refines.stay (h : Refines S value Fits self log) {i : ι} {user : Cursor}
    (huser : log.cursor i = some user) {phase : Phase Item}
    (hphase : PhaseRefines value Fits phase (some user)) :
    Refines S value Fits (self.setUser i phase) log := by
  have hsame := h.setUser i hphase (by rintro _ ⟨⟩; exact log.cursor_le i user huser)
  rwa [log.setCursor_self huser] at hsame

/-- Every step of the users is one of the shared log, or none. -/
theorem Refines.step {ε : Type}
    {attempt : (Nat → Store) → Handle Item → Bytes → Except ε Nat → Handle Item → Prop}
    {data : List Bytes} (hbuilds : Builds attempt S value Fits data) {next : Sharing ι Item Store}
    (h : Refines S value Fits self log) {i : ι} (hstep : Step attempt S data i self next) :
    ∃ log', ReflTransGen SharedLog.Step log log' ∧ Refines S value Fits next log' := by
  cases hstep with
  | @new mmr_size hclosed hsize =>
    obtain ⟨n, hcount, hn⟩ : ∃ n, mmr_size = nodeCount n ∧ (n = 0 ∨ n ∈ log.announced) := by
      rcases hsize with rfl | hsize
      · exact ⟨0, nodeCount_zero.symm, Or.inl rfl⟩
      · rw [h.sizes] at hsize
        obtain ⟨n, hn, hcount⟩ := List.mem_map.mp hsize
        exact ⟨n, hcount.symm, Or.inr hn⟩
    have hfits : Fits n := by
      rcases hn with rfl | hn
      · exact hbuilds.fits_zero
      · exact h.announced_fits n hn
    have hphase : PhaseRefines value Fits _ (some (.found n)) := .ready (.found n) hfits
    simp only [Cursor.found, leafRuns_self, ← hcount] at hphase
    exact ⟨_, .single (.enter _ hn), h.setUser _ hphase _⟩
  | push hready hviews hsize hlog hpush =>
    obtain ⟨user, huser, hfits, rfl, hholds⟩ := h.holds hbuilds.lt_of_fits hready hviews
    obtain rfl := nodeCount_strictMono.injective hsize
    obtain ⟨hnext, rfl⟩ := hbuilds.push hholds hfits hlog hpush
    rw [← leafRuns_succ user.stored_le]
    exact ⟨_, .single (.push huser), h.setUser _ (.ready user.push hnext) _⟩
  | push_fails hready hviews hpush =>
    obtain ⟨user, huser, hfits, rfl, _⟩ := h.holds hbuilds.lt_of_fits hready hviews
    rw [hbuilds.push_fails hpush]
    exact ⟨log, .refl, h.stay huser (.ready user hfits)⟩
  | commit hready =>
    obtain ⟨user, huser, hfits, rfl⟩ := h.ready hready
    exact ⟨log, .refl, h.stay huser (.committing user hfits)⟩
  | append hcommitting happend =>
    obtain ⟨user, huser, hfits, hsize, hbatch⟩ := h.committing hcommitting
    have hlt : user.stored < user.length := by
      refine lt_of_le_of_ne user.stored_le fun hall => ?_
      rw [hall, leafRuns_self] at hbatch
      cases hbatch
    rw [leafRuns_of_lt hlt, List.cons.injEq, Prod.mk.injEq] at hbatch
    obtain ⟨⟨rfl, rfl⟩, rfl⟩ := hbatch
    have hword : nodeCount (user.stored + 1) < 2 ^ 64 :=
      hbuilds.lt_of_fits (hbuilds.fits_of_le hlt hfits)
    have hcount := nodeCount_succ user.stored
    have hcontents := S.append happend (by rw [spine_length]; omega)
    rw [h.store, overlay_forestContents value (log.cursor_le _ user huser)] at hcontents
    have hstored : Fits (max log.stored (user.stored + 1)) := by
      rcases max_choice log.stored (user.stored + 1) with hmax | hmax <;> rw [hmax]
      · exact h.fits
      · exact hbuilds.fits_of_le hlt hfits
    rw [hsize]
    exact ⟨_, .single (.write huser hlt), h.write huser hlt hcontents hfits hstored⟩
  | committed hcommitting =>
    obtain ⟨user, huser, hfits, rfl, hbatch⟩ := h.committing hcommitting
    have hall : user.stored = user.length := (leafRuns_eq_nil_iff user.stored_le).mp hbatch.symm
    have hphase : PhaseRefines value Fits _ (some user) := .ready user hfits
    rw [hall, leafRuns_self] at hphase
    exact ⟨_, .single (.announce huser hall), (h.stay huser hphase).announce huser hall hfits⟩
  | append_fails hcommitting happend hunchanged =>
    exact ⟨_, .single (.leave _), (h.setStore hunchanged).setUser _ .closed _⟩
  | close => exact ⟨_, .single (.leave i), h.setUser i .closed _⟩

end Refines

end Sharing

end merkleberg
