import Merkleberg.Fallible

open machine machine.Outcome

namespace merkleberg

/-- A session with a tree: the data whose pushes succeeded, the positions they
    returned, and the tree at the end. A push that failed leaves a tree as well,
    and settling moves what is pending without adding to it. -/
inductive Session {State ε : Type} (attempt : State → Bytes → Except ε Nat → State → Prop)
    (settle : State → State → Prop) (start : State) : List Bytes → List Nat → State → Prop where
  | refl : Session attempt settle start [] [] start
  | push {data : List Bytes} {positions : List Nat} {self next : State} {d : Bytes} {pos : Nat}
      (session : Session attempt settle start data positions self)
      (hpush : attempt self d (.ok pos) next) :
      Session attempt settle start (data ++ [d]) (positions ++ [pos]) next
  | failed {data : List Bytes} {positions : List Nat} {self next : State} {d : Bytes} {error : ε}
      (session : Session attempt settle start data positions self)
      (hpush : attempt self d (.error error) next) : Session attempt settle start data positions next
  | settle {data : List Bytes} {positions : List Nat} {self next : State}
      (session : Session attempt settle start data positions self) (hsettle : settle self next) :
      Session attempt settle start data positions next

/-- A successful commit, after which the tree may be opened again. -/
def Settle {State ε : Type} (commit : State → Outcome Empty (Except ε Unit × State))
    (reopen : State → State) (self next : State) : Prop :=
  ∃ committed, commit self = ok (.ok (), committed) ∧ (next = committed ∨ next = reopen committed)

/-- Push data one after the other, up to the first failure. -/
def pushAll {State ε : Type} (push : State → Bytes → Outcome Empty (Except ε Nat × State)) :
    State → List Bytes → Outcome Empty (Except ε (List Nat) × State)
  | self, [] => ok (.ok [], self)
  | self, d :: data => do
    match ← push self d with
    | (.ok pos, next) => do
      let (positions, final) ← pushAll push next data
      ok (positions.map (pos :: ·), final)
    | (.error error, next) => ok (.error error, next)

section Session

variable {State ε : Type} {attempt : State → Bytes → Except ε Nat → State → Prop}
  {settle : State → State → Prop} {start final : State} {data : List Bytes} {positions : List Nat}

/-- Pushes that succeed where an invariant holds, and keep it, succeed one after the other. -/
theorem pushAll_ok {push : State → Bytes → Outcome Empty (Except ε Nat × State)}
    {Inv : List Bytes → State → Prop} (Fits : Nat → Prop) (hfits : ∀ m n, m ≤ n → Fits n → Fits m)
    (hpush : ∀ {data self}, Inv data self → Fits (data.length + 1) → ∀ d, ∃ pos next,
      push self d = ok (.ok pos, next) ∧ Inv (data ++ [d]) next)
    {before : List Bytes} {self : State} (hself : Inv before self) (data : List Bytes)
    (hfit : Fits (before.length + data.length)) :
    ∃ positions final, pushAll push self data = ok (.ok positions, final) ∧ Inv (before ++ data) final := by
  induction data generalizing before self with
  | nil => exact ⟨[], self, rfl, by rwa [List.append_nil]⟩
  | cons d data ih =>
    rw [List.length_cons] at hfit
    obtain ⟨pos, next, hnext, hinv⟩ := hpush hself (hfits _ _ (by omega) hfit) d
    obtain ⟨positions, final, hrest, hfinal⟩ := ih hinv (by
      rwa [List.length_append, List.length_singleton, Nat.add_right_comm, Nat.add_assoc])
    refine ⟨pos :: positions, final, ?_, by rwa [List.append_assoc] at hfinal⟩
    simp only [pushAll, hnext, ok_bind, hrest]
    rfl

/-- What a successful commit brings about is there after settling, when opening the
    tree again gives the same tree. -/
theorem Settle.elim {commit : State → Outcome Empty (Except ε Unit × State)} {reopen : State → State}
    {self next : State} {P : State → Prop} (hsettle : Settle commit reopen self next)
    (hcommit : ∀ committed, commit self = ok (.ok (), committed) →
      P committed ∧ reopen committed = committed) : P next := by
  obtain ⟨committed, hcommitted, hnext⟩ := hsettle
  obtain ⟨hP, hreopen⟩ := hcommit committed hcommitted
  rw [hreopen, or_self] at hnext
  exact hnext ▸ hP

/-- When there is nothing to commit, settling changes nothing. -/
theorem Settle.of_unchanged {commit : State → Outcome Empty (Except ε Unit × State)}
    {reopen : State → State} {self next : State} (hsettle : Settle commit reopen self next)
    (hcommit : commit self = ok (.ok (), self)) (hreopen : reopen self = self) : next = self := by
  have hkeeps (committed : State) (hcommitted : commit self = ok (.ok (), committed)) :
      committed = self ∧ reopen committed = committed := by
    cases hcommit.symm.trans hcommitted
    exact ⟨rfl, hreopen⟩
  exact hsettle.elim hkeeps

/-- Without data a session comes to nothing, when settling the start does. -/
theorem Session.of_no_data (session : Session attempt settle start data positions final)
    (hfailed : ∀ {self d error next}, attempt self d (.error error) next → next = self)
    (hsettle : ∀ next, settle start next → next = start) (hnil : data = []) :
    positions = [] ∧ final = start := by
  induction session with
  | refl => exact ⟨rfl, rfl⟩
  | push session hpush ih => simp at hnil
  | failed session hpush ih =>
    obtain ⟨hpositions, rfl⟩ := ih hnil
    exact ⟨hpositions, hfailed hpush⟩
  | settle session hnext ih =>
    obtain ⟨hpositions, rfl⟩ := ih hnil
    exact ⟨hpositions, hsettle _ hnext⟩

/-- The data of a session were pushed. -/
theorem Session.exists_push (session : Session attempt settle start data positions final)
    (hne : data ≠ []) : ∃ self d pos next, attempt self d (.ok pos) next := by
  induction session with
  | refl => exact absurd rfl hne
  | push session hpush ih => exact ⟨_, _, _, _, hpush⟩
  | failed session hpush ih => exact ih hne
  | settle session hnext ih => exact ih hne

/-- Whoever has pushed something has an item. -/
theorem Session.nonempty {Item : Type} (session : Session attempt settle start data positions final)
    (hattempt : ∀ {self d pos next}, attempt self d (.ok pos) next → Nonempty Item)
    (hne : data ≠ []) : Nonempty Item := by
  obtain ⟨_, _, _, _, hpush⟩ := session.exists_push hne
  exact hattempt hpush

/-- What pushes that succeed extend by their data, and what settling keeps, is there
    after every session, and each push has returned the place of its datum. -/
theorem Session.extends {Inv : List Bytes → State → Prop} {place : Nat → Nat} (Fits : Nat → Prop)
    (hfits : ∀ n, Fits (n + 1) → Fits n)
    (hpush : ∀ {data self d pos next}, Inv data self → Fits (data.length + 1) →
      attempt self d (.ok pos) next → pos = place data.length ∧ Inv (data ++ [d]) next)
    (hfailed : ∀ {self d error next}, attempt self d (.error error) next → next = self)
    (hsettle : ∀ {data self next}, Inv data self → settle self next → Inv data next)
    {before : List Bytes} (hstart : Inv before start)
    (session : Session attempt settle start data positions final)
    (hfit : Fits (before.length + data.length)) :
    Inv (before ++ data) final ∧
      positions = (List.range' before.length data.length).map place := by
  induction session with
  | refl => exact ⟨by rwa [List.append_nil], rfl⟩
  | @push data positions self next d pos session hattempt ih =>
    rw [List.length_append, List.length_singleton] at hfit
    obtain ⟨hself, hpositions⟩ := ih (hfits _ hfit)
    obtain ⟨rfl, hnext⟩ := hpush hself (by rwa [List.length_append]) hattempt
    rw [List.append_assoc] at hnext
    refine ⟨hnext, ?_⟩
    rw [hpositions, List.length_append, List.length_append, List.length_singleton, List.range'_1_concat,
      List.map_append, List.map_singleton]
  | failed session hattempt ih =>
    obtain rfl := hfailed hattempt
    exact ih hfit
  | settle session hnext ih =>
    obtain ⟨hself, hpositions⟩ := ih hfit
    exact ⟨hsettle hself hnext, hpositions⟩

/-- A session had pushed each of the first parts of its data at some point. -/
theorem Session.exists_prefix (session : Session attempt settle start data positions final) {m : Nat}
    (hm : m ≤ data.length) :
    ∃ before after mid, Session attempt settle start (data.take m) before mid ∧
      Session attempt settle mid (data.drop m) after final := by
  induction session with
  | refl =>
    obtain rfl := Nat.le_zero.mp hm
    exact ⟨_, _, _, .refl, .refl⟩
  | @push data positions self next d pos session hpush ih =>
    rw [List.length_append, List.length_singleton] at hm
    rcases Nat.lt_or_eq_of_le hm with hlt | rfl
    · obtain ⟨before, after, mid, hbefore, hafter⟩ := ih (Nat.le_of_lt_succ hlt)
      refine ⟨before, after ++ [pos], mid, ?_, ?_⟩
      · rwa [List.take_append_of_le_length (Nat.le_of_lt_succ hlt)]
      · rw [List.drop_append_of_le_length (Nat.le_of_lt_succ hlt)]
        exact hafter.push hpush
    · have hall : (data ++ [d]).length ≤ data.length + 1 := by simp
      refine ⟨positions ++ [pos], [], next, ?_, ?_⟩
      · rw [List.take_of_length_le hall]
        exact session.push hpush
      · rw [List.drop_of_length_le hall]
        exact .refl
  | failed session hpush ih =>
    obtain ⟨before, after, mid, hbefore, hafter⟩ := ih hm
    exact ⟨before, after, mid, hbefore, hafter.failed hpush⟩
  | settle session hsettle ih =>
    obtain ⟨before, after, mid, hbefore, hafter⟩ := ih hm
    exact ⟨before, after, mid, hbefore, hafter.settle hsettle⟩

end Session

variable {Item Store σ μ : Type}

namespace mmr

/-- A push attempt: its merges and its reads may fail where `M` and `R` do not. -/
def MMR.Attempt (b : Profile) (M : Merge Item μ) (R : MMRStoreReadOps Store Item σ)
    (self : MMR Item Store) (d : Bytes) (result : Except (Error σ μ) Nat) (next : MMR Item Store) :
    Prop :=
  ∃ M' R', M'.Within M ∧ R'.Within R ∧ self.push b M' R' d = ok (result, next)

def MMR.Settle (σ μ : Type) (W : MMRStoreWriteOps Store Item σ) : MMR Item Store → MMR Item Store → Prop :=
  merkleberg.Settle (fun self => (self.commit W : Outcome Empty (Except (Error σ μ) Unit × _)))
    fun committed => .new committed.mmr_size committed.batch.store

abbrev MMR.Session (b : Profile) (M : Merge Item μ) (R : MMRStoreReadOps Store Item σ)
    (W : MMRStoreWriteOps Store Item σ) (start : MMR Item Store) :
    List Bytes → List Nat → MMR Item Store → Prop :=
  merkleberg.Session (MMR.Attempt b M R) (MMR.Settle σ μ W) start

section Attempt

variable {b : Profile} {M : Merge Item μ} {R : MMRStoreReadOps Store Item σ} {d : Bytes}
  {self next : MMR Item Store}

theorem MMR.Attempt.unchanged {error : Error σ μ} (hattempt : MMR.Attempt b M R self d (.error error) next) :
    next = self := by
  obtain ⟨M', R', _, _, hpush⟩ := hattempt
  exact (push_eq_error_iff.mp hpush).2

/-- Whoever has pushed something has an item. -/
theorem MMR.Attempt.nonempty {pos : Nat} (hattempt : MMR.Attempt b M R self d (.ok pos) next) :
    Nonempty Item := by
  obtain ⟨M', R', _, _, hpush⟩ := hattempt
  obtain ⟨last, elems, mmr_size, hmerged, _⟩ := push_eq_ok_iff.mp hpush
  obtain ⟨elem, _⟩ := bind_eq_ok_iff.mp hmerged
  exact ⟨elem⟩

end Attempt

end mmr

namespace mmriver

/-- A push attempt: its merges and its reads may fail where `M` and `R` do not. -/
def MMRIVER.Attempt (b : Profile) (M : Merge Item μ) (R : MMRStoreReadOps Store Item σ)
    (self : MMRIVER Item Store) (d : Bytes) (result : Except (Error σ μ) Nat)
    (next : MMRIVER Item Store) : Prop :=
  ∃ M' R', M'.Within M ∧ R'.Within R ∧ self.push b M' R' d = ok (result, next)

def MMRIVER.Settle (σ μ : Type) (W : MMRStoreWriteOps Store Item σ) :
    MMRIVER Item Store → MMRIVER Item Store → Prop :=
  merkleberg.Settle (fun self => (self.commit W : Outcome Empty (Except (Error σ μ) Unit × _)))
    fun committed => .new committed.mmr_size committed.batch.store

abbrev MMRIVER.Session (b : Profile) (M : Merge Item μ) (R : MMRStoreReadOps Store Item σ)
    (W : MMRStoreWriteOps Store Item σ) (start : MMRIVER Item Store) :
    List Bytes → List Nat → MMRIVER Item Store → Prop :=
  merkleberg.Session (MMRIVER.Attempt b M R) (MMRIVER.Settle σ μ W) start

section Attempt

variable {b : Profile} {M : Merge Item μ} {R : MMRStoreReadOps Store Item σ} {d : Bytes}
  {self next : MMRIVER Item Store}

theorem MMRIVER.Attempt.unchanged {error : Error σ μ}
    (hattempt : MMRIVER.Attempt b M R self d (.error error) next) : next = self := by
  obtain ⟨M', R', _, _, hpush⟩ := hattempt
  exact (push_eq_error_iff.mp hpush).2

/-- Whoever has pushed something has an item. -/
theorem MMRIVER.Attempt.nonempty {pos : Nat} (hattempt : MMRIVER.Attempt b M R self d (.ok pos) next) :
    Nonempty Item := by
  obtain ⟨M', R', _, _, hpush⟩ := hattempt
  obtain ⟨i, elems, hmerged, _⟩ := push_eq_ok_iff.mp hpush
  obtain ⟨elem, _⟩ := bind_eq_ok_iff.mp hmerged
  exact ⟨elem⟩

end Attempt

end mmriver

end merkleberg
