import Mathlib.Logic.Basic

namespace machine

/-- What a call of a fallible function comes to: a value, a returned error, a
    panic, or a loop that never ends. The source's `Result<T, E>` uses the
    first two; the last two are what totality results exclude. -/
inductive Outcome (ε α : Type) where
  | ok (value : α)
  | err (error : ε)
  | panic
  | div

namespace Outcome

variable {ε ε' α β γ : Type}

/-- Sequencing stops at the first outcome that is not a value. -/
def bind (x : Outcome ε α) (f : α → Outcome ε β) : Outcome ε β :=
  match x with
  | ok value => f value
  | err error => err error
  | panic => panic
  | div => div

instance : Monad (Outcome ε) where
  pure := ok
  bind := bind

@[simp] theorem pure_eq (value : α) : (pure value : Outcome ε α) = ok value := rfl
@[simp] theorem ok_bind (value : α) (f : α → Outcome ε β) : (ok value >>= f) = f value := rfl
@[simp] theorem err_bind (error : ε) (f : α → Outcome ε β) : (err error >>= f) = err error := rfl
@[simp] theorem panic_bind (f : α → Outcome ε β) : (panic >>= f) = panic := rfl
@[simp] theorem div_bind (f : α → Outcome ε β) : (div >>= f) = div := rfl

instance : LawfulMonad (Outcome ε) := LawfulMonad.mk' _
  (by intro α x; cases x <;> rfl)
  (by intro α β value f; rfl)
  (by intro α β γ x f g; cases x <;> rfl)

@[simp] theorem map_ok (f : α → β) (value : α) : f <$> (ok value : Outcome ε α) = ok (f value) := rfl
@[simp] theorem map_err (f : α → β) (error : ε) : f <$> (err error : Outcome ε α) = err error := rfl
@[simp] theorem map_panic (f : α → β) : f <$> (panic : Outcome ε α) = panic := rfl
@[simp] theorem map_div (f : α → β) : f <$> (div : Outcome ε α) = div := rfl

/-- A sequence returns exactly when its first part returns and the rest does. -/
theorem bind_eq_ok_iff {x : Outcome ε α} {f : α → Outcome ε β} {result : β} :
    (x >>= f) = ok result ↔ ∃ value, x = ok value ∧ f value = ok result := by
  cases x <;> simp

theorem map_eq_ok_iff {x : Outcome ε α} {f : α → β} {result : β} :
    f <$> x = ok result ↔ ∃ value, x = ok value ∧ f value = result := by
  cases x <;> simp

/-- Only the rests behind a value of the first part matter. -/
theorem bind_congr_of_ok {x : Outcome ε α} {f g : α → Outcome ε β}
    (hrest : ∀ value, x = ok value → f value = g value) : (x >>= f) = (x >>= g) := by
  cases x with
  | ok value => exact hrest value rfl
  | err error => rfl
  | panic => rfl
  | div => rfl

/-- Two sequences are related when the values of their first parts and their
    rests are. -/
theorem map_bind_map_congr {δ : Type} {x : Outcome ε α} {h : α → δ} {f : α → Outcome ε β}
    {f' : δ → Outcome ε γ} {g : β → γ} (hrest : ∀ value, f' (h value) = g <$> f value) :
    (h <$> x >>= f') = g <$> (x >>= f) := by
  cases x with
  | ok value => exact hrest value
  | err error => rfl
  | panic => rfl
  | div => rfl

theorem bind_map_congr {x : Outcome ε α} {f : α → Outcome ε β} {f' : α → Outcome ε γ} {g : β → γ}
    (hrest : ∀ value, f' value = g <$> f value) : (x >>= f') = g <$> (x >>= f) := by
  have hmap := map_bind_map_congr (x := x) (h := id) hrest
  rwa [id_map] at hmap

/-- `map_err`: translate a returned error, leaving every other outcome alone. -/
def mapErr (f : ε → ε') : Outcome ε α → Outcome ε' α
  | ok value => ok value
  | err error => err (f error)
  | panic => panic
  | div => div

@[simp] theorem mapErr_ok (f : ε → ε') (value : α) : (ok value).mapErr f = ok value := rfl
@[simp] theorem mapErr_err (f : ε → ε') (error : ε) :
    (err error : Outcome ε α).mapErr f = err (f error) := rfl

theorem mapErr_eq_ok_iff {f : ε → ε'} {x : Outcome ε α} {value : α} :
    x.mapErr f = ok value ↔ x = ok value := by
  cases x <;> simp [mapErr]

/-- `ok_or`: a missing value is the given error. -/
def okOr (error : ε) : Option α → Outcome ε α
  | some value => ok value
  | none => err error

@[simp] theorem okOr_some (error : ε) (value : α) : okOr error (some value) = ok value := rfl
@[simp] theorem okOr_none (error : ε) : okOr error (none : Option α) = err error := rfl

theorem okOr_eq_ok_iff {error : ε} {found : Option α} {value : α} :
    okOr error found = ok value ↔ found = some value := by
  cases found <;> simp

/-- When nothing is missing, all the values are there. -/
theorem mapM_okOr_some (error : ε) (f : α → β) (xs : List α) :
    (xs.map fun x => some (f x)).mapM (okOr error) = ok (xs.map f) := by
  induction xs with
  | nil => rfl
  | cons x xs ih => simp [ih]

theorem mapM_eq_ok_iff {f : α → Outcome ε β} {g : α → β} {xs : List α} :
    xs.mapM f = ok (xs.map g) ↔ ∀ x ∈ xs, f x = ok (g x) := by
  induction xs with
  | nil => simp
  | cons x xs ih =>
    rw [List.mapM_cons, List.map_cons, List.forall_mem_cons, ← ih, bind_eq_ok_iff]
    constructor
    · rintro ⟨y, hx, hrest⟩
      obtain ⟨ys, hxs, hcons⟩ := bind_eq_ok_iff.mp hrest
      rw [pure_eq, ok.injEq, List.cons.injEq] at hcons
      obtain ⟨rfl, rfl⟩ := hcons
      exact ⟨hx, hxs⟩
    · rintro ⟨hx, hxs⟩
      exact ⟨g x, hx, by rw [hxs, ok_bind, pure_eq]⟩

theorem mapM_eq_ok {f : α → Outcome ε β} {g : α → β} {xs : List α} (hf : ∀ x ∈ xs, f x = ok (g x)) :
    xs.mapM f = ok (xs.map g) :=
  mapM_eq_ok_iff.mpr hf

/-- Each of the values found comes from one of the elements mapped. -/
theorem exists_of_mapM {f : α → Outcome ε β} {xs : List α} {ys : List β} (hmap : xs.mapM f = ok ys) :
    ∀ y ∈ ys, ∃ x ∈ xs, f x = ok y := by
  induction xs generalizing ys with
  | nil =>
    cases hmap
    simp
  | cons x xs ih =>
    simp only [List.mapM_cons, bind_eq_ok_iff, pure_eq, ok.injEq] at hmap
    obtain ⟨y, hx, rest, hrest, rfl⟩ := hmap
    refine List.forall_mem_cons.mpr ⟨⟨x, List.mem_cons_self, hx⟩, fun y' hy' => ?_⟩
    obtain ⟨x', hmem, hx'⟩ := ih hrest y' hy'
    exact ⟨x', List.mem_cons_of_mem x hmem, hx'⟩

/-- The value returned, or another one when there is none. -/
def getD (missing : α) : Outcome ε α → α
  | ok value => value
  | _ => missing

/-- `expect`, `unwrap` and indexing: a missing value is a panic. -/
def expect : Option α → Outcome ε α
  | some value => ok value
  | none => panic

@[simp] theorem expect_some (value : α) : (expect (some value) : Outcome ε α) = ok value := rfl
@[simp] theorem expect_none : (expect none : Outcome ε α) = panic := rfl

/-- `?` in a method on `&mut self`: an error is returned at once, beside the
    state reached so far. -/
def orReturn {S : Type} (x : Outcome ε α) (self : S) (rest : α → Outcome Empty (Except ε β × S)) :
    Outcome Empty (Except ε β × S) :=
  match x with
  | ok value => rest value
  | err error => ok (.error error, self)
  | panic => panic
  | div => div

@[simp] theorem ok_orReturn {S : Type} (value : α) (self : S)
    (rest : α → Outcome Empty (Except ε β × S)) : (ok value).orReturn self rest = rest value := rfl
@[simp] theorem err_orReturn {S : Type} (error : ε) (self : S)
    (rest : α → Outcome Empty (Except ε β × S)) :
    (err error).orReturn self rest = ok (.error error, self) := rfl
@[simp] theorem panic_orReturn {S : Type} (self : S) (rest : α → Outcome Empty (Except ε β × S)) :
    (panic : Outcome ε α).orReturn self rest = panic := rfl
@[simp] theorem div_orReturn {S : Type} (self : S) (rest : α → Outcome Empty (Except ε β × S)) :
    (div : Outcome ε α).orReturn self rest = div := rfl

/-- The method comes to its end only when nothing has been returned before. -/
theorem orReturn_eq_ok_iff {S : Type} {x : Outcome ε α} {self next : S}
    {rest : α → Outcome Empty (Except ε β × S)} {result : β} :
    x.orReturn self rest = ok (.ok result, next) ↔
      ∃ value, x = ok value ∧ rest value = ok (.ok result, next) := by
  cases x <;> simp

theorem orReturn_eq_error_iff {S : Type} {x : Outcome ε α} {self next : S}
    {rest : α → Outcome Empty (Except ε β × S)} {error : ε} :
    x.orReturn self rest = ok (.error error, next) ↔
      x = err error ∧ next = self ∨ ∃ value, x = ok value ∧ rest value = ok (.error error, next) := by
  cases x <;> simp [eq_comm]

/-- `join`: both computations run to their ends, and each may have failed on
    its own. A panic or an endless loop in either one is one of the whole. -/
def join (x : Outcome ε α) (y : Outcome ε β) : Outcome ε' (Outcome ε α × Outcome ε β) :=
  match x, y with
  | panic, _ => panic
  | _, panic => panic
  | div, _ => div
  | _, div => div
  | x, y => ok (x, y)

@[simp] theorem join_ok (x : α) (y : β) :
    (join (ok x : Outcome ε α) (ok y : Outcome ε β) : Outcome ε' _) = ok (ok x, ok y) := rfl

/-- Whatever `x` returns, `y` returns as well: `y` fails on fewer inputs. -/
def Within (x y : Outcome ε α) : Prop := ∀ value, x = ok value → y = ok value

theorem Within.refl (x : Outcome ε α) : Within x x := fun _ h => h

theorem Within.trans {x y z : Outcome ε α} (hxy : Within x y) (hyz : Within y z) : Within x z :=
  fun value h => hyz value (hxy value h)

theorem within_getD (x : Outcome ε α) (missing : α) : Within x (ok (x.getD missing)) := by
  rintro value rfl
  rfl

theorem Within.bind {x y : Outcome ε α} {f g : α → Outcome ε β} (h : Within x y)
    (hrest : ∀ value, Within (f value) (g value)) : Within (x >>= f) (y >>= g) := by
  intro result hresult
  obtain ⟨value, hx, hf⟩ := bind_eq_ok_iff.mp hresult
  exact bind_eq_ok_iff.mpr ⟨value, h value hx, hrest value result hf⟩

theorem Within.mapErr {x y : Outcome ε α} (h : Within x y) (f : ε → ε') :
    Within (x.mapErr f) (y.mapErr f) := by
  intro value hvalue
  exact mapErr_eq_ok_iff.mpr (h value (mapErr_eq_ok_iff.mp hvalue))

theorem Within.orReturn {S : Type} {x y : Outcome ε α} (h : Within x y) {self next : S}
    {rest : α → Outcome Empty (Except ε β × S)} {result : β}
    (hx : x.orReturn self rest = ok (.ok result, next)) :
    y.orReturn self rest = ok (.ok result, next) := by
  obtain ⟨value, hvalue, hrest⟩ := orReturn_eq_ok_iff.mp hx
  exact orReturn_eq_ok_iff.mpr ⟨value, h value hvalue, hrest⟩

/-- Of two joined computations, those that return still do. -/
theorem Within.join {x x' : Outcome ε α} {y y' : Outcome ε β} {f f' : α → β → Outcome ε γ}
    (hx : Within x x') (hy : Within y y') (hrest : ∀ a b, Within (f a b) (f' a b)) :
    Within (do let (x, y) ← Outcome.join x y; let a ← x; let b ← y; f a b)
      (do let (x, y) ← Outcome.join x' y'; let a ← x; let b ← y; f' a b) := by
  intro result hresult
  cases x with
  | ok a =>
    cases y with
    | ok b =>
      rw [hx a rfl, hy b rfl]
      exact hrest a b result hresult
    | err error => cases hresult
    | panic => cases hresult
    | div => cases hresult
  | err error => cases y <;> cases hresult
  | panic => cases hresult
  | div => cases y <;> cases hresult

/-- The call returns, with a value or with an error. -/
inductive Returns : Outcome ε α → Prop where
  | ok (value : α) : Returns (ok value)
  | err (error : ε) : Returns (err error)

theorem not_returns_panic : ¬ Returns (panic : Outcome ε α) := by
  intro hreturns
  cases hreturns

theorem not_returns_div : ¬ Returns (div : Outcome ε α) := by
  intro hreturns
  cases hreturns

/-- A value that is only worked on is returned when it is. -/
theorem returns_bind_ok_iff {x : Outcome ε α} {f : α → β} :
    Returns (x >>= fun value => Outcome.ok (f value)) ↔ Returns x := by
  cases x with
  | ok value => exact iff_of_true (.ok _) (.ok _)
  | err error => exact iff_of_true (.err _) (.err _)
  | panic => exact iff_of_false not_returns_panic not_returns_panic
  | div => exact iff_of_false not_returns_div not_returns_div

theorem Returns.bind {x : Outcome ε α} {f : α → Outcome ε β} (h : Returns x)
    (hrest : ∀ value, x = Outcome.ok value → Returns (f value)) : Returns (x >>= f) := by
  cases h with
  | ok value => exact hrest value rfl
  | err error => exact .err error

theorem returns_okOr (error : ε) (found : Option α) : Returns (okOr error found) := by
  cases found with
  | none => exact .err error
  | some value => exact .ok value

/-- Outcomes of one kind: related values, or one and the same failure. -/
inductive Alike (r : α → β → Prop) : Outcome ε α → Outcome ε β → Prop where
  | ok {x : α} {y : β} (hrel : r x y) : Alike r (ok x) (ok y)
  | err (error : ε) : Alike r (err error) (err error)
  | panic : Alike r panic panic
  | div : Alike r div div

theorem Alike.refl (x : Outcome ε α) : Alike (· = ·) x x := by
  cases x with
  | ok value => exact .ok rfl
  | err error => exact .err error
  | panic => exact .panic
  | div => exact .div

theorem Alike.mono {r q : α → β → Prop} {x : Outcome ε α} {y : Outcome ε β} (h : Alike r x y)
    (himp : ∀ a b, r a b → q a b) : Alike q x y := by
  cases h with
  | ok hrel => exact .ok (himp _ _ hrel)
  | err error => exact .err error
  | panic => exact .panic
  | div => exact .div

theorem Alike.of_ok {r : α → β → Prop} {a : α} {y : Outcome ε β} (h : Alike r (Outcome.ok a) y) :
    ∃ b, y = Outcome.ok b ∧ r a b := by
  cases h with
  | ok hrel => exact ⟨_, rfl, hrel⟩

theorem Alike.bind {r : α → β → Prop} {δ : Type} {q : γ → δ → Prop} {x : Outcome ε α}
    {y : Outcome ε β} {f : α → Outcome ε γ} {g : β → Outcome ε δ} (h : Alike r x y)
    (hrest : ∀ a b, r a b → Alike q (f a) (g b)) : Alike q (x >>= f) (y >>= g) := by
  cases h with
  | ok hrel => exact hrest _ _ hrel
  | err error => exact .err error
  | panic => exact .panic
  | div => exact .div

/-- Two methods that come to the same in a first part and in their rests. -/
theorem Alike.orReturn {γ' δ S S' : Type} {r : α → β → Prop} {q : Except ε γ' × S → Except ε δ × S' → Prop}
    {x : Outcome ε α} {y : Outcome ε β} (h : Alike r x y) {self : S} {self' : S'}
    {f : α → Outcome Empty (Except ε γ' × S)} {g : β → Outcome Empty (Except ε δ × S')}
    (hfailed : ∀ error, q (.error error, self) (.error error, self'))
    (hrest : ∀ a b, r a b → Alike q (f a) (g b)) : Alike q (x.orReturn self f) (y.orReturn self' g) := by
  cases h with
  | ok hrel => exact hrest _ _ hrel
  | err error => exact .ok (hfailed error)
  | panic => exact .panic
  | div => exact .div

end Outcome

/-- How one pass through a loop body ends. -/
inductive Pass (σ β : Type) where
  | next (state : σ)
  | done (result : β)

/-- Translate the state and the result. -/
def Pass.map {σ σ' β β' : Type} (f : σ → σ') (g : β → β') : Pass σ β → Pass σ' β'
  | next state => next (f state)
  | done result => done (g result)

open Outcome

section Loop

variable {ε σ β : Type}

/-- A source loop. Fuel counts the passes that may still start, and running
    out of it is `div`, so that a result is never an artefact of the bound. -/
def loop (body : σ → Outcome ε (Pass σ β)) : Nat → σ → Outcome ε β
  | 0, _ => div
  | fuel + 1, state => do
    match ← body state with
    | .next state => loop body fuel state
    | .done result => ok result

variable {body : σ → Outcome ε (Pass σ β)}

theorem loop_next {fuel : Nat} {state next : σ} (hbody : body state = ok (.next next)) :
    loop body (fuel + 1) state = loop body fuel next := by
  simp [loop, hbody]

theorem loop_done {fuel : Nat} {state : σ} {result : β} (hbody : body state = ok (.done result)) :
    loop body (fuel + 1) state = ok result := by
  simp [loop, hbody]

theorem loop_err {fuel : Nat} {state : σ} {error : ε} (hbody : body state = err error) :
    loop body (fuel + 1) state = err error := by
  simp [loop, hbody]

/-- A loop whose passes are translated one by one is translated as a whole. -/
theorem loop_map {σ' β' : Type} {body' : σ' → Outcome ε (Pass σ' β')} {f : σ → σ'} {g : β → β'}
    (hbody : ∀ state, body' (f state) = Pass.map f g <$> body state) (fuel : Nat) (state : σ) :
    loop body' fuel (f state) = g <$> loop body fuel state := by
  induction fuel generalizing state with
  | zero => rfl
  | succ fuel ih =>
    rw [loop, loop, hbody]
    cases body state with
    | ok pass =>
      cases pass with
      | next next => exact ih next
      | done result => rfl
    | err error => rfl
    | panic => rfl
    | div => rfl

/-- A loop returns what it returns with passes that fail on more states. -/
theorem loop_within {body body' : σ → Outcome ε (Pass σ β)}
    (hbody : ∀ state, Within (body state) (body' state)) (fuel : Nat) (state : σ) :
    Within (loop body fuel state) (loop body' fuel state) := by
  induction fuel generalizing state with
  | zero => exact .refl _
  | succ fuel ih =>
    refine .bind (hbody state) fun pass => ?_
    cases pass with
    | next next => exact ih next
    | done result => exact .refl _

/-- Passes that both go on from related states, or both end with related results. -/
inductive Pass.Alike {σ' β' : Type} (r : σ → σ' → Prop) (q : β → β' → Prop) :
    Pass σ β → Pass σ' β' → Prop where
  | next {state : σ} {state' : σ'} (hrel : r state state') : Alike r q (next state) (next state')
  | done {result : β} {result' : β'} (hrel : q result result') :
      Alike r q (done result) (done result')

/-- Two loops whose passes agree from related states on agree as a whole. -/
theorem loop_alike {σ' β' : Type} {body' : σ' → Outcome ε (Pass σ' β')} {r : σ → σ' → Prop}
    {q : β → β' → Prop} (hbody : ∀ state state', r state state' →
      Outcome.Alike (Pass.Alike r q) (body state) (body' state')) (fuel : Nat) {state : σ}
    {state' : σ'} (hrel : r state state') :
    Outcome.Alike q (loop body fuel state) (loop body' fuel state') := by
  induction fuel generalizing state state' with
  | zero => exact .div
  | succ fuel ih =>
    refine (hbody state state' hrel).bind fun pass pass' hpass => ?_
    cases hpass with
    | next hnext => exact ih hnext
    | done hdone => exact .ok hdone

/-- Partial correctness: an invariant kept by every pass holds at the exit. -/
theorem loop_invariant {Inv : σ → Prop} {Post : β → Prop}
    (hnext : ∀ state next, Inv state → body state = ok (.next next) → Inv next)
    (hdone : ∀ state result, Inv state → body state = ok (.done result) → Post result)
    {fuel : Nat} {state : σ} {result : β} (hinv : Inv state)
    (hloop : loop body fuel state = ok result) : Post result := by
  induction fuel generalizing state with
  | zero => simp [loop] at hloop
  | succ fuel ih =>
    rw [loop, bind_eq_ok_iff] at hloop
    obtain ⟨flow, hbody, hrest⟩ := hloop
    cases flow with
    | next next => exact ih (hnext state next hinv hbody) hrest
    | done result' =>
      simp only [ok.injEq] at hrest
      exact hrest ▸ hdone state result' hinv hbody

end Loop

end machine
