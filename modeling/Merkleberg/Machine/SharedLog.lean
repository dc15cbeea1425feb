import Mathlib.Logic.Function.Basic
import Mathlib.Logic.Relation
import Mathlib.Order.Lattice
import Mathlib.Order.Nat

open Relation

namespace machine

/-- A forward simulation carries whole runs over: where every step is matched by
    steps of the other system, so is every run. -/
theorem exists_run_of_steps {σ τ : Type} {step : σ → σ → Prop} {step' : τ → τ → Prop}
    {refines : σ → τ → Prop}
    (hstep : ∀ {s next t}, refines s t → step s next → ∃ t', ReflTransGen step' t t' ∧ refines next t')
    {s final : σ} {t : τ} (hstart : refines s t) (run : ReflTransGen step s final) :
    ∃ t', ReflTransGen step' t t' ∧ refines final t' := by
  induction run with
  | refl => exact ⟨t, .refl, hstart⟩
  | tail _ hlast ih =>
    obtain ⟨middle, hrun, hmiddle⟩ := ih
    obtain ⟨t', hmore, hfinal⟩ := hstep hmiddle hlast
    exact ⟨t', hrun.trans hmore, hfinal⟩

/-- What one user of a shared log has: the entries up to `stored` are in the
    storage, and the ones behind them it still keeps to itself. -/
structure Cursor where
  stored : Nat
  length : Nat
  stored_le : stored ≤ length

namespace Cursor

/-- A user that takes over the first `n` entries. -/
def found (n : Nat) : Cursor := { stored := n, length := n, stored_le := le_rfl }

def push (self : Cursor) : Cursor :=
  { self with length := self.length + 1, stored_le := self.stored_le.trans (Nat.le_succ _) }

def write (self : Cursor) (hlt : self.stored < self.length) : Cursor :=
  { self with stored := self.stored + 1, stored_le := hlt }

end Cursor

/-- One log that several users fill together. The storage has its first `stored`
    entries, no user counts on more than that, and neither does a length that was
    announced to others. -/
structure SharedLog (ι : Type) where
  stored : Nat
  announced : List Nat
  cursor : ι → Option Cursor
  announced_le : ∀ n ∈ announced, n ≤ stored
  cursor_le : ∀ i user, cursor i = some user → user.stored ≤ stored

namespace SharedLog

variable {ι : Type}

/-- Nothing is stored and nobody is there. -/
def empty : SharedLog ι where
  stored := 0
  announced := []
  cursor _ := none
  announced_le _ hn := by cases hn
  cursor_le _ _ huser := by cases huser

variable [DecidableEq ι]

/-- A user comes, moves on or leaves, and the storage stays as it is. -/
def setCursor (self : SharedLog ι) (i : ι) (user : Option Cursor)
    (hle : ∀ known, user = some known → known.stored ≤ self.stored) : SharedLog ι where
  stored := self.stored
  announced := self.announced
  cursor := Function.update self.cursor i user
  announced_le := self.announced_le
  cursor_le j known hknown := by
    by_cases hj : j = i
    · subst hj
      exact hle known (by rwa [Function.update_self] at hknown)
    · rw [Function.update_of_ne hj] at hknown
      exact self.cursor_le j known hknown

/-- A user that stays where it is. -/
theorem setCursor_self (self : SharedLog ι) {i : ι} {user : Cursor} (huser : self.cursor i = some user)
    (hle : ∀ known, some user = some known → known.stored ≤ self.stored) :
    self.setCursor i (some user) hle = self := by
  cases self
  simp only [setCursor, ← huser, Function.update_eq_self]

/-- A user stores its next entry. One that is there already is stored again. -/
def write (self : SharedLog ι) (i : ι) (user : Cursor) (hlt : user.stored < user.length) :
    SharedLog ι where
  stored := max self.stored (user.stored + 1)
  announced := self.announced
  cursor := Function.update self.cursor i (some (user.write hlt))
  announced_le n hn := (self.announced_le n hn).trans (le_max_left _ _)
  cursor_le j known hknown := by
    by_cases hj : j = i
    · subst hj
      rw [Function.update_self, Option.some.injEq] at hknown
      subst hknown
      exact le_max_right _ _
    · rw [Function.update_of_ne hj] at hknown
      exact (self.cursor_le j known hknown).trans (le_max_left _ _)

/-- A user that has stored all of its log announces the length. -/
def announce (self : SharedLog ι) {i : ι} {user : Cursor} (huser : self.cursor i = some user)
    (hall : user.stored = user.length) : SharedLog ι where
  stored := self.stored
  announced := user.length :: self.announced
  cursor := self.cursor
  announced_le n hn := by
    rcases List.mem_cons.mp hn with rfl | hn
    · exact hall ▸ self.cursor_le i user huser
    · exact self.announced_le n hn
  cursor_le := self.cursor_le

/-- What can happen to a shared log. A user takes over a length that was
    announced, appends to its own log, stores, announces, or leaves at any time. -/
inductive Step : SharedLog ι → SharedLog ι → Prop where
  | enter {self : SharedLog ι} (i : ι) {n : Nat} (hn : n = 0 ∨ n ∈ self.announced) :
      Step self (self.setCursor i (some (.found n)) (by
        rintro _ ⟨⟩
        rcases hn with rfl | hn
        · exact Nat.zero_le _
        · exact self.announced_le n hn))
  | push {self : SharedLog ι} {i : ι} {user : Cursor} (huser : self.cursor i = some user) :
      Step self (self.setCursor i (some user.push)
        (by rintro _ ⟨⟩; exact self.cursor_le i user huser))
  | write {self : SharedLog ι} {i : ι} {user : Cursor} (huser : self.cursor i = some user)
      (hlt : user.stored < user.length) : Step self (self.write i user hlt)
  | announce {self : SharedLog ι} {i : ι} {user : Cursor} (huser : self.cursor i = some user)
      (hall : user.stored = user.length) : Step self (self.announce huser hall)
  | leave {self : SharedLog ι} (i : ι) : Step self (self.setCursor i none (by rintro _ ⟨⟩))

end SharedLog

end machine
