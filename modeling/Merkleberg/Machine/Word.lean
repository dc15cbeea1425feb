import Merkleberg.Machine.Bits
import Merkleberg.Machine.Outcome

open machine.Outcome

namespace machine

/-- The two ways the compiler treats machine arithmetic: a debug build checks
    every operation and runs the debug assertions, a release build wraps and
    skips them. -/
inductive Profile where
  | debug
  | release
deriving DecidableEq

/-- An operation whose exact result does not fit: a panic when checked, the
    wrapped value otherwise. -/
def Profile.overflow {ε α : Type} (b : Profile) (wrapped : α) : Outcome ε α :=
  match b with
  | .debug => panic
  | .release => ok wrapped

@[simp] theorem Profile.overflow_debug {ε α : Type} (wrapped : α) :
    (Profile.debug.overflow wrapped : Outcome ε α) = panic := rfl
@[simp] theorem Profile.overflow_release {ε α : Type} (wrapped : α) :
    (Profile.release.overflow wrapped : Outcome ε α) = ok wrapped := rfl

/-- `debug_assert!`. -/
def Profile.debugAssert {ε : Type} (b : Profile) (holds : Bool) : Outcome ε Unit :=
  if b = .debug ∧ holds = false then panic else ok ()

@[simp] theorem Profile.debugAssert_true {ε : Type} (b : Profile) :
    (b.debugAssert true : Outcome ε Unit) = ok () := by
  simp [Profile.debugAssert]

/-! A machine word is the natural number it denotes. The operations keep every
    result under `2 ^ w`, where `w` is the width of the word. -/

namespace Word

variable {ε : Type} (w : Nat) (b : Profile)

def add (x y : Nat) : Outcome ε Nat :=
  if x + y < 2 ^ w then ok (x + y) else b.overflow ((x + y) % 2 ^ w)

def sub (x y : Nat) : Outcome ε Nat :=
  if y ≤ x then ok (x - y) else b.overflow (x + 2 ^ w - y)

def mul (x y : Nat) : Outcome ε Nat :=
  if x * y < 2 ^ w then ok (x * y) else b.overflow ((x * y) % 2 ^ w)

/-- A left shift drops the bits pushed out of the word silently. Only the shift
    amount is checked, and an amount that is too large is masked. -/
def shl (x amount : Nat) : Outcome ε Nat :=
  if amount < w then ok (x * 2 ^ amount % 2 ^ w)
  else b.overflow (x * 2 ^ (amount % w) % 2 ^ w)

def shr (x amount : Nat) : Outcome ε Nat :=
  if amount < w then ok (x / 2 ^ amount) else b.overflow (x / 2 ^ (amount % w))

variable {w b}

theorem add_ok {x y : Nat} (h : x + y < 2 ^ w) : (add w b x y : Outcome ε Nat) = ok (x + y) := by
  simp [add, h]

theorem sub_ok {x y : Nat} (h : y ≤ x) : (sub w b x y : Outcome ε Nat) = ok (x - y) := by
  simp [sub, h]

theorem mul_ok {x y : Nat} (h : x * y < 2 ^ w) : (mul w b x y : Outcome ε Nat) = ok (x * y) := by
  simp [mul, h]

theorem shl_ok {x amount : Nat} (hamount : amount < w) (h : x * 2 ^ amount < 2 ^ w) :
    (shl w b x amount : Outcome ε Nat) = ok (x * 2 ^ amount) := by
  simp [shl, hamount, Nat.mod_eq_of_lt h]

theorem shr_ok {x amount : Nat} (hamount : amount < w) :
    (shr w b x amount : Outcome ε Nat) = ok (x / 2 ^ amount) := by
  simp [shr, hamount]

/-- A sum that returns is right up to wrapping, and exact when it is checked. -/
theorem eq_of_add_ok {x y z : Nat} (h : (add w b x y : Outcome ε Nat) = ok z) :
    z = (x + y) % 2 ^ w ∧ (b = .debug → x + y < 2 ^ w) := by
  unfold add at h
  split at h
  · rename_i hlt
    rw [ok.injEq] at h
    exact ⟨by rw [Nat.mod_eq_of_lt hlt, h], fun _ => hlt⟩
  · cases b with
    | debug => cases h
    | release => exact ⟨(ok.inj h).symm, by simp⟩

theorem lt_of_add_ok {x y z : Nat} (h : (add w b x y : Outcome ε Nat) = ok z) : z < 2 ^ w := by
  rw [(eq_of_add_ok h).1]
  exact Nat.mod_lt _ (Nat.two_pow_pos w)

theorem add_ne_err {x y : Nat} {error : ε} : (add w b x y : Outcome ε Nat) ≠ err error := by
  unfold add
  cases b <;> split <;> simp

/-- A checked sum that returns was in range. -/
theorem add_debug_eq_ok_iff {x y z : Nat} :
    (add w .debug x y : Outcome ε Nat) = ok z ↔ x + y < 2 ^ w ∧ x + y = z := by
  unfold add
  split <;> simp_all

end Word

namespace U64

variable {ε : Type} (b : Profile)

/-- `u64::MAX`. -/
def max : Nat := 2 ^ 64 - 1

abbrev add (x y : Nat) : Outcome ε Nat := Word.add 64 b x y
abbrev sub (x y : Nat) : Outcome ε Nat := Word.sub 64 b x y
abbrev mul (x y : Nat) : Outcome ε Nat := Word.mul 64 b x y
abbrev shl (x : Nat) (amount : Nat) : Outcome ε Nat := Word.shl 64 b x amount
abbrev shr (x : Nat) (amount : Nat) : Outcome ε Nat := Word.shr 64 b x amount

/-- `checked_sub`: no wrapping and no panic in either profile. -/
def checkedSub (x y : Nat) : Option Nat := if y ≤ x then some (x - y) else none

def leadingZeros (x : Nat) : Nat := if x = 0 then 64 else 63 - x.log2

def trailingZeros (x : Nat) : Nat := if x = 0 then 64 else machine.trailingZeros x

def countOnes (x : Nat) : Nat := popcount x

/-- `ilog2`, which panics on zero in every profile. -/
def ilog2 (x : Nat) : Outcome ε Nat := if x = 0 then panic else ok x.log2

end U64

namespace U8

/-- Checked or wrapping 8-bit addition. -/
abbrev add {ε : Type} (b : Profile) (x y : Nat) : Outcome ε Nat := Word.add 8 b x y

end U8

end machine
