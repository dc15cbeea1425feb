import Merkleberg.Machine.Outcome

open machine.Outcome

namespace machine

variable {ε α β σ : Type}

/-- Two runs from inputs of one shape return results of one shape, and return the
    same result only from the same input. -/
def Injects (r : α → α → Prop) (q : β → β → Prop) (f : α → Outcome ε β) : Prop :=
  ∀ ⦃x x' : α⦄ ⦃y y' : β⦄, r x x' → f x = ok y → f x' = ok y' → q y y' ∧ (y = y' → x = x')

/-- A loop takes back to its start what each of its passes takes back. -/
theorem loop_injects {body : σ → Outcome ε (Pass σ β)} {r : σ → σ → Prop} {q : β → β → Prop}
    (hbody : Injects r (Pass.Alike r q) body) (fuel : Nat) : Injects r q (loop body fuel) := by
  induction fuel with
  | zero =>
    intro state state' result result' _ hloop
    simp [loop] at hloop
  | succ fuel ih =>
    intro state state' result result' hrel hloop hloop'
    obtain ⟨pass, hpass, hrest⟩ := bind_eq_ok_iff.mp hloop
    obtain ⟨pass', hpass', hrest'⟩ := bind_eq_ok_iff.mp hloop'
    obtain ⟨halike, hback⟩ := hbody hrel hpass hpass'
    cases halike with
    | next hnext =>
      obtain ⟨hresult, hstart⟩ := ih hnext hrest hrest'
      exact ⟨hresult, fun heq => hback (congrArg Pass.next (hstart heq))⟩
    | done hdone =>
      cases hrest
      cases hrest'
      exact ⟨hdone, fun heq => hback (congrArg Pass.done heq)⟩

end machine
