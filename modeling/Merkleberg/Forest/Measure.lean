import Mathlib.Algebra.BigOperators.Group.List.Basic
import Merkleberg.Forest.Peaks
import Merkleberg.Forest.Tree

namespace forest

variable {α G : Type} [Monoid G] {measure : α → G} {leaf : Nat → α} {node : Nat → α → α → α}
  {merge : α → α → α}

/-- The product of a measure over the leaves from `start` on. -/
def leavesMeasure (measure : α → G) (leaf : Nat → α) (start count : Nat) : G :=
  ((List.range' start count).map fun i => measure (leaf i)).prod

@[simp] theorem leavesMeasure_zero (start : Nat) : leavesMeasure measure leaf start 0 = 1 := rfl

end forest
