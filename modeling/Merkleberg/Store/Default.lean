import Merkleberg.Store.Batch

open machine machine.Outcome

namespace merkleberg

variable {Store Elem Err : Type}

/-- Await all the futures, as `futures_util::future::join_all` does: every one of
    them runs, and the results come in the order of the futures. -/
def joinAll {ε ε' α : Type} : List (Outcome ε α) → Outcome ε' (List (Outcome ε α))
  | [] => ok []
  | future :: futures =>
    match future, (joinAll futures : Outcome ε' _) with
    | .panic, _ => .panic
    | _, .panic => .panic
    | .div, _ => .div
    | _, .div => .div
    | _, .err error => .err error
    | future, .ok results => .ok (future :: results)

/-- A backend that has `get_elem` and keeps the default `get_elems`. -/
def MMRStoreReadOps.ofGetElem (get_elem : Store → Nat → Outcome Err (Option Elem)) :
    MMRStoreReadOps Store Elem Err where
  get_elem
  get_elems self positions := do
    let results ← joinAll (positions.map (get_elem self))
    results.mapM id

theorem joinAll_ok {ε ε' α β : Type} (f : α → β) (xs : List α) :
    (joinAll (xs.map fun x => (ok (f x) : Outcome ε β)) : Outcome ε' _) =
      ok (xs.map fun x => ok (f x)) := by
  induction xs with
  | nil => rfl
  | cons x xs ih => simp only [List.map_cons, joinAll, ih]

/-- Reads that find a map one by one find it together. -/
theorem MMRStoreReadOps.ofGetElem_get_elems {get_elem : Store → Nat → Outcome Err (Option Elem)}
    {contents : Store → Nat → Option Elem} (hget : ∀ store pos, get_elem store pos = ok (contents store pos))
    (store : Store) (positions : List Nat) :
    (ofGetElem get_elem).get_elems store positions = ok (positions.map (contents store)) := by
  have hreads : positions.map (get_elem store) = positions.map fun pos => ok (contents store pos) :=
    List.map_congr_left fun pos _ => hget store pos
  simp only [ofGetElem, hreads, joinAll_ok, ok_bind]
  rw [List.mapM_map]
  exact mapM_eq_ok fun pos _ => rfl

end merkleberg
