import Merkleberg.Forest.Tree
import Merkleberg.Store.Batch

open machine machine.Outcome
open forest

namespace merkleberg

variable {Item Store σ : Type} {b : Profile}
  {R : MMRStoreReadOps Store Item σ} {W : MMRStoreWriteOps Store Item σ}

/-- The element of the leaf for each datum of a log. -/
def leafItem (H : Hasher Item) (data : List Bytes) (i : Nat) : Item := H.leaf_hash (data.getD i [])

theorem leafItem_append_left (H : Hasher Item) {data more : List Bytes} {i : Nat}
    (hi : i < data.length) : leafItem H (data ++ more) i = leafItem H data i := by
  simp [leafItem, List.getElem?_append_left hi]

theorem leafItem_append_self (H : Hasher Item) (data : List Bytes) (d : Bytes) :
    leafItem H (data ++ [d]) data.length = H.leaf_hash d := by
  simp [leafItem]

theorem leafItem_append (H : Hasher Item) (data more : List Bytes) :
    (List.range' data.length more.length).map (leafItem H (data ++ more)) = more.map H.leaf_hash := by
  apply List.ext_getElem (by simp)
  intro i _ hi
  rw [List.length_map] at hi
  simp only [List.getElem_map, List.getElem_range', leafItem, List.getD_eq_getElem?_getD]
  rw [List.getElem?_append_right (by omega), show data.length + 1 * i - data.length = i by omega,
    List.getElem?_eq_getElem hi]
  rfl

/-- A size and a batch that hold the forest over `n` leaves: every position of
    the forest shows its value, and every other position what `under` shows. -/
structure HoldsForest (S : MapStore R W) (under : Nat → Option Item) (value : Nat → Item) (n : Nat)
    (mmr_size : Nat) (batch : MMRBatch Item Store) : Prop where
  size : mmr_size = nodeCount n
  fits : nodeCount n < 2 ^ 64
  tail : batch.EndsAt (nodeCount n)
  shown : ∀ p, batch.view S p = if p < nodeCount n then some (value p) else under p

namespace HoldsForest

variable {S : MapStore R W} {under : Nat → Option Item} {value value' : Nat → Item}
  {n mmr_size : Nat} {batch : MMRBatch Item Store}

/-- Nothing is held at the start, and what the store has is visible. -/
theorem new (S : MapStore R W) (store : Store) (value : Nat → Item) :
    HoldsForest S (S.contents store) value 0 0 (.new store) where
  size := rfl
  fits := by decide
  tail := MMRBatch.endsAt_new store _
  shown p := by rw [MMRBatch.view_new, nodeCount_zero, if_neg (Nat.not_lt_zero p)]

theorem get_elem_eq (h : HoldsForest S under value n mmr_size batch) {p : Nat}
    (hp : p < nodeCount n) : batch.get_elem b R p = ok (some (value p)) := by
  rw [MMRBatch.get_elem_eq S h.tail h.fits, h.shown, if_pos hp]

theorem get_elems_eq (h : HoldsForest S under value n mmr_size batch) {positions : List Nat}
    (hinside : ∀ p ∈ positions, p < nodeCount n) :
    batch.get_elems b R positions = ok (positions.map fun p => some (value p)) := by
  rw [MMRBatch.get_elems_eq S h.tail h.fits]
  congr 1
  exact List.map_congr_left fun p hp => by rw [h.shown, if_pos (hinside p hp)]

theorem leaves_lt (h : HoldsForest S under value n mmr_size batch) : n ≤ 2 ^ 63 := by
  by_contra hbig
  have hcount := nodeCount_le_nodeCount_iff.mpr (show 2 ^ 63 + 1 ≤ n by omega)
  have hfull := nodeCount_two_pow_add (k := 63) (r := 1) (by decide)
  have hone : nodeCount 1 = 1 := by decide
  have hfits := h.fits
  omega

theorem congr (h : HoldsForest S under value n mmr_size batch)
    (hvalue : ∀ p < nodeCount n, value' p = value p) :
    HoldsForest S under value' n mmr_size batch where
  size := h.size
  fits := h.fits
  tail := h.tail
  shown p := by
    rw [h.shown]
    split
    · rename_i hp
      rw [hvalue p hp]
    · rfl

/-- A successful commit leaves what is held in place. -/
theorem commit (h : HoldsForest S under value n mmr_size batch) {batch' : MMRBatch Item Store}
    (hcommit : batch.commit W = ok (.ok (), batch')) :
    HoldsForest S under value n mmr_size batch' where
  size := h.size
  fits := h.fits
  tail := MMRBatch.endsAt_commit _ hcommit
  shown p := by rw [MMRBatch.view_commit h.tail h.fits.le hcommit, h.shown]

end HoldsForest

/-- What later entries of a log do not change is there for its first entries alone. -/
theorem value_take {value : List Bytes → Nat → Item}
    (happend : ∀ {data more p}, p < nodeCount data.length → value (data ++ more) p = value data p)
    {log : List Bytes} {n p : Nat} (hn : n ≤ log.length) (hp : p < nodeCount n) :
    value (log.take n) p = value log p := by
  have hlength : (log.take n).length = n := List.length_take_of_le hn
  have hlonger : value (log.take n ++ log.drop n) p = value (log.take n) p := happend (hlength.symm ▸ hp)
  rw [← hlonger, List.take_append_drop]

/-- The elements a push writes: the new leaf and the parents it completes up to
    height `j`. -/
def spine (value : Nat → Item) (n j : Nat) : List Item :=
  (List.range (j + 1)).map fun i => value (nodeCount n + i)

@[simp] theorem spine_length (value : Nat → Item) (n j : Nat) : (spine value n j).length = j + 1 := by
  simp [spine]

theorem spine_zero (value : Nat → Item) (n : Nat) : spine value n 0 = [value (nodeCount n)] := by
  simp [spine]

theorem spine_succ (value : Nat → Item) (n j : Nat) :
    spine value n j ++ [value (nodeCount n + (j + 1))] = spine value n (j + 1) := by
  simp [spine, List.range_succ (n := j + 1)]

theorem spine_getElem? (value : Nat → Item) {n j i : Nat} (hi : i ≤ j) :
    (spine value n j)[i]? = some (value (nodeCount n + i)) := by
  simp [spine, List.getElem?_range (show i < j + 1 by omega)]

@[simp] theorem spine_getLast? (value : Nat → Item) (n j : Nat) :
    (spine value n j).getLast? = some (value (nodeCount n + j)) := by
  simp [spine, List.range_succ]

/-- Appending the whole spine of the next leaf holds the next forest. -/
theorem HoldsForest.push {S : MapStore R W} {under : Nat → Option Item} {value : Nat → Item}
    {n mmr_size : Nat} {batch : MMRBatch Item Store}
    (h : HoldsForest S under value n mmr_size batch) (hfits : nodeCount (n + 1) < 2 ^ 64) :
    HoldsForest S under value (n + 1) (nodeCount (n + 1))
      (batch.append (nodeCount n) (spine value n (trailingZeros (n + 1)))) where
  size := rfl
  fits := hfits
  tail := by
    have hne : spine value n (trailingZeros (n + 1)) ≠ [] := by simp [spine]
    have htail := h.tail.append hne
    rwa [spine_length, show nodeCount n + (trailingZeros (n + 1) + 1) = nodeCount (n + 1) by
      rw [nodeCount_succ]; omega] at htail
  shown p := by
    have hstep := nodeCount_succ n
    rw [MMRBatch.view_append h.tail (by simp [spine])]
    by_cases hold : p < nodeCount n
    · rw [overlay_of_lt hold, h.shown, if_pos hold, if_pos (by omega)]
    · by_cases hnew : p < nodeCount (n + 1)
      · rw [overlay_of_mem (by omega) (by rw [spine_length]; omega), if_pos hnew,
          spine_getElem? value (by omega), Nat.add_sub_cancel' (by omega)]
      · rw [overlay_of_ge (by rw [spine_length]; omega), h.shown, if_neg hold, if_neg hnew]

end merkleberg
