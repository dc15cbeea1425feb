import Merkleberg.Fallible
import Merkleberg.Helper.Peaks
import Merkleberg.Log
import Merkleberg.Symbolic

open machine machine.Outcome
open forest
open merkleberg.helper

namespace merkleberg.mmriver

variable {Item Store σ μ : Type} {b : Profile}
  {R : MMRStoreReadOps Store Item σ} {W : MMRStoreWriteOps Store Item σ}

/-- Value of a node of the tree over a log. A parent is hashed with its position,
    counted from one. -/
def nodeItem (H : Hasher Item) (data : List Bytes) (h k : Nat) : Item :=
  treeRoot (leafItem H data) (fun p left right => H.merge_pos (p + 1) left right) h k

theorem nodeItem_zero (H : Hasher Item) (data : List Bytes) (k : Nat) :
    nodeItem H data 0 k = leafItem H data k := rfl

theorem nodeItem_succ (H : Hasher Item) (data : List Bytes) (h k : Nat) :
    nodeItem H data (h + 1) k =
      H.merge_pos (nodePos (h + 1) k + 1) (nodeItem H data h (2 * k))
        (nodeItem H data h (2 * k + 1)) := rfl

/-- What the tree over a log has at a position. -/
def elemAt (H : Hasher Item) (data : List Bytes) (p : Nat) : Item :=
  valueAt (leafItem H data) (fun p left right => H.merge_pos (p + 1) left right) p

@[simp] theorem elemAt_nodePos (H : Hasher Item) (data : List Bytes) (h k : Nat) :
    elemAt H data (nodePos h k) = nodeItem H data h k :=
  valueAt_nodePos _ _ h k

theorem elemAt_of_height (H : Hasher Item) (data : List Bytes) {p h : Nat}
    (hheight : nodeHeight p = h + 1) :
    2 ^ (h + 1) ≤ p ∧ elemAt H data p =
      H.merge_pos (p + 1) (elemAt H data (p - 2 ^ (h + 1))) (elemAt H data (p - 1)) :=
  valueAt_of_height hheight

@[simp] theorem elemAt_nodeCount (H : Hasher Item) (data : List Bytes) (i : Nat) :
    elemAt H data (nodeCount i) = leafItem H data i := by
  rw [← nodePos_zero, elemAt_nodePos, nodeItem_zero]

/-- Later leaves do not move the elements that are there. -/
theorem elemAt_append {H : Hasher Item} {data : List Bytes} (more : List Bytes) {p : Nat}
    (hp : p < nodeCount data.length) : elemAt H (data ++ more) p = elemAt H data p :=
  valueAt_congr hp fun _ hi => leafItem_append_left H hi

theorem elemAt_take (H : Hasher Item) {log : List Bytes} {n p : Nat} (hn : n ≤ log.length)
    (hp : p < nodeCount n) : elemAt H (log.take n) p = elemAt H log p :=
  value_take (fun hp => elemAt_append _ hp) hn hp

/-- A tree holds a log when every position has the element of that log, and the
    build can compute heights up to the end of the tree. -/
structure MMRIVER.Holds (b : Profile) (S : MapStore R W) (under : Nat → Option Item) (H : Hasher Item)
    (data : List Bytes) (tree : MMRIVER Item Store) : Prop where
  forest : HoldsForest S under (elemAt H data) data.length tree.mmr_size tree.batch
  height_fits : nodeCount data.length + 1 < allOnesLimit b

/-- Fewer than 2^63 leaves leave room for the heights of an unchecked build. -/
theorem release_height_fits {n : Nat} (hn : n < 2 ^ 63) : nodeCount n + 1 < allOnesLimit .release := by
  have hcount := nodeCount_le_nodeCount_iff.mpr (show n ≤ 2 ^ 63 - 1 by omega)
  have hfull := nodeCount_two_pow_sub_one_add 63
  simp only [allOnesLimit]
  omega

section Holds

variable {S : MapStore R W} {under : Nat → Option Item} {H : Hasher Item} {data : List Bytes}
  {self : MMRIVER Item Store}

/-- An empty tree holds the empty log. -/
theorem MMRIVER.Holds.new (S : MapStore R W) (H : Hasher Item) (store : Store) :
    (MMRIVER.new 0 store).Holds b S (S.contents store) H [] where
  forest := HoldsForest.new S store _
  height_fits := by cases b <;> decide

/-- An element that is not new is read through the batch. -/
theorem MMRIVER.Holds.find_elem_old (h : self.Holds b S under H data) {p : Nat} (hashes : List Item)
    (hp : p < nodeCount data.length) :
    (self.find_elem b R p hashes : Outcome (Error σ μ) Item) = ok (elemAt H data p) := by
  have hbefore : U64.checkedSub p self.mmr_size = none := by
    rw [U64.checkedSub, if_neg]
    have := h.forest.size
    omega
  simp only [MMRIVER.find_elem, hbefore, Option.bind_none, h.forest.get_elem_eq hp, orStoreError_ok,
    ok_bind, okOr_some]

/-- A new element is taken from the elements of the push. -/
theorem MMRIVER.Holds.find_elem_new (h : self.Holds b S under H data) (value : Nat → Item) {j : Nat} :
    (self.find_elem b R (nodeCount data.length + j) (spine value data.length j) :
      Outcome (Error σ μ) Item) = ok (value (nodeCount data.length + j)) := by
  have hafter : U64.checkedSub (nodeCount data.length + j) self.mmr_size = some j := by
    rw [U64.checkedSub, h.forest.size, if_pos (Nat.le_add_right _ _), Nat.add_sub_cancel_left]
  simp only [MMRIVER.find_elem, hafter, Option.bind_some, spine_getElem? value (Nat.le_refl j)]

section Push

variable {d : Bytes}

/-- Height of the position behind the part of a spine that is there. -/
theorem spine_height {n j : Nat} (hj : j ≤ trailingZeros (n + 1)) :
    nodeHeight (nodeCount n + (j + 1)) = if j < trailingZeros (n + 1) then j + 1 else 0 := by
  have hstep := nodeCount_succ n
  split
  · rename_i hlt
    exact nodeHeight_nodeCount_add hlt
  · rw [show nodeCount n + (j + 1) = nodeCount (n + 1) by omega, nodeHeight_nodeCount]

/-- At a height the new leaf completes, the loop merges the two children. -/
theorem MMRIVER.push_body_next {M : Merge Item μ} {n j : Nat} (hj : j < trailingZeros (n + 1))
    (hlt : nodeCount n + (j + 1) + 1 < allOnesLimit b) {elems : List Item} {left right : Item}
    (hleft : (self.find_elem b R (nodeCount n + (j + 1) - 2 ^ (j + 1)) elems :
      Outcome (Error σ μ) Item) = ok left)
    (hright : (self.find_elem b R (nodeCount n + j) elems : Outcome (Error σ μ) Item) = ok right) :
    (MMRIVER.push.body b M R self (nodeCount n + (j + 1), j, elems) : Outcome (Error σ μ) _) =
      (do let parent ← orMergeError (M.merge_pos (nodeCount n + (j + 1) + 1) left right)
          ok (.next (nodeCount n + (j + 1 + 1), j + 1, elems ++ [parent]))) := by
  have hlimit := allOnesLimit_le b
  have hheight : (index_height_mmriver b (nodeCount n + (j + 1)) : Outcome (Error σ μ) Nat) =
      ok (j + 1) := by
    rw [index_height_mmriver_eq hlt, spine_height hj.le, if_pos hj]
  obtain ⟨hpow, _⟩ := left_child_old hj
  have hself : j + 1 < 2 ^ (j + 1) := Nat.lt_two_pow_self
  have hsmall : j < 64 := by
    by_contra hbig
    have := Nat.pow_le_pow_right (show 0 < 2 by omega) (show 64 ≤ j + 1 by omega)
    omega
  have hoffset : (U64.shl b 2 j : Outcome (Error σ μ) Nat) = ok (2 ^ (j + 1)) := by
    have hdouble : 2 * 2 ^ j = 2 ^ (j + 1) := (pow_succ' 2 j).symm
    rw [U64.shl, Word.shl_ok hsmall (by omega), hdouble]
  have hleft_pos : (U64.sub b (nodeCount n + (j + 1)) (2 ^ (j + 1)) : Outcome (Error σ μ) Nat) =
      ok (nodeCount n + (j + 1) - 2 ^ (j + 1)) := Word.sub_ok hpow
  have hright_pos : (U64.sub b (nodeCount n + (j + 1)) 1 : Outcome (Error σ μ) Nat) =
      ok (nodeCount n + j) := Word.sub_ok (by omega)
  have hparent : (U64.add b (nodeCount n + (j + 1)) 1 : Outcome (Error σ μ) Nat) =
      ok (nodeCount n + (j + 1) + 1) := Word.add_ok (by omega)
  have hg : (U8.add b j 1 : Outcome (Error σ μ) Nat) = ok (j + 1) := Word.add_ok (by omega)
  simp only [MMRIVER.push.body, hheight, hoffset, hleft_pos, hright_pos, hleft, hright, hparent, hg,
    join_ok, ok_bind]
  rw [if_pos (Nat.lt_succ_self j)]
  rfl

/-- At the last height the loop ends. -/
theorem MMRIVER.push_body_stop {M : Merge Item μ} {n j : Nat} (hj : j = trailingZeros (n + 1))
    (hlt : nodeCount (n + 1) + 1 < allOnesLimit b) (elems : List Item) :
    (MMRIVER.push.body b M R self (nodeCount n + (j + 1), j, elems) : Outcome (Error σ μ) _) =
      ok (.done (nodeCount (n + 1), elems)) := by
  have hstop : nodeCount n + (j + 1) = nodeCount (n + 1) := by
    have := nodeCount_succ n
    omega
  simp only [MMRIVER.push.body, hstop, index_height_mmriver_eq hlt, nodeHeight_nodeCount, ok_bind]
  rw [if_neg (Nat.not_lt_zero j)]

/-- Below the last height the loop adds a parent. -/
theorem MMRIVER.Holds.push_next (h : self.Holds b S under H data) {j : Nat}
    (hj : j < trailingZeros (data.length + 1))
    (hlt : nodeCount data.length + (j + 1) + 1 < allOnesLimit b) :
    (MMRIVER.push.body b (H.toMerge : Merge Item μ) R self
        (nodeCount data.length + (j + 1), j, spine (elemAt H (data ++ [d])) data.length j) :
      Outcome (Error σ μ) _) =
      ok (.next (nodeCount data.length + (j + 1 + 1), j + 1,
        spine (elemAt H (data ++ [d])) data.length (j + 1))) := by
  obtain ⟨_, hold⟩ := left_child_old hj
  obtain ⟨_, hvalue⟩ := elemAt_of_height H (data ++ [d]) (nodeHeight_nodeCount_add hj)
  have hfind := h.find_elem_old (μ := μ) (spine (elemAt H (data ++ [d])) data.length j) hold
  rw [← elemAt_append [d] hold] at hfind
  have hfind' := h.find_elem_new (μ := μ) (elemAt H (data ++ [d])) (j := j)
  have hbody := MMRIVER.push_body_next (M := (H.toMerge : Merge Item μ)) hj hlt hfind hfind'
  rw [show nodeCount data.length + (j + 1) - 1 = nodeCount data.length + j by omega] at hvalue
  rw [hbody, Hasher.toMerge_merge_pos, orMergeError_ok, ok_bind, ← hvalue, spine_succ]

/-- From height `j` the loop adds the parents that are still missing. -/
theorem MMRIVER.Holds.push_loop (h : self.Holds b S under H data)
    (hlt : nodeCount (data.length + 1) + 1 < allOnesLimit b) {j fuel : Nat}
    (hj : j ≤ trailingZeros (data.length + 1)) (hfuel : trailingZeros (data.length + 1) - j < fuel) :
    (loop (MMRIVER.push.body b (H.toMerge : Merge Item μ) R self) fuel
        (nodeCount data.length + (j + 1), j, spine (elemAt H (data ++ [d])) data.length j) :
      Outcome (Error σ μ) _) =
      ok (nodeCount (data.length + 1),
        spine (elemAt H (data ++ [d])) data.length (trailingZeros (data.length + 1))) := by
  have hstep := nodeCount_succ data.length
  induction hmeasure : trailingZeros (data.length + 1) - j generalizing j fuel with
  | zero =>
    obtain rfl : j = trailingZeros (data.length + 1) := by omega
    obtain ⟨fuel, rfl⟩ : ∃ rest, fuel = rest + 1 := ⟨fuel - 1, by omega⟩
    exact loop_done (push_body_stop rfl hlt _)
  | succ measure ih =>
    obtain ⟨fuel, rfl⟩ : ∃ rest, fuel = rest + 1 := ⟨fuel - 1, by omega⟩
    rw [loop_next (h.push_next (by omega) (by omega))]
    exact ih (by omega) (by omega) (by omega)

/-- A checked push that returns never asked for a height out of range. -/
theorem MMRIVER.Holds.push_loop_debug (h : self.Holds .debug S under H data) {j fuel : Nat}
    {result : Nat × List Item} (hj : j ≤ trailingZeros (data.length + 1))
    (hloop : (loop (MMRIVER.push.body .debug (H.toMerge : Merge Item μ) R self) fuel
        (nodeCount data.length + (j + 1), j, spine (elemAt H (data ++ [d])) data.length j) :
      Outcome (Error σ μ) _) = ok result) :
    nodeCount (data.length + 1) + 1 < allOnesLimit .debug := by
  have hstep := nodeCount_succ data.length
  induction hmeasure : trailingZeros (data.length + 1) - j generalizing j fuel with
  | zero =>
    obtain rfl : j = trailingZeros (data.length + 1) := by omega
    cases fuel with
    | zero => cases hloop
    | succ fuel =>
      rw [loop, bind_eq_ok_iff] at hloop
      obtain ⟨_, hbody, _⟩ := hloop
      simp only [MMRIVER.push.body, bind_eq_ok_iff] at hbody
      obtain ⟨height, hheight, _⟩ := hbody
      have := lt_allOnesLimit_of_debug hheight
      omega
  | succ measure ih =>
    cases fuel with
    | zero => cases hloop
    | succ fuel =>
      have hlt : nodeCount data.length + (j + 1) + 1 < allOnesLimit .debug := by
        rw [loop, bind_eq_ok_iff] at hloop
        obtain ⟨_, hbody, _⟩ := hloop
        simp only [MMRIVER.push.body, bind_eq_ok_iff] at hbody
        obtain ⟨height, hheight, _⟩ := hbody
        exact lt_allOnesLimit_of_debug hheight
      rw [loop_next (h.push_next (by omega) hlt)] at hloop
      exact ih (by omega) hloop (by omega)

/-- A push returns the position of the new leaf and holds the longer log. -/
theorem MMRIVER.Holds.push (h : self.Holds b S under H data)
    (hlt : nodeCount (data.length + 1) + 1 < allOnesLimit b) (d : Bytes) :
    ∃ next, self.push b (H.toMerge : Merge Item μ) R d = ok (.ok (nodeCount data.length), next) ∧
      next.Holds b S under H (data ++ [d]) := by
  have hlimit := allOnesLimit_le b
  have hstep := nodeCount_succ data.length
  have hbound : trailingZeros (data.length + 1) < 65 := by
    have hself : trailingZeros (data.length + 1) < 2 ^ trailingZeros (data.length + 1) :=
      Nat.lt_two_pow_self
    have hle : 2 ^ trailingZeros (data.length + 1) ≤ data.length + 1 :=
      Nat.le_of_dvd (by omega) ((two_pow_dvd_iff (by omega) _).mpr (Nat.le_refl _))
    have hcount := le_nodeCount (data.length + 1)
    have := (Nat.pow_lt_pow_iff_right (show 1 < 2 by omega)).mp
      (show 2 ^ trailingZeros (data.length + 1) < 2 ^ 65 by omega)
    omega
  have hnext : (U64.add b (nodeCount data.length) 1 : Outcome (Error σ μ) Nat) =
      ok (nodeCount data.length + (0 + 1)) := Word.add_ok (by omega)
  have hloop := h.push_loop (μ := μ) (d := d) hlt (Nat.zero_le _) hbound
  rw [spine_zero, elemAt_nodeCount, leafItem_append_self] at hloop
  let elems := spine (elemAt H (data ++ [d])) data.length (trailingZeros (data.length + 1))
  refine ⟨{ mmr_size := nodeCount (data.length + 1)
            batch := self.batch.append (nodeCount data.length) elems }, ?_, ?_, ?_⟩
  · simp only [MMRIVER.push, MMRIVER.push.merged, Hasher.toMerge_leaf_hash, orMergeError_ok, ok_bind,
      h.forest.size, hnext, hloop, ok_orReturn]
    rfl
  · have hlonger := (h.forest.congr fun p hp => elemAt_append [d] hp).push (by omega)
    rw [List.length_append, List.length_singleton]
    exact hlonger
  · rwa [List.length_append, List.length_singleton]

theorem MMRIVER.Holds.lt_of_push (h : self.Holds .debug S under H data) {pos : Nat}
    {next : MMRIVER Item Store}
    (hpush : self.push .debug (H.toMerge : Merge Item μ) R d = ok (.ok pos, next)) :
    nodeCount (data.length + 1) + 1 < allOnesLimit .debug := by
  have hfits := h.height_fits
  have hlimit := allOnesLimit_le .debug
  have hnext : (U64.add .debug (nodeCount data.length) 1 : Outcome (Error σ μ) Nat) =
      ok (nodeCount data.length + (0 + 1)) := Word.add_ok (by omega)
  obtain ⟨i, elems, hmerged, _⟩ := push_eq_ok_iff.mp hpush
  rw [MMRIVER.push.merged, h.forest.size, Hasher.toMerge_leaf_hash, orMergeError_ok, ok_bind, hnext,
    ok_bind] at hmerged
  rw [← leafItem_append_self H data d, ← elemAt_nodeCount, ← spine_zero] at hmerged
  exact h.push_loop_debug (Nat.zero_le _) hmerged

end Push

/-- A push that succeeded was one within the range of heights. Only an unchecked
    build needs to be told that the heights stayed in range. -/
theorem MMRIVER.Holds.of_push (h : self.Holds b S under H data) {d : Bytes} {pos : Nat}
    {next : MMRIVER Item Store} (hfit : b = .release → data.length + 1 < 2 ^ 63)
    (hpush : self.push b (H.toMerge : Merge Item μ) R d = ok (.ok pos, next)) :
    pos = nodeCount data.length ∧ next.Holds b S under H (data ++ [d]) := by
  have hlt : nodeCount (data.length + 1) + 1 < allOnesLimit b := by
    cases b with
    | release => exact release_height_fits (hfit rfl)
    | debug => exact h.lt_of_push hpush
  obtain ⟨next', hpush', hnext⟩ := h.push (μ := μ) hlt d
  rw [hpush', ok.injEq, Prod.mk.injEq, Except.ok.injEq] at hpush
  obtain ⟨rfl, rfl⟩ := hpush
  exact ⟨rfl, hnext⟩

/-- A commit that succeeds is one of the batch, and leaves the size alone. -/
theorem MMRIVER.commit_ok {next : MMRIVER Item Store}
    (hcommit : (self.commit W : Outcome Empty (Except (Error σ μ) Unit × _)) = ok (.ok (), next)) :
    self.batch.commit W = ok (.ok (), next.batch) ∧ next.mmr_size = self.mmr_size := by
  rw [MMRIVER.commit, bind_eq_ok_iff] at hcommit
  obtain ⟨⟨result, batch⟩, hbatch, hnext⟩ := hcommit
  cases result with
  | error error => simp [Except.mapError] at hnext
  | ok =>
    simp only [ok.injEq, Prod.mk.injEq] at hnext
    rw [← hnext.2]
    exact ⟨hbatch, rfl⟩

theorem MMRIVER.Holds.commit (h : self.Holds b S under H data) {next : MMRIVER Item Store}
    (hcommit : (self.commit W : Outcome Empty (Except (Error σ μ) Unit × _)) = ok (.ok (), next)) :
    next.Holds b S under H data := by
  obtain ⟨hbatch, hsize⟩ := MMRIVER.commit_ok hcommit
  refine ⟨?_, h.height_fits⟩
  rw [hsize]
  exact h.forest.commit hbatch

/-- Elements of the peaks of a log, in the order of their positions. -/
def peakItems (H : Hasher Item) (data : List Bytes) : List Item :=
  (peaks data.length).map fun node => nodeItem H data node.1 node.2

theorem peakItems_eq (H : Hasher Item) (data : List Bytes) :
    peakItems H data = (peakPositions data.length).map (elemAt H data) := by
  rw [peakItems, peakPositions, List.map_map]
  exact List.map_congr_left fun node _ => (elemAt_nodePos H data node.1 node.2).symm

/-- The accumulator of a log is the list of its peaks. -/
theorem MMRIVER.Holds.get_accumulator (h : self.Holds b S under H data) (hn : 0 < data.length) :
    (self.get_accumulator b R : Outcome (Error σ μ) _) = ok (peakItems H data) := by
  have hpos := nodeCount_pos hn
  have hlimit := allOnesLimit_le b
  have hfits := h.height_fits
  have hlast : (U64.sub b (nodeCount data.length) 1 : Outcome (Error σ μ) Nat) =
      ok (nodeCount data.length - 1) := Word.sub_ok (by omega)
  have hcollect := PeaksMMRIVERIter.collect_eq (ε := Error σ μ) (b := b) hn (by omega)
  rw [bind_eq_ok_iff] at hcollect
  obtain ⟨iter, hiter, hpeaks⟩ := hcollect
  rw [MMRIVER.get_accumulator, h.forest.size, if_neg (by omega)]
  simp only [hlast, hiter, hpeaks, ok_bind, h.forest.get_elems_eq lt_of_mem_peakPositions, orStoreError_ok,
    mapM_okOr_some, peakItems_eq]

end Holds

/-- A run of pushes and commits that all succeed: the data pushed, the positions
    returned, and the tree at the end. -/
inductive MMRIVER.Run (b : Profile) (M : Merge Item μ) (R : MMRStoreReadOps Store Item σ)
    (W : MMRStoreWriteOps Store Item σ) (start : MMRIVER Item Store) :
    List Bytes → List Nat → MMRIVER Item Store → Prop where
  | refl : Run b M R W start [] [] start
  | push {data : List Bytes} {positions : List Nat} {self next : MMRIVER Item Store} {d : Bytes}
      {pos : Nat} (run : Run b M R W start data positions self)
      (hpush : self.push b M R d = ok (.ok pos, next)) :
      Run b M R W start (data ++ [d]) (positions ++ [pos]) next
  | commit {data : List Bytes} {positions : List Nat} {self next : MMRIVER Item Store}
      (run : Run b M R W start data positions self)
      (hcommit : (self.commit W : Outcome Empty (Except (Error σ μ) Unit × _)) =
        ok (.ok (), next)) :
      Run b M R W start data positions next

/-- Runs from nothing in memory, on symbolic hashes. -/
abbrev MMRIVER.SymbolicRun (b : Profile) (data : List Bytes) (positions : List Nat)
    (final : MMRIVER (Term Empty) (MemStore (Term Empty))) : Prop :=
  MMRIVER.Run (σ := Empty) (μ := Empty) b Term.hasher.toMerge MemStore.readOps (MemStore.writeOps b)
    (MMRIVER.new 0 MemStore.new) data positions final

/-- Every run from size zero holds the log it pushed. Only an unchecked build
    needs to be told that the heights stayed in range. -/
theorem MMRIVER.Run.holds (S : MapStore R W) {H : Hasher Item} {store : Store} {data : List Bytes}
    {positions : List Nat} {final : MMRIVER Item Store}
    (run : MMRIVER.Run b (H.toMerge : Merge Item μ) R W (MMRIVER.new 0 store) data positions final)
    (hfit : b = .release → data.length < 2 ^ 63) :
    final.Holds b S (S.contents store) H data ∧
      positions = (List.range data.length).map nodeCount := by
  induction run with
  | refl => exact ⟨MMRIVER.Holds.new S H store, rfl⟩
  | @push data positions self next d pos run hpush ih =>
    rw [List.length_append, List.length_singleton] at hfit
    obtain ⟨hself, hpositions⟩ := ih fun hb => (Nat.lt_succ_self _).trans (hfit hb)
    obtain ⟨rfl, hnext⟩ := hself.of_push hfit hpush
    refine ⟨hnext, ?_⟩
    rw [hpositions, List.length_append, List.length_singleton, List.range_succ, List.map_append,
      List.map_singleton]
  | commit run hcommit ih =>
    obtain ⟨hself, hpositions⟩ := ih hfit
    exact ⟨hself.commit hcommit, hpositions⟩

end merkleberg.mmriver
