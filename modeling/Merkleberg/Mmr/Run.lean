import Merkleberg.Helper.Peaks
import Merkleberg.Log
import Merkleberg.Mmr
import Merkleberg.Symbolic

open machine machine.Outcome
open forest
open merkleberg.helper

namespace merkleberg.mmr

variable {Item Store σ μ : Type} {b : Profile}
  {R : MMRStoreReadOps Store Item σ} {W : MMRStoreWriteOps Store Item σ}

/-- What the tree over a log has at a position. -/
def elemAt (H : Hasher Item) (data : List Bytes) (p : Nat) : Item :=
  valueAt (leafItem H data) (fun _ left right => H.merge left right) p

theorem elemAt_of_height (H : Hasher Item) (data : List Bytes) {p h : Nat}
    (hheight : nodeHeight p = h + 1) :
    2 ^ (h + 1) ≤ p ∧
      elemAt H data p = H.merge (elemAt H data (p - 2 ^ (h + 1))) (elemAt H data (p - 1)) :=
  valueAt_of_height hheight

@[simp] theorem elemAt_nodeCount (H : Hasher Item) (data : List Bytes) (i : Nat) :
    elemAt H data (nodeCount i) = leafItem H data i := by
  rw [elemAt, ← nodePos_zero, valueAt_nodePos, treeRoot_zero]

/-- Later leaves do not move the elements that are there. -/
theorem elemAt_append {H : Hasher Item} {data : List Bytes} (more : List Bytes) {p : Nat}
    (hp : p < nodeCount data.length) : elemAt H (data ++ more) p = elemAt H data p :=
  valueAt_congr hp fun _ hi => leafItem_append_left H hi

theorem elemAt_take (H : Hasher Item) {log : List Bytes} {n p : Nat} (hn : n ≤ log.length)
    (hp : p < nodeCount n) : elemAt H (log.take n) p = elemAt H log p :=
  value_take (fun hp => elemAt_append _ hp) hn hp

/-- A tree holds a log when every position has the element of that log. -/
abbrev MMR.Holds (S : MapStore R W) (under : Nat → Option Item) (H : Hasher Item)
    (data : List Bytes) (self : MMR Item Store) : Prop :=
  HoldsForest S under (elemAt H data) data.length self.mmr_size self.batch

section Holds

variable {S : MapStore R W} {under : Nat → Option Item} {H : Hasher Item} {data : List Bytes}
  {self : MMR Item Store}

/-- An empty tree holds the empty log. -/
theorem MMR.Holds.new (S : MapStore R W) (H : Hasher Item) (store : Store) :
    (MMR.new 0 store).Holds S (S.contents store) H [] :=
  HoldsForest.new S store _

theorem MMR.Holds.read_eq (h : self.Holds S under H data) {p : Nat}
    (hp : p < nodeCount data.length) :
    (self.read b R p : Outcome (Error σ μ) Item) = ok (elemAt H data p) := by
  rw [MMR.read, h.get_elem_eq hp]
  rfl

/-- An element that is not new is read through the batch. -/
theorem MMR.Holds.find_elem_eq (h : self.Holds S under H data) {p : Nat} (hashes : List Item)
    (hp : p < nodeCount data.length) :
    (self.find_elem b R p hashes : Outcome (Error σ μ) Item) = ok (elemAt H data p) := by
  have hbefore : U64.checkedSub p self.mmr_size = none := by
    rw [U64.checkedSub, if_neg]
    have := h.size
    omega
  simp only [MMR.find_elem, hbefore, Option.bind_none, h.read_eq hp]

/-- At a height the new leaf completes, the loop merges the peak of that height
    with the newest element. -/
theorem MMR.push_body_next {M : Merge Item μ} {n j : Nat} (hlt : n < 2 ^ 63)
    (hj : j < trailingZeros (n + 1)) {elems : List Item} {left right : Item}
    (hleft : (self.find_elem b R (nodeCount n + (j + 1) - 2 ^ (j + 1)) elems :
      Outcome (Error σ μ) Item) = ok left) (hright : elems.getLast? = some right) :
    (MMR.push.body b M R n self (2 ^ j, nodeCount n + j, elems) : Outcome (Error σ μ) _) =
      (do let parent ← orMergeError (M.merge left right)
          ok (.next (2 ^ (j + 1), nodeCount n + (j + 1), elems ++ [parent]))) := by
  have hstep := nodeCount_succ n
  have hfits := nodeCount_le_nodeCount_iff.mpr (show n + 1 ≤ 2 ^ 63 by omega)
  rw [nodeCount_two_pow] at hfits
  have hset := (testBit_iff_lt_trailingZeros hj.le).mpr hj
  obtain ⟨hpow, _⟩ := left_child_old hj
  have hself : j + 1 < 2 ^ (j + 1) := Nat.lt_two_pow_self
  have hpeak : (U64.shl b (2 ^ j) 1 : Outcome (Error σ μ) Nat) = ok (2 ^ (j + 1)) := by
    have hdouble : 2 ^ j * 2 ^ 1 = 2 ^ (j + 1) := (pow_add 2 j 1).symm
    rw [U64.shl, Word.shl_ok (by omega) (by omega), hdouble]
  have hpos : (U64.add b (nodeCount n + j) 1 : Outcome (Error σ μ) Nat) =
      ok (nodeCount n + (j + 1)) := Word.add_ok (by omega)
  have hleft_pos : (U64.sub b (nodeCount n + (j + 1)) (2 ^ (j + 1)) : Outcome (Error σ μ) Nat) =
      ok (nodeCount n + (j + 1) - 2 ^ (j + 1)) := Word.sub_ok hpow
  simp [MMR.push.body, Nat.and_two_pow, hset, hpeak, hpos, hleft_pos, hleft, hright]

/-- At the first height whose peak is missing, the loop ends. -/
theorem MMR.push_body_stop {M : Merge Item μ} {n j : Nat} (hj : j = trailingZeros (n + 1)) (pos : Nat)
    (elems : List Item) :
    (MMR.push.body b M R n self (2 ^ j, pos, elems) : Outcome (Error σ μ) _) =
      ok (.done (pos, elems)) := by
  have hclear := mt (testBit_iff_lt_trailingZeros hj.le).mp (by omega)
  simp [MMR.push.body, Nat.and_two_pow, hclear]

/-- From height `j` the loop adds the parents that are still missing. -/
theorem MMR.push_loop {d : Bytes} (h : self.Holds S under H data) (hlt : data.length < 2 ^ 63)
    {j fuel : Nat} (hj : j ≤ trailingZeros (data.length + 1))
    (hfuel : trailingZeros (data.length + 1) - j < fuel) :
    (loop (MMR.push.body b (H.toMerge : Merge Item μ) R data.length self) fuel
        (2 ^ j, nodeCount data.length + j, spine (elemAt H (data ++ [d])) data.length j) :
      Outcome (Error σ μ) _) =
      ok (nodeCount data.length + trailingZeros (data.length + 1),
        spine (elemAt H (data ++ [d])) data.length (trailingZeros (data.length + 1))) := by
  induction hmeasure : trailingZeros (data.length + 1) - j generalizing j fuel with
  | zero =>
    obtain rfl : j = trailingZeros (data.length + 1) := by omega
    obtain ⟨fuel, rfl⟩ : ∃ rest, fuel = rest + 1 := ⟨fuel - 1, by omega⟩
    exact loop_done (MMR.push_body_stop rfl _ _)
  | succ measure ih =>
    obtain ⟨fuel, rfl⟩ : ∃ rest, fuel = rest + 1 := ⟨fuel - 1, by omega⟩
    have hnext : j < trailingZeros (data.length + 1) := by omega
    obtain ⟨_, hold⟩ := left_child_old hnext
    obtain ⟨_, hvalue⟩ := elemAt_of_height H (data ++ [d]) (nodeHeight_nodeCount_add hnext)
    have hfind := h.find_elem_eq (b := b) (μ := μ)
      (spine (elemAt H (data ++ [d])) data.length j) hold
    rw [← elemAt_append [d] hold] at hfind
    have hbody := MMR.push_body_next (M := (H.toMerge : Merge Item μ)) hlt hnext hfind
      (spine_getLast? _ _ _)
    rw [show nodeCount data.length + (j + 1) - 1 = nodeCount data.length + j by omega] at hvalue
    rw [Hasher.toMerge_merge, orMergeError_ok, ok_bind, ← hvalue, spine_succ] at hbody
    rw [loop_next hbody]
    exact ih (by omega) (by omega) (by omega)

/-- A push returns the position of the new leaf and holds the longer log. -/
theorem MMR.Holds.push (h : self.Holds S under H data) (hlt : data.length < 2 ^ 63) (d : Bytes) :
    ∃ next, self.push b (H.toMerge : Merge Item μ) R d = ok (.ok (nodeCount data.length), next) ∧
      next.Holds S under H (data ++ [d]) := by
  have hstep := nodeCount_succ data.length
  have hfits := nodeCount_le_nodeCount_iff.mpr (show data.length + 1 ≤ 2 ^ 63 by omega)
  rw [nodeCount_two_pow] at hfits
  have hmap : (get_peak_map b (nodeCount data.length) : Outcome (Error σ μ) Nat) =
      ok data.length := get_peak_map_eq (Nat.le_refl _) (by omega) h.fits
  have hbound : trailingZeros (data.length + 1) < 65 := by
    have hself : trailingZeros (data.length + 1) < 2 ^ trailingZeros (data.length + 1) :=
      Nat.lt_two_pow_self
    have hle : 2 ^ trailingZeros (data.length + 1) ≤ 2 ^ 63 :=
      (Nat.le_of_dvd (by omega) ((two_pow_dvd_iff (by omega) _).mpr (Nat.le_refl _))).trans hlt
    have := (Nat.pow_le_pow_iff_right (by omega : 1 < 2)).mp hle
    omega
  have hloop := MMR.push_loop (b := b) (μ := μ) (d := d) h hlt (Nat.zero_le _) hbound
  have hleaf : spine (elemAt H (data ++ [d])) data.length 0 = [H.leaf_hash d] := by
    rw [spine_zero, elemAt_nodeCount, leafItem_append_self]
  rw [hleaf, pow_zero, Nat.add_zero] at hloop
  have hsize : (U64.add b (nodeCount data.length + trailingZeros (data.length + 1)) 1 :
      Outcome (Error σ μ) Nat) = ok (nodeCount (data.length + 1)) := by
    rw [U64.add, Word.add_ok (by omega), hstep]
    congr 1
    omega
  let elems := spine (elemAt H (data ++ [d])) data.length (trailingZeros (data.length + 1))
  refine ⟨{ mmr_size := nodeCount (data.length + 1)
            batch := self.batch.append (nodeCount data.length) elems }, ?_, ?_⟩
  · simp only [MMR.push, MMR.push.merged, Hasher.toMerge_leaf_hash, orMergeError_ok, ok_bind, h.size,
      hmap, hloop, ok_orReturn]
    rw [hsize, ok_orReturn]
  · have hlonger := (h.congr fun p hp => elemAt_append [d] hp).push (by omega)
    rw [MMR.Holds, List.length_append, List.length_singleton]
    exact hlonger

/-- A checked push onto the largest forest whose size fits in a word overflows. -/
theorem MMR.Holds.push_full (h : self.Holds S under H data) (hfull : data.length = 2 ^ 63)
    (d : Bytes) :
    self.push .debug (H.toMerge : Merge Item μ) R d = panic := by
  have hsize : self.mmr_size = 2 ^ 64 - 1 := by rw [h.size, hfull, nodeCount_two_pow]
  have hmap : (get_peak_map .debug (2 ^ 64 - 1) : Outcome (Error σ μ) Nat) = ok (2 ^ 63) :=
    get_peak_map_eq (by rw [nodeCount_two_pow]) (by
      rw [nodeCount_succ, nodeCount_two_pow]
      omega) (by decide)
  have hbody : (MMR.push.body .debug (H.toMerge : Merge Item μ) R (2 ^ 63) self
      (1, 2 ^ 64 - 1, [H.leaf_hash d]) : Outcome (Error σ μ) _) =
      ok (.done (2 ^ 64 - 1, [H.leaf_hash d])) := by
    simp [MMR.push.body]
  have hnext : (U64.add .debug (2 ^ 64 - 1) 1 : Outcome (Error σ μ) Nat) = panic := rfl
  simp only [MMR.push, MMR.push.merged, Hasher.toMerge_leaf_hash, orMergeError_ok, ok_bind, hsize, hmap,
    loop_done hbody, ok_orReturn]
  rw [hnext, panic_orReturn]

/-- A push that succeeded was one within the range of sizes. Only an unchecked
    build needs to be told that the size stayed in a word. -/
theorem MMR.Holds.of_push (h : self.Holds S under H data) {d : Bytes} {pos : Nat}
    {next : MMR Item Store} (hfit : b = .release → data.length < 2 ^ 63)
    (hpush : self.push b (H.toMerge : Merge Item μ) R d = ok (.ok pos, next)) :
    pos = nodeCount data.length ∧ next.Holds S under H (data ++ [d]) := by
  have hlt : data.length < 2 ^ 63 := by
    cases b with
    | release => exact hfit rfl
    | debug =>
      refine lt_of_le_of_ne h.leaves_lt fun hfull => ?_
      rw [h.push_full hfull d] at hpush
      cases hpush
  obtain ⟨next', hpush', hnext⟩ := h.push (b := b) (μ := μ) hlt d
  rw [hpush', ok.injEq, Prod.mk.injEq, Except.ok.injEq] at hpush
  obtain ⟨rfl, rfl⟩ := hpush
  exact ⟨rfl, hnext⟩

/-- A commit that succeeds is one of the batch, and leaves the size alone. -/
theorem MMR.commit_ok {next : MMR Item Store}
    (hcommit : (self.commit W : Outcome Empty (Except (Error σ μ) Unit × _)) = ok (.ok (), next)) :
    self.batch.commit W = ok (.ok (), next.batch) ∧ next.mmr_size = self.mmr_size := by
  rw [MMR.commit, bind_eq_ok_iff] at hcommit
  obtain ⟨⟨result, batch⟩, hbatch, hnext⟩ := hcommit
  cases result with
  | error error => simp [Except.mapError] at hnext
  | ok =>
    simp only [ok.injEq, Prod.mk.injEq] at hnext
    rw [← hnext.2]
    exact ⟨hbatch, rfl⟩

theorem MMR.Holds.commit (h : self.Holds S under H data) {next : MMR Item Store}
    (hcommit : (self.commit W : Outcome Empty (Except (Error σ μ) Unit × _)) = ok (.ok (), next)) :
    next.Holds S under H data := by
  obtain ⟨hbatch, hsize⟩ := MMR.commit_ok hcommit
  rw [MMR.Holds, hsize]
  exact HoldsForest.commit h hbatch

theorem bag_rhs_peaks.bag_eq (H : Hasher Item) (right_peak : Item) (rest : List Item) :
    bag_rhs_peaks.bag (H.toMerge : Merge Item μ) right_peak rest =
      ok (rest.foldl H.merge_peaks right_peak) := by
  induction rest generalizing right_peak with
  | nil => rfl
  | cons left_peak rest ih =>
    rw [bag_rhs_peaks.bag, Hasher.toMerge_merge_peaks, ok_bind, ih, List.foldl_cons]

theorem bag_rhs_peaks_eq (H : Hasher Item) (rhs_peaks : List Item) :
    bag_rhs_peaks (H.toMerge : Merge Item μ) rhs_peaks = ok (bagPeaks H.merge_peaks rhs_peaks) := by
  unfold bag_rhs_peaks bagPeaks
  cases rhs_peaks.reverse with
  | nil => rfl
  | cons right_peak rest => simp only [bag_rhs_peaks.bag_eq, map_ok]

/-- Elements of the peaks of a log, in the order of their positions. -/
def peakItems (H : Hasher Item) (data : List Bytes) : List Item :=
  (peakPositions data.length).map (elemAt H data)

theorem peakItems_eq (H : Hasher Item) (data : List Bytes) :
    peakItems H data =
      (peaks data.length).map fun node =>
        treeRoot (leafItem H data) (fun _ left right => H.merge left right) node.1 node.2 := by
  rw [peakItems, peakPositions, List.map_map]
  exact List.map_congr_left fun node _ => valueAt_nodePos _ _ node.1 node.2

/-- The root of a log bags the elements of its peaks. -/
theorem MMR.Holds.get_root (h : self.Holds S under H data) (hn : 0 < data.length) :
    ∃ root, (self.get_root b (H.toMerge : Merge Item μ) R : Outcome (Error σ μ) Item) = ok root ∧
      bagPeaks H.merge_peaks (peakItems H data) = some root := by
  have hpos := nodeCount_pos hn
  have hsize := h.size
  rw [MMR.get_root, if_neg (by omega)]
  by_cases hone : data.length = 1
  · have hcount : nodeCount 1 = 1 := by decide
    have hpeaks : peakPositions 1 = [0] := by decide
    rw [if_pos (by rw [hsize, hone, hcount]), h.read_eq (by omega)]
    exact ⟨_, rfl, by rw [peakItems, hone, hpeaks]; rfl⟩
  · have hlt : nodeCount 1 < nodeCount data.length := nodeCount_lt_nodeCount_iff.mpr (by omega)
    have hcount : nodeCount 1 = 1 := by decide
    rw [if_neg (by omega)]
    have hne : peakItems H data ≠ [] := by
      rw [peakItems_eq]
      simpa using peaks_ne_nil hn
    obtain ⟨root, hroot⟩ := exists_bagPeaks H.merge_peaks hne
    refine ⟨root, ?_, hroot⟩
    have hcollect := PeaksIter.collect_eq (ε := Error σ μ) (b := b) (Nat.le_refl (nodeCount data.length))
      (by rw [nodeCount_succ]; omega) h.fits
    rw [bind_eq_ok_iff] at hcollect
    obtain ⟨iter, hiter, hpeaks⟩ := hcollect
    simp only [hsize, hiter, hpeaks, ok_bind, h.get_elems_eq lt_of_mem_peakPositions, orStoreError_ok,
      mapM_okOr_some, bag_rhs_peaks_eq, orMergeError_ok]
    rw [peakItems] at hroot
    rw [hroot, okOr_some]

end Holds

/-- A run of pushes and commits that all succeed: the data pushed, the positions
    returned, and the tree at the end. -/
inductive MMR.Run (b : Profile) (M : Merge Item μ) (R : MMRStoreReadOps Store Item σ)
    (W : MMRStoreWriteOps Store Item σ) (start : MMR Item Store) :
    List Bytes → List Nat → MMR Item Store → Prop where
  | refl : Run b M R W start [] [] start
  | push {data : List Bytes} {positions : List Nat} {self next : MMR Item Store} {d : Bytes}
      {pos : Nat} (run : Run b M R W start data positions self)
      (hpush : self.push b M R d = ok (.ok pos, next)) :
      Run b M R W start (data ++ [d]) (positions ++ [pos]) next
  | commit {data : List Bytes} {positions : List Nat} {self next : MMR Item Store}
      (run : Run b M R W start data positions self)
      (hcommit : (self.commit W : Outcome Empty (Except (Error σ μ) Unit × _)) =
        ok (.ok (), next)) :
      Run b M R W start data positions next

/-- Runs from nothing in memory, on symbolic hashes. -/
abbrev MMR.SymbolicRun (b : Profile) (data : List Bytes) (positions : List Nat)
    (final : MMR (Term Empty) (MemStore (Term Empty))) : Prop :=
  MMR.Run (σ := Empty) (μ := Empty) b Term.hasher.toMerge MemStore.readOps (MemStore.writeOps b)
    (MMR.new 0 MemStore.new) data positions final

/-- Every run from size zero holds the log it pushed. Only an unchecked build
    needs to be told that the size stayed in a word. -/
theorem MMR.Run.holds (S : MapStore R W) {H : Hasher Item} {store : Store} {data : List Bytes}
    {positions : List Nat} {final : MMR Item Store}
    (run : MMR.Run b (H.toMerge : Merge Item μ) R W (MMR.new 0 store) data positions final)
    (hfit : b = .release → data.length ≤ 2 ^ 63) :
    final.Holds S (S.contents store) H data ∧
      positions = (List.range data.length).map nodeCount := by
  induction run with
  | refl => exact ⟨MMR.Holds.new S H store, rfl⟩
  | @push data positions self next d pos run hpush ih =>
    rw [List.length_append, List.length_singleton] at hfit
    obtain ⟨hself, hpositions⟩ := ih fun hb => (Nat.le_succ _).trans (hfit hb)
    obtain ⟨rfl, hnext⟩ := hself.of_push hfit hpush
    refine ⟨hnext, ?_⟩
    rw [hpositions, List.length_append, List.length_singleton, List.range_succ, List.map_append,
      List.map_singleton]
  | commit run hcommit ih =>
    obtain ⟨hself, hpositions⟩ := ih hfit
    exact ⟨hself.commit hcommit, hpositions⟩

/-- Every log can be pushed, until the size no longer fits a word. -/
theorem MMR.exists_run (S : MapStore R W) (H : Hasher Item) (store : Store) {data : List Bytes}
    (hfit : data.length ≤ 2 ^ 63) :
    ∃ positions final,
      MMR.Run b (H.toMerge : Merge Item μ) R W (MMR.new 0 store) data positions final := by
  induction data using List.reverseRecOn with
  | nil => exact ⟨[], _, .refl⟩
  | append_singleton data d ih =>
    rw [List.length_append, List.length_singleton] at hfit
    obtain ⟨positions, self, run⟩ := ih ((Nat.le_succ _).trans hfit)
    obtain ⟨next, hpush, _⟩ := (run.holds S fun _ => (Nat.le_succ _).trans hfit).1.push hfit d
    exact ⟨_, next, run.push hpush⟩

end merkleberg.mmr
