import Merkleberg.Mmr.Session
import Merkleberg.Mmriver.Session

open machine machine.Outcome
open forest
open merkleberg.helper

namespace merkleberg

variable {Item Store Store' σ μ : Type} {b : Profile} {M : Merge Item μ}
  {R : MMRStoreReadOps Store Item σ} {W : MMRStoreWriteOps Store Item σ}
  {R' : MMRStoreReadOps Store' Item σ} {W' : MMRStoreWriteOps Store' Item σ}

/-- A tree of each kind over `n` leaves, with the same element at every position
    of theirs and none at any other. -/
structure Twins (S : MapStore R W) (S' : MapStore R' W') (n : Nat) (tree : mmr.MMR Item Store)
    (tree' : mmriver.MMRIVER Item Store') : Prop where
  size : tree.mmr_size = nodeCount n
  size' : tree'.mmr_size = nodeCount n
  tail : tree.batch.EndsAt (nodeCount n)
  tail' : tree'.batch.EndsAt (nodeCount n)
  stored : ∀ p, (∃ elem, tree.batch.view S p = some elem) ↔ p < nodeCount n
  same : tree'.batch.view S' = tree.batch.view S

/-- The room that a tree of fewer than 2^61 leaves leaves in a word. -/
theorem nodeCount_small {n : Nat} (hn : n ≤ 2 ^ 61) (b : Profile) :
    nodeCount n < 2 ^ 62 ∧ nodeCount n + 1 < allOnesLimit b := by
  have hcount := nodeCount_le_nodeCount_iff.mpr hn
  have hlimit := le_allOnesLimit b
  rw [nodeCount_two_pow] at hcount
  omega

section Twins

variable {S : MapStore R W} {S' : MapStore R' W'} {n : Nat} {self : mmr.MMR Item Store}
  {self' : mmriver.MMRIVER Item Store'}

theorem Twins.new {store : Store} {store' : Store'} (hempty : ∀ p, S.contents store p = none)
    (hempty' : ∀ p, S'.contents store' p = none) : Twins S S' 0 (.new 0 store) (.new 0 store') where
  size := rfl
  size' := rfl
  tail := MMRBatch.endsAt_new store _
  tail' := MMRBatch.endsAt_new store' _
  stored p := by
    refine iff_of_false ?_ (Nat.not_lt_zero p)
    rintro ⟨elem, hview⟩
    cases (hempty p).symm.trans hview
  same := funext fun p => (hempty' p).trans (hempty p).symm

/-- Both trees read alike at every position. -/
theorem Twins.get_elem (h : Twins S S' n self self') (hn : n ≤ 2 ^ 61) (p : Nat) :
    self.batch.get_elem b R p = ok (self.batch.view S p) ∧
      self'.batch.get_elem b R' p = ok (self.batch.view S p) := by
  obtain ⟨hfits, _⟩ := nodeCount_small hn b
  refine ⟨MMRBatch.get_elem_eq S h.tail (by omega) p, ?_⟩
  rw [MMRBatch.get_elem_eq S' h.tail' (by omega), h.same]

/-- A peak that a push merges is the same in both trees. -/
theorem Twins.find_elem_old (h : Twins S S' n self self') (hn : n ≤ 2 ^ 61) {p : Nat}
    (hp : p < nodeCount n) (elems : List Item) :
    ∃ elem, (self.find_elem b R p elems : Outcome (Error σ μ) Item) = ok elem ∧
      (self'.find_elem b R' p elems : Outcome (Error σ μ) Item) = ok elem := by
  obtain ⟨elem, helem⟩ := (h.stored p).mpr hp
  obtain ⟨hread, hread'⟩ := h.get_elem (b := b) hn p
  rw [helem] at hread hread'
  have hbefore : U64.checkedSub p (nodeCount n) = none := if_neg (by omega)
  refine ⟨elem, ?_, ?_⟩
  · simp only [mmr.MMR.find_elem, mmr.MMR.read, h.size, hbefore, Option.bind_none, hread, orStoreError_ok,
      ok_bind, okOr_some]
  · simp only [mmriver.MMRIVER.find_elem, h.size', hbefore, Option.bind_none, hread', orStoreError_ok,
      ok_bind, okOr_some]

/-- The right child of a merge is the newest element. -/
theorem Twins.find_elem_new (h : Twins S S' n self self') {j : Nat} {elems : List Item} {elem : Item}
    (hlast : elems[j]? = some elem) :
    (self'.find_elem b R' (nodeCount n + j) elems : Outcome (Error σ μ) Item) = ok elem := by
  have hafter : U64.checkedSub (nodeCount n + j) (nodeCount n) = some j := by
    rw [U64.checkedSub, if_pos (Nat.le_add_right _ _), Nat.add_sub_cancel_left]
  simp only [mmriver.MMRIVER.find_elem, h.size', hafter, Option.bind_some, hlast]

/-- The two merge loops at the same height, with the same new elements. -/
def SameHeight (n : Nat) (state : Nat × Nat × List Item) (state' : Nat × Nat × List Item) : Prop :=
  ∃ j elems, j ≤ trailingZeros (n + 1) ∧ elems.length = j + 1 ∧ state = (2 ^ j, nodeCount n + j, elems) ∧
    state' = (nodeCount n + (j + 1), j, elems)

/-- The two merge loops at their ends, with the same new elements. -/
def SameElems (n : Nat) (result result' : Nat × List Item) : Prop :=
  ∃ elems : List Item, elems.length = trailingZeros (n + 1) + 1 ∧
    result = (nodeCount n + trailingZeros (n + 1), elems) ∧ result' = (nodeCount (n + 1), elems)

/-- The bitmap of the one loop and the heights of the other stop at the same
    height, and up to it both pick the same children. -/
theorem Twins.push_body (h : Twins S S' n self self') (hn : n < 2 ^ 61)
    (hmerge : ∀ pos left right, M.merge_pos pos left right = M.merge left right)
    {state state' : Nat × Nat × List Item} (hstate : SameHeight n state state') :
    Outcome.Alike (Pass.Alike (SameHeight n) (SameElems n))
      (mmr.MMR.push.body b M R n self state : Outcome (Error σ μ) _)
      (mmriver.MMRIVER.push.body b M R' self' state') := by
  obtain ⟨j, elems, hj, hlength, rfl, rfl⟩ := hstate
  have hstep := nodeCount_succ n
  obtain ⟨_, hheights⟩ := nodeCount_small (show n + 1 ≤ 2 ^ 61 from hn) b
  rcases Nat.lt_or_eq_of_le hj with hnext | hstop
  · obtain ⟨_, hold⟩ := left_child_old hnext
    obtain ⟨left, hleft, hleft'⟩ := h.find_elem_old (b := b) (μ := μ) hn.le hold elems
    have hlast : elems[j]? = some elems[j] := List.getElem?_eq_getElem (by omega)
    have hright : elems.getLast? = some elems[j] := by
      rw [List.getLast?_eq_getElem?, show elems.length - 1 = j by omega, hlast]
    rw [mmr.MMR.push_body_next (by omega) hnext hleft hright,
      mmriver.MMRIVER.push_body_next hnext (by omega) hleft' (h.find_elem_new hlast), hmerge]
    refine (Outcome.Alike.refl _).bind fun parent _ hparent => ?_
    subst hparent
    exact .ok (.next ⟨j + 1, elems ++ [parent], hnext, by simp [hlength], rfl, rfl⟩)
  · rw [mmr.MMR.push_body_stop hstop, mmriver.MMRIVER.push_body_stop hstop hheights]
    exact .ok (.done ⟨elems, by omega, by rw [hstop], rfl⟩)

/-- The elements of a new leaf go into both trees. -/
theorem Twins.append (h : Twins S S' n self self') {elems : List Item}
    (hlength : elems.length = trailingZeros (n + 1) + 1) :
    Twins S S' (n + 1) { mmr_size := nodeCount (n + 1), batch := self.batch.append (nodeCount n) elems }
      { mmr_size := nodeCount (n + 1), batch := self'.batch.append (nodeCount n) elems } := by
  have hstep := nodeCount_succ n
  have hne : elems ≠ [] := List.ne_nil_of_length_pos (by omega)
  have htop : nodeCount n + elems.length = nodeCount (n + 1) := by omega
  refine ⟨rfl, rfl, htop ▸ h.tail.append hne, htop ▸ h.tail'.append hne, fun p => ?_, ?_⟩
  · rw [MMRBatch.view_append h.tail hne]
    by_cases hold : p < nodeCount n
    · rw [overlay_of_lt hold, h.stored]
      exact iff_of_true hold (by omega)
    · by_cases hnew : p < nodeCount (n + 1)
      · rw [overlay_of_mem (by omega) (by omega), List.getElem?_eq_getElem (by omega)]
        exact iff_of_true ⟨_, rfl⟩ hnew
      · rw [overlay_of_ge (by omega), h.stored]
        exact iff_of_false hold hnew
  · rw [MMRBatch.view_append h.tail hne, MMRBatch.view_append h.tail' hne, h.same]

/-- Calls that succeed alike and leave twins over `more` leaves more, or that fail
    alike and leave twins over some of these. -/
inductive SamePush {α : Type} (S : MapStore R W) (S' : MapStore R' W') (n more : Nat) :
    Except (Error σ μ) α × mmr.MMR Item Store → Except (Error σ μ) α × mmriver.MMRIVER Item Store' →
      Prop where
  | ok {value : α} {tree : mmr.MMR Item Store} {tree' : mmriver.MMRIVER Item Store'}
      (htwins : Twins S S' (n + more) tree tree') : SamePush S S' n more (.ok value, tree) (.ok value, tree')
  | failed {error : Error σ μ} {k : Nat} {tree : mmr.MMR Item Store}
      {tree' : mmriver.MMRIVER Item Store'} (hk : k ≤ more) (htwins : Twins S S' (n + k) tree tree') :
      SamePush S S' n more (.error error, tree) (.error error, tree')

/-- A push into the one tree and into the other come to the same. -/
theorem Twins.push (h : Twins S S' n self self') (hn : n < 2 ^ 61)
    (hmerge : ∀ pos left right, M.merge_pos pos left right = M.merge left right) (d : Bytes) :
    Outcome.Alike (SamePush S S' n 1) (self.push b M R d) (self'.push b M R' d) := by
  have hstep := nodeCount_succ n
  obtain ⟨hfits, _⟩ := nodeCount_small (show n + 1 ≤ 2 ^ 61 from hn) b
  have hmap : (get_peak_map b (nodeCount n) : Outcome (Error σ μ) Nat) = ok n :=
    get_peak_map_eq (Nat.le_refl _) (by omega) (by omega)
  have hi : (U64.add b (nodeCount n) 1 : Outcome (Error σ μ) Nat) = ok (nodeCount n + 1) :=
    Word.add_ok (by omega)
  have hsize : (U64.add b (nodeCount n + trailingZeros (n + 1)) 1 : Outcome (Error σ μ) Nat) =
      ok (nodeCount (n + 1)) := by
    rw [U64.add, Word.add_ok (by omega), hstep]
    congr 1
    omega
  have hmerged : Outcome.Alike (SameElems n) (mmr.MMR.push.merged b M R self d : Outcome (Error σ μ) _)
      (mmriver.MMRIVER.push.merged b M R' self' d) := by
    refine (Outcome.Alike.refl (orMergeError (M.leaf_hash d))).bind fun elem _ helem => ?_
    subst helem
    simp only [h.size, h.size', hmap, hi, ok_bind]
    have hstart : SameHeight n (1, nodeCount n, [elem]) (nodeCount n + 1, 0, [elem]) :=
      ⟨0, [elem], Nat.zero_le _, rfl, rfl, rfl⟩
    exact loop_alike (fun _ _ => h.push_body hn hmerge) 65 hstart
  refine hmerged.orReturn (fun error => .failed (Nat.zero_le 1) h) fun result result' hsame => ?_
  obtain ⟨elems, hlength, rfl, rfl⟩ := hsame
  simp only [hsize, ok_orReturn, h.size, h.size']
  exact .ok (.ok (h.append hlength))

theorem Twins.pushAll (h : Twins S S' n self self') {data : List Bytes} (hn : n + data.length < 2 ^ 61)
    (hmerge : ∀ pos left right, M.merge_pos pos left right = M.merge left right) :
    Outcome.Alike (SamePush S S' n data.length) (merkleberg.pushAll (mmr.MMR.push b M R) self data)
      (merkleberg.pushAll (mmriver.MMRIVER.push b M R') self' data) := by
  induction data generalizing n self self' with
  | nil => exact .ok (.ok h)
  | cons d data ih =>
    rw [List.length_cons] at hn ⊢
    refine (h.push (by omega) hmerge d).bind fun result result' hpushed => ?_
    cases hpushed with
    | failed hk hnext => exact .ok (.failed (by omega) hnext)
    | ok hnext =>
      refine (ih hnext (by omega)).bind fun rest rest' hrest => ?_
      cases hrest with
      | failed hk hfinal => exact .ok (.failed (by omega) (Nat.add_assoc n 1 _ ▸ hfinal))
      | ok hfinal => exact .ok (.ok (by rwa [Nat.add_assoc, Nat.add_comm 1] at hfinal))

/-- Both trees read the same elements at positions they have. -/
theorem Twins.get_elems (h : Twins S S' n self self') (hn : n ≤ 2 ^ 61) {positions : List Nat}
    (hinside : ∀ p ∈ positions, p < nodeCount n) :
    ∃ elems : List Item, self.batch.get_elems b R positions = ok (elems.map some) ∧
      self'.batch.get_elems b R' positions = ok (elems.map some) := by
  obtain ⟨hfits, _⟩ := nodeCount_small hn b
  rw [MMRBatch.get_elems_eq S h.tail (by omega), MMRBatch.get_elems_eq S' h.tail' (by omega)]
  induction positions with
  | nil => exact ⟨[], rfl, rfl⟩
  | cons p positions ih =>
    obtain ⟨elem, hview⟩ := (h.stored p).mpr (hinside p List.mem_cons_self)
    obtain ⟨elems, helems, helems'⟩ := ih fun q hq => hinside q (List.mem_cons_of_mem p hq)
    rw [ok.injEq] at helems helems'
    exact ⟨elem :: elems, by rw [List.map_cons, List.map_cons, hview, helems],
      by rw [List.map_cons, List.map_cons, h.same, hview, ← h.same, helems']⟩

/-- The two peak iterators walk the same peaks, which both trees bag alike. -/
theorem Twins.get_root (h : Twins S S' n self self') (hn : n ≤ 2 ^ 61) :
    (self.get_root b M R : Outcome (Error σ μ) Item) = self'.get_root b M R' := by
  rcases Nat.eq_zero_or_pos n with rfl | hpos
  · rw [mmr.MMR.get_root, mmriver.MMRIVER.get_root, mmriver.MMRIVER.get_accumulator, h.size, h.size']
    rfl
  obtain ⟨hfits, _⟩ := nodeCount_small hn b
  have hcount := nodeCount_pos hpos
  have hlast : (U64.sub b (nodeCount n) 1 : Outcome (Error σ μ) Nat) = ok (nodeCount n - 1) :=
    Word.sub_ok (by omega)
  have hcollect' := PeaksMMRIVERIter.collect_eq (ε := Error σ μ) (b := b) hpos (by omega)
  obtain ⟨iter', hiter', hpeaks'⟩ := bind_eq_ok_iff.mp hcollect'
  obtain ⟨elems, hread, hread'⟩ := h.get_elems (b := b) hn lt_of_mem_peakPositions
  have hall : ((elems.map some).mapM (okOr .InconsistentStore) : Outcome (Error σ μ) _) = ok elems := by
    simpa using mapM_okOr_some (Error.InconsistentStore : Error σ μ) id elems
  have hroot' : (self'.get_root b M R' : Outcome (Error σ μ) Item) = (do
      let root ← orMergeError (mmr.bag_rhs_peaks M elems)
      okOr .InconsistentStore root) := by
    simp only [mmriver.MMRIVER.get_root, mmriver.MMRIVER.get_accumulator, h.size', if_neg hcount.ne',
      hlast, hiter', hpeaks', hread', hall, orStoreError_ok, ok_bind, mmriver.bag_rhs_peaks]
  rw [hroot', mmr.MMR.get_root, h.size, if_neg hcount.ne']
  by_cases hone : nodeCount n = 1
  · obtain rfl := mmr.eq_one_of_nodeCount hone
    obtain ⟨elem, hview⟩ := (h.stored 0).mpr (by omega)
    rw [show peakPositions 1 = [0] by decide, MMRBatch.get_elems_eq S h.tail (by omega), ok.injEq,
      List.map_singleton, hview] at hread
    obtain rfl : elems = [elem] :=
      List.map_injective_iff.mpr (Option.some_injective Item) (hread.symm.trans rfl)
    rw [if_pos hone, mmr.MMR.read, MMRBatch.get_elem_eq S h.tail (by omega), hview]
    rfl
  · have hcollect := PeaksIter.collect_eq (ε := Error σ μ) (b := b) (Nat.le_refl (nodeCount n))
      (by rw [nodeCount_succ]; omega) (by omega)
    obtain ⟨iter, hiter, hpeaks⟩ := bind_eq_ok_iff.mp hcollect
    simp only [if_neg hone, hiter, hpeaks, hread, hall, orStoreError_ok, ok_bind]

end Twins

/-- The two kinds of tree, with the same size, root and element at every position,
    and with elements at the positions below the size and nowhere else. -/
structure SameTree (b : Profile) (M : Merge Item μ) (R : MMRStoreReadOps Store Item σ)
    (R' : MMRStoreReadOps Store' Item σ) (self : mmr.MMR Item Store)
    (self' : mmriver.MMRIVER Item Store') : Prop where
  mmr_size : self.mmr_size = self'.mmr_size
  get_elem : ∀ p, self.batch.get_elem b R p = self'.batch.get_elem b R' p
  has_elem : ∀ p, (∃ elem, self.batch.get_elem b R p = ok (some elem)) ↔ p < self.mmr_size
  get_root : (self.get_root b M R : Outcome (Error σ μ) Item) = self'.get_root b M R'

theorem Twins.same_tree {S : MapStore R W} {S' : MapStore R' W'} {n : Nat} {self : mmr.MMR Item Store}
    {self' : mmriver.MMRIVER Item Store'} (h : Twins S S' n self self') (hn : n ≤ 2 ^ 61) :
    SameTree b M R R' self self' where
  mmr_size := h.size.trans h.size'.symm
  get_elem p := (h.get_elem hn p).1.trans (h.get_elem hn p).2.symm
  has_elem p := by
    rw [(h.get_elem hn p).1, h.size, ← h.stored]
    simp only [ok.injEq]
  get_root := h.get_root hn

theorem SamePush.same_tree {S : MapStore R W} {S' : MapStore R' W'} {α : Type} {n more : Nat}
    {result : Except (Error σ μ) α × mmr.MMR Item Store}
    {result' : Except (Error σ μ) α × mmriver.MMRIVER Item Store'}
    (h : SamePush S S' n more result result') (hn : n + more ≤ 2 ^ 61) :
    result.1 = result'.1 ∧ SameTree b M R R' result.2 result'.2 := by
  cases h with
  | ok htwins => exact ⟨rfl, htwins.same_tree hn⟩
  | failed hk htwins => exact ⟨rfl, htwins.same_tree (by omega)⟩

/-- When the merge does not look at positions, an MMR and an MMRIVER that start empty
    and that the same data are pushed into are the same tree, push by push: they
    return the same positions or fail alike, and without a failing merge they do
    not fail. -/
theorem mmr_eq_mmriver (b : Profile) (S : MapStore R W) (S' : MapStore R' W')
    (hignored : ∀ pos pos' left right, M.merge_pos pos left right = M.merge_pos pos' left right)
    (hdefault : ∀ left right, M.merge left right = M.merge_pos 0 left right) {store : Store}
    {store' : Store'} (hempty : ∀ p, S.contents store p = none)
    (hempty' : ∀ p, S'.contents store' p = none) {data : List Bytes} (hsmall : data.length < 2 ^ 61) :
    Outcome.Alike (fun result result' => result.1 = result'.1 ∧ SameTree b M R R' result.2 result'.2)
      (pushAll (mmr.MMR.push b M R) (.new 0 store) data)
      (pushAll (mmriver.MMRIVER.push b M R') (.new 0 store') data) ∧
    ∀ H : Hasher Item, M = H.toMerge → ∃ positions final final',
      pushAll (mmr.MMR.push b M R) (.new 0 store) data = ok (.ok positions, final) ∧
      pushAll (mmriver.MMRIVER.push b M R') (.new 0 store') data = ok (.ok positions, final') ∧
      SameTree b M R R' final final' := by
  have hmerge : ∀ pos left right, M.merge_pos pos left right = M.merge left right :=
    fun pos left right => (hignored pos 0 left right).trans (hdefault left right).symm
  have hcount : 0 + data.length < 2 ^ 61 := by omega
  have hpushed := (Twins.new hempty hempty').pushAll (b := b) hcount hmerge
  have hsame := hpushed.mono fun result result' h => h.same_tree (b := b) (M := M) hcount.le
  refine ⟨hsame, ?_⟩
  intro H hinfallible
  subst hinfallible
  have hfits : ([] : List Bytes).length + data.length ≤ 2 ^ 63 := by simpa using (hsmall.trans (by decide)).le
  obtain ⟨positions, final, hpush, _⟩ := (mmr.MMR.Holds.new S H store).pushAll (b := b) (μ := μ) data hfits
  rw [hpush] at hsame ⊢
  obtain ⟨⟨result', final'⟩, hpush', hpositions, htrees⟩ := hsame.of_ok
  obtain rfl : .ok positions = result' := hpositions
  exact ⟨positions, final, final', rfl, hpush', htrees⟩

/-- Terms that say nothing about positions. -/
def Term.unplaced {Item : Type} : Hasher (Term Item) where
  leaf_hash := leaf
  merge_pos _ left right := node 0 left right

/-- The two trees of three leaves. -/
theorem mmr_eq_mmriver_three :
    let M : Merge (Term Empty) Empty := Term.unplaced.toMerge
    let R : MMRStoreReadOps (MemStore (Term Empty)) (Term Empty) Empty := MemStore.readOps
    ∃ positions final final',
      pushAll (mmr.MMR.push .debug M R) (.new 0 MemStore.new) [[1], [2], [3]] =
        ok (.ok positions, final) ∧
      pushAll (mmriver.MMRIVER.push .debug M R) (.new 0 MemStore.new) [[1], [2], [3]] =
        ok (.ok positions, final') ∧
      SameTree .debug M R R final final' :=
  (mmr_eq_mmriver .debug (MemStore.mapStore .debug) (MemStore.mapStore .debug) (fun _ _ _ _ => rfl)
    (fun _ _ => rfl) (fun _ => rfl) (fun _ => rfl) (by decide)).2 Term.unplaced rfl

end merkleberg
