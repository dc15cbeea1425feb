import Merkleberg.Forest.Climb
import Merkleberg.Mmr.Run

open machine machine.Outcome
open forest
open merkleberg.helper

namespace merkleberg.mmr

variable {Item Store σ μ : Type} {b : Profile}
  {R : MMRStoreReadOps Store Item σ} {W : MMRStoreWriteOps Store Item σ}

/-- A position inside a word is that of a node of height under 64. -/
theorem height_lt_of_nodePos_lt {h k : Nat} (hfit : nodePos h k < 2 ^ 64) : h < 64 := by
  have hheight := nodeHeight_lt (w := 64) (by decide) hfit
  rwa [nodeHeight_nodePos] at hheight

/-- From a node below a peak the loops go to its sibling and its parent, and
    the height of the next position tells which child the node is. -/
theorem relatives_eq {h k g m : Nat} (hunder : Under h k g m) (hlt : h < g)
    (hfit : nodePos g m < 2 ^ 64) :
    (relatives b (nodePos h k) h : Outcome (Error σ μ) _) =
      ok (decide (k % 2 = 1), nodePos h (sibling k), nodePos (h + 1) (k / 2)) := by
  have hheight := height_lt_of_nodePos_lt hfit
  have hparent := (hunder.to_parent hlt).nodePos_le
  have hbefore := nodePos_lt_parent h k
  have hpow : 2 ^ (h + 1) < 2 ^ 64 := Nat.pow_lt_pow_right (by omega) (by omega)
  have hpositive := two_pow_succ_sub_one_pos h
  have hdouble : 2 * 2 ^ h = 2 ^ (h + 1) := (pow_succ' 2 h).symm
  have hshift : (U64.shl b 2 h : Outcome (Error σ μ) Nat) = ok (2 ^ (h + 1)) := by
    rw [U64.shl, Word.shl_ok (by omega) (by omega), hdouble]
  have hoffset : (sibling_offset b h : Outcome (Error σ μ) Nat) = ok (2 ^ (h + 1) - 1) := by
    simp only [sibling_offset, hshift, ok_bind]
    exact Word.sub_ok (by omega)
  have hafter : (U64.add b (nodePos h k) 1 : Outcome (Error σ μ) Nat) = ok (nodePos h k + 1) :=
    Word.add_ok (by omega)
  have hnext : (pos_height_in_tree b (nodePos h k + 1) : Outcome (Error σ μ) Nat) =
      ok (if k % 2 = 1 then h + 1 else 0) := by
    rw [pos_height_in_tree_eq (by omega), nodeHeight_nodePos_succ]
  simp only [relatives, hafter, hnext, hoffset, ok_bind]
  obtain ⟨heven, hup, hnear⟩ | ⟨hodd, hup, hnear⟩ := nodePos_relatives h k
  · -- A left child: both relatives lie to the right.
    have hsib : (U64.add b (nodePos h k) (2 ^ (h + 1) - 1) : Outcome (Error σ μ) Nat) =
        ok (nodePos h (sibling k)) := by
      rw [U64.add, Word.add_ok (by omega)]
      congr 1
      omega
    have hparent' : (U64.add b (nodePos h k) (2 ^ (h + 1)) : Outcome (Error σ μ) Nat) =
        ok (nodePos (h + 1) (k / 2)) := by
      rw [U64.add, Word.add_ok (by omega), hup]
    rw [if_neg (by rw [if_neg (by omega)]; omega)]
    simp [parent_offset, hshift, hsib, hparent', show ¬ k % 2 = 1 by omega]
  · have hsib : (U64.sub b (nodePos h k) (2 ^ (h + 1) - 1) : Outcome (Error σ μ) Nat) =
        ok (nodePos h (sibling k)) := by
      rw [U64.sub, Word.sub_ok (by omega)]
      congr 1
      omega
    rw [if_pos (by rw [if_pos hodd]; omega)]
    simp [hsib, hup, hodd]

theorem nodePos_eq_iff {h k h' k' : Nat} : nodePos h k = nodePos h' k' ↔ (h, k) = (h', k') := by
  constructor
  · intro heq
    obtain ⟨rfl, rfl⟩ := nodePos_inj heq
    rfl
  · rintro heq
    rw [Prod.mk.injEq] at heq
    rw [heq.1, heq.2]

section Verifier

variable {H : Hasher Item} {g m passes : Nat}

/-- A queue entry of `calculate_peak_root` for a node and its value. -/
def queueEntry (entry : (Nat × Nat) × Item) : Nat × Item × Nat :=
  (nodePos entry.1.1 entry.1.2, entry.2, entry.1.1)

/-- A pass that finds the sibling next in the queue. -/
theorem calculate_peak_root_pair {h k : Nat} (hlt : h < g) (hunder : Under h k g m)
    (hfit : nodePos g m < 2 ^ 64) (x y : Item) (entries : List ((Nat × Nat) × Item))
    (items : List Item) :
    (calculate_peak_root.body b (H.toMerge : Merge Item μ) (nodePos g m)
      ((((h, k), x) :: ((h, sibling k), y) :: entries).map queueEntry, items) :
        Outcome (Error σ μ) _) =
      ok (.next ((entries ++ [((h + 1, k / 2), mergeAt H.merge k x y)]).map queueEntry, items)) := by
  have hheight := height_lt_of_nodePos_lt hfit
  have hne : nodePos h k ≠ nodePos g m := by
    rw [Ne, nodePos_eq_iff, Prod.mk.injEq]
    omega
  have hparent := (hunder.to_parent hlt).nodePos_le
  have hup : (U8.add b h 1 : Outcome (Error σ μ) Nat) = ok (h + 1) := Word.add_ok (by omega)
  by_cases hodd : k % 2 = 1 <;>
    simp [calculate_peak_root.body, queueEntry, hne, relatives_eq hunder hlt hfit, takeSibling,
      hparent, hup, mergeAt, hodd]

theorem takeSibling_eq {h k : Nat} {entries : List ((Nat × Nat) × Item)}
    (habsent : entries.head?.map (·.1) ≠ some (h, k)) (items : List Item) :
    (takeSibling (nodePos h k) (entries.map queueEntry) items : Outcome (Error σ μ) _) =
      (do let item ← okOr .CorruptedProof items.head?
          ok (item, entries.map queueEntry, items.tail)) := by
  cases entries with
  | nil => rfl
  | cons entry entries =>
    have hnot : nodePos entry.1.1 entry.1.2 ≠ nodePos h k := by
      rw [Ne, nodePos_eq_iff]
      simpa using habsent
    simp [takeSibling, queueEntry, hnot]

/-- A pass that takes the sibling from the items. -/
theorem calculate_peak_root_request {h k : Nat} (hlt : h < g) (hunder : Under h k g m)
    (hfit : nodePos g m < 2 ^ 64) (x y : Item) {entries : List ((Nat × Nat) × Item)}
    (habsent : entries.head?.map (·.1) ≠ some (h, sibling k)) (items : List Item) :
    (calculate_peak_root.body b (H.toMerge : Merge Item μ) (nodePos g m)
      ((((h, k), x) :: entries).map queueEntry, y :: items) : Outcome (Error σ μ) _) =
      ok (.next ((entries ++ [((h + 1, k / 2), mergeAt H.merge k x y)]).map queueEntry, items)) := by
  have hheight := height_lt_of_nodePos_lt hfit
  have hne : nodePos h k ≠ nodePos g m := by
    rw [Ne, nodePos_eq_iff, Prod.mk.injEq]
    omega
  have hparent := (hunder.to_parent hlt).nodePos_le
  have hup : (U8.add b h 1 : Outcome (Error σ μ) Nat) = ok (h + 1) := Word.add_ok (by omega)
  rw [List.map_cons, show queueEntry ((h, k), x) = (nodePos h k, x, h) from rfl]
  by_cases hodd : k % 2 = 1 <;>
    simp [calculate_peak_root.body, hne, relatives_eq hunder hlt hfit, takeSibling_eq habsent,
      hparent, hup, mergeAt, hodd, queueEntry]

/-- The same pass when no item is left. -/
theorem calculate_peak_root_missing {h k : Nat} (hlt : h < g) (hunder : Under h k g m)
    (hfit : nodePos g m < 2 ^ 64) (x : Item) {entries : List ((Nat × Nat) × Item)}
    (habsent : entries.head?.map (·.1) ≠ some (h, sibling k)) :
    (calculate_peak_root.body b (H.toMerge : Merge Item μ) (nodePos g m)
      ((((h, k), x) :: entries).map queueEntry, []) : Outcome (Error σ μ) _) =
      err .CorruptedProof := by
  have hne : nodePos h k ≠ nodePos g m := by
    rw [Ne, nodePos_eq_iff, Prod.mk.injEq]
    omega
  rw [List.map_cons, show queueEntry ((h, k), x) = (nodePos h k, x, h) from rfl]
  simp [calculate_peak_root.body, hne, relatives_eq hunder hlt hfit, takeSibling_eq habsent]

/-- The verifier's queue loop folds the values of its queue with the items in
    front, and leaves the items behind them. -/
theorem calculate_peak_root_loop {entries : List ((Nat × Nat) × Item)} {items rest : List Item}
    {root : Item} {fuel : Nat} (hfolds : Folds H.merge g m passes entries items root)
    (hfit : nodePos g m < 2 ^ 64) (hfuel : passes < fuel) :
    (loop (calculate_peak_root.body b (H.toMerge : Merge Item μ) (nodePos g m)) fuel
      (entries.map queueEntry, items ++ rest) : Outcome (Error σ μ) _) = ok (root, rest) := by
  obtain ⟨fuel, rfl⟩ : ∃ more, fuel = more + 1 := ⟨fuel - 1, by omega⟩
  induction hfolds generalizing fuel with
  | done x =>
    apply loop_done
    simp [calculate_peak_root.body, queueEntry]
  | pair hlt hunder next ih =>
    obtain ⟨fuel, rfl⟩ : ∃ more, fuel = more + 1 := ⟨fuel - 1, by omega⟩
    rw [loop_next (calculate_peak_root_pair hlt hunder hfit _ _ _ _)]
    exact ih fuel (by omega)
  | request hlt hunder habsent next ih =>
    obtain ⟨fuel, rfl⟩ : ∃ more, fuel = more + 1 := ⟨fuel - 1, by omega⟩
    rw [List.cons_append, loop_next (calculate_peak_root_request hlt hunder hfit _ _ habsent _)]
    exact ih fuel (by omega)

/-- With fewer items than requests it ends in the error for them. -/
theorem calculate_peak_root_loop_err {queue requests : List (Nat × Nat)}
    (hclimbs : Climbs g m passes queue requests) (hfit : nodePos g m < 2 ^ 64)
    {entries : List ((Nat × Nat) × Item)} (hentries : entries.map (·.1) = queue) {items : List Item}
    (hitems : items.length < requests.length) {fuel : Nat} (hfuel : passes < fuel) :
    (loop (calculate_peak_root.body b (H.toMerge : Merge Item μ) (nodePos g m)) fuel
      (entries.map queueEntry, items) : Outcome (Error σ μ) _) = err .CorruptedProof := by
  obtain ⟨fuel, rfl⟩ : ∃ more, fuel = more + 1 := ⟨fuel - 1, by omega⟩
  induction hclimbs generalizing entries items fuel with
  | done => simp at hitems
  | @pair h k passes rest requests hlt hunder next ih =>
    obtain ⟨fuel, rfl⟩ : ∃ more, fuel = more + 1 := ⟨fuel - 1, by omega⟩
    obtain ⟨⟨node, x⟩, tail, rfl, rfl, htail⟩ := List.map_eq_cons_iff.mp hentries
    obtain ⟨⟨node, y⟩, entries, rfl, rfl, rfl⟩ := List.map_eq_cons_iff.mp htail
    rw [loop_next (calculate_peak_root_pair hlt hunder hfit _ _ _ _)]
    exact ih (by simp) hitems fuel (by omega)
  | @request h k passes rest requests hlt hunder habsent next ih =>
    obtain ⟨fuel, rfl⟩ : ∃ more, fuel = more + 1 := ⟨fuel - 1, by omega⟩
    obtain ⟨⟨node, x⟩, entries, rfl, rfl, rfl⟩ := List.map_eq_cons_iff.mp hentries
    have habsent' : entries.head?.map (·.1) ≠ some (h, sibling k) := by simpa using habsent
    cases items with
    | nil => exact loop_err (calculate_peak_root_missing hlt hunder hfit x habsent')
    | cons y items =>
      rw [loop_next (calculate_peak_root_request hlt hunder hfit x y habsent' items)]
      exact ih (by simp) (by simpa using hitems) fuel (by omega)

end Verifier

section Prover

variable {S : MapStore R W} {under : Nat → Option Item} {H : Hasher Item} {data : List Bytes}
  {self : MMR Item Store} {g m passes : Nat}

/-- The prover's queue: the nodes of the verifier's, except the peak, which the
    prover never puts in. -/
def proverQueue (g m : Nat) (queue : List (Nat × Nat)) : List (Nat × Nat) :=
  (queue.filter (· ≠ (g, m))).map fun node => (nodePos node.1 node.2, node.1)

theorem proverQueue_cons {node : Nat × Nat} (hne : node ≠ (g, m)) (rest : List (Nat × Nat)) :
    proverQueue g m (node :: rest) = (nodePos node.1 node.2, node.1) :: proverQueue g m rest := by
  simp [proverQueue, hne]

theorem proverQueue_snoc (queue : List (Nat × Nat)) (node : Nat × Nat) :
    proverQueue g m (queue ++ [node]) =
      if node = (g, m) then proverQueue g m queue
      else proverQueue g m queue ++ [(nodePos node.1 node.2, node.1)] := by
  split <;> simp_all [proverQueue]

/-- Where a parent goes: back into the queue unless it is the peak. -/
theorem proverQueue_parent {h k : Nat} (hlt : h < g) (hunder : Under h k g m)
    (rest : List (Nat × Nat)) (proof : List Item) :
    (if nodePos (h + 1) (k / 2) < nodePos g m then
        ok (.next (proverQueue g m rest ++ [(nodePos (h + 1) (k / 2), h + 1)], proof))
      else ok (.next (proverQueue g m rest, proof)) :
        Outcome (Error σ μ) (Pass (List (Nat × Nat) × List Item) (List Item))) =
      ok (.next (proverQueue g m (rest ++ [(h + 1, k / 2)]), proof)) := by
  have hle := (hunder.to_parent hlt).nodePos_le
  have heq : (h + 1, k / 2) = (g, m) ↔ nodePos (h + 1) (k / 2) = nodePos g m := nodePos_eq_iff.symm
  rw [proverQueue_snoc]
  by_cases hpeak : nodePos (h + 1) (k / 2) = nodePos g m
  · rw [if_pos (heq.mpr hpeak), if_neg (by omega)]
  · rw [if_neg (mt heq.mp hpeak), if_pos (by omega)]

/-- The prover's queue loop emits the elements of the requested siblings. -/
theorem MMR.Holds.gen_proof_for_peak_loop (hself : self.Holds S under H data)
    (hpeak : nodePos g m < nodeCount data.length) {queue requests : List (Nat × Nat)}
    (hclimbs : Climbs g m passes queue requests) (proof : List Item) {fuel : Nat}
    (hfuel : passes < fuel) :
    (loop (MMR.gen_proof_for_peak.body b R self (nodePos g m)) fuel (proverQueue g m queue, proof) :
      Outcome (Error σ μ) _) =
      ok (proof ++ requests.map fun node => elemAt H data (nodePos node.1 node.2)) := by
  have hfit := hpeak.trans hself.fits
  have hheight := height_lt_of_nodePos_lt hfit
  obtain ⟨fuel, rfl⟩ : ∃ more, fuel = more + 1 := ⟨fuel - 1, by omega⟩
  induction hclimbs generalizing proof fuel with
  | done =>
    rw [List.map_nil, List.append_nil]
    apply loop_done
    simp [MMR.gen_proof_for_peak.body, proverQueue]
  | @pair h k passes rest requests hlt hunder next ih =>
    obtain ⟨fuel, rfl⟩ : ∃ more, fuel = more + 1 := ⟨fuel - 1, by omega⟩
    have hne : nodePos h k ≠ nodePos g m := by
      rw [Ne, nodePos_eq_iff, Prod.mk.injEq]
      omega
    have hup : (U8.add b h 1 : Outcome (Error σ μ) Nat) = ok (h + 1) := Word.add_ok (by omega)
    have hbody : (MMR.gen_proof_for_peak.body b R self (nodePos g m)
        (proverQueue g m ((h, k) :: (h, sibling k) :: rest), proof) : Outcome (Error σ μ) _) =
        ok (.next (proverQueue g m (rest ++ [(h + 1, k / 2)]), proof)) := by
      rw [proverQueue_cons (by rw [Ne, Prod.mk.injEq]; omega),
        proverQueue_cons (by rw [Ne, Prod.mk.injEq]; omega), ← proverQueue_parent hlt hunder]
      simp [MMR.gen_proof_for_peak.body, hunder.nodePos_le, hne, relatives_eq hunder hlt hfit, hup]
    rw [loop_next hbody]
    exact ih proof fuel (by omega)
  | @request h k passes rest requests hlt hunder habsent next ih =>
    obtain ⟨fuel, rfl⟩ : ∃ more, fuel = more + 1 := ⟨fuel - 1, by omega⟩
    have hne : nodePos h k ≠ nodePos g m := by
      rw [Ne, nodePos_eq_iff, Prod.mk.injEq]
      omega
    have hup : (U8.add b h 1 : Outcome (Error σ μ) Nat) = ok (h + 1) := Word.add_ok (by omega)
    have hsibling : nodePos h (sibling k) < nodeCount data.length := by
      have hparent : Under (h + 1) (sibling k / 2) g m := by
        rw [sibling_div_two]
        exact hunder.to_parent hlt
      exact hparent.parent.nodePos_le.trans_lt hpeak
    have hhead : (proverQueue g m rest).head?.map (·.1) ≠ some (nodePos h (sibling k)) := by
      cases rest with
      | nil => simp [proverQueue]
      | cons node rest =>
        have hnode : node ≠ (g, m) := by
          rintro rfl
          simpa using next.eq_nil_of_root
        rw [proverQueue_cons hnode]
        simp only [List.head?_cons, Option.map_some, Ne, Option.some.injEq]
        rw [nodePos_eq_iff]
        simpa using habsent
    have hbody : (MMR.gen_proof_for_peak.body b R self (nodePos g m)
        (proverQueue g m ((h, k) :: rest), proof) : Outcome (Error σ μ) _) =
        ok (.next (proverQueue g m (rest ++ [(h + 1, k / 2)]),
          proof ++ [elemAt H data (nodePos h (sibling k))])) := by
      rw [proverQueue_cons (by rw [Ne, Prod.mk.injEq]; omega), ← proverQueue_parent hlt hunder]
      simp [MMR.gen_proof_for_peak.body, hunder.nodePos_le, hne, relatives_eq hunder hlt hfit, hup,
        hhead, hself.read_eq hsibling]
    rw [loop_next hbody, ih _ fuel (by omega), List.map_cons, List.append_assoc,
      List.singleton_append]

end Prover

end merkleberg.mmr
