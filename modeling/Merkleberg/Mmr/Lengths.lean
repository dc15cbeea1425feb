import Merkleberg.Mmr.Extend
import Merkleberg.Mmr.Lockstep
import Merkleberg.Mmr.Session

open machine machine.Outcome
open forest

namespace merkleberg.mmr

variable {Item Store σ μ : Type} {b : Profile} {R : MMRStoreReadOps Store Item σ}
  {W : MMRStoreWriteOps Store Item σ} {H : Hasher Item} {data : List Bytes}

/-- Peaks of which all but the first ones are bagged into one. -/
def baggedFrom (merge_peaks : Item → Item → Item) (count : Nat) (peaks : List Item) : List Item :=
  peaks.take count ++ (bagPeaks merge_peaks (peaks.drop count)).toList

theorem length_baggedFrom (merge_peaks : Item → Item → Item) {count : Nat} {peaks : List Item}
    (hcount : count < peaks.length) : (baggedFrom merge_peaks count peaks).length = count + 1 := by
  obtain ⟨bagged, hbagged⟩ := exists_bagPeaks merge_peaks
    (show peaks.drop count ≠ [] by simpa [List.drop_eq_nil_iff] using hcount)
  rw [baggedFrom, hbagged, List.length_append, List.length_take, Option.toList_some,
    List.length_singleton]
  omega

/-- Bagging some of the peaks ahead of time leads to the same root. -/
theorem bagPeaks_baggedFrom (merge_peaks : Item → Item → Item) (before : List Item) {count : Nat}
    {peaks : List Item} (hcount : count < peaks.length) :
    bagPeaks merge_peaks (before ++ baggedFrom merge_peaks count peaks) =
      bagPeaks merge_peaks (before ++ peaks) := by
  obtain ⟨bagged, hbagged⟩ := exists_bagPeaks merge_peaks
    (show peaks.drop count ≠ [] by simpa [List.drop_eq_nil_iff] using hcount)
  have happend : bagPeaks merge_peaks ((before ++ peaks.take count) ++ peaks.drop count) = _ :=
    bagPeaks_append hbagged
  rw [List.append_assoc, List.take_append_drop] at happend
  rw [happend, baggedFrom, hbagged, Option.toList_some, List.append_assoc]

theorem MergesApart.of_injective {merge : Item → Item → Item} (hinj : Function.Injective2 merge) :
    MergesApart fun left right => (ok (merge left right) : Outcome μ Item) := by
  intro left right left' right' parent h h'
  exact hinj (ok.inj (h.trans h'.symm))

/-- Two proofs of one length that lead from the same pairs to the same root are one. -/
theorem proof_eq_of_root {M : Merge Item μ} (hmerge : MergesApart M.merge)
    (hpeaks : MergesApart M.merge_peaks) {mmr_size : Nat} (hlarge : mmr_size ≠ 1)
    {pairs : List (Nat × Item)} (hnodup : (pairs.map (·.1)).Nodup) {items items' : List Item} {root : Item}
    (hlength : items.length = items'.length)
    (hroot : (calculate_root b M pairs mmr_size items : Outcome (Error σ μ) Item) = ok root)
    (hroot' : (calculate_root b M pairs mmr_size items' : Outcome (Error σ μ) Item) = ok root) :
    items = items' := by
  obtain ⟨hashes, hhashes, hbag⟩ := bind_eq_ok_iff.mp hroot
  obtain ⟨hashes', hhashes', hbag'⟩ := bind_eq_ok_iff.mp hroot'
  have hshape : SameShape (pairs, items) (pairs, items') := ⟨rfl, hlength⟩
  obtain ⟨hcount, hsame⟩ := calculate_peaks_hashes_injects hmerge (fun hspecial => hlarge hspecial.1) hnodup
    hshape hhashes hhashes'
  exact (hsame (bagging_peaks_hashes_injects hpeaks hcount hbag hbag')).2

/-- With the values of a tree, the peaks behind the front may be given bagged from any
    of them on. -/
theorem MMR.Holds.calculate_root_eq {S : MapStore R W} {under : Nat → Option Item}
    {self : MMR Item Store} (hself : self.Holds S under H data) {pos_list indices : List Nat}
    {front back : List Share} (hsorted : indices.Pairwise (· < ·))
    (hcover : ∀ p, p ∈ pos_list ↔ p ∈ indices.map nodeCount)
    (hsections : Sections (peaks data.length) indices (front ++ back) [])
    (hback : ∀ part ∈ back, part.2 = none) {pairs : List (Nat × Item)}
    (hitems : ∀ pair ∈ pairs, pair.2 = elemAt H data pair.1)
    (hsame : ∀ p, p ∈ pairs.map (·.1) ↔ p ∈ pos_list) {rest : List Item}
    (hrest : rest.length ≤ back.length) {root : Item}
    (hroot : bagPeaks H.merge_peaks ((front.map fun part => nodeItem H data part.1.1 part.1.2) ++ rest) =
      some root) :
    (calculate_root b (H.toMerge : Merge Item μ) pairs self.mmr_size
      (front.flatMap (partItems (nodeItem H data)) ++ rest) : Outcome (Error σ μ) Item) = ok root := by
  have hinside : ∀ pair ∈ pairs, nodeHeight pair.1 = 0 ∧ pair.1 < nodeCount data.length := by
    intro pair hpair
    obtain ⟨k, hk, hp⟩ := List.mem_map.mp ((hcover _).mp ((hsame _).mp (List.mem_map_of_mem hpair)))
    rw [← hp]
    refine ⟨nodeHeight_nodeCount k, nodeCount_lt_nodeCount_iff.mpr ?_⟩
    exact (hsections.lt_of_mem hk).resolve_left List.not_mem_nil
  have hpairs := sortDedup_pairs_eq hitems hsorted fun p => (hsame p).trans (hcover p)
  rw [hself.size]
  refine calculate_root_values hself.fits hsections (fun h k _ _ => nodeItem_succ H data h k) rfl hback
    (fun pair hpair => (hinside pair hpair).2.trans hself.fits) (fun pair hpair => (hinside pair hpair).1)
    (hpairs.trans (by simp [nodeItem])) (List.drop_eq_nil_of_le hrest) ?_
  rwa [List.take_of_length_le hrest]

section Verify

variable [DecidableEq Item]

/-- Of any length at most one MMR proof is accepted for the same leaves. The generated one
    has the first of as many lengths as there are peaks behind the leaves, or of one when
    there are none, and there is a proof of each, as these peaks may be bagged from any of
    them on. -/
theorem MMR.Session.one_proof_a_length (S : MapStore R W) (hmerge : Function.Injective2 H.merge)
    (hpeaks : Function.Injective2 H.merge_peaks) {store : Store} {positions : List Nat}
    {final : MMR Item Store}
    (session : MMR.Session b (H.toMerge : Merge Item μ) R W (MMR.new 0 store) data positions final)
    (hfit : b = .release → data.length ≤ 2 ^ 63) (hmany : 2 ≤ data.length) {pos_list : List Nat}
    (hne : pos_list ≠ []) (hleaves : ∀ p ∈ pos_list, p ∈ positions) :
    ∃ proof root, (final.gen_proof b (H.toMerge : Merge Item μ) R pos_list :
        Outcome (Error σ μ) _) = ok proof ∧
      (final.get_root b (H.toMerge : Merge Item μ) R : Outcome (Error σ μ) Item) = ok root ∧
      ∀ pairs : List (Nat × Item), (∀ pair ∈ pairs, final.batch.get_elem b R pair.1 = ok (some pair.2)) →
        (∀ p, p ∈ pairs.map (·.1) ↔ p ∈ pos_list) → (pairs.map (·.1)).Nodup →
        (∀ items items' : List Item, items.length = items'.length →
          ((InclusionProof.new final.mmr_size items).verify b (H.toMerge : Merge Item μ) root pairs :
            Outcome (Error σ μ) Bool) = ok true →
          ((InclusionProof.new final.mmr_size items').verify b (H.toMerge : Merge Item μ) root pairs :
            Outcome (Error σ μ) Bool) = ok true → items = items') ∧
        ∀ more, more = 0 ∨ more < mountainsAfter data.length pos_list →
          ∃ items : List Item, items.length = proof.proof.length + more ∧
            ((InclusionProof.new final.mmr_size items).verify b (H.toMerge : Merge Item μ) root pairs :
              Outcome (Error σ μ) Bool) = ok true := by
  obtain ⟨hfinal, hpositions⟩ := session.holds S (.refl _) hfit
  have hinside := exists_leaf_of_positions hpositions hleaves
  obtain ⟨indices, front, back, hsorted, hcover, hsections, hback, hcount, hgen⟩ :=
    hfinal.gen_proof_leaves (b := b) (μ := μ) hne hinside
  rw [trailingPeaks_eq_mountainsAfter hne hcover hsections] at hcount
  obtain ⟨root, hget, hroot⟩ := hfinal.get_root (b := b) (μ := μ) (by omega)
  rw [peakItems_eq_parts H hsections, List.map_append] at hroot
  refine ⟨_, root, hgen, hget, fun pairs hread hsame hnodup => ?_⟩
  have hitems := hfinal.items_of_read hinside hsame hread
  have hlarge : final.mmr_size ≠ 1 := by
    intro hone
    have := eq_one_of_nodeCount (hfinal.size.symm.trans hone)
    omega
  constructor
  · intro items items' hlength hverify hverify'
    rw [verify_eq_true_iff] at hverify hverify'
    exact proof_eq_of_root (MergesApart.of_injective hmerge) (MergesApart.of_injective hpeaks) hlarge hnodup
      hlength hverify hverify'
  intro more hmore
  have haccepted : ∀ rest : List Item, rest.length ≤ back.length →
      bagPeaks H.merge_peaks ((front.map fun part => nodeItem H data part.1.1 part.1.2) ++ rest) =
        some root →
      ((InclusionProof.new final.mmr_size (front.flatMap (partItems (nodeItem H data)) ++ rest)).verify b
        (H.toMerge : Merge Item μ) root pairs : Outcome (Error σ μ) Bool) = ok true := by
    intro rest hrest hbag
    rw [verify_eq_true_iff]
    exact hfinal.calculate_root_eq hsorted hcover hsections hback hitems hsame hrest hbag
  cases back with
  | nil =>
    -- No peak is behind the leaves, and there is one length.
    obtain rfl : more = 0 := by
      rw [hcount] at hmore
      simpa using hmore
    have hproof := haccepted [] (Nat.zero_le _) (by simpa using hroot)
    exact ⟨_, by simp [proofItems], hproof⟩
  | cons part back =>
    have hless : more < ((part :: back).map fun part => nodeItem H data part.1.1 part.1.2).length := by
      rw [hcount] at hmore
      rw [List.length_map]
      exact hmore.elim (fun hzero => hzero ▸ Nat.succ_pos _) id
    have hone := length_baggedFrom H.merge_peaks hless
    have hbag := bagPeaks_baggedFrom H.merge_peaks
      (front.map fun part => nodeItem H data part.1.1 part.1.2) hless
    have hfew : more + 1 ≤ (part :: back).length := by rwa [List.length_map] at hless
    have hproof := haccepted _ (hone.trans_le hfew) (hbag.trans hroot)
    obtain ⟨bagged, hbagged⟩ := exists_bagPeaks H.merge_peaks
      (show (part :: back).map (fun part => nodeItem H data part.1.1 part.1.2) ≠ [] by simp)
    have hlength : (front.flatMap (partItems (nodeItem H data)) ++ baggedFrom H.merge_peaks more
        ((part :: back).map fun part => nodeItem H data part.1.1 part.1.2)).length =
        (proofItems H data front (part :: back)).length + more := by
      rw [proofItems, hbagged, List.length_append, List.length_append, hone, Option.toList_some,
        List.length_singleton]
      omega
    exact ⟨_, hlength, hproof⟩

end Verify

/-- Seven leaves in memory: the first has a proof with the two peaks behind it apart. -/
theorem MMR.Session.one_proof_a_length_seven : ∃ final root,
    MMR.SymbolicRun .debug (List.replicate 7 [0]) [0, 1, 3, 4, 7, 8, 10] final ∧
      (final.get_root .debug (Term.hasher.toMerge : Merge (Term Empty) Empty) MemStore.readOps :
        Outcome (Error Empty Empty) _) = ok root ∧
      ∃! items : List (Term Empty), items.length = 4 ∧
        ((InclusionProof.new final.mmr_size items).verify .debug
          (Term.hasher.toMerge : Merge (Term Empty) Empty) root [(0, .leaf [0])] :
            Outcome (Error Empty Empty) Bool) = ok true := by
  have hinjective : Function.Injective2 (Term.node 0 : Term Empty → Term Empty → Term Empty) := by
    intro left right left' right' heq
    cases heq
    exact ⟨rfl, rfl⟩
  have start : MMR.SymbolicRun .debug [] [] (MMR.new 0 MemStore.new) := .refl
  have run := ((((((start.push (d := [0]) rfl).push (d := [0]) rfl).push (d := [0]) rfl).push (d := [0])
    rfl).push (d := [0]) rfl).push (d := [0]) rfl).push (d := [0]) rfl
  obtain ⟨proof, root, hgen, hget, hlengths⟩ := MMR.Session.one_proof_a_length (MemStore.mapStore .debug)
    hinjective hinjective run.session (fun hb => by cases hb) (by decide) (List.cons_ne_nil 0 []) (by decide)
  have hcount : proof.proof.length = 3 := by
    cases hgen
    rfl
  obtain ⟨hunique, hexists⟩ := hlengths [(0, .leaf [0])] (by simp; rfl) (by simp) (by simp)
  obtain ⟨items, hlength, hverify⟩ := hexists 1 (.inr (by decide))
  rw [hcount] at hlength
  exact ⟨_, root, run, hget, items, ⟨hlength, hverify⟩, fun items' hitems =>
    hunique _ _ (hitems.1.trans hlength.symm) hitems.2 hverify⟩

end merkleberg.mmr
