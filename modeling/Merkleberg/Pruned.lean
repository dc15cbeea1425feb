import Merkleberg.Lossy

open machine machine.Outcome
open forest
open merkleberg.helper

namespace machine

/-- Two loops whose passes are the same on the states that an invariant allows are
    the same there. -/
theorem loop_eq_of_invariant {ε σ β : Type} {body body' : σ → Outcome ε (Pass σ β)} (Inv : σ → Prop)
    (hbody : ∀ state, Inv state → body state = body' state)
    (hnext : ∀ state next, Inv state → body state = ok (.next next) → Inv next) (fuel : Nat)
    {state : σ} (hinv : Inv state) : loop body fuel state = loop body' fuel state := by
  induction fuel generalizing state with
  | zero => rfl
  | succ fuel ih =>
    rw [loop, loop, ← hbody state hinv]
    refine bind_congr_of_ok fun pass hpass => ?_
    cases pass with
    | next next => exact ih (hnext state next hinv hpass)
    | done result => rfl

end machine

namespace forest

/-- The old child of a parent that the next leaf completes is a peak. -/
theorem left_child_peak {n j : Nat} (hj : j < trailingZeros (n + 1)) :
    nodeCount n + (j + 1) - 2 ^ (j + 1) ∈ peakPositions n := by
  obtain ⟨q, hq⟩ : 2 ^ (j + 1) ∣ n + 1 := (two_pow_dvd_iff (Nat.succ_pos n) _).mpr hj
  have hdouble : 2 ^ (j + 1) = 2 * 2 ^ j := pow_succ' 2 j
  have hwidth := Nat.two_pow_pos j
  obtain ⟨m, rfl⟩ : ∃ m, q = m + 1 := by
    refine Nat.exists_eq_add_one_of_ne_zero fun hzero => ?_
    rw [hzero, Nat.mul_zero] at hq
    omega
  have hleft := nodePos_left j m
  have hright := nodePos_right j m
  have hlast := nodePos_eq_last j (2 * m + 1)
  have hn : 2 ^ j * (2 * m + 1) + (2 ^ j - 1) = n := by
    have hexpand : 2 ^ (j + 1) * (m + 1) = 2 ^ j * (2 * m + 1) + 2 ^ j := by ring
    omega
  rw [hn] at hlast
  refine List.mem_map.mpr ⟨(j, 2 * m), mem_peaks_iff.mpr ⟨?_, ?_⟩, ?_⟩
  · omega
  · rw [Nat.mul_div_cancel_left m (by decide : 0 < 2)]
    omega
  · change nodePos j (2 * m) = _
    omega

end forest

namespace merkleberg

variable {Item Store Store' σ μ : Type} {b : Profile} {L R : MMRStoreReadOps Store Item σ}

/-- Reads that agree at the given positions of a store, one by one and in lists. -/
structure MMRStoreReadOps.AgreesAt (L R : MMRStoreReadOps Store Item σ) (store : Store)
    (positions : List Nat) : Prop where
  get_elem : ∀ p ∈ positions, L.get_elem store p = R.get_elem store p
  get_elems : ∀ ps ⊆ positions, L.get_elems store ps = R.get_elems store ps

theorem MMRStoreReadOps.AgreesAt.refl (R : MMRStoreReadOps Store Item σ) (store : Store)
    (positions : List Nat) : R.AgreesAt R store positions :=
  ⟨fun _ _ => rfl, fun _ _ => rfl⟩

namespace MMRBatch

variable {self : MMRBatch Item Store} {positions : List Nat}

theorem get_elem_eq_of_agrees (hL : L.AgreesAt R self.store positions) {p : Nat} (hp : p ∈ positions) :
    self.get_elem b L p = self.get_elem b R p := by
  have hread := hL.get_elem p hp
  rw [get_elem, get_elem]
  induction self.memory_batch.reverse with
  | nil => exact hread
  | cons entry rest ih =>
    obtain ⟨start_pos, elems⟩ := entry
    rw [get_elem.scan, get_elem.scan]
    split
    · exact ih
    · refine bind_congr_of_ok fun stop _ => ?_
      split
      · rfl
      · exact hread

theorem get_elems_eq_of_agrees (hL : L.AgreesAt R self.store positions) :
    self.get_elems b L positions = self.get_elems b R positions := by
  rw [get_elems, get_elems]
  refine bind_congr_of_ok fun results _ => ?_
  have hmissing : ((positions.zip results).filter (·.2.isNone)).map (·.1) ⊆ positions := by
    intro p hp
    obtain ⟨entry, hentry, rfl⟩ := List.mem_map.mp hp
    exact (List.of_mem_zip (List.mem_filter.mp hentry).1).1
  simp only [hL.get_elems _ hmissing]

end MMRBatch

variable {W : MMRStoreWriteOps Store Item σ} {S : MapStore R W} {L' R' : MMRStoreReadOps Store' Item σ}
  {W' : MMRStoreWriteOps Store' Item σ} {S' : MapStore R' W'} {under under' : Nat → Option Item}
  {H : Hasher Item} {data : List Bytes} {M : Merge Item μ}

namespace mmr

variable {self : MMR Item Store} {self' : MMR Item Store'}

theorem MMR.Holds.find_elem_peak (h : self.Holds S under H data)
    (hL : L.AgreesAt R self.batch.store (peakPositions data.length)) {p : Nat}
    (hp : p ∈ peakPositions data.length) (hashes : List Item) :
    (self.find_elem b L p hashes : Outcome (Error σ μ) Item) = ok (elemAt H data p) := by
  have hread := MMRBatch.get_elem_eq_of_agrees (b := b) hL hp
  rw [← h.find_elem_eq (b := b) (μ := μ) hashes (lt_of_mem_peakPositions p hp)]
  simp only [MMR.find_elem, MMR.read, hread]

/-- A pass of the push loop gets its left child from a peak. -/
theorem MMR.Holds.push_body_peak (h : self.Holds S under H data)
    (hL : L.AgreesAt R self.batch.store (peakPositions data.length)) {j : Nat}
    (hj : j < trailingZeros (data.length + 1)) {elems : List Item} (hne : elems ≠ []) :
    (MMR.push.body b M L data.length self (2 ^ j, nodeCount data.length + j, elems) :
      Outcome (Error σ μ) _) =
      (do let parent ← orMergeError (M.merge
            (elemAt H data (nodeCount data.length + (j + 1) - 2 ^ (j + 1))) (elems.getLast hne))
          ok (.next (2 ^ (j + 1), nodeCount data.length + (j + 1), elems ++ [parent]))) := by
  have hlt : data.length < 2 ^ 63 := by
    refine lt_of_le_of_ne h.leaves_lt fun hfull => ?_
    rw [hfull, show 2 ^ 63 + 1 = 2 * 2 ^ 62 + 1 from rfl, trailingZeros_two_mul_add_one] at hj
    omega
  exact MMR.push_body_next hlt hj (h.find_elem_peak hL (left_child_peak hj) elems)
    (List.getLast?_eq_some_getLast hne)

/-- A push reads no old nodes but peaks, so pushes that find the same peaks come to
    the same elements. -/
theorem MMR.Holds.push_merged_eq (h : self.Holds S under H data) (h' : self'.Holds S' under' H data)
    (hL : L.AgreesAt R self.batch.store (peakPositions data.length))
    (hL' : L'.AgreesAt R' self'.batch.store (peakPositions data.length)) (d : Bytes) :
    (MMR.push.merged b M L self d : Outcome (Error σ μ) _) = MMR.push.merged b M L' self' d := by
  have hmap : (get_peak_map b (nodeCount data.length) : Outcome (Error σ μ) Nat) =
      ok data.length := get_peak_map_eq (Nat.le_refl _) (nodeCount_lt_succ _) h.fits
  rw [MMR.push.merged, MMR.push.merged, h.size, h'.size, hmap]
  refine bind_congr_of_ok fun elem _ => ?_
  rw [ok_bind, ok_bind]
  -- Before pass `j` there are the leaf and its first `j` parents.
  let Inv (state : Nat × Nat × List Item) : Prop := ∃ j ≤ trailingZeros (data.length + 1),
    state.1 = 2 ^ j ∧ state.2.1 = nodeCount data.length + j ∧ state.2.2 ≠ []
  have hstart : Inv (1, nodeCount data.length, [elem]) := ⟨0, Nat.zero_le _, rfl, rfl, by simp⟩
  refine loop_eq_of_invariant Inv ?_ ?_ 65 hstart
  · rintro ⟨peak, pos, elems⟩ ⟨j, hj, rfl, rfl, hne⟩
    rcases Nat.lt_or_eq_of_le hj with hlt | hstop
    · exact (h.push_body_peak hL hlt hne).trans (h'.push_body_peak hL' hlt hne).symm
    · exact (MMR.push_body_stop hstop _ _).trans (MMR.push_body_stop hstop _ _).symm
  · rintro ⟨peak, pos, elems⟩ next ⟨j, hj, rfl, rfl, hne⟩ hpass
    rcases Nat.lt_or_eq_of_le hj with hlt | hstop
    · obtain ⟨parent, _, hpass⟩ := bind_eq_ok_iff.mp ((h.push_body_peak hL hlt hne).symm.trans hpass)
      cases hpass
      exact ⟨j + 1, hlt, rfl, rfl, by simp⟩
    · have hdone := (MMR.push_body_stop hstop _ _).symm.trans hpass
      cases hdone

theorem MMR.Holds.push_pruned (h : self.Holds S under H data)
    (hL : L.AgreesAt R self.batch.store (peakPositions data.length)) (d : Bytes) :
    self.push b M L d = self.push b M R d := by
  rw [MMR.push, MMR.push, h.push_merged_eq h hL (.refl R _ _)]

/-- Two trees over one log answer a push alike. -/
theorem MMR.Holds.same_push (h : self.Holds S under H data) (h' : self'.Holds S' under' H data)
    (M : Merge Item μ) (d : Bytes) :
    Outcome.Alike (fun result result' => result.1 = result'.1) (self.push b M R d) (self'.push b M R' d) := by
  rw [MMR.push, MMR.push, ← h.push_merged_eq h' (.refl R _ _) (.refl R' _ _), h.size, h'.size]
  refine (Outcome.Alike.refl _).orReturn (fun _ => rfl) fun result _ hresult => ?_
  subst hresult
  exact (Outcome.Alike.refl _).orReturn (fun _ => rfl) fun _ _ _ => .ok rfl

/-- The root is bagged from the peaks alone. -/
theorem MMR.Holds.get_root_pruned (h : self.Holds S under H data)
    (hL : L.AgreesAt R self.batch.store (peakPositions data.length)) :
    (self.get_root b M L : Outcome (Error σ μ) Item) = self.get_root b M R := by
  have hsize := h.size
  rw [MMR.get_root, MMR.get_root, hsize]
  split
  · rfl
  split
  · rename_i hone
    have hlen : data.length = 1 := by
      have hcount : nodeCount 1 = 1 := by decide
      exact nodeCount_strictMono.injective (hone.trans hcount.symm)
    have hread := MMRBatch.get_elem_eq_of_agrees (b := b) hL (p := 0) (by rw [hlen]; decide)
    rw [MMR.read, MMR.read, hread]
  · have hcollect := PeaksIter.collect_eq (ε := Error σ μ) (b := b) (Nat.le_refl (nodeCount data.length))
      (nodeCount_lt_succ _) h.fits
    obtain ⟨iter, hiter, hpeaks⟩ := bind_eq_ok_iff.mp hcollect
    have hread := MMRBatch.get_elems_eq_of_agrees (b := b) hL
    simp only [hiter, hpeaks, ok_bind, hread]

end mmr

namespace mmriver

variable {self : MMRIVER Item Store} {self' : MMRIVER Item Store'}

theorem MMRIVER.Holds.find_elem_peak (h : self.Holds b S under H data)
    (hL : L.AgreesAt R self.batch.store (peakPositions data.length)) {p : Nat}
    (hp : p ∈ peakPositions data.length) (hashes : List Item) :
    (self.find_elem b L p hashes : Outcome (Error σ μ) Item) = ok (elemAt H data p) := by
  have hread := MMRBatch.get_elem_eq_of_agrees (b := b) hL hp
  rw [← h.find_elem_old (μ := μ) hashes (lt_of_mem_peakPositions p hp)]
  simp only [MMRIVER.find_elem, hread]

/-- The newest element is not read from the store. -/
theorem MMRIVER.Holds.find_elem_newest (h : self.Holds b S under H data) (Q : MMRStoreReadOps Store Item σ)
    {j : Nat} {elems : List Item} {newest : Item} (hnewest : elems[j]? = some newest) :
    (self.find_elem b Q (nodeCount data.length + j) elems : Outcome (Error σ μ) Item) = ok newest := by
  have hafter : U64.checkedSub (nodeCount data.length + j) self.mmr_size = some j := by
    rw [U64.checkedSub, h.forest.size, if_pos (Nat.le_add_right _ _), Nat.add_sub_cancel_left]
  simp only [MMRIVER.find_elem, hafter, Option.bind_some, hnewest]

/-- A pass of the push loop gets its left child from a peak and its right one from
    the pass before. -/
theorem MMRIVER.Holds.push_body_peak (h : self.Holds b S under H data)
    (hL : L.AgreesAt R self.batch.store (peakPositions data.length)) {j : Nat}
    (hj : j < trailingZeros (data.length + 1))
    (hlt : nodeCount data.length + (j + 1) + 1 < allOnesLimit b) {elems : List Item} {newest : Item}
    (hnewest : elems[j]? = some newest) :
    (MMRIVER.push.body b M L self (nodeCount data.length + (j + 1), j, elems) :
      Outcome (Error σ μ) _) =
      (do let parent ← orMergeError (M.merge_pos (nodeCount data.length + (j + 1) + 1)
            (elemAt H data (nodeCount data.length + (j + 1) - 2 ^ (j + 1))) newest)
          ok (.next (nodeCount data.length + (j + 1 + 1), j + 1, elems ++ [parent]))) :=
  push_body_next hj hlt (h.find_elem_peak hL (left_child_peak hj) elems) (h.find_elem_newest L hnewest)

/-- Out of range the height of the next node stops the push. -/
theorem MMRIVER.push_body_out_of_range {i : Nat} (hge : allOnesLimit .debug ≤ i + 1)
    (g : Nat) (elems : List Item) :
    (MMRIVER.push.body .debug M R self (i, g, elems) : Outcome (Error σ μ) _) = panic := by
  rw [MMRIVER.push.body, index_height_mmriver_debug_panic hge, panic_bind]

/-- A push reads no old nodes but peaks, so pushes that find the same peaks come to
    the same elements. -/
theorem MMRIVER.Holds.push_merged_eq (h : self.Holds b S under H data)
    (h' : self'.Holds b S' under' H data)
    (hL : L.AgreesAt R self.batch.store (peakPositions data.length))
    (hL' : L'.AgreesAt R' self'.batch.store (peakPositions data.length))
    (hfit : b = .release → data.length + 1 < 2 ^ 63) (d : Bytes) :
    (MMRIVER.push.merged b M L self d : Outcome (Error σ μ) _) = MMRIVER.push.merged b M L' self' d := by
  have hlimit := allOnesLimit_le b
  have hfits := h.height_fits
  have hstep := nodeCount_succ data.length
  have hfirst : (U64.add b (nodeCount data.length) 1 : Outcome (Error σ μ) Nat) =
      ok (nodeCount data.length + (0 + 1)) := Word.add_ok (by omega)
  rw [MMRIVER.push.merged, MMRIVER.push.merged, h.forest.size, h'.forest.size, hfirst]
  refine bind_congr_of_ok fun elem _ => ?_
  rw [ok_bind, ok_bind]
  -- Before pass `j` there are the leaf and its first `j` parents.
  let Inv (state : Nat × Nat × List Item) : Prop := ∃ j ≤ trailingZeros (data.length + 1),
    state.1 = nodeCount data.length + (j + 1) ∧ state.2.1 = j ∧ state.2.2.length = j + 1
  have hstart : Inv (nodeCount data.length + (0 + 1), 0, [elem]) := ⟨0, Nat.zero_le _, rfl, rfl, rfl⟩
  have hrange : ∀ j ≤ trailingZeros (data.length + 1),
      nodeCount data.length + (j + 1) + 1 < allOnesLimit b ∨
        b = .debug ∧ allOnesLimit .debug ≤ nodeCount data.length + (j + 1) + 1 := by
    intro j hj
    cases b with
    | debug => exact (Nat.lt_or_ge _ _).imp_right fun hge => ⟨rfl, hge⟩
    | release =>
      have hrelease := release_height_fits (hfit rfl)
      exact .inl (by omega)
  refine loop_eq_of_invariant Inv ?_ ?_ 65 hstart
  · rintro ⟨i, g, elems⟩ ⟨j, hj, rfl, hg, hlength⟩
    obtain rfl : g = j := hg
    have hnewest : elems[g]? = some elems[g] := List.getElem?_eq_getElem _
    rcases hrange g hj with hlt | ⟨rfl, hge⟩
    · rcases Nat.lt_or_eq_of_le hj with hnext | hstop
      · exact (h.push_body_peak hL hnext hlt hnewest).trans
          (h'.push_body_peak hL' hnext hlt hnewest).symm
      · have hcount : nodeCount (data.length + 1) + 1 < allOnesLimit b := by omega
        exact (push_body_stop hstop hcount _).trans (push_body_stop hstop hcount _).symm
    · exact (push_body_out_of_range hge _ _).trans (push_body_out_of_range hge _ _).symm
  · rintro ⟨i, g, elems⟩ next ⟨j, hj, rfl, hg, hlength⟩ hpass
    obtain rfl : g = j := hg
    have hnewest : elems[g]? = some elems[g] := List.getElem?_eq_getElem _
    rcases hrange g hj with hlt | ⟨rfl, hge⟩
    · rcases Nat.lt_or_eq_of_le hj with hnext | hstop
      · obtain ⟨parent, _, hpass⟩ :=
          bind_eq_ok_iff.mp ((h.push_body_peak hL hnext hlt hnewest).symm.trans hpass)
        cases hpass
        exact ⟨g + 1, hnext, rfl, rfl, by simp [hlength]⟩
      · have hdone := (push_body_stop hstop (by omega) _).symm.trans hpass
        cases hdone
    · have hpanic := (push_body_out_of_range hge _ _).symm.trans hpass
      cases hpanic

theorem MMRIVER.Holds.push_pruned (h : self.Holds b S under H data)
    (hL : L.AgreesAt R self.batch.store (peakPositions data.length))
    (hfit : b = .release → data.length + 1 < 2 ^ 63) (d : Bytes) :
    self.push b M L d = self.push b M R d := by
  rw [MMRIVER.push, MMRIVER.push, h.push_merged_eq h hL (.refl R _ _) hfit]

/-- Two trees over one log answer a push alike. -/
theorem MMRIVER.Holds.same_push (h : self.Holds b S under H data) (h' : self'.Holds b S' under' H data)
    (hfit : b = .release → data.length + 1 < 2 ^ 63) (M : Merge Item μ) (d : Bytes) :
    Outcome.Alike (fun result result' => result.1 = result'.1) (self.push b M R d) (self'.push b M R' d) := by
  rw [MMRIVER.push, MMRIVER.push, ← h.push_merged_eq h' (.refl R _ _) (.refl R' _ _) hfit, h.forest.size,
    h'.forest.size]
  refine (Outcome.Alike.refl _).orReturn (fun _ => rfl) fun result _ hresult => ?_
  subst hresult
  exact .ok rfl

/-- The accumulator is read from the peaks alone. -/
theorem MMRIVER.Holds.get_accumulator_pruned (h : self.Holds b S under H data)
    (hL : L.AgreesAt R self.batch.store (peakPositions data.length)) :
    (self.get_accumulator b L : Outcome (Error σ μ) _) = self.get_accumulator b R := by
  have hlimit := allOnesLimit_le b
  have hfits := h.height_fits
  rw [MMRIVER.get_accumulator, MMRIVER.get_accumulator, h.forest.size]
  split
  · rfl
  · rename_i hsize
    have hpos : 0 < data.length := Nat.pos_of_ne_zero fun hzero => hsize (by rw [hzero, nodeCount_zero])
    have hlast : (U64.sub b (nodeCount data.length) 1 : Outcome (Error σ μ) Nat) =
        ok (nodeCount data.length - 1) := Word.sub_ok (nodeCount_pos hpos)
    have hcollect := PeaksMMRIVERIter.collect_eq (ε := Error σ μ) (b := b) hpos (by omega)
    obtain ⟨iter, hiter, hpeaks⟩ := bind_eq_ok_iff.mp hcollect
    have hread := MMRBatch.get_elems_eq_of_agrees (b := b) hL
    simp only [hlast, hiter, hpeaks, ok_bind, hread]

end mmriver

/-- A tree can go on from its peaks. At every point of a session, whatever else the
    store has lost by then, reads that still show the peaks are enough: every push
    comes to just what it comes to over the whole store, and so do the root and the
    accumulator. -/
theorem peaks_suffice {Q : Merge Item μ} (S : MapStore R W) (hQ : Q.Within H.toMerge) {store : Store}
    {positions : List Nat} (hfit : b = .release → data.length + 1 < 2 ^ 63) :
    (∀ final, mmr.MMR.Session b Q R W (.new 0 store) data positions final →
      L.AgreesAt R final.batch.store (peakPositions data.length) → ∀ M : Merge Item μ,
        (∀ d, final.push b M L d = final.push b M R d) ∧
        (final.get_root b M L : Outcome (Error σ μ) Item) = final.get_root b M R) ∧
    ∀ final, mmriver.MMRIVER.Session b Q R W (.new 0 store) data positions final →
      L.AgreesAt R final.batch.store (peakPositions data.length) → ∀ M : Merge Item μ,
        (∀ d, final.push b M L d = final.push b M R d) ∧
        (final.get_accumulator b L : Outcome (Error σ μ) _) = final.get_accumulator b R ∧
        (final.get_root b M L : Outcome (Error σ μ) Item) = final.get_root b M R := by
  have hbefore : b = .release → data.length < 2 ^ 63 := fun hb => (Nat.lt_succ_self _).trans (hfit hb)
  refine ⟨fun final session hL M => ?_, fun final session hL M => ?_⟩
  · obtain ⟨h, _⟩ := session.holds S hQ fun hb => (hbefore hb).le
    exact ⟨h.push_pruned hL, h.get_root_pruned hL⟩
  · obtain ⟨h, _⟩ := session.holds S hQ hbefore
    have haccumulator := h.get_accumulator_pruned (μ := μ) hL
    refine ⟨h.push_pruned hL hfit, haccumulator, ?_⟩
    rw [mmriver.MMRIVER.get_root, mmriver.MMRIVER.get_root, haccumulator]

/-- A map in memory shows the positions that it has not lost. -/
theorem MemStore.lossyOps_agreesAt {T Err : Type} {lost : Nat → Bool} {positions : List Nat}
    (hkept : ∀ p ∈ positions, lost p = false) (store : MemStore T) :
    (lossyOps lost : MMRStoreReadOps (MemStore T) T Err).AgreesAt readOps store positions where
  get_elem p hp := by simp [lossyOps, readOps, hkept p hp]
  get_elems ps hsub := by
    simp only [lossyOps, readOps, ok.injEq]
    refine List.map_congr_left fun p hp => ?_
    rw [hkept p (hsub hp)]
    rfl

/-- Two leaves in memory, of whose nodes the store has kept their parent. -/
theorem peaks_suffice_two :
    ∃ final next, mmr.MMR.SymbolicSession (.new 0 MemStore.new) [[1], [2]] [0, 1] final ∧
      (final.push .debug (Term.hasher.toMerge : Merge (Term Empty) Unit) MemStore.readOps [3] :
        Outcome Empty (Except (Error Empty Unit) _ × _)) = ok (.ok 3, next) ∧
      (final.push .debug (Term.hasher.toMerge : Merge (Term Empty) Unit)
        (MemStore.lossyOps fun p => p < 2) [3] : Outcome Empty (Except (Error Empty Unit) _ × _)) =
          ok (.ok 3, next) := by
  have start : mmr.MMR.SymbolicSession (.new 0 MemStore.new) [] [] _ := .refl
  have session := ((start.push (d := [1]) ⟨_, _, .refl _, .refl _, rfl⟩).push (d := [2])
    ⟨_, _, .refl _, .refl _, rfl⟩).settle ⟨_, rfl, Or.inl rfl⟩
  have hkept : ∀ p ∈ peakPositions 2, (fun p => decide (p < 2)) p = false := by decide
  have hsame := ((peaks_suffice (b := .debug) (MemStore.mapStore .debug)
    (.refl (Term.hasher.toMerge : Merge (Term Empty) Unit)) (fun hb => by cases hb)).1 _ session
    (MemStore.lossyOps_agreesAt hkept _) Term.hasher.toMerge).1 [3]
  exact ⟨_, _, session, rfl, hsame.trans rfl⟩

end merkleberg
