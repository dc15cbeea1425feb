import Merkleberg.Store.Batch

open machine machine.Outcome

namespace merkleberg

variable {Store Elem Err : Type} {b : Profile}

/-- The entry has an element for the position. -/
def Covers (p : Nat) (entry : Nat × List Elem) : Prop :=
  entry.1 ≤ p ∧ p < entry.1 + entry.2.length

/-- The newest entry that covers the position has something else than the map
    below, and a newer entry starts at or below the position without reaching it. -/
def Shadowed (under : Nat → Option Elem) (entries : List (Nat × List Elem)) (p : Nat) : Prop :=
  ∃ older pos elems newer, entries = older ++ (pos, elems) :: newer ∧ Covers p (pos, elems) ∧
    (∀ entry ∈ newer, ¬ Covers p entry) ∧ (∃ entry ∈ newer, entry.1 ≤ p) ∧
    elems[p - pos]? ≠ under p

theorem overlay_of_not_covers {p pos : Nat} {elems : List Elem} (h : ¬ Covers p (pos, elems))
    (under : Nat → Option Elem) : overlay pos elems under p = under p := by
  by_cases hle : pos ≤ p
  · exact overlay_of_ge (Nat.not_lt.mp fun hlt => h ⟨hle, hlt⟩)
  · exact overlay_of_lt (Nat.not_le.mp hle)

theorem overlays_of_not_covers {p : Nat} {entries : List (Nat × List Elem)}
    (h : ∀ entry ∈ entries, ¬ Covers p entry) (under : Nat → Option Elem) :
    overlays entries under p = under p := by
  induction entries generalizing under with
  | nil => rfl
  | cons entry rest ih =>
    obtain ⟨pos, elems⟩ := entry
    rw [List.forall_mem_cons] at h
    rw [overlays_cons, ih h.2, overlay_of_not_covers h.1]

/-- The newest entry that covers a position decides it. -/
theorem overlays_newest {p pos : Nat} {elems : List Elem} {older newer : List (Nat × List Elem)}
    (hcovers : Covers p (pos, elems)) (hnewer : ∀ entry ∈ newer, ¬ Covers p entry)
    (under : Nat → Option Elem) :
    overlays (older ++ (pos, elems) :: newer) under p = elems[p - pos]? := by
  rw [overlays_append, overlays_cons, overlays_of_not_covers hnewer,
    overlay_of_mem hcovers.1 hcovers.2]

theorem exists_newest {p : Nat} {entries : List (Nat × List Elem)}
    (h : ∃ entry ∈ entries, Covers p entry) :
    ∃ older pos elems newer, entries = older ++ (pos, elems) :: newer ∧ Covers p (pos, elems) ∧
      ∀ entry ∈ newer, ¬ Covers p entry := by
  induction entries using List.reverseRecOn with
  | nil => simp at h
  | append_singleton entries entry ih =>
    by_cases hlast : Covers p entry
    · exact ⟨entries, entry.1, entry.2, [], rfl, hlast, by simp⟩
    · have hbelow : ∃ entry ∈ entries, Covers p entry := by
        obtain ⟨found, hfound, hcovers⟩ := h
        rcases List.mem_append.mp hfound with hmem | hmem
        · exact ⟨found, hmem, hcovers⟩
        · rw [List.mem_singleton.mp hmem] at hcovers
          exact absurd hcovers hlast
      obtain ⟨older, pos, elems, newer, rfl, hcovers, hnewer⟩ := ih hbelow
      refine ⟨older, pos, elems, newer ++ [entry], by simp, hcovers, ?_⟩
      rw [List.forall_mem_append, List.forall_mem_singleton]
      exact ⟨hnewer, hlast⟩

namespace MMRBatch

variable {R : MMRStoreReadOps Store Elem Err} {W : MMRStoreWriteOps Store Elem Err}

/-- Entries above the position are passed over. -/
theorem scan_above {store : Store} {p : Nat} {older newer : List (Nat × List Elem)}
    (h : ∀ entry ∈ newer, p < entry.1) :
    get_elem.scan b R store p (older ++ newer).reverse = get_elem.scan b R store p older.reverse := by
  induction newer using List.reverseRecOn with
  | nil => rw [List.append_nil]
  | append_singleton newer entry ih =>
    rw [List.forall_mem_append, List.forall_mem_singleton] at h
    rw [← List.append_assoc, List.reverse_append, List.reverse_singleton, List.singleton_append,
      get_elem.scan, if_pos h.2, ih h.1]

/-- The first entry that starts at or below the position without reaching it
    sends the read to the store. -/
theorem scan_break (S : MapStore R W) {store : Store} {p : Nat}
    {older newer : List (Nat × List Elem)} (hfits : Fits newer)
    (hnewer : ∀ entry ∈ newer, ¬ Covers p entry) (hstart : ∃ entry ∈ newer, entry.1 ≤ p) :
    get_elem.scan b R store p (older ++ newer).reverse = ok (S.contents store p) := by
  induction newer using List.reverseRecOn with
  | nil => simp at hstart
  | append_singleton newer entry ih =>
    obtain ⟨pos, elems⟩ := entry
    rw [Fits, List.forall_mem_append, List.forall_mem_singleton] at hfits
    rw [List.forall_mem_append, List.forall_mem_singleton] at hnewer
    rw [← List.append_assoc, List.reverse_append, List.reverse_singleton, List.singleton_append,
      get_elem.scan]
    by_cases hbefore : p < pos
    · have hbelow : ∃ entry ∈ newer, entry.1 ≤ p := by
        obtain ⟨found, hfound, hle⟩ := hstart
        rcases List.mem_append.mp hfound with hmem | hmem
        · exact ⟨found, hmem, hle⟩
        · rw [List.mem_singleton.mp hmem] at hle
          exact absurd hbefore (Nat.not_lt.mpr hle)
      rw [if_pos hbefore, ih hfits.1 hnewer.1 hbelow]
    · have hstop : (U64.add b pos elems.length : Outcome Err Nat) = ok (pos + elems.length) :=
        Word.add_ok hfits.2
      have hreach : ¬ p < pos + elems.length := fun hlt => hnewer.2 ⟨Nat.not_lt.mp hbefore, hlt⟩
      rw [if_neg hbefore, hstop, ok_bind, if_neg hreach, S.get_elem]

theorem scan_newest {store : Store} {p pos : Nat} {elems : List Elem}
    {older : List (Nat × List Elem)} (hfits : pos + elems.length < 2 ^ 64)
    (hcovers : Covers p (pos, elems)) :
    get_elem.scan b R store p (older ++ [(pos, elems)]).reverse = ok elems[p - pos]? := by
  obtain ⟨hle, hlt⟩ := hcovers
  have hstop : (U64.add b pos elems.length : Outcome Err Nat) = ok (pos + elems.length) :=
    Word.add_ok hfits
  have hoffset : (U64.sub b p pos : Outcome Err Nat) = ok (p - pos) := Word.sub_ok hle
  rw [List.reverse_append, List.reverse_singleton, List.singleton_append, get_elem.scan,
    if_neg (Nat.not_lt.mpr hle), hstop, ok_bind, if_pos hlt, hoffset, ok_bind]

/-- A single read shows the entries over the store, unless it breaks off before
    the entry that decides the position. -/
theorem get_elem_eq_iff (S : MapStore R W) {self : MMRBatch Elem Store}
    (hfits : Fits self.memory_batch) (p : Nat) :
    self.get_elem b R p = ok (overlays self.memory_batch (S.contents self.store) p) ↔
      ¬ Shadowed (S.contents self.store) self.memory_batch p := by
  rw [get_elem]
  constructor
  · rintro hread ⟨older, pos, elems, newer, hentries, hcovers, hnewer, hstart, hne⟩
    rw [hentries] at hread hfits
    rw [overlays_newest hcovers hnewer, List.append_cons, scan_break S
      (fun entry hentry => hfits entry (by simp [hentry])) hnewer hstart] at hread
    injection hread with hread
    exact hne hread.symm
  · intro hclear
    by_cases hnone : ∀ entry ∈ self.memory_batch, ¬ Covers p entry
    · rw [overlays_of_not_covers hnone]
      by_cases hstart : ∃ entry ∈ self.memory_batch, entry.1 ≤ p
      · rw [← List.nil_append self.memory_batch]
        exact scan_break S hfits hnone hstart
      · push Not at hstart
        rw [← List.nil_append self.memory_batch, scan_above hstart, List.reverse_nil, get_elem.scan,
          S.get_elem]
    · push Not at hnone
      obtain ⟨older, pos, elems, newer, hentries, hcovers, hnewer⟩ := exists_newest hnone
      rw [hentries] at hfits ⊢
      rw [overlays_newest hcovers hnewer, List.append_cons]
      by_cases hstart : ∃ entry ∈ newer, entry.1 ≤ p
      · have hsame : elems[p - pos]? = S.contents self.store p := by
          by_contra hne
          exact hclear ⟨older, pos, elems, newer, hentries, hcovers, hnewer, hstart, hne⟩
        rw [hsame]
        exact scan_break S (fun entry hentry => hfits entry (by simp [hentry])) hnewer hstart
      · push Not at hstart
        rw [scan_above hstart, scan_newest (hfits (pos, elems) (by simp)) hcovers]

end MMRBatch

namespace MemStore

variable {T : Type}

/-- Committing to the store in memory succeeds and writes every entry, in order. -/
theorem drain_eq {store : MemStore T} {entries : List (Nat × List T)} (hfits : Fits entries) :
    MMRBatch.commit.drain (writeOps b : MMRStoreWriteOps (MemStore T) T Err) store entries =
      ok (.ok (), { entries := overlays entries store.entries }) := by
  induction entries generalizing store with
  | nil => rfl
  | cons entry rest ih =>
    obtain ⟨pos, elems⟩ := entry
    rw [Fits, List.forall_mem_cons] at hfits
    have happend : (writeOps b : MMRStoreWriteOps (MemStore T) T Err).append store pos elems =
        ok (.ok (), { entries := overlay pos elems store.entries }) := by
      have hfit : pos + 0 + elems.length ≤ 2 ^ 64 := hfits.1.le
      simp only [writeOps, insertAll_eq hfit, ok_bind, Nat.add_zero]
    rw [MMRBatch.commit.drain, happend]
    exact ih hfits.2

end MemStore

/-- The batch over a store after a sequence of appends. -/
def MMRBatch.appendAll (store : Store) (runs : List (Nat × List Elem)) : MMRBatch Elem Store :=
  runs.foldl (fun batch run => batch.append run.1 run.2) (.new store)

theorem MMRBatch.appendAll_eq (store : Store) (runs : List (Nat × List Elem)) :
    MMRBatch.appendAll store runs = { memory_batch := runs, store } := by
  induction runs using List.reverseRecOn with
  | nil => rfl
  | append_singleton runs run ih =>
    rw [appendAll, List.foldl_append, ← appendAll, ih]
    rfl

/-- After any appends over the store in memory, reading many positions, reading
    them one by one and reading the store after a commit agree exactly on the
    positions where no entry stops a single read too early. -/
theorem reads_agree_iff {T σ : Type} (store : MemStore T) (runs : List (Nat × List T))
    (hfits : ∀ run ∈ runs, run.1 + run.2.length < 2 ^ 64) (positions : List Nat) :
    ∃ after, (MMRBatch.appendAll store runs).commit
        (MemStore.writeOps b : MMRStoreWriteOps (MemStore T) T σ) = ok (.ok (), after) ∧
      ((∃ results, (MMRBatch.appendAll store runs).get_elems b
            (MemStore.readOps : MMRStoreReadOps (MemStore T) T σ) positions = ok results ∧
          positions.mapM ((MMRBatch.appendAll store runs).get_elem b
            (MemStore.readOps : MMRStoreReadOps (MemStore T) T σ)) = ok results ∧
          (MemStore.readOps : MMRStoreReadOps (MemStore T) T σ).get_elems after.store positions =
            ok results) ↔
        ∀ p ∈ positions, ¬ Shadowed store.entries runs p) := by
  let S : MapStore (MemStore.readOps : MMRStoreReadOps (MemStore T) T σ) (MemStore.writeOps b) :=
    MemStore.mapStore b
  let batch : MMRBatch T (MemStore T) := { memory_batch := runs, store }
  have hbatch : Fits batch.memory_batch := hfits
  have hmany : batch.get_elems b MemStore.readOps positions =
      ok (positions.map (overlays runs store.entries)) := MMRBatch.get_elems_overlays S hbatch positions
  have hone (p : Nat) : batch.get_elem b MemStore.readOps p = ok (overlays runs store.entries p) ↔
      ¬ Shadowed store.entries runs p := MMRBatch.get_elem_eq_iff S hbatch p
  refine ⟨{ memory_batch := [], store := { entries := overlays runs store.entries } }, ?_, ?_⟩
  · rw [MMRBatch.appendAll_eq, MMRBatch.commit_eq_ok_iff]
    exact ⟨MemStore.drain_eq hfits, rfl⟩
  rw [MMRBatch.appendAll_eq]
  constructor
  · rintro ⟨results, hresults, hmap, -⟩ p hp
    rw [hmany, ok.injEq] at hresults
    rw [← hresults, mapM_eq_ok_iff] at hmap
    exact (hone p).mp (hmap p hp)
  · intro hclear
    exact ⟨_, hmany, mapM_eq_ok fun p hp => (hone p).mpr (hclear p hp), rfl⟩

/-- Runs without a gap, read back at both ends. -/
theorem reads_agree_two :
    ¬ Shadowed (MemStore.new : MemStore Nat).entries [(0, [7]), (1, [8, 9])] 0 ∧
      ¬ Shadowed (MemStore.new : MemStore Nat).entries [(0, [7]), (1, [8, 9])] 2 := by
  obtain ⟨after, hcommit, hagree⟩ :=
    reads_agree_iff (b := .debug) (σ := Empty) (MemStore.new : MemStore Nat) [(0, [7]), (1, [8, 9])]
      (by simp) [0, 2]
  rw [MMRBatch.appendAll_eq, MMRBatch.commit_eq_ok_iff, MemStore.drain_eq (by simp [Fits])] at hcommit
  have hstored := (Prod.mk.inj (ok.inj hcommit.1)).2
  have hclear := hagree.mp ⟨[some 7, some 9], rfl, rfl, by rw [← hstored]; rfl⟩
  exact ⟨hclear 0 (by simp), hclear 2 (by simp)⟩

/-- The second append starts below the first one and ends before it, and hides
    it from a single read. -/
theorem reads_disagree :
    (MMRBatch.appendAll (MemStore.new : MemStore Nat) [(5, [7]), (0, [8])]).get_elems .debug
        (MemStore.readOps : MMRStoreReadOps (MemStore Nat) Nat Empty) [5] = ok [some 7] ∧
      (MMRBatch.appendAll (MemStore.new : MemStore Nat) [(5, [7]), (0, [8])]).get_elem .debug
        (MemStore.readOps : MMRStoreReadOps (MemStore Nat) Nat Empty) 5 = ok none ∧
      ∃ after, (MMRBatch.appendAll (MemStore.new : MemStore Nat) [(5, [7]), (0, [8])]).commit
          (MemStore.writeOps .debug : MMRStoreWriteOps (MemStore Nat) Nat Empty) =
            ok (.ok (), after) ∧
        (MemStore.readOps : MMRStoreReadOps (MemStore Nat) Nat Empty).get_elem after.store 5 =
          ok (some 7) :=
  ⟨rfl, rfl, _, rfl, rfl⟩

end merkleberg
