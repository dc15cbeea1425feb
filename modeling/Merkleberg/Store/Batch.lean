import Mathlib.Data.List.Induction
import Merkleberg.Store

open machine machine.Outcome

namespace merkleberg

variable {Store Elem Err : Type} {b : Profile}

/-- A map with a run of elements written over it from `pos` on. -/
def overlay (pos : Nat) (run : List Elem) (under : Nat → Option Elem) : Nat → Option Elem :=
  fun p => (if pos ≤ p then run[p - pos]? else none).or (under p)

@[simp] theorem overlay_nil (pos : Nat) (under : Nat → Option Elem) : overlay pos [] under = under := by
  funext p
  simp [overlay]

theorem overlay_of_lt {pos p : Nat} {run : List Elem} {under : Nat → Option Elem} (h : p < pos) :
    overlay pos run under p = under p := by
  simp [overlay, Nat.not_le.mpr h]

theorem overlay_of_mem {pos p : Nat} {run : List Elem} {under : Nat → Option Elem} (hle : pos ≤ p)
    (hlt : p < pos + run.length) : overlay pos run under p = run[p - pos]? := by
  have hinside : p - pos < run.length := by omega
  simp [overlay, hle, List.getElem?_eq_getElem hinside]

theorem overlay_of_ge {pos p : Nat} {run : List Elem} {under : Nat → Option Elem}
    (hge : pos + run.length ≤ p) : overlay pos run under p = under p := by
  have hnone : run[p - pos]? = none := List.getElem?_eq_none (by omega)
  simp [overlay, hnone]

/-- Two runs that touch are one run. -/
theorem overlay_append (pos : Nat) (first second : List Elem) (under : Nat → Option Elem) :
    overlay pos (first ++ second) under =
      overlay (pos + first.length) second (overlay pos first under) := by
  funext p
  by_cases hlow : p < pos + first.length
  · rw [overlay_of_lt hlow]
    by_cases hle : pos ≤ p
    · rw [overlay_of_mem hle (by rw [List.length_append]; omega), overlay_of_mem hle hlow,
        List.getElem?_append_left (by omega)]
    · rw [overlay_of_lt (by omega), overlay_of_lt (by omega)]
  · by_cases hhigh : p < pos + first.length + second.length
    · rw [overlay_of_mem (by omega) (by rw [List.length_append]; omega),
        overlay_of_mem (by omega) hhigh, List.getElem?_append_right (by omega)]
      congr 1
      omega
    · rw [overlay_of_ge (by rw [List.length_append]; omega), overlay_of_ge (by omega),
        overlay_of_ge (by omega)]

/-- The elements of entries over a map, a later entry over the earlier ones. -/
def overlays (entries : List (Nat × List Elem)) (under : Nat → Option Elem) : Nat → Option Elem :=
  entries.foldl (fun under entry => overlay entry.1 entry.2 under) under

@[simp] theorem overlays_nil (under : Nat → Option Elem) : overlays [] under = under := rfl

@[simp] theorem overlays_cons (pos : Nat) (elems : List Elem) (rest : List (Nat × List Elem))
    (under : Nat → Option Elem) :
    overlays ((pos, elems) :: rest) under = overlays rest (overlay pos elems under) := rfl

theorem overlays_append (first second : List (Nat × List Elem)) (under : Nat → Option Elem) :
    overlays (first ++ second) under = overlays second (overlays first under) :=
  List.foldl_append

theorem overlays_snoc (entries : List (Nat × List Elem)) (pos : Nat) (elems : List Elem)
    (under : Nat → Option Elem) :
    overlays (entries ++ [(pos, elems)]) under = overlay pos elems (overlays entries under) :=
  overlays_append entries [(pos, elems)] under

/-- What the entries leave open is seen below them. -/
theorem overlays_or (entries : List (Nat × List Elem)) (under : Nat → Option Elem) (p : Nat) :
    overlays entries under p = (overlays entries (fun _ => none) p).or (under p) := by
  induction entries using List.reverseRecOn with
  | nil => rfl
  | append_singleton entries entry ih =>
    obtain ⟨pos, elems⟩ := entry
    simp only [overlays_snoc, overlay, ih, Option.or_assoc]

/-- Every entry ends inside a word. -/
def Fits (entries : List (Nat × List Elem)) : Prop :=
  ∀ entry ∈ entries, entry.1 + entry.2.length < 2 ^ 64

/-- A store that behaves as a map from positions to elements: reads return what
    the map holds, and an append that succeeds writes its run over it. Nothing
    is said about an append that fails. -/
structure MapStore (R : MMRStoreReadOps Store Elem Err) (W : MMRStoreWriteOps Store Elem Err) where
  contents : Store → Nat → Option Elem
  get_elem : ∀ store pos, R.get_elem store pos = ok (contents store pos)
  get_elems : ∀ store positions, R.get_elems store positions = ok (positions.map (contents store))
  append : ∀ {store pos elems store'}, W.append store pos elems = ok (.ok (), store') →
    pos + elems.length ≤ 2 ^ 64 → contents store' = overlay pos elems (contents store)

/-- Batch entries that follow each other without a gap, from `bottom` to `top`. -/
def Contiguous : Nat → List (Nat × List Elem) → Nat → Prop
  | bottom, [], top => bottom = top
  | bottom, (pos, elems) :: rest, top =>
    pos = bottom ∧ elems ≠ [] ∧ Contiguous (bottom + elems.length) rest top

/-- The elements of a list of entries, in order. -/
def pendingElems (entries : List (Nat × List Elem)) : List Elem := entries.flatMap (·.2)

@[simp] theorem pendingElems_nil : pendingElems ([] : List (Nat × List Elem)) = [] := rfl

@[simp] theorem pendingElems_cons (pos : Nat) (elems : List Elem) (rest : List (Nat × List Elem)) :
    pendingElems ((pos, elems) :: rest) = elems ++ pendingElems rest := rfl

@[simp] theorem pendingElems_append (first second : List (Nat × List Elem)) :
    pendingElems (first ++ second) = pendingElems first ++ pendingElems second :=
  List.flatMap_append

theorem Contiguous.length {bottom top : Nat} {entries : List (Nat × List Elem)}
    (h : Contiguous bottom entries top) : bottom + (pendingElems entries).length = top := by
  induction entries generalizing bottom with
  | nil => exact h
  | cons entry rest ih =>
    obtain ⟨_, _, htail⟩ := h
    have := ih htail
    rw [pendingElems_cons, List.length_append]
    omega

theorem contiguous_append_iff {bottom top : Nat} {first second : List (Nat × List Elem)} :
    Contiguous bottom (first ++ second) top ↔
      ∃ middle, Contiguous bottom first middle ∧ Contiguous middle second top := by
  induction first generalizing bottom with
  | nil => exact ⟨fun h => ⟨bottom, rfl, h⟩, fun ⟨middle, heq, h⟩ => by rwa [← heq] at h⟩
  | cons entry rest ih =>
    constructor
    · rintro ⟨hpos, hne, htail⟩
      obtain ⟨middle, hrest, hsecond⟩ := ih.mp htail
      exact ⟨middle, ⟨hpos, hne, hrest⟩, hsecond⟩
    · rintro ⟨middle, ⟨hpos, hne, hrest⟩, hsecond⟩
      exact ⟨hpos, hne, ih.mpr ⟨middle, hrest, hsecond⟩⟩

theorem contiguous_snoc_iff {bottom top pos : Nat} {elems : List Elem}
    {entries : List (Nat × List Elem)} :
    Contiguous bottom (entries ++ [(pos, elems)]) top ↔
      Contiguous bottom entries pos ∧ elems ≠ [] ∧ pos + elems.length = top := by
  rw [contiguous_append_iff]
  constructor
  · rintro ⟨middle, hentries, rfl, hne, hlength⟩
    exact ⟨hentries, hne, hlength⟩
  · rintro ⟨hentries, hne, hlength⟩
    exact ⟨pos, hentries, rfl, hne, hlength⟩

/-- Entries without a gap are one run. -/
theorem Contiguous.overlays_eq {bottom top : Nat} {entries : List (Nat × List Elem)}
    (h : Contiguous bottom entries top) (under : Nat → Option Elem) :
    overlays entries under = overlay bottom (pendingElems entries) under := by
  induction entries generalizing bottom under with
  | nil => rw [overlays_nil, pendingElems_nil, overlay_nil]
  | cons entry rest ih =>
    obtain ⟨pos, elems⟩ := entry
    obtain ⟨rfl, _, htail⟩ := h
    rw [overlays_cons, ih htail, pendingElems_cons, overlay_append]

theorem Contiguous.stop_le {bottom top : Nat} {entries : List (Nat × List Elem)}
    (h : Contiguous bottom entries top) : ∀ entry ∈ entries, entry.1 + entry.2.length ≤ top := by
  induction entries generalizing bottom with
  | nil => simp
  | cons entry rest ih =>
    obtain ⟨pos, elems⟩ := entry
    have hlength := h.length
    obtain ⟨rfl, _, htail⟩ := h
    rw [pendingElems_cons, List.length_append] at hlength
    rw [List.forall_mem_cons]
    exact ⟨by simp only; omega, ih htail⟩

namespace MMRBatch

variable {R : MMRStoreReadOps Store Elem Err} {W : MMRStoreWriteOps Store Elem Err}

/-- What a batch shows at each position: its entries, over the store. -/
def view (S : MapStore R W) (self : MMRBatch Elem Store) : Nat → Option Elem :=
  overlay ((self.memory_batch.head?.map (·.1)).getD 0) (pendingElems self.memory_batch)
    (S.contents self.store)

/-- The entries of a batch leave no gap and end at `top`. -/
def EndsAt (self : MMRBatch Elem Store) (top : Nat) : Prop :=
  ∃ bottom, Contiguous bottom self.memory_batch top

theorem endsAt_new (store : Store) (top : Nat) : (new store : MMRBatch Elem Store).EndsAt top :=
  ⟨top, rfl⟩

@[simp] theorem view_new (S : MapStore R W) (store : Store) :
    (new store : MMRBatch Elem Store).view S = S.contents store :=
  overlay_nil _ _

variable {S : MapStore R W}

theorem view_eq {self : MMRBatch Elem Store} {bottom top : Nat}
    (h : Contiguous bottom self.memory_batch top) :
    self.view S = overlay bottom (pendingElems self.memory_batch) (S.contents self.store) := by
  unfold view
  cases hentries : self.memory_batch with
  | nil => simp
  | cons entry rest =>
    rw [hentries] at h
    rw [List.head?_cons, Option.map_some, Option.getD_some, h.1]

theorem scan_eq (S : MapStore R W) {store : Store} {entries : List (Nat × List Elem)}
    {bottom top : Nat} (h : Contiguous bottom entries top) (htop : top < 2 ^ 64) (p : Nat) :
    get_elem.scan b R store p entries.reverse =
      ok (overlay bottom (pendingElems entries) (S.contents store) p) := by
  induction entries using List.reverseRecOn generalizing top with
  | nil => simp [get_elem.scan, S.get_elem]
  | append_singleton entries entry ih =>
    obtain ⟨pos, elems⟩ := entry
    obtain ⟨hentries, hne, hlength⟩ := contiguous_snoc_iff.mp h
    have hmiddle := hentries.length
    have hstop : (U64.add b pos elems.length : Outcome Err Nat) = ok (pos + elems.length) :=
      Word.add_ok (by omega)
    rw [List.reverse_append, List.reverse_singleton, List.singleton_append, get_elem.scan,
      pendingElems_append, overlay_append, pendingElems_cons, pendingElems_nil, List.append_nil,
      hmiddle]
    by_cases hbefore : p < pos
    · rw [if_pos hbefore, overlay_of_lt hbefore]
      exact ih hentries (by omega)
    · rw [if_neg hbefore, hstop, ok_bind]
      by_cases hinside : p < pos + elems.length
      · have hoffset : (U64.sub b p pos : Outcome Err Nat) = ok (p - pos) :=
          Word.sub_ok (by omega)
        rw [if_pos hinside, hoffset, ok_bind, overlay_of_mem (by omega) hinside]
      · rw [if_neg hinside, S.get_elem, overlay_of_ge (by omega), overlay_of_ge (by omega)]

/-- Single reads go through the batch to the store. -/
theorem get_elem_eq (S : MapStore R W) {self : MMRBatch Elem Store} {top : Nat}
    (h : self.EndsAt top) (htop : top < 2 ^ 64) (p : Nat) :
    self.get_elem b R p = ok (self.view S p) := by
  obtain ⟨bottom, hentries⟩ := h
  rw [get_elem, scan_eq S hentries htop, view_eq hentries]

/-- The search of one position finds the newest entry that covers it. -/
theorem find_eq {entries : List (Nat × List Elem)} (hfits : Fits entries) (p : Nat) :
    (get_elems.find b p entries.reverse : Outcome Err _) =
      ok (overlays entries (fun _ => none) p) := by
  induction entries using List.reverseRecOn with
  | nil => simp [get_elems.find]
  | append_singleton entries entry ih =>
    obtain ⟨pos, elems⟩ := entry
    have hbelow : Fits entries := fun entry hentry => hfits entry (List.mem_append_left _ hentry)
    have hstop : (U64.add b pos elems.length : Outcome Err Nat) = ok (pos + elems.length) :=
      Word.add_ok (hfits (pos, elems) (by simp))
    rw [List.reverse_append, List.reverse_singleton, List.singleton_append, get_elems.find,
      overlays_snoc]
    by_cases hafter : p ≥ pos
    · rw [if_pos hafter, hstop, ok_bind]
      by_cases hinside : p < pos + elems.length
      · have hoffset : (U64.sub b p pos : Outcome Err Nat) = ok (p - pos) :=
          Word.sub_ok (by omega)
        have helem : elems[p - pos]? = some elems[p - pos] := List.getElem?_eq_getElem (by omega)
        rw [if_pos hinside, hoffset, ok_bind, overlay_of_mem hafter hinside, helem, expect_some,
          ok_bind]
      · rw [if_neg hinside, ih hbelow, overlay_of_ge (Nat.not_lt.mp hinside)]
    · rw [if_neg hafter, ih hbelow, overlay_of_lt (Nat.not_le.mp hafter)]

theorem fill_nil (results : List (Option Elem)) : get_elems.fill results [] = results := by
  induction results with
  | nil => rfl
  | cons found results ih => cases found <;> simp [get_elems.fill, ih]

/-- Fetching what is missing and putting it in place is reading one by one. -/
theorem fill_eq (found under : Nat → Option Elem) (positions : List Nat) :
    get_elems.fill (positions.map found)
        (((positions.zip (positions.map found)).filter (·.2.isNone)).map fun entry => under entry.1) =
      positions.map fun p => (found p).or (under p) := by
  induction positions with
  | nil => rfl
  | cons p positions ih =>
    cases hfound : found p with
    | none => simpa [get_elems.fill, hfound] using ih
    | some elem => simpa [get_elems.fill, hfound] using ih

/-- A read of many positions shows the entries over the store, wherever they lie. -/
theorem get_elems_overlays (S : MapStore R W) {self : MMRBatch Elem Store}
    (hfits : Fits self.memory_batch) (positions : List Nat) :
    self.get_elems b R positions =
      ok (positions.map (overlays self.memory_batch (S.contents self.store))) := by
  have hfound : positions.mapM (fun pos => (get_elems.find b pos self.memory_batch.reverse :
      Outcome Err _)) = ok (positions.map (overlays self.memory_batch fun _ => none)) := by
    simp only [find_eq hfits]
    exact List.mapM_pure
  have hfill := fill_eq (overlays self.memory_batch fun _ => none) (S.contents self.store) positions
  rw [← List.map_congr_left fun p _ => overlays_or self.memory_batch (S.contents self.store) p] at hfill
  simp only [get_elems, hfound, ok_bind, S.get_elems, List.map_map]
  split
  · rw [← hfill]
    rfl
  · rename_i hnone
    rw [not_ne_iff, List.map_eq_nil_iff] at hnone
    rw [hnone, List.map_nil, fill_nil] at hfill
    rw [← hfill]

/-- A read of many positions agrees with reading them one by one. -/
theorem get_elems_eq (S : MapStore R W) {self : MMRBatch Elem Store} {top : Nat}
    (h : self.EndsAt top) (htop : top < 2 ^ 64) (positions : List Nat) :
    self.get_elems b R positions = ok (positions.map (self.view S)) := by
  obtain ⟨bottom, hentries⟩ := h
  have hfits : Fits self.memory_batch := fun entry hentry =>
    (hentries.stop_le entry hentry).trans_lt htop
  rw [get_elems_overlays S hfits, hentries.overlays_eq, view_eq hentries]

theorem EndsAt.append {self : MMRBatch Elem Store} {top : Nat} (h : self.EndsAt top)
    {elems : List Elem} (hne : elems ≠ []) : (self.append top elems).EndsAt (top + elems.length) := by
  obtain ⟨bottom, hentries⟩ := h
  exact ⟨bottom, contiguous_snoc_iff.mpr ⟨hentries, hne, rfl⟩⟩

/-- An appended run shows over everything the batch showed before. -/
theorem view_append {self : MMRBatch Elem Store} {top : Nat} (h : self.EndsAt top)
    {elems : List Elem} (hne : elems ≠ []) :
    (self.append top elems).view S = overlay top elems (self.view S) := by
  obtain ⟨bottom, hentries⟩ := h
  have hnew : Contiguous bottom (self.append top elems).memory_batch (top + elems.length) :=
    contiguous_snoc_iff.mpr ⟨hentries, hne, rfl⟩
  rw [view_eq hentries, view_eq hnew, append, pendingElems_append, overlay_append, hentries.length]
  simp

/-- A drain that succeeds writes every entry, in order. -/
theorem drain_overlays (S : MapStore R W) {store store' : Store} {entries : List (Nat × List Elem)}
    (hfits : ∀ entry ∈ entries, entry.1 + entry.2.length ≤ 2 ^ 64)
    (hdrain : commit.drain W store entries = ok (.ok (), store')) :
    S.contents store' = overlays entries (S.contents store) := by
  induction entries generalizing store with
  | nil =>
    simp only [commit.drain, ok.injEq, Prod.mk.injEq, true_and] at hdrain
    rw [overlays_nil, hdrain]
  | cons entry rest ih =>
    obtain ⟨pos, elems⟩ := entry
    rw [List.forall_mem_cons] at hfits
    rw [commit.drain, bind_eq_ok_iff] at hdrain
    obtain ⟨⟨result, middle⟩, happend, hrest⟩ := hdrain
    cases result with
    | error error => simp at hrest
    | ok => rw [ih hfits.2 hrest, S.append happend hfits.1, overlays_cons]

theorem drain_ok (S : MapStore R W) {store store' : Store} {entries : List (Nat × List Elem)}
    {bottom top : Nat} (h : Contiguous bottom entries top) (htop : top ≤ 2 ^ 64)
    (hdrain : commit.drain W store entries = ok (.ok (), store')) :
    S.contents store' = overlay bottom (pendingElems entries) (S.contents store) := by
  rw [drain_overlays S (fun entry hentry => (h.stop_le entry hentry).trans htop) hdrain,
    h.overlays_eq]

/-- A drain stops at the first entry that fails, whatever comes after it. -/
theorem drain_stops {store middle failed : Store} {written : List (Nat × List Elem)} {pos : Nat}
    {elems : List Elem} {error : Err} (rest : List (Nat × List Elem))
    (hwritten : commit.drain W store written = ok (.ok (), middle))
    (hfail : W.append middle pos elems = ok (.error error, failed)) :
    commit.drain W store (written ++ (pos, elems) :: rest) = ok (.error error, failed) := by
  induction written generalizing store with
  | nil =>
    simp only [commit.drain, ok.injEq, Prod.mk.injEq, true_and] at hwritten
    rw [List.nil_append, commit.drain, hwritten, hfail]
    rfl
  | cons entry written ih =>
    obtain ⟨pos', elems'⟩ := entry
    rw [commit.drain, bind_eq_ok_iff] at hwritten
    obtain ⟨⟨result, next⟩, happend, hrest⟩ := hwritten
    cases result with
    | error error' => simp at hrest
    | ok =>
      rw [List.cons_append, commit.drain, happend]
      exact ih hrest

theorem commit_eq_ok_iff {self self' : MMRBatch Elem Store} {result : Except Err Unit} :
    self.commit W = ok (result, self') ↔
      commit.drain W self.store self.memory_batch = ok (result, self'.store) ∧
        self'.memory_batch = [] := by
  obtain ⟨entries', store'⟩ := self'
  rw [commit, bind_eq_ok_iff]
  constructor
  · rintro ⟨⟨result', store⟩, hdrain, hrest⟩
    simp only [ok.injEq, Prod.mk.injEq, mk.injEq] at hrest
    obtain ⟨rfl, rfl, rfl⟩ := hrest
    exact ⟨hdrain, rfl⟩
  · rintro ⟨hdrain, hnil⟩
    exact ⟨_, hdrain, by simp [← hnil]⟩

theorem endsAt_commit {self self' : MMRBatch Elem Store} {result : Except Err Unit} (top : Nat)
    (hcommit : self.commit W = ok (result, self')) : self'.EndsAt top := by
  refine ⟨top, ?_⟩
  rw [(commit_eq_ok_iff.mp hcommit).2]
  rfl

/-- A commit that succeeds does not change what the batch shows. -/
theorem view_commit {self self' : MMRBatch Elem Store} {top : Nat} (h : self.EndsAt top)
    (htop : top ≤ 2 ^ 64) (hcommit : self.commit W = ok (.ok (), self')) :
    self'.view S = self.view S := by
  obtain ⟨bottom, hentries⟩ := h
  obtain ⟨hdrain, hnil⟩ := commit_eq_ok_iff.mp hcommit
  rw [view_eq hentries, view, hnil, pendingElems_nil, overlay_nil, drain_ok S hentries htop hdrain]

end MMRBatch

namespace MemStore

variable {T : Type}

theorem insertAll_eq {pos i : Nat} {store : MemStore T} {elems : List T}
    (hfit : pos + i + elems.length ≤ 2 ^ 64) :
    append.insertAll b pos store i elems =
      ok { entries := overlay (pos + i) elems store.entries } := by
  induction elems generalizing store i with
  | nil => simp [append.insertAll]
  | cons elem elems ih =>
    rw [List.length_cons] at hfit
    have htarget : (U64.add b pos i : Outcome Empty Nat) = ok (pos + i) := Word.add_ok (by omega)
    have hinsert : (store.insert (pos + i) elem).entries = overlay (pos + i) [elem] store.entries := by
      funext p
      by_cases heq : p = pos + i
      · rw [overlay_of_mem (by omega) (by simp [heq])]
        simp [insert, heq]
      · by_cases hlt : p < pos + i
        · rw [overlay_of_lt hlt]
          simp [insert, heq]
        · rw [overlay_of_ge (by rw [List.length_singleton]; omega)]
          simp [insert, heq]
    have hrun := overlay_append (pos + i) [elem] elems store.entries
    rw [List.singleton_append, List.length_singleton, Nat.add_assoc] at hrun
    rw [append.insertAll, htarget, ok_bind, ih (by omega), hinsert, hrun]

/-- The store in memory is a map while positions fit in a word. -/
def mapStore (b : Profile) : MapStore (readOps : MMRStoreReadOps (MemStore T) T Err) (writeOps b) where
  contents store := store.entries
  get_elem _ _ := rfl
  get_elems _ _ := rfl
  append := by
    intro store pos elems store' happend hfit
    simp only [writeOps, insertAll_eq (i := 0) (show pos + 0 + elems.length ≤ 2 ^ 64 by omega),
      ok_bind, ok.injEq, Prod.mk.injEq, true_and] at happend
    rw [← happend, Nat.add_zero]

end MemStore

end merkleberg
