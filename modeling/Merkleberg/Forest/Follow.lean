import Mathlib.Data.List.Destutter
import Mathlib.Data.List.Forall2
import Merkleberg.Forest.Sections

namespace forest

section Follows

variable {α β : Type}

/-- A list follows a track when each of its elements is where a walk along the
    track stands or one place further. The walk starts at the head of the track
    and moves only when it has to. -/
inductive Follows : List α → List α → Prop where
  | nil (track : List α) : Follows [] track
  | stay {x : α} {steps track : List α} (next : Follows steps (x :: track)) :
      Follows (x :: steps) (x :: track)
  | move {x y : α} {steps track : List α} (hne : x ≠ y) (next : Follows steps (y :: track)) :
      Follows (y :: steps) (x :: y :: track)

@[simp] theorem not_follows_nil {x : α} {steps : List α} : ¬ Follows (x :: steps) [] := by
  intro hfollows
  cases hfollows

theorem follows_cons_iff {x y : α} {steps track : List α} :
    Follows (y :: steps) (x :: track) ↔
      x = y ∧ Follows steps (x :: track) ∨ x ≠ y ∧ track.head? = some y ∧ Follows steps track := by
  constructor
  · rintro (_ | next | ⟨hne, next⟩)
    · exact Or.inl ⟨rfl, next⟩
    · exact Or.inr ⟨hne, rfl, next⟩
  · rintro (⟨rfl, next⟩ | ⟨hne, hhead, next⟩)
    · exact .stay next
    · obtain ⟨track, rfl⟩ := List.head?_eq_some_iff.mp hhead
      exact .move hne next

theorem Follows.subset {steps track : List α} (hfollows : Follows steps track) : steps ⊆ track := by
  induction hfollows with
  | nil => exact List.nil_subset _
  | stay _ ih => exact List.cons_subset.mpr ⟨List.mem_cons_self, ih⟩
  | move _ _ ih =>
    exact List.cons_subset.mpr ⟨by simp, fun z hz => List.mem_cons_of_mem _ (ih hz)⟩

/-- A map that tells the places of the track apart keeps the walk. -/
theorem Follows.map {f : α → β} {steps track : List α} (hfollows : Follows steps track)
    (hinj : ∀ x ∈ track, ∀ y ∈ track, f x = f y → x = y) : Follows (steps.map f) (track.map f) := by
  induction hfollows with
  | nil => exact .nil _
  | stay _ ih => exact .stay (ih hinj)
  | move hne _ ih =>
    refine .move (fun heq => hne (hinj _ (by simp) _ (by simp) heq)) (ih ?_)
    exact fun x hx y hy => hinj x (List.mem_cons_of_mem _ hx) y (List.mem_cons_of_mem _ hy)

/-- A walk on what a map makes of a track is what it makes of a walk on the track. -/
theorem Follows.exists_of_map {f : α → β} {track : List α} {steps : List β}
    (hfollows : Follows steps (track.map f)) :
    ∃ steps', steps = steps'.map f ∧ Follows steps' track := by
  generalize hmapped : track.map f = mapped at hfollows
  induction hfollows generalizing track with
  | nil => exact ⟨[], rfl, .nil _⟩
  | stay _ ih =>
    obtain ⟨x, rest, rfl, rfl, rfl⟩ := List.map_eq_cons_iff.mp hmapped
    obtain ⟨steps', rfl, hnext⟩ := ih (List.map_cons (f := f) (l := rest))
    exact ⟨x :: steps', rfl, .stay hnext⟩
  | move hne _ ih =>
    obtain ⟨x, rest, rfl, rfl, hrest⟩ := List.map_eq_cons_iff.mp hmapped
    obtain ⟨y, after, rfl, rfl, rfl⟩ := List.map_eq_cons_iff.mp hrest
    obtain ⟨steps', rfl, hnext⟩ := ih (List.map_cons (f := f) (l := after))
    exact ⟨y :: steps', rfl, .move (fun heq => hne (congrArg f heq)) hnext⟩

/-- The walk does not notice a repeated element. -/
theorem follows_repeat {x : α} {steps track : List α} :
    Follows (x :: x :: steps) track ↔ Follows (x :: steps) track := by
  cases track with
  | nil => simp only [not_follows_nil]
  | cons y track =>
    rw [follows_cons_iff, follows_cons_iff]
    constructor
    · rintro (⟨_, hrest⟩ | ⟨hne, hhead, next⟩)
      · exact hrest
      · obtain ⟨track, rfl⟩ := List.head?_eq_some_iff.mp hhead
        exact Or.inr ⟨hne, rfl, by simpa [follows_cons_iff] using next⟩
    · rintro (⟨rfl, next⟩ | ⟨hne, hhead, next⟩)
      · exact Or.inl ⟨rfl, Or.inl ⟨rfl, next⟩⟩
      · obtain ⟨track, rfl⟩ := List.head?_eq_some_iff.mp hhead
        exact Or.inr ⟨hne, rfl, Follows.stay next⟩

/-- Lists that follow the same tracks still do behind a common element. -/
theorem follows_cons_congr {steps steps' : List α}
    (hsame : ∀ track, Follows steps track ↔ Follows steps' track) (x : α) (track : List α) :
    Follows (x :: steps) track ↔ Follows (x :: steps') track := by
  cases track with
  | nil => simp only [not_follows_nil]
  | cons y track => rw [follows_cons_iff, follows_cons_iff, hsame, hsame]

/-- Two different elements in a row stand in a row on the track. -/
theorem Follows.adjacent {front track : List α} {x y : α} (hfollows : Follows (front ++ [x, y]) track)
    (hne : x ≠ y) : ∃ before after, track = before ++ x :: y :: after := by
  induction front generalizing track with
  | nil =>
    have hnext : ∀ {track}, Follows [y] (x :: track) → ∃ after, track = y :: after := by
      rintro track (_ | _ | _)
      · exact absurd rfl hne
      · exact ⟨_, rfl⟩
    rcases hfollows with _ | next | ⟨_, next⟩
    · obtain ⟨after, rfl⟩ := hnext next
      exact ⟨[], after, rfl⟩
    · obtain ⟨after, rfl⟩ := hnext next
      exact ⟨[_], after, rfl⟩
  | cons z front ih =>
    rcases hfollows with _ | next | ⟨_, next⟩
    · exact ih next
    · obtain ⟨before, after, htrack⟩ := ih next
      exact ⟨_ :: before, after, by rw [htrack, List.cons_append]⟩

/-- A walk that has come to the last place of the track goes on to a place added
    behind it. -/
theorem Follows.snoc {steps track : List α} {x y : α} (hfollows : Follows (steps ++ [x]) track)
    (hlast : track.getLast? = some x) (hnodup : track.Nodup) (hy : y ∉ track) :
    Follows (steps ++ [x, y]) (track ++ [y]) := by
  induction steps generalizing track with
  | nil =>
    have hend : ∀ {track : List α}, (x :: track).getLast? = some x → (x :: track).Nodup → track = [] := by
      intro track hlast hnodup
      rcases List.eq_nil_or_concat track with rfl | ⟨track, z, rfl⟩
      · rfl
      · rw [List.concat_eq_append, ← List.cons_append, List.getLast?_concat, Option.some.injEq] at hlast
        subst hlast
        simp at hnodup
    rcases hfollows with _ | _ | ⟨hne, _⟩
    · obtain rfl := hend hlast hnodup
      exact .stay (.move (fun heq => hy (by simp [heq])) (.nil _))
    · obtain rfl := hend (by simpa using hlast) (List.nodup_cons.mp hnodup).2
      exact .move hne (.move (fun heq => hy (by simp [heq])) (.nil _))
  | cons z steps ih =>
    rcases hfollows with _ | next | ⟨hne, next⟩
    · exact .stay (ih next hlast hnodup hy)
    · refine .move hne (ih next (by simpa using hlast) (List.nodup_cons.mp hnodup).2 ?_)
      exact fun hmem => hy (List.mem_cons_of_mem _ hmem)

variable [DecidableEq α]

theorem follows_destutter' (x : α) (steps track : List α) :
    Follows (steps.destutter' (· ≠ ·) x) track ↔ Follows (x :: steps) track := by
  induction steps generalizing x track with
  | nil => rfl
  | cons y steps ih =>
    by_cases hsame : x = y
    · subst hsame
      rw [List.destutter'_cons_neg _ (by simp), ih, follows_repeat]
    · rw [List.destutter'_cons_pos _ hsame]
      exact follows_cons_congr (ih y) x track

/-- Leaving repeated elements out does not change the tracks a list follows. -/
theorem follows_destutter (steps track : List α) :
    Follows (steps.destutter (· ≠ ·)) track ↔ Follows steps track := by
  cases steps with
  | nil => rfl
  | cons x steps => exact follows_destutter' x steps track

/-- A list that follows a track from its first place has no gaps. -/
theorem Follows.destutter_prefix {x : α} {steps track : List α}
    (hfollows : Follows steps (x :: track)) : steps.destutter' (· ≠ ·) x <+: x :: track := by
  induction steps generalizing x track with
  | nil => exact ⟨track, rfl⟩
  | cons y steps ih =>
    cases hfollows with
    | stay next =>
      rw [List.destutter'_cons_neg _ (by simp)]
      exact ih next
    | move hne next =>
      rw [List.destutter'_cons_pos _ hne]
      exact List.prefix_cons_inj x |>.mpr (ih next)

end Follows

section Tops

variable {m n start stop : Nat} {nodes : List (Nat × Nat)}

theorem Tiles.cons_inv {h k : Nat} (htiles : Tiles start ((h, k) :: nodes) stop) :
    start = 2 ^ h * k ∧ Tiles (2 ^ h * (k + 1)) nodes stop := by
  cases htiles with
  | cons tail => exact ⟨rfl, tail⟩

theorem Tiles.nil_inv (htiles : Tiles start [] stop) : start = stop := by
  cases htiles
  rfl

/-- Only one peak is above a node. -/
theorem peak_unique {g i h k h' k' : Nat} (hpeak : (h, k) ∈ peaks n) (hpeak' : (h', k') ∈ peaks n)
    (hunder : Under g i h k) (hunder' : Under g i h' k') : (h, k) = (h', k') := by
  have hle := height_le_of_peak hpeak hunder hunder' (mem_peaks_iff.mp hpeak').1
  have hge := height_le_of_peak hpeak' hunder' hunder (mem_peaks_iff.mp hpeak).1
  obtain ⟨rfl, rfl⟩ := (Under.above hunder hunder' hle).eq_of_le hge
  rfl

/-- Each old node is under the peak beside it. -/
abbrev Below (n : Nat) (olds tops : List (Nat × Nat)) : Prop :=
  List.Forall₂ (fun old top => top ∈ peaks n ∧ Under old.1 old.2 top.1 top.2) olds tops

/-- Each of the nodes that tile a part of a shorter log lies under a peak of the
    longer one, and these peaks follow all the peaks from any one at which the
    part starts or right before it. -/
theorem Tiles.exists_tops (hle : m ≤ n) {olds : List (Nat × Nat)} (htiles : Tiles start olds m)
    {h k : Nat} {news : List (Nat × Nat)} (hnews : Tiles (2 ^ h * k) ((h, k) :: news) n)
    (hsub : ∀ node ∈ (h, k) :: news, node ∈ peaks n) (hstart : 2 ^ h * k ≤ start)
    (hstop : start ≤ 2 ^ h * (k + 1)) :
    ∃ tops, Below n olds tops ∧ Follows tops ((h, k) :: news) := by
  induction htiles generalizing h k news with
  | nil => exact ⟨[], .nil, .nil _⟩
  | @cons g i _ rest tail ih =>
    have hpos := Nat.two_pow_pos g
    have hwidth : 2 ^ g * (i + 1) = 2 ^ g * i + 2 ^ g := Nat.mul_succ _ _
    have hend := tail.start_le_stop
    obtain ⟨⟨h', k'⟩, htop, hunder⟩ := exists_peak_above (g := g) (m := i) (n := n) (by omega)
    change Under g i h' k' at hunder
    have hfirst : Under 0 (2 ^ g * i) h' k' := by
      have hleaves := hunder.leaves
      exact under_zero_iff.mpr ⟨hleaves.1, by omega⟩
    have hleaves := hunder.leaves
    obtain ⟨_, hnews_tail⟩ := hnews.cons_inv
    by_cases hinside : 2 ^ g * i < 2 ^ h * (k + 1)
    · -- The node is under the peak the walk stands at.
      obtain ⟨rfl, rfl⟩ := Prod.mk.inj (peak_unique (hsub _ List.mem_cons_self) htop
        (under_zero_iff.mpr ⟨hstart, hinside⟩) hfirst)
      obtain ⟨tops, htops, hfollows⟩ := ih hle hnews hsub (by omega) hleaves.2
      exact ⟨(h, k) :: tops, .cons ⟨htop, hunder⟩ htops, .stay hfollows⟩
    · -- The node starts where that peak ends, so it is under the next one.
      cases news with
      | nil =>
        have := hnews_tail.nil_inv
        omega
      | cons next news =>
        obtain ⟨hnext, nextIndex⟩ := next
        obtain ⟨hadjacent, hnext_tail⟩ := hnews_tail.cons_inv
        have hnext_pos := Nat.two_pow_pos hnext
        have hnext_width : 2 ^ hnext * (nextIndex + 1) = 2 ^ hnext * nextIndex + 2 ^ hnext :=
          Nat.mul_succ _ _
        obtain ⟨rfl, rfl⟩ := Prod.mk.inj (peak_unique (hsub (hnext, nextIndex) (by simp)) htop
          (under_zero_iff.mpr ⟨by omega, by omega⟩) hfirst)
        rw [hadjacent] at hnews_tail
        obtain ⟨tops, htops, hfollows⟩ := ih hle hnews_tail
          (fun node hnode => hsub node (List.mem_cons_of_mem _ hnode)) (by omega) hleaves.2
        refine ⟨(hnext, nextIndex) :: tops, .cons ⟨htop, hunder⟩ htops, .move ?_ hfollows⟩
        intro heq
        obtain ⟨rfl, rfl⟩ := Prod.mk.inj heq
        omega

/-- Above the peaks of a shorter log stand the first peaks of a longer one. -/
theorem exists_tops (hm : 0 < m) (hle : m ≤ n) :
    ∃ top tops news, peaks n = top :: news ∧ Follows tops (top :: news) ∧
      Below n (peaks m) (top :: tops) := by
  obtain ⟨⟨h, k⟩, news, hnews⟩ := List.exists_cons_of_ne_nil (peaks_ne_nil (hm.trans_le hle))
  obtain ⟨⟨g, i⟩, rest, holds⟩ := List.exists_cons_of_ne_nil (peaks_ne_nil hm)
  have htiles := peaks_tile m
  have hnews_tiles := peaks_tile n
  rw [hnews] at hnews_tiles
  obtain ⟨hzero, _⟩ := hnews_tiles.cons_inv
  have hpos := Nat.two_pow_pos h
  have hwidth : 2 ^ h * (k + 1) = 2 ^ h * k + 2 ^ h := Nat.mul_succ _ _
  rw [hzero] at hnews_tiles
  obtain ⟨tops, htops, hfollows⟩ := htiles.exists_tops hle hnews_tiles (by simp [hnews]) (by omega)
    (by omega)
  rw [holds] at htops htiles
  obtain ⟨hfirst, _⟩ := htiles.cons_inv
  obtain _ | ⟨⟨htop, hunder⟩, htops⟩ := htops
  rename_i top tops
  change Under g i top.1 top.2 at hunder
  -- Both the first peak and the first of those above are over leaf 0.
  have hsame : (h, k) = top := by
    refine peak_unique (by simp [hnews]) htop (under_zero_iff (k := 0).mpr ⟨by omega, by omega⟩) ?_
    have hwidth' : 2 ^ g * (i + 1) = 2 ^ g * i + 2 ^ g := Nat.mul_succ _ _
    have hpos' := Nat.two_pow_pos g
    have hleaves := hunder.leaves
    exact under_zero_iff.mpr ⟨by omega, by omega⟩
  subst hsame
  refine ⟨_, tops, news, hnews, ?_, by rw [holds]; exact .cons ⟨htop, hunder⟩ htops⟩
  cases hfollows with
  | stay next => exact next
  | move hne _ => exact absurd rfl hne

/-- The last leaf under the peaks is under the last of them. -/
theorem under_last_peak {h k : Nat} {before : List (Nat × Nat)} (hpeaks : peaks n = before ++ [(h, k)]) :
    2 ^ h * (k + 1) = n := by
  have htiles := peaks_tile n
  rw [hpeaks] at htiles
  obtain ⟨_, _, hlast⟩ := htiles.of_append
  exact hlast.cons_inv.2.nil_inv

/-- When the last peak of the longer log starts within the shorter one, the walk
    comes to it and goes on to anything behind it. -/
theorem exists_tops_snoc (hle : m ≤ n) {before : List (Nat × Nat)} {h k : Nat}
    (hpeaks : peaks n = before ++ [(h, k)]) (hlast : 2 ^ h * k < m) {other : Nat × Nat}
    (hother : other ∉ peaks n) :
    ∃ tops, Below n (peaks m) tops ∧ Follows (tops ++ [other]) (peaks n ++ [other]) := by
  obtain ⟨top, tops, news, hnews, hfollows, hbelow⟩ := exists_tops (by omega) hle
  have hwalk : Follows (top :: tops) (peaks n) := by
    rw [hnews]
    exact .stay hfollows
  obtain ⟨first, last, hconcat⟩ : ∃ first last, top :: tops = first ++ [last] :=
    ⟨_, _, (List.dropLast_append_getLast (List.cons_ne_nil top tops)).symm⟩
  rw [hconcat] at hwalk hbelow
  refine ⟨first ++ [last], hbelow, ?_⟩
  -- The last leaf of the shorter log is under its last peak and under `(h, k)`.
  have hsame : last = (h, k) := by
    rcases List.eq_nil_or_concat (peaks m) with hnil | ⟨earlier, ⟨g, i⟩, hold⟩
    · exact absurd hnil (peaks_ne_nil (by omega))
    · rw [List.concat_eq_append] at hold
      have hrev := List.forall₂_reverse_iff.mpr hbelow
      simp only [hold, List.reverse_append, List.reverse_singleton, List.singleton_append,
        List.forall₂_cons] at hrev
      obtain ⟨⟨htop, hunder⟩, _⟩ := hrev
      have hend := under_last_peak hold
      have hwidth : 2 ^ g * (i + 1) = 2 ^ g * i + 2 ^ g := Nat.mul_succ _ _
      have hpos := Nat.two_pow_pos g
      have hleaf : Under 0 (m - 1) g i := under_zero_iff.mpr ⟨by omega, by omega⟩
      have hstop := under_last_peak hpeaks
      exact peak_unique htop (by simp [hpeaks]) (hleaf.trans hunder)
        (under_zero_iff.mpr ⟨by omega, by omega⟩)
  rw [List.append_assoc, List.singleton_append]
  refine hwalk.snoc ?_ (peaks_nodup n) hother
  rw [hpeaks, hsame, List.getLast?_concat]

end Tops

end forest
