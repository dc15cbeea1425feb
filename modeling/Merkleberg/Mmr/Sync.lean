import Merkleberg.Mmr.IncrementalSoundness

open machine machine.Outcome
open forest
open merkleberg.helper
open Relation

namespace merkleberg.mmr

variable {Item Store σ μ : Type} {b : Profile} {R : MMRStoreReadOps Store Item σ}
  {W : MMRStoreWriteOps Store Item σ} {S : MapStore R W} {H : Hasher Item} {log data more : List Bytes}

/-- The root of the tree over a log. -/
def RootOf (H : Hasher Item) (data : List Bytes) (root : Item) : Prop :=
  bagPeaks H.merge_peaks (peakItems H data) = some root

theorem MMR.Holds.get_root_iff {under : Nat → Option Item} {self : MMR Item Store}
    (h : self.Holds S under H data) (hne : data ≠ []) {root : Item} :
    (self.get_root b (H.toMerge : Merge Item μ) R : Outcome (Error σ μ) Item) = ok root ↔
      RootOf H data root := by
  obtain ⟨found, hget, hfound⟩ := h.get_root (b := b) (μ := μ) (List.length_pos_iff.mpr hne)
  rw [hget, ok.injEq, RootOf, hfound, Option.some.injEq]

/-- Reversing the items from one place on can be undone. -/
theorem eq_of_reverse_from {T : Type} {xs ys : List T} {start : Nat} (hlength : xs.length = ys.length)
    (heq : xs.take start ++ (xs.drop start).reverse = ys.take start ++ (ys.drop start).reverse) :
    xs = ys := by
  obtain ⟨htake, hdrop⟩ := List.append_inj heq (by rw [List.length_take, List.length_take, hlength])
  rw [← List.take_append_drop start xs, ← List.take_append_drop start ys, htake,
    List.reverse_injective hdrop]

theorem exists_rootOf (H : Hasher Item) (hne : data ≠ []) : ∃ root, RootOf H data root := by
  refine exists_bagPeaks H.merge_peaks ?_
  rw [peakItems_eq_nodes]
  exact List.map_eq_nil_iff.not.mpr (peaks_ne_nil (List.length_pos_iff.mpr hne))

/-- Sizes of logs that are not out of reach. -/
theorem nodeCount_fits {n : Nat} (hsmall : n < 2 ^ 62) : nodeCount n < 2 ^ 64 := by
  have hle := nodeCount_le_nodeCount_iff.mpr hsmall.le
  have hfull := nodeCount_two_pow 62
  omega

section Follow

variable [DecidableEq Item] {root prev_root : Item} {items incremental : List Item}

/-- Where bags can be taken apart, a proof that is accepted for the root of a log and
    some new leaves leads to the root of the log with these leaves, and to no other. -/
theorem RootOf.of_verify_incremental (hprev : RootOf H data prev_root) (hne : data ≠ [])
    (hsmall : (data ++ more).length < 2 ^ 62) (hpeaks : Function.Injective2 H.merge_peaks)
    (hverify : ((InclusionProof.new (nodeCount (data ++ more).length) items).verify_incremental b
      (H.toMerge : Merge Item μ) root prev_root (more.map H.leaf_hash) : Outcome (Error σ μ) Bool) =
      ok true) : RootOf H (data ++ more) root := by
  have hlength : (data ++ more).length = data.length + more.length := List.length_append
  have hcount : data.length + (more.map H.leaf_hash).length = (data ++ more).length := by
    rw [hlength, List.length_map]
  have hfits := nodeCount_fits hsmall
  have hpos := List.length_pos_iff.mpr hne
  obtain ⟨common, olds, news, parts, hgrowth⟩ :=
    exists_growth (show data.length ≤ (data ++ more).length by omega)
  rw [InclusionProof.verify_incremental_eq (Nat.le_refl _) (nodeCount_lt_succ _) hfits hgrowth hpos
    (by omega) hcount] at hverify
  split at hverify
  · cases hverify
  · rename_i hitems
    rw [not_ne_iff] at hitems
    obtain ⟨calculated, hold, hrest⟩ := bind_eq_ok_iff.mp hverify
    split at hrest
    · cases hrest
    · rename_i hsame
      rw [not_ne_iff] at hsame
      subst hsame
      rw [mapErr_eq_ok_iff] at hold hrest
      rw [bagging_peaks_hashes, bag_rhs_peaks_eq, orMergeError_ok, ok_bind, okOr_eq_ok_iff] at hold
      have hbagged : (items.take common.length ++ (items.drop common.length).reverse).length =
          (peakItems H data).length := by
        rw [← peakItems_append H data more, List.length_map, hitems, List.length_append,
          List.length_reverse, ← List.length_append, List.take_append_drop]
      have hvalues := bagPeaks_inj hpeaks hbagged hold hprev
      rw [← peakItems_append H data more, ← reverse_items_eq hgrowth] at hvalues
      have hproof := eq_of_reverse_from
        (by rw [List.length_map, hgrowth.length_items, hitems]) hvalues
      obtain ⟨found, hfound⟩ := exists_rootOf H (List.append_ne_nil_of_left_ne_nil hne more)
      have hgrown := calculate_root_grown (b := b) (σ := σ) (μ := μ) hfits hgrowth hfound
      rw [hproof] at hrest
      have hcalculated := verify_eq_true_iff.mp hrest
      rw [InclusionProof.new, hgrown, ok.injEq] at hcalculated
      rw [RootOf, hfound, hcalculated]

end Follow

/-- A client of a log: how many leaves come before those that it has, the root of
    these, the data that it has, and the root of all. -/
structure Client (Item : Type) where
  first : Nat
  prev_root : Item
  data : List Bytes
  root : Item

/-- A client that has no data yet, only a root that it trusts. -/
def Client.start (count : Nat) (root : Item) : Client Item :=
  { first := count, prev_root := root, data := [], root }

/-- What a client does with an answer, which may be anybody's: it hashes the data,
    compares the size in the proof with the size that it works out itself, which
    `verify_incremental` does not do, and goes on where the proof verifies. It asks for
    what was pushed after the data that it has, or for what was pushed before them. -/
inductive Client.Step [DecidableEq Item] (b : Profile) (H : Hasher Item) :
    Client Item → Client Item → Prop where
  | follow {client : Client Item} {proof : InclusionProof Item} {more : List Bytes} {root : Item}
      (hsize : (leaf_index_to_mmr_size b (client.first + (client.data ++ more).length - 1) :
        Outcome Empty Nat) = ok proof.mmr_size)
      (hverify : (proof.verify_incremental b (H.toMerge : Merge Item Empty) root client.root
        (more.map H.leaf_hash) : Outcome (Error Empty Empty) Bool) = ok true) :
      Step b H client { client with data := client.data ++ more, root }
  | fetch {client : Client Item} {proof : InclusionProof Item} {earlier : List Bytes}
      {prev_root : Item} (hcount : earlier.length < client.first)
      (hsize : (leaf_index_to_mmr_size b (client.first - 1) : Outcome Empty Nat) = ok proof.mmr_size)
      (hverify : (proof.verify_incremental b (H.toMerge : Merge Item Empty) client.prev_root prev_root
        (earlier.map H.leaf_hash) : Outcome (Error Empty Empty) Bool) = ok true) :
      Step b H client
        { client with first := client.first - earlier.length, prev_root, data := earlier ++ client.data }

/-- The client has the last data of a log, with its roots before them and after them. -/
structure Client.Synced (H : Hasher Item) (client : Client Item) (data : List Bytes) : Prop where
  first_pos : 0 < client.first
  first_le : client.first ≤ data.length
  data_eq : client.data = data.drop client.first
  prev_root : RootOf H (data.take client.first) client.prev_root
  root : RootOf H data client.root

section Synced

variable {client next : Client Item}

theorem Client.Synced.count_eq (h : client.Synced H data) :
    client.first + client.data.length = data.length := by
  have hle := h.first_le
  rw [h.data_eq, List.length_drop]
  omega

theorem Client.Synced.start {root : Item} (hne : data ≠ []) (hroot : RootOf H data root) :
    (Client.start data.length root).Synced H data where
  first_pos := List.length_pos_iff.mpr hne
  first_le := Nat.le_refl _
  data_eq := (List.drop_length).symm
  prev_root := by rwa [Client.start, List.take_length]
  root := hroot

variable [DecidableEq Item]

/-- What the client knows of grows and does not shrink. -/
theorem Client.Step.count_le (hstep : client.Step b H next) :
    client.first + client.data.length ≤ next.first + next.data.length := by
  cases hstep with
  | follow => simp only [List.length_append]; omega
  | fetch hcount => simp only [List.length_append]; omega

theorem Client.count_le_of_steps (steps : ReflTransGen (Client.Step b H) client next) :
    client.first + client.data.length ≤ next.first + next.data.length := by
  induction steps with
  | refl => exact Nat.le_refl _
  | tail _ hstep ih => exact ih.trans hstep.count_le

/-- Its data begin where they did or earlier. -/
theorem Client.Step.first_le (hstep : client.Step b H next) : next.first ≤ client.first := by
  cases hstep with
  | follow => exact Nat.le_refl _
  | fetch => exact Nat.sub_le _ _

variable (hpeaks : Function.Injective2 H.merge_peaks)

include hpeaks

/-- An answer with new data extends the log. -/
theorem Client.Synced.follow (h : client.Synced H data) {proof : InclusionProof Item} {root : Item}
    (hsmall : (data ++ more).length < 2 ^ 62)
    (hsize : (leaf_index_to_mmr_size b (client.first + (client.data ++ more).length - 1) :
      Outcome Empty Nat) = ok proof.mmr_size)
    (hverify : (proof.verify_incremental b (H.toMerge : Merge Item Empty) root client.root
      (more.map H.leaf_hash) : Outcome (Error Empty Empty) Bool) = ok true) :
    Synced H { client with data := client.data ++ more, root } (data ++ more) := by
  obtain ⟨_, items⟩ := proof
  have hfirst := h.first_pos
  have hle := h.first_le
  have hcount : client.first + (client.data ++ more).length = (data ++ more).length := by
    rw [List.length_append, List.length_append, ← Nat.add_assoc, h.count_eq]
  have hpos : 0 < (data ++ more).length := by
    rw [List.length_append]
    omega
  rw [hcount, leaf_index_to_mmr_size_eq (by omega), Nat.sub_add_cancel hpos, ok.injEq] at hsize
  subst hsize
  exact
    { first_pos := hfirst
      first_le := hle.trans (List.length_append ▸ Nat.le_add_right _ _)
      data_eq := by rw [List.drop_append_of_le_length hle, h.data_eq]
      prev_root := by
        rw [List.take_append_of_le_length hle]
        exact h.prev_root
      root := h.root.of_verify_incremental (List.length_pos_iff.mp (hfirst.trans_le hle)) hsmall hpeaks
        hverify }

/-- An answer with earlier data has the log's. -/
theorem Client.Synced.fetch (h : client.Synced H data) (hmerge : Function.Injective2 H.merge)
    (hleaf : Function.Injective H.leaf_hash) {proof : InclusionProof Item} {earlier : List Bytes}
    {prev_root : Item} (hsmall : data.length < 2 ^ 62) (hcount : earlier.length < client.first)
    (hsize : (leaf_index_to_mmr_size b (client.first - 1) : Outcome Empty Nat) = ok proof.mmr_size)
    (hverify : (proof.verify_incremental b (H.toMerge : Merge Item Empty) client.prev_root prev_root
      (earlier.map H.leaf_hash) : Outcome (Error Empty Empty) Bool) = ok true) :
    Synced H { client with first := client.first - earlier.length, prev_root
                           data := earlier ++ client.data } data := by
  obtain ⟨_, items⟩ := proof
  have hle := h.first_le
  have hknown : (data.take client.first).length = client.first := List.length_take_of_le hle
  obtain ⟨positions, tree, run⟩ : ∃ positions tree, MMR.Run b (H.toMerge : Merge Item Empty)
      (MemStore.readOps : MMRStoreReadOps (MemStore Item) Item Empty) (MemStore.writeOps b)
      (MMR.new 0 MemStore.new) (data.take client.first) positions tree :=
    MMR.exists_run (MemStore.mapStore b) H MemStore.new (by omega)
  obtain ⟨hself, _⟩ := run.holds (MemStore.mapStore b) fun _ => by omega
  have hroot := h.prev_root
  obtain ⟨rest, hrest⟩ : ∃ rest, rest = client.first - earlier.length := ⟨_, rfl⟩
  have hwhole := List.take_append_drop rest (data.take client.first)
  have hbefore : (data.take client.first).take rest = data.take rest := by
    rw [List.take_take, min_eq_left (by omega)]
  have hafter : (earlier.map H.leaf_hash).length = ((data.take client.first).drop rest).length := by
    rw [List.length_map, List.length_drop, hknown]
    omega
  rw [leaf_index_to_mmr_size_eq (by omega), Nat.sub_add_cancel h.first_pos, ← hknown, ok.injEq] at hsize
  subst hsize
  rw [← hwhole] at hself hroot hverify
  obtain ⟨hleaves, hprev⟩ := hself.of_verify_incremental
    (by rw [hbefore, ← List.length_pos_iff, List.length_take]; omega) (by rw [hwhole]; omega) hmerge hpeaks
    hroot hafter hverify
  rw [hbefore] at hprev
  obtain rfl := List.map_injective_iff.mpr hleaf hleaves
  exact
    { first_pos := by simp only; omega
      first_le := by simp only; omega
      data_eq := by
        rw [h.data_eq, ← hrest, ← List.drop_append_of_le_length (by rw [hknown]; omega),
          List.take_append_drop]
      prev_root := hrest ▸ hprev
      root := h.root }

/-- Whatever answers a client takes, it has the end of a log that starts with the one it
    trusts. -/
theorem Client.synced_of_steps (hmerge : Function.Injective2 H.merge)
    (hleaf : Function.Injective H.leaf_hash) {root : Item} (hne : log ≠ []) (hroot : RootOf H log root)
    (steps : ReflTransGen (Client.Step b H) (.start log.length root) client)
    (hsmall : client.first + client.data.length < 2 ^ 62) :
    client.first ≤ log.length ∧ ∃ later, client.Synced H (log ++ later) := by
  induction steps with
  | refl => exact ⟨Nat.le_refl _, [], by rw [List.append_nil]; exact .start hne hroot⟩
  | tail _ hstep ih =>
    obtain ⟨hfirst, later, h⟩ := ih (hstep.count_le.trans_lt hsmall)
    have hcount := h.count_eq
    have hle := hstep.count_le
    refine ⟨hstep.first_le.trans hfirst, ?_⟩
    cases hstep with
    | @follow proof more root hsize hverify =>
      refine ⟨later ++ more, ?_⟩
      rw [← List.append_assoc]
      refine h.follow hpeaks ?_ hsize hverify
      simp only [List.length_append] at hsmall hcount ⊢
      omega
    | fetch hfew hsize hverify =>
      exact ⟨later, h.fetch hpeaks hmerge hleaf (by omega) hfew hsize hverify⟩

end Synced

/-- A client never gets a wrong datum. From the root of a tree it goes on to newer data
    and back to older ones, in any order, and believes whoever gives it a proof that
    verifies and is for the right size. What it has is always the end of a log that
    starts with the tree's, in full, and its two roots are those of this log before its
    data and after them. -/
theorem MMR.Session.client_sound [DecidableEq Item] (S : MapStore R W)
    (hmerge : Function.Injective2 H.merge) (hpeaks : Function.Injective2 H.merge_peaks)
    (hleaf : Function.Injective H.leaf_hash) {store : Store} {positions : List Nat} {tree : MMR Item Store}
    (session : MMR.Session b (H.toMerge : Merge Item μ) R W (MMR.new 0 store) log positions tree)
    (hne : log ≠ []) {root : Item}
    (hroot : (tree.get_root b (H.toMerge : Merge Item μ) R : Outcome (Error σ μ) Item) = ok root)
    {b' : Profile} {client : Client Item}
    (steps : ReflTransGen (Client.Step b' H) (.start log.length root) client)
    (hsmall : client.first + client.data.length < 2 ^ 62) :
    client.first ≤ log.length ∧ ∃ later, client.data = (log ++ later).drop client.first ∧
      (∀ positions final,
        MMR.Session b (H.toMerge : Merge Item μ) R W (MMR.new 0 store) (log.take client.first) positions
          final →
        (final.get_root b (H.toMerge : Merge Item μ) R : Outcome (Error σ μ) Item) = ok client.prev_root) ∧
      ∀ positions final,
        MMR.Session b (H.toMerge : Merge Item μ) R W (MMR.new 0 store) (log ++ later) positions final →
        (final.get_root b (H.toMerge : Merge Item μ) R : Outcome (Error σ μ) Item) = ok client.root := by
  have hcount : log.length + 0 ≤ _ := Client.count_le_of_steps steps
  obtain ⟨h, _⟩ := MMR.Session.holds S (.refl _) session fun _ => by omega
  obtain ⟨hfirst, later, hsynced⟩ :=
    Client.synced_of_steps hpeaks hmerge hleaf hne ((h.get_root_iff hne).mp hroot) steps hsmall
  have hlength := hsynced.count_eq
  have hpos := hsynced.first_pos
  have hbefore : (log ++ later).take client.first = log.take client.first :=
    List.take_append_of_le_length hfirst
  refine ⟨hfirst, later, hsynced.data_eq, fun positions final session => ?_,
    fun positions final session => ?_⟩
  · obtain ⟨hfinal, _⟩ := MMR.Session.holds S (.refl _) session fun _ => by rw [List.length_take]; omega
    have hne : log.take client.first ≠ [] := by
      rw [← List.length_pos_iff, List.length_take]
      omega
    exact (hfinal.get_root_iff hne).mpr (hbefore ▸ hsynced.prev_root)
  · obtain ⟨hfinal, _⟩ := MMR.Session.holds S (.refl _) session fun _ => by omega
    exact (hfinal.get_root_iff (List.append_ne_nil_of_left_ne_nil hne later)).mpr hsynced.root

/-- A client that trusts the root of two leaves goes back to the second and on to a
    third. -/
theorem MMR.Session.client_sound_three :
    ∃ client : Client (Term Empty),
      ReflTransGen (Client.Step .debug Term.hasher) (.start 2 (.node 0 (.leaf [1]) (.leaf [2]))) client ∧
      client.data = [[2], [3]] ∧ client.first ≤ 2 ∧
      ∃ later, client.data = ([[1], [2]] ++ later).drop client.first := by
  have start : MMR.SymbolicRun .debug [] [] (MMR.new 0 MemStore.new) := .refl
  have run := (start.push (d := [1]) rfl).push (d := [2]) rfl
  have hinjective : Function.Injective2 (Term.node 0 : Term Empty → Term Empty → Term Empty) := by
    intro left right left' right' heq
    cases heq
    exact ⟨rfl, rfl⟩
  have hleaf : Function.Injective (Term.leaf : Bytes → Term Empty) := fun _ _ heq => by cases heq; rfl
  have steps : ReflTransGen (Client.Step .debug (Term.hasher : Hasher (Term Empty)))
      (.start 2 (.node 0 (.leaf [1]) (.leaf [2]))) _ := .refl
  have steps := steps.tail
    (@Client.Step.fetch _ _ _ _ _ (.new 3 [.leaf [1]]) [[2]] (.leaf [1]) (by decide) rfl rfl)
  have steps := steps.tail (@Client.Step.follow _ _ _ _ _ (.new 4 [.node 0 (.leaf [1]) (.leaf [2])])
    [[3]] (.node 0 (.leaf [3]) (.node 0 (.leaf [1]) (.leaf [2]))) rfl rfl)
  obtain ⟨hfirst, later, hdata, _⟩ := MMR.Session.client_sound (MemStore.mapStore .debug) hinjective
    hinjective hleaf run.session (by decide) rfl steps (by decide)
  exact ⟨_, steps, rfl, hfirst, later, hdata⟩

end merkleberg.mmr
