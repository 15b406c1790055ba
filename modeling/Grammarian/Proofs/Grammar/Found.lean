import Grammarian.Proofs.Grammar.Circles

/-!
# The circles that are found

`Cycle.all` searches from each name in turn and keeps of the circles with the same members the first. A circle
it keeps visits no name twice, and no other circle has the same members. A name on any circle of two or more is
in a circle that is kept, and in one that begins at the name or at an earlier one. A circle need not begin
at the earliest of its own names: where the search from an earlier name finds another circle through it, the
rest of the names may come up only from a later start.
-/

namespace Grammarian.Cycle

variable {leadsTo : String → List String} {names : List String} {start : String}

/-! ## No name twice -/

/-- Names that are entered stay so. -/
theorem wayBack_grows {depth : Nat} {path visited nexts : List String} :
    visited ⊆ (wayBack leadsTo start depth path visited nexts).2 := by
  induction depth, path, visited, nexts using wayBack.induct leadsTo start with
  | case1 depth path visited =>
    rw [wayBack_nil]
    exact List.Subset.refl visited
  | case2 depth path visited rest htwo =>
    rw [wayBack_start, if_pos htwo]
    exact List.Subset.refl visited
  | case3 depth path visited rest htwo ih =>
    rw [wayBack_start, if_neg htwo]
    exact ih
  | case4 depth path visited next rest hne hvisited ih =>
    rw [wayBack_visited hne hvisited]
    exact ih
  | case5 path visited next rest hne hvisited =>
    rw [wayBack_exhausted hne hvisited]
    exact List.Subset.refl visited
  | case6 path visited next rest hne hvisited depth cycle visited' hfound ih =>
    rw [Nat.succ_eq_add_one, wayBack_enter hne hvisited, hfound]
    rw [hfound] at ih
    exact List.subset_of_cons_subset ih
  | case7 path visited next rest hne hvisited depth visited' hnone ihIn ihOn =>
    rw [Nat.succ_eq_add_one, wayBack_enter hne hvisited, hnone]
    rw [hnone] at ihIn
    exact List.Subset.trans (List.subset_of_cons_subset ihIn) ihOn

/-- A way over names that are entered one at a time has no name twice. -/
theorem nodup_of_wayBack {depth : Nat} {path visited nexts way : List String} (hpath : path.Nodup)
    (hentered : path ⊆ visited) (h : (wayBack leadsTo start depth path visited nexts).1 = some way) :
    way.Nodup := by
  induction depth, path, visited, nexts using wayBack.induct leadsTo start with
  | case1 depth path visited =>
    rw [wayBack_nil] at h
    cases h
  | case2 depth path visited rest htwo =>
    rw [wayBack_start, if_pos htwo] at h
    cases h
    exact List.nodup_reverse.2 hpath
  | case3 depth path visited rest htwo ih =>
    rw [wayBack_start, if_neg htwo] at h
    exact ih hpath hentered h
  | case4 depth path visited next rest hne hvisited ih =>
    rw [wayBack_visited hne hvisited] at h
    exact ih hpath hentered h
  | case5 path visited next rest hne hvisited =>
    rw [wayBack_exhausted hne hvisited] at h
    cases h
  | case6 path visited next rest hne hvisited depth cycle visited' hfound ih =>
    rw [Nat.succ_eq_add_one, wayBack_enter hne hvisited, hfound] at h
    have hnew : next ∉ path := fun hmem => hvisited (List.contains_iff_mem.2 (hentered hmem))
    refine ih (List.nodup_cons.2 ⟨hnew, hpath⟩) (List.cons_subset_cons next hentered) ?_
    rw [hfound]
    exact h
  | case7 path visited next rest hne hvisited depth visited' hnone ihIn ihOn =>
    rw [Nat.succ_eq_add_one, wayBack_enter hne hvisited, hnone] at h
    have hgrows : next :: visited ⊆ visited' := by
      have hgrows := @wayBack_grows leadsTo start depth (next :: path) (next :: visited) (leadsTo next)
      rwa [hnone] at hgrows
    exact ihOn hpath (List.Subset.trans hentered (List.subset_of_cons_subset hgrows)) h

theorem nodup_of_through? {way : List String} (h : through? leadsTo names start = some way) : way.Nodup :=
  nodup_of_wayBack (List.nodup_singleton start) (List.Subset.refl _) h

/-! ## What is kept -/

theorem kept_append_subset (cycles more : List (List String)) : kept cycles ⊆ kept (cycles ++ more) := by
  induction more using List.reverseRecOn with
  | nil =>
    rw [List.append_nil]
    exact List.Subset.refl _
  | append_singleton more cycle ih =>
    rw [← List.append_assoc, kept_concat]
    split
    next => exact ih
    next => exact List.Subset.trans ih (List.subset_append_left _ _)

theorem kept_pairwise (cycles : List (List String)) :
    (kept cycles).Pairwise fun a b => ¬ ∀ name, name ∈ a ↔ name ∈ b := by
  induction cycles using List.reverseRecOn with
  | nil => exact List.Pairwise.nil
  | append_singleton cycles cycle ih =>
    rw [kept_concat]
    split
    next => exact ih
    next hnone =>
      refine List.pairwise_append.2 ⟨ih, List.pairwise_singleton _ _, ?_⟩
      intro a ha b hb hsame
      obtain rfl := List.mem_singleton.1 hb
      exact hnone (List.any_eq_true.2 ⟨a, ha, sameMembers_iff.2 fun name => (hsame name).symm⟩)

theorem kept_eq_of_sameMembers {cycles : List (List String)} {a b : List String} (ha : a ∈ kept cycles)
    (hb : b ∈ kept cycles) (hsame : ∀ name, name ∈ a ↔ name ∈ b) : a = b := by
  by_contra hne
  have hsymm : Std.Symm fun a b : List String => ¬ ∀ name, name ∈ a ↔ name ∈ b :=
    ⟨fun a b h hsame => h fun name => (hsame name).symm⟩
  exact (kept_pairwise cycles).forall ha hb hne hsame

/-! ## What `all` holds -/

/-- Every circle that is listed was found from one of the names. -/
theorem exists_of_mem_all {circle : List String} (h : circle ∈ all leadsTo names) :
    ∃ start ∈ names, IsCircle leadsTo start circle ∧ circle.Nodup := by
  obtain ⟨start, hstart, hfound⟩ := List.mem_filterMap.1 (kept_subset _ h)
  exact ⟨start, hstart, isCircle_of_through? hfound, nodup_of_through? hfound⟩

/-- **No name on a circle is missed.** Two names that reach each other are on a circle, and one that is listed goes
through the first of them, beginning there or at an earlier name. -/
theorem exists_mem_all (hnames : ∀ name, leadsTo name ⊆ names) {a b : String} (hne : a ≠ b)
    (hto : Relation.TransGen (Leads leadsTo) a b) (hback : Relation.TransGen (Leads leadsTo) b a) :
    ∃ circle ∈ all leadsTo names, a ∈ circle ∧
      ∀ head ∈ circle.head?, names.idxOf head ≤ names.idxOf a := by
  have hmem : a ∈ names := by
    obtain ⟨earlier, -, hstep⟩ := Relation.TransGen.tail'_iff.1 hback
    exact hnames earlier hstep
  cases hfound : through? leadsTo names a with
  | none =>
    have hno := not_wayBack_of_through?_eq_none hnames hfound hne.symm hto.to_reflTransGen
    exact absurd hback.to_reflTransGen hno
  | some way =>
    have hway : a ∈ way := List.mem_of_mem_head? (isCircle_of_through? hfound).head
    -- Of the names up to this one, one is the start of the circle that is kept.
    have hprefix : a ∈ names.take (names.idxOf a + 1) :=
      (List.mem_take_iff_idxOf_lt hmem).2 (Nat.lt_succ_self _)
    obtain ⟨circle, hkept, hsame⟩ := exists_mem_kept (List.mem_filterMap.2 ⟨a, hprefix, hfound⟩)
    refine ⟨circle, ?_, (hsame a).2 hway, ?_⟩
    · have hsubset := kept_append_subset ((names.take (names.idxOf a + 1)).filterMap (through? leadsTo names))
        ((names.drop (names.idxOf a + 1)).filterMap (through? leadsTo names))
      rw [← List.filterMap_append, List.take_append_drop] at hsubset
      exact hsubset hkept
    · intro head hhead
      obtain ⟨start, hstart, hfrom⟩ := List.mem_filterMap.1 (kept_subset _ hkept)
      rw [Option.mem_def, (isCircle_of_through? hfrom).head] at hhead
      cases hhead
      have hlt := (List.mem_take_iff_idxOf_lt (List.mem_of_mem_take hstart)).1 hstart
      omega

end Grammarian.Cycle
