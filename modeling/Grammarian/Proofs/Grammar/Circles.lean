import Mathlib.Data.Finset.Card
import Mathlib.Data.List.Chain
import Mathlib.Logic.Relation
import Grammarian.Grammar.Cycle

/-!
# The search for circles

`Cycle.wayBack` goes through names depth first and enters none twice. What it finds is a circle, a way that
begins at a name and leads back to it; and where it finds none, the names it has entered are closed under
leading on and none of them leads back. So among names of which none leads to itself there is a circle
exactly when the search finds one.
-/

namespace Grammarian.Cycle

variable {leadsTo : String → List String} {start : String}

/-- One name leads to another. -/
def Leads (leadsTo : String → List String) (a b : String) : Prop := b ∈ leadsTo a

section Steps

variable {depth : Nat} {path visited rest : List String} {next : String}

theorem wayBack_nil : wayBack leadsTo start depth path visited [] = (none, visited) := by
  rw [wayBack.eq_def]

/-- Where the way comes back to its start, it is the answer, unless it is a single step. -/
theorem wayBack_start : wayBack leadsTo start depth path visited (start :: rest) =
    if 2 ≤ path.length then (some path.reverse, visited)
    else wayBack leadsTo start depth path visited rest := by
  rw [wayBack.eq_def]
  simp only [if_true]

/-- A rule that has been visited is passed over. -/
theorem wayBack_visited (hne : next ≠ start) (hvisited : visited.contains next = true) :
    wayBack leadsTo start depth path visited (next :: rest) =
      wayBack leadsTo start depth path visited rest := by
  rw [wayBack.eq_def]
  simp only [if_neg hne, if_pos hvisited]

/-- Without depth left no way is found. -/
theorem wayBack_exhausted (hne : next ≠ start) (hvisited : ¬ visited.contains next = true) :
    wayBack leadsTo start 0 path visited (next :: rest) = (none, visited) := by
  rw [wayBack.eq_def]
  simp only [if_neg hne, if_neg hvisited]

/-- A name that is entered is followed before the names beside it. -/
theorem wayBack_enter (hne : next ≠ start) (hvisited : ¬ visited.contains next = true) :
    wayBack leadsTo start (depth + 1) path visited (next :: rest) =
      match wayBack leadsTo start depth (next :: path) (next :: visited) (leadsTo next) with
      | (some cycle, visited) => (some cycle, visited)
      | (none, visited) => wayBack leadsTo start (depth + 1) path visited rest := by
  rw [wayBack.eq_def]
  exact (if_neg hne).trans (if_neg hvisited)

end Steps

/-- A way from `start` over at least one other name, from the last of which it leads back. -/
structure IsCircle (leadsTo : String → List String) (start : String) (way : List String) : Prop where
  head : way.head? = some start
  chain : way.IsChain (Leads leadsTo)
  back : ∀ last ∈ way.getLast?, Leads leadsTo last start
  two : 2 ≤ way.length

/-- A circle leads from its start back to it. -/
theorem IsCircle.transGen {way : List String} (h : IsCircle leadsTo start way) :
    Relation.TransGen (Leads leadsTo) start start := by
  have hne : way ≠ [] := by
    intro hnil
    have htwo := h.two
    rw [hnil] at htwo
    exact absurd htwo (by decide)
  have hway := List.relationReflTransGen_of_exists_isChain way h.chain hne
  have hhead : way.head hne = start := by
    have hsome := h.head
    rw [List.head?_eq_some_head hne] at hsome
    exact Option.some.inj hsome
  rw [hhead] at hway
  exact Relation.TransGen.tail' hway (h.back _ (List.getLast?_eq_some_getLast hne))

/-- The way taken so far, its latest name first, and the names left to follow from there. -/
structure Underway (leadsTo : String → List String) (start : String) (path nexts : List String) :
    Prop where
  chain : path.IsChain fun later earlier => Leads leadsTo earlier later
  origin : path.getLast? = some start
  nexts : ∀ latest ∈ path.head?, ∀ next ∈ nexts, Leads leadsTo latest next

/-- What is underway to several rules is underway to those behind the first. -/
theorem Underway.rest {path nexts : List String} {next : String}
    (h : Underway leadsTo start path (next :: nexts)) : Underway leadsTo start path nexts where
  chain := h.chain
  origin := h.origin
  nexts latest hlatest n hn := h.nexts latest hlatest n (List.mem_cons_of_mem next hn)

/-- Entering a rule is being underway to those that it leads to. -/
theorem Underway.enter {path nexts : List String} {next : String}
    (h : Underway leadsTo start path (next :: nexts)) :
    Underway leadsTo start (next :: path) (leadsTo next) where
  chain := by
    refine List.isChain_cons.2 ⟨?_, h.chain⟩
    intro latest hlatest
    exact h.nexts latest hlatest next List.mem_cons_self
  origin := by
    cases path with
    | nil => exact absurd h.origin (by simp)
    | cons p path =>
      rw [List.getLast?_cons_cons]
      exact h.origin
  nexts latest hlatest n hn := by
    cases hlatest
    exact hn

/-- What the search finds is a circle. -/
theorem isCircle_of_wayBack {depth : Nat} {path visited nexts way : List String}
    (hway : Underway leadsTo start path nexts)
    (h : (wayBack leadsTo start depth path visited nexts).1 = some way) :
    IsCircle leadsTo start way := by
  induction depth, path, visited, nexts using wayBack.induct leadsTo start with
  | case1 depth path visited =>
    rw [wayBack_nil] at h
    cases h
  | case2 depth path visited rest htwo =>
    rw [wayBack_start, if_pos htwo] at h
    cases h
    refine ⟨?_, ?_, ?_, ?_⟩
    · rw [List.head?_reverse]
      exact hway.origin
    · exact List.isChain_reverse.2 hway.chain
    · intro last hlast
      rw [List.getLast?_reverse] at hlast
      exact hway.nexts last hlast start List.mem_cons_self
    · rw [List.length_reverse]
      exact htwo
  | case3 depth path visited rest htwo ih =>
    rw [wayBack_start, if_neg htwo] at h
    exact ih hway.rest h
  | case4 depth path visited next rest hne hvisited ih =>
    rw [wayBack_visited hne hvisited] at h
    exact ih hway.rest h
  | case5 path visited next rest hne hvisited =>
    rw [wayBack_exhausted hne hvisited] at h
    cases h
  | case6 path visited next rest hne hvisited depth cycle visited' hfound ih =>
    rw [Nat.succ_eq_add_one, wayBack_enter hne hvisited, hfound] at h
    exact ih hway.enter (by rw [hfound]; exact h)
  | case7 path visited next rest hne hvisited depth visited' hnone ihIn ihOn =>
    rw [Nat.succ_eq_add_one, wayBack_enter hne hvisited, hnone] at h
    exact ihOn hway.rest h

/-! ## Where nothing is found -/

/-- The names that are not entered yet. -/
def unvisited (names visited : List String) : Finset String := names.toFinset \ visited.toFinset

/-- The more has been visited, the less is left. -/
theorem card_unvisited_mono (names : List String) {visited visited' : List String}
    (h : visited ⊆ visited') : (unvisited names visited').card ≤ (unvisited names visited).card := by
  refine Finset.card_le_card (Finset.sdiff_subset_sdiff (Finset.Subset.refl _) ?_)
  intro name hname
  exact List.mem_toFinset.2 (h (List.mem_toFinset.1 hname))

/-- Visiting a new rule leaves less. -/
theorem card_unvisited_cons_lt {names visited : List String} {next : String} (hnext : next ∈ names)
    (hnew : next ∉ visited) :
    (unvisited names (next :: visited)).card < (unvisited names visited).card := by
  have hmem : next ∈ unvisited names visited := by
    rw [unvisited, Finset.mem_sdiff, List.mem_toFinset, List.mem_toFinset]
    exact ⟨hnext, hnew⟩
  have heq : unvisited names (next :: visited) = (unvisited names visited).erase next := by
    rw [unvisited, unvisited, List.toFinset_cons, Finset.sdiff_insert]
  rw [heq]
  exact Finset.card_erase_lt_of_mem hmem

/-- The search from names `nexts` has entered all of them, and the names it has entered lead to entered
ones only, and not back to the start. -/
structure Exhausted (leadsTo : String → List String) (start : String)
    (nexts visited visited' : List String) : Prop where
  grows : visited ⊆ visited'
  nexts : nexts ⊆ visited'
  closed : ∀ name ∈ visited', name ∉ visited → ∀ next ∈ leadsTo name, next ≠ start ∧ next ∈ visited'

theorem Exhausted.nil (visited : List String) : Exhausted leadsTo start [] visited visited where
  grows := List.Subset.refl _
  nexts := List.nil_subset _
  closed _ hname hnew := absurd hname hnew

/-- Before the names that a search goes on from there may stand one that is entered by its end. -/
theorem Exhausted.cons {nexts visited visited' : List String} {next : String}
    (h : Exhausted leadsTo start nexts visited visited') (hnext : next ∈ visited') :
    Exhausted leadsTo start (next :: nexts) visited visited' where
  grows := h.grows
  nexts := List.cons_subset.2 ⟨hnext, h.nexts⟩
  closed := h.closed

/-- A name is entered, what it leads to is searched, and after that the names beside it. -/
theorem Exhausted.enter {nexts visited visited₁ visited' : List String} {next : String}
    (hin : Exhausted leadsTo start (leadsTo next) (next :: visited) visited₁) (hback : start ∉ leadsTo next)
    (hon : Exhausted leadsTo start nexts visited₁ visited') :
    Exhausted leadsTo start (next :: nexts) visited visited' where
  grows := List.Subset.trans (List.subset_of_cons_subset hin.grows) hon.grows
  nexts := List.cons_subset.2 ⟨hon.grows (hin.grows List.mem_cons_self), hon.nexts⟩
  closed := by
    intro name hname hunvisited n hn
    by_cases hlater : name ∉ visited₁
    · exact hon.closed name hname hlater n hn
    by_cases heq : name = next
    · subst heq
      refine ⟨?_, hon.grows (hin.nexts hn)⟩
      rintro rfl
      exact hback hn
    · have hnew : name ∉ next :: visited := by
        rw [List.mem_cons, not_or]
        exact ⟨heq, hunvisited⟩
      obtain ⟨hne, hmem⟩ := hin.closed name (not_not.1 hlater) hnew n hn
      exact ⟨hne, hon.grows hmem⟩

/-- Where the search finds nothing it has entered all there is to enter, provided that its depth allows for
every name that is left. -/
theorem exhausted_of_wayBack {names : List String} (hnames : ∀ name, leadsTo name ⊆ names) {depth : Nat}
    {path visited nexts visited' : List String} (hnexts : nexts ⊆ names) (hstart : start ∈ visited)
    (hpath : 1 ≤ path.length) (hdepth : (unvisited names visited).card ≤ depth)
    (h : wayBack leadsTo start depth path visited nexts = (none, visited')) :
    Exhausted leadsTo start nexts visited visited' ∧ (2 ≤ path.length → start ∉ nexts) := by
  induction depth, path, visited, nexts using wayBack.induct leadsTo start generalizing visited' with
  | case1 depth path visited =>
    rw [wayBack_nil] at h
    cases h
    exact ⟨.nil visited, fun _ => List.not_mem_nil⟩
  | case2 depth path visited rest htwo =>
    rw [wayBack_start, if_pos htwo] at h
    cases h
  | case3 depth path visited rest htwo ih =>
    rw [wayBack_start, if_neg htwo] at h
    obtain ⟨hrest, -⟩ := ih (List.subset_of_cons_subset hnexts) hstart hpath hdepth h
    exact ⟨hrest.cons (hrest.grows hstart), fun htwo' => absurd htwo' htwo⟩
  | case4 depth path visited next rest hne hvisited ih =>
    rw [wayBack_visited hne hvisited] at h
    obtain ⟨hrest, hback⟩ := ih (List.subset_of_cons_subset hnexts) hstart hpath hdepth h
    have hnext : next ∈ visited := List.contains_iff_mem.1 hvisited
    exact ⟨hrest.cons (hrest.grows hnext), fun htwo => List.not_mem_cons_of_ne_of_not_mem (Ne.symm hne) (hback htwo)⟩
  | case5 path visited next rest hne hvisited =>
    -- The name is not entered yet, so the depth allows for it.
    have hnew : next ∉ visited := fun hmem => hvisited (List.contains_iff_mem.2 hmem)
    have hlt := card_unvisited_cons_lt (hnexts List.mem_cons_self) hnew
    omega
  | case6 path visited next rest hne hvisited depth cycle visited₁ hfound ih =>
    rw [Nat.succ_eq_add_one, wayBack_enter hne hvisited, hfound] at h
    cases h
  | case7 path visited next rest hne hvisited depth visited₁ hnone ihIn ihOn =>
    rw [Nat.succ_eq_add_one, wayBack_enter hne hvisited, hnone] at h
    have hnew : next ∉ visited := fun hmem => hvisited (List.contains_iff_mem.2 hmem)
    have hlt := card_unvisited_cons_lt (hnexts List.mem_cons_self) hnew
    have htwo : 2 ≤ (next :: path).length := Nat.succ_le_succ hpath
    obtain ⟨hin, hback⟩ :=
      ihIn (hnames next) (List.mem_cons_of_mem next hstart) (by omega) (by omega) hnone
    have hgrows : visited ⊆ visited₁ := List.subset_of_cons_subset hin.grows
    have hcard := card_unvisited_mono names hgrows
    obtain ⟨hon, hback'⟩ := ihOn (List.subset_of_cons_subset hnexts) (hgrows hstart) hpath (by omega) h
    exact ⟨hin.enter (hback htwo) hon,
      fun htwo' => List.not_mem_cons_of_ne_of_not_mem (Ne.symm hne) (hback' htwo')⟩

/-- Where nothing is found from the start, no other name that it reaches leads back to it. -/
theorem not_wayBack_of_through?_eq_none {names : List String} (hnames : ∀ name, leadsTo name ⊆ names)
    (h : through? leadsTo names start = none) {other : String} (hne : other ≠ start)
    (hto : Relation.ReflTransGen (Leads leadsTo) start other) :
    ¬ Relation.ReflTransGen (Leads leadsTo) other start := by
  have hdepth : (unvisited names [start]).card ≤ names.length :=
    (Finset.card_le_card Finset.sdiff_subset).trans (List.toFinset_card_le names)
  have hpath : 1 ≤ [start].length := Nat.le_refl 1
  obtain ⟨hsearch, -⟩ := exhausted_of_wayBack hnames (hnames start) List.mem_cons_self hpath hdepth
    (Prod.ext h rfl)
  have hnew : ∀ name, name ≠ start → name ∉ [start] := by simp
  -- Every name within reach is entered, and of those entered none but the start leads to the start.
  have hentered : other ∈ (wayBack leadsTo start names.length [start] [start] (leadsTo start)).2 := by
    clear hne
    induction hto with
    | refl => exact hsearch.grows List.mem_cons_self
    | @tail name next hway hstep ih =>
      by_cases heq : name = start
      · subst heq
        exact hsearch.nexts hstep
      · exact (hsearch.closed name ih (hnew name heq) next hstep).2
  intro hback
  revert hne hentered
  clear hto
  induction hback using Relation.ReflTransGen.head_induction_on with
  | refl =>
    intro hne
    exact absurd rfl hne
  | @head name next hstep hway ih =>
    intro hne hmem
    obtain ⟨hne', hmem'⟩ := hsearch.closed name hmem (hnew name hne) next hstep
    exact ih hne' hmem'

/-- From a name at which the search finds nothing, and which does not lead to itself, no way leads back. -/
theorem not_transGen_of_through?_eq_none {names : List String} (hnames : ∀ name, leadsTo name ⊆ names)
    (hself : ¬ Leads leadsTo start start) (h : through? leadsTo names start = none) :
    ¬ Relation.TransGen (Leads leadsTo) start start := by
  intro hway
  obtain ⟨next, hstep, hway⟩ := Relation.TransGen.head'_iff.1 hway
  refine not_wayBack_of_through?_eq_none hnames h ?_ (.single hstep) hway
  rintro rfl
  exact hself hstep

/-- What the search answers is a circle. -/
theorem isCircle_of_through? {names way : List String} (h : through? leadsTo names start = some way) :
    IsCircle leadsTo start way := by
  refine isCircle_of_wayBack ⟨List.isChain_singleton _, rfl, ?_⟩ h
  intro latest hlatest next hnext
  cases hlatest
  exact hnext

/-! ## The circles that are kept -/

/-- The test says that both lists have the same members. -/
theorem sameMembers_iff {a b : List String} : sameMembers a b = true ↔ ∀ name, name ∈ a ↔ name ∈ b := by
  simp only [sameMembers, Bool.and_eq_true, List.all_eq_true, List.contains_iff_mem]
  exact ⟨fun h name => ⟨h.1 name, h.2 name⟩, fun h => ⟨fun name => (h name).1, fun name => (h name).2⟩⟩

/-- Of circles with the same members the first one. -/
def kept (cycles : List (List String)) : List (List String) :=
  cycles.foldl (fun found cycle => if found.any (sameMembers cycle) then found else found ++ [cycle]) []

/-- The cycles of a table are those found from each rule, each kept once. -/
theorem all_eq_kept : all leadsTo names = kept (names.filterMap (through? leadsTo names)) := rfl

/-- One more cycle is kept if none before has the same members. -/
theorem kept_concat (cycles : List (List String)) (cycle : List String) :
    kept (cycles ++ [cycle]) =
      if (kept cycles).any (sameMembers cycle) then kept cycles else kept cycles ++ [cycle] := by
  rw [kept, kept, List.foldl_append]
  rfl

/-- Only cycles that were found are kept. -/
theorem kept_subset (cycles : List (List String)) : kept cycles ⊆ cycles := by
  induction cycles using List.reverseRecOn with
  | nil => exact List.Subset.refl _
  | append_singleton cycles cycle ih =>
    rw [kept_concat]
    split
    next => exact List.Subset.trans ih (List.subset_append_left _ _)
    next => exact List.append_subset.2 ⟨List.Subset.trans ih (List.subset_append_left _ _),
      List.subset_append_right _ _⟩

/-- For every circle one with the same members is kept. -/
theorem exists_mem_kept {cycles : List (List String)} {cycle : List String} (h : cycle ∈ cycles) :
    ∃ c ∈ kept cycles, ∀ name, name ∈ c ↔ name ∈ cycle := by
  induction cycles using List.reverseRecOn with
  | nil => cases h
  | append_singleton cycles last ih =>
    rw [kept_concat]
    rcases List.mem_append.1 h with hmem | hmem
    · obtain ⟨c, hc, hsame⟩ := ih hmem
      split
      next => exact ⟨c, hc, hsame⟩
      next => exact ⟨c, List.mem_append_left _ hc, hsame⟩
    · obtain rfl := List.mem_singleton.1 hmem
      split
      next hany =>
        obtain ⟨c, hc, hsame⟩ := List.any_eq_true.1 hany
        exact ⟨c, hc, fun name => (sameMembers_iff.1 hsame name).symm⟩
      next => exact ⟨_, List.mem_append_right _ List.mem_cons_self, fun _ => Iff.rfl⟩

/-- Of circles some are kept, if there are any. -/
theorem kept_eq_nil_iff {cycles : List (List String)} : kept cycles = [] ↔ cycles = [] := by
  constructor
  · intro h
    rw [List.eq_nil_iff_forall_not_mem]
    intro cycle hcycle
    obtain ⟨c, hc, -⟩ := exists_mem_kept hcycle
    rw [h] at hc
    cases hc
  · rintro rfl
    rfl

/-! ## No circle is missed -/

/-- There are no cycles if none is found from any rule. -/
theorem all_eq_nil_iff {names : List String} :
    all leadsTo names = [] ↔ ∀ name ∈ names, through? leadsTo names name = none := by
  rw [all_eq_kept, kept_eq_nil_iff, List.filterMap_eq_nil_iff]

/-- **No circle is missed.** Where no name leads to itself, the search finds no circle among the names just
when none can be reached from itself. -/
theorem all_eq_nil_iff_acyclic {names : List String} (hnames : ∀ name, leadsTo name ⊆ names)
    (hself : ∀ name, ¬ Leads leadsTo name name) :
    all leadsTo names = [] ↔ ∀ name, ¬ Relation.TransGen (Leads leadsTo) name name := by
  rw [all_eq_nil_iff]
  constructor
  · intro h name hway
    have hmem : name ∈ names := by
      obtain ⟨earlier, -, hstep⟩ := Relation.TransGen.tail'_iff.1 hway
      exact hnames earlier hstep
    exact not_transGen_of_through?_eq_none hnames (hself name) (h name hmem) hway
  · intro h name _
    cases hthrough : through? leadsTo names name with
    | none => rfl
    | some way => exact absurd (isCircle_of_through? hthrough).transGen (h name)

end Grammarian.Cycle
