import Grammarian.Proofs.Pattern.Remainder

/-!
# Runs of characters

The patterns of lexical rules are made of sets: one character of a set, a run of them, or a character of
one set and a run of another. Such a pattern takes the longest run there is.
-/

namespace Grammarian.Pattern

/-- One character of a set behind the anchor. -/
def Regex.one (s : CharSet) : Regex := .seq (.look .textStart) (.set s)

/-- A run of characters of a set behind the anchor. -/
def Regex.run (s : CharSet) : Regex := .seq (.look .textStart) (.plus true (.set s))

/-- A character of the first set and a run of the second, which may be empty, behind the anchor. -/
def Regex.word (first more : CharSet) : Regex :=
  .seq (.look .textStart) (.seq (.set first) (.star true (.set more)))

section Ends

variable {s : CharSet} {p : Spot} {c : Char} {cs : List Char}

/-- Leaving out what comes twice keeps the first spot. -/
theorem head?_distinct (ps : List Spot) : (Spot.distinct ps).head? = ps.head? := by
  cases ps with
  | nil => rfl
  | cons p ps => rfl

/-- A set takes one of its characters. -/
theorem ends_set_of_mem (hp : p.rest = c :: cs) (hc : s.contains c = true) :
    (Regex.set s).ends p = [⟨some c, cs⟩] := by
  simp [Regex.ends, hp, hc]

/-- A set takes no other character. -/
theorem ends_set_of_not_mem (hp : ∀ c ∈ p.rest.head?, s.contains c = false) :
    (Regex.set s).ends p = [] := by
  simp only [Regex.ends]
  split
  next c cs hrest =>
    rw [hp c (by rw [hrest]; rfl)]
    rfl
  next => rfl

/-- Further rounds go through the rest of a run, and the last of them ends behind it. -/
theorem rounds_set (s : CharSet) (p : Spot) :
    ((rounds (Regex.set s).ends true p []).getLast?.getD p).rest = p.rest.dropWhile s.contains := by
  induction hlength : p.rest.length using Nat.strongRecOn generalizing p with
  | ind n ih =>
    rw [rounds]
    cases hrest : p.rest with
    | nil =>
      rw [ends_set_of_not_mem (by simp [hrest])]
      simpa using hrest
    | cons c cs =>
      cases hc : s.contains c with
      | false =>
        rw [ends_set_of_not_mem (by simp [hrest, hc])]
        simpa [hc] using hrest
      | true =>
        have hlt : cs.length < n := by
          rw [← hlength, hrest, List.length_cons]
          omega
        have hstep := ih cs.length hlt ⟨some c, cs⟩ rfl
        rw [ends_set_of_mem hrest hc]
        simp only [List.foldl_cons, List.foldl_nil, List.any_nil, Bool.false_eq_true, if_false, if_true,
          List.length_cons, Nat.lt_succ_self, dite_true, List.getLast?_cons, Option.getD_some,
          List.dropWhile_cons, hc]
        exact hstep

/-- A repeated set that finds none of its characters ends nowhere. -/
theorem head?_oneOrMore_of_not_mem (hp : ∀ c ∈ p.rest.head?, s.contains c = false) :
    (oneOrMore (Regex.set s).ends true p).head? = none := by
  rw [oneOrMore, ends_set_of_not_mem hp]
  rfl

/-- A repeated set takes its characters as far as they go. -/
theorem head?_oneOrMore_of_mem (hp : p.rest = c :: cs) (hc : s.contains c = true) :
    (oneOrMore (Regex.set s).ends true p).head?.map (·.rest) = some (cs.dropWhile s.contains) := by
  have hrounds := rounds_set s ⟨some c, cs⟩
  rw [oneOrMore, ends_set_of_mem hp hc]
  simp only [List.foldl_cons, List.foldl_nil, List.any_nil, Bool.false_eq_true, if_false, if_true, hp,
    List.length_cons, Nat.lt_succ_self, List.head?_reverse, List.getLast?_cons, Option.map_some]
  rw [hrounds]

/-- The preferred end of a run that may be empty. -/
theorem head?_star (s : CharSet) (p : Spot) :
    (((Regex.set s).star true).ends p).head?.map (·.rest) = some (p.rest.dropWhile s.contains) := by
  have hends : (((Regex.set s).star true).ends p).head? =
      (oneOrMore (Regex.set s).ends true p).head?.or (some p) := by
    have hone : (andThen (oneOrMore (Regex.set s).ends true) (fun q => [q]) p).head? =
        (oneOrMore (Regex.set s).ends true p).head? := by
      unfold andThen
      split
      next h => rw [h]
      next q h => rw [h]
      next => rw [head?_distinct, List.flatMap_singleton']
    have hatMost : ((Regex.set s).star true).ends p =
        Spot.distinct (andThen (oneOrMore (Regex.set s).ends true) (fun q => [q]) p ++ [p]) := rfl
    rw [hatMost, head?_distinct, List.head?_append, hone]
    rfl
  rw [hends]
  cases hrest : p.rest with
  | nil =>
    rw [head?_oneOrMore_of_not_mem (by simp [hrest])]
    simpa using hrest
  | cons c cs =>
    cases hc : s.contains c with
    | false =>
      rw [head?_oneOrMore_of_not_mem (by simp [hrest, hc])]
      simpa [hc] using hrest
    | true =>
      have hhead := head?_oneOrMore_of_mem hrest hc
      obtain ⟨q, hq, hqrest⟩ := Option.map_eq_some_iff.1 hhead
      rw [hq]
      simpa [hc] using hqrest

end Ends

/-! ## Patterns -/

section Matches

variable {p : Pattern} {s first more : CharSet} {c : Char} {cs input front rest : List Char}

/-- An anchored expression is tried at the start of the input. -/
theorem search_anchored (r : Regex) (input : List Char) :
    (Regex.seq (.look .textStart) r).search input = (r.ends (.start input)).head?.map (·.rest) := by
  rfl

/-- What a pattern leaves when it consumes something. -/
theorem match?_of_search (h : p.regex.search input = some rest) (hlt : rest.length < input.length) :
    p.match? input = some rest := by
  have hne : ¬ (rest.length = input.length ∧ p.source ≠ "") := by
    intro hand
    omega
  simp only [match?, h, if_neg hne]

/-- Where the search finds nothing, nothing is matched. -/
theorem match?_of_search_none (h : p.regex.search input = none) : p.match? input = none := by
  simp only [match?, h]

/-- A pattern for one character takes one of its set. -/
theorem match?_one (hp : p.regex = .one s) (hc : s.contains c = true) : p.match? (c :: cs) = some cs := by
  refine match?_of_search ?_ (by simp)
  rw [hp, Regex.one, search_anchored, ends_set_of_mem (p := .start (c :: cs)) rfl hc]
  rfl

/-- A pattern for one character takes no other. -/
theorem match?_one_eq_none (hp : p.regex = .one s) (hc : ∀ c ∈ input.head?, s.contains c = false) :
    p.match? input = none := by
  refine match?_of_search_none ?_
  rw [hp, Regex.one, search_anchored, ends_set_of_not_mem (p := .start input) hc]
  rfl

/-- A run ends where the next character does not belong to the set. -/
theorem dropWhile_append_of_all (hfront : ∀ c ∈ front, s.contains c = true)
    (hrest : ∀ c ∈ rest.head?, s.contains c = false) : (front ++ rest).dropWhile s.contains = rest := by
  have hdrop : rest.dropWhile s.contains = rest := by
    cases rest with
    | nil => rfl
    | cons c cs => rw [List.dropWhile_cons, hrest c rfl, if_neg (by simp)]
  rw [List.dropWhile_append_of_pos hfront, hdrop]

/-- A pattern for a run takes all of its set that stands in front. -/
theorem match?_run (hp : p.regex = .run s) (hne : front ≠ []) (hfront : ∀ c ∈ front, s.contains c = true)
    (hrest : ∀ c ∈ rest.head?, s.contains c = false) : p.match? (front ++ rest) = some rest := by
  obtain ⟨c, cs, rfl⟩ := List.exists_cons_of_ne_nil hne
  rw [List.forall_mem_cons] at hfront
  refine match?_of_search ?_ ?_
  · rw [hp, Regex.run, search_anchored]
    have hhead := head?_oneOrMore_of_mem (p := .start (c :: (cs ++ rest))) rfl hfront.1
    rw [dropWhile_append_of_all hfront.2 hrest] at hhead
    exact hhead
  · simp only [List.cons_append, List.length_cons, List.length_append]
    omega

/-- A pattern for a run needs one character of its set. -/
theorem match?_run_eq_none (hp : p.regex = .run s) (hc : ∀ c ∈ input.head?, s.contains c = false) :
    p.match? input = none := by
  refine match?_of_search_none ?_
  rw [hp, Regex.run, search_anchored]
  have hhead := head?_oneOrMore_of_not_mem (p := .start input) hc
  have hends : (Regex.plus true (.set s)).ends (.start input) =
      oneOrMore (Regex.set s).ends true (.start input) := rfl
  rw [hends, hhead]
  rfl

/-- A pattern for a word takes its first character and all that may follow it. -/
theorem match?_word (hp : p.regex = .word first more) (hc : first.contains c = true)
    (hfront : ∀ c ∈ front, more.contains c = true) (hrest : ∀ c ∈ rest.head?, more.contains c = false) :
    p.match? (c :: (front ++ rest)) = some rest := by
  refine match?_of_search ?_ ?_
  · have hseq : (Regex.seq (.set first) (.star true (.set more))).ends (.start (c :: (front ++ rest))) =
        ((Regex.set more).star true).ends ⟨some c, front ++ rest⟩ := by
      rw [Regex.ends, andThen, ends_set_of_mem (p := .start (c :: (front ++ rest))) rfl hc]
    rw [hp, Regex.word, search_anchored, hseq, head?_star, dropWhile_append_of_all hfront hrest]
  · simp only [List.length_cons, List.length_append]
    omega

/-- A pattern for a word needs its first character. -/
theorem match?_word_eq_none (hp : p.regex = .word first more)
    (hc : ∀ c ∈ input.head?, first.contains c = false) : p.match? input = none := by
  refine match?_of_search_none ?_
  rw [hp, Regex.word, search_anchored, Regex.ends, andThen,
    ends_set_of_not_mem (p := .start input) hc]
  rfl

/-! ### What has been matched -/

/-- A longest run is followed by nothing or by a character of another kind. -/
theorem eq_false_of_mem_head?_dropWhile (q : Char → Bool) (cs : List Char) :
    ∀ c ∈ (cs.dropWhile q).head?, q c = false := by
  intro c hc
  have hnot := List.head?_dropWhile_not q cs
  rw [Option.mem_def.1 hc] at hnot
  simpa using hnot

/-- What a pattern for one character takes is one of its set. -/
theorem eq_singleton_of_match? (hp : p.regex = .one s) (h : p.match? (front ++ rest) = some rest) :
    ∃ c, front = [c] ∧ s.contains c = true := by
  cases hinput : front ++ rest with
  | nil =>
    rw [hinput, match?_one_eq_none hp (by simp)] at h
    cases h
  | cons c cs =>
    cases hc : s.contains c with
    | false =>
      rw [hinput, match?_one_eq_none hp (by simpa using hc)] at h
      cases h
    | true =>
      rw [hinput, match?_one hp hc] at h
      obtain rfl := Option.some.inj h
      exact ⟨c, List.append_cancel_right hinput, hc⟩

/-- What a pattern for a run takes is a run of its set. -/
theorem forall_mem_of_match? (hp : p.regex = .run s) (h : p.match? (front ++ rest) = some rest) :
    front ≠ [] ∧ ∀ c ∈ front, s.contains c = true := by
  have hsplit := List.takeWhile_append_dropWhile (p := s.contains) (l := front ++ rest)
  have hend := eq_false_of_mem_head?_dropWhile s.contains (front ++ rest)
  by_cases hnone : (front ++ rest).takeWhile s.contains = []
  · rw [hnone, List.nil_append] at hsplit
    rw [hsplit] at hend
    rw [match?_run_eq_none hp hend] at h
    cases h
  · have hmatch := match?_run hp hnone (List.all_eq_true.1 List.all_takeWhile) hend
    rw [hsplit, h] at hmatch
    rw [← Option.some.inj hmatch] at hsplit
    rw [← List.append_cancel_right hsplit]
    exact ⟨hnone, List.all_eq_true.1 List.all_takeWhile⟩

/-- What a pattern for a word takes is a word. -/
theorem exists_cons_of_match? (hp : p.regex = .word first more) (h : p.match? (front ++ rest) = some rest) :
    ∃ c cs, front = c :: cs ∧ first.contains c = true ∧ ∀ d ∈ cs, more.contains d = true := by
  cases hinput : front ++ rest with
  | nil =>
    rw [hinput, match?_word_eq_none hp (by simp)] at h
    cases h
  | cons c cs =>
    cases hc : first.contains c with
    | false =>
      rw [hinput, match?_word_eq_none hp (by simpa using hc)] at h
      cases h
    | true =>
      have hall : ∀ d ∈ cs.takeWhile more.contains, more.contains d = true :=
        List.all_eq_true.1 List.all_takeWhile
      have hmatch := match?_word hp hc hall (eq_false_of_mem_head?_dropWhile more.contains cs)
      rw [List.takeWhile_append_dropWhile, ← hinput, h] at hmatch
      have hfront : front ++ rest = (c :: cs.takeWhile more.contains) ++ rest := by
        rw [hinput, Option.some.inj hmatch, List.cons_append, List.takeWhile_append_dropWhile]
      exact ⟨c, _, List.append_cancel_right hfront, hc, hall⟩

end Matches

/-! ### Sources -/

/-- A pattern compiles from its source to itself. -/
theorem compile_source (p : Pattern) : compile p.source = .ok p := by
  unfold compile
  split
  next r hr =>
    congr 1
    exact ext_source rfl
  next hnone =>
    rw [p.read_source] at hnone
    cases hnone

/-- A pattern keeps the source that it was compiled from. -/
theorem source_of_compile {p : Pattern} {source : String} (h : compile source = .ok p) : p.source = source := by
  unfold compile at h
  split at h
  next r hr =>
    cases h
    rfl
  next => cases h

/-- The expression of a pattern given by its source. -/
theorem regex_ofSource {source : String} {r : Regex} (h : readRegex? (anchored source.toList) = some r) :
    (ofSource source).regex = r := by
  rw [ofSource, compile_source ⟨source, r, h⟩]

end Grammarian.Pattern
