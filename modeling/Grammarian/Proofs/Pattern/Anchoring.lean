import Grammarian.Proofs.Pattern.Groups
import Grammarian.Proofs.Text.Bytes

/-!
# A pattern matches as its source is written

The anchor is put in front of a source as text, and the source in a group. So the source is read up to a closing
parenthesis, be it the one that has been put behind it or one of its own. In the first case the pattern is the
expression that the source is by itself, at the cursor. In the second case the source is no expression by itself.
-/

namespace Grammarian.Pattern

open Text

/-- The text is read as a regular expression, however heavy. -/
def IsExpression (text : List Char) : Prop :=
  ∃ a names, readGroup? (2 * text.length + 2) {} false [] {} text = some (a, names, [])

/-- The pattern takes of every input just what the expression takes at its front, its preferred match there. A match
of nothing counts for the empty source only. -/
def MatchesAs (p : Pattern) (r : Regex) : Prop :=
  ∀ input n, p.matchLength? input = some n ↔ ∃ front rest, input = front ++ rest ∧
    (r.ends (.start input)).head?.map (·.rest) = some rest ∧ byteCount front = n ∧ (0 < n ∨ p.source = "")

section Matching

variable {p : Pattern} {r : Regex} {input rest : List Char}

theorem match?_iff (hp : p.regex = .seq (.look .textStart) r) :
    p.match? input = some rest ↔
      (r.ends (.start input)).head?.map (·.rest) = some rest ∧ (rest.length ≠ input.length ∨ p.source = "") := by
  rw [match?, hp, search_anchored]
  cases (r.ends (.start input)).head?.map (·.rest) with
  | none => simp
  | some rest' =>
    dsimp only
    split
    next hempty =>
      constructor
      · intro hrest
        cases hrest
      · rintro ⟨hrest, hcounts⟩
        obtain rfl := Option.some.inj hrest
        exact absurd hempty (by tauto)
    next hempty =>
      constructor
      · intro hrest
        obtain rfl := Option.some.inj hrest
        exact ⟨rfl, by tauto⟩
      · exact And.left

theorem byteCount_pos_iff {cs : List Char} : 0 < byteCount cs ↔ cs ≠ [] := by
  constructor
  · rintro h rfl
    exact absurd h (Nat.lt_irrefl 0)
  · exact fun h => (List.length_pos_iff.2 h).trans_le (length_le_byteCount cs)

theorem matchesAs (hp : p.regex = .seq (.look .textStart) r) : p.MatchesAs r := by
  intro input n
  rw [matchLength?, Option.map_eq_some_iff]
  constructor
  · rintro ⟨rest, hmatch, hn⟩
    obtain ⟨hrest, hcounts⟩ := (match?_iff hp).1 hmatch
    obtain ⟨front, hfront⟩ := Regex.suffix_of_head? hrest
    obtain rfl : front ++ rest = input := hfront
    rw [byteCount_append, Nat.add_sub_cancel] at hn
    refine ⟨front, rest, rfl, hrest, hn, hcounts.imp_left fun hlength => ?_⟩
    rw [← hn, byteCount_pos_iff]
    rintro rfl
    exact hlength rfl
  · rintro ⟨front, rest, rfl, hrest, rfl, hcounts⟩
    refine ⟨rest, (match?_iff hp).2 ⟨hrest, hcounts.imp_left fun hpos => ?_⟩, ?_⟩
    · have hlength := List.length_pos_iff.2 (byteCount_pos_iff.1 hpos)
      rw [List.length_append]
      omega
    · rw [byteCount_append]
      omega

end Matching

section Sources

variable {source front r r' : List Char} {a : Regex} {names : List (List Char)} {n : Nat}

/-- What stands around a source is read before and behind the source. -/
theorem readGroup?_anchored (source : List Char) :
    readGroup? (2 * (anchored source).length + 2) {} false [] {} (anchored source) =
      (readGroup? (2 * source.length + 10) {} true [] {} (source ++ [')'])).bind fun g =>
        readGroup? (2 * source.length + 10) {} false g.2.1 ((({} : Progress).push (.look .textStart)).push g.1)
          g.2.2 := by
  have hfuel : 2 * (anchored source).length + 2 = 2 * source.length + 10 + 2 := by
    simp [anchored]
    omega
  rw [hfuel, anchored, List.cons_append, List.cons_append, List.cons_append, List.cons_append, readGroup?_anchor]

/-- The text of a group is an expression by itself. -/
theorem readGroup?_content (h : readGroup? n {} true [] {} (front ++ ')' :: r) = some (a, names, r)) :
    readGroup? (2 * front.length + 2) {} false [] {} front = some (a, names, []) := by
  have hswap : Swap ({} : Flags).verbose (')' :: r) [] front := ⟨isStop_cons r, isStop_nil, nofun⟩
  have hread := carriesGroups n hswap .outside h (m := 2 * front.length + 2) (by rw [List.append_nil])
  rwa [List.append_nil] at hread

/-- Behind the parenthesis that closes a group anything may stand. -/
theorem readGroup?_reopened (h : readGroup? n {} true [] {} (front ++ ')' :: r) = some (a, names, r)) (r' : List Char) :
    readGroup? (2 * (front ++ ')' :: r').length + 2) {} true [] {} (front ++ ')' :: r') = some (a, names, r') := by
  have hswap : Swap ({} : Flags).verbose (')' :: r) (')' :: r') front := ⟨isStop_cons r, isStop_cons r', nofun⟩
  exact carriesGroups n hswap .outside h le_rfl

/-- An expression whose comments end is the content of a group. -/
theorem readGroup?_enclosed (h : readGroup? n {} false [] {} source = some (a, names, []))
    (hcomments : EndsComments false false source) :
    readGroup? (2 * source.length + 10) {} true [] {} (source ++ [')']) = some (a, names, []) := by
  have hswap : Swap ({} : Flags).verbose [] [')'] source := ⟨isStop_nil, isStop_cons [], fun _ _ => hcomments⟩
  rw [← List.append_nil source] at h
  refine carriesGroups n hswap .outside h ?_
  rw [List.length_append, List.length_singleton]
  omega

/-- A source is refused by itself if the group is closed before its end. -/
theorem readRegex?_eq_none_of_closed {back : List Char}
    (h : readGroup? n {} true [] {} (front ++ ')' :: r) = some (a, names, r)) :
    readRegex? (front ++ ')' :: back) = none := by
  rw [readRegex?, readGroup?_closed_of_open (readGroup?_reopened h back)]
  rfl

theorem readRegex?_eq_some_iff {e : Regex} : readRegex? source = some e ↔
    e.weight ≤ maxWeight ∧ ∃ names, readGroup? (2 * source.length + 2) {} false [] {} source = some (e, names, []) := by
  rw [readRegex?, Option.bind_eq_bind, Option.bind_eq_some_iff]
  constructor
  · rintro ⟨⟨a, names, r⟩, hread, h⟩
    dsimp only at h
    split at h
    next hweight =>
      obtain rfl := Option.some.inj h
      obtain rfl := (closesGroups _ hread).nothing
      exact ⟨hweight, names, hread⟩
    next => cases h
  · rintro ⟨hweight, names, hread⟩
    exact ⟨_, hread, if_pos hweight⟩

/-- What can be told of a source that makes a pattern. -/
theorem exists_of_readRegex?_anchored {e : Regex} (h : readRegex? (anchored source) = some e) :
    (∃ a, readRegex? source = some a ∧ e = .seq (.look .textStart) a) ∨
      readRegex? source = none ∧ ∃ front back, source = front ++ ')' :: back ∧ IsExpression front := by
  obtain ⟨-, names', hread⟩ := readRegex?_eq_some_iff.1 h
  rw [readGroup?_anchored] at hread
  obtain ⟨⟨a, names, r⟩, hgroup, -⟩ := Option.bind_eq_some_iff.1 hread
  obtain ⟨front, hfront⟩ := (closesGroups _ hgroup).parenthesis
  rcases List.eq_nil_or_concat' r with rfl | ⟨back, c, rfl⟩
  · refine .inl ⟨a, ?_⟩
    rw [Pattern.readRegex?_anchored hgroup] at h
    split at h
    next hweight =>
      have hlight : a.weight ≤ maxWeight := (Nat.le_succ _).trans hweight
      exact ⟨readRegex?_eq_some_iff.2 ⟨hlight, names, readGroup?_content hgroup⟩, (Option.some.inj h).symm⟩
    next => cases h
  · refine .inr ?_
    have hlast : (front ++ ')' :: back) ++ [c] = source ++ [')'] := by simpa using hfront
    obtain ⟨rfl, -⟩ := List.append_inj' hlast rfl
    rw [← hfront] at hgroup
    exact ⟨readRegex?_eq_none_of_closed hgroup, front, back, rfl, a, names, readGroup?_content hgroup⟩

end Sources

/-- A source makes a pattern if it is an expression by itself, and the pattern matches as the expression does, at the
cursor only. Otherwise a parenthesis of the source closes the group too early. An expression is refused where a
comment of the verbose notation takes the parenthesis in, and where the anchor makes it too heavy.

What is an expression, `readRegex?` says. The limits of a library are approximated there: `r.weight = maxWeight` stands
for the expressions that only the anchor and the group make too large, and a limit on nesting, which the group would
count for as well, is not modelled. -/
theorem compile_exact (source : String) :
    (∀ p, compile source = .ok p →
      (∃ r, readRegex? source.toList = some r ∧ p.MatchesAs r) ∨
        readRegex? source.toList = none ∧ ∃ front back, source.toList = front ++ ')' :: back ∧ IsExpression front) ∧
    (∀ r, readRegex? source.toList = some r →
      (∃ p, compile source = .ok p) ∨ r.weight = maxWeight ∨
        ∃ front back, source.toList = front ++ '#' :: back ∧ 'x' ∈ front ∧ '\n' ∉ back) := by
  constructor
  · intro p hp
    obtain rfl := source_of_compile hp
    rcases exists_of_readRegex?_anchored p.read_source with ⟨r, hr, hregex⟩ | hnone
    · exact .inl ⟨r, hr, matchesAs hregex⟩
    · exact .inr hnone
  · intro r hr
    obtain ⟨hweight, names, hread⟩ := readRegex?_eq_some_iff.1 hr
    by_cases hcomment : ∃ front back, source.toList = front ++ '#' :: back ∧ 'x' ∈ front ∧ '\n' ∉ back
    · exact .inr (.inr hcomment)
    · have hcomments : EndsComments false false source.toList :=
        ⟨nofun, fun front back htext hflag => by_contra fun hend =>
          hcomment ⟨front, back, htext, hflag.resolve_left Bool.false_ne_true, hend⟩⟩
      have hanchored := readRegex?_anchored (readGroup?_enclosed hread hcomments)
      rcases Nat.lt_or_eq_of_le hweight with hlt | heq
      · rw [if_pos (Nat.succ_le_of_lt hlt)] at hanchored
        exact .inl ⟨_, compile_source ⟨source, _, hanchored⟩⟩
      · exact .inr (.inl heq)

/-- A parenthesis of its own makes a pattern of a source that is no expression, and the pattern matches away from the
cursor. A comment at its end makes an expression no pattern. -/
theorem unclosed_source_compiles :
    (∃ p, compile "a)|(?:b" = .ok p ∧ readRegex? "a)|(?:b".toList = none ∧ p.matchLength? ['x', 'b'] = some 2) ∧
      (readRegex? "(?x)a#".toList).isSome = true ∧ compile "(?x)a#" = .error ⟨"(?x)a#"⟩ := by
  have hread : readRegex? (anchored "a)|(?:b".toList) =
      some (.alt (.seq (.look .textStart) (.set (.single 'a'))) (.set (.single 'b'))) := by decide +kernel
  refine ⟨⟨⟨"a)|(?:b", _, hread⟩, compile_source ⟨"a)|(?:b", _, hread⟩, by decide +kernel, rfl⟩,
    by decide +kernel, ?_⟩
  have hnone : readRegex? (anchored "(?x)a#".toList) = none := by decide +kernel
  unfold compile
  split
  next r hr =>
    rw [hnone] at hr
    cases hr
  next => rfl

end Grammarian.Pattern
