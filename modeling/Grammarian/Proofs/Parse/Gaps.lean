import Grammarian.Proofs.Parse.Likeness
import Grammarian.Proofs.Parse.Lookahead

/-!
# Gaps between phases

A round takes white space first, where it looks for its target behind it, and then what its target matches:
`Round.gap` and `Round.word`. Phases without marks that match have one round each, so what they take up is their
words with the gaps between them, and a gap is empty just when its round takes no white space.
-/

namespace Grammarian

namespace Round

/-- The white space that a round takes for its target. -/
def gap (r : Round) : List Char := consumed r.before.rest r.reached.rest

/-- What a round takes behind it. -/
def word (r : Round) : List Char := (r.ending.growth?.map fun g => consumed r.reached.rest g.rest).getD []

/-- What stands from the first target of these rounds to the end of the last one. -/
def stretch : List Round → List Char
  | [] => []
  | r :: rs => r.word ++ rs.flatMap fun r' => r'.gap ++ r'.word

/-- Words of one character each stand together just when there are no gaps. -/
theorem length_flatMap_eq_iff {rs : List Round} (h : ∀ r ∈ rs, r.word.length = 1) :
    rs.length ≤ (rs.flatMap fun r => r.gap ++ r.word).length ∧
      ((rs.flatMap fun r => r.gap ++ r.word).length = rs.length ↔ ∀ r ∈ rs, r.gap = []) := by
  induction rs with
  | nil => simp
  | cons r rs ih =>
    rw [List.forall_mem_cons] at h
    obtain ⟨hle, hiff⟩ := ih h.2
    rw [List.forall_mem_cons, ← hiff, ← List.length_eq_zero_iff, List.flatMap_cons, List.length_append,
      List.length_append, h.1, List.length_cons]
    omega

theorem forall₂_flatMap_word {each : List (Char → Bool)} {rs : List Round}
    (h : List.Forall₂ (fun holds (r : Round) => ∃ d, r.word = [d] ∧ holds d = true) each rs) :
    List.Forall₂ (fun holds d => holds d = true) each (rs.flatMap word) := by
  induction h with
  | nil => exact .nil
  | @cons holds r each rs hr _ ih =>
    obtain ⟨d, hd, hholds⟩ := hr
    rw [List.flatMap_cons, hd]
    exact .cons hholds ih

/-- Rounds that take one character each take them one behind another just when there are no gaps between them. -/
theorem forall₂_stretch_iff {each : List (Char → Bool)} {r : Round} {rs : List Round}
    (h : List.Forall₂ (fun holds (r : Round) => ∃ d, r.word = [d] ∧ holds d = true) each (r :: rs)) :
    List.Forall₂ (fun holds d => holds d = true) each (stretch (r :: rs)) ↔ ∀ r' ∈ rs, r'.gap = [] := by
  have hwords : ∀ r' ∈ r :: rs, r'.word.length = 1 := by
    intro r' hr'
    obtain ⟨holds, -, d, hd, -⟩ := exists_mem_of_forall₂ h hr'
    rw [hd, List.length_singleton]
  rw [List.forall_mem_cons] at hwords
  obtain ⟨-, hiff⟩ := Round.length_flatMap_eq_iff hwords.2
  constructor
  · intro hstretch
    have hlength := hstretch.length_eq.symm.trans h.length_eq
    rw [stretch, List.length_append, hwords.1, List.length_cons] at hlength
    exact hiff.1 (by omega)
  · intro hgaps
    have hclose : stretch (r :: rs) = (r :: rs).flatMap word := by
      rw [stretch, List.flatMap_cons]
      exact congrArg _ (List.flatMap_congr fun r' hr' => by rw [hgaps r' hr', List.nil_append])
    rw [hclose]
    exact forall₂_flatMap_word h

end Round

/-- The phase has to match once, and whatever it matches fulfils a condition. -/
structure Phase.Takes (ph : Phase) (fits : List Char → Prop) : Prop where
  plain : ph.reference.isPlain = true
  takes : ∀ (answers : Answers) (input : List Char), ∀ hit ∈ ((ph.target.plan input).run answers).value,
    ∃ word, fits word ∧ word ++ hit.rest input = input

namespace Scene

variable {s : Scene} {answers : Answers} {number : Nat} {ph : Phase} {again : Bool} {g : Growth} {phs : List Phase}

/-- From a round on, the rounds are those of its phase and of the phases behind it. -/
theorem rounds_from {front back : List Round} {r : Round}
    (h : s.rounds answers number again g phs = front ++ r :: back) :
    ∃ again', s.rounds answers r.number again' r.before (phs.drop (r.number - number)) = r :: back := by
  induction number, again, g, phs using rounds.induct s answers generalizing front with
  | case1 number again g => simp [rounds] at h
  | case2 number again g ph phs ihAgain ihNext =>
    have hround := rounds_cons s answers number again g ph phs
    cases front with
    | nil =>
      rw [List.nil_append, hround] at h
      obtain ⟨rfl, -⟩ := List.cons.inj h
      have hdrop : (ph :: phs).drop ((s.roundAt answers number ph again g).number - number) = ph :: phs := by
        simp [roundAt]
      exact ⟨again, by rw [hdrop, ← h, ← hround]; rfl⟩
    | cons r' front =>
      rw [hround] at h
      obtain ⟨rfl, hrest⟩ := List.cons.inj h
      cases hend : (s.roundAt answers number ph again g).ending with
      | again g' =>
        rw [hend] at hrest
        exact ihAgain g' hend hrest
      | next g' =>
        rw [hend] at hrest
        obtain ⟨again', hrounds⟩ := ihNext g' hrest
        have hmem : r ∈ s.rounds answers (number + 1) false g' phs := by
          change r ∈ s.roundsAfter answers number ph phs (.next g')
          rw [hrest]
          exact List.mem_append_right front List.mem_cons_self
        have hle := (phase_of_mem_rounds hmem).1
        have hsucc : r.number - number = r.number - (number + 1) + 1 := by omega
        exact ⟨again', by rw [hsucc, List.drop_succ_cons, hrounds]⟩
      | stop g' | fail =>
        rw [hend] at hrest
        simp [roundsAfter] at hrest

/-- A phase without marks that matches has one round, which goes on behind its target. -/
theorem roundAt_of_plain (number : Nat) (again : Bool) (hmarks : ph.reference.isPlain = true) {hit : Hit}
    (hgot : (s.roundAt answers number ph again g).got = some hit) :
    ∃ g', (s.roundAt answers number ph again g).ending = .next g' ∧
      g'.rest = hit.rest (s.roundAt answers number ph again g).reached.rest := by
  simp only [Reference.isPlain, Bool.and_eq_true, decide_eq_true_eq, Bool.not_eq_true'] at hmarks
  obtain ⟨⟨hrepetition, hlook⟩, -⟩ := hmarks
  have hround := s.concludes_roundAt answers number ph again g
  rw [hgot] at hround
  generalize (s.roundAt answers number ph again g).reached = g₀ at hround ⊢
  generalize (s.roundAt answers number ph again g).ending = ending at hround ⊢
  cases hround with
  | forbidden _ hnegative => simp [Reference.isNegative, hlook] at hnegative
  | hit =>
    rw [settle, take_eq hlook]
    simp [Reference.repeats, hrepetition]

theorem gap_append (hanswers : answers.Obey .free) (number : Nat) (ph : Phase) (again : Bool) (g : Growth) :
    (s.roundAt answers number ph again g).gap ++ (s.roundAt answers number ph again g).reached.rest = g.rest := by
  have hreached : g.Extends (s.roundAt answers number ph again g).reached := reached_extends hanswers number ph again g
  exact hreached.consumed_append

/-- A round takes no white space just when nothing stands before its target. -/
theorem gap_eq_nil_iff (hanswers : answers.Obey .free) (number : Nat) (ph : Phase) (again : Bool) (g : Growth) :
    (s.roundAt answers number ph again g).gap = [] ↔ ¬ s.TakesSpace answers ph g := by
  constructor
  · intro hgap htakes
    have hlt := reached_of_takesSpace number again htakes
    have happend := gap_append (s := s) hanswers number ph again g
    rw [hgap, List.nil_append] at happend
    rw [happend] at hlt
    exact Nat.lt_irrefl _ hlt
  · intro htakes
    have hbefore : (s.roundAt answers number ph again g).before = g := rfl
    rw [Round.gap, hbefore, reached_of_not_takesSpace htakes]
    simp [consumed]

/-- The rounds of phases that have to match once, where they do. -/
theorem rounds_takes (hanswers : answers.Obey .free) {fits : List (List Char → Prop)} {chars : List Phase}
    (hchars : List.Forall₂ (fun fits (ph : Phase) => ph.Takes fits) fits chars) {own later : List Round}
    (hrounds : s.rounds answers number again g (chars ++ phs) = own ++ later) (hlength : own.length = chars.length)
    (hmatched : ∀ r ∈ own, r.got.isSome = true) :
    (∃ rest, own.flatMap (fun r => r.gap ++ r.word) ++ rest = g.rest) ∧
      List.Forall₂ (fun fits (r : Round) => fits r.word) fits own ∧
      ∀ r ∈ own, r.gap = [] ↔ ¬ s.TakesSpace answers r.phase r.before := by
  induction hchars generalizing number again g own with
  | nil =>
    obtain rfl := List.length_eq_zero_iff.1 hlength
    exact ⟨⟨g.rest, rfl⟩, .nil, fun r hr => absurd hr List.not_mem_nil⟩
  | @cons fits ph more chars hph _ ih =>
    cases own with
    | nil => cases hlength
    | cons r own =>
      rw [List.cons_append, rounds_cons] at hrounds
      obtain ⟨rfl, hrest⟩ := List.cons.inj hrounds
      rw [List.forall_mem_cons] at hmatched
      obtain ⟨hit, hhit⟩ := Option.isSome_iff_exists.1 hmatched.1
      obtain ⟨g', hend, hg'⟩ := roundAt_of_plain number again hph.plain hhit
      rw [hend] at hrest
      obtain ⟨⟨rest, hmore⟩, hwords, hgaps⟩ := ih hrest (Nat.succ.inj hlength) hmatched.2
      have hgot := got_eq s answers number ph again g
      obtain ⟨word, hword, htaken⟩ := hph.takes answers _ hit (hgot ▸ hhit)
      rw [← hg'] at htaken
      have hown : (s.roundAt answers number ph again g).word = word := by
        rw [Round.word, hend]
        exact consumed_of_append htaken
      refine ⟨⟨rest, ?_⟩, .cons (hown ▸ hword) hwords, ?_⟩
      · rw [List.flatMap_cons, List.append_assoc, hmore, hown, List.append_assoc, htaken]
        exact gap_append hanswers number ph again g
      · rw [List.forall_mem_cons]
        exact ⟨gap_eq_nil_iff hanswers number ph again g, hgaps⟩

end Scene

end Grammarian
