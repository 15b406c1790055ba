import Grammarian.Proofs.Notation.Symbols
import Grammarian.Proofs.Notation.Terminals
import Grammarian.Proofs.Parse.Likeness

/-!
# Literals taken apart

The attributed notation takes a literal apart as it is written, before escapes are resolved, while a literal with
marks is read as a whole. The two readings match the same texts just when there is nothing to resolve: when no
backslash stands before another character of the literal.
-/

namespace Grammarian

/-! ## Symbols one after another -/

/-- What is left of an input behind the symbols, one after another at its front. -/
def Scene.restBehind? (s : Scene) (answers : Answers) (symbols : List Symbol) (input : List Char) :
    Option (List Char) :=
  ((s.alternative input (symbols.map Symbol.phase)).run answers).value.map (·.rest)

namespace Scene

variable {s : Scene} {input : List Char}

theorem restBehind?_eq (s : Scene) (answers : Answers) (symbols : List Symbol) (input : List Char) :
    s.restBehind? answers symbols input =
      ((s.phases 1 { rest := input } (symbols.map Symbol.phase)).run answers).value.bind fun g =>
        if g.started then some g.rest else none := by
  rw [restBehind?, alternative, Plan.run_bind]
  cases ((s.phases 1 { rest := input } (symbols.map Symbol.phase)).run answers).value with
  | none => rfl
  | some g =>
    rw [Option.bind_some]
    cases hstarted : g.started with
    | true => simp [Plan.run, hstarted]
    | false => simp [Plan.run, hstarted]

/-- Symbols for one character each take up characters one by one. -/
theorem Plain.restBehind?_each (hs : s.Plain) (answers : Answers) {each : List (Char → Bool)}
    {symbols : List Symbol} (hne : each ≠ [])
    (h : List.Forall₂ (fun holds (x : Symbol) => x.asReference.isPlain = true ∧ IsOneOf holds x.target)
      each symbols) (input : List Char) :
    s.restBehind? answers symbols input = restOfEach? each input := by
  have hphases : List.Forall₂
      (fun holds (ph : Phase) => ph.reference.isPlain = true ∧ IsOneOf holds ph.target) each
      (symbols.map Symbol.phase) := List.forall₂_map_right_iff.2 h
  have hrun : ((s.phases 1 { rest := input } (symbols.map Symbol.phase ++ [])).run answers).value = _ :=
    hs.each_run rfl hphases []
  rw [List.append_nil] at hrun
  rw [restBehind?_eq, hrun]
  cases restOfEach? each input with
  | none => rfl
  | some rest => simp [phases, Plan.run, hne]

/-- A literal takes up its value, also when that is empty. -/
theorem Plain.restBehind?_literal (hs : s.Plain) (answers : Answers) (value : String) (input : List Char) :
    s.restBehind? answers [.literal value] input = value.toList.isPrefixOf? input := by
  have hmarks : (Symbol.literal value).asReference.isPlain = true := rfl
  rw [restBehind?_eq, List.map_singleton, phases_cons_run]
  by_cases hvalue : value.toList = []
  · have hhit : (((Symbol.literal value).phase.target.plan input).run answers).value = some .nothing := by
      simp [Symbol.phase, Symbol.target, Target.plan, Plan.run, hvalue]
    have hend : ((s.phase 1 (Symbol.literal value).phase false { rest := input }).run answers).value =
        .next (Growth.after { rest := input } .nothing) := by
      rw [hs.phase_run_some rfl hhit]
      rfl
    rw [hend, hvalue]
    cases input with
    | nil => rfl
    | cons c cs => rfl
  · have hfound : (((Symbol.literal value).phase.target.plan input).run answers).value =
        (value.toList.isPrefixOf? input).map .text := literal_run hvalue answers input
    rw [hs.phase_run_text rfl hmarks hfound]
    cases value.toList.isPrefixOf? input with
    | none => rfl
    | some rest => rfl

end Scene

namespace Notation

/-! ## Case -/

/-- What holds of the ASCII characters one by one holds of all of them. -/
theorem forall_ascii {P : Char → Prop} (h : ∀ n ∈ List.range 128, P (Char.ofNat n)) {c : Char}
    (hc : c.toNat < 128) : P c := by
  have hn := h c.toNat (List.mem_range.2 hc)
  rwa [Char.ofNat_toNat] at hn

theorem toLower_of_not_upper {d : Char} (hd : Text.isAsciiUpper d = false) : d.toLower = d := by
  delta Char.toLower
  simp only [Text.isAsciiUpper, Char.le_def, Bool.and_eq_false_iff, decide_eq_false_iff_not] at hd
  split
  next hupper => exact absurd hupper.2 (hd.resolve_left (not_not_intro hupper.1))
  next => rfl

theorem toNat_lt_of_upper {d : Char} (hd : Text.isAsciiUpper d = true) : d.toNat < 128 := by
  simp only [Text.isAsciiUpper, Bool.and_eq_true, decide_eq_true_eq] at hd
  exact Nat.lt_of_le_of_lt (UInt32.le_iff_toNat_le.1 (Char.le_def.1 hd.2)) (by decide)

/-- The capital and the small form of a letter are the characters equal to it up to case. -/
theorem toLower_eq_iff_of_letter {c : Char} (hascii : c.toNat < 128) (hc : Text.isAsciiLetter c = true) (d : Char) :
    d.toLower = c.toLower ↔ d = c.toUpper ∨ d = c.toLower := by
  have hforms : Text.isAsciiLetter c = true →
      c.toUpper.toLower = c.toLower ∧ c.toLower.toLower = c.toLower ∧ c.toLower.toUpper = c.toUpper :=
    forall_ascii (P := fun c => Text.isAsciiLetter c = true →
      c.toUpper.toLower = c.toLower ∧ c.toLower.toLower = c.toLower ∧ c.toLower.toUpper = c.toUpper)
      (by decide +kernel) hascii
  obtain ⟨hup, hlow, hback⟩ := hforms hc
  constructor
  · intro heq
    cases hd : Text.isAsciiUpper d with
    | true =>
      have hupper : d = d.toLower.toUpper :=
        forall_ascii (P := fun d => Text.isAsciiUpper d = true → d = d.toLower.toUpper) (by decide +kernel)
          (toNat_lt_of_upper hd) hd
      rw [hupper, heq, hback]
      exact .inl rfl
    | false => exact .inr (by rw [← heq, toLower_of_not_upper hd])
  · rintro (rfl | rfl)
    · exact hup
    · exact hlow

/-- Any other character is equal up to case to itself only. -/
theorem toLower_eq_iff_of_not_letter {c : Char} (hc : Text.isAsciiLetter c = false) (d : Char) :
    d.toLower = c.toLower ↔ d = c := by
  simp only [Text.isAsciiLetter, Bool.or_eq_false_iff] at hc
  rw [toLower_of_not_upper hc.1]
  constructor
  · intro heq
    cases hd : Text.isAsciiUpper d with
    | true =>
      have hlower : Text.isAsciiLower d.toLower = true :=
        forall_ascii (P := fun d => Text.isAsciiUpper d = true → Text.isAsciiLower d.toLower = true)
          (by decide +kernel) (toNat_lt_of_upper hd) hd
      rw [heq, hc.2] at hlower
      cases hlower
    | false => rwa [toLower_of_not_upper hd] at heq
  · rintro rfl
    exact toLower_of_not_upper hc.1

/-! ## Characters of a literal -/

/-- Whether a character counts as `c`. -/
def countsAs (ignoreCase : Bool) (c d : Char) : Bool := if ignoreCase then d.toLower = c.toLower else d = c

/-- The set that the pattern for a character of a literal matches. -/
def charSet (ignoreCase : Bool) (c : Char) : Pattern.CharSet :=
  if ignoreCase ∧ Text.isAsciiLetter c then .union (.union .none (.single c.toUpper)) (.single c.toLower)
  else .single c

theorem single_contains (c d : Char) : (Pattern.CharSet.single c).contains d = decide (d = c) := by
  rw [Bool.eq_iff_iff]
  simp only [Pattern.CharSet.single, Pattern.CharSet.contains, Bool.and_eq_true, decide_eq_true_eq]
  exact ⟨fun h => Char.le_antisymm h.2 h.1, fun h => h ▸ ⟨Char.le_refl _, Char.le_refl _⟩⟩

theorem charSet_contains {c : Char} (hascii : c.toNat < 128) (ignoreCase : Bool) (d : Char) :
    (charSet ignoreCase c).contains d = countsAs ignoreCase c d := by
  cases ignoreCase with
  | false => simp [charSet, countsAs, single_contains]
  | true =>
    cases hc : Text.isAsciiLetter c with
    | true =>
      simp [charSet, countsAs, hc, Pattern.CharSet.contains, single_contains, toLower_eq_iff_of_letter hascii hc]
    | false => simp [charSet, countsAs, hc, single_contains, toLower_eq_iff_of_not_letter hc]

/-- Splittable characters are ASCII ones. -/
theorem toNat_lt_of_isSplittable {c : Char} (hc : isSplittable c = true) : c.toNat < 128 := by
  have hle : ∀ e : Char, e.toNat < 128 → c ≤ e → c.toNat < 128 := fun e he hce =>
    Nat.lt_of_le_of_lt (UInt32.le_iff_toNat_le.1 (Char.le_def.1 hce)) he
  simp only [isSplittable, Text.isAsciiAlnum, Text.isAsciiLetter, Text.isAsciiUpper, Text.isAsciiLower,
    Text.isAsciiDigit, Bool.or_eq_true, Bool.and_eq_true, decide_eq_true_eq] at hc
  rcases hc with ((⟨-, h⟩ | ⟨-, h⟩) | ⟨-, h⟩) | h
  · exact hle _ (by decide) h
  · exact hle _ (by decide) h
  · exact hle _ (by decide) h
  · have hother : ∀ e ∈ ['\'', '"', '/', '(', ')', '&', '_', '.', ':', '=', ',', '+', '*', '-', '^', '\\'],
        e.toNat < 128 := by decide
    exact hother c h

theorem read_charSource {c : Char} (hc : isSplittable c = true) (ignoreCase : Bool) :
    Pattern.readRegex? (Pattern.anchored (charSource ignoreCase c)) = some (.one (charSet ignoreCase c)) := by
  refine forall_ascii (P := fun c => isSplittable c = true → ∀ ignoreCase : Bool,
    Pattern.readRegex? (Pattern.anchored (charSource ignoreCase c)) = some (.one (charSet ignoreCase c)))
    ?_ (toNat_lt_of_isSplittable hc) hc ignoreCase
  decide +kernel

/-- The pattern for a character of a literal. -/
theorem exists_charPattern {c : Char} (hc : isSplittable c = true) (ignoreCase : Bool) :
    ∃ p, Pattern.compile (String.ofList (charSource ignoreCase c)) = .ok p ∧
      p.regex = .one (charSet ignoreCase c) := by
  have hread := read_charSource hc ignoreCase
  rw [← String.toList_ofList (l := charSource ignoreCase c)] at hread
  exact ⟨_, Pattern.compile_source ⟨_, _, hread⟩, rfl⟩

/-- Such a pattern takes one character that counts as its own. -/
theorem isOneOf_pattern {p : Pattern} {ignoreCase : Bool} {c : Char} (hc : c.toNat < 128)
    (hp : p.regex = .one (charSet ignoreCase c)) :
    Scene.IsOneOf (countsAs ignoreCase c) (Symbol.pattern p).target := by
  intro answers input
  have hnone : ∀ input : List Char, (∀ d ∈ input.head?, countsAs ignoreCase c d = false) →
      p.match? input = none := fun input h =>
    Pattern.match?_one_eq_none hp fun d hd => (charSet_contains hc ignoreCase d).trans (h d hd)
  cases input with
  | nil => simp [Symbol.target, Target.plan, Plan.run, hnone [] (by simp)]
  | cons d rest =>
    cases hd : countsAs ignoreCase c d with
    | true =>
      have hmatch : p.match? (d :: rest) = some rest :=
        Pattern.match?_one hp ((charSet_contains hc ignoreCase d).trans hd)
      simp [Symbol.target, Target.plan, Plan.run, hmatch, hd]
    | false =>
      have hmiss := hnone (d :: rest) (by simpa using hd)
      simp [Symbol.target, Target.plan, Plan.run, hmiss, hd]

/-- Characters as patterns, one by one. -/
theorem exists_charPatterns (ignoreCase : Bool) {body : List Char} (hall : ∀ c ∈ body, isSplittable c = true) :
    ∃ symbols, (body.mapM fun c =>
        (Pattern.compile (String.ofList (charSource ignoreCase c))).map Symbol.pattern) = .ok symbols ∧
      List.Forall₂ (fun holds (x : Symbol) => x.asReference.isPlain = true ∧ Scene.IsOneOf holds x.target)
        (body.map (countsAs ignoreCase)) symbols := by
  induction body with
  | nil => exact ⟨[], rfl, .nil⟩
  | cons c body ih =>
    rw [List.forall_mem_cons] at hall
    obtain ⟨p, hcompile, hregex⟩ := exists_charPattern hall.1 ignoreCase
    obtain ⟨symbols, hsymbols, hone⟩ := ih hall.2
    refine ⟨.pattern p :: symbols, ?_, .cons ⟨rfl, ?_⟩ hone⟩
    · rw [List.mapM_cons, hsymbols, hcompile]
      rfl
    · exact isOneOf_pattern (toNat_lt_of_isSplittable hall.1) hregex

variable {text : List Char} {s : Scene}

/-- What stands between the quotation marks of a literal. -/
def inner (text : List Char) : List Char := text.tail.dropLast

/-- Whether a literal is taken apart where it has no marks. -/
def takenApart (text : List Char) : Bool := !(inner text).isEmpty && text.all isSplittable

theorem splitLiteral_eq (text : List Char) (ignoreCase : Bool) : splitLiteral (String.ofList text) ignoreCase =
    if takenApart text then (inner text).mapM fun c =>
      (Pattern.compile (String.ofList (charSource ignoreCase c))).map Symbol.pattern
    else .ok [.ofText (String.ofList text)] := by
  have hcondition : ((inner text).isEmpty || !text.all isSplittable) = !takenApart text := by
    rw [takenApart, Bool.not_and, Bool.not_not]
  rw [splitLiteral, String.toList_ofList]
  cases happart : takenApart text with
  | false => exact if_pos (by rw [← inner, hcondition, happart]; rfl)
  | true => exact if_neg (by rw [← inner, hcondition, happart]; decide)

/-- The value of a literal is what its escapes stand for. -/
theorem decode_eq_unescaped (htext : IsQuoted text) :
    (Literal.decode (String.ofList text)).toList = Literal.unescaped (inner text) := by
  obtain ⟨q, body, rfl, hq, -⟩ := htext
  rw [Literal.decode, String.toList_ofList, String.toList_ofList, Literal.unquoted_of_mark hq, inner,
    List.tail_cons, List.dropLast_concat]

/-- The symbols that a literal is taken apart into take up its characters as they are written. -/
theorem exists_split (htext : IsQuoted text) (hall : ∀ c ∈ text, isSplittable c = true) (ignoreCase : Bool)
    (hs : s.Plain) (answers : Answers) :
    ∃ symbols, splitLiteral (String.ofList text) ignoreCase = .ok symbols ∧
      ∀ input, s.restBehind? answers symbols input =
        Scene.restOfEach? ((inner text).map (countsAs ignoreCase)) input := by
  rw [splitLiteral, String.toList_ofList]
  by_cases hempty : inner text = []
  · have hcondition : (inner text).isEmpty || !text.all isSplittable := by rw [hempty]; rfl
    refine ⟨_, if_pos hcondition, fun input => ?_⟩
    rw [ofText_quoted htext, hs.restBehind?_literal, decode_eq_unescaped htext, hempty, Literal.unescaped]
    cases input with
    | nil => rfl
    | cons c cs => rfl
  · have hcondition : ¬ ((inner text).isEmpty || !text.all isSplittable) = true := by
      simp [hempty, List.all_eq_true.2 hall]
    have hinner : ∀ c ∈ inner text, isSplittable c = true := fun c hc =>
      hall c (List.mem_of_mem_tail (List.mem_of_mem_dropLast hc))
    obtain ⟨symbols, hsymbols, heach⟩ := exists_charPatterns ignoreCase hinner
    refine ⟨symbols, (if_neg hcondition).trans hsymbols, fun input => ?_⟩
    exact hs.restBehind?_each answers (by simpa using hempty) heach input

/-- Characters that count one by one as those of a value are equal to it up to case. -/
theorem restOfEach?_countsAs (value : List Char) (input rest : List Char) :
    Scene.restOfEach? (value.map (countsAs true)) input = some rest ↔
      ∃ front, input = front ++ rest ∧ front.map Char.toLower = value.map Char.toLower := by
  induction value generalizing input with
  | nil =>
    simp only [List.map_nil, Scene.restOfEach?, Option.some.injEq, List.map_eq_nil_iff]
    constructor
    · rintro rfl
      exact ⟨[], rfl, rfl⟩
    · rintro ⟨front, rfl, rfl⟩
      rfl
  | cons c value ih =>
    cases input with
    | nil =>
      simp only [List.map_cons, Scene.restOfEach?, reduceCtorEq, false_iff, not_exists, not_and]
      intro front hfront
      rw [(List.nil_eq_append_iff.1 hfront).1]
      simp
    | cons d input =>
      simp only [List.map_cons, Scene.restOfEach?, countsAs, if_true, decide_eq_true_eq]
      constructor
      · intro h
        split at h
        next hd =>
          obtain ⟨front, rfl, hfront⟩ := (ih input).1 h
          exact ⟨d :: front, rfl, by rw [List.map_cons, hd, hfront]⟩
        next => cases h
      · rintro ⟨front, hinput, hfront⟩
        cases front with
        | nil => cases hfront
        | cons e front =>
          cases hinput
          rw [List.map_cons, List.cons.injEq] at hfront
          rw [if_pos hfront.1]
          exact (ih _).2 ⟨front, rfl, hfront.2⟩

end Notation

namespace Literal

/-! ## Escapes -/

theorem unescaped_of_ne {c : Char} (hc : c ≠ '\\') (cs : List Char) : unescaped (c :: cs) = c :: unescaped cs := by
  rw [unescaped.eq_def]
  split
  all_goals simp_all

/-- Without a backslash before another character there is nothing to resolve. -/
theorem unescaped_of_not_mem {cs : List Char} (h : '\\' ∉ cs.dropLast) : unescaped cs = cs := by
  induction cs with
  | nil => simp [unescaped]
  | cons c cs ih =>
    cases cs with
    | nil =>
      by_cases hc : c = '\\'
      · subst hc
        simp [unescaped]
      · rw [unescaped_of_ne hc]
        simp [unescaped]
    | cons d ds =>
      rw [List.dropLast_cons_cons, List.mem_cons, not_or] at h
      rw [unescaped_of_ne (Ne.symm h.1), ih h.2]

theorem length_unescaped_le (cs : List Char) : (unescaped cs).length ≤ cs.length := by
  fun_induction unescaped cs
  all_goals simp only [List.length_cons, List.length_nil, List.length_drop] at *
  all_goals omega

/-- An escape is longer than what it stands for. -/
theorem length_unescaped_escape (d : Char) (cs : List Char) :
    (unescaped ('\\' :: d :: cs)).length < ('\\' :: d :: cs).length := by
  have hle := length_unescaped_le cs
  have htwo := length_unescaped_le (cs.drop 2)
  have hfour := length_unescaped_le (cs.drop 4)
  rw [List.length_drop] at htwo hfour
  rw [unescaped.eq_def]
  split
  all_goals simp_all
  all_goals grind

theorem length_unescaped_eq_iff (cs : List Char) :
    (unescaped cs).length = cs.length ↔ '\\' ∉ cs.dropLast := by
  constructor
  · intro heq hmem
    induction cs with
    | nil => cases hmem
    | cons c cs ih =>
      cases cs with
      | nil => cases hmem
      | cons d ds =>
        by_cases hc : c = '\\'
        · subst hc
          exact absurd heq (length_unescaped_escape d ds).ne
        · rw [List.dropLast_cons_cons, List.mem_cons] at hmem
          rw [unescaped_of_ne hc, List.length_cons, List.length_cons, Nat.add_right_cancel_iff] at heq
          exact ih heq (hmem.resolve_left (Ne.symm hc))
  · intro h
    rw [unescaped_of_not_mem h]

end Literal

namespace Notation

variable {text : List Char} {s : Scene}

/-- **What a literal taken apart matches.** Of a quoted literal whose characters can be taken apart, the symbols
match the characters between the marks as they are written, up to ASCII case where case is ignored; read as a
whole it matches its value. The readings match the same texts just when no backslash stands before another
character of the literal. -/
theorem split_agrees_iff (htext : IsQuoted text) (hall : ∀ c ∈ text, isSplittable c = true) (hs : s.Plain)
    (answers : Answers) :
    ∃ split folded, splitLiteral (String.ofList text) false = .ok split ∧
      splitLiteral (String.ofList text) true = .ok folded ∧
      (∀ input, s.restBehind? answers split input = (inner text).isPrefixOf? input) ∧
      (∀ input rest, s.restBehind? answers folded input = some rest ↔
        ∃ front, input = front ++ rest ∧ front.map Char.toLower = (inner text).map Char.toLower) ∧
      (∀ input, s.restBehind? answers [.ofText (String.ofList text)] input =
        (Literal.decode (String.ofList text)).toList.isPrefixOf? input) ∧
      ((∀ input, s.restBehind? answers split input = s.restBehind? answers [.ofText (String.ofList text)] input) ↔
        '\\' ∉ (inner text).dropLast) ∧
      ((∀ input rest, s.restBehind? answers folded input = some rest ↔ ∃ front, input = front ++ rest ∧
          front.map Char.toLower = (Literal.decode (String.ofList text)).toList.map Char.toLower) ↔
        '\\' ∉ (inner text).dropLast) := by
  obtain ⟨split, hsplit, hexact⟩ := exists_split htext hall false hs answers
  obtain ⟨folded, hfolded, hcase⟩ := exists_split htext hall true hs answers
  have hwritten : ∀ input, s.restBehind? answers split input = (inner text).isPrefixOf? input := fun input => by
    rw [hexact, ← Scene.restOfEach?_eq_isPrefixOf?]
    rfl
  have hfold : ∀ input rest, s.restBehind? answers folded input = some rest ↔
      ∃ front, input = front ++ rest ∧ front.map Char.toLower = (inner text).map Char.toLower := fun input rest => by
    rw [hcase, restOfEach?_countsAs]
  have hvalue : ∀ input, s.restBehind? answers [.ofText (String.ofList text)] input =
      (Literal.decode (String.ofList text)).toList.isPrefixOf? input := fun input => by
    rw [ofText_quoted htext, hs.restBehind?_literal]
  refine ⟨split, folded, hsplit, hfolded, hwritten, hfold, hvalue, ?_, ?_⟩
  · rw [← Literal.length_unescaped_eq_iff]
    constructor
    · -- What the symbols match, the value matches too, and then it is no shorter.
      intro h
      have hself := h (inner text)
      rw [hwritten, hvalue, decode_eq_unescaped htext] at hself
      have hmatch : (inner text).isPrefixOf? (inner text) = some [] :=
        List.isPrefixOf?_eq_some_iff_append_eq.2 (List.append_nil _)
      have happend := List.append_eq_of_isPrefixOf?_eq_some (hself.symm.trans hmatch)
      rw [List.append_nil] at happend
      rw [happend]
    · intro h input
      have hnone := (Literal.length_unescaped_eq_iff _).1 h
      rw [hwritten, hvalue, decode_eq_unescaped htext, Literal.unescaped_of_not_mem hnone]
  · rw [← Literal.length_unescaped_eq_iff]
    constructor
    · intro h
      obtain ⟨front, hfront, hlower⟩ := (h (inner text) []).1 ((hfold _ _).2 ⟨_, (List.append_nil _).symm, rfl⟩)
      rw [List.append_nil] at hfront
      have hlength := congrArg List.length hlower
      rw [List.length_map, List.length_map, ← hfront, decode_eq_unescaped htext] at hlength
      exact hlength.symm
    · intro h input rest
      have hnone := (Literal.length_unescaped_eq_iff _).1 h
      rw [hfold, decode_eq_unescaped htext, Literal.unescaped_of_not_mem hnone]

/-- A place where symbols stand one behind another. -/
def sequenceScene : Scene := ⟨rule "Sequence" [], "WS", 0⟩

theorem plain_sequenceScene : sequenceScene.Plain := ⟨⟨rfl, rfl⟩, rfl⟩

/-- The readings of a plain word agree. -/
theorem word_split_agrees : ∃ split folded, splitLiteral "\"ab\"" false = .ok split ∧
    splitLiteral "\"ab\"" true = .ok folded ∧
    (∀ input, sequenceScene.restBehind? (fun _ _ => ⟨none, []⟩) split input = ['a', 'b'].isPrefixOf? input) ∧
    (∀ input rest, sequenceScene.restBehind? (fun _ _ => ⟨none, []⟩) folded input = some rest ↔
      ∃ front, input = front ++ rest ∧ front.map Char.toLower = ['a', 'b']) ∧
    ∀ input, sequenceScene.restBehind? (fun _ _ => ⟨none, []⟩) split input =
      sequenceScene.restBehind? (fun _ _ => ⟨none, []⟩) [.ofText "\"ab\""] input := by
  have hquoted : IsQuoted ['"', 'a', 'b', '"'] := ⟨'"', ['a', 'b'], rfl, rfl, by decide⟩
  obtain ⟨split, folded, hsplit, hfolded, hwritten, hfold, -, hagree, -⟩ :=
    split_agrees_iff hquoted (by decide) plain_sequenceScene fun _ _ => ⟨none, []⟩
  exact ⟨split, folded, hsplit, hfolded, hwritten, hfold, hagree.2 (by decide)⟩

/-- Taken apart, an escaped line feed asks for a backslash. -/
theorem newline_split_differs : ∃ split, splitLiteral "\"\\n\"" false = .ok split ∧
    sequenceScene.restBehind? (fun _ _ => ⟨none, []⟩) split ['\n'] = none ∧
    (Literal.decode "\"\\n\"").toList.isPrefixOf? ['\n'] = some [] := by
  have hquoted : IsQuoted ['"', '\\', 'n', '"'] := ⟨'"', ['\\', 'n'], rfl, rfl, by decide⟩
  obtain ⟨split, hsplit, hmatch⟩ := exists_split hquoted (by decide) false plain_sequenceScene fun _ _ => ⟨none, []⟩
  refine ⟨split, hsplit, hmatch ['\n'], ?_⟩
  rw [Literal.decode]
  cbv

end Notation

end Grammarian
