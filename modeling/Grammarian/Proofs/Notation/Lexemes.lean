import Grammarian.Notation.Attributed
import Grammarian.Proofs.Notation.Singles

/-!
# Reading lexemes

How the lexical rules of the notations read names, literals, character codes and classes, marks, white space
and line ends. What a lexeme is, is said by a condition on its characters; where it ends, by the character
that stands behind it.
-/

namespace Grammarian.Notation

open Pattern

/-- A property of the characters of a list is decided along the list, not along all characters there are. -/
instance decidableForallMemChars {p : Char → Prop} [DecidablePred p] (cs : List Char) :
    Decidable (∀ c ∈ cs, p c) :=
  List.decidableBAll p cs

/-- The kinds of nodes that are told apart by their text. -/
def isToken (kind : String) : Bool :=
  kind ∈ ["NCName", "StringLiteral", "CharCode", "CharClass", "PrimaryDecoration", "PrimaryPreDecoration",
    "AttributeValue"]

/-! ## The characters of lexemes -/

def isNameChar (c : Char) : Bool := Text.isAsciiAlnum c || c = '_'

def isBlank (c : Char) : Bool := c = '\t' || c = ' '

/-- White space between the lines of a grammar. -/
def isSpacing (c : Char) : Bool := isBlank c || c = '\n'

/-- The characters that stand for themselves in a character class. -/
def isClassChar (c : Char) : Bool :=
  c = '\t' || c = '\n' || c = '\r' || (' ' ≤ c && c ≤ '\\') || ('^' ≤ c && c ≤ '\uD7FF')
    || ('\uE000' ≤ c && c ≤ '\uFFFD')

/-! ## The lexical rules -/

def blankSets : List (Pattern × CharSet) :=
  [(.ofSource "\\x09", .single '\t'), (.ofSource "\\x20", .single ' ')]

def classCharSets : List (Pattern × CharSet) :=
  [(.ofSource "\\x09", .single '\t'), (.ofSource "\\x0A", .single '\n'), (.ofSource "\\x0D", .single '\r'),
    (.ofSource "[\\x20-\\x5c]", .union .none (.range ' ' '\\')),
    (.ofSource "[\\x5e-\\uD7FF]", .union .none (.range '^' '\uD7FF')),
    (.ofSource "[\\uE000-\\uFFFD]", .union .none (.range '\uE000' '\uFFFD'))]

/-- A table with the lexical rules of the notations. -/
structure Lexical (t : Table) : Prop where
  name : t.declares "NCName" false [[.one (.pattern (.ofSource "[a-zA-Z][a-zA-Z_0-9]*"))]] = true
  doubleQuoted : t.declares "%RULE_DoubleQuoted" true [[.one (.pattern (.ofSource "[^\"]+"))]] = true
  singleQuoted : t.declares "%RULE_SingleQuoted" true [[.one (.pattern (.ofSource "[^']+"))]] = true
  code : t.declares "CharCode" false
    [[.one (.literal ['#', 'x']), .one (.pattern (.ofSource "[0-9a-zA-Z]+"))]] = true
  charClass : t.declares "CharClass" false
    [[.one (.literal ['[']), .optional (.literal ['^']), .plus (.rule "%RULE_CharClass_1"),
      .one (.literal [']'])]] = true
  classItem : t.declares "%RULE_CharClass_1" true
    [[.one (.rule "CharCodeRange")], [.one (.rule "CharRange")], [.one (.rule "CharCode")],
      [.one (.rule "RULE_Char")]] = true
  classChar : t.declares "RULE_Char" false (classCharSets.map onePattern) = true
  charRange : t.declares "CharRange" false
    [[.one (.rule "RULE_Char"), .one (.literal ['-']), .one (.rule "RULE_Char")]] = true
  codeRange : t.declares "CharCodeRange" false
    [[.one (.rule "CharCode"), .one (.literal ['-']), .one (.rule "CharCode")]] = true
  whitespace : t.declares "RULE_WHITESPACE" false
    [[.star (.rule "%RULE_WHITESPACE_CHAR")], [.one (.rule "Comment"), .star (.rule "RULE_WHITESPACE")]] = true
  blank : t.declares "%RULE_WHITESPACE_CHAR" true (blankSets.map onePattern) = true
  spacing : t.declares "RULE_S" false
    [[.one (.rule "RULE_WHITESPACE"), .star (.rule "RULE_S")],
      [.one (.rule "RULE_EOL"), .star (.rule "RULE_S")]] = true
  lineEnd : t.declares "RULE_EOL" false
    [[.one (.pattern (.ofSource "\\x0D")), .one (.pattern (.ofSource "\\x0A"))],
      [.one (.pattern (.ofSource "\\x0A"))], [.one (.pattern (.ofSource "\\x0D"))]] = true
  /-- what a comment begins with -/
  comment : ∃ more, t.declares "Comment" false [.one (.literal ['/', '*']) :: more] = true
  endOfProduction : t.declares "%EndOfProduction" true
    [[.plus (.rule "RULE_EOL")], [.one .endOfInput]] = true

theorem blankSets_regex : ∀ q ∈ blankSets, q.1.regex = .one q.2 := by
  simp only [blankSets, List.forall_mem_cons]
  refine ⟨?_, ?_, by simp⟩
  · exact regex_ofSource (by decide +kernel)
  · exact regex_ofSource (by decide +kernel)

theorem classCharSets_regex : ∀ q ∈ classCharSets, q.1.regex = .one q.2 := by
  simp only [classCharSets, List.forall_mem_cons]
  refine ⟨?_, ?_, ?_, ?_, ?_, ?_, by simp⟩
  · exact regex_ofSource (by decide +kernel)
  · exact regex_ofSource (by decide +kernel)
  · exact regex_ofSource (by decide +kernel)
  · exact regex_ofSource (by decide +kernel)
  · exact regex_ofSource (by decide +kernel)
  · exact regex_ofSource (by decide +kernel)

/-- The sets for blanks are those of the four characters. -/
theorem blankSets_any (c : Char) : blankSets.any (·.2.contains c) = isBlank c := by
  simp [blankSets, contains_single, isBlank]

/-- The sets for the characters of a class are those of `isClassChar`. -/
theorem classCharSets_any (c : Char) : classCharSets.any (·.2.contains c) = isClassChar c := by
  simp [classCharSets, contains_single, CharSet.contains, isClassChar, Bool.or_assoc]

/-- The characters that white space goes on with, a comment being one. -/
def opensBlank (c : Char) : Bool := isBlank c || c = '/'

def opensSpacing (c : Char) : Bool := isSpacing c || c = '\r' || c = '/'

section Lexemes

variable {t : Table} {text rest input : List Char}

/-! ## Names and codes -/

/-- A letter, and letters, digits and underscores behind it. -/
def IsName (text : List Char) : Prop :=
  ∃ c cs, text = c :: cs ∧ Text.isAsciiLetter c = true ∧ ∀ d ∈ cs, isNameChar d = true

/-- The sets of the pattern for names. -/
def letterSet : CharSet := .union (.union .none (.range 'a' 'z')) (.range 'A' 'Z')

def nameCharSet : CharSet := .union (.union letterSet (.single '_')) (.range '0' '9')

def codeCharSet : CharSet := .union (.union (.union .none (.range '0' '9')) (.range 'a' 'z')) (.range 'A' 'Z')

/-- The pattern of a name is a letter and a run of other characters. -/
theorem name_regex : (Pattern.ofSource "[a-zA-Z][a-zA-Z_0-9]*").regex = .word letterSet nameCharSet :=
  regex_ofSource (by decide +kernel)

/-- The pattern behind `#x` is a run. -/
theorem codeChar_regex : (Pattern.ofSource "[0-9a-zA-Z]+").regex = .run codeCharSet :=
  regex_ofSource (by decide +kernel)

theorem letterSet_contains (c : Char) : letterSet.contains c = Text.isAsciiLetter c := by
  rw [Text.isAsciiLetter, Bool.or_comm]
  simp [letterSet, CharSet.contains, Text.isAsciiUpper, Text.isAsciiLower]

theorem nameCharSet_contains (c : Char) : nameCharSet.contains c = isNameChar c := by
  simp only [nameCharSet, CharSet.contains, letterSet_contains, contains_single, isNameChar,
    Text.isAsciiAlnum, Text.isAsciiDigit]
  rw [Bool.or_right_comm]

theorem codeCharSet_contains (c : Char) : codeCharSet.contains c = Text.isAsciiAlnum c := by
  simp only [codeCharSet, CharSet.contains, Text.isAsciiAlnum, Text.isAsciiLetter, Text.isAsciiUpper,
    Text.isAsciiLower, Text.isAsciiDigit, Bool.false_or]
  rw [Bool.or_assoc, Bool.or_comm, Bool.or_comm (decide ('a' ≤ c) && _)]

/-- A name is read up to the first character that can be none of its. -/
theorem Lexical.reads_name (hl : Lexical t) (htext : IsName text) (hrest : Clear isNameChar rest) :
    t.Reads isToken "NCName" text rest [.token "NCName" text] := by
  obtain ⟨c, cs, rfl, hc, hcs⟩ := htext
  have hmatch : (Pattern.ofSource "[a-zA-Z][a-zA-Z_0-9]*").match? (c :: cs ++ rest) = some rest := by
    refine match?_word name_regex ?_ ?_ ?_
    · rw [letterSet_contains]
      exact hc
    · intro d hd
      rw [nameCharSet_contains]
      exact hcs d hd
    · intro d hd
      rw [nameCharSet_contains]
      exact hrest d hd
  have hread : (Step.one (.pattern (.ofSource "[a-zA-Z][a-zA-Z_0-9]*"))).Reads t isToken (c :: cs) rest [] :=
    Step.reads_one (Target.reads_pattern hmatch)
  exact Table.reads_token hl.name (by decide) (by decide) hread.alone.first

/-- No name begins without a letter. -/
theorem Lexical.name_none (hl : Lexical t) (hinput : Clear Text.isAsciiLetter input) :
    (Target.rule "NCName").Answers t input none := by
  refine Table.answers_rule_none hl.name ?_
  simp only [List.forall_mem_singleton]
  refine Step.rejected_of_none (Target.answers_pattern_none (match?_word_eq_none name_regex ?_))
  intro c hc
  rw [letterSet_contains]
  exact hinput c hc

/-- `#x`, and letters and digits behind it. -/
def IsCode (text : List Char) : Prop :=
  ∃ cs, text = '#' :: 'x' :: cs ∧ cs ≠ [] ∧ ∀ d ∈ cs, Text.isAsciiAlnum d = true

theorem readFirst_code {kinds : String → Bool} (htext : IsCode text) (hrest : Clear Text.isAsciiAlnum rest) :
    Step.ReadFirst t kinds [[.one (.literal ['#', 'x']), .one (.pattern (.ofSource "[0-9a-zA-Z]+"))]] text rest [] := by
  obtain ⟨cs, rfl, hne, hcs⟩ := htext
  have hmatch : (Pattern.ofSource "[0-9a-zA-Z]+").match? (cs ++ rest) = some rest := by
    refine match?_run codeChar_regex hne ?_ ?_
    · intro d hd
      rw [codeCharSet_contains]
      exact hcs d hd
    · intro d hd
      rw [codeCharSet_contains]
      exact hrest d hd
  have hmark : (Target.literal ['#', 'x']).Reads t kinds ['#', 'x'] (cs ++ rest) [] :=
    Target.reads_literal (by simp) _
  have hdigits : (Step.one (.pattern (.ofSource "[0-9a-zA-Z]+"))).Reads t kinds cs rest [] :=
    Step.reads_one (Target.reads_pattern hmatch)
  exact ((Step.reads_one hmark).cons hdigits.alone.skimAll).first

/-- A code is read up to the first character that is neither letter nor digit. -/
theorem Lexical.reads_code (hl : Lexical t) (htext : IsCode text) (hrest : Clear Text.isAsciiAlnum rest) :
    t.Reads isToken "CharCode" text rest [.token "CharCode" text] :=
  Table.reads_token hl.code (by decide) (by decide) (readFirst_code htext hrest)

/-- No code begins with another character than `#`, nor with anything but `#x` and a letter or digit. -/
theorem Lexical.code_none (hl : Lexical t)
    (hinput : ∀ cs, input = '#' :: 'x' :: cs → Clear Text.isAsciiAlnum cs) :
    (Target.rule "CharCode").Answers t input none := by
  refine Table.answers_rule_none hl.code ?_
  simp only [List.forall_mem_singleton]
  by_cases hmark : ['#', 'x'] <+: input
  · obtain ⟨cs, rfl⟩ := hmark
    have hread : (Target.literal ['#', 'x']).Reads t isToken ['#', 'x'] cs [] :=
      Target.reads_literal (by simp) _
    refine Or.inl ((Step.reads_one hread).skims.failsAt ?_)
    refine .here (Step.fails_one (Target.answers_pattern_none (match?_run_eq_none codeChar_regex ?_)))
    intro c hc
    rw [codeCharSet_contains]
    exact hinput cs rfl c hc
  · exact Step.rejected_of_none (Target.answers_literal_eq_none hmark)

theorem Lexical.code_none_of_clear (hl : Lexical t) (hinput : Clear (· = '#') input) :
    (Target.rule "CharCode").Answers t input none := by
  refine hl.code_none ?_
  rintro cs rfl
  simp at hinput

/-- Where a code begins, the longest one is read. -/
theorem Lexical.reads_code_or_none (hl : Lexical t) (input : List Char) :
    (∃ text rest, input = text ++ rest ∧ IsCode text ∧ Clear Text.isAsciiAlnum rest ∧
      t.Reads isToken "CharCode" text rest [.token "CharCode" text]) ∨
      (Target.rule "CharCode").Answers t input none := by
  by_cases hnone : ∀ cs, input = '#' :: 'x' :: cs → Clear Text.isAsciiAlnum cs
  · exact Or.inr (hl.code_none hnone)
  · left
    push Not at hnone
    obtain ⟨cs, rfl, hcs⟩ := hnone
    have htext : IsCode ('#' :: 'x' :: cs.takeWhile Text.isAsciiAlnum) := by
      refine ⟨_, rfl, fun hempty => hcs ?_, List.all_eq_true.1 List.all_takeWhile⟩
      have hdrop := List.takeWhile_append_dropWhile (p := Text.isAsciiAlnum) (l := cs)
      rw [hempty, List.nil_append] at hdrop
      rw [← hdrop]
      exact clear_dropWhile _ cs
    have hrest := clear_dropWhile Text.isAsciiAlnum cs
    refine ⟨_, _, ?_, htext, hrest, hl.reads_code htext hrest⟩
    rw [List.cons_append, List.cons_append, List.takeWhile_append_dropWhile]

/-! ## Character classes -/

theorem isClassChar_of_alnum {c : Char} (h : Text.isAsciiAlnum c = true) : isClassChar c = true := by
  simp only [Text.isAsciiAlnum, Text.isAsciiLetter, Text.isAsciiUpper, Text.isAsciiLower, Text.isAsciiDigit,
    Bool.or_eq_true, Bool.and_eq_true, decide_eq_true_eq] at h
  simp only [isClassChar, Bool.or_eq_true, Bool.and_eq_true, decide_eq_true_eq, Char.le_def] at h ⊢
  grind

/-- The characters of a code may stand in a class. -/
theorem IsCode.isClassChar (h : IsCode text) : ∀ d ∈ text, isClassChar d = true := by
  obtain ⟨cs, rfl, -, hcs⟩ := h
  simp only [List.forall_mem_cons]
  exact ⟨by decide, by decide, fun d hd => isClassChar_of_alnum (hcs d hd)⟩

/-- A character of a class is read alone. -/
theorem Lexical.reads_classChar (hl : Lexical t) {c : Char} (hc : isClassChar c = true) (rest : List Char) :
    t.Reads isToken "RULE_Char" [c] rest [.branch "RULE_Char" []] := by
  refine Table.reads_branch hl.classChar (by decide) (by decide) ?_
  refine readFirst_onePattern classCharSets_regex ?_ rest
  rw [classCharSets_any]
  exact hc

theorem Lexical.classChar_none (hl : Lexical t) (hinput : Clear Notation.isClassChar input) :
    (Target.rule "RULE_Char").Answers t input none := by
  refine Table.answers_rule_none hl.classChar (rejected_onePattern classCharSets_regex ?_)
  intro c hc
  rw [classCharSets_any]
  exact hinput c hc

/-- Some front of the input is read; it consists of characters of classes. -/
def ReadsFront (t : Table) (name : String) (input : List Char) : Prop :=
  ∃ piece back ns, input = piece ++ back ∧ piece ≠ [] ∧ (∀ d ∈ piece, Notation.isClassChar d = true) ∧
    t.Reads isToken name piece back ns

/-- Either a code stands in front or the rule for codes does not match. -/
theorem Lexical.code_front_or_none (hl : Lexical t) (input : List Char) :
    ReadsFront t "CharCode" input ∨ (Target.rule "CharCode").Answers t input none := by
  refine (hl.reads_code_or_none input).imp_left ?_
  rintro ⟨piece, back, rfl, hcode, -, hread⟩
  refine ⟨piece, back, _, rfl, ?_, hcode.isClassChar, hread⟩
  obtain ⟨cs, rfl, -⟩ := hcode
  exact List.cons_ne_nil _ _

theorem Lexical.classChar_front_or_none (hl : Lexical t) (input : List Char) :
    ReadsFront t "RULE_Char" input ∨ (Target.rule "RULE_Char").Answers t input none := by
  by_cases hclear : Clear Notation.isClassChar input
  · exact Or.inr (hl.classChar_none hclear)
  · left
    cases input with
    | nil => exact absurd (clear_nil _) hclear
    | cons c cs =>
      have hc : Notation.isClassChar c = true := by simpa using hclear
      exact ⟨[c], cs, _, rfl, List.cons_ne_nil _ _, by simpa using hc, hl.reads_classChar hc cs⟩

/-- From one item to another. -/
def spanSteps (item : String) : List Step :=
  [.one (.rule item), .one (.literal ['-']), .one (.rule item)]

/-- From one item to another, with a dash between them. -/
theorem readFirst_span {kinds : String → Bool} {item : String} {low high : List Char} {ns ms : List Node}
    (hlow : t.Reads kinds item low ('-' :: high ++ rest) ns) (hhigh : t.Reads kinds item high rest ms) :
    Step.ReadFirst t kinds [spanSteps item] (low ++ '-' :: high) rest (ns ++ ms) := by
  have hdash : (Step.one (.literal ['-'])).Reads t kinds ['-'] (high ++ rest) [] :=
    Step.reads_one (Target.reads_literal (by simp) _)
  have hlast := (Step.reads_one (Target.reads_rule hhigh)).alone.skimAll
  exact ((Step.reads_one (Target.reads_rule hlow)).cons (hdash.cons hlast).skimAll).first

/-- There is no span where no dash with another item follows the first one. -/
theorem rejected_span {kinds : String → Bool} {item : String} {low : List Char} {ns : List Node}
    (hlow : t.Reads kinds item low rest ns)
    (hnone : ∀ more, rest = '-' :: more → (Target.rule item).Answers t more none) :
    Step.Rejected t (spanSteps item) (low ++ rest) := by
  have hskims := (Step.reads_one (Target.reads_rule hlow)).skims
  by_cases hdash : ['-'] <+: rest
  · obtain ⟨more, rfl⟩ := hdash
    have hdash : (Step.one (.literal ['-'])).Reads t kinds ['-'] more [] :=
      Step.reads_one (Target.reads_literal (by simp) more)
    refine Or.inl (hskims.failsAt (hdash.skims.failsAt ?_))
    exact .here (Step.fails_one (hnone more rfl))
  · refine Or.inl (hskims.failsAt ?_)
    exact .here (Step.fails_one (Target.answers_literal_eq_none hdash))

/-- Where items are read or not there, so are their spans. -/
theorem readsFront_span {name item : String} (hrule : t.declares name false [spanSteps item] = true)
    (htoken : isToken name = false) (hkeeps : Draft.keeps false name = true)
    (hitem : ∀ input, ReadsFront t item input ∨ (Target.rule item).Answers t input none)
    (input : List Char) : ReadsFront t name input ∨ (Target.rule name).Answers t input none := by
  have hnone : Step.Rejected t (spanSteps item) input → (Target.rule name).Answers t input none := by
    intro hrejected
    exact Table.answers_rule_none hrule (by simpa using hrejected)
  rcases hitem input with ⟨piece, back, ns, rfl, hne, hpiece, hread⟩ | hfirst
  · by_cases hback : ∃ more, back = '-' :: more ∧ ReadsFront t item more
    · obtain ⟨more, rfl, piece', back', ms, rfl, -, hpiece', hread'⟩ := hback
      refine .inl ⟨piece ++ '-' :: piece', back', _, by simp, by simp, ?_,
        Table.reads_branch hrule htoken hkeeps (readFirst_span hread hread')⟩
      exact List.forall_mem_append.2 ⟨hpiece, List.forall_mem_cons.2 ⟨by decide, hpiece'⟩⟩
    · refine .inr (hnone (rejected_span hread fun more hmore => ?_))
      exact (hitem more).resolve_left fun hfront => hback ⟨more, hmore, hfront⟩
  · exact Or.inr (hnone (Step.rejected_of_none hfirst))

/-- In front of a character of classes stands an item of classes. -/
theorem Lexical.reads_classItem (hl : Lexical t) {c : Char} (hc : Notation.isClassChar c = true)
    (cs : List Char) : ReadsFront t "%RULE_CharClass_1" (c :: cs) := by
  have hcodes := readsFront_span hl.codeRange (by decide) (by decide) hl.code_front_or_none (c :: cs)
  have hranges := readsFront_span hl.charRange (by decide) (by decide) hl.classChar_front_or_none (c :: cs)
  have hcode := hl.code_front_or_none (c :: cs)
  have hchar := hl.reads_classChar hc cs
  have hfound : ∀ {name : String} {piece back : List Char} {ns : List Node} {alts : List (List Step)},
      t.Reads isToken name piece back ns → Step.ReadFirst t isToken ([.one (.rule name)] :: alts) piece back ns :=
    fun hread => (Step.reads_one (Target.reads_rule hread)).alone.first
  rcases hcodes with ⟨piece, back, ns, hinput, hne, hpiece, hread⟩ | hcodes
  · exact ⟨piece, back, ns, hinput, hne, hpiece, Table.reads_fragment hl.classItem (hfound hread)⟩
  rcases hranges with ⟨piece, back, ns, hinput, hne, hpiece, hread⟩ | hranges
  · refine ⟨piece, back, ns, hinput, hne, hpiece, Table.reads_fragment hl.classItem ?_⟩
    rw [hinput] at hcodes
    exact .next (Step.rejected_of_none hcodes) (hfound hread)
  rcases hcode with ⟨piece, back, ns, hinput, hne, hpiece, hread⟩ | hcode
  · refine ⟨piece, back, ns, hinput, hne, hpiece, Table.reads_fragment hl.classItem ?_⟩
    rw [hinput] at hcodes hranges
    exact .next (Step.rejected_of_none hcodes) (.next (Step.rejected_of_none hranges) (hfound hread))
  · refine ⟨[c], cs, [.branch "RULE_Char" []], rfl, List.cons_ne_nil _ _, by simpa using hc,
      Table.reads_fragment hl.classItem ?_⟩
    exact .next (Step.rejected_of_none hcodes) (.next (Step.rejected_of_none hranges)
      (.next (Step.rejected_of_none hcode) (hfound hchar)))

/-- A class goes on only with what may stand in it. -/
theorem Lexical.classItem_none (hl : Lexical t) (hinput : Clear Notation.isClassChar input) :
    (Target.rule "%RULE_CharClass_1").Answers t input none := by
  have hcode : (Target.rule "CharCode").Answers t input none := by
    refine hl.code_none_of_clear (hinput.imp fun c hc => ?_)
    rw [of_decide_eq_true hc]
    decide
  have hchar := hl.classChar_none hinput
  refine Table.answers_rule_none hl.classItem ?_
  simp only [List.forall_mem_cons]
  refine ⟨?_, ?_, Step.rejected_of_none hcode, Step.rejected_of_none hchar, by simp⟩
  · refine Step.rejected_of_none (Table.answers_rule_none hl.codeRange ?_)
    simpa using Step.rejected_of_none hcode
  · refine Step.rejected_of_none (Table.answers_rule_none hl.charRange ?_)
    simpa using Step.rejected_of_none hchar

/-- A front of such characters ends within the longest one. -/
theorem exists_split_of_clear {p : Char → Bool} {piece back body : List Char}
    (hpiece : ∀ d ∈ piece, p d = true) (hrest : Clear p rest) (h : body ++ rest = piece ++ back) :
    ∃ more, body = piece ++ more ∧ back = more ++ rest := by
  rcases List.append_eq_append_iff.1 h with ⟨past, rfl, rfl⟩ | ⟨more, rfl, rfl⟩
  · cases past with
    | nil => exact ⟨[], by simp, by simp⟩
    | cons c cs =>
      have hc : p c = true := hpiece c (by simp)
      rw [List.cons_append, clear_cons, hc] at hrest
      cases hrest
  · exact ⟨more, rfl, rfl⟩

/-- The items of a class, one after another. The induction is on the characters that are left. -/
theorem Lexical.reads_classItems (hl : Lexical t) {body : List Char} (hne : body ≠ [])
    (hbody : ∀ d ∈ body, Notation.isClassChar d = true) (hrest : Clear Notation.isClassChar rest) :
    ∃ ns, (Target.rule "%RULE_CharClass_1").ReadsRounds t isToken body rest ns := by
  induction hlength : body.length using Nat.strongRecOn generalizing body with
  | ind n ih =>
    obtain ⟨c, cs, rfl⟩ := List.exists_cons_of_ne_nil hne
    obtain ⟨piece, back, ns, hinput, hpiece, hchars, hread⟩ :=
      hl.reads_classItem (hbody c List.mem_cons_self) (cs ++ rest)
    rw [← List.cons_append] at hinput
    obtain ⟨more, hsplit, rfl⟩ := exists_split_of_clear hchars hrest hinput
    have htarget := Target.reads_rule hread
    rw [hsplit] at hlength hbody ⊢
    by_cases hmore : more = []
    · subst hmore
      rw [List.append_nil]
      exact ⟨ns, Target.readsRounds_last htarget (Or.inr (hl.classItem_none hrest))⟩
    · have hlt : more.length < n := by
        have hpos := List.length_pos_iff.2 hpiece
        rw [← hlength, List.length_append]
        omega
      obtain ⟨ms, hrounds⟩ := ih _ hlt hmore (fun d hd => hbody d (List.mem_append_right _ hd)) rfl
      exact ⟨ns ++ ms, Target.readsRounds_more htarget hpiece (by simp [hmore]) hrounds⟩

/-- Brackets around characters, with or without a caret before them. -/
def IsClass (text : List Char) : Prop :=
  ∃ caret body, text = '[' :: (caret ++ (body ++ [']'])) ∧
    (caret = ['^'] ∨ caret = [] ∧ Clear (· = '^') body) ∧ body ≠ [] ∧
    ∀ d ∈ body, Notation.isClassChar d = true

/-- The caret at the front of a class is taken where it stands. -/
theorem skims_caret {kinds : String → Bool} {caret : List Char}
    (hcaret : caret = ['^'] ∨ caret = [] ∧ Clear (· = '^') rest) :
    (Step.optional (.literal ['^'])).Skims t kinds caret rest [] := by
  rcases hcaret with rfl | ⟨rfl, hclear⟩
  · exact (Step.reads_optional (Target.reads_literal (by simp) _)).skims
  · exact Step.skims_optional_of_none (char_none hclear)

/-- Brackets around what the items are read of. -/
theorem readFirst_class {kinds : String → Bool} {caret body : List Char} {ns : List Node}
    (hcaret : caret = ['^'] ∨ caret = [] ∧ Clear (· = '^') body)
    (hitems : (Target.rule "%RULE_CharClass_1").ReadsRounds t kinds body ([']'] ++ rest) ns) :
    Step.ReadFirst t kinds [[.one (.literal ['[']), .optional (.literal ['^']), .plus (.rule "%RULE_CharClass_1"),
      .one (.literal [']'])]] ('[' :: (caret ++ (body ++ [']']))) rest ns := by
  have hopen : (Step.one (.literal ['['])).Reads t kinds ['['] (caret ++ (body ++ [']']) ++ rest) [] :=
    Step.reads_one (Target.reads_literal (by simp) _)
  have hmaybe : (Step.optional (.literal ['^'])).Skims t kinds caret (body ++ ([']'] ++ rest)) [] :=
    skims_caret (hcaret.imp_right (And.imp_right fun hclear => hclear.append (clear_cons.2 (by decide))))
  rw [← List.append_assoc] at hmaybe
  have hclose : (Step.one (.literal [']'])).Reads t kinds [']'] rest [] :=
    Step.reads_one (Target.reads_literal (by simp) rest)
  have hall := hopen.cons (hmaybe.cons ((Step.reads_plus hitems).skims.cons hclose.alone)).skimAll
  rw [List.append_nil, List.nil_append, List.nil_append] at hall
  exact hall.first

/-- A class is read up to its closing bracket, whatever follows. -/
theorem Lexical.reads_class (hl : Lexical t) (htext : IsClass text) (rest : List Char) :
    t.Reads isToken "CharClass" text rest [.token "CharClass" text] := by
  obtain ⟨caret, body, rfl, hcaret, hne, hbody⟩ := htext
  have hbracket : Clear Notation.isClassChar ([']'] ++ rest) := clear_cons.2 (by decide)
  obtain ⟨ns, hitems⟩ := hl.reads_classItems hne hbody hbracket
  exact Table.reads_token hl.charClass (by decide) (by decide) (readFirst_class hcaret hitems)

theorem Lexical.class_none (hl : Lexical t) (hinput : Clear (· = '[') input) :
    (Target.rule "CharClass").Answers t input none := by
  refine Table.answers_rule_none hl.charClass ?_
  simp only [List.forall_mem_singleton]
  exact Step.rejected_of_none (Target.answers_literal_none fun d hd => of_decide_eq_false (hinput d hd))

/-! ## White space -/

/-- The rule for a blank reads blanks and nothing else. -/
theorem Lexical.readsChar_blank (hl : Lexical t) :
    ReadsChar t isToken (.rule "%RULE_WHITESPACE_CHAR") isBlank where
  reads {c} hc rest := by
    refine Target.reads_rule (Table.reads_fragment hl.blank (readFirst_onePattern blankSets_regex ?_ rest))
    rw [blankSets_any]
    exact hc
  missing hinput := by
    refine Table.answers_rule_none hl.blank (rejected_onePattern blankSets_regex fun c hc => ?_)
    rw [blankSets_any]
    exact hinput c hc

/-- Blanks are read up to the first other character, and make no nodes. -/
theorem Lexical.reads_blanks (hl : Lexical t) {bs : List Char} (hne : bs ≠ [])
    (hbs : ∀ c ∈ bs, isBlank c = true) (hrest : Clear isBlank rest) :
    t.Reads isToken "RULE_WHITESPACE" bs rest [] := by
  have hrounds := hl.readsChar_blank.readsRounds hne hbs hrest
  exact Table.reads_internal hl.whitespace (by decide) (Step.reads_star hrounds).alone.first

theorem Lexical.comment_none (hl : Lexical t) (hinput : Clear (· = '/') input) :
    (Target.rule "Comment").Answers t input none := by
  obtain ⟨more, hcomment⟩ := hl.comment
  refine Table.answers_rule_none hcomment ?_
  simp only [List.forall_mem_singleton]
  exact Step.rejected_of_none (Target.answers_literal_none fun d hd => of_decide_eq_false (hinput d hd))

/-- White space begins with a blank or a comment. -/
theorem Lexical.blanks_none (hl : Lexical t) (hinput : Clear opensBlank input) :
    (Target.rule "RULE_WHITESPACE").Answers t input none := by
  refine Table.answers_rule_none hl.whitespace ?_
  simp only [List.forall_mem_cons]
  refine ⟨?_, ?_, by simp⟩
  · have hblank := hl.readsChar_blank.missing (hinput.imp fun c hc => by simp [opensBlank, hc])
    exact Or.inr ⟨_, _, .cons (Step.passes_star_of_none hblank) (.nil _)⟩
  · exact Step.rejected_of_none (hl.comment_none (hinput.imp fun c hc => by simp [opensBlank, hc]))

/-- White space within a line, as far as it goes. -/
theorem Lexical.skims_blanks (hl : Lexical t) {bs : List Char} (hbs : ∀ c ∈ bs, isBlank c = true)
    (hrest : Clear opensBlank rest) :
    (Step.star (.rule "RULE_WHITESPACE")).Skims t isToken bs rest [] := by
  have hnone := hl.blanks_none hrest
  by_cases hne : bs = []
  · subst hne
    exact Step.skims_star_of_none hnone
  · have hread := hl.reads_blanks hne hbs (hrest.imp fun c hc => by simp [opensBlank, hc])
    exact (Step.reads_star (Target.readsRounds_last (Target.reads_rule hread) (Or.inr hnone))).skims

theorem newline_regex : (Pattern.ofSource "\\x0A").regex = .one (.single '\n') :=
  regex_ofSource (by decide +kernel)

theorem return_regex : (Pattern.ofSource "\\x0D").regex = .one (.single '\r') :=
  regex_ofSource (by decide +kernel)

theorem return_none (hinput : Clear (· = '\r') input) :
    (Target.pattern (.ofSource "\\x0D")).Answers t input none := by
  refine Target.answers_pattern_none (match?_one_eq_none return_regex fun c hc => ?_)
  rw [contains_single]
  exact hinput c hc

/-- A line feed is a line end by itself. -/
theorem Lexical.reads_newline (hl : Lexical t) (rest : List Char) :
    t.Reads isToken "RULE_EOL" ['\n'] rest [] := by
  have hreturn : (Target.pattern (.ofSource "\\x0D")).Answers t (['\n'] ++ rest) none :=
    return_none (by simp)
  have hmatch : (Pattern.ofSource "\\x0A").match? (['\n'] ++ rest) = some rest :=
    match?_one newline_regex (by rw [contains_single]; decide)
  have hread : (Step.one (.pattern (.ofSource "\\x0A"))).Reads t isToken ['\n'] rest [] :=
    Step.reads_one (Target.reads_pattern hmatch)
  exact Table.reads_internal hl.lineEnd (by decide) (.next (Step.rejected_of_none hreturn) hread.alone.first)

/-- A line end begins with one of its characters. -/
theorem Lexical.lineEnd_none (hl : Lexical t) (hinput : Clear (fun c => c = '\n' || c = '\r') input) :
    (Target.rule "RULE_EOL").Answers t input none := by
  have hreturn : (Target.pattern (.ofSource "\\x0D")).Answers t input none :=
    return_none (hinput.imp fun c hc => by simpa using Or.inr (of_decide_eq_true hc))
  have hnewline : (Target.pattern (.ofSource "\\x0A")).Answers t input none := by
    refine Target.answers_pattern_none (match?_one_eq_none newline_regex fun c hc => ?_)
    rw [contains_single]
    have hclear := hinput c hc
    simp only [Bool.or_eq_false_iff] at hclear
    exact hclear.1
  refine Table.answers_rule_none hl.lineEnd ?_
  simp only [List.forall_mem_cons]
  exact ⟨Step.rejected_of_none hreturn, Step.rejected_of_none hnewline, Step.rejected_of_none hreturn, by simp⟩

/-- A line end, with no further one behind it. -/
theorem Lexical.reads_endOfProduction (hl : Lexical t)
    (hrest : Clear (fun c => c = '\n' || c = '\r') rest) :
    t.Reads isToken "%EndOfProduction" ['\n'] rest [] := by
  refine Table.reads_fragment hl.endOfProduction ?_
  have hrounds := Target.readsRounds_last (Target.reads_rule (hl.reads_newline rest))
    (Or.inr (hl.lineEnd_none hrest))
  exact (Step.reads_plus hrounds).alone.first

/-- Spacing is white space and line ends. -/
theorem Lexical.spacing_none (hl : Lexical t) (hinput : Clear opensSpacing input) :
    (Target.rule "RULE_S").Answers t input none := by
  refine Table.answers_rule_none hl.spacing ?_
  simp only [List.forall_mem_cons]
  refine ⟨?_, ?_, by simp⟩
  · refine Step.rejected_of_none (hl.blanks_none (hinput.imp fun c hc => ?_))
    simp only [opensBlank, opensSpacing, isSpacing, Bool.or_eq_true] at hc ⊢
    tauto
  · refine Step.rejected_of_none (hl.lineEnd_none (hinput.imp fun c hc => ?_))
    simp only [opensSpacing, isSpacing, Bool.or_eq_true] at hc ⊢
    tauto

/-- White space between lines, as far as it goes: blanks and what is behind them, or a line end and what is
behind it. The induction is on the characters that are left. -/
theorem Lexical.skims_spacing (hl : Lexical t) {gap : List Char} (hgap : ∀ c ∈ gap, isSpacing c = true)
    (hrest : Clear opensSpacing rest) :
    (Step.star (.rule "RULE_S")).Skims t isToken gap rest [] := by
  induction hlength : gap.length using Nat.strongRecOn generalizing gap with
  | ind n ih =>
    have hnone := hl.spacing_none hrest
    have hwhole : t.Reads isToken "RULE_S" gap rest [] →
        (Step.star (.rule "RULE_S")).Skims t isToken gap rest [] := fun hread =>
      (Step.reads_star (Target.readsRounds_last (Target.reads_rule hread) (Or.inr hnone))).skims
    cases gap with
    | nil => exact Step.skims_star_of_none hnone
    | cons c cs =>
      rw [List.forall_mem_cons] at hgap
      refine hwhole ?_
      by_cases hc : isBlank c = true
      · have hlt : (cs.dropWhile isBlank).length < n := by
          have hle := (List.dropWhile_sublist isBlank (l := cs)).length_le
          rw [← hlength, List.length_cons]
          omega
        have hblanks : t.Reads isToken "RULE_WHITESPACE" (c :: cs.takeWhile isBlank)
            (cs.dropWhile isBlank ++ rest) [] := by
          refine hl.reads_blanks (List.cons_ne_nil c _) ?_ ?_
          · exact List.forall_mem_cons.2 ⟨hc, List.all_eq_true.1 List.all_takeWhile⟩
          · refine (clear_dropWhile isBlank cs).append (hrest.imp fun d hd => ?_)
            simp [opensSpacing, isSpacing, hd]
        have hmore := ih _ hlt (fun d hd => hgap.2 d ((List.dropWhile_sublist _).subset hd)) rfl
        have hall := (Step.reads_one (Target.reads_rule hblanks)).cons hmore.alone
        rw [List.cons_append, List.takeWhile_append_dropWhile] at hall
        exact Table.reads_internal hl.spacing (by decide) hall.first
      · have hc : c = '\n' := by simpa [isSpacing, hc] using hgap.1
        subst hc
        have hlt : cs.length < n := by
          rw [← hlength, List.length_cons]
          omega
        have hnewline := Target.reads_rule (hl.reads_newline (cs ++ rest))
        have hall := (Step.reads_one hnewline).cons (ih _ hlt hgap.2 rfl).alone
        have hblanks : (Target.rule "RULE_WHITESPACE").Answers t (['\n'] ++ cs ++ rest) none :=
          hl.blanks_none (by simp [opensBlank, isBlank])
        exact Table.reads_internal hl.spacing (by decide) (.next (Step.rejected_of_none hblanks) hall.first)

end Lexemes

end Grammarian.Notation
