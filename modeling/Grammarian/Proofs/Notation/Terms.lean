import Grammarian.Notation.Bnf
import Grammarian.Proofs.Notation.Marks

/-!
# Terms of classic BNF

Names, literals, terms and lists of them as they are written, and how the rules of the notation read them. A
list is nested: it holds its first term and the list behind that, so the nodes are made by recursion on the
terms. Spaces behind the last term do not belong to the list.
-/

namespace Grammarian.Notation.Bnf

open Pattern

/-! ## Characters -/

/-- The punctuation that stands in literals of both quotation marks. -/
def symbols : List Char := "-_!#$%&()*+,./:;<=>?@[\\]^`\x7b|\x7d~".toList

/-- The characters of literals, besides quotation marks. -/
def isCharacter (c : Char) : Bool :=
  c = ' ' || Text.isAsciiLetter c || Text.isAsciiDigit c || c ∈ symbols

/-- The characters of literals between these marks: the other mark is one of them. -/
def isContent (mark c : Char) : Bool := isCharacter c || Literal.isQuote c && c ≠ mark

/-- The characters of names behind the first one, which is a letter. -/
def isNameChar (c : Char) : Bool := Text.isAsciiLetter c || Text.isAsciiDigit c || c = '_' || c = '-'

/-! ## Terms -/

/-- A name: a letter, and letters, digits, underscores and hyphens behind it. -/
structure Name where
  first : Char
  more : List Char
  first_letter : Text.isAsciiLetter first = true
  more_nameChar : ∀ c ∈ more, isNameChar c = true

/-- A literal between quotation marks. -/
structure Quoted where
  mark : Char
  body : List Char
  mark_quote : Literal.isQuote mark = true
  body_content : ∀ c ∈ body, isContent mark c = true

inductive Term where
  | name (n : Name)
  | literal (q : Quoted)

def spaces (n : Nat) : List Char := List.replicate n ' '

def Name.text (n : Name) : List Char := n.first :: n.more

def Quoted.text (q : Quoted) : List Char := q.mark :: (q.body ++ [q.mark])

def Term.text : Term → List Char
  | .name n => '<' :: (n.text ++ ['>'])
  | .literal q => q.text

/-- The characters that terms begin with. -/
def opensTerm (c : Char) : Bool := c = '<' || Literal.isQuote c

/-- The characters that a list goes on with. -/
def extendsList (c : Char) : Bool := c = ' ' || opensTerm c

/-- A term does not begin with a space. -/
theorem Term.clear_text (term : Term) (rest : List Char) : Clear (· = ' ') (term.text ++ rest) := by
  cases term with
  | name n => exact clear_cons.2 (by decide)
  | literal q =>
    refine clear_cons.2 (decide_eq_false ?_)
    rintro hmark
    have hquote := q.mark_quote
    rw [hmark] at hquote
    exact absurd hquote (by decide)

/-- Terms behind the first of a list, each with the number of spaces before it. -/
def moreText (more : List (Nat × Term)) : List Char := more.flatMap fun p => spaces p.1 ++ p.2.text

/-- The kinds of nodes that are told apart by their text. -/
def isToken (kind : String) : Bool := kind = "rule-name" || kind = "literal"

def Term.node : Term → Node
  | .name n => .branch "term" [.token "rule-name" n.text]
  | .literal q => .branch "term" [.token "literal" q.text]

def listNode (first : Term) : List (Nat × Term) → Node
  | [] => .branch "list" [first.node]
  | p :: more => .branch "list" [first.node, listNode p.2 more]

/-! ## The rules -/

def space : Target := .literal [' ']

/-- What stands in literals, `other` being the quotation mark that is not theirs. -/
def contents (other : Char) : List (Target × (Char → Bool)) :=
  [(.rule "RULE_CHARACTER", isCharacter), (.literal [other], (· = other))]

def characters : List (Target × (Char → Bool)) :=
  [(space, (· = ' ')), (.rule "RULE_LETTER", Text.isAsciiLetter), (.rule "RULE_DIGIT", Text.isAsciiDigit),
    (.rule "RULE_SYMBOL", (· ∈ symbols))]

def nameChars : List (Target × (Char → Bool)) :=
  [(.rule "RULE_LETTER", Text.isAsciiLetter), (.rule "RULE_DIGIT", Text.isAsciiDigit), (.literal ['_'], (· = '_')),
    (.literal ['-'], (· = '-'))]

def lineEnds : List (Target × (Char → Bool)) := [(.literal ['\r'], (· = '\r')), (.literal ['\n'], (· = '\n'))]

/-- A set of these characters, as a class of them is read. -/
def setOf (cs : List Char) : CharSet := cs.foldl (fun s c => .union s (.single c)) .none

def letterPattern : Pattern := .ofSource "[A-Za-z]"

def digitPattern : Pattern := .ofSource "[0-9]"

def symbolPattern : Pattern := .ofSource "[-_!#$%&()*+,./:;<=>?@\\[\\\\\\]^`\x7b|\x7d~]"

/-- The alternatives that are these targets, each for the characters it reads. -/
def alternatives (qs : List (Target × (Char → Bool))) : List (List Step) := qs.map (oneTarget ∘ Prod.fst)

/-- A table with the rules of terms. -/
structure Verbal (t : Table) : Prop where
  letter : t.declares "RULE_LETTER" false (alternatives [(.pattern letterPattern, Text.isAsciiLetter)]) = true
  digit : t.declares "RULE_DIGIT" false (alternatives [(.pattern digitPattern, Text.isAsciiDigit)]) = true
  symbol : t.declares "RULE_SYMBOL" false (alternatives [(.pattern symbolPattern, (· ∈ symbols))]) = true
  character : t.declares "RULE_CHARACTER" false (alternatives characters) = true
  character1 : t.declares "RULE_CHARACTER1" false (alternatives (contents '\'')) = true
  character2 : t.declares "RULE_CHARACTER2" false (alternatives (contents '"')) = true
  nameChar : t.declares "RULE_CHAR" false (alternatives nameChars) = true
  lineEnd : t.declares "RULE_EOL" false (alternatives lineEnds) = true
  name : t.declares "rule-name" false [[.one (.rule "RULE_LETTER"), .star (.rule "RULE_CHAR")]] = true
  literal : t.declares "literal" false
    [[.one (.literal ['"']), .star (.rule "RULE_CHARACTER1"), .one (.literal ['"'])],
      [.one (.literal ['\'']), .star (.rule "RULE_CHARACTER2"), .one (.literal ['\''])]] = true
  term : t.declares "term" false
    [[.one (.rule "literal")], [.one (.literal ['<']), .one (.rule "rule-name"), .one (.literal ['>'])]] = true
  list : t.declares "list" false
    [[.one (.rule "term"), .star space, .one (.rule "list")], [.one (.rule "term")]] = true

/-! ## Reading characters -/

theorem contains_setOf (cs : List Char) (c : Char) : (setOf cs).contains c = decide (c ∈ cs) := by
  have hfold : ∀ s : CharSet, (cs.foldl (fun s c => .union s (.single c)) s).contains c =
      (s.contains c || decide (c ∈ cs)) := by
    induction cs with
    | nil => simp
    | cons d cs ih =>
      intro s
      rw [List.foldl_cons, ih]
      simp [CharSet.contains, contains_single, Bool.or_assoc]
  rw [setOf, hfold]
  simp [CharSet.contains]

theorem letter_regex : letterPattern.regex = .one (.union (.union .none (.range 'A' 'Z')) (.range 'a' 'z')) :=
  regex_ofSource (by decide +kernel)

theorem digit_regex : digitPattern.regex = .one (.union .none (.range '0' '9')) :=
  regex_ofSource (by decide +kernel)

theorem symbol_regex : symbolPattern.regex = .one (setOf symbols) :=
  regex_ofSource (by decide +kernel)

/-- Spaces are skimmed up to the first other character. -/
theorem skims_spaces {t : Table} {rest : List Char} (n : Nat) (hrest : Clear (· = ' ') rest) :
    (Step.star space).Skims t isToken (spaces n) rest [] :=
  (readsChar_literal ' ').skims_star (fun c hc => by simpa using List.eq_of_mem_replicate hc) hrest

theorem contains_letter (c : Char) :
    (CharSet.union (.union .none (.range 'A' 'Z')) (.range 'a' 'z')).contains c = Text.isAsciiLetter c := by
  simp [CharSet.contains, Text.isAsciiLetter, Text.isAsciiUpper, Text.isAsciiLower]

theorem contains_digit (c : Char) : (CharSet.union .none (.range '0' '9')).contains c = Text.isAsciiDigit c := by
  simp [CharSet.contains, Text.isAsciiDigit]

/-- The characters of a text are those that one of the rules for them takes. -/
theorem any_characters (c : Char) : isCharacter c = characters.any (·.2 c) := by
  simp [characters, isCharacter, Bool.or_assoc]

/-- And so are those of a name. -/
theorem any_nameChars (c : Char) : isNameChar c = nameChars.any (·.2 c) := by
  simp [nameChars, isNameChar, Bool.or_assoc]

/-- A quotation mark is one of the two. -/
theorem any_contents {mark other : Char} (h : mark = '"' ∧ other = '\'' ∨ mark = '\'' ∧ other = '"') (c : Char) :
    isContent mark c = (contents other).any (·.2 c) := by
  have hother : (Literal.isQuote c && !decide (c = mark)) = decide (c = other) := by
    rcases h with ⟨rfl, rfl⟩ | ⟨rfl, rfl⟩
    · by_cases hc : c = '"'
      · subst hc
        decide
      · simp [Literal.isQuote, hc]
    · by_cases hc : c = '\''
      · subst hc
        decide
      · simp [Literal.isQuote, hc]
  simp [contents, isContent, hother]

namespace Verbal

variable {t : Table} {rest input : List Char}

theorem readsChar_letter (hv : Verbal t) : ReadsChar t isToken (.rule "RULE_LETTER") Text.isAsciiLetter := by
  refine readsChar_rule hv.letter (by decide) ?_ (by simp)
  rw [List.forall_mem_singleton]
  exact readsChar_pattern letter_regex contains_letter

theorem readsChar_digit (hv : Verbal t) : ReadsChar t isToken (.rule "RULE_DIGIT") Text.isAsciiDigit := by
  refine readsChar_rule hv.digit (by decide) ?_ (by simp)
  rw [List.forall_mem_singleton]
  exact readsChar_pattern digit_regex contains_digit

theorem readsChar_symbol (hv : Verbal t) : ReadsChar t isToken (.rule "RULE_SYMBOL") (· ∈ symbols) := by
  refine readsChar_rule hv.symbol (by decide) ?_ (by simp)
  rw [List.forall_mem_singleton]
  exact readsChar_pattern symbol_regex (contains_setOf symbols)

/-- The rule for characters takes a letter, a digit or a symbol. -/
theorem readsChar_character (hv : Verbal t) : ReadsChar t isToken (.rule "RULE_CHARACTER") isCharacter := by
  refine readsChar_rule hv.character (by decide) ?_ any_characters
  simp only [characters, List.forall_mem_cons]
  exact ⟨readsChar_literal ' ', hv.readsChar_letter, hv.readsChar_digit, hv.readsChar_symbol, List.forall_mem_nil _⟩

/-- The rule for the characters of names takes a letter, a digit or a hyphen. -/
theorem readsChar_nameChar (hv : Verbal t) : ReadsChar t isToken (.rule "RULE_CHAR") isNameChar := by
  refine readsChar_rule hv.nameChar (by decide) ?_ any_nameChars
  simp only [nameChars, List.forall_mem_cons]
  exact ⟨hv.readsChar_letter, hv.readsChar_digit, readsChar_literal '_', readsChar_literal '-', List.forall_mem_nil _⟩

theorem readsChar_lineEnd (hv : Verbal t) :
    ReadsChar t isToken (.rule "RULE_EOL") (fun c => c = '\r' || c = '\n') := by
  refine readsChar_rule hv.lineEnd (by decide) ?_ fun c => ?_
  · simp only [lineEnds, List.forall_mem_cons]
    exact ⟨readsChar_literal '\r', readsChar_literal '\n', List.forall_mem_nil _⟩
  · simp [lineEnds]

theorem readsChar_contents (hv : Verbal t) (other : Char) :
    ∀ q ∈ contents other, ReadsChar t isToken q.1 q.2 := by
  simp only [contents, List.forall_mem_cons]
  exact ⟨hv.readsChar_character, readsChar_literal other, List.forall_mem_nil _⟩

/-- Between double marks a single mark may stand. -/
theorem readsChar_content1 (hv : Verbal t) : ReadsChar t isToken (.rule "RULE_CHARACTER1") (isContent '"') :=
  readsChar_rule hv.character1 (by decide) (hv.readsChar_contents _) (any_contents (.inl ⟨rfl, rfl⟩))

/-- Between single marks a double mark may stand. -/
theorem readsChar_content2 (hv : Verbal t) : ReadsChar t isToken (.rule "RULE_CHARACTER2") (isContent '\'') :=
  readsChar_rule hv.character2 (by decide) (hv.readsChar_contents _) (any_contents (.inr ⟨rfl, rfl⟩))

/-! ## Reading terms -/

/-- A name is read up to the first character that can be none of its. -/
theorem reads_name (hv : Verbal t) (n : Name) (hrest : Clear isNameChar rest) :
    t.Reads isToken "rule-name" n.text rest [.token "rule-name" n.text] := by
  have hfirst : (Step.one (.rule "RULE_LETTER")).Reads t isToken [n.first] (n.more ++ rest) [] :=
    Step.reads_one (hv.readsChar_letter.reads n.first_letter _)
  have hmore := hv.readsChar_nameChar.skims_star n.more_nameChar hrest
  exact Table.reads_token hv.name (by decide) (by decide) (hfirst.cons hmore.alone).first

/-- The mark, what stands behind it, and the mark. -/
theorem readAll_quoted {name : String} {mark : Char} {body : List Char}
    (hname : ReadsChar t isToken (.rule name) (isContent mark)) (hbody : ∀ c ∈ body, isContent mark c = true)
    (hmark : isContent mark mark = false) (rest : List Char) :
    Step.ReadAll t isToken [.one (.literal [mark]), .star (.rule name), .one (.literal [mark])]
      (mark :: (body ++ [mark])) rest [] := by
  have hopen : (Step.one (.literal [mark])).Reads t isToken [mark] (body ++ [mark] ++ rest) [] :=
    Step.reads_one (Target.reads_literal (by simp) _)
  have hinside : (Step.star (.rule name)).Skims t isToken body ([mark] ++ rest) [] :=
    hname.skims_star hbody (clear_cons.2 hmark)
  have hclose : (Step.one (.literal [mark])).Reads t isToken [mark] rest [] :=
    Step.reads_one (Target.reads_literal (by simp) rest)
  exact hopen.cons (hinside.cons hclose.alone).skimAll

/-- A literal is read up to its closing mark, whatever follows. -/
theorem reads_quoted (hv : Verbal t) (q : Quoted) (rest : List Char) :
    t.Reads isToken "literal" q.text rest [.token "literal" q.text] := by
  obtain ⟨mark, body, hmark, hbody⟩ := q
  refine Table.reads_token hv.literal (by decide) (by decide) (?_ : Step.ReadFirst t isToken _ _ rest [])
  simp only [Literal.isQuote, Bool.or_eq_true, decide_eq_true_eq] at hmark
  rcases hmark with rfl | rfl
  · exact (readAll_quoted hv.readsChar_content1 hbody (by decide) rest).first
  · have hnot : (Target.literal ['"']).Answers t ('\'' :: (body ++ ['\'']) ++ rest) none :=
      char_none (clear_cons.2 (by decide))
    refine .next (Step.rejected_of_none hnot) ?_
    exact (readAll_quoted hv.readsChar_content2 hbody (by decide) rest).first

theorem quoted_none (hv : Verbal t) (hinput : Clear Literal.isQuote input) :
    (Target.rule "literal").Answers t input none := by
  refine Table.answers_rule_none hv.literal ?_
  simp only [List.forall_mem_cons]
  refine ⟨Step.rejected_of_none ?_, Step.rejected_of_none ?_, List.forall_mem_nil _⟩
  · exact char_none (hinput.imp fun c hc => by simpa [Literal.isQuote] using Or.inl hc)
  · exact char_none (hinput.imp fun c hc => by simpa [Literal.isQuote] using Or.inr hc)

/-- A term begins with a mark or an angle bracket. -/
theorem term_none (hv : Verbal t) (hinput : Clear opensTerm input) : (Target.rule "term").Answers t input none := by
  refine Table.answers_rule_none hv.term ?_
  simp only [List.forall_mem_cons]
  refine ⟨Step.rejected_of_none ?_, Step.rejected_of_none ?_, List.forall_mem_nil _⟩
  · exact hv.quoted_none (hinput.imp fun c hc => by simp [opensTerm, hc])
  · exact char_none (hinput.imp fun c hc => by simp [opensTerm, hc])

theorem list_none (hv : Verbal t) (hinput : Clear opensTerm input) : (Target.rule "list").Answers t input none := by
  refine Table.answers_rule_none hv.list ?_
  simp only [List.forall_mem_cons]
  exact ⟨Step.rejected_of_none (hv.term_none hinput), Step.rejected_of_none (hv.term_none hinput),
    List.forall_mem_nil _⟩

/-- A term is read as its node. -/
theorem reads_term (hv : Verbal t) (term : Term) (rest : List Char) :
    t.Reads isToken "term" term.text rest [term.node] := by
  cases term with
  | name n =>
    have hquoted : (Target.rule "literal").Answers t ('<' :: (n.text ++ ['>']) ++ rest) none :=
      hv.quoted_none (clear_cons.2 (by decide))
    have hopen : (Step.one (.literal ['<'])).Reads t isToken ['<'] (n.text ++ ['>'] ++ rest) [] :=
      Step.reads_one (Target.reads_literal (by simp) _)
    have hname : (Step.one (.rule "rule-name")).Reads t isToken n.text (['>'] ++ rest) [.token "rule-name" n.text] :=
      Step.reads_one (Target.reads_rule (hv.reads_name n (clear_cons.2 (by decide))))
    have hclose : (Step.one (.literal ['>'])).Reads t isToken ['>'] rest [] :=
      Step.reads_one (Target.reads_literal (by simp) rest)
    have hall := hopen.cons (hname.cons hclose.alone.skimAll).skimAll
    exact Table.reads_branch hv.term (by decide) (by decide) (.next (Step.rejected_of_none hquoted) hall.first)
  | literal q =>
    have hall := (Step.reads_one (Target.reads_rule (hv.reads_quoted q rest))).alone
    exact Table.reads_branch hv.term (by decide) (by decide) hall.first

/-- A list ends where no term stands behind the spaces. The induction is on the terms behind the first one; at
the last one the rule first looks for a further list, which is not there. -/
theorem reads_list (hv : Verbal t) (first : Term) (more : List (Nat × Term)) {n : Nat}
    (hrest : Clear extendsList rest) :
    t.Reads isToken "list" (first.text ++ moreText more) (spaces n ++ rest) [listNode first more] := by
  induction more generalizing first with
  | nil =>
    have hterm : (Step.one (.rule "term")).Reads t isToken (first.text ++ []) (spaces n ++ rest) [first.node] := by
      rw [List.append_nil]
      exact Step.reads_one (Target.reads_rule (hv.reads_term first _))
    have hspaces : (Step.star space).Skims t isToken (spaces n) rest [] :=
      skims_spaces n (hrest.imp fun c hc => by simp [extendsList, hc])
    have hnone := hv.list_none (hrest.imp fun c hc => by simp [extendsList, hc])
    have hnot : Step.FailsAt t [.one (.rule "term"), .star space, .one (.rule "list")]
        (first.text ++ [] ++ (spaces n ++ rest)) :=
      hterm.skims.failsAt (hspaces.failsAt (.here (Step.fails_one hnone)))
    exact Table.reads_branch hv.list (by decide) (by decide) (.next (Or.inl hnot) hterm.alone.first)
  | cons p more ih =>
    have htext : moreText (p :: more) = spaces p.1 ++ (p.2.text ++ moreText more) := by
      simp [moreText]
    have hterm := Step.reads_one (Target.reads_rule
      (hv.reads_term first (spaces p.1 ++ (p.2.text ++ moreText more) ++ (spaces n ++ rest))))
    have hspaces : (Step.star space).Skims t isToken (spaces p.1)
        (p.2.text ++ moreText more ++ (spaces n ++ rest)) [] := by
      refine skims_spaces p.1 ?_
      rw [List.append_assoc]
      exact p.2.clear_text _
    have hall := hterm.cons (hspaces.cons (Step.reads_one (Target.reads_rule (ih p.2))).alone).skimAll
    rw [htext]
    exact Table.reads_branch hv.list (by decide) (by decide) hall.first

end Verbal

end Grammarian.Notation.Bnf
