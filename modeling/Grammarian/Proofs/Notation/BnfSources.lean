import Grammarian.Proofs.Notation.Bnf
import Grammarian.Proofs.Notation.Sources

/-!
# Texts that classic BNF accepts

They are read as lines, one or more: the rules of the notation derive no other nodes. So every list of rules that
is read is one that lines stand for.
-/

namespace Grammarian.Notation.Bnf

/-- The rules that are one character each, with the characters they are. -/
def charRules : List (String × (Char → Bool)) :=
  [("RULE_LETTER", Text.isAsciiLetter), ("RULE_DIGIT", Text.isAsciiDigit), ("RULE_SYMBOL", (· ∈ symbols)),
    ("RULE_CHARACTER", isCharacter), ("RULE_CHARACTER1", isContent '"'), ("RULE_CHARACTER2", isContent '\''),
    ("RULE_CHAR", isNameChar)]

/-- A text that is one of these characters. -/
def OneOf (p : Char → Bool) (text : List Char) : Prop := ∃ c, text = [c] ∧ p c = true

/-- What a rule of this name derives. -/
structure Told (rule : String) (text : List Char) (ns : List Node) : Prop where
  char : ∀ q ∈ charRules, rule = q.1 → OneOf q.2 text
  lineEnd : rule = "RULE_EOL" → ns = []
  name : rule = "rule-name" → ∃ n : Name, ns = [.token "rule-name" n.text]
  literal : rule = "literal" → ∃ q : Quoted, ns = [.token "literal" q.text]
  term : rule = "term" → ∃ term : Term, ns = [term.node]
  list : rule = "list" → ∃ (first : Term) (more : List (Nat × Term)), ns = [listNode first more]
  firstExpression : rule = "firstExpression" → ∃ a : Alternative, ns = [a.node "firstExpression"]
  otherExpression : rule = "otherExpression" → ∃ a : Alternative, ns = [a.node "otherExpression"]
  line : rule = "rule" → ∃ l : Line, ns = [l.node]

namespace Classic

open Step

variable {t : Table} {rules : String → Language} {rule : String} {text : List Char} {ns : List Node}
  (htold : ∀ {rule text ns}, rules rule text ns → Told rule text ns)

/-- A rule whose alternatives are one character each. -/
theorem derives_char {qs : List (Target × (Char → Bool))} {p : Char → Bool}
    (hrule : t.declares rule false (alternatives qs) = true)
    (hqs : ∀ q ∈ qs, ∀ {text ns}, q.1.language rules text ns → OneOf q.2 text)
    (hp : ∀ c, p c = qs.any (·.2 c)) (h : t.Derives isToken rules rule text ns) : OneOf p text := by
  obtain ⟨e, -, -, alt, halt, inner, hinner, -⟩ := Table.Derives.exists_entry (Table.lists_of_declares hrule) h
  obtain ⟨q, hq, rfl⟩ := List.mem_map.1 halt
  obtain ⟨c, rfl, hc⟩ := hqs q hq (language_one.1 (languageAll_singleton hinner))
  refine ⟨c, rfl, ?_⟩
  rw [hp]
  exact List.any_eq_true.2 ⟨q, hq, hc⟩

theorem oneOf_literal (d : Char) (h : (Target.literal [d]).language rules text ns) : OneOf (· = d) text :=
  ⟨d, h.1, decide_eq_true rfl⟩

theorem oneOf_pattern {q : Pattern} {s : Pattern.CharSet} {p : Char → Bool} (hq : q.regex = .one s)
    (hs : ∀ c, s.contains c = p c) (h : (Target.pattern q).language rules text ns) : OneOf p text := by
  obtain ⟨-, rest, hmatch⟩ := h
  obtain ⟨c, rfl, hc⟩ := Pattern.eq_singleton_of_match? hq hmatch
  exact ⟨c, rfl, (hs c).symm.trans hc⟩

include htold

theorem derives_charRule (hc : Classic t) {q : String × (Char → Bool)} (hq : q ∈ charRules)
    (h : t.Derives isToken rules q.1 text ns) : OneOf q.2 text := by
  have hchar : ∀ {name : String} {p : Char → Bool}, (name, p) ∈ charRules → ∀ {text ns},
      (Target.rule name).language rules text ns → OneOf p text := fun hmem _ _ hrule => (htold hrule).char _ hmem rfl
  have hcontents : ∀ other, ∀ q ∈ contents other, ∀ {text ns}, q.1.language rules text ns → OneOf q.2 text := by
    intro other
    simp only [contents, List.forall_mem_cons]
    exact ⟨hchar (by simp [charRules]), oneOf_literal other, List.forall_mem_nil _⟩
  simp only [charRules, List.mem_cons, List.not_mem_nil, or_false] at hq
  rcases hq with rfl | rfl | rfl | rfl | rfl | rfl | rfl
  · refine derives_char hc.letter ?_ (by simp) h
    rw [List.forall_mem_singleton]
    exact oneOf_pattern letter_regex contains_letter
  · refine derives_char hc.digit ?_ (by simp) h
    rw [List.forall_mem_singleton]
    exact oneOf_pattern digit_regex contains_digit
  · refine derives_char hc.symbol ?_ (by simp) h
    rw [List.forall_mem_singleton]
    exact oneOf_pattern symbol_regex (contains_setOf symbols)
  · refine derives_char hc.character ?_ any_characters h
    simp only [characters, List.forall_mem_cons]
    exact ⟨oneOf_literal ' ', hchar (by simp [charRules]), hchar (by simp [charRules]), hchar (by simp [charRules]),
      List.forall_mem_nil _⟩
  · exact derives_char hc.character1 (hcontents _) (any_contents (.inl ⟨rfl, rfl⟩)) h
  · exact derives_char hc.character2 (hcontents _) (any_contents (.inr ⟨rfl, rfl⟩)) h
  · refine derives_char hc.nameChar ?_ any_nameChars h
    simp only [nameChars, List.forall_mem_cons]
    exact ⟨hchar (by simp [charRules]), hchar (by simp [charRules]), oneOf_literal '_', oneOf_literal '-',
      List.forall_mem_nil _⟩

/-- Characters of a kind, one after another. -/
theorem forall_mem_of_star {name : String} {p : Char → Bool} (hmem : (name, p) ∈ charRules)
    (h : (Step.star (.rule name)).language rules false text ns) : ∀ c ∈ text, p c = true := by
  obtain ⟨k, htimes⟩ := language_star h
  refine Language.forall_mem_of_times (fun text ns hone => ?_) htimes
  obtain ⟨c, rfl, hc⟩ := (htold hone).char _ hmem rfl
  simpa using hc

theorem derives_name (hc : Classic t) (h : t.Derives isToken rules "rule-name" text ns) :
    ∃ n : Name, ns = [.token "rule-name" n.text] := by
  obtain ⟨rfl, alt, halt, inner, hinner⟩ := h.token hc.name (by decide) (by decide)
  obtain rfl := List.mem_singleton.1 halt
  obtain ⟨front, back, _, _, rfl, -, hfirst, hmore⟩ := languageAll_cons hinner
  obtain ⟨c, rfl, hletter⟩ := (htold (language_one.1 hfirst)).char ("RULE_LETTER", Text.isAsciiLetter)
    (by simp [charRules]) rfl
  exact ⟨⟨c, back, hletter, forall_mem_of_star htold (by simp [charRules]) (languageAll_singleton hmore)⟩, rfl⟩

theorem derives_literal (hc : Classic t) (h : t.Derives isToken rules "literal" text ns) :
    ∃ q : Quoted, ns = [.token "literal" q.text] := by
  obtain ⟨rfl, alt, halt, inner, hinner⟩ := h.token hc.literal (by decide) (by decide)
  have hmarks : ∀ {q : Char} {body : String}, Literal.isQuote q = true → (body, isContent q) ∈ charRules →
      languageAll rules [.one (.literal [q]), .star (.rule body), .one (.literal [q])] text inner →
      ∃ l : Quoted, l.text = text := by
    intro q body hq hbody hall
    obtain ⟨front, rest, _, _, rfl, -, hopen, hrest⟩ := languageAll_cons hall
    obtain ⟨mid, back, _, _, rfl, -, hmid, hback⟩ := languageAll_cons hrest
    obtain ⟨rfl, -⟩ := language_one.1 hopen
    obtain ⟨rfl, -⟩ := language_one.1 (languageAll_singleton hback)
    exact ⟨⟨q, mid, hq, forall_mem_of_star htold hbody hmid⟩, rfl⟩
  have hquoted : ∃ l : Quoted, l.text = text := by
    rcases List.mem_pair.1 halt with rfl | rfl
    · exact hmarks (by decide) (by simp [charRules]) hinner
    · exact hmarks (by decide) (by simp [charRules]) hinner
  obtain ⟨l, rfl⟩ := hquoted
  exact ⟨l, rfl⟩

theorem derives_term (hc : Classic t) (h : t.Derives isToken rules "term" text ns) :
    ∃ term : Term, ns = [term.node] := by
  obtain ⟨inner, rfl, alt, halt, hinner⟩ := h.branch hc.term (by decide) (by decide)
  rcases List.mem_pair.1 halt with rfl | rfl
  · obtain ⟨_, hliteral⟩ := shows_one (shows_singleton hinner)
    obtain ⟨q, rfl⟩ := (htold hliteral).literal rfl
    exact ⟨.literal q, rfl⟩
  · obtain ⟨_, last, rfl, ⟨_, hname⟩, hlast⟩ := shows_cons (shows_of_silent (silent_literal _) hinner)
    obtain ⟨n, rfl⟩ := (htold (language_one.1 hname)).name rfl
    rw [shows_nil (shows_of_silent (silent_literal _) hlast), List.append_nil]
    exact ⟨.name n, rfl⟩

theorem derives_list (hc : Classic t) (h : t.Derives isToken rules "list" text ns) :
    ∃ (first : Term) (more : List (Nat × Term)), ns = [listNode first more] := by
  obtain ⟨inner, rfl, alt, halt, hinner⟩ := h.branch hc.list (by decide) (by decide)
  rcases List.mem_pair.1 halt with rfl | rfl
  · obtain ⟨_, rest, rfl, ⟨_, hterm⟩, hrest⟩ := shows_cons hinner
    obtain ⟨_, hlist⟩ := shows_one (shows_singleton (shows_of_silent (silent_literal _) hrest))
    obtain ⟨first, rfl⟩ := (htold (language_one.1 hterm)).term rfl
    obtain ⟨second, more, rfl⟩ := (htold hlist).list rfl
    exact ⟨first, (0, second) :: more, rfl⟩
  · obtain ⟨_, hterm⟩ := shows_one (shows_singleton hinner)
    obtain ⟨first, rfl⟩ := (htold hterm).term rfl
    exact ⟨first, [], rfl⟩

/-- A list with spaces before it is an alternative. -/
theorem alternative_of_list (kind : String) {inner : List Node}
    (h : (languageAll rules [.star space, .one (.rule "list")]).Shows inner) :
    ∃ a : Alternative, [.branch kind inner] = [a.node kind] := by
  obtain ⟨_, hlist⟩ := shows_one (shows_singleton (shows_of_silent (silent_literal _) h))
  obtain ⟨first, more, rfl⟩ := (htold hlist).list rfl
  exact ⟨⟨0, first, more⟩, rfl⟩

theorem derives_line (hc : Classic t) (h : t.Derives isToken rules "rule" text ns) : ∃ l : Line, ns = [l.node] := by
  obtain ⟨inner, rfl, alt, halt, hinner⟩ := h.branch hc.line (by decide) (by decide)
  obtain rfl := List.mem_singleton.1 halt
  have hinner := shows_of_silent (silent_literal _) (shows_of_silent (silent_literal _) hinner)
  obtain ⟨_, rest, rfl, ⟨_, hname⟩, hrest⟩ := shows_cons hinner
  have hrest := shows_of_silent (silent_literal _) (shows_of_silent (silent_literal _) hrest)
  obtain ⟨_, rest, rfl, ⟨_, hfirst⟩, hrest⟩ := shows_cons (shows_of_silent (silent_literal _) hrest)
  obtain ⟨_, rest, rfl, hothers, hrest⟩ := shows_cons hrest
  have hlineEnd : ((Target.rule "RULE_EOL").language rules).Silent := fun _ _ h => (htold h).lineEnd rfl
  have hrest := shows_of_silent hlineEnd (shows_of_silent (silent_literal _) hrest)
  have hlast := shows_nil (shows_of_silent (silent_literal _) hrest)
  obtain ⟨n, rfl⟩ := (htold (language_one.1 hname)).name rfl
  obtain ⟨first, rfl⟩ := (htold (language_one.1 hfirst)).firstExpression rfl
  have hother : ∀ {ns}, ((Target.rule "otherExpression").language rules).Shows ns →
      ∃ a : Alternative, True ∧ ns = [a.node "otherExpression"] := by
    rintro ns ⟨text, h⟩
    obtain ⟨a, rfl⟩ := (htold h).otherExpression rfl
    exact ⟨a, trivial, rfl⟩
  obtain ⟨others, -, rfl⟩ := shows_star hother hothers
  refine ⟨⟨0, n, 0, first, others.map fun a => (0, a), 0⟩, ?_⟩
  rw [hlast, List.append_nil, Line.node, List.map_map, ← List.map_eq_flatMap]
  rfl

/-- **The rules of the notation derive what is said of them.** -/
theorem derives (hc : Classic t) (h : t.Derives isToken rules rule text ns) : Told rule text ns where
  char q hq := by
    rintro rfl
    exact derives_charRule htold hc hq h
  lineEnd := by
    rintro rfl
    exact h.internal hc.lineEnd (by decide)
  name := by
    rintro rfl
    exact derives_name htold hc h
  literal := by
    rintro rfl
    exact derives_literal htold hc h
  term := by
    rintro rfl
    exact derives_term htold hc h
  list := by
    rintro rfl
    exact derives_list htold hc h
  firstExpression := by
    rintro rfl
    obtain ⟨inner, rfl, alt, halt, hinner⟩ := h.branch hc.firstExpression (by decide) (by decide)
    obtain rfl := List.mem_singleton.1 halt
    exact alternative_of_list htold _ hinner
  otherExpression := by
    rintro rfl
    obtain ⟨inner, rfl, alt, halt, hinner⟩ := h.branch hc.otherExpression (by decide) (by decide)
    obtain rfl := List.mem_singleton.1 halt
    have hinner := shows_of_silent (silent_literal _) (shows_of_silent (silent_literal _) hinner)
    exact alternative_of_list htold _ hinner
  line := by
    rintro rfl
    exact derives_line htold hc h

end Classic

theorem respects_bnfTable : bnfTable.Respects isToken Told :=
  Table.respects_of_derives (by decide +kernel) fun _ _ _ h => Classic.derives id classic_bnfTable h

/-- The outline of a source that is read without errors. -/
theorem outline_of_readBnf {source : String} {root : Node} (h : readGrammarTree bnfParser source = .ok root) :
    ∃ (l : Line) (ls : List Line), root.outline isToken = .branch "syntax" ((l :: ls).map Line.node) := by
  obtain ⟨alt, halt, inner, hinner, houtline⟩ := inner_of_readGrammarTree bnfParser_eq respects_bnfTable
    start_bnfTable (by decide) classic_bnfTable.grammar h
  obtain rfl := List.mem_singleton.1 halt
  have hlineEnd : ((Target.rule "RULE_EOL").language Told).Silent := fun _ _ h => h.lineEnd rfl
  have hline : ∀ {ns}, ((Target.rule "rule").language Told).Shows ns → ∃ l : Line, True ∧ ns = [l.node] := by
    rintro ns ⟨text, h⟩
    obtain ⟨l, rfl⟩ := Told.line h rfl
    exact ⟨l, trivial, rfl⟩
  obtain ⟨l, ls, -, rfl⟩ := Step.shows_plus hline (Step.shows_singleton (Step.shows_of_silent hlineEnd ⟨_, hinner⟩))
  exact ⟨l, ls, by rw [houtline, List.map_eq_flatMap]⟩

/-- **Every accepted source is one of lines**: its rules are those that they stand for. -/
theorem lines_of_rulesOf {source : String} {rules : List Rule} (h : Dialect.bnf.rulesOf source = .ok rules) :
    ∃ (l : Line) (ls : List Line), rules = (l :: ls).map Line.rule ++
      if ∃ x ∈ l :: ls, x.rule.name = "EOL" then [] else [endOfLine] := by
  cases hread : readGrammarTree bnfParser source with
  | error e =>
    rw [Dialect.rulesOf, hread] at h
    cases h
  | ok root =>
    rw [Dialect.rulesOf, hread] at h
    obtain rfl := Except.ok.inj h
    obtain ⟨l, ls, houtline⟩ := outline_of_readBnf hread
    have hkind : isToken root.kind = false := by
      rw [← Node.outline_kind, houtline]
      rfl
    refine ⟨l, ls, ?_⟩
    rw [← bnfRulesOf_lines, ← houtline, bnfRulesOf_outline hkind]

end Grammarian.Notation.Bnf
