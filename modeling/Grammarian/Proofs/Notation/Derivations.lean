import Grammarian.Proofs.Notation.Attributed
import Grammarian.Proofs.Parse.Inversion

/-!
# What the rules of the notations derive

The texts and nodes of each rule, told by the name of the rule: lexemes in `LexicalTold`, items and alternatives
in `PhraseTold`, lines in `LineTold`. Each says of a rule no more than its alternatives do, so it holds of
everything that the notation accepts.
-/

namespace Grammarian.Notation

open Step

variable {t : Table} {rules : String → Language} {rule : String} {text : List Char} {ns : List Node}

/-! ## Lexemes -/

/-- Characters of classes. -/
def ClassPiece (text : List Char) : Prop := text ≠ [] ∧ ∀ d ∈ text, isClassChar d = true

/-- A class without characters, which the rule for classes derives and no pattern has. -/
def hollowClass : List Char := ['[', '^', ']']

/-- What the lexical rule of this name derives. -/
structure LexicalTold (rule : String) (text : List Char) (ns : List Node) : Prop where
  name : rule = "NCName" → ns = [.token "NCName" text] ∧ IsName text
  doubleQuoted : rule = "%RULE_DoubleQuoted" → '"' ∉ text
  singleQuoted : rule = "%RULE_SingleQuoted" → '\'' ∉ text
  quoted : rule = "StringLiteral" → ns = [.token "StringLiteral" text] ∧ IsQuoted text
  code : rule = "CharCode" → ns = [.token "CharCode" text] ∧ IsCode text
  classPiece : rule ∈ ["%RULE_CharClass_1", "RULE_Char", "CharRange", "CharCodeRange"] → ClassPiece text
  charClass : rule = "CharClass" → ns = [.token "CharClass" text] ∧ (IsClass text ∨ text = hollowClass)
  space : rule ∈ ["RULE_WHITESPACE", "RULE_S", "RULE_EOL", "%EndOfProduction"] → ns = []

theorem IsCode.classPiece (h : IsCode text) : ClassPiece text := by
  refine ⟨?_, h.isClassChar⟩
  obtain ⟨cs, rfl, -⟩ := h
  exact List.cons_ne_nil _ _

/-- Two pieces of a class with a hyphen between them are a piece of a class. -/
theorem ClassPiece.span {front back : List Char} (hfront : ClassPiece front) (hback : ClassPiece back) :
    ClassPiece (front ++ (['-'] ++ back)) := by
  refine ⟨by simp [hfront.1], List.forall_mem_append.2 ⟨hfront.2, List.forall_mem_append.2 ⟨?_, hback.2⟩⟩⟩
  decide

section Lexical

variable (htold : ∀ {rule text ns}, rules rule text ns → LexicalTold rule text ns)

/-- What derives as a name is one, as a single token. -/
theorem Lexical.derives_name (hl : Lexical t) (h : t.Derives isToken rules "NCName" text ns) :
    ns = [.token "NCName" text] ∧ IsName text := by
  obtain ⟨rfl, alt, halt, inner, hinner⟩ := h.token hl.name (by decide) (by decide)
  obtain rfl := List.mem_singleton.1 halt
  obtain ⟨-, rest, hmatch⟩ := language_one.1 (languageAll_singleton hinner)
  obtain ⟨c, cs, rfl, hc, hcs⟩ := Pattern.exists_cons_of_match? name_regex hmatch
  rw [letterSet_contains] at hc
  refine ⟨rfl, c, cs, rfl, hc, fun d hd => ?_⟩
  rw [← nameCharSet_contains]
  exact hcs d hd

/-- What stands between two marks is free of them. -/
theorem not_mem_of_derives {name source : String} {q : Char}
    (hrule : t.declares name true [[.one (.pattern (.ofSource source))]] = true)
    (hregex : (Pattern.ofSource source).regex = .run (.compl (.union .none (.single q))))
    (h : t.Derives isToken rules name text ns) : q ∉ text := by
  obtain ⟨alt, halt, hinner⟩ := h.fragment hrule
  obtain rfl := List.mem_singleton.1 halt
  obtain ⟨-, rest, hmatch⟩ := language_one.1 (languageAll_singleton hinner)
  intro hq
  have hcontains := (Pattern.forall_mem_of_match? hregex hmatch).2 q hq
  rw [compl_contains] at hcontains
  simp at hcontains

include htold in
/-- What derives as a string literal is quoted, as a single token. -/
theorem derives_quoted (hquoted : t.lists "StringLiteral" false quotedSteps = true)
    (h : t.Derives isToken rules "StringLiteral" text ns) :
    ns = [.token "StringLiteral" text] ∧ IsQuoted text := by
  obtain ⟨rfl, alt, halt, inner, hinner⟩ := h.token_of_lists hquoted (by decide) (by decide)
  refine ⟨rfl, ?_⟩
  have hmarks : ∀ {q : Char} {body : String}, Literal.isQuote q = true →
      (∀ {text ns}, rules body text ns → q ∉ text) →
      languageAll rules [.one (.literal [q]), .optional (.rule body), .one (.literal [q])] text inner →
      IsQuoted text := by
    intro q body hq hbody hall
    obtain ⟨front, rest, _, _, rfl, -, hopen, hrest⟩ := languageAll_cons hall
    obtain ⟨mid, back, _, _, rfl, -, hmid, hback⟩ := languageAll_cons hrest
    obtain ⟨rfl, -⟩ := language_one.1 hopen
    obtain ⟨rfl, -⟩ := language_one.1 (languageAll_singleton hback)
    refine ⟨q, mid, rfl, hq, ?_⟩
    rcases language_optional hmid with ⟨rfl, -⟩ | hmid
    · exact List.not_mem_nil
    · exact hbody hmid
  rcases List.mem_pair.1 halt with rfl | rfl
  · exact hmarks (by decide) (fun hbody => (htold hbody).doubleQuoted rfl) hinner
  · exact hmarks (by decide) (fun hbody => (htold hbody).singleQuoted rfl) hinner

/-- What derives as a character code is one, as a single token. -/
theorem Lexical.derives_code (hl : Lexical t) (h : t.Derives isToken rules "CharCode" text ns) :
    ns = [.token "CharCode" text] ∧ IsCode text := by
  obtain ⟨rfl, alt, halt, inner, hinner⟩ := h.token hl.code (by decide) (by decide)
  obtain rfl := List.mem_singleton.1 halt
  obtain ⟨front, back, _, _, rfl, -, hmark, hdigits⟩ := languageAll_cons hinner
  obtain ⟨rfl, -⟩ := language_one.1 hmark
  obtain ⟨-, rest, hmatch⟩ := language_one.1 (languageAll_singleton hdigits)
  obtain ⟨hne, hall⟩ := Pattern.forall_mem_of_match? codeChar_regex hmatch
  refine ⟨rfl, back, rfl, hne, fun d hd => ?_⟩
  rw [← codeCharSet_contains]
  exact hall d hd

/-- The text of a rule that is one of several characters. -/
theorem exists_of_mem_onePattern {qs : List (Pattern × Pattern.CharSet)} (hqs : ∀ q ∈ qs, q.1.regex = .one q.2)
    {alt : List Step} (halt : alt ∈ qs.map onePattern) (h : languageAll rules alt text ns) :
    ∃ c, text = [c] ∧ qs.any (·.2.contains c) = true := by
  obtain ⟨q, hq, rfl⟩ := List.mem_map.1 halt
  obtain ⟨-, rest, hmatch⟩ := language_one.1 (languageAll_singleton h)
  obtain ⟨c, rfl, hc⟩ := Pattern.eq_singleton_of_match? (hqs q hq) hmatch
  exact ⟨c, rfl, List.any_eq_true.2 ⟨q, hq, hc⟩⟩

theorem Lexical.derives_classChar (hl : Lexical t) (h : t.Derives isToken rules "RULE_Char" text ns) :
    ClassPiece text := by
  obtain ⟨e, -, -, alt, halt, inner, hinner, -⟩ := Table.Derives.exists_entry (Table.lists_of_declares hl.classChar) h
  obtain ⟨c, rfl, hc⟩ := exists_of_mem_onePattern classCharSets_regex halt hinner
  rw [classCharSets_any] at hc
  exact ⟨List.cons_ne_nil _ _, by simpa using hc⟩

/-- From one piece to another. -/
theorem derives_span {name item : String} (hrule : t.declares name false [spanSteps item] = true)
    (hitem : ∀ {text ns}, rules item text ns → ClassPiece text) (h : t.Derives isToken rules name text ns) :
    ClassPiece text := by
  obtain ⟨e, -, -, alt, halt, inner, hinner, -⟩ := Table.Derives.exists_entry (Table.lists_of_declares hrule) h
  obtain rfl := List.mem_singleton.1 halt
  obtain ⟨front, rest, _, _, rfl, -, hfront, hrest⟩ := languageAll_cons hinner
  obtain ⟨dash, back, _, _, rfl, -, hdash, hback⟩ := languageAll_cons hrest
  obtain ⟨rfl, -⟩ := language_one.1 hdash
  exact (hitem (language_one.1 hfront)).span (hitem (language_one.1 (languageAll_singleton hback)))

include htold in
/-- Whatever stands in a class is a piece of it. -/
theorem Lexical.derives_classItem (hl : Lexical t) (h : t.Derives isToken rules "%RULE_CharClass_1" text ns) :
    ClassPiece text := by
  obtain ⟨alt, halt, hinner⟩ := h.fragment hl.classItem
  simp only [List.mem_cons, List.not_mem_nil, or_false] at halt
  rcases halt with rfl | rfl | rfl | rfl
  · exact (htold (language_one.1 (languageAll_singleton hinner))).classPiece (by decide)
  · exact (htold (language_one.1 (languageAll_singleton hinner))).classPiece (by decide)
  · exact ((htold (language_one.1 (languageAll_singleton hinner))).code rfl).2.classPiece
  · exact (htold (language_one.1 (languageAll_singleton hinner))).classPiece (by decide)

/-- Characters of classes between brackets, with or without a caret before them: a class, unless they are a caret
alone. -/
theorem isClass_or_hollow {caret body : List Char} (hcaret : caret = [] ∨ caret = ['^']) (hbody : ClassPiece body) :
    IsClass ('[' :: (caret ++ (body ++ [']']))) ∨ '[' :: (caret ++ (body ++ [']'])) = hollowClass := by
  obtain ⟨hne, hbody⟩ := hbody
  rcases hcaret with rfl | rfl
  · by_cases hclear : Clear (· = '^') body
    · exact Or.inl ⟨[], body, rfl, Or.inr ⟨rfl, hclear⟩, hne, hbody⟩
    · obtain ⟨c, cs, rfl⟩ := List.exists_cons_of_ne_nil hne
      obtain rfl : c = '^' := by simpa using hclear
      by_cases hempty : cs = []
      · exact Or.inr (by rw [hempty]; rfl)
      · exact Or.inl ⟨['^'], cs, rfl, Or.inl rfl, hempty, (List.forall_mem_cons.1 hbody).2⟩
  · exact Or.inl ⟨['^'], body, rfl, Or.inl rfl, hne, hbody⟩

include htold in
/-- What derives as a class is one, or the class without items. -/
theorem Lexical.derives_class (hl : Lexical t) (h : t.Derives isToken rules "CharClass" text ns) :
    ns = [.token "CharClass" text] ∧ (IsClass text ∨ text = hollowClass) := by
  obtain ⟨rfl, alt, halt, inner, hinner⟩ := h.token hl.charClass (by decide) (by decide)
  obtain rfl := List.mem_singleton.1 halt
  obtain ⟨front, more, _, _, rfl, -, hopen, hmore⟩ := languageAll_cons hinner
  obtain ⟨caret, rest, _, _, rfl, -, hcaret, hrest⟩ := languageAll_cons hmore
  obtain ⟨body, back, _, _, rfl, -, hbody, hback⟩ := languageAll_cons hrest
  obtain ⟨rfl, -⟩ := language_one.1 hopen
  obtain ⟨rfl, -⟩ := language_one.1 (languageAll_singleton hback)
  have hitem : ∀ text ns, rules "%RULE_CharClass_1" text ns → ClassPiece text :=
    fun text ns h => (htold h).classPiece (by decide)
  have hbody : ClassPiece body := by
    obtain ⟨k, first, others, _, _, rfl, -, hfirst, hothers⟩ := language_plus hbody
    refine ⟨by simp [(hitem _ _ hfirst).1], List.forall_mem_append.2 ⟨(hitem _ _ hfirst).2, ?_⟩⟩
    exact Language.forall_mem_of_times (fun text ns h => (hitem text ns h).2) hothers
  refine ⟨rfl, isClass_or_hollow ?_ hbody⟩
  exact (language_optional hcaret).imp And.left And.left

include htold in
/-- No node is derived from white space. -/
theorem Lexical.derives_space (hl : Lexical t) {rule : String}
    (hrule : rule ∈ ["RULE_WHITESPACE", "RULE_S", "RULE_EOL", "%EndOfProduction"])
    (h : t.Derives isToken rules rule text ns) : ns = [] := by
  simp only [List.mem_cons, List.not_mem_nil, or_false] at hrule
  rcases hrule with rfl | rfl | rfl | rfl
  · exact h.internal hl.whitespace (by decide)
  · exact h.internal hl.spacing (by decide)
  · exact h.internal hl.lineEnd (by decide)
  · obtain ⟨alt, halt, hinner⟩ := h.fragment hl.endOfProduction
    have hend : ((Target.rule "RULE_EOL").language rules).Silent := fun _ _ h => (htold h).space (by decide)
    rcases List.mem_pair.1 halt with rfl | rfl
    · exact silent_language hend _ _ (languageAll_singleton hinner)
    · exact silent_language silent_endOfInput _ _ (languageAll_singleton hinner)

include htold in
/-- **The lexical rules derive what is said of them.** -/
theorem Lexical.derives (hl : Lexical t) (hquoted : t.lists "StringLiteral" false quotedSteps = true)
    (h : t.Derives isToken rules rule text ns) : LexicalTold rule text ns where
  name := by
    rintro rfl
    exact hl.derives_name h
  doubleQuoted := by
    rintro rfl
    exact not_mem_of_derives hl.doubleQuoted doubleQuoted_regex h
  singleQuoted := by
    rintro rfl
    exact not_mem_of_derives hl.singleQuoted singleQuoted_regex h
  quoted := by
    rintro rfl
    exact derives_quoted htold hquoted h
  code := by
    rintro rfl
    exact hl.derives_code h
  classPiece := by
    intro hrule
    simp only [List.mem_cons, List.not_mem_nil, or_false] at hrule
    rcases hrule with rfl | rfl | rfl | rfl
    · exact hl.derives_classItem htold h
    · exact hl.derives_classChar h
    · exact derives_span hl.charRange (fun h => (htold h).classPiece (by decide)) h
    · exact derives_span hl.codeRange (fun h => ((htold h).code rfl).2.classPiece) h
  charClass := by
    rintro rfl
    exact hl.derives_class htold h
  space hrule := hl.derives_space htold hrule h

end Lexical

/-! ## Items and alternatives -/

/-- An item that the rules derive: one that is legible, a class without characters, or the sign of a difference. -/
inductive Item.Derivable (style : Style) : Item → Prop
  | token {kind : String} {lead text tail : List Char}
    (htext : Lexeme kind text ∨ kind = "CharClass" ∧ text = hollowClass)
    (hlead : IsMark style.leadMarks lead) (htail : IsMark tailMarks tail) :
    Derivable style (.token kind lead text tail)
  | group {lead tail : List Char} {choice : List (List Item)} (hlead : IsMark style.leadMarks lead)
    (htail : IsMark tailMarks tail) (hne : choice ≠ []) (hnes : ∀ s ∈ choice, s ≠ [])
    (h : ∀ s ∈ choice, ∀ i ∈ s, Derivable style i) : Derivable style (.group lead choice tail)
  | minus : Derivable style (.token "Minus" [] [] [])

/-- Items, one or more. -/
def DerivableSequence (style : Style) (s : List Item) : Prop := s ≠ [] ∧ ∀ i ∈ s, i.Derivable style

/-- Alternatives, one or more. -/
def DerivableChoice (style : Style) (choice : List (List Item)) : Prop :=
  choice ≠ [] ∧ ∀ s ∈ choice, DerivableSequence style s

/-- A node that is an item with any marks around it. -/
def IsPrimary (style : Style) (n : Node) : Prop :=
  ∀ {lead tail}, IsMark style.leadMarks lead → IsMark tailMarks tail →
    ∃ i : Item, i.Derivable style ∧
      i.nodes = markNodes "PrimaryPreDecoration" lead ++ (n :: markNodes "PrimaryDecoration" tail)

/-- What a rule for alternatives of this name derives. -/
structure PhraseTold (style : Style) (rule : String) (text : List Char) (ns : List Node) : Prop
    extends LexicalTold rule text ns where
  lead : rule = "PrimaryPreDecoration" → ∃ c ∈ style.leadMarks, ns = [.token "PrimaryPreDecoration" [c]]
  tail : rule = "PrimaryDecoration" → ∃ c ∈ tailMarks, ns = [.token "PrimaryDecoration" [c]]
  minus : rule = "Minus" → ns = [.branch "Minus" []]
  group : rule = "SubItem" →
    ∃ choice, DerivableChoice style choice ∧ ns = [.branch "SubItem" (choice.map Item.sequenceNode)]
  primary : rule = "%Primary" → ∃ n, IsPrimary style n ∧ ns = [n]
  item : rule = style.itemRule → ∃ i : Item, i.Derivable style ∧ ns = i.nodes
  moreItems : rule = "%_Item_1" → ∃ s : List Item, (∀ i ∈ s, i.Derivable style) ∧ ns = s.flatMap Item.nodes
  sequence : rule = "SequenceOrDifference" → ∃ s, DerivableSequence style s ∧ ns = [Item.sequenceNode s]
  further : rule = "%_Choice_1" → ∃ s, DerivableSequence style s ∧ ns = [Item.sequenceNode s]
  choice : rule = style.choiceRule →
    ∃ choice, DerivableChoice style choice ∧ ns = choice.map Item.sequenceNode

/-- A lexeme is a primary, and so is the class without items. -/
theorem isPrimary_token {style : Style} {kind : String}
    (htext : Lexeme kind text ∨ kind = "CharClass" ∧ text = hollowClass) : IsPrimary style (.token kind text) :=
  fun hlead htail => ⟨.token kind _ text _, .token htext hlead htail, rfl⟩

/-- A group of derivable alternatives is a primary. -/
theorem isPrimary_group {style : Style} {choice : List (List Item)} (h : DerivableChoice style choice) :
    IsPrimary style (.branch "SubItem" (choice.map Item.sequenceNode)) :=
  fun hlead htail => ⟨.group _ choice _,
    .group hlead htail h.1 (fun s hs => (h.2 s hs).1) (fun s hs => (h.2 s hs).2), Item.nodes_group _ _ _⟩

/-- One of several marks. -/
theorem derives_mark {kind : String} {marks : List Char} (hrule : t.declares kind false (marks.map oneChar) = true)
    (htoken : isToken kind = true) (hkeeps : Draft.keeps false kind = true)
    (h : t.Derives isToken rules kind text ns) : ∃ c ∈ marks, ns = [.token kind [c]] := by
  obtain ⟨rfl, alt, halt, inner, hinner⟩ := h.token hrule htoken hkeeps
  obtain ⟨c, hc, rfl⟩ := List.mem_map.1 halt
  obtain ⟨rfl, -⟩ := language_one.1 (languageAll_singleton hinner)
  exact ⟨c, hc, rfl⟩

/-- Where a rule for marks may be left out, there are marks or none. -/
theorem isMark_of_shows {kind : String} {marks : List Char}
    (htold : ∀ {text ns}, rules kind text ns → ∃ c ∈ marks, ns = [.token kind [c]])
    (h : ((Step.optional (.rule kind)).language rules false).Shows ns) :
    ∃ mark, IsMark marks mark ∧ ns = markNodes kind mark := by
  rcases shows_optional h with rfl | ⟨text, h⟩
  · exact ⟨[], Or.inl rfl, rfl⟩
  · obtain ⟨c, hc, rfl⟩ := htold h
    exact ⟨[c], Or.inr ⟨c, hc, rfl⟩, rfl⟩

namespace Phrasal

variable {style : Style} (htold : ∀ {rule text ns}, rules rule text ns → PhraseTold style rule text ns)

/-- A difference leaves a node without children. -/
theorem derives_minus (hp : Phrasal style t) (h : t.Derives isToken rules "Minus" text ns) :
    ns = [.branch "Minus" []] := by
  obtain ⟨inner, rfl, alt, halt, hinner⟩ := h.branch hp.minus (by decide) (by decide)
  obtain rfl := List.mem_singleton.1 halt
  rw [shows_nil (shows_of_silent (silent_literal _) hinner)]

include htold

/-- White space leaves no nodes. -/
theorem silent_space {name : String} (hname : name ∈ ["RULE_WHITESPACE", "RULE_S", "RULE_EOL", "%EndOfProduction"]) :
    ((Target.rule name).language rules).Silent :=
  fun _ _ h => (htold h).space hname

theorem silent_gap : ((Target.rule style.gapRule).language rules).Silent := by
  cases style with
  | w3c => exact silent_space htold (by decide)
  | attributed => exact silent_space htold (by decide)

/-- A group derives as its alternatives. -/
theorem derives_group (hp : Phrasal style t) (h : t.Derives isToken rules "SubItem" text ns) :
    ∃ choice, DerivableChoice style choice ∧ ns = [.branch "SubItem" (choice.map Item.sequenceNode)] := by
  obtain ⟨inner, rfl, alt, halt, hinner⟩ := h.branch hp.group (by decide) (by decide)
  obtain rfl := List.mem_singleton.1 halt
  have hinner := shows_of_silent (silent_gap htold) (shows_of_silent (silent_literal _) hinner)
  obtain ⟨ms, ks, rfl, hchoice, hrest⟩ := shows_cons hinner
  have hrest := shows_of_silent (silent_literal _) (shows_of_silent (silent_gap htold) hrest)
  obtain ⟨text, hchoice⟩ := shows_one hchoice
  obtain ⟨choice, hderivable, rfl⟩ := (htold hchoice).choice rfl
  rw [shows_nil hrest, List.append_nil]
  exact ⟨choice, hderivable, rfl⟩

/-- A primary derives as one node. -/
theorem derives_primary (hp : Phrasal style t) (h : t.Derives isToken rules "%Primary" text ns) :
    ∃ n, IsPrimary style n ∧ ns = [n] := by
  obtain ⟨alt, halt, hinner⟩ := h.fragment hp.primary
  have hone : ∀ {name : String}, languageAll rules [.one (.rule name)] text ns → PhraseTold style name text ns :=
    fun hname => htold (language_one.1 (languageAll_singleton hname))
  simp only [List.mem_cons, List.not_mem_nil, or_false] at halt
  rcases halt with rfl | rfl | rfl | rfl | rfl
  · obtain ⟨rfl, hname⟩ := (hone hinner).name rfl
    exact ⟨_, isPrimary_token (Or.inl (.name hname)), rfl⟩
  · obtain ⟨rfl, hquoted⟩ := (hone hinner).quoted rfl
    exact ⟨_, isPrimary_token (Or.inl (.quoted hquoted)), rfl⟩
  · obtain ⟨rfl, hcode⟩ := (hone hinner).code rfl
    exact ⟨_, isPrimary_token (Or.inl (.code hcode)), rfl⟩
  · obtain ⟨rfl, hclass⟩ := (hone hinner).charClass rfl
    exact ⟨_, isPrimary_token (hclass.imp .charClass fun hhollow => ⟨rfl, hhollow⟩), rfl⟩
  · obtain ⟨choice, hderivable, rfl⟩ := (hone hinner).group rfl
    exact ⟨_, isPrimary_group hderivable, rfl⟩

/-- An item derives as the nodes of an item. -/
theorem derives_item (hp : Phrasal style t) (h : t.Derives isToken rules style.itemRule text ns) :
    ∃ i : Item, i.Derivable style ∧ ns = i.nodes := by
  obtain ⟨alt, halt, hinner⟩ := h.fragment hp.item
  obtain rfl := List.mem_singleton.1 halt
  have hinner := shows_of_silent (silent_space htold (by decide)) ⟨text, hinner⟩
  obtain ⟨leads, more, rfl, hlead, hmore⟩ := shows_cons hinner
  obtain ⟨ns, tails, rfl, ⟨_, hprimary⟩, htail⟩ := shows_cons hmore
  obtain ⟨lead, hleads, rfl⟩ := isMark_of_shows (fun h => (htold h).lead rfl) hlead
  obtain ⟨tail, htails, rfl⟩ := isMark_of_shows (fun h => (htold h).tail rfl) (shows_singleton htail)
  obtain ⟨n, hn, rfl⟩ := (htold (language_one.1 hprimary)).primary rfl
  obtain ⟨i, hi, hnodes⟩ := hn hleads htails
  exact ⟨i, hi, hnodes.symm⟩

/-- Further items derive as the nodes of items. -/
theorem derives_moreItems (hp : Phrasal style t) (h : t.Derives isToken rules "%_Item_1" text ns) :
    ∃ s : List Item, (∀ i ∈ s, i.Derivable style) ∧ ns = s.flatMap Item.nodes := by
  have hitem : ∀ {ns}, ((Target.rule style.itemRule).language rules).Shows ns →
      ∃ i : Item, i.Derivable style ∧ ns = i.nodes := by
    rintro ns ⟨text, h⟩
    exact (htold h).item rfl
  obtain ⟨alt, halt, hinner⟩ := h.fragment hp.moreItems
  rcases List.mem_pair.1 halt with rfl | rfl
  · obtain ⟨ms, ks, rfl, ⟨_, hminus⟩, hlast⟩ := shows_cons ⟨text, hinner⟩
    obtain ⟨i, hi, rfl⟩ := hitem (shows_one (shows_singleton hlast))
    refine ⟨[.token "Minus" [] [] [], i], ?_, ?_⟩
    · simp only [List.forall_mem_cons]
      exact ⟨.minus, hi, by simp⟩
    · rw [(htold (language_one.1 hminus)).minus rfl]
      simp [Item.nodes, markNodes, Node.token, Node.branch]
  · exact shows_star hitem (shows_singleton ⟨text, hinner⟩)

/-- A sequence derives as the node of one. -/
theorem derives_sequence (hp : Phrasal style t) (h : t.Derives isToken rules "SequenceOrDifference" text ns) :
    ∃ s, DerivableSequence style s ∧ ns = [Item.sequenceNode s] := by
  obtain ⟨inner, rfl, alt, halt, hinner⟩ := h.branch hp.sequence (by decide) (by decide)
  obtain rfl := List.mem_singleton.1 halt
  obtain ⟨ms, ks, rfl, ⟨_, hfirst⟩, hrest⟩ := shows_cons hinner
  have hrest := shows_singleton (shows_of_silent (silent_space htold (by decide)) hrest)
  obtain ⟨i, hi, rfl⟩ := (htold (language_one.1 hfirst)).item rfl
  have hmore : ∃ s : List Item, (∀ i ∈ s, i.Derivable style) ∧ ks = s.flatMap Item.nodes := by
    rcases shows_optional hrest with rfl | ⟨_, hmore⟩
    · exact ⟨[], nofun, rfl⟩
    · exact (htold hmore).moreItems rfl
  obtain ⟨s, hs, rfl⟩ := hmore
  exact ⟨i :: s, ⟨List.cons_ne_nil _ _, List.forall_mem_cons.2 ⟨hi, hs⟩⟩, rfl⟩

/-- A further alternative derives as the node of a sequence. -/
theorem derives_further (hp : Phrasal style t) (h : t.Derives isToken rules "%_Choice_1" text ns) :
    ∃ s, DerivableSequence style s ∧ ns = [Item.sequenceNode s] := by
  obtain ⟨alt, halt, hinner⟩ := h.fragment hp.further
  obtain rfl := List.mem_singleton.1 halt
  have hrest := shows_of_silent (silent_literal _) (shows_of_silent (silent_gap htold) ⟨text, hinner⟩)
  obtain ⟨_, hlast⟩ := shows_one (shows_singleton (shows_of_silent (silent_gap htold) hrest))
  exact (htold hlast).sequence rfl

/-- A choice derives as the nodes of its sequences. -/
theorem derives_choice (hp : Phrasal style t) (h : t.Derives isToken rules style.choiceRule text ns) :
    ∃ choice, DerivableChoice style choice ∧ ns = choice.map Item.sequenceNode := by
  obtain ⟨alt, halt, hinner⟩ := h.fragment hp.choice
  obtain rfl := List.mem_singleton.1 halt
  obtain ⟨ms, ks, rfl, ⟨_, hfirst⟩, hrest⟩ := shows_cons ⟨text, hinner⟩
  obtain ⟨s, hs, rfl⟩ := (htold (language_one.1 hfirst)).sequence rfl
  have hmore : ∀ {ns}, ((Target.rule "%_Choice_1").language rules).Shows ns →
      ∃ s, DerivableSequence style s ∧ ns = [Item.sequenceNode s] := by
    rintro ns ⟨text, h⟩
    exact (htold h).further rfl
  obtain ⟨others, hothers, rfl⟩ := shows_star hmore (shows_singleton hrest)
  refine ⟨s :: others, ⟨List.cons_ne_nil _ _, List.forall_mem_cons.2 ⟨hs, hothers⟩⟩, ?_⟩
  rw [List.map_cons, List.map_eq_flatMap]
  rfl

/-- **The rules for alternatives derive what is said of them.** -/
theorem derives (hp : Phrasal style t) (hquoted : t.lists "StringLiteral" false quotedSteps = true)
    (h : t.Derives isToken rules rule text ns) : PhraseTold style rule text ns where
  toLexicalTold := hp.toLexical.derives (fun h => (htold h).toLexicalTold) hquoted h
  lead := by
    rintro rfl
    exact derives_mark hp.lead (by decide) (by decide) h
  tail := by
    rintro rfl
    exact derives_mark hp.tail (by decide) (by decide) h
  minus := by
    rintro rfl
    exact hp.derives_minus h
  group := by
    rintro rfl
    exact derives_group htold hp h
  primary := by
    rintro rfl
    exact derives_primary htold hp h
  item := by
    rintro rfl
    exact derives_item htold hp h
  moreItems := by
    rintro rfl
    exact derives_moreItems htold hp h
  sequence := by
    rintro rfl
    exact derives_sequence htold hp h
  further := by
    rintro rfl
    exact derives_further htold hp h
  choice := by
    rintro rfl
    exact derives_choice htold hp h

end Phrasal

end Grammarian.Notation
