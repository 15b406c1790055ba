import Grammarian.Proofs.Notation.Characters
import Grammarian.Proofs.Notation.Marks

/-!
# Terminals written and read

When the item that a terminal is written as is read as this terminal again. A literal has to be one that is
not taken apart, a pattern for one character must not be for the backslash, and the escapes of a class have
to be those that its codes become.
-/

namespace Grammarian.Notation

/-- A literal that is written so that it is read as it is: not both quotation marks occur in it, and it is
not taken apart. -/
def literalSurvives (value : List Char) : Bool :=
  !('"' ∈ value && '\'' ∈ value) && (value.isEmpty || !(Literal.quoted value).all isSplittable)

/-- A pattern that is written so that it is read as it is. -/
def patternSurvives (p : Pattern) : Bool :=
  singleChar? p.source.toList ≠ some '\\'
    && CharCode.expand (CharCode.restore p.source.toList) = p.source.toList

/-- A pattern that is written as a code or class. -/
def IsCoded (p : Pattern) : Prop :=
  singleChar? p.source.toList = none ∧
    (IsCode (CharCode.restore p.source.toList) ∨ IsClass (CharCode.restore p.source.toList))

/-- The patterns that items stand for: one character of a literal, or a code or class. -/
def Writable (p : Pattern) : Prop :=
  (∃ c, singleChar? p.source.toList = some c ∧ isSplittable c = true) ∨ IsCoded p

variable {scope : Attributes} {parent : String} {c : Compiled} {p : Pattern} {lead text tail : List Char}

/-! ## Literals -/

/-- An unmarked literal compiles to the symbols it is split into. -/
theorem symbols_plainLiteral {symbols : List Symbol}
    (h : splitLiteral (String.ofList text) (scope.flag "ignoreCase") = .ok symbols) :
    (Item.token "StringLiteral" [] text []).symbols .attributed parent scope c = .ok (symbols, c) := by
  have hlead : leadMark [] = "" := rfl
  have htail : String.ofList [] = "" := rfl
  simp only [Item.symbols, tokenSymbols, literalSymbols, hlead, htail, and_self, if_true, h]
  rfl

/-- The symbols of an unmarked literal are those it is split into. -/
theorem splitLiteral_of_symbols {symbols : List Symbol} {c' : Compiled}
    (h : (Item.token "StringLiteral" [] text []).symbols .attributed parent scope c = .ok (symbols, c')) :
    splitLiteral (String.ofList text) (scope.flag "ignoreCase") = .ok symbols := by
  cases hsplit : splitLiteral (String.ofList text) (scope.flag "ignoreCase") with
  | error e =>
    have hlead : leadMark [] = "" := rfl
    have htail : String.ofList [] = "" := rfl
    simp only [Item.symbols, tokenSymbols, literalSymbols, hlead, htail, and_self, if_true, hsplit] at h
    cases h
  | ok more =>
    rw [symbols_plainLiteral hsplit] at h
    cases h
    rfl

/-- Between its marks, a quoted text is written character by character. -/
theorem inner_quoted (value : List Char) :
    (Literal.quoted value).tail.dropLast = value.flatMap (Literal.quotedChar (Literal.quoteMark value)) := by
  rw [Literal.quoted_eq, List.tail_cons, List.dropLast_concat]

/-- A literal that survives is quoted. -/
theorem isQuoted_of_survives {value : List Char} (h : literalSurvives value = true) :
    IsQuoted (Literal.quoted value) := by
  simp only [literalSurvives, Bool.and_eq_true, Bool.not_eq_true', Bool.and_eq_false_iff,
    decide_eq_false_iff_not] at h
  exact Literal.isQuoted_quoted fun hboth => h.1.elim (fun hnot => hnot hboth.1) fun hnot => hnot hboth.2

/-- A literal that is not taken apart is read as its value. -/
theorem splitLiteral_of_survives {value : List Char} (h : literalSurvives value = true) (ignoreCase : Bool) :
    splitLiteral (String.ofList (Literal.quoted value)) ignoreCase = .ok [.literal (String.ofList value)] := by
  have hquoted := isQuoted_of_survives h
  simp only [literalSurvives, Bool.and_eq_true, Bool.not_eq_true', Bool.or_eq_true] at h
  obtain ⟨-, hwhole⟩ := h
  have hcondition : ((Literal.quoted value).tail.dropLast.isEmpty || !(Literal.quoted value).all isSplittable) =
      true := by
    rw [inner_quoted, Bool.or_eq_true]
    refine hwhole.imp (fun hempty => ?_) (fun hnot => by rw [hnot]; rfl)
    rw [List.isEmpty_iff.1 hempty]
    rfl
  have hvalue : Literal.decode (String.ofList (Literal.quoted value)) = String.ofList value := by
    have hdecode := Literal.decode_quote (String.ofList value)
    rwa [Literal.quote, String.toList_ofList] at hdecode
  rw [splitLiteral]
  simp only [String.toList_ofList]
  rw [if_pos hcondition, ofText_quoted hquoted, hvalue]

theorem bare_quoted (value : List Char) : Bare (Literal.quoted value) := by
  have hmark := Literal.isQuote_quoteMark value
  simp only [Literal.isQuote, Bool.or_eq_true, decide_eq_true_eq] at hmark
  refine ⟨⟨_, _, Literal.quoted_eq value, ?_⟩, _, _, rfl, ?_⟩
  · rcases hmark with hmark | hmark
    · rw [hmark]
      decide
    · rw [hmark]
      decide
  · rcases hmark with hmark | hmark
    · rw [hmark]
      decide
    · rw [hmark]
      decide

/-- What is written of a value is read as the literal of it. -/
theorem ofText_quote (value : String) : Symbol.ofText (Literal.quote value) = .literal value := by
  have hlead : IsMark (Style.leadMarks .attributed) [] := .inl rfl
  have htail : IsMark tailMarks [] := .inl rfl
  have hread := ofText_marked hlead htail (bare_quoted value.toList)
  have htext : leadMark [] ++ String.ofList (Literal.quoted value.toList) ++ String.ofList [] =
      Literal.quote value := by
    simp [leadMark, Literal.quote]
  have hliteral : (referenceOf [] (Literal.quote value) []).isLiteral = true := by
    simpa [Reference.isLiteral, referenceOf, Literal.quote, Literal.quoted_eq, Literal.isQuote] using
      Literal.isQuote_quoteMark value.toList
  have hplain := (isPlain_referenceOf hlead htail (Literal.quote value)).2 ⟨rfl, rfl⟩
  have hquote : String.ofList (Literal.quoted value.toList) = Literal.quote value := rfl
  rw [htext, hquote] at hread
  simp only [Symbol.ofText, hread, hliteral, hplain, Bool.and_self, if_true]
  exact congrArg Symbol.literal (Literal.decode_quote value)

/-- What is written of a value is an item for the literal where literals are not taken apart. -/
theorem symbols_quote (value : String) :
    (Item.token "StringLiteral" [] (Literal.quoted value.toList) []).symbols .w3c parent scope c =
      .ok ([.literal value], c) := by
  have hlead : leadMark [] = "" := rfl
  have htail : String.ofList [] = "" := rfl
  have hmarked : marked "" (String.ofList (Literal.quoted value.toList)) "" = .literal value := by
    rw [marked, String.empty_append, String.append_empty]
    exact ofText_quote value
  simp only [Item.symbols, tokenSymbols, literalSymbols, hlead, htail, hmarked]
  rfl

/-! ## Single characters -/

/-- The source of a pattern for one character is that character escaped. -/
theorem escapeChar_of_singleChar? {source : List Char} {d : Char} (h : singleChar? source = some d) :
    escapeChar d = source := by
  rw [singleChar?.eq_def] at h
  split at h
  next e =>
    split at h
    next heq =>
      cases h
      exact heq
    next => cases h
  next e =>
    split at h
    next heq =>
      cases h
      exact heq
    next => cases h
  next => cases h

/-- One character other than a backslash is quoted by the mark that it is not. -/
theorem quoted_single {d : Char} (hd : isSplittable d = true) (hslash : d ≠ '\\') :
    Literal.quoted [d] = [Literal.quoteMark [d], d, Literal.quoteMark [d]] ∧ Literal.quoteMark [d] ≠ d := by
  have hmark : Literal.quoteMark [d] ≠ d := by
    have hnot : Literal.quoteMark [d] ∉ [d] := Literal.quoteMark_not_mem (by
      simp only [List.mem_singleton]
      rintro ⟨rfl, hother⟩
      exact absurd hother (by decide))
    simpa using hnot
  refine ⟨?_, hmark⟩
  have hcontrol : ∀ e ∈ ['\n', '\r', '\t'], d ≠ e := by
    rintro e he rfl
    have hnone : ∀ e ∈ ['\n', '\r', '\t'], isSplittable e = false := by decide
    rw [hnone d he] at hd
    cases hd
  have hself : Literal.quotedChar (Literal.quoteMark [d]) d = [d] := by
    unfold Literal.quotedChar
    split
    next => exact absurd rfl hslash
    next => exact absurd rfl (hcontrol '\n' (by simp))
    next => exact absurd rfl (hcontrol '\r' (by simp))
    next => exact absurd rfl (hcontrol '\t' (by simp))
    next => rw [if_neg hmark.symm]
  rw [Literal.quoted_eq, List.flatMap_singleton, hself]
  rfl

/-- A character in quotes is read as the pattern for it. -/
theorem splitLiteral_single {d : Char} (hp : singleChar? p.source.toList = some d) (hd : isSplittable d = true)
    (hslash : d ≠ '\\') : splitLiteral (String.ofList (Literal.quoted [d])) false = .ok [.pattern p] := by
  obtain ⟨hquoted, -⟩ := quoted_single hd hslash
  have hmark : isSplittable (Literal.quoteMark [d]) = true := by
    have hq := Literal.isQuote_quoteMark [d]
    simp only [Literal.isQuote, Bool.or_eq_true, decide_eq_true_eq] at hq
    rcases hq with hq | hq
    · rw [hq]; decide
    · rw [hq]; decide
  have hsource : String.ofList (charSource false d) = p.source := by
    rw [charSource, if_neg (by simp), escapeChar_of_singleChar? hp, String.ofList_toList]
  rw [splitLiteral]
  simp only [String.toList_ofList, hquoted]
  simp only [List.tail_cons, List.dropLast_cons_cons, List.dropLast_singleton, List.isEmpty_cons, List.all_cons, hd,
    hmark, List.all_nil, Bool.and_self, Bool.not_true, Bool.or_self, Bool.false_eq_true, if_false, List.mapM_cons,
    List.mapM_nil, hsource, Pattern.compile_source]
  rfl

/-! ## Helpers -/

/-- No lexeme is named like a helper. -/
theorem Lexeme.not_helper {kind : String} (h : Lexeme kind text) : isHelperName (String.ofList text) = false := by
  obtain ⟨c, cs, rfl, hc⟩ := h.opens
  rw [isHelperName, String.toList_ofList]
  split
  next heq =>
    obtain ⟨rfl, -⟩ := List.cons.inj heq
    exact absurd hc (by decide)
  next => rfl

theorem IsName.not_helper (h : IsName text) : isHelperName (String.ofList text) = false :=
  (Lexeme.name h).not_helper

/-- The number at the end of the name of a helper. -/
theorem helperName_eq (c : Compiled) (parent : String) : ∃ front, (c.helperName parent).toList =
    '%' :: (front ++ '_' :: Nat.toDigits 10 c.helpers) := by
  refine ⟨parent.toList.dropWhile (· = '%'), ?_⟩
  rw [Compiled.helperName]
  simp

/-- The names that compiling makes are names of helpers. -/
theorem isHelperName_helperName (c : Compiled) (parent : String) : isHelperName (c.helperName parent) = true := by
  obtain ⟨front, hname⟩ := helperName_eq c parent
  simp only [isHelperName, hname]

theorem bare_helperName (c : Compiled) (parent : String) : Bare (c.helperName parent).toList := by
  obtain ⟨front, hname⟩ := helperName_eq c parent
  have hne : Nat.toDigits 10 c.helpers ≠ [] := Nat.toDigits_ne_nil
  refine ⟨⟨'%', _, hname, by decide⟩, '%' :: (front ++ '_' :: (Nat.toDigits 10 c.helpers).dropLast),
    (Nat.toDigits 10 c.helpers).getLast hne, ?_, ?_⟩
  · rw [hname]
    conv_lhs => rw [← List.dropLast_append_getLast hne]
    simp
  · have hdigit := Nat.isDigit_of_mem_toDigits (by decide) (by decide) (List.getLast_mem hne)
    intro hmem
    have hmarks : ∀ d ∈ tailMarks, d.isDigit = false := by decide
    rw [hmarks _ hmem] at hdigit
    cases hdigit

/-- The reference to a helper. -/
theorem marked_helperName (hlead : IsMark (Style.leadMarks .attributed) lead) (htail : IsMark tailMarks tail)
    (c : Compiled) (parent : String) :
    marked (leadMark lead) (c.helperName parent) (String.ofList tail) =
      .reference (referenceOf lead (c.helperName parent) tail) := by
  have hname : String.ofList (c.helperName parent).toList = c.helperName parent := String.ofList_toList
  have hliteral : (referenceOf lead (c.helperName parent) tail).isLiteral = false := by
    obtain ⟨front, hname⟩ := helperName_eq c parent
    simp [Reference.isLiteral, referenceOf, hname]
  have hmarked := marked_name hlead htail (bare_helperName c parent) (by rw [hname]; exact hliteral)
  rwa [hname] at hmarked

/-- The helper for a code or class with marks. -/
def classHelper (name : String) (p : Pattern) (skips : Bool) : Rule :=
  { helper name [[.pattern p]] with implicitWhitespace := some skips }

theorem leadMark_eq_empty (hlead : IsMark (Style.leadMarks .attributed) lead) : leadMark lead = "" ↔ lead = [] := by
  rcases hlead with rfl | ⟨m, hm, rfl⟩
  · simp [leadMark]
  · simp only [Style.leadMarks, List.mem_cons, List.not_mem_nil, or_false] at hm
    rcases hm with rfl | rfl | rfl
    all_goals simp [leadMark]

/-- An item has no marks where none is put on it. -/
theorem unmarked_iff (hlead : IsMark (Style.leadMarks .attributed) lead) (tail : List Char) :
    leadMark lead = "" ∧ String.ofList tail = "" ↔ lead = [] ∧ tail = [] := by
  rw [leadMark_eq_empty hlead, ← String.toList_inj, String.toList_ofList]
  rfl

/-- A literal with marks is a reference. -/
theorem symbols_markedLiteral {style : Style} (hlead : IsMark (Style.leadMarks .attributed) lead)
    (htail : IsMark tailMarks tail) (htext : IsQuoted text) (hmarks : ¬ (lead = [] ∧ tail = [])) :
    (Item.token "StringLiteral" lead text tail).symbols style parent scope c =
      .ok ([.reference (referenceOf lead (String.ofList text) tail)], c) := by
  simp only [Item.symbols, tokenSymbols, literalSymbols, unmarked_iff hlead tail, hmarks, and_false, if_false]
  rw [marked_quoted hlead htail htext hmarks]
  rfl

/-- A class or code compiles from its expanded text. -/
theorem symbols_class_eq {style : Style} {kind : String} (hkind : kind = "CharCode" ∨ kind = "CharClass")
    (lead text tail : List Char) : (Item.token kind lead text tail).symbols style parent scope c =
      (classSymbol parent scope (leadMark lead) (String.ofList text) (String.ofList tail) c).map fun r =>
        ([r.1], r.2) := by
  rcases hkind with rfl | rfl
  · rfl
  · rfl

/-- A class or code whose expanded text is a pattern compiles to it, with its marks. -/
theorem symbols_class {style : Style} {kind : String} (hkind : kind = "CharCode" ∨ kind = "CharClass")
    (hlead : IsMark (Style.leadMarks .attributed) lead) (htail : IsMark tailMarks tail)
    (hp : Pattern.compile (String.ofList (CharCode.expand text)) = .ok p) :
    (Item.token kind lead text tail).symbols style parent scope c = .ok (if lead = [] ∧ tail = [] then
      ([.pattern p], c)
    else ([.reference (referenceOf lead (c.helperName parent) tail)],
      c.countHelper.push (classHelper (c.helperName parent) p (scope.whitespace?.getD false)))) := by
  rw [symbols_class_eq hkind, classSymbol, String.toList_ofList, hp]
  simp only [unmarked_iff hlead tail]
  split
  next => rfl
  next =>
    rw [marked_helperName hlead htail]
    rfl

/-! ## Patterns -/

/-- The pattern of a class is written as a class. -/
theorem patternItem_of_none (lead tail : List Char) (hp : IsCoded p) :
    ∃ kind, (kind = "CharCode" ∨ kind = "CharClass") ∧ Lexeme kind (CharCode.restore p.source.toList) ∧
      patternItem lead p tail = .token kind lead (CharCode.restore p.source.toList) tail := by
  rw [patternItem, hp.1]
  rcases hp.2 with hcode | hclass
  · obtain ⟨cs, hcs, -⟩ := id hcode
    refine ⟨"CharCode", Or.inl rfl, .code hcode, ?_⟩
    simp [hcs]
  · obtain ⟨caret, body, hbody, -⟩ := id hclass
    refine ⟨"CharClass", Or.inr rfl, .charClass hclass, ?_⟩
    simp [hbody]

/-- A pattern that survives is read back from its restored source. -/
theorem compile_restore (h : patternSurvives p = true) :
    Pattern.compile (String.ofList (CharCode.expand (CharCode.restore p.source.toList))) = .ok p := by
  simp only [patternSurvives, Bool.and_eq_true, decide_eq_true_eq] at h
  rw [h.2, String.ofList_toList, Pattern.compile_source]

/-- A single character is written in quotes. -/
theorem patternItem_of_single {d : Char} (lead tail : List Char) (hsingle : singleChar? p.source.toList = some d) :
    patternItem lead p tail = .token "StringLiteral" lead (Literal.quoted [d]) tail ∧
      IsQuoted (Literal.quoted [d]) := by
  refine ⟨by rw [patternItem, hsingle], Literal.isQuoted_quoted ?_⟩
  simp only [List.mem_singleton]
  rintro ⟨rfl, hother⟩
  exact absurd hother (by decide)

/-- A writable pattern is written legibly. -/
theorem legible_patternItem (hwritable : Writable p) : (patternItem [] p []).Legible .attributed := by
  rcases hwritable with ⟨d, hsingle, -⟩ | hcoded
  · obtain ⟨hitem, hquoted⟩ := patternItem_of_single [] [] hsingle
    rw [hitem]
    exact .token (.quoted hquoted) (.inl rfl) (.inl rfl)
  · obtain ⟨kind, -, hlexeme, hitem⟩ := patternItem_of_none [] [] hcoded
    rw [hitem]
    exact .token hlexeme (.inl rfl) (.inl rfl)

/-- A pattern is read as it is where it is written. -/
theorem symbols_patternItem (hwritable : Writable p) (h : patternSurvives p = true)
    (hcase : scope.flag "ignoreCase" = false) :
    (patternItem [] p []).symbols .attributed parent scope c = .ok ([.pattern p], c) := by
  rcases hwritable with ⟨d, hsingle, hd⟩ | hcoded
  · have hslash : d ≠ '\\' := by
      simp only [patternSurvives, hsingle, Bool.and_eq_true, decide_eq_true_eq, ne_eq, Option.some.injEq] at h
      exact h.1
    rw [(patternItem_of_single [] [] hsingle).1]
    exact symbols_plainLiteral (hcase ▸ splitLiteral_single hsingle hd hslash)
  · obtain ⟨kind, hkind, -, hitem⟩ := patternItem_of_none [] [] hcoded
    rw [hitem, symbols_class hkind (.inl rfl) (.inl rfl) (compile_restore h), if_pos ⟨rfl, rfl⟩]

end Grammarian.Notation
