import Grammarian.Proofs.Notation.Lexemes

/-!
# The items of classes

A class is read as items: ranges of codes, ranges of characters, codes, and characters that are none of these. At every
place the first of them that is there is read, and a code is as long as letters and digits follow. So every text of
class characters is read as items in one way, which is the way the class is meant.
-/

namespace Grammarian.Notation

open Text

/-- A code stands at the front. -/
def opensCode : List Char → Bool
  | '#' :: 'x' :: d :: _ => isAsciiAlnum d
  | _ => false

/-- A dash stands at the front, and such a text behind it. -/
def opensSpan (opens : List Char → Bool) : List Char → Bool
  | '-' :: rest => opens rest
  | _ => false

/-- Whether the text begins with such a character. -/
def opensWith (p : Char → Bool) (cs : List Char) : Bool := cs.head?.any p

/-- An item of a class. -/
inductive ClassItem where
  | char (c : Char)
  | range (low high : Char)
  | code (digits : List Char)
  | codeRange (low high : List Char)
  deriving DecidableEq

namespace ClassItem

def text : ClassItem → List Char
  | char c => [c]
  | range low high => [low, '-', high]
  | code digits => '#' :: 'x' :: digits
  | codeRange low high => '#' :: 'x' :: low ++ '-' :: '#' :: 'x' :: high

/-- The rule that reads the item. -/
def kind : ClassItem → String
  | char _ => "RULE_Char"
  | range .. => "CharRange"
  | code _ => "CharCode"
  | codeRange .. => "CharCodeRange"

def node (i : ClassItem) : Node := .token i.kind i.text

/-- The digits of a code, all of them. -/
def isDigits (digits rest : List Char) : Bool :=
  !digits.isEmpty && digits.all isAsciiAlnum && !opensWith isAsciiAlnum rest

/-- Whether the item is the one that stands in front of `rest`. -/
def fits : ClassItem → List Char → Bool
  | char c, rest => isClassChar c && !opensCode (c :: rest) && !opensSpan (opensWith isClassChar) rest
  | range low high, _ => isClassChar low && isClassChar high
  | code digits, rest => isDigits digits rest && !opensSpan opensCode rest
  | codeRange low high, rest => isDigits low ['-'] && isDigits high rest

/-- What holds of every item and the text behind it, up to the closing bracket. -/
def allIn (holds : ClassItem → List Char → Bool) : List ClassItem → Bool
  | [] => true
  | i :: items => holds i (items.flatMap text ++ [']']) && allIn holds items

end ClassItem

/-- The caret of a class that stands for all other characters. -/
def caretText (negated : Bool) : List Char := if negated then ['^'] else []

/-- Items between brackets. -/
def classText (negated : Bool) (items : List ClassItem) : List Char :=
  '[' :: (caretText negated ++ (items.flatMap ClassItem.text ++ [']']))

/-- What is behind a caret, or begins with none. -/
def BehindCaret (negated : Bool) (cs : List Char) : Prop := negated = true ∨ Clear (· = '^') cs

/-- Items that are read as they are when they are written one after another between brackets. -/
structure IsClassItems (negated : Bool) (items : List ClassItem) : Prop where
  nonempty : items ≠ []
  fits : ClassItem.allIn ClassItem.fits items = true
  caret : BehindCaret negated (items.flatMap ClassItem.text)

/-! ## Every class has items -/

section Items

variable {cs rest body : List Char} {c : Char} {i : ClassItem} {items : List ClassItem}

/-- A code opens with a hash sign, an x and a letter or digit. -/
theorem opensCode_iff : opensCode cs = true ↔ ∃ d r, cs = '#' :: 'x' :: d :: r ∧ isAsciiAlnum d = true := by
  rw [opensCode.eq_def]
  split
  next d r => simp
  next hnone =>
    refine iff_of_false Bool.false_ne_true ?_
    rintro ⟨d, r, rfl, -⟩
    exact hnone d r rfl

/-- A span goes on with a hyphen and something that opens its end. -/
theorem opensSpan_iff {opens : List Char → Bool} : opensSpan opens cs = true ↔ ∃ r, cs = '-' :: r ∧ opens r = true := by
  rw [opensSpan.eq_def]
  split
  next r => simp
  next hnone =>
    refine iff_of_false Bool.false_ne_true ?_
    rintro ⟨r, rfl, -⟩
    exact hnone r rfl

theorem opensWith_eq_false_iff {p : Char → Bool} : opensWith p cs = false ↔ Clear p cs := by
  cases cs with
  | nil => simp [opensWith]
  | cons c cs => simp [opensWith]

/-- Digits are those of a code if they make one and no letter or digit follows. -/
theorem isDigits_iff {digits : List Char} : ClassItem.isDigits digits rest = true ↔
    IsCode ('#' :: 'x' :: digits) ∧ Clear isAsciiAlnum rest := by
  rw [ClassItem.isDigits, Bool.and_eq_true, Bool.and_eq_true, Bool.not_eq_true', Bool.not_eq_true',
    opensWith_eq_false_iff, List.isEmpty_eq_false_iff, List.all_eq_true]
  refine and_congr_left fun _ => ⟨fun h => ⟨digits, rfl, h⟩, ?_⟩
  rintro ⟨cs, hcs, h⟩
  cases hcs
  exact h

/-- Where a code stands, its digits are as many letters and digits as there are. -/
theorem exists_digits (h : opensCode cs = true) :
    ∃ digits rest, cs = '#' :: 'x' :: digits ++ rest ∧ ClassItem.isDigits digits rest = true := by
  obtain ⟨d, r, rfl, hd⟩ := opensCode_iff.1 h
  refine ⟨(d :: r).takeWhile isAsciiAlnum, (d :: r).dropWhile isAsciiAlnum, ?_, ?_⟩
  · rw [List.cons_append, List.cons_append, List.takeWhile_append_dropWhile]
  · have hclear := opensWith_eq_false_iff.2 (clear_dropWhile isAsciiAlnum (d :: r))
    rw [ClassItem.isDigits, hclear, List.all_takeWhile, List.takeWhile_cons, if_pos hd]
    rfl

/-- In front of a character of classes stands an item. -/
theorem exists_fits (hc : isClassChar c = true) (cs : List Char) :
    ∃ (i : ClassItem) (rest : List Char), c :: cs = i.text ++ rest ∧ i.fits rest = true := by
  by_cases hcode : opensCode (c :: cs) = true
  · obtain ⟨digits, rest, hsplit, hdigits⟩ := exists_digits hcode
    by_cases hspan : opensSpan opensCode rest = true
    · obtain ⟨r, rfl, hr⟩ := opensSpan_iff.1 hspan
      obtain ⟨digits', rest', rfl, hdigits'⟩ := exists_digits hr
      refine ⟨.codeRange digits digits', rest', by simp [hsplit, ClassItem.text], ?_⟩
      have hdash : ClassItem.isDigits digits ['-'] =
          ClassItem.isDigits digits ('-' :: ('#' :: 'x' :: digits' ++ rest')) := rfl
      rw [ClassItem.fits, hdash, hdigits, hdigits']
      rfl
    · exact ⟨.code digits, rest, hsplit, by simp [ClassItem.fits, hdigits, hspan]⟩
  · by_cases hspan : opensSpan (opensWith isClassChar) cs = true
    · obtain ⟨r, rfl, hr⟩ := opensSpan_iff.1 hspan
      cases r with
      | nil => cases hr
      | cons d r => exact ⟨.range c d, r, rfl, by simpa [ClassItem.fits, hc, opensWith] using hr⟩
    · exact ⟨.char c, cs, rfl, by simp [ClassItem.fits, hc, hcode, hspan]⟩

theorem ClassItem.isClassChar_of_fits (h : i.fits rest = true) : ∀ d ∈ i.text, isClassChar d = true := by
  cases i with
  | char c =>
    simp only [fits, Bool.and_eq_true] at h
    simpa [text] using h.1.1
  | range low high =>
    rw [fits, Bool.and_eq_true] at h
    simp only [text, List.forall_mem_cons]
    exact ⟨h.1, by decide, h.2, nofun⟩
  | code digits =>
    rw [fits, Bool.and_eq_true, isDigits_iff] at h
    exact h.1.1.isClassChar
  | codeRange low high =>
    rw [fits, Bool.and_eq_true, isDigits_iff, isDigits_iff] at h
    exact List.forall_mem_append.2 ⟨h.1.1.isClassChar, List.forall_mem_cons.2 ⟨by decide, h.2.1.isClassChar⟩⟩

theorem ClassItem.text_ne_nil (i : ClassItem) : i.text ≠ [] := by
  cases i with
  | char | range | code | codeRange => exact List.cons_ne_nil _ _

/-- Characters of classes are items of a class. The induction is on the characters that are left. -/
theorem exists_items (hne : body ≠ []) (hbody : ∀ d ∈ body, isClassChar d = true) :
    ∃ items, items ≠ [] ∧ body = items.flatMap ClassItem.text ∧ ClassItem.allIn ClassItem.fits items = true := by
  induction hlength : body.length using Nat.strongRecOn generalizing body with
  | ind n ih =>
    obtain ⟨c, cs, rfl⟩ := List.exists_cons_of_ne_nil hne
    obtain ⟨i, rest, hsplit, hi⟩ := exists_fits (hbody c List.mem_cons_self) (cs ++ [']'])
    have hbracket : Clear isClassChar [']'] := clear_cons.2 (by decide)
    rw [← List.cons_append] at hsplit
    obtain ⟨more, hmore, rfl⟩ := exists_split_of_clear (ClassItem.isClassChar_of_fits hi) hbracket hsplit
    by_cases hend : more = []
    · subst hend
      exact ⟨[i], List.cons_ne_nil _ _, by simpa using hmore, by simpa [ClassItem.allIn] using hi⟩
    · have hlt : more.length < n := by
        have hpos := List.length_pos_iff.2 i.text_ne_nil
        rw [← hlength, hmore, List.length_append]
        omega
      obtain ⟨items, -, rfl, hitems⟩ := ih _ hlt hend (fun d hd => hbody d (hmore ▸ List.mem_append_right _ hd)) rfl
      exact ⟨i :: items, List.cons_ne_nil _ _, by rw [hmore, List.flatMap_cons], by simp [ClassItem.allIn, hi, hitems]⟩

/-! ## What the meta grammar reads -/

theorem opensCode_bracket (cs rest : List Char) : opensCode (cs ++ ']' :: rest) = opensCode (cs ++ [']']) := by
  rw [Bool.eq_iff_iff, opensCode_iff, opensCode_iff]
  rcases cs with _ | ⟨a, _ | ⟨b, _ | ⟨d, cs⟩⟩⟩
  · simp
  · simp
  · simp
  · simp

theorem opensWith_bracket (p : Char → Bool) (cs rest : List Char) :
    opensWith p (cs ++ ']' :: rest) = opensWith p (cs ++ [']']) := by
  cases cs with
  | nil => rfl
  | cons c cs => rfl

theorem opensSpan_bracket {opens : List Char → Bool}
    (h : ∀ cs rest, opens (cs ++ ']' :: rest) = opens (cs ++ [']'])) (cs rest : List Char) :
    opensSpan opens (cs ++ ']' :: rest) = opensSpan opens (cs ++ [']']) := by
  cases cs with
  | nil => rfl
  | cons c cs =>
    by_cases hc : c = '-'
    · subst hc
      exact h cs rest
    · simp [opensSpan, hc]

/-- Which item stands in a class is said by the text up to the closing bracket. -/
theorem ClassItem.fits_bracket (i : ClassItem) (cs rest : List Char) :
    i.fits (cs ++ ']' :: rest) = i.fits (cs ++ [']']) := by
  cases i with
  | char c =>
    have hcode := opensCode_bracket (c :: cs) rest
    rw [List.cons_append, List.cons_append] at hcode
    rw [fits, fits, hcode, opensSpan_bracket (opensWith_bracket isClassChar)]
  | range low high => rfl
  | code digits => rw [fits, fits, isDigits, isDigits, opensWith_bracket, opensSpan_bracket opensCode_bracket]
  | codeRange low high => rw [fits, fits, isDigits, isDigits, isDigits, opensWith_bracket]

/-- The nodes that the items of classes are read as. -/
def isClassPart (kind : String) : Bool := kind ∈ ["CharCodeRange", "CharRange", "CharCode", "RULE_Char"]

variable {t : Table}

/-- Where no code opens, none is read. -/
theorem code_none (hl : Lexical t) (h : opensCode cs = false) : (Target.rule "CharCode").Answers t cs none := by
  refine hl.code_none ?_
  rintro r rfl
  cases r with
  | nil => exact clear_nil _
  | cons d r => exact clear_cons.2 h

/-- A code is read as far as its digits go. -/
theorem reads_codeItem (hl : Lexical t) {digits : List Char} (h : ClassItem.isDigits digits rest = true) :
    t.Reads isClassPart "CharCode" ('#' :: 'x' :: digits) rest [.token "CharCode" ('#' :: 'x' :: digits)] := by
  obtain ⟨hcode, hrest⟩ := isDigits_iff.1 h
  exact Table.reads_token hl.code (by decide) (by decide) (readFirst_code hcode hrest)

/-- Every character that a class may hold is read. -/
theorem reads_charItem (hl : Lexical t) (hc : isClassChar c = true) (rest : List Char) :
    t.Reads isClassPart "RULE_Char" [c] rest [.token "RULE_Char" [c]] := by
  refine Table.reads_token hl.classChar (by decide) (by decide) (readFirst_onePattern classCharSets_regex ?_ rest)
  rw [classCharSets_any]
  exact hc

/-- A code without a hyphen and a code behind it is no range. -/
theorem codeRange_none (hl : Lexical t) {digits : List Char} (h : ClassItem.isDigits digits rest = true)
    (hspan : opensSpan opensCode rest = false) :
    (Target.rule "CharCodeRange").Answers t ('#' :: 'x' :: digits ++ rest) none := by
  refine Table.answers_rule_none hl.codeRange (List.forall_mem_singleton.2 ?_)
  refine rejected_span (reads_codeItem hl h) fun more hmore => code_none hl ?_
  rw [hmore] at hspan
  exact hspan

/-- No range of codes starts where no code does. -/
theorem codeRange_none_of_code (hl : Lexical t) (h : opensCode cs = false) :
    (Target.rule "CharCodeRange").Answers t cs none :=
  Table.answers_rule_none hl.codeRange (List.forall_mem_singleton.2 (Step.rejected_of_none (code_none hl h)))

/-- A character without a hyphen and a character behind it is no range. -/
theorem charRange_none (hl : Lexical t) (hc : isClassChar c = true)
    (hspan : opensSpan (opensWith isClassChar) rest = false) :
    (Target.rule "CharRange").Answers t ([c] ++ rest) none := by
  refine Table.answers_rule_none hl.charRange (List.forall_mem_singleton.2 ?_)
  refine rejected_span (reads_charItem hl hc rest) fun more hmore => hl.classChar_none ?_
  rw [hmore] at hspan
  exact opensWith_eq_false_iff.1 hspan

/-- The meta grammar reads the item that fits. The alternatives before it are not there: they would need a code or a
dash where there is none. -/
theorem reads_fits (hl : Lexical t) (h : i.fits rest = true) :
    t.Reads isClassPart "%RULE_CharClass_1" i.text rest [i.node] := by
  have hfound : ∀ {name : String} {alts : List (List Step)}, t.Reads isClassPart name i.text rest [i.node] →
      Step.ReadFirst t isClassPart ([.one (.rule name)] :: alts) i.text rest [i.node] :=
    fun hread => (Step.reads_one (Target.reads_rule hread)).alone.first
  refine Table.reads_fragment hl.classItem ?_
  cases i with
  | char c =>
    simp only [ClassItem.fits, Bool.and_eq_true, Bool.not_eq_true'] at h
    obtain ⟨⟨hc, hcode⟩, hspan⟩ := h
    refine .next (Step.rejected_of_none (codeRange_none_of_code hl hcode)) ?_
    refine .next (Step.rejected_of_none (charRange_none hl hc hspan)) ?_
    refine .next (Step.rejected_of_none (code_none hl hcode)) ?_
    exact hfound (reads_charItem hl hc rest)
  | range low high =>
    rw [ClassItem.fits, Bool.and_eq_true] at h
    have hcode : opensCode ([low, '-', high] ++ rest) = false := by
      rw [Bool.eq_false_iff, ne_eq, opensCode_iff]
      rintro ⟨d, r, heq, -⟩
      cases heq
    refine .next (Step.rejected_of_none (codeRange_none_of_code hl hcode)) ?_
    exact hfound (Table.reads_token hl.charRange (by decide) (by decide)
      (readFirst_span (reads_charItem hl h.1 _) (reads_charItem hl h.2 rest)))
  | code digits =>
    rw [ClassItem.fits, Bool.and_eq_true, Bool.not_eq_true'] at h
    obtain ⟨hdigits, hspan⟩ := h
    have hrange : (Target.rule "CharRange").Answers t ('#' :: 'x' :: digits ++ rest) none :=
      @charRange_none _ '#' _ hl (by decide) rfl
    refine .next (Step.rejected_of_none (codeRange_none hl hdigits hspan)) ?_
    refine .next (Step.rejected_of_none hrange) ?_
    exact hfound (reads_codeItem hl hdigits)
  | codeRange low high =>
    rw [ClassItem.fits, Bool.and_eq_true] at h
    have hlow : ClassItem.isDigits low ('-' :: ('#' :: 'x' :: high) ++ rest) = true := h.1
    exact hfound (Table.reads_token hl.codeRange (by decide) (by decide)
      (readFirst_span (reads_codeItem hl hlow) (reads_codeItem hl h.2)))

theorem ClassItem.allIn_suffix {holds : ClassItem → List Char → Bool} {x : ClassItem} {back : List ClassItem}
    (h : allIn holds items = true) (hback : x :: back <:+ items) : holds x (back.flatMap text ++ [']']) = true := by
  induction items with
  | nil => cases List.suffix_nil.1 hback
  | cons i items ih =>
    rw [allIn, Bool.and_eq_true] at h
    rcases List.suffix_cons_iff.1 hback with heq | hback
    · cases heq
      exact h.1
    · exact ih h.2 hback

theorem BehindCaret.cases {negated : Bool} (h : BehindCaret negated cs) :
    caretText negated = ['^'] ∨ caretText negated = [] ∧ Clear (· = '^') cs := by
  cases negated with
  | true => exact .inl rfl
  | false => exact .inr ⟨rfl, h.resolve_left Bool.false_ne_true⟩

/-- The caret at the front, and what stands behind it. -/
theorem exists_caret (cs : List Char) : ∃ negated body, cs = caretText negated ++ body ∧ BehindCaret negated body := by
  by_cases hcaret : Clear (· = '^') cs
  · exact ⟨false, cs, rfl, .inr hcaret⟩
  · cases cs with
    | nil => exact absurd (clear_nil _) hcaret
    | cons c cs =>
      obtain rfl : c = '^' := by simpa using hcaret
      exact ⟨true, cs, rfl, .inl rfl⟩

/-- The meta grammar reads a class as its items. -/
theorem reads_classText (hl : Lexical t) {negated : Bool} (h : IsClassItems negated items) (rest : List Char) :
    t.Reads isClassPart "CharClass" (classText negated items) rest
      [.branch "CharClass" (items.map ClassItem.node)] := by
  have hbracket : Clear isClassChar ([']'] ++ rest) := clear_cons.2 (by decide)
  have hitems : (Target.rule "%RULE_CharClass_1").ReadsRounds t isClassPart (items.flatMap ClassItem.text)
      ([']'] ++ rest) (items.flatMap fun i => [i.node]) := by
    refine Target.readsRounds_flatMap h.nonempty (fun i _ => i.text_ne_nil) (fun i back hback => ?_)
      (Or.inr (hl.classItem_none hbracket))
    have hfits := ClassItem.allIn_suffix h.fits hback
    rw [← i.fits_bracket _ rest] at hfits
    exact Target.reads_rule (reads_fits hl hfits)
  rw [← List.map_eq_flatMap] at hitems
  exact Table.reads_branch hl.charClass (by decide) (by decide) (readFirst_class h.caret.cases hitems)

/-- Wherever the meta grammar finds a class, it is one of items. -/
theorem exists_classText_or_none (hl : Lexical t) (input : List Char) :
    (Target.rule "CharClass").Answers t input none ∨
      ∃ negated items rest, input = classText negated items ++ rest ∧ IsClassItems negated items := by
  by_cases hopen : Clear (· = '[') input
  · exact .inl (hl.class_none hopen)
  obtain ⟨c, cs, rfl⟩ : ∃ c cs, input = c :: cs := by
    cases input with
    | nil => exact absurd (clear_nil _) hopen
    | cons c cs => exact ⟨c, cs, rfl⟩
  obtain rfl : c = '[' := by simpa using hopen
  obtain ⟨negated, behind, rfl, hcaret⟩ := exists_caret cs
  have hmark : (Step.one (.literal ['['])).Reads t isToken ['['] (caretText negated ++ behind) [] :=
    Step.reads_one (Target.reads_literal (by simp) _)
  have hmaybe : (Step.optional (.literal ['^'])).Skims t isToken (caretText negated) behind [] :=
    skims_caret hcaret.cases
  have hnone : Step.FailsAt t [.plus (.rule "%RULE_CharClass_1"), .one (.literal [']'])] behind →
      (Target.rule "CharClass").Answers t ('[' :: (caretText negated ++ behind)) none := by
    intro hfails
    exact Table.answers_rule_none hl.charClass
      (List.forall_mem_singleton.2 (.inl (hmark.skims.failsAt (hmaybe.failsAt hfails))))
  obtain ⟨body, back, rfl, hbody, hback⟩ : ∃ body back, behind = body ++ back ∧
      (∀ d ∈ body, isClassChar d = true) ∧ Clear isClassChar back :=
    ⟨_, _, List.takeWhile_append_dropWhile.symm, List.all_eq_true.1 List.all_takeWhile, clear_dropWhile _ _⟩
  by_cases hempty : body = []
  · subst hempty
    exact .inl (hnone (.here (Step.fails_plus (hl.classItem_none hback))))
  obtain ⟨ns, hrounds⟩ := hl.reads_classItems hempty hbody hback
  by_cases hclose : Clear (· = ']') back
  · exact .inl (hnone ((Step.reads_plus hrounds).skims.failsAt (.here (Step.fails_one (char_none hclose)))))
  · cases back with
    | nil => exact absurd (clear_nil _) hclose
    | cons d rest =>
      obtain rfl : d = ']' := by simpa using hclose
      obtain ⟨items, hne, rfl, hitems⟩ := exists_items hempty hbody
      refine .inr ⟨negated, items, rest, by simp [classText], hne, hitems, hcaret.imp_right fun hclear => ?_⟩
      obtain ⟨e, es, hes⟩ := List.exists_cons_of_ne_nil hempty
      rw [hes] at hclear ⊢
      exact hclear

end Items

end Grammarian.Notation
