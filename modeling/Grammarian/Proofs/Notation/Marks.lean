import Grammarian.Proofs.Notation.Writing

/-!
# Marks and what they are read as

A name between marks is read as the reference with these marks, and the reference is written with the marks
it was read from.
-/

namespace Grammarian.Notation

/-- A name that begins and ends with no mark. -/
def Bare (name : List Char) : Prop :=
  (∃ c cs, name = c :: cs ∧ c ∉ ['&', '!', '@']) ∧ ∃ cs c, name = cs ++ [c] ∧ c ∉ tailMarks

/-- What a mark before a name means. -/
def lookaheadOf (lead : List Char) : Lookahead :=
  if lead = ['&'] then .positive else if lead = ['!'] then .negative else .none

/-- What a mark behind a name means. -/
def repetitionOf (tail : List Char) : Repetition :=
  if tail = ['?'] then .optional else if tail = ['*'] then .zeroOrMore
  else if tail = ['+'] then .oneOrMore else .once

/-- The reference to a name between marks. -/
def referenceOf (lead : List Char) (name : String) (tail : List Char) : Reference :=
  ⟨name, repetitionOf tail, lookaheadOf lead, lead = ['~']⟩

variable {lead tail name : List Char}

theorem splitTail_append (htail : IsMark tailMarks tail) (hname : ∃ cs c, name = cs ++ [c] ∧ c ∉ tailMarks) :
    Reference.splitTail (name ++ tail) = (repetitionOf tail, name) := by
  obtain ⟨cs, c, rfl, hc⟩ := hname
  rcases htail with rfl | ⟨m, hm, rfl⟩
  · rw [List.append_nil, Reference.splitTail, List.getLast?_concat]
    simp only [tailMarks, List.mem_cons, List.not_mem_nil, or_false, not_or] at hc
    obtain ⟨hoptional, hstar, hplus⟩ := hc
    simp [hoptional, hstar, hplus, repetitionOf]
  · rw [Reference.splitTail, List.getLast?_concat, List.dropLast_concat]
    simp only [tailMarks, List.mem_cons, List.not_mem_nil, or_false] at hm
    rcases hm with rfl | rfl | rfl
    · rfl
    · rfl
    · rfl

/-- A name between marks is read as the reference with these marks. -/
theorem ofText_marked (hlead : IsMark (Style.leadMarks .attributed) lead) (htail : IsMark tailMarks tail)
    (hname : Bare name) :
    Reference.ofText (leadMark lead ++ String.ofList name ++ String.ofList tail) =
      referenceOf lead (String.ofList name) tail := by
  obtain ⟨⟨c, cs, hbegins, hc⟩, cs', c', hends, hc'⟩ := hname
  have hsplit : Reference.splitTail (leadMark lead ++ String.ofList name ++ String.ofList tail).toList =
      (repetitionOf tail, (leadMark lead).toList ++ name) := by
    rw [String.toList_append, String.toList_append, String.toList_ofList, String.toList_ofList]
    exact splitTail_append htail ⟨(leadMark lead).toList ++ cs', c', by rw [hends, List.append_assoc], hc'⟩
  rw [Reference.ofText, hsplit]
  simp only [List.mem_cons, List.not_mem_nil, or_false, not_or] at hc
  obtain ⟨hand, hnot, hat⟩ := hc
  rcases hlead with rfl | ⟨m, hm, rfl⟩
  · have hnone : (leadMark []).toList ++ name = c :: cs := by rw [hbegins]; rfl
    rw [hnone]
    simp [hand, hnot, hat, referenceOf, lookaheadOf, hbegins]
  · simp only [Style.leadMarks, List.mem_cons, List.not_mem_nil, or_false] at hm
    rcases hm with rfl | rfl | rfl
    · rfl
    · rfl
    · rfl

/-- The reference is written with the marks it was read from. -/
theorem leadText_referenceOf {style : Style} (hlead : IsMark style.leadMarks lead) (n : String) :
    (leadText style (referenceOf lead n tail)).toList = lead := by
  rcases hlead with rfl | ⟨m, hm, rfl⟩
  · rfl
  · cases style with
    | w3c =>
      simp only [Style.leadMarks, List.mem_cons, List.not_mem_nil, or_false] at hm
      rcases hm with rfl | rfl
      all_goals simp [leadText, referenceOf, lookaheadOf, Reference.leadMark]
    | attributed =>
      simp only [Style.leadMarks, List.mem_cons, List.not_mem_nil, or_false] at hm
      rcases hm with rfl | rfl | rfl
      all_goals simp [leadText, referenceOf, lookaheadOf, Reference.leadMark]

theorem tailMark_referenceOf (htail : IsMark tailMarks tail) (n : String) :
    (referenceOf lead n tail).tailMark.toList = tail := by
  rcases htail with rfl | ⟨m, hm, rfl⟩
  · rfl
  · simp only [tailMarks, List.mem_cons, List.not_mem_nil, or_false] at hm
    rcases hm with rfl | rfl | rfl
    all_goals simp [Reference.tailMark, referenceOf, repetitionOf, Repetition.mark]

/-- A reference without marks is one to a name without marks. -/
theorem isPlain_referenceOf (hlead : IsMark (Style.leadMarks .attributed) lead) (htail : IsMark tailMarks tail)
    (n : String) : (referenceOf lead n tail).isPlain = true ↔ lead = [] ∧ tail = [] := by
  rcases hlead with rfl | ⟨m, hm, rfl⟩
  · rcases htail with rfl | ⟨m, hm, rfl⟩
    · simp [referenceOf, Reference.isPlain, lookaheadOf, repetitionOf]
    · simp only [tailMarks, List.mem_cons, List.not_mem_nil, or_false] at hm
      rcases hm with rfl | rfl | rfl
      all_goals simp [referenceOf, Reference.isPlain, lookaheadOf, repetitionOf]
  · simp only [Style.leadMarks, List.mem_cons, List.not_mem_nil, or_false] at hm
    rcases hm with rfl | rfl | rfl
    all_goals simp [referenceOf, Reference.isPlain, lookaheadOf]

/-! ## Names -/

theorem not_mem_tailMarks_of_isNameChar {c : Char} (h : isNameChar c = true) : c ∉ tailMarks := by
  intro hmem
  have hmarks : ∀ d ∈ tailMarks, isNameChar d = false := by decide
  rw [hmarks c hmem] at h
  cases h

theorem isNameChar_of_letter {c : Char} (h : Text.isAsciiLetter c = true) : isNameChar c = true := by
  simp [isNameChar, Text.isAsciiAlnum, h]

theorem IsName.bare (h : IsName name) : Bare name := by
  obtain ⟨c, cs, rfl, hc, hcs⟩ := h
  have hall : ∀ d ∈ c :: cs, isNameChar d = true := List.forall_mem_cons.2 ⟨isNameChar_of_letter hc, hcs⟩
  refine ⟨⟨c, cs, rfl, fun hmem => ?_⟩, (c :: cs).dropLast, (c :: cs).getLast (List.cons_ne_nil _ _),
    (List.dropLast_append_getLast _).symm, ?_⟩
  · have hmarks : ∀ d ∈ ['&', '!', '@'], Text.isAsciiLetter d = false := by decide
    rw [hmarks c hmem] at hc
    cases hc
  · exact not_mem_tailMarks_of_isNameChar (hall _ (List.getLast_mem _))

theorem IsQuoted.bare (h : IsQuoted name) : Bare name := by
  obtain ⟨q, body, rfl, hq, -⟩ := h
  simp only [Literal.isQuote, Bool.or_eq_true, decide_eq_true_eq] at hq
  refine ⟨⟨q, _, rfl, ?_⟩, q :: body, q, rfl, ?_⟩
  · rcases hq with rfl | rfl
    · decide
    · decide
  · rcases hq with rfl | rfl
    · decide
    · decide

theorem isLiteral_of_isQuoted (h : IsQuoted name) (lead tail : List Char) :
    (referenceOf lead (String.ofList name) tail).isLiteral = true := by
  obtain ⟨q, body, rfl, hq, -⟩ := h
  simpa [Reference.isLiteral, referenceOf, Literal.isQuote] using hq

theorem isLiteral_of_isName (h : IsName name) (lead tail : List Char) :
    (referenceOf lead (String.ofList name) tail).isLiteral = false := by
  obtain ⟨c, cs, rfl, hc, -⟩ := h
  have hmark : ∀ q ∈ ['"', '\''], c ≠ q := by
    rintro q hq rfl
    have hall : ∀ q ∈ ['"', '\''], Text.isAsciiLetter q = false := by decide
    rw [hall c hq] at hc
    cases hc
  simp [Reference.isLiteral, referenceOf, hmark '"' (by simp), hmark '\'' (by simp)]

/-- A name between marks. -/
theorem marked_name (hlead : IsMark (Style.leadMarks .attributed) lead) (htail : IsMark tailMarks tail)
    (h : Bare name) (hliteral : (referenceOf lead (String.ofList name) tail).isLiteral = false) :
    marked (leadMark lead) (String.ofList name) (String.ofList tail) =
      .reference (referenceOf lead (String.ofList name) tail) := by
  simp only [marked, Symbol.ofText, ofText_marked hlead htail h, hliteral, Bool.false_and, Bool.false_eq_true,
    if_false]

/-- A literal with a mark stays a reference. -/
theorem marked_quoted (hlead : IsMark (Style.leadMarks .attributed) lead) (htail : IsMark tailMarks tail)
    (h : IsQuoted name) (hmarks : ¬ (lead = [] ∧ tail = [])) :
    marked (leadMark lead) (String.ofList name) (String.ofList tail) =
      .reference (referenceOf lead (String.ofList name) tail) := by
  have hplain : (referenceOf lead (String.ofList name) tail).isPlain = false :=
    Bool.eq_false_iff.2 (mt (isPlain_referenceOf hlead htail _).1 hmarks)
  simp only [marked, Symbol.ofText, ofText_marked hlead htail h.bare, hplain, Bool.and_false, Bool.false_eq_true,
    if_false]

/-- A literal without marks is its value. -/
theorem ofText_quoted (h : IsQuoted name) :
    Symbol.ofText (String.ofList name) = .literal (Literal.decode (String.ofList name)) := by
  have htext : leadMark [] ++ String.ofList name ++ String.ofList [] = String.ofList name := by
    simp [leadMark]
  have hplain : (referenceOf [] (String.ofList name) []).isPlain = true :=
    (isPlain_referenceOf (Or.inl rfl) (Or.inl rfl) _).2 ⟨rfl, rfl⟩
  have hread := ofText_marked (Or.inl rfl) (Or.inl rfl) h.bare
  rw [htext] at hread
  simp only [Symbol.ofText, hread, isLiteral_of_isQuoted h, hplain, Bool.and_self, if_true]
  rfl

end Grammarian.Notation
