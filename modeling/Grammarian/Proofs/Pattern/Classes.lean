import Grammarian.Proofs.Pattern.Runs

/-!
# Bracketed classes

A bracketed class is read element by element, as long as no operator of classes begins where an element does. An
element is a character or a range of them, and a character is written as it is or as an escape of its code. A
pattern of one such class takes one character.
-/

namespace Grammarian.Pattern

open Text

/-- What is left behind one character of a kind. -/
def oneOf (holds : Char → Bool) : List Char → Option (List Char)
  | [] => none
  | c :: rest => if holds c then some rest else none

/-- A pattern for one character matches one character of its set. -/
theorem match?_eq_oneOf {p : Pattern} {s : CharSet} (hp : p.regex = .one s) (input : List Char) :
    p.match? input = oneOf s.contains input := by
  cases input with
  | nil => exact match?_one_eq_none hp nofun
  | cons c rest =>
    rw [oneOf]
    cases hc : s.contains c with
    | true => simpa using match?_one hp hc
    | false =>
      have hnone : p.match? (c :: rest) = none := match?_one_eq_none hp (by simpa using hc)
      simpa using hnone

/-! ## Characters -/

section Atoms

variable {digits text rest : List Char} {c : Char}

/-- As many hexadecimal digits as are asked for are read. -/
theorem readHex?_append (h : ∀ d ∈ digits, isHexDigit d = true) (rest : List Char) :
    readHex? {} digits.length (digits ++ rest) = some (digits, rest) := by
  induction digits with
  | nil => rfl
  | cons d digits ih =>
    rw [List.forall_mem_cons] at h
    have hskip : ({} : Flags).skip (d :: digits ++ rest) = d :: (digits ++ rest) := rfl
    rw [List.length_cons, readHex?, hskip]
    simp only [h.1, if_true, ih h.2, Option.map_some]

/-- Without a brace at the front, so many digits are read and nothing else. -/
theorem readCode?_of_ne {cs : List Char} (h : cs.head? ≠ some '\x7b') (count : Nat) :
    readCode? {} count cs = (readHex? {} count cs).bind fun r =>
      if r.1.isEmpty then none else (scalar? (hexValue r.1)).map fun c => (.char c, r.2) := by
  have hskip : ({} : Flags).skip cs = cs := rfl
  rw [readCode?, hskip]
  split
  next => exact absurd rfl h
  next =>
    cases readHex? {} count cs with
    | none => rfl
    | some r =>
      cases hc : scalar? (hexValue r.1) with
      | none => simp [hc]
      | some c => simp [hc]

/-- A code is read as the character it names, where it names one. -/
theorem readCode?_append (hne : digits ≠ []) (h : ∀ d ∈ digits, isHexDigit d = true) (rest : List Char) :
    readCode? {} digits.length (digits ++ rest) = (scalar? (hexValue digits)).map fun c => (.char c, rest) := by
  have hbrace : (digits ++ rest).head? ≠ some '\x7b' := by
    obtain ⟨d, ds, rfl⟩ := List.exists_cons_of_ne_nil hne
    rintro heq
    obtain rfl : d = '\x7b' := by simpa using heq
    exact absurd (h _ List.mem_cons_self) (by decide)
  rw [readCode?_of_ne hbrace, readHex?_append h]
  simp [hne]

/-- The escapes of codes have two or four digits. -/
def IsEscape (m : Char) (digits : List Char) : Prop :=
  (m = 'x' ∧ digits.length = 2 ∨ m = 'u' ∧ digits.length = 4) ∧ ∀ d ∈ digits, isHexDigit d = true

/-- An escaped code is read as the character it names, where it names one. -/
theorem readEscape?_code {m : Char} (h : IsEscape m digits) (rest : List Char) :
    readEscape? {} (m :: (digits ++ rest)) = (scalar? (hexValue digits)).map fun c => (.char c, rest) := by
  obtain ⟨hm, hdigits⟩ := h
  have hne : digits ≠ [] := by
    rintro rfl
    simp at hm
  have hcode := readCode?_append hne hdigits rest
  rcases hm with ⟨rfl, hlength⟩ | ⟨rfl, hlength⟩
  · rw [hlength] at hcode
    exact hcode
  · rw [hlength] at hcode
    exact hcode

/-- A character of a class as it is written: itself, or the escape of its code with two or four digits. -/
inductive IsAtom : List Char → Char → Prop
  | plain {c : Char} (hc : c ≠ '\\') : IsAtom [c] c
  | escape {m : Char} {digits : List Char} {c : Char} (h : IsEscape m digits)
    (hc : scalar? (hexValue digits) = some c) : IsAtom ('\\' :: m :: digits) c

theorem IsAtom.ne_nil (h : IsAtom text c) : text ≠ [] := by
  cases h with
  | plain | escape => exact List.cons_ne_nil _ _

/-- An atom is read as its character. -/
theorem IsAtom.readClassItem? (h : IsAtom text c) (rest : List Char) :
    readClassItem? {} (text ++ rest) = some (.char c, rest) := by
  cases h with
  | plain hc =>
    rw [List.singleton_append, Pattern.readClassItem?]
    exact hc
  | escape h hc =>
    rw [List.cons_append, List.cons_append, Pattern.readClassItem?, readEscape?_code h, hc]
    rfl

end Atoms

/-! ## Elements -/

section Elements

variable {text rest cs : List Char} {s part : CharSet} {c : Char}

/-- An element of a class in front of `rest`, and the characters that it stands for. -/
inductive IsElement : List Char → CharSet → List Char → Prop
  | single {text rest : List Char} {c : Char} (h : IsAtom text c)
    (hrest : ∀ r, rest = '-' :: r → ∃ r', r = ']' :: r') : IsElement text (.single c) rest
  | range {low high rest : List Char} {a b : Char} (hlow : IsAtom low a) (hhigh : IsAtom high b) (hle : a ≤ b)
    (hhead : high.head? ≠ some ']' ∧ high.head? ≠ some '-') : IsElement (low ++ '-' :: high) (.range a b) rest

theorem IsElement.ne_nil (h : IsElement text s rest) : text ≠ [] := by
  cases h with
  | single h => exact h.ne_nil
  | range hlow hhigh => simp

/-- An element is read as its set. -/
theorem IsElement.readClassRange? (h : IsElement text s rest) (hne : rest ≠ []) :
    readClassRange? {} (text ++ rest) = some (s, rest) := by
  cases h with
  | @single _ _ c hatom hrest =>
    have hskip : ({} : Flags).skip rest = rest := rfl
    rw [Pattern.readClassRange?, hatom.readClassItem?]
    simp only [Option.bind_eq_bind, Option.bind_some, hskip]
    split
    next => exact absurd rfl hne
    next r =>
      obtain ⟨r', rfl⟩ := hrest r rfl
      simp [peekBlanks, Flags.admits]
    next => simp [Flags.admits]
  | @range low high _ a b hlow hhigh hle hhead =>
    have hskip : ∀ cs, ({} : Flags).skip cs = cs := fun _ => rfl
    have hlast := hhigh.readClassItem? rest
    obtain ⟨d, ds, rfl⟩ := List.exists_cons_of_ne_nil hhigh.ne_nil
    simp only [List.head?_cons, ne_eq, Option.some.injEq] at hhead
    rw [List.append_assoc, Pattern.readClassRange?, hlow.readClassItem?]
    simp only [Option.bind_eq_bind, Option.bind_some, hskip, List.cons_append]
    rw [List.cons_append] at hlast
    simp [peekBlanks, hhead.1, hhead.2, hlast, hle, Flags.admits]

/-- What is no element where an element may begin: a class within the class, and the operators between sets. -/
def classOperators : List (List Char) := [['['], ['&', '&'], ['-', '-'], ['~', '~']]

/-- The front of the text is that of an element. -/
def Inert (cs : List Char) : Prop := ∀ op ∈ [']'] :: classOperators, ¬ op <+: cs

/-- In a text that opens nothing, the next part is a range. -/
theorem readClassParts?_inert {n : Nat} {pending : Pending} (h : Inert cs) (hne : cs ≠ []) :
    readClassParts? {} (n + 1) pending part cs =
      (readClassRange? {} cs).bind fun r => readClassParts? {} n pending (.union part r.1) r.2 := by
  have hskip : ({} : Flags).skip cs = cs := rfl
  have hnone : ∀ op ∈ [']'] :: classOperators, ∀ r, cs ≠ op ++ r := by
    rintro op hop r rfl
    exact h op hop (List.prefix_append _ _)
  simp only [classOperators, List.forall_mem_cons, List.cons_append, List.nil_append] at hnone
  obtain ⟨hclose, hopen, hand, hdash, htilde, -⟩ := hnone
  rw [readClassParts?, hskip]
  split
  next => exact absurd rfl hne
  next r => exact absurd rfl (hclose r)
  next r => exact absurd rfl (hopen r)
  next r => exact absurd rfl (hand r)
  next r => exact absurd rfl (hdash r)
  next r => exact absurd rfl (htilde r)
  next => rfl

/-- Elements one after another, each at a place where an element can be read. -/
def ElementsAt : List (List Char × CharSet) → List Char → Prop
  | [], _ => True
  | e :: es, rest => IsElement e.1 e.2 (es.flatMap Prod.fst ++ rest) ∧
      Inert (e.1 ++ (es.flatMap Prod.fst ++ rest)) ∧ ElementsAt es rest

theorem ElementsAt.right {es es' : List (List Char × CharSet)} (h : ElementsAt (es ++ es') rest) :
    ElementsAt es' rest := by
  induction es with
  | nil => exact h
  | cons e es ih => exact ih h.2.2

theorem ElementsAt.inert {es : List (List Char × CharSet)} (h : ElementsAt es rest) (hne : es ≠ []) :
    Inert (es.flatMap Prod.fst ++ rest) := by
  obtain ⟨e, es, rfl⟩ := List.exists_cons_of_ne_nil hne
  rw [List.flatMap_cons, List.append_assoc]
  exact h.2.1

theorem ElementsAt.flatMap_ne_nil {es : List (List Char × CharSet)} (h : ElementsAt es rest) (hne : es ≠ []) :
    es.flatMap Prod.fst ≠ [] := by
  obtain ⟨e, es, rfl⟩ := List.exists_cons_of_ne_nil hne
  simp [h.1.ne_nil]

theorem ElementsAt.length_le {es : List (List Char × CharSet)} (h : ElementsAt es rest) :
    es.length ≤ (es.flatMap Prod.fst).length := by
  induction es with
  | nil => exact Nat.zero_le _
  | cons e es ih =>
    have hpos := List.length_pos_iff.2 h.1.ne_nil
    have hle := ih h.2.2
    rw [List.flatMap_cons, List.length_append, List.length_cons]
    omega

/-- What elements stand for together. -/
def unionFrom (part : CharSet) (es : List (List Char × CharSet)) : CharSet :=
  es.foldl (fun part e => .union part e.2) part

/-- A character is in the union if it is in one of its parts. -/
theorem contains_unionFrom (part : CharSet) (es : List (List Char × CharSet)) (c : Char) :
    (unionFrom part es).contains c = (part.contains c || es.any (·.2.contains c)) := by
  induction es generalizing part with
  | nil => simp [unionFrom]
  | cons e es ih =>
    have hstep : unionFrom part (e :: es) = unionFrom (.union part e.2) es := rfl
    rw [hstep, ih, CharSet.contains, List.any_cons, Bool.or_assoc]

/-- The elements of a class are read one after another, up to its bracket. -/
theorem readClassParts?_elements {es : List (List Char × CharSet)} (h : ElementsAt es (']' :: rest)) (n : Nat) :
    readClassParts? {} (n + es.length + 1) none part (es.flatMap Prod.fst ++ ']' :: rest) =
      some (unionFrom part es, rest) := by
  induction es generalizing part with
  | nil =>
    have hskip : ({} : Flags).skip (']' :: rest) = ']' :: rest := rfl
    rw [List.flatMap_nil, List.nil_append, readClassParts?, hskip]
    rfl
  | cons e es ih =>
    obtain ⟨helement, hinert, hmore⟩ := h
    have hfuel : n + (e :: es).length + 1 = n + es.length + 1 + 1 := by
      rw [List.length_cons]
      omega
    rw [List.flatMap_cons, List.append_assoc, hfuel, readClassParts?_inert hinert (by simp [helement.ne_nil]),
      helement.readClassRange? (by simp), Option.bind_some, ih hmore]
    rfl

end Elements

/-! ## Classes -/

section Classes

variable {es : List (List Char × CharSet)} {rest : List Char}

/-- A class that starts without a hyphen has no leading hyphens. -/
theorem leadingDashes_of_head {cs : List Char} (h : cs.head? ≠ some '-') (n : Nat) (s : CharSet) :
    leadingDashes {} n s cs = (s, cs) := by
  cases n with
  | zero => rfl
  | succ n =>
    rw [leadingDashes]
    rintro r rfl
    exact h rfl

/-- A dash in front of no other dash is an element by itself. -/
theorem IsElement.dash {text cs : List Char} {s : CharSet} (h : IsElement ('-' :: text) s cs)
    (hinert : Inert ('-' :: text ++ cs)) : text = [] ∧ s = .single '-' := by
  generalize hfront : '-' :: text = front at h hinert
  cases h with
  | single h =>
    cases h with
    | plain =>
      cases hfront
      exact ⟨rfl, rfl⟩
    | escape => cases hfront
  | @range low high _ _ _ hlow _ _ _ =>
    cases hlow with
    | plain =>
      cases hfront
      exact absurd (List.prefix_append ['-', '-'] (high ++ cs)) (hinert _ (by decide))
    | escape => cases hfront

/-- Of the dashes at the front of a class only one can be an element. -/
theorem leadingDashes_elements (h : ElementsAt es (']' :: rest)) (n : Nat) :
    ∃ e more, es = e ++ more ∧ leadingDashes {} (n + 1) .none (es.flatMap Prod.fst ++ ']' :: rest) =
      (unionFrom .none e, more.flatMap Prod.fst ++ ']' :: rest) := by
  by_cases hdash : (es.flatMap Prod.fst ++ ']' :: rest).head? = some '-'
  · cases es with
    | nil => simp at hdash
    | cons e es =>
      obtain ⟨helement, hinert, -⟩ := h
      obtain ⟨text, s⟩ := e
      obtain ⟨d, text, rfl⟩ := List.exists_cons_of_ne_nil helement.ne_nil
      obtain rfl : d = '-' := by simpa using hdash
      obtain ⟨rfl, rfl⟩ := helement.dash hinert
      have hmore : (es.flatMap Prod.fst ++ ']' :: rest).head? ≠ some '-' := by
        intro hmore
        obtain ⟨r, hr⟩ := List.head?_eq_some_iff.1 hmore
        refine hinert ['-', '-'] (by decide) ?_
        rw [hr]
        exact List.prefix_append ['-', '-'] r
      exact ⟨[(['-'], .single '-')], es, rfl, leadingDashes_of_head hmore n _⟩
  · exact ⟨[], es, rfl, leadingDashes_of_head hdash _ _⟩

/-- What `readClass?` does behind the caret. -/
def readClassBody? (fl : Flags) (n : Nat) (negated : Bool) (cs : List Char) : Option (CharSet × List Char) :=
  let (dashes, r) := leadingDashes fl cs.length .none cs
  let (start, r) := match cs, r with
    | ']' :: _, ']' :: r => (CharSet.single ']', fl.skip r)
    | _, r => (dashes, r)
  if r.isEmpty then none
  else do
    let (s, r) ← readClassParts? fl n none start r
    some (closeClass fl negated s, r)

theorem readClass?_caret (n : Nat) (cs : List Char) :
    readClass? {} (n + 1) ('^' :: cs) = readClassBody? {} n true cs := by
  rw [readClass?]
  rfl

theorem readClass?_body {cs : List Char} (h : cs.head? ≠ some '^') (n : Nat) :
    readClass? {} (n + 1) cs = readClassBody? {} n false cs := by
  have hskip : ({} : Flags).skip cs = cs := rfl
  rw [readClass?, hskip]
  split
  next hmark =>
    split at hmark
    next r => exact absurd rfl h
    next =>
      cases hmark
      rfl

/-- A class of elements is read as the union of these, or as what is outside of it. -/
theorem readClass?_elements (h : ElementsAt es (']' :: rest)) (hne : es ≠ []) {caret : List Char}
    (hcaret : caret = ['^'] ∨ caret = [] ∧ (es.flatMap Prod.fst).head? ≠ some '^') (n : Nat) :
    readClass? {} (n + es.length + 2) (caret ++ (es.flatMap Prod.fst ++ ']' :: rest)) =
      some (closeClass {} (!caret.isEmpty) (unionFrom .none es), rest) := by
  have hbody : readClassBody? {} (n + es.length + 1) (!caret.isEmpty) (es.flatMap Prod.fst ++ ']' :: rest) =
      some (closeClass {} (!caret.isEmpty) (unionFrom .none es), rest) := by
    obtain ⟨k, hk⟩ : ∃ k, (es.flatMap Prod.fst ++ ']' :: rest).length = k + 1 :=
      Nat.exists_eq_add_one.2 (List.length_pos_iff.2 (by simp))
    obtain ⟨front, more, rfl, hdashes⟩ := leadingDashes_elements h k
    have hparts : readClassParts? {} (n + front.length + more.length + 1) none (unionFrom .none front)
        (more.flatMap Prod.fst ++ ']' :: rest) = some (unionFrom (unionFrom .none front) more, rest) :=
      readClassParts?_elements h.right (n + front.length)
    have hfuel : n + (front ++ more).length + 1 = n + front.length + more.length + 1 := by
      rw [List.length_append]
      omega
    have hunion : unionFrom (unionFrom .none front) more = unionFrom .none (front ++ more) :=
      List.foldl_append.symm
    rw [readClassBody?, hk, hdashes, hfuel]
    dsimp only
    split
    next r _ heq _ =>
      have hinert := h.inert hne [']'] (by decide)
      rw [heq] at hinert
      exact absurd (List.prefix_append [']'] r) hinert
    next =>
      rw [hparts, hunion]
      simp
  rcases hcaret with rfl | ⟨rfl, hhead⟩
  · rw [List.singleton_append, readClass?_caret]
    exact hbody
  · rw [List.nil_append, readClass?_body]
    · exact hbody
    · obtain ⟨c, cs, hcs⟩ := List.exists_cons_of_ne_nil (h.flatMap_ne_nil hne)
      rw [hcs] at hhead ⊢
      simpa using hhead

end Classes

/-! ## Patterns -/

section Patterns

variable {source digits : List Char} {a : Regex} {names : List (List Char)} {m c : Char}

theorem readGroup?_anchor (n : Nat) (rest : List Char) :
    readGroup? (n + 2) {} false [] {} ('^' :: '(' :: '?' :: ':' :: rest) =
      (readGroup? n {} true [] {} rest).bind fun r =>
        readGroup? n {} false r.2.1 ((({} : Progress).push (.look .textStart)).push r.1) r.2.2 := rfl

/-- A bracket opens a class, which is one more part of the sequence. -/
theorem readGroup?_class (n : Nat) (p : Progress) (rest : List Char) :
    readGroup? (n + 1) {} true names p ('[' :: rest) = (readClass? {} n rest).bind fun r =>
      readGroup? n {} true names (p.push (.set r.1)) r.2 := rfl

/-- A backslash opens an escape, which is one more part of the sequence. -/
theorem readGroup?_escape (n : Nat) (p : Progress) (rest : List Char) :
    readGroup? (n + 1) {} true names p ('\\' :: rest) = (readEscape? {} rest).bind fun r =>
      readGroup? n {} true names (p.push (escape {} r.1)) r.2 := rfl

/-- A letter or digit stands for itself. -/
theorem readGroup?_alnum (hc : isAsciiAlnum c = true) (n : Nat) (p : Progress) (rest : List Char) :
    readGroup? (n + 1) {} true names p (c :: rest) =
      readGroup? n {} true names (p.push (.set (.single c))) rest := by
  have hskip : ({} : Flags).skip (c :: rest) = c :: rest := rfl
  have hother : ∀ d ∈ [')', '|', '(', '[', '?', '*', '+', '\x7b', '\\', '.', '^', '$'], c ≠ d := by
    rintro d hd rfl
    have hnone : [')', '|', '(', '[', '?', '*', '+', '\x7b', '\\', '.', '^', '$'].all (!isAsciiAlnum ·) = true := by
      decide
    have hnot := List.all_eq_true.1 hnone c hd
    rw [hc] at hnot
    cases hnot
  simp only [List.forall_mem_cons] at hother
  rw [readGroup?, hskip]
  split
  all_goals simp_all
  rfl

/-- Letters and digits stand for themselves. -/
theorem readGroup?_alnums {cs : List Char} (hcs : ∀ c ∈ cs, isAsciiAlnum c = true) (n : Nat)
    (elements : List (Option Regex)) :
    readGroup? (n + cs.length + 1) {} true names { elements } (cs ++ [')']) =
      some (.sequence (elements.reverse.filterMap id ++ cs.map fun c => .set (.single c)), names, []) := by
  induction cs generalizing elements with
  | nil => rw [List.map_nil, List.append_nil]; rfl
  | cons c cs ih =>
    rw [List.forall_mem_cons] at hcs
    have hfuel : n + (c :: cs).length + 1 = n + cs.length + 1 + 1 := rfl
    rw [List.cons_append, hfuel, readGroup?_alnum hcs.1, Progress.push, ih hcs.2]
    simp

/-- What a pattern is read as when its source is read as the content of a group. -/
theorem readRegex?_anchored
    (h : readGroup? (2 * source.length + 10) {} true [] {} (source ++ [')']) = some (a, names, [])) :
    readRegex? (anchored source) = if a.weight + 1 ≤ maxWeight then some (.seq (.look .textStart) a) else none := by
  have hfuel : 2 * (anchored source).length + 2 = 2 * source.length + 10 + 2 := by
    simp [anchored]
    omega
  have hend : ∀ n, readGroup? (n + 1) {} false names ((({} : Progress).push (.look .textStart)).push a) [] =
      some (.seq (.look .textStart) a, names, []) := fun _ => rfl
  have hread : readGroup? (2 * (anchored source).length + 2) {} false [] {} (anchored source) =
      some (.seq (.look .textStart) a, names, []) := by
    rw [hfuel, anchored, List.cons_append, List.cons_append, List.cons_append, List.cons_append, readGroup?_anchor, h]
    exact hend (2 * source.length + 9)
  have hweight : (Regex.seq (.look .textStart) a).weight = a.weight + 1 := Nat.add_comm ..
  rw [readRegex?, hread, ← hweight]
  rfl

/-- A pattern that is one class of elements. -/
theorem readRegex?_class {es : List (List Char × CharSet)} (h : ElementsAt es (']' :: [')'])) (hne : es ≠ [])
    {caret : List Char} (hcaret : caret = ['^'] ∨ caret = [] ∧ (es.flatMap Prod.fst).head? ≠ some '^') :
    readRegex? (anchored ('[' :: (caret ++ (es.flatMap Prod.fst ++ [']'])))) =
      some (.one (closeClass {} (!caret.isEmpty) (unionFrom .none es))) := by
  have hgroup : ∀ n, readGroup? (n + es.length + 3) {} true [] {}
      ('[' :: (caret ++ (es.flatMap Prod.fst ++ [']'])) ++ [')']) =
        some (.set (closeClass {} (!caret.isEmpty) (unionFrom .none es)), [], []) := by
    intro n
    have htext : '[' :: (caret ++ (es.flatMap Prod.fst ++ [']'])) ++ [')'] =
        '[' :: (caret ++ (es.flatMap Prod.fst ++ ']' :: [')'])) := by simp
    rw [htext, readGroup?_class, readClass?_elements h hne hcaret]
    rfl
  have hlength : ∃ n, 2 * ('[' :: (caret ++ (es.flatMap Prod.fst ++ [']']))).length + 10 = n + es.length + 3 := by
    have hle := h.length_le
    refine ⟨2 * ('[' :: (caret ++ (es.flatMap Prod.fst ++ [']']))).length + 7 - es.length, ?_⟩
    simp only [List.length_cons, List.length_append]
    omega
  obtain ⟨n, hn⟩ := hlength
  have hread := hgroup n
  rw [← hn] at hread
  rw [readRegex?_anchored hread]
  rfl

/-- A pattern that begins with the escape of a code, and has letters and digits behind it. -/
theorem readRegex?_code (h : IsEscape m digits) (hc : scalar? (hexValue digits) = some c) {more : List Char}
    (hmore : ∀ d ∈ more, isAsciiAlnum d = true) :
    readRegex? (anchored ('\\' :: m :: (digits ++ more))) =
      let a := Regex.sequence ((.single c :: more.map .single).map .set)
      if a.weight + 1 ≤ maxWeight then some (.seq (.look .textStart) a) else none := by
  have hgroup : ∀ n, readGroup? (n + more.length + 2) {} true [] {} ('\\' :: m :: (digits ++ more) ++ [')']) =
      some (.sequence ((.single c :: more.map .single).map .set), [], []) := by
    intro n
    have htext : '\\' :: m :: (digits ++ more) ++ [')'] = '\\' :: m :: (digits ++ (more ++ [')'])) := by simp
    have hsets : (CharSet.single c :: more.map .single).map Regex.set =
        [some (Regex.set (.single c))].reverse.filterMap id ++ more.map fun d => .set (.single d) := by simp
    rw [htext, readGroup?_escape, readEscape?_code h, hc, hsets]
    exact readGroup?_alnums hmore n [some (.set (.single c))]
  have hlength : ∃ n, 2 * ('\\' :: m :: (digits ++ more)).length + 10 = n + more.length + 2 := by
    refine ⟨2 * ('\\' :: m :: (digits ++ more)).length + 8 - more.length, ?_⟩
    simp only [List.length_cons, List.length_append]
    omega
  obtain ⟨n, hn⟩ := hlength
  have hread := hgroup n
  rw [← hn] at hread
  exact readRegex?_anchored hread

/-- An escape that is not read makes no pattern. -/
theorem readRegex?_escape_none {text : List Char} (h : readEscape? {} (m :: (text ++ [')'])) = none) :
    readRegex? (anchored ('\\' :: m :: text)) = none := by
  have hfuel : 2 * (anchored ('\\' :: m :: text)).length + 2 = 2 * ('\\' :: m :: text).length + 9 + 1 + 2 := by
    simp [anchored]
    omega
  rw [readRegex?, hfuel, anchored, List.cons_append, List.cons_append, List.cons_append, List.cons_append,
    readGroup?_anchor, List.cons_append, List.cons_append, readGroup?_escape, h]
  rfl

/-- A code that is none of a character makes no pattern. -/
theorem readRegex?_code_none (h : IsEscape m digits) (hc : scalar? (hexValue digits) = none) (more : List Char) :
    readRegex? (anchored ('\\' :: m :: (digits ++ more))) = none := by
  refine readRegex?_escape_none ?_
  rw [List.append_assoc, readEscape?_code h, hc]
  rfl

/-- Sets one after another take a character each. -/
theorem ends_sequence_sets (sets : List CharSet) (p : Spot) :
    ∀ q ∈ (Regex.sequence (sets.map .set)).ends p, q.rest.length + sets.length = p.rest.length := by
  induction sets generalizing p with
  | nil =>
    intro q hq
    obtain rfl := List.mem_singleton.1 hq
    rfl
  | cons s sets ih =>
    have hset : ∀ q ∈ (Regex.set s).ends p, q.rest.length + 1 = p.rest.length := by
      intro q hq
      rw [Regex.ends] at hq
      split at hq
      next c cs hrest =>
        split at hq
        · obtain rfl := List.mem_singleton.1 hq
          rw [hrest, List.length_cons]
        · cases hq
      next => cases hq
    intro q hq
    cases sets with
    | nil => exact hset q hq
    | cons t sets =>
      have hseq : (Regex.sequence ((s :: t :: sets).map .set)).ends p =
          andThen (Regex.set s).ends (Regex.sequence ((t :: sets).map .set)).ends p := rfl
      rw [hseq] at hq
      obtain ⟨r, hr, hq⟩ := exists_of_mem_andThen hq
      have hone := hset r hr
      have hmore := ih r q hq
      rw [List.length_cons, ← hone, ← hmore, Nat.add_assoc]

/-- A pattern of several sets does not match a text of fewer characters. -/
theorem match?_sets_eq_none {p : Pattern} {sets : List CharSet}
    (hp : p.regex = .seq (.look .textStart) (.sequence (sets.map .set))) {input : List Char}
    (hlt : input.length < sets.length) : p.match? input = none := by
  refine match?_of_search_none ?_
  rw [hp, search_anchored, Option.map_eq_none_iff, List.head?_eq_none_iff, List.eq_nil_iff_forall_not_mem]
  intro q hq
  have hlength := ends_sequence_sets sets (.start input) q hq
  have hrest : (Spot.start input).rest = input := rfl
  rw [hrest] at hlength
  omega

end Patterns

end Grammarian.Pattern
