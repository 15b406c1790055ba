import Grammarian.Proofs.Notation.ClassItems
import Grammarian.Proofs.Notation.Terminals
import Grammarian.Proofs.Notation.W3cSources
import Grammarian.Proofs.Pattern.Classes

/-!
# Codes and classes

What the characters of a code or class are, is said by the items that the meta grammar reads it as. Its pattern is made
of the text with the codes turned into escapes, and is read by the rules for patterns. The two agree as long as every
code has the digits of one escape, and nothing in the class is taken for an operator, for a range or for a code.
-/

namespace Grammarian

namespace CharCode

open Text Notation

variable {count : Nat} {mark cs back : List Char} {c : Char}

/-! ## Codes one by one -/

/-- Expanding codes brings no character in front that was not there, the backslash apart. -/
theorem clear_expandCount {p : Char → Bool} (hp : p '\\' = false) (h : Clear p cs) (count : Nat) (mark : List Char) :
    Clear p (expandCount count ('\\' :: mark) cs) := by
  cases cs with
  | nil => simp [expandCount]
  | cons c cs =>
    obtain ⟨d, ds, hexpand, hd⟩ := @expandCount_begins count mark '\\' c cs
    rw [clear_cons] at h
    rw [hexpand, clear_cons]
    rcases hd with rfl | rfl
    · exact h
    · exact hp

/-- A hash sign opens no code if it is not followed by an x and a letter or digit. -/
theorem opensCode_hash_iff : opensCode ('#' :: cs) = false ↔ ∀ r, cs = 'x' :: r → Clear isAsciiAlnum r := by
  rw [Bool.eq_false_iff, ne_eq, opensCode_iff]
  constructor
  · rintro h (_ | ⟨d, r⟩) rfl
    · exact clear_nil _
    · exact clear_cons.2 (Bool.eq_false_iff.2 fun hd => h ⟨d, r, rfl, hd⟩)
  · rintro h ⟨d, r, heq, hd⟩
    cases heq
    have hclear := clear_cons.1 (h _ rfl)
    rw [hd] at hclear
    cases hclear

/-- A hash sign that opens no code is kept. -/
theorem expandCount_hash (hcount : 0 < count) (h : opensCode ('#' :: cs) = false) :
    expandCount count mark ('#' :: cs) = '#' :: expandCount count mark cs := by
  rw [opensCode_hash_iff] at h
  rw [expandCount.eq_def]
  split
  next r heq =>
    cases heq
    refine if_neg fun hcode => ?_
    obtain ⟨k, rfl⟩ : ∃ k, count = k + 1 := ⟨count - 1, by omega⟩
    cases r with
    | nil => simp at hcode
    | cons d r =>
      have hd := clear_cons.1 (h _ rfl)
      simp [hd] at hcode
  next heq =>
    cases heq
    rfl
  next heq => cases heq

/-- A hash sign that opens no code opens none after the expansion of others. -/
theorem opensCode_expandCount (h : opensCode ('#' :: cs) = false) (count : Nat) (mark : List Char) :
    opensCode ('#' :: expandCount count ('\\' :: mark) cs) = false := by
  rw [opensCode_hash_iff] at h ⊢
  intro r hr
  cases cs with
  | nil =>
    rw [expandCount] at hr
    cases hr
  | cons c cs =>
    obtain ⟨d, ds, hexpand, hd⟩ := @expandCount_begins count mark '\\' c cs
    rw [hexpand] at hr
    cases hr
    rcases hd with rfl | hd
    · rw [expandCount_cons (by decide)] at hexpand
      cases hexpand
      exact clear_expandCount (by decide) (h cs rfl) _ _
    · exact absurd hd (by decide)

theorem clear_expand {p : Char → Bool} (hp : p '\\' = false) (h : Clear p cs) : Clear p (expand cs) :=
  clear_expandCount hp (clear_expandCount hp (clear_expandCount hp (clear_expandCount hp h 4 ['u']) 3 ['u', '0'])
    2 ['x']) 1 ['x', '0']

/-- Codes in front of what is no letter or digit become escapes by themselves. -/
theorem expand_append (h : Clear isAsciiAlnum back) (cs : List Char) :
    expand (cs ++ back) = expand cs ++ expand back := by
  have hslash : isAsciiAlnum '\\' = false := by decide
  have h₄ := clear_expandCount hslash h 4 ['u']
  have h₃ := clear_expandCount hslash h₄ 3 ['u', '0']
  have h₂ := clear_expandCount hslash h₃ 2 ['x']
  rw [expand, expandCount_append h, expandCount_append h₄, expandCount_append h₃, expandCount_append h₂, expand, expand]

/-- A character that begins no code stays as it is. -/
theorem expand_cons (h : c = '#' → opensCode ('#' :: cs) = false) : expand (c :: cs) = c :: expand cs := by
  by_cases hc : c = '#'
  · subst hc
    have h₀ := h rfl
    have h₄ := opensCode_expandCount h₀ 4 ['u']
    have h₃ := opensCode_expandCount h₄ 3 ['u', '0']
    have h₂ := opensCode_expandCount h₃ 2 ['x']
    rw [expand, expandCount_hash (by decide) h₀, expandCount_hash (by decide) h₄, expandCount_hash (by decide) h₃,
      expandCount_hash (by decide) h₂, expand]
  · rw [expand, expandCount_cons hc, expandCount_cons hc, expandCount_cons hc, expandCount_cons hc, expand]

/-- A character other than the hash sign is kept. -/
theorem expand_cons_of_ne (hc : c ≠ '#') : expand (c :: cs) = c :: expand cs := expand_cons fun heq => absurd heq hc

/-! ## The characters that codes name -/

/-- The character that a code of these digits names. -/
def codeChar? (digits : List Char) : Option Char :=
  if digits.all isHexDigit then scalar? (hexValue digits) else none

variable {digits : List Char}

/-- A code names a character if its digits are hexadecimal and their value is a scalar. -/
theorem codeChar?_eq_some_iff : codeChar? digits = some c ↔
    (∀ d ∈ digits, isHexDigit d = true) ∧ scalar? (hexValue digits) = some c := by
  rw [codeChar?, ← List.all_eq_true]
  split
  next h => simp [h]
  next h => simp [h]

/-- A code of up to four digits becomes an escape of the same character. -/
theorem expand_short (hne : digits ≠ []) (hlength : digits.length ≤ 4) (hc : codeChar? digits = some c) :
    ∃ m escaped, expand ('#' :: 'x' :: digits) = '\\' :: m :: escaped ∧ Pattern.IsEscape m escaped ∧
      scalar? (hexValue escaped) = some c := by
  obtain ⟨hhex, hscalar⟩ := codeChar?_eq_some_iff.1 hc
  have halnum : ∀ d ∈ digits, isAsciiAlnum d = true := fun d hd => isAsciiAlnum_of_isHexDigit (hhex d hd)
  obtain ⟨m, k, zeros, hexpand, hm, hzeros, -, hfull, -⟩ := expand_digits hne halnum
  refine ⟨m, zeros ++ digits, hexpand, ⟨?_, List.forall_mem_append.2 ⟨?_, hhex⟩⟩, ?_⟩
  · rw [hfull hlength]
    exact hm
  · rcases hzeros with rfl | rfl
    · exact nofun
    · simpa using (by decide : isHexDigit '0' = true)
  · rcases hzeros with rfl | rfl
    · exact hscalar
    · exact hscalar

/-- A longer code becomes an escape of its first four digits. -/
theorem expand_long (hlength : 4 < digits.length) (hc : codeChar? digits = some c) :
    ∃ escaped more, expand ('#' :: 'x' :: digits) = '\\' :: 'u' :: (escaped ++ more) ∧
      Pattern.IsEscape 'u' escaped ∧ more ≠ [] ∧ ∀ d ∈ more, isAsciiAlnum d = true := by
  obtain ⟨hhex, -⟩ := codeChar?_eq_some_iff.1 hc
  have halnum : ∀ d ∈ digits, isAsciiAlnum d = true := fun d hd => isAsciiAlnum_of_isHexDigit (hhex d hd)
  have hne : digits ≠ [] := List.length_pos_iff.1 (Nat.lt_of_le_of_lt (Nat.zero_le 4) hlength)
  obtain ⟨m, k, zeros, hexpand, -, -, -, -, hlong⟩ := expand_digits hne halnum
  obtain ⟨rfl, rfl⟩ := hlong hlength
  refine ⟨digits.take 4, digits.drop 4, ?_, ⟨.inr ⟨rfl, ?_⟩, fun d hd => hhex d (List.mem_of_mem_take hd)⟩, ?_,
    fun d hd => halnum d (List.mem_of_mem_drop hd)⟩
  · rw [List.take_append_drop]
    exact hexpand
  · rw [List.length_take, Nat.min_eq_left hlength.le]
  · rw [ne_eq, List.drop_eq_nil_iff, Nat.not_le]
    exact hlength

end CharCode

namespace Notation

open Text CharCode Pattern

/-! ## What is denoted -/

/-- The item is compiled into a pattern that takes one of these characters. -/
def Denotes (kind : String) (text : List Char) (holds : Char → Bool) : Prop :=
  ∃ p, (∀ parent scope c, (Item.token kind [] text []).symbols .w3c parent scope c = .ok ([.pattern p], c)) ∧
    ∀ input, p.match? input = oneOf holds input

/-- A class or code compiles, without a helper, to the pattern of its expanded text. -/
theorem symbols_class_iff {kind : String} (hkind : kind = "CharCode" ∨ kind = "CharClass") {text : List Char}
    {p : Pattern} :
    (∀ parent scope c, (Item.token kind [] text []).symbols .w3c parent scope c = .ok ([.pattern p], c)) ↔
      Pattern.compile (String.ofList (expand text)) = .ok p := by
  constructor
  · intro h
    cases hq : Pattern.compile (String.ofList (expand text)) with
    | error e =>
      have hsymbols := h "" {} {}
      rw [symbols_class_eq hkind, classSymbol, String.toList_ofList, hq] at hsymbols
      cases hsymbols
    | ok q =>
      have hsymbols := h "" {} {}
      rw [symbols_class hkind (.inl rfl) (.inl rfl) hq] at hsymbols
      cases hsymbols
      rfl
  · intro h parent scope c
    rw [symbols_class hkind (.inl rfl) (.inl rfl) h]
    rfl

/-- A class or code denotes a set if the pattern of its expanded text matches one character of it. -/
theorem denotes_iff {kind : String} (hkind : kind = "CharCode" ∨ kind = "CharClass") {text : List Char}
    {holds : Char → Bool} : Denotes kind text holds ↔
      ∃ p, Pattern.compile (String.ofList (expand text)) = .ok p ∧ ∀ input, p.match? input = oneOf holds input := by
  simp only [Denotes, symbols_class_iff hkind]

/-- A pattern for one character of a set denotes the set. -/
theorem denotes_of_one {kind : String} (hkind : kind = "CharCode" ∨ kind = "CharClass") {text : List Char} {s : CharSet}
    (h : readRegex? (anchored (expand text)) = some (.one s)) : Denotes kind text s.contains := by
  have hsource : readRegex? (anchored (String.ofList (expand text)).toList) = some (.one s) := by
    rw [String.toList_ofList]
    exact h
  exact (denotes_iff hkind).2 ⟨_, Pattern.compile_source ⟨_, _, hsource⟩, match?_eq_oneOf rfl⟩

/-- **A code is its character up to four digits.** The pattern of a code takes the character that its digits name and
nothing else just when there are no more than four of them. -/
theorem code_denotes_iff {digits : List Char} {c : Char} (hne : digits ≠ []) (hc : codeChar? digits = some c) :
    Denotes "CharCode" ('#' :: 'x' :: digits) (fun d => d = c) ↔ digits.length ≤ 4 := by
  constructor
  · intro hdenotes
    obtain ⟨p, hp, hmatch⟩ := (denotes_iff (.inl rfl)).1 hdenotes
    by_contra hlength
    obtain ⟨escaped, more, hexpand, hescape, hmore, halnum⟩ := expand_long (Nat.lt_of_not_le hlength) hc
    have hread := p.read_source
    rw [Pattern.source_of_compile hp, String.toList_ofList, hexpand] at hread
    have hself : p.match? [c] = some [] := by rw [hmatch]; simp [oneOf]
    cases hfirst : scalar? (hexValue escaped) with
    | none =>
      rw [readRegex?_code_none hescape hfirst] at hread
      cases hread
    | some d =>
      rw [readRegex?_code hescape hfirst halnum] at hread
      dsimp only at hread
      split at hread
      next =>
        have hlt : [c].length < (CharSet.single d :: more.map .single).length := by
          have hpos := List.length_pos_iff.2 hmore
          simp only [List.length_cons, List.length_map, List.length_nil]
          omega
        rw [match?_sets_eq_none (Option.some.inj hread).symm hlt] at hself
        cases hself
      next => cases hread
  · intro hlength
    obtain ⟨m, escaped, hexpand, hescape, hscalar⟩ := expand_short hne hlength hc
    have hread := readRegex?_code hescape hscalar (List.forall_mem_nil fun d => isAsciiAlnum d = true)
    rw [List.append_nil, ← hexpand] at hread
    have hdenotes := denotes_of_one (.inl rfl) hread
    rwa [funext fun d => contains_single d c] at hdenotes

/-! ## The items of a class -/

namespace ClassItem

/-- The first and the last character of the item, where its codes are those of characters. -/
def bounds? : ClassItem → Option (Char × Char)
  | char c => some (c, c)
  | range low high => some (low, high)
  | code digits => (codeChar? digits).map fun c => (c, c)
  | codeRange low high => (codeChar? low).bind fun a => (codeChar? high).map fun b => (a, b)

/-- The item names characters, from the first one up to the last. -/
def isProper (i : ClassItem) : Bool := i.bounds?.any fun b => b.1 ≤ b.2

/-- The item names this character. -/
def names (i : ClassItem) (c : Char) : Bool := i.bounds?.any fun b => b.1 ≤ c && c ≤ b.2

/-- Whether a pattern takes the item in front of `rest` as it is meant. There is no operator, no code is too long, and a
range ends where it ends for the meta grammar. -/
def kept (i : ClassItem) (rest : List Char) : Bool :=
  !classOperators.any (·.isPrefixOf (i.text ++ rest)) &&
    match i with
    | char c => c ≠ '\\'
    | range low high => low ≠ '\\' && high ≠ '\\' && high ≠ '-' && !opensCode (high :: rest)
    | code digits => digits.length ≤ 4 && !opensSpan (opensWith isClassChar) rest
    | codeRange low high => low.length ≤ 4 && high.length ≤ 4

/-- The item with escapes for its codes. -/
def escaped : ClassItem → List Char
  | char c => [c]
  | range low high => [low, '-', high]
  | code digits => expand ('#' :: 'x' :: digits)
  | codeRange low high => expand ('#' :: 'x' :: low) ++ '-' :: expand ('#' :: 'x' :: high)

def set (i : ClassItem) : CharSet := (i.bounds?.map fun b => .range b.1 b.2).getD .none

/-- An item's set has the characters that the item names. -/
theorem contains_set (i : ClassItem) (c : Char) : i.set.contains c = i.names c := by
  rw [set, names]
  cases i.bounds? with
  | none => rfl
  | some b => rfl

end ClassItem

section ClassItems

variable {i : ClassItem} {items : List ClassItem} {body back op cs digits : List Char} {c : Char}

/-- An item expands to its escaped form, with the rest expanded behind it. -/
theorem expand_item (hfits : i.fits back = true) (hkept : i.kept back = true) :
    expand (i.text ++ back) = i.escaped ++ expand back := by
  cases i with
  | char c =>
    simp only [ClassItem.fits, Bool.and_eq_true, Bool.not_eq_true'] at hfits
    refine expand_cons ?_
    rintro rfl
    exact hfits.1.2
  | range low high =>
    simp only [ClassItem.kept, Bool.and_eq_true, Bool.not_eq_true'] at hkept
    have hhigh : expand (high :: back) = high :: expand back := by
      refine expand_cons ?_
      rintro rfl
      exact hkept.2.2
    have hdash : expand ('-' :: high :: back) = '-' :: high :: expand back := by
      rw [expand_cons_of_ne (by decide), hhigh]
    have hlow : expand (low :: '-' :: high :: back) = low :: '-' :: high :: expand back := by
      rw [expand_cons fun _ => rfl, hdash]
    exact hlow
  | code digits =>
    rw [ClassItem.fits, Bool.and_eq_true, isDigits_iff] at hfits
    exact expand_append hfits.1.2 _
  | codeRange low high =>
    rw [ClassItem.fits, Bool.and_eq_true, isDigits_iff, isDigits_iff] at hfits
    have hdash : Clear isAsciiAlnum ('-' :: ('#' :: 'x' :: high ++ back)) := clear_cons.2 (by decide)
    have hhigh : expand ('-' :: ('#' :: 'x' :: high ++ back)) = '-' :: expand ('#' :: 'x' :: high) ++ expand back := by
      rw [expand_cons_of_ne (by decide), expand_append hfits.2.2, List.cons_append]
    have htext : (ClassItem.codeRange low high).text ++ back =
        '#' :: 'x' :: low ++ '-' :: ('#' :: 'x' :: high ++ back) := by simp [ClassItem.text]
    rw [htext, expand_append hdash, hhigh, ClassItem.escaped, List.append_assoc]

theorem expand_bracket : expand [']'] = [']'] := by
  rw [expand_cons_of_ne (by decide)]
  simp [expand, expandCount]

/-- Items expand one after another. -/
theorem expand_items (hfits : ClassItem.allIn ClassItem.fits items = true)
    (hkept : ClassItem.allIn ClassItem.kept items = true) :
    expand (items.flatMap ClassItem.text ++ [']']) = items.flatMap ClassItem.escaped ++ [']'] := by
  induction items with
  | nil => exact expand_bracket
  | cons i items ih =>
    rw [ClassItem.allIn, Bool.and_eq_true] at hfits hkept
    rw [List.flatMap_cons, List.append_assoc, expand_item hfits.1 hkept.1, ih hfits.2 hkept.2, List.flatMap_cons,
      List.append_assoc]

/-- What stands at the front of an expanded text, escapes apart, stands at the front of the text. -/
theorem prefix_of_expand (hop : ∀ d ∈ op, d ∉ ['\\', '#', ')']) (h : op <+: expand cs ++ [')']) : op <+: cs := by
  induction op generalizing cs with
  | nil => exact List.nil_prefix
  | cons d op ih =>
    rw [List.forall_mem_cons] at hop
    obtain ⟨hd, hop⟩ := hop
    simp only [List.mem_cons, List.not_mem_nil, or_false, not_or] at hd
    obtain ⟨hslash, hcode, hclose⟩ := hd
    cases cs with
    | nil =>
      have hnil : expand [] = [] := by simp [expand, expandCount]
      rw [hnil, List.nil_append, List.cons_prefix_cons] at h
      exact absurd h.1 hclose
    | cons c cs =>
      obtain ⟨e, es, hexpand, he⟩ := @expand_begins c cs
      have hfirst := h
      rw [hexpand, List.cons_append, List.cons_prefix_cons] at hfirst
      obtain ⟨rfl, -⟩ := hfirst
      obtain rfl := he.resolve_right hslash
      rw [expand_cons_of_ne hcode, List.cons_append, List.cons_prefix_cons] at h
      exact List.cons_prefix_cons.2 ⟨rfl, ih hop h.2⟩

/-- Where the text behind an item begins with a dash and nothing of a range behind it, the class ends. -/
theorem bracket_behind_dash (hbody : ∀ d ∈ body, isClassChar d = true)
    (h : opensSpan (opensWith isClassChar) (body ++ [']']) = false) :
    ∀ r, expand (body ++ [']']) ++ [')'] = '-' :: r → ∃ r', r = ']' :: r' := by
  intro r hr
  cases body with
  | nil =>
    rw [List.nil_append, expand_bracket] at hr
    cases hr
  | cons c cs =>
    obtain ⟨d, ds, hexpand, hd⟩ := @expand_begins c (cs ++ [']'])
    have hfirst := hr
    rw [List.cons_append, hexpand] at hfirst
    obtain ⟨rfl, -⟩ := List.cons.inj hfirst
    obtain rfl := hd.resolve_right (by decide)
    cases cs with
    | nil =>
      rw [List.cons_append, List.nil_append, expand_cons_of_ne (by decide), expand_bracket] at hr
      cases hr
      exact ⟨_, rfl⟩
    | cons e es =>
      have he : isClassChar e = false := h
      rw [hbody e (by simp)] at he
      cases he

/-- A code of at most four digits expands to an atom for the character it names. -/
theorem isAtom_code (hne : digits ≠ []) (hlength : digits.length ≤ 4) (hc : codeChar? digits = some c) :
    IsAtom (expand ('#' :: 'x' :: digits)) c ∧ (expand ('#' :: 'x' :: digits)).head? = some '\\' := by
  obtain ⟨m, escaped, hexpand, hescape, hscalar⟩ := expand_short hne hlength hc
  rw [hexpand]
  exact ⟨.escape hescape hscalar, rfl⟩

theorem digits_ne_nil (h : ClassItem.isDigits digits back = true) : digits ≠ [] := by
  simp only [ClassItem.isDigits, Bool.and_eq_true, Bool.not_eq_true', List.isEmpty_eq_false_iff] at h
  exact h.1.1

/-- In a pattern, the item is an element with the characters that it names. -/
theorem isElement_item (hbody : ∀ d ∈ body, isClassChar d = true) (hfits : i.fits (body ++ [']']) = true)
    (hkept : i.kept (body ++ [']']) = true) (hproper : i.isProper = true) :
    IsElement i.escaped i.set (expand (body ++ [']']) ++ [')']) := by
  simp only [ClassItem.kept, Bool.and_eq_true] at hkept
  obtain ⟨-, hkept⟩ := hkept
  cases i with
  | char c =>
    simp only [ClassItem.fits, Bool.and_eq_true, Bool.not_eq_true'] at hfits
    exact .single (.plain (of_decide_eq_true hkept)) (bracket_behind_dash hbody hfits.2)
  | range low high =>
    simp only [Bool.and_eq_true, decide_eq_true_eq] at hkept
    obtain ⟨⟨⟨hlow, hhigh⟩, hdash⟩, -⟩ := hkept
    rw [ClassItem.fits, Bool.and_eq_true] at hfits
    have hbracket : high ≠ ']' := by
      rintro rfl
      exact absurd hfits.2 (by decide)
    exact .range (.plain hlow) (.plain hhigh) (of_decide_eq_true hproper) (by simpa using ⟨hbracket, hdash⟩)
  | code digits =>
    simp only [Bool.and_eq_true, Bool.not_eq_true', decide_eq_true_eq] at hkept
    rw [ClassItem.fits, Bool.and_eq_true] at hfits
    cases hc : codeChar? digits with
    | none => simp [ClassItem.isProper, ClassItem.bounds?, hc] at hproper
    | some c =>
      obtain ⟨hatom, -⟩ := isAtom_code (digits_ne_nil hfits.1) hkept.1 hc
      have hset : (ClassItem.code digits).set = .single c := by
        simp [ClassItem.set, ClassItem.bounds?, hc, CharSet.single]
      rw [hset]
      exact .single hatom (bracket_behind_dash hbody hkept.2)
  | codeRange low high =>
    simp only [Bool.and_eq_true, decide_eq_true_eq] at hkept
    rw [ClassItem.fits, Bool.and_eq_true] at hfits
    cases ha : codeChar? low with
    | none => simp [ClassItem.isProper, ClassItem.bounds?, ha] at hproper
    | some a =>
      cases hb : codeChar? high with
      | none => simp [ClassItem.isProper, ClassItem.bounds?, hb] at hproper
      | some b =>
        have hset : (ClassItem.codeRange low high).set = .range a b := by
          simp [ClassItem.set, ClassItem.bounds?, ha, hb]
        have hle : a ≤ b := by simpa [ClassItem.isProper, ClassItem.bounds?, ha, hb] using hproper
        obtain ⟨hlow, -⟩ := isAtom_code (digits_ne_nil hfits.1) hkept.1 ha
        obtain ⟨hhigh, hhead⟩ := isAtom_code (digits_ne_nil hfits.2) hkept.2 hb
        rw [hset]
        exact .range hlow hhigh hle (by simp [hhead])

/-- Where the item begins, a pattern sees neither the end of the class nor an operator. -/
theorem inert_item (hfits : i.fits back = true) (hkept : i.kept back = true) :
    Inert (i.escaped ++ (expand back ++ [')'])) := by
  have hmarks : ∀ op ∈ [']'] :: classOperators, ∀ d ∈ op, d ∉ ['\\', '#', ')'] := by decide
  intro op hop hprefix
  rw [← List.append_assoc, ← expand_item hfits hkept] at hprefix
  have hfront := prefix_of_expand (hmarks op hop) hprefix
  rcases List.mem_cons.1 hop with rfl | hop
  · obtain ⟨c, cs, htext⟩ := List.exists_cons_of_ne_nil i.text_ne_nil
    rw [htext, List.cons_append, List.cons_prefix_cons] at hfront
    have hc := ClassItem.isClassChar_of_fits hfits c (htext ▸ List.mem_cons_self)
    rw [← hfront.1] at hc
    exact absurd hc (by decide)
  · simp only [ClassItem.kept, Bool.and_eq_true, Bool.not_eq_true', List.any_eq_false] at hkept
    exact hkept.1 op hop (List.isPrefixOf_iff_prefix.2 hfront)

/-- The elements that the items become. -/
def ClassItem.element (i : ClassItem) : List Char × CharSet := (i.escaped, i.set)

theorem isClassChar_of_allIn (h : ClassItem.allIn ClassItem.fits items = true) :
    ∀ d ∈ items.flatMap ClassItem.text, isClassChar d = true := by
  induction items with
  | nil => exact nofun
  | cons i items ih =>
    rw [ClassItem.allIn, Bool.and_eq_true] at h
    rw [List.flatMap_cons, List.forall_mem_append]
    exact ⟨ClassItem.isClassChar_of_fits h.1, ih h.2⟩

/-- The items of a class expand to elements that are read as their sets. -/
theorem elementsAt_items (hfits : ClassItem.allIn ClassItem.fits items = true)
    (hkept : ClassItem.allIn ClassItem.kept items = true) (hproper : ∀ i ∈ items, i.isProper = true) :
    ElementsAt (items.map ClassItem.element) (']' :: [')']) := by
  induction items with
  | nil => trivial
  | cons i items ih =>
    rw [ClassItem.allIn, Bool.and_eq_true] at hfits hkept
    rw [List.forall_mem_cons] at hproper
    have hbehind : (items.map ClassItem.element).flatMap Prod.fst ++ ']' :: [')'] =
        expand (items.flatMap ClassItem.text ++ [']']) ++ [')'] := by
      rw [expand_items hfits.2 hkept.2, List.flatMap_map, List.append_assoc]
      rfl
    have helement := isElement_item (isClassChar_of_allIn hfits.2) hfits.1 hkept.1 hproper.1
    have hinert := inert_item hfits.1 hkept.1
    rw [← hbehind] at helement hinert
    exact ⟨helement, hinert, ih hfits.2 hkept.2 hproper.2⟩

end ClassItems

/-! ## The pattern of a class -/

section ClassText

variable {negated : Bool} {items : List ClassItem}

/-- A class expands item by item. -/
theorem expand_classText (h : IsClassItems negated items) (hkept : ClassItem.allIn ClassItem.kept items = true) :
    expand (classText negated items) =
      '[' :: (caretText negated ++ ((items.map ClassItem.element).flatMap Prod.fst ++ [']'])) := by
  have hbody : expand (items.flatMap ClassItem.text ++ [']']) =
      (items.map ClassItem.element).flatMap Prod.fst ++ [']'] := by
    rw [expand_items h.fits hkept, List.flatMap_map]
    rfl
  rw [classText, expand_cons_of_ne (by decide)]
  cases negated with
  | true => exact congrArg ('[' :: ·) ((expand_cons_of_ne (by decide)).trans (congrArg ('^' :: ·) hbody))
  | false => exact congrArg ('[' :: ·) hbody

/-- What is no caret in the text of a class is none in the pattern. -/
theorem caretText_cases (h : IsClassItems negated items) (hkept : ClassItem.allIn ClassItem.kept items = true) :
    caretText negated = ['^'] ∨
      caretText negated = [] ∧ ((items.map ClassItem.element).flatMap Prod.fst).head? ≠ some '^' := by
  cases negated with
  | true => exact .inl rfl
  | false =>
    refine .inr ⟨rfl, fun hhead => ?_⟩
    have hclear : Clear (· = '^') (items.flatMap ClassItem.text ++ [']']) :=
      (h.caret.resolve_left Bool.false_ne_true).append (clear_cons.2 (by decide))
    have hfront := clear_expand (by decide) hclear
    rw [expand_items h.fits hkept] at hfront
    rw [List.flatMap_map] at hhead
    obtain ⟨cs, hcs⟩ := List.head?_eq_some_iff.1 hhead
    have hescaped : items.flatMap ClassItem.escaped = '^' :: cs := hcs
    rw [hescaped, List.cons_append, clear_cons] at hfront
    cases hfront

/-- A class holds what one of its items names, or, negated, what none of them names. -/
theorem contains_closeClass (negated : Bool) (items : List ClassItem) (c : Char) :
    (closeClass {} negated (unionFrom .none (items.map ClassItem.element))).contains c =
      (items.any (·.names c) != negated) := by
  have hnames : (unionFrom .none (items.map ClassItem.element)).contains c = items.any (·.names c) := by
    rw [contains_unionFrom, List.any_map]
    exact (Bool.false_or _).trans (List.any_congr rfl fun i => i.contains_set c)
  rw [← hnames]
  cases negated with
  | true => exact (Bool.bne_true _).symm
  | false => exact (Bool.bne_false _).symm

/-- A class denotes the characters that its items name, or all others, where the pattern keeps the items. -/
theorem denotes_classText (h : IsClassItems negated items) (hkept : ClassItem.allIn ClassItem.kept items = true)
    (hproper : ∀ i ∈ items, i.isProper = true) :
    Denotes "CharClass" (classText negated items) fun c => items.any (·.names c) != negated := by
  have hread := readRegex?_class (elementsAt_items h.fits hkept hproper) (by simpa using h.nonempty)
    (caretText_cases h hkept)
  have hnegated : (!(caretText negated).isEmpty) = negated := by cases negated <;> rfl
  rw [← expand_classText h hkept, hnegated] at hread
  have hdenotes := denotes_of_one (.inr rfl) hread
  rwa [funext (contains_closeClass negated items)] at hdenotes

end ClassText

/-- **Codes and classes denote the characters they name, as far as patterns take them as they are meant.** At
the front of an input the meta grammar finds a code just where digits stand behind `#x`. It reads all of them,
and the pattern takes their character just when there are no more than four. It finds a class just where items
stand in brackets. It reads these items, and where the pattern keeps every one of them, it takes one of the
characters that they name, or behind a caret one of all others. -/
theorem codes_and_classes_denote (input : List Char) :
    ((Target.rule "CharCode").Answers w3cTable input none ∨
      ∃ digits rest, input = '#' :: 'x' :: digits ++ rest ∧ ClassItem.isDigits digits rest = true) ∧
    (∀ digits rest, input = '#' :: 'x' :: digits ++ rest → ClassItem.isDigits digits rest = true →
      w3cTable.Reads isClassPart "CharCode" ('#' :: 'x' :: digits) rest [.token "CharCode" ('#' :: 'x' :: digits)] ∧
      ∀ c, codeChar? digits = some c →
        (Denotes "CharCode" ('#' :: 'x' :: digits) (fun d => d = c) ↔ digits.length ≤ 4)) ∧
    ((Target.rule "CharClass").Answers w3cTable input none ∨
      ∃ negated items rest, input = classText negated items ++ rest ∧ IsClassItems negated items) ∧
    ∀ negated items rest, input = classText negated items ++ rest → IsClassItems negated items →
      w3cTable.Reads isClassPart "CharClass" (classText negated items) rest
        [.branch "CharClass" (items.map ClassItem.node)] ∧
      (ClassItem.allIn ClassItem.kept items = true → (∀ i ∈ items, i.isProper = true) →
        Denotes "CharClass" (classText negated items) fun c => items.any (·.names c) != negated) := by
  refine ⟨?_, fun digits rest _ hdigits => ?_, exists_classText_or_none lexical_w3cTable input,
    fun negated items rest _ hitems => ⟨reads_classText lexical_w3cTable hitems rest, denotes_classText hitems⟩⟩
  · cases hcode : opensCode input with
    | true => exact .inr (exists_digits hcode)
    | false => exact .inl (code_none lexical_w3cTable hcode)
  · exact ⟨reads_codeItem lexical_w3cTable hdigits, fun c hc => code_denotes_iff (digits_ne_nil hdigits) hc⟩

/-- The items of the class `[^a-z#x41-#x5A#x30_]`. -/
def letterItems : List ClassItem :=
  [.range 'a' 'z', .codeRange ['4', '1'] ['5', 'A'], .code ['3', '0'], .char '_']

theorem letterItems_isClassItems : IsClassItems true letterItems where
  nonempty := List.cons_ne_nil _ _
  fits := by decide
  caret := .inl rfl

/-- A code of two digits, and a class with an item of each sort. -/
theorem letterItems_denote : Denotes "CharCode" "#x41".toList (fun d => d = 'A') ∧
    classText true letterItems = "[^a-z#x41-#x5A#x30_]".toList ∧
    Denotes "CharClass" "[^a-z#x41-#x5A#x30_]".toList (fun c => letterItems.any (·.names c) != true) := by
  obtain ⟨-, hcode, -⟩ := codes_and_classes_denote "#x41".toList
  obtain ⟨-, -, -, hclass⟩ := codes_and_classes_denote "[^a-z#x41-#x5A#x30_]".toList
  have hclass := (hclass true letterItems [] rfl letterItems_isClassItems).2 (by decide) (by decide)
  exact ⟨((hcode ['4', '1'] [] rfl (by decide)).2 'A' (by decide)).2 (by decide), by decide, hclass⟩

/-- A rule that is one pattern, and its parser. -/
def patternRules (p : Pattern) : List Rule := [{ name := "A", alternatives := [[.pattern p]] }]

def patternParser (p : Pattern) : Parser := ⟨.ofRules (patternRules p) "WS", {}⟩

theorem patternRules_build (p : Pattern) : Parser.build (patternRules p) {} = .ok (patternParser p) :=
  Parser.build_eq_ok_iff.2 ⟨Table.build_eq_ok_iff.2 ⟨by cbv, rfl⟩, rfl⟩

/-- The pattern of the code `#x1F600`. -/
def longCode : Pattern := .ofSource "\\u1F600"

/-- A line of the code. -/
def longLine : Line := ⟨['A'], [[.token "CharCode" [] "#x1F600".toList []]], []⟩

/-- Two ampersands between characters. -/
def doubledItems : List ClassItem := [.char 'a', .char '&', .char '&', .char 'b']

theorem doubledItems_isClassItems : IsClassItems false doubledItems where
  nonempty := List.cons_ne_nil _ _
  fits := by decide
  caret := .inr (clear_cons.2 (by decide))

/-- The pattern of a code of five digits is the character of the first four, and the fifth digit. In a class, `&&` is
read as an operator, and the pattern of `[a&&b]` takes no character. -/
theorem long_code_and_operator_differ :
    codeChar? "1F600".toList = some '😀' ∧ Dialect.w3c.rulesOf "A ::= #x1F600\n" = .ok (patternRules longCode) ∧
    Parser.build (patternRules longCode) {} = .ok (patternParser longCode) ∧
    ((patternParser longCode).parse "😀" none).toOption = none ∧
    (∃ tree, (patternParser longCode).parse "\u1F600" none = .ok tree ∧ tree.errors.length = 0) ∧
    IsClassItems false doubledItems ∧ (∀ i ∈ doubledItems, i.isProper = true) ∧
    ¬ Denotes "CharClass" (classText false doubledItems) fun c => doubledItems.any (·.names c) != false := by
  have hread : Dialect.w3c.rulesOf "A ::= #x1F600\n" = rulesOf .w3c (grammarNode [] [longLine]) :=
    @w3c_rulesOf_lines [longLine] (by decide +kernel)
  have hrules : Dialect.w3c.rulesOf "A ::= #x1F600\n" = .ok (patternRules longCode) := by
    rw [hread]
    decide +kernel
  have hnone : ((patternParser longCode).parse "😀" none).toOption.isNone = true := by decide +kernel
  have hparses : ((patternParser longCode).parse "\u1F600" none).toOption.any
      (fun tree => tree.errors.length = 0) = true := by decide +kernel
  obtain ⟨tree, htree, herrors⟩ := exists_ok_of_any hparses
  refine ⟨by decide, hrules, patternRules_build longCode, Option.isNone_iff_eq_none.1 hnone,
    ⟨tree, htree, of_decide_eq_true herrors⟩, doubledItems_isClassItems, by decide, fun hdenotes => ?_⟩
  obtain ⟨p, hp, hmatch⟩ := (denotes_iff (.inr rfl)).1 hdenotes
  have hempty : ((Pattern.compile (String.ofList (expand (classText false doubledItems)))).toOption.any
      fun q => q.match? ['a'] = none) = true := by decide +kernel
  rw [hp] at hempty
  have hself : p.match? ['a'] = some [] := hmatch ['a']
  rw [of_decide_eq_true hempty] at hself
  cases hself

end Notation

end Grammarian
