import Grammarian.Notation.CharCode
import Grammarian.Notation.Literals
import Grammarian.Proofs.Notation.Surface
import Grammarian.Proofs.Pattern.Classes

/-!
# Characters written down

Values in quotes are decoded to themselves. Codes and classes stay codes and classes when their character
codes are turned into escapes and back.
-/

namespace Grammarian

namespace Literal

variable {q : Char} {cs rest : List Char}

theorem isQuote_quoteMark (cs : List Char) : isQuote (quoteMark cs) = true := by
  rw [quoteMark]
  split
  · decide
  · decide

/-- A character is read back from what is written of it between quotation marks. -/
theorem unescaped_quotedChar (hq : isQuote q = true) (c : Char) (rest : List Char) :
    unescaped (quotedChar q c ++ rest) = c :: unescaped rest := by
  unfold quotedChar
  split
  · simp [unescaped]
  · simp [unescaped]
  · simp [unescaped]
  · simp [unescaped]
  next hslash hnewline hreturn htab =>
    split
    next heq =>
      subst heq
      simp only [isQuote, Bool.or_eq_true, decide_eq_true_eq] at hq
      rcases hq with rfl | rfl
      · simp [unescaped]
      · simp [unescaped]
    next =>
      rw [List.singleton_append, unescaped]
      all_goals simp_all

/-- So is a text. -/
theorem unescaped_flatMap (hq : isQuote q = true) (cs : List Char) :
    unescaped (cs.flatMap (quotedChar q)) = cs := by
  induction cs with
  | nil => simp [unescaped]
  | cons c cs ih => rw [List.flatMap_cons, unescaped_quotedChar hq, ih]

theorem unquoted_of_mark (hq : isQuote q = true) (body : List Char) : unquoted (q :: (body ++ [q])) = body := by
  obtain ⟨d, r, hsplit⟩ : ∃ d r, body ++ [q] = d :: r := by
    cases body with
    | nil => exact ⟨q, [], rfl⟩
    | cons c body => exact ⟨c, body ++ [q], rfl⟩
  have hlast : (d :: r).getLast? = some q := by
    rw [← hsplit]
    exact List.getLast?_concat
  rw [hsplit, unquoted, if_pos ⟨hq, hlast⟩, ← hsplit, List.dropLast_concat]

/-- A quoted text is its characters, written one by one, between two marks. -/
theorem quoted_eq (cs : List Char) :
    quoted cs = quoteMark cs :: (cs.flatMap (quotedChar (quoteMark cs)) ++ [quoteMark cs]) := by
  rw [quoted, List.cons_append]

/-- **A value is what its quoted text is decoded to.** -/
theorem decode_quote (value : String) : decode (quote value) = value := by
  have hq := isQuote_quoteMark value.toList
  rw [decode, quote, String.toList_ofList, quoted_eq, unquoted_of_mark hq, unescaped_flatMap hq,
    String.ofList_toList]

/-- Where not both marks occur in a value, the mark around it does not occur in it. -/
theorem quoteMark_not_mem (h : ¬ ('"' ∈ cs ∧ '\'' ∈ cs)) : quoteMark cs ∉ cs := by
  rw [quoteMark]
  split
  next hmarks => exact hmarks.2
  next hmarks =>
    intro hmem
    exact hmarks ⟨hmem, fun hother => h ⟨hmem, hother⟩⟩

/-- Only the mark itself is written with a mark. -/
theorem mark_not_mem_quotedChar (hq : isQuote q = true) {c : Char} (hc : c ≠ q) : q ∉ quotedChar q c := by
  have hmarks : ∀ d ∈ ['\\', 'n', 'r', 't'], d ≠ q := by
    intro d hd heq
    subst heq
    have hnone : ∀ d ∈ ['\\', 'n', 'r', 't'], isQuote d = false := by decide
    rw [hnone d hd] at hq
    cases hq
  have hslash := hmarks '\\' (by simp)
  have hn := hmarks 'n' (by simp)
  have hr := hmarks 'r' (by simp)
  have ht := hmarks 't' (by simp)
  unfold quotedChar
  split
  · simp [hslash.symm]
  · simp [hslash.symm, hn.symm]
  · simp [hslash.symm, hr.symm]
  · simp [hslash.symm, ht.symm]
  · rw [if_neg hc]
    simpa using hc.symm

/-- Such a value is written as a literal that is read as one. -/
theorem isQuoted_quoted (h : ¬ ('"' ∈ cs ∧ '\'' ∈ cs)) : Notation.IsQuoted (quoted cs) := by
  refine ⟨_, _, quoted_eq cs, isQuote_quoteMark cs, fun hmem => ?_⟩
  obtain ⟨c, hc, hmark⟩ := List.mem_flatMap.1 hmem
  refine mark_not_mem_quotedChar (isQuote_quoteMark cs) (fun heq => ?_) hmark
  exact quoteMark_not_mem h (heq ▸ hc)

end Literal

namespace CharCode

open Text

variable {count : Nat} {mark cs ds : List Char} {d : Char}

/-! ## Codes to escapes, and back -/

/-- Without `#` there is no code to expand. -/
theorem expandCount_of_not_mem (h : '#' ∉ cs) : expandCount count mark cs = cs := by
  induction cs with
  | nil => rw [expandCount]
  | cons c cs ih =>
    rw [List.mem_cons, not_or] at h
    rw [expandCount, ih h.2]
    intro r heq
    exact absurd heq.symm h.1

/-- Without a backslash there is no code to restore. -/
theorem restore_of_not_mem (h : '\\' ∉ cs) : restore cs = cs := by
  induction cs with
  | nil => rw [restore]
  | cons c cs ih =>
    rw [List.mem_cons, not_or] at h
    rw [restore, ih h.2]
    · intro r heq
      exact absurd heq.symm h.1
    · intro r heq
      exact absurd heq.symm h.1

/-- A front of characters of a kind ends before one of another kind, if it is not complete before. -/
theorem take_append_of_clear {p : Char → Bool} {back : List Char} (hback : Notation.Clear p back) (cs : List Char) :
    (((cs ++ back).take count).length = count ∧ ((cs ++ back).take count).all p = true) ↔
      ((cs.take count).length = count ∧ (cs.take count).all p = true) := by
  by_cases hlength : count ≤ cs.length
  · rw [List.take_append_of_le_length hlength]
  · have hlt : cs.length < count := Nat.lt_of_not_le hlength
    obtain ⟨k, rfl⟩ : ∃ k, count = cs.length + (k + 1) := ⟨count - cs.length - 1, by omega⟩
    have hself : cs.take (cs.length + (k + 1)) = cs := List.take_of_length_le (Nat.le_add_right _ _)
    rw [List.take_length_add_append, hself]
    constructor
    · rintro ⟨hfull, hall⟩
      cases back with
      | nil => simp at hfull
      | cons d back =>
        rw [Notation.clear_cons] at hback
        simp [hback] at hall
    · rintro ⟨hfull, -⟩
      omega

/-- Codes end before what is no letter or digit. -/
theorem expandCount_append {back : List Char} (hback : Notation.Clear isAsciiAlnum back) (cs : List Char) :
    expandCount count mark (cs ++ back) = expandCount count mark cs ++ expandCount count mark back := by
  have hx : ∀ r, back ≠ 'x' :: r := by
    rintro r rfl
    rw [Notation.clear_cons] at hback
    exact absurd hback (by decide)
  fun_induction expandCount count mark cs with
  | case1 r h ih =>
    have hle : count ≤ r.length := by
      have hlength := h.1
      rw [List.length_take] at hlength
      omega
    rw [List.cons_append, List.cons_append, expandCount, if_pos ((take_append_of_clear hback r).2 h),
      List.take_append_of_le_length hle, List.drop_append_of_le_length hle, ih]
    simp
  | case2 r h ih =>
    rw [List.cons_append, List.cons_append, expandCount, if_neg (mt (take_append_of_clear hback r).1 h)]
    rw [List.cons_append] at ih
    rw [ih, List.cons_append]
  | case3 c r h ih =>
    rw [List.cons_append, expandCount, ih, List.cons_append]
    intro r' hc hr
    cases r with
    | nil => exact hx r' hr
    | cons e r =>
      cases hr
      exact h r hc rfl
  | case4 => rfl

/-- A character that no code has ends a code, so it can be taken off. -/
theorem expandCount_concat (hd : isAsciiAlnum d = false) (cs : List Char) :
    expandCount count mark (cs ++ [d]) = expandCount count mark cs ++ [d] := by
  have hsingle : expandCount count mark [d] = [d] := by
    rw [expandCount, expandCount]
    intro r _ hr
    cases hr
  rw [expandCount_append (Notation.clear_cons.2 hd), hsingle]

theorem isAsciiAlnum_of_isHexDigit {c : Char} (h : isHexDigit c = true) : isAsciiAlnum c = true := by
  simp only [isAsciiAlnum, isAsciiLetter, isAsciiUpper, isAsciiLower, isAsciiDigit, Bool.or_eq_true,
    Bool.and_eq_true, decide_eq_true_eq, Char.le_def]
  simp only [isHexDigit, hexDigit?, Char.le_def] at h
  grind

/-- How many digits a text begins with does not depend on what stands behind the digits. -/
theorem startsWithHex_append {back : List Char} (hback : Notation.Clear isAsciiAlnum back) (cs : List Char) :
    startsWithHex count (cs ++ back) = startsWithHex count cs := by
  rw [Bool.eq_iff_iff]
  have htake := @take_append_of_clear count _ _ (hback.imp fun c => isAsciiAlnum_of_isHexDigit (c := c)) cs
  simpa [startsWithHex] using htake

theorem le_length_of_startsWithHex (h : startsWithHex count cs = true) : count ≤ cs.length := by
  simp only [startsWithHex, Bool.and_eq_true, decide_eq_true_eq, List.length_take] at h
  omega

/-- Escapes end there too. -/
theorem restore_append {back : List Char} (hback : Notation.Clear isAsciiAlnum back) (cs : List Char) :
    restore (cs ++ back) = restore cs ++ restore back := by
  have hmark : ∀ m ∈ ['x', 'u'], ∀ r, back ≠ m :: r := by
    rintro m hm r rfl
    have hall : ∀ m ∈ ['x', 'u'], isAsciiAlnum m = true := by decide
    rw [Notation.clear_cons, hall m hm] at hback
    cases hback
  fun_induction restore cs with
  | case1 r h ih =>
    have hle := le_length_of_startsWithHex h
    rw [List.cons_append, List.cons_append, restore, if_pos (by rw [startsWithHex_append hback]; exact h),
      List.take_append_of_le_length hle, List.drop_append_of_le_length hle, ih]
    simp
  | case2 r h ih =>
    rw [List.cons_append] at ih
    rw [List.cons_append, List.cons_append, restore, if_neg (by rw [startsWithHex_append hback]; exact h), ih,
      List.cons_append]
  | case3 r h ih =>
    have hle := le_length_of_startsWithHex h
    rw [List.cons_append, List.cons_append, restore, if_pos (by rw [startsWithHex_append hback]; exact h),
      List.take_append_of_le_length hle, List.drop_append_of_le_length hle, ih]
    simp
  | case4 r h ih =>
    rw [List.cons_append] at ih
    rw [List.cons_append, List.cons_append, restore, if_neg (by rw [startsWithHex_append hback]; exact h), ih,
      List.cons_append]
  | case5 c r hx hu ih =>
    rw [List.cons_append, restore, ih, List.cons_append]
    · intro r' hc hr
      cases r with
      | nil => exact hmark 'x' (by simp) r' hr
      | cons e r =>
        cases hr
        exact hx r hc rfl
    · intro r' hc hr
      cases r with
      | nil => exact hmark 'u' (by simp) r' hr
      | cons e r =>
        cases hr
        exact hu r hc rfl
  | case6 => rfl

/-- A character that no code has ends an escape as well. -/
theorem restore_concat (hd : isAsciiAlnum d = false) (cs : List Char) :
    restore (cs ++ [d]) = restore cs ++ [d] := by
  have hsingle : restore [d] = [d] := by
    rw [restore, restore]
    · intro r _ hr
      cases hr
    · intro r _ hr
      cases hr
  rw [restore_append (Notation.clear_cons.2 hd), hsingle]

theorem expandCount_cons {c : Char} (hc : c ≠ '#') (cs : List Char) :
    expandCount count mark (c :: cs) = c :: expandCount count mark cs := by
  rw [expandCount]
  intro r heq
  exact absurd heq hc

theorem restore_cons {c : Char} (hc : c ≠ '\\') (cs : List Char) : restore (c :: cs) = c :: restore cs := by
  rw [restore]
  · intro r heq
    exact absurd heq hc
  · intro r heq
    exact absurd heq hc

/-- Expanding brings in the characters of the mark and no others. -/
theorem mem_expandCount {c : Char} (h : c ∈ expandCount count mark cs) : c ∈ mark ∨ c ∈ cs := by
  fun_induction expandCount count mark cs with
  | case1 r hcode ih =>
    simp only [List.mem_append] at h
    rcases h with (h | h) | h
    · exact Or.inl h
    · exact Or.inr (List.mem_cons_of_mem _ (List.mem_cons_of_mem _ (List.mem_of_mem_take h)))
    · exact (ih h).imp_right fun h => List.mem_cons_of_mem _ (List.mem_cons_of_mem _ (List.mem_of_mem_drop h))
  | case2 r hcode ih =>
    rcases List.mem_cons.1 h with rfl | h
    · exact Or.inr List.mem_cons_self
    · exact (ih h).imp_right (List.mem_cons_of_mem _)
  | case3 d r hcode ih =>
    rcases List.mem_cons.1 h with rfl | h
    · exact Or.inr List.mem_cons_self
    · exact (ih h).imp_right (List.mem_cons_of_mem _)
  | case4 => cases h

/-- Restoring brings in `#` and `x`. -/
theorem mem_restore {c : Char} (h : c ∈ restore cs) : c ∈ ['#', 'x'] ∨ c ∈ cs := by
  have hcode : ∀ {m : Char} {k : Nat} {r : List Char}, (c ∈ restore (r.drop k) → c ∈ ['#', 'x'] ∨ c ∈ r.drop k) →
      c ∈ '#' :: 'x' :: r.take k ++ restore (r.drop k) → c ∈ ['#', 'x'] ∨ c ∈ '\\' :: m :: r := by
    intro m k r ih h
    rcases List.mem_append.1 h with h | h
    · rcases List.mem_cons.1 h with rfl | h
      · exact Or.inl (by simp)
      · rcases List.mem_cons.1 h with rfl | h
        · exact Or.inl (by simp)
        · exact Or.inr (List.mem_cons_of_mem _ (List.mem_cons_of_mem _ (List.mem_of_mem_take h)))
    · exact (ih h).imp_right fun h => List.mem_cons_of_mem _ (List.mem_cons_of_mem _ (List.mem_of_mem_drop h))
  have hother : ∀ {d : Char} {r : List Char}, (c ∈ restore r → c ∈ ['#', 'x'] ∨ c ∈ r) → c ∈ d :: restore r →
      c ∈ ['#', 'x'] ∨ c ∈ d :: r := by
    intro d r ih h
    rcases List.mem_cons.1 h with rfl | h
    · exact Or.inr List.mem_cons_self
    · exact (ih h).imp_right (List.mem_cons_of_mem _)
  fun_induction restore cs with
  | case1 r hhex ih => exact hcode ih h
  | case2 r hhex ih => exact hother ih h
  | case3 r hhex ih => exact hcode ih h
  | case4 r hhex ih => exact hother ih h
  | case5 d r hx hu ih => exact hother ih h
  | case6 => cases h

/-- What a text begins with when codes become escapes. -/
theorem expandCount_begins {m c : Char} (cs : List Char) :
    ∃ d ds, expandCount count (m :: mark) (c :: cs) = d :: ds ∧ (d = c ∨ d = m) := by
  rw [expandCount.eq_def]
  split
  next r heq =>
    cases heq
    split
    · exact ⟨m, _, rfl, Or.inr rfl⟩
    · exact ⟨'#', _, rfl, Or.inl rfl⟩
  next d r hcode heq =>
    cases heq
    exact ⟨c, _, rfl, Or.inl rfl⟩
  next heq => cases heq

/-- The first character stays, or becomes `#`. -/
theorem restore_begins {c : Char} (cs : List Char) :
    ∃ d ds, restore (c :: cs) = d :: ds ∧ (d = c ∨ d = '#') := by
  rw [restore.eq_def]
  split
  next r heq =>
    cases heq
    split
    · exact ⟨'#', _, rfl, Or.inr rfl⟩
    · exact ⟨'\\', _, rfl, Or.inl rfl⟩
  next r heq =>
    cases heq
    split
    · exact ⟨'#', _, rfl, Or.inr rfl⟩
    · exact ⟨'\\', _, rfl, Or.inl rfl⟩
  next d r hx hu heq =>
    cases heq
    exact ⟨c, _, rfl, Or.inl rfl⟩
  next heq => cases heq

/-! ## Texts with their codes turned into escapes and back -/

/-- A text whose codes have become escapes and these codes again. -/
def reworded (cs : List Char) : List Char := restore (expand cs)

/-- Expanding and restoring leave a character behind the codes where it is. -/
theorem reworded_concat (hd : isAsciiAlnum d = false) (cs : List Char) :
    reworded (cs ++ [d]) = reworded cs ++ [d] := by
  simp only [reworded, expand, expandCount_concat hd, restore_concat hd]

theorem reworded_cons {c : Char} (hcode : c ≠ '#') (hescape : c ≠ '\\') (cs : List Char) :
    reworded (c :: cs) = c :: reworded cs := by
  simp only [reworded, expand, expandCount_cons hcode, restore_cons hescape]

/-- The first character stays, or becomes a backslash. -/
theorem expand_begins {c : Char} (cs : List Char) :
    ∃ d ds, expand (c :: cs) = d :: ds ∧ (d = c ∨ d = '\\') := by
  obtain ⟨c₄, cs₄, h₄, hc₄⟩ : ∃ d ds, expandCount 4 ['\\', 'u'] (c :: cs) = d :: ds ∧ (d = c ∨ d = '\\') :=
    expandCount_begins cs
  obtain ⟨c₃, cs₃, h₃, hc₃⟩ : ∃ d ds, expandCount 3 ['\\', 'u', '0'] (c₄ :: cs₄) = d :: ds ∧ (d = c₄ ∨ d = '\\') :=
    expandCount_begins cs₄
  obtain ⟨c₂, cs₂, h₂, hc₂⟩ : ∃ d ds, expandCount 2 ['\\', 'x'] (c₃ :: cs₃) = d :: ds ∧ (d = c₃ ∨ d = '\\') :=
    expandCount_begins cs₃
  obtain ⟨c₁, cs₁, h₁, hc₁⟩ : ∃ d ds, expandCount 1 ['\\', 'x', '0'] (c₂ :: cs₂) = d :: ds ∧ (d = c₂ ∨ d = '\\') :=
    expandCount_begins cs₂
  refine ⟨c₁, cs₁, by rw [expand, h₄, h₃, h₂, h₁], ?_⟩
  grind

theorem reworded_begins {c : Char} (cs : List Char) :
    ∃ d ds, reworded (c :: cs) = d :: ds ∧ (d = c ∨ d ∈ ['\\', '#']) := by
  obtain ⟨d, ds, hexpand, hd⟩ := expand_begins (c := c) cs
  obtain ⟨e, es, hrestore, he⟩ := restore_begins (c := d) ds
  refine ⟨e, es, by rw [reworded, hexpand, hrestore], ?_⟩
  grind

theorem mem_expand {c : Char} (h : c ∈ expand cs) : c ∈ ['x', '\\', 'u', '0'] ∨ c ∈ cs := by
  rcases mem_expandCount h with h | h
  · exact Or.inl (by grind)
  rcases mem_expandCount h with h | h
  · exact Or.inl (by grind)
  rcases mem_expandCount h with h | h
  · exact Or.inl (by grind)
  rcases mem_expandCount h with h | h
  · exact Or.inl (by grind)
  exact Or.inr h

/-- Expanding and restoring bring in the characters of codes and escapes. -/
theorem mem_reworded {c : Char} (h : c ∈ reworded cs) : c ∈ ['#', 'x', '\\', 'u', '0'] ∨ c ∈ cs := by
  rcases mem_restore h with h | h
  · exact Or.inl (by grind)
  · exact (mem_expand h).imp_left (by grind)

/-- A class stays one when its codes are expanded and restored. -/
theorem isClass_reworded {text : List Char} (h : Notation.IsClass text) : Notation.IsClass (reworded text) := by
  obtain ⟨caret, body, rfl, hcaret, hne, hbody⟩ := h
  have hchars : ∀ d ∈ reworded body, Notation.isClassChar d = true := by
    intro d hd
    rcases mem_reworded hd with hd | hd
    · have hnew : ∀ c ∈ ['#', 'x', '\\', 'u', '0'], Notation.isClassChar c = true := by decide
      exact hnew d hd
    · exact hbody d hd
  obtain ⟨c, cs, rfl⟩ := List.exists_cons_of_ne_nil hne
  obtain ⟨d, ds, hbegins, hd⟩ := reworded_begins (c := c) cs
  refine ⟨caret, reworded (c :: cs), ?_, ?_, by simp [hbegins], hchars⟩
  · rw [reworded_cons (by decide) (by decide)]
    rcases hcaret with rfl | ⟨rfl, -⟩
    · rw [List.cons_append, reworded_cons (by decide) (by decide), List.nil_append, reworded_concat (by decide)]
      rfl
    · rw [List.nil_append, reworded_concat (by decide)]
      rfl
  · refine hcaret.imp_right fun ⟨hempty, hclear⟩ => ⟨hempty, ?_⟩
    rw [hbegins, Notation.clear_cons]
    rw [Notation.clear_cons] at hclear
    rcases hd with rfl | hd
    · exact hclear
    · have hnew : ∀ c ∈ ['\\', '#'], decide (c = '^') = false := by decide
      exact hnew d hd

/-- A code with enough digits becomes an escape, and any other stays. -/
theorem expandCount_code (hds : ∀ d ∈ ds, isAsciiAlnum d = true) :
    expandCount count mark ('#' :: 'x' :: ds) =
      if count ≤ ds.length then mark ++ ds else '#' :: 'x' :: ds := by
  have hnone : '#' ∉ ds := fun hmem => absurd (hds _ hmem) (by decide)
  have hall : (ds.take count).all isAsciiAlnum = true :=
    List.all_eq_true.2 fun d hd => hds d (List.mem_of_mem_take hd)
  have hlength : (ds.take count).length = count ↔ count ≤ ds.length := by
    rw [List.length_take]
    omega
  rw [expandCount]
  simp only [hlength, hall, and_true]
  split
  · have hdrop : '#' ∉ ds.drop count := fun hmem => hnone (List.mem_of_mem_drop hmem)
    rw [expandCount_of_not_mem hdrop, List.append_assoc, List.take_append_drop]
  · rw [expandCount_cons (by decide), expandCount_of_not_mem hnone]

/-- The escape that a code becomes: its digits, or these with a zero before them. Four digits are as many as it has
room for. -/
theorem expand_digits (hne : ds ≠ []) (hds : ∀ d ∈ ds, isAsciiAlnum d = true) :
    ∃ m k zeros, expand ('#' :: 'x' :: ds) = '\\' :: m :: (zeros ++ ds) ∧ (m = 'x' ∧ k = 2 ∨ m = 'u' ∧ k = 4) ∧
      (zeros = [] ∨ zeros = ['0']) ∧ k ≤ (zeros ++ ds).length ∧ (ds.length ≤ 4 → (zeros ++ ds).length = k) ∧
      (4 < ds.length → m = 'u' ∧ zeros = []) := by
  have hzero : ∀ d ∈ '0' :: ds, isAsciiAlnum d = true := List.forall_mem_cons.2 ⟨by decide, hds⟩
  have hstay : ∀ {k : Nat} {mark digits : List Char} {m : Char}, m ≠ '#' →
      (∀ d ∈ digits, isAsciiAlnum d = true) →
      expandCount k mark ('\\' :: m :: digits) = '\\' :: m :: digits := by
    intro k mark digits m hm hdigits
    refine expandCount_of_not_mem fun hmem => ?_
    have hnone : '#' ∉ digits := fun hmem => absurd (hdigits _ hmem) (by decide)
    simp only [List.mem_cons, hm.symm, hnone, or_false] at hmem
    exact absurd hmem (by decide)
  have hpos := List.length_pos_iff.2 hne
  rw [expand, expandCount_code hds]
  by_cases h4 : 4 ≤ ds.length
  · refine ⟨'u', 4, [], ?_, Or.inr ⟨rfl, rfl⟩, Or.inl rfl, h4, fun hle => Nat.le_antisymm hle h4, fun _ => ⟨rfl, rfl⟩⟩
    rw [if_pos h4, List.cons_append, List.singleton_append, hstay (by decide) hds, hstay (by decide) hds,
      hstay (by decide) hds]
    rfl
  rw [if_neg h4, expandCount_code hds]
  by_cases h3 : 3 ≤ ds.length
  · refine ⟨'u', 4, ['0'], ?_, Or.inr ⟨rfl, rfl⟩, Or.inr rfl, Nat.succ_le_succ h3, fun _ => ?_, fun hlt => ?_⟩
    · have hmark : ['\\', 'u', '0'] ++ ds = '\\' :: 'u' :: '0' :: ds := rfl
      rw [if_pos h3, hmark, hstay (by decide) hzero, hstay (by decide) hzero]
      rfl
    · rw [List.singleton_append, List.length_cons]
      omega
    · exact absurd hlt.le h4
  rw [if_neg h3, expandCount_code hds]
  by_cases h2 : 2 ≤ ds.length
  · refine ⟨'x', 2, [], ?_, Or.inl ⟨rfl, rfl⟩, Or.inl rfl, h2, fun _ => ?_, fun hlt => ?_⟩
    · have hmark : ['\\', 'x'] ++ ds = '\\' :: 'x' :: ds := rfl
      rw [if_pos h2, hmark, hstay (by decide) hds]
      rfl
    · rw [List.nil_append]
      omega
    · exact absurd hlt.le h4
  · refine ⟨'x', 2, ['0'], ?_, Or.inl ⟨rfl, rfl⟩, Or.inr rfl, ?_, fun _ => ?_, fun hlt => ?_⟩
    · rw [if_neg h2, expandCount_code hds, if_pos (Nat.one_le_iff_ne_zero.2 (Nat.ne_of_gt hpos))]
      rfl
    · rw [List.singleton_append, List.length_cons]
      omega
    · rw [List.singleton_append, List.length_cons]
      omega
    · exact absurd hlt.le h4

theorem forall_mem_padded {zeros : List Char} (hzeros : zeros = [] ∨ zeros = ['0'])
    (hds : ∀ d ∈ ds, isAsciiAlnum d = true) : ∀ d ∈ zeros ++ ds, isAsciiAlnum d = true := by
  refine List.forall_mem_append.2 ⟨?_, hds⟩
  rcases hzeros with rfl | rfl
  · exact nofun
  · simpa using (by decide : isAsciiAlnum '0' = true)

/-- A code becomes an escape of two or four digits, with the digits over behind it. -/
theorem expand_code (hne : ds ≠ []) (hds : ∀ d ∈ ds, isAsciiAlnum d = true) :
    ∃ m k digits, expand ('#' :: 'x' :: ds) = '\\' :: m :: digits ∧ (m = 'x' ∧ k = 2 ∨ m = 'u' ∧ k = 4) ∧
      k ≤ digits.length ∧ ∀ d ∈ digits, isAsciiAlnum d = true := by
  obtain ⟨m, k, zeros, hexpand, hm, hzeros, hle, -⟩ := expand_digits hne hds
  exact ⟨m, k, zeros ++ ds, hexpand, hm, hle, forall_mem_padded hzeros hds⟩

/-- An escape with its digits becomes a code. -/
theorem restore_escape {m : Char} {k : Nat} {digits : List Char} (hm : m = 'x' ∧ k = 2 ∨ m = 'u' ∧ k = 4)
    (hhex : startsWithHex k digits = true) (hdigits : ∀ d ∈ digits, isAsciiAlnum d = true) :
    restore ('\\' :: m :: digits) = '#' :: 'x' :: digits := by
  have hdrop : '\\' ∉ digits.drop k := fun hmem =>
    absurd (hdigits _ (List.mem_of_mem_drop hmem)) (by decide)
  have hjoin : '#' :: 'x' :: digits.take k ++ restore (digits.drop k) = '#' :: 'x' :: digits := by
    rw [restore_of_not_mem hdrop, List.cons_append, List.cons_append, List.take_append_drop]
  rcases hm with ⟨rfl, rfl⟩ | ⟨rfl, rfl⟩
  · rw [restore, if_pos hhex, hjoin]
  · rw [restore, if_pos hhex, hjoin]

end CharCode

namespace Pattern

open Text

/-- Digits that are none of numbers to the base sixteen are not read. -/
theorem readHex?_of_not_hex {fl : Flags} (hfl : fl.verbose = false) {k : Nat} {digits : List Char}
    (hlength : k ≤ digits.length) (hhex : CharCode.startsWithHex k digits = false) (rest : List Char) :
    readHex? fl k (digits ++ rest) = none := by
  induction k generalizing digits with
  | zero => simp [CharCode.startsWithHex] at hhex
  | succ k ih =>
    cases digits with
    | nil => simp at hlength
    | cons d digits =>
      have hskip : fl.skip (d :: digits ++ rest) = d :: (digits ++ rest) := by
        simp [Flags.skip, hfl]
      rw [readHex?, hskip]
      simp only []
      split
      next hd =>
        have hmore : CharCode.startsWithHex k digits = false := by
          simpa [CharCode.startsWithHex, hd] using hhex
        rw [ih (by simpa using hlength) hmore]
        rfl
      next => rfl

/-- An escape that is read has its digits. -/
theorem startsWithHex_of_readRegex? {m : Char} {k : Nat} {digits : List Char} {r : Regex}
    (hm : m = 'x' ∧ k = 2 ∨ m = 'u' ∧ k = 4) (hlength : k ≤ digits.length)
    (hdigits : ∀ d ∈ digits, isAsciiAlnum d = true)
    (h : readRegex? (anchored ('\\' :: m :: digits)) = some r) :
    CharCode.startsWithHex k digits = true := by
  by_contra hhex
  have hcode : readCode? {} k (digits ++ [')']) = none := by
    have hhex : readHex? {} k (digits ++ [')']) = none :=
      readHex?_of_not_hex rfl hlength (Bool.eq_false_iff.2 hhex) [')']
    have hbrace : (digits ++ [')']).head? ≠ some '\x7b' := by
      cases digits with
      | nil => simp
      | cons d ds =>
        intro heq
        obtain rfl : d = '\x7b' := by simpa using heq
        exact absurd (hdigits _ List.mem_cons_self) (by decide)
    rw [readCode?_of_ne hbrace, hhex]
    rfl
  have hescape : readEscape? {} (m :: (digits ++ [')'])) = none := by
    rcases hm with ⟨rfl, rfl⟩ | ⟨rfl, rfl⟩
    · exact hcode
    · exact hcode
  rw [readRegex?_escape_none hescape] at h
  cases h

end Pattern

namespace Notation

open Text

/-- What a pattern of a code or class is written as: a code or class again. -/
theorem isCode_restore {text : List Char} (h : IsCode text) {r : Pattern.Regex}
    (hr : Pattern.readRegex? (Pattern.anchored (CharCode.expand text)) = some r) :
    IsCode (CharCode.restore (CharCode.expand text)) := by
  obtain ⟨ds, rfl, hne, hds⟩ := h
  obtain ⟨m, k, digits, hexpand, hm, hlength, hdigits⟩ := CharCode.expand_code hne hds
  rw [hexpand] at hr ⊢
  have hhex := Pattern.startsWithHex_of_readRegex? hm hlength hdigits hr
  rw [CharCode.restore_escape hm hhex hdigits]
  refine ⟨digits, rfl, ?_, hdigits⟩
  rintro rfl
  rcases hm with ⟨-, rfl⟩ | ⟨-, rfl⟩
  · simp at hlength
  · simp at hlength

end Notation

end Grammarian
