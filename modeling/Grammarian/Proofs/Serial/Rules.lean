import Grammarian.Notation.Dialect
import Grammarian.Proofs.Notation.Inlining
import Grammarian.Serial.Rule

/-!
# Rules that are handed on

Symbols are written so that they are read as what they are, and so are whole rules as values. A reference has to be
one that some text is read as: a reference with a mark in its name is written like one with that mark. All rules
that a grammar text is read as have such references only.
-/

namespace Grammarian

/-! ## Symbols as text -/

namespace Reference

variable {cs : List Char}

/-- A text is its front and the mark split off its end. -/
theorem splitTail_mark (cs : List Char) : (splitTail cs).2 ++ (splitTail cs).1.mark.toList = cs := by
  have hlast : ∀ c, cs.getLast? = some c → cs.dropLast ++ [c] = cs := fun c hc =>
    List.dropLast_append_getLast? c (Option.mem_def.2 hc)
  rw [splitTail]
  split
  next h => simpa [Repetition.mark] using hlast '?' h
  next h => simpa [Repetition.mark] using hlast '*' h
  next h => simpa [Repetition.mark] using hlast '+' h
  next => exact List.append_nil cs

/-- **A reference is written as the text that it was read from.** -/
theorem text_ofText (raw : String) : (ofText raw).text = raw := by
  have hsplit := splitTail_mark raw.toList
  rw [← String.toList_inj, text, String.toList_append, String.toList_append, tailMark, ofText]
  generalize splitTail raw.toList = taken at hsplit ⊢
  obtain ⟨repetition, rest⟩ := taken
  dsimp only at hsplit ⊢
  split
  next name => simpa [leadMark] using hsplit
  next name => simpa [leadMark] using hsplit
  next name => simpa [leadMark] using hsplit
  next => simpa [leadMark] using hsplit

end Reference

namespace Symbol

/-- A symbol is written so that it is read again. -/
theorem ofText_text_ofText (raw : String) : ofText (ofText raw).text = ofText raw := by
  by_cases hliteral : ((Reference.ofText raw).isLiteral && (Reference.ofText raw).isPlain) = true
  · have hvalue : ofText raw = literal (Literal.decode (Reference.ofText raw).name) := if_pos hliteral
    rw [hvalue]
    exact Notation.ofText_quote _
  · have hreference : ofText raw = reference (.ofText raw) := if_neg hliteral
    rw [hreference, text, Reference.text_ofText, hreference]

/-- **Quoting is undone by decoding, and writing a symbol by reading it.** -/
theorem written_read : (∀ value, Literal.decode (Literal.quote value) = value) ∧
    (∀ value, ofText (literal value).text = literal value) ∧ (∀ raw, ofText (ofText raw).text = ofText raw) ∧
    ∀ raw, (Reference.ofText raw).text = raw :=
  ⟨Literal.decode_quote, Notation.ofText_quote, ofText_text_ofText, Reference.text_ofText⟩

end Symbol

/-! ## Symbols and rules as values -/

namespace Symbol

/-- The symbol is no reference that cannot be read from any text. -/
def Readable (s : Symbol) : Prop := ∀ r, s = .reference r → ∃ raw, .ofText raw = r

/-- A literal can be read back. -/
theorem readable_literal (value : String) : (literal value).Readable := by
  intro r hr
  cases hr

/-- A pattern can be read back. -/
theorem readable_pattern (p : Pattern) : (pattern p).Readable := by
  intro r hr
  cases hr

/-- A reference that is made of a text can be read back. -/
theorem readable_reference {r : Reference} (h : ∃ raw, .ofText raw = r) : (reference r).Readable := by
  intro r' hr
  cases hr
  exact h

theorem readable_ofText (raw : String) : (ofText raw).Readable := by
  rw [ofText]
  split
  next => exact readable_literal _
  next => exact readable_reference ⟨raw, rfl⟩

theorem ofValue?_toValue {s : Symbol} (h : s.Readable) : ofValue? s.toValue = some s := by
  cases s with
  | literal value => rfl
  | pattern p =>
    rw [toValue, ofValue?, Pattern.compile_source]
    rfl
  | reference r =>
    obtain ⟨raw, rfl⟩ := h r rfl
    rw [toValue, ofValue?, Reference.text_ofText]

end Symbol

namespace Value

variable {fields more : List (String × Value)} {key name : String}

/-- Of two fields with the same name, the later one is found. -/
theorem field?_append : field? (fields ++ more) key = (field? more key).or (field? fields key) := by
  rw [field?, field?, field?, List.filter_append, List.getLast?_append, Option.map_or]

/-- Looking up a field that may be missing. -/
theorem field?_optionalField (v : Option Value) :
    field? (Rule.optionalField name v) key = if name = key then v else none := by
  cases v with
  | none => simp [Rule.optionalField, field?]
  | some v =>
    by_cases hkey : name = key
    · simp [Rule.optionalField, field?, hkey]
    · simp [Rule.optionalField, field?, hkey]

/-- Looking up a flag that is written only if it is set. -/
theorem field?_flagField (b : Bool) :
    field? (Rule.flagField name b) key = if name = key ∧ b = true then some (.bool true) else none := by
  cases b with
  | false => simp [Rule.flagField, field?]
  | true =>
    by_cases hkey : name = key
    · simp [Rule.flagField, field?, hkey]
    · simp [Rule.flagField, field?, hkey]

theorem field?_pair (first second : Value) (name other : String) :
    field? [(name, first), (other, second)] key =
      if other = key then some second else if name = key then some first else none := by
  by_cases hother : other = key
  · by_cases hname : name = key
    · simp [field?, hother, hname]
    · simp [field?, hother, hname]
  · by_cases hname : name = key
    · simp [field?, hother, hname]
    · simp [field?, hother, hname]

end Value

namespace Rule

/-- A rule whose references can be read, and whose phase is a number that a field holds. -/
structure Portable (r : Rule) : Prop where
  readable : ∀ alt ∈ r.alternatives, ∀ s ∈ alt, s.Readable
  pin : ∀ n ∈ r.pinAt, n ≤ maxNumber

/-- A rule is portable if its symbols are readable and its phase number is one. -/
theorem portable_of_parts {r : Rule} (h : ∀ s ∈ r.alternatives.flatten, s.Readable)
    (hpin : ∀ n ∈ r.pinAt, n ≤ maxNumber) : r.Portable where
  readable alt halt s hs := h s (List.mem_flatten.2 ⟨alt, halt, hs⟩)
  pin := hpin

/-- A list is read back if its members are. -/
theorem readList?_map {α : Type} {read : Value → Option α} {toValue : α → Value} {items : List α}
    (h : ∀ a ∈ items, read (toValue a) = some a) : readList? read (.list (items.map toValue)) = some items := by
  rw [readList?]
  induction items with
  | nil => rfl
  | cons a items ih =>
    rw [List.forall_mem_cons] at h
    rw [List.map_cons, List.mapM_cons, h.1, ih h.2]
    rfl

/-- A field that is left out or has its value. -/
theorem readOr?_map {α : Type} {read : Value → Option α} {toValue : α → Value} {o : Option α}
    (h : ∀ a ∈ o, toValue a ≠ .null ∧ read (toValue a) = some a) :
    readOr? (readNullable? read) none (o.map toValue) = some o := by
  cases o with
  | none => rfl
  | some a =>
    obtain ⟨hvalue, hread⟩ := h a rfl
    rw [Option.map_some, readOr?, readNullable?, hread]
    · rfl
    · exact hvalue

/-- A flag is read back, whether it is written or not. -/
theorem readOr?_flag (b : Bool) : readOr? readBool? false (if b = true then some (.bool true) else none) = some b := by
  cases b with
  | false => rfl
  | true => rfl

theorem readNat?_nat {n : Nat} (h : n ≤ maxNumber) : readNat? (.nat n) = some n := by
  rw [Value.nat, readNat?, if_pos ⟨Int.natCast_nonneg n, Int.ofNat_le.2 h⟩, Int.toNat_natCast]

/-- A rule is read again from the value for it. -/
theorem ofValue?_toValue {r : Rule} (h : r.Portable) : ofValue? r.toValue = some r := by
  have hname : readString? (.string r.name) = some r.name := rfl
  have halternatives : readList? (readList? Symbol.ofValue?)
      (.list (r.alternatives.map fun a => .list (a.map Symbol.toValue))) = some r.alternatives :=
    readList?_map fun alt halt => readList?_map fun s hs => Symbol.ofValue?_toValue (h.readable alt halt s hs)
  have hrecover : readOr? (readNullable? readString?) none (r.recoverTo.map .string) = some r.recoverTo :=
    readOr?_map fun target _ => ⟨Value.noConfusion, rfl⟩
  have hpin : readOr? (readNullable? readNat?) none (r.pinAt.map .nat) = some r.pinAt :=
    readOr?_map fun n hn => ⟨Value.noConfusion, readNat?_nat (h.pin n hn)⟩
  have hws : readOr? (readNullable? readBool?) none (r.implicitWhitespace.map .bool) = some r.implicitWhitespace :=
    readOr?_map fun b _ => ⟨Value.noConfusion, rfl⟩
  have hfragment := readOr?_flag r.fragment
  have hcollapse := readOr?_flag r.collapseSingleChild
  rw [toValue, ofValue?, ofFields?]
  simp only [Value.field?_append, Value.field?_optionalField, Value.field?_flagField, Value.field?_pair]
  simp [hname, halternatives, hrecover, hpin, hws, hfragment, hcollapse]

/-- Rules are read again from the value for them. -/
theorem rulesOfValue?_rulesToValue {rules : List Rule} (h : ∀ r ∈ rules, r.Portable) :
    rulesOfValue? (rulesToValue rules) = some rules :=
  readList?_map fun r hr => ofValue?_toValue (h r hr)

end Rule

/-! ## What grammar texts are read as -/

namespace Notation

/-- References to helpers are read like others. -/
theorem Woven.portable {n n' : Nat} {new : List Rule} {symbols : List Symbol} (h : Woven n new symbols n') :
    (∀ s ∈ symbols, s.Readable) ∧ ∀ r ∈ new, r.Portable := by
  induction h with
  | nil n => exact ⟨List.forall_mem_nil _, List.forall_mem_nil _⟩
  | lone hs =>
    refine ⟨List.forall_mem_singleton.2 ?_, List.forall_mem_nil _⟩
    cases hs with
    | literal value => exact Symbol.readable_literal value
    | pattern p => exact Symbol.readable_pattern p
    | reference hname hread => exact Symbol.readable_reference hread
  | helper parent inner hname hpin hr hread ih =>
    refine ⟨List.forall_mem_singleton.2 (Symbol.readable_reference hread), List.forall_mem_append.2 ⟨ih.2, ?_⟩⟩
    refine List.forall_mem_singleton.2 ?_
    apply Rule.portable_of_parts ih.1
    simp [hpin]
  | rule inner hname hpin ih =>
    refine ⟨List.forall_mem_nil _, List.forall_mem_append.2 ⟨ih.2, ?_⟩⟩
    exact List.forall_mem_singleton.2 (Rule.portable_of_parts ih.1 hpin)
  | append front back ihFront ihBack =>
    exact ⟨List.forall_mem_append.2 ⟨ihFront.1, ihBack.1⟩, List.forall_mem_append.2 ⟨ihFront.2, ihBack.2⟩⟩

theorem readable_symbolOfTerm (term : Node) : (symbolOfTerm term).Readable := by
  rw [symbolOfTerm]
  split
  next => exact Symbol.readable_ofText _
  next => exact Symbol.readable_ofText _

mutual

/-- The symbols of a BNF alternative can be read back. -/
theorem readable_termsOf : (n : Node) → ∀ s ∈ termsOf n, s.Readable
  | ⟨kind, text, start, stop, children⟩ => by
    rw [termsOf]
    exact readable_termsAmong children

theorem readable_termsAmong : (ns : List Node) → ∀ s ∈ termsAmong ns, s.Readable
  | [] => List.forall_mem_nil _
  | n :: ns => by
    rw [termsAmong]
    split
    next => exact List.forall_mem_cons.2 ⟨readable_symbolOfTerm n, readable_termsAmong ns⟩
    next =>
      split
      next => exact List.forall_mem_append.2 ⟨readable_termsOf n, readable_termsAmong ns⟩
      next => exact readable_termsAmong ns

end

/-- A rule without attributes whose symbols can be read. -/
theorem portable_rule {name : String} {alternatives : List (List Symbol)}
    (h : ∀ alt ∈ alternatives, ∀ s ∈ alt, s.Readable) : (rule name alternatives).Portable :=
  ⟨h, fun k hk => by cases hk⟩

theorem portable_bnfRule (n : Node) : (bnfRule n).Portable := by
  refine portable_rule fun alt halt => ?_
  obtain ⟨expression, -, rfl⟩ := List.mem_map.1 halt
  exact readable_termsOf expression

theorem portable_endOfLine : endOfLine.Portable := by
  refine portable_rule fun alt halt s hs => ?_
  simp only [List.mem_cons, List.not_mem_nil, or_false] at halt
  rcases halt with rfl | rfl | rfl
  all_goals
    obtain ⟨raw, -, rfl⟩ := List.mem_map.1 hs
    exact Symbol.readable_ofText raw

/-- Every rule of a BNF grammar is portable. -/
theorem portable_bnfRulesOf (root : Node) : ∀ r ∈ bnfRulesOf root, r.Portable := by
  have hrules : ∀ r ∈ (root.childrenOf "rule").map bnfRule, r.Portable := by
    intro r hr
    obtain ⟨n, -, rfl⟩ := List.mem_map.1 hr
    exact portable_bnfRule n
  rw [bnfRulesOf]
  split
  next => exact hrules
  next => exact List.forall_mem_append.2 ⟨hrules, List.forall_mem_singleton.2 portable_endOfLine⟩

end Notation

/-- The rules of a grammar text can be handed on, in whatever dialect it is written. -/
theorem Dialect.portable_of_rulesOf {d : Dialect} {source : String} {rules : List Rule}
    (h : d.rulesOf source = .ok rules) : ∀ r ∈ rules, r.Portable := by
  cases d with
  | bnf =>
    cases hroot : readGrammarTree Notation.bnfParser source with
    | error e =>
      rw [rulesOf, hroot] at h
      cases h
    | ok root =>
      rw [rulesOf, hroot] at h
      cases h
      exact Notation.portable_bnfRulesOf root
  | w3c =>
    have hsource : Notation.Style.w3c.dialect.rulesOf source = .ok rules := h
    obtain ⟨⟨n, hwoven⟩, -⟩ := Notation.exists_woven hsource
    exact hwoven.portable.2
  | custom =>
    have hsource : Notation.Style.attributed.dialect.rulesOf source = .ok rules := h
    obtain ⟨⟨n, hwoven⟩, -⟩ := Notation.exists_woven hsource
    exact hwoven.portable.2

/-- **Rules load back.** Rules with references that can be read are read again from the value for them, and those of
every grammar text are such rules. -/
theorem Rule.load_back :
    (∀ rules : List Rule, (∀ r ∈ rules, r.Portable) → rulesOfValue? (rulesToValue rules) = some rules) ∧
      ∀ (d : Dialect) (source : String) (rules : List Rule), d.rulesOf source = .ok rules →
        rulesOfValue? (rulesToValue rules) = some rules :=
  ⟨fun _ => Rule.rulesOfValue?_rulesToValue, fun _ _ _ h =>
    Rule.rulesOfValue?_rulesToValue (Dialect.portable_of_rulesOf h)⟩

/-- Marks one upon the other, a quoted literal with a mark, and every field. -/
def oddRules : List Rule :=
  [{ name := "%\"", alternatives := [[.ofText "&!@A*+?", .ofText "'\"'?"], []]
     recoverTo := some "", fragment := true, pinAt := some 0, implicitWhitespace := some false
     collapseSingleChild := true },
    { name := "", alternatives := [[.literal "\\", .ofPattern "[a-z]"]] }]

theorem oddRules_load_back : (∀ r ∈ oddRules, r.Portable) ∧ rulesOfValue? (rulesToValue oddRules) = some oddRules ∧
    ∃ rules, Dialect.custom.rulesOf Dialect.listGrammar = .ok rules ∧
      rulesOfValue? (rulesToValue rules) = some rules := by
  have hportable : ∀ r ∈ oddRules, r.Portable := by
    have hliteral := Symbol.readable_literal "\\"
    have hpattern : (Symbol.ofPattern "[a-z]").Readable := Symbol.readable_pattern _
    simp only [oddRules, List.forall_mem_cons]
    refine ⟨⟨?_, ?_⟩, ⟨?_, ?_⟩, List.forall_mem_nil _⟩
    · simp [Symbol.readable_ofText]
    · simp [Rule.maxNumber]
    · simp [hliteral, hpattern]
    · simp
  obtain ⟨rules, hrules, -⟩ := Dialect.listGrammar_rules
  exact ⟨hportable, Rule.load_back.1 _ hportable, rules, hrules, Rule.load_back.2 .custom _ _ hrules⟩

end Grammarian
