import Mathlib.Data.List.Pairwise
import Grammarian.Proofs.Notation.Terminals
import Grammarian.Proofs.Text.Fields

/-!
# Helpers

What reading an item adds: the rules so far stay, every helper is named by its number, and no number is given
twice. So a helper is found by its name among all rules.
-/

namespace Grammarian

namespace Notation

/-- A bind succeeds if both of its parts do. -/
theorem bind_eq_ok {ε α β : Type} {x : Except ε α} {f : α → Except ε β} {b : β} :
    (x >>= f) = .ok b ↔ ∃ a, x = .ok a ∧ f a = .ok b := by
  cases x with
  | error e => simp [bind, Except.bind]
  | ok a => simp [bind, Except.bind]

/-- A result that passes a test. -/
theorem exists_ok_of_any {ε α : Type} {x : Except ε α} {test : α → Bool} (h : x.toOption.any test = true) :
    ∃ a, x = .ok a ∧ test a = true := by
  cases x with
  | error e => cases h
  | ok a => exact ⟨a, rfl, h⟩

/-! ## Numbers -/

/-- A name that ends in a number. -/
def Numbered (n : Nat) (name : String) : Prop := ∃ front, name.toList = front ++ '_' :: Nat.toDigits 10 n

/-- A helper's name ends in the number of helpers before it. -/
theorem numbered_helperName (c : Compiled) (parent : String) : Numbered c.helpers (c.helperName parent) := by
  obtain ⟨front, hname⟩ := helperName_eq c parent
  exact ⟨'%' :: front, hname⟩

/-- A name has one number. -/
theorem Numbered.eq {n m : Nat} {name : String} (h : Numbered n name) (h' : Numbered m name) : n = m := by
  have hdigits := Text.not_mem_toDigits (show '_'.isDigit = false by decide)
  obtain ⟨front, hfront⟩ := h
  obtain ⟨front', hfront'⟩ := h'
  exact Text.toDigits_inj (Text.eq_of_last_separator (hfront.symm.trans hfront') (hdigits n) (hdigits m)).2

/-! ## What is added -/

/-- The rules that are added, helpers numbered on from those before. -/
structure Grows (c c' : Compiled) (new : List Rule) : Prop where
  rules : c'.rules = c.rules ++ new
  helpers : c.helpers ≤ c'.helpers
  numbered : ∀ h ∈ new, isHelperName h.name = true →
    ∃ n, c.helpers ≤ n ∧ n < c'.helpers ∧ Numbered n h.name
  distinct : new.Pairwise fun h k => isHelperName h.name = true → h.name ≠ k.name

namespace Grows

variable {c c' c'' : Compiled} {new more : List Rule} {r : Rule} {parent : String}

theorem refl (c : Compiled) : Grows c c [] := ⟨by simp, le_rfl, nofun, .nil⟩

theorem trans (h : Grows c c' new) (h' : Grows c' c'' more) : Grows c c'' (new ++ more) where
  rules := by rw [h'.rules, h.rules, List.append_assoc]
  helpers := h.helpers.trans h'.helpers
  numbered := by
    intro k hk hname
    rcases List.mem_append.1 hk with hk | hk
    · obtain ⟨n, hle, hlt, hn⟩ := h.numbered k hk hname
      exact ⟨n, hle, hlt.trans_le h'.helpers, hn⟩
    · obtain ⟨n, hle, hlt, hn⟩ := h'.numbered k hk hname
      exact ⟨n, h.helpers.trans hle, hlt, hn⟩
  distinct := by
    refine List.pairwise_append.2 ⟨h.distinct, h'.distinct, fun k hk l hl hname heq => ?_⟩
    obtain ⟨n, -, hlt, hn⟩ := h.numbered k hk hname
    obtain ⟨m, hle, -, hm⟩ := h'.numbered l hl (heq ▸ hname)
    have hsame : n = m := hn.eq (heq ▸ hm)
    omega

/-- A helper whose number was taken before its own helpers were made. -/
theorem pushHelper (h : Grows c.countHelper c' new) (hr : r.name = c.helperName parent) :
    Grows c (c'.push r) (new ++ [r]) where
  rules := by
    rw [Compiled.push, h.rules, List.append_assoc]
    rfl
  helpers := (Nat.le_succ _).trans h.helpers
  numbered := by
    intro k hk hname
    rcases List.mem_append.1 hk with hk | hk
    · obtain ⟨n, hle, hlt, hn⟩ := h.numbered k hk hname
      exact ⟨n, (Nat.le_succ _).trans hle, hlt, hn⟩
    · rw [List.mem_singleton] at hk
      subst hk
      exact ⟨c.helpers, le_rfl, h.helpers, hr ▸ numbered_helperName c parent⟩
  distinct := by
    refine List.pairwise_append.2 ⟨h.distinct, List.pairwise_singleton _ _, fun k hk l hl hname heq => ?_⟩
    rw [List.mem_singleton] at hl
    subst hl
    obtain ⟨n, hle, -, hn⟩ := h.numbered k hk hname
    have hsame : n = c.helpers := hn.eq (by rw [heq, hr]; exact numbered_helperName c parent)
    rw [hsame] at hle
    exact absurd hle (Nat.not_succ_le_self _)

/-- A rule that is no helper. -/
theorem pushRule (h : Grows c c' new) (hr : isHelperName r.name = false) : Grows c (c'.push r) (new ++ [r]) where
  rules := by
    rw [Compiled.push, h.rules, List.append_assoc]
  helpers := h.helpers
  numbered := by
    intro k hk hname
    rcases List.mem_append.1 hk with hk | hk
    · exact h.numbered k hk hname
    · rw [List.mem_singleton] at hk
      rw [hk, hr] at hname
      cases hname
  distinct := by
    refine List.pairwise_append.2 ⟨h.distinct, List.pairwise_singleton _ _, fun k hk l hl hname heq => ?_⟩
    rw [List.mem_singleton] at hl
    rw [heq, hl, hr] at hname
    cases hname

end Grows

/-- A helper is found by its name. -/
theorem helperOf?_of_mem {rules : List Rule}
    (hdistinct : rules.Pairwise fun h k => isHelperName h.name = true → h.name ≠ k.name) {h : Rule} (hmem : h ∈ rules)
    (hname : isHelperName h.name = true) : helperOf? rules h.name = some h := by
  have hfilter : h ∈ rules.filter fun r => isHelperName r.name && r.name = h.name :=
    List.mem_filter.2 ⟨hmem, by simp [hname]⟩
  obtain ⟨k, hk⟩ : ∃ k, helperOf? rules h.name = some k :=
    Option.isSome_iff_exists.1 (List.getLast?_isSome.2 (List.ne_nil_of_mem hfilter))
  have hkmem := List.mem_filter.1 (List.mem_of_getLast? hk)
  simp only [Bool.and_eq_true, decide_eq_true_eq] at hkmem
  obtain ⟨hkrules, -, hkname⟩ := hkmem
  have hsymm : Std.Symm fun h k : Rule => isHelperName h.name = true → h.name ≠ k.name :=
    ⟨fun a b hab hb heq => hab (heq ▸ hb) heq.symm⟩
  by_cases hsame : k = h
  · rw [hk, hsame]
  · exact absurd hkname (hdistinct.forall hkrules hmem hsame (hkname ▸ hname))

/-- Rules among which every helper of `new` is found by its name. -/
def Finds (rules new : List Rule) : Prop := ∀ k ∈ new, isHelperName k.name = true → helperOf? rules k.name = some k

/-- What is found of two lists is found of each. -/
theorem finds_append {rules new more : List Rule} :
    Finds rules (new ++ more) ↔ Finds rules new ∧ Finds rules more :=
  List.forall_mem_append

/-- Helpers of different names are found. -/
theorem finds_of_distinct {rules : List Rule}
    (hdistinct : rules.Pairwise fun h k => isHelperName h.name = true → h.name ≠ k.name) : Finds rules rules :=
  fun _ hk hname => helperOf?_of_mem hdistinct hk hname

/-! ## Items -/

section Items

variable {style : Style} {parent name : String} {scope : Attributes} {c c' : Compiled} {kind : String}
  {lead text tail : List Char} {i : Item} {s : List Item} {choice : List (List Item)} {symbols : List Symbol}
  {alternatives : List (List Symbol)}

/-- The helper for a group. -/
def groupHelper (name : String) (alternatives : List (List Symbol)) (skips : Option Bool) : Rule :=
  { helper name alternatives with implicitWhitespace := skips }

/-- A group's helper is made without attributes of its own. -/
theorem ruleWith_nil (hname : isHelperName name = true) :
    ruleWith [] scope name alternatives = .ok (groupHelper name alternatives scope.whitespace?) := by
  rw [ruleWith, hname]
  rfl

/-- A group compiles to a reference to a helper for its alternatives, which is pushed behind theirs. -/
theorem symbols_group : (Item.group lead choice tail).symbols style parent scope c = .ok (symbols, c') ↔
    ∃ alternatives c₁,
      Item.choiceSymbols style (c.helperName parent) scope choice c.countHelper = .ok (alternatives, c₁) ∧
      symbols = [marked (leadMark lead) (c.helperName parent) (String.ofList tail)] ∧
      c' = c₁.push (groupHelper (c.helperName parent) alternatives scope.whitespace?) := by
  simp only [Item.symbols, bind_eq_ok, ruleWith_nil (isHelperName_helperName c parent)]
  constructor
  · rintro ⟨⟨alternatives, c₁⟩, hchoice, r, hr, hresult⟩
    cases hr
    cases hresult
    exact ⟨alternatives, c₁, hchoice, rfl, rfl⟩
  · rintro ⟨alternatives, c₁, hchoice, rfl, rfl⟩
    exact ⟨_, hchoice, _, rfl, rfl⟩

/-- A sequence compiles item by item. -/
theorem sequenceSymbols_cons : Item.sequenceSymbols style parent scope (i :: s) c = .ok (symbols, c') ↔
    ∃ front c₁ back, i.symbols style parent scope c = .ok (front, c₁) ∧
      Item.sequenceSymbols style parent scope s c₁ = .ok (back, c') ∧ symbols = front ++ back := by
  simp only [Item.sequenceSymbols, bind_eq_ok]
  constructor
  · rintro ⟨⟨front, c₁⟩, hfront, ⟨back, c₂⟩, hback, hresult⟩
    cases hresult
    exact ⟨front, c₁, back, hfront, hback, rfl⟩
  · rintro ⟨front, c₁, back, hfront, hback, rfl⟩
    exact ⟨_, hfront, _, hback, rfl⟩

/-- A choice compiles sequence by sequence. -/
theorem choiceSymbols_cons : Item.choiceSymbols style parent scope (s :: choice) c = .ok (alternatives, c') ↔
    ∃ front c₁ back, Item.sequenceSymbols style parent scope s c = .ok (front, c₁) ∧
      Item.choiceSymbols style parent scope choice c₁ = .ok (back, c') ∧ alternatives = front :: back := by
  simp only [Item.choiceSymbols, bind_eq_ok]
  constructor
  · rintro ⟨⟨front, c₁⟩, hfront, ⟨back, c₂⟩, hback, hresult⟩
    cases hresult
    exact ⟨front, c₁, back, hfront, hback, rfl⟩
  · rintro ⟨front, c₁, back, hfront, hback, rfl⟩
    exact ⟨_, hfront, _, hback, rfl⟩

theorem sequenceSymbols_nil : Item.sequenceSymbols style parent scope [] c = .ok (symbols, c') ↔
    symbols = [] ∧ c' = c := by
  simp [Item.sequenceSymbols, pure, Except.pure, eq_comm]

theorem choiceSymbols_nil : Item.choiceSymbols style parent scope [] c = .ok (alternatives, c') ↔
    alternatives = [] ∧ c' = c := by
  simp [Item.choiceSymbols, pure, Except.pure, eq_comm]

/-- A code or class is a pattern, or with marks a helper of its own. -/
theorem classSymbol_ok {lead text tail : String} {symbol : Symbol}
    (h : classSymbol parent scope lead text tail c = .ok (symbol, c')) :
    ∃ p, Pattern.compile (String.ofList (CharCode.expand text.toList)) = .ok p ∧
      (symbol = .pattern p ∧ c' = c ∨ symbol = marked lead (c.helperName parent) tail ∧
        c' = c.countHelper.push (classHelper (c.helperName parent) p (scope.whitespace?.getD false))) := by
  rw [classSymbol] at h
  split at h
  next e he => cases h
  next p hp =>
    refine ⟨p, hp, ?_⟩
    split at h
    next hplain =>
      cases h
      exact .inl ⟨rfl, rfl⟩
    next hmarks =>
      cases h
      exact .inr ⟨rfl, rfl⟩

/-- What a token stands for: names and literals need no helper. -/
theorem symbols_token (h : (Item.token kind lead text tail).symbols style parent scope c = .ok (symbols, c')) :
    c' = c ∨ ∃ p, symbols = [marked (leadMark lead) (c.helperName parent) (String.ofList tail)] ∧
      c' = c.countHelper.push (classHelper (c.helperName parent) p (scope.whitespace?.getD false)) := by
  rw [Item.symbols] at h
  unfold tokenSymbols at h
  split at h
  · cases h
    exact .inl rfl
  · cases hliteral : literalSymbols style scope (leadMark lead) (String.ofList text) (String.ofList tail) with
    | error e =>
      rw [hliteral] at h
      cases h
    | ok more =>
      rw [hliteral] at h
      cases h
      exact .inl rfl
  · cases hclass : classSymbol parent scope (leadMark lead) (String.ofList text) (String.ofList tail) c with
    | error e =>
      rw [hclass] at h
      cases h
    | ok r =>
      rw [hclass] at h
      cases h
      obtain ⟨p, -, hplain | hmarks⟩ := classSymbol_ok hclass
      · exact .inl hplain.2
      · exact .inr ⟨p, by rw [hmarks.1], hmarks.2⟩

/-- What is added is helpers. -/
structure GrowsHelpers (c c' : Compiled) (new : List Rule) : Prop extends Grows c c' new where
  helper : ∀ h ∈ new, isHelperName h.name = true

theorem GrowsHelpers.refl (c : Compiled) : GrowsHelpers c c [] := ⟨.refl c, nofun⟩

theorem GrowsHelpers.trans {c c₁ c' : Compiled} {new more : List Rule} (h : GrowsHelpers c c₁ new)
    (h' : GrowsHelpers c₁ c' more) : GrowsHelpers c c' (new ++ more) :=
  ⟨h.toGrows.trans h'.toGrows, List.forall_mem_append.2 ⟨h.helper, h'.helper⟩⟩

/-- Compiling a group grows by the helpers inside it and its own. -/
theorem GrowsHelpers.pushHelper {c c' : Compiled} {new : List Rule} {r : Rule} (h : GrowsHelpers c.countHelper c' new)
    (hr : r.name = c.helperName parent) : GrowsHelpers c (c'.push r) (new ++ [r]) := by
  refine ⟨h.toGrows.pushHelper hr, List.forall_mem_append.2 ⟨h.helper, List.forall_mem_singleton.2 ?_⟩⟩
  rw [hr]
  exact isHelperName_helperName c parent

mutual

/-- Reading an item adds helpers. -/
theorem symbols_grows : (i : Item) → ∀ {parent : String} {c c' : Compiled} {symbols : List Symbol},
    i.symbols style parent scope c = .ok (symbols, c') → ∃ new, GrowsHelpers c c' new
  | .token kind lead text tail, parent, c, c', symbols, h => by
    rcases symbols_token h with rfl | ⟨p, -, rfl⟩
    · exact ⟨[], .refl _⟩
    · exact ⟨_, (GrowsHelpers.refl c.countHelper).pushHelper rfl⟩
  | .group lead choice tail, parent, c, c', symbols, h => by
    obtain ⟨alternatives, c₁, hchoice, -, rfl⟩ := symbols_group.1 h
    obtain ⟨new, hnew⟩ := choiceSymbols_grows choice hchoice
    exact ⟨_, hnew.pushHelper rfl⟩

/-- Compiling a sequence grows by helpers only. -/
theorem sequenceSymbols_grows : (s : List Item) → ∀ {parent : String} {c c' : Compiled} {symbols : List Symbol},
    Item.sequenceSymbols style parent scope s c = .ok (symbols, c') → ∃ new, GrowsHelpers c c' new
  | [], parent, c, c', symbols, h => by
    obtain ⟨-, rfl⟩ := sequenceSymbols_nil.1 h
    exact ⟨[], .refl _⟩
  | i :: s, parent, c, c', symbols, h => by
    obtain ⟨front, c₁, back, hfront, hback, -⟩ := sequenceSymbols_cons.1 h
    obtain ⟨new, hnew⟩ := symbols_grows i hfront
    obtain ⟨more, hmore⟩ := sequenceSymbols_grows s hback
    exact ⟨_, hnew.trans hmore⟩

/-- Compiling a choice grows by helpers only. -/
theorem choiceSymbols_grows : (choice : List (List Item)) →
    ∀ {parent : String} {c c' : Compiled} {alternatives : List (List Symbol)},
      Item.choiceSymbols style parent scope choice c = .ok (alternatives, c') → ∃ new, GrowsHelpers c c' new
  | [], parent, c, c', alternatives, h => by
    obtain ⟨-, rfl⟩ := choiceSymbols_nil.1 h
    exact ⟨[], .refl _⟩
  | s :: choice, parent, c, c', alternatives, h => by
    obtain ⟨front, c₁, back, hfront, hback, -⟩ := choiceSymbols_cons.1 h
    obtain ⟨new, hnew⟩ := sequenceSymbols_grows s hfront
    obtain ⟨more, hmore⟩ := choiceSymbols_grows choice hback
    exact ⟨_, hnew.trans hmore⟩

end

/-- What is added by one part and then by another. -/
theorem Grows.split {c₁ : Compiled} {first second new : List Rule} (hfirst : Grows c c₁ first)
    (hsecond : Grows c₁ c' second) (hnew : c'.rules = c.rules ++ new) : new = first ++ second := by
  rw [(hfirst.trans hsecond).rules] at hnew
  exact (List.append_cancel_left hnew).symm

end Items

/-! ## Lines -/

section Lines

variable {style : Style} {c c' : Compiled} {l : Line} {lines : List Line}

/-- A line compiles to its rule, behind the helpers of its alternatives. -/
theorem compile_line : l.compile style c = .ok c' ↔ ∃ own alternatives c₁ r,
    readAttributes [] l.attributes = .ok own ∧
    Item.choiceSymbols style (String.ofList l.name) own l.choice c = .ok (alternatives, c₁) ∧
    ruleWith own own (String.ofList l.name) alternatives = .ok r ∧ c' = c₁.push r := by
  simp only [Line.compile, bind_eq_ok]
  constructor
  · rintro ⟨own, hown, ⟨alternatives, c₁⟩, hchoice, r, hr, hresult⟩
    cases hresult
    exact ⟨own, alternatives, c₁, r, hown, hchoice, hr, rfl⟩
  · rintro ⟨own, alternatives, c₁, r, hown, hchoice, hr, rfl⟩
    exact ⟨own, hown, _, hchoice, r, hr, rfl⟩

/-- Lines compile one after another. -/
theorem compileLines_cons : compileLines style c (l :: lines) = .ok c' ↔
    ∃ c₁, l.compile style c = .ok c₁ ∧ compileLines style c₁ lines = .ok c' := by
  rw [compileLines, bind_eq_ok]

theorem compileLines_nil : compileLines style c [] = .ok c' ↔ c' = c := by
  simp [compileLines, pure, Except.pure, eq_comm]

theorem compileLines_append {more : List Line} {c₁ : Compiled} (h : compileLines style c lines = .ok c₁)
    (hmore : compileLines style c₁ more = .ok c') : compileLines style c (lines ++ more) = .ok c' := by
  induction lines generalizing c with
  | nil =>
    obtain rfl := compileLines_nil.1 h
    exact hmore
  | cons l lines ih =>
    obtain ⟨c₂, hl, hlines⟩ := compileLines_cons.1 h
    exact compileLines_cons.2 ⟨c₂, hl, ih hlines⟩

end Lines

end Notation

end Grammarian
