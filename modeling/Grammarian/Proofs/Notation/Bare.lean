import Grammarian.Proofs.Notation.Helpers
import Grammarian.Proofs.Notation.W3c
import Grammarian.Proofs.Notation.Writing

/-!
# Rules without attributes

What lines without attributes are compiled to, in both notations. The text that the W3C notation writes of rules
without recovery is that of such lines.
-/

namespace Grammarian.Notation

variable {rules : List Rule} {r : Rule} {style : Style} {name : String} {alternatives : List (List Symbol)}
  {c c' : Compiled} {l : Line}

/-! ## Lines -/

theorem ruleWith_unattributed (hname : isHelperName name = false) :
    ruleWith [] [] name alternatives = .ok (rule name alternatives) := by
  rw [ruleWith, hname]
  rfl

/-- What a line without attributes adds: its helpers, and a rule of its name. -/
theorem compile_unattributed (hl : l.attributes = []) (hname : isHelperName (String.ofList l.name) = false) :
    l.compile style c = .ok c' ↔ ∃ alternatives c₁,
      Item.choiceSymbols style (String.ofList l.name) [] l.choice c = .ok (alternatives, c₁) ∧
      c' = c₁.push (rule (String.ofList l.name) alternatives) := by
  rw [compile_line, hl]
  constructor
  · rintro ⟨own, alternatives, c₁, r, hown, hchoice, hr, rfl⟩
    cases hown
    rw [ruleWith_unattributed hname] at hr
    cases hr
    exact ⟨alternatives, c₁, hchoice, rfl⟩
  · rintro ⟨alternatives, c₁, hchoice, rfl⟩
    exact ⟨[], alternatives, c₁, _, rfl, hchoice, ruleWith_unattributed hname, rfl⟩

/-- The rules of a grammar without attributes are those of its lines. -/
theorem rulesOf_bare {lines : List Line} (h : ∀ l ∈ lines, ∀ s ∈ l.choice, ∀ i ∈ s, i.Legible style) :
    rulesOf style (grammarNode [] lines) = .ok rules ↔ ∃ n, compileLines style {} lines = .ok ⟨rules, n⟩ := by
  have hplain : ∀ rules : List Rule, rules.map (withDefault (Attributes.get? [] "ws" = some "implicit")) = rules :=
    fun rules => List.map_id' rules
  rw [rulesOf_grammarNode h]
  constructor
  · intro hrules
    obtain ⟨attrs, hattrs, hrules⟩ := bind_eq_ok.1 hrules
    cases hattrs
    obtain ⟨⟨all, n⟩, hcompile, hresult⟩ := bind_eq_ok.1 hrules
    rw [hplain] at hresult
    cases hresult
    exact ⟨n, hcompile⟩
  · rintro ⟨n, hcompile⟩
    exact bind_eq_ok.2 ⟨[], rfl, bind_eq_ok.2 ⟨_, hcompile, congrArg Except.ok (hplain rules)⟩⟩

/-! ## Texts -/

/-- The line that a rule is written as where no attributes are. -/
def bareLine (rules : List Rule) (r : Rule) : Line where
  name := r.name.toList
  choice := r.alternatives.map (·.map (written .w3c rules rules.length))

theorem toList_ruleText_bare (hstrict : r.recoverTo = none) :
    (ruleText .w3c rules r).toList = (bareLine rules r).text := by
  have hbody : (bodyText .w3c rules r).toList = Item.choiceText (bareLine rules r).choice :=
    (choiceText_of_texts (written_text rules.length)).symm
  rw [ruleText, Line.text, ← hbody]
  simp [trailerText, hstrict, bareLine, attributesText]

/-- **The text of rules without recovery is that of lines without attributes.** -/
theorem grammarText_bare (hstrict : ∀ r ∈ rules, r.recoverTo = none) : grammarText .w3c rules =
    String.ofList (((productionsOf rules).map (bareLine rules)).flatMap Line.text) := by
  rw [← String.toList_inj, String.toList_ofList, grammarText, String.toList_join, List.flatMap_map,
    List.flatMap_map]
  exact List.flatMap_congr fun r hr => toList_ruleText_bare (hstrict r (List.mem_of_mem_filter hr))

end Grammarian.Notation
