import Grammarian.Parse.Parser
import Grammarian.Proofs.Parse.Calls

/-!
# Outcomes of a parse

A parse is the match of one rule: its tree is the finished match, and its events are those of the match.
-/

namespace Grammarian.Parser

variable {p : Parser} {input : String} {target : Option String}

/-- The rule that a parse begins with. -/
def startName (p : Parser) (target : Option String) : String :=
  target.getD ((p.table.start?.map (·.name)).getD "")

/-- The match of the rule that a parse begins with. -/
def startMatch (p : Parser) (input : String) (target : Option String) : Traced (Option Match) :=
  p.table.matchRule p.options.maxDepth (p.startName target) input.toList

theorem run_of_contains (h : p.table.contains (p.startName target) = true) :
    p.run input target =
      ⟨match (p.startMatch input target).value with
        | some m => .ok (m.finish input.toList p.options)
        | none => .error (.notResolved (p.startName target)),
        (p.startMatch input target).events⟩ := by
  have hrun : p.run input target =
      match (p.startMatch input target).value with
      | some m => ⟨.ok (m.finish input.toList p.options), (p.startMatch input target).events⟩
      | none => ⟨.error (.notResolved (p.startName target)), (p.startMatch input target).events⟩ :=
    if_pos h
  rw [hrun]
  cases (p.startMatch input target).value with
  | some m => rfl
  | none => rfl

theorem run_of_not_contains (h : ¬ p.table.contains (p.startName target) = true) :
    p.run input target = ⟨.error (.unknownRule (p.startName target)), []⟩ := if_neg h

/-- The tree of a parse is finished from the match of the rule it begins with. -/
theorem exists_match_of_parse {tree : Tree} (h : p.parse input target = .ok tree) :
    ∃ m ∈ (p.startMatch input target).value, tree = m.finish input.toList p.options := by
  unfold parse at h
  by_cases hcontains : p.table.contains (p.startName target) = true
  · rw [run_of_contains hcontains] at h
    cases hvalue : (p.startMatch input target).value with
    | none => simp [hvalue] at h
    | some m =>
      simp only [hvalue] at h
      cases h
      exact ⟨m, rfl, rfl⟩
  · rw [run_of_not_contains hcontains] at h
    cases h

/-- The match of a parse is what its rule makes of a growth, which obeys every law that the rules respect. -/
theorem exists_growth_of_startMatch {L : Law} (hL : L.Respected p.table.rules) {m : Match}
    (hm : m ∈ (p.startMatch input target).value) :
    ∃ e g, p.table.entry? (p.startName target) = some e ∧ Growth.Obeys L input.toList g ∧
      m = e.rule.collapse (g.close e.rule input.toList) := by
  obtain ⟨e, b, he, -, hm⟩ := Table.exists_run_of_mem_call hm
  have hplan := Table.plan_meets hL he 0 input.toList
  obtain ⟨-, g, hg, hmatch⟩ := hplan.of_run (fun rule s _ => Table.call_obeys hL _ _ _ _ rule s) m hm
  exact ⟨e, g, he, hg, hmatch⟩

/-- The match of a parse obeys every law that the rules respect. -/
theorem startMatch_obeys {L : Law} (hL : L.Respected p.table.rules) {m : Match}
    (hm : m ∈ (p.startMatch input target).value) : m.Obeys L input.toList :=
  Table.call_obeys hL _ _ _ _ _ _ m hm

end Grammarian.Parser
