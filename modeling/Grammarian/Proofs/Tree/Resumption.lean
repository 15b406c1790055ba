import Mathlib.Order.Bounds.Basic
import Grammarian.Proofs.Parse.Commitment
import Grammarian.Proofs.Parse.Frame
import Grammarian.Proofs.Tree.Errors

/-!
# Resumption

Recovery looks for its target with calls in progress around it, but further on than all of them, so it finds
the target where a match begun afresh does. `Law.resumed` carries this from recovery into the drafts, and
from them it passes to the errors of a finished tree.
-/

namespace Grammarian

open Draft

/-- Of texts with fewer than `n` characters it is known whether a match begun afresh is there. -/
def Table.KnownBelow (t : Table) (n : Nat) (name : String) (s : List Char) (found : Bool) : Prop :=
  s.length < n → (t.matchRule none name s).value.isSome = found

/-- Where input was skipped, it was up to the first place further on at which the recovery target of the
rule matches. -/
def Law.resumed (t : Table) (whole : List Char) : Law where
  node d := ∀ rule, d.fault = some (.skipped rule) →
    ∃ r target s rest, t.rule? rule = some r ∧ r.recoverTo = some target ∧ s <:+ whole ∧
      d.left = s.length ∧ d.after = rest.length ∧ rest.length < s.length ∧
      FirstMatch (t.KnownBelow s.length target) s rest
  inner _ := True

namespace Table

variable {t : Table} {name : String} {e : Entry} {whole input : List Char}

/-- While `input` is matched, questions are about its suffixes, answers obey the law, and those about shorter
texts are as if matching had begun there. -/
def contractOfResumed (t : Table) (whole input : List Char) : Contract where
  asks _ s := s <:+ input
  answers name s answer := (∀ m ∈ answer, m.Obeys (.resumed t whole) s) ∧
    t.KnownBelow input.length name s answer.isSome

theorem resumed_kept (he : t.entry? name = some e) (hinput : input <:+ whole) :
    (Law.resumed t whole).Kept e.rule input (t.contractOfResumed whole input) where
  asks _ _ hs := hs
  answers _ _ _ hanswer := hanswer.1
  endOfInput := ⟨nofun, trivial⟩
  missing _ _ := ⟨nofun, trivial⟩
  recovered s hs cs hcs := by
    have hmeets : (s.recover cs).Meets (t.contractOfResumed whole input) _ :=
      s.recover_meets (t.KnownBelow cs.length) (fun _ _ h => h.trans hcs) fun _ _ _ _ hanswer hlt =>
        hanswer.2 (Nat.lt_of_lt_of_le hlt hcs.length_le)
    refine hmeets.mono fun found hfound => ?_
    rintro m rfl
    obtain ⟨target, rest, hto, hlt, hfirst, rfl⟩ := hfound
    refine Match.obeys_ofFault ⟨?_, trivial⟩ hfirst.suffix
    rintro _ ⟨⟩
    have hrule : t.rule? s.rule.name = some e.rule := by
      rw [hs, name_of_entry he, rule?, he, Option.map_some]
    exact ⟨e.rule, target, cs, rest, hrule, hs ▸ hto, hcs.trans hinput, rfl, rfl, hlt, hfirst⟩
  node _ _ _ _ _ := nofun
  inner _ _ _ := trivial

/-- A call in a text all of whose suffixes may still be called on skips input to the first match. -/
theorem call_resumed {budget depth : Nat} {active : List Call} (hinput : input <:+ whole)
    (hbudget : (t.idle input.length active).card < budget)
    (hactive : ∀ c ∈ active, input.length ≤ c.2) :
    ∀ m ∈ (t.call none budget active depth name input).value, m.Obeys (.resumed t whole) input := by
  induction budget generalizing active depth name input with
  | zero => exact absurd hbudget (Nat.not_lt_zero _)
  | succ b ih =>
    intro m hm
    have hnew := not_mem_of_mem_call hm
    obtain ⟨e, b, he, hb, hm⟩ := exists_run_of_mem_call hm
    cases hb
    have hplan := e.plan_keeps (resumed_kept he hinput) t.whitespace depth
    refine (hplan.of_run (fun rule s hs => ?_) m hm).1
    have hlength : s.length ≤ input.length := List.IsSuffix.length_le hs
    have hroom := card_idle_within he hnew hlength hbudget
    refine ⟨ih (List.IsSuffix.trans hs hinput) hroom ?_, fun hlt => ?_⟩
    · exact List.forall_mem_cons.2 ⟨hlength, fun c hc => hlength.trans (hactive c hc)⟩
    · rw [call_value_eq_matchRule hroom]
      exact List.forall_mem_cons.2 ⟨hlt, fun c hc => Nat.lt_of_lt_of_le hlt (hactive c hc)⟩

/-- Whatever the state of matching, recovery makes a match just when the rule has a recovery target that is
declared and does not match at once but further on, and then skips to the least offset at which it does. -/
def RecoversAtFirst (t : Table) : Prop :=
  ∀ (s : Scene) maxDepth budget active depth input,
    (((s.recover input).run (t.call maxDepth budget active depth)).value.isSome = true ↔
      ∃ target, s.rule.recoverTo = some target ∧ t.contains target = true ∧ input ≠ [] ∧
        ¬ Scene.MatchesAfter (t.call maxDepth budget active depth) target input 0 ∧
        ∃ offset, 0 < offset ∧
          Scene.MatchesAfter (t.call maxDepth budget active depth) target input offset) ∧
    ∀ m ∈ ((s.recover input).run (t.call maxDepth budget active depth)).value,
      ∃ target offset, s.rule.recoverTo = some target ∧
        IsLeast {offset | 0 < offset ∧
          Scene.MatchesAfter (t.call maxDepth budget active depth) target input offset} offset ∧
        m = .ofSkipped s.rule.name input (input.drop offset)

theorem contains_of_matchesAfter {maxDepth : Option Nat} {budget depth offset : Nat} {active : List Call}
    (h : Scene.MatchesAfter (t.call maxDepth budget active depth) name input offset) :
    t.contains name = true := by
  obtain ⟨m, hm⟩ := Option.isSome_iff_exists.1 h.2
  obtain ⟨e, -, he, -⟩ := exists_run_of_mem_call hm
  rw [contains, he, Option.isSome_some]

theorem recoversAtFirst (t : Table) : t.RecoversAtFirst := by
  intro s maxDepth budget active depth input
  constructor
  · rw [s.recover_isSome_iff]
    refine exists_congr fun target => and_congr_right fun _ => ?_
    constructor
    · rintro ⟨hne, hzero, offset, hpos, hmatches⟩
      exact ⟨contains_of_matchesAfter hmatches, hne, hzero, offset, hpos, hmatches⟩
    · exact And.right
  · intro m hm
    obtain ⟨target, offset, hto, hpos, hmatches, hearlier, rfl⟩ := s.recover_eq_some_iff.1 hm
    refine ⟨target, offset, hto, ⟨⟨hpos, hmatches⟩, fun k hk => ?_⟩, rfl⟩
    exact Nat.le_of_not_lt fun hlt => hearlier k hlt hk.2

end Table

/-- The error tells of the input between `front` and `rest`, skipped up to the first place further on at
which `target` matches, begun afresh. -/
structure ParseError.SkipsTo (t : Table) (input target front rest : String) (e : ParseError) : Prop where
  input_eq : front ++ e.text ++ rest = input
  start_eq : e.start = front.utf8ByteSize
  stop_eq : e.stop = (front ++ e.text).utf8ByteSize
  nonempty : e.text ≠ ""
  there : (t.matchRule none target rest.toList).value.isSome = true
  first : ∀ a b : String, a ≠ "" → b ≠ "" → a ++ b = e.text →
    (t.matchRule none target (b ++ rest).toList).value = none

/-- The error of a node where input was skipped skips to the recovery target of its rule. -/
theorem Draft.exists_skipsTo {t : Table} {input : String} {d : Draft} {rule : String}
    (h : (Law.resumed t input.toList).node d) (hfault : d.fault = some (.skipped rule)) :
    ∃ r target front rest, t.rule? rule = some r ∧ r.recoverTo = some target ∧
      (errorOf input.toList d.left d.after (.skipped rule)).SkipsTo t input target front rest := by
  obtain ⟨r, target, s, rest, hrule, hto, hs, hleft, hafter, hlt, hfirst⟩ := h rule hfault
  obtain ⟨front, hfront⟩ := hs
  obtain ⟨skipped, rfl⟩ := hfirst.suffix
  have htext : slice input.toList d.left d.after = String.ofList skipped := by
    rw [hleft, hafter, slice_of_append hfront]
  have hfront' : front ++ skipped ++ rest = input.toList := by rw [List.append_assoc, hfront]
  refine ⟨r, target, String.ofList front, String.ofList rest, hrule, hto, ?_, ?_, ?_, ?_, ?_, ?_⟩
  · rw [errorOf, htext, ← String.ofList_append, ← String.ofList_append, hfront', String.ofList_toList]
  · rw [errorOf, hleft, offset_of_append hfront, ← Text.byteCount_toList, String.toList_ofList]
  · rw [errorOf, htext, hafter, offset_of_append hfront', ← Text.byteCount_toList, String.toList_append,
      String.toList_ofList, String.toList_ofList]
  · rw [errorOf, htext]
    rintro hempty
    have hnil : skipped = [] := by simpa using hempty
    simp [hnil] at hlt
  · rw [String.toList_ofList]
    exact hfirst.there hlt
  · intro a b ha hb hab
    have hskipped : a.toList ++ b.toList = skipped := by
      rw [errorOf, htext] at hab
      rw [← String.toList_append, hab, String.toList_ofList]
    have hpos : ∀ {x : String}, x ≠ "" → 0 < x.toList.length := fun hx =>
      List.length_pos_iff.2 fun hnil => hx (String.toList_eq_nil_iff.1 hnil)
    have hb := hpos hb
    have ha := hpos ha
    have hsuffix : b.toList ++ rest <:+ skipped ++ rest := by
      rw [← hskipped, List.append_assoc]
      exact List.suffix_append _ _
    have hnone := hfirst.before _ hsuffix (by rw [List.length_append]; omega)
      (by rw [← hskipped]; simp only [List.length_append]; omega)
    rw [String.toList_append, String.toList_ofList]
    simpa using hnone

namespace Parser

/-- Every error for skipped input, in a parse without limit on depth, skips to the recovery target of the
rule that it names. -/
theorem exists_skipsTo_of_parse {p : Parser} {input : String} {target : Option String} {tree : Tree}
    (hdepth : p.options.maxDepth = none) (h : p.parse input target = .ok tree) {e : ParseError}
    (he : e ∈ tree.errors) (hkind : e.kindName = "unexpected-input") :
    ∃ rule r target front rest, e.expected? = some rule ∧ p.table.rule? rule = some r ∧
      r.recoverTo = some target ∧ e.SkipsTo p.table input target front rest := by
  obtain ⟨m, hm, rfl⟩ := exists_match_of_parse h
  rw [startMatch, hdepth] at hm
  have hobeys : m.Obeys (.resumed p.table input.toList) input.toList :=
    Table.call_resumed List.suffix_rfl (Nat.lt_succ_of_le (p.table.card_idle_le _ [])) (by simp) m hm
  rcases List.mem_append.1 he with he | he
  · obtain ⟨n, hn, fault, hfault, rfl⟩ := exists_of_mem_errors he
    cases fault with
    | missing name => simp [errorOf, ParseError.kindName] at hkind
    | skipped rule =>
      obtain ⟨r, target, front, rest, hrule, hto, hskips⟩ := exists_skipsTo (hobeys.node n hn) hfault
      exact ⟨rule, r, target, front, rest, rfl, hrule, hto, hskips⟩
  · rw [(Match.mem_trailing.1 he).2] at hkind
    simp [Match.trailingError, ParseError.kindName] at hkind

/-- **Recovery resumes at the first place.** Whatever the state of matching, recovery skips to the least
offset at which the recovery target matches, if the target matches further on and not at once. In a parse
without limit on depth, every error for skipped input has the text that was skipped, which is not empty and
ends at the first place at which the recovery target of the rule that the error names matches, begun
afresh. -/
theorem recovery_resumes_first (p : Parser) :
    p.table.RecoversAtFirst ∧
      (p.options.maxDepth = none → ∀ input target tree, p.parse input target = .ok tree →
        ∀ e ∈ tree.errors, e.kindName = "unexpected-input" →
          ∃ rule r target front rest, e.expected? = some rule ∧ p.table.rule? rule = some r ∧
            r.recoverTo = some target ∧ e.SkipsTo p.table input target front rest) :=
  ⟨p.table.recoversAtFirst, fun hdepth _ _ _ h _ he hkind => exists_skipsTo_of_parse hdepth h he hkind⟩

/-- In `(é x) z` the blank and the `x` are skipped to the closing bracket. -/
theorem bracketed_resumes_first : ∃ tree, bracketed.parse "(é x) z" none = .ok tree ∧
    ∃ e ∈ tree.errors, e.kindName = "unexpected-input" ∧
      ∃ rule r target front rest, e.expected? = some rule ∧ bracketed.table.rule? rule = some r ∧
        r.recoverTo = some target ∧ e.SkipsTo bracketed.table "(é x) z" target front rest := by
  obtain ⟨tree, h⟩ := bracketed_parses
  have hany : (bracketed.parse "(é x) z" none).toOption.any
      (fun tree => tree.errors.any (·.kindName = "unexpected-input")) = true := by decide +kernel
  have hskipped : ∃ e ∈ tree.errors, e.kindName = "unexpected-input" := by
    simpa [h, Except.toOption] using hany
  obtain ⟨e, he, hkind⟩ := hskipped
  exact ⟨tree, h, e, he, hkind,
    (recovery_resumes_first bracketed).2 rfl "(é x) z" none tree h e he hkind⟩

end Parser

end Grammarian
