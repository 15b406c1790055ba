import Mathlib.Data.List.Duplicate
import Mathlib.Data.List.NodupEquivFin
import Grammarian.Parse.Parser

/-!
# Accepted grammars

Rules are accepted when there is nothing wrong with them, and the table then keeps each of them once.
-/

namespace Grammarian

/-- A rule that neither skips white space nor recovers, commits or collapses. -/
structure Rule.IsPlain (r : Rule) : Prop where
  tight : r.implicitWhitespace ≠ some true
  strict : r.recoverTo = none
  free : r.pinAt = none
  whole : r.collapseSingleChild = false

namespace Rule

variable {r : Rule}

@[simp] theorem settled_name (whitespace : String) (r : Rule) : (r.settled whitespace).name = r.name := by
  rw [settled]
  split
  · rfl
  · rfl

@[simp] theorem settled_alternatives (whitespace : String) (r : Rule) :
    (r.settled whitespace).alternatives = r.alternatives := by
  rw [settled]
  split
  · rfl
  · rfl

@[simp] theorem settled_fragment (whitespace : String) (r : Rule) : (r.settled whitespace).fragment = r.fragment := by
  rw [settled]
  split
  · rfl
  · rfl

@[simp] theorem settled_pinAt (whitespace : String) (r : Rule) : (r.settled whitespace).pinAt = r.pinAt := by
  rw [settled]
  split
  · rfl
  · rfl

/-- Only a rule that says so skips white space. -/
theorem implicitWhitespace_of_skipsWhitespace {whitespace : String}
    (h : (r.settled whitespace).skipsWhitespace = true) : r.implicitWhitespace = some true := by
  rw [settled] at h
  split at h
  · simp [skipsWhitespace] at h
  · exact of_decide_eq_true h

theorem IsPlain.settled (h : r.IsPlain) (whitespace : String) : (r.settled whitespace).IsPlain := by
  rw [Rule.settled]
  split
  · exact ⟨by simp, h.strict, h.free, h.whole⟩
  · exact h

end Rule

namespace Table

variable {rules : List Rule} {whitespace : String} {t : Table}

/-- The table of rules as they are, whether or not there is anything wrong with them. -/
def ofRules (rules : List Rule) (whitespace : String) : Table where
  entries := (rules.map (Rule.settled whitespace)).map fun r => ⟨r, r.phases⟩
  whitespace := whitespace

/-- A table is built where there are no problems, and from the settled rules. -/
theorem build_eq_ok_iff : build rules whitespace = .ok t ↔
    problems (rules.map (Rule.settled whitespace)) whitespace = [] ∧ t = ofRules rules whitespace := by
  unfold build
  dsimp only
  split
  next h => simp [h, ofRules, eq_comm]
  next h => simpa using fun hnil _ => h hnil

@[simp] theorem rules_ofRules (rules : List Rule) (whitespace : String) :
    (ofRules rules whitespace).rules = rules.map (Rule.settled whitespace) := by
  simp [Table.rules, ofRules]

/-- An accepted table keeps the phases of its rules. -/
theorem alternatives_of_entry (h : build rules whitespace = .ok t) {name : String} {e : Entry}
    (he : t.entry? name = some e) : e.alternatives = e.rule.phases := by
  obtain ⟨-, rfl⟩ := build_eq_ok_iff.1 h
  obtain ⟨r, -, rfl⟩ := List.mem_map.1 (List.mem_of_find?_eq_some he)
  rfl

/-- A name is repeated where it stands twice. -/
theorem mem_duplicates_iff {names : List String} {name : String} :
    name ∈ duplicates names ↔ 2 ≤ names.count name := by
  simp only [duplicates, List.mem_map, List.mem_filter, List.contains_iff_mem, Prod.exists]
  constructor
  · rintro ⟨name, i, ⟨hmem, hearlier⟩, rfl⟩
    have hi := List.mk_mem_zipIdx_iff_getElem?.1 hmem
    have hlater : name ∈ names.drop i := by
      rw [List.mem_iff_getElem?]
      exact ⟨0, by rw [List.getElem?_drop, Nat.add_zero, hi]⟩
    have hcount : names.count name = (names.take i).count name + (names.drop i).count name := by
      rw [← List.count_append, List.take_append_drop]
    have htake := List.count_pos_iff.2 hearlier
    have hdrop := List.count_pos_iff.2 hlater
    omega
  · intro h
    obtain ⟨i, j, hij, hi, hj⟩ :=
      List.duplicate_iff_exists_distinct_get.1 (List.duplicate_iff_two_le_count.2 h)
    refine ⟨name, j, ⟨List.mk_mem_zipIdx_iff_getElem?.2 ?_, List.mem_take_iff_getElem.2 ⟨i, ?_, ?_⟩⟩, rfl⟩
    · rw [hj, List.get_eq_getElem, List.getElem?_eq_getElem]
    · have hlt : (i : Nat) < j := hij
      have hlength := j.isLt
      omega
    · rw [hi, List.get_eq_getElem]

/-- Names of which none is repeated are distinct. -/
theorem duplicates_eq_nil_iff {names : List String} : duplicates names = [] ↔ names.Nodup := by
  rw [List.eq_nil_iff_forall_not_mem, List.nodup_iff_count_le_one]
  refine forall_congr' fun name => ?_
  rw [mem_duplicates_iff]
  omega

theorem eq_nil_of_eraseDups {faults : List Problem} (h : faults.eraseDups = []) : faults = [] := by
  cases faults with
  | nil => rfl
  | cons fault faults => simp [List.eraseDups_cons] at h

/-- No two rules of a table have the same name. -/
theorem nodup_of_build (h : build rules whitespace = .ok t) : (t.rules.map (·.name)).Nodup := by
  obtain ⟨hproblems, rfl⟩ := build_eq_ok_iff.1 h
  have hnil := eq_nil_of_eraseDups hproblems
  simp only [List.append_eq_nil_iff, List.map_eq_nil_iff] at hnil
  rw [rules_ofRules]
  exact duplicates_eq_nil_iff.1 hnil.1.1.1

end Table

/-- A parser is built where its table is, and keeps its options. -/
theorem Parser.build_eq_ok_iff {rules : List Rule} {options : Options} {p : Parser} :
    Parser.build rules options = .ok p ↔
      Table.build rules options.whitespaceRule = .ok p.table ∧ p.options = options := by
  unfold Parser.build
  obtain ⟨table, options'⟩ := p
  cases Table.build rules options.whitespaceRule with
  | ok t => simp [eq_comm]
  | error problems => simp

end Grammarian
