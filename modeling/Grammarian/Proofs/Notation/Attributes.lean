import Grammarian.Proofs.Notation.Helpers
import Grammarian.Proofs.Notation.Legibility

/-!
# Attributes written and read

The attributes that a rule is written with are read as they are, and a production with them is the rule again.
What a production can have been given as attributes is said by `Attributed`.
-/

namespace Grammarian.Notation

/-! ## Reading -/

/-- Attributes as texts. -/
def attributeStrings (as : List (List Char × List Char)) : Attributes :=
  as.map fun a => (String.ofList a.1, String.ofList a.2)

variable {attrs own scope : Attributes} {as : List (List Char × List Char)} {name : String}

/-- An attribute is looked up in the front first. -/
theorem get?_append (front back : Attributes) (name : String) :
    Attributes.get? (front ++ back) name = (Attributes.get? front name).or (Attributes.get? back name) := by
  rw [Attributes.get?, List.find?_append, Option.map_or]
  rfl

/-- Attributes that are read are as they are written. -/
theorem eq_of_readAttributes (h : readAttributes attrs as = .ok own) : own = attrs ++ attributeStrings as := by
  induction as generalizing attrs with
  | nil =>
    cases h
    rw [attributeStrings, List.map_nil, List.append_nil]
  | cons a as ih =>
    rw [readAttributes] at h
    split at h
    next => cases h
    next => rw [ih h, List.append_assoc, attributeStrings, attributeStrings, List.map_cons, List.singleton_append]

/-- Attributes of different names can be read. -/
theorem readAttributes_of_nodup (hnodup : (as.map (·.1)).Nodup)
    (hattrs : ∀ a ∈ as, attrs.get? (String.ofList a.1) = none) :
    readAttributes attrs as = .ok (attrs ++ attributeStrings as) := by
  induction as generalizing attrs with
  | nil => rw [readAttributes, attributeStrings, List.map_nil, List.append_nil]
  | cons a as ih =>
    rw [List.forall_mem_cons] at hattrs
    rw [List.map_cons, List.nodup_cons] at hnodup
    have hrest : ∀ b ∈ as, Attributes.get? (attrs ++ [(String.ofList a.1, String.ofList a.2)])
        (String.ofList b.1) = none := by
      intro b hb
      have hne : String.ofList a.1 ≠ String.ofList b.1 := fun heq =>
        hnodup.1 (String.ofList_injective heq ▸ List.mem_map_of_mem hb)
      rw [get?_append, hattrs.2 b hb]
      simp [Attributes.get?, hne]
    rw [readAttributes, hattrs.1, Option.isSome_none, if_neg Bool.false_ne_true, ih hnodup.2 hrest,
      List.append_assoc, attributeStrings, attributeStrings, List.map_cons, List.singleton_append]

/-- Attributes that can be read have different names. -/
theorem nodup_of_readAttributes (h : readAttributes attrs as = .ok own) :
    (as.map (·.1)).Nodup ∧ ∀ a ∈ as, attrs.get? (String.ofList a.1) = none := by
  induction as generalizing attrs with
  | nil => exact ⟨.nil, nofun⟩
  | cons a as ih =>
    rw [readAttributes] at h
    split at h
    next => cases h
    next hnew =>
      obtain ⟨hnodup, hnone⟩ := ih h
      have hboth : ∀ b ∈ as, attrs.get? (String.ofList b.1) = none ∧ b.1 ≠ a.1 := by
        intro b hb
        have hb := hnone b hb
        rw [get?_append, Option.or_eq_none_iff] at hb
        refine ⟨hb.1, fun heq => ?_⟩
        simp [Attributes.get?, heq] at hb
      refine ⟨List.nodup_cons.2 ⟨fun hmem => ?_, hnodup⟩, List.forall_mem_cons.2 ⟨?_, fun b hb => (hboth b hb).1⟩⟩
      · obtain ⟨b, hb, hsame⟩ := List.mem_map.1 hmem
        exact (hboth b hb).2 hsame
      · simpa using hnew

/-- Attributes are read as they stand, where no name is given twice. -/
theorem readAttributes_nil_iff :
    readAttributes [] as = .ok own ↔ own = attributeStrings as ∧ (as.map (·.1)).Nodup := by
  constructor
  · intro h
    exact ⟨eq_of_readAttributes h, (nodup_of_readAttributes h).1⟩
  · rintro ⟨rfl, hnodup⟩
    exact readAttributes_of_nodup hnodup fun a _ => rfl

/-- An attribute is missing where its name is. -/
theorem get?_eq_none_iff {name : List Char} :
    Attributes.get? (attributeStrings as) (String.ofList name) = none ↔ name ∉ as.map (·.1) := by
  rw [Attributes.get?, Option.map_eq_none_iff, List.find?_eq_none, attributeStrings]
  have hinj : ∀ a : List Char, String.ofList a = String.ofList name ↔ a = name := fun a =>
    ⟨fun h => String.ofList_injective h, congrArg _⟩
  simp only [List.mem_map, forall_exists_index, and_imp, forall_apply_eq_imp_iff₂, decide_eq_true_eq, hinj,
    not_exists, not_and]

/-- An attribute that is read has the value that it is written with. -/
theorem get?_of_mem (h : readAttributes attrs as = .ok own) {a : List Char × List Char} (ha : a ∈ as) :
    own.get? (String.ofList a.1) = some (String.ofList a.2) := by
  induction as generalizing attrs with
  | nil => cases ha
  | cons b as ih =>
    rw [readAttributes] at h
    split at h
    next => cases h
    next hnew =>
      rcases List.mem_cons.1 ha with rfl | ha
      · have hnone : attrs.get? (String.ofList a.1) = none := by simpa using hnew
        rw [eq_of_readAttributes h, get?_append, get?_append, hnone]
        simp [Attributes.get?]
      · exact ih h ha

/-- A value that is found is the value of one of the attributes. -/
theorem mem_of_get? {value : String} (h : Attributes.get? (attributeStrings as) name = some value) :
    ∃ a ∈ as, String.ofList a.2 = value := by
  rw [Attributes.get?, Option.map_eq_some_iff] at h
  obtain ⟨b, hb, rfl⟩ := h
  obtain ⟨a, ha, rfl⟩ := List.mem_map.1 (List.mem_of_find?_eq_some hb)
  exact ⟨a, ha, rfl⟩

/-! ## Numbers -/

/-- A phase number is a number in decimal digits that is not too large. -/
theorem phaseNumber?_eq (text : String) : phaseNumber? text =
    if text.toList.isEmpty || !text.toList.all Text.isAsciiDigit then none
    else if Nat.ofDigitChars 10 text.toList 0 ≤ maxPhaseNumber then some (Nat.ofDigitChars 10 text.toList 0)
    else none := rfl

theorem le_ofDigitChars (cs : List Char) (n : Nat) : n ≤ Nat.ofDigitChars 10 cs n := by
  induction cs generalizing n with
  | nil => exact le_rfl
  | cons c cs ih =>
    rw [Nat.ofDigitChars, List.foldl_cons]
    exact le_trans (by omega) (ih _)

/-- A phase number has no zero in front. -/
theorem phaseNumber?_pos {text : List Char} (h : IsName text ∨ IsNumber text) {n : Nat}
    (hn : phaseNumber? (String.ofList text) = some n) : 0 < n ∧ n ≤ maxPhaseNumber := by
  rw [phaseNumber?_eq, String.toList_ofList] at hn
  split at hn
  next => cases hn
  next hdigits =>
    split at hn
    next hle =>
      cases hn
      refine ⟨?_, hle⟩
      rcases h with ⟨c, cs, rfl, hc, -⟩ | ⟨c, cs, rfl, ⟨hone, -⟩, -⟩
      · have hdigit : Text.isAsciiDigit c = true := by simp_all
        simp only [Text.isAsciiLetter, Text.isAsciiUpper, Text.isAsciiLower, Text.isAsciiDigit, Bool.or_eq_true,
          Bool.and_eq_true, decide_eq_true_eq, Char.le_def] at hc hdigit
        grind
      · have hpos : 1 ≤ c.toNat - '0'.toNat := by
          have h49 : '1'.toNat ≤ c.toNat := hone
          exact Nat.le_sub_of_add_le h49
        rw [Nat.ofDigitChars, List.foldl_cons]
        exact hpos.trans ((Nat.le_add_left _ _).trans (le_ofDigitChars cs _))
    next => cases hn

/-- The digits of a positive number are a number. -/
theorem isNumber_toDigits {n : Nat} (hn : 0 < n) : IsNumber (Nat.toDigits 10 n) := by
  have hone : ∀ k < 10, 0 < k → '1' ≤ k.digitChar ∧ k.digitChar ≤ '9' := by decide
  have hall : ∀ k < 10, Text.isAsciiDigit k.digitChar = true := by decide
  induction n using Nat.strongRecOn with
  | ind n ih =>
    rw [Nat.toDigits_eq_if (by decide)]
    split
    next hlt => exact ⟨_, [], rfl, hone n hlt hn, nofun⟩
    next hge =>
      obtain ⟨c, cs, hfront, hc, hcs⟩ := ih (n / 10) (Nat.div_lt_self hn (by decide)) (by omega)
      refine ⟨c, cs ++ [(n % 10).digitChar], by rw [hfront]; rfl, hc, fun d hd => ?_⟩
      rcases List.mem_append.1 hd with hd | hd
      · exact hcs d hd
      · rw [List.mem_singleton] at hd
        rw [hd]
        exact hall _ (Nat.mod_lt n (by decide))

/-- A phase number is read back from its digits. -/
theorem phaseNumber?_toString {n : Nat} (hpos : 0 < n) (hle : n ≤ maxPhaseNumber) :
    phaseNumber? (toString n) = some n := by
  have hdigits : (Nat.toDigits 10 n).all Text.isAsciiDigit = true := by
    obtain ⟨c, cs, htext, hc, hcs⟩ := isNumber_toDigits hpos
    have hdigit : Text.isAsciiDigit c = true := by
      simp only [Text.isAsciiDigit, Bool.and_eq_true, decide_eq_true_eq]
      exact ⟨le_trans (by decide) hc.1, hc.2⟩
    rw [htext, List.all_eq_true]
    exact List.forall_mem_cons.2 ⟨hdigit, hcs⟩
  have hne : Nat.toDigits 10 n ≠ [] := Nat.toDigits_ne_nil
  rw [phaseNumber?_eq, Nat.toString_eq_ofList_toDigits, String.toList_ofList, hdigits, Nat.ofDigitChars_ten_toDigits,
    if_pos hle]
  simp [hne]

/-! ## Rules -/

/-- The rule of a production with attributes. -/
def ownRule (own scope : Attributes) (name : String) (alternatives : List (List Symbol)) : Rule where
  name := name
  alternatives := alternatives
  recoverTo := own.get? "recoverUntil"
  fragment := isHelperName name || own.flag "fragment"
  pinAt := (own.get? "pin").bind phaseNumber?
  implicitWhitespace := scope.whitespace?
  collapseSingleChild := own.flag "simplifyWhenOneChildren"

/-- The phase of a rule is the one its attribute names, and only a rule with one alternative counts phases. -/
structure Counted (own : Attributes) (r : Rule) : Prop where
  pin : (own.get? "pin").isSome = r.pinAt.isSome
  single : r.recoverTo.isSome = true ∨ r.pinAt.isSome = true → r.alternatives.length ≤ 1

theorem needOneAlternative_ok {r : Rule} {attr : String} {u : Unit} :
    needOneAlternative r attr = .ok u ↔ r.alternatives.length ≤ 1 := by
  rw [needOneAlternative]
  split
  next hlt => simp [hlt]
  next hle => simp [Nat.not_lt.1 hle]

/-- A pin is accepted if it is a phase number. -/
theorem pinPhase_ok {r : Rule} {value : String} {n : Nat} :
    pinPhase r value = .ok n ↔ phaseNumber? value = some n := by
  rw [pinPhase]
  cases phaseNumber? value with
  | none => simp
  | some m => simp

/-- A rule is made of its attributes, where those that count phases fit its alternatives. -/
theorem ruleWith_ok {alternatives : List (List Symbol)} {r : Rule} :
    ruleWith own scope name alternatives = .ok r ↔
      r = ownRule own scope name alternatives ∧ Counted own (ownRule own scope name alternatives) := by
  have hcounted : ∀ {own : Attributes} {r : Rule}, Counted own r ↔ (own.get? "pin").isSome = r.pinAt.isSome ∧
      (r.recoverTo.isSome = true ∨ r.pinAt.isSome = true → r.alternatives.length ≤ 1) :=
    fun {_ _} => ⟨fun h => ⟨h.pin, h.single⟩, fun h => ⟨h.1, h.2⟩⟩
  rw [hcounted, ruleWith]
  simp only [ownRule]
  cases hrecover : own.get? "recoverUntil" with
  | none =>
    cases hvalue : own.get? "pin" with
    | none =>
      simp only [bind_eq_ok, pure, Except.pure]
      simp [eq_comm]
    | some value =>
      simp only [bind_eq_ok, needOneAlternative_ok, pinPhase_ok, pure, Except.pure]
      cases hn : phaseNumber? value with
      | none => simp [hn]
      | some n => simp [hn, eq_comm, and_comm]
  | some target =>
    cases hvalue : own.get? "pin" with
    | none =>
      simp only [bind_eq_ok, needOneAlternative_ok, pure, Except.pure]
      simp [eq_comm, and_comm]
    | some value =>
      simp only [bind_eq_ok, needOneAlternative_ok, pinPhase_ok, pure, Except.pure]
      cases hn : phaseNumber? value with
      | none => simp [hn]
      | some n => simp [hn, eq_comm, and_comm]

/-! ## Writing -/

/-- What a production can say about its rule: a phase counted from one, a target that can be written. -/
structure Sayable (r : Rule) : Prop where
  pin : ∀ n, r.pinAt = some n → 0 < n ∧ n ≤ maxPhaseNumber
  target : ∀ t, r.recoverTo = some t → IsName t.toList ∨ IsNumber t.toList
  single : r.recoverTo.isSome = true ∨ r.pinAt.isSome = true → r.alternatives.length ≤ 1

variable {r : Rule} {skips : Bool}

@[simp] theorem withDefault_name (skips : Bool) (r : Rule) : (withDefault skips r).name = r.name := by
  rw [withDefault]
  split <;> rfl

@[simp] theorem withDefault_alternatives (skips : Bool) (r : Rule) :
    (withDefault skips r).alternatives = r.alternatives := by
  rw [withDefault]
  split <;> rfl

@[simp] theorem withDefault_pinAt (skips : Bool) (r : Rule) : (withDefault skips r).pinAt = r.pinAt := by
  rw [withDefault]
  split <;> rfl

/-- A rule that can be said can be said with the default. -/
theorem Sayable.withDefault (h : Sayable r) : Sayable (withDefault skips r) := by
  rw [Notation.withDefault]
  split
  next => exact ⟨h.pin, h.target, h.single⟩
  next => exact h

/-- A production that can be read says what can be said. -/
theorem sayable_ownRule {alternatives : List (List Symbol)} (has : ∀ a ∈ as, LegibleAttribute a)
    (hcounted : Counted (attributeStrings as) (ownRule (attributeStrings as) scope name alternatives)) :
    Sayable (ownRule (attributeStrings as) scope name alternatives) where
  pin := by
    intro n hn
    obtain ⟨value, hvalue, hphase⟩ := Option.bind_eq_some_iff.1 hn
    obtain ⟨a, ha, rfl⟩ := mem_of_get? hvalue
    exact phaseNumber?_pos (has a ha).2 hphase
  target := by
    intro t ht
    obtain ⟨a, ha, rfl⟩ := mem_of_get? ht
    rw [String.toList_ofList]
    exact (has a ha).2
  single := hcounted.single

/-- The attributes of a rule that can be said are legible. -/
theorem Sayable.legible (h : Sayable r) : ∀ a ∈ ruleAttributes r, LegibleAttribute a := by
  intro a ha
  simp only [ruleAttributes, List.mem_append, Option.mem_toList, Option.map_eq_some_iff] at ha
  rcases ha with (((⟨n, hn, rfl⟩ | ⟨t, ht, rfl⟩) | ⟨b, -, rfl⟩) | ha) | ha
  · have hdigits : (toString n).toList = Nat.toDigits 10 n := by
      rw [Nat.toString_eq_ofList_toDigits, String.toList_ofList]
    exact ⟨show IsName "pin".toList by decide, .inr (hdigits ▸ isNumber_toDigits (h.pin n hn).1)⟩
  · exact ⟨show IsName "recoverUntil".toList by decide, h.target t ht⟩
  · cases b
    · exact ⟨by decide, .inl (by decide)⟩
    · exact ⟨by decide, .inl (by decide)⟩
  · split at ha
    · rw [List.mem_singleton] at ha
      rw [ha]
      exact ⟨by decide, .inl (by decide)⟩
    · cases ha
  · split at ha
    · rw [List.mem_singleton] at ha
      rw [ha]
      exact ⟨by decide, .inl (by decide)⟩
    · cases ha

/-- The attributes of a rule have different names, so they can be read. -/
theorem readAttributes_ruleAttributes (r : Rule) :
    readAttributes [] (ruleAttributes r) = .ok (attributeStrings (ruleAttributes r)) := by
  have hoptional : ∀ {α : Type} (o : Option α) (key : List Char) (value : α → List Char),
      List.Sublist ((o.map fun a => (key, value a)).toList.map (·.1)) [key] := by
    intro α o key value
    cases o with
    | none => exact List.nil_sublist _
    | some a => exact List.Sublist.refl _
  have hflag : ∀ (b : Bool) (key : List Char),
      List.Sublist ((if b then [(key, "true".toList)] else []).map (·.1)) [key] := by
    intro b key
    cases b with
    | false => exact List.nil_sublist _
    | true => exact List.Sublist.refl _
  have hsub : List.Sublist ((ruleAttributes r).map (·.1))
      ["pin".toList, "recoverUntil".toList, "ws".toList, "fragment".toList, "simplifyWhenOneChildren".toList] := by
    simp only [ruleAttributes, List.map_append]
    exact ((((hoptional _ _ _).append (hoptional _ _ _)).append (hoptional _ _ _)).append (hflag _ _)).append
      (hflag _ _)
  exact readAttributes_of_nodup (hsub.nodup (by decide)) fun a _ => rfl

theorem attributeStrings_append (as bs : List (List Char × List Char)) :
    attributeStrings (as ++ bs) = attributeStrings as ++ attributeStrings bs := List.map_append

/-- Looking up an attribute that may be missing. -/
theorem get?_optional {α : Type} (o : Option α) (key : String) (value : α → List Char) (name : String) :
    Attributes.get? (attributeStrings (o.map fun a => (key.toList, value a)).toList) name =
      if key = name then o.map fun a => String.ofList (value a) else none := by
  cases o with
  | none => simp [attributeStrings, Attributes.get?]
  | some a =>
    by_cases hkey : key = name
    · simp [attributeStrings, Attributes.get?, hkey]
    · simp [attributeStrings, Attributes.get?, hkey]

/-- Looking up a flag. -/
theorem get?_flag (b : Bool) (key name : String) :
    Attributes.get? (attributeStrings (if b then [(key.toList, "true".toList)] else [])) name =
      if key = name ∧ b = true then some "true" else none := by
  cases b with
  | false => simp [attributeStrings, Attributes.get?]
  | true =>
    by_cases hkey : key = name
    · simp [attributeStrings, Attributes.get?, hkey]
    · simp [attributeStrings, Attributes.get?, hkey]

/-- Each attribute of a rule is found by its key. -/
theorem get?_ruleAttributes (r : Rule) (name : String) :
    Attributes.get? (attributeStrings (ruleAttributes r)) name =
      if "pin" = name then r.pinAt.map toString
      else if "recoverUntil" = name then r.recoverTo
      else if "ws" = name then r.implicitWhitespace.map fun b => if b then "implicit" else "explicit"
      else if "fragment" = name ∧ r.fragment = true ∨ "simplifyWhenOneChildren" = name ∧ r.collapseSingleChild = true
      then some "true" else none := by
  simp only [ruleAttributes, attributeStrings_append, get?_append, get?_optional, get?_flag, String.ofList_toList]
  split
  next hname =>
    subst hname
    simp
    rfl
  next =>
    split
    next hname =>
      subst hname
      simp
    next =>
      split
      next hname =>
        subst hname
        simp
      next => 
        by_cases hfragment : "fragment" = name ∧ r.fragment = true
        · simp [hfragment]
        · simp [hfragment]

theorem whitespace?_ruleAttributes (r : Rule) :
    Attributes.whitespace? (attributeStrings (ruleAttributes r)) = r.implicitWhitespace := by
  rw [Attributes.whitespace?, get?_ruleAttributes]
  rcases r.implicitWhitespace with - | (- | -)
  · rfl
  · rfl
  · rfl

theorem ignoreCase_ruleAttributes (r : Rule) :
    Attributes.flag (attributeStrings (ruleAttributes r)) "ignoreCase" = false := by
  rw [Attributes.flag, get?_ruleAttributes]
  simp

/-- A production with the attributes that a rule is written with is the rule. -/
theorem ruleWith_ruleAttributes (h : Sayable r) (hname : isHelperName r.name = false) :
    ruleWith (attributeStrings (ruleAttributes r)) (attributeStrings (ruleAttributes r)) r.name r.alternatives =
      .ok r := by
  have hown : ownRule (attributeStrings (ruleAttributes r)) (attributeStrings (ruleAttributes r)) r.name
      r.alternatives = r := by
    have hpin : (r.pinAt.map toString).bind phaseNumber? = r.pinAt := by
      cases hn : r.pinAt with
      | none => rfl
      | some n => exact phaseNumber?_toString (h.pin n hn).1 (h.pin n hn).2
    simp only [ownRule, whitespace?_ruleAttributes, Attributes.flag, get?_ruleAttributes, hname]
    simp [hpin]
  refine ruleWith_ok.2 ⟨hown.symm, ?_⟩
  rw [hown]
  refine ⟨?_, h.single⟩
  rw [get?_ruleAttributes, if_pos rfl, Option.isSome_map]

end Grammarian.Notation
