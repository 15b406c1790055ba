import Mathlib.Data.Nat.Find
import Grammarian.Proofs.Parse.Phases

/-!
# Recovery

Where a rule with a recovery target cannot go on, input is skipped up to the first place further on at which
the target matches. `Scene.recover_meets` says so under every contract, in terms of what its answers tell
about matches, and `Scene.recover_eq_some_iff` for a run with given answers.
-/

namespace Grammarian

/-- `rest` is the first suffix of `input` with a match. What is known of suffixes with a match, and of those
without one, is given by `known`. -/
structure FirstMatch (known : List Char → Bool → Prop) (input rest : List Char) : Prop where
  suffix : rest <:+ input
  there : known rest true
  before : ∀ s, s <:+ input → rest.length < s.length → known s false

theorem forall_suffix_cons {c : Char} {cs : List Char} {P : List Char → Prop} :
    (∀ s, s <:+ c :: cs → P s) ↔ P (c :: cs) ∧ ∀ s, s <:+ cs → P s := by
  simp only [List.suffix_cons_iff, or_imp, forall_and, forall_eq]

theorem FirstMatch.cons {known : List Char → Bool → Prop} {c : Char} {cs rest : List Char}
    (h : FirstMatch known cs rest) (hc : known (c :: cs) false) : FirstMatch known (c :: cs) rest where
  suffix := h.suffix.trans (List.suffix_cons c cs)
  there := h.there
  before := forall_suffix_cons.2 ⟨fun _ => hc, h.before⟩

/-- The match that takes up skipped input. -/
def Match.ofSkipped (rule : String) (input rest : List Char) : Match :=
  ⟨.ofFault (.skipped rule) input rest, false, rest⟩

namespace Scene

section Contracts

variable {k : Contract} {input : List Char}

/-- The search for a resumption finds the first suffix with a match, or there is none. -/
theorem resumption_meets {known : List Char → Bool → Prop} {target : String}
    (hasks : ∀ s, s <:+ input → k.asks target s)
    (hknown : ∀ s answer, s <:+ input → k.answers target s answer → known s answer.isSome) :
    (resumption target input).Meets k fun found =>
      match found with
      | some rest => FirstMatch known input rest
      | none => ∀ s, s <:+ input → known s false := by
  induction input with
  | nil =>
    refine ⟨hasks [] List.suffix_rfl, fun answer hanswer => ?_⟩
    have hat := hknown [] answer List.suffix_rfl hanswer
    cases answer with
    | some m =>
      refine ⟨List.suffix_rfl, hat, fun s hs hlt => ?_⟩
      rw [List.suffix_nil.1 hs] at hlt
      exact absurd hlt (Nat.lt_irrefl _)
    | none =>
      intro s hs
      rwa [List.suffix_nil.1 hs]
  | cons c cs ih =>
    refine ⟨hasks (c :: cs) List.suffix_rfl, fun answer hanswer => ?_⟩
    have hat := hknown (c :: cs) answer List.suffix_rfl hanswer
    have hcs : cs <:+ c :: cs := List.suffix_cons c cs
    cases answer with
    | some m =>
      refine ⟨List.suffix_rfl, hat, fun s hs hlt => ?_⟩
      exact absurd hlt (Nat.not_lt_of_le hs.length_le)
    | none =>
      refine (ih (fun s hs => hasks s (hs.trans hcs))
        fun s answer hs => hknown s answer (hs.trans hcs)).mono fun found hfound => ?_
      cases found with
      | some rest => exact hfound.cons hat
      | none => exact forall_suffix_cons.2 ⟨hat, hfound⟩

/-- Recovery skips to the first match of the target. There is nothing to recover from where no input is
left or the target matches already, and no way to recover where it does not match at all. -/
theorem recover_meets (s : Scene) (known : String → List Char → Bool → Prop)
    (hasks : ∀ target s, s <:+ input → k.asks target s)
    (hknown : ∀ target s answer, s <:+ input → k.answers target s answer →
      known target s answer.isSome) :
    (s.recover input).Meets k fun found =>
      match found with
      | some m => ∃ target rest, s.rule.recoverTo = some target ∧ rest.length < input.length ∧
          FirstMatch (known target) input rest ∧ m = .ofSkipped s.rule.name input rest
      | none => ∀ target, s.rule.recoverTo = some target →
          input = [] ∨ known target input true ∨ ∀ s, s <:+ input → known target s false := by
  unfold recover
  cases hto : s.rule.recoverTo with
  | none => rintro _ ⟨⟩
  | some target =>
    cases input with
    | nil => exact fun _ _ => .inl rfl
    | cons c cs =>
      have hcs : cs <:+ c :: cs := List.suffix_cons c cs
      refine ⟨hasks target (c :: cs) List.suffix_rfl, fun answer hanswer => ?_⟩
      have hat := hknown target (c :: cs) answer List.suffix_rfl hanswer
      cases answer with
      | some m =>
        rintro _ ⟨⟩
        exact .inr (.inl hat)
      | none =>
        refine (resumption_meets (fun s hs => hasks target s (hs.trans hcs))
          fun s answer hs => hknown target s answer (hs.trans hcs)).bind fun found hfound => ?_
        cases found with
        | some rest =>
          exact ⟨target, rest, rfl, Nat.lt_succ_of_le hfound.suffix.length_le, hfound.cons hat, rfl⟩
        | none =>
          rintro _ ⟨⟩
          exact .inr (.inr (forall_suffix_cons.2 ⟨hat, hfound⟩))

end Contracts

section Run

variable {answers : Answers} {target : String} {input : List Char}

/-- The target matches after `offset` characters. -/
def MatchesAfter (answers : Answers) (target : String) (input : List Char) (offset : Nat) : Prop :=
  offset ≤ input.length ∧ (answers target (input.drop offset)).value.isSome = true

/-- A run of recovery comes to the match up to the first place further on where the target matches, unless
it matches already. -/
theorem recover_eq_some_iff (s : Scene) {m : Match} :
    ((s.recover input).run answers).value = some m ↔
      ∃ target offset, s.rule.recoverTo = some target ∧ 0 < offset ∧
        MatchesAfter answers target input offset ∧
        (∀ earlier < offset, ¬ MatchesAfter answers target input earlier) ∧
        m = .ofSkipped s.rule.name input (input.drop offset) := by
  -- The contract that the answers are the given ones.
  let k : Contract := ⟨fun _ _ => True, fun rule s answer => answer = (answers rule s).value⟩
  have hmeets : (s.recover input).Meets k _ :=
    s.recover_meets (fun target s found => (answers target s).value.isSome = found)
      (fun _ _ _ => trivial) fun _ _ _ _ hanswer => congrArg Option.isSome (Eq.symm hanswer)
  replace hmeets := hmeets.of_run fun _ _ _ => rfl
  generalize ((s.recover input).run answers).value = found at hmeets ⊢
  constructor
  · rintro rfl
    obtain ⟨target, rest, hto, hlt, hfirst, rfl⟩ := hmeets
    have hle := hfirst.suffix.length_le
    have hdrop : input.drop (input.length - rest.length) = rest :=
      (List.suffix_iff_eq_drop.1 hfirst.suffix).symm
    refine ⟨target, input.length - rest.length, hto, by omega, ⟨by omega, ?_⟩, ?_, by rw [hdrop]⟩
    · rw [hdrop]
      exact hfirst.there
    · rintro earlier hearlier ⟨hle, hsome⟩
      rw [hfirst.before _ (List.drop_suffix earlier input) (by rw [List.length_drop]; omega)] at hsome
      cases hsome
  · rintro ⟨target, offset, hto, hpos, ⟨hle, hsome⟩, hearlier, rfl⟩
    cases found with
    | some m =>
      obtain ⟨target', rest, hto', hlt, hfirst, rfl⟩ := hmeets
      rw [hto] at hto'
      cases hto'
      have hdrop : input.drop (input.length - rest.length) = rest :=
        (List.suffix_iff_eq_drop.1 hfirst.suffix).symm
      rcases Nat.lt_trichotomy (input.length - rest.length) offset with hlt | heq | hlt
      · refine absurd ⟨by omega, ?_⟩ (hearlier _ hlt)
        rw [hdrop]
        exact hfirst.there
      · rw [← heq, hdrop]
      · rw [hfirst.before _ (List.drop_suffix offset input) (by rw [List.length_drop]; omega)] at hsome
        cases hsome
    | none =>
      rcases hmeets target hto with rfl | hat | hnone
      · exact absurd hle (Nat.not_le_of_lt hpos)
      · exact absurd ⟨Nat.zero_le _, hat⟩ (hearlier 0 hpos)
      · rw [hnone _ (List.drop_suffix offset input)] at hsome
        cases hsome

/-- There is a match just when the target does not match at once but further on. -/
theorem recover_isSome_iff (s : Scene) :
    ((s.recover input).run answers).value.isSome = true ↔
      ∃ target, s.rule.recoverTo = some target ∧ input ≠ [] ∧ ¬ MatchesAfter answers target input 0 ∧
        ∃ offset, 0 < offset ∧ MatchesAfter answers target input offset := by
  rw [Option.isSome_iff_exists]
  constructor
  · rintro ⟨m, hm⟩
    obtain ⟨target, offset, hto, hpos, hoffset, hearlier, -⟩ := s.recover_eq_some_iff.1 hm
    refine ⟨target, hto, ?_, hearlier 0 hpos, offset, hpos, hoffset⟩
    exact List.length_pos_iff.1 (Nat.lt_of_lt_of_le hpos hoffset.1)
  · rintro ⟨target, hto, -, hzero, hfurther⟩
    classical
    obtain ⟨hpos, hoffset⟩ := Nat.find_spec hfurther
    refine ⟨_, s.recover_eq_some_iff.2 ⟨target, Nat.find hfurther, hto, hpos, hoffset, ?_, rfl⟩⟩
    intro earlier hearlier hmatches
    rcases Nat.eq_zero_or_pos earlier with rfl | hpos
    · exact hzero hmatches
    · exact Nat.find_min hfurther hearlier ⟨hpos, hmatches⟩

end Run

end Scene

end Grammarian
