import Grammarian.Proofs.Pattern.Classes
import Grammarian.Proofs.Pattern.Tokens

/-!
# Bracketed classes end themselves

A bracketed class ends with its closing bracket, and so it does not matter what comes behind it. The items of a class
are local as long as the closing bracket is still to be read.
-/

namespace Grammarian.Pattern

open Text

variable {fl : Flags} {cs x z z' u r : List Char}

/-! ## Named classes -/

/-- No named class has a closing parenthesis in its name. -/
theorem NamedClass.ofName?_eq_none {name : List Char} (h : ')' ∈ name) :
    NamedClass.ofName? (String.ofList name) = none := by
  have hne : ∀ text : String, ')' ∉ text.toList → String.ofList name ≠ text := by
    rintro text htext rfl
    rw [String.toList_ofList] at htext
    exact htext h
  unfold NamedClass.ofName?
  split
  all_goals first
    | rfl
    | exact absurd ‹_› (hne _ (by decide))

/-- The name of a class, up to the closing bracket. -/
def readClassName? (fl : Flags) (negated : Bool) (cs : List Char) : Option (CharSet × List Char) :=
  match cs.dropWhile (· ≠ ':') with
  | ':' :: ']' :: rest =>
    (NamedClass.ofName? (String.ofList (cs.takeWhile (· ≠ ':')))).map fun n =>
      (if negated then .compl (fl.fold (.named n)) else .named n, rest)
  | _ => none

theorem readNamedClass?_negated (fl : Flags) (r : List Char) :
    readNamedClass? fl (':' :: '^' :: r) = readClassName? fl true r := rfl

theorem readNamedClass?_name (fl : Flags) (h : r.head? ≠ some '^') :
    readNamedClass? fl (':' :: r) = readClassName? fl false r := by
  rw [readNamedClass?]
  · rfl
  · rintro s rfl
    exact h rfl

theorem readNamedClass?_eq_none (fl : Flags) (h : cs.head? ≠ some ':') : readNamedClass? fl cs = none := by
  unfold readNamedClass?
  split
  · exact absurd rfl h
  · rfl

/-- A stop is no part of the name of a class. -/
theorem readClassName?_append (fl : Flags) (negated : Bool) (x : List Char) (hz : IsStop z) :
    readClassName? fl negated (x ++ z) = (readClassName? fl negated x).map fun r => (r.1, r.2 ++ z) := by
  cases hdrop : x.dropWhile (· ≠ ':') with
  | nil =>
    have hall : x.takeWhile (· ≠ ':') = x := by
      have hsplit := List.takeWhile_append_dropWhile (p := fun c => decide (c ≠ ':')) (l := x)
      rwa [hdrop, List.append_nil] at hsplit
    have hnone : readClassName? fl negated x = none := by rw [readClassName?, hdrop]
    rw [hnone, Option.map_none]
    rcases hz.cases with rfl | ⟨r, rfl⟩
    · rw [List.append_nil, hnone]
    · have hname : ')' ∈ (x ++ ')' :: r).takeWhile (· ≠ ':') := by
        rw [List.takeWhile_append, hall, if_pos rfl, List.takeWhile_cons_of_pos (by decide)]
        exact List.mem_append_right x List.mem_cons_self
      unfold readClassName?
      split
      · rw [NamedClass.ofName?_eq_none hname, Option.map_none]
      · rfl
  | cons d ds =>
    have hne : x.dropWhile (· ≠ ':') ≠ [] := by
      rw [hdrop]
      exact List.cons_ne_nil d ds
    unfold readClassName?
    rw [(front_append hne z).1, (front_append hne z).2, hdrop, List.cons_append]
    cases ds with
    | nil =>
      rw [List.nil_append]
      split
      next heq =>
        obtain ⟨-, heq⟩ := List.cons.inj heq
        exact absurd (hz ']' (by rw [heq]; rfl)) (by decide)
      next =>
        split
        next heq => cases heq
        next => rfl
    | cons e ds =>
      rw [List.cons_append]
      split
      next heq =>
        obtain ⟨rfl, hds⟩ := List.cons.inj heq
        obtain ⟨rfl, rfl⟩ := List.cons.inj hds
        cases NamedClass.ofName? (String.ofList (x.takeWhile (· ≠ ':'))) with
        | none => rfl
        | some n => rfl
      next hne =>
        split
        next heq =>
          obtain ⟨rfl, hds⟩ := List.cons.inj heq
          obtain ⟨rfl, rfl⟩ := List.cons.inj hds
          exact (hne _ rfl).elim
        next => rfl

/-- A named class is read alike in front of a stop. -/
theorem readNamedClass?_append (fl : Flags) (x : List Char) (hz : IsStop z) :
    readNamedClass? fl (x ++ z) = (readNamedClass? fl x).map fun r => (r.1, r.2 ++ z) := by
  have hhead : ∀ (v : List Char) {c : Char}, c ≠ ')' → v.head? ≠ some c → (v ++ z).head? ≠ some c := by
    intro v c hc hv
    cases v with
    | nil => exact hz.head?_ne hc
    | cons d v => exact hv
  by_cases hx : x.head? = some ':'
  · obtain ⟨v, rfl⟩ := List.head?_eq_some_iff.1 hx
    by_cases hv : v.head? = some '^'
    · obtain ⟨v, rfl⟩ := List.head?_eq_some_iff.1 hv
      rw [List.cons_append, List.cons_append, readNamedClass?_negated, readNamedClass?_negated,
        readClassName?_append fl true v hz]
    · rw [List.cons_append, readNamedClass?_name fl (hhead v (by decide) hv), readNamedClass?_name fl hv,
        readClassName?_append fl false v hz]
  · rw [readNamedClass?_eq_none fl (hhead x (by decide) hx), readNamedClass?_eq_none fl hx, Option.map_none]

theorem readNamedClass?_suffix {s : CharSet} (h : readNamedClass? fl cs = some (s, r)) : r <:+ cs := by
  have hname : ∀ {negated cs}, readClassName? fl negated cs = some (s, r) → r <:+ cs := by
    intro negated cs h
    unfold readClassName? at h
    split at h
    next rest hrest =>
      obtain ⟨n, -, heq⟩ := Option.map_eq_some_iff.1 h
      obtain ⟨-, rfl⟩ := Prod.mk.inj heq
      have hsuffix := List.dropWhile_suffix (l := cs) fun c => decide (c ≠ ':')
      rw [hrest] at hsuffix
      exact (List.suffix_append [':', ']'] rest).trans hsuffix
    next => cases h
  by_cases hcs : cs.head? = some ':'
  · obtain ⟨cs, rfl⟩ := List.head?_eq_some_iff.1 hcs
    refine List.IsSuffix.trans ?_ (List.suffix_cons ':' cs)
    by_cases hv : cs.head? = some '^'
    · obtain ⟨cs, rfl⟩ := List.head?_eq_some_iff.1 hv
      exact (hname h).trans (List.suffix_cons '^' cs)
    · rw [readNamedClass?_name fl hv] at h
      exact hname h
  · rw [readNamedClass?_eq_none fl hcs] at h
    cases h

/-! ## Items and ranges -/

theorem local_readClassItem?_cons (fl : Flags) (c : Char) (mark : Option Char) :
    Local fl.verbose mark fun r => readClassItem? fl (c :: r) := by
  by_cases hc : c = '\\'
  · subst hc
    have hsome : ∀ {r e s}, readClassItem? fl ('\\' :: r) = some (e, s) ↔
        readEscape? fl r = some (e, s) ∧ ∀ l, e ≠ .look l := by
      intro r e s
      rw [readClassItem?]
      cases readEscape? fl r with
      | none => simp
      | some d =>
        obtain ⟨d, r'⟩ := d
        cases d with
        | char _ | set _ | look _ => grind
    refine ⟨fun h => readEscape?_suffix (hsome.1 h).1, fun hswap _ h => ?_⟩
    obtain ⟨he, hlook⟩ := hsome.1 h
    refine hsome.2 ⟨(readEscape?_carry hswap he).resolve_right ?_, hlook⟩
    rintro ⟨rfl, -⟩
    exact hlook _ rfl
  · have hread : (fun r => readClassItem? fl (c :: r)) = fun r => some (.char c, r) := by
      funext r
      unfold readClassItem?
      split
      next heq => exact absurd (List.cons.inj heq).1 hc
      next heq =>
        obtain ⟨rfl, rfl⟩ := List.cons.inj heq
        rfl
      next heq => cases heq
    rw [hread]
    exact .value _

/-- An item of a class is read from a bounded stretch of the text. -/
theorem local_readClassItem? (fl : Flags) (mark : Option Char) : Local fl.verbose mark (readClassItem? fl) :=
  .of_cons rfl fun c => local_readClassItem?_cons fl c mark

/-- What a dash looks at lies in front of the closing bracket or is the bracket. -/
theorem peekBlanks_append (fl : Flags) (h : ']' ∈ x) (z z' : List Char) :
    peekBlanks fl (x ++ z) = peekBlanks fl (x ++ z') := by
  have hdrop : ∀ {v : List Char}, ']' ∈ v → ∃ c w, v.dropWhile isSpace = c :: w ∧ (c = ']' ∨ ']' ∈ w) ∧
      ∀ z, (v ++ z).dropWhile isSpace = c :: (w ++ z) := by
    intro v hv
    induction v with
    | nil => cases hv
    | cons d v ih =>
      cases hd : isSpace d with
      | true =>
        have hne : d ≠ ']' := by
          rintro rfl
          revert hd
          decide
        obtain ⟨c, w, hv, hmem, happ⟩ := ih ((List.mem_cons.1 hv).resolve_left fun heq => hne heq.symm)
        refine ⟨c, w, ?_, hmem, fun z => ?_⟩
        · rw [List.dropWhile_cons_of_pos hd, hv]
        · rw [List.cons_append, List.dropWhile_cons_of_pos hd, happ]
      | false =>
        have hd : ¬ isSpace d = true := by simp [hd]
        refine ⟨d, v, List.dropWhile_cons_of_neg hd, (List.mem_cons.1 hv).imp_left Eq.symm, fun z => ?_⟩
        rw [List.cons_append, List.dropWhile_cons_of_neg hd]
  unfold peekBlanks
  split
  · obtain ⟨c, w, -, hmem, happ⟩ := hdrop h
    rw [happ, happ]
    by_cases hc : c = '#'
    · subst hc
      obtain ⟨d, v, -, -, happ'⟩ := hdrop (hmem.resolve_left (by decide))
      show ((w ++ z).dropWhile isSpace).head? = ((w ++ z').dropWhile isSpace).head?
      rw [happ', happ']
      rfl
    · split
      next heq => exact absurd (List.cons.inj heq).1 hc
      next heq => cases heq
      next heq =>
        obtain ⟨rfl, -⟩ := List.cons.inj heq
        rfl
  · obtain ⟨d, v, rfl⟩ := List.exists_cons_of_ne_nil (List.ne_nil_of_mem h)
    rfl

/-- An item that is no end of a range. -/
def aloneSet? (fl : Flags) : Escape → Option CharSet
  | .char c => if fl.admits c then some (.single c) else none
  | .set s => some s
  | .look _ => none

/-- The range between two items. -/
def rangeSet? (fl : Flags) : (item last : Escape) → Option CharSet
  | .char low, .char high => if low ≤ high ∧ fl.admits low ∧ fl.admits high then some (.range low high) else none
  | _, _ => none

/-- What comes behind an item of a class. -/
def readRangeEnd? (fl : Flags) (item : Escape) (cs : List Char) : Option (CharSet × List Char) :=
  match cs with
  | [] => none
  | '-' :: r =>
    if peekBlanks fl r = some ']' ∨ peekBlanks fl r = some '-' then (aloneSet? fl item).map (·, cs)
    else (readClassItem? fl (fl.skip r)).bind fun last => (rangeSet? fl item last.1).map (·, last.2)
  | _ => (aloneSet? fl item).map (·, cs)

/-- A range is an item and what its reader makes of the text behind it. -/
theorem readClassRange?_eq (fl : Flags) (cs : List Char) :
    readClassRange? fl cs = (readClassItem? fl cs).bind fun r => readRangeEnd? fl r.1 (fl.skip r.2) := by
  unfold readClassRange?
  cases readClassItem? fl cs with
  | none => rfl
  | some r =>
    obtain ⟨item, r⟩ := r
    rw [Option.bind_eq_bind, Option.bind_some, Option.bind_some]
    dsimp only
    generalize fl.skip r = text
    have halone : (match item with
        | .char c => if fl.admits c then some (.single c, text) else none
        | .set s => some (s, text)
        | .look _ => none) = (aloneSet? fl item).map (·, text) := by
      cases item with
      | char c =>
        dsimp only [aloneSet?]
        split
        · rfl
        · rfl
      | set s => rfl
      | look l => rfl
    split
    next => rfl
    next s =>
      rw [readRangeEnd?]
      split
      · exact halone
      · cases fl.skip s with
        | nil => rfl
        | cons c t =>
          cases readClassItem? fl (c :: t) with
          | none => rfl
          | some last =>
            obtain ⟨last, r⟩ := last
            cases item with
            | char low =>
              cases last with
              | char high =>
                have hlast : ¬ (c :: t).isEmpty = true := Bool.false_ne_true
                dsimp only [Option.bind_some, rangeSet?]
                rw [if_neg hlast]
                split
                · rfl
                · rfl
              | set _ | look _ => rfl
            | set _ | look _ => rfl
    next hnil hdash =>
      rw [readRangeEnd?]
      · exact halone
      · exact hnil
      · exact hdash

/-- The end of a range is read from a bounded stretch of the text. -/
theorem local_readRangeEnd? (fl : Flags) (item : Escape) : Local fl.verbose (some ']') (readRangeEnd? fl item) := by
  have halone : Local fl.verbose (some ']') fun cs => (aloneSet? fl item).map (·, cs) := .ofOption _
  have hlast : Local fl.verbose (some ']') fun r => (readClassItem? fl (fl.skip r)).bind fun last =>
      (rangeSet? fl item last.1).map (·, last.2) :=
    ((local_readClassItem? fl _).filterMap (rangeSet? fl item)).skipping
  have hsuffix : ∀ {cs s r}, readRangeEnd? fl item cs = some (s, r) → r <:+ cs := by
    intro cs s r h
    unfold readRangeEnd? at h
    split at h
    next => cases h
    next cs =>
      split at h
      · exact halone.suffix h
      · exact (hlast.suffix h).trans (List.suffix_cons '-' cs)
    next => exact halone.suffix h
  refine ⟨hsuffix, fun {x z z' s u} hswap hmark h => ?_⟩
  -- the bracket is still to be read, and so `x` holds all that is looked at
  have hbracket : ']' ∈ x := (List.suffix_append_self_iff.1 (hsuffix h)).subset (hmark ']' rfl)
  obtain ⟨c, x, rfl⟩ := List.exists_cons_of_ne_nil (List.ne_nil_of_mem hbracket)
  by_cases hc : c = '-'
  · subst hc
    have hmem : ']' ∈ x := (List.mem_cons.1 hbracket).resolve_left (by decide)
    rw [List.cons_append, readRangeEnd?, peekBlanks_append fl hmem z z'] at h
    rw [List.cons_append, readRangeEnd?]
    split at h
    next hpeek =>
      rw [if_pos hpeek]
      exact halone.carry (x := '-' :: x) hswap hmark h
    next hpeek =>
      rw [if_neg hpeek]
      exact hlast.carry (hswap.of_suffix (List.suffix_cons '-' x)) hmark h
  · have hread : ∀ r, readRangeEnd? fl item (c :: r) = (aloneSet? fl item).map (·, c :: r) := by
      intro r
      unfold readRangeEnd?
      split
      next heq => cases heq
      next heq => exact absurd (List.cons.inj heq).1 hc
      next => rfl
    rw [List.cons_append, hread] at h ⊢
    exact halone.carry (x := c :: x) hswap hmark h

theorem local_readClassRange?_cons (fl : Flags) (c : Char) :
    Local fl.verbose (some ']') fun r => readClassRange? fl (c :: r) := by
  have hread := funext fun r => readClassRange?_eq fl (c :: r)
  rw [hread]
  exact (local_readClassItem?_cons fl c _).bind fun item => (local_readRangeEnd? fl item).skipping

/-! ## Classes -/

/-- Leading hyphens are taken off the front. -/
theorem leadingDashes_suffix {n : Nat} {s s' : CharSet} (h : leadingDashes fl n s cs = (s', r)) : r <:+ cs := by
  induction n generalizing s cs with
  | zero =>
    obtain ⟨-, rfl⟩ := Prod.mk.inj h
    exact List.suffix_rfl
  | succ n ih =>
    unfold leadingDashes at h
    split at h
    next cs => exact ((ih h).trans (fl.skip_suffix cs)).trans (List.suffix_cons '-' cs)
    next =>
      obtain ⟨-, rfl⟩ := Prod.mk.inj h
      exact List.suffix_rfl

/-- The induction is on the bound, which the text comes with. -/
theorem leadingDashes_carry {n m : Nat} {s s' : CharSet} (hswap : Swap fl.verbose z z' x) (hbracket : ']' ∈ u)
    (hn : (x ++ z).length ≤ n) (hm : (x ++ z').length ≤ m) (h : leadingDashes fl n s (x ++ z) = (s', u ++ z)) :
    leadingDashes fl m s (x ++ z') = (s', u ++ z') := by
  induction n generalizing x m s with
  | zero =>
    obtain rfl : x = [] := by
      rw [List.length_append] at hn
      exact List.length_eq_zero_iff.1 (by omega)
    have hu : u <:+ [] := List.suffix_append_self_iff.1 (leadingDashes_suffix h)
    exact absurd (hu.subset hbracket) List.not_mem_nil
  | succ n ih =>
    have hu : u <:+ x := List.suffix_append_self_iff.1 (leadingDashes_suffix h)
    obtain ⟨c, x, rfl⟩ := List.exists_cons_of_ne_nil (List.ne_nil_of_mem (hu.subset hbracket))
    obtain ⟨m, rfl⟩ : ∃ k, m = k + 1 := ⟨m - 1, by simp at hm; omega⟩
    by_cases hc : c = '-'
    · subst hc
      rw [List.cons_append, leadingDashes] at h ⊢
      have hswapx := hswap.of_suffix (List.suffix_cons '-' x)
      obtain ⟨w, hw, -, hwx, hw'⟩ := fl.skip_split hswapx (leadingDashes_suffix h)
      have hle := hwx.length_le
      rw [hw] at h
      rw [hw']
      simp only [List.cons_append, List.length_cons, List.length_append] at hn hm
      exact ih (hswapx.of_suffix hwx) (by rw [List.length_append]; omega) (by rw [List.length_append]; omega) h
    · have hread : ∀ k r, leadingDashes fl (k + 1) s (c :: r) = (s, c :: r) := by
        intro k r
        rw [leadingDashes]
        rintro r' heq
        exact hc (List.cons.inj heq).1
      rw [List.cons_append, hread] at h ⊢
      obtain ⟨rfl, happ⟩ := Prod.mk.inj h
      rw [← List.cons_append] at happ
      rw [← List.append_cancel_right happ, List.cons_append]

/-- What the parts of a class begin with: a bracket at the front, or the dashes there. -/
def classStart (fl : Flags) (cs : List Char) : CharSet × List Char :=
  match cs with
  | ']' :: r => (.single ']', fl.skip r)
  | cs => leadingDashes fl cs.length .none cs

/-- A class body is its start, then its parts up to the bracket that closes it. -/
theorem readClassBody?_eq (fl : Flags) (n : Nat) (negated : Bool) (cs : List Char) :
    readClassBody? fl n negated cs =
      (readClassParts? fl n none (classStart fl cs).1 (classStart fl cs).2).map fun r =>
        (closeClass fl negated r.1, r.2) := by
  have hempty : ∀ start, readClassParts? fl n none start [] = none := by
    intro start
    have hskip : fl.skip [] = [] := List.suffix_nil.1 (fl.skip_suffix [])
    cases n with
    | zero => rfl
    | succ n => rw [readClassParts?, hskip]
  have hparts : ∀ start r, (if r.isEmpty then none
      else (readClassParts? fl n none start r).bind fun r => some (closeClass fl negated r.1, r.2)) =
        (readClassParts? fl n none start r).map fun r => (closeClass fl negated r.1, r.2) := by
    intro start r
    split
    next hr => rw [List.isEmpty_iff.1 hr, hempty]; rfl
    next =>
      cases readClassParts? fl n none start r with
      | none => rfl
      | some r => rfl
  by_cases hcs : cs.head? = some ']'
  · obtain ⟨r, rfl⟩ := List.head?_eq_some_iff.1 hcs
    have hdashes : leadingDashes fl (']' :: r).length .none (']' :: r) = (.none, ']' :: r) := by
      rw [List.length_cons, leadingDashes]
      exact fun r' heq => absurd (List.cons.inj heq).1 (by decide)
    rw [readClassBody?, hdashes]
    exact hparts _ _
  · have hstart : classStart fl cs = leadingDashes fl cs.length .none cs := by
      unfold classStart
      split
      · exact absurd rfl hcs
      · rfl
    rw [readClassBody?, hstart]
    generalize leadingDashes fl cs.length .none cs = dashes
    obtain ⟨s, r⟩ := dashes
    dsimp only
    split
    next => exact absurd rfl hcs
    next => exact hparts _ _

theorem local_classStart (fl : Flags) : Local fl.verbose (some ']') fun cs => some (classStart fl cs) := by
  have hsuffix : ∀ {cs s r}, classStart fl cs = (s, r) → r <:+ cs := by
    intro cs s r h
    obtain rfl : (classStart fl cs).2 = r := congrArg Prod.snd h
    unfold classStart
    split
    next r' => exact (fl.skip_suffix r').trans (List.suffix_cons ']' r')
    next => exact leadingDashes_suffix rfl
  refine ⟨fun h => hsuffix (Option.some.inj h), fun {x z z' s u} hswap hmark h => ?_⟩
  have h := Option.some.inj h
  have hbracket := hmark ']' rfl
  have hu : u <:+ x := List.suffix_append_self_iff.1 (hsuffix h)
  obtain ⟨c, x, rfl⟩ := List.exists_cons_of_ne_nil (List.ne_nil_of_mem (hu.subset hbracket))
  by_cases hc : c = ']'
  · subst hc
    obtain ⟨rfl, hskip⟩ := Prod.mk.inj h
    rw [List.cons_append, classStart, fl.skip_carry (hswap.of_suffix (List.suffix_cons ']' x)) hskip]
  · have hread : ∀ r, classStart fl (c :: r) = leadingDashes fl (c :: r).length .none (c :: r) := by
      intro r
      unfold classStart
      split
      next heq => exact absurd (List.cons.inj heq).1 hc
      next => rfl
    rw [List.cons_append, hread, ← List.cons_append] at h ⊢
    rw [leadingDashes_carry hswap hbracket le_rfl le_rfl h]

/-- The caret of a complement at the front of a class. -/
def classCaret (fl : Flags) : List Char → Bool × List Char
  | '^' :: r => (true, fl.skip r)
  | r => (false, r)

theorem local_classCaret (fl : Flags) (mark : Option Char) :
    Local fl.verbose mark fun cs => some (classCaret fl cs) := by
  refine .dispatch (k := '^') (g := fun r => some (true, fl.skip r)) (by decide) (fun _ => rfl) (fun cs hcs => ?_)
    ((fl.local_skip mark).map fun _ => true) (.value false)
  unfold classCaret
  split
  · exact absurd rfl hcs
  · rfl

/-- What stands in front of the parts of a class: whether it is a complement, and what of the front stands for
itself. -/
def readClassHead? (fl : Flags) (cs : List Char) : Option ((Bool × CharSet) × List Char) :=
  (some (classCaret fl (fl.skip cs))).bind fun r => (some (classStart fl r.2)).map fun s => ((r.1, s.1), s.2)

/-- The head of a class — the caret and the parts that may only stand first — is read from a bounded stretch of the
text. -/
theorem local_readClassHead? (fl : Flags) : Local fl.verbose (some ']') (readClassHead? fl) :=
  ((local_classCaret fl _).bind fun negated => (local_classStart fl).map fun s => (negated, s)).skipping

/-- A class is its head, then its parts up to the bracket that closes it. -/
theorem readClass?_eq (fl : Flags) (n : Nat) (cs : List Char) :
    readClass? fl (n + 1) cs = (readClassHead? fl cs).bind fun h => (readClassParts? fl n none h.1.2 h.2).map fun r =>
      (closeClass fl h.1.1 r.1, r.2) := by
  rw [readClassHead?, Option.bind_some]
  by_cases hcaret : (fl.skip cs).head? = some '^'
  · obtain ⟨r, hr⟩ := List.head?_eq_some_iff.1 hcaret
    rw [readClass?, hr]
    exact readClassBody?_eq fl n true (fl.skip r)
  · have hplain : classCaret fl (fl.skip cs) = (false, fl.skip cs) := by
      unfold classCaret
      split
      next heq => exact absurd (by rw [heq]; rfl) hcaret
      next => rfl
    rw [hplain, readClass?]
    generalize fl.skip cs = text at hcaret ⊢
    split
    next negated body heq =>
      split at heq
      · exact absurd rfl hcaret
      · obtain ⟨rfl, rfl⟩ := Prod.mk.inj heq
        exact readClassBody?_eq fl n false _

/-! ### The parts of a class -/

/-- What is read next of a class. -/
inductive ClassTurn where
  | part (s : CharSet)
  | op (op : SetOp)
  /-- a class within the class -/
  | nested

/-- What a bracket within a class begins. -/
def readBracket (fl : Flags) (cs : List Char) : ClassTurn × List Char :=
  match readNamedClass? fl cs with
  | some (s, r) => (.part s, r)
  | none => (.nested, cs)

theorem local_readBracket (fl : Flags) (mark : Option Char) :
    Local fl.verbose mark fun cs => some (readBracket fl cs) := by
  refine ⟨fun {cs turn r} h => ?_, fun {x z z' turn u} hswap _ h => ?_⟩
  · unfold readBracket at h
    split at h
    next hname =>
      cases h
      exact readNamedClass?_suffix hname
    next =>
      cases h
      exact List.suffix_rfl
  · unfold readBracket at h ⊢
    rw [readNamedClass?_append fl x hswap.stop] at h
    rw [readNamedClass?_append fl x hswap.stop']
    cases hname : readNamedClass? fl x with
    | none =>
      rw [hname] at h
      obtain ⟨rfl, happ⟩ := Prod.mk.inj (Option.some.inj h)
      rw [List.append_cancel_right happ]
      rfl
    | some s =>
      rw [hname] at h
      obtain ⟨rfl, happ⟩ := Prod.mk.inj (Option.some.inj h)
      rw [← List.append_cancel_right happ]
      rfl

/-- The next turn of a class that does not end here, without blanks in front. -/
def readClassTurn? (fl : Flags) : List Char → Option (ClassTurn × List Char)
  | '[' :: r => some (readBracket fl r)
  | '&' :: '&' :: r => some (.op .inter, r)
  | '-' :: '-' :: r => some (.op .diff, r)
  | '~' :: '~' :: r => some (.op .symmDiff, r)
  | r => (readClassRange? fl r).map fun s => (.part s.1, s.2)

/-- One turn of the loop over a class is read from a bounded stretch of the text. -/
theorem local_readClassTurn?_cons (fl : Flags) (c : Char) :
    Local fl.verbose (some ']') fun r => readClassTurn? fl (c :: r) := by
  have hrange : Local fl.verbose (some ']') fun r =>
      (readClassRange? fl (c :: r)).map fun s => (ClassTurn.part s.1, s.2) :=
    (local_readClassRange?_cons fl c).map ClassTurn.part
  by_cases hopen : c = '['
  · subst hopen
    exact local_readBracket fl _
  have hrest : ∀ {r}, (c = '&' ∨ c = '-' ∨ c = '~' → r.head? ≠ some c) →
      readClassTurn? fl (c :: r) = (readClassRange? fl (c :: r)).map fun s => (ClassTurn.part s.1, s.2) := by
    intro r hr
    unfold readClassTurn?
    split
    next heq => exact absurd (List.cons.inj heq).1 hopen
    next heq =>
      obtain ⟨rfl, rfl⟩ := List.cons.inj heq
      exact absurd rfl (hr (.inl rfl))
    next heq =>
      obtain ⟨rfl, rfl⟩ := List.cons.inj heq
      exact absurd rfl (hr (.inr (.inl rfl)))
    next heq =>
      obtain ⟨rfl, rfl⟩ := List.cons.inj heq
      exact absurd rfl (hr (.inr (.inr rfl)))
    next => rfl
  by_cases hop : c = '&' ∨ c = '-' ∨ c = '~'
  · have hcons : ∃ op, ∀ r, readClassTurn? fl (c :: c :: r) = some (.op op, r) := by
      obtain rfl | rfl | rfl := hop
      · exact ⟨.inter, fun _ => rfl⟩
      · exact ⟨.diff, fun _ => rfl⟩
      · exact ⟨.symmDiff, fun _ => rfl⟩
    have hstop : c ≠ ')' := by
      rintro rfl
      revert hop
      decide
    obtain ⟨op, hcons⟩ := hcons
    exact .dispatch hstop hcons (fun r hr => hrest fun _ => hr) (.value (ClassTurn.op op)) hrange
  · have hread : (fun r => readClassTurn? fl (c :: r)) = fun r =>
        (readClassRange? fl (c :: r)).map fun s => (ClassTurn.part s.1, s.2) :=
      funext fun r => hrest fun h => absurd h hop
    rw [hread]
    exact hrange

/-- The rest of a class behind a turn. -/
def followClass? (fl : Flags) (n : Nat) (pending : Pending) (part : CharSet) :
    ClassTurn → List Char → Option (CharSet × List Char)
  | .part s, r => readClassParts? fl n pending (.union part s) r
  | .op op, r => readClassParts? fl n (some (op, pending.close fl part)) .none r
  | .nested, r => (readClass? fl n r).bind fun s => readClassParts? fl n pending (.union part s.1) s.2

section Parts

variable {n m : Nat} {pending : Pending} {part s : CharSet}

theorem readClassParts?_bracket (h : fl.skip cs = ']' :: r) :
    readClassParts? fl (n + 1) pending part cs = some (pending.close fl part, r) := by
  rw [readClassParts?, h]
  rfl

/-- What the verbose mode skips in front of the parts makes no difference. -/
theorem readClassParts?_skip :
    readClassParts? fl n pending part (fl.skip cs) = readClassParts? fl n pending part cs := by
  cases n with
  | zero => rfl
  | succ n => rw [readClassParts?, readClassParts?, fl.skip_skip]

/-- A class is read turn by turn. -/
theorem readClassParts?_turn (h : (fl.skip cs).head? ≠ some ']') :
    readClassParts? fl (n + 1) pending part cs =
      (readClassTurn? fl (fl.skip cs)).bind fun turn => followClass? fl n pending part turn.1 turn.2 := by
  rw [readClassParts?]
  generalize fl.skip cs = text at h ⊢
  split
  next => rfl
  next => exact absurd rfl h
  next r =>
    rw [readClassTurn?, Option.bind_some, readBracket]
    cases readNamedClass? fl r with
    | none => rfl
    | some s => rfl
  next => rfl
  next => rfl
  next => rfl
  next hopen hand hdash htilde =>
    rw [readClassTurn?]
    · cases readClassRange? fl text with
      | none => rfl
      | some s => rfl
    · exact fun r' heq => hopen r' heq
    · exact fun r' heq => hand r' heq
    · exact fun r' heq => hdash r' heq
    · exact fun r' heq => htilde r' heq

/-- What is read of a class ends with a closing bracket. -/
theorem readClass_closes (fl : Flags) (n : Nat) :
    (∀ {cs s r}, readClass? fl n cs = some (s, r) → ']' :: r <:+ cs) ∧
      ∀ {pending part cs s r}, readClassParts? fl n pending part cs = some (s, r) → ']' :: r <:+ cs := by
  induction n with
  | zero => exact ⟨nofun, nofun⟩
  | succ n ih =>
    constructor
    · intro cs s r h
      rw [readClass?_eq] at h
      obtain ⟨head, hhead, h⟩ := Option.bind_eq_some_iff.1 h
      obtain ⟨⟨s', r'⟩, hparts, heq⟩ := Option.map_eq_some_iff.1 h
      obtain ⟨-, rfl⟩ := Prod.mk.inj heq
      exact (ih.2 hparts).trans ((local_readClassHead? fl).suffix hhead)
    · intro pending part cs s r h
      refine List.IsSuffix.trans ?_ (fl.skip_suffix cs)
      by_cases hclose : (fl.skip cs).head? = some ']'
      · obtain ⟨r', hr'⟩ := List.head?_eq_some_iff.1 hclose
        rw [readClassParts?_bracket hr'] at h
        obtain ⟨-, rfl⟩ := Prod.mk.inj (Option.some.inj h)
        rw [hr']
      · rw [readClassParts?_turn hclose] at h
        obtain ⟨⟨turn, t⟩, hturn, h⟩ := Option.bind_eq_some_iff.1 h
        refine List.IsSuffix.trans ?_ ((Local.of_cons rfl (local_readClassTurn?_cons fl)).suffix hturn)
        cases turn with
        | part | op => exact ih.2 h
        | nested =>
          obtain ⟨⟨s', r'⟩, hclass, h⟩ := Option.bind_eq_some_iff.1 h
          exact (ih.2 h).trans ((List.suffix_cons ']' r').trans (ih.1 hclass))

/-- However a class goes on after a turn, it ends behind a closing bracket. -/
theorem followClass?_closes {turn : ClassTurn} (h : followClass? fl n pending part turn cs = some (s, r)) :
    ']' :: r <:+ cs := by
  cases turn with
  | part | op => exact (readClass_closes fl n).2 h
  | nested =>
    obtain ⟨⟨s', r'⟩, hclass, h⟩ := Option.bind_eq_some_iff.1 h
    have hparts := (readClass_closes fl n).2 h
    exact hparts.trans ((List.suffix_cons ']' r').trans ((readClass_closes fl n).1 hclass))

/-- With the bound `n`, what is read of a class in front of one stop is read in front of another one. -/
def CarriesClasses (fl : Flags) (n : Nat) : Prop :=
  ∀ ⦃x z z' u s m⦄, Swap fl.verbose z z' x → readClass? fl n (x ++ z) = some (s, u ++ z) →
    2 * (x ++ z').length + 2 ≤ m → readClass? fl m (x ++ z') = some (s, u ++ z')

/-- The same of the parts of a class. -/
def CarriesParts (fl : Flags) (n : Nat) : Prop :=
  ∀ ⦃pending part x z z' u s m⦄, Swap fl.verbose z z' x →
    readClassParts? fl n pending part (x ++ z) = some (s, u ++ z) → 2 * (x ++ z').length + 1 ≤ m →
      readClassParts? fl m pending part (x ++ z') = some (s, u ++ z')

/-- What follows a turn is carried over to another text behind, where the parts and the nested classes are. -/
theorem CarriesParts.followClass? {turn : ClassTurn} (hparts : CarriesParts fl n) (hclasses : CarriesClasses fl n)
    (hswap : Swap fl.verbose z z' x) (h : followClass? fl n pending part turn (x ++ z) = some (s, u ++ z))
    (hm : 2 * (x ++ z').length + 2 ≤ m) : followClass? fl m pending part turn (x ++ z') = some (s, u ++ z') := by
  cases turn with
  | part | op => exact hparts hswap h ((Nat.le_succ _).trans hm)
  | nested =>
    obtain ⟨⟨s', r'⟩, hclass, h⟩ := Option.bind_eq_some_iff.1 h
    have hbehind := (List.suffix_cons ']' r').trans ((readClass_closes fl n).1 hclass)
    obtain ⟨w, rfl, -, hw⟩ := exists_of_between ((List.suffix_cons ']' _).trans ((readClass_closes fl n).2 h)) hbehind
    have hle := hw.length_le
    rw [List.length_append] at hm
    have hclass' := hclasses (m := m) hswap hclass (by rw [List.length_append]; omega)
    rw [Pattern.followClass?, hclass']
    exact hparts (hswap.of_suffix hw) h (by rw [List.length_append]; omega)

theorem mem_closing {u : List Char} : ∀ c ∈ some ']', c ∈ ']' :: u := by
  rintro c hc
  rw [← Option.some.inj hc]
  exact List.mem_cons_self

/-- With a bound that suits the text, a class is read alike whichever stop comes behind. The induction is on the
bound that it has been read with. -/
theorem readClass_carry (fl : Flags) (n : Nat) : CarriesClasses fl n ∧ CarriesParts fl n := by
  induction n with
  | zero => exact ⟨nofun, nofun⟩
  | succ n ih =>
    constructor
    · intro x z z' u s m hswap h hm
      obtain ⟨m, rfl⟩ : ∃ k, m = k + 1 := ⟨m - 1, by omega⟩
      rw [readClass?_eq] at h ⊢
      obtain ⟨⟨head, r⟩, hhead, h⟩ := Option.bind_eq_some_iff.1 h
      obtain ⟨⟨s', r'⟩, hparts, heq⟩ := Option.map_eq_some_iff.1 h
      obtain ⟨rfl, rfl⟩ := Prod.mk.inj heq
      obtain ⟨w, rfl, -, hwx, hread⟩ :=
        (local_readClassHead? fl).split hswap mem_closing hhead ((readClass_closes fl n).2 hparts)
      have hle := hwx.length_le
      rw [List.length_append] at hm
      have hparts' := ih.2 (m := m) (hswap.of_suffix hwx) hparts (by rw [List.length_append]; omega)
      rw [hread, Option.bind_some, hparts']
      rfl
    · intro pending part x z z' u s m hswap h hm
      obtain ⟨m, rfl⟩ : ∃ k, m = k + 1 := ⟨m - 1, by omega⟩
      have hclose : ']' :: u ++ z <:+ fl.skip (x ++ z) := by
        rw [← readClassParts?_skip] at h
        exact (readClass_closes fl (n + 1)).2 h
      obtain ⟨w, hw, huw, hwx, hw'⟩ := fl.skip_split hswap hclose
      obtain ⟨c, w, rfl⟩ := List.exists_cons_of_ne_nil (List.ne_nil_of_mem (huw.subset List.mem_cons_self))
      rw [List.cons_append] at hw hw'
      by_cases hc : c = ']'
      · subst hc
        rw [readClassParts?_bracket hw, Option.some.injEq, Prod.mk.injEq] at h
        rw [readClassParts?_bracket hw', h.1, List.append_cancel_right h.2]
      · have hhead : ∀ {z}, (c :: (w ++ z)).head? ≠ some ']' := fun h => hc (Option.some.inj h)
        rw [readClassParts?_turn (by rw [hw]; exact hhead), hw] at h
        rw [readClassParts?_turn (by rw [hw']; exact hhead), hw']
        obtain ⟨⟨turn, t⟩, hturn, h⟩ := Option.bind_eq_some_iff.1 h
        have hswapw := hswap.of_suffix ((List.suffix_cons c w).trans hwx)
        obtain ⟨v, rfl, -, hvw, hread⟩ :=
          (local_readClassTurn?_cons fl c).split hswapw mem_closing hturn (followClass?_closes h)
        have hle := hwx.length_le
        have hle' := hvw.length_le
        rw [List.length_cons] at hle
        rw [List.length_append] at hm
        rw [hread, Option.bind_some]
        exact ih.2.followClass? ih.1 (hswapw.of_suffix hvw) h (by rw [List.length_append]; omega)

end Parts

end Grammarian.Pattern
