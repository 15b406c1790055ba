import Grammarian.Proofs.Pattern.Bracketed

/-!
# Groups are read alike whatever comes behind

An expression is read turn by turn: an element, a repetition, a change of flags or the beginning of a group at a time.
Each turn is local, and so the whole is: what is read up to the parenthesis that closes a group is what is read of the
same text by itself, where the end of the text takes the place of the parenthesis.
-/

namespace Grammarian.Pattern

open Text

variable {fl : Flags} {cs x z z' u v r r' : List Char}

/-! ## Turns -/

/-- What is read next of a group. -/
inductive Turn where
  /-- flags for what follows, and what becomes of what has been read -/
  | go (fl : Flags) (change : Progress → Option Progress)
  /-- a group, whose content is read under `fl` -/
  | group (fl : Flags) (name : Option (List Char))
  /-- a bracketed class -/
  | bracket
  | backslash

def GroupHead.turn (fl : Flags) : GroupHead → Turn
  | .group inner => .group inner none
  | .named name => .group fl (some name)
  | .setFlags fl => .go fl fun p => some p.pushFlags

/-- The flags that the next reading behind the turn begins with. -/
def Turn.flags (fl : Flags) : Turn → Flags
  | .go fl' _ => fl'
  | .group inner _ => inner
  | .bracket => fl
  | .backslash => fl

/-- One more element. -/
def Turn.element (fl : Flags) (a : Regex) : Turn := .go fl fun p => some (p.push a)

/-- A repetition with these counts, lazy if it is marked so. -/
def readRepetition (fl : Flags) (low : Nat) (high : Option Nat) (cs : List Char) : Turn × List Char :=
  (.go fl fun p => p.repeatLast? fl low high (readLazy cs).1, (readLazy cs).2)

/-- The turn that `c` begins, which is neither a blank nor a closing parenthesis. -/
def readTurn? (fl : Flags) (c : Char) (r : List Char) : Option (Turn × List Char) :=
  match c with
  | '|' => some (.go fl fun p => some p.nextBranch, r)
  | '(' => (readGroupHead? fl r).map fun h => (h.1.turn fl, h.2)
  | '[' => some (.bracket, r)
  | '?' => some (readRepetition fl 0 (some 1) r)
  | '*' => some (readRepetition fl 0 none r)
  | '+' => some (readRepetition fl 1 none r)
  | '\x7b' => (readCounts? fl (fl.skip r)).bind fun b => some (readRepetition fl b.1.1 b.1.2 (fl.skip b.2))
  | '\\' => some (.backslash, r)
  | '.' => (dot? fl).map fun a => (.element fl a, r)
  | '^' => some (.element fl (lineStart fl), r)
  | '$' => some (.element fl (lineEnd fl), r)
  | c => some (.element fl (literal fl c), r)

theorem local_readRepetition (fl : Flags) (low : Nat) (high : Option Nat) (mark : Option Char) :
    Local fl.verbose mark fun cs => some (readRepetition fl low high cs) :=
  local_readLazy.map fun lazily => Turn.go fl fun p => p.repeatLast? fl low high lazily

/-- One turn of the loop over a group is read from a bounded stretch of the text. -/
theorem local_readTurn? (fl : Flags) (c : Char) (mark : Option Char) : Local fl.verbose mark (readTurn? fl c) := by
  unfold readTurn?
  split
  next => exact .value _
  next => exact (local_readGroupHead? fl mark).map (GroupHead.turn fl)
  next => exact .value _
  next => exact local_readRepetition fl 0 (some 1) mark
  next => exact local_readRepetition fl 0 none mark
  next => exact local_readRepetition fl 1 none mark
  next =>
    exact ((local_readCounts? fl mark).bind fun b => (local_readRepetition fl b.1 b.2 mark).skipping).skipping
  next => exact .value _
  next =>
    cases dot? fl with
    | none => exact .fails
    | some a => exact .value _
  next => exact .value _
  next => exact .value _
  next => exact .value _

/-- The flags that a turn leaves are those that its text leads to. -/
theorem readTurn?_leadsTo {c : Char} {turn : Turn} (h : readTurn? fl c cs = some (turn, r)) :
    fl.LeadsTo (turn.flags fl) cs r := by
  unfold readTurn? at h
  split at h
  case h_2 =>
    obtain ⟨⟨head, r₁⟩, hhead, heq⟩ := Option.map_eq_some_iff.1 h
    cases heq
    have hflags : (head.turn fl).flags fl = head.flags fl := by
      cases head with
      | group | named | setFlags => rfl
    rw [hflags]
    exact readGroupHead?_leadsTo hhead
  case h_7 =>
    obtain ⟨b, -, heq⟩ := Option.bind_eq_some_iff.1 h
    cases heq
    exact .inl
  case h_9 =>
    obtain ⟨a, -, heq⟩ := Option.map_eq_some_iff.1 h
    cases heq
    exact .inl
  all_goals
    cases h
    exact .inl

/-- The rest of a group behind a turn. -/
def followTurn? (n : Nat) (fl : Flags) (isOpen : Bool) (names : List (List Char)) (p : Progress) :
    Turn → List Char → Option (Regex × List (List Char) × List Char)
  | .go fl change, r => (change p).bind fun p => readGroup? n fl isOpen names p r
  | .group inner name, r =>
    if name.any names.contains then none
    else (readGroup? n inner true (name.toList ++ names) {} r).bind fun g =>
      readGroup? n fl isOpen g.2.1 (p.push g.1) g.2.2
  | .bracket, r => (readClass? fl n r).bind fun s =>
    if fl.unicode || !s.1.contains '\x80' then readGroup? n fl isOpen names (p.push (.set s.1)) s.2 else none
  | .backslash, r => (readEscape? fl r).bind fun e => readGroup? n fl isOpen names (p.push (escape fl e.1)) e.2

section Turns

variable {n m : Nat} {isOpen isOpen' : Bool} {names names' : List (List Char)} {p : Progress} {c : Char} {a : Regex}

/-- At the end of the text, what is open is an error. -/
theorem readGroup?_end (h : fl.skip cs = []) :
    readGroup? (n + 1) fl isOpen names p cs = if isOpen then none else some (p.close, names, []) := by
  rw [readGroup?, h]

/-- A closing parenthesis closes what is open, and is an error else. -/
theorem readGroup?_parenthesis (h : fl.skip cs = ')' :: r) :
    readGroup? (n + 1) fl isOpen names p cs = if isOpen then some (p.close, names, r) else none := by
  rw [readGroup?, h]
  rfl

/-- At a stop the group ends. -/
theorem readGroup?_stop (hz : IsStop z) (h : fl.skip cs = z) :
    readGroup? (n + 1) fl (!z.isEmpty) names p cs = some (p.close, names, z.tail) := by
  rcases hz.cases with rfl | ⟨r, rfl⟩
  · exact readGroup?_end h
  · exact readGroup?_parenthesis h

/-- A group is read turn by turn. -/
theorem readGroup?_turn (h : fl.skip cs = c :: r) (hc : c ≠ ')') :
    readGroup? (n + 1) fl isOpen names p cs =
      (readTurn? fl c r).bind fun turn => followTurn? n fl isOpen names p turn.1 turn.2 := by
  rw [readGroup?, h]
  split
  next heq => cases heq
  next heq => exact absurd (List.cons.inj heq).1 hc
  next heq =>
    obtain ⟨rfl, rfl⟩ := List.cons.inj heq
    rfl
  next heq =>
    obtain ⟨rfl, rfl⟩ := List.cons.inj heq
    rw [readTurn?]
    cases readGroupHead? fl r with
    | none => rfl
    | some head =>
      obtain ⟨head, r⟩ := head
      cases head with
      | setFlags _ => rfl
      | group inner => rfl
      | named name =>
        rw [Option.map_some, Option.bind_some]
        rfl
  next heq =>
    obtain ⟨rfl, rfl⟩ := List.cons.inj heq
    rfl
  next heq =>
    obtain ⟨rfl, rfl⟩ := List.cons.inj heq
    rfl
  next heq =>
    obtain ⟨rfl, rfl⟩ := List.cons.inj heq
    rfl
  next heq =>
    obtain ⟨rfl, rfl⟩ := List.cons.inj heq
    rfl
  next heq =>
    obtain ⟨rfl, rfl⟩ := List.cons.inj heq
    rw [readTurn?, ← readBounds?_eq]
    cases readBounds? fl r with
    | none => rfl
    | some b => rfl
  next heq =>
    obtain ⟨rfl, rfl⟩ := List.cons.inj heq
    rfl
  next heq =>
    obtain ⟨rfl, rfl⟩ := List.cons.inj heq
    rw [readTurn?]
    cases dot? fl with
    | none => rfl
    | some a => rfl
  next heq =>
    obtain ⟨rfl, rfl⟩ := List.cons.inj heq
    rfl
  next heq =>
    obtain ⟨rfl, rfl⟩ := List.cons.inj heq
    rfl
  next heq =>
    obtain ⟨rfl, rfl⟩ := List.cons.inj heq
    rw [readTurn?]
    · rfl
    all_goals assumption

/-- What the verbose mode skips makes no difference to a group. -/
theorem readGroup?_skip : readGroup? n fl isOpen names p (fl.skip cs) = readGroup? n fl isOpen names p cs := by
  cases n with
  | zero => rfl
  | succ n => rw [readGroup?, readGroup?, fl.skip_skip]

/-! ## Where a group ends -/

/-- What is left of a text when a group has been read: everything behind a parenthesis, or nothing if no group is
open. -/
def Closes (isOpen : Bool) (r cs : List Char) : Prop := isOpen = false ∧ r = [] ∨ isOpen = true ∧ ')' :: r <:+ cs

theorem Closes.of_suffix {cs' : List Char} (h : Closes isOpen r cs) (hcs : cs <:+ cs') : Closes isOpen r cs' :=
  h.imp_right fun h => ⟨h.1, h.2.trans hcs⟩

theorem Closes.parenthesis (h : Closes true r cs) : ')' :: r <:+ cs :=
  (h.resolve_left fun h => Bool.false_ne_true h.1.symm).2

theorem Closes.nothing (h : Closes false r cs) : r = [] := (h.resolve_right fun h => Bool.false_ne_true h.1).2

theorem Closes.suffix (h : Closes true r cs) : r <:+ cs := (List.suffix_cons ')' r).trans h.parenthesis

/-- A bound for which every reading of a group ends it. -/
def ClosesGroups (n : Nat) : Prop :=
  ∀ ⦃fl isOpen names p cs a names' r⦄, readGroup? n fl isOpen names p cs = some (a, names', r) → Closes isOpen r cs

/-- However a group goes on after a turn, it ends where it should. -/
theorem ClosesGroups.followTurn? (hn : ClosesGroups n) {turn : Turn}
    (h : followTurn? n fl isOpen names p turn cs = some (a, names', r)) : Closes isOpen r cs := by
  cases turn with
  | go fl change =>
    obtain ⟨q, -, h⟩ := Option.bind_eq_some_iff.1 h
    exact hn h
  | group inner name =>
    rw [Pattern.followTurn?] at h
    split at h
    next => cases h
    next =>
      obtain ⟨⟨b, names₁, r₁⟩, hinner, h⟩ := Option.bind_eq_some_iff.1 h
      exact (hn h).of_suffix (hn hinner).suffix
  | bracket =>
    obtain ⟨⟨s, r₁⟩, hclass, h⟩ := Option.bind_eq_some_iff.1 h
    dsimp only at h
    split at h
    next => exact (hn h).of_suffix ((List.suffix_cons ']' r₁).trans ((readClass_closes fl n).1 hclass))
    next => cases h
  | backslash =>
    obtain ⟨⟨e, r₁⟩, hescape, h⟩ := Option.bind_eq_some_iff.1 h
    exact (hn h).of_suffix (readEscape?_suffix hescape)

/-- Every group ends at the end of the text or behind its parenthesis. -/
theorem closesGroups (n : Nat) : ClosesGroups n := by
  induction n with
  | zero =>
    intro fl isOpen names p cs a names' r h
    cases h
  | succ n ih =>
    intro fl isOpen names p cs a names' r h
    refine Closes.of_suffix ?_ (fl.skip_suffix cs)
    cases hskip : fl.skip cs with
    | nil =>
      rw [readGroup?_end hskip] at h
      split at h
      next => cases h
      next hopen =>
        cases h
        exact .inl ⟨Bool.eq_false_iff.2 hopen, rfl⟩
    | cons c r₁ =>
      by_cases hc : c = ')'
      · subst hc
        rw [readGroup?_parenthesis hskip] at h
        split at h
        next hopen =>
          cases h
          exact .inr ⟨hopen, List.suffix_rfl⟩
        next => cases h
      · rw [readGroup?_turn hskip hc] at h
        obtain ⟨⟨turn, r₂⟩, hturn, h⟩ := Option.bind_eq_some_iff.1 h
        have hsuffix := (local_readTurn? fl c none).suffix hturn
        exact (ih.followTurn? h).of_suffix (hsuffix.trans (List.suffix_cons c r₁))

/-- No text both closes the open group and ends without closing it. The induction is on the bound. -/
theorem readGroup?_closed_of_open {g : Regex × List (List Char) × List Char}
    (h : readGroup? n fl true names p cs = some g) : readGroup? n fl false names p cs = none := by
  induction n generalizing fl names p cs with
  | zero => rfl
  | succ n ih =>
    cases hskip : fl.skip cs with
    | nil =>
      rw [readGroup?_end hskip] at h
      cases h
    | cons c r₁ =>
      by_cases hc : c = ')'
      · subst hc
        rw [readGroup?_parenthesis hskip]
        rfl
      · rw [readGroup?_turn hskip hc] at h ⊢
        obtain ⟨⟨turn, r₂⟩, hturn, h⟩ := Option.bind_eq_some_iff.1 h
        rw [hturn, Option.bind_some]
        cases turn with
        | go fl change =>
          obtain ⟨q, hq, h⟩ := Option.bind_eq_some_iff.1 h
          rw [followTurn?, hq, Option.bind_some]
          exact ih h
        | group inner name =>
          rw [followTurn?] at h ⊢
          split at h
          next => cases h
          next hname =>
            obtain ⟨⟨b, names₁, r₃⟩, hinner, h⟩ := Option.bind_eq_some_iff.1 h
            rw [if_neg hname, hinner, Option.bind_some]
            exact ih h
        | bracket =>
          obtain ⟨⟨s, r₃⟩, hclass, h⟩ := Option.bind_eq_some_iff.1 h
          rw [followTurn?, hclass, Option.bind_some]
          dsimp only at h ⊢
          split at h
          next hset =>
            rw [if_pos hset]
            exact ih h
          next => cases h
        | backslash =>
          obtain ⟨⟨e, r₃⟩, hescape, h⟩ := Option.bind_eq_some_iff.1 h
          rw [followTurn?, hescape, Option.bind_some]
          exact ih h

/-! ## One stop in place of another -/

/-- Where a reading ends in front of the stops `z` and `z'`, what it leaves there, and what of the front part the
end of the reading still needs: a parenthesis in front of `u`, or nothing where the stop itself ends it. -/
inductive Stops (z z' : List Char) : List Char → Bool → List Char → Bool → List Char → Prop
  | inside (u : List Char) : Stops z z' (')' :: u) true (u ++ z) true (u ++ z')
  | outside : Stops z z' [] (!z.isEmpty) z.tail (!z'.isEmpty) z'.tail

theorem Stops.suffix (h : Stops z z' v isOpen r isOpen' r') (hz : IsStop z) (hcs : Closes isOpen r cs) :
    v ++ z <:+ cs := by
  cases h with
  | inside u => exact hcs.parenthesis
  | outside =>
    rcases hz.cases with rfl | ⟨t, rfl⟩
    · exact List.nil_suffix
    · exact hcs.parenthesis

/-- No repetition is read where a brace stands in front of blanks and the stop. -/
theorem BlankBrace.readGroup?_ne (hblank : BlankBrace fl z u) (hz : IsStop z)
    (hstops : Stops z z' v isOpen r isOpen' r') : readGroup? n fl isOpen names p (u ++ z) ≠ some (a, names', r) := by
  intro h
  obtain ⟨w, rfl, hskip⟩ := hblank
  cases n with
  | zero => cases h
  | succ n =>
    rw [List.cons_append, readGroup?_turn (fl.skip_cons (by decide) (by decide) _) (by decide)] at h
    obtain ⟨⟨turn, t⟩, hturn, h⟩ := Option.bind_eq_some_iff.1 h
    have hsuffix := hstops.suffix hz ((closesGroups n).followTurn? h)
    obtain ⟨⟨counts, r₁⟩, hcounts, hturn⟩ := Option.bind_eq_some_iff.1 hturn
    have hrepetition := (local_readRepetition fl counts.1 counts.2 none).suffix hturn
    have hrest := (hrepetition.trans (fl.skip_suffix r₁)).trans ((local_readCounts? fl none).suffix hcounts)
    have hlength := (hsuffix.trans hrest).length_le
    rw [List.length_append] at hlength
    rw [hskip.eq_of_length (le_antisymm hskip.length_le (by omega)), readCounts?_stop fl hz] at hcounts
    cases hcounts

/-- With the bound `n`, what is read in front of one stop is read in front of another one. -/
def CarriesGroups (n : Nat) : Prop :=
  ∀ ⦃fl x z z' v isOpen r isOpen' r' names p a names' m⦄, Swap fl.verbose z z' x → Stops z z' v isOpen r isOpen' r' →
    readGroup? n fl isOpen names p (x ++ z) = some (a, names', r) → 2 * (x ++ z').length + 2 ≤ m →
      readGroup? m fl isOpen' names p (x ++ z') = some (a, names', r')

/-- What follows a turn is carried over to another text behind. -/
theorem CarriesGroups.followTurn? (hn : CarriesGroups n) {turn : Turn} (hswap : Swap fl.verbose z z' x)
    (hflags : Swap (turn.flags fl).verbose z z' x) (hstops : Stops z z' v isOpen r isOpen' r')
    (h : followTurn? n fl isOpen names p turn (x ++ z) = some (a, names', r)) (hm : 2 * (x ++ z').length + 2 ≤ m) :
    followTurn? m fl isOpen' names p turn (x ++ z') = some (a, names', r') := by
  have hlength : ∀ {w : List Char}, w <:+ x → 2 * (w ++ z').length + 2 ≤ m := by
    intro w hw
    have hle := hw.length_le
    rw [List.length_append] at hm ⊢
    omega
  -- what is left in front of the rest of the group is left in front of the stop
  have hsplit : ∀ {fl names p r₁}, readGroup? n fl isOpen names p r₁ = some (a, names', r) → r₁ <:+ x ++ z →
      ∃ w, r₁ = w ++ z ∧ w <:+ x := by
    intro fl names p r₁ h hr₁
    obtain ⟨w, hw, -, hwx⟩ := exists_of_between (hstops.suffix hswap.stop (closesGroups n h)) hr₁
    exact ⟨w, hw, hwx⟩
  cases turn with
  | go fl change =>
    obtain ⟨q, hq, h⟩ := Option.bind_eq_some_iff.1 h
    exact Option.bind_eq_some_iff.2 ⟨q, hq, hn hflags hstops h hm⟩
  | group inner name =>
    rw [Pattern.followTurn?] at h ⊢
    split at h
    next => cases h
    next hname =>
      obtain ⟨⟨b, names₁, r₁⟩, hinner, h⟩ := Option.bind_eq_some_iff.1 h
      obtain ⟨w, rfl, hw⟩ := hsplit h (closesGroups n hinner).suffix
      have hinner' : readGroup? m inner true (name.toList ++ names) {} (x ++ z') = some (b, names₁, w ++ z') :=
        hn hflags (.inside w) hinner hm
      rw [if_neg hname, hinner']
      exact hn (hswap.of_suffix hw) hstops h (hlength hw)
  | bracket =>
    obtain ⟨⟨s, r₁⟩, hclass, h⟩ := Option.bind_eq_some_iff.1 h
    dsimp only at h
    split at h
    next hset =>
      obtain ⟨w, rfl, hw⟩ := hsplit h ((List.suffix_cons ']' r₁).trans ((readClass_closes fl n).1 hclass))
      rw [Pattern.followTurn?, (readClass_carry fl n).1 hswap hclass hm, Option.bind_some]
      dsimp only
      rw [if_pos hset]
      exact hn (hswap.of_suffix hw) hstops h (hlength hw)
    next => cases h
  | backslash =>
    obtain ⟨⟨e, r₁⟩, hescape, h⟩ := Option.bind_eq_some_iff.1 h
    obtain ⟨w, rfl, hw⟩ := hsplit h (readEscape?_suffix hescape)
    rcases readEscape?_carry hswap hescape with hread | ⟨-, hblank⟩
    · rw [Pattern.followTurn?, hread, Option.bind_some]
      exact hn (hswap.of_suffix hw) hstops h (hlength hw)
    · exact absurd h (hblank.readGroup?_ne hswap.stop hstops)

/-- Groups are carried over to another text behind. -/
theorem carriesGroups (n : Nat) : CarriesGroups n := by
  induction n with
  | zero =>
    intro fl x z z' v isOpen r isOpen' r' names p a names' m hswap hstops h
    cases h
  | succ n ih =>
    intro fl x z z' v isOpen r isOpen' r' names p a names' m hswap hstops h hm
    obtain ⟨m, rfl⟩ : ∃ k, m = k + 1 := ⟨m - 1, by omega⟩
    have hv : v ++ z <:+ fl.skip (x ++ z) := by
      rw [← readGroup?_skip] at h
      exact hstops.suffix hswap.stop (closesGroups _ h)
    obtain ⟨w, hw, hvw, hwx, hw'⟩ := fl.skip_split hswap hv
    cases w with
    | nil =>
      -- the stop itself ends the reading
      rw [List.nil_append] at hw hw'
      cases hstops with
      | inside u => exact absurd (List.suffix_nil.1 hvw) (List.cons_ne_nil _ _)
      | outside =>
        rw [readGroup?_stop hswap.stop hw] at h
        cases h
        exact readGroup?_stop hswap.stop' hw'
    | cons c w =>
      rw [List.cons_append] at hw hw'
      by_cases hc : c = ')'
      · subst hc
        rw [readGroup?_parenthesis hw] at h
        split at h
        next hopen =>
          obtain ⟨rfl, hread⟩ := Prod.mk.inj (Option.some.inj h)
          obtain ⟨rfl, hrest⟩ := Prod.mk.inj hread
          cases hstops with
          | inside u => rw [readGroup?_parenthesis hw', if_pos rfl, List.append_cancel_right hrest]
          | outside =>
            have hne : z ≠ [] := by simpa using hopen
            have hlength := congrArg List.length hrest
            have hpos := List.length_pos_iff.2 hne
            rw [List.length_append, List.length_tail] at hlength
            omega
        next => cases h
      · rw [readGroup?_turn hw hc] at h
        rw [readGroup?_turn hw' hc]
        obtain ⟨⟨turn, t⟩, hturn, h⟩ := Option.bind_eq_some_iff.1 h
        have hswapw := hswap.of_suffix ((List.suffix_cons c w).trans hwx)
        obtain ⟨y, rfl, -, hyw, hread⟩ := (local_readTurn? fl c none).split hswapw nofun hturn
          (hstops.suffix hswap.stop ((closesGroups n).followTurn? h))
        have hle := hwx.length_le
        have hle' := hyw.length_le
        rw [List.length_cons] at hle
        rw [List.length_append] at hm
        rw [hread, Option.bind_some]
        have hlength : 2 * (y ++ z').length + 2 ≤ m := by
          rw [List.length_append]
          omega
        exact ih.followTurn? (hswapw.of_suffix hyw) ((readTurn?_leadsTo hturn).swap hswapw hyw) hstops h hlength

end Turns

end Grammarian.Pattern
