import Grammarian.Proofs.Pattern.Local

/-!
# Counts, escapes and the heads of groups

The small readers are local. There is one exception: behind `\b` an opening brace may begin the name of a special
boundary, and where nothing but blanks comes behind it, it matters that the text ends there.
-/

namespace Grammarian.Pattern

open Text

variable {fl : Flags} {verbose : Bool} {mark : Option Char} {cs x z z' u r : List Char}

/-! ## Counts -/

/-- The count that digits stand for. -/
def countValue? (ds : List Char) : Option Nat :=
  if ds.isEmpty then none
  else
    let n := ds.foldl (fun n d => 10 * n + (d.toNat - '0'.toNat)) 0
    if n ≤ maxCount then some n else none

/-- A count is gathered, then valued, then its blanks are left out. -/
theorem readCount?_eq (fl : Flags) (cs : List Char) :
    readCount? fl cs = (some (gather isAsciiDigit fl.verbose false (cs.dropWhile isSpace))).bind fun r =>
      (countValue? r.1).bind fun n => some (n, r.2.dropWhile isSpace) := by
  rw [readCount?, readDigits_eq_gather, Option.bind_some]
  generalize gather isAsciiDigit fl.verbose false (cs.dropWhile isSpace) = r
  unfold countValue?
  dsimp only
  split
  · rfl
  · split
    · rfl
    · rfl

theorem local_readCount? (fl : Flags) (mark : Option Char) : Local fl.verbose mark (readCount? fl) := by
  have hread : readCount? fl = fun cs =>
      (some (gather isAsciiDigit fl.verbose false (cs.dropWhile isSpace))).bind fun r =>
        (countValue? r.1).bind fun n => some (n, r.2.dropWhile isSpace) := funext (readCount?_eq fl)
  rw [hread]
  refine Local.dropping (f := fun cs => (some (gather isAsciiDigit fl.verbose false cs)).bind fun r =>
    (countValue? r.1).bind fun n => some (n, r.2.dropWhile isSpace)) ?_
  refine (local_gather (by decide) fl.verbose mark).bind (g := fun ds cs =>
    (countValue? ds).bind fun n => some (n, cs.dropWhile isSpace)) fun ds => ?_
  cases countValue? ds with
  | none => exact .fails
  | some n => exact Local.dropping (f := fun cs => some (n, cs)) (.value n)

/-- What has been read before a closing brace. -/
def closeBrace? {α : Type} (a : Option α) : List Char → Option (α × List Char)
  | '\x7d' :: r => a.map (·, r)
  | _ => none

/-- What reads nothing at all is local. -/
theorem Local.ofOption {α : Type} (a : Option α) : Local verbose mark fun cs => a.map (·, cs) := by
  cases a with
  | none => exact .fails
  | some a => exact .value a

theorem local_closeBrace? {α : Type} (a : Option α) : Local verbose mark (closeBrace? a) := by
  refine .dispatch (k := '\x7d') (by decide) (fun _ => rfl) (fun cs hcs => ?_) (.ofOption a) .fails
  unfold closeBrace?
  split
  · exact absurd rfl hcs
  · rfl

/-- The greatest count, if there is one, up to the closing brace. -/
def readGreatest? (fl : Flags) (low : Nat) : List Char → Option ((Nat × Option Nat) × List Char)
  | '\x7d' :: r => some ((low, none), r)
  | r => (readCount? fl r).bind fun b => closeBrace? (if low ≤ b.1 then some (low, some b.1) else none) b.2

/-- What comes behind the least count, up to the closing brace. -/
def readUpper? (fl : Flags) (low : Nat) : List Char → Option ((Nat × Option Nat) × List Char)
  | '\x7d' :: r => some ((low, some low), r)
  | ',' :: r => readGreatest? fl low (fl.skip r)
  | _ => none

/-- The counts of a repetition, without blanks in front. -/
def readCounts? (fl : Flags) (cs : List Char) : Option ((Nat × Option Nat) × List Char) :=
  (readCount? fl cs).bind fun r => readUpper? fl r.1 r.2

/-- Bounds are read as two counts, apart from the blanks in front of them. -/
theorem readBounds?_eq (fl : Flags) (cs : List Char) :
    (readBounds? fl cs).map (fun b => ((b.1, b.2.1), b.2.2)) = readCounts? fl (fl.skip cs) := by
  rw [readBounds?, readCounts?]
  cases readCount? fl (fl.skip cs) with
  | none => rfl
  | some r =>
    obtain ⟨low, r⟩ := r
    rw [Option.bind_eq_bind, Option.bind_some, Option.bind_some]
    dsimp only
    split
    next => rfl
    next r =>
      rw [readUpper?]
      generalize fl.skip r = r
      split
      next => rfl
      next hbrace =>
        rw [readGreatest?]
        · cases readCount? fl r with
          | none => rfl
          | some b =>
            obtain ⟨high, r⟩ := b
            rw [Option.bind_some, Option.bind_some]
            dsimp only
            split
            next =>
              rw [closeBrace?]
              split
              · rfl
              · rfl
            next hbrace =>
              rw [closeBrace?]
              · rfl
              · exact hbrace
        · exact hbrace
    next hbrace hcomma =>
      rw [readUpper?]
      · rfl
      · exact hbrace
      · exact hcomma

theorem local_readGreatest? (fl : Flags) (low : Nat) (mark : Option Char) :
    Local fl.verbose mark (readGreatest? fl low) := by
  refine .dispatch (k := '\x7d') (by decide) (fun _ => rfl) (fun cs hcs => ?_) (.value (low, none))
    ((local_readCount? fl mark).bind fun high =>
      local_closeBrace? (if low ≤ high then some (low, some high) else none))
  rw [readGreatest?]
  rintro r rfl
  exact hcs rfl

theorem local_readUpper? (fl : Flags) (low : Nat) (mark : Option Char) : Local fl.verbose mark (readUpper? fl low) := by
  refine .of_cons rfl fun c => ?_
  by_cases hbrace : c = '\x7d'
  · subst hbrace
    exact .value (low, some low)
  by_cases hcomma : c = ','
  · subst hcomma
    exact (local_readGreatest? fl low mark).skipping
  have hread : (fun r => readUpper? fl low (c :: r)) = fun _ => none := by
    funext r
    rw [readUpper?]
    · exact fun r' heq => hbrace (List.cons.inj heq).1
    · exact fun r' heq => hcomma (List.cons.inj heq).1
  rw [hread]
  exact .fails

theorem local_readCounts? (fl : Flags) (mark : Option Char) : Local fl.verbose mark (readCounts? fl) :=
  (local_readCount? fl mark).bind fun low => local_readUpper? fl low mark

/-- No counts stand where an expression stops. -/
theorem readCounts?_stop (fl : Flags) (hz : IsStop z) : readCounts? fl z = none := by
  rw [readCounts?, readCount?_eq, hz.dropWhile_isSpace, gather_stop (by decide) hz]
  rfl

/-! ## Escapes -/

/-- One digit in front of those that `f` reads. -/
def readHexDigit? (f : List Char → Option (List Char × List Char)) (cs : List Char) : Option (List Char × List Char) :=
  cs.head?.bind fun c => if isHexDigit c then (f cs.tail).map fun r => (c :: r.1, r.2) else none

theorem local_readHex? (fl : Flags) (count : Nat) (mark : Option Char) : Local fl.verbose mark (readHex? fl count) := by
  induction count with
  | zero => exact .value []
  | succ n ih =>
    have hread : readHex? fl (n + 1) = fun cs => readHexDigit? (readHex? fl n) (fl.skip cs) := by
      funext cs
      rw [readHex?]
      cases fl.skip cs with
      | nil => rfl
      | cons c r => rfl
    rw [hread]
    refine Local.skipping ?_
    refine .of_cons rfl fun c => ?_
    by_cases hc : isHexDigit c = true
    · have hdigit : (fun r => readHexDigit? (readHex? fl n) (c :: r)) =
          fun r => (readHex? fl n r).map fun r => (c :: r.1, r.2) := funext fun _ => if_pos hc
      rw [hdigit]
      exact ih.map fun ds => c :: ds
    · have hnone : (fun r => readHexDigit? (readHex? fl n) (c :: r)) = fun _ => none := funext fun _ => if_neg hc
      rw [hnone]
      exact .fails

/-- A code in braces is gathered up to a character that is no digit, and that has to be the brace. -/
theorem readBracedHex?_eq (verbose inComment : Bool) (cs : List Char) :
    readBracedHex? verbose inComment cs =
      (some (gather isHexDigit verbose inComment cs)).bind fun r => closeBrace? (some r.1) r.2 := by
  induction cs generalizing inComment with
  | nil => rfl
  | cons c cs ih =>
    simp only [readBracedHex?, gather, ih, Option.bind_some]
    split
    · rfl
    · split
      next hbrace =>
        subst hbrace
        have hdigit : isHexDigit '\x7d' = false := by decide
        have hspace : isSpace '\x7d' = false := by decide
        simp [hdigit, hspace, closeBrace?]
      next hbrace =>
        split
        · generalize (gather isHexDigit verbose false cs).2 = r
          unfold closeBrace?
          split
          · rfl
          · rfl
        · split
          · rfl
          · split
            · rfl
            · unfold closeBrace?
              split
              next heq => exact absurd (List.cons.inj heq).1 hbrace
              next => rfl

/-- The digits of a code, and whether it is that of a byte. -/
def readCodeDigits? (fl : Flags) (count : Nat) : List Char → Option ((Bool × List Char) × List Char)
  | '\x7b' :: r => (readBracedHex? fl.verbose false r).map fun r => ((false, r.1), r.2)
  | r => (readHex? fl count r).map fun r => ((decide (count = 2), r.1), r.2)

/-- The character with a code. -/
def codeEscape? (fl : Flags) (code : Bool × List Char) : Option Escape :=
  if code.2.isEmpty then none
  else (scalar? (hexValue code.2)).bind fun c =>
    if code.1 ∧ !fl.unicode ∧ !isAscii c then none else some (.char c)

/-- A code is read in two steps: its digits, and the character that they name. -/
theorem readCode?_eq (fl : Flags) (count : Nat) (cs : List Char) :
    readCode? fl count cs =
      (readCodeDigits? fl count (fl.skip cs)).bind fun r => (codeEscape? fl r.1).map (·, r.2) := by
  have hvalue : ∀ (isByte : Bool) (ds r : List Char),
      (if ds.isEmpty then none
        else (scalar? (hexValue ds)).bind fun c =>
          if isByte ∧ !fl.unicode ∧ !isAscii c then none else some (Escape.char c, r)) =
        (codeEscape? fl (isByte, ds)).map (·, r) := by
    intro isByte ds r
    unfold codeEscape?
    dsimp only
    split
    · rfl
    · cases scalar? (hexValue ds) with
      | none => rfl
      | some c =>
        simp only [Option.bind_some]
        split
        · rfl
        · rfl
  rw [readCode?]
  generalize fl.skip cs = text
  dsimp only
  split
  next r =>
    rw [readCodeDigits?]
    cases readBracedHex? fl.verbose false r with
    | none => rfl
    | some d => exact hvalue false d.1 d.2
  next hbrace =>
    rw [readCodeDigits?]
    · cases readHex? fl count text with
      | none => rfl
      | some d => exact hvalue (decide (count = 2)) d.1 d.2
    · exact hbrace

theorem local_readCode? (fl : Flags) (count : Nat) (mark : Option Char) :
    Local fl.verbose mark (readCode? fl count) := by
  have hbraced : Local fl.verbose mark fun r =>
      (readBracedHex? fl.verbose false r).map fun r => ((false, r.1), r.2) := by
    have hread := funext (readBracedHex?_eq fl.verbose false)
    rw [hread]
    exact ((local_gather (by decide) fl.verbose mark).bind fun ds => local_closeBrace? (some ds)).map
      fun ds => (false, ds)
  have hdigits : Local fl.verbose mark (readCodeDigits? fl count) := by
    refine .dispatch (k := '\x7b') (by decide) (fun _ => rfl) (fun cs hcs => ?_) hbraced
      ((local_readHex? fl count mark).map fun ds => (decide (count = 2), ds))
    unfold readCodeDigits?
    split
    · exact absurd rfl hcs
    · rfl
  have hread := funext (readCode?_eq fl count)
  rw [hread]
  exact (hdigits.filterMap (codeEscape? fl)).skipping

/-- Every escape but that of a boundary is local. -/
theorem local_readEscape?_cons (fl : Flags) {c : Char} (hc : c ≠ 'b') (mark : Option Char) :
    Local fl.verbose mark fun r => readEscape? fl (c :: r) := by
  unfold readEscape?
  dsimp only
  split
  case h_22 =>
    split
    · exact .value _
    · exact .fails
  all_goals first
    | exact local_readCode? fl _ mark
    | exact .ofOption _
    | exact .value _
    | exact absurd rfl hc

/-! ### Boundaries of words -/

/-- The special boundary that a name stands for. -/
def boundaryNamed? (name : List Char) : Option Escape :=
  match String.ofList name with
  | "start" => some (.look .wordStart)
  | "end" => some (.look .wordEnd)
  | "start-half" => some (.look .wordStartHalf)
  | "end-half" => some (.look .wordEndHalf)
  | _ => none

/-- The name of a special boundary, up to the closing brace. -/
def readNamedBoundary? (fl : Flags) (cs : List Char) : Option (Escape × List Char) :=
  ((some (gather isBoundaryChar fl.verbose false cs)).bind fun r => closeBrace? (some r.1) r.2).bind fun r =>
    (boundaryNamed? r.1).map (·, r.2)

theorem local_readNamedBoundary? (fl : Flags) (mark : Option Char) : Local fl.verbose mark (readNamedBoundary? fl) :=
  ((local_gather (by decide) fl.verbose mark).bind fun ds => local_closeBrace? (some ds)).filterMap boundaryNamed?

/-- Behind `\b`, a brace is looked into for the first character of a name. -/
theorem readBoundary?_brace (fl : Flags) (r : List Char) :
    readBoundary? fl ('\x7b' :: r) =
      match fl.skip r with
      | [] => none
      | c :: _ =>
        if isBoundaryChar c then readNamedBoundary? fl (fl.skip r) else some (.look .wordBoundary, '\x7b' :: r) := by
  rw [readBoundary?]
  cases fl.skip r with
  | nil => rfl
  | cons c s =>
    dsimp only
    split
    · rw [readBoundaryName_eq_gather, readNamedBoundary?, Option.bind_some]
      generalize gather isBoundaryChar fl.verbose false (c :: s) = read
      obtain ⟨name, rest⟩ := read
      dsimp only
      split
      next name rest heq =>
        obtain ⟨rfl, rfl⟩ := Prod.mk.inj heq
        rw [closeBrace?, Option.map_some, Option.bind_some, boundaryNamed?]
        dsimp only
        generalize String.ofList name = text
        split
        next => rfl
        next => rfl
        next => rfl
        next => rfl
        next => grind
      next hbrace =>
        rw [closeBrace?]
        · rfl
        · rintro r rfl
          exact hbrace name r rfl
    · rfl

/-- Without a brace, `\b` is a word boundary by itself. -/
theorem readBoundary?_plain (fl : Flags) (h : cs.head? ≠ some '\x7b') :
    readBoundary? fl cs = some (.look .wordBoundary, cs) := by
  unfold readBoundary?
  split
  · exact absurd rfl h
  · rfl

theorem readBoundary?_suffix {e : Escape} (h : readBoundary? fl cs = some (e, r)) : r <:+ cs := by
  by_cases hcs : cs.head? = some '\x7b'
  · obtain ⟨cs, rfl⟩ := List.head?_eq_some_iff.1 hcs
    rw [readBoundary?_brace] at h
    split at h
    · cases h
    · split at h
      · have hsuffix := (local_readNamedBoundary? fl none).suffix h
        exact (hsuffix.trans (fl.skip_suffix cs)).trans (List.suffix_cons _ _)
      · cases h
        exact List.suffix_rfl
  · rw [readBoundary?_plain fl hcs] at h
    cases h
    exact List.suffix_rfl

/-- What is left behind `\b` begins with a brace and blanks only, as far as it goes. -/
def BlankBrace (fl : Flags) (z u : List Char) : Prop := ∃ v, u = '\x7b' :: v ∧ fl.skip (v ++ z) <:+ z

/-- A boundary is read again before another text, unless it looked at a brace with blanks up to the end of what is
read: then it depends on what follows. -/
theorem readBoundary?_carry {e : Escape} (hswap : Swap fl.verbose z z' x)
    (h : readBoundary? fl (x ++ z) = some (e, u ++ z)) :
    readBoundary? fl (x ++ z') = some (e, u ++ z') ∨ e = .look .wordBoundary ∧ BlankBrace fl z u := by
  by_cases hx : x.head? = some '\x7b'
  · obtain ⟨v, rfl⟩ := List.head?_eq_some_iff.1 hx
    rw [List.cons_append, readBoundary?_brace] at h
    by_cases hblank : fl.skip (v ++ z) <:+ z
    · refine .inr ?_
      split at h
      next => cases h
      next c s hs =>
        split at h
        next hc =>
          have hsuffix := (local_readNamedBoundary? fl none).suffix h
          rw [hs] at hsuffix hblank
          have hle := hsuffix.length_le
          have hle' := hblank.length_le
          rw [List.length_append] at hle
          have heq : c :: s = z := hblank.eq_of_length (by omega)
          obtain rfl : c = ')' := hswap.stop c (by rw [← heq]; rfl)
          exact absurd hc (by decide)
        next =>
          obtain ⟨rfl, hu⟩ := Prod.mk.inj (Option.some.inj h)
          rw [← List.cons_append] at hu
          exact ⟨rfl, v, (List.append_cancel_right hu).symm, hblank⟩
    · refine .inl ?_
      have hz : [] ++ z <:+ fl.skip (v ++ z) :=
        (List.suffix_or_suffix_of_suffix (fl.skip_suffix _) (List.suffix_append v z)).resolve_left hblank
      have hswapv := hswap.of_suffix (List.suffix_cons _ v)
      obtain ⟨w, hw, -, hwv, hw'⟩ := fl.skip_split hswapv hz
      rw [hw] at h
      rw [List.cons_append, readBoundary?_brace, hw']
      cases w with
      | nil => exact absurd (by rw [hw]; exact List.suffix_rfl) hblank
      | cons c w =>
        simp only [List.cons_append] at h ⊢
        split at h
        next hc =>
          rw [if_pos hc]
          exact (local_readNamedBoundary? fl none).carry (x := c :: w) (hswapv.of_suffix hwv) nofun h
        next hc =>
          rw [if_neg hc]
          obtain ⟨rfl, hu⟩ := Prod.mk.inj (Option.some.inj h)
          rw [← List.cons_append] at hu
          rw [← List.append_cancel_right hu, List.cons_append]
  · have hne : ∀ {z}, IsStop z → (x ++ z).head? ≠ some '\x7b' := by
      intro z hz
      cases x with
      | nil => exact hz.head?_ne (by decide)
      | cons c x => exact hx
    rw [readBoundary?_plain fl (hne hswap.stop)] at h
    obtain ⟨rfl, hu⟩ := Prod.mk.inj (Option.some.inj h)
    rw [readBoundary?_plain fl (hne hswap.stop'), List.append_cancel_right hu]
    exact .inl rfl

/-- An escape leaves an end of the text. -/
theorem readEscape?_suffix {e : Escape} (h : readEscape? fl cs = some (e, r)) : r <:+ cs := by
  cases cs with
  | nil => cases h
  | cons c cs =>
    refine List.IsSuffix.trans ?_ (List.suffix_cons c cs)
    by_cases hc : c = 'b'
    · subst hc
      exact readBoundary?_suffix h
    · exact (local_readEscape?_cons fl hc none).suffix h

/-- An escape is read again before another text; the one exception is that of boundaries. -/
theorem readEscape?_carry {e : Escape} (hswap : Swap fl.verbose z z' x)
    (h : readEscape? fl (x ++ z) = some (e, u ++ z)) :
    readEscape? fl (x ++ z') = some (e, u ++ z') ∨ e = .look .wordBoundary ∧ BlankBrace fl z u := by
  cases x with
  | nil =>
    rcases hswap.stop.cases with rfl | ⟨r, rfl⟩
    · cases h
    · have hsuffix := (local_readEscape?_cons fl (by decide : ')' ≠ 'b') none).suffix h
      exact absurd hsuffix (not_append_suffix_of_lt (Nat.lt_succ_self _))
  | cons c x =>
    have hswapx := hswap.of_suffix (List.suffix_cons c x)
    by_cases hc : c = 'b'
    · subst hc
      exact readBoundary?_carry hswapx h
    · exact .inl ((local_readEscape?_cons fl hc none).carry hswapx nofun h)

/-! ## Heads of groups -/

theorem readFlags?_suffix {seen : List Char} {on : Bool} {fl' : Flags} (h : readFlags? seen on fl cs = some (fl', r)) :
    r <:+ cs := by
  induction cs generalizing seen on fl with
  | nil => cases h
  | cons c cs ih =>
    rw [readFlags?] at h
    split at h
    · split at h
      · cases h
      · cases h
        exact List.suffix_rfl
    · split at h
      · cases h
      · split at h
        · exact (ih h).trans (List.suffix_cons c cs)
        · obtain ⟨fl₁, -, h⟩ := Option.bind_eq_some_iff.1 h
          exact (ih h).trans (List.suffix_cons c cs)

/-- Flags are local where something is left behind them: they end in front of a character that is not read. -/
theorem readFlags?_carry {seen : List Char} {on : Bool} {fl' : Flags} (hu : u ≠ [])
    (h : readFlags? seen on fl (x ++ z) = some (fl', u ++ z)) (z' : List Char) :
    readFlags? seen on fl (x ++ z') = some (fl', u ++ z') := by
  induction x generalizing seen on fl with
  | nil =>
    have hle := (readFlags?_suffix h).length_le
    have hpos := List.length_pos_iff.2 hu
    rw [List.nil_append, List.length_append] at hle
    omega
  | cons c x ih =>
    rw [List.cons_append, readFlags?] at h ⊢
    split at h
    next hc =>
      rw [if_pos hc]
      split at h
      next => cases h
      next hseen =>
        rw [if_neg hseen]
        obtain ⟨rfl, happ⟩ := Prod.mk.inj (Option.some.inj h)
        rw [← List.cons_append] at happ
        rw [← List.append_cancel_right happ, List.cons_append]
    next hc =>
      rw [if_neg hc]
      split at h
      next => cases h
      next hseen =>
        rw [if_neg hseen]
        split at h
        next hdash =>
          rw [if_pos hdash]
          exact ih h
        next hdash =>
          rw [if_neg hdash]
          obtain ⟨fl₁, hset, h⟩ := Option.bind_eq_some_iff.1 h
          exact Option.bind_eq_some_iff.2 ⟨fl₁, hset, ih h⟩

theorem local_readGroupName? : Local verbose mark readGroupName? := by
  have hend : ∀ {cs name r : List Char}, readGroupName? cs = some (name, r) →
      ∃ c, cs.dropWhile (· ≠ '>') = c :: r := by
    intro cs name r h
    unfold readGroupName? at h
    dsimp only at h
    split at h
    next hrest =>
      split at h
      · obtain ⟨-, rfl⟩ := Prod.mk.inj (Option.some.inj h)
        exact ⟨_, hrest⟩
      · cases h
    next => cases h
  refine ⟨fun h => ?_, fun {x z z' name u} _ _ h => ?_⟩
  · obtain ⟨c, hc⟩ := hend h
    exact (List.suffix_cons c _).trans (hc ▸ List.dropWhile_suffix _)
  · obtain ⟨c, hc⟩ := hend h
    have hne : x.dropWhile (· ≠ '>') ≠ [] := by
      intro hnil
      rw [List.dropWhile_append, hnil, List.isEmpty_nil, if_pos rfl] at hc
      have hle := (List.dropWhile_suffix (l := z) fun c => decide (c ≠ '>')).length_le
      rw [hc, List.length_cons, List.length_append] at hle
      omega
    obtain ⟨d, ds, hd⟩ := List.exists_cons_of_ne_nil hne
    unfold readGroupName? at h ⊢
    rw [(front_append hne _).1, (front_append hne _).2, hd, List.cons_append] at h ⊢
    dsimp only at h ⊢
    generalize x.takeWhile (fun c => decide (c ≠ '>')) = text at h ⊢
    cases text with
    | nil => cases h
    | cons c r =>
      dsimp only at h ⊢
      split at h
      next hname =>
        obtain ⟨rfl, happ⟩ := Prod.mk.inj (Option.some.inj h)
        rw [if_pos hname, List.append_cancel_right happ]
      next => cases h

theorem local_readLazy : Local verbose mark fun cs => some (readLazy cs) := by
  refine .dispatch (k := '?') (by decide) (fun _ => rfl) (fun cs hcs => ?_) (.value true) (.value false)
  unfold readLazy
  split
  · exact absurd rfl hcs
  · rfl

/-- Flags in front of a group or for what follows. -/
def readFlagsHead? (fl : Flags) (cs : List Char) : Option (GroupHead × List Char) :=
  match readFlags? [] true fl cs with
  | some (inner, ')' :: rest) => if cs.head? = some ')' then none else some (.setFlags inner, rest)
  | some (inner, _ :: rest) => some (.group inner, rest)
  | _ => none

/-- A name in angle brackets, which no look-behind is. -/
def readNamedHead? : List Char → Option (GroupHead × List Char)
  | '=' :: _ => none
  | '!' :: _ => none
  | r => (readGroupName? r).map fun r => (.named r.1, r.2)

/-- What comes behind the question mark of a group. -/
def readMark? (fl : Flags) : List Char → Option (GroupHead × List Char)
  | '=' :: _ => none
  | '!' :: _ => none
  | '<' :: r => readNamedHead? r
  | 'P' :: '<' :: r => (readGroupName? r).map fun r => (.named r.1, r.2)
  | r => readFlagsHead? fl r

/-- The head of a group without blanks in front. -/
def readHead? (fl : Flags) : List Char → Option (GroupHead × List Char)
  | '?' :: r => readMark? fl r
  | r => some (.group fl, r)

/-- The head of a group is read behind blanks. -/
theorem readGroupHead?_eq (fl : Flags) (cs : List Char) : readGroupHead? fl cs = readHead? fl (fl.skip cs) := by
  rw [readGroupHead?]
  generalize fl.skip cs = text
  split
  next => rfl
  next => rfl
  next => rfl
  next => rfl
  next => rfl
  next hlook hlook' =>
    rw [readHead?, readMark?, readNamedHead?]
    · exact fun r heq => hlook r heq
    · exact fun r heq => hlook' r heq
  next h₁ h₂ _ _ h₅ h₆ =>
    rw [readHead?, readMark?]
    · rfl
    · exact fun r heq => h₁ r heq
    · exact fun r heq => h₂ r heq
    · exact fun r heq => h₆ r heq
    · exact fun r heq => h₅ r heq
  next hmark =>
    rw [readHead?]
    exact fun r heq => hmark r heq

theorem local_readFlagsHead? (fl : Flags) (c : Char) (mark : Option Char) :
    Local fl.verbose mark fun r => readFlagsHead? fl (c :: r) := by
  constructor
  · intro cs head r h
    have hsuffix : ∀ {d inner}, readFlags? [] true fl (c :: cs) = some (inner, d :: r) → r <:+ cs := by
      intro d inner hread
      rcases List.suffix_cons_iff.1 (readFlags?_suffix hread) with heq | hsuffix
      · rw [(List.cons.inj heq).2]
      · exact (List.suffix_cons d r).trans hsuffix
    unfold readFlagsHead? at h
    split at h
    next hread =>
      split at h
      · cases h
      · cases h
        exact hsuffix hread
    next hread =>
      cases h
      exact hsuffix hread
    next => cases h
  · intro x z z' head u hswap _ h
    have hcarry : ∀ {d inner}, readFlags? [] true fl (c :: (x ++ z)) = some (inner, d :: (u ++ z)) →
        readFlags? [] true fl (c :: (x ++ z')) = some (inner, d :: (u ++ z')) := by
      intro d inner hread
      exact readFlags?_carry (x := c :: x) (u := d :: u) (List.cons_ne_nil _ _) hread z'
    unfold readFlagsHead? at h ⊢
    split at h
    next hread =>
      split at h
      next => cases h
      next hclose =>
        cases h
        rw [hcarry hread]
        exact if_neg hclose
    next hclose hread =>
      cases h
      rw [hcarry hread]
      split
      next heq =>
        obtain ⟨-, hd, -⟩ := by simpa using heq
        exact (hclose hd).elim
      next heq =>
        obtain ⟨rfl, -, rfl⟩ := by simpa using heq
        rfl
      next hnone => exact absurd rfl (hnone _ _ _)
    next => cases h

section Heads

variable {verbose : Bool} {mark : Option Char}

theorem local_readNamed : Local verbose mark fun r => (readGroupName? r).map fun r => (GroupHead.named r.1, r.2) :=
  (local_readGroupName?).map GroupHead.named

theorem local_readNamedHead? : Local verbose mark readNamedHead? := by
  refine .dispatch (k := '=') (g := fun _ => none)
    (h := fun cs => if cs.head? = some '!' then none else (readGroupName? cs).map fun r => (GroupHead.named r.1, r.2))
    (by decide) (fun _ => rfl) (fun cs hcs => ?_) .fails ?_
  · unfold readNamedHead?
    split
    next => exact absurd rfl hcs
    next => rfl
    next hlook =>
      rw [if_neg]
      intro hmark
      obtain ⟨r, rfl⟩ := List.head?_eq_some_iff.1 hmark
      exact hlook r rfl
  · exact .dispatch (k := '!') (g := fun _ => none) (by decide) (fun _ => rfl) (fun cs hcs => if_neg hcs) .fails
      local_readNamed

/-- Behind most marks, flags are read. -/
theorem readMark?_eq_readFlagsHead? (fl : Flags) {c : Char} (hc : c ∉ ['=', '!', '<', 'P']) (r : List Char) :
    readMark? fl (c :: r) = readFlagsHead? fl (c :: r) := by
  simp only [List.mem_cons, List.not_mem_nil, or_false, not_or] at hc
  obtain ⟨hequal, hbang, hangle, hletter⟩ := hc
  unfold readMark?
  split
  next heq => exact absurd (List.cons.inj heq).1 hequal
  next heq => exact absurd (List.cons.inj heq).1 hbang
  next heq => exact absurd (List.cons.inj heq).1 hangle
  next heq => exact absurd (List.cons.inj heq).1 hletter
  next => rfl

/-- A `P` in front of no name is the first of the flags. -/
theorem readMark?_letter (fl : Flags) {cs : List Char} (hcs : cs.head? ≠ some '<') :
    readMark? fl ('P' :: cs) = readFlagsHead? fl ('P' :: cs) := by
  unfold readMark?
  split
  next heq => exact absurd (List.cons.inj heq).1 (by decide)
  next heq => exact absurd (List.cons.inj heq).1 (by decide)
  next heq => exact absurd (List.cons.inj heq).1 (by decide)
  next heq =>
    obtain ⟨-, rfl⟩ := List.cons.inj heq
    exact absurd rfl hcs
  next => rfl

theorem local_readMark? (fl : Flags) (mark : Option Char) : Local fl.verbose mark (readMark? fl) := by
  refine .of_cons rfl fun c => ?_
  by_cases hc : c ∈ ['=', '!', '<', 'P']
  · simp only [List.mem_cons, List.not_mem_nil, or_false] at hc
    rcases hc with rfl | rfl | rfl | rfl
    · exact .fails
    · exact .fails
    · exact local_readNamedHead?
    · exact .dispatch (k := '<') (by decide) (fun _ => rfl) (fun _ => readMark?_letter fl) local_readNamed
        (local_readFlagsHead? fl 'P' mark)
  · have hflags : (fun r => readMark? fl (c :: r)) = fun r => readFlagsHead? fl (c :: r) :=
      funext (readMark?_eq_readFlagsHead? fl hc)
    rw [hflags]
    exact local_readFlagsHead? fl c mark

theorem local_readHead? (fl : Flags) (mark : Option Char) : Local fl.verbose mark (readHead? fl) := by
  refine .dispatch (k := '?') (by decide) (fun _ => rfl) (fun cs hcs => ?_) (local_readMark? fl mark)
    (.value (.group fl))
  unfold readHead?
  split
  · exact absurd rfl hcs
  · rfl

end Heads

/-- How a parenthesis begins does not depend on what is behind its head. -/
theorem local_readGroupHead? (fl : Flags) (mark : Option Char) : Local fl.verbose mark (readGroupHead? fl) := by
  have hread := funext (readGroupHead?_eq fl)
  rw [hread]
  exact (local_readHead? fl mark).skipping

/-! ### The verbose notation -/

/-- The flags `fl` turn into `fl'` between `cs` and what is left of it: the verbose notation is on in the end only if
it is on at first or its flag is read. -/
def Flags.LeadsTo (fl fl' : Flags) (cs r : List Char) : Prop :=
  fl'.verbose = true → fl.verbose = true ∨ ∃ y, 'x' :: y <:+ cs ∧ r <:+ y

/-- The flags that a text leads to, a longer text leads to. -/
theorem Flags.LeadsTo.of_suffix {fl' : Flags} {cs' : List Char} (h : fl.LeadsTo fl' cs r) (hcs : cs <:+ cs') :
    fl.LeadsTo fl' cs' r := fun hverbose =>
  (h hverbose).imp_right fun ⟨y, hy, hr⟩ => ⟨y, hy.trans hcs, hr⟩

/-- One stop can still stand in place of another when the flags have changed. -/
theorem Flags.LeadsTo.swap {fl' : Flags} (h : fl.LeadsTo fl' (x ++ z) (u ++ z)) (hswap : Swap fl.verbose z z' x)
    (hu : u <:+ x) : Swap fl'.verbose z z' u where
  stop := hswap.stop
  stop' := hswap.stop'
  comments hz hz' := by
    have hcomments := hswap.comments hz hz'
    subst hz
    cases hverbose : fl'.verbose with
    | false => exact (hcomments.of_suffix hu).plain
    | true =>
      rcases h hverbose with hfirst | ⟨y, hy, hr⟩
      · rw [hfirst] at hcomments
        exact hcomments.of_suffix hu
      · rw [List.append_nil] at hy hr
        exact (hcomments.of_suffix hy).behind.of_suffix hr

/-- Only `x` turns the verbose notation on or off. -/
theorem Flags.set?_verbose {c : Char} {on : Bool} {fl' : Flags} (h : fl.set? c on = some fl') (hc : c ≠ 'x') :
    fl'.verbose = fl.verbose := by
  unfold Flags.set? at h
  split at h
  all_goals first
    | exact absurd rfl hc
    | cases h
  all_goals rfl

/-- Flags that are read change the verbose notation only where they have an `x`. -/
theorem readFlags?_leadsTo {seen : List Char} {on : Bool} {fl' : Flags} (h : readFlags? seen on fl cs = some (fl', r)) :
    fl.LeadsTo fl' cs r := by
  induction cs generalizing seen on fl with
  | nil => cases h
  | cons c cs ih =>
    rw [readFlags?] at h
    split at h
    · split at h
      · cases h
      · cases h
        exact .inl
    · split at h
      · cases h
      · split at h
        · exact (ih h).of_suffix (List.suffix_cons c cs)
        · obtain ⟨fl₁, hset, h⟩ := Option.bind_eq_some_iff.1 h
          intro hverbose
          by_cases hc : c = 'x'
          · subst hc
            exact .inr ⟨cs, List.suffix_rfl, readFlags?_suffix h⟩
          · rw [← fl.set?_verbose hset hc]
            exact (ih h).of_suffix (List.suffix_cons c cs) hverbose

/-- The flags behind the head of a group. -/
def GroupHead.flags (fl : Flags) : GroupHead → Flags
  | .group inner => inner
  | .named _ => fl
  | .setFlags inner => inner

theorem readFlagsHead?_leadsTo {head : GroupHead} (h : readFlagsHead? fl cs = some (head, r)) :
    fl.LeadsTo (head.flags fl) cs r := by
  have hnext : ∀ {d inner}, readFlags? [] true fl cs = some (inner, d :: r) → fl.LeadsTo inner cs r := by
    intro d inner hread hverbose
    exact (readFlags?_leadsTo hread hverbose).imp_right fun ⟨y, hy, hr⟩ => ⟨y, hy, (List.suffix_cons d r).trans hr⟩
  unfold readFlagsHead? at h
  split at h
  next hread =>
    split at h
    · cases h
    · cases h
      exact hnext hread
  next hread =>
    cases h
    exact hnext hread
  next => cases h

/-- So do the flags at the head of a group. -/
theorem readGroupHead?_leadsTo {head : GroupHead} (h : readGroupHead? fl cs = some (head, r)) :
    fl.LeadsTo (head.flags fl) cs r := by
  have hnamed : ∀ {cs}, ((readGroupName? cs).map fun r => (GroupHead.named r.1, r.2)) = some (head, r) →
      head.flags fl = fl := by
    intro cs h
    obtain ⟨name, -, heq⟩ := Option.map_eq_some_iff.1 h
    rw [← (Prod.mk.inj heq).1]
    rfl
  have hmark : ∀ {cs}, readMark? fl cs = some (head, r) →
      head.flags fl = fl ∨ readFlagsHead? fl cs = some (head, r) := by
    intro cs h
    unfold readMark? at h
    split at h
    next => cases h
    next => cases h
    next =>
      unfold readNamedHead? at h
      split at h
      next => cases h
      next => cases h
      next => exact .inl (hnamed h)
    next => exact .inl (hnamed h)
    next => exact .inr h
  rw [readGroupHead?_eq] at h
  refine Flags.LeadsTo.of_suffix ?_ (fl.skip_suffix cs)
  generalize fl.skip cs = text at h ⊢
  unfold readHead? at h
  split at h
  next text =>
    rcases hmark h with hflags | hread
    · rw [hflags]
      exact .inl
    · exact (readFlagsHead?_leadsTo hread).of_suffix (List.suffix_cons '?' text)
  next =>
    cases h
    exact .inl

end Grammarian.Pattern
