import Mathlib.Data.List.Infix
import Grammarian.Pattern.Reader

/-!
# Local readers

A reader takes a front part of a text and leaves the rest. It is local when what it takes means the same whatever
comes behind, as far as the end of an expression goes: nothing at all, or a closing parenthesis. The readers of
blanks, counts and escapes are local, the one of a word boundary up to an exception. In the verbose notation this
needs that no comment runs on into what comes behind.
-/

namespace Grammarian.Pattern

open Text

/-- What may come behind an expression: nothing, or a closing parenthesis first. -/
def IsStop (z : List Char) : Prop := ∀ c ∈ z.head?, c = ')'

/-- Every comment of the text ends within it, also the one that it begins in. In the verbose notation every `#` may
begin a comment, otherwise only one behind the flag that turns the verbose notation on. -/
structure EndsComments (verbose inComment : Bool) (x : List Char) : Prop where
  first : inComment = true → '\n' ∈ x
  later : ∀ a b, x = a ++ '#' :: b → verbose = true ∨ 'x' ∈ a → '\n' ∈ b

/-- Behind the text `x` one stop can stand in place of another. -/
structure Swap (verbose : Bool) (z z' x : List Char) : Prop where
  stop : IsStop z
  stop' : IsStop z'
  /-- a comment that nothing ends must not go on -/
  comments : z = [] → z' ≠ [] → EndsComments verbose false x

section Swaps

variable {x u z z' r : List Char} {c : Char} {verbose inComment : Bool}

theorem isStop_nil : IsStop [] := nofun

theorem isStop_cons (r : List Char) : IsStop (')' :: r) := by
  rintro c hc
  exact (Option.some.inj hc).symm

/-- What stops a reader is the end of the text, or a closing parenthesis. -/
theorem IsStop.cases (h : IsStop z) : z = [] ∨ ∃ r, z = ')' :: r := by
  cases z with
  | nil => exact .inl rfl
  | cons c r =>
    obtain rfl := h c rfl
    exact .inr ⟨r, rfl⟩

theorem IsStop.head?_ne (h : IsStop z) (hc : c ≠ ')') : z.head? ≠ some c := fun hz => hc (h c hz)

theorem IsStop.dropWhile_isSpace (h : IsStop z) : z.dropWhile isSpace = z := by
  rcases h.cases with rfl | ⟨r, rfl⟩
  · rfl
  · exact List.dropWhile_cons_of_neg (by decide)

/-- In a comment, the rest ends its comments as long as the line has not ended. -/
theorem EndsComments.inside (h : EndsComments verbose true (c :: x)) : EndsComments verbose (c ≠ '\n') x where
  first hc := by
    have hmem := h.first rfl
    simp only [ne_eq, decide_eq_true_eq] at hc
    exact (List.mem_cons.1 hmem).resolve_left fun heq => hc heq.symm
  later a b hb ha := h.later (c :: a) b (by rw [hb, List.cons_append]) (ha.imp_right (List.mem_cons_of_mem c))

/-- An end of the text ends its comments, where it begins outside of one. -/
theorem EndsComments.of_suffix (h : EndsComments verbose inComment x) (hu : u <:+ x) :
    EndsComments verbose false u where
  first := nofun
  later a b hb ha := by
    obtain ⟨front, rfl⟩ := hu
    exact h.later (front ++ a) b (by rw [hb, List.append_assoc]) (ha.imp_right (List.mem_append_right front))

theorem EndsComments.tail (h : EndsComments verbose inComment (c :: x)) : EndsComments verbose false x :=
  h.of_suffix (List.suffix_cons c x)

theorem EndsComments.opened (h : EndsComments true inComment ('#' :: x)) : EndsComments true true x where
  first _ := h.later [] x rfl (.inl rfl)
  later := h.tail.later

/-- Where comments end, they end in the plain notation, which has none. -/
theorem EndsComments.plain (h : EndsComments verbose inComment x) : EndsComments false inComment x where
  first := h.first
  later a b hb ha := h.later a b hb (.inr (ha.resolve_left Bool.false_ne_true))

/-- Behind the flag, the verbose notation is accounted for. -/
theorem EndsComments.behind (h : EndsComments verbose inComment ('x' :: x)) : EndsComments true false x where
  first := nofun
  later a b hb _ := h.later ('x' :: a) b (by rw [hb, List.cons_append]) (.inr List.mem_cons_self)

theorem Swap.of_suffix (h : Swap verbose z z' x) (hu : u <:+ x) : Swap verbose z z' u where
  stop := h.stop
  stop' := h.stop'
  comments hz hz' := (h.comments hz hz').of_suffix hu

/-- What lies between two texts that end alike ends so too. -/
theorem exists_of_between (h : u ++ z <:+ r) (h' : r <:+ x ++ z) : ∃ w, r = w ++ z ∧ u <:+ w ∧ w <:+ x := by
  obtain ⟨a, rfl⟩ := h
  obtain ⟨b, hb⟩ := h'
  refine ⟨a ++ u, (List.append_assoc a u z).symm, List.suffix_append a u, b, ?_⟩
  have happ : b ++ (a ++ u) ++ z = x ++ z := by rw [← hb, List.append_assoc, List.append_assoc]
  exact List.append_cancel_right happ

/-- A text is no end of a shorter one. -/
theorem not_append_suffix_of_lt (hlt : r.length < z.length) : ¬ u ++ z <:+ r := by
  intro h
  have hle := h.length_le
  rw [List.length_append] at hle
  omega

/-- A front run that ends within `x` ends there whatever comes behind. -/
theorem front_append {q : Char → Bool} (h : x.dropWhile q ≠ []) (z : List Char) :
    (x ++ z).takeWhile q = x.takeWhile q ∧ (x ++ z).dropWhile q = x.dropWhile q ++ z := by
  have hdrop : (x ++ z).dropWhile q = x.dropWhile q ++ z := by rw [List.dropWhile_append, if_neg (by simpa using h)]
  have hsplit : (x ++ z).takeWhile q ++ (x.dropWhile q ++ z) = x.takeWhile q ++ (x.dropWhile q ++ z) := by
    rw [← hdrop, List.takeWhile_append_dropWhile, hdrop, ← List.append_assoc, List.takeWhile_append_dropWhile]
  exact ⟨List.append_cancel_right hsplit, hdrop⟩

end Swaps

/-- The reader leaves a suffix of its text, and takes a front part alike whichever stop comes behind what it leaves
of it. If a mark is given, this need only hold where the mark is left to be read. -/
structure Local {α : Type} (verbose : Bool) (mark : Option Char) (f : List Char → Option (α × List Char)) :
    Prop where
  suffix : ∀ {cs : List Char} {a : α} {r : List Char}, f cs = some (a, r) → r <:+ cs
  carry : ∀ {x z z' : List Char} {a : α} {u : List Char}, Swap verbose z z' x → (∀ c ∈ mark, c ∈ u) →
    f (x ++ z) = some (a, u ++ z) → f (x ++ z') = some (a, u ++ z')

namespace Local

variable {α β : Type} {verbose : Bool} {mark : Option Char} {f : List Char → Option (α × List Char)}

theorem fails : Local verbose mark fun _ => (none : Option (α × List Char)) := ⟨nofun, nofun⟩

theorem value (a : α) : Local verbose mark fun cs => some (a, cs) where
  suffix h := by
    obtain ⟨-, rfl⟩ := Prod.mk.inj (Option.some.inj h)
    exact List.suffix_rfl
  carry _ _ h := by
    obtain ⟨rfl, happ⟩ := Prod.mk.inj (Option.some.inj h)
    rw [List.append_cancel_right happ]

/-- A local reader in front of another one that leaves `u` in front of the stop. -/
theorem split {x z z' u r : List Char} {a : α} (hf : Local verbose mark f) (hswap : Swap verbose z z' x)
    (hmark : ∀ c ∈ mark, c ∈ u) (hr : f (x ++ z) = some (a, r)) (hu : u ++ z <:+ r) :
    ∃ w, r = w ++ z ∧ u <:+ w ∧ w <:+ x ∧ f (x ++ z') = some (a, w ++ z') := by
  obtain ⟨w, rfl, huw, hwx⟩ := exists_of_between hu (hf.suffix hr)
  exact ⟨w, rfl, huw, hwx, hf.carry hswap (fun c hc => huw.subset (hmark c hc)) hr⟩

/-- One local reader after another. -/
theorem bind {g : α → List Char → Option (β × List Char)} (hf : Local verbose mark f)
    (hg : ∀ a, Local verbose mark (g a)) : Local verbose mark fun cs => (f cs).bind fun r => g r.1 r.2 where
  suffix h := by
    obtain ⟨⟨a, r⟩, hr, hb⟩ := Option.bind_eq_some_iff.1 h
    exact ((hg a).suffix hb).trans (hf.suffix hr)
  carry hswap hmark h := by
    obtain ⟨⟨a, r⟩, hr, hb⟩ := Option.bind_eq_some_iff.1 h
    obtain ⟨w, rfl, -, hw, hread⟩ := hf.split hswap hmark hr ((hg a).suffix hb)
    rw [hread]
    exact (hg a).carry (hswap.of_suffix hw) hmark hb

/-- A reader stays local when its value is used or refused. -/
theorem filterMap (hf : Local verbose mark f) (g : α → Option β) :
    Local verbose mark fun cs => (f cs).bind fun r => (g r.1).map (·, r.2) := by
  refine hf.bind (g := fun a cs => (g a).map (·, cs)) fun a => ?_
  cases g a with
  | none => exact fails
  | some b => exact value b

theorem map (hf : Local verbose mark f) (g : α → β) :
    Local verbose mark fun cs => (f cs).map fun r => (g r.1, r.2) := by
  have heq : (fun cs => (f cs).map fun r => (g r.1, r.2)) =
      fun cs => (f cs).bind fun r => (some (g r.1)).map (·, r.2) := by
    funext cs
    cases f cs with
    | none => rfl
    | some r => rfl
  rw [heq]
  exact hf.filterMap fun a => some (g a)

/-- A reader that begins with one character. -/
theorem of_cons (hnil : f [] = none) (hcons : ∀ c, Local verbose mark fun r => f (c :: r)) :
    Local verbose mark f where
  suffix := by
    intro cs a r h
    cases cs with
    | nil => exact absurd h (by simp [hnil])
    | cons c cs => exact ((hcons c).suffix h).trans (List.suffix_cons c cs)
  carry := by
    intro x z z' a u hswap hmark h
    cases x with
    | nil =>
      rcases hswap.stop.cases with rfl | ⟨r, rfl⟩
      · exact absurd h (by simp [hnil])
      · exact absurd ((hcons ')').suffix h) (not_append_suffix_of_lt (Nat.lt_succ_self _))
    | cons c x => exact (hcons c).carry (hswap.of_suffix (List.suffix_cons c x)) hmark h

/-- A reader that goes one way behind a certain character, and another way without it. -/
theorem dispatch {g h : List Char → Option (α × List Char)} {k : Char} (hk : k ≠ ')')
    (hfk : ∀ r, f (k :: r) = g r) (hf : ∀ cs, cs.head? ≠ some k → f cs = h cs) (hg : Local verbose mark g)
    (hh : Local verbose mark h) : Local verbose mark f where
  suffix := by
    intro cs a r hr
    by_cases hcs : cs.head? = some k
    · obtain ⟨cs, rfl⟩ := List.head?_eq_some_iff.1 hcs
      rw [hfk] at hr
      exact (hg.suffix hr).trans (List.suffix_cons k cs)
    · rw [hf cs hcs] at hr
      exact hh.suffix hr
  carry := by
    intro x z z' a u hswap hmark hr
    by_cases hx : x.head? = some k
    · obtain ⟨x, rfl⟩ := List.head?_eq_some_iff.1 hx
      rw [List.cons_append, hfk] at hr ⊢
      exact hg.carry (hswap.of_suffix (List.suffix_cons k x)) hmark hr
    · have hne : ∀ {z}, IsStop z → (x ++ z).head? ≠ some k := by
        intro z hz
        cases x with
        | nil => exact hz.head?_ne hk
        | cons c x => exact hx
      rw [hf _ (hne hswap.stop)] at hr
      rw [hf _ (hne hswap.stop')]
      exact hh.carry hswap hmark hr

end Local

/-! ## Blanks -/

/-- The characters of a kind at the front, and what comes behind; the verbose notation allows blanks and comments
among them. -/
def gather (keep : Char → Bool) (verbose inComment : Bool) : List Char → List Char × List Char
  | [] => ([], [])
  | c :: cs =>
    if inComment then gather keep verbose (c ≠ '\n') cs
    else if keep c then
      let (ds, r) := gather keep verbose false cs
      (c :: ds, r)
    else if verbose ∧ isSpace c then gather keep verbose false cs
    else if verbose ∧ c = '#' then gather keep verbose true cs
    else ([], c :: cs)

section Gather

variable {keep : Char → Bool} {verbose inComment : Bool} {cs x z z' u ds : List Char}

/-- Digits are gathered. -/
theorem readDigits_eq_gather (verbose inComment : Bool) (cs : List Char) :
    readDigits verbose inComment cs = gather isAsciiDigit verbose inComment cs := by
  induction cs generalizing inComment with
  | nil => rfl
  | cons c cs ih => simp only [readDigits, gather, ih]

/-- So is the name of a boundary. -/
theorem readBoundaryName_eq_gather (verbose inComment : Bool) (cs : List Char) :
    readBoundaryName verbose inComment cs = gather isBoundaryChar verbose inComment cs := by
  induction cs generalizing inComment with
  | nil => rfl
  | cons c cs ih => simp only [readBoundaryName, gather, ih]

/-- Blanks are skipped by gathering nothing. -/
theorem skipBlanks_eq_gather (inComment : Bool) (cs : List Char) :
    skipBlanks inComment cs = (gather (fun _ => false) true inComment cs).2 := by
  induction cs generalizing inComment with
  | nil => rfl
  | cons c cs ih =>
    simp only [skipBlanks, gather, ih, true_and, Bool.false_eq_true, if_false]
    split
    · rfl
    · split
      · rfl
      · split
        · rfl
        · rfl

/-- What is gathered is taken from the front. -/
theorem gather_suffix (keep : Char → Bool) (verbose inComment : Bool) (cs : List Char) :
    (gather keep verbose inComment cs).2 <:+ cs := by
  induction cs generalizing inComment with
  | nil => exact List.suffix_rfl
  | cons c cs ih =>
    have htail : ∀ inComment, (gather keep verbose inComment cs).2 <:+ c :: cs := fun inComment =>
      (ih inComment).trans (List.suffix_cons c cs)
    unfold gather
    split
    · exact htail _
    · split
      · exact htail _
      · split
        · exact htail _
        · split
          · exact htail _
          · exact List.suffix_rfl

/-- Gathering stops in front of a stop. -/
theorem gather_stop (hkeep : keep ')' = false) (hz : IsStop z) : gather keep verbose false z = ([], z) := by
  rcases hz.cases with rfl | ⟨r, rfl⟩
  · rfl
  · have hspace : isSpace ')' = false := by decide
    simp [gather, hkeep, hspace]

/-- Where nothing but a stop is left. A comment goes past a parenthesis, so it leaves none behind. -/
theorem gather_carry_stop (hkeep : keep ')' = false) (hz : IsStop z) (hz' : IsStop z')
    (hcomments : z = [] → z' ≠ [] → EndsComments verbose inComment [])
    (h : gather keep verbose inComment z = (ds, u ++ z)) : gather keep verbose inComment z' = (ds, u ++ z') := by
  cases inComment with
  | false =>
    rw [gather_stop hkeep hz, Prod.mk.injEq] at h
    obtain ⟨rfl, happ⟩ := h
    obtain rfl : u = [] := by simpa using happ
    exact gather_stop hkeep hz'
  | true =>
    rcases hz.cases with rfl | ⟨r, rfl⟩
    · by_cases hz' : z' = []
      · rw [hz']
        exact h
      · exact absurd ((hcomments rfl hz').first rfl) List.not_mem_nil
    · have hsuffix := gather_suffix keep verbose (decide (')' ≠ '\n')) r
      have hrest : (gather keep verbose (decide (')' ≠ '\n')) r).2 = u ++ ')' :: r := congrArg Prod.snd h
      rw [hrest] at hsuffix
      exact absurd hsuffix (not_append_suffix_of_lt (Nat.lt_succ_self _))

/-- The induction is on the text; `inComment` tells whether it begins in a comment. -/
theorem gather_carry (hkeep : keep ')' = false) (hz : IsStop z) (hz' : IsStop z')
    (hcomments : z = [] → z' ≠ [] → EndsComments verbose inComment x)
    (h : gather keep verbose inComment (x ++ z) = (ds, u ++ z)) :
    gather keep verbose inComment (x ++ z') = (ds, u ++ z') := by
  induction x generalizing inComment ds with
  | nil => exact gather_carry_stop hkeep hz hz' hcomments h
  | cons c x ih =>
    rw [List.cons_append, gather] at h ⊢
    split at h
    next hin =>
      rw [if_pos hin]
      subst hin
      exact ih (fun h h' => (hcomments h h').inside) h
    next hin =>
      rw [if_neg hin]
      have htail := fun h h' => (hcomments h h').tail
      split at h
      next hc =>
        rw [if_pos hc]
        obtain ⟨rfl, hrest⟩ := Prod.mk.inj h
        have hread : gather keep verbose false (x ++ z) = ((gather keep verbose false (x ++ z)).1, u ++ z) :=
          Prod.ext rfl hrest
        rw [ih htail hread]
      next hc =>
        rw [if_neg hc]
        split at h
        next hspace =>
          rw [if_pos hspace]
          exact ih htail h
        next hspace =>
          rw [if_neg hspace]
          split at h
          next hhash =>
            rw [if_pos hhash]
            obtain ⟨rfl, rfl⟩ := hhash
            exact ih (fun h h' => (hcomments h h').opened) h
          next hhash =>
            rw [if_neg hhash]
            obtain ⟨rfl, happ⟩ := Prod.mk.inj h
            rw [← List.cons_append] at happ
            rw [← List.append_cancel_right happ, List.cons_append]

/-- Characters are gathered alike before another text, if a closing parenthesis is not among them. -/
theorem local_gather (hkeep : keep ')' = false) (verbose : Bool) (mark : Option Char) :
    Local verbose mark fun cs => some (gather keep verbose false cs) where
  suffix {cs _ _} h := by
    have hsuffix := gather_suffix keep verbose false cs
    rw [Option.some.inj h] at hsuffix
    exact hsuffix
  carry hswap _ h := congrArg some (gather_carry hkeep hswap.stop hswap.stop' hswap.comments (Option.some.inj h))

end Gather

namespace Flags

variable {fl : Flags} {cs x z z' u : List Char}

/-- Blanks are skipped alike before another text. -/
theorem local_skip (fl : Flags) (mark : Option Char) : Local fl.verbose mark fun cs => some ((), fl.skip cs) := by
  cases hverbose : fl.verbose with
  | false =>
    have hskip : (fun cs => some ((), fl.skip cs)) = fun cs => some ((), cs) := by simp [skip, hverbose]
    rw [hskip]
    exact .value ()
  | true =>
    have hskip : (fun cs => some ((), fl.skip cs)) =
        fun cs => (some (gather (fun _ => false) true false cs)).map fun r => ((), r.2) := by
      funext cs
      simp [skip, hverbose, skipBlanks_eq_gather]
    rw [hskip]
    exact (local_gather rfl true mark).map fun _ => ()

theorem skip_suffix (fl : Flags) (cs : List Char) : fl.skip cs <:+ cs := (fl.local_skip none).suffix rfl

theorem skip_carry (hswap : Swap fl.verbose z z' x) (h : fl.skip (x ++ z) = u ++ z) : fl.skip (x ++ z') = u ++ z' := by
  have hcarry := (fl.local_skip none).carry (a := ()) (u := u) hswap nofun (congrArg (fun r => some ((), r)) h)
  exact congrArg Prod.snd (Option.some.inj hcarry)

/-- Blanks in front of a text that leaves `u` in front of the stop. -/
theorem skip_split (hswap : Swap fl.verbose z z' x) (hu : u ++ z <:+ fl.skip (x ++ z)) :
    ∃ w, fl.skip (x ++ z) = w ++ z ∧ u <:+ w ∧ w <:+ x ∧ fl.skip (x ++ z') = w ++ z' := by
  obtain ⟨w, hw, huw, hwx, hread⟩ := (fl.local_skip none).split (a := ()) hswap nofun rfl hu
  exact ⟨w, hw, huw, hwx, congrArg Prod.snd (Option.some.inj hread)⟩

/-- A character that is neither blank nor the sign of a comment is not skipped. -/
theorem skip_cons {c : Char} (hspace : isSpace c = false) (hhash : c ≠ '#') (cs : List Char) :
    fl.skip (c :: cs) = c :: cs := by
  unfold skip
  split
  · rw [skipBlanks, if_neg Bool.false_ne_true, if_neg (by rw [hspace]; exact Bool.false_ne_true), if_neg hhash]
  · rfl

/-- What is left once blanks are left out does not begin with one. -/
theorem skip_skip (fl : Flags) (cs : List Char) : fl.skip (fl.skip cs) = fl.skip cs := by
  have hblanks : ∀ inComment, skipBlanks false (skipBlanks inComment cs) = skipBlanks inComment cs := by
    induction cs with
    | nil => exact fun _ => rfl
    | cons c cs ih =>
      intro inComment
      rw [skipBlanks]
      split
      · exact ih _
      · split
        · exact ih _
        · split
          · exact ih _
          next hspace hhash => rw [skipBlanks, if_neg Bool.false_ne_true, if_neg hspace, if_neg hhash]
  unfold skip
  split
  · exact hblanks false
  · rfl

end Flags

namespace Local

variable {α : Type} {verbose : Bool} {mark : Option Char} {f : List Char → Option (α × List Char)}

/-- A local reader behind blanks. -/
theorem skipping {fl : Flags} (h : Local fl.verbose mark f) : Local fl.verbose mark fun cs => f (fl.skip cs) :=
  (fl.local_skip mark).bind fun _ => h

/-- A reader stays local behind blanks. -/
theorem dropping (h : Local verbose mark f) : Local verbose mark fun cs => f (cs.dropWhile isSpace) := by
  have hdrop : Local verbose mark fun cs : List Char => some ((), cs.dropWhile isSpace) := by
    constructor
    · intro cs a r h
      obtain ⟨-, rfl⟩ := Prod.mk.inj (Option.some.inj h)
      exact List.dropWhile_suffix _
    · intro x z z' a u hswap _ h
      have hdrop : ∀ {z : List Char}, IsStop z → (x ++ z).dropWhile isSpace = x.dropWhile isSpace ++ z := by
        intro z hz
        rw [List.dropWhile_append, hz.dropWhile_isSpace]
        split
        next hnil => rw [List.isEmpty_iff.1 hnil, List.nil_append]
        next => rfl
      obtain ⟨-, hrest⟩ := Prod.mk.inj (Option.some.inj h)
      rw [hdrop hswap.stop] at hrest
      rw [hdrop hswap.stop', List.append_cancel_right hrest]
  exact hdrop.bind fun _ => h

end Local

end Grammarian.Pattern
