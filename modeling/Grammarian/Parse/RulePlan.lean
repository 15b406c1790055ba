import Grammarian.Grammar.Table
import Grammarian.Parse.Plan
import Grammarian.Tree.Node

/-!
# How a rule matches

The plan of a rule tries its alternatives in order and takes the first whose phases all succeed. Only
rules, the end of the input, white space and syntax errors make nodes; literals and patterns add text.
An alternative is left when a phase fails, with these exceptions: an optional phase, or a repeated one
after its first match, may fail; a committed alternative records a syntax error and takes the rest of
the input; and a rule with a recovery target may skip input to where the target matches.
-/

namespace Grammarian

/-- How a target matched. -/
inductive Hit where
  /-- the empty literal, which adds nothing -/
  | nothing
  /-- a terminal, up to `rest` -/
  | text (rest : List Char)
  | node (m : Match)

/-- The node for the end of the input. -/
def Match.endOfInput : Match :=
  { draft := { kind := Grammarian.endOfInput, left := 0, after := 0 }, dissolves := false, rest := [] }

/-- The node for the input from `input` to `rest` that no rule accounts for. -/
def Draft.ofFault (fault : Fault) (input rest : List Char) : Draft :=
  { kind := syntaxError, fault := some fault, left := input.length, after := rest.length }

/-- How a target matches at the front of `input`. -/
def Target.plan (target : Target) (input : List Char) : Plan (Option Hit) :=
  match target with
  | .rule name => .ask name input fun answer => .done (answer.map .node)
  | .endOfInput => .done (if input.isEmpty then some (.node .endOfInput) else none)
  | .literal value =>
    .done (if value.isEmpty then some .nothing else (value.isPrefixOf? input).map .text)
  | .pattern p => .done ((p.match? input).map .text)

/-- A node under construction. -/
structure Growth where
  children : List Draft := []
  /-- the input not yet consumed -/
  rest : List Char
  /-- whether the alternative is committed -/
  pinned : Bool := false
  /-- whether a phase has matched -/
  started : Bool := false

namespace Growth

/-- The growth once a match is made part of it. -/
def add (g : Growth) (m : Match) : Growth :=
  { g with children := g.children ++ m.additions, rest := m.rest }

end Growth

/-- Takes up white space as long as the rule for it matches and consumes something. -/
def skipWhitespace (whitespace : String) (g : Growth) : Plan Growth :=
  if g.rest.isEmpty then .done g
  else .ask whitespace g.rest fun answer =>
    match answer with
    | some m =>
      if m.rest.length < g.rest.length then skipWhitespace whitespace (g.add m) else .done g
    | none => .done g
termination_by g.rest.length
decreasing_by simpa [Growth.add]

/-- The fixed surroundings of the phases of one call of a rule. -/
structure Scene where
  rule : Rule
  /-- the name of the white-space rule -/
  whitespace : String
  /-- the depth of the call -/
  depth : Nat

namespace Scene

/-- How a target matches at the cursor; where the rule allows white space, once more behind it. -/
def reach (s : Scene) (target : Target) (g : Growth) : Plan (Growth × Option Hit) :=
  (target.plan g.rest).bind fun got =>
    match got with
    | some hit => .done (g, some hit)
    | none =>
      if s.rule.skipsWhitespace then
        (skipWhitespace s.whitespace g).bind fun g =>
          (target.plan g.rest).bind fun got => .done (g, got)
      else .done (g, none)

/-- The first suffix of `input` at which `target` matches, `input` itself and the empty one included. -/
def resumption (target : String) : List Char → Plan (Option (List Char))
  | [] => .ask target [] fun answer => .done (if answer.isSome then some [] else none)
  | c :: cs => .ask target (c :: cs) fun answer =>
    if answer.isSome then .done (some (c :: cs)) else resumption target cs

/-- Skips input to where the recovery target of the rule matches. There is nothing to recover from when
the target matches already. -/
def recover (s : Scene) (input : List Char) : Plan (Option Match) :=
  match s.rule.recoverTo, input with
  | some target, c :: cs => .ask target (c :: cs) fun answer =>
    if answer.isSome then .done none
    else .report (.recovering s.rule.name target (s.depth + 1)) <|
      (resumption target cs).bind fun found =>
        match found with
        | none => .done none
        | some rest =>
          .report (.recovered s.rule.name (consumed input rest) (s.depth + 1)) <|
            .done (some ⟨.ofFault (.skipped s.rule.name) input rest, false, rest⟩)
  | _, _ => .done none

/-- How a phase ends. -/
inductive PhaseEnd where
  | next (g : Growth)
  /-- the alternative ends here, with all input taken -/
  | stop (g : Growth)
  | fail

/-- Whether a match of phase `number` commits the alternative. -/
def pins (s : Scene) (number : Nat) (phase : Phase) : Bool :=
  phase.reference.pin || s.rule.pinAt = some number

/-- Commits the alternative, if the phase does so and it is not committed yet. -/
def commit (s : Scene) (number : Nat) (phase : Phase) (g : Growth) : Plan Growth :=
  if s.pins number phase && !g.pinned then
    .report (.pinned s.rule.name number s.depth) (.done { g with pinned := true })
  else .done g

/-- The growth after a hit, and whether the phase may go on: what is looked ahead at is not added. -/
def take (phase : Phase) (g : Growth) : Hit → Growth × Bool
  | .nothing => ({ g with started := true }, false)
  | .text rest =>
    if phase.reference.isPositive then ({ g with started := true }, false)
    else
      ({ g with started := true, rest },
        phase.reference.repeats && !rest.isEmpty && rest.length < g.rest.length)
  | .node m =>
    if phase.reference.isPositive then ({ g with started := true }, false)
    else
      ({ g.add m with started := true },
        phase.reference.repeats && !m.rest.isEmpty && m.rest.length < g.rest.length)

/-- The end of a committed alternative that cannot go on: the rest of the input is a syntax error. -/
def breakOff (phase : Phase) (g : Growth) : Growth :=
  { g with
    children := g.children ++ [.ofFault (.missing phase.reference.name) g.rest []]
    rest := []
    started := true }

/-- Matches a phase, as often as it repeats. `again` tells that it has matched before. -/
def phase (s : Scene) (number : Nat) (ph : Phase) (again : Bool) (g : Growth) : Plan PhaseEnd :=
  (s.reach ph.target g).bind fun (g', got) =>
    if ph.reference.isNegative then
      .done (if got.isSome then .fail else .next g')
    else
      let goOn (g' : Growth) (hit : Hit) : Plan PhaseEnd :=
        let (g'', more) := take ph g' hit
        if more && g''.rest.length < g.rest.length then s.phase number ph true g''
        else .done (.next g'')
      match got with
      | some hit => (s.commit number ph g').bind fun g' => goOn g' hit
      | none =>
        if ph.reference.isPositive then .done .fail
        else if ph.reference.isOptional then .done (.next g')
        else if ph.reference.repeats && again then .done (.next g')
        else if g'.pinned then
          .report (.syntaxError s.rule.name ph.reference.name s.depth)
            (.done (.stop (breakOff ph g')))
        else (s.recover g'.rest).bind fun recovered =>
          match recovered with
          | some m => goOn g' (.node m)
          | none => .done .fail
termination_by g.rest.length
decreasing_by all_goals simp_all

/-- Matches the phases of an alternative one after another, `number` being that of the first. -/
def phases (s : Scene) (number : Nat) (g : Growth) : List Phase → Plan (Option Growth)
  | [] => .done (some g)
  | ph :: phs => (s.phase number ph false g).bind fun e =>
    match e with
    | .next g => s.phases (number + 1) g phs
    | .stop g => .done (some g)
    | .fail => .done none

/-- Matches an alternative. One in which no phase matched anything does not count. -/
def alternative (s : Scene) (input : List Char) (phs : List Phase) : Plan (Option Match) :=
  (s.phases 1 { rest := input } phs).bind fun g =>
    match g with
    | none => .done none
    | some g => .done <|
      if g.started then
        some
          { draft :=
              { kind := s.rule.name, left := input.length, after := g.rest.length,
                children := g.children }
            dissolves := s.rule.fragment
            rest := g.rest }
      else none

/-- The first alternative that matches. -/
def alternatives (s : Scene) (input : List Char) : List (List Phase) → Plan (Option Match)
  | [] => .done none
  | phs :: more => (s.alternative input phs).bind fun m =>
    match m with
    | some m => .done (some m)
    | none => s.alternatives input more

end Scene

/-- The match with its only child in place of the node, where the rule asks for that. -/
def Rule.collapse (r : Rule) (m : Match) : Match :=
  if r.collapseSingleChild then
    match m.draft.children with
    | [child] => { m with draft := child, dissolves := false }
    | _ => m
  else m

/-- How a rule of the table matches at the front of `input`, at a depth. -/
def Table.Entry.plan (e : Table.Entry) (whitespace : String) (depth : Nat) (input : List Char) :
    Plan (Option Match) :=
  (Scene.alternatives ⟨e.rule, whitespace, depth⟩ input e.alternatives).bind fun m =>
    .done (m.map e.rule.collapse)

end Grammarian
