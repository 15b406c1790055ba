import Grammarian.Proofs.Parse.Lookahead
import Grammarian.Proofs.Parse.Outcome
import Grammarian.Proofs.Parse.Reach

/-!
# Traces are well bracketed

The events of a call begin with its attempt and end with its match or its failure, and between them stand the
complete traces of the calls that it makes, one level down, and what it tells about itself. `CallTrace` says so as
a grammar of events. A call past the limit on depth tells nothing else. `Parser.call_bracketed` is the result for
every call of an accepted table.
-/

namespace Grammarian

mutual

/-- The events of a call of a rule at the front of `input`, and what is left of the input if it makes a match. -/
inductive CallTrace (t : Table) : (rule : String) → (input : List Char) → (depth : Nat) →
    (found : Option (List Char)) → List Event → Prop
  | refused (rule : String) (input : List Char) (depth : Nat) :
    CallTrace t rule input depth none [.depthExceeded rule depth]
  | failed {rule : String} {input : List Char} {depth : Nat} {events : List Event}
    (body : BodyTrace t rule input depth events) :
    CallTrace t rule input depth none (.attempt rule input depth :: events ++ [.failed rule depth])
  | matched {rule : String} {input rest : List Char} {depth : Nat} {events : List Event}
    (body : BodyTrace t rule input depth events) (hrest : rest <:+ input) :
    CallTrace t rule input depth (some rest)
      (.attempt rule input depth :: events ++ [.matched rule (consumed input rest) depth])

/-- What a call of a rule tells between its beginning and its end. -/
inductive BodyTrace (t : Table) : (rule : String) → (input : List Char) → (depth : Nat) → List Event → Prop
  | nil (rule : String) (input : List Char) (depth : Nat) : BodyTrace t rule input depth []
  | call {rule other : String} {input s : List Char} {depth : Nat} {found : Option (List Char)}
    {events more : List Event} (declared : t.contains other = true) (hs : s <:+ input)
    (inner : CallTrace t other s (depth + 1) found events) (next : BodyTrace t rule input depth more) :
    BodyTrace t rule input depth (events ++ more)
  | pinned {rule : String} {input : List Char} {depth : Nat} {more : List Event} (phase : Nat)
    (next : BodyTrace t rule input depth more) :
    BodyTrace t rule input depth (.pinned rule phase depth :: more)
  | syntaxError {rule : String} {input : List Char} {depth : Nat} {more : List Event} (expected : String)
    (next : BodyTrace t rule input depth more) :
    BodyTrace t rule input depth (.syntaxError rule expected depth :: more)
  /-- a recovery that skips the input from `s` on and finds its target nowhere -/
  | givenUp {rule target : String} {input s : List Char} {c : Char} {depth : Nat} {events more : List Event}
    (hs : c :: s <:+ input) (search : SearchTrace t target s (depth + 1) none events)
    (next : BodyTrace t rule input depth more) :
    BodyTrace t rule input depth (.recovering rule target (depth + 1) :: events ++ more)
  /-- a recovery that finds its target at `rest` -/
  | recovered {rule target : String} {input s rest : List Char} {c : Char} {depth : Nat}
    {events more : List Event} (hs : c :: s <:+ input)
    (search : SearchTrace t target s (depth + 1) (some rest) events)
    (next : BodyTrace t rule input depth more) :
    BodyTrace t rule input depth (.recovering rule target (depth + 1) :: events ++
      .recovered rule (consumed (c :: s) rest) (depth + 1) :: more)

/-- The calls of a rule at one place after another, up to the first match. -/
inductive SearchTrace (t : Table) : (target : String) → (input : List Char) → (depth : Nat) →
    (found : Option (List Char)) → List Event → Prop
  | found {target : String} {input rest : List Char} {depth : Nat} {events : List Event}
    (inner : CallTrace t target input depth (some rest) events) :
    SearchTrace t target input depth (some input) events
  | nowhere {target : String} {depth : Nat} {events : List Event}
    (inner : CallTrace t target [] depth none events) : SearchTrace t target [] depth none events
  | later {target : String} {input : List Char} {c : Char} {depth : Nat} {found : Option (List Char)}
    {events more : List Event} (inner : CallTrace t target (c :: input) depth none events)
    (next : SearchTrace t target input depth found more) :
    SearchTrace t target (c :: input) depth found (events ++ more)

end

section Traces

variable {t : Table} {rule : String} {input : List Char} {depth : Nat} {found : Option (List Char)}
  {events' : List Event}

/-- Bodies one after another are a body. -/
theorem BodyTrace.append : {events : List Event} → BodyTrace t rule input depth events →
    BodyTrace t rule input depth events' → BodyTrace t rule input depth (events ++ events')
  | _, .nil _ _ _, h' => h'
  | _, .call declared hs inner next, h' => by
    rw [List.append_assoc]
    exact .call declared hs inner (next.append h')
  | _, .pinned phase next, h' => .pinned phase (next.append h')
  | _, .syntaxError expected next, h' => .syntaxError expected (next.append h')
  | _, .givenUp hs search next, h' => by
    rw [List.append_assoc]
    exact .givenUp hs search (next.append h')
  | _, .recovered hs search next, h' => by
    rw [List.append_assoc]
    exact .recovered hs search (next.append h')

/-- What a call of `rule` tells about itself, apart from its beginning and its end. -/
def Event.IsRemark (rule : String) (depth : Nat) (e : Event) : Prop :=
  (∃ phase, e = .pinned rule phase depth) ∨ ∃ expected, e = .syntaxError rule expected depth

/-- The event is one of a call further in, or a remark of the call itself. -/
def Event.Inside (rule : String) (depth : Nat) (e : Event) : Prop :=
  depth < e.depth ∨ e.IsRemark rule depth

theorem Event.Inside.depth_le {e : Event} (h : e.Inside rule depth) : depth ≤ e.depth := by
  rcases h with hlt | ⟨phase, rfl⟩ | ⟨expected, rfl⟩
  · exact Nat.le_of_lt hlt
  · exact Nat.le_refl _
  · exact Nat.le_refl _

mutual

/-- No event of a call is above its depth. -/
theorem CallTrace.depth_le : {input : List Char} → {depth : Nat} → {rule : String} → {found : Option (List Char)} →
    {events : List Event} → CallTrace t rule input depth found events → ∀ e ∈ events, depth ≤ e.depth
  | _, _, _, _, _, .refused _ _ _ => by simp [Event.depth]
  | _, _, _, _, _, .failed body => by
    have hbody := body.inside
    exact List.forall_mem_append.2 ⟨List.forall_mem_cons.2 ⟨Nat.le_refl _, fun e he => (hbody e he).depth_le⟩,
      List.forall_mem_singleton.2 (Nat.le_refl _)⟩
  | _, _, _, _, _, .matched body hrest => by
    have hbody := body.inside
    exact List.forall_mem_append.2 ⟨List.forall_mem_cons.2 ⟨Nat.le_refl _, fun e he => (hbody e he).depth_le⟩,
      List.forall_mem_singleton.2 (Nat.le_refl _)⟩

/-- The events of a body are those of the rule or deeper ones. -/
theorem BodyTrace.inside : {rule : String} → {input : List Char} → {depth : Nat} → {events : List Event} →
    BodyTrace t rule input depth events → ∀ e ∈ events, e.Inside rule depth
  | _, _, _, _, .nil _ _ _ => by simp
  | _, _, _, _, .call _ _ inner next => by
    rw [List.forall_mem_append]
    exact ⟨fun e he => .inl (inner.depth_le e he), next.inside⟩
  | _, _, _, _, .pinned phase next => by
    rw [List.forall_mem_cons]
    exact ⟨.inr (.inl ⟨phase, rfl⟩), next.inside⟩
  | _, _, _, _, .syntaxError expected next => by
    rw [List.forall_mem_cons]
    exact ⟨.inr (.inr ⟨expected, rfl⟩), next.inside⟩
  | _, _, _, _, .givenUp _ search next => by
    rw [List.cons_append, List.forall_mem_cons, List.forall_mem_append]
    exact ⟨.inl (Nat.lt_succ_self _), fun e he => .inl (search.depth_le e he), next.inside⟩
  | _, _, _, _, .recovered _ search next => by
    rw [List.cons_append, List.forall_mem_cons, List.forall_mem_append, List.forall_mem_cons]
    exact ⟨.inl (Nat.lt_succ_self _), fun e he => .inl (search.depth_le e he), .inl (Nat.lt_succ_self _),
      next.inside⟩

/-- No event of a search is above its depth. -/
theorem SearchTrace.depth_le : {target : String} → {input : List Char} → {depth : Nat} →
    {found : Option (List Char)} → {events : List Event} → SearchTrace t target input depth found events →
    ∀ e ∈ events, depth ≤ e.depth
  | _, _, _, _, _, .found inner => inner.depth_le
  | _, _, _, _, _, .nowhere inner => inner.depth_le
  | _, _, _, _, _, .later inner next => by
    rw [List.forall_mem_append]
    exact ⟨inner.depth_le, next.depth_le⟩

end

end Traces

/-! ## What plans tell -/

namespace Plan

variable {α β : Type} {k : String → List Char → Traced (Option Match) → Prop} {p : Plan α}
  {post post' : α → List Event → Prop}

/-- With answers of the kind `k`, the plan comes to a value and to events with `post`. -/
def Tells (k : String → List Char → Traced (Option Match) → Prop) (post : α → List Event → Prop) :
    Plan α → Prop
  | done value => post value []
  | report event next => next.Tells k fun value events => post value (event :: events)
  | ask rule input next =>
    ∀ answer, k rule input answer →
      (next answer.value).Tells k fun value events => post value (answer.events ++ events)

/-- What a plan tells may be said with less. -/
theorem Tells.mono (h : p.Tells k post) (himp : ∀ value events, post value events → post' value events) :
    p.Tells k post' := by
  induction p generalizing post post' with
  | done value => exact himp value [] h
  | report event next ih => exact ih h fun value events => himp value (event :: events)
  | ask rule input next ih =>
    exact fun answer hanswer =>
      ih answer.value (h answer hanswer) fun value events => himp value (answer.events ++ events)

/-- The rule for sequences: the events of the second plan come behind those of the first. Only values with
`reached` need be gone on from. -/
theorem Tells.bind {f : α → Plan β} {reached : α → Prop} {post' : β → List Event → Prop}
    (h : p.Tells k post) (hp : p.Meets .any reached)
    (hf : ∀ value events, reached value → post value events →
      (f value).Tells k fun result more => post' result (events ++ more)) :
    (p.bind f).Tells k post' := by
  induction p generalizing post post' with
  | done value => exact hf value [] hp h
  | report event next ih => exact ih h hp fun value events => hf value (event :: events)
  | ask rule input next ih =>
    intro answer hanswer
    refine ih answer.value (h answer hanswer) (hp.2 answer.value trivial) fun value events hreached hpost => ?_
    simpa only [List.append_assoc] using hf value (answer.events ++ events) hreached hpost

/-- Answers of the kind `k` to all questions that are asked make a run with `post`. -/
theorem Tells.of_run {c : Contract} {reached : α → Prop} {answers : Answers} (h : p.Tells k post)
    (hp : p.Meets c reached)
    (hk : ∀ rule input, c.asks rule input →
      c.answers rule input (answers rule input).value ∧ k rule input (answers rule input)) :
    post (p.run answers).value (p.run answers).events := by
  induction p generalizing post with
  | done value => exact h
  | report event next ih => exact ih h hp
  | ask rule input next ih =>
    obtain ⟨hanswer, htold⟩ := hk rule input hp.1
    exact ih (answers rule input).value (h _ htold) (hp.2 _ hanswer)

end Plan

/-- The answer to a question of a call at the front of `input` is a declared rule's, one level down, and tells the
trace of a call. -/
structure AnswersCall (t : Table) (input : List Char) (depth : Nat) (rule : String) (s : List Char)
    (answer : Traced (Option Match)) : Prop where
  declared : t.contains rule = true
  placed : s <:+ input
  trace : CallTrace t rule s (depth + 1) (answer.value.map (·.rest)) answer.events

section Bodies

variable {t : Table} {rule : String} {input : List Char} {depth : Nat}

/-- What a part of the plan of a call tells is part of the body of the call. -/
def Plan.TellsBody {α : Type} (t : Table) (rule : String) (input : List Char) (depth : Nat) (p : Plan α) : Prop :=
  p.Tells (AnswersCall t input depth) fun _ events => BodyTrace t rule input depth events

theorem Plan.tellsBody_done {α : Type} (value : α) : (done value).TellsBody t rule input depth := .nil _ _ _

theorem Plan.TellsBody.bind_meets {α β : Type} {p : Plan α} {f : α → Plan β} {reached : α → Prop}
    (h : p.TellsBody t rule input depth) (hp : p.Meets .any reached)
    (hf : ∀ value, reached value → (f value).TellsBody t rule input depth) :
    (p.bind f).TellsBody t rule input depth :=
  Tells.bind h hp fun value _ hreached hevents => (hf value hreached).mono fun _ _ hmore => hevents.append hmore

/-- A plan followed by another tells a body if both do. -/
theorem Plan.TellsBody.bind {α β : Type} {p : Plan α} {f : α → Plan β} (h : p.TellsBody t rule input depth)
    (hf : ∀ value, (f value).TellsBody t rule input depth) : (p.bind f).TellsBody t rule input depth :=
  h.bind_meets p.asksOnly_true fun value _ => hf value

/-- A question is answered by the trace of a call. -/
theorem Plan.tellsBody_ask {α : Type} {other : String} {s : List Char} {next : Option Match → Plan α}
    (hnext : ∀ answer, (next answer).TellsBody t rule input depth) :
    (ask other s next).TellsBody t rule input depth :=
  fun answer hanswer => (hnext answer.value).mono fun _ _ hmore =>
    .call hanswer.declared hanswer.placed hanswer.trace hmore

theorem Target.plan_tellsBody (target : Target) (s : List Char) :
    (target.plan s).TellsBody t rule input depth := by
  cases target with
  | rule name => exact Plan.tellsBody_ask fun answer => Plan.tellsBody_done _
  | endOfInput | literal value | pattern p => exact Plan.tellsBody_done _

/-- The induction is on the input left, which every match of white space makes shorter. -/
theorem skipWhitespace_tellsBody (whitespace : String) (g : Growth) :
    (skipWhitespace whitespace g).TellsBody t rule input depth := by
  induction h : g.rest.length using Nat.strongRecOn generalizing g with
  | ind n ih =>
    rw [skipWhitespace]
    split
    · exact Plan.tellsBody_done g
    · refine Plan.tellsBody_ask fun answer => ?_
      cases answer with
      | none => exact Plan.tellsBody_done g
      | some m =>
        dsimp only
        split
        next hlt => exact ih _ (h ▸ hlt) (g.add m) rfl
        next => exact Plan.tellsBody_done g

namespace Scene

variable {s : Scene}

/-- Reaching a target tells a body. -/
theorem reach_tellsBody (target : Target) (g : Growth) : (s.reach target g).TellsBody t rule input depth := by
  rw [reach]
  refine (target.plan_tellsBody g.rest).bind fun got => ?_
  cases got with
  | some hit => exact Plan.tellsBody_done _
  | none =>
    dsimp only
    split
    · refine (skipWhitespace_tellsBody s.whitespace g).bind fun g' => ?_
      exact (target.plan_tellsBody g'.rest).bind fun got => Plan.tellsBody_done _
    · exact Plan.tellsBody_done _

/-- The search for a resumption tells its calls, up to the first match. -/
theorem resumption_tells (target : String) (cs : List Char) :
    (resumption target cs).Tells (AnswersCall t input depth) fun found events =>
      SearchTrace t target cs (depth + 1) found events := by
  induction cs with
  | nil =>
    rintro ⟨value, events⟩ hanswer
    have htrace := hanswer.trace
    cases value with
    | some m =>
      rw [← List.append_nil events] at htrace
      exact .found htrace
    | none =>
      rw [← List.append_nil events] at htrace
      exact .nowhere htrace
  | cons c cs ih =>
    rintro ⟨value, events⟩ hanswer
    have htrace := hanswer.trace
    cases value with
    | some m =>
      rw [← List.append_nil events] at htrace
      exact .found htrace
    | none => exact ih.mono fun _ _ hmore => .later htrace hmore

/-- A recovery tells where it begins, the calls of its target, and where it ends if it does. -/
theorem recover_tellsBody (cs : List Char) : (s.recover cs).TellsBody t s.rule.name input s.depth := by
  unfold recover
  split
  next target c cs _ =>
    rintro ⟨value, events⟩ hanswer
    have hcall : ∀ {more : List Event}, BodyTrace t s.rule.name input s.depth more →
        BodyTrace t s.rule.name input s.depth (events ++ more) := fun hmore =>
      .call hanswer.declared hanswer.placed hanswer.trace hmore
    cases value with
    | some m => exact hcall (.nil _ _ _)
    | none =>
      refine (resumption_tells target cs).bind (Plan.asksOnly_true _) fun found probes _ hsearch => ?_
      cases found with
      | none =>
        refine hcall ?_
        have hbody := BodyTrace.givenUp hanswer.placed hsearch (.nil s.rule.name _ _)
        simpa using hbody
      | some rest =>
        refine hcall ?_
        have hbody := BodyTrace.recovered hanswer.placed hsearch (.nil s.rule.name _ _)
        simpa using hbody
  next => exact Plan.tellsBody_done none

/-- Committing tells a body. -/
theorem commit_tellsBody (number : Nat) (ph : Phase) (g : Growth) :
    (s.commit number ph g).TellsBody t s.rule.name input s.depth := by
  unfold commit
  split
  · exact .pinned number (.nil _ _ _)
  · exact Plan.tellsBody_done g

/-- After a miss, a body is told. -/
theorem afterMiss_tellsBody (number : Nat) (ph : Phase) (again : Bool) (g : Growth)
    (hnext : ∀ m : Match, (s.afterHit number ph g (.node m)).TellsBody t s.rule.name input s.depth) :
    (s.afterMiss number ph again g).TellsBody t s.rule.name input s.depth := by
  unfold afterMiss
  split
  · exact Plan.tellsBody_done _
  · split
    · exact Plan.tellsBody_done _
    · split
      · exact Plan.tellsBody_done _
      · split
        · exact .syntaxError ph.reference.name (.nil _ _ _)
        · refine (recover_tellsBody g.rest).bind fun recovered => ?_
          cases recovered with
          | none => exact Plan.tellsBody_done _
          | some m => exact hnext m

/-- A phase tells its rounds. The induction is on the input left, which every further round makes shorter. -/
theorem phase_tellsBody (number : Nat) (ph : Phase) (again : Bool) (g : Growth) :
    (s.phase number ph again g).TellsBody t s.rule.name input s.depth := by
  induction h : g.rest.length using Nat.strongRecOn generalizing again g with
  | ind n ih =>
    have hnext : ∀ (g' : Growth) (hit : Hit), g'.rest.length ≤ n →
        (s.afterHit number ph g' hit).TellsBody t s.rule.name input s.depth := by
      intro g' hit hle
      unfold afterHit
      split
      next hmore => exact ih _ (Nat.lt_of_lt_of_le (take_shortens hmore) hle) true _ rfl
      next => exact Plan.tellsBody_done _
    rw [phase_eq]
    refine (reach_tellsBody ph.target g).bind_meets (s.reach_shortens ph.target g) ?_
    rintro ⟨g', got⟩ hle
    replace hle : g'.rest.length ≤ n := h ▸ hle
    dsimp only
    split
    · exact Plan.tellsBody_done _
    · cases got with
      | some hit =>
        refine (commit_tellsBody number ph g').bind_meets (s.commit_keeps_rest number ph g') ?_
        intro g'' hrest
        exact hnext g'' hit (hrest ▸ hle)
      | none => exact afterMiss_tellsBody number ph again g' fun m => hnext g' (.node m) hle

/-- The phases of an alternative tell a body. -/
theorem phases_tellsBody (number : Nat) (g : Growth) (phs : List Phase) :
    (s.phases number g phs).TellsBody t s.rule.name input s.depth := by
  induction phs generalizing number g with
  | nil => exact Plan.tellsBody_done _
  | cons ph phs ih =>
    refine (phase_tellsBody number ph false g).bind fun e => ?_
    cases e with
    | next g' => exact ih (number + 1) g'
    | stop g' => exact Plan.tellsBody_done _
    | fail => exact Plan.tellsBody_done _

/-- The alternatives of a rule tell a body. -/
theorem alternatives_tellsBody (cs : List Char) (alts : List (List Phase)) :
    (s.alternatives cs alts).TellsBody t s.rule.name input s.depth := by
  induction alts with
  | nil => exact Plan.tellsBody_done _
  | cons phs alts ih =>
    have halternative : (s.alternative cs phs).TellsBody t s.rule.name input s.depth :=
      (phases_tellsBody 1 { rest := cs } phs).bind fun found => by
        cases found with
        | none => exact Plan.tellsBody_done _
        | some g => exact Plan.tellsBody_done _
    refine halternative.bind fun found => ?_
    cases found with
    | some m => exact Plan.tellsBody_done _
    | none => exact ih

end Scene

/-- What matching a rule tells is the body of its call. -/
theorem Table.Entry.plan_tellsBody (e : Table.Entry) (whitespace : String) (depth : Nat) (input : List Char) :
    (e.plan whitespace depth input).TellsBody t e.rule.name input depth :=
  (Scene.alternatives_tellsBody (s := ⟨e.rule, whitespace, depth⟩) input e.alternatives).bind fun _ =>
    Plan.tellsBody_done _

end Bodies

/-! ## Calls -/

namespace Table

variable {t : Table} {rules : List Rule} {whitespace name : String}

/-- The rules that a match in an accepted table asks for are declared. -/
theorem asks_declared (h : build rules whitespace = .ok t) {e : Entry} (he : t.entry? name = some e) (depth : Nat)
    (input : List Char) : (e.plan t.whitespace depth input).AsksOnly (t.contains · = true) := by
  obtain ⟨hproblems, rfl⟩ := build_eq_ok_iff.1 h
  have hvalid := (problems_eq_nil_iff_valid.1 hproblems).1
  have hrule : e.rule ∈ rules.map (Rule.settled whitespace) := rules_ofRules rules whitespace ▸ rule_mem_of_entry he
  refine (asksOnly_plan (alternatives_of_entry h he) whitespace depth input).mono fun asked hasked => ?_
  have hdeclared : asked ∈ (rules.map (Rule.settled whitespace)).map (·.name) := by
    rcases List.mem_append.1 hasked with hasked | hasked
    · rcases List.mem_append.1 hasked with hasked | hasked
      · obtain ⟨s, hs, hneeds⟩ := List.mem_filterMap.1 hasked
        obtain ⟨alt, halt, hs⟩ := List.mem_flatten.1 hs
        exact hvalid.resolved _ hrule alt halt s hs asked (Symbol.needs?_eq_some_iff.1 hneeds)
      · exact hvalid.recovery _ hrule asked (Option.mem_toList.1 hasked)
    · split at hasked
      next hskips =>
        rw [List.mem_singleton.1 hasked]
        exact hvalid.whitespace ⟨e.rule, hrule, of_decide_eq_true hskips⟩
      next => cases hasked
  obtain ⟨r, hr, hname⟩ := List.mem_map.1 hdeclared
  obtain ⟨r, hmem, rfl⟩ := List.mem_map.1 hr
  have hentry : entry? (ofRules rules whitespace) asked = some ⟨r.settled whitespace, (r.settled whitespace).phases⟩ :=
    (entry?_eq_some_iff h).2 ⟨r, hmem, (r.settled_name whitespace).symm.trans hname, rfl⟩
  rw [contains, hentry]
  rfl

/-- The events of a call with a body. -/
theorem callTrace_concluded {input : List Char} {depth : Nat} {r : Traced (Option Match)}
    (hbody : BodyTrace t name input depth r.events) (hrest : ∀ m ∈ r.value, m.rest <:+ input) :
    CallTrace t name input depth ((concluded name depth input r).value.map (·.rest))
      (concluded name depth input r).events := by
  unfold concluded
  split
  next m hm => exact .matched hbody (hrest m hm)
  next => exact .failed hbody

section Calls

variable {maxDepth : Option Nat} {budget depth : Nat} {active : List Call} {input : List Char}

/-- A call tells the trace of a call if the run of its plan tells the body of one. -/
theorem call_trace_of_run (hname : t.contains name = true)
    (hrun : ∀ e b, t.entry? name = some e → budget = b + 1 →
      let r := (e.plan t.whitespace depth input).run
        (t.call maxDepth b ((name, input.length) :: active) (depth + 1))
      BodyTrace t name input depth r.events ∧ ∀ m ∈ r.value, m.rest <:+ input) :
    CallTrace t name input depth ((t.call maxDepth budget active depth name input).value.map (·.rest))
      (t.call maxDepth budget active depth name input).events := by
  have hempty : CallTrace t name input depth ((concluded name depth input ⟨none, []⟩).value.map (·.rest))
      (concluded name depth input ⟨none, []⟩).events := callTrace_concluded (.nil _ _ _) nofun
  obtain ⟨e, he⟩ := Option.isSome_iff_exists.1 hname
  by_cases hdeep : maxDepth.any (· < depth) = true
  · rw [call_too_deep he hdeep]
    exact .refused name input depth
  · by_cases hactive : (name, input.length) ∈ active
    · rw [call_in_progress he hdeep hactive]
      exact hempty
    · cases budget with
      | zero =>
        rw [call_out_of_budget he hdeep hactive]
        exact hempty
      | succ b =>
        rw [call_enter he hdeep hactive]
        obtain ⟨hbody, hrest⟩ := hrun e b he rfl
        exact callTrace_concluded hbody hrest

/-- Every call of a declared rule tells the trace of a call. The induction is on the budget, which every nested
call has less of. -/
theorem call_trace (h : build rules whitespace = .ok t) (hname : t.contains name = true) :
    CallTrace t name input depth ((t.call maxDepth budget active depth name input).value.map (·.rest))
      (t.call maxDepth budget active depth name input).events := by
  induction budget generalizing active depth name input with
  | zero => exact call_trace_of_run hname nofun
  | succ budget ih =>
    refine call_trace_of_run hname fun e b he hb => ?_
    cases hb
    have hobeys := fun rule s => call_obeys (Law.free_respected t.rules) maxDepth budget
      ((name, input.length) :: active) (depth + 1) rule s
    have hplan := (plan_meets (Law.free_respected t.rules) he depth input).asking (asks_declared h he depth input)
    have hbody := (e.plan_tellsBody t.whitespace depth input).of_run hplan fun rule s hasks =>
      ⟨hobeys rule s, hasks.2, hasks.1, ih hasks.2⟩
    rw [name_of_entry he] at hbody
    exact ⟨hbody, fun m hm => ((hplan.of_run fun rule s _ => hobeys rule s) m hm).1.rest⟩

end Calls

end Table

/-- How the events of a call end tells what the call comes to, and nothing before the end is at its depth but the
attempt it begins with and its remarks. -/
theorem CallTrace.outcome {t : Table} {rule : String} {input : List Char} {depth : Nat} {found : Option (List Char)}
    {events : List Event} (h : CallTrace t rule input depth found events) :
    (∀ rest ∈ found, rest <:+ input ∧ events.getLast? = some (.matched rule (consumed input rest) depth)) ∧
      (found = none → ∀ text, events.getLast? ≠ some (.matched rule text depth)) ∧
      ∀ e ∈ events.tail.dropLast, e.Inside rule depth := by
  cases h with
  | refused => simp
  | failed body =>
    rw [List.getLast?_concat]
    simpa using body.inside
  | matched body hrest =>
    rw [List.getLast?_concat]
    simpa [hrest] using body.inside

namespace Parser

/-- **Traces are well bracketed.** In every state of a parse with an accepted table, at every depth and with every
options, a call of a declared rule tells either that it is past the limit on depth, or its attempt, the body, and
its match or failure. The body is made of the complete traces of calls one level down, of commitments and syntax
errors of the rule, and of recoveries, each of which begins before it ends: `CallTrace`. The call makes a match
just when the trace ends with one, and the text told there is the part of the input that is consumed. In
particular the events of a parse are those of such a call, at depth zero. -/
theorem call_bracketed {rules : List Rule} {options : Options} {p : Parser} (h : Parser.build rules options = .ok p) :
    (∀ budget active depth name input, p.table.contains name = true →
      let r := p.table.call options.maxDepth budget active depth name input
      CallTrace p.table name input depth (r.value.map (·.rest)) r.events ∧
        (r.value.isSome = true ↔ ∃ text, r.events.getLast? = some (.matched name text depth)) ∧
        (∀ m ∈ r.value, consumed input m.rest ++ m.rest = input ∧
          r.events.getLast? = some (.matched name (consumed input m.rest) depth)) ∧
        ∀ e ∈ r.events.tail.dropLast, e.Inside name depth) ∧
    ∀ input target, p.table.contains (p.startName target) = true →
      CallTrace p.table (p.startName target) input.toList 0 ((p.startMatch input target).value.map (·.rest))
        (p.run input target).events := by
  obtain ⟨htable, hoptions⟩ := build_eq_ok_iff.1 h
  refine ⟨fun budget active depth name input hname => ?_, fun input target hname => ?_⟩
  · have htrace : CallTrace p.table name input depth
        ((p.table.call options.maxDepth budget active depth name input).value.map (·.rest))
        (p.table.call options.maxDepth budget active depth name input).events := Table.call_trace htable hname
    obtain ⟨hmatched, hnone, hinside⟩ := htrace.outcome
    have hlast : ∀ m ∈ (p.table.call options.maxDepth budget active depth name input).value,
        m.rest <:+ input ∧ (p.table.call options.maxDepth budget active depth name input).events.getLast? =
          some (.matched name (consumed input m.rest) depth) := fun m hm =>
      hmatched m.rest (Option.mem_map_of_mem _ hm)
    refine ⟨htrace, ?_, fun m hm => ?_, hinside⟩
    · constructor
      · intro hsome
        obtain ⟨m, hm⟩ := Option.isSome_iff_exists.1 hsome
        exact ⟨_, (hlast m hm).2⟩
      · rintro ⟨text, hend⟩
        rw [Option.isSome_iff_ne_none]
        intro hvalue
        exact hnone (by rw [hvalue]; rfl) text hend
    · obtain ⟨⟨front, hfront⟩, hend⟩ := hlast m hm
      refine ⟨?_, hend⟩
      rw [consumed_of_append hfront, hfront]
  · rw [run_of_contains hname]
    exact Table.call_trace htable hname

/-- A parse of sums tells the trace of a call of `Sum`. -/
theorem call_bracketed_sum : ∃ p : Parser, Parser.build sumRules {} = .ok p ∧
    CallTrace p.table "Sum" "1 + 1".toList 0 ((p.startMatch "1 + 1" (some "Sum")).value.map (·.rest))
      (p.run "1 + 1" (some "Sum")).events := by
  have hordered : Table.WellOrdered ["Sum", "Term"] (sumRules.map (Rule.settled "WS")) "WS" := by
    decide +kernel
  have hbuild : Parser.build sumRules {} = .ok ⟨.ofRules sumRules "WS", {}⟩ :=
    build_eq_ok_iff.2 ⟨hordered.build, rfl⟩
  have hdeclared : (Table.ofRules sumRules "WS").contains "Sum" = true := by decide +kernel
  exact ⟨_, hbuild, (call_bracketed hbuild).2 "1 + 1" (some "Sum") hdeclared⟩

end Parser

end Grammarian
