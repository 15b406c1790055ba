import Mathlib.Data.Finset.Card
import Grammarian.Proofs.Parse.Frame

/-!
# Matching with a journal

Here matching passes a journal along: the calls in progress as a set that every call joins and leaves,
the events so far, and how each call began. There is no answer when more than `fuel` calls would have to
be nested, so an answer means that matching ends. `drive?_eq_call` says that this is the matching of
`Table.call`, that it ends, and that it ends with the calls in progress it began with.
-/

namespace Grammarian

/-- How a call begins, and the calls in progress around it. -/
structure Visit where
  name : String
  input : List Char
  depth : Nat
  active : Finset Call

/-- What calls share while a match goes on. -/
structure Journal where
  /-- the calls in progress -/
  active : Finset Call := ∅
  events : List Event := []
  /-- the calls that have begun -/
  visits : List Visit := []

namespace Journal

def tell (j : Journal) (event : Event) : Journal := { j with events := j.events ++ [event] }

def note (j : Journal) (name : String) (input : List Char) (depth : Nat) : Journal :=
  { j with visits := j.visits ++ [⟨name, input, depth, j.active⟩] }

def insert (j : Journal) (c : Call) : Journal := { j with active := Insert.insert c j.active }

def erase (j : Journal) (c : Call) : Journal := { j with active := j.active.erase c }

@[simp] theorem tell_active (j : Journal) (event : Event) : (j.tell event).active = j.active := rfl

@[simp] theorem note_active (j : Journal) (name : String) (input : List Char) (depth : Nat) :
    (j.note name input depth).active = j.active := rfl

@[simp] theorem insert_active (j : Journal) (c : Call) :
    (j.insert c).active = Insert.insert c j.active := rfl

@[simp] theorem erase_active (j : Journal) (c : Call) : (j.erase c).active = j.active.erase c := rfl

/-- From one journal to a later one: the calls in progress are the same, `events` have been told, and
every call that began meanwhile fulfils `good`. -/
structure Extends (good : Visit → Prop) (j : Journal) (events : List Event) (j' : Journal) :
    Prop where
  active : j'.active = j.active
  events : j'.events = j.events ++ events
  visits : ∃ vs, j'.visits = j.visits ++ vs ∧ ∀ v ∈ vs, good v

variable {good : Visit → Prop} {j j' j'' : Journal} {events events' : List Event}

theorem extends_refl (good : Visit → Prop) (j : Journal) : j.Extends good [] j where
  active := rfl
  events := (List.append_nil _).symm
  visits := ⟨[], (List.append_nil _).symm, by simp⟩

/-- A journal extended twice is extended by both lists of events. -/
theorem Extends.trans (h : j.Extends good events j') (h' : j'.Extends good events' j'') :
    j.Extends good (events ++ events') j'' where
  active := h'.active.trans h.active
  events := by rw [h'.events, h.events, List.append_assoc]
  visits := by
    obtain ⟨vs, hvs, hgood⟩ := h.visits
    obtain ⟨vs', hvs', hgood'⟩ := h'.visits
    refine ⟨vs ++ vs', by rw [hvs', hvs, List.append_assoc], ?_⟩
    exact fun v hv => (List.mem_append.1 hv).elim (hgood v) (hgood' v)

/-- What is known of the visits may be said with less. -/
theorem Extends.mono {good' : Visit → Prop} (h : j.Extends good events j') (himp : ∀ v, good v → good' v) :
    j.Extends good' events j' where
  active := h.active
  events := h.events
  visits := by
    obtain ⟨vs, hvs, hgood⟩ := h.visits
    exact ⟨vs, hvs, fun v hv => himp v (hgood v hv)⟩

theorem extends_tell (good : Visit → Prop) (j : Journal) (event : Event) :
    j.Extends good [event] (j.tell event) where
  active := rfl
  events := rfl
  visits := ⟨[], (List.append_nil _).symm, by simp⟩

theorem extends_note {name : String} {input : List Char} {depth : Nat}
    (h : good ⟨name, input, depth, j.active⟩) : j.Extends good [] (j.note name input depth) where
  active := rfl
  events := (List.append_nil _).symm
  visits := ⟨_, rfl, by simpa using h⟩

/-- A call that joins those in progress and leaves them again leaves them as they were. -/
theorem Extends.within {c : Call} (hc : c ∉ j.active) (h : (j.insert c).Extends good events j') :
    j.Extends good events (j'.erase c) where
  active := by rw [erase_active, h.active, insert_active, Finset.erase_insert hc]
  events := h.events
  visits := h.visits

end Journal

/-- Carries a plan out with answers that change a journal and may be missing. -/
def Plan.drive? {α : Type}
    (answers : String → List Char → Journal → Option (Option Match × Journal)) :
    Plan α → Journal → Option (α × Journal)
  | done value, j => some (value, j)
  | report event next, j => next.drive? answers (j.tell event)
  | ask rule input next, j =>
    match answers rule input j with
    | some (answer, j) => (next answer).drive? answers j
    | none => none

/-- Matches rule `name` at the front of `input`, `depth` being the depth of the call. The call joins
those in progress before its plan is carried out and leaves them afterwards. -/
def Table.drive? (t : Table) (maxDepth : Option Nat) :
    (fuel depth : Nat) → String → List Char → Journal → Option (Option Match × Journal)
  | 0, _, _, _, _ => none
  | fuel + 1, depth, name, input, j =>
    match t.entry? name with
    | none => some (none, j)
    | some e =>
      if maxDepth.any (· < depth) then
        some (none, (j.note name input depth).tell (.depthExceeded name depth))
      else if (name, input.length) ∈ j.active then
        some (none, ((j.note name input depth).tell (.attempt name input depth)).tell
          (.failed name depth))
      else
        match (e.plan t.whitespace depth input).drive? (t.drive? maxDepth fuel (depth + 1))
            (((j.note name input depth).tell (.attempt name input depth)).insert
              (name, input.length)) with
        | none => none
        | some (some m, j) =>
          some (some m, (j.erase (name, input.length)).tell
            (.matched name (consumed input m.rest) depth))
        | some (none, j) => some (none, (j.erase (name, input.length)).tell (.failed name depth))

/-! ## Calls in progress are restored -/

/-- Driving a plan leaves the active calls as they were, where answering does. -/
theorem Plan.drive?_active {α : Type}
    {answers : String → List Char → Journal → Option (Option Match × Journal)}
    (h : ∀ rule input j answer j', answers rule input j = some (answer, j') → j'.active = j.active)
    {p : Plan α} {j j' : Journal} {value : α} (hp : p.drive? answers j = some (value, j')) :
    j'.active = j.active := by
  induction p generalizing j with
  | done value => cases hp; rfl
  | report event next ih => exact ih (j := j.tell event) hp
  | ask rule input next ih =>
    simp only [drive?] at hp
    split at hp
    next answer j'' ha => exact (ih answer hp).trans (h rule input j answer j'' ha)
    next => cases hp

/-- Every call leaves the calls in progress as it finds them, whichever way it ends. -/
theorem Table.drive?_active {t : Table} {maxDepth : Option Nat} {fuel depth : Nat} {name : String}
    {input : List Char} {j j' : Journal} {found : Option Match}
    (h : t.drive? maxDepth fuel depth name input j = some (found, j')) : j'.active = j.active := by
  induction fuel generalizing depth name input j j' found with
  | zero => cases h
  | succ fuel ih =>
    simp only [drive?] at h
    split at h
    next => cases h; rfl
    next e he =>
      split at h
      next => cases h; rfl
      next =>
        split at h
        next => cases h; rfl
        next hnew =>
          have hback : ∀ {value : Option Match} {j'' : Journal},
              (e.plan t.whitespace depth input).drive? (t.drive? maxDepth fuel (depth + 1))
                (((j.note name input depth).tell (.attempt name input depth)).insert
                  (name, input.length)) = some (value, j'') →
              j''.active.erase (name, input.length) = j.active := by
            intro value j'' hrun
            rw [Plan.drive?_active (fun _ _ _ _ _ ha => ih ha) hrun]
            exact Finset.erase_insert hnew
          split at h
          next => cases h
          next m j'' hrun => cases h; exact hback hrun
          next j'' hrun => cases h; exact hback hrun

/-- A plan that meets a contract comes to its postcondition where the answers keep to the contract, and the
journal goes on by what the answers add to it. -/
theorem Plan.Meets.drive?_extends {α : Type} {p : Plan α} {k : Contract} {post : α → Prop}
    {good : Visit → Prop} {answers : String → List Char → Journal → Option (Option Match × Journal)}
    {active : Finset Call} (h : p.Meets k post)
    (hk : ∀ rule input j j' answer, k.asks rule input → j.active = active →
      answers rule input j = some (answer, j') →
        k.answers rule input answer ∧ ∃ events, j.Extends good events j')
    {j j' : Journal} {value : α} (hj : j.active = active)
    (hp : p.drive? answers j = some (value, j')) :
    post value ∧ ∃ events, j.Extends good events j' := by
  induction p generalizing j with
  | done value =>
    cases hp
    exact ⟨h, [], Journal.extends_refl good _⟩
  | report event next ih =>
    obtain ⟨hvalue, events, hext⟩ := ih h (j := j.tell event) hj hp
    exact ⟨hvalue, _, (j.extends_tell good event).trans hext⟩
  | ask rule input next ih =>
    simp only [drive?] at hp
    split at hp
    next answer j'' ha =>
      obtain ⟨hanswer, events, hext⟩ := hk rule input j j'' answer h.1 hj ha
      obtain ⟨hvalue, events', hext'⟩ := ih answer (h.2 answer hanswer) (hext.active.trans hj) hp
      exact ⟨hvalue, _, hext.trans hext'⟩
    next => cases hp

/-! ## Matching ends, and is that of `call` -/

section Agreement

variable {good : Visit → Prop}

/-- If the answers a plan may ask for come, and come as they do without a journal, then so does the
outcome of the plan. -/
theorem Plan.Meets.drive?_eq_run {α : Type} {p : Plan α} {k : Contract} {post : α → Prop}
    {answers : Answers} {answers? : String → List Char → Journal → Option (Option Match × Journal)}
    {active : Finset Call} (h : p.Meets k post)
    (hk : ∀ rule input, k.asks rule input → k.answers rule input (answers rule input).value)
    (heq : ∀ rule input, k.asks rule input → ∀ j : Journal, j.active = active →
      ∃ j', answers? rule input j = some ((answers rule input).value, j') ∧
        j.Extends good (answers rule input).events j')
    (j : Journal) (hj : j.active = active) :
    ∃ j', p.drive? answers? j = some ((p.run answers).value, j') ∧
      j.Extends good (p.run answers).events j' := by
  induction p generalizing j with
  | done value => exact ⟨j, rfl, j.extends_refl good⟩
  | report event next ih =>
    obtain ⟨j', hrun, hext⟩ := ih h (j.tell event) hj
    exact ⟨j', hrun, (j.extends_tell good event).trans hext⟩
  | ask rule input next ih =>
    obtain ⟨j', ha, hext⟩ := heq rule input h.1 j hj
    obtain ⟨j'', hrun, hext'⟩ :=
      ih _ (h.2 _ (hk rule input h.1)) j' (hext.active.trans hj)
    refine ⟨j'', ?_, hext.trans hext'⟩
    simp only [drive?, ha]
    exact hrun

/-- What holds of a call as it begins holds of those that are asked for while it is in progress. -/
def Table.Hereditary (t : Table) (good : Visit → Prop) : Prop :=
  ∀ v e rule s, good v → t.entry? v.name = some e → (v.name, v.input.length) ∉ v.active → s <:+ v.input →
    good ⟨rule, s, v.depth + 1, insert (v.name, v.input.length) v.active⟩

variable {t : Table} {whole : List Char}

/-- **Matching ends.** With fuel for every call that is not in progress, a call has an answer: the one `call` gives
with as much budget. It tells the same events, leaves the calls in progress as they are, and what holds of it and is
hereditary holds of every call on the way. -/
theorem Table.drive?_eq_call_of_idle (hgood : t.Hereditary good) (maxDepth : Option Nat) (active : List Call)
    (fuel budget depth : Nat) (name : String) {input : List Char}
    (hfuel : (t.idle input.length active).card < fuel) (hbudget : (t.idle input.length active).card < budget)
    (hbegin : good ⟨name, input, depth, active.toFinset⟩) (j : Journal) (hj : j.active = active.toFinset) :
    ∃ j', t.drive? maxDepth fuel depth name input j =
        some ((t.call maxDepth budget active depth name input).value, j') ∧
      j.Extends good (t.call maxDepth budget active depth name input).events j' := by
  induction fuel generalizing budget active depth name input j with
  | zero => exact absurd hfuel (Nat.not_lt_zero _)
  | succ fuel ih =>
    simp only [drive?]
    cases he : t.entry? name with
    | none =>
      rw [call_undeclared he]
      exact ⟨j, rfl, j.extends_refl _⟩
    | some e =>
      have hnote : j.Extends good [] (j.note name input depth) :=
        Journal.extends_note (by rw [hj]; exact hbegin)
      by_cases hdeep : maxDepth.any (· < depth) = true
      · rw [call_too_deep he hdeep]
        simp only [if_pos hdeep]
        exact ⟨_, rfl, hnote.trans (Journal.extends_tell _ _ _)⟩
      · have hattempt := hnote.trans (Journal.extends_tell good _ (.attempt name input depth))
        simp only [if_neg hdeep]
        by_cases hactive : (name, input.length) ∈ active
        · rw [call_in_progress he hdeep hactive]
          simp only [hj, List.mem_toFinset, if_pos hactive]
          exact ⟨_, rfl, hattempt.trans (Journal.extends_tell _ _ _)⟩
        · obtain ⟨b, rfl⟩ : ∃ b, budget = b + 1 := ⟨budget - 1, by omega⟩
          rw [call_enter he hdeep hactive]
          have hnew : (name, input.length) ∉ j.active := by
            rw [hj, List.mem_toFinset]
            exact hactive
          have hplan := plan_meets (Law.free_respected t.rules) he depth input
          have hinner : ∀ rule s, s <:+ input →
              good ⟨rule, s, depth + 1, ((name, input.length) :: active).toFinset⟩ := by
            intro rule s hs
            rw [List.toFinset_cons]
            exact hgood _ e rule s hbegin he (by simpa using hactive) hs
          obtain ⟨j', hrun, hext⟩ := hplan.drive?_eq_run
            (fun rule s _ => call_obeys (Law.free_respected t.rules) _ _ _ _ rule s)
            (fun rule s (hs : s <:+ input) => ih _ b (depth + 1) rule
              (card_idle_within he hactive hs.length_le hfuel)
              (card_idle_within he hactive hs.length_le hbudget) (hinner rule s hs))
            (((j.note name input depth).tell (.attempt name input depth)).insert
              (name, input.length)) (by simp [hj])
          have hwhole := hattempt.trans (hext.within hnew)
          simp only [if_neg hnew, hrun]
          cases hvalue : ((e.plan t.whitespace depth input).run
              (t.call maxDepth b ((name, input.length) :: active) (depth + 1))).value with
          | none =>
            simp only [concluded, hvalue]
            exact ⟨_, rfl, by simpa using hwhole.trans (Journal.extends_tell _ _ _)⟩
          | some m =>
            simp only [concluded, hvalue]
            exact ⟨_, rfl, by simpa using hwhole.trans (Journal.extends_tell _ _ _)⟩

/-- A call as it begins: its depth counts the calls in progress, and its text is a part of `whole`. -/
def Table.Sound (t : Table) (whole : List Char) (v : Visit) : Prop :=
  v.depth = v.active.card ∧ v.depth ≤ t.entries.length * (whole.length + 1) ∧ v.input <:+ whole

/-- A visit is sound where the active calls are orderly. -/
theorem Table.Orderly.sound {active : List Call} (h : t.Orderly whole.length active)
    {name : String} {input : List Char} (hinput : input <:+ whole) :
    t.Sound whole ⟨name, input, active.length, active.toFinset⟩ :=
  ⟨(List.toFinset_card_of_nodup h.nodup).symm, h.length_le, hinput⟩

/-- A call whose depth is the number of calls in progress, as they can be in `whole`. -/
def Table.Counted (t : Table) (whole : List Char) (v : Visit) : Prop :=
  ∃ active, t.Orderly whole.length active ∧ v.active = active.toFinset ∧ v.depth = active.length ∧
    v.input <:+ whole

/-- That the depth counts the active calls is handed down from a call to those it makes. -/
theorem Table.counted_hereditary (t : Table) (whole : List Char) : t.Hereditary (t.Counted whole) := by
  rintro ⟨name, input, depth, around⟩ e rule s ⟨active, horder, rfl, rfl, hinput⟩ he hnew hs
  have hcons := horder.cons he hinput.length_le (by simpa using hnew)
  exact ⟨_, hcons, (List.toFinset_cons ..).symm, rfl, hs.trans hinput⟩

/-- A visit whose depth counts the active calls is sound. -/
theorem Table.Counted.sound {v : Visit} (h : t.Counted whole v) : t.Sound whole v := by
  obtain ⟨name, input, depth, around⟩ := v
  obtain ⟨active, horder, rfl, rfl, hinput⟩ := h
  exact horder.sound hinput

/-- With fuel for every rule at every place, calls in progress not counted, a call whose depth is the number of those
in progress has the answer of `call`, and every call on the way is sound. -/
theorem Table.drive?_eq_call (maxDepth : Option Nat) (active : List Call) (fuel budget : Nat)
    (name : String) {input : List Char} (hinput : input <:+ whole)
    (horder : t.Orderly whole.length active)
    (hfuel : t.entries.length * (whole.length + 1) < fuel + active.length)
    (hbudget : t.entries.length * (whole.length + 1) < budget + active.length)
    (j : Journal) (hj : j.active = active.toFinset) :
    ∃ j', t.drive? maxDepth fuel active.length name input j =
        some ((t.call maxDepth budget active active.length name input).value, j') ∧
      j.Extends (t.Sound whole) (t.call maxDepth budget active active.length name input).events j' := by
  have hidle := horder.card_idle_add_length_le
  have hmono := Finset.card_le_card (t.idle_mono active hinput.length_le)
  obtain ⟨j', hdrive, hext⟩ := drive?_eq_call_of_idle (t.counted_hereditary whole) maxDepth active fuel budget
    active.length name (by omega) (by omega) ⟨active, horder, rfl, rfl, hinput⟩ j hj
  exact ⟨j', hdrive, hext.mono fun v hv => hv.sound⟩

end Agreement

end Grammarian
