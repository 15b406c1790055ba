import Mathlib.Data.List.Infix
import Grammarian.Pattern.Anchored

/-!
# What a match leaves

Wherever a match of an expression ends, what is left there is a suffix of the text that was searched.
So the end of a match lies between two characters, and the match of a pattern ends inside its input.
-/

namespace Grammarian.Pattern

/-- Every step of `f` leads to a place further on in the same text. -/
def Advances (f : Spot → List Spot) : Prop := ∀ p, ∀ q ∈ f p, q.rest <:+ p.rest

theorem mem_of_mem_distinct {q : Spot} {ps : List Spot} (h : q ∈ Spot.distinct ps) : q ∈ ps := by
  induction ps with
  | nil => exact h
  | cons p ps ih =>
    rcases List.mem_cons.1 h with rfl | h
    · exact List.mem_cons_self
    · exact List.mem_cons_of_mem p (ih (List.mem_of_mem_filter h))

theorem exists_of_mem_andThen {f g : Spot → List Spot} {p q : Spot} (h : q ∈ andThen f g p) :
    ∃ r ∈ f p, q ∈ g r := by
  unfold andThen at h
  split at h
  next => cases h
  next r hr => exact ⟨r, by rw [hr]; exact List.mem_singleton_self r, h⟩
  next => exact List.mem_flatMap.1 (mem_of_mem_distinct h)

theorem Advances.andThen {f g : Spot → List Spot} (hf : Advances f) (hg : Advances g) :
    Advances (andThen f g) := by
  intro p q hq
  obtain ⟨r, hr, hq⟩ := exists_of_mem_andThen hq
  exact (hg r q hq).trans (hf p r hr)

theorem Advances.repeated {f : Spot → List Spot} (hf : Advances f) (n : Nat) :
    Advances (repeated f n) := by
  induction n with
  | zero =>
    intro p q hq
    rw [List.mem_singleton.1 hq]
  | succ n ih => exact hf.andThen ih

theorem Advances.atMost {f : Spot → List Spot} (hf : Advances f) (greedy : Bool) (n : Nat) :
    Advances (atMost f greedy n) := by
  induction n with
  | zero =>
    intro p q hq
    rw [List.mem_singleton.1 hq]
  | succ n ih =>
    intro p q hq
    have hq' : q = p ∨ q ∈ Pattern.andThen f (Pattern.atMost f greedy n) p := by
      unfold Pattern.atMost at hq
      split at hq
      · simpa [or_comm] using mem_of_mem_distinct hq
      · simpa using mem_of_mem_distinct hq
    rcases hq' with rfl | hq'
    · exact List.suffix_rfl
    · exact hf.andThen ih p q hq'

/-- Further rounds add places of the same text only, `cs` being any text that both the places found
before and the place to go on from belong to. -/
theorem rounds_suffix {f : Spot → List Spot} (hf : Advances f) {greedy : Bool} {cs : List Char}
    {p : Spot} {found : List Spot} (hp : p.rest <:+ cs) (hfound : ∀ q ∈ found, q.rest <:+ cs) :
    ∀ q ∈ rounds f greedy p found, q.rest <:+ cs := by
  induction h : p.rest.length using Nat.strongRecOn generalizing p found with
  | ind n ih =>
    rw [rounds]
    refine List.foldlRecOn (motive := fun found : List Spot => ∀ q ∈ found, q.rest <:+ cs) _ _
      hfound ?_
    intro found hfound r hr
    have hrest : r.rest <:+ cs := (hf p r hr).trans hp
    split
    next hlt =>
      have hmore : ∀ found : List Spot, (∀ q ∈ found, q.rest <:+ cs) →
          ∀ q ∈ rounds f greedy r found, q.rest <:+ cs :=
        fun found hfound => ih _ (h ▸ hlt) hrest hfound rfl
      split
      · exact hfound
      · split
        · exact List.forall_mem_cons.2 ⟨hrest, hmore found hfound⟩
        · exact hmore _ (List.forall_mem_cons.2 ⟨hrest, hfound⟩)
    next => exact hfound

theorem Advances.oneOrMore {f : Spot → List Spot} (hf : Advances f) (greedy : Bool) :
    Advances (oneOrMore f greedy) := by
  intro p q hq
  refine List.foldlRecOn (motive := fun found : List Spot => ∀ q ∈ found, q.rest <:+ p.rest) _ _
    (by simp) ?_ q (List.mem_reverse.1 hq)
  intro found hfound r hr
  have hrest := hf p r hr
  split
  · exact hfound
  · split
    · split
      · exact List.forall_mem_cons.2 ⟨hrest, rounds_suffix hf hrest hfound⟩
      · exact rounds_suffix hf hrest (List.forall_mem_cons.2 ⟨hrest, hfound⟩)
    · exact List.forall_mem_cons.2 ⟨hrest, hfound⟩

theorem Regex.ends_advances (r : Regex) : Advances r.ends := by
  induction r with
  | empty =>
    intro p q hq
    rw [List.mem_singleton.1 hq]
  | set s =>
    intro p q hq
    simp only [Regex.ends] at hq
    split at hq
    next c cs hrest =>
      split at hq
      · rw [List.mem_singleton.1 hq, hrest]
        exact List.suffix_cons c cs
      · cases hq
    next => cases hq
  | look l | asciiLook l =>
    intro p q hq
    simp only [Regex.ends] at hq
    split at hq
    · rw [List.mem_singleton.1 hq]
    · cases hq
  | seq a b iha ihb => exact iha.andThen ihb
  | alt a b iha ihb =>
    intro p q hq
    exact (List.mem_append.1 hq).elim (iha p q) (ihb p q)
  | times n a ih => exact ih.repeated n
  | upTo n greedy a ih => exact ih.atMost greedy n
  | plus greedy a ih => exact ih.oneOrMore greedy

theorem Regex.suffix_of_head? {r : Regex} {p : Spot} {rest : List Char}
    (h : (r.ends p).head?.map (·.rest) = some rest) : rest <:+ p.rest := by
  obtain ⟨q, hq, rfl⟩ := Option.map_eq_some_iff.1 h
  exact r.ends_advances p q (List.mem_of_head? hq)

theorem Regex.searchFrom_suffix {r : Regex} {before : Option Char} {cs rest : List Char}
    (h : r.searchFrom before cs = some rest) : rest <:+ cs := by
  induction cs generalizing before with
  | nil => exact suffix_of_head? h
  | cons c cs ih =>
    unfold searchFrom at h
    split at h
    next q hq => exact suffix_of_head? (p := ⟨before, c :: cs⟩) (by rw [hq]; exact h)
    next => exact (ih h).trans (List.suffix_cons c cs)

theorem Regex.search_suffix {r : Regex} {cs rest : List Char} (h : r.search cs = some rest) :
    rest <:+ cs := by
  unfold search at h
  split at h
  · exact suffix_of_head? (p := .start cs) h
  · exact searchFrom_suffix h

/-- A pattern leaves a suffix of its input. -/
theorem match?_suffix {p : Pattern} {input rest : List Char} (h : p.match? input = some rest) :
    rest <:+ input := by
  unfold match? at h
  split at h
  next r hr =>
    split at h
    · cases h
    · exact Option.some.inj h ▸ Regex.search_suffix hr
  next => cases h

end Grammarian.Pattern
