import Grammarian.Proofs.Notation.Classes

/-!
# Codes that are written again

The codes of a text become escapes when it is made a pattern, and codes again when the pattern is written. A code of
one or three digits comes back with a zero in front, one with a digit that is not hexadecimal not at all. Main
statement: what comes back becomes the same escapes. As a code ends only where no letter or digit follows, or after
four of them, nothing behind a code that comes back can be taken into it.
-/

namespace Grammarian.CharCode

open Text Notation

variable {cs ds zeros : List Char} {m : Char} {k : Nat}

/-- A text is put together of codes, each with all its digits, and of characters that begin none. -/
@[elab_as_elim]
theorem induction_on_codes {motive : List Char → Prop} (nil : motive [])
    (char : ∀ c cs, opensCode (c :: cs) = false → motive cs → motive (c :: cs))
    (code : ∀ digits rest, IsCode ('#' :: 'x' :: digits) → Clear isAsciiAlnum rest → motive rest →
      motive ('#' :: 'x' :: digits ++ rest)) (cs : List Char) : motive cs := by
  induction hn : cs.length using Nat.strong_induction_on generalizing cs with
  | h n ih =>
    cases hopens : opensCode cs with
    | true =>
      obtain ⟨digits, rest, rfl, hdigits⟩ := exists_digits hopens
      obtain ⟨hcode, hclear⟩ := isDigits_iff.1 hdigits
      exact code digits rest hcode hclear (ih rest.length (by simp [← hn]; omega) rest rfl)
    | false =>
      cases cs with
      | nil => exact nil
      | cons c cs => exact char c cs hopens (ih cs.length (by simp [← hn]) cs rfl)

/-! ## One code -/

theorem expand_of_not_mem (h : '#' ∉ cs) : expand cs = cs := by
  rw [expand, expandCount_of_not_mem h, expandCount_of_not_mem h, expandCount_of_not_mem h,
    expandCount_of_not_mem h]

/-- An escape without its hexadecimal digits stays. -/
theorem restore_of_not_hex (hm : m = 'x' ∧ k = 2 ∨ m = 'u' ∧ k = 4) (hhex : startsWithHex k ds = false)
    (hds : ∀ d ∈ ds, isAsciiAlnum d = true) : restore ('\\' :: m :: ds) = '\\' :: m :: ds := by
  have hslash : '\\' ∉ ds := fun hmem => absurd (hds _ hmem) (by decide)
  rcases hm with ⟨rfl, rfl⟩ | ⟨rfl, rfl⟩
  · rw [restore, if_neg (by simp [hhex]), restore_cons (by decide), restore_of_not_mem hslash]
  · rw [restore, if_neg (by simp [hhex]), restore_cons (by decide), restore_of_not_mem hslash]

/-- A code with as many digits as an escape has becomes the escape with just these. -/
theorem expand_full (hm : m = 'x' ∧ k = 2 ∨ m = 'u' ∧ k = 4) (hlength : ds.length = k)
    (hds : ∀ d ∈ ds, isAsciiAlnum d = true) : expand ('#' :: 'x' :: ds) = '\\' :: m :: ds := by
  have hne : ds ≠ [] := by
    rintro rfl
    rw [List.length_nil] at hlength
    omega
  obtain ⟨m', k', zeros, hexpand, hm', hzeros, -, hshort, -⟩ := expand_digits hne hds
  have hfits := hshort (by omega)
  -- With a zero in front there would be three digits or five.
  rcases hzeros with rfl | rfl
  · rw [List.nil_append] at hexpand hfits
    obtain rfl : m' = m := by
      rcases hm with ⟨rfl, rfl⟩ | ⟨rfl, rfl⟩
      · exact (hm'.resolve_right fun h => by omega).1
      · exact (hm'.resolve_left fun h => by omega).1
    exact hexpand
  · rw [List.length_append, List.length_singleton] at hfits
    omega

/-- The escape of a code, however many digits the code has, becomes the same escape again. -/
theorem expand_restore_code (hne : ds ≠ []) (hds : ∀ d ∈ ds, isAsciiAlnum d = true) :
    expand (restore (expand ('#' :: 'x' :: ds))) = expand ('#' :: 'x' :: ds) := by
  obtain ⟨m, k, zeros, hexpand, hm, hzeros, -, hshort, hlong⟩ := expand_digits hne hds
  have hdigits := forall_mem_padded hzeros hds
  rw [hexpand]
  cases hhex : startsWithHex k (zeros ++ ds) with
  | false =>
    have hnone : '#' ∉ '\\' :: m :: (zeros ++ ds) := by
      have hnone : '#' ∉ zeros ++ ds := fun hmem => absurd (hdigits _ hmem) (by decide)
      rcases hm with ⟨rfl, -⟩ | ⟨rfl, -⟩
      · simpa using hnone
      · simpa using hnone
    rw [restore_of_not_hex hm hhex hdigits, expand_of_not_mem hnone]
  | true =>
    rw [restore_escape hm hhex hdigits]
    rcases Nat.lt_or_ge 4 ds.length with hmore | hle
    · obtain ⟨-, rfl⟩ := hlong hmore
      exact hexpand
    · exact expand_full hm (hshort hle) hdigits

/-! ## Texts -/

theorem clear_restore {p : Char → Bool} (hp : p '#' = false) (h : Clear p cs) : Clear p (restore cs) := by
  cases cs with
  | nil => rw [restore_of_not_mem List.not_mem_nil]; exact h
  | cons c cs =>
    obtain ⟨d, ds, hrestore, hd⟩ := restore_begins (c := c) cs
    rw [clear_cons] at h
    rw [hrestore, clear_cons]
    rcases hd with rfl | rfl
    · exact h
    · exact hp

theorem clear_reworded {p : Char → Bool} (hslash : p '\\' = false) (hhash : p '#' = false) (h : Clear p cs) :
    Clear p (reworded cs) :=
  clear_restore hhash (clear_expand hslash h)

/-- Where no code begins, none begins when those behind come back. -/
theorem opensCode_reworded (h : opensCode ('#' :: cs) = false) : opensCode ('#' :: reworded cs) = false := by
  rw [opensCode_hash_iff] at h ⊢
  intro r hr
  cases cs with
  | nil =>
    rw [reworded, expand_of_not_mem List.not_mem_nil, restore_of_not_mem List.not_mem_nil] at hr
    cases hr
  | cons c cs =>
    obtain ⟨d, ds, hbegins, hd⟩ := reworded_begins (c := c) cs
    rw [hbegins] at hr
    cases hr
    obtain rfl : 'x' = c := hd.resolve_right (by decide)
    rw [reworded_cons (by decide) (by decide)] at hbegins
    cases hbegins
    exact clear_reworded (by decide) (by decide) (h cs rfl)

/-- **Codes survive being written.** Where a text without backslashes has become the source of a pattern, this source,
with its escapes turned into codes, becomes the same source again. -/
theorem expand_restore_expand (cs : List Char) (h : '\\' ∉ cs) : expand (restore (expand cs)) = expand cs := by
  induction cs using induction_on_codes with
  | nil => rw [expand_of_not_mem List.not_mem_nil, restore_of_not_mem List.not_mem_nil,
      expand_of_not_mem List.not_mem_nil]
  | char c cs hnone ih =>
    rw [List.mem_cons, not_or] at h
    have hstays : expand (c :: cs) = c :: expand cs := expand_cons fun heq => heq ▸ hnone
    have hback : c = '#' → opensCode ('#' :: restore (expand cs)) = false := fun heq =>
      opensCode_reworded (heq ▸ hnone)
    rw [hstays, restore_cons (Ne.symm h.1), expand_cons hback, ih h.2]
  | code digits rest hcode hclear ih =>
    obtain ⟨ds, heq, hne, hds⟩ := hcode
    cases heq
    have hrest : '\\' ∉ rest := fun hmem => h (List.mem_append_right _ hmem)
    have hescapes : Clear isAsciiAlnum (expand rest) := clear_expand (by decide) hclear
    have hcodes : Clear isAsciiAlnum (restore (expand rest)) := clear_restore (by decide) hescapes
    rw [expand_append hclear, restore_append hescapes, expand_append hcodes, expand_restore_code hne hds, ih hrest]

/-- Codes of one to six digits, one behind the other and with digits that are not hexadecimal, between other
characters. -/
theorem adjacent_codes_survive : '\\' ∉ "[^#x9#x5D-#xg1#x10A#x1F600]#x##x7é".toList ∧
    String.ofList (expand "[^#x9#x5D-#xg1#x10A#x1F600]#x##x7é".toList) =
      "[^\\x09\\x5D-\\xg1\\u010A\\u1F600]#x#\\x07é" ∧
    String.ofList (restore (expand "[^#x9#x5D-#xg1#x10A#x1F600]#x##x7é".toList)) =
      "[^#x09#x5D-\\xg1#x010A#x1F600]#x##x07é" ∧
    expand (restore (expand "[^#x9#x5D-#xg1#x10A#x1F600]#x##x7é".toList)) =
      expand "[^#x9#x5D-#xg1#x10A#x1F600]#x##x7é".toList :=
  ⟨by decide, by decide +kernel, by decide +kernel, expand_restore_expand _ (by decide)⟩

/-- A backslash of the text itself may begin an escape, whose code would have one digit more. -/
example : expand (restore (expand "\\x410".toList)) ≠ expand "\\x410".toList := by decide +kernel

end Grammarian.CharCode
